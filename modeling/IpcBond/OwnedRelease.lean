import IpcBond.MemoryOwners

/-! When handles are released while their memory is owned: always by the holders of `bond::blob`s,
and by the buffers exactly where the order of their members leaves another owner. -/

namespace IpcBond.MemoryOwners

namespace World

variable {w : World} {i m : Nat} {pointer : Pointer}

theorem owned_iff : w.Owned m ↔ ∃ pointer, w.leads pointer = some m := by
  constructor
  · rintro ⟨owner, owns⟩
    cases owner with
    | external i => exact ⟨.external i, owns⟩
    | implementation impl =>
      obtain ⟨memory, pointer, refers⟩ := owns
      cases pointer with
      | pool i => exact ⟨.pool i, by rw [leads, refers]; exact memory⟩
      | output i => exact ⟨.output i, by rw [leads, refers]; exact memory⟩
      | external i => cases refers
      | input i => cases refers
      | blob i => cases refers
    | input i =>
      obtain ⟨s, found, memory⟩ := owns
      exact ⟨.input i, by rw [leads, found]; exact memory⟩
    | holder h =>
      obtain ⟨memory, i, found⟩ := owns
      exact ⟨.blob i, by rw [leads, holderOf, found]; exact memory⟩
  · rintro ⟨pointer, leads_⟩
    cases pointer with
    | external i => exact ⟨.external i, leads_⟩
    | pool i =>
      obtain ⟨impl, refers, memory⟩ := Option.bind_eq_some_iff.1 leads_
      exact ⟨.implementation impl, memory, .pool i, refers⟩
    | output i =>
      obtain ⟨impl, refers, memory⟩ := Option.bind_eq_some_iff.1 leads_
      exact ⟨.implementation impl, memory, .output i, refers⟩
    | input i =>
      obtain ⟨s, found, memory⟩ := Option.bind_eq_some_iff.1 leads_
      exact ⟨.input i, s, found, memory⟩
    | blob i =>
      obtain ⟨holder, found, memory⟩ := Option.map_eq_some_iff.1 leads_
      obtain ⟨h, blob, present⟩ := Option.bind_eq_some_iff.1 found
      exact ⟨.holder h, by rw [present]; exact congrArg some memory, i, Option.join_eq_some_iff.1 blob⟩

def pointers (w : World) : List Pointer :=
  (List.range w.externals.length).map .external ++ (List.range w.pools.length).map .pool ++
    (List.range w.outputs.length).map .output ++ (List.range w.inputs.length).map .input ++
    (List.range w.blobs.length).map .blob

theorem mem_pointers (owner : w.leads pointer = some m) : pointer ∈ w.pointers := by
  have inside : ∀ {α : Type} {slots : List (Option α)} {i : Nat} {a : α}, slots[i]?.join = some a → i < slots.length :=
    fun found => (List.getElem?_eq_some_iff.1 (Option.join_eq_some_iff.1 found)).1
  cases pointer with
  | external i => simp [pointers, inside owner]
  | pool i =>
    obtain ⟨impl, found, _⟩ := Option.bind_eq_some_iff.1 owner
    simp [pointers, inside found]
  | output i =>
    obtain ⟨impl, refers, _⟩ := Option.bind_eq_some_iff.1 owner
    obtain ⟨o, found, _⟩ := Option.bind_eq_some_iff.1 refers
    simp [pointers, inside found]
  | input i =>
    obtain ⟨s, found, _⟩ := Option.bind_eq_some_iff.1 owner
    simp [pointers, inside found]
  | blob i =>
    obtain ⟨holder, held, _⟩ := Option.map_eq_some_iff.1 owner
    obtain ⟨h, found, _⟩ := Option.bind_eq_some_iff.1 held
    simp [pointers, inside (Option.join_eq_some_iff.1 found)]

instance (w : World) (m : Nat) : Decidable (w.Owned m) :=
  decidable_of_iff (∃ pointer ∈ w.pointers, w.leads pointer = some m)
    (owned_iff.trans ⟨fun ⟨pointer, owner⟩ => ⟨pointer, mem_pointers owner, owner⟩,
      fun ⟨pointer, _, owner⟩ => ⟨pointer, owner⟩⟩).symm

theorem lt_of_outputAt {o : OutputMembers} (found : w.outputAt i = some o) : i < w.outputs.length :=
  (List.getElem?_eq_some_iff.1 (Option.join_eq_some_iff.1 found)).1

theorem lt_of_inputAt {s : InputMembers} (found : w.inputAt i = some s) : i < w.inputs.length :=
  (List.getElem?_eq_some_iff.1 (Option.join_eq_some_iff.1 found)).1

theorem outputAt_setOutput {o : OutputMembers} (found : w.outputAt i = some o) (new : Option OutputMembers) (j : Nat) :
    (w.setOutput i new).outputAt j = if j = i then new else w.outputAt j := by
  rw [outputAt, setOutput, List.getElem?_set]
  split
  · next same => rw [if_pos (lt_of_outputAt found), if_pos same.symm]; rfl
  · next other => rw [if_neg (Ne.symm other)]; rfl

theorem inputAt_setInput {s : InputMembers} (found : w.inputAt i = some s) (new : Option InputMembers) (j : Nat) :
    (w.setInput i new).inputAt j = if j = i then new else w.inputAt j := by
  rw [inputAt, setInput, List.getElem?_set]
  split
  · next same => rw [if_pos (lt_of_inputAt found), if_pos same.symm]; rfl
  · next other => rw [if_neg (Ne.symm other)]; rfl

theorem leads_setOutput {o : OutputMembers} (found : w.outputAt i = some o) (new : OutputMembers) (other : Pointer) :
    (w.setOutput i (some new)).leads other =
      if other = .output i then new.pool.bind fun impl => w.impls[impl]? else w.leads other := by
  cases other with
  | output j =>
    rw [leads, implOf, outputAt_setOutput found]
    by_cases same : j = i
    · rw [if_pos same, if_pos (by rw [same])]
      rfl
    · rw [if_neg same, if_neg (by simpa using same)]
      rfl
  | _ => rfl

theorem leads_setInput {s : InputMembers} (found : w.inputAt i = some s) (new : InputMembers) (other : Pointer) :
    (w.setInput i (some new)).leads other = if other = .input i then new.memory else w.leads other := by
  cases other with
  | input j =>
    rw [leads, inputAt_setInput found]
    by_cases same : j = i
    · rw [if_pos same, if_pos (by rw [same])]
      rfl
    · rw [if_neg same, if_neg (by simpa using same)]
      rfl
  | _ => rfl

theorem owned_resetPool {o : OutputMembers} (found : w.outputAt i = some o) (new : OutputMembers) (none : new.pool = none) :
    (w.setOutput i (some new)).Owned m ↔ w.OwnedBesides (.output i) m := by
  rw [owned_iff]
  refine exists_congr fun other => ?_
  rw [leads_setOutput found, none]
  split
  · next same => simp [same]
  · next different => simp [different]

theorem owned_replaceMemory {target source : Nat} {old new : InputMembers} (there : w.inputAt target = some old)
    (found : w.inputAt source = some new) (different : target ≠ source) (move : Bool) :
    ((w.setInput source (some (if move then new.movedFrom else new))).setInput target
      (some { old with memory := new.memory })).Owned m ↔ w.OwnedBesides (.input target) m := by
  have there' : (w.setInput source (some (if move then new.movedFrom else new))).inputAt target = some old := by
    rw [inputAt_setInput found, if_neg different, there]
  have given : w.leads (.input source) = new.memory := by rw [leads, found]; rfl
  have apart : Pointer.input source ≠ .input target := by simpa using different.symm
  rw [owned_iff]
  constructor
  · rintro ⟨other, memory⟩
    rw [leads_setInput there', leads_setInput found] at memory
    split at memory
    · exact ⟨.input source, apart, given.trans memory⟩
    · next unlike =>
      split at memory
      · next same =>
        refine ⟨other, unlike, ?_⟩
        rw [same, given]
        cases move with
        | true => cases memory
        | false => exact memory
      · exact ⟨other, unlike, memory⟩
  · rintro ⟨other, unlike, memory⟩
    by_cases same : other = .input source
    · refine ⟨.input target, ?_⟩
      rw [leads_setInput there', if_pos rfl, ← given, ← same, memory]
    · refine ⟨other, ?_⟩
      rw [leads_setInput there', if_neg unlike, leads_setInput found, if_neg same, memory]

/-- An `OutputBuffer` that has a pool has its items from there, and a holder has the memory of its
blob. -/
structure Consistent (w : World) : Prop where
  outputs : ∀ o, some o ∈ w.outputs → ∀ impl, o.pool = some impl →
    ∀ m, o.buffer = some m ∨ o.blob = some m → w.impls[impl]? = some m
  holders : ∀ holder ∈ w.holders, holder.memory = holder.blob

theorem initial_consistent : initial.Consistent := ⟨nofun, nofun⟩

end World

/-- The condition of a step under which it releases no handle whose memory has no owner left. An
`OutputBuffer` that is destroyed, or an `InputBuffer` that is assigned, needs an owner besides its
own pointer. So does what a move has left, and an `InputBuffer` with another memory than that of
its buffer. -/
def Action.Keeps (w : World) : Action → Prop
  | .destroyOutput i => ∀ o, w.outputAt i = some o →
    ∀ m, o.buffer = some m ∨ o.blob = some m → w.OwnedBesides (.output i) m
  | .assignOutput target source => target ≠ source → ∀ o, w.outputAt target = some o → o.pool = none →
    ∀ m, o.buffer = some m ∨ o.blob = some m → w.OwnedBesides (.output target) m
  | .destroyInput i => ∀ s, w.inputAt i = some s →
    ∀ m, s.buffer = some m → s.memory ≠ some m → w.OwnedBesides (.input i) m
  | .assignInput target source _ => target ≠ source → ∀ s, w.inputAt target = some s →
    ∀ m, s.buffer = some m → w.OwnedBesides (.input target) m
  | _ => True

def Kept (w : World) : List Action → Prop
  | [] => True
  | action :: rest => action.Keeps w ∧ ∀ t releases, w.step action = some (t, releases) → Kept t rest

def Release.Safe (r : Release) : Prop := r.world.Owned r.memory

theorem release_safe {handle : Option Nat} {w : World} :
    (∀ r ∈ release handle w, r.Safe) ↔ ∀ m, handle = some m → w.Owned m := by
  cases handle with
  | none => simp [release]
  | some m => simp [release, Release.Safe]

theorem releases_safe {first second : List Release} :
    (∀ r ∈ first ++ second, r.Safe) ↔ (∀ r ∈ first, r.Safe) ∧ ∀ r ∈ second, r.Safe := List.forall_mem_append

namespace World

variable {w t : World} {releases : List Release}

theorem mem_outputs {i : Nat} {o : OutputMembers} (found : w.outputAt i = some o) : some o ∈ w.outputs :=
  List.mem_of_getElem? (Option.join_eq_some_iff.1 found)

theorem Consistent.leads_output (consistent : w.Consistent) {i : Nat} {o : OutputMembers} (found : w.outputAt i = some o)
    {impl m : Nat} (pool : o.pool = some impl) (handle : o.buffer = some m ∨ o.blob = some m) :
    w.leads (.output i) = some m := by
  rw [leads, implOf, found, Option.bind_some, pool]
  exact consistent.outputs o (mem_outputs found) impl pool m handle

theorem replaceBlob_spec (consistent : w.Consistent) {i : Nat} (run : w.replaceBlob i = some (t, releases)) :
    t.Consistent ∧ ∀ r ∈ releases, r.Safe := by
  obtain ⟨o, found, run⟩ := Option.bind_eq_some_iff.1 run
  obtain ⟨m, memory, same⟩ := Option.bind_eq_some_iff.1 run
  cases same
  obtain ⟨impl, pool, owner⟩ := Option.bind_eq_some_iff.1 memory
  rw [implOf, found, Option.bind_some] at pool
  refine ⟨⟨fun other member impl' pool' m' handle => ?_, consistent.holders⟩, release_safe.2 fun m' handle => ?_⟩
  · rcases List.mem_or_eq_of_mem_set member with before | same
    · exact consistent.outputs other before impl' pool' m' handle
    · cases same
      rcases handle with buffer | blob
      · exact consistent.outputs o (mem_outputs found) impl' pool' m' (Or.inl buffer)
      · cases blob
        rw [pool] at pool'
        cases pool'
        exact owner
  · exact owned_iff.2 ⟨.output i, consistent.leads_output found pool (Or.inr handle)⟩

theorem assignOutput_spec (consistent : w.Consistent) {target source : Nat}
    (run : w.assignOutput target source = some (t, releases)) :
    t.Consistent ∧ ((∀ r ∈ releases, r.Safe) ↔ (Action.assignOutput target source).Keeps w) := by
  obtain ⟨old, there, run⟩ := Option.bind_eq_some_iff.1 run
  obtain ⟨new, found, run⟩ := Option.bind_eq_some_iff.1 run
  split at run
  · next same =>
    cases run
    exact ⟨consistent, by simp [Action.Keeps, same]⟩
  · next different =>
    cases run
    refine ⟨⟨fun o member impl pool m handle => ?_, consistent.holders⟩, ?_⟩
    · rcases List.mem_or_eq_of_mem_set member with before | same
      · rcases List.mem_or_eq_of_mem_set before with before | same
        · exact consistent.outputs o before impl pool m handle
        · cases same
          cases pool
      · cases same
        exact consistent.outputs new (mem_outputs found) impl pool m handle
    · -- the pool is replaced last, so both handles go while the old one still owns their memory
      have kept : ∀ m, (w.setOutput target (some { old with blob := new.blob })).Owned m ↔ w.Owned m := by
        intro m
        rw [owned_iff, owned_iff]
        refine exists_congr fun other => ?_
        rw [leads_setOutput there]
        split
        · next same => rw [same, leads, implOf, there]; rfl
        · rfl
      have owned : ∀ m, old.buffer = some m ∨ old.blob = some m →
          (w.Owned m ↔ (old.pool = none → w.OwnedBesides (.output target) m)) := by
        intro m handle
        rw [owned_iff]
        cases pool : old.pool with
        | none =>
          have empty : w.leads (.output target) = none := by
            rw [leads, implOf, there, Option.bind_some, pool]
            rfl
          constructor
          · rintro ⟨other, memory⟩ _
            refine ⟨other, ?_, memory⟩
            rintro rfl
            rw [empty] at memory
            cases memory
          · intro besides
            obtain ⟨other, _, memory⟩ := besides rfl
            exact ⟨other, memory⟩
        | some impl =>
          exact ⟨fun _ => nofun, fun _ => ⟨.output target, consistent.leads_output there pool handle⟩⟩
      rw [releases_safe, release_safe, release_safe]
      simp only [kept, Action.Keeps]
      constructor
      · rintro ⟨blob, buffer⟩ _ o found' pool m handle
        rw [there] at found'
        cases found'
        rcases handle with isBuffer | isBlob
        · exact (owned m (Or.inl isBuffer)).1 (buffer m isBuffer) pool
        · exact (owned m (Or.inr isBlob)).1 (blob m isBlob) pool
      · intro keeps
        exact ⟨fun m isBlob => (owned m (Or.inr isBlob)).2 fun pool => keeps different old there pool m (Or.inr isBlob),
          fun m isBuffer => (owned m (Or.inl isBuffer)).2 fun pool => keeps different old there pool m (Or.inl isBuffer)⟩

/-- The pool goes first when an `OutputBuffer` is destroyed. -/
theorem destroyOutput_spec (consistent : w.Consistent) {i : Nat} (run : w.destroyOutput i = some (t, releases)) :
    t.Consistent ∧ ((∀ r ∈ releases, r.Safe) ↔ (Action.destroyOutput i).Keeps w) := by
  obtain ⟨o, found, same⟩ := Option.bind_eq_some_iff.1 run
  cases same
  refine ⟨⟨fun other member impl pool m handle => ?_, consistent.holders⟩, ?_⟩
  · rcases List.mem_or_eq_of_mem_set member with before | same
    · exact consistent.outputs other before impl pool m handle
    · cases same
  · rw [releases_safe, release_safe, release_safe]
    simp only [owned_resetPool found { o with pool := none } rfl,
      owned_resetPool found { o with pool := none, buffer := none } rfl, Action.Keeps, found, Option.some.injEq,
      forall_eq', or_imp, forall_and]

theorem assignInput_spec (consistent : w.Consistent) {target source : Nat} {move : Bool}
    (run : w.assignInput target source move = some (t, releases)) :
    t.Consistent ∧ ((∀ r ∈ releases, r.Safe) ↔ (Action.assignInput target source move).Keeps w) := by
  obtain ⟨old, there, run⟩ := Option.bind_eq_some_iff.1 run
  obtain ⟨new, found, run⟩ := Option.bind_eq_some_iff.1 run
  split at run
  · next same =>
    cases run
    exact ⟨consistent, by simp [Action.Keeps, same]⟩
  · next different =>
    cases run
    refine ⟨⟨consistent.outputs, consistent.holders⟩, ?_⟩
    rw [release_safe]
    simp only [owned_replaceMemory there found different move, Action.Keeps, there, Option.some.injEq, forall_eq']
    exact ⟨fun owned _ => owned, fun keeps => keeps different⟩

theorem destroyInput_spec (consistent : w.Consistent) {i : Nat} (run : w.destroyInput i = some (t, releases)) :
    t.Consistent ∧ ((∀ r ∈ releases, r.Safe) ↔ (Action.destroyInput i).Keeps w) := by
  obtain ⟨s, found, same⟩ := Option.bind_eq_some_iff.1 run
  cases same
  refine ⟨⟨consistent.outputs, consistent.holders⟩, ?_⟩
  have own : w.leads (.input i) = s.memory := by rw [leads, found]; rfl
  rw [release_safe]
  simp only [Action.Keeps, found, Option.some.injEq, forall_eq', owned_iff]
  refine forall₂_congr fun m buffer => ⟨?_, fun besides => ?_⟩
  · rintro ⟨other, memory⟩ unlike
    refine ⟨other, ?_, memory⟩
    rintro rfl
    exact unlike (own.symm.trans memory)
  · by_cases same : s.memory = some m
    · exact ⟨.input i, own.trans same⟩
    · obtain ⟨other, _, memory⟩ := besides same
      exact ⟨other, memory⟩

theorem setBlob_spec (consistent : w.Consistent) (i : Nat) (blob : Option (Option Nat)) :
    (w.setBlob i blob).1.Consistent ∧ ∀ r ∈ (w.setBlob i blob).2, r.Safe := by
  refine ⟨⟨consistent.outputs, consistent.holders⟩, ?_⟩
  unfold setBlob
  simp only
  split
  · simp
  · refine release_safe.2 fun m released => ?_
    obtain ⟨holder, found, same⟩ := Option.map_eq_some_iff.1 released
    obtain ⟨h, _, present⟩ := Option.bind_eq_some_iff.1 found
    refine owned_iff.2 ⟨.blob i, ?_⟩
    rw [leads, found, Option.map_some, consistent.holders holder (List.mem_of_getElem? present), same]

theorem castBlob_spec (consistent : w.Consistent) {handle memory : Option Nat} (run : w.castBlob handle memory = some t) :
    t.Consistent := by
  obtain ⟨blob, _, run⟩ := Option.bind_eq_some_iff.1 run
  split at run
  · cases run
    refine ⟨consistent.outputs, fun holder member => ?_⟩
    rcases List.mem_append.1 member with before | last
    · exact consistent.holders holder before
    · rw [List.mem_singleton.1 last]
  · cases run

theorem nothing_released {action : Action} (keeps : action.Keeps w) :
    (∀ r ∈ ([] : List Release), r.Safe) ↔ action.Keeps w := by simp [keeps]

theorem createPool_consistent (consistent : w.Consistent) (m impl : Nat) :
    Consistent { w with impls := w.impls ++ [m], pools := w.pools ++ [some impl] } := by
  refine ⟨fun o member impl pool m' handle => ?_, consistent.holders⟩
  have before := consistent.outputs o member impl pool m' handle
  rw [List.getElem?_append_left (List.getElem?_eq_some_iff.1 before).1, before]

theorem makeOutput_consistent (consistent : w.Consistent) {impl m : Nat} (memory : w.impls[impl]? = some m) :
    Consistent { w with outputs := w.outputs ++ [some ⟨some m, some m, some impl⟩] } := by
  refine ⟨fun o member impl' pool m' handle => ?_, consistent.holders⟩
  rcases List.mem_append.1 member with before | last
  · exact consistent.outputs o before impl' pool m' handle
  · cases List.mem_singleton.1 last
    cases pool
    rcases handle with same | same <;> cases same <;> exact memory

theorem moveOutput_consistent (consistent : w.Consistent) {i : Nat} {o : OutputMembers} (found : w.outputAt i = some o) :
    Consistent { w with outputs := w.outputs.set i (some o.movedFrom) ++ [some o] } := by
  refine ⟨fun other member impl pool m handle => ?_, consistent.holders⟩
  rcases List.mem_append.1 member with rest | last
  · rcases List.mem_or_eq_of_mem_set rest with before | same
    · exact consistent.outputs other before impl pool m handle
    · cases same
      cases pool
  · cases List.mem_singleton.1 last
    exact consistent.outputs o (mem_outputs found) impl pool m handle

/-- A step releases handles only while their memory is owned exactly when it meets its condition. -/
theorem step_spec (consistent : w.Consistent) {action : Action} (run : w.step action = some (t, releases)) :
    t.Consistent ∧ ((∀ r ∈ releases, r.Safe) ↔ action.Keeps w) := by
  cases action with
  | createMemory =>
    cases run
    exact ⟨⟨consistent.outputs, consistent.holders⟩, nothing_released trivial⟩
  | copyMemory source =>
    obtain ⟨m, _, run⟩ := Option.bind_eq_some_iff.1 run
    cases run
    exact ⟨⟨consistent.outputs, consistent.holders⟩, nothing_released trivial⟩
  | dropMemory i =>
    obtain ⟨m, _, run⟩ := Option.bind_eq_some_iff.1 run
    split at run
    · cases run
    · cases run
      exact ⟨⟨consistent.outputs, consistent.holders⟩, nothing_released trivial⟩
  | createPool memory =>
    obtain ⟨m, _, run⟩ := Option.bind_eq_some_iff.1 run
    cases run
    exact ⟨createPool_consistent consistent m _, nothing_released trivial⟩
  | copyPool source =>
    obtain ⟨impl, _, run⟩ := Option.bind_eq_some_iff.1 run
    cases run
    exact ⟨⟨consistent.outputs, consistent.holders⟩, nothing_released trivial⟩
  | dropPool i =>
    obtain ⟨m, _, run⟩ := Option.bind_eq_some_iff.1 run
    split at run
    · cases run
    · cases run
      exact ⟨⟨consistent.outputs, consistent.holders⟩, nothing_released trivial⟩
  | takeHandle source =>
    obtain ⟨m, _, run⟩ := Option.bind_eq_some_iff.1 run
    cases run
    exact ⟨⟨consistent.outputs, consistent.holders⟩, nothing_released trivial⟩
  | copyHandle i =>
    obtain ⟨m, _, run⟩ := Option.bind_eq_some_iff.1 run
    cases run
    exact ⟨⟨consistent.outputs, consistent.holders⟩, nothing_released trivial⟩
  | dropHandle i =>
    cases run
    exact ⟨⟨consistent.outputs, consistent.holders⟩, nothing_released trivial⟩
  | makeOutput pool =>
    obtain ⟨impl, _, run⟩ := Option.bind_eq_some_iff.1 run
    obtain ⟨m, memory, run⟩ := Option.bind_eq_some_iff.1 run
    cases run
    exact ⟨makeOutput_consistent consistent memory, nothing_released trivial⟩
  | replaceBlob i =>
    obtain ⟨next, safe⟩ := replaceBlob_spec consistent run
    exact ⟨next, fun _ => trivial, fun _ => safe⟩
  | moveOutput i =>
    obtain ⟨o, found, run⟩ := Option.bind_eq_some_iff.1 run
    cases run
    exact ⟨moveOutput_consistent consistent found, nothing_released trivial⟩
  | assignOutput target source => exact assignOutput_spec consistent run
  | destroyOutput i => exact destroyOutput_spec consistent run
  | emptyInput =>
    cases run
    exact ⟨⟨consistent.outputs, consistent.holders⟩, nothing_released trivial⟩
  | makeInput handle memory =>
    obtain ⟨m, _, run⟩ := Option.bind_eq_some_iff.1 run
    cases run
    exact ⟨⟨consistent.outputs, consistent.holders⟩, nothing_released trivial⟩
  | copyInput i =>
    obtain ⟨s, _, run⟩ := Option.bind_eq_some_iff.1 run
    cases run
    exact ⟨⟨consistent.outputs, consistent.holders⟩, nothing_released trivial⟩
  | moveInput i =>
    obtain ⟨s, _, run⟩ := Option.bind_eq_some_iff.1 run
    cases run
    exact ⟨⟨consistent.outputs, consistent.holders⟩, nothing_released trivial⟩
  | assignInput target source move => exact assignInput_spec consistent run
  | destroyInput i => exact destroyInput_spec consistent run
  | emptyBlob =>
    cases run
    exact ⟨⟨consistent.outputs, consistent.holders⟩, nothing_released trivial⟩
  | castBlob handle memory =>
    obtain ⟨u, cast, run⟩ := Option.bind_eq_some_iff.1 run
    cases run
    exact ⟨castBlob_spec consistent cast, nothing_released trivial⟩
  | readBlob i =>
    obtain ⟨s, _, run⟩ := Option.bind_eq_some_iff.1 run
    obtain ⟨u, cast, run⟩ := Option.bind_eq_some_iff.1 run
    cases run
    exact ⟨castBlob_spec consistent cast, nothing_released trivial⟩
  | copyBlob i =>
    obtain ⟨blob, _, run⟩ := Option.bind_eq_some_iff.1 run
    cases run
    exact ⟨⟨consistent.outputs, consistent.holders⟩, nothing_released trivial⟩
  | assignBlob target source =>
    obtain ⟨_, _, run⟩ := Option.bind_eq_some_iff.1 run
    obtain ⟨blob, _, run⟩ := Option.bind_eq_some_iff.1 run
    obtain ⟨next, safe⟩ := setBlob_spec consistent target (some blob)
    cases run
    exact ⟨next, fun _ => trivial, fun _ => safe⟩
  | destroyBlob i =>
    obtain ⟨_, _, run⟩ := Option.bind_eq_some_iff.1 run
    obtain ⟨next, safe⟩ := setBlob_spec consistent i none
    cases run
    exact ⟨next, fun _ => trivial, fun _ => safe⟩

theorem run_spec (consistent : w.Consistent) {actions : List Action} (run : w.run actions = some (t, releases)) :
    (∀ r ∈ releases, r.Safe) ↔ Kept w actions := by
  induction actions generalizing w releases with
  | nil =>
    cases run
    simp [Kept]
  | cons action rest ih =>
    obtain ⟨⟨u, now⟩, step, run⟩ := Option.bind_eq_some_iff.1 run
    obtain ⟨⟨v, later⟩, ran, same⟩ := Option.bind_eq_some_iff.1 run
    cases same
    obtain ⟨next, safe⟩ := step_spec consistent step
    rw [releases_safe, safe, ih next ran, Kept]
    refine and_congr_right fun _ => ⟨fun kept t' releases' step' => ?_, fun kept => kept u now step⟩
    rw [step] at step'
    cases step'
    exact kept

end World

/-- On a run every handle is released while its memory is owned exactly when all steps meet their
condition. -/
theorem released_owned_iff {actions : List Action} {w : World} {releases : List Release}
    (run : World.initial.run actions = some (w, releases)) :
    (∀ r ∈ releases, r.world.Owned r.memory) ↔ Kept World.initial actions :=
  World.run_spec World.initial_consistent run

def handingOn : List Action :=
  [.createMemory, .createPool (.external 0), .makeOutput (.pool 0), .replaceBlob 0, .takeHandle (.output 0),
    .makeInput 0 (.external 0), .readBlob 0, .dropHandle 0, .destroyOutput 0, .dropPool 0, .dropMemory 0,
    .destroyInput 0, .destroyBlob 0]

theorem released_owned_handingOn :
    ∃ w releases, World.initial.run handingOn = some (w, releases) ∧ releases.length = 5 ∧
      (∀ r ∈ releases, r.world.Owned r.memory) ∧ Kept World.initial handingOn := by
  have ran : (World.initial.run handingOn).any fun outcome =>
      decide (outcome.2.length = 5 ∧ ∀ r ∈ outcome.2, r.world.Owned r.memory) := by decide
  obtain ⟨⟨w, releases⟩, run, both⟩ := (Option.any_eq_true _ _).1 ran
  obtain ⟨five, owned⟩ := of_decide_eq_true both
  exact ⟨w, releases, run, five, owned, (released_owned_iff run).1 owned⟩

def lastPool : List Action :=
  [.createMemory, .createPool (.external 0), .dropMemory 0, .makeOutput (.pool 0), .dropPool 0, .destroyOutput 0]

def lastMemory : List Action :=
  [.createMemory, .createPool (.external 0), .takeHandle (.pool 0), .makeInput 0 (.external 0), .dropHandle 0,
    .dropPool 0, .dropMemory 0, .emptyInput, .assignInput 0 1 false]

/-- Both release a handle when its memory has no owner left. -/
theorem released_unowned :
    (∃ w releases, World.initial.run lastPool = some (w, releases) ∧ ∃ r ∈ releases, ¬ r.world.Owned r.memory) ∧
      ∃ w releases, World.initial.run lastMemory = some (w, releases) ∧ ∃ r ∈ releases, ¬ r.world.Owned r.memory := by
  have ran : ∀ actions ∈ [lastPool, lastMemory], (World.initial.run actions).any fun outcome =>
      decide (∃ r ∈ outcome.2, ¬ r.world.Owned r.memory) := by decide
  have unowned : ∀ actions ∈ [lastPool, lastMemory], ∃ w releases, World.initial.run actions = some (w, releases) ∧
      ∃ r ∈ releases, ¬ r.world.Owned r.memory := by
    intro actions member
    obtain ⟨⟨w, releases⟩, run, found⟩ := (Option.any_eq_true _ _).1 (ran actions member)
    exact ⟨w, releases, run, of_decide_eq_true found⟩
  exact ⟨unowned _ (by simp), unowned _ (by simp)⟩

end IpcBond.MemoryOwners
