import IpcBond.BlobOwnership

/-! Each effect of an `OutputBuffer` is defined, and changes no blob but the one that it owns. -/

namespace IpcBond.Pool
open Library.RefCount Library.StateExcept Relation OutputBuffer

namespace State

variable {s t : State} {slot other d : Nat} {vector : ByteVector}

theorem Own.apart {d' : Nat} {vector' : ByteVector} (own : s.Own slot d vector) (own' : s.Own other d' vector')
    (different : other ≠ slot) : d' ≠ d := by
  rintro rfl
  obtain ⟨item, found, data⟩ := own'.held
  exact different (own.exclusive other item found data)

theorem Own.setBlob (owned : Owned s.heap s.ledger) (faithful : Faithful s.books) (own : s.Own slot d vector)
    (new : ByteVector) :
    let t : State := { s with heap := s.heap.setBlob d new }
    Owned t.heap t.ledger ∧ Faithful t.books ∧ Untouched s.books t.books ∧ t.Own slot d new ∧
      ∀ other, other ≠ slot → Spares s t other := by
  intro t
  have ledger : t.ledger = s.ledger := ledger_heap _ (Heap.total_setBlob _ _ _ _ _)
  have blobAt := fun e => Heap.blobAt_setBlob (e := e) (owned.uses_ne_zero own.mem_ledger) new
  have parts : ∀ part, .part part ∈ t.ledger → .part part ∈ s.ledger := fun part member => by rwa [ledger] at member
  have unpublished : ∀ part, .part part ∈ t.ledger → part.item.data ≠ d := fun part member =>
    own.unpublished part (parts part member)
  have untouched : Untouched s.books t.books := fun part member =>
    (blobAt _).trans (if_neg (unpublished part member).symm)
  refine ⟨?_, fun part member => ?_, untouched, ⟨own.held, ?_, unpublished, own.exclusive⟩,
    fun other different => ⟨rfl, rfl, fun d' vector' own' => ?_⟩⟩
  · rw [ledger]
    exact owned.setBlob own.mem_ledger new
  · rw [faithful part (parts part member)]
    exact congrArg ByteVector.elements (untouched part member).symm
  · exact (blobAt d).trans (if_pos rfl)
  · exact own'.transport rfl ((blobAt d').trans (if_neg (own.apart own' different).symm))
      (fun part member data => ⟨part, parts part member, data⟩) fun j item different found _ => ⟨j, different, found⟩

theorem pushPart_keeps (owned : Owned s.heap s.ledger) (faithful : Faithful s.books) {buffer : Nat} {part : Part}
    (copied : Moves s.books (s.heap.acquireItem (some part.item), partRefs (some part) + s.ledger))
    (elements : part.elements = (s.heap.blobAt part.item.data).elements)
    (run : s.pushPart buffer (some part) = some t) :
    Owned t.heap t.ledger ∧ Faithful t.books ∧ Untouched s.books t.books ∧ t.handles = s.handles ∧
      ∀ slot d vector, s.Own slot d vector → part.item.data ≠ d → t.Own slot d vector := by
  obtain ⟨moves, handles, ledger, blobAt⟩ := pushPart_spec owned (some part) copied run
  have parts : ∀ other, .part other ∈ t.ledger → other = part ∨ .part other ∈ s.ledger := by
    intro other member
    rw [ledger, partRefs] at member
    simpa [or_assoc] using member
  have handleAt : ∀ j, t.handleAt j = s.handleAt j := fun j => by rw [State.handleAt, State.handleAt, handles]
  refine ⟨moves.owned owned, fun other member => ?_, fun other _ => blobAt _, handles,
    fun slot d vector own different => ?_⟩
  · rw [blobAt]
    rcases parts other member with rfl | before
    · exact elements
    · exact faithful other before
  · refine own.transport (handleAt slot) (blobAt d) (fun other member data => ?_) fun j item elsewhere found _ =>
      ⟨j, elsewhere, by rwa [handleAt] at found⟩
    rcases parts other member with rfl | before
    · exact absurd data different
    · exact ⟨other, before, data⟩

structure Pair (s : State) (slot : Nat) : Prop where
  blob : ∃ item, s.handleAt slot = some (.blob item)
  buffer : ∃ item, s.handleAt (slot + 1) = some (.buffer (some item))

theorem Pair.lt (pair : s.Pair slot) : slot < s.handles.length ∧ slot + 1 < s.handles.length := by
  obtain ⟨⟨_, blob⟩, _, buffer⟩ := pair
  exact ⟨lt_of_handleAt blob, lt_of_handleAt buffer⟩

theorem Pair.of_spares (pair : s.Pair slot) (spares : Spares s t slot) : t.Pair slot :=
  ⟨by rw [spares.blob]; exact pair.blob, by rw [spares.buffer]; exact pair.buffer⟩

theorem take_keeps (owned : Owned s.heap s.ledger) (faithful : Faithful s.books) {p popped : Nat} {item : Item}
    (handle : Handle) (run : s.take p popped = some (item, t)) {ref : Ref}
    (kind : ref = .blob item.data ∨ ref = .buffer item.data) (refs : handle.refs = {ref} + {.queue item.queue})
    (same : handle.item = some item) :
    let u := t.addHandle handle
    Owned u.heap u.ledger ∧ Faithful u.books ∧ (∀ d, u.heap.blobAt d = s.heap.blobAt d) ∧
      u.handles = s.handles ++ [some handle] ∧ (∀ slot, s.Pair slot → Spares s u slot) ∧
      (∀ part, .part part ∈ u.ledger → part.item.data ≠ item.data) ∧
      ∀ j other, s.handleAt j = some (.blob (some other)) → other.data ≠ item.data := by
  intro u
  obtain ⟨quiet, frame⟩ := take_quiet owned run
  obtain ⟨parked, _, blobAt, _⟩ := take_spec owned run
  have handles : u.handles = s.handles ++ [some handle] := by
    have before : t.handles = s.handles := by rw [frame]
    rw [← before]
    rfl
  have handleAt : ∀ j, u.handleAt j = if j = s.handles.length then some handle else s.handleAt j := by
    intro j
    rw [← handleAt_addHandle, State.handleAt, handles]
    rfl
  have keeps := quiet.keeps owned
  have parts : ∀ part, .part part ∈ u.ledger → ∃ old, .part old ∈ s.ledger ∧ part.item = old.item ∧
      part.elements = old.elements := by
    intro part member
    rw [ledger_addHandle, refs] at member
    have before : .part part ∈ t.ledger := by
      rcases kind with rfl | rfl <;> simpa using member
    exact (keeps.part (Multiset.mem_cons_of_mem (Multiset.mem_cons_of_mem before))).2
  have fresh : ∀ part, .part part ∈ s.ledger → part.item.data ≠ item.data := by
    intro part member data
    cases parked _ member (by rw [Ref.node, data])
  have unheld : ∀ j other, s.handleAt j = some (.blob (some other)) → other.data ≠ item.data := by
    intro j other found data
    cases parked (.blob other.data) (mem_ledger_of_handleAt found (by simp [Handle.refs, itemRefs]))
      (by rw [Ref.node, data])
  refine ⟨(takeHandle_moves owned run kind refs).owned owned, fun part member => ?_, blobAt, handles,
    fun slot pair => ?_, fun part member => ?_, unheld⟩
  · obtain ⟨old, before, same, elements⟩ := parts part member
    rw [elements, same]
    exact (faithful old before).trans (congrArg ByteVector.elements (blobAt _)).symm
  · obtain ⟨first, second⟩ := pair.lt
    have blobSlot : u.handleAt slot = s.handleAt slot := by rw [handleAt, if_neg (by omega)]
    refine ⟨blobSlot, by rw [handleAt, if_neg (by omega)], fun d vector own => ?_⟩
    refine own.transport blobSlot (blobAt d) (fun part member data => ?_) fun j other elsewhere found data => ?_
    · obtain ⟨old, before, same, _⟩ := parts part member
      exact ⟨old, before, by rw [← same, data]⟩
    · rw [handleAt] at found
      split at found
      · cases found
        cases same
        obtain ⟨held, there, data'⟩ := own.held
        exact absurd (data'.trans data.symm) (unheld _ held there)
      · exact ⟨j, elsewhere, found⟩
  · obtain ⟨old, before, same, _⟩ := parts part member
    rw [same]
    exact fresh old before

theorem replace_blob (owned : Owned s.heap s.ledger) (faithful : Faithful s.books) (item : Item) (n : Nat)
    (last : s.handleAt n = some (.blob (some item))) (pair : s.Pair slot) (different : slot ≠ n)
    (unpublished : ∀ part, .part part ∈ s.ledger → part.item.data ≠ item.data)
    (exclusive : ∀ j other, s.handleAt j = some (.blob (some other)) → other.data = item.data → j = n) :
    ∃ t u, s.assign slot n = some t ∧ t.destroy n = some u ∧ Owned u.heap u.ledger ∧ Faithful u.books ∧
      Untouched s.books u.books ∧ u.Pair slot ∧ u.Own slot item.data (s.heap.blobAt item.data) ∧
      ∀ other, s.Pair other → other ≠ slot → other ≠ n → Spares s u other := by
  obtain ⟨⟨old, there⟩, g, buffer⟩ := pair
  obtain ⟨t, assigned⟩ := exists_assign there last rfl
  have tHandleAt := handleAt_assign assigned
  have tLast : t.handleAt n = some (.blob (some item)) := by rw [tHandleAt, if_neg different.symm, last]
  obtain ⟨u, destroyed⟩ := exists_destroy tLast
  have quiet : QuietMoves s.books u.books := (assign_quiet assigned).trans (destroy_quiet destroyed)
  have keeps := quiet.keeps owned
  have at_ : ∀ j, u.handleAt j = if j = n then none else if j = slot then some (.blob (some item)) else s.handleAt j :=
    fun j => by rw [handleAt_destroy destroyed, tHandleAt, last]
  have here : u.handleAt slot = some (.blob (some item)) := by rw [at_, if_neg different, if_pos rfl]
  have bufferSlot : slot + 1 ≠ n := by
    rintro rfl
    rw [last] at buffer
    cases buffer
  refine ⟨t, u, assigned, destroyed, (QuietMoves.moves quiet).owned owned, keeps.faithful faithful, keeps.untouched,
    ⟨⟨_, here⟩, g, by rw [at_, if_neg bufferSlot, if_neg (by omega), buffer]⟩, ?_, fun other pair' apart apart' => ?_⟩
  · refine ⟨⟨item, here, rfl⟩, ?_, fun part member => ?_, fun j other found data => ?_⟩
    · exact (keeps (.blob item.data) (mem_ledger_of_handleAt here (by simp [Handle.refs, itemRefs])) _ rfl).1
    · obtain ⟨_, before, found, same, _⟩ := keeps.part member
      rw [same]
      exact unpublished before found
    · rw [at_] at found
      split at found
      · cases found
      · next other_slot =>
        split at found
        · next same => exact same
        · exact absurd (exclusive j other found data) other_slot
  · obtain ⟨⟨_, blob⟩, _, buffer'⟩ := pair'
    have next_slot : other + 1 ≠ slot := by
      rintro rfl
      rw [there] at buffer'
      cases buffer'
    have next_last : other + 1 ≠ n := by
      rintro rfl
      rw [last] at buffer'
      cases buffer'
    refine spares_of_quiet owned quiet (by rw [at_, if_neg apart', if_neg apart])
      (by rw [at_, if_neg next_last, if_neg next_slot]) fun j other' elsewhere found => ?_
    rw [at_] at found
    split at found
    · cases found
    · split at found
      · cases found
        exact ⟨n, apart'.symm, last⟩
      · exact ⟨j, elsewhere, found⟩

section Effects

variable {phase next : Phase}

/-- The handles of an output are as its effects so far have left them. -/
structure Follows (s : State) (slot : Nat) (phase : Phase) : Prop where
  pair : s.Pair slot
  own : phase.handedOn = false → ∃ d, phase.blob.data = some d ∧ s.Own slot d phase.blob.vector

theorem Follows.of_spares (follows : s.Follows slot phase) (spares : s.Spares t slot) : t.Follows slot phase := by
  refine ⟨follows.pair.of_spares spares, fun current => ?_⟩
  obtain ⟨d, data, own⟩ := follows.own current
  exact ⟨d, data, spares.own d _ own⟩

structure Acted (s t : State) (slot : Nat) (next : Phase) : Prop where
  owned : Owned t.heap t.ledger
  faithful : Faithful t.books
  untouched : Untouched s.books t.books
  follows : t.Follows slot next
  spares : ∀ other, other ≠ slot → s.Pair other → s.Spares t other

theorem Follows.setBlob (owned : Owned s.heap s.ledger) (faithful : Faithful s.books) (follows : s.Follows slot phase)
    (own : s.Own slot d vector) (new : ByteVector) (data : phase.blob.data = some d) :
    s.Acted { s with heap := s.heap.setBlob d new } slot ⟨⟨phase.blob.data, new⟩, false⟩ := by
  obtain ⟨owned', faithful', untouched, own', spares⟩ := own.setBlob owned faithful new
  exact ⟨owned', faithful', untouched, ⟨⟨follows.pair.blob, follows.pair.buffer⟩, fun _ => ⟨d, data, own'⟩⟩,
    fun other different _ => spares other different⟩

theorem Follows.pushPart (owned : Owned s.heap s.ledger) (faithful : Faithful s.books) (follows : s.Follows slot phase)
    (part : Part) (next : Phase)
    (copied : Moves s.books (s.heap.acquireItem (some part.item), partRefs (some part) + s.ledger))
    (elements : part.elements = (s.heap.blobAt part.item.data).elements)
    (apart : ∀ other d vector, s.Own other d vector → other ≠ slot ∨ next.handedOn = false → part.item.data ≠ d)
    (blob : next.blob = phase.blob) (current : next.handedOn = false → phase.handedOn = false) :
    ∃ t, s.pushPart (slot + 1) (some part) = some t ∧ s.Acted t slot next := by
  obtain ⟨g, buffer⟩ := follows.pair.buffer
  obtain ⟨t, run⟩ : ∃ t, s.pushPart (slot + 1) (some part) = some t := ⟨_, by simp only [State.pushPart, buffer]; rfl⟩
  obtain ⟨owned', faithful', untouched, handles, own⟩ := pushPart_keeps owned faithful copied elements run
  have handleAt : ∀ j, t.handleAt j = s.handleAt j := fun j => by rw [State.handleAt, State.handleAt, handles]
  have spares : ∀ other, other ≠ slot → s.Pair other → Spares s t other := fun other different _ =>
    ⟨handleAt _, handleAt _, fun d vector own' => own other d vector own' (apart other d vector own' (Or.inl different))⟩
  refine ⟨t, run, owned', faithful', untouched, ⟨⟨?_, g, (handleAt _).trans buffer⟩, fun now => ?_⟩, spares⟩
  · rw [handleAt]
    exact follows.pair.blob
  · obtain ⟨d, data, own'⟩ := follows.own (current now)
    rw [blob]
    exact ⟨d, data, own _ d _ own' (apart _ d _ own' (Or.inr now))⟩

end Effects

end State

theorem Output.range_spec {arguments : List Part} {s : State} {blob : ConstBlob} {range : Part}
    (lives : ∀ part ∈ arguments, s.Lives part) (first : arguments.findSome? (·.range blob) = some range) :
    range.view = blob ∧ ∃ part, s.Lives part ∧ range.item = part.item ∧ range.elements = part.elements ∧
      ∀ new ∈ partRefs (some range), Copied s.books new := by
  obtain ⟨part, member, found⟩ := List.exists_of_findSome?_eq_some first
  obtain ⟨slice, sliced, same⟩ := Option.bind_eq_some_iff.1 found
  obtain ⟨seen, rfl⟩ : slice.view = blob ∧ slice = range := by
    split at same
    · next seen =>
      cases same
      exact ⟨seen, rfl⟩
    · cases same
  obtain ⟨item, elements, _⟩ := State.slice_spec sliced
  have held := State.mem_ledger_of_lives (lives part member)
  have copied : ∀ new ∈ partRefs (some part), Copied s.books new := fun new inside =>
    ⟨new, held new inside, partRefs_alias _ _ new inside, fun _ _ => rfl⟩
  exact ⟨seen, part, lives part member, item, elements, State.copied_slice copied item elements⟩

/-- The effects of an output are defined, and change nothing but what it owns. -/
theorem Output.act_spec {o : Output} {s : State} {phase next : Phase} {effect : Effect} {popped : Nat}
    (owned : Owned s.heap s.ledger) (faithful : Faithful s.books) (follows : s.Follows o.slot phase)
    (discipline : phase.next effect = some next) (possible : o.Possible s popped effect)
    (shares : ∀ blob, effect = .push .pushShared blob → ∃ part ∈ o.arguments, (part.range blob).isSome) :
    ∃ t, o.act s popped effect = some t ∧ s.Acted t o.slot next := by
  cases effect with
  | resize vector =>
    simp only [Phase.next] at discipline
    split at discipline
    · cases discipline
    · next current =>
      cases discipline
      obtain ⟨d, data, own⟩ := follows.own (by simpa using current)
      obtain ⟨item, found, rfl⟩ := own.held
      exact ⟨_, by simp only [Output.act, State.write, found], follows.setBlob owned faithful own vector data⟩
  | store ptr bytes =>
    simp only [Phase.next] at discipline
    split at discipline
    · next allowed =>
      cases discipline
      obtain ⟨current, base, room⟩ := allowed
      obtain ⟨d, data, own⟩ := follows.own (by simpa using current)
      refine ⟨_, ?_, follows.setBlob owned faithful own (phase.blob.vector.store ptr.offset bytes) data⟩
      have live : s.heap.uses (.data d) ≠ 0 := owned.uses_ne_zero own.mem_ledger
      simp only [Output.act, State.copyTo, base.trans data, Option.bind_eq_bind, Option.bind_some, own.blob]
      rw [if_pos ⟨live, room⟩]
    · cases discipline
  | take blob =>
    simp only [Phase.next] at discipline
    split at discipline
    · cases discipline
      obtain ⟨⟨item, t⟩, taken, rfl⟩ := Option.map_eq_some_iff.1 possible
      obtain ⟨owned', faithful', same, handles, spares, unpublished, unheld⟩ :=
        State.take_keeps owned faithful (.blob (some item)) taken (Or.inl rfl) rfl rfl
      have length : t.handles.length = s.handles.length := by rw [(State.take_quiet owned taken).2]
      have handleAt : ∀ j, (t.addHandle (.blob (some item))).handleAt j =
          if j = t.handles.length then some (.blob (some item)) else s.handleAt j := by
        intro j
        rw [length, ← State.handleAt_addHandle, State.handleAt, handles]
        rfl
      obtain ⟨first, second⟩ := follows.pair.lt
      obtain ⟨u, v, assigned, destroyed, owned'', faithful'', untouched, pair, own, spares'⟩ :=
        State.replace_blob owned' faithful' item t.handles.length (by rw [handleAt, if_pos rfl])
          (follows.pair.of_spares (spares o.slot follows.pair)) (by omega) unpublished fun j other found data => by
            rw [handleAt] at found
            split at found
            · assumption
            · exact absurd data (unheld j other found)
      refine ⟨v, ?_, owned'', faithful'', untouched.of_same same, ⟨pair, fun _ => ⟨item.data, rfl, own⟩⟩,
        fun slot different pair' => ?_⟩
      · simp only [Output.act, taken, Option.bind_eq_bind, Option.bind_some, assigned, destroyed]
      · have := pair'.lt
        have spared := spares slot pair'
        exact spared.trans (spares' slot (pair'.of_spares spared) different (by omega))
    · cases discipline
  | push allocation blob =>
    cases allocation with
    | pushMerged =>
      simp only [Phase.next] at discipline
      split at discipline
      · next allowed =>
        cases discipline
        obtain ⟨d, data, own⟩ := follows.own (by simpa using allowed.1)
        obtain ⟨item, found, rfl⟩ := own.held
        have queued : .queue item.queue ∈ s.ledger := State.mem_ledger_of_handleAt found (by simp [Handle.refs, itemRefs])
        obtain ⟨t, run, acted⟩ := follows.pushPart owned faithful (.whole item (s.heap.blobAt item.data))
          ⟨phase.blob, true⟩ (acquireItem_whole own.mem_ledger queued) rfl
          (fun slot d vector own' different => (own.apart own' (different.resolve_right (by simp))).symm) rfl (by simp)
        exact ⟨t, by simp only [Output.act, State.push, State.constBlob, found]; exact run, acted⟩
      · cases discipline
    | pushShared =>
      cases discipline
      obtain ⟨source, argument, ranged⟩ := shares blob rfl
      obtain ⟨range, first⟩ := Option.isSome_iff_exists.1
        (List.findSome?_isSome_iff.2 ⟨source, argument, ranged⟩ : (o.arguments.findSome? (·.range blob)).isSome)
      obtain ⟨_, part, lives, item, elements, copied⟩ := Output.range_spec possible first
      have live : .part part ∈ s.ledger := State.mem_ledger_of_lives lives _ (by simp [partRefs])
      obtain ⟨t, run, acted⟩ := follows.pushPart owned faithful range phase
        (QuietMoves.moves (acquireItem_quiet (partRefs_pointers (some range)) copied))
        (by rw [elements, item]; exact faithful part live)
        (fun slot d vector own _ => by rw [item]; exact own.unpublished part live) rfl id
      exact ⟨t, by simp only [Output.act, first]; exact run, acted⟩
    | takeBuffer => cases discipline
    | takeBlob => cases discipline
    | sizeBlob => cases discipline
    | growBlob => cases discipline
    | trimBlob => cases discipline

end IpcBond.Pool
