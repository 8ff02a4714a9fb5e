import IpcBond.OutputMachine

/-! Who may change the `m_blob` of an item. An item that an `OutputBuffer` writes to has no
`ConstBlob` and no second writer; what `ConstBlob`s refer to stays as they found it. -/

namespace IpcBond.Pool
open Library.RefCount Relation OutputBuffer

inductive Descends : Ref → Ref → Prop where
  | blob (d : Nat) : Descends (.blob d) (.blob d)
  | part {part other : Part} (item : other.item = part.item) (elements : other.elements = part.elements) :
      Descends (.part part) (.part other)

theorem Descends.refl {ref : Ref} {d : Nat} (blob : ref.blobOf = some d) : Descends ref ref := by
  cases ref <;> first | exact .blob _ | exact .part rfl rfl | cases blob

theorem Descends.trans {a b c : Ref} (first : Descends a b) (second : Descends b c) : Descends a c := by
  cases first with
  | blob d => exact second
  | part item elements =>
    cases second with
    | part item' elements' => exact .part (item'.trans item) (elements'.trans elements)

theorem Descends.blobOf_eq {old new : Ref} (descends : Descends old new) : new.blobOf = old.blobOf := by
  cases descends with
  | blob d => rfl
  | part item elements => rw [Ref.blobOf, Ref.blobOf, item]

/-- Every reference to a blob was made from an earlier one, and the blob is as it was. -/
def Keeps (before after : Books) : Prop :=
  ∀ ref ∈ after.2, ∀ d, ref.blobOf = some d →
    after.1.blobAt d = before.1.blobAt d ∧ ∃ old ∈ before.2, Descends old ref

namespace Keeps

theorem refl (books : Books) : Keeps books books := fun ref member _ blob => ⟨rfl, ref, member, .refl blob⟩

theorem trans {a b c : Books} (first : Keeps a b) (second : Keeps b c) : Keeps a c := by
  intro ref member d blob
  obtain ⟨same, old, found, descends⟩ := second ref member d blob
  obtain ⟨same', older, found', descends'⟩ := first old found d (by rw [← descends.blobOf_eq, blob])
  exact ⟨same.trans same', older, found', descends'.trans descends⟩

theorem of_subset {heap heap' : Heap} {ledger ledger' : Ledger}
    (subset : ∀ ref ∈ ledger', ∀ d, ref.blobOf = some d → ref ∈ ledger ∧ heap'.blobAt d = heap.blobAt d) :
    Keeps (heap, ledger) (heap', ledger') := fun ref member d blob =>
  ⟨(subset ref member d blob).2, ref, (subset ref member d blob).1, .refl blob⟩

theorem part {before after : Books} (keeps : Keeps before after) {part : Part} (member : .part part ∈ after.2) :
    after.1.blobAt part.item.data = before.1.blobAt part.item.data ∧
      ∃ old, .part old ∈ before.2 ∧ part.item = old.item ∧ part.elements = old.elements := by
  obtain ⟨same, old, found, descends⟩ := keeps _ member _ rfl
  cases descends with
  | part item elements => exact ⟨same, _, found, item, elements⟩

end Keeps

/-- Among the moves of a pool, none changes a blob that is still referred to. -/
theorem Quiet.keeps {before after : Books} (quiet : Quiet before after) (owned : Owned before.1 before.2) :
    Keeps before after := by
  cases quiet with
  | @acquire heap ledger old new found alias_ copies =>
    intro ref member d blob
    refine ⟨Heap.blobAt_setUses _, ?_⟩
    rcases Multiset.mem_cons.1 member with same | before
    · cases same
      refine ⟨old, found, ?_⟩
      cases alias_ with
      | queue q => cases blob
      | buffer d => cases blob
      | blob d => exact .blob d
      | range item elements => exact .part item elements
      | whole item => cases copies _ rfl
    · exact ⟨ref, before, .refl blob⟩
  | newData heap ledger =>
    refine .of_subset fun ref member d blob => ⟨?_, Heap.blobAt_newData⟩
    refine (Multiset.mem_cons.1 member).resolve_left fun same => ?_
    rw [same] at blob
    cases blob
  | newQueue heap ledger =>
    refine .of_subset fun ref member d blob => ⟨?_, rfl⟩
    refine (Multiset.mem_cons.1 member).resolve_left fun same => ?_
    rw [same] at blob
    cases blob
  | @recycle heap ledger d ref node unique =>
    refine .of_subset fun other member e blob => ?_
    have before : other ∈ ledger := by
      refine (Multiset.mem_cons.1 member).resolve_left fun same => ?_
      rw [same] at blob
      cases blob
    refine ⟨Multiset.mem_cons_of_mem before, Heap.blobAt_clear fun same => ?_⟩
    have apart := owned.alone rfl (by rwa [node]) before
    rw [node, Ref.node_of_blobOf blob, same] at apart
    exact apart rfl
  | loosen node =>
    refine .of_subset fun ref member d blob => ⟨Multiset.mem_cons_of_mem ?_, rfl⟩
    refine (Multiset.mem_cons.1 member).resolve_left fun same => ?_
    rw [same] at blob
    cases blob
  | release shared =>
    exact .of_subset fun ref member d _ => ⟨Multiset.mem_cons_of_mem member, Heap.blobAt_setUses _⟩
  | @freeData heap ledger d last =>
    refine .of_subset fun ref member e blob => ⟨Multiset.mem_cons_of_mem member, ?_⟩
    have apart := owned.alone rfl last member
    rw [Heap.blobAt_clear, Heap.release, Heap.blobAt_setUses]
    rintro rfl
    exact apart (Ref.node_of_blobOf blob)
  | freeQueue last =>
    refine .of_subset fun ref member d _ => ⟨Multiset.mem_cons_of_mem member, ?_⟩
    rw [Heap.blobAt_setItems, Heap.release, Heap.blobAt_setUses]
  | setItems live f => exact .of_subset fun ref member d _ => ⟨member, rfl⟩
  | pushBack found part => exact .of_subset fun ref member d _ => ⟨member, Heap.blobAt_pushBack _⟩

theorem QuietMoves.keeps {before after : Books} (moves : QuietMoves before after) (owned : Owned before.1 before.2) :
    Keeps before after := by
  induction moves with
  | refl => exact .refl _
  | tail front last ih => exact ih.trans (last.keeps ((QuietMoves.moves front).owned owned))

/-- Every `ConstBlob` finds its item as it was when it was made. -/
def Faithful (books : Books) : Prop :=
  ∀ part, .part part ∈ books.2 → part.elements = (books.1.blobAt part.item.data).elements

theorem Keeps.faithful {before after : Books} (keeps : Keeps before after) (faithful : Faithful before) :
    Faithful after := by
  intro part member
  obtain ⟨same, old, found, item, elements⟩ := keeps.part member
  rw [same, elements, item]
  exact faithful old found

/-- No vector that a `ConstBlob` refers to has changed. -/
def Untouched (before after : Books) : Prop :=
  ∀ part, .part part ∈ after.2 → after.1.blobAt part.item.data = before.1.blobAt part.item.data

theorem Untouched.refl (books : Books) : Untouched books books := fun _ _ => rfl

theorem Keeps.untouched {before after : Books} (keeps : Keeps before after) : Untouched before after :=
  fun _ member => (keeps.part member).1

theorem Untouched.of_same {first before after : Books} (untouched : Untouched before after)
    (same : ∀ d, before.1.blobAt d = first.1.blobAt d) : Untouched first after :=
  fun part member => (untouched part member).trans (same part.item.data)

theorem Faithful.read {books : Books} (faithful : Faithful books) {part : Part} (member : .part part ∈ books.2) :
    part.read books.1 = part.view.bytes := by
  rw [Part.read, ← faithful part member]
  rfl

namespace State

variable {s t : State} {slot d : Nat} {vector : ByteVector}

/-- The handle in `slot` is the only `Blob` of an item, no `ConstBlob` refers to it, and its
`m_blob` is `vector`. -/
structure Own (s : State) (slot d : Nat) (vector : ByteVector) : Prop where
  held : ∃ item, s.handleAt slot = some (.blob (some item)) ∧ item.data = d
  blob : s.heap.blobAt d = vector
  unpublished : ∀ part, .part part ∈ s.ledger → part.item.data ≠ d
  exclusive : ∀ j item, s.handleAt j = some (.blob (some item)) → item.data = d → j = slot

theorem Own.mem_ledger (own : s.Own slot d vector) : .blob d ∈ s.ledger := by
  obtain ⟨item, found, rfl⟩ := own.held
  exact mem_ledger_of_handleAt found (by simp [Handle.refs, itemRefs])

/-- Ownership survives where no new `ConstBlob` of the item appears, and no `Blob` but copies of
others. -/
theorem Own.transport (own : s.Own slot d vector) (same : t.handleAt slot = s.handleAt slot)
    (blob : t.heap.blobAt d = s.heap.blobAt d)
    (parts : ∀ part, .part part ∈ t.ledger → part.item.data = d → ∃ old, .part old ∈ s.ledger ∧ old.item.data = d)
    (blobs : ∀ j item, j ≠ slot → t.handleAt j = some (.blob (some item)) → item.data = d →
      ∃ k, k ≠ slot ∧ s.handleAt k = some (.blob (some item))) : t.Own slot d vector := by
  refine ⟨by rw [same]; exact own.held, blob.trans own.blob, fun part member data => ?_, fun j item found data => ?_⟩
  · obtain ⟨old, before, data'⟩ := parts part member data
    exact own.unpublished old before data'
  · by_contra different
    obtain ⟨k, elsewhere, before⟩ := blobs j item different found data
    exact elsewhere (own.exclusive k item before data)

structure Spares (s t : State) (slot : Nat) : Prop where
  blob : t.handleAt slot = s.handleAt slot
  buffer : t.handleAt (slot + 1) = s.handleAt (slot + 1)
  own : ∀ d vector, s.Own slot d vector → t.Own slot d vector

theorem Spares.trans {u : State} (first : Spares s t slot) (second : Spares t u slot) : Spares s u slot :=
  ⟨second.blob.trans first.blob, second.buffer.trans first.buffer,
    fun d vector own => second.own d vector (first.own d vector own)⟩

theorem spares_of_quiet (owned : Owned s.heap s.ledger) (quiet : QuietMoves s.books t.books)
    (blob : t.handleAt slot = s.handleAt slot) (buffer : t.handleAt (slot + 1) = s.handleAt (slot + 1))
    (blobs : ∀ j item, j ≠ slot → t.handleAt j = some (.blob (some item)) →
      ∃ k, k ≠ slot ∧ s.handleAt k = some (.blob (some item))) : Spares s t slot := by
  have keeps := quiet.keeps owned
  refine ⟨blob, buffer, fun d vector own => own.transport blob ?_ (fun part member data => ?_)
    fun j item different found _ => blobs j item different found⟩
  · obtain ⟨item, found, rfl⟩ := own.held
    have member : .blob item.data ∈ t.ledger :=
      mem_ledger_of_handleAt (blob.trans found) (by simp [Handle.refs, itemRefs])
    exact (keeps _ member _ rfl).1
  · obtain ⟨_, old, found, item, _⟩ := keeps.part member
    exact ⟨old, found, by rw [← item, data]⟩

theorem mem_ledger_of_lives {part : Part} (lives : s.Lives part) : ∀ ref ∈ partRefs (some part), ref ∈ s.ledger := by
  intro ref member
  rcases lives with held | ⟨cell, found, stored⟩
  · obtain ⟨i, slot⟩ := List.mem_iff_getElem?.1 held
    have there : s.handleAt i = some (.constBlob (some part)) := by rw [handleAt, slot]; rfl
    exact mem_ledger_of_handleAt there member
  · obtain ⟨e, present⟩ := List.mem_iff_getElem?.1 found
    have there : some part ∈ s.heap.bufferAt e := by rwa [Heap.bufferAt, lookup_of_some _ _ present]
    exact mem_ledger_of_bufferAt there member

section Handles

variable {handle : Handle} {i j : Nat}

theorem lt_of_handleAt (found : s.handleAt i = some handle) : i < s.handles.length :=
  (List.getElem?_eq_some_iff.1 (handles_of_handleAt found)).1

theorem handleAt_addHandle (handle : Handle) (j : Nat) :
    (s.addHandle handle).handleAt j = if j = s.handles.length then some handle else s.handleAt j := by
  simp only [handleAt, addHandle]
  split
  · next last => rw [last, List.getElem?_concat_length]; rfl
  · next other =>
    by_cases inside : j < s.handles.length
    · rw [List.getElem?_append_left inside]
    · rw [List.getElem?_eq_none (by simp; omega), List.getElem?_eq_none (by omega)]

theorem handleAt_set (found : s.handleAt i = some handle) (new : Option Handle) (j : Nat) :
    ((s.handles.set i new)[j]?).join = if j = i then new else s.handleAt j := by
  rw [List.getElem?_set]
  split
  · next same => rw [if_pos (lt_of_handleAt found), if_pos same.symm]; rfl
  · next other => rw [if_neg (Ne.symm other)]; rfl

theorem exists_destroy (found : s.handleAt i = some handle) : ∃ t, s.destroy i = some t :=
  ⟨_, by rw [destroy, found]; rfl⟩

theorem handleAt_destroy (run : s.destroy i = some t) (j : Nat) :
    t.handleAt j = if j = i then none else s.handleAt j := by
  obtain ⟨handle, found, same⟩ := Option.bind_eq_some_iff.1 run
  cases same
  exact handleAt_set found none j

theorem exists_assign {old : Handle} (there : s.handleAt i = some old) (found : s.handleAt j = some handle)
    (kind : old.kind = handle.kind) : ∃ t, s.assign i j = some t :=
  ⟨_, by simp only [assign, there, found, Option.bind_eq_bind, Option.bind_some, if_pos kind]; rfl⟩

theorem handleAt_assign (run : s.assign i j = some t) (k : Nat) :
    t.handleAt k = if k = i then s.handleAt j else s.handleAt k := by
  obtain ⟨old, there, run⟩ := Option.bind_eq_some_iff.1 run
  obtain ⟨handle, found, run⟩ := Option.bind_eq_some_iff.1 run
  split at run
  · cases run
    rw [found]
    exact handleAt_set there (some handle) k
  · cases run

end Handles

def SameWriters (s t : State) : Prop :=
  ∀ j handle, handle.isConst = false → (t.handleAt j = some handle ↔ s.handleAt j = some handle)

theorem SameWriters.of_handles (same : t.handles = s.handles) : SameWriters s t := by
  intro j handle _
  rw [handleAt, handleAt, same]

theorem sameWriters_share {handle : Handle} (const : handle.isConst = true) : SameWriters s (s.share handle) := by
  intro j other mutable
  rw [share, handleAt_addHandle]
  simp only
  split
  · next last =>
    constructor
    · rintro ⟨⟩
      rw [const] at mutable
      cases mutable
    · intro found
      have := lt_of_handleAt found
      omega
  · rfl

theorem sameWriters_set {old : Handle} {i : Nat} (found : s.handleAt i = some old) (const : old.isConst = true)
    (new : Option Handle) (const' : ∀ handle ∈ new, handle.isConst = true) (same : t.handles = s.handles.set i new) :
    SameWriters s t := by
  intro j other mutable
  rw [handleAt, same, handleAt_set found]
  split
  · next here =>
    rw [here, found]
    constructor
    · intro changed
      rw [const' other changed] at mutable
      cases mutable
    · rintro ⟨⟩
      rw [const] at mutable
      cases mutable
  · rfl

theorem client_spec (owned : Owned s.heap s.ledger) {op : Op} (client : s.Client op) (run : step s op = some t) :
    QuietMoves s.books t.books ∧ SameWriters s t := by
  have const_of : ∀ {i handle}, s.handleAt i = some handle → (s.handleAt i).any Handle.isConst = true →
      handle.isConst = true := by
    intro i handle found const
    rwa [found] at const
  cases op with
  | construct kind =>
    cases run
    refine ⟨construct_quiet kind, ?_⟩
    rcases client with rfl | rfl
    · exact show SameWriters s (s.share (.constBlob none)) from sameWriters_share rfl
    · exact show SameWriters s (s.share (.constBuffer none)) from sameWriters_share rfl
  | toConstBuffer i =>
    refine ⟨toConstBuffer_quiet run, ?_⟩
    simp only [step, toConstBuffer] at run
    split at run
    · cases run
      exact sameWriters_share rfl
    · cases run
  | getRange i offset count =>
    refine ⟨getRange_quiet run, ?_⟩
    simp only [step, getRange] at run
    split at run
    · split at run
      · cases run
      · cases run
        exact sameWriters_share rfl
      · obtain ⟨slice, _, same⟩ := Option.bind_eq_some_iff.1 run
        cases same
        exact sameWriters_share rfl
    · cases run
  | element i index =>
    refine ⟨element_quiet run, ?_⟩
    obtain ⟨item, _, run⟩ := Option.bind_eq_some_iff.1 run
    obtain ⟨part, _, same⟩ := Option.bind_eq_some_iff.1 run
    cases same
    exact sameWriters_share rfl
  | copy i =>
    refine ⟨copy_quiet run, ?_⟩
    obtain ⟨handle, found, same⟩ := Option.bind_eq_some_iff.1 run
    cases same
    exact sameWriters_share (const_of found client)
  | assign target source =>
    refine ⟨assign_quiet run, ?_⟩
    obtain ⟨old, there, run⟩ := Option.bind_eq_some_iff.1 run
    obtain ⟨handle, found, run⟩ := Option.bind_eq_some_iff.1 run
    have const := const_of there client
    split at run
    · next kind =>
      cases run
      refine sameWriters_set there const (some handle) ?_ rfl
      rintro other ⟨⟩
      simpa only [Handle.isConst, kind] using const
    · cases run
  | destroy i =>
    refine ⟨destroy_quiet run, ?_⟩
    obtain ⟨handle, found, same⟩ := Option.bind_eq_some_iff.1 run
    cases same
    exact sameWriters_set found (const_of found client) none (by simp) rfl
  | runThread i =>
    refine ⟨runThread_quiet owned run, ?_⟩
    simp only [step, runThread] at run
    split at run
    · cases run
      exact .of_handles rfl
    · cases run
  | createPool => cases client
  | destroyPool => cases client
  | takeBlob => cases client
  | takeBuffer => cases client
  | toConstBlob => cases client
  | push => cases client
  | write => cases client

end State

end IpcBond.Pool
