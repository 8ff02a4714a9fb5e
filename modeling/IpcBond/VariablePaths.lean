import IpcBond.EndOfInput
import IpcBond.Refusals

/-! The two paths of the variable-length integers. Where the unchecked codec of Bond is used it has
room, and it does what the generic one does byte by byte; but a generic read that runs out of input
has taken the bytes before. -/

namespace IpcBond
open Library.Segments Library.StateExcept

namespace OutputBuffer

structure Filled (s : OutputBuffer) (n : Nat) (t : OutputBuffer) : Prop where
  buffer : t.buffer = s.buffer
  ptr : t.ptr = s.ptr.add n
  inside : t.ptr.offset ≤ t.ptrEnd.offset

variable {pool : BufferPool} {bond : BondCodec} {s t u : OutputBuffer}

theorem Filled.trans {m n : Nat} (first : s.Filled m t) (second : t.Filled n u) : s.Filled (m + n) u :=
  ⟨second.buffer.trans first.buffer, by rw [second.ptr, first.ptr, Ptr.add_add], second.inside⟩

theorem Ready.allocate_filled (ready : s.Ready pool.memory) {size : Nat} (small : size < 2 ^ 32) {ptr : Ptr}
    (run : allocate pool size s = .ok ptr t) : s.Filled size t := by
  rw [ready.allocate_eq small] at run
  split at run
  · split at run
    · next vector resized =>
      have newSize := (ByteVector.resizeDefault_spec resized).1
      cases run
      refine ⟨rfl, ?_, ?_⟩
      · simp [grown, Blob.begin_, Ptr.add, ready.ptr_base]
      · simp [grown, needed, newSize, Blob.begin_]
    · cases run
  · cases run
    exact ⟨rfl, rfl, by simp only [Ptr.add_offset]; omega⟩

theorem store_filled {ptr : Ptr} {bytes : List Byte} {n : Nat} (filled : s.Filled n t)
    (run : store ptr bytes t = .ok () u) : s.Filled n u := by
  rw [store, run_modify] at run
  injection run with _ same
  subst same
  split
  · exact ⟨filled.buffer, filled.ptr, filled.inside⟩
  · exact ⟨filled.buffer, filled.ptr, filled.inside⟩

theorem Ready.writeValue_filled (ready : s.Ready pool.memory) {value : List Byte} (small : value.length < 2 ^ 32)
    (run : writeValue pool value s = .ok () t) : s.Filled value.length t := by
  rw [writeValue, run_bind_of_ok (run_get s)] at run
  split at run
  · next fast =>
    rw [store_advance ready.ptr_base] at run
    cases run
    exact ⟨rfl, rfl, Nat.le_of_lt fast⟩
  · obtain ⟨ptr, u, grown, stored⟩ := bind_ok.1 run
    exact store_filled (ready.allocate_filled small grown) stored

theorem Ready.writeBytewise_filled (ready : s.Ready pool.memory) {bytes : List Byte} (some_ : bytes ≠ [])
    (run : writeBytewise pool bytes s = .ok () t) : s.Filled bytes.length t := by
  induction bytes generalizing s with
  | nil => exact absurd rfl some_
  | cons byte rest ih =>
    obtain ⟨_, u, first, later⟩ := bind_ok.1 run
    have filled := ready.writeValue_filled (by simp : [byte].length < 2 ^ 32) first
    have next := ((ready.writeValue_outcome (by simp : [byte].length < 2 ^ 32)).appends u first).ready
    by_cases last : rest = []
    · subst last
      cases later
      exact filled
    · have more := filled.trans (ih next last later)
      rwa [List.length_singleton, Nat.add_comm 1] at more

/-- The guard rounds down and is strict, which leaves room for the longest encoding. -/
theorem guard_room {ptr ptrEnd : Ptr} {width : Width} (fast : ptr.offset + width.bits / 7 < ptrEnd.offset) :
    ptr.offset + width.maxBytes ≤ ptrEnd.offset := by
  have := width.maxBytes_eq
  omega

theorem Ready.writeVariableUnsigned_filled (ready : s.Ready pool.memory) {width : Width} {value : Nat}
    (bound : value < 2 ^ width.bits) (run : writeVariableUnsigned pool bond width value s = .ok () t) :
    s.Filled (encodeVariable value).length t := by
  rw [writeVariableUnsigned, run_bind_of_ok (run_get s)] at run
  split at run
  · next fast =>
    have room := guard_room fast
    have fits := encodeVariable_fits bound
    simp only at run
    rw [store_advance ready.ptr_base, bond.writeUnchecked_eq width value bound] at run
    cases run
    exact ⟨rfl, rfl, by simp only [advance, Ptr.add_offset]; omega⟩
  · rw [bond.writeGeneric_eq width value bound] at run
    exact ready.writeBytewise_filled (encodeVariable_ne_nil value) run

theorem Ready.writeVariableUnsigned_fast (ready : s.Ready pool.memory) (bond : BondCodec) {width : Width} (value : Nat)
    (fast : s.ptr.offset + width.bits / 7 < s.ptrEnd.offset) :
    ∃ t, writeVariableUnsigned pool bond width value s = .ok () t := by
  refine ⟨s.advance (bond.writeUnchecked width value), ?_⟩
  rw [writeVariableUnsigned, run_bind_of_ok (run_get s), if_pos fast]
  exact store_advance ready.ptr_base _

theorem writeVariableUnsigned_generic (pool : BufferPool) (bond : BondCodec) {width : Width} (value : Nat)
    (slow : ¬ s.ptr.offset + width.bits / 7 < s.ptrEnd.offset) :
    writeVariableUnsigned pool bond width value s = writeBytewise pool (bond.writeGeneric width value) s := by
  rw [writeVariableUnsigned, run_bind_of_ok (run_get s), if_neg slow]

theorem Ready.writeVariableUnsigned_granted (ready : s.Ready pool.memory) (bond : BondCodec) (width : Width)
    (value : Nat) : Granted pool 1 [.growBlob] s (writeVariableUnsigned pool bond width value s) := by
  by_cases fast : s.ptr.offset + width.bits / 7 < s.ptrEnd.offset
  · rw [writeVariableUnsigned, run_bind_of_ok (run_get s), if_pos fast]
    exact show Granted pool 1 _ s ((store s.ptr _ >>= _) s) by
      rw [store_advance ready.ptr_base]
      exact Nat.le_refl _
  · rw [writeVariableUnsigned_generic pool bond value fast]
    exact ready.writeBytewise_granted _

theorem Appends.contents {call : Writer Unit} {pieces : List (List Byte)} (appends : Appends pool call pieces s)
    (run : call s = .ok () t) : t.contents = s.contents ++ pieces.flatten := by
  rw [OutputBuffer.contents, (appends t run).segments.1, List.flatten_append]
  rfl

/-- A write of the encoding of `value`: it is appended, before `m_ptrEnd`, or the pool refuses the current blob the
memory for one of its bytes. -/
def WritesVariable (pool : BufferPool) (value : Nat) (s : OutputBuffer) (path : Writer Unit) : Prop :=
  (∃ t, path s = .ok () t ∧ t.contents = s.contents ++ encodeVariable value ∧
    s.Filled (encodeVariable value).length t) ∨
  ∃ t, path s = .error (.badAlloc .growBlob) t ∧ Refused pool 1 s .growBlob t

theorem Granted.writesVariable {value : Nat} {path : Writer Unit} (granted : Granted pool 1 [.growBlob] s (path s))
    (appends : Appends pool path ((encodeVariable value).map fun byte => [byte]) s)
    (filled : ∀ t, path s = .ok () t → s.Filled (encodeVariable value).length t) : WritesVariable pool value s path := by
  cases run : path s with
  | ok _ t =>
    have contents := appends.contents run
    rw [show ((encodeVariable value).map fun byte => [byte]).flatten = encodeVariable value from
      List.flatMap_singleton' _] at contents
    exact Or.inl ⟨t, run, contents, filled t run⟩
  | error e t =>
    rw [run] at granted
    obtain ⟨allocation, member, rfl, refused⟩ := granted
    rw [List.mem_singleton.1 member] at run refused
    exact Or.inr ⟨t, run, refused⟩

end OutputBuffer

namespace InputBuffer

theorem Settled.unique {s t : InputBuffer} (settled : s.Settled) (settled' : t.Settled) (same : s.SameInput t)
    (position : t.pos = s.pos) : t = s := by
  have stop := same.stop
  have flags : t.isEof = s.isEof := by
    rw [Bool.eq_iff_iff, settled.isEof_iff, settled'.isEof_iff, position, stop]
  have cursor : t.ptr = s.ptr ∧ t.ptrEnd = s.ptrEnd ∧ t.blob = s.blob := by
    rcases settled.cursor with atEnd | ⟨o, inside, before⟩
    · rcases settled'.cursor with atEnd' | ⟨o', inside', _⟩
      · exact ⟨atEnd'.ptr.trans atEnd.ptr.symm, atEnd'.ptrEnd.trans atEnd.ptrEnd.symm,
          atEnd'.blob.trans (same.blobEnd.trans atEnd.blob.symm)⟩
      · rw [inside'.isEof, atEnd.isEof] at flags
        cases flags
    · rcases settled'.cursor with atEnd' | ⟨o', inside', before'⟩
      · rw [inside.isEof, atEnd'.isEof] at flags
        cases flags
      · have here := inside.pos
        have there := inside'.pos
        have limit := settled.bounded.blobLength_le s.blob
        have limit' := settled'.bounded.blobLength_le t.blob
        have next := settled.bounded.valid.start_succ s.blob
        have next' := settled'.bounded.valid.start_succ t.blob
        rw [same.buffer] at there next' limit'
        have blob : t.blob = s.blob := segment_unique
          (show start s.buffer.segments t.blob ≤ s.pos by omega) (by omega) (by omega) (by omega)
        have offset : o' = o := by
          rw [blob] at there
          omega
        have current : t.current = s.current := by rw [InputBuffer.current, InputBuffer.current, same.buffer, blob]
        have length : t.blobLength t.blob = s.blobLength s.blob := by
          simp only [blobLength, same.lastOffset, same.blobEnd, same.buffer, blob]
        exact ⟨by rw [inside'.ptr, inside.ptr, current, offset],
          by rw [inside'.ptrEnd, inside.ptrEnd, current, length], blob⟩
  obtain ⟨ptr, ptrEnd, blob⟩ := cursor
  cases s
  cases t
  cases same
  simp_all

theorem readSingle_inside {α : Type} {s t : InputBuffer} {size : Nat} {func : InputBuffer → α} {value : α}
    (run : readSingle size func s = .ok value t) : s.ptr.offset + size ≤ s.ptrEnd.offset := by
  rw [readSingle_run] at run
  split at run
  · cases run
  · next within => omega

end InputBuffer

open InputBuffer OutputBuffer in
/-- The two paths agree. Writing appends the encoding on either, before `m_ptrEnd`, where the fast one always returns
and the generic one throws only where the pool refuses to let the blob grow; reading it returns the value and leaves the
same state on either, with the cursor right behind the encoding and at a byte to be read, if there is one; and the
unchecked codec has room for all it may touch. -/
theorem variable_paths_agree (bond : BondCodec) {width : Width} {value : Nat} (bound : value < 2 ^ width.bits) :
    (∀ (pool : BufferPool) (s : OutputBuffer), Reached pool s →
      (s.ptr.offset + width.bits / 7 < s.ptrEnd.offset → s.ptr.offset + width.maxBytes ≤ s.ptrEnd.offset ∧
        ∃ t, writeVariableUnsigned pool bond width value s = .ok () t) ∧
      ∀ path ∈ [writeVariableUnsigned pool bond width value, writeBytewise pool (bond.writeGeneric width value)],
        WritesVariable pool value s path) ∧
    ∀ (input : Input), input.Obtained bond → ∀ s, Reachable bond input.opened s → ∀ rest,
      s.remaining = encodeVariable value ++ rest →
        (s.ptr.offset + width.bits / 7 < s.ptrEnd.offset → s.ptr.offset + width.maxBytes ≤ s.ptrEnd.offset) ∧
        (∀ u v byte, readValue 1 u = .ok byte v → u.ptr.offset + 1 ≤ u.ptrEnd.offset) ∧
        ∃ t, t.remaining = rest ∧ t.pos = s.pos + (encodeVariable value).length ∧ t.Settled ∧
          ∀ path ∈ [readVariableUnsigned bond width,
              readVariableLoop (bond.readByte width) (s.buffer.bytes.length + 1) (bond.readStart width)],
            path s = .ok value t := by
  constructor
  · intro pool s reached
    have ready := reached.ready
    refine ⟨fun fast => ⟨guard_room fast, ready.writeVariableUnsigned_fast bond value fast⟩, fun path chosen => ?_⟩
    rw [List.mem_cons, List.mem_singleton] at chosen
    rcases chosen with rfl | rfl
    · exact (ready.writeVariableUnsigned_granted bond width value).writesVariable
        (ready.writeVariableUnsigned_appends bond bound) fun t run => ready.writeVariableUnsigned_filled bound run
    · rw [bond.writeGeneric_eq width value bound]
      exact (ready.writeBytewise_granted _).writesVariable (ready.writeBytewise_appends _)
        fun t run => ready.writeBytewise_filled (encodeVariable_ne_nil value) run
  · intro input obtained s reach rest encoded
    have inv := (reach.spec (Input.opened_spec obtained.wellFormed).1).invariant
    have next : s.remaining.take (encodeVariable value).length = encodeVariable value := by
      rw [encoded, List.take_left]
    have enough : (encodeVariable value).length ≤ s.buffer.bytes.length + 1 := by
      have length := congrArg List.length encoded
      have covered := inv.remaining_length
      have limit := inv.bounded.stop_le_length
      rw [List.length_append] at length
      omega
    obtain ⟨t, run, same, moved, settled⟩ := inv.readVariableUnsigned_value bond bound next
    obtain ⟨u, generic, same', moved', settled'⟩ :=
      inv.readVariableLoop_value _ enough (bond.readByte_eq width value bound) next
    have unique : u = t := by
      apply settled.unique settled'
      · exact ⟨same'.buffer.trans same.buffer.symm, same'.blobEnd.trans same.blobEnd.symm,
          same'.lastOffset.trans same.lastOffset.symm⟩
      · rw [moved, moved']
    refine ⟨guard_room, fun _ _ _ read => readSingle_inside read, t, ?_, moved, settled, fun path chosen => ?_⟩
    · rw [remaining_drop same moved, encoded, List.drop_left]
    · rw [List.mem_cons, List.mem_singleton] at chosen
      rcases chosen with rfl | rfl
      · exact run
      · exact unique ▸ generic

open OutputBuffer in
/-- Written into a blob with room for it and into one without, and read from one blob and from two. -/
theorem variable_paths_agree_both :
    let pool := simplePool 0 0
    let roomy := finalState (setUp pool sevenBitCodec [.value [7]] (members 8))
    let full := finalState (setUp pool sevenBitCodec [.value [7]] (members 2))
    let whole : Input := .ofBuffer ⟨some [⟨some ⟨1, [172, 2, 9, 9]⟩, 0, 4⟩]⟩
    let split : Input := .ofBuffer ⟨some [⟨some ⟨1, [172]⟩, 0, 1⟩, ⟨some ⟨2, [2, 9]⟩, 0, 2⟩]⟩
    (roomy.ptr.offset + 2 < roomy.ptrEnd.offset ∧
      ∃ t, writeVariableUnsigned pool sevenBitCodec .bits16 300 roomy = .ok () t ∧ t.contents = [7, 172, 2] ∧
        roomy.Filled 2 t) ∧
    (¬ full.ptr.offset + 2 < full.ptrEnd.offset ∧
      ∃ t, writeVariableUnsigned pool sevenBitCodec .bits16 300 full = .ok () t ∧ t.contents = [7, 172, 2] ∧
        full.Filled 2 t) ∧
    (whole.opened.ptr.offset + 2 < whole.opened.ptrEnd.offset ∧
      ∃ t, InputBuffer.readVariableUnsigned sevenBitCodec .bits16 whole.opened = .ok 300 t ∧ t.remaining = [9, 9]) ∧
    ¬ split.opened.ptr.offset + 2 < split.opened.ptrEnd.offset ∧
      ∃ t, InputBuffer.readVariableUnsigned sevenBitCodec .bits16 split.opened = .ok 300 t ∧ t.remaining = [9] := by
  intro pool roomy full whole split
  have bound : 300 < 2 ^ Width.bits16.bits := by decide
  obtain ⟨writes, reads⟩ := variable_paths_agree sevenBitCodec bound
  have bytes : encodeVariable 300 = [172, 2] := by decide +kernel
  have wrote : ∀ minBlobSize s, setUp pool sevenBitCodec [.value [7]] (members minBlobSize) = .ok () s →
      s.contents = [7] → (∃ t, writeVariableUnsigned pool sevenBitCodec .bits16 300 s = .ok () t) →
      ∃ t, writeVariableUnsigned pool sevenBitCodec .bits16 300 s = .ok () t ∧ t.contents = [7, 172, 2] ∧
        s.Filled 2 t := by
    intro minBlobSize s run seven returned
    have reached : Reached pool s := ⟨sevenBitCodec, minBlobSize, _, by simp [WriteOp.WellFormed], run⟩
    obtain ⟨u, returns⟩ := returned
    rcases (writes pool s reached).2 _ List.mem_cons_self with ⟨t, wrote, contents, filled⟩ | ⟨t, failed, _⟩
    · rw [seven, bytes] at contents
      rw [bytes] at filled
      exact ⟨t, wrote, contents, filled⟩
    · rw [returns] at failed
      cases failed
  have read : ∀ input : Input, input.Obtained sevenBitCodec → ∀ rest, input.opened.remaining = [172, 2] ++ rest →
      ∃ t, InputBuffer.readVariableUnsigned sevenBitCodec .bits16 input.opened = .ok 300 t ∧ t.remaining = rest := by
    intro input obtained rest encoded
    obtain ⟨_, _, t, left, _, _, paths⟩ := reads input obtained input.opened .origin rest (by rw [encoded, bytes])
    exact ⟨t, paths _ List.mem_cons_self, left⟩
  have fast : roomy.ptr.offset + 2 < roomy.ptrEnd.offset := by decide
  have reached : Reached pool roomy := ⟨sevenBitCodec, 8, [.value [7]], by simp [WriteOp.WellFormed], rfl⟩
  obtain ⟨_, t, generic, _⟩ := exists_of_returns (fun _ => true)
    (by decide +kernel : returns _ (writeVariableUnsigned pool sevenBitCodec .bits16 300 full) = true)
  refine ⟨⟨fast, wrote 8 roomy rfl (by decide) ((writes pool roomy reached).1 fast).2⟩,
    ⟨by decide, wrote 2 full rfl (by decide) ⟨t, generic⟩⟩, ⟨by decide, ?_⟩, by decide, ?_⟩
  · exact read whole (.ofBuffer (by decide)) [9, 9] (by decide)
  · exact read split (.ofBuffer (by decide)) [9] (by decide)

namespace InputBuffer

theorem Invariant.readByte {s : InputBuffer} (inv : s.Invariant) :
    (s.remaining = [] ∧ readValue 1 s = .error .outOfRange s) ∨
      ∃ byte rest t, s.remaining = byte :: rest ∧ readValue 1 s = .ok [byte] t ∧ s.SameInput t ∧
        t.remaining = rest ∧ t.Settled := by
  have covered := inv.pos_le_stop
  have length := inv.remaining_length
  have limit := inv.bounded.stop_le_length
  rcases readSingle_whole inv (by decide : 0 < 1) (fun s => s.load s.ptr 1) with
    ⟨⟨available, _⟩, o, t, inside, fits, run, same, moved, settled⟩ | ⟨broken, run⟩
  · obtain ⟨byte, rest, split⟩ := List.exists_cons_of_length_pos available
    refine Or.inr ⟨byte, rest, t, split, ?_, same, ?_, settled⟩
    · rw [readValue, run, load_eq inv.bounded inside fits, split, List.take_succ_cons, List.take_zero]
    · rw [remaining_drop same moved, split, List.drop_succ_cons, List.drop_zero]
  · refine Or.inl ⟨?_, run⟩
    by_contra more
    have positive := List.length_pos_of_ne_nil more
    exact broken ⟨positive, whole_one (by change s.pos < s.buffer.bytes.length; omega)⟩

theorem Invariant.readVariableLoop_error {s t : InputBuffer} (inv : s.Invariant) {Acc : Type}
    (feed : Acc → Byte → Acc ⊕ Nat) {acc : Acc} {fuel : Nat} (enough : s.remaining.length < fuel) {e : Error}
    (run : readVariableLoop feed fuel acc s = .error e t) :
    e = .outOfRange ∧ t.remaining = [] ∧ (s.remaining = [] → t = s) := by
  induction fuel generalizing s acc with
  | zero => omega
  | succ fuel ih =>
    rw [readVariableLoop_succ] at run
    rcases inv.readByte with ⟨none, failed⟩ | ⟨byte, rest, u, split, taken, _, later, settled⟩
    · rw [failed] at run
      cases run
      exact ⟨rfl, none, fun _ => rfl⟩
    · rw [taken] at run
      simp only [List.headD_cons] at run
      cases fed : feed acc byte with
      | inr value =>
        rw [fed] at run
        cases run
      | inl next =>
        rw [fed] at run
        have fewer : u.remaining.length < fuel := by
          rw [split, List.length_cons] at enough
          rw [later]
          omega
        obtain ⟨same, ended, _⟩ := ih settled.invariant fewer run
        refine ⟨same, ended, fun none => ?_⟩
        rw [split] at none
        cases none

/-- Where every byte that remains continues an encoding, the generic read throws. -/
theorem Invariant.readVariableLoop_truncated {s : InputBuffer} (inv : s.Invariant) {Acc : Type}
    (feed : Acc → Byte → Acc ⊕ Nat) (continues : ∀ acc byte, 128 ≤ byte.toNat → ∃ next, feed acc byte = .inl next)
    {acc : Acc} {fuel : Nat} (enough : s.remaining.length < fuel) (high : ∀ byte ∈ s.remaining, 128 ≤ byte.toNat) :
    ∃ t, readVariableLoop feed fuel acc s = .error .outOfRange t := by
  induction fuel generalizing s acc with
  | zero => omega
  | succ fuel ih =>
    rw [readVariableLoop_succ]
    rcases inv.readByte with ⟨_, failed⟩ | ⟨byte, rest, u, split, taken, _, later, settled⟩
    · exact ⟨s, by rw [failed]⟩
    · obtain ⟨next, fed⟩ := continues acc byte (high byte (by rw [split]; exact List.mem_cons_self))
      rw [split, List.length_cons] at enough
      have fewer : u.remaining.length < fuel := by
        rw [later]
        omega
      have high' : ∀ other ∈ u.remaining, 128 ≤ other.toNat := by
        intro other member
        rw [later] at member
        exact high other (by rw [split]; exact List.mem_cons_of_mem _ member)
      obtain ⟨t, run⟩ : ∃ t, readVariableLoop feed fuel next u = .error .outOfRange t := ih settled.invariant fewer high'
      exact ⟨t, by rw [taken]; simp only [List.headD_cons, fed]; exact run⟩

end InputBuffer

open InputBuffer in
theorem readVariableUnsigned_truncated (bond : BondCodec) {s : InputBuffer} (inv : s.Invariant) (width : Width)
    (slow : s.ptrEnd.offset ≤ s.ptr.offset + width.bits / 7) (high : ∀ byte ∈ s.remaining, 128 ≤ byte.toNat) :
    ∃ t, readVariableUnsigned bond width s = .error .outOfRange t := by
  have limit := inv.bounded.stop_le_length
  have length := inv.remaining_length
  rw [readVariableUnsigned_run, if_neg (by omega)]
  exact inv.readVariableLoop_truncated _ (bond.readByte_continues width) (by omega) high

open InputBuffer in
/-- A variable-length read that throws leaves the state as it was exactly when no byte remained
before it: the generic codec reads byte by byte, and no one takes back the bytes it has read. -/
theorem failed_variable_read_iff (bond : BondCodec) (input : Input) (obtained : input.Obtained bond)
    {s t : InputBuffer} (reach : Reachable bond input.opened s) {width : Width} {e : Error}
    (run : readVariableUnsigned bond width s = .error e t) :
    e = .outOfRange ∧
      ((t.equal s = true ∧ t.isEof = s.isEof ∧ t.remaining = s.remaining) ↔ s.remaining = []) := by
  have inv := (reach.spec (Input.opened_spec obtained.wellFormed).1).invariant
  have limit := inv.bounded.stop_le_length
  have length := inv.remaining_length
  rw [readVariableUnsigned_run] at run
  split at run
  · cases run
  · obtain ⟨outOfRange, ended, kept⟩ := inv.readVariableLoop_error _ (by omega) run
    refine ⟨outOfRange, fun ⟨_, _, same⟩ => ?_, fun none => ?_⟩
    · rw [← same, ended]
    · rw [kept none]
      exact ⟨by simp [InputBuffer.equal], rfl, rfl⟩

open InputBuffer in
/-- The whole input has been read. -/
theorem failed_variable_read_at_end :
    let input : Input := .ofBuffer ⟨some [⟨some ⟨1, [5, 6]⟩, 0, 2⟩]⟩
    ∃ s t, readValue 2 input.opened = .ok [5, 6] s ∧
      readVariableUnsigned sevenBitCodec .bits32 s = .error .outOfRange t ∧ t.equal s = true := by
  intro input
  let s := finalState (readValue 2 input.opened)
  have read : readValue 2 input.opened = .ok [5, 6] s := by rfl
  have run : readVariableUnsigned sevenBitCodec .bits32 s = .error .outOfRange s := by rfl
  have obtained : input.Obtained sevenBitCodec := .ofBuffer (by decide)
  have reach : Reachable sevenBitCodec input.opened s := .step .origin (.value 2)
  have none : s.remaining = [] := by decide
  exact ⟨s, s, read, run, ((failed_variable_read_iff sevenBitCodec input obtained reach run).2.2 none).1⟩

open InputBuffer in
/-- Two bytes that continue an encoding, in two blobs: the call throws at the end of the input. -/
theorem failed_variable_read_moves :
    let input : Input := .ofBuffer ⟨some [⟨some ⟨1, [200]⟩, 0, 1⟩, ⟨some ⟨2, [200]⟩, 0, 1⟩]⟩
    ∃ t, readVariableUnsigned sevenBitCodec .bits32 input.opened = .error .outOfRange t ∧
      (∀ byte ∈ input.opened.remaining, 128 ≤ byte.toNat) ∧ input.opened.isEof = false ∧
      t.equal input.opened = false ∧ t.isEof = true ∧ t.remaining = [] := by
  intro input
  have bytes : input.opened.remaining = [200, 200] := by decide
  refine ⟨_, rfl, fun byte member => ?_, by decide, by decide, by decide, by decide⟩
  rw [bytes, List.mem_cons, List.mem_singleton, or_self_iff] at member
  rw [member]
  decide

end IpcBond
