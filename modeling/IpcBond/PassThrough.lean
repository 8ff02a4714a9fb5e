import IpcBond.BufferRange
import IpcBond.RoundTrip

/-! Passing typed values on without parsing them: a range of one buffer is written into another,
shared or copied, and read there with the same reads, through any number of buffers. -/

namespace IpcBond
open Library.Segments Library.StateExcept OutputBuffer InputBuffer

/-- The items lie in `buffer` at a flat position: they were written there, or a range of a
buffer in which they lie was written there. -/
inductive Passed (bond : BondCodec) (items : List Item) : ConstBuffer → Nat → Prop where
  | written {pool : BufferPool} {minBlobSize : Nat} {script : Script} {finish : Finish}
      {buffer : ConstBuffer} {t : OutputBuffer} (front back : List Item)
      (formed : ∀ item ∈ script.items, item.WellFormed) (split : script.items = front ++ (items ++ back))
      (run : produce pool bond script.ops finish (members minBlobSize) = .ok buffer t)
      (small : ∀ blob ∈ buffer.blobs, blob.size < 2 ^ 32) :
      Passed bond items buffer (itemBytes front).length
  | hop {source : ConstBuffer} {a : Nat} (passed : Passed bond items source a) {first last : InputBuffer}
      (reach : Reachable bond (.ofBuffer source) first) (begins : first.pos = a)
      (reach' : Reachable bond (.ofBuffer source) last) (ends : last.pos = a + (itemBytes items).length)
      {pool : BufferPool} {minBlobSize : Nat} {before after : List WriteOp} {finish : Finish}
      {buffer : ConstBuffer} {t : OutputBuffer}
      (formed : ∀ op ∈ before ++ after, op.WellFormed) (copyable : ∀ op ∈ before, op.Copyable pool.memory)
      (run : produce pool bond (before ++ .range (getBufferRange first last) :: after) finish
        (members minBlobSize) = .ok buffer t)
      (small : ∀ blob ∈ buffer.blobs, blob.size < 2 ^ 32) :
      Passed bond items buffer (before.flatMap WriteOp.bytes).length

namespace InputBuffer

theorem Invariant.encoded_whole {s : InputBuffer} (inv : s.Invariant) (whole : s.stop = s.buffer.bytes.length) :
    s.encoded = s.pos := by
  rw [inv.encoded_eq]
  split
  · next atEnd =>
    have stop_le := inv.bounded.stop_eq_iff.1
    have total := start_le_length s.buffer.segments s.blobEnd
    rw [InputBuffer.pos, atEnd, if_pos rfl]
    change _ ≤ s.buffer.bytes.length at total
    omega
  · rfl

end InputBuffer

/-- A hop writes the items where the earlier writes end. -/
theorem carries_hop {items : List Item} {source : ConstBuffer} {a : Nat} {first last : InputBuffer}
    {bond : BondCodec} (valid : source.Valid) (small : ∀ blob ∈ source.blobs, blob.size < 2 ^ 32)
    (carries : Carries source.segments a items) (reach : Reachable bond (.ofBuffer source) first)
    (begins : first.pos = a) (reach' : Reachable bond (.ofBuffer source) last)
    (ends : last.pos = a + (itemBytes items).length) {pool : BufferPool} {minBlobSize : Nat}
    {before after : List WriteOp} {finish : Finish} {buffer : ConstBuffer} {t : OutputBuffer}
    (formed : ∀ op ∈ before ++ after, op.WellFormed) (copyable : ∀ op ∈ before, op.Copyable pool.memory)
    (run : produce pool bond (before ++ .range (getBufferRange first last) :: after) finish
      (members minBlobSize) = .ok buffer t) :
    buffer.Valid ∧ Carries buffer.segments (before.flatMap WriteOp.bytes).length items ∧
      (before.flatMap WriteOp.bytes).length + (itemBytes items).length ≤ buffer.bytes.length := by
  obtain ⟨settled, same, _, stop⟩ := InputBuffer.ofBuffer_spec valid
  have toFirst := reach.spec settled.invariant
  have fromStart := reach'.spec settled.invariant
  have toLast : first.Advances last :=
    ⟨⟨fromStart.same.buffer.trans toFirst.same.buffer.symm, fromStart.same.blobEnd.trans toFirst.same.blobEnd.symm,
        fromStart.same.lastOffset.trans toFirst.same.lastOffset.symm⟩,
      by omega, fromStart.invariant, fun _ => fromStart.settled settled⟩
  have buffer_eq : first.buffer = source := toFirst.same.buffer.trans same
  have firstWhole : first.stop = first.buffer.bytes.length := by rw [toFirst.same.stop, stop, buffer_eq]
  have lastWhole : last.stop = last.buffer.bytes.length := by
    rw [toLast.same.stop, firstWhole, toLast.same.buffer]
  obtain ⟨startPos, stopPos⟩ := getBufferRange_positions toLast
  rw [toFirst.invariant.encoded_whole firstWhole, begins] at startPos
  rw [toLast.invariant.encoded_whole lastWhole, ends] at stopPos
  have rangeFormed := getBufferRange_wellFormed toFirst.invariant toLast
  have rangeValid : (getBufferRange first last).buffer.Valid := toFirst.invariant.bounded.valid
  obtain ⟨cut, partsValid⟩ := rangeFormed.toInBounds.parts_cut rangeValid
  have partsSmall : ∀ part ∈ (getBufferRange first last).parts, pool.memory.contains part.data = false →
      part.size < 2 ^ 32 := by
    rw [rangeFormed.toInBounds.parts_small rangeValid pool.memory (by decide)]
    intro i _
    refine Nat.lt_of_le_of_lt (Range.lengthIn_le _ rangeValid i) ?_
    change (first.buffer.blobAt i).size < 2 ^ 32
    rw [buffer_eq]
    exact ConstBuffer.blobAt_size_lt (by decide) small i
  have copied : (getBufferRange first last).parts.map (written pool.memory) =
      (getBufferRange first last).parts.map ConstBlob.bytes :=
    List.map_congr_left fun part member => written_eq (partsValid part member) (partsSmall part member)
  have inRange : Carries ((getBufferRange first last).parts.map ConstBlob.bytes) 0 items := by
    refine Carries.cut cut ?_ ?_
    · rw [startPos, Nat.add_zero]
      change Carries first.buffer.segments a items
      rwa [buffer_eq]
    · rw [startPos, stopPos, Nat.add_zero]
  have opsFormed : ∀ op ∈ before ++ WriteOp.range (getBufferRange first last) :: after, op.WellFormed := by
    intro op member
    rcases List.mem_append.1 member with inBefore | inRest
    · exact formed op (List.mem_append_left _ inBefore)
    · rcases List.mem_cons.1 inRest with rfl | inAfter
      · exact ⟨rangeValid, rangeFormed.toInBounds⟩
      · exact formed op (List.mem_append_right _ inAfter)
  obtain ⟨joined, published⟩ := produce_spec opsFormed run
  have beforeBytes := WriteOp.pieces_flatMap (fun op member => formed op (List.mem_append_left _ member)) copyable
  rw [List.flatMap_append, List.flatMap_cons] at joined
  simp only [WriteOp.pieces, copied] at joined
  refine ⟨fun blob member => (published blob member).valid, ?_, ?_⟩
  · have shifted := (inRange.append_right (after.flatMap (WriteOp.pieces pool.memory))).shift
      (before.flatMap (WriteOp.pieces pool.memory))
    rw [beforeBytes, Nat.add_zero] at shifted
    exact shifted.coarser joined
  · have rangeBytes := congrArg List.length cut.1
    have covered := toLast.invariant.pos_le_stop
    have lastBuffer := toLast.same.buffer
    rw [List.length_drop, List.length_take, startPos, stopPos] at rangeBytes
    change _ = min _ first.buffer.bytes.length - a at rangeBytes
    have total := congrArg List.length joined.1
    rw [List.flatten_append, List.flatten_append, beforeBytes, List.length_append, List.length_append] at total
    change buffer.bytes.length = _ at total
    rw [lastWhole, lastBuffer] at covered
    omega

/-- Pass-through: wherever the items have been passed to, they are in one piece where they have
to be, and the same reads return the same values. -/
theorem pass_through (bond : BondCodec) (items : List Item) (formed : ∀ item ∈ items, item.WellFormed)
    {buffer : ConstBuffer} {a : Nat} (passed : Passed bond items buffer a) :
    Carries buffer.segments a items ∧
      ∀ s, Reachable bond (.ofBuffer buffer) s → s.pos = a →
        ∃ t, readItems bond items s = .ok (items.map Item.value) t ∧ t.pos = a + (itemBytes items).length := by
  have layout : buffer.Valid ∧ (∀ blob ∈ buffer.blobs, blob.size < 2 ^ 32) ∧ Carries buffer.segments a items ∧
      a + (itemBytes items).length ≤ buffer.bytes.length := by
    induction passed with
    | written front back formedAll split run small =>
      obtain ⟨valid, bytes, carries⟩ := Script.produced (fun item member => (formedAll item member).write) run
      rw [split] at bytes carries
      have inside := (Carries.append.1 (Carries.append.1 carries).2).1
      rw [Nat.zero_add] at inside
      refine ⟨valid, small, inside, ?_⟩
      rw [bytes, itemBytes_append, itemBytes_append, List.length_append, List.length_append]
      omega
    | hop _ reach begins reach' ends formedOps copyable run small ih =>
      obtain ⟨valid, sourceSmall, carries, _⟩ := ih
      obtain ⟨targetValid, targetCarries, fits⟩ :=
        carries_hop valid sourceSmall carries reach begins reach' ends formedOps copyable run
      exact ⟨targetValid, small, targetCarries, fits⟩
  obtain ⟨valid, small, carries, fits⟩ := layout
  refine ⟨carries, fun s reach position => ?_⟩
  obtain ⟨settled, same, _, stop⟩ := InputBuffer.ofBuffer_spec valid
  have moved := reach.spec settled.invariant
  have buffer_eq : s.buffer = buffer := moved.same.buffer.trans same
  obtain ⟨t, reads, _, ended, _⟩ := moved.invariant.read_items bond (buffer_eq ▸ small) formed
    (by rw [buffer_eq, position]; exact carries) (by rw [moved.same.stop, stop, position]; exact fits)
  exact ⟨t, reads, by rw [ended, position]⟩

/-- A primitive and a variable-length value passed on between other writes; the target shares
the blob they were written to. -/
theorem pass_through_shared :
    let items : List Item := [.primitive [1, 2], .variableUnsigned .bits16 300]
    let source : ConstBuffer := ⟨some [⟨some ⟨100, [9, 1, 2, 172, 2, 7, 8]⟩, 0, 7⟩]⟩
    let target : ConstBuffer := ⟨some [⟨some ⟨150, [5, 6]⟩, 0, 2⟩,
      ⟨some ⟨100, [9, 1, 2, 172, 2, 7, 8]⟩, 1, 5⟩, ⟨some ⟨151, [7]⟩, 0, 1⟩]⟩
    let reader := ReadOp.after sevenBitCodec (.ofBuffer target) (.skip 2)
    Passed sevenBitCodec items source 1 ∧ Passed sevenBitCodec items target 2 ∧
      ∃ t, readItems sevenBitCodec items reader = .ok [.bytes [1, 2], .number 300] t ∧ t.pos = 6 := by
  intro items source target reader
  have formed : ∀ item ∈ items, item.WellFormed := by
    simp only [items, List.forall_mem_cons]
    exact ⟨⟨(by decide : 2 < 2 ^ 32), fun _ => by decide⟩, ⟨(by decide : 300 < 2 ^ 16), nofun⟩, by simp⟩
  let script : Script := some (.raw [9]) :: items.map some ++ [some (.blob (.ofBytes [7, 8]))]
  have written : Passed sevenBitCodec items source 1 := by
    obtain ⟨buffer, t, run, same⟩ := exists_of_returns (fun buffer : ConstBuffer => decide (buffer = source))
      (by decide +kernel :
        returns _ (produce (simplePool 4 0) sevenBitCodec script.ops .moved (members 1)) = true)
    have same : buffer = source := of_decide_eq_true same
    subst same
    have split : script.items = [.raw [9]] ++ (items ++ [.blob (.ofBytes [7, 8])]) := rfl
    have formedAll : ∀ item ∈ script.items, item.WellFormed := by
      rw [split, List.forall_mem_append, List.forall_mem_append]
      simp only [List.forall_mem_cons]
      exact ⟨⟨⟨(by decide : 1 < 2 ^ 32), nofun⟩, by simp⟩, formed,
        ⟨BondBlob.ofBytes_valid (by decide), fun _ => by decide⟩, by simp⟩
    exact .written _ _ formedAll split run (by decide)
  let first := ReadOp.after sevenBitCodec (.ofBuffer source) (.bytes 1)
  let last := ReadOp.after sevenBitCodec first (.bytes 4)
  have passed : Passed sevenBitCodec items target 2 := by
    obtain ⟨buffer, t, run, same⟩ := exists_of_returns (fun buffer : ConstBuffer => decide (buffer = target))
      (by decide +kernel :
        returns _ (produce (simplePool 4 50) sevenBitCodec
          ([.value [5, 6]] ++ .range (getBufferRange first last) :: [.value [7]]) .moved (members 1)) = true)
    have same : buffer = target := of_decide_eq_true same
    subst same
    have reachFirst : Reachable sevenBitCodec (.ofBuffer source) first := .step .origin _
    have reachLast : Reachable sevenBitCodec (.ofBuffer source) last := .step reachFirst _
    refine .hop written reachFirst (by decide) reachLast (by decide +kernel) ?_ ?_ run (by decide)
    · simp [WriteOp.WellFormed]
    · simp [WriteOp.Copyable, WriteOp.blobs]
  obtain ⟨_, reads⟩ := pass_through sevenBitCodec items formed passed
  obtain ⟨t, run, position⟩ := reads reader (.step .origin (.skip 2)) (by decide)
  have length : 2 + (itemBytes items).length = 6 := by decide +kernel
  exact ⟨written, passed, t, run, position.trans length⟩

end IpcBond
