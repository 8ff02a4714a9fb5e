import IpcBond.BufferPool

/-! The blobs that a `ConstBuffer::Range` is written as: the first and the last are cut, those
between them are whole. -/

namespace IpcBond
open Library.Segments

def ConstBlob.part (blob : ConstBlob) (offset count : Nat) : ConstBlob :=
  ⟨blob.item, blob.beginAt + offset, blob.beginAt + offset + count⟩

theorem ConstBlob.Valid.part_whole {blob : ConstBlob} (valid : blob.Valid) :
    blob.part 0 blob.size = blob := by
  rw [part, Nat.add_zero, valid.begin_add_size]

theorem ConstBlob.Valid.part_contained {blob : ConstBlob} (valid : blob.Valid) (memory : SharedMemory)
    {offset count : Nat} (fits : offset + count ≤ blob.size) (some : count ≠ 0) :
    memory.contains (blob.part offset count).data = memory.contains blob.data := by
  have nonempty : blob.size ≠ 0 := by omega
  have part : (blob.part offset count).size ≠ 0 := fun none => some ((valid.sub_size fits).symm.trans none)
  rw [ConstBlob.data_of_nonempty part, ConstBlob.data_of_nonempty nonempty]
  obtain ⟨item, same⟩ := Option.isSome_iff_exists.1 (valid.item_isSome nonempty)
  simp only [ConstBlob.part, same, Option.map_some]
  exact memory.contains_data _ _ _

namespace ConstBuffer

def blobsAt (buffer : ConstBuffer) (first count : Nat) : List ConstBlob :=
  (List.range' first count).map buffer.blobAt

theorem blobsAt_bytes {buffer : ConstBuffer} {first count : Nat}
    (inside : first + count ≤ buffer.blobs.length) :
    (buffer.blobsAt first count).map ConstBlob.bytes = (buffer.segments.take (first + count)).drop first := by
  apply List.ext_getElem
  · simp [blobsAt]
    omega
  · intro i low high
    have bound : first + i < buffer.blobs.length := by
      simp [blobsAt] at low
      omega
    simp only [blobsAt, List.getElem_map, List.getElem_range', List.getElem_drop, List.getElem_take, segments,
      Nat.one_mul, blobAt_eq buffer bound]

end ConstBuffer

namespace Range

def stopBlob (range : Range) : Nat := if range.lastOffset ≠ 0 then range.lastBlob + 1 else range.lastBlob

def lastLength (range : Range) : Nat :=
  if range.lastOffset ≠ 0 then range.lastOffset else (range.buffer.blobAt (range.stopBlob - 1)).size

def parts (range : Range) : List ConstBlob :=
  let first := range.buffer.blobAt range.firstBlob
  if range.isEmpty then []
  else if range.stopBlob - range.firstBlob = 1 then
    [first.part range.firstOffset (range.lastLength - range.firstOffset)]
  else
    first.part range.firstOffset (first.size - range.firstOffset) ::
      (range.buffer.blobsAt (range.firstBlob + 1) (range.stopBlob - range.firstBlob - 2) ++
        [(range.buffer.blobAt (range.stopBlob - 1)).part 0 range.lastLength])

def lengthIn (range : Range) (i : Nat) : Nat :=
  min (start range.buffer.segments (i + 1)) range.stopPos - max (start range.buffer.segments i) range.startPos

theorem lengthIn_le (range : Range) (valid : range.buffer.Valid) (i : Nat) :
    range.lengthIn i ≤ (range.buffer.blobAt i).size := by
  have next := valid.start_succ i
  unfold lengthIn
  omega

def partAt (range : Range) (i : Nat) : ConstBlob :=
  (range.buffer.blobAt i).part (if i = range.firstBlob then range.firstOffset else 0) (range.lengthIn i)

namespace InBounds

variable {range : Range} (bounds : range.InBounds)
include bounds

theorem stopBlob_le : range.stopBlob ≤ range.buffer.blobs.length := by
  unfold stopBlob
  split
  · have := bounds.lastOffset_le
    exact ConstBuffer.blobAt_inside (by omega)
  · exact bounds.lastBlob_le

theorem first_lt_stop (some : range.isEmpty = false) : range.firstBlob < range.stopBlob := by
  have := bounds.ordered
  simp only [isEmpty, decide_eq_false_iff_not] at some
  unfold stopBlob
  split <;> omega

theorem lastLength_le : range.lastLength ≤ (range.buffer.blobAt (range.stopBlob - 1)).size := by
  unfold lastLength
  split
  · next cut =>
    rw [stopBlob, if_pos cut, Nat.add_sub_cancel]
    exact bounds.lastOffset_le
  · exact Nat.le_refl _

theorem stopPos_eq (valid : range.buffer.Valid) (some : range.isEmpty = false) :
    range.stopPos = start range.buffer.segments (range.stopBlob - 1) + range.lastLength := by
  have first_lt := bounds.first_lt_stop some
  unfold stopPos lastLength
  by_cases cut : range.lastOffset = 0
  · have same : range.stopBlob = range.lastBlob := by simp [stopBlob, cut]
    rw [if_neg (not_not.mpr cut), cut, ← same, ← valid.start_succ, Nat.sub_add_cancel (by omega), Nat.add_zero]
  · have same : range.stopBlob = range.lastBlob + 1 := by simp [stopBlob, cut]
    rw [if_pos cut, same, Nat.add_sub_cancel]

theorem firstOffset_le_lastLength (one : range.stopBlob - range.firstBlob = 1) :
    range.firstOffset ≤ range.lastLength := by
  have := bounds.firstOffset_le
  have := bounds.ordered
  have last : range.stopBlob - 1 = range.firstBlob := by omega
  unfold lastLength
  split
  · next cut =>
    rw [stopBlob, if_pos cut] at one
    omega
  · rwa [last]

theorem single_cut (valid : range.buffer.Valid) (some : range.isEmpty = false)
    (one : range.stopBlob - range.firstBlob = 1) :
    let part := (range.buffer.blobAt range.firstBlob).part range.firstOffset
      (range.lastLength - range.firstOffset)
    Cut range.buffer.segments [part.bytes] range.startPos range.stopPos ∧ part.Valid := by
  have last : range.stopBlob - 1 = range.firstBlob := by omega
  have blob := valid.blobAt range.firstBlob
  have order := bounds.firstOffset_le_lastLength one
  have inside := bounds.lastLength_le
  have stop := bounds.stopPos_eq valid some
  have next := valid.start_succ range.firstBlob
  have stop_le := bounds.stopBlob_le
  rw [last] at inside stop
  have fits : range.firstOffset + (range.lastLength - range.firstOffset) ≤
    (range.buffer.blobAt range.firstBlob).size := by omega
  refine ⟨?_, blob.sub_valid fits⟩
  have selected := Cut.select range.buffer.segments range.firstBlob (range.firstBlob + 1)
  rw [← ConstBuffer.blobsAt_bytes (by omega)] at selected
  have cut := selected.trans (Cut.single order (by rwa [blob.bytes_length])) (by omega)
  rw [stop, startPos, ConstBlob.part, blob.sub_bytes fits]
  exact cut

theorem several_cut (valid : range.buffer.Valid) (some : range.isEmpty = false) {count : Nat}
    (several : range.stopBlob = range.firstBlob + count + 2) :
    let first := range.buffer.blobAt range.firstBlob
    let front := first.part range.firstOffset (first.size - range.firstOffset)
    let between := range.buffer.blobsAt (range.firstBlob + 1) count
    let back := (range.buffer.blobAt (range.stopBlob - 1)).part 0 range.lastLength
    Cut range.buffer.segments (front.bytes :: (between.map ConstBlob.bytes ++ [back.bytes]))
      range.startPos range.stopPos ∧ front.Valid ∧ back.Valid := by
  have first := valid.blobAt range.firstBlob
  have last := valid.blobAt (range.stopBlob - 1)
  have offset_le := bounds.firstOffset_le
  have length_le := bounds.lastLength_le
  have stop_le := bounds.stopBlob_le
  have next := valid.start_succ (range.stopBlob - 1)
  have fitsFirst : range.firstOffset + ((range.buffer.blobAt range.firstBlob).size - range.firstOffset) ≤
    (range.buffer.blobAt range.firstBlob).size := by omega
  have fitsLast : 0 + range.lastLength ≤ (range.buffer.blobAt (range.stopBlob - 1)).size := by omega
  refine ⟨?_, first.sub_valid fitsFirst, last.sub_valid fitsLast⟩
  have blobs : range.buffer.blobsAt range.firstBlob (count + 1 + 1) =
      range.buffer.blobAt range.firstBlob :: (range.buffer.blobsAt (range.firstBlob + 1) count ++
        [range.buffer.blobAt (range.stopBlob - 1)]) := by
    rw [ConstBuffer.blobsAt, List.range'_succ, List.range'_concat, List.map_cons, List.map_append]
    simp only [ConstBuffer.blobsAt, List.map_cons, List.map_nil, Nat.one_mul]
    rw [show range.firstBlob + 1 + count = range.stopBlob - 1 by omega]
  have selected := Cut.select range.buffer.segments range.firstBlob (range.firstBlob + (count + 1 + 1))
  rw [← ConstBuffer.blobsAt_bytes (by omega), blobs, List.map_cons, List.map_append, List.map_cons,
    List.map_nil] at selected
  rw [show range.firstBlob + (count + 1 + 1) = range.stopBlob - 1 + 1 by omega] at selected
  have stopStart : start range.buffer.segments (range.stopBlob - 1) =
      start range.buffer.segments range.firstBlob + ((range.buffer.blobAt range.firstBlob).bytes ::
        (range.buffer.blobsAt (range.firstBlob + 1) count).map ConstBlob.bytes).flatten.length := by
    have total := congrArg List.length selected.1
    have limit := start_le_length range.buffer.segments (range.stopBlob - 1 + 1)
    have order := start_mono range.buffer.segments (show range.firstBlob ≤ range.stopBlob - 1 + 1 by omega)
    simp only [List.flatten_cons, List.flatten_append, List.flatten_nil, List.append_nil,
      List.length_append, List.length_drop, List.length_take, last.bytes_length] at total ⊢
    omega
  have cut := selected.trans (Cut.ends _ (by rwa [first.bytes_length] : range.firstOffset ≤ _)
    (by rwa [last.bytes_length] : range.lastLength ≤ _)) (by omega)
  have whole : ((range.buffer.blobAt range.firstBlob).bytes.drop range.firstOffset).take
      ((range.buffer.blobAt range.firstBlob).size - range.firstOffset) =
      (range.buffer.blobAt range.firstBlob).bytes.drop range.firstOffset :=
    List.take_of_length_le (Nat.le_of_eq (by rw [List.length_drop, first.bytes_length]))
  rw [bounds.stopPos_eq valid some, startPos, stopStart, Nat.add_assoc]
  simp only [ConstBlob.part, first.sub_bytes fitsFirst, last.sub_bytes fitsLast, List.drop_zero, whole]
  exact cut

/-- The parts are the bytes of the range, with no boundary that the buffer does not have. -/
theorem parts_cut (valid : range.buffer.Valid) :
    Cut range.buffer.segments (range.parts.map ConstBlob.bytes) range.startPos range.stopPos ∧
      ∀ part ∈ range.parts, part.Valid := by
  unfold parts
  by_cases empty : range.isEmpty
  · rw [if_pos empty]
    simp only [isEmpty, decide_eq_true_eq] at empty
    have same : range.startPos = range.stopPos := by rw [startPos, stopPos, empty.1, empty.2]
    refine ⟨⟨?_, fun a n _ before => ?_⟩, by simp⟩
    · rw [same]
      simp
    · rw [show a = 0 by omega, show n = 0 by omega]
      exact whole_zero _
  · rw [if_neg empty]
    have some : range.isEmpty = false := by simpa using empty
    have first_lt := bounds.first_lt_stop some
    split
    · next one =>
      obtain ⟨cut, part⟩ := bounds.single_cut valid some one
      exact ⟨by simpa using cut, by simpa using part⟩
    · next more =>
      obtain ⟨cut, front, back⟩ := bounds.several_cut valid some
        (show range.stopBlob = range.firstBlob + (range.stopBlob - range.firstBlob - 2) + 2 by omega)
      refine ⟨by simpa using cut, fun part member => ?_⟩
      rcases List.mem_cons.1 member with rfl | later
      · exact front
      · rcases List.mem_append.1 later with inner | last
        · obtain ⟨i, _, rfl⟩ := List.mem_map.1 inner
          exact valid.blobAt i
        · rw [List.mem_singleton.1 last]
          exact back

theorem lengthIn_outside (valid : range.buffer.Valid) (some : range.isEmpty = false) {i : Nat}
    (outside : i < range.firstBlob ∨ range.stopBlob ≤ i) : range.lengthIn i = 0 := by
  have stop := bounds.stopPos_eq valid some
  have first_lt := bounds.first_lt_stop some
  have limit := bounds.lastLength_le
  have next := valid.start_succ (range.stopBlob - 1)
  rw [Nat.sub_add_cancel (by omega)] at next
  unfold lengthIn startPos
  rcases outside with before | after
  · have order := start_mono range.buffer.segments (show i + 1 ≤ range.firstBlob from before)
    omega
  · have order := start_mono range.buffer.segments after
    omega

theorem parts_eq (valid : range.buffer.Valid) (some : range.isEmpty = false) :
    range.parts = (List.range' range.firstBlob (range.stopBlob - range.firstBlob)).map range.partAt := by
  have stop := bounds.stopPos_eq valid some
  have first_lt := bounds.first_lt_stop some
  have offset_le := bounds.firstOffset_le
  have firstNext := valid.start_succ range.firstBlob
  have lastNext := valid.start_succ (range.stopBlob - 1)
  have limit := bounds.lastLength_le
  unfold parts
  rw [some]
  simp only [Bool.false_eq_true, if_false]
  split
  · next one =>
    have last : range.stopBlob - 1 = range.firstBlob := by omega
    rw [last] at stop limit
    have length : range.lengthIn range.firstBlob = range.lastLength - range.firstOffset := by
      unfold lengthIn startPos
      omega
    simp [one, partAt, length]
  · next several =>
    obtain ⟨count, gap⟩ : ∃ count, range.stopBlob = range.firstBlob + (count + 1 + 1) :=
      ⟨range.stopBlob - range.firstBlob - 2, by omega⟩
    have apart := start_mono range.buffer.segments (show range.firstBlob + 1 ≤ range.stopBlob - 1 by omega)
    have front : range.lengthIn range.firstBlob =
        (range.buffer.blobAt range.firstBlob).size - range.firstOffset := by
      unfold lengthIn startPos
      omega
    have back : range.lengthIn (range.stopBlob - 1) = range.lastLength := by
      unfold lengthIn startPos
      omega
    have between : ∀ i ∈ List.range' (range.firstBlob + 1) count, range.buffer.blobAt i = range.partAt i := by
      intro i member
      have inside := List.mem_range'_1.1 member
      have next := valid.start_succ i
      have low := start_mono range.buffer.segments (show range.firstBlob + 1 ≤ i from inside.1)
      have high := start_mono range.buffer.segments (show i + 1 ≤ range.stopBlob - 1 by omega)
      have length : range.lengthIn i = (range.buffer.blobAt i).size := by
        unfold lengthIn startPos
        omega
      rw [partAt, if_neg (by omega), length, (valid.blobAt i).part_whole]
    rw [show range.stopBlob - range.firstBlob = count + 1 + 1 by omega, List.range'_succ, List.range'_concat,
      List.map_cons, List.map_append, ConstBuffer.blobsAt, show count + 1 + 1 - 2 = count by omega,
      List.map_congr_left between, Nat.one_mul, List.map_cons, List.map_nil,
      show range.firstBlob + 1 + count = range.stopBlob - 1 by omega]
    simp only [partAt, if_true, front, back, if_neg (show range.stopBlob - 1 ≠ range.firstBlob by omega)]

theorem partAt_fits (valid : range.buffer.Valid) (i : Nat) :
    (if i = range.firstBlob then range.firstOffset else 0) + range.lengthIn i ≤ (range.buffer.blobAt i).size := by
  have offset_le := bounds.firstOffset_le
  have next := valid.start_succ i
  unfold lengthIn startPos
  split
  · next first =>
    subst first
    omega
  · omega

theorem partAt_size (valid : range.buffer.Valid) (i : Nat) : (range.partAt i).size = range.lengthIn i :=
  (valid.blobAt i).sub_size (bounds.partAt_fits valid i)

theorem partAt_contained (valid : range.buffer.Valid) (memory : SharedMemory) {i : Nat}
    (some : range.lengthIn i ≠ 0) :
    memory.contains (range.partAt i).data = memory.contains (range.buffer.blobAt i).data :=
  (valid.blobAt i).part_contained memory (bounds.partAt_fits valid i) some

theorem parts_small (valid : range.buffer.Valid) (memory : SharedMemory) {limit : Nat} (positive : 0 < limit) :
    (∀ part ∈ range.parts, memory.contains part.data = false → part.size < limit) ↔
      ∀ i, memory.contains (range.buffer.blobAt i).data = false → range.lengthIn i < limit := by
  by_cases empty : range.isEmpty
  · have none : range.parts = [] := by rw [parts, if_pos empty]
    simp only [isEmpty, decide_eq_true_eq] at empty
    have same : range.startPos = range.stopPos := by rw [startPos, stopPos, empty.1, empty.2]
    refine iff_of_true (by simp [none]) fun i _ => ?_
    unfold lengthIn
    omega
  · have some : range.isEmpty = false := by simpa using empty
    rw [bounds.parts_eq valid some]
    simp only [List.forall_mem_map, List.mem_range'_1]
    constructor
    · intro parts i outside
      by_cases here : range.lengthIn i = 0
      · omega
      · have inside : ¬ (i < range.firstBlob ∨ range.stopBlob ≤ i) :=
          fun out => here (bounds.lengthIn_outside valid some out)
        have small := parts i (by omega) (by rwa [bounds.partAt_contained valid memory here])
        rwa [bounds.partAt_size valid] at small
    · intro blobs i _ outside
      rw [bounds.partAt_size valid]
      by_cases here : range.lengthIn i = 0
      · omega
      · exact blobs i (by rwa [← bounds.partAt_contained valid memory here])

end InBounds

end Range

end IpcBond
