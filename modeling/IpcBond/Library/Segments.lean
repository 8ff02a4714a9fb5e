import Mathlib.Data.List.Basic

/-! A flat sequence held in consecutive segments. Positions count elements of the
flat sequence; segment boundaries are visible only through `start` and `Whole`. -/

namespace IpcBond.Library.Segments

variable {α : Type*}

def start (segments : List (List α)) (i : Nat) : Nat := (segments.take i).flatten.length

/-- The `n` elements from flat position `a` on lie in one segment. -/
def Whole (segments : List (List α)) (a n : Nat) : Prop :=
  ∃ i, start segments i ≤ a ∧ a + n ≤ start segments (i + 1)

@[simp] theorem start_zero (segments : List (List α)) : start segments 0 = 0 := by simp [start]

@[simp] theorem start_nil (i : Nat) : start ([] : List (List α)) i = 0 := by simp [start]

@[simp] theorem start_cons_succ (first : List α) (rest : List (List α)) (i : Nat) :
    start (first :: rest) (i + 1) = first.length + start rest i := by
  simp [start]

theorem start_append (front back : List (List α)) (i : Nat) :
    start (front ++ back) i = start front i + start back (i - front.length) := by
  simp only [start, List.take_append, List.flatten_append, List.length_append]

theorem start_of_length_le {segments : List (List α)} {i : Nat} (past : segments.length ≤ i) :
    start segments i = segments.flatten.length := by
  rw [start, List.take_of_length_le past]

theorem start_succ {segments : List (List α)} {i : Nat} (inside : i < segments.length) :
    start segments (i + 1) = start segments i + segments[i].length := by
  rw [start, List.take_succ_eq_append_getElem inside, List.flatten_append, List.length_append]
  simp [start]

theorem start_le_succ (segments : List (List α)) (i : Nat) :
    start segments i ≤ start segments (i + 1) := by
  by_cases inside : i < segments.length
  · rw [start_succ inside]
    exact Nat.le_add_right _ _
  · exact Nat.le_of_eq (by rw [start_of_length_le (by omega), start_of_length_le (by omega)])

theorem start_mono (segments : List (List α)) {i j : Nat} (order : i ≤ j) :
    start segments i ≤ start segments j := by
  induction order with
  | refl => exact Nat.le_refl _
  | step _ ih => exact Nat.le_trans ih (start_le_succ segments _)

theorem start_le_length (segments : List (List α)) (i : Nat) :
    start segments i ≤ segments.flatten.length := by
  rw [← start_of_length_le (Nat.le_max_right i segments.length)]
  exact start_mono segments (Nat.le_max_left _ _)

theorem drop_start (segments : List (List α)) (i : Nat) :
    segments.flatten.drop (start segments i) = (segments.drop i).flatten := by
  have split : segments.flatten = (segments.take i).flatten ++ (segments.drop i).flatten := by
    rw [← List.flatten_append, List.take_append_drop]
  rw [split, start]
  exact List.drop_left

theorem take_start (segments : List (List α)) (i : Nat) :
    segments.flatten.take (start segments i) = (segments.take i).flatten := by
  have split : segments.flatten = (segments.take i).flatten ++ (segments.drop i).flatten := by
    rw [← List.flatten_append, List.take_append_drop]
  rw [split, start]
  exact List.take_left

theorem drop_take_segment {segments : List (List α)} {i : Nat} (inside : i < segments.length)
    {o n : Nat} (fits : o + n ≤ segments[i].length) :
    (segments.flatten.drop (start segments i + o)).take n = (segments[i].drop o).take n := by
  rw [← List.drop_drop, drop_start, List.drop_eq_getElem_cons inside, List.flatten_cons,
    List.drop_append_of_le_length (by omega), List.take_append_of_le_length (by simp; omega)]

theorem Whole.le_length {segments : List (List α)} {a n : Nat} (whole : Whole segments a n) :
    a + n ≤ segments.flatten.length := by
  obtain ⟨i, _, last⟩ := whole
  exact Nat.le_trans last (start_le_length segments _)

/-- Two nonempty stretches from one position select the same segment. -/
theorem segment_unique {segments : List (List α)} {i j a : Nat}
    (low : start segments i ≤ a) (high : a < start segments (i + 1))
    (low' : start segments j ≤ a) (high' : a < start segments (j + 1)) : i = j := by
  rcases Nat.lt_trichotomy i j with less | same | more
  · have := start_mono segments (show i + 1 ≤ j from less)
    omega
  · exact same
  · have := start_mono segments (show j + 1 ≤ i from more)
    omega

theorem Whole.append_left {front : List (List α)} {a n : Nat} (whole : Whole front a n)
    (back : List (List α)) : Whole (front ++ back) a n := by
  obtain ⟨i, low, high⟩ := whole
  by_cases inside : i < front.length
  · refine ⟨i, ?_, ?_⟩
    · rw [start_append, Nat.sub_eq_zero_of_le (by omega), start_zero]
      omega
    · rw [start_append]
      omega
  · refine ⟨front.length, ?_, ?_⟩
    · rw [start_append, start_of_length_le (Nat.le_refl _), Nat.sub_self, start_zero]
      rw [start_of_length_le (by omega)] at low
      omega
    · rw [start_append, start_of_length_le (by omega)]
      rw [start_of_length_le (by omega)] at high
      omega

theorem Whole.append_right {back : List (List α)} {a n : Nat} (whole : Whole back a n)
    (front : List (List α)) : Whole (front ++ back) (front.flatten.length + a) n := by
  obtain ⟨i, low, high⟩ := whole
  refine ⟨front.length + i, ?_, ?_⟩
  · rw [start_append, start_of_length_le (by omega), Nat.add_sub_cancel_left]
    omega
  · rw [start_append, start_of_length_le (by omega),
      show front.length + i + 1 - front.length = i + 1 by omega]
    omega

theorem Whole.of_append {front back : List (List α)} {a n : Nat} (whole : Whole (front ++ back) a n) :
    Whole front a n ∨ ∃ b, a = front.flatten.length + b ∧ Whole back b n := by
  obtain ⟨i, low, high⟩ := whole
  rw [start_append] at low high
  by_cases inside : i < front.length
  · rw [Nat.sub_eq_zero_of_le (show i + 1 ≤ front.length from inside), start_zero] at high
    exact Or.inl ⟨i, by omega, high⟩
  · rw [start_of_length_le (by omega)] at low
    rw [start_of_length_le (by omega), show i + 1 - front.length = i - front.length + 1 by omega] at high
    exact Or.inr ⟨a - front.flatten.length, by omega, i - front.length, by omega, by omega⟩

@[simp] theorem whole_singleton {segment : List α} {a n : Nat} :
    Whole [segment] a n ↔ a + n ≤ segment.length := by
  refine ⟨fun whole => by simpa using whole.le_length, fun fits => ⟨0, by simp, ?_⟩⟩
  simpa using fits

theorem whole_one {segments : List (List α)} {a : Nat} (inside : a < segments.flatten.length) :
    Whole segments a 1 := by
  induction segments generalizing a with
  | nil => simp at inside
  | cons first rest ih =>
    rw [List.flatten_cons, List.length_append] at inside
    by_cases here : a < first.length
    · exact Whole.append_left (whole_singleton.2 here) rest
    · have later := (ih (a := a - first.length) (by omega)).append_right [first]
      simpa [Nat.add_sub_cancel' (Nat.le_of_not_lt here)] using later

theorem whole_zero (segments : List (List α)) : Whole segments 0 0 := ⟨0, by simp, by simp⟩

theorem whole_end (segments : List (List α)) : Whole segments segments.flatten.length 0 :=
  ⟨segments.length, start_le_length _ _, Nat.le_of_eq (start_of_length_le (Nat.le_succ _)).symm⟩

def beforeEmpty (segments : List (List α)) : List (List α) := segments.takeWhile fun segment => !segment.isEmpty

theorem flatten_beforeEmpty (segments : List (List α)) : (beforeEmpty segments).flatten <+: segments.flatten := by
  obtain ⟨rest, split⟩ := List.takeWhile_prefix (l := segments) fun segment => !segment.isEmpty
  exact ⟨rest.flatten, by rw [← List.flatten_append, beforeEmpty, split]⟩

/-- A position comes before the first empty segment when it comes before all of them. -/
theorem le_beforeEmpty_iff {segments : List (List α)} {n : Nat} (inside : n ≤ segments.flatten.length) :
    n ≤ (beforeEmpty segments).flatten.length ↔ ∀ i, segments[i]? = some [] → n ≤ start segments i := by
  induction segments generalizing n with
  | nil => simpa [beforeEmpty] using inside
  | cons first rest ih =>
    rw [List.flatten_cons, List.length_append] at inside
    by_cases empty : first = []
    · subst empty
      constructor
      · intro none i _
        exact Nat.le_trans none (Nat.zero_le _)
      · intro before
        have := before 0 rfl
        rw [start_zero] at this
        omega
    · have cut : beforeEmpty (first :: rest) = first :: beforeEmpty rest :=
        List.takeWhile_cons_of_pos (by simpa using empty)
      have tail := ih (n := n - first.length) (by omega)
      rw [cut, List.flatten_cons, List.length_append, ← Nat.sub_le_iff_le_add', tail]
      constructor
      · intro before i none
        cases i with
        | zero => exact absurd (Option.some.inj none) empty
        | succ i =>
          rw [start_cons_succ]
          have := before i none
          omega
      · intro before i none
        have := before (i + 1) none
        rw [start_cons_succ] at this
        omega

theorem Whole.take {segments : List (List α)} {a n j : Nat} (whole : Whole segments a n)
    (before : a + n ≤ start segments j) : Whole (segments.take j) a n := by
  rw [← List.take_append_drop j segments] at whole
  rcases whole.of_append with inFront | ⟨b, rfl, _⟩
  · exact inFront
  · have empty : b = 0 ∧ n = 0 := by
      rw [start] at before
      omega
    rw [empty.1, empty.2]
    exact whole_end _

theorem Whole.drop {segments : List (List α)} {a n i : Nat} (whole : Whole segments a n)
    (after : start segments i ≤ a) : Whole (segments.drop i) (a - start segments i) n := by
  rw [← List.take_append_drop i segments] at whole
  rcases whole.of_append with inFront | ⟨b, rfl, inBack⟩
  · have limit := inFront.le_length
    rw [start] at after ⊢
    rw [show a - (segments.take i).flatten.length = 0 by omega, show n = 0 by omega]
    exact whole_zero _
  · rwa [start, Nat.add_sub_cancel_left]

theorem Whole.drop_head {first : List α} {rest : List (List α)} {a n o : Nat}
    (whole : Whole (first :: rest) a n) (inside : o ≤ first.length) (after : o ≤ a) :
    Whole (first.drop o :: rest) (a - o) n := by
  rcases Whole.of_append (show Whole ([first] ++ rest) a n from whole) with inFirst | ⟨b, rfl, inRest⟩
  · have fits := whole_singleton.1 inFirst
    refine Whole.append_left (show Whole [first.drop o] (a - o) n from whole_singleton.2 ?_) rest
    rw [List.length_drop]
    omega
  · have shifted := inRest.append_right [first.drop o]
    simp only [List.flatten_cons, List.flatten_nil, List.append_nil, List.length_drop] at shifted ⊢
    rwa [Nat.sub_add_comm inside]

theorem Whole.take_last (front : List (List α)) {last : List α} {a n p : Nat}
    (whole : Whole (front ++ [last]) a n) (inside : p ≤ last.length)
    (before : a + n ≤ front.flatten.length + p) : Whole (front ++ [last.take p]) a n := by
  rcases whole.of_append with inFront | ⟨b, rfl, inLast⟩
  · exact inFront.append_left _
  · refine Whole.append_right (whole_singleton.2 ?_) front
    rw [List.length_take]
    omega

/-- `part` holds the elements from flat position `first` to `last`, with no boundary added. -/
def Cut (segments part : List (List α)) (first last : Nat) : Prop :=
  part.flatten = (segments.flatten.take last).drop first ∧
    ∀ a n, Whole segments (first + a) n → first + a + n ≤ last → Whole part a n

namespace Cut

theorem trans {segments middle part : List (List α)} {a b c d : Nat} (outer : Cut segments middle a b)
    (inner : Cut middle part c d) (inside : a + d ≤ b) : Cut segments part (a + c) (a + d) := by
  refine ⟨?_, fun x n whole before => inner.2 x n (outer.2 (c + x) n ?_ (by omega)) (by omega)⟩
  · rw [inner.1, outer.1, List.take_drop, List.take_take, Nat.min_eq_left inside, List.drop_drop]
  · rwa [← Nat.add_assoc]

theorem select (segments : List (List α)) (i j : Nat) :
    Cut segments ((segments.take j).drop i) (start segments i) (start segments j) := by
  refine ⟨?_, fun a n whole before => ?_⟩
  · rcases Nat.le_total i j with order | order
    · have same : start (segments.take j) i = start segments i := by
        rw [start, start, List.take_take, Nat.min_eq_left order]
      rw [take_start, ← same, drop_start]
    · rw [List.drop_of_length_le (by simp; omega), List.drop_of_length_le]
      · rfl
      · have := start_mono segments order
        simp
        omega
  · have low := whole.take before
    rcases Nat.le_total i j with order | order
    · have same : start (segments.take j) i = start segments i := by
        rw [start, start, List.take_take, Nat.min_eq_left order]
      have inside := low.drop (i := i) (by omega)
      rwa [same, Nat.add_sub_cancel_left] at inside
    · have := start_mono segments order
      rw [show a = 0 by omega, show n = 0 by omega]
      exact whole_zero _

theorem single {segment : List α} {o p : Nat} (order : o ≤ p) (inside : p ≤ segment.length) :
    Cut [segment] [(segment.drop o).take (p - o)] o p := by
  refine ⟨by simp [List.drop_take], fun a n _ before => whole_singleton.2 ?_⟩
  rw [List.length_take, List.length_drop]
  omega

theorem ends {first last : List α} (between : List (List α)) {o p : Nat} (front : o ≤ first.length)
    (back : p ≤ last.length) : Cut (first :: (between ++ [last])) (first.drop o :: (between ++ [last.take p]))
      o ((first :: between).flatten.length + p) := by
  refine ⟨?_, fun a n whole before => ?_⟩
  · simp only [List.flatten_cons, List.flatten_append, List.flatten_nil, List.append_nil, List.length_append]
    rw [← List.append_assoc, ← List.append_assoc, ← List.length_append, List.take_length_add_append,
      List.append_assoc, List.append_assoc, List.drop_append_of_le_length front]
  · have cut := Whole.take_last (first :: between) whole back before
    have shifted := Whole.drop_head cut front (Nat.le_add_right o a)
    rwa [Nat.add_sub_cancel_left] at shifted

end Cut

/-- The same flat sequence, cut at some of the boundaries only. -/
def Coarser (fine coarse : List (List α)) : Prop :=
  coarse.flatten = fine.flatten ∧ ∀ a n, Whole fine a n → Whole coarse a n

namespace Coarser

theorem refl (segments : List (List α)) : Coarser segments segments := ⟨rfl, fun _ _ whole => whole⟩

theorem trans {fine middle coarse : List (List α)} (first : Coarser fine middle)
    (second : Coarser middle coarse) : Coarser fine coarse :=
  ⟨second.1.trans first.1, fun a n whole => second.2 a n (first.2 a n whole)⟩

theorem append {fine coarse fine' coarse' : List (List α)} (front : Coarser fine coarse)
    (back : Coarser fine' coarse') : Coarser (fine ++ fine') (coarse ++ coarse') := by
  refine ⟨by rw [List.flatten_append, List.flatten_append, front.1, back.1], fun a n whole => ?_⟩
  rcases whole.of_append with inFront | ⟨b, rfl, inBack⟩
  · exact (front.2 a n inFront).append_left _
  · rw [← front.1]
    exact (back.2 b n inBack).append_right _

theorem join (segments : List (List α)) : Coarser segments [segments.flatten] :=
  ⟨by simp, fun _ _ whole => whole_singleton.2 whole.le_length⟩

theorem drop_empty : Coarser [([] : List α)] [] := by
  refine ⟨rfl, fun a n whole => ⟨0, ?_, ?_⟩⟩
  · simp
  · simpa using whole

theorem add_empty : Coarser [] [([] : List α)] := by
  refine ⟨rfl, fun a n whole => ⟨0, ?_, ?_⟩⟩
  · simp
  · simpa using whole.le_length

theorem drop_last (front : List (List α)) : Coarser (front ++ [[]]) front := by
  have ended := (refl front).append drop_empty
  rwa [List.append_nil] at ended

theorem extend (front : List (List α)) (last added : List α) :
    Coarser (front ++ [last] ++ [added]) (front ++ [last ++ added]) := by
  have joined : Coarser [last, added] [last ++ added] := by simpa using join [last, added]
  simpa using (refl front).append joined

end Coarser

end IpcBond.Library.Segments
