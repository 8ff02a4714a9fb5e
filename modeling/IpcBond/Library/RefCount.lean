import Mathlib.Algebra.Order.Group.Multiset
import Mathlib.Data.Fintype.Card
import Mathlib.Logic.Relation

/-! Reference counting. Tables of cells: the field of a cell, and the total of what all cells hold,
such as their references as a multiset; and why counting suffices where references form no cycle:
then nothing is referred to only by what is referred to itself. -/

namespace IpcBond.Library.RefCount

section Fields

variable {α β : Type*} (field : α → β) (absent : β)

def lookup (table : List α) (i : Nat) : β := (table[i]?.map field).getD absent

theorem lookup_of_some {table : List α} {i : Nat} {cell : α} (found : table[i]? = some cell) :
    lookup field absent table i = field cell := by
  rw [lookup, found]
  rfl

theorem exists_of_lookup_ne {table : List α} {i : Nat} (present : lookup field absent table i ≠ absent) :
    ∃ cell, table[i]? = some cell := by
  cases found : table[i]? with
  | some cell => exact ⟨cell, rfl⟩
  | none => exact absurd (by rw [lookup, found]; rfl) present

theorem lookup_modify {table : List α} {i : Nat} {cell : α} (found : table[i]? = some cell) (f : α → α) (j : Nat) :
    lookup field absent (table.modify i f) j = if i = j then field (f cell) else lookup field absent table j := by
  rw [lookup, List.getElem?_modify]
  split
  · next same =>
    subst same
    rw [found]
    rfl
  · simp [lookup]

theorem lookup_modify_same {f : α → α} (same : ∀ cell, field (f cell) = field cell) (table : List α) (i j : Nat) :
    lookup field absent (table.modify i f) j = lookup field absent table j := by
  rw [lookup, lookup, List.getElem?_modify]
  split
  · cases table[j]? with
    | none => rfl
    | some cell => exact same cell
  · simp

theorem lookup_append (table : List α) (cell : α) (i : Nat) :
    lookup field absent (table ++ [cell]) i = if table.length = i then field cell else lookup field absent table i := by
  rw [lookup, lookup]
  split
  · next last => simp [← last]
  · next other =>
    by_cases inside : i < table.length
    · rw [List.getElem?_append_left inside]
    · rw [List.getElem?_eq_none (by simp; omega), List.getElem?_eq_none (by omega)]

end Fields

section Tables

variable {α M : Type*} [AddCommMonoid M] (references : α → M)

def gather (table : List α) : M := (table.map references).sum

@[simp] theorem gather_nil : gather references [] = 0 := rfl

@[simp] theorem gather_cons (cell : α) (rest : List α) :
    gather references (cell :: rest) = references cell + gather references rest := by
  rw [gather, List.map_cons, List.sum_cons, gather]

@[simp] theorem gather_append (front back : List α) :
    gather references (front ++ back) = gather references front + gather references back := by
  rw [gather, List.map_append, List.sum_append, gather, gather]

theorem gather_map {γ : Type*} (f : γ → α) (table : List γ) :
    gather references (table.map f) = gather (fun cell => references (f cell)) table := by
  rw [gather, gather, List.map_map]
  rfl

theorem gather_eraseIdx {table : List α} {i : Nat} {cell : α} (found : table[i]? = some cell) :
    gather references (table.eraseIdx i) + references cell = gather references table := by
  induction table generalizing i with
  | nil => cases found
  | cons first rest ih =>
    cases i with
    | zero =>
      cases found
      rw [List.eraseIdx_cons_zero, gather_cons, add_comm]
    | succ i => rw [List.eraseIdx_cons_succ, gather_cons, gather_cons, add_assoc, ih found]

theorem mem_gather {β : Type*} {references : α → Multiset β} {table : List α} {b : β} :
    b ∈ gather references table ↔ ∃ cell ∈ table, b ∈ references cell := by
  induction table with
  | nil => simp
  | cons cell rest ih => simp [ih]

theorem gather_eq_zero {table : List α} (empty : ∀ cell ∈ table, references cell = 0) : gather references table = 0 := by
  induction table with
  | nil => rfl
  | cons cell rest ih =>
    rw [gather_cons, empty cell List.mem_cons_self, zero_add]
    exact ih fun other member => empty other (List.mem_cons_of_mem _ member)

theorem gather_set {table : List α} {i : Nat} {old : α} (found : table[i]? = some old) (new : α) :
    gather references (table.set i new) + references old = gather references table + references new := by
  induction table generalizing i with
  | nil => cases found
  | cons cell rest ih =>
    cases i with
    | zero =>
      cases found
      rw [List.set_cons_zero, gather_cons, gather_cons]
      ac_rfl
    | succ i =>
      rw [List.set_cons_succ, gather_cons, gather_cons, add_assoc, ih found, add_assoc]

theorem gather_modify_add {table : List α} {i : Nat} {old : α} {more : M} (found : table[i]? = some old) (f : α → α)
    (gained : references (f old) = references old + more) :
    gather references (table.modify i f) = gather references table + more := by
  induction table generalizing i with
  | nil => cases found
  | cons cell rest ih =>
    cases i with
    | zero =>
      cases found
      rw [List.modify_zero_cons, gather_cons, gather_cons, gained]
      ac_rfl
    | succ i => rw [List.modify_succ_cons, gather_cons, gather_cons, ih found, add_assoc]

theorem gather_modify_sub {table : List α} {i : Nat} {old : α} {less : M} (found : table[i]? = some old) (f : α → α)
    (lost : references (f old) + less = references old) :
    gather references (table.modify i f) + less = gather references table := by
  induction table generalizing i with
  | nil => cases found
  | cons cell rest ih =>
    cases i with
    | zero =>
      cases found
      rw [List.modify_zero_cons, gather_cons, gather_cons, ← lost]
      ac_rfl
    | succ i => rw [List.modify_succ_cons, gather_cons, gather_cons, add_assoc, ih found]

theorem gather_modify_same {table : List α} {i : Nat} {f : α → α} (same : ∀ cell, references (f cell) = references cell) :
    gather references (table.modify i f) = gather references table := by
  induction table generalizing i with
  | nil => simp
  | cons cell rest ih =>
    cases i with
    | zero => rw [List.modify_zero_cons, gather_cons, gather_cons, same]
    | succ i => rw [List.modify_succ_cons, gather_cons, gather_cons, ih]

theorem count_eq_card_places {β : Type*} [DecidableEq β] (table : List β) (b : β) :
    table.count b = ((Finset.range table.length).filter fun i => table[i]? = some b).card := by
  induction table using List.reverseRecOn with
  | nil => rfl
  | append_singleton front last ih =>
    have before : (Finset.range front.length).filter (fun i => (front ++ [last])[i]? = some b) =
        (Finset.range front.length).filter fun i => front[i]? = some b := by
      refine Finset.filter_congr fun i member => ?_
      rw [List.getElem?_append_left (Finset.mem_range.1 member)]
    rw [List.length_append, List.length_singleton, Finset.range_add_one, Finset.filter_insert, before,
      List.getElem?_concat_length, List.count_append, ih]
    by_cases same : last = b
    · rw [if_pos (congrArg some same), Finset.card_insert_of_notMem (by simp), same]
      simp
    · rw [if_neg (by simpa using same)]
      simp [same]

end Tables

section Cycles

variable {N : Type*} {Refers : N → N → Prop}

/-- Without cycles, and with finitely many nodes that refer to others, nothing is referred to
only by nodes that are referred to themselves. -/
theorem none_counted_of_acyclic (Counted : N → Prop)
    (acyclic : ∀ n, ¬ Relation.TransGen Refers n n) (finite : {m | ∃ n, Refers m n}.Finite)
    (referred : ∀ n, Counted n → ∃ m, Refers m n ∧ Counted m) : ∀ n, ¬ Counted n := by
  let Source := {m // m ∈ {m | ∃ n, Refers m n}}
  have : Finite Source := finite
  let Before (m n : Source) : Prop := Relation.TransGen Refers m.val n.val
  have : IsTrans Source Before := ⟨fun _ _ _ => Relation.TransGen.trans⟩
  have : Std.Irrefl Before := ⟨fun m => acyclic m.val⟩
  have wellFounded : WellFounded Before := Finite.wellFounded_of_trans_of_irrefl _
  -- whatever refers to a counted node is itself a source that is counted
  have none : ∀ m : Source, ¬ Counted m.val := by
    intro m
    induction m using wellFounded.induction with
    | _ m ih =>
      intro counted
      obtain ⟨l, refers, earlier⟩ := referred m.val counted
      exact ih ⟨l, m.val, refers⟩ (.single refers) earlier
  intro n counted
  obtain ⟨m, refers, earlier⟩ := referred n counted
  exact none ⟨m, n, refers⟩ earlier

theorem acyclic_of_rank (rank : N → Nat) (lower : ∀ m n, Refers m n → rank n < rank m) (n : N) :
    ¬ Relation.TransGen Refers n n := by
  have descends : ∀ m n, Relation.TransGen Refers m n → rank n < rank m := by
    intro m n path
    induction path with
    | single refers => exact lower _ _ refers
    | tail _ refers ih => exact Nat.lt_trans (lower _ _ refers) ih
  exact fun cycle => Nat.lt_irrefl _ (descends n n cycle)

end Cycles

end IpcBond.Library.RefCount
