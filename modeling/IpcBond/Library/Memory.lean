import Mathlib.Data.List.Basic

/-! A block of memory as the list of its cells, and storing consecutive cells into it. -/

namespace IpcBond.Library.Memory

variable {α : Type*}

def store (memory : List α) (cell : Nat) (values : List α) : List α :=
  (memory.take cell ++ values ++ memory.drop (cell + values.length)).take memory.length

variable {memory values : List α} {cell : Nat}

@[simp] theorem store_nil (memory : List α) (cell : Nat) : store memory cell [] = memory := by
  simp [store]

@[simp] theorem store_length (memory : List α) (cell : Nat) (values : List α) :
    (store memory cell values).length = memory.length := by
  simp only [store, List.length_take, List.length_append, List.length_drop]
  omega

theorem store_eq (room : cell + values.length ≤ memory.length) :
    store memory cell values = memory.take cell ++ values ++ memory.drop (cell + values.length) := by
  rw [store, List.take_of_length_le]
  simp only [List.length_append, List.length_take, List.length_drop]
  omega

theorem take_store (room : cell + values.length ≤ memory.length) {n : Nat} (before : n ≤ cell) :
    (store memory cell values).take n = memory.take n := by
  rw [store_eq room, List.append_assoc, List.take_append_of_le_length (by simp; omega), List.take_take,
    Nat.min_eq_left before]

theorem take_store_end (room : cell + values.length ≤ memory.length) :
    (store memory cell values).take (cell + values.length) = memory.take cell ++ values := by
  rw [store_eq room]
  exact List.take_left' (by simp; omega)

theorem drop_store (room : cell + values.length ≤ memory.length) {n : Nat} (past : cell + values.length ≤ n) :
    (store memory cell values).drop n = memory.drop n := by
  have length : (memory.take cell ++ values).length = cell + values.length := by
    rw [List.length_append, List.length_take, Nat.min_eq_left (by omega)]
  rw [store_eq room, List.drop_append, length, List.drop_of_length_le (by omega), List.nil_append, List.drop_drop,
    Nat.add_sub_cancel' past]

theorem store_store {more : List α} (room : cell + values.length + more.length ≤ memory.length) :
    store (store memory cell values) (cell + values.length) more = store memory cell (values ++ more) := by
  have front : cell + values.length ≤ memory.length := by omega
  have all : cell + (values ++ more).length = cell + values.length + more.length := by
    rw [List.length_append, Nat.add_assoc]
  rw [store_eq (by rwa [store_length]), take_store_end front, drop_store front (Nat.le_add_right _ _),
    store_eq (by rwa [all]), all, List.append_assoc (memory.take cell)]

end IpcBond.Library.Memory
