import IpcBond.BufferPool
import Mathlib.Tactic.Ring

/-! The variable-length integers of Bond. Its codecs are not part of this repository: they are
a parameter of the buffers, together with what the buffers rely on. -/

namespace IpcBond

inductive Width where
  | bits16
  | bits32
  | bits64
  deriving DecidableEq, Repr

namespace Width

def bits : Width → Nat
  | bits16 => 16
  | bits32 => 32
  | bits64 => 64

def maxBytes (width : Width) : Nat := (width.bits + 6) / 7

/-- The guard `sizeof(T) * 8 / 7` rounds down, one byte short of the longest encoding. -/
theorem maxBytes_eq (width : Width) : width.maxBytes = width.bits / 7 + 1 := by
  cases width <;> decide

end Width

/-- The 7-bit little-endian encoding: every byte but the last has its high bit set. -/
def encodeVariable (value : Nat) : List Byte :=
  if value < 128 then [value.toUInt8]
  else (value % 128 + 128).toUInt8 :: encodeVariable (value / 128)
termination_by value
decreasing_by omega

theorem encodeVariable_ne_nil (value : Nat) : encodeVariable value ≠ [] := by
  rw [encodeVariable]
  split <;> simp

theorem encodeVariable_length_le {value count : Nat} (positive : 0 < count)
    (bound : value < 128 ^ count) : (encodeVariable value).length ≤ count := by
  induction count generalizing value with
  | zero => omega
  | succ count ih =>
    rw [encodeVariable]
    split
    · simp
    · have nonzero : 0 < count := by
        rcases Nat.eq_zero_or_pos count with rfl | more
        · simp at bound
          omega
        · exact more
      have smaller : value / 128 < 128 ^ count := by
        rw [Nat.div_lt_iff_lt_mul (by decide), ← pow_succ]
        exact bound
      simpa using ih nonzero smaller

theorem encodeVariable_fits {width : Width} {value : Nat} (bound : value < 2 ^ width.bits) :
    (encodeVariable value).length ≤ width.maxBytes := by
  apply encodeVariable_length_le
  · cases width <;> decide
  · refine Nat.lt_of_lt_of_le bound ?_
    cases width <;> decide

def decodeWith {Acc : Type} (feed : Acc → Byte → Acc ⊕ Nat) : Acc → List Byte → Option Nat
  | _, [] => none
  | acc, byte :: rest =>
    match feed acc byte with
    | .inl next => decodeWith feed next rest
    | .inr value => if rest = [] then some value else none

/-- Bond's codecs. The unchecked ones work on raw memory and touch at most `maxBytes` bytes,
the generic ones write and read one byte at a time through the buffer. -/
structure BondCodec where
  /-- The bytes `VariableUnsignedUnchecked<T, 1>::Write` stores from the pointer on. -/
  writeUnchecked : Width → Nat → List Byte
  /-- The bytes `GenericWriteVariableUnsigned` passes to `Write(std::uint8_t)`, in order. -/
  writeGeneric : Width → Nat → List Byte
  /-- `VariableUnsignedUnchecked<T, 0>::Read` on the memory at the pointer: the value and by
  how much the pointer moves. -/
  readUnchecked : Width → List Byte → Nat × Nat
  /-- The local variables of `GenericReadVariableUnsigned`. -/
  Acc : Type
  readStart : Width → Acc
  /-- What `GenericReadVariableUnsigned` does with one byte it has read. -/
  readByte : Width → Acc → Byte → Acc ⊕ Nat
  writeUnchecked_eq : ∀ width value, value < 2 ^ width.bits →
    writeUnchecked width value = encodeVariable value
  writeGeneric_eq : ∀ width value, value < 2 ^ width.bits →
    writeGeneric width value = encodeVariable value
  readUnchecked_eq : ∀ width value rest, value < 2 ^ width.bits →
    readUnchecked width (encodeVariable value ++ rest) = (value, (encodeVariable value).length)
  readUnchecked_local : ∀ width memory,
    readUnchecked width memory = readUnchecked width (memory.take width.maxBytes)
  readUnchecked_le : ∀ width memory, (readUnchecked width memory).2 ≤ width.maxBytes
  readByte_eq : ∀ width value, value < 2 ^ width.bits →
    decodeWith (readByte width) (readStart width) (encodeVariable value) = some value
  readByte_continues : ∀ width acc byte, 128 ≤ byte.toNat → ∃ next, readByte width acc byte = .inl next

def decodePrefix : Nat → List Byte → Nat × Nat
  | 0, _ => (0, 0)
  | _, [] => (0, 0)
  | count + 1, byte :: rest =>
    if byte.toNat < 128 then (byte.toNat, 1)
    else ((decodePrefix count rest).1 * 128 + (byte.toNat - 128), (decodePrefix count rest).2 + 1)

private theorem toNat_toUInt8 {n : Nat} (small : n < 256) : n.toUInt8.toNat = n := by
  simp [Nat.mod_eq_of_lt small]

theorem decodePrefix_encode {value count : Nat} (positive : 0 < count) (bound : value < 128 ^ count)
    (rest : List Byte) :
    decodePrefix count (encodeVariable value ++ rest) = (value, (encodeVariable value).length) := by
  induction count generalizing value with
  | zero => omega
  | succ count ih =>
    rw [encodeVariable]
    split
    · next last => simp [decodePrefix, toNat_toUInt8 (by omega : value < 256), last]
    · next more =>
      have byte := toNat_toUInt8 (by omega : value % 128 + 128 < 256)
      have nonzero : 0 < count := by
        rcases Nat.eq_zero_or_pos count with rfl | more
        · simp at bound
          omega
        · exact more
      have smaller : value / 128 < 128 ^ count := by
        rw [Nat.div_lt_iff_lt_mul (by decide), ← pow_succ]
        exact bound
      simp only [List.cons_append, decodePrefix, byte, ih nonzero smaller,
        show ¬ value % 128 + 128 < 128 by omega, if_false, List.length_cons, Prod.mk.injEq, and_true]
      omega

theorem decodePrefix_take (count : Nat) (memory : List Byte) :
    decodePrefix count memory = decodePrefix count (memory.take count) := by
  induction count generalizing memory with
  | zero => rfl
  | succ count ih =>
    cases memory with
    | nil => rfl
    | cons byte rest => simp only [List.take_succ_cons, decodePrefix, ← ih rest]

theorem decodePrefix_le (count : Nat) (memory : List Byte) : (decodePrefix count memory).2 ≤ count := by
  induction count generalizing memory with
  | zero => simp [decodePrefix]
  | succ count ih =>
    cases memory with
    | nil => simp [decodePrefix]
    | cons byte rest =>
      simp only [decodePrefix]
      split
      · simp
      · exact Nat.succ_le_succ (ih rest)

def decodeStep (acc : Nat × Nat) (byte : Byte) : (Nat × Nat) ⊕ Nat :=
  if byte.toNat < 128 then .inr (acc.1 + byte.toNat * acc.2)
  else .inl (acc.1 + (byte.toNat - 128) * acc.2, acc.2 * 128)

theorem decodeStep_encode (value low weight : Nat) :
    decodeWith decodeStep (low, weight) (encodeVariable value) = some (low + value * weight) := by
  induction value using Nat.strongRecOn generalizing low weight with
  | ind value ih =>
    rw [encodeVariable]
    split
    · next last => simp [decodeWith, decodeStep, toNat_toUInt8 (by omega : value < 256), last]
    · next more =>
      have byte := toNat_toUInt8 (by omega : value % 128 + 128 < 256)
      simp only [decodeWith, decodeStep, byte, show ¬ value % 128 + 128 < 128 by omega, if_false,
        Nat.add_sub_cancel, ih (value / 128) (by omega), Option.some.injEq]
      calc low + value % 128 * weight + value / 128 * (weight * 128)
          = low + (value % 128 + 128 * (value / 128)) * weight := by ring
        _ = low + value * weight := by rw [Nat.mod_add_div]

def sevenBitCodec : BondCodec where
  writeUnchecked _ := encodeVariable
  writeGeneric _ := encodeVariable
  readUnchecked width := decodePrefix width.maxBytes
  Acc := Nat × Nat
  readStart _ := (0, 1)
  readByte _ := decodeStep
  writeUnchecked_eq _ _ _ := rfl
  writeGeneric_eq _ _ _ := rfl
  readUnchecked_eq width value rest bound := by
    apply decodePrefix_encode
    · cases width <;> decide
    · refine Nat.lt_of_lt_of_le bound ?_
      cases width <;> decide
  readUnchecked_local width := decodePrefix_take width.maxBytes
  readUnchecked_le width := decodePrefix_le width.maxBytes
  readByte_eq _ value _ := by simpa using decodeStep_encode value 0 1
  readByte_continues _ acc byte high := ⟨_, if_neg (by omega)⟩

end IpcBond
