import IpcBond.ReadTermination

/-! What the loops of `ReadMultiple` cost over a whole run. A call goes once around for each blob that it leaves, and
once more; a blob that has been left is not visited again, so the blobs are paid for once over all calls together. -/

namespace IpcBond
open Library.StateExcept Library.Loop

namespace InputBuffer

def thrown {α : Type} (result : EStateM.Result Error InputBuffer α) : Nat := (!returns (fun _ => true) result).toNat

def roundsOf : Nat → Nat × InputBuffer → Nat
  | 0, _ => 0
  | fuel + 1, state =>
    match readRound state with
    | .inl next => roundsOf fuel next + 1
    | .inr result => thrown result

def ReadOp.crosses : ReadOp → Option Nat
  | .bytes size => some size
  | .skip size => some size
  | _ => none

def ReadOp.throws (s : InputBuffer) : ReadOp → Nat
  | .bytes size => thrown (readBytes size s)
  | .skip size => thrown (InputBuffer.skip size s)
  | _ => 0

/-- What a run has cost: the calls that read across blobs, those of them that have thrown, and all their iterations. -/
structure Spent where
  calls : Nat
  failures : Nat
  rounds : Nat
  deriving DecidableEq, Repr

def spend (bond : BondCodec) : List ReadOp → InputBuffer → Spent
  | [], _ => ⟨0, 0, 0⟩
  | op :: rest, s =>
    let later := spend bond rest (op.after bond s)
    match op.crosses with
    | some size => ⟨later.calls + 1, later.failures + op.throws s,
        later.rounds + roundsOf (s.blobEnd - s.blob + 2) (size, s)⟩
    | none => later

theorem roundsOf_rounds {n fuel : Nat} {state last : Nat × InputBuffer}
    {result : EStateM.Result Error InputBuffer Unit} (rounds : Rounds readRound n state last)
    (leaves : readRound last = .inr result) (enough : n < fuel) :
    roundsOf fuel state = n + thrown result := by
  induction rounds generalizing fuel with
  | none state =>
    obtain ⟨fuel, rfl⟩ : ∃ less, fuel = less + 1 := ⟨fuel - 1, by omega⟩
    rw [roundsOf, leaves, Nat.zero_add]
  | round first _ ih =>
    obtain ⟨fuel, rfl⟩ : ∃ less, fuel = less + 1 := ⟨fuel - 1, by omega⟩
    have later := ih leaves (by omega : _ < fuel)
    rw [roundsOf, first]
    simp only [later]
    omega

def roundsAhead : Nat × InputBuffer → Nat
  | (size, s) => (s.blobEnd - s.blob) + if size = 0 then 0 else 1

theorem Onward.round_ahead {s : InputBuffer} {state next : Nat × InputBuffer} (onward : s.Onward state.2)
    (taken : readRound state = .inl next) : s.Onward next.2 ∧ roundsAhead next < roundsAhead state := by
  obtain ⟨size, t⟩ := state
  have tracked : t.Tracked := onward.tracked
  by_cases none : size = 0
  · subst none
    cases taken
  · rcases tracked.readRound_spec none with failed | ⟨u, run, step, progress⟩
    · rw [failed] at taken
      cases taken
    · rw [run] at taken
      cases taken
      have before := step.tracked.blob_le
      have forward := step.blob_le
      have blobEnd := step.same.blobEnd
      refine ⟨onward.trans step, ?_⟩
      simp only [roundsAhead, if_neg none]
      rcases progress with all | later
      · rw [all, Nat.sub_self, if_pos rfl]
        omega
      · split <;> omega

theorem Tracked.call_cost {s : InputBuffer} (tracked : s.Tracked) (size : Nat)
    (func : Nat → InputBuffer → List Byte) :
    roundsOf (s.blobEnd - s.blob + 2) (size, s) + (s.blobEnd - (finalState (readMultiple size func s)).blob) ≤
      1 + (s.blobEnd - s.blob) + thrown (readMultiple size func s) * (s.blobEnd - s.blob) := by
  rcases tracked.readMultiple_ends size func with ⟨n, t, count, rounds, parts, run⟩ |
    ⟨n, left, t, count, rounds, leaves, run⟩
  · have ahead := rounds.count_le roundsAhead (fun _ _ onward taken => Onward.round_ahead onward taken)
      (show s.Onward (size, s).2 from .refl tracked)
    have blobEnd : t.blobEnd = s.blobEnd := (Onward.rounds (.refl tracked) rounds).same.blobEnd
    have cost := roundsOf_rounds rounds rfl (show n < s.blobEnd - s.blob + 2 by omega)
    have returned : thrown (.ok () t) = 0 := rfl
    rw [returned, Nat.add_zero] at cost
    rw [cost, run]
    simp only [roundsAhead, blobEnd, if_true, Nat.add_zero] at ahead
    change n + (s.blobEnd - t.blob) ≤ _
    split at ahead <;> omega
  · have cost := roundsOf_rounds rounds leaves (show n < s.blobEnd - s.blob + 2 by omega)
    have once : thrown (.error .outOfRange t : EStateM.Result Error InputBuffer Unit) = 1 := rfl
    have failed : thrown (.error .outOfRange s : EStateM.Result Error InputBuffer (List Byte)) = 1 := rfl
    rw [cost, run, once, failed, Nat.one_mul]
    change n + 1 + (s.blobEnd - s.blob) ≤ _
    omega

theorem Tracked.crossing_cost (bond : BondCodec) {s : InputBuffer} (tracked : s.Tracked) {op : ReadOp} {size : Nat}
    (crosses : op.crosses = some size) :
    roundsOf (s.blobEnd - s.blob + 2) (size, s) + (s.blobEnd - (op.after bond s).blob) ≤
      1 + (s.blobEnd - s.blob) + op.throws s * (s.blobEnd - s.blob) := by
  cases op with
  | bytes n =>
    cases crosses
    exact tracked.call_cost size _
  | skip n =>
    cases crosses
    have cost := tracked.call_cost size fun _ _ => []
    simp only [ReadOp.after, ReadOp.throws, skip_run]
    cases run : readMultiple size (fun _ _ => []) s with
    | ok parts t =>
      rw [run] at cost
      exact cost
    | error e t =>
      rw [run] at cost
      exact cost
  | value n => cases crosses
  | blob n => cases crosses
  | allocate n => cases crosses
  | variableUnsigned width => cases crosses

/-- What a run costs: the blobs ahead of it once, and once more for each failure, and one iteration for each call. -/
theorem Tracked.spend_le (bond : BondCodec) {s : InputBuffer} (tracked : s.Tracked) (ops : List ReadOp) :
    (spend bond ops s).rounds ≤
      (spend bond ops s).calls + (spend bond ops s).failures * s.blobEnd + (s.blobEnd - s.blob) := by
  induction ops generalizing s with
  | nil => exact Nat.zero_le _
  | cons op rest ih =>
    have step := op.after_onward bond tracked
    have later := ih step.tracked
    rw [step.same.blobEnd] at later
    have forward := step.blob_le
    cases crosses : op.crosses with
    | none =>
      simp only [spend, crosses]
      omega
    | some size =>
      have cost := tracked.crossing_cost bond crosses
      have visited : op.throws s * (s.blobEnd - s.blob) ≤ op.throws s * s.blobEnd :=
        Nat.mul_le_mul_left _ (Nat.sub_le _ _)
      simp only [spend, crosses, Nat.add_mul]
      omega

end InputBuffer

open InputBuffer in
/-- The iterations of all reads across blobs, in a run of any operations on any range: at most one for each call, and
for each failure and once for all the successes together as many as the buffer has blobs. -/
theorem read_cost (bond : BondCodec) (range : Range) (iterators : range.OverBuffer) (ops : List ReadOp) :
    (spend bond ops (ofRange range)).rounds ≤ (spend bond ops (ofRange range)).calls +
      ((spend bond ops (ofRange range)).failures + 1) * range.buffer.blobs.length := by
  obtain ⟨tracked, _, blobEnd⟩ := ofRange_tracked iterators
  have cost := tracked.spend_le bond ops
  have blobs : (ofRange range).blobEnd ≤ range.buffer.blobs.length := blobEnd ▸ iterators.stopBlob_le
  have failures := Nat.mul_le_mul_left (spend bond ops (ofRange range)).failures blobs
  rw [Nat.add_mul, Nat.one_mul]
  omega

open InputBuffer in
/-- Reads of single bytes and of all the rest, with one that fails in between, over three blobs. -/
theorem read_cost_failed :
    let buffer : ConstBuffer := ⟨some [⟨some ⟨1, [1, 2, 3]⟩, 0, 3⟩, .null, ⟨some ⟨2, [4, 5]⟩, 0, 2⟩]⟩
    let ops : List ReadOp := [.bytes 1, .skip 1, .value 1, .bytes 9, .bytes 2]
    spend sevenBitCodec ops (ofRange (.whole buffer)) = ⟨4, 1, 5⟩ ∧ 5 ≤ 4 + (1 + 1) * 3 := by
  intro buffer ops
  have iterators : (Range.whole buffer).OverBuffer := ⟨by decide, by decide, by decide⟩
  have spent : spend sevenBitCodec ops (ofRange (.whole buffer)) = ⟨4, 1, 5⟩ := by decide +kernel
  have cost := read_cost sevenBitCodec (.whole buffer) iterators ops
  rw [spent] at cost
  exact ⟨spent, cost⟩

end IpcBond
