import OpenArangoDBCore.Basics

/-!
# The idempotency check of the target side

`SequenceNumberTracker` keeps one high-water mark per shard and
`IdempotencyChecker` classifies a message against it. The receiver is the
usage that `IdempotencyChecker.h` documents. It applies a message exactly
once unless a later message of its shard has overtaken it.
-/

namespace OpenArangoDBCore.Replication

inductive Operation where
  | Insert
  | Update
  | Delete
  deriving DecidableEq, Repr

structure DirectMQMessage where
  shard_id : ByteString
  sequence : UInt64
  operation : Operation
  payload : List Byte
  deriving DecidableEq

structure SequenceNumberTracker where
  lastApplied : UnorderedMap ByteString UInt64

namespace SequenceNumberTracker

def new : SequenceNumberTracker := ⟨∅⟩

def isAlreadyApplied (t : SequenceNumberTracker) (shardId : ByteString) (seq : UInt64) : Bool :=
  match t.lastApplied.lookup shardId with
  | none => false
  | some last => seq ≤ last

def markApplied (t : SequenceNumberTracker) (shardId : ByteString) (seq : UInt64) :
    SequenceNumberTracker :=
  match t.lastApplied.lookup shardId with
  | none => ⟨t.lastApplied.insert shardId seq⟩
  | some last => ⟨t.lastApplied.insert shardId (if last < seq then seq else last)⟩

def lastAppliedSequence (t : SequenceNumberTracker) (shardId : ByteString) : UInt64 :=
  (t.lastApplied.lookup shardId).getD 0

end SequenceNumberTracker

inductive CheckResult where
  | Accept
  | Reject
  | OutOfOrder
  deriving DecidableEq, Repr

namespace IdempotencyChecker
open SequenceNumberTracker

def check (t : SequenceNumberTracker) (msg : DirectMQMessage) : CheckResult :=
  if t.isAlreadyApplied msg.shard_id msg.sequence then .Reject
  else
    let expectedNext := t.lastAppliedSequence msg.shard_id + 1
    if expectedNext < msg.sequence then .OutOfOrder else .Accept

def accept (t : SequenceNumberTracker) (msg : DirectMQMessage) : SequenceNumberTracker :=
  t.markApplied msg.shard_id msg.sequence

/-- The usage of the header: check, and on `Accept` or `OutOfOrder` apply the
message and accept it. The list holds the messages applied so far. -/
def receive (s : SequenceNumberTracker × List DirectMQMessage) (msg : DirectMQMessage) :
    SequenceNumberTracker × List DirectMQMessage :=
  match check s.1 msg with
  | .Accept => (accept s.1 msg, s.2 ++ [msg])
  | .OutOfOrder => (accept s.1 msg, s.2 ++ [msg])
  | .Reject => s

def receiveAll (deliveries : List DirectMQMessage) : SequenceNumberTracker × List DirectMQMessage :=
  deliveries.foldl receive (.new, [])

def applied (deliveries : List DirectMQMessage) : List DirectMQMessage := (receiveAll deliveries).2

/-! ### The mark is the largest sequence delivered -/

theorem check_reject (t : SequenceNumberTracker) (msg : DirectMQMessage) :
    check t msg = .Reject ↔ t.isAlreadyApplied msg.shard_id msg.sequence = true := by
  unfold check
  by_cases h : t.isAlreadyApplied msg.shard_id msg.sequence = true
  · simp [h]
  · rw [if_neg h]
    dsimp only
    split <;> simp [h]

theorem receive_cases (s : SequenceNumberTracker × List DirectMQMessage) (msg : DirectMQMessage) :
    receive s msg = if s.1.isAlreadyApplied msg.shard_id msg.sequence = true then s
      else (accept s.1 msg, s.2 ++ [msg]) := by
  have h := check_reject s.1 msg
  unfold receive
  cases hc : check s.1 msg with
  | Reject => rw [if_pos (h.mp hc)]
  | Accept | OutOfOrder =>
    rw [if_neg]
    intro hr
    rw [h.mpr hr] at hc
    cases hc

theorem markApplied_isAlreadyApplied (t : SequenceNumberTracker) (s j : ByteString)
    (q r : UInt64) : (t.markApplied s q).isAlreadyApplied j r = true ↔
      t.isAlreadyApplied j r = true ∨ (j = s ∧ r ≤ q) := by
  have hmax : ∀ last : UInt64, r ≤ (if last < q then q else last) ↔ r ≤ last ∨ r ≤ q := by
    intro last
    simp only [UInt64.le_iff_toNat_le, UInt64.lt_iff_toNat_lt]
    split <;> omega
  by_cases hj : j = s
  · subst hj
    unfold isAlreadyApplied markApplied
    cases h : t.lastApplied.lookup j with
    | none => simp
    | some last => simp [hmax]
  · unfold isAlreadyApplied markApplied
    cases h : t.lastApplied.lookup s with
    | none => simp [hj]
    | some last => simp [hj]

theorem receiveAll_snoc (D : List DirectMQMessage) (m : DirectMQMessage) :
    receiveAll (D ++ [m]) = receive (receiveAll D) m := by
  unfold receiveAll
  rw [List.foldl_append]
  rfl

/-- A message counts as applied once its shard has delivered its sequence or a larger one. -/
theorem receiveAll_isAlreadyApplied (D : List DirectMQMessage) (s : ByteString) (q : UInt64) :
    (receiveAll D).1.isAlreadyApplied s q = true ↔ ∃ m ∈ D, m.shard_id = s ∧ q ≤ m.sequence := by
  induction D using List.reverseRecOn generalizing s q with
  | nil => simp [receiveAll, isAlreadyApplied, SequenceNumberTracker.new]
  | append_singleton D m ih =>
    rw [receiveAll_snoc, receive_cases]
    simp only [List.mem_append, List.mem_singleton, or_and_right, exists_or, exists_eq_left]
    split
    next hrej =>
      rw [ih]
      constructor
      · exact Or.inl
      · intro h
        cases h with
        | inl h => exact h
        | inr h =>
          obtain ⟨m', hm', hs, hle⟩ := (ih m.shard_id m.sequence).mp hrej
          exact ⟨m', hm', hs.trans h.1, UInt64.le_trans h.2 hle⟩
    next =>
      rw [accept, markApplied_isAlreadyApplied, ih]
      apply or_congr Iff.rfl
      rw [eq_comm]

/-- Some message of the shard with this or a larger sequence has been delivered. -/
def Overtaken (D : List DirectMQMessage) (m : DirectMQMessage) : Prop :=
  ∃ m' ∈ D, m'.shard_id = m.shard_id ∧ m.sequence ≤ m'.sequence

theorem applied_snoc (D : List DirectMQMessage) (m : DirectMQMessage) [Decidable (Overtaken D m)] :
    applied (D ++ [m]) = if Overtaken D m then applied D else applied D ++ [m] := by
  have h := receiveAll_isAlreadyApplied D m.shard_id m.sequence
  unfold applied
  rw [receiveAll_snoc, receive_cases]
  by_cases ho : Overtaken D m
  · rw [if_pos ho, if_pos (h.mpr ho)]
  · rw [if_neg ho, if_neg fun hr => ho (h.mp hr)]

theorem applied_subset (D : List DirectMQMessage) : ∀ m ∈ applied D, m ∈ D := by
  classical
  induction D using List.reverseRecOn with
  | nil => exact fun m hm => hm
  | append_singleton D x ih =>
    intro m hm
    rw [applied_snoc] at hm
    split at hm
    · exact List.mem_append_left _ (ih m hm)
    · rw [List.mem_append] at hm ⊢
      exact hm.imp (ih m) id

/-! ### Results -/

def AppliedExactlyOnce (D : List DirectMQMessage) : Prop :=
  ∀ m, (applied D).count m = if m ∈ D then 1 else 0

/-- No message arrives for the first time after its sequence or a larger one of
its shard. -/
def FirstInOrder (D : List DirectMQMessage) : Prop :=
  ∀ before m, before ++ [m] <+: D → m ∉ before → ¬ Overtaken before m

theorem firstInOrder_snoc (D : List DirectMQMessage) (m : DirectMQMessage) :
    FirstInOrder (D ++ [m]) ↔ FirstInOrder D ∧ (m ∉ D → ¬ Overtaken D m) := by
  constructor
  · intro h
    constructor
    · intro before x hx
      exact h before x (hx.trans (List.prefix_append _ _))
    · exact h D m (List.prefix_refl _)
  · intro h before x hx
    obtain ⟨hD, hm⟩ := h
    cases List.prefix_concat_iff.mp hx with
    | inl heq =>
      obtain ⟨rfl, hxm⟩ := List.append_inj' heq rfl
      cases hxm
      exact hm
    | inr hpre => exact hD before x hpre

theorem applied_exactly_once_iff (D : List DirectMQMessage) :
    AppliedExactlyOnce D ↔ FirstInOrder D := by
  classical
  induction D using List.reverseRecOn with
  | nil =>
    apply iff_of_true
    · intro m
      rfl
    · intro before m hx
      simp at hx
  | append_singleton D m ih =>
    rw [firstInOrder_snoc, ← ih]
    by_cases hmem : m ∈ D
    · have ho : Overtaken D m := ⟨m, hmem, rfl, UInt64.le_refl _⟩
      have hsame : ∀ x, x ∈ D ++ [m] ↔ x ∈ D := by
        intro x
        simp only [List.mem_append, List.mem_singleton, or_iff_left_iff_imp]
        intro hx
        rw [hx]
        exact hmem
      unfold AppliedExactlyOnce
      rw [applied_snoc, if_pos ho]
      simp [hsame, hmem]
    · have hzero : (applied D).count m = 0 :=
        List.count_eq_zero_of_not_mem fun h => hmem (applied_subset D m h)
      by_cases ho : Overtaken D m
      · apply iff_of_false
        · intro h
          have hm := h m
          rw [applied_snoc, if_pos ho, hzero] at hm
          simp at hm
        · intro h
          exact h.2 hmem ho
      · unfold AppliedExactlyOnce
        rw [applied_snoc, if_neg ho, and_iff_left fun _ => ho]
        apply forall_congr'
        intro x
        by_cases hx : x = m
        · subst hx
          simp [hzero, hmem]
        · have hne : ¬ m = x := fun h => hx h.symm
          simp [hx, hne, List.count_append]

def insertAt (seq : UInt64) : DirectMQMessage := ⟨lit "s1", seq, .Insert, []⟩

/-- The second message overtakes the first, which is then taken for a duplicate. -/
theorem overtaken_message_is_lost :
    applied [insertAt 2, insertAt 1] = [insertAt 2] ∧
      check (receiveAll [insertAt 2]).1 (insertAt 1) = .Reject ∧
      ¬ AppliedExactlyOnce [insertAt 2, insertAt 1] := by
  have h : applied [insertAt 2, insertAt 1] = [insertAt 2] := by decide
  refine ⟨h, by decide, ?_⟩
  intro hall
  have h1 := hall (insertAt 1)
  rw [h] at h1
  revert h1
  decide

end IdempotencyChecker
end OpenArangoDBCore.Replication
