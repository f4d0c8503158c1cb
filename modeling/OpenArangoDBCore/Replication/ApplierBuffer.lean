import OpenArangoDBCore.Replication.ApplierState

/-!
# What stays in the out-of-order buffer (ReplicationApplier.cpp:55-83)

`applyLocked` writes an expected message without looking into the buffer. If
a copy of it is buffered, because an earlier drain was refused by the
callback, that copy stays behind the last-applied sequence for good.
-/

namespace OpenArangoDBCore.Replication
open ReplicationApplier
variable {ω : Type}

def BufferHygiene (a : ReplicationApplier) : Prop :=
  ∀ s q m, a.held s q = some m → a.lastAppliedSequence s < q

/-- Sequence 0 is never buffered: it is a duplicate for every shard. -/
def NoZeroHeld (a : ReplicationApplier) : Prop := ∀ s, a.held s 0 = none

/-- The calls of `applyLocked` made by a batch, each with the state it starts from. -/
def batchTrace (writeCb : WriteCallback ω) (satelliteCb : SatelliteCheckCallback) :
    List ApplyMessage → ReplicationApplier → ω → List (ApplyMessage × ReplicationApplier × ω)
  | [], _, _ => []
  | m :: rest, a, env =>
    let r := applyLocked writeCb satelliteCb m a env
    (m, a, env) :: if r.1 ≠ 0 then [] else batchTrace writeCb satelliteCb rest r.2.1 r.2.2

def callTrace (writeCb : WriteCallback ω) (satelliteCb : SatelliteCheckCallback)
    (call : ApplierCall) (a : ReplicationApplier) (env : ω) :
    List (ApplyMessage × ReplicationApplier × ω) :=
  match call with
  | .applyMessage m => [(m, a, env)]
  | .applyBatch ms => batchTrace writeCb satelliteCb ms a env
  | .drainBuffered _ => []

def runTrace (writeCb : WriteCallback ω) (satelliteCb : SatelliteCheckCallback) :
    List ApplierCall → ReplicationApplier → ω → List (ApplyMessage × ReplicationApplier × ω)
  | [], _, _ => []
  | call :: rest, a, env =>
    let r := runCall writeCb satelliteCb call a env
    callTrace writeCb satelliteCb call a env ++ runTrace writeCb satelliteCb rest r.1 r.2

/-- The expected message arrives while a copy of it is buffered, and its write succeeds. -/
def Overtakes (writeCb : WriteCallback ω) (satelliteCb : SatelliteCheckCallback)
    (x : ApplyMessage × ReplicationApplier × ω) : Prop :=
  satelliteCb x.1.shardId = false ∧
  x.2.1.lastAppliedSequence x.1.shardId < x.1.sequence ∧
  x.1.sequence = x.2.1.lastAppliedSequence x.1.shardId + 1 ∧
  (x.2.1.held x.1.shardId x.1.sequence).isSome = true ∧
  (writeCb x.1.writeArgs x.2.2).1 = 0

/-! ### One step -/

theorem drain_noZero (writeCb : WriteCallback ω) (s : ByteString) :
    DrainRule writeCb s fun a _ => NoZeroHeld a where
  touched a env h := h
  failed a env msg h _ _ := h
  drained a env msg h _ _ := by
    intro s'
    rw [release_held, advance_held]
    split
    · rfl
    · exact h s'

theorem drainBuffered_noZero (writeCb : WriteCallback ω) (s : ByteString)
    (a : ReplicationApplier) (env : ω) (h : NoZeroHeld a) :
    NoZeroHeld (drainBuffered writeCb s a env).2.1 :=
  drainBuffered_rule writeCb s _ (drain_noZero writeCb s)
    (fun a _ h s' => by simpa using h s') a env h

theorem locked_noZero (writeCb : WriteCallback ω) (satelliteCb : SatelliteCheckCallback)
    (m : ApplyMessage) (a : ReplicationApplier) (env : ω) (h : NoZeroHeld a) :
    NoZeroHeld (applyLocked writeCb satelliteCb m a env).2.1 := by
  have hc := applyLocked_cases writeCb satelliteCb m a env
  generalize applyLocked writeCb satelliteCb m a env = r at hc ⊢
  cases hc with
  | satellite => exact h
  | duplicate => exact h
  | refused => exact h
  | applied => exact drainBuffered_noZero writeCb m.shardId _ _ h
  | ahead hs hlt hn =>
    intro s
    have hpos : (0 : UInt64) ≠ m.sequence := by
      rintro h0
      rw [← h0] at hlt
      exact absurd hlt (UInt64.not_lt.mpr UInt64.zero_le)
    rw [hold_held, if_neg (fun hc => hpos hc.2)]
    exact h s

/- A drained message is released together with the advance, so the drain loop
neither creates nor removes an entry behind the last-applied sequence. -/
theorem drain_hygiene (writeCb : WriteCallback ω) (s : ByteString) :
    DrainRule writeCb s fun a _ => BufferHygiene a where
  touched a env h := by
    intro s' q m hm
    rw [touchLast_last]
    exact h s' q m hm
  failed a env msg h _ _ := h
  drained a env msg h _ _ := by
    intro s' q m hm
    rw [release_held, advance_held] at hm
    split at hm
    · cases hm
    next hne =>
      have hlt := h s' q m hm
      rw [release_last, advance_last]
      split
      next hs =>
        subst hs
        have hq : q ≠ a.lastAppliedSequence s' + 1 := fun hq => hne ⟨rfl, hq⟩
        grind
      next => exact hlt

theorem drain_stale (writeCb : WriteCallback ω) (s s' : ByteString) (q : UInt64) :
    DrainRule writeCb s fun a _ => NoZeroHeld a ∧
      (a.held s' q).isSome = true ∧ q ≤ a.lastAppliedSequence s' where
  touched a env h := ⟨h.1, h.2.1, by rw [touchLast_last]; exact h.2.2⟩
  failed a env msg h _ _ := h
  drained a env msg h hm hrc := by
    obtain ⟨hz, hq, hle⟩ := h
    have hwrap : a.lastAppliedSequence s + 1 ≠ 0 := by
      intro h0
      rw [h0, hz s] at hm
      cases hm
    refine ⟨(drain_noZero writeCb s).drained a env msg hz hm hrc, ?_, ?_⟩
    · rw [release_held, advance_held, if_neg]
      · exact hq
      · rintro ⟨rfl, rfl⟩
        grind
    · rw [release_last, advance_last]
      split
      next hs =>
        subst hs
        grind
      next => exact hle

theorem drainBuffered_hygiene (writeCb : WriteCallback ω) (s : ByteString)
    (a : ReplicationApplier) (env : ω) (hz : NoZeroHeld a) :
    BufferHygiene (drainBuffered writeCb s a env).2.1 ↔ BufferHygiene a := by
  constructor
  · intro h s' q m hm
    by_contra hle
    have hstale := drainBuffered_rule writeCb s _ (drain_stale writeCb s s' q)
      (fun a _ h => ⟨fun s => by simpa using h.1 s, by simpa using h.2⟩) a env
      ⟨hz, by rw [hm]; rfl, UInt64.not_lt.mp hle⟩
    obtain ⟨m', hm'⟩ := Option.isSome_iff_exists.mp hstale.2.1
    exact absurd (h s' q m' hm') (UInt64.not_lt.mpr hstale.2.2)
  · intro h
    exact drainBuffered_rule writeCb s _ (drain_hygiene writeCb s)
      (fun a _ h s' q m hm => by simpa using h s' q m (by simpa using hm)) a env h

theorem advance_hygiene (a : ReplicationApplier) (s : ByteString)
    (hlt : a.lastAppliedSequence s < a.lastAppliedSequence s + 1) :
    BufferHygiene (a.advance s (a.lastAppliedSequence s + 1)) ↔
      BufferHygiene a ∧ (a.held s (a.lastAppliedSequence s + 1)).isSome = false := by
  constructor
  · intro h
    refine ⟨?_, ?_⟩
    · intro s' q m hm
      have hh := h s' q m hm
      rw [advance_last] at hh
      split at hh
      next hs =>
        subst hs
        exact UInt64.lt_trans hlt hh
      next => exact hh
    · cases hm : a.held s (a.lastAppliedSequence s + 1) with
      | none => rfl
      | some m =>
        have hh := h s _ m hm
        rw [advance_last, if_pos rfl] at hh
        exact absurd hh (UInt64.lt_irrefl _)
  · rintro ⟨h, hfree⟩ s' q m hm
    rw [advance_held] at hm
    have hh := h s' q m hm
    rw [advance_last]
    split
    next hs =>
      subst hs
      have hq : q ≠ a.lastAppliedSequence s' + 1 := by
        rintro rfl
        rw [hm] at hfree
        cases hfree
      grind
    next => exact hh

theorem locked_hygiene (writeCb : WriteCallback ω) (satelliteCb : SatelliteCheckCallback)
    (m : ApplyMessage) (a : ReplicationApplier) (env : ω) (hz : NoZeroHeld a) :
    BufferHygiene (applyLocked writeCb satelliteCb m a env).2.1 ↔
      BufferHygiene a ∧ ¬ Overtakes writeCb satelliteCb (m, a, env) := by
  have hc := applyLocked_cases writeCb satelliteCb m a env
  generalize applyLocked writeCb satelliteCb m a env = r at hc ⊢
  unfold Overtakes
  cases hc with
  | satellite h => simp [h, BufferHygiene, held, lastAppliedSequence]
  | duplicate h hd =>
    have hlt : ¬ a.lastAppliedSequence m.shardId < m.sequence := UInt64.not_lt.mpr hd
    simp only [hlt, false_and, and_false, not_false_eq_true, and_true]
    exact Iff.rfl
  | refused h hd hn hrc => simp [hrc]
  | ahead h hd hn =>
    simp only [hn, false_and, and_false, not_false_eq_true, and_true]
    constructor
    · intro hh s q x hx
      by_cases hk : s = m.shardId ∧ q = m.sequence
      · obtain ⟨rfl, rfl⟩ := hk
        exact hd
      · exact hh s q x (by rw [hold_held, if_neg hk]; exact hx)
    · intro hh s q x hx
      rw [hold_held] at hx
      rw [hold_last]
      split at hx
      next hk =>
        obtain ⟨rfl, rfl⟩ := hk
        exact hd
      next => exact hh s q x hx
  | applied h hd hn hrc =>
    have hadv : NoZeroHeld (a.advance m.shardId m.sequence) := hz
    simp only
    rw [drainBuffered_hygiene writeCb m.shardId _ _ hadv]
    rw [hn] at hd ⊢
    rw [advance_hygiene a m.shardId hd]
    simp [h, hd, hrc]

/-! ### Runs -/

theorem batch_hygiene (writeCb : WriteCallback ω) (satelliteCb : SatelliteCheckCallback)
    (ms : List ApplyMessage) (a : ReplicationApplier) (env : ω) (hz : NoZeroHeld a) :
    NoZeroHeld (applyBatchLoop writeCb satelliteCb ms a env).1 ∧
    (BufferHygiene (applyBatchLoop writeCb satelliteCb ms a env).1 ↔ BufferHygiene a ∧
      ∀ x ∈ batchTrace writeCb satelliteCb ms a env, ¬ Overtakes writeCb satelliteCb x) := by
  induction ms generalizing a env with
  | nil => simp [applyBatchLoop, batchTrace, hz]
  | cons m ms ih =>
    have hz' := locked_noZero writeCb satelliteCb m a env hz
    have hstep := locked_hygiene writeCb satelliteCb m a env hz
    simp only [applyBatchLoop, batchTrace, List.forall_mem_cons]
    split
    · exact ⟨hz', by simpa using hstep⟩
    · obtain ⟨h1, h2⟩ := ih _ _ hz'
      exact ⟨h1, by rw [h2, hstep, and_assoc]⟩

theorem call_hygiene (writeCb : WriteCallback ω) (satelliteCb : SatelliteCheckCallback)
    (call : ApplierCall) (a : ReplicationApplier) (env : ω) (hz : NoZeroHeld a) :
    NoZeroHeld (runCall writeCb satelliteCb call a env).1 ∧
    (BufferHygiene (runCall writeCb satelliteCb call a env).1 ↔ BufferHygiene a ∧
      ∀ x ∈ callTrace writeCb satelliteCb call a env, ¬ Overtakes writeCb satelliteCb x) := by
  cases call with
  | applyMessage m =>
    refine ⟨locked_noZero writeCb satelliteCb m a env hz, ?_⟩
    simp only [callTrace, List.mem_singleton, forall_eq]
    exact locked_hygiene writeCb satelliteCb m a env hz
  | applyBatch ms => exact batch_hygiene writeCb satelliteCb ms a env hz
  | drainBuffered s =>
    refine ⟨drainBuffered_noZero writeCb s a env hz, ?_⟩
    simp only [callTrace, List.not_mem_nil, false_implies, implies_true, and_true]
    exact drainBuffered_hygiene writeCb s a env hz

theorem run_hygiene (writeCb : WriteCallback ω) (satelliteCb : SatelliteCheckCallback)
    (calls : List ApplierCall) (a : ReplicationApplier) (env : ω) (hz : NoZeroHeld a) :
    BufferHygiene (runCalls writeCb satelliteCb calls a env).1 ↔ BufferHygiene a ∧
      ∀ x ∈ runTrace writeCb satelliteCb calls a env, ¬ Overtakes writeCb satelliteCb x := by
  induction calls generalizing a env with
  | nil => simp [runCalls, runTrace]
  | cons call calls ih =>
    obtain ⟨hz', hc⟩ := call_hygiene writeCb satelliteCb call a env hz
    simp only [runCalls, runTrace, List.forall_mem_append]
    rw [ih _ _ hz', hc, and_assoc]

/-- After any calls every buffered message is ahead of its shard's last-applied
sequence exactly when no expected message was written while a copy of it was
buffered. -/
theorem buffer_hygiene_iff_no_overtaking (writeCb : WriteCallback ω)
    (satelliteCb : SatelliteCheckCallback) (calls : List ApplierCall) (env : ω) :
    BufferHygiene (runCalls writeCb satelliteCb calls new env).1 ↔
      ∀ x ∈ runTrace writeCb satelliteCb calls new env, ¬ Overtakes writeCb satelliteCb x := by
  rw [run_hygiene writeCb satelliteCb calls new env (fun _ => rfl)]
  exact ⟨And.right, fun h => ⟨fun s q m hm => by simp at hm, h⟩⟩

def refuseSecond : WriteCallback ℕ := fun _ n => (if n = 1 then 42 else 0, n + 1)

def insertMessage (s : ByteString) (q : UInt64) : ApplyMessage :=
  ⟨s, q, .insert, [], [], []⟩

/-- Sequence 2 arrives first and is buffered, the drain behind sequence 1 is
refused, and the retransmitted 2 is written directly: everything delivered
has been applied and one message is still buffered. -/
theorem retransmission_leaves_stale_entry :
    let calls := [.applyMessage (insertMessage (lit "s") 2),
      .applyMessage (insertMessage (lit "s") 1), .applyMessage (insertMessage (lit "s") 2)]
    let r := runCalls refuseSecond (fun _ => false) calls new 0
    ¬ BufferHygiene r.1 ∧ r.1.lastAppliedSequence (lit "s") = 2 ∧ r.1.bufferedCount = 1 := by
  refine ⟨?_, by decide, by decide⟩
  intro h
  exact absurd (h (lit "s") 2 (insertMessage (lit "s") 2) (by decide)) (by decide)

end OpenArangoDBCore.Replication
