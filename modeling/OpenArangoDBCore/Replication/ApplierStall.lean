import OpenArangoDBCore.Lib.Frontier
import OpenArangoDBCore.Replication.ApplierBuffer
import OpenArangoDBCore.Replication.ApplierOrder

/-!
# When the applier keeps up with what has been delivered

`drainBuffered` reports how many messages it wrote, and `applyLocked` drops
that count and returns 0 (ReplicationApplier.cpp:80-83), so a write refused
inside the drain is not reported.
-/

namespace OpenArangoDBCore.Replication
open ReplicationApplier Frontier
variable {ω : Type}

/-! ### Two callbacks that answer alike give the same run -/

section CallbackMap
variable {ω' : Type} (writeCb : WriteCallback ω) (writeCb' : WriteCallback ω') (π : ω' → ω)
  (hπ : ∀ w e, (writeCb' w e).1 = (writeCb w (π e)).1 ∧ π (writeCb' w e).2 = (writeCb w (π e)).2)
include hπ

theorem drainLoop_map (s : ByteString) (size : ℕ) (drained : UInt64) (a : ReplicationApplier)
    (e : ω') :
    (drainLoop writeCb' s size drained a e).2.1 = (drainLoop writeCb s size drained a (π e)).2.1 ∧
    π (drainLoop writeCb' s size drained a e).2.2 =
      (drainLoop writeCb s size drained a (π e)).2.2 := by
  induction size generalizing drained a e with
  | zero => exact ⟨rfl, rfl⟩
  | succ size ih =>
    simp only [drainLoop]
    cases hm : (a.touchLast s).held s ((a.touchLast s).lastAppliedSequence s + 1) with
    | none => exact ⟨rfl, rfl⟩
    | some msg =>
      obtain ⟨h1, h2⟩ := hπ msg.writeArgs e
      simp only [h1]
      split
      · exact ⟨rfl, h2⟩
      · rw [← h2]
        exact ih _ _ _

theorem drainBuffered_map (s : ByteString) (a : ReplicationApplier) (e : ω') :
    (drainBuffered writeCb' s a e).2.1 = (drainBuffered writeCb s a (π e)).2.1 ∧
    π (drainBuffered writeCb' s a e).2.2 = (drainBuffered writeCb s a (π e)).2.2 := by
  unfold drainBuffered
  split
  · exact ⟨rfl, rfl⟩
  next buf hb =>
    obtain ⟨h1, h2⟩ := drainLoop_map writeCb writeCb' π hπ s buf.size 0 a e
    exact ⟨by simp only [h1], h2⟩

theorem applyLocked_map (satelliteCb : SatelliteCheckCallback) (m : ApplyMessage)
    (a : ReplicationApplier) (e : ω') :
    (applyLocked writeCb' satelliteCb m a e).1 = (applyLocked writeCb satelliteCb m a (π e)).1 ∧
    (applyLocked writeCb' satelliteCb m a e).2.1 =
      (applyLocked writeCb satelliteCb m a (π e)).2.1 ∧
    π (applyLocked writeCb' satelliteCb m a e).2.2 =
      (applyLocked writeCb satelliteCb m a (π e)).2.2 := by
  obtain ⟨h1, h2⟩ := hπ m.writeArgs e
  unfold applyLocked
  simp only [h1]
  split
  · exact ⟨rfl, rfl, rfl⟩
  · split
    · exact ⟨rfl, rfl, rfl⟩
    · split
      · exact ⟨rfl, rfl, rfl⟩
      · split
        · exact ⟨rfl, rfl, h2⟩
        · rw [← h2]
          exact ⟨rfl, drainBuffered_map writeCb writeCb' π hπ m.shardId _ _⟩

end CallbackMap

theorem logged_map (writeCb : WriteCallback ω) (w : WriteArgs) (e : ω × List WriteArgs) :
    (logged writeCb w e).1 = (writeCb w e.1).1 ∧
      (logged writeCb w e).2.1 = (writeCb w e.1).2 := ⟨rfl, rfl⟩

def afterMessages (writeCb : WriteCallback ω) (satelliteCb : SatelliteCheckCallback)
    (ms : List ApplyMessage) (env : ω) : ReplicationApplier × ω :=
  runCalls writeCb satelliteCb (ms.map .applyMessage) new env

theorem runCalls_append (writeCb : WriteCallback ω) (satelliteCb : SatelliteCheckCallback)
    (calls more : List ApplierCall) (a : ReplicationApplier) (env : ω) :
    runCalls writeCb satelliteCb (calls ++ more) a env =
      runCalls writeCb satelliteCb more (runCalls writeCb satelliteCb calls a env).1
        (runCalls writeCb satelliteCb calls a env).2 := by
  induction calls generalizing a env with
  | nil => rfl
  | cons call calls ih => exact ih _ _

theorem afterMessages_snoc (writeCb : WriteCallback ω) (satelliteCb : SatelliteCheckCallback)
    (ms : List ApplyMessage) (m : ApplyMessage) (env : ω) :
    afterMessages writeCb satelliteCb (ms ++ [m]) env =
      (applyMessage writeCb satelliteCb m (afterMessages writeCb satelliteCb ms env).1
        (afterMessages writeCb satelliteCb ms env).2).2 := by
  unfold afterMessages
  rw [List.map_append, runCalls_append]
  rfl

theorem afterMessages_logged (writeCb : WriteCallback ω) (satelliteCb : SatelliteCheckCallback)
    (ms : List ApplyMessage) (env : ω) :
    (afterMessages (logged writeCb) satelliteCb ms (env, [])).1 =
      (afterMessages writeCb satelliteCb ms env).1 ∧
    (afterMessages (logged writeCb) satelliteCb ms (env, [])).2.1 =
      (afterMessages writeCb satelliteCb ms env).2 := by
  induction ms using List.reverseRecOn with
  | nil => exact ⟨rfl, rfl⟩
  | append_singleton ms m ih =>
    obtain ⟨h1, h2⟩ := ih
    rw [afterMessages_snoc, afterMessages_snoc, h1, ← h2]
    exact (applyLocked_map writeCb (logged writeCb) Prod.fst (logged_map writeCb)
      satelliteCb m _ _).2

theorem delivered_messages (ms : List ApplyMessage) :
    delivered (ms.map ApplierCall.applyMessage) = ms := by
  induction ms with
  | nil => rfl
  | cons m ms ih =>
    show [m] ++ delivered (ms.map ApplierCall.applyMessage) = m :: ms
    rw [ih]
    rfl

theorem afterMessages_inOrder (writeCb : WriteCallback ω) (satelliteCb : SatelliteCheckCallback)
    (ms : List ApplyMessage) (env : ω) :
    ∃ log, InOrder satelliteCb ms (afterMessages writeCb satelliteCb ms env).1 log := by
  have h := runCalls_inOrder writeCb satelliteCb (ms.map .applyMessage) env
  have hl := (afterMessages_logged writeCb satelliteCb ms env).1
  unfold afterMessages at hl ⊢
  rw [delivered_messages, hl] at h
  exact ⟨_, h⟩

/-! ### The end of the contiguous run -/

def deliveredSeqs (D : List ApplyMessage) (s : ByteString) : Set ℕ :=
  {i | ∃ m ∈ D, m.shardId = s ∧ m.sequence.toNat = i}

def CaughtUp (satelliteCb : SatelliteCheckCallback) (D : List ApplyMessage)
    (a : ReplicationApplier) : Prop :=
  ∀ s, satelliteCb s = false →
    IsGreatest (Contiguous (deliveredSeqs D s)) (a.lastAppliedSequence s).toNat

def NoReady (a : ReplicationApplier) : Prop :=
  ∀ s, a.held s (a.lastAppliedSequence s + 1) = none

/- Whatever has been delivered and not applied is still buffered. -/
def Complete (satelliteCb : SatelliteCheckCallback) (D : List ApplyMessage)
    (a : ReplicationApplier) : Prop :=
  ∀ m ∈ D, satelliteCb m.shardId = false → a.lastAppliedSequence m.shardId < m.sequence →
    (a.held m.shardId m.sequence).isSome = true

variable {satelliteCb : SatelliteCheckCallback} {D : List ApplyMessage}
  {a : ReplicationApplier} {log : List WriteArgs}

theorem InOrder.contiguous (hI : InOrder satelliteCb D a log) (s : ByteString) :
    (a.lastAppliedSequence s).toNat ∈ Contiguous (deliveredSeqs D s) := by
  intro i hi hle
  have hmem : i ∈ List.range' 1 (a.lastAppliedSequence s).toNat := by
    rw [List.mem_range'_1]
    omega
  obtain ⟨j, hj, he⟩ := List.getElem_of_mem hmem
  have hw := (List.forall₂_iff_get.mp (hI.writes s))
  obtain ⟨m, hm, hs, hq, _⟩ := hw.2 j hj (by rw [← hw.1]; exact hj)
  exact ⟨m, hm, hs, by rw [hq]; exact he⟩

theorem caughtUp_of_noReady (hI : InOrder satelliteCb D a log)
    (hc : Complete satelliteCb D a) (hr : NoReady a) : CaughtUp satelliteCb D a := by
  intro s hs
  refine isGreatest_of_gap _ _ (hI.contiguous s) ?_
  rintro ⟨m, hm, rfl, hq⟩
  have hlt : a.lastAppliedSequence m.shardId < m.sequence := by
    rw [UInt64.lt_iff_toNat_lt]
    omega
  have he : m.sequence = a.lastAppliedSequence m.shardId + 1 := by
    rw [← UInt64.toNat_inj, hq, toNat_succ_of_lt]
    grind
  have hh := hc m hm hs hlt
  rw [he, hr m.shardId] at hh
  cases hh

/- A refused message was delivered, so the run of delivered sequences goes on. -/
theorem not_caughtUp_of_ready (hI : InOrder satelliteCb D a log) (s : ByteString)
    (m : ApplyMessage) (h : a.held s (a.lastAppliedSequence s + 1) = some m) :
    ¬ CaughtUp satelliteCb D a := by
  intro hcu
  obtain ⟨hm, hs, hq, hsat, hpos⟩ := hI.buffered s _ m h
  refine gap_of_isGreatest _ _ (hcu s hsat) ⟨m, hm, hs, ?_⟩
  rw [hq, toNat_succ_of_lt _ (lt_succ_of_pos _ hpos)]

/-! ### When a drain is not refused -/

/-- The callback accepts these writes one after the other. -/
def AcceptsAll (writeCb : WriteCallback ω) : List WriteArgs → ω → Prop
  | [], _ => True
  | w :: ws, env => (writeCb w env).1 = 0 ∧ AcceptsAll writeCb ws (writeCb w env).2

/-- The messages buffered at `q`, `q + 1`, ... -/
def HeldRun (a : ReplicationApplier) (s : ByteString) : UInt64 → List ApplyMessage → Prop
  | _, [] => True
  | q, m :: ms => a.held s q = some m ∧ HeldRun a s (q + 1) ms

/-- The callback accepts the buffered messages that follow `m` without a gap. -/
def DrainAccepted (writeCb : WriteCallback ω) (satelliteCb : SatelliteCheckCallback)
    (m : ApplyMessage) (a : ReplicationApplier) (env : ω) : Prop :=
  satelliteCb m.shardId = false → a.lastAppliedSequence m.shardId < m.sequence →
  m.sequence = a.lastAppliedSequence m.shardId + 1 → (writeCb m.writeArgs env).1 = 0 →
  ∀ ms, HeldRun a m.shardId (m.sequence + 1) ms →
    AcceptsAll writeCb (ms.map ApplyMessage.writeArgs) (writeCb m.writeArgs env).2

theorem heldRun_congr (a b : ReplicationApplier) (s : ByteString) (q : UInt64)
    (ms : List ApplyMessage) (h : ∀ q, a.held s q = b.held s q) :
    HeldRun a s q ms ↔ HeldRun b s q ms := by
  induction ms generalizing q with
  | nil => exact Iff.rfl
  | cons m ms ih => simp only [HeldRun, h, ih]

theorem heldRun_release (a : ReplicationApplier) (s : ByteString) (p q : UInt64)
    (ms : List ApplyMessage) (h : HeldRun (a.release s p) s q ms) : HeldRun a s q ms := by
  induction ms generalizing q with
  | nil => trivial
  | cons m ms ih =>
    obtain ⟨hm, ht⟩ := h
    rw [release_held] at hm
    split at hm
    · cases hm
    · exact ⟨hm, ih (q + 1) ht⟩

/- The run never comes back to `p`: it would have to pass the wrap at 0. -/
theorem heldRun_of_lt (a : ReplicationApplier) (s : ByteString) (p q : UInt64)
    (ms : List ApplyMessage) (hz : NoZeroHeld a) (hpq : p < q ∨ q = 0) (h : HeldRun a s q ms) :
    HeldRun (a.release s p) s q ms := by
  induction ms generalizing q with
  | nil => trivial
  | cons m ms ih =>
    obtain ⟨hm, ht⟩ := h
    have hlt : p < q := by
      rcases hpq with hlt | h0
      · exact hlt
      · rw [h0, hz s] at hm
        cases hm
    refine ⟨?_, ih (q + 1) ?_ ht⟩
    · rw [release_held, if_neg (by rintro ⟨-, rfl⟩; exact UInt64.lt_irrefl _ hlt)]
      exact hm
    · grind

/- One drained message is the head of the run that is still to be accepted. -/
theorem accepts_step (writeCb : WriteCallback ω) (s : ByteString) (a : ReplicationApplier)
    (env : ω) (msg : ApplyMessage) (hz : NoZeroHeld a)
    (hm : a.held s (a.lastAppliedSequence s + 1) = some msg)
    (hrc : (writeCb msg.writeArgs env).1 = 0) :
    (∀ ms, HeldRun (a.release s (a.lastAppliedSequence s + 1)) s
        (a.lastAppliedSequence s + 1 + 1) ms →
      AcceptsAll writeCb (ms.map ApplyMessage.writeArgs) (writeCb msg.writeArgs env).2) ↔
    ∀ ms, HeldRun a s (a.lastAppliedSequence s + 1) ms →
      AcceptsAll writeCb (ms.map ApplyMessage.writeArgs) env := by
  constructor
  · intro h ms hrun
    cases ms with
    | nil => trivial
    | cons m ms =>
      obtain ⟨hh, ht⟩ := hrun
      rw [hm] at hh
      cases hh
      refine ⟨hrc, h ms (heldRun_of_lt a s _ _ ms hz ?_ ht)⟩
      grind
  · intro h ms hrun
    exact (h (msg :: ms) ⟨hm, heldRun_release a s _ _ ms hrun⟩).2

theorem drainLoop_gap (writeCb : WriteCallback ω) (s : ByteString) (size : ℕ) (drained : UInt64)
    (a : ReplicationApplier) (env : ω) (hz : NoZeroHeld a) (h : a.heldCount s = size) :
    (drainLoop writeCb s size drained a env).2.1.held s
        ((drainLoop writeCb s size drained a env).2.1.lastAppliedSequence s + 1) = none ↔
      ∀ ms, HeldRun a s (a.lastAppliedSequence s + 1) ms →
        AcceptsAll writeCb (ms.map ApplyMessage.writeArgs) env := by
  induction size generalizing drained a env with
  | zero =>
    refine ⟨?_, fun _ => a.heldCount_zero s h _⟩
    intro _ ms hrun
    cases ms with
    | nil => trivial
    | cons m ms =>
      have hh := hrun.1
      rw [a.heldCount_zero s h] at hh
      cases hh
  | succ size ih =>
    simp only [drainLoop, touchLast_last, touchLast_held]
    cases hm : a.held s (a.lastAppliedSequence s + 1) with
    | none =>
      simp only [touchLast_last, touchLast_held, hm, true_iff]
      intro ms hrun
      cases ms with
      | nil => trivial
      | cons m ms =>
        have hh := hrun.1
        rw [hm] at hh
        cases hh
    | some msg =>
      simp only
      split
      next hrc =>
        simp only [touchLast_last, touchLast_held, hm, reduceCtorEq, false_iff]
        intro hall
        exact hrc (hall [msg] ⟨hm, trivial⟩).1
      next hrc =>
        have hrc := not_not.mp hrc
        rw [ih]
        · rw [← accepts_step writeCb s a env msg hz hm hrc, release_last, advance_last,
            if_pos rfl]
          refine forall_congr' fun ms => imp_congr_left ?_
          exact heldRun_congr _ _ s _ ms fun q => by
            simp only [release_held, advance_held, touchLast_held]
        · intro s'
          have hz' := (drain_noZero writeCb s).drained a env msg hz hm hrc s'
          simpa only [release_held, advance_held, touchLast_held] using hz'
        · have hr := heldCount_release
            ((a.touchLast s).advance s (a.lastAppliedSequence s + 1)) s _ msg hm
          have hc : ((a.touchLast s).advance s
            (a.lastAppliedSequence s + 1)).heldCount s = a.heldCount s := rfl
          omega

theorem drainBuffered_gap (writeCb : WriteCallback ω) (s : ByteString)
    (a : ReplicationApplier) (env : ω) (hz : NoZeroHeld a) :
    (drainBuffered writeCb s a env).2.1.held s
        ((drainBuffered writeCb s a env).2.1.lastAppliedSequence s + 1) = none ↔
      ∀ ms, HeldRun a s (a.lastAppliedSequence s + 1) ms →
        AcceptsAll writeCb (ms.map ApplyMessage.writeArgs) env := by
  unfold drainBuffered
  split
  next hb =>
    have hnone : ∀ q, a.held s q = none := fun q => by simp [held, hb]
    simp only [hnone, true_iff]
    intro ms hrun
    cases ms with
    | nil => trivial
    | cons m ms =>
      have hh := hrun.1
      rw [hnone] at hh
      cases hh
  next buf hb =>
    simp only [dropEmpty_last, dropEmpty_held]
    exact drainLoop_gap writeCb s buf.size 0 a env hz (by simp [heldCount, hb])

/-! ### One call -/

theorem drainBuffered_frame (writeCb : WriteCallback ω) (s s' : ByteString)
    (a : ReplicationApplier) (env : ω) (hne : s' ≠ s) :
    (drainBuffered writeCb s a env).2.1.lastAppliedSequence s' = a.lastAppliedSequence s' ∧
    ∀ q, (drainBuffered writeCb s a env).2.1.held s' q = a.held s' q := by
  refine drainBuffered_rule writeCb s
    (fun b _ => b.lastAppliedSequence s' = a.lastAppliedSequence s' ∧
      ∀ q, b.held s' q = a.held s' q) ⟨?_, ?_, ?_⟩ ?_ a env ⟨rfl, fun _ => rfl⟩
  · intro b _ h
    simpa using h
  · intro b _ _ h _ _
    exact h
  · intro b _ _ h _ _
    refine ⟨?_, ?_⟩
    · rw [release_last, advance_last, if_neg hne]
      exact h.1
    · intro q
      rw [release_held, advance_held, if_neg (fun hc => hne hc.1)]
      exact h.2 q
  · intro b _ h
    simpa using h

theorem drain_complete (writeCb : WriteCallback ω) (s : ByteString) :
    DrainRule writeCb s fun a _ => NoZeroHeld a ∧ Complete satelliteCb D a where
  touched a env h := ⟨h.1, fun m hm hs hlt => h.2 m hm hs (by rw [← touchLast_last a s]; exact hlt)⟩
  failed a env msg h _ _ := h
  drained a env msg h hm hrc := by
    obtain ⟨hz, hc⟩ := h
    refine ⟨(drain_noZero writeCb s).drained a env msg hz hm hrc, ?_⟩
    have hwrap : a.lastAppliedSequence s + 1 ≠ 0 := by
      intro h0
      rw [h0, hz s] at hm
      cases hm
    intro m hmD hs hlt
    rw [release_last, advance_last] at hlt
    split at hlt
    next he =>
      subst he
      have hother : ¬ (m.shardId = m.shardId ∧
          m.sequence = a.lastAppliedSequence m.shardId + 1) := by
        intro hsame
        rw [hsame.2] at hlt
        exact UInt64.lt_irrefl _ hlt
      rw [release_held, advance_held, if_neg hother]
      exact hc m hmD hs (by grind)
    next he =>
      rw [release_held, advance_held, if_neg (fun hk => he hk.1)]
      exact hc m hmD hs hlt

theorem drainBuffered_complete (writeCb : WriteCallback ω) (s : ByteString)
    (a : ReplicationApplier) (env : ω) (h : NoZeroHeld a ∧ Complete satelliteCb D a) :
    NoZeroHeld (drainBuffered writeCb s a env).2.1 ∧
      Complete satelliteCb D (drainBuffered writeCb s a env).2.1 := by
  refine drainBuffered_rule writeCb s _ (drain_complete writeCb s) ?_ a env h
  rintro b _ ⟨hz, hc⟩
  refine ⟨fun s => by simpa using hz s, fun x hx hs hlt => ?_⟩
  rw [dropEmpty_held]
  exact hc x hx hs (by simpa using hlt)

theorem advance_complete (m : ApplyMessage) (hlt : a.lastAppliedSequence m.shardId < m.sequence)
    (hc : Complete satelliteCb D a) :
    Complete satelliteCb (D ++ [m]) (a.advance m.shardId m.sequence) := by
  intro x hx hs hxlt
  rw [advance_last] at hxlt
  rw [advance_held]
  rcases List.mem_append.mp hx with hx | hx
  · refine hc x hx hs ?_
    split at hxlt
    next he =>
      rw [he]
      exact UInt64.lt_trans hlt hxlt
    next => exact hxlt
  · obtain rfl := List.mem_singleton.mp hx
    rw [if_pos rfl] at hxlt
    exact absurd hxlt (UInt64.lt_irrefl _)

/- An accepted call leaves nothing ready and nothing forgotten. -/
theorem locked_complete (writeCb : WriteCallback ω) (m : ApplyMessage) (env : ω)
    (hz : NoZeroHeld a) (hc : Complete satelliteCb D a) (hr : NoReady a)
    (hrc : (applyLocked writeCb satelliteCb m a env).1 = 0)
    (hacc : DrainAccepted writeCb satelliteCb m a env) :
    Complete satelliteCb (D ++ [m]) (applyLocked writeCb satelliteCb m a env).2.1 ∧
      NoReady (applyLocked writeCb satelliteCb m a env).2.1 := by
  have hcase := applyLocked_cases writeCb satelliteCb m a env
  generalize applyLocked writeCb satelliteCb m a env = r at hcase hrc ⊢
  cases hcase with
  | satellite h =>
    refine ⟨?_, hr⟩
    intro x hx hs hlt
    rcases List.mem_append.mp hx with hx | hx
    · exact hc x hx hs hlt
    · obtain rfl := List.mem_singleton.mp hx
      rw [h] at hs
      cases hs
  | duplicate h hd =>
    refine ⟨?_, hr⟩
    intro x hx hs hlt
    rcases List.mem_append.mp hx with hx | hx
    · exact hc x hx hs hlt
    · obtain rfl := List.mem_singleton.mp hx
      exact absurd hlt (UInt64.not_lt.mpr hd)
  | ahead h hd hn =>
    refine ⟨?_, ?_⟩
    · intro x hx hs hlt
      rw [hold_held]
      split
      · rfl
      next hk =>
        rcases List.mem_append.mp hx with hx | hx
        · exact hc x hx hs hlt
        · obtain rfl := List.mem_singleton.mp hx
          exact absurd ⟨rfl, rfl⟩ hk
    · intro s
      rw [hold_held, hold_last, if_neg (by rintro ⟨rfl, he⟩; exact hn he.symm)]
      exact hr s
  | refused h hd hn hne => exact absurd hrc hne
  | applied h hd hn h0 =>
    have hz' : NoZeroHeld (a.advance m.shardId m.sequence) := hz
    refine ⟨(drainBuffered_complete writeCb m.shardId _ _
      ⟨hz', advance_complete m hd hc⟩).2, ?_⟩
    intro s
    by_cases hs : s = m.shardId
    · subst hs
      rw [drainBuffered_gap writeCb m.shardId _ _ hz', advance_last, if_pos rfl]
      intro ms hrun
      exact hacc h hd hn h0 ms
        ((heldRun_congr (a.advance m.shardId m.sequence) a m.shardId _ ms fun _ => rfl).mp hrun)
    · obtain ⟨h1, h2⟩ := drainBuffered_frame writeCb m.shardId s
        (a.advance m.shardId m.sequence) (writeCb m.writeArgs env).2 hs
      rw [h1, h2, advance_last, if_neg hs]
      exact hr s

/- A refused drain leaves a delivered message ready. -/
theorem locked_ready (writeCb : WriteCallback ω) (satelliteCb : SatelliteCheckCallback)
    (m : ApplyMessage) (a : ReplicationApplier) (env : ω) (hz : NoZeroHeld a)
    (hacc : ¬ DrainAccepted writeCb satelliteCb m a env) :
    ∃ s x, (applyLocked writeCb satelliteCb m a env).2.1.held s
      ((applyLocked writeCb satelliteCb m a env).2.1.lastAppliedSequence s + 1) = some x := by
  unfold DrainAccepted at hacc
  push Not at hacc
  obtain ⟨hs, hd, hn, hrc, ms, hrun, hrej⟩ := hacc
  have hz' : NoZeroHeld (a.advance m.shardId m.sequence) := hz
  have hgap := drainBuffered_gap writeCb m.shardId (a.advance m.shardId m.sequence)
    (writeCb m.writeArgs env).2 hz'
  rw [advance_last, if_pos rfl] at hgap
  have hready : ¬ (drainBuffered writeCb m.shardId (a.advance m.shardId m.sequence)
      (writeCb m.writeArgs env).2).2.1.held m.shardId
      ((drainBuffered writeCb m.shardId (a.advance m.shardId m.sequence)
        (writeCb m.writeArgs env).2).2.1.lastAppliedSequence m.shardId + 1) = none := by
    intro hnone
    exact hrej (hgap.mp hnone ms
      ((heldRun_congr a (a.advance m.shardId m.sequence) m.shardId _ ms fun _ => rfl).mp hrun))
  obtain ⟨x, hx⟩ := Option.ne_none_iff_exists'.mp hready
  have hcase := applyLocked_cases writeCb satelliteCb m a env
  generalize applyLocked writeCb satelliteCb m a env = r at hcase ⊢
  cases hcase with
  | satellite h => rw [h] at hs; cases hs
  | duplicate _ h => exact absurd hd (UInt64.not_lt.mpr h)
  | ahead _ _ h => exact absurd hn h
  | refused _ _ _ h => exact absurd hrc h
  | applied => exact ⟨m.shardId, x, hx⟩

/-! ### Runs of `applyMessage` -/

theorem afterMessages_noZero (writeCb : WriteCallback ω) (satelliteCb : SatelliteCheckCallback)
    (ms : List ApplyMessage) (env : ω) :
    NoZeroHeld (afterMessages writeCb satelliteCb ms env).1 := by
  induction ms using List.reverseRecOn with
  | nil => exact fun _ => rfl
  | append_singleton ms m ih =>
    rw [afterMessages_snoc]
    exact locked_noZero writeCb satelliteCb m _ _ ih

/-- Every call of the run satisfies `P`, given its message and the state before it. -/
def EachCall (writeCb : WriteCallback ω) (satelliteCb : SatelliteCheckCallback)
    (P : ApplyMessage → ReplicationApplier → ω → Prop) (ms : List ApplyMessage) (env : ω) : Prop :=
  ∀ before m, before ++ [m] <+: ms →
    P m (afterMessages writeCb satelliteCb before env).1
      (afterMessages writeCb satelliteCb before env).2

theorem eachCall_snoc (writeCb : WriteCallback ω) (satelliteCb : SatelliteCheckCallback)
    (P : ApplyMessage → ReplicationApplier → ω → Prop) (ms : List ApplyMessage)
    (m : ApplyMessage) (env : ω) :
    EachCall writeCb satelliteCb P (ms ++ [m]) env ↔
      EachCall writeCb satelliteCb P ms env ∧
        P m (afterMessages writeCb satelliteCb ms env).1
          (afterMessages writeCb satelliteCb ms env).2 := by
  constructor
  · intro h
    exact ⟨fun before x hx => h before x (hx.trans (List.prefix_append ms [m])),
      h ms m List.prefix_rfl⟩
  · rintro ⟨h, hm⟩ before x hx
    rcases List.prefix_concat_iff.mp hx with he | hx
    · obtain ⟨hb, hxm⟩ := List.append_inj' he rfl
      rw [hb, List.singleton_inj.mp hxm]
      exact hm
    · exact h before x hx

def ReturnsZero (writeCb : WriteCallback ω) (satelliteCb : SatelliteCheckCallback)
    (m : ApplyMessage) (a : ReplicationApplier) (env : ω) : Prop :=
  (applyMessage writeCb satelliteCb m a env).1 = 0

instance (writeCb : WriteCallback ω) (satelliteCb : SatelliteCheckCallback) (m : ApplyMessage)
    (a : ReplicationApplier) (env : ω) : Decidable (ReturnsZero writeCb satelliteCb m a env) :=
  inferInstanceAs (Decidable (_ = _))

theorem eachCall_nil (writeCb : WriteCallback ω) (satelliteCb : SatelliteCheckCallback)
    (P : ApplyMessage → ReplicationApplier → ω → Prop) (env : ω) :
    EachCall writeCb satelliteCb P [] env := by
  intro before m h
  have hl := h.length_le
  simp at hl

theorem afterMessages_complete (writeCb : WriteCallback ω) (satelliteCb : SatelliteCheckCallback)
    (ms : List ApplyMessage) (env : ω)
    (hrc : EachCall writeCb satelliteCb (ReturnsZero writeCb satelliteCb) ms env)
    (hacc : EachCall writeCb satelliteCb (DrainAccepted writeCb satelliteCb) ms env) :
    Complete satelliteCb ms (afterMessages writeCb satelliteCb ms env).1 ∧
      NoReady (afterMessages writeCb satelliteCb ms env).1 := by
  induction ms using List.reverseRecOn with
  | nil => exact ⟨fun m hm => absurd hm List.not_mem_nil, fun _ => rfl⟩
  | append_singleton ms m ih =>
    rw [eachCall_snoc] at hrc hacc
    obtain ⟨hc, hr⟩ := ih hrc.1 hacc.1
    rw [afterMessages_snoc]
    exact locked_complete writeCb m _ (afterMessages_noZero writeCb satelliteCb ms env) hc hr
      hrc.2 hacc.2

/-- In a run whose calls all returned 0, every shard is caught up after every
call exactly when in every call the callback accepts the buffered messages
that follow the delivered one. -/
theorem caught_up_iff_drains_accepted (writeCb : WriteCallback ω)
    (satelliteCb : SatelliteCheckCallback) (ms : List ApplyMessage) (env : ω)
    (hrc : EachCall writeCb satelliteCb (ReturnsZero writeCb satelliteCb) ms env) :
    (∀ before, before <+: ms →
      CaughtUp satelliteCb before (afterMessages writeCb satelliteCb before env).1) ↔
    EachCall writeCb satelliteCb (DrainAccepted writeCb satelliteCb) ms env := by
  constructor
  · intro h before m hm
    by_contra hacc
    obtain ⟨s, x, hx⟩ := locked_ready writeCb satelliteCb m _ _
      (afterMessages_noZero writeCb satelliteCb before env) hacc
    obtain ⟨log, hI⟩ := afterMessages_inOrder writeCb satelliteCb (before ++ [m]) env
    refine not_caughtUp_of_ready hI s x ?_ (h (before ++ [m]) hm)
    rw [afterMessages_snoc]
    exact hx
  · intro hacc before hb
    obtain ⟨log, hI⟩ := afterMessages_inOrder writeCb satelliteCb before env
    obtain ⟨hc, hr⟩ := afterMessages_complete writeCb satelliteCb before env
      (fun b m hm => hrc b m (hm.trans hb)) (fun b m hm => hacc b m (hm.trans hb))
    exact caughtUp_of_noReady hI hc hr

theorem caught_up_iff_drains_accepted_two :
    (∀ before, before <+: [insertMessage (lit "s") 2, insertMessage (lit "s") 1] →
      CaughtUp (fun _ => false) before
        (afterMessages refuseSecond (fun _ => false) before 0).1) ↔
    EachCall refuseSecond (fun _ => false) (DrainAccepted refuseSecond fun _ => false)
      [insertMessage (lit "s") 2, insertMessage (lit "s") 1] 0 :=
  caught_up_iff_drains_accepted refuseSecond (fun _ => false) _ 0
    ((eachCall_snoc _ _ _ [insertMessage (lit "s") 2] _ _).mpr
      ⟨(eachCall_snoc _ _ _ [] _ _).mpr ⟨eachCall_nil _ _ _ _, by decide⟩, by decide⟩)

/-- Sequence 2 is buffered, 1 is written, the drain of 2 is refused: both
calls return 0 and the shard stays at 1 with 1 and 2 delivered. -/
theorem refused_drain_is_not_reported :
    EachCall refuseSecond (fun _ => false) (ReturnsZero refuseSecond fun _ => false)
      [insertMessage (lit "s") 2, insertMessage (lit "s") 1] 0 ∧
    ¬ CaughtUp (fun _ => false) [insertMessage (lit "s") 2, insertMessage (lit "s") 1]
      (afterMessages refuseSecond (fun _ => false)
        [insertMessage (lit "s") 2, insertMessage (lit "s") 1] 0).1 := by
  refine ⟨(eachCall_snoc _ _ _ [insertMessage (lit "s") 2] _ _).mpr
    ⟨(eachCall_snoc _ _ _ [] _ _).mpr ⟨eachCall_nil _ _ _ _, by decide⟩, by decide⟩, ?_⟩
  intro h
  have hgap := gap_of_isGreatest _ _ (h (lit "s") rfl)
  exact hgap ⟨insertMessage (lit "s") 2, by decide, rfl, by decide⟩

end OpenArangoDBCore.Replication
