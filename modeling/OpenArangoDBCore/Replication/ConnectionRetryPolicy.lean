import OpenArangoDBCore.Basics

/-!
# Delays between connection attempts (ConnectionRetryPolicy.cpp)

The delay of an attempt is a shift of 64 bits, cut to the configured maximum.
The documented delay is the product `baseDelay * 2^attempt` under the same cap.
-/

namespace OpenArangoDBCore.Replication

structure ConnectionRetryPolicy where
  maxRetries : UInt32 := 5
  baseDelayMs : UInt32 := 100
  maxDelayMs : UInt32 := 30000
  attempt : UInt32 := 0

namespace ConnectionRetryPolicy

def shouldRetry (policy : ConnectionRetryPolicy) : Bool := policy.attempt < policy.maxRetries

/-- The milliseconds before the jitter; `none` where the shift is as wide as
the shifted value, which the language leaves undefined. -/
def rawDelay (policy : ConnectionRetryPolicy) : Option UInt64 :=
  if policy.attempt < 64 then
    let raw := policy.baseDelayMs.toUInt64 <<< policy.attempt.toUInt64
    some (min raw policy.maxDelayMs.toUInt64)
  else none

/-- `jitter` is what the drawn factor makes of the clamped delay. -/
def nextDelay (jitter : UInt64 → UInt64) (policy : ConnectionRetryPolicy) :
    Option (UInt64 × ConnectionRetryPolicy) :=
  policy.rawDelay.map fun clamped =>
    (jitter clamped, { policy with attempt := policy.attempt + 1 })

def reset (policy : ConnectionRetryPolicy) : ConnectionRetryPolicy := { policy with attempt := 0 }

/-- The policies that the connect loop can come to: a retry is made only where
one is allowed. -/
inductive Reachable (maxRetries baseDelayMs maxDelayMs : UInt32) : ConnectionRetryPolicy → Prop
  | start : Reachable maxRetries baseDelayMs maxDelayMs { maxRetries, baseDelayMs, maxDelayMs }
  | retry {policy policy' : ConnectionRetryPolicy} {jitter : UInt64 → UInt64} {delay : UInt64} :
      Reachable maxRetries baseDelayMs maxDelayMs policy → policy.shouldRetry = true →
      policy.nextDelay jitter = some (delay, policy') →
      Reachable maxRetries baseDelayMs maxDelayMs policy'
  | reset {policy : ConnectionRetryPolicy} :
      Reachable maxRetries baseDelayMs maxDelayMs policy →
      Reachable maxRetries baseDelayMs maxDelayMs policy.reset

/-- `min(baseDelay * 2^attempt, maxDelay)` over the natural numbers. -/
def cappedDelay (baseDelayMs maxDelayMs : UInt32) (attempt : ℕ) : ℕ :=
  min (baseDelayMs.toNat * 2 ^ attempt) maxDelayMs.toNat

theorem cappedDelay_mono (baseDelayMs maxDelayMs : UInt32) {a b : ℕ} (h : a ≤ b) :
    cappedDelay baseDelayMs maxDelayMs a ≤ cappedDelay baseDelayMs maxDelayMs b :=
  min_le_min_right _ (Nat.mul_le_mul_left _ (Nat.pow_le_pow_right (by decide) h))

theorem cappedDelay_pos {baseDelayMs maxDelayMs : UInt32} (hbase : 0 < baseDelayMs.toNat)
    (hmax : 0 < maxDelayMs.toNat) (attempt : ℕ) : 0 < cappedDelay baseDelayMs maxDelayMs attempt :=
  lt_min (Nat.mul_pos hbase (Nat.two_pow_pos attempt)) hmax

/-- The shifted value fits its 64 bits, or what is left of it lies over the cap. -/
def Fits (baseDelayMs maxDelayMs : UInt32) (attempt : ℕ) : Prop :=
  baseDelayMs.toNat * 2 ^ attempt < 2 ^ 64 ∨
    maxDelayMs.toNat ≤ baseDelayMs.toNat * 2 ^ attempt % 2 ^ 64

/-! ### One delay -/

theorem rawDelay_of_lt {policy : ConnectionRetryPolicy} (h : policy.attempt.toNat < 64) :
    policy.rawDelay.map UInt64.toNat =
      some (min (policy.baseDelayMs.toNat * 2 ^ policy.attempt.toNat % 2 ^ 64)
        policy.maxDelayMs.toNat) := by
  have hlt : policy.attempt < 64 := h
  have hshift : (policy.baseDelayMs.toUInt64 <<< policy.attempt.toUInt64).toNat =
      policy.baseDelayMs.toNat * 2 ^ policy.attempt.toNat % 2 ^ 64 := by
    rw [UInt64.toNat_shiftLeft, UInt32.toNat_toUInt64, UInt32.toNat_toUInt64,
      Nat.mod_eq_of_lt h, Nat.shiftLeft_eq]
  rw [rawDelay, if_pos hlt, Option.map_some, toNat_min, hshift, UInt32.toNat_toUInt64]

theorem rawDelay_of_le {policy : ConnectionRetryPolicy} (h : 64 ≤ policy.attempt.toNat) :
    policy.rawDelay = none := if_neg (Nat.not_lt.mpr h)

/-- Under the cap nothing may be lost by the shift, and over it the rest of the
shift has to stay over it. -/
theorem rawDelay_eq_cappedDelay_iff (policy : ConnectionRetryPolicy) :
    policy.rawDelay.map UInt64.toNat =
        some (cappedDelay policy.baseDelayMs policy.maxDelayMs policy.attempt.toNat) ↔
      policy.attempt.toNat < 64 ∧
        Fits policy.baseDelayMs policy.maxDelayMs policy.attempt.toNat := by
  by_cases hattempt : policy.attempt.toNat < 64
  · have hmax := policy.maxDelayMs.toNat_lt
    rw [rawDelay_of_lt hattempt, Option.some_inj, and_iff_right hattempt, cappedDelay, Fits]
    by_cases hlt : policy.baseDelayMs.toNat * 2 ^ policy.attempt.toNat < 2 ^ 64
    · rw [Nat.mod_eq_of_lt hlt]
      exact iff_of_true rfl (Or.inl hlt)
    · rw [min_eq_right (show policy.maxDelayMs.toNat ≤
          policy.baseDelayMs.toNat * 2 ^ policy.attempt.toNat by omega), min_eq_right_iff]
      exact (or_iff_right hlt).symm
  · rw [rawDelay_of_le (Nat.le_of_not_lt hattempt)]
    exact iff_of_false nofun fun h => hattempt h.1

/-! ### The attempts of a loop -/

section Run
variable {maxRetries baseDelayMs maxDelayMs : UInt32}

theorem nextDelay_eq {jitter : UInt64 → UInt64} {policy policy' : ConnectionRetryPolicy}
    {delay : UInt64} (h : policy.nextDelay jitter = some (delay, policy')) :
    ∃ clamped, policy.rawDelay = some clamped ∧ delay = jitter clamped ∧
      policy' = { policy with attempt := policy.attempt + 1 } := by
  obtain ⟨clamped, hraw, heq⟩ := Option.map_eq_some_iff.mp h
  exact ⟨clamped, hraw, (Prod.mk.inj heq).1.symm, (Prod.mk.inj heq).2.symm⟩

theorem nextDelay_of_lt (jitter : UInt64 → UInt64) {policy : ConnectionRetryPolicy}
    (h : policy.attempt.toNat < 64) :
    ∃ delay, policy.nextDelay jitter =
      some (delay, { policy with attempt := policy.attempt + 1 }) := by
  have hlt : policy.attempt < 64 := h
  exact ⟨_, by rw [nextDelay, rawDelay, if_pos hlt]; rfl⟩

theorem toNat_attempt_succ {policy : ConnectionRetryPolicy} (h : policy.shouldRetry = true) :
    (policy.attempt + 1).toNat = policy.attempt.toNat + 1 := by
  have hlt : policy.attempt.toNat < policy.maxRetries.toNat := of_decide_eq_true h
  have hmax : policy.maxRetries.toNat < 2 ^ 32 := policy.maxRetries.toNat_lt
  rw [UInt32.toNat_add]
  exact Nat.mod_eq_of_lt (by change policy.attempt.toNat + 1 < 2 ^ 32; omega)

/-- The configuration is never written, and no attempt goes past `maxRetries`. -/
theorem Reachable.config {policy : ConnectionRetryPolicy}
    (h : Reachable maxRetries baseDelayMs maxDelayMs policy) :
    policy.maxRetries = maxRetries ∧ policy.baseDelayMs = baseDelayMs ∧
      policy.maxDelayMs = maxDelayMs ∧ policy.attempt.toNat ≤ maxRetries.toNat := by
  induction h with
  | start => exact ⟨rfl, rfl, rfl, Nat.zero_le _⟩
  | @retry policy _ _ _ _ hretry hnext ih =>
    obtain ⟨_, _, _, rfl⟩ := nextDelay_eq hnext
    have hlt : policy.attempt.toNat < policy.maxRetries.toNat := of_decide_eq_true hretry
    rw [ih.1] at hlt
    exact ⟨ih.1, ih.2.1, ih.2.2.1, (toNat_attempt_succ hretry).trans_le hlt⟩
  | reset _ ih => exact ⟨ih.1, ih.2.1, ih.2.2.1, Nat.zero_le _⟩

/-- Up to the width of the shift every allowed attempt is made. -/
theorem exists_reachable (baseDelayMs maxDelayMs : UInt32) {attempt : ℕ}
    (hmax : attempt ≤ maxRetries.toNat) (hwidth : attempt ≤ 64) :
    ∃ policy, Reachable maxRetries baseDelayMs maxDelayMs policy ∧
      policy.attempt.toNat = attempt := by
  induction attempt with
  | zero => exact ⟨_, .start, rfl⟩
  | succ attempt ih =>
    obtain ⟨policy, hreach, hattempt⟩ := ih (by omega) (by omega)
    have hretry : policy.shouldRetry = true := by
      refine decide_eq_true ?_
      change policy.attempt.toNat < policy.maxRetries.toNat
      rw [hreach.config.1]
      omega
    obtain ⟨delay, hnext⟩ := nextDelay_of_lt id (show policy.attempt.toNat < 64 by omega)
    exact ⟨_, hreach.retry hretry hnext, (toNat_attempt_succ hretry).trans (by rw [hattempt])⟩

/-- What the documented backoff asks for, of every attempt of a loop. -/
structure ExponentialBackoff (maxRetries baseDelayMs maxDelayMs : UInt32) : Prop where
  formula : ∀ policy, Reachable maxRetries baseDelayMs maxDelayMs policy →
    policy.rawDelay.map UInt64.toNat =
      some (cappedDelay baseDelayMs maxDelayMs policy.attempt.toNat)
  nondecreasing : ∀ policy policy' jitter delay raw raw',
    Reachable maxRetries baseDelayMs maxDelayMs policy → policy.shouldRetry = true →
    policy.nextDelay jitter = some (delay, policy') → policy.rawDelay = some raw →
    policy'.rawDelay = some raw' → raw.toNat ≤ raw'.toNat
  positive : 0 < baseDelayMs.toNat → 0 < maxDelayMs.toNat →
    ∀ policy, Reachable maxRetries baseDelayMs maxDelayMs policy →
      ∃ raw, policy.rawDelay = some raw ∧ 0 < raw.toNat

/-- The formula alone carries the other two. -/
theorem exponentialBackoff_of_formula
    (h : ∀ policy, Reachable maxRetries baseDelayMs maxDelayMs policy →
      policy.rawDelay.map UInt64.toNat =
        some (cappedDelay baseDelayMs maxDelayMs policy.attempt.toNat)) :
    ExponentialBackoff maxRetries baseDelayMs maxDelayMs where
  formula := h
  nondecreasing := by
    intro policy policy' jitter delay raw raw' hreach hretry hnext hraw hraw'
    have hformula := h policy hreach
    have hformula' := h policy' (hreach.retry hretry hnext)
    rw [hraw, Option.map_some, Option.some_inj] at hformula
    rw [hraw', Option.map_some, Option.some_inj] at hformula'
    obtain ⟨_, _, _, rfl⟩ := nextDelay_eq hnext
    rw [hformula, hformula', toNat_attempt_succ hretry]
    exact cappedDelay_mono baseDelayMs maxDelayMs (Nat.le_succ _)
  positive := by
    intro hbase hmax policy hreach
    obtain ⟨raw, hraw, heq⟩ := Option.map_eq_some_iff.mp (h policy hreach)
    exact ⟨raw, hraw, heq ▸ cappedDelay_pos hbase hmax _⟩

/-- A loop of at most 63 attempts whose shifts all fit backs off as documented. -/
theorem exponentialBackoff_of_fits (hmax : maxRetries.toNat < 64)
    (hfits : ∀ attempt ≤ maxRetries.toNat, Fits baseDelayMs maxDelayMs attempt) :
    ExponentialBackoff maxRetries baseDelayMs maxDelayMs := by
  refine exponentialBackoff_of_formula fun policy hreach => ?_
  obtain ⟨-, hbase, hcap, hle⟩ := hreach.config
  have heq := (rawDelay_eq_cappedDelay_iff policy).mpr
    ⟨hle.trans_lt hmax, by rw [hbase, hcap]; exact hfits _ hle⟩
  rw [hbase, hcap] at heq
  exact heq

theorem ExponentialBackoff.fits (h : ExponentialBackoff maxRetries baseDelayMs maxDelayMs)
    {attempt : ℕ} (hmax : attempt ≤ maxRetries.toNat) (hwidth : attempt ≤ 64) :
    attempt < 64 ∧ Fits baseDelayMs maxDelayMs attempt := by
  obtain ⟨policy, hreach, rfl⟩ := exists_reachable baseDelayMs maxDelayMs hmax hwidth
  obtain ⟨-, hbase, hcap, -⟩ := hreach.config
  have hformula := h.formula policy hreach
  rw [← hbase, ← hcap] at hformula ⊢
  exact (rawDelay_eq_cappedDelay_iff policy).mp hformula

end Run

theorem exponentialBackoff_iff (maxRetries baseDelayMs maxDelayMs : UInt32) :
    ExponentialBackoff maxRetries baseDelayMs maxDelayMs ↔
      maxRetries.toNat < 64 ∧
        ∀ attempt ≤ maxRetries.toNat, Fits baseDelayMs maxDelayMs attempt := by
  constructor
  · intro h
    have hmax : maxRetries.toNat < 64 := by
      by_contra hge
      exact absurd (h.fits (Nat.le_of_not_lt hge) le_rfl).1 (lt_irrefl 64)
    exact ⟨hmax, fun attempt hle => (h.fits hle (hle.trans hmax.le)).2⟩
  · intro h
    exact exponentialBackoff_of_fits h.1 h.2

/-- Attempt 62 of a base of 100 ms: the shift has lost every bit and the next
connection is tried at once. -/
theorem exponentialBackoff_sixtyTwo :
    ¬ ∀ maxRetries baseDelayMs maxDelayMs : UInt32,
      ExponentialBackoff maxRetries baseDelayMs maxDelayMs := by
  intro h
  have hfits := ((h 64 100 30000).fits (show 62 ≤ UInt32.toNat 64 by decide) (by decide)).2
  exact absurd hfits (by unfold Fits; decide)

end ConnectionRetryPolicy
end OpenArangoDBCore.Replication
