import OpenArangoDBCore.Replication.ApplierStall

/-!
# Delivery order does not matter when every write succeeds

Per shard the final state is a function of the set of delivered messages:
the contiguous run from 1 has been written and the rest is buffered.
-/

namespace OpenArangoDBCore.Replication
open ReplicationApplier Frontier
variable {ω : Type}

def AlwaysAccepts (writeCb : WriteCallback ω) : Prop := ∀ w env, (writeCb w env).1 = 0

/-- Equal shard and sequence always carry the same message. -/
def Consistent (D : List ApplyMessage) : Prop :=
  ∀ m ∈ D, ∀ m' ∈ D, m.shardId = m'.shardId → m.sequence = m'.sequence → m = m'

structure Settled (satelliteCb : SatelliteCheckCallback) (D : List ApplyMessage)
    (a : ReplicationApplier) (log : List WriteArgs) : Prop where
  inOrder : InOrder satelliteCb D a log
  complete : Complete satelliteCb D a
  noReady : NoReady a
  hygiene : BufferHygiene a

variable {satelliteCb : SatelliteCheckCallback} {D : List ApplyMessage}
  {a : ReplicationApplier} {log : List WriteArgs}

theorem InOrder.noZero (hI : InOrder satelliteCb D a log) : NoZeroHeld a := by
  intro s
  cases hm : a.held s 0 with
  | none => rfl
  | some m => exact absurd (hI.buffered s 0 m hm).2.2.2.2 (UInt64.lt_irrefl 0)

theorem InOrder.mono (hI : InOrder satelliteCb D a log) (m : ApplyMessage) :
    InOrder satelliteCb (D ++ [m]) a log where
  writes s := (hI.writes s).imp fun _ _ ⟨x, hx, h⟩ => ⟨x, List.mem_append_left _ hx, h⟩
  satellite := hI.satellite
  buffered s q x hx :=
    ⟨List.mem_append_left _ (hI.buffered s q x hx).1, (hI.buffered s q x hx).2⟩
  total := hI.total
  sum := hI.sum

theorem acceptsAll_of_always (writeCb : WriteCallback ω) (h : AlwaysAccepts writeCb)
    (ws : List WriteArgs) (env : ω) : AcceptsAll writeCb ws env := by
  induction ws generalizing env with
  | nil => trivial
  | cons w ws ih => exact ⟨h w env, ih _⟩

theorem applyLocked_returns_zero (writeCb : WriteCallback ω) (h : AlwaysAccepts writeCb)
    (satelliteCb : SatelliteCheckCallback) (m : ApplyMessage) (a : ReplicationApplier) (env : ω) :
    (applyLocked writeCb satelliteCb m a env).1 = 0 := by
  have hc := applyLocked_cases writeCb satelliteCb m a env
  generalize applyLocked writeCb satelliteCb m a env = r at hc ⊢
  cases hc with
  | refused _ _ _ hrc => exact absurd (h _ _) hrc
  | satellite => rfl
  | duplicate => rfl
  | ahead => rfl
  | applied => rfl

section Runs
variable (writeCb : WriteCallback ω) (hcb : AlwaysAccepts writeCb)
include hcb

theorem logged_always : AlwaysAccepts (logged writeCb) := fun w env => hcb w env.1

theorem locked_settled (m : ApplyMessage) (a : ReplicationApplier) (env : ω × List WriteArgs)
    (h : Settled satelliteCb D a env.2) :
    Settled satelliteCb (D ++ [m]) (applyLocked (logged writeCb) satelliteCb m a env).2.1
      (applyLocked (logged writeCb) satelliteCb m a env).2.2.2 := by
  have hlog := logged_always writeCb hcb
  have hz := h.inOrder.noZero
  have hmem : m ∈ D ++ [m] := List.mem_append_right _ (List.mem_singleton_self m)
  obtain ⟨hc, hr⟩ := locked_complete (logged writeCb) m env hz h.complete h.noReady
    (applyLocked_returns_zero (logged writeCb) hlog satelliteCb m a env)
    (fun _ _ _ _ ms _ => acceptsAll_of_always (logged writeCb) hlog _ _)
  refine ⟨(locked_inOrder writeCb satelliteCb (D ++ [m])).locked m a env hmem (h.inOrder.mono m),
    hc, hr, ?_⟩
  rw [locked_hygiene (logged writeCb) satelliteCb m a env hz]
  refine ⟨h.hygiene, ?_⟩
  rintro ⟨-, -, hn, hsome, -⟩
  simp only at hn hsome
  rw [hn, h.noReady m.shardId] at hsome
  cases hsome

theorem drain_settled (s : ByteString) (a : ReplicationApplier) (env : ω × List WriteArgs)
    (h : Settled satelliteCb D a env.2) :
    Settled satelliteCb D (drainBuffered (logged writeCb) s a env).2.1
      (drainBuffered (logged writeCb) s a env).2.2.2 := by
  have hlog := logged_always writeCb hcb
  have hz := h.inOrder.noZero
  refine ⟨(locked_inOrder writeCb satelliteCb D).drain s a env h.inOrder, ?_, ?_,
    (drainBuffered_hygiene (logged writeCb) s a env hz).mpr h.hygiene⟩
  · exact (drainBuffered_complete (logged writeCb) s a env ⟨hz, h.complete⟩).2
  · intro s'
    by_cases hs : s' = s
    · subst hs
      rw [drainBuffered_gap (logged writeCb) s' a env hz]
      exact fun ms _ => acceptsAll_of_always (logged writeCb) hlog _ _
    · obtain ⟨h1, h2⟩ := drainBuffered_frame (logged writeCb) s s' a env hs
      rw [h1, h2]
      exact h.noReady s'

theorem batch_settled (ms : List ApplyMessage) (a : ReplicationApplier)
    (env : ω × List WriteArgs) (h : Settled satelliteCb D a env.2) :
    Settled satelliteCb (D ++ ms) (applyBatchLoop (logged writeCb) satelliteCb ms a env).1
      (applyBatchLoop (logged writeCb) satelliteCb ms a env).2.2 := by
  induction ms generalizing D a env with
  | nil =>
    rw [List.append_nil]
    exact h
  | cons m ms ih =>
    have hm := locked_settled writeCb hcb m a env h
    have hrc := applyLocked_returns_zero (logged writeCb) (logged_always writeCb hcb)
      satelliteCb m a env
    have hne : ¬ (applyLocked (logged writeCb) satelliteCb m a env).1 ≠ 0 := not_not.mpr hrc
    have hD : D ++ m :: ms = (D ++ [m]) ++ ms := by simp
    rw [hD]
    simp only [applyBatchLoop, if_neg hne]
    exact ih _ _ hm

theorem run_settled (calls : List ApplierCall) (a : ReplicationApplier)
    (env : ω × List WriteArgs) (h : Settled satelliteCb D a env.2) :
    Settled satelliteCb (D ++ delivered calls)
      (runCalls (logged writeCb) satelliteCb calls a env).1
      (runCalls (logged writeCb) satelliteCb calls a env).2.2 := by
  induction calls generalizing D a env with
  | nil =>
    rw [show delivered [] = [] from rfl, List.append_nil]
    exact h
  | cons call calls ih =>
    have hD : D ++ delivered (call :: calls) = (D ++ call.messages) ++ delivered calls := by
      simp [delivered]
    rw [hD]
    refine ih _ _ ?_
    cases call with
    | applyMessage m => exact locked_settled writeCb hcb m a env h
    | applyBatch ms => exact batch_settled writeCb hcb ms a env h
    | drainBuffered s =>
      rw [show (ApplierCall.drainBuffered s).messages = [] from rfl, List.append_nil]
      exact drain_settled writeCb hcb s a env h

theorem runCalls_settled (calls : List ApplierCall) (env : ω) :
    Settled satelliteCb (delivered calls)
      (runCalls (logged writeCb) satelliteCb calls new (env, [])).1
      (runCalls (logged writeCb) satelliteCb calls new (env, [])).2.2 := by
  have h : Settled satelliteCb [] new ((env, []) : ω × List WriteArgs).2 :=
    ⟨new_inOrder satelliteCb [], fun m hm => absurd hm List.not_mem_nil, fun _ => rfl,
      fun s q m hm => by simp at hm⟩
  simpa using run_settled writeCb hcb calls new (env, []) h

end Runs

/-! ### The settled state as a function of the delivered set -/

theorem Settled.held_iff (h : Settled satelliteCb D a log) (hD : Consistent D) (s : ByteString)
    (hs : satelliteCb s = false) (q : UInt64) (m : ApplyMessage) :
    a.held s q = some m ↔
      m ∈ D ∧ m.shardId = s ∧ m.sequence = q ∧ a.lastAppliedSequence s < q := by
  constructor
  · intro hm
    obtain ⟨hmD, hms, hmq, -, -⟩ := h.inOrder.buffered s q m hm
    exact ⟨hmD, hms, hmq, h.hygiene s q m hm⟩
  · rintro ⟨hmD, rfl, rfl, hlt⟩
    obtain ⟨x, hx⟩ := Option.isSome_iff_exists.mp (h.complete m hmD hs hlt)
    obtain ⟨hxD, hxs, hxq, -, -⟩ := h.inOrder.buffered _ _ x hx
    rw [hx, hD x hxD m hmD hxs hxq]

theorem writtenFrom_unique (hD : Consistent D) (s : ByteString) :
    Relator.RightUnique (WrittenFrom D s) := by
  rintro i w w' ⟨m, hm, hs, hq, rfl⟩ ⟨m', hm', hs', hq', rfl⟩
  rw [hD m hm m' hm' (hs.trans hs'.symm) (UInt64.toNat_inj.mp (hq.trans hq'.symm))]

theorem writes_perm (log log' : List WriteArgs) (h : ∀ s, writesOf s log = writesOf s log') :
    log.Perm log' := by
  refine List.perm_iff_count.mpr fun w => ?_
  have hc : ∀ l : List WriteArgs, l.count w = (writesOf w.collection l).count w := fun l =>
    (List.count_filter (by simp)).symm
  rw [hc log, hc log', h]

variable {D' : List ApplyMessage} {a' : ReplicationApplier} {log' : List WriteArgs}

theorem Settled.last_eq (h : Settled satelliteCb D a log) (h' : Settled satelliteCb D' a' log')
    (hset : ∀ m, m ∈ D' ↔ m ∈ D) (s : ByteString) :
    a'.lastAppliedSequence s = a.lastAppliedSequence s := by
  cases hs : satelliteCb s with
  | true => rw [h.inOrder.satellite s hs, h'.inOrder.satellite s hs]
  | false =>
    have hseq : deliveredSeqs D' s = deliveredSeqs D s := by
      simp only [deliveredSeqs, hset]
    have hg := caughtUp_of_noReady h.inOrder h.complete h.noReady s hs
    have hg' := caughtUp_of_noReady h'.inOrder h'.complete h'.noReady s hs
    rw [hseq] at hg'
    exact UInt64.toNat_inj.mp (hg'.unique hg)

theorem Settled.writes_eq (h : Settled satelliteCb D a log) (h' : Settled satelliteCb D' a' log')
    (hset : ∀ m, m ∈ D' ↔ m ∈ D) (hD : Consistent D) (s : ByteString) :
    writesOf s log' = writesOf s log := by
  have hw' := h'.inOrder.writes s
  rw [h.last_eq h' hset s] at hw'
  refine List.right_unique_forall₂' (writtenFrom_unique hD s) (hw'.imp ?_) (h.inOrder.writes s)
  rintro i w ⟨m, hm, hx⟩
  exact ⟨m, (hset m).mp hm, hx⟩

theorem Settled.held_eq (h : Settled satelliteCb D a log) (h' : Settled satelliteCb D' a' log')
    (hset : ∀ m, m ∈ D' ↔ m ∈ D) (hD : Consistent D) (s : ByteString) (q : UInt64) :
    a'.held s q = a.held s q := by
  have hD' : Consistent D' := fun m hm m' hm' => hD m ((hset m).mp hm) m' ((hset m').mp hm')
  cases hs : satelliteCb s with
  | true =>
    have hnone : ∀ {E b l}, Settled satelliteCb E b l → b.held s q = none := by
      intro E b l hb
      cases hm : b.held s q with
      | none => rfl
      | some m =>
        have hf := (hb.inOrder.buffered s q m hm).2.2.2.1
        rw [hs] at hf
        cases hf
    rw [hnone h, hnone h']
  | false =>
    refine Option.ext fun m => ?_
    rw [h.held_iff hD s hs, h'.held_iff hD' s hs, hset, h.last_eq h' hset]

/-- When every write succeeds, a shard ends at the end of the contiguous run
of its delivered sequences, with exactly these messages written in order and
the later ones buffered; and any other calls that deliver the same set of
messages end in the same state. -/
theorem delivery_converges (writeCb : WriteCallback ω) (hcb : AlwaysAccepts writeCb)
    (satelliteCb : SatelliteCheckCallback) (calls : List ApplierCall) (env : ω)
    (hD : Consistent (delivered calls)) :
    let r := runCalls (logged writeCb) satelliteCb calls new (env, [])
    (∀ s, satelliteCb s = false →
      IsGreatest (Contiguous (deliveredSeqs (delivered calls) s))
        (r.1.lastAppliedSequence s).toNat ∧
      List.Forall₂ (WrittenFrom (delivered calls) s)
        (List.range' 1 (r.1.lastAppliedSequence s).toNat) (writesOf s r.2.2) ∧
      ∀ q m, r.1.held s q = some m ↔
        m ∈ delivered calls ∧ m.shardId = s ∧ m.sequence = q ∧ r.1.lastAppliedSequence s < q) ∧
    ∀ calls' env', (∀ m, m ∈ delivered calls' ↔ m ∈ delivered calls) →
      let r' := runCalls (logged writeCb) satelliteCb calls' new (env', [])
      r'.1.totalApplied = r.1.totalApplied ∧
      ∀ s, r'.1.lastAppliedSequence s = r.1.lastAppliedSequence s ∧
        writesOf s r'.2.2 = writesOf s r.2.2 ∧ ∀ q, r'.1.held s q = r.1.held s q := by
  intro r
  have h : Settled satelliteCb (delivered calls) r.1 r.2.2 :=
    runCalls_settled writeCb hcb calls env
  refine ⟨fun s hs => ⟨caughtUp_of_noReady h.inOrder h.complete h.noReady s hs,
    h.inOrder.writes s, h.held_iff hD s hs⟩, ?_⟩
  intro calls' env' hset r'
  have h' : Settled satelliteCb (delivered calls') r'.1 r'.2.2 :=
    runCalls_settled writeCb hcb calls' env'
  refine ⟨?_, fun s => ⟨h.last_eq h' hset s, h.writes_eq h' hset hD s, h.held_eq h' hset hD s⟩⟩
  rw [h.inOrder.total, h'.inOrder.total,
    (writes_perm _ _ fun s => h.writes_eq h' hset hD s).length_eq]

theorem delivery_converges_reordered :
    let r := runCalls (logged fun _ (e : Unit) => (0, e)) (fun _ => false)
      [.applyBatch [insertMessage (lit "s") 2, insertMessage (lit "s") 1],
        .applyMessage (insertMessage (lit "s") 2)] new ((), [])
    let r' := runCalls (logged fun _ (e : Unit) => (0, e)) (fun _ => false)
      [.applyMessage (insertMessage (lit "s") 1), .applyMessage (insertMessage (lit "s") 2)]
      new ((), [])
    ∀ s, r'.1.lastAppliedSequence s = r.1.lastAppliedSequence s ∧
      writesOf s r'.2.2 = writesOf s r.2.2 ∧ ∀ q, r'.1.held s q = r.1.held s q :=
  ((delivery_converges (fun _ (e : Unit) => (0, e)) (fun _ _ => rfl) (fun _ => false)
    [.applyBatch [insertMessage (lit "s") 2, insertMessage (lit "s") 1],
      .applyMessage (insertMessage (lit "s") 2)] () (by unfold Consistent; decide)).2
    [.applyMessage (insertMessage (lit "s") 1), .applyMessage (insertMessage (lit "s") 2)] ()
    (by intro m; simp [delivered, ApplierCall.messages]; tauto)).2

end OpenArangoDBCore.Replication
