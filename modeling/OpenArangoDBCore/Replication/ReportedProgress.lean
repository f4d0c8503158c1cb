import OpenArangoDBCore.Replication.CheckpointReceiver

/-!
# Progress under interleaved reports

A report that is accepted was larger than what its call had read and within
what was generated. So the bound holds in every interleaving; the number of a
shard falls exactly where a report is written after a larger one that came in
between its own read and write.
-/

namespace OpenArangoDBCore.Replication
open Interleaving CheckThenAct

namespace MockSequenceNumberTracker

def applied (t : MockSequenceNumberTracker) (shardId : ByteString) : ℕ :=
  (getState t shardId).lastApplied.toNat

/-- `lastApplied <= lastGenerated` for every shard. -/
def Bounded (t : MockSequenceNumberTracker) : Prop :=
  ∀ shardId, (getState t shardId).lastApplied ≤ (getState t shardId).lastGenerated

theorem lookup_updateApplied_of_ne {t : MockSequenceNumberTracker} {shardId other : ByteString}
    (h : other ≠ shardId) (sequence : UInt64) :
    (updateApplied t shardId sequence).lookup other = t.lookup other := by
  unfold updateApplied
  cases t.lookup shardId with
  | none => rfl
  | some state => exact AList.lookup_insert_ne h

theorem getState_updateApplied_of_ne {t : MockSequenceNumberTracker} {shardId other : ByteString}
    (h : other ≠ shardId) (sequence : UInt64) :
    getState (updateApplied t shardId sequence) other = getState t other := by
  rw [getState, lookup_updateApplied_of_ne h, getState]

theorem generated_updateApplied (t : MockSequenceNumberTracker) (shardId other : ByteString)
    (sequence : UInt64) :
    (getState (updateApplied t shardId sequence) other).lastGenerated =
      (getState t other).lastGenerated := by
  by_cases h : other = shardId
  · subst h
    unfold updateApplied
    cases hlookup : t.lookup other with
    | none => rfl
    | some state =>
      dsimp only
      rw [getState, AList.lookup_insert, getState, hlookup]
      rfl
  · rw [getState_updateApplied_of_ne h]

/-- A shard for which something was generated is known. -/
theorem applied_updateApplied {t : MockSequenceNumberTracker} {shardId : ByteString}
    {sequence : UInt64} (h : (getState t shardId).lastGenerated ≠ 0) :
    (getState (updateApplied t shardId sequence) shardId).lastApplied = sequence := by
  unfold updateApplied
  cases hlookup : t.lookup shardId with
  | none =>
    rw [getState, hlookup] at h
    exact absurd rfl h
  | some state =>
    dsimp only
    rw [getState, AList.lookup_insert]
    rfl

end MockSequenceNumberTracker

namespace CheckpointReceiver
open MockSequenceNumberTracker
variable {T : Type} {t t' : MockSequenceNumberTracker} {l l' : Control} {e : Event}
  {shardId : ByteString} {sequence : UInt64} {state : ShardSequenceState}

/-- The call of the tracker that a step makes. -/
def access : Control → Event → Option (Access ByteString ℕ)
  | .reading shardId _, .step => some (.read shardId)
  | .writing shardId appliedSequence, .step => some (.write shardId appliedSequence.toNat)
  | _, _ => none

def accessBy (t : T) (_ : MockSequenceNumberTracker) (l : Control) (e : Event) :
    List (T × Access ByteString ℕ) :=
  ((access l e).map fun a => (t, a)).toList

inductive Effect (t : MockSequenceNumberTracker) :
    Control → Event → MockSequenceNumberTracker → Control → Prop where
  | begin {l : Control} (shardId : ByteString) (sequence : UInt64)
      (h : access l (.receive shardId sequence) = none) :
      Effect t l (.receive shardId sequence) t (.reading shardId sequence)
  | read (shardId : ByteString) (sequence : UInt64) : Effect t (.reading shardId sequence) .step t
      (.validating shardId sequence (getState t shardId))
  | reject {shardId : ByteString} {sequence : UInt64} {state : ShardSequenceState}
      (result : CheckpointResult) :
      Effect t (.validating shardId sequence state) .step t (.returned result)
  | pass {shardId : ByteString} {sequence : UInt64} {state : ShardSequenceState}
      (happlied : state.lastApplied < sequence) (hgenerated : sequence ≤ state.lastGenerated) :
      Effect t (.validating shardId sequence state) .step t (.writing shardId sequence)
  | write (shardId : ByteString) (sequence : UInt64) : Effect t (.writing shardId sequence) .step
      (updateApplied t shardId sequence) (.returned ⟨true, []⟩)

theorem receiver_effect (h : receiver t l e = some (t', l')) : Effect t l e t' l' := by
  unfold receiver at h
  split at h
  case h_1 =>
    cases h
    exact .begin _ _ rfl
  case h_2 =>
    cases h
    exact .begin _ _ rfl
  case h_3 =>
    cases h
    exact .read _ _
  case h_4 shardId sequence state =>
    cases h
    split
    next haccepted =>
      obtain ⟨happlied, hgenerated⟩ := (validate_accepted_iff shardId sequence state).mp haccepted
      exact .pass happlied hgenerated
    next => exact .reject _
  case h_5 =>
    cases h
    exact .write _ _
  case h_6 => cases h

/-! ### What a step does -/

theorem Effect.generated (h : Effect t l e t' l') (shardId : ByteString) :
    (getState t' shardId).lastGenerated = (getState t shardId).lastGenerated := by
  cases h with
  | write written sequence => exact generated_updateApplied t written shardId sequence
  | _ => rfl

/-- Only an accepted report changes the tracker, with its assignment. -/
theorem Effect.changes (h : Effect t l e t' l') :
    (t' = t ∧ ∀ shardId value, access l e ≠ some (.write shardId value)) ∨
      ∃ shardId sequence, l = .writing shardId sequence ∧ l' = .returned ⟨true, []⟩ ∧
        access l e = some (.write shardId sequence.toNat) ∧
        t' = updateApplied t shardId sequence := by
  cases h with
  | begin shardId sequence h =>
    refine .inl ⟨rfl, ?_⟩
    intro other value heq
    rw [h] at heq
    cases heq
  | read => exact .inl ⟨rfl, nofun⟩
  | reject => exact .inl ⟨rfl, nofun⟩
  | pass => exact .inl ⟨rfl, nofun⟩
  | write shardId sequence => exact .inr ⟨shardId, sequence, rfl, rfl, rfl, rfl⟩

theorem Effect.validating (h : Effect t l e t' (.validating shardId sequence state)) :
    access l e = some (.read shardId) ∧ t' = t ∧ state = getState t shardId := by
  cases h with
  | read => exact ⟨rfl, rfl, rfl⟩

theorem Effect.writing (h : Effect t l e t' (.writing shardId sequence)) :
    ∃ state, l = .validating shardId sequence state ∧ access l e = none ∧ t' = t ∧
      state.lastApplied < sequence ∧ sequence ≤ state.lastGenerated := by
  cases h with
  | pass happlied hgenerated => exact ⟨_, rfl, rfl, rfl, happlied, hgenerated⟩

/-! ### Runs -/

variable [DecidableEq T]
  {tracker : MockSequenceNumberTracker} {H : List (T × Access ByteString ℕ)}
  {c c' : Config T MockSequenceNumberTracker Control} {x : T × Event}

/-- The calls of the tracker in a run. -/
def accesses (tracker : MockSequenceNumberTracker) (tr : List (T × Event)) :
    List (T × Access ByteString ℕ) :=
  observed receiver accessBy (start tracker) tr

structure Tracked (tracker : MockSequenceNumberTracker) (H : List (T × Access ByteString ℕ))
    (c : Config T MockSequenceNumberTracker Control) : Prop where
  bounded : Bounded c.shared
  value : ∀ shardId, applied c.shared shardId = current (applied tracker) shardId H
  justified : Justified (applied tracker) H
  validating : ∀ t shardId sequence state, c.control t = .validating shardId sequence state →
    state.lastGenerated = (getState c.shared shardId).lastGenerated ∧
      ∃ before between, ReadBefore t shardId H before between ∧
        current (applied tracker) shardId before = state.lastApplied.toNat
  writing : ∀ t shardId sequence, c.control t = .writing shardId sequence →
    sequence ≤ (getState c.shared shardId).lastGenerated ∧
      ∃ before between, ReadBefore t shardId H before between ∧
        current (applied tracker) shardId before < sequence.toNat

omit [DecidableEq T] in
theorem start_tracked (h : Bounded tracker) : Tracked tracker [] (start (T := T) tracker) where
  bounded := h
  value _ := rfl
  justified := eachWrite_nil
  validating _ _ _ _ h := by cases h
  writing _ _ _ h := by cases h

omit [DecidableEq T] in
/-- A call that writes is about a shard for which something was generated. -/
theorem Tracked.generated_ne_zero (h : Tracked tracker H c) {t : T}
    (ht : c.control t = .writing shardId sequence) :
    (getState c.shared shardId).lastGenerated ≠ 0 := by
  obtain ⟨hgenerated, before, between, -, hallowed⟩ := h.writing t shardId sequence ht
  intro hzero
  rw [hzero, UInt64.le_iff_toNat_le, UInt64.toNat_zero] at hgenerated
  omega

theorem step_effect (hf : fire receiver c x = some c') :
    Effect c.shared (c.control x.1) x.2 c'.shared (c'.control x.1) := receiver_effect (fire_own hf)

theorem Tracked.step_bounded (h : Tracked tracker H c) (hf : fire receiver c x = some c') :
    Bounded c'.shared := by
  rcases (step_effect hf).changes with ⟨hshared, -⟩ | ⟨shardId, sequence, hl, -, -, hshared⟩
  · rw [hshared]
    exact h.bounded
  · intro other
    rw [hshared, generated_updateApplied]
    by_cases hother : other = shardId
    · rw [hother, applied_updateApplied (h.generated_ne_zero hl)]
      exact (h.writing x.1 shardId sequence hl).1
    · rw [getState_updateApplied_of_ne hother]
      exact h.bounded other

theorem Tracked.step_value (h : Tracked tracker H c) (hf : fire receiver c x = some c')
    (shardId : ByteString) : applied c'.shared shardId = current (applied tracker) shardId
      (H ++ accessBy x.1 c.shared (c.control x.1) x.2) := by
  unfold accessBy
  rcases (step_effect hf).changes with
    ⟨hshared, hnone⟩ | ⟨written, sequence, hl, -, haccess, hshared⟩
  · rw [hshared, h.value shardId]
    cases ha : access (c.control x.1) x.2 with
    | none => rw [Option.map_none, Option.toList_none, List.append_nil]
    | some a =>
      rw [Option.map_some, Option.toList_some, current_other H]
      intro value heq
      exact hnone shardId value (ha.trans (congrArg some heq))
  · rw [haccess, Option.map_some, Option.toList_some, hshared, applied]
    by_cases hother : shardId = written
    · rw [hother, applied_updateApplied (h.generated_ne_zero hl), current_write]
    · rw [getState_updateApplied_of_ne hother, current_other H, ← h.value shardId, applied]
      intro value heq
      exact hother (Access.write.inj heq).1.symm

theorem Tracked.step_justified (h : Tracked tracker H c) (hf : fire receiver c x = some c') :
    Justified (applied tracker) (H ++ accessBy x.1 c.shared (c.control x.1) x.2) := by
  unfold accessBy
  cases ha : access (c.control x.1) x.2 with
  | none =>
    rw [Option.map_none, Option.toList_none, List.append_nil]
    exact h.justified
  | some a =>
    rw [Option.map_some, Option.toList_some]
    refine eachWrite_concat.mpr ⟨h.justified, ?_⟩
    intro shardId value hwrite
    rcases (step_effect hf).changes with ⟨-, hnone⟩ | ⟨written, sequence, hl, -, haccess, -⟩
    · exact absurd (ha.trans (congrArg some hwrite)) (hnone shardId value)
    · obtain rfl := Option.some.inj (ha.symm.trans haccess)
      obtain ⟨rfl, rfl⟩ := Access.write.inj hwrite
      obtain ⟨-, before, between, hread, hallowed⟩ := h.writing x.1 written sequence hl
      exact ⟨before, between, hread, hallowed⟩

omit [DecidableEq T] in
/-- What a call has read stays what it has read last while the others go on. -/
theorem readBefore_step {t : T} (ht : t ≠ x.1) {before between : List (T × Access ByteString ℕ)}
    (h : ReadBefore t shardId H before between) : ∃ between',
      ReadBefore t shardId (H ++ accessBy x.1 c.shared (c.control x.1) x.2) before between' := by
  unfold accessBy
  cases access (c.control x.1) x.2 with
  | none =>
    rw [Option.map_none, Option.toList_none, List.append_nil]
    exact ⟨between, h⟩
  | some a => exact ⟨_, h.concat (Ne.symm ht)⟩

theorem Tracked.step_validating (h : Tracked tracker H c) (hf : fire receiver c x = some c')
    (t : T) (ht : c'.control t = .validating shardId sequence state) :
    state.lastGenerated = (getState c'.shared shardId).lastGenerated ∧
      ∃ before between, ReadBefore t shardId
          (H ++ accessBy x.1 c.shared (c.control x.1) x.2) before between ∧
        current (applied tracker) shardId before = state.lastApplied.toNat := by
  have heffect := step_effect hf
  rw [heffect.generated]
  by_cases hx : t = x.1
  · rw [hx] at ht
    rw [ht] at heffect
    obtain ⟨haccess, -, rfl⟩ := heffect.validating
    refine ⟨rfl, H, [], ⟨?_, nofun⟩, (h.value shardId).symm⟩
    rw [accessBy, haccess, hx]
    rfl
  · rw [fire_frame hf hx] at ht
    obtain ⟨hgenerated, before, between, hread, hcurrent⟩ :=
      h.validating t shardId sequence state ht
    obtain ⟨between', hread'⟩ := readBefore_step hx hread
    exact ⟨hgenerated, before, between', hread', hcurrent⟩

theorem Tracked.step_writing (h : Tracked tracker H c) (hf : fire receiver c x = some c')
    (t : T) (ht : c'.control t = .writing shardId sequence) :
    sequence ≤ (getState c'.shared shardId).lastGenerated ∧
      ∃ before between, ReadBefore t shardId
          (H ++ accessBy x.1 c.shared (c.control x.1) x.2) before between ∧
        current (applied tracker) shardId before < sequence.toNat := by
  have heffect := step_effect hf
  rw [heffect.generated]
  by_cases hx : t = x.1
  · rw [hx] at ht
    rw [ht] at heffect
    obtain ⟨state, hl, haccess, -, happlied, hgenerated⟩ := heffect.writing
    obtain ⟨hsame, before, between, hread, hcurrent⟩ :=
      h.validating x.1 shardId sequence state hl
    refine ⟨hsame ▸ hgenerated, before, between, ?_, ?_⟩
    · rw [accessBy, haccess, Option.map_none, Option.toList_none, List.append_nil, hx]
      exact hread
    · rw [hcurrent]
      exact UInt64.lt_iff_toNat_lt.mp happlied
  · rw [fire_frame hf hx] at ht
    obtain ⟨hgenerated, before, between, hread, hallowed⟩ := h.writing t shardId sequence ht
    obtain ⟨between', hread'⟩ := readBefore_step hx hread
    exact ⟨hgenerated, before, between', hread', hallowed⟩

theorem Tracked.step (h : Tracked tracker H c) (hf : fire receiver c x = some c') :
    Tracked tracker (H ++ accessBy x.1 c.shared (c.control x.1) x.2) c' where
  bounded := h.step_bounded hf
  value := h.step_value hf
  justified := h.step_justified hf
  validating t _ _ _ ht := h.step_validating hf t ht
  writing t _ _ ht := h.step_writing hf t ht

theorem run_tracked (h : Bounded tracker) {tr : List (T × Event)}
    (hrun : exec receiver (start tracker) tr = some c) : Tracked tracker (accesses tracker tr) c :=
  observed_invariant accessBy (fun H c => Tracked tracker H c)
    (fun _ _ _ _ hI hf => hI.step hf) tr _ c (start_tracked h) hrun

/-! ### Progress -/

/-- What the claim of progress says of one step of a run. -/
structure KeepsProgress (c : Config T MockSequenceNumberTracker Control) (x : T × Event)
    (c' : Config T MockSequenceNumberTracker Control) : Prop where
  bounded : Bounded c'.shared
  monotone : ∀ shardId, applied c.shared shardId ≤ applied c'.shared shardId
  rejected : c'.shared ≠ c.shared → c'.control x.1 = .returned ⟨true, []⟩
  otherShards : ∀ shardId, c'.shared.lookup shardId ≠ c.shared.lookup shardId →
    ∃ sequence, c.control x.1 = .writing shardId sequence

/-- Of every step of a run. -/
def ProgressKept (tracker : MockSequenceNumberTracker) (tr : List (T × Event)) : Prop :=
  ∀ before x c c', before ++ [x] <+: tr → exec receiver (start tracker) before = some c →
    fire receiver c x = some c' → KeepsProgress c x c'

theorem Tracked.keepsProgress_iff (h : Tracked tracker H c) (hf : fire receiver c x = some c') :
    KeepsProgress c x c' ↔ ∀ shardId value, access (c.control x.1) x.2 =
      some (.write shardId value) → current (applied tracker) shardId H ≤ value := by
  have hchanges := (step_effect hf).changes
  constructor
  · intro hkeeps shardId value haccess
    have hmonotone := hkeeps.monotone shardId
    rwa [h.value, h.step_value hf, accessBy, haccess, Option.map_some, Option.toList_some,
      current_write] at hmonotone
  · intro hwrite
    refine ⟨h.step_bounded hf, ?_, ?_, ?_⟩
    · intro shardId
      rcases hchanges with ⟨hshared, -⟩ | ⟨written, sequence, hl, -, haccess, hshared⟩
      · rw [hshared]
      · by_cases hother : shardId = written
        · have hvalue := hwrite written sequence.toNat haccess
          rw [hother, hshared, h.value]
          rwa [applied, applied_updateApplied (h.generated_ne_zero hl)]
        · rw [hshared, applied, applied, getState_updateApplied_of_ne hother]
    · intro hne
      rcases hchanges with ⟨hshared, -⟩ | ⟨_, _, -, hl', -, -⟩
      · exact absurd hshared hne
      · exact hl'
    · intro shardId hne
      rcases hchanges with ⟨hshared, -⟩ | ⟨written, sequence, hl, -, -, hshared⟩
      · exact absurd (by rw [hshared]) hne
      · by_cases hother : shardId = written
        · exact ⟨sequence, hother ▸ hl⟩
        · rw [hshared, lookup_updateApplied_of_ne hother] at hne
          exact absurd rfl hne

theorem progressKept_iff_ascending (h : Bounded tracker) {tr : List (T × Event)}
    (hrun : exec receiver (start tracker) tr = some c) :
    ProgressKept tracker tr ↔ Ascending (applied tracker) (accesses tracker tr) := by
  induction tr using List.reverseRecOn generalizing c with
  | nil =>
    refine iff_of_true ?_ eachWrite_nil
    intro before x c c' hpart
    have hnil := List.prefix_nil.mp hpart
    simp at hnil
  | append_singleton tr x ih =>
    rw [exec_snoc] at hrun
    obtain ⟨c₁, htr, hf⟩ := Option.bind_eq_some_iff.mp hrun
    have htracked := run_tracked h htr
    have hsplit : ProgressKept tracker (tr ++ [x]) ↔
        ProgressKept tracker tr ∧ KeepsProgress c₁ x c := by
      constructor
      · intro hkept
        refine ⟨?_, hkept tr x c₁ c (List.prefix_refl _) htr hf⟩
        intro before y c₂ c₃ hpart
        exact hkept before y c₂ c₃ (hpart.trans (List.prefix_append _ _))
      · rintro ⟨hkept, hlast⟩ before y c₂ c₃ hpart hbefore hy
        rcases List.prefix_concat_iff.mp hpart with heq | hold
        · obtain ⟨rfl, hxy⟩ := List.append_inj' heq rfl
          obtain rfl := List.singleton_injective hxy
          obtain rfl := Option.some.inj (htr.symm.trans hbefore)
          obtain rfl := Option.some.inj (hf.symm.trans hy)
          exact hlast
        · exact hkept before y c₂ c₃ hold hbefore hy
    rw [hsplit, ih htr, htracked.keepsProgress_iff hf, accesses, accesses,
      observed_snoc accessBy htr, accessBy]
    cases access (c₁.control x.1) x.2 with
    | none => simp
    | some a =>
      rw [Option.map_some, Option.toList_some, Ascending, eachWrite_concat]
      simp

/-- In every interleaving the reported progress is kept exactly when no report
is overtaken: between its read and its write no larger one is written for its shard. -/
theorem progress_kept_iff_no_overtaking (tracker : MockSequenceNumberTracker)
    (hbounded : Bounded tracker) (tr : List (T × Event))
    (c : Config T MockSequenceNumberTracker Control)
    (hrun : exec receiver (start tracker) tr = some c) :
    ProgressKept tracker tr ↔ NoOvertaking (accesses tracker tr) :=
  (progressKept_iff_ascending hbounded hrun).trans
    (ascending_iff_noOvertaking (run_tracked hbounded hrun).justified)

/-- 100 generated, 50 applied. -/
def sampleTracker : MockSequenceNumberTracker :=
  AList.insert (lit "s") ⟨lit "s", 100, 50, 50⟩ ∅

def singleReport : List (Unit × Event) :=
  [((), .receive (lit "s") 60), ((), .step), ((), .step), ((), .step)]

theorem sampleTracker_bounded : Bounded sampleTracker := by
  intro shardId
  unfold getState sampleTracker
  rw [UnorderedMap.lookup_insert_of, AList.lookup_empty]
  split <;> decide

theorem singleReport_keeps_progress : ProgressKept sampleTracker singleReport := by
  refine (progress_kept_iff_no_overtaking sampleTracker sampleTracker_bounded singleReport _
    rfl).mpr ?_
  have haccesses : accesses sampleTracker singleReport =
      [] ++ [((), .read (lit "s"))] ++ [((), .write (lit "s") 60)] := rfl
  rw [haccesses]
  refine eachWrite_concat.mpr ⟨eachWrite_concat.mpr ⟨eachWrite_nil, nofun⟩, ?_⟩
  intro key value _ before between hread u w hmem
  have hlength := congrArg List.length hread.split
  simp only [List.nil_append, List.length_append, List.length_cons, List.length_nil] at hlength
  obtain rfl : between = [] := List.eq_nil_of_length_eq_zero (by omega)
  cases hmem

/-- Both calls read 50; the report of 80 is written first. -/
def overtakenReport : List (Bool × Event) :=
  [(false, .receive (lit "s") 60), (false, .step), (false, .step), (true, .receive (lit "s") 80),
    (true, .step), (true, .step), (true, .step)]

theorem overtaken_report_lowers_progress :
    (exec receiver (start sampleTracker) overtakenReport).map
        (fun c => applied c.shared (lit "s")) = some 80 ∧
      (exec receiver (start sampleTracker) (overtakenReport ++ [(false, .step)])).map
        (fun c => (applied c.shared (lit "s"), c.control false)) =
          some (60, .returned ⟨true, []⟩) := by
  decide

end CheckpointReceiver
end OpenArangoDBCore.Replication
