import OpenArangoDBCore.Basics
import OpenArangoDBCore.Lib.Interleaving
import Mathlib.Data.List.GetD

/-!
# Sequence numbers (SequenceNumberGenerator.cpp)

Two threads that both miss a shard both emplace a counter for it; the map keeps
the first. `counters` holds the shared pointers of the map as indices into the
atomics that were made, and the fields say that a pointer is never dangling and
no two shards share a counter.
-/

namespace OpenArangoDBCore.Replication
open Interleaving

structure SequenceNumberGenerator where
  counters : UnorderedMap ByteString ℕ
  atomics : List UInt64
  allocated : ∀ shardId counter, counters.lookup shardId = some counter →
    counter < atomics.length
  apart : ∀ shardId other counter, counters.lookup shardId = some counter →
    counters.lookup other = some counter → shardId = other

namespace SequenceNumberGenerator
variable (g : SequenceNumberGenerator) (shardId : ByteString) (counter : ℕ)

theorem none_allocated (shardId : ByteString) (counter : ℕ)
    (h : (∅ : UnorderedMap ByteString ℕ).lookup shardId = some counter) :
    counter < ([] : List UInt64).length := by
  rw [AList.lookup_empty] at h
  cases h

theorem none_apart (shardId other : ByteString) (counter : ℕ)
    (h : (∅ : UnorderedMap ByteString ℕ).lookup shardId = some counter)
    (_ : (∅ : UnorderedMap ByteString ℕ).lookup other = some counter) : shardId = other := by
  rw [AList.lookup_empty] at h
  cases h

def empty : SequenceNumberGenerator := ⟨∅, [], none_allocated, none_apart⟩

def load : UInt64 := g.atomics.getD counter 0

theorem makeShared_allocated (shardId : ByteString) (counter : ℕ)
    (h : g.counters.lookup shardId = some counter) : counter < (g.atomics ++ [0]).length := by
  have := g.allocated shardId counter h
  rw [List.length_append, List.length_singleton]
  omega

/-- `std::make_shared<std::atomic<uint64_t>>(0)` -/
def makeShared : SequenceNumberGenerator :=
  {g with atomics := g.atomics ++ [0], allocated := g.makeShared_allocated}

theorem insert_allocated (other : ByteString) (counter : ℕ)
    (h : (g.counters.insert shardId g.atomics.length).lookup other = some counter) :
    counter < (g.atomics ++ [0]).length := by
  by_cases hother : other = shardId
  · subst hother
    rw [AList.lookup_insert] at h
    cases h
    rw [List.length_append, List.length_singleton]
    omega
  · rw [AList.lookup_insert_ne hother] at h
    exact g.makeShared_allocated other counter h

theorem insert_apart (first other : ByteString) (counter : ℕ)
    (h : (g.counters.insert shardId g.atomics.length).lookup first = some counter)
    (h' : (g.counters.insert shardId g.atomics.length).lookup other = some counter) :
    first = other := by
  by_cases hfirst : first = shardId
  · by_cases hother : other = shardId
    · rw [hfirst, hother]
    · rw [hfirst, AList.lookup_insert] at h
      rw [AList.lookup_insert_ne hother, ← h] at h'
      exact absurd (g.allocated other _ h') (lt_irrefl _)
  · rw [AList.lookup_insert_ne hfirst] at h
    by_cases hother : other = shardId
    · rw [hother, AList.lookup_insert] at h'
      rw [← h'] at h
      exact absurd (g.allocated first _ h) (lt_irrefl _)
    · rw [AList.lookup_insert_ne hother] at h'
      exact g.apart first other counter h h'

/-- The counter is made before the map is asked, and dropped if the shard has
one. -/
def emplace : SequenceNumberGenerator × ℕ :=
  match g.counters.lookup shardId with
  | some counter => (g.makeShared, counter)
  | none => (⟨g.counters.insert shardId g.atomics.length, g.atomics ++ [0],
      g.insert_allocated shardId, g.insert_apart shardId⟩, g.atomics.length)

theorem set_allocated (value : UInt64) (shardId : ByteString) (found : ℕ)
    (h : g.counters.lookup shardId = some found) :
    found < (g.atomics.set counter value).length := by
  rw [List.length_set]
  exact g.allocated shardId found h

def fetchAdd : UInt64 × SequenceNumberGenerator :=
  (g.load counter, {g with
    atomics := g.atomics.set counter (g.load counter + 1)
    allocated := g.set_allocated counter (g.load counter + 1)})

def currentSequence : UInt64 :=
  match g.counters.lookup shardId with
  | none => 0
  | some counter => g.load counter

inductive Control where
  | idle
  | finding (shardId : ByteString)
  | emplacing (shardId : ByteString)
  | adding (shardId : ByteString) (counter : ℕ)
  | returned (sequence : UInt64)
  deriving DecidableEq

inductive Event where
  | nextSequence (shardId : ByteString)
  | step
  deriving DecidableEq

/-- `nextSequence` with the two locked sections of `getOrCreate` and the
increment as its steps. -/
def generator : Program SequenceNumberGenerator Control Event
  | g, .idle, .nextSequence shardId => some (g, .finding shardId)
  | g, .returned _, .nextSequence shardId => some (g, .finding shardId)
  | g, .finding shardId, .step =>
    match g.counters.lookup shardId with
    | some counter => some (g, .adding shardId counter)
    | none => some (g, .emplacing shardId)
  | g, .emplacing shardId, .step =>
    let (g', counter) := g.emplace shardId
    some (g', .adding shardId counter)
  | g, .adding _ counter, .step =>
    let (value, g') := g.fetchAdd counter
    some (g', .returned (value + 1))
  | _, _, _ => none

def start {T : Type} : Config T SequenceNumberGenerator Control := ⟨empty, fun _ => .idle⟩

/-! ### What the operations do -/

variable {g shardId counter}

theorem lookup_emplace :
    (g.emplace shardId).1.counters.lookup shardId = some (g.emplace shardId).2 := by
  unfold emplace
  cases h : g.counters.lookup shardId with
  | none => exact AList.lookup_insert _
  | some counter => exact h

theorem lookup_emplace_of_some {other : ByteString} (h : g.counters.lookup other = some counter) :
    (g.emplace shardId).1.counters.lookup other = some counter := by
  unfold emplace
  cases hshard : g.counters.lookup shardId with
  | none =>
    have hother : other ≠ shardId := by
      rintro rfl
      rw [h] at hshard
      cases hshard
    exact (AList.lookup_insert_ne hother).trans h
  | some _ => exact h

theorem load_append (h : counter < g.atomics.length) (more : List UInt64) :
    (g.atomics ++ more).getD counter 0 = g.load counter := by
  rw [load, List.getD_append _ _ _ _ h]

/-- A counter that is made starts where an unknown shard stands. -/
theorem currentSequence_emplace (other : ByteString) :
    (g.emplace shardId).1.currentSequence other = g.currentSequence other := by
  unfold emplace currentSequence
  cases hshard : g.counters.lookup shardId with
  | some counter =>
    dsimp only [makeShared]
    cases h : g.counters.lookup other with
    | none => rfl
    | some found => exact load_append (g.allocated other found h) [0]
  | none =>
    dsimp only
    by_cases hother : other = shardId
    · subst hother
      rw [AList.lookup_insert, hshard]
      dsimp only [load]
      rw [List.getD_append_right _ _ _ _ le_rfl, Nat.sub_self]
      rfl
    · rw [AList.lookup_insert_ne hother]
      cases h : g.counters.lookup other with
      | none => rfl
      | some found => exact load_append (g.allocated other found h) [0]

theorem isSome_lookup_emplace {other : ByteString} (h : other ≠ shardId) :
    ((g.emplace shardId).1.counters.lookup other).isSome = (g.counters.lookup other).isSome := by
  unfold emplace
  cases g.counters.lookup shardId with
  | none => exact congrArg Option.isSome (AList.lookup_insert_ne h)
  | some _ => rfl

theorem fetchAdd_value (h : g.counters.lookup shardId = some counter) :
    (g.fetchAdd counter).1 = g.currentSequence shardId := by
  rw [currentSequence, h]
  rfl

theorem currentSequence_fetchAdd (h : g.counters.lookup shardId = some counter) :
    (g.fetchAdd counter).2.currentSequence shardId = g.currentSequence shardId + 1 := by
  have hset : (g.fetchAdd counter).2.counters.lookup shardId = some counter := h
  rw [currentSequence, hset, currentSequence, h]
  show (g.atomics.set counter (g.load counter + 1)).getD counter 0 = g.load counter + 1
  rw [List.getD_eq_getElem?_getD, List.getElem?_set_self (g.allocated shardId counter h)]
  rfl

theorem currentSequence_fetchAdd_of_ne (h : g.counters.lookup shardId = some counter)
    {other : ByteString} (hother : other ≠ shardId) :
    (g.fetchAdd counter).2.currentSequence other = g.currentSequence other := by
  have hsame : (g.fetchAdd counter).2.counters.lookup other = g.counters.lookup other := rfl
  rw [currentSequence, hsame, currentSequence]
  cases hfound : g.counters.lookup other with
  | none => rfl
  | some found =>
    have hne : counter ≠ found := fun heq => hother (g.apart other shardId found hfound (heq ▸ h))
    show (g.atomics.set counter (g.load counter + 1)).getD found 0 = g.load found
    rw [List.getD_eq_getElem?_getD, List.getElem?_set_ne hne, load, List.getD_eq_getElem?_getD]

/-! ### What a step does -/

/-- The shard whose call is under way. -/
def Control.shard : Control → Option ByteString
  | .finding shardId | .emplacing shardId | .adding shardId _ => some shardId
  | .idle | .returned _ => none

inductive Effect (g : SequenceNumberGenerator) :
    Control → Event → SequenceNumberGenerator → Control → Prop where
  | call {l : Control} (shardId : ByteString) (h : l.shard = none) :
      Effect g l (.nextSequence shardId) g (.finding shardId)
  | found {shardId : ByteString} {counter : ℕ} (h : g.counters.lookup shardId = some counter) :
      Effect g (.finding shardId) .step g (.adding shardId counter)
  | missed {shardId : ByteString} (h : g.counters.lookup shardId = none) :
      Effect g (.finding shardId) .step g (.emplacing shardId)
  | emplaced (shardId : ByteString) : Effect g (.emplacing shardId) .step
      (g.emplace shardId).1 (.adding shardId (g.emplace shardId).2)
  | added (shardId : ByteString) (counter : ℕ) : Effect g (.adding shardId counter) .step
      (g.fetchAdd counter).2 (.returned ((g.fetchAdd counter).1 + 1))

variable {g' : SequenceNumberGenerator} {l l' : Control} {e : Event}

theorem generator_effect (h : generator g l e = some (g', l')) : Effect g l e g' l' := by
  unfold generator at h
  split at h
  case h_1 =>
    cases h
    exact .call _ rfl
  case h_2 =>
    cases h
    exact .call _ rfl
  case h_3 =>
    split at h
    next hfound =>
      cases h
      exact .found hfound
    next hmissed =>
      cases h
      exact .missed hmissed
  case h_4 =>
    cases h
    exact .emplaced _
  case h_5 =>
    cases h
    exact .added _ _
  case h_6 => cases h

/-- A counter never leaves the map, and no shard gets a second one. -/
theorem Effect.lookup_of_some (h : Effect g l e g' l')
    (hlookup : g.counters.lookup shardId = some counter) :
    g'.counters.lookup shardId = some counter := by
  cases h with
  | emplaced => exact lookup_emplace_of_some hlookup
  | _ => exact hlookup

theorem Effect.adding (h : Effect g l e g' (.adding shardId counter)) :
    g'.counters.lookup shardId = some counter := by
  cases h with
  | found h => exact h
  | emplaced => exact lookup_emplace

/-- What a thread that is about to increment holds is the counter of the map. -/
def Holds (g : SequenceNumberGenerator) (l : Control) : Prop :=
  ∀ shardId counter, l = .adding shardId counter → g.counters.lookup shardId = some counter

theorem Effect.holds (h : Effect g l e g' l') : Holds g' l' := by
  rintro shardId counter rfl
  exact h.adding

theorem Holds.of_effect {l₀ : Control} (hl₀ : Holds g l₀) (h : Effect g l e g' l') :
    Holds g' l₀ := by
  intro shardId counter heq
  exact h.lookup_of_some (hl₀ shardId counter heq)

/-- The value that the step returns for the shard. -/
def returns (shardId : ByteString) (g : SequenceNumberGenerator) (l : Control) (e : Event) :
    Option UInt64 :=
  match l, e with
  | .adding other counter, .step =>
    if other = shardId then some ((g.fetchAdd counter).1 + 1) else none
  | _, _ => none

/-- Only an increment changes a number: it returns the next one of its own
shard and leaves the others. -/
theorem Effect.current (h : Effect g l e g' l') (hl : Holds g l) (shardId : ByteString) :
    (returns shardId g l e = none ∧ g'.currentSequence shardId = g.currentSequence shardId) ∨
      (returns shardId g l e = some (g'.currentSequence shardId) ∧
        g'.currentSequence shardId = g.currentSequence shardId + 1) := by
  cases h with
  | call => exact .inl ⟨by cases l <;> rfl, rfl⟩
  | found => exact .inl ⟨rfl, rfl⟩
  | missed => exact .inl ⟨rfl, rfl⟩
  | emplaced => exact .inl ⟨rfl, currentSequence_emplace shardId⟩
  | added other counter =>
    have hlookup := hl other counter rfl
    by_cases hother : shardId = other
    · subst hother
      refine .inr ⟨?_, currentSequence_fetchAdd hlookup⟩
      rw [currentSequence_fetchAdd hlookup, ← fetchAdd_value hlookup]
      exact if_pos rfl
    · exact .inl ⟨if_neg (Ne.symm hother), currentSequence_fetchAdd_of_ne hlookup hother⟩

/-! ### Runs -/

variable {T : Type} [DecidableEq T] {c c' : Config T SequenceNumberGenerator Control}
  {x : T × Event}

def returnedBy (shardId : ByteString) (t : T) (g : SequenceNumberGenerator) (l : Control)
    (e : Event) : List (T × UInt64) := ((returns shardId g l e).map fun value => (t, value)).toList

/-- The values of the shard's completed calls in a run, with their threads. -/
def returned (shardId : ByteString) (tr : List (T × Event)) : List (T × UInt64) :=
  observed generator (returnedBy shardId) start tr

structure Counted (shardId : ByteString) (values : List (T × UInt64))
    (c : Config T SequenceNumberGenerator Control) : Prop where
  holds : ∀ t, Holds c.shared (c.control t)
  counted : values.map Prod.snd = (List.range' 1 values.length).map UInt64.ofNat
  current : c.shared.currentSequence shardId = UInt64.ofNat values.length

omit [DecidableEq T] in
theorem start_counted (shardId : ByteString) : Counted shardId [] (start (T := T)) where
  holds _ _ _ h := by cases h
  counted := rfl
  current := rfl

theorem step_effect (hf : fire generator c x = some c') :
    Effect c.shared (c.control x.1) x.2 c'.shared (c'.control x.1) :=
  generator_effect (fire_own hf)

theorem holds_step (h : ∀ t, Holds c.shared (c.control t)) (hf : fire generator c x = some c')
    (t : T) : Holds c'.shared (c'.control t) := by
  by_cases ht : t = x.1
  · rw [ht]
    exact (step_effect hf).holds
  · rw [fire_frame hf ht]
    exact (h t).of_effect (step_effect hf)

theorem Counted.step {values : List (T × UInt64)} (h : Counted shardId values c)
    (hf : fire generator c x = some c') :
    Counted shardId (values ++ returnedBy shardId x.1 c.shared (c.control x.1) x.2) c' := by
  refine ⟨holds_step h.holds hf, ?_, ?_⟩
  all_goals unfold returnedBy
  all_goals rcases (step_effect hf).current (h.holds x.1) shardId with
    ⟨hnone, hsame⟩ | ⟨hsome, hnext⟩
  · rw [hnone, Option.map_none, Option.toList_none, List.append_nil]
    exact h.counted
  · rw [hsome, Option.map_some, Option.toList_some, List.map_append, h.counted, List.length_append,
      List.length_singleton, List.range'_concat, List.map_append, List.map_singleton,
      List.map_singleton, hnext, h.current, one_mul, add_comm 1, UInt64.ofNat_add]
    rfl
  · rw [hnone, Option.map_none, Option.toList_none, List.append_nil, hsame]
    exact h.current
  · rw [hsome, Option.map_some, Option.toList_some, List.length_append, List.length_singleton,
      hnext, h.current, UInt64.ofNat_add]
    rfl

theorem run_counted {tr : List (T × Event)} (h : exec generator start tr = some c)
    (shardId : ByteString) : Counted shardId (returned shardId tr) c :=
  observed_invariant (returnedBy shardId) (Counted shardId) (fun _ _ _ _ hI hf => hI.step hf) tr _ c
    (start_counted shardId) h

/-! ### A shard alone -/

/-- The shard that a step is about. -/
def concerns (l : Control) : Event → Option ByteString
  | .nextSequence shardId => some shardId
  | .step => l.shard

def stepOn (shardId : ByteString) (t : T) (_ : SequenceNumberGenerator) (l : Control)
    (e : Event) : List (T × Event) := if concerns l e = some shardId then [(t, e)] else []

/-- The steps of a run that are about the shard. -/
def stepsOn (shardId : ByteString) (tr : List (T × Event)) : List (T × Event) :=
  observed generator (stepOn shardId) start tr

/-- A thread in a run and in the run of the shard's steps alone, where it has
its calls for the shard only. -/
inductive SameCall (shardId : ByteString) : Control → Control → Prop where
  | other {l m : Control} (hl : l.shard ≠ some shardId) (hm : m.shard = none) :
      SameCall shardId l m
  | finding : SameCall shardId (.finding shardId) (.finding shardId)
  | emplacing : SameCall shardId (.emplacing shardId) (.emplacing shardId)
  | adding (counter counter' : ℕ) :
      SameCall shardId (.adding shardId counter) (.adding shardId counter')

structure SameShard (shardId : ByteString) (g p : SequenceNumberGenerator) : Prop where
  known : (p.counters.lookup shardId).isSome = (g.counters.lookup shardId).isSome
  current : p.currentSequence shardId = g.currentSequence shardId

theorem generator_call {m : Control} (h : m.shard = none) (p : SequenceNumberGenerator)
    (shardId : ByteString) :
    generator p m (.nextSequence shardId) = some (p, .finding shardId) := by
  cases m with
  | idle | returned => rfl
  | finding | emplacing | adding => cases h

theorem Effect.other (h : Effect g l e g' l') (hl : Holds g l)
    (hother : concerns l e ≠ some shardId) {p : SequenceNumberGenerator} {m : Control}
    (hsame : SameShard shardId g p) (hcall : SameCall shardId l m) :
    SameShard shardId g' p ∧ SameCall shardId l' m ∧ returns shardId g l e = none := by
  have hm : m.shard = none := by
    cases hcall with
    | other _ hm => exact hm
    | finding | emplacing | adding =>
      cases e with
      | step => exact absurd rfl hother
      | nextSequence => cases h with
        | call _ h => cases h
  have hcurrent := h.current hl shardId
  cases h with
  | call other h => exact ⟨hsame, .other hother hm, by cases l <;> rfl⟩
  | found h => exact ⟨hsame, .other hother hm, rfl⟩
  | missed h => exact ⟨hsame, .other hother hm, rfl⟩
  | emplaced other =>
    have hne : shardId ≠ other := fun heq => hother (congrArg some heq.symm)
    refine ⟨⟨?_, ?_⟩, .other hother hm, rfl⟩
    · rw [hsame.known, isSome_lookup_emplace hne]
    · rw [hsame.current, currentSequence_emplace]
  | added other counter =>
    have hne : shardId ≠ other := fun heq => hother (congrArg some heq.symm)
    refine ⟨⟨hsame.known, ?_⟩, .other nofun hm, if_neg (Ne.symm hne)⟩
    rw [hsame.current, currentSequence_fetchAdd_of_ne (hl other counter rfl) hne]

theorem Effect.own (h : Effect g l e g' l') (hl : Holds g l) (hown : concerns l e = some shardId)
    {p : SequenceNumberGenerator} {m : Control} (hm : Holds p m) (hsame : SameShard shardId g p)
    (hcall : SameCall shardId l m) : ∃ p' m', generator p m e = some (p', m') ∧
      SameShard shardId g' p' ∧ SameCall shardId l' m' ∧
      returns shardId p m e = returns shardId g l e := by
  cases h with
  | call other h =>
    obtain rfl := Option.some.inj hown
    have hfree : m.shard = none := by
      cases hcall with
      | other _ hfree => exact hfree
      | finding | emplacing | adding => cases h
    refine ⟨p, _, generator_call hfree p other, hsame, .finding, ?_⟩
    cases l <;> cases m <;> rfl
  | @found other counter h =>
    obtain rfl := Option.some.inj hown
    cases hcall with
    | other hne => exact absurd rfl hne
    | finding =>
      have hknown := hsame.known
      rw [h, Option.isSome_some, Option.isSome_iff_exists] at hknown
      obtain ⟨counter', h'⟩ := hknown
      refine ⟨p, .adding other counter', ?_, hsame, .adding counter counter', rfl⟩
      simp only [generator, h']
  | @missed other h =>
    obtain rfl := Option.some.inj hown
    cases hcall with
    | other hne => exact absurd rfl hne
    | finding =>
      have hknown := hsame.known
      rw [h, Option.isSome_none, Option.isSome_eq_false_iff, Option.isNone_iff_eq_none] at hknown
      refine ⟨p, .emplacing other, ?_, hsame, .emplacing, rfl⟩
      simp only [generator, hknown]
  | emplaced other =>
    obtain rfl := Option.some.inj hown
    cases hcall with
    | other hne => exact absurd rfl hne
    | emplacing =>
      refine ⟨(p.emplace other).1, .adding other (p.emplace other).2, rfl, ⟨?_, ?_⟩,
        .adding _ _, rfl⟩
      · rw [lookup_emplace, lookup_emplace, Option.isSome_some, Option.isSome_some]
      · rw [currentSequence_emplace, currentSequence_emplace, hsame.current]
  | added other counter =>
    obtain rfl := Option.some.inj hown
    cases hcall with
    | other hne => exact absurd rfl hne
    | adding _ counter' =>
      have hlookup := hl other counter rfl
      have hlookup' := hm other counter' rfl
      refine ⟨(p.fetchAdd counter').2, .returned ((p.fetchAdd counter').1 + 1), rfl,
        ⟨hsame.known, ?_⟩, .other nofun rfl, ?_⟩
      · rw [currentSequence_fetchAdd hlookup, currentSequence_fetchAdd hlookup', hsame.current]
      · simp only [returns, fetchAdd_value hlookup, fetchAdd_value hlookup', hsame.current]

/-- The steps about one shard are a run of their own, with the same values. -/
theorem run_alone {tr : List (T × Event)} (h : exec generator start tr = some c)
    (shardId : ByteString) : ∃ p, exec generator start (stepsOn shardId tr) = some p ∧
      SameShard shardId c.shared p.shared ∧
      (∀ t, SameCall shardId (c.control t) (p.control t)) ∧
      returned shardId (stepsOn shardId tr) = returned shardId tr := by
  induction tr using List.reverseRecOn generalizing c with
  | nil =>
    cases h
    exact ⟨start, rfl, ⟨rfl, rfl⟩, fun _ => .other nofun rfl, rfl⟩
  | append_singleton tr x ih =>
    rw [exec_snoc, Option.bind_eq_some_iff] at h
    obtain ⟨c₀, hrun, hf⟩ := h
    obtain ⟨p, hp, hsame, hcalls, hvalues⟩ := ih hrun
    have hholds := (run_counted hrun shardId).holds
    have hsteps : stepsOn shardId (tr ++ [x]) =
        stepsOn shardId tr ++ stepOn shardId x.1 c₀.shared (c₀.control x.1) x.2 :=
      observed_snoc _ hrun x
    have hreturned : returned shardId (tr ++ [x]) = returned shardId tr ++
        returnedBy shardId x.1 c₀.shared (c₀.control x.1) x.2 := observed_snoc _ hrun x
    rw [hsteps, hreturned]
    by_cases hown : concerns (c₀.control x.1) x.2 = some shardId
    · obtain ⟨p', m', hstep, hsame', hcall, hreturns⟩ := (step_effect hf).own (hholds x.1) hown
        ((run_counted hp shardId).holds x.1) hsame (hcalls x.1)
      have hfire : fire generator p x = some ⟨p', Function.update p.control x.1 m'⟩ := by
        rw [fire, hstep, Option.map_some]
      have hown' : stepOn shardId x.1 c₀.shared (c₀.control x.1) x.2 = [x] := if_pos hown
      refine ⟨⟨p', Function.update p.control x.1 m'⟩, ?_, hsame', ?_, ?_⟩
      · rw [hown', exec_snoc, hp]
        exact hfire
      · intro t
        by_cases ht : t = x.1
        · rw [ht]
          dsimp only
          rwa [Function.update_self]
        · rw [fire_frame hf ht, fire_frame hfire ht]
          exact hcalls t
      · have happend : returned shardId (stepsOn shardId tr ++ [x]) =
            returned shardId (stepsOn shardId tr) ++
              returnedBy shardId x.1 p.shared (p.control x.1) x.2 := observed_snoc _ hp x
        rw [hown', happend, hvalues, returnedBy, hreturns, returnedBy]
    · obtain ⟨hsame', hcall, hnone⟩ :=
        (step_effect hf).other (hholds x.1) hown hsame (hcalls x.1)
      rw [stepOn, if_neg hown, List.append_nil, returnedBy, hnone, Option.map_none,
        Option.toList_none, List.append_nil]
      refine ⟨p, hp, hsame', ?_, hvalues⟩
      intro t
      by_cases ht : t = x.1
      · rw [ht]
        exact hcall
      · rw [fire_frame hf ht]
        exact hcalls t

/-! ### Gap freedom -/

/-- Also while calls are pending: the completed calls of a shard have returned
the numbers from one on without a gap, in the order of their increments, and
the steps of the other shards change nothing of it. -/
theorem gap_free {tr : List (T × Event)} (hrun : exec generator start tr = some c)
    (shardId : ByteString) (hcalls : (returned shardId tr).length < 2 ^ 64) :
    (returned shardId tr).map (fun r => r.2.toNat) =
        List.range' 1 (returned shardId tr).length ∧
      (∀ t, (((returned shardId tr).filter (·.1 = t)).map (·.2.toNat)).Pairwise (· < ·)) ∧
      (c.shared.currentSequence shardId).toNat = (returned shardId tr).length ∧
      ∃ p, exec generator start (stepsOn shardId tr) = some p ∧
        returned shardId (stepsOn shardId tr) = returned shardId tr ∧
        p.shared.currentSequence shardId = c.shared.currentSequence shardId := by
  have hcount := run_counted hrun shardId
  have hvalues : (returned shardId tr).map (fun r => r.2.toNat) =
      List.range' 1 (returned shardId tr).length := by
    have hmap := congrArg (List.map UInt64.toNat) hcount.counted
    rw [List.map_map, List.map_map] at hmap
    refine hmap.trans ((List.map_congr_left ?_).trans (List.map_id _))
    intro n hn
    have hle := (List.mem_range'_1.mp hn).2
    exact UInt64.toNat_ofNat_of_lt' (by rw [UInt64.size]; omega)
  refine ⟨hvalues, ?_, ?_, ?_⟩
  · intro t
    have hall : ((returned shardId tr).map fun r => r.2.toNat).Pairwise (· < ·) := by
      rw [hvalues]
      exact List.pairwise_lt_range'
    rw [List.pairwise_map] at hall ⊢
    exact hall.sublist List.filter_sublist
  · rw [hcount.current]
    exact UInt64.toNat_ofNat_of_lt' hcalls
  · obtain ⟨p, hp, hsame, -, hreturned⟩ := run_alone hrun shardId
    exact ⟨p, hp, hreturned, hsame.current⟩

/-- Both threads miss the shard and emplace a counter for it. -/
def racing : List (Bool × Event) :=
  [(false, .nextSequence (lit "s1")), (true, .nextSequence (lit "s1")), (false, .step),
    (true, .step), (true, .step), (false, .step), (false, .step), (true, .step),
    (false, .nextSequence (lit "s2"))]

theorem racing_gap_free :
    ((returned (lit "s1") racing).map fun r => r.2.toNat) = [1, 2] := by
  have hrun : (exec generator start racing).isSome = true := by decide
  obtain ⟨c, hc⟩ := Option.isSome_iff_exists.mp hrun
  exact (gap_free hc (lit "s1") (by decide)).1.trans (by decide)

end SequenceNumberGenerator
end OpenArangoDBCore.Replication
