import OpenArangoDBCore.Replication.DC2DCReplicator

/-!
# Sequence numbers on the wire

All tail loops draw from one counter, and the target counts per shard. The
numbers of every shard are contiguous exactly if no two shards of the log
have anything to send.
-/

namespace OpenArangoDBCore.Replication
namespace DC2DCReplicator
open Interleaving ShardWALTailer

def firstNumbers (k : ℕ) : List UInt64 := (List.range' 1 k).map UInt64.ofNat

def numbersOf (shardId : ByteString) (handed : List MessageBatch) : List UInt64 :=
  (handed.filter fun b => b.shardId = shardId).map MessageBatch.sequenceNumber

/-- What the target expects: 1, 2, 3, ... from every shard. -/
def ContiguousPerShard (handed : List MessageBatch) : Prop :=
  ∀ shardId, numbersOf shardId handed = firstNumbers (numbersOf shardId handed).length

theorem firstNumbers_succ (k : ℕ) :
    firstNumbers (k + 1) = firstNumbers k ++ [UInt64.ofNat (k + 1)] := by
  unfold firstNumbers
  rw [List.range'_concat, List.map_append, Nat.one_mul, Nat.add_comm 1 k]
  rfl

theorem firstNumbers_length (k : ℕ) : (firstNumbers k).length = k := by
  unfold firstNumbers
  rw [List.length_map, List.length_range']

theorem firstNumbers_prefix {l : List UInt64} {m : ℕ} (h : l <+: firstNumbers m) :
    l = firstNumbers l.length := by
  have hlen := h.length_le
  rw [firstNumbers_length] at hlen
  have htake := List.prefix_iff_eq_take.mp h
  unfold firstNumbers at htake ⊢
  rw [← List.map_take, List.take_range'_of_length_ge hlen] at htake
  exact htake

section Loops
variable (iteratorFactory : UInt32 → List WALEntry) (resolver : CollectionInfoResolver)
  (batchSize numberOfShards : UInt32)

/-- The loop of the shard finds an entry to send. -/
def MaySend (i : UInt32) : Prop :=
  batchSize ≠ 0 ∧ ∃ e ∈ iteratorFactory i, keeps resolver i numberOfShards e = true

/-! ### What one loop keeps -/

structure TailerOf (i : UInt32) (t : ShardWALTailer) : Prop where
  shardIndex : t.shardIndex = i
  shards : t.numberOfShards = numberOfShards
  cacheOk : CacheOk resolver t
  rest : t.iterator.rest <:+ iteratorFactory i

structure BatcherOf (i : UInt32) (b : MessageBatcher) : Prop where
  shardId : b.shardId = shardIdOf i
  pending : b.pending ≠ [] → MaySend iteratorFactory resolver batchSize numberOfShards i

/-- The control of the loop of shard `i`; only a shard with something to send
gets to seal a batch. -/
def LoopOf (i : UInt32) : Control → Prop
  | .owner => False
  | .starting k => k = i
  | .looping t b => TailerOf iteratorFactory resolver numberOfShards i t ∧
      BatcherOf iteratorFactory resolver batchSize numberOfShards i b
  | .adding t b es _ => TailerOf iteratorFactory resolver numberOfShards i t ∧
      BatcherOf iteratorFactory resolver batchSize numberOfShards i b ∧
      (es ≠ [] → MaySend iteratorFactory resolver batchSize numberOfShards i)
  | .sealing t b _ => TailerOf iteratorFactory resolver numberOfShards i t ∧
      BatcherOf iteratorFactory resolver batchSize numberOfShards i b ∧
      MaySend iteratorFactory resolver batchSize numberOfShards i
  | .handing batch t b _ => TailerOf iteratorFactory resolver numberOfShards i t ∧
      BatcherOf iteratorFactory resolver batchSize numberOfShards i b ∧
      MaySend iteratorFactory resolver batchSize numberOfShards i ∧ batch.shardId = shardIdOf i
  | .done => True

variable {iteratorFactory resolver batchSize numberOfShards}

theorem TailerOf.polled {i : UInt32} {t : ShardWALTailer} {r : List WALEntry × ShardWALTailer}
    (h : TailerOf iteratorFactory resolver numberOfShards i t)
    (hp : Polled resolver batchSize t t.iterator.rest [] r) :
    TailerOf iteratorFactory resolver numberOfShards i r.2 ∧
      (r.1 ≠ [] → MaySend iteratorFactory resolver batchSize numberOfShards i) := by
  obtain ⟨passed, hrest, hres⟩ := hp.consumed
  rw [List.nil_append, h.shardIndex, h.shards] at hres
  constructor
  · refine ⟨hp.shardIndex.trans h.shardIndex, hp.numberOfShards.trans h.shards, hp.cacheOk, ?_⟩
    have hsuffix : r.2.iterator.rest <:+ t.iterator.rest := ⟨passed, hrest.symm⟩
    exact hsuffix.trans h.rest
  · intro hne
    obtain ⟨e, he⟩ := List.exists_mem_of_ne_nil _ hne
    constructor
    · intro hzero
      have hbound := hp.bounded
      have hpos := List.length_pos_of_ne_nil hne
      rw [hzero, UInt32.toNat_zero] at hbound
      omega
    · rw [hres] at he
      obtain ⟨hmem, hkeep⟩ := List.mem_filter.mp he
      have hin : e ∈ t.iterator.rest := by
        rw [hrest]
        exact List.mem_append_left _ hmem
      exact ⟨e, h.rest.subset hin, hkeep⟩

theorem flush_loopOf {i : UInt32} {t : ShardWALTailer} {b : MessageBatcher} {after : After}
    (ht : TailerOf iteratorFactory resolver numberOfShards i t)
    (hb : BatcherOf iteratorFactory resolver batchSize numberOfShards i b)
    (hafter : after = .looping ∨ after = .leaving) :
    LoopOf iteratorFactory resolver batchSize numberOfShards i (flush t b after) := by
  unfold flush
  split
  · cases hafter with
    | inl h => rw [h]; exact ⟨ht, hb⟩
    | inr h => rw [h]; exact trivial
  next hne => exact ⟨ht, hb, hb.pending hne⟩

theorem loopOf_step {i : UInt32} {r r' : DC2DCReplicator} {l l' : Control} {e : Event}
    (hbs : r.batchSize = batchSize) (hns : r.numberOfShards = numberOfShards)
    (hl : LoopOf iteratorFactory resolver batchSize numberOfShards i l)
    (h : shardTailLoop iteratorFactory resolver r l e = some (r', l')) :
    LoopOf iteratorFactory resolver batchSize numberOfShards i l' := by
  unfold shardTailLoop at h
  split at h
  next => exact absurd hl id
  next k =>
    cases h
    rw [show k = i from hl, hns]
    refine ⟨⟨rfl, rfl, ?_, List.suffix_refl _⟩, ⟨rfl, fun hne => absurd rfl hne⟩⟩
    intro name info hi
    cases hi
  next t b =>
    obtain ⟨ht, hb⟩ := hl
    split at h
    · cases h
      have hp := poll_spec t r.batchSize ht.cacheOk
      rw [hbs] at hp
      obtain ⟨ht', hes⟩ := ht.polled hp
      rw [hbs]
      exact ⟨ht', hb, hes⟩
    · cases h
      exact flush_loopOf ht hb (.inr rfl)
  next t b entry rest polled =>
    obtain ⟨ht, hb, hes⟩ := hl
    have hmay := hes (List.cons_ne_nil _ _)
    have hb' : BatcherOf iteratorFactory resolver batchSize numberOfShards i (b.push entry) :=
      ⟨hb.shardId, fun _ => hmay⟩
    cases h
    split
    · exact ⟨ht, hb', hmay⟩
    · exact ⟨ht, hb', fun _ => hmay⟩
  next t b polled =>
    obtain ⟨ht, hb, -⟩ := hl
    cases h
    split
    · exact ⟨ht, hb⟩
    · exact flush_loopOf ht hb (.inl rfl)
  next t b after now =>
    obtain ⟨ht, hb, hmay⟩ := hl
    cases h
    exact ⟨ht, ⟨hb.shardId, fun hne => absurd rfl hne⟩, hmay, hb.shardId⟩
  next batch t b after =>
    obtain ⟨ht, hb, hmay, -⟩ := hl
    cases h
    cases after with
    | adding es => exact ⟨ht, hb, fun _ => hmay⟩
    | looping => exact ⟨ht, hb⟩
    | leaving => exact trivial
  next => cases h

/-! ### One sending shard -/

def inFlight : Control → List UInt64
  | .handing batch _ _ _ => [batch.sequenceNumber]
  | _ => []

inductive Effect (r : DC2DCReplicator) (l : Control) (r' : DC2DCReplicator) (l' : Control) : Prop
  | quiet (before : inFlight l = []) (after : inFlight l' = []) (counter : r'.counter = r.counter)
      (handed : r'.handed = r.handed)
  | drawn (t : ShardWALTailer) (b : MessageBatcher) (a : After) (before : l = .sealing t b a)
      (after : inFlight l' = [r.counter + 1]) (counter : r'.counter = r.counter + 1)
      (handed : r'.handed = r.handed)
  | handed (batch : MessageBatch) (t : ShardWALTailer) (b : MessageBatcher) (a : After)
      (before : l = .handing batch t b a) (after : inFlight l' = [])
      (counter : r'.counter = r.counter) (handed : r'.handed = r.handed ++ [batch])

theorem inFlight_control (t : ShardWALTailer) (b : MessageBatcher) (a : After) :
    inFlight (a.control t b) = [] := by
  cases a <;> rfl

theorem inFlight_flush (t : ShardWALTailer) (b : MessageBatcher) (a : After) :
    inFlight (flush t b a) = [] := by
  unfold flush
  split
  · exact inFlight_control t b a
  · rfl

/-- The sizes stay, and so does the owner. -/
structure Frame (r : DC2DCReplicator) (l : Control) (r' : DC2DCReplicator) (l' : Control) :
    Prop where
  batchSize : r'.batchSize = r.batchSize
  numberOfShards : r'.numberOfShards = r.numberOfShards
  owner : l = .owner → l' = .owner

theorem step_effect {r r' : DC2DCReplicator} {l l' : Control} {e : Event}
    (h : shardTailLoop iteratorFactory resolver r l e = some (r', l')) :
    Frame r l r' l' ∧ Effect r l r' l' := by
  unfold shardTailLoop at h
  split at h
  next =>
    cases h
    exact ⟨⟨rfl, rfl, fun _ => rfl⟩, .quiet rfl rfl rfl rfl⟩
  next =>
    cases h
    exact ⟨⟨rfl, rfl, fun hl => nomatch hl⟩, .quiet rfl rfl rfl rfl⟩
  next =>
    split at h
    · cases h
      exact ⟨⟨rfl, rfl, fun hl => nomatch hl⟩, .quiet rfl rfl rfl rfl⟩
    · cases h
      exact ⟨⟨rfl, rfl, fun hl => nomatch hl⟩, .quiet rfl (inFlight_flush _ _ _) rfl rfl⟩
  next =>
    cases h
    refine ⟨⟨rfl, rfl, fun hl => nomatch hl⟩, .quiet rfl ?_ rfl rfl⟩
    split <;> rfl
  next =>
    cases h
    refine ⟨⟨rfl, rfl, fun hl => nomatch hl⟩, .quiet rfl ?_ rfl rfl⟩
    split
    · rfl
    · exact inFlight_flush _ _ _
  next t b a now =>
    cases h
    exact ⟨⟨rfl, rfl, fun hl => nomatch hl⟩, .drawn t b a rfl rfl rfl rfl⟩
  next batch t b a =>
    cases h
    exact ⟨⟨rfl, rfl, fun hl => nomatch hl⟩,
      .handed batch t b a rfl (inFlight_control t b a) rfl rfl⟩
  next => cases h

abbrev Wire (numberOfShards : UInt32) :=
  Config (Option (Fin numberOfShards.toNat)) DC2DCReplicator Control

/- `sender` is the only thread that may send, `none` if there is no such. -/
variable (iteratorFactory resolver batchSize numberOfShards) in
structure WireInv (sender : Option (Fin numberOfShards.toNat)) (c : Wire numberOfShards) :
    Prop where
  sizes : c.shared.batchSize = batchSize ∧ c.shared.numberOfShards = numberOfShards
  owner : c.control none = .owner
  loops : ∀ i : Fin numberOfShards.toNat,
    LoopOf iteratorFactory resolver batchSize numberOfShards (UInt32.ofNat i) (c.control (some i))
  numbers : ∃ m, c.shared.counter = UInt64.ofNat m ∧
    c.shared.handed.map MessageBatch.sequenceNumber ++ inFlight (c.control sender) =
      firstNumbers m
  shards : ∀ batch ∈ c.shared.handed, ∃ i, sender = some i ∧
    batch.shardId = shardIdOf (UInt32.ofNat i)

section OneSender
variable {sender : Option (Fin numberOfShards.toNat)}
  (hone : ∀ i : Fin numberOfShards.toNat,
    MaySend iteratorFactory resolver batchSize numberOfShards (UInt32.ofNat i) → sender = some i)

theorem wireInv_start : WireInv iteratorFactory resolver batchSize numberOfShards sender
    (start batchSize numberOfShards) := by
  refine ⟨⟨rfl, rfl⟩, rfl, fun _ => rfl, ⟨0, rfl, ?_⟩, fun _ hb => nomatch hb⟩
  cases sender <;> rfl

include hone

/-- A thread that draws or hands over is the sender. -/
theorem WireInv.sender_of {c : Wire numberOfShards}
    (h : WireInv iteratorFactory resolver batchSize numberOfShards sender c)
    (k : Option (Fin numberOfShards.toNat))
    (hk : (∃ t b a, c.control k = .sealing t b a) ∨
      ∃ batch t b a, c.control k = .handing batch t b a) : k = sender := by
  cases k with
  | none =>
    rw [h.owner] at hk
    obtain ⟨t, b, a, heq⟩ | ⟨batch, t, b, a, heq⟩ := hk
    · cases heq
    · cases heq
  | some i =>
    have hl := h.loops i
    obtain ⟨t, b, a, heq⟩ | ⟨batch, t, b, a, heq⟩ := hk
    · rw [heq] at hl
      exact (hone i hl.2.2).symm
    · rw [heq] at hl
      exact (hone i hl.2.2.1).symm

section Step
variable {c : Wire numberOfShards} {k : Option (Fin numberOfShards.toNat)} {r' : DC2DCReplicator}
  {l' : Control}

/-- A number is drawn by the sender, and handed over before the next one is. -/
theorem WireInv.numbers_step
    (h : WireInv iteratorFactory resolver batchSize numberOfShards sender c)
    (heff : Effect c.shared (c.control k) r' l') :
    ∃ m, r'.counter = UInt64.ofNat m ∧
      r'.handed.map MessageBatch.sequenceNumber ++
        inFlight (Function.update c.control k l' sender) = firstNumbers m := by
  obtain ⟨m, hcounter, hnumbers⟩ := h.numbers
  cases heff with
  | quiet before after counter handed =>
    refine ⟨m, counter.trans hcounter, ?_⟩
    have hkeep : inFlight (Function.update c.control k l' sender) =
        inFlight (c.control sender) := by
      by_cases hk : sender = k
      · subst hk
        rw [Function.update_self, after, before]
      · rw [Function.update_of_ne hk]
    simpa only [handed, hkeep] using hnumbers
  | drawn t b a before after counter handed =>
    have hk := h.sender_of hone k (.inl ⟨t, b, a, before⟩)
    subst hk
    have hnone : inFlight (c.control k) = [] := by
      rw [before]
      rfl
    rw [hnone, List.append_nil] at hnumbers
    refine ⟨m + 1, ?_, ?_⟩
    · rw [counter, hcounter]
      exact (UInt64.ofNat_add m 1).symm
    · rw [Function.update_self, after, handed, hnumbers, hcounter, firstNumbers_succ,
        UInt64.ofNat_add]
      rfl
  | handed batch t b a before after counter handed =>
    have hk := h.sender_of hone k (.inr ⟨batch, t, b, a, before⟩)
    subst hk
    refine ⟨m, counter.trans hcounter, ?_⟩
    rw [before] at hnumbers
    rw [Function.update_self, after, handed, List.append_nil, List.map_append]
    exact hnumbers

/-- What is handed over comes from the loop of the sender. -/
theorem WireInv.shards_step
    (h : WireInv iteratorFactory resolver batchSize numberOfShards sender c)
    (heff : Effect c.shared (c.control k) r' l') :
    ∀ batch ∈ r'.handed, ∃ i, sender = some i ∧ batch.shardId = shardIdOf (UInt32.ofNat i) := by
  intro batch' hb'
  cases heff with
  | quiet before after counter handed => exact h.shards batch' (handed ▸ hb')
  | drawn t b a before after counter handed => exact h.shards batch' (handed ▸ hb')
  | handed batch t b a before after counter handed =>
    rw [handed] at hb'
    cases List.mem_append.mp hb' with
    | inl hold => exact h.shards batch' hold
    | inr hnew =>
      have hk := h.sender_of hone k (.inr ⟨batch, t, b, a, before⟩)
      rw [List.mem_singleton.mp hnew]
      cases k with
      | none =>
        rw [h.owner] at before
        cases before
      | some i =>
        have hl := h.loops i
        rw [before] at hl
        exact ⟨i, hk.symm, hl.2.2.2⟩

end Step

theorem wireInv_step {c c' : Wire numberOfShards}
    {x : Option (Fin numberOfShards.toNat) × Event}
    (h : WireInv iteratorFactory resolver batchSize numberOfShards sender c)
    (hf : fire (shardTailLoop iteratorFactory resolver) c x = some c') :
    WireInv iteratorFactory resolver batchSize numberOfShards sender c' := by
  obtain ⟨k, e⟩ := x
  obtain ⟨r', l', hp, rfl⟩ := fire_inv hf
  obtain ⟨⟨hbs, hns, howner⟩, heff⟩ := step_effect hp
  refine ⟨⟨hbs.trans h.sizes.1, hns.trans h.sizes.2⟩, ?_, ?_, h.numbers_step hone heff,
    h.shards_step hone heff⟩
  · cases k with
    | none => simpa using howner h.owner
    | some i => simpa using h.owner
  · intro j
    by_cases hj : some j = k
    · subst hj
      simpa using loopOf_step h.sizes.1 h.sizes.2 (h.loops j) hp
    · simpa [Function.update_of_ne hj] using h.loops j

/-- One shard with something to send has the counter for itself. -/
theorem contiguous_of_one {c : Wire numberOfShards}
    {tr : List (Option (Fin numberOfShards.toNat) × Event)}
    (h : exec (shardTailLoop iteratorFactory resolver) (start batchSize numberOfShards) tr =
      some c) : ContiguousPerShard c.shared.handed := by
  have hinv := exec_invariant
    (fun _ c => WireInv iteratorFactory resolver batchSize numberOfShards sender c)
    (fun _ _ _ _ hI hf => wireInv_step hone hI hf) tr _ c wireInv_start h
  obtain ⟨m, -, hnumbers⟩ := hinv.numbers
  have hpre : c.shared.handed.map MessageBatch.sequenceNumber <+: firstNumbers m :=
    ⟨_, hnumbers⟩
  intro shardId
  by_cases hs : ∃ batch ∈ c.shared.handed, batch.shardId = shardId
  · obtain ⟨batch, hb, rfl⟩ := hs
    obtain ⟨i, hi, hbi⟩ := hinv.shards batch hb
    have hall : numbersOf batch.shardId c.shared.handed =
        c.shared.handed.map MessageBatch.sequenceNumber := by
      unfold numbersOf
      congr 1
      rw [List.filter_eq_self]
      intro other ho
      obtain ⟨j, hj, hoj⟩ := hinv.shards other ho
      rw [hi] at hj
      obtain rfl := Option.some.inj hj
      rw [hbi, hoj]
      exact decide_eq_true rfl
    rw [hall]
    exact firstNumbers_prefix hpre
  · have hnone : numbersOf shardId c.shared.handed = [] := by
      unfold numbersOf
      rw [List.map_eq_nil_iff, List.filter_eq_nil_iff]
      intro batch hb heq
      exact hs ⟨batch, hb, of_decide_eq_true heq⟩
    rw [hnone]
    rfl

end OneSender

/-! ### Two sending shards -/

def Reaches (iteratorFactory : UInt32 → List WALEntry) (resolver : CollectionInfoResolver)
    (r : DC2DCReplicator) (l l' : Control) : Prop :=
  ∃ es, alone (shardTailLoop iteratorFactory resolver) r l es = some (r, l')

theorem Reaches.trans {r : DC2DCReplicator} {l l₁ l₂ : Control}
    (h : Reaches iteratorFactory resolver r l l₁) (h' : Reaches iteratorFactory resolver r l₁ l₂) :
    Reaches iteratorFactory resolver r l l₂ := by
  obtain ⟨es, hes⟩ := h
  obtain ⟨es', hes'⟩ := h'
  refine ⟨es ++ es', ?_⟩
  rw [alone_append, hes]
  exact hes'

theorem Reaches.step {r : DC2DCReplicator} {l l' : Control}
    (h : shardTailLoop iteratorFactory resolver r l .step = some (r, l')) :
    Reaches iteratorFactory resolver r l l' := by
  refine ⟨[.step], ?_⟩
  rw [alone, h]
  rfl

variable (iteratorFactory resolver) in
theorem reaches_of_poll (r : DC2DCReplicator) (htailing : r.tailing = true) (t : ShardWALTailer)
    (b : MessageBatcher) : Reaches iteratorFactory resolver r (.looping t b)
      (.adding (t.poll resolver r.batchSize).2 b (t.poll resolver r.batchSize).1
        (!(t.poll resolver r.batchSize).1.isEmpty)) := by
  apply Reaches.step
  unfold shardTailLoop
  dsimp only
  rw [if_pos htailing]

def AtSeal (shardId : ByteString) : Control → Prop
  | .sealing _ b _ => b.shardId = shardId
  | _ => False

variable (iteratorFactory resolver) in
/-- With something pending, the loop of polled entries ends in a seal or with
something still pending. -/
theorem reaches_of_adding (r : DC2DCReplicator) (t : ShardWALTailer) (b : MessageBatcher)
    (entries : List WALEntry) (h : b.pending ++ entries ≠ []) :
    ∃ l, Reaches iteratorFactory resolver r (.adding t b entries true) l ∧
      (AtSeal b.shardId l ∨
        ∃ b', l = .looping t b' ∧ b'.shardId = b.shardId ∧ b'.pending ≠ []) := by
  induction entries generalizing b with
  | nil =>
    rw [List.append_nil] at h
    exact ⟨_, Reaches.step rfl, .inr ⟨b, rfl, rfl, h⟩⟩
  | cons entry rest ih =>
    have hpending : (b.push entry).pending ++ rest ≠ [] := by
      show (b.pending ++ [entry]) ++ rest ≠ []
      simp
    by_cases hfull : (b.push entry).full = true
    · refine ⟨.sealing t (b.push entry) (.adding rest), Reaches.step ?_, .inl rfl⟩
      unfold shardTailLoop
      dsimp only
      rw [if_pos hfull]
    · obtain ⟨l, hl, hend⟩ := ih (b.push entry) hpending
      refine ⟨l, Reaches.trans (Reaches.step ?_) hl, hend⟩
      unfold shardTailLoop
      dsimp only
      rw [if_neg hfull]

theorem shortened_of_polled {maxEntries : UInt32} {t : ShardWALTailer}
    {r : List WALEntry × ShardWALTailer} (h : Polled resolver maxEntries t t.iterator.rest [] r)
    (hne : r.1 ≠ []) : r.2.iterator.rest.length < t.iterator.rest.length := by
  obtain ⟨passed, hrest, hres⟩ := h.consumed
  have hpassed : passed ≠ [] := by
    intro hnil
    rw [hnil] at hres
    exact hne hres
  have hpos := List.length_pos_of_ne_nil hpassed
  have hlen := congrArg List.length hrest
  rw [List.length_append] at hlen
  omega

/-- The next poll finds entries, or the pending ones are flushed: each round
shortens what is left of the log. -/
theorem reaches_seal_of_pending (r : DC2DCReplicator) (htailing : r.tailing = true)
    (k : ℕ) (t : ShardWALTailer) (b : MessageBatcher) (hk : t.iterator.rest.length < k)
    (hcache : CacheOk resolver t) (hpending : b.pending ≠ []) :
    ∃ l, Reaches iteratorFactory resolver r (.looping t b) l ∧ AtSeal b.shardId l := by
  induction k generalizing t b with
  | zero => exact absurd hk (Nat.not_lt_zero _)
  | succ k ih =>
    have hp := poll_spec t r.batchSize hcache
    have hround := reaches_of_poll iteratorFactory resolver r htailing t b
    generalize t.poll resolver r.batchSize = polled at hp hround
    cases hentries : polled.1 with
    | nil =>
      rw [hentries] at hround
      have hflush : Reaches iteratorFactory resolver r (.adding polled.2 b [] false)
          (.sealing polled.2 b .looping) := by
        apply Reaches.step
        unfold shardTailLoop flush
        dsimp only
        rw [if_neg hpending]
        rfl
      exact ⟨_, hround.trans hflush, rfl⟩
    | cons entry rest =>
      rw [hentries] at hround
      have hless := shortened_of_polled hp (by rw [hentries]; exact List.cons_ne_nil _ _)
      obtain ⟨l, hl, hend⟩ := reaches_of_adding iteratorFactory resolver r polled.2 b
        (entry :: rest) (fun h => List.cons_ne_nil _ _ (List.append_eq_nil_iff.mp h).2)
      cases hend with
      | inl hseal => exact ⟨l, hround.trans hl, hseal⟩
      | inr hloop =>
        obtain ⟨b', rfl, hshard, hpending'⟩ := hloop
        obtain ⟨l', hl', hseal⟩ := ih polled.2 b' (by omega) hp.cacheOk hpending'
        rw [hshard] at hseal
        exact ⟨l', (hround.trans hl).trans hl', hseal⟩

theorem polled_of_maySend {i : UInt32} {t : ShardWALTailer}
    {r : List WALEntry × ShardWALTailer}
    (hp : Polled resolver batchSize t t.iterator.rest [] r)
    (ht : TailerOf iteratorFactory resolver numberOfShards i t)
    (hall : t.iterator.rest = iteratorFactory i) (hrunning : t.stopped = false)
    (h : MaySend iteratorFactory resolver batchSize numberOfShards i) : r.1 ≠ [] := by
  obtain ⟨hbatch, entry, hentry, hkeep⟩ := h
  cases hp.ended with
  | inl hend =>
    obtain ⟨passed, hrest, hres⟩ := hp.consumed
    rw [hend, List.append_nil, hall] at hrest
    rw [ht.shardIndex, ht.shards, ← hrest] at hres
    have hmem : entry ∈ r.1 := by
      rw [hres]
      exact List.mem_filter.mpr ⟨hentry, hkeep⟩
    exact List.ne_nil_of_mem hmem
  | inr hlater =>
    cases hlater with
    | inl hstopped =>
      rw [hrunning] at hstopped
      cases hstopped
    | inr hfull =>
      intro hnil
      rw [hnil] at hfull
      apply hbatch
      rw [← UInt32.toNat_inj, UInt32.toNat_zero]
      exact Nat.le_zero.mp hfull

/-- A shard with something to send gets to its first seal by itself. -/
theorem reaches_seal_of_starting {r : DC2DCReplicator} (htailing : r.tailing = true)
    (hbs : r.batchSize = batchSize) (hns : r.numberOfShards = numberOfShards) {i : UInt32}
    (h : MaySend iteratorFactory resolver batchSize numberOfShards i) :
    ∃ l, Reaches iteratorFactory resolver r (.starting i) l ∧ AtSeal (shardIdOf i) l := by
  subst hbs
  subst hns
  let t := ShardWALTailer.new i r.numberOfShards (.new (iteratorFactory i))
  let b := MessageBatcher.new (shardIdOf i) r.batchSize
  have hstart : Reaches iteratorFactory resolver r (.starting i) (.looping t b) := Reaches.step rfl
  have ht : TailerOf iteratorFactory resolver r.numberOfShards i t := by
    refine ⟨rfl, rfl, ?_, List.suffix_refl _⟩
    intro name info hinfo
    cases hinfo
  have hp := poll_spec t r.batchSize ht.cacheOk
  have hround := reaches_of_poll iteratorFactory resolver r htailing t b
  generalize t.poll resolver r.batchSize = polled at hp hround
  have hne := polled_of_maySend hp ht rfl rfl h
  have hempty : (!polled.1.isEmpty) = true := by
    rw [List.isEmpty_eq_false_iff.mpr hne]
    rfl
  rw [hempty] at hround
  obtain ⟨l, hl, hend⟩ := reaches_of_adding iteratorFactory resolver r polled.2 b polled.1 hne
  have hfirst := (hstart.trans hround).trans hl
  cases hend with
  | inl hseal => exact ⟨l, hfirst, hseal⟩
  | inr hloop =>
    obtain ⟨b', rfl, hshard, hpending⟩ := hloop
    obtain ⟨l', hl', hseal⟩ := reaches_seal_of_pending r htailing _ polled.2 b'
      (Nat.lt_succ_self _) hp.cacheOk hpending
    rw [hshard] at hseal
    exact ⟨l', hfirst.trans hl', hseal⟩

theorem first_batch_of_starting {r : DC2DCReplicator} (htailing : r.tailing = true)
    (hbs : r.batchSize = batchSize) (hns : r.numberOfShards = numberOfShards) {i : UInt32}
    (h : MaySend iteratorFactory resolver batchSize numberOfShards i) :
    ∃ es l batch, alone (shardTailLoop iteratorFactory resolver) r (.starting i) es =
        some ({r with counter := r.counter + 1, handed := r.handed ++ [batch]}, l) ∧
      batch.shardId = shardIdOf i ∧ batch.sequenceNumber = r.counter + 1 := by
  obtain ⟨l, ⟨es, hes⟩, hseal⟩ := reaches_seal_of_starting htailing hbs hns h
  cases l with
  | sealing t b a =>
    refine ⟨es ++ [.draw 0, .hand], a.control t (b.sealBatch (r.counter + 1) 0).2,
      (b.sealBatch (r.counter + 1) 0).1, ?_, hseal, rfl⟩
    rw [alone_append, hes]
    rfl
  | owner => exact absurd hseal id
  | starting i => exact absurd hseal id
  | looping t b => exact absurd hseal id
  | adding t b es p => exact absurd hseal id
  | handing batch t b a => exact absurd hseal id
  | done => exact absurd hseal id

theorem shardIdOf_injective {i j : Fin numberOfShards.toNat}
    (h : shardIdOf (UInt32.ofNat i) = shardIdOf (UInt32.ofNat j)) : i = j := by
  have hdec := decimal_injective (List.append_cancel_left h)
  have hi := i.isLt.trans numberOfShards.toNat_lt
  have hj := j.isLt.trans numberOfShards.toNat_lt
  rw [UInt32.toNat_ofNat_of_lt' hi, UInt32.toNat_ofNat_of_lt' hj] at hdec
  exact Fin.ext hdec

/-- The second of two sending shards begins with 2. -/
theorem begins_with_two {i j : Fin numberOfShards.toNat} (hij : i ≠ j)
    (hi : MaySend iteratorFactory resolver batchSize numberOfShards (UInt32.ofNat i))
    (hj : MaySend iteratorFactory resolver batchSize numberOfShards (UInt32.ofNat j)) :
    ∃ tr c, exec (shardTailLoop iteratorFactory resolver) (start batchSize numberOfShards) tr =
        some c ∧ numbersOf (shardIdOf (UInt32.ofNat j)) c.shared.handed = [2] := by
  let first : Wire numberOfShards := start batchSize numberOfShards
  obtain ⟨es, l, batch, hes, hshard, -⟩ :=
    first_batch_of_starting (r := first.shared) rfl rfl rfl hi
  have hfirst := exec_alone (c := first) (t := some i) hes
  let second : Wire numberOfShards :=
    ⟨⟨batchSize, numberOfShards, true, 1, [batch]⟩, Function.update first.control (some i) l⟩
  have hcontrol : second.control (some j) = .starting (UInt32.ofNat j) :=
    Function.update_of_ne (fun h => hij (Option.some.inj h).symm) l first.control
  obtain ⟨es', l', batch', hes', hshard', hnumber'⟩ :=
    first_batch_of_starting (r := second.shared) rfl rfl rfl hj
  rw [← hcontrol] at hes'
  have hsecond := exec_alone (c := second) (t := some j) hes'
  have hrun : exec (shardTailLoop iteratorFactory resolver) first
      (es.map (fun e => (some i, e)) ++ es'.map fun e => (some j, e)) = _ := exec_append _ _ _
  rw [hfirst] at hrun
  refine ⟨_, _, hrun.trans hsecond, ?_⟩
  have hother : batch.shardId ≠ shardIdOf (UInt32.ofNat j) := by
    rw [hshard]
    exact fun h => hij (shardIdOf_injective h)
  have hnumber : batch'.sequenceNumber = 2 := hnumber'
  show numbersOf _ [batch, batch'] = [2]
  unfold numbersOf
  rw [List.filter_cons_of_neg (by simpa using hother),
    List.filter_cons_of_pos (by simpa using hshard'), List.filter_nil, List.map_singleton, hnumber]

/-- In every interleaving of the tail loops the numbers of each shard are
1, 2, 3, ...: this is so exactly if at most one shard has an entry to send. -/
theorem contiguous_iff_one_sender (iteratorFactory : UInt32 → List WALEntry)
    (resolver : CollectionInfoResolver) (batchSize numberOfShards : UInt32) :
    (∀ tr c, exec (shardTailLoop iteratorFactory resolver) (start batchSize numberOfShards) tr =
      some c → ContiguousPerShard c.shared.handed) ↔
    ∀ i j : Fin numberOfShards.toNat,
      MaySend iteratorFactory resolver batchSize numberOfShards (UInt32.ofNat i) →
      MaySend iteratorFactory resolver batchSize numberOfShards (UInt32.ofNat j) → i = j := by
  constructor
  · intro hall i j hi hj
    by_contra hij
    obtain ⟨tr, c, hrun, hnumbers⟩ := begins_with_two hij hi hj
    have hcontiguous := hall tr c hrun (shardIdOf (UInt32.ofNat j))
    rw [hnumbers] at hcontiguous
    exact absurd hcontiguous (by decide)
  · intro hone tr c hrun
    by_cases hsome : ∃ i : Fin numberOfShards.toNat,
        MaySend iteratorFactory resolver batchSize numberOfShards (UInt32.ofNat i)
    · obtain ⟨k, hk⟩ := hsome
      exact contiguous_of_one (fun i hi => congrArg some (hone k i hk hi)) hrun
    · have hnobody : ∀ i : Fin numberOfShards.toNat,
          MaySend iteratorFactory resolver batchSize numberOfShards (UInt32.ofNat i) →
            none = some i := fun i hi => absurd ⟨i, hi⟩ hsome
      exact contiguous_of_one hnobody hrun

/- Two shards with one entry each, one after the other. -/
def oneThenOther : List (Option (Fin (UInt32.toNat 2)) × Event) :=
  ([.step, .step, .step, .draw 7, .hand].map fun e => (some ⟨0, by decide⟩, e)) ++
    [.step, .step, .step, .draw 8, .hand].map fun e => (some ⟨1, by decide⟩, e)

/-- The only batch of the second shard has number 2. -/
theorem second_shard_begins_with_two :
    ∃ c, exec (shardTailLoop
        (fun _ => [⟨1, 0, lit "c", lit "a", .kInsert, []⟩, ⟨2, 0, lit "c", lit "b", .kInsert, []⟩])
        (fun _ => none)) (start 1 2) oneThenOther = some c ∧
      c.shared.handed.map (fun b => (b.shardId, b.sequenceNumber, b.entries.map (·.documentKey))) =
        [(lit "shard_0", 1, [lit "a"]), (lit "shard_1", 2, [lit "b"])] ∧
      ¬ ContiguousPerShard c.shared.handed := by
  refine ⟨_, rfl, ?_, ?_⟩
  · decide +kernel
  · intro h
    exact absurd (h (lit "shard_1")) (by decide +kernel)

end Loops
end DC2DCReplicator
end OpenArangoDBCore.Replication
