import OpenArangoDBCore.Replication.ReplicationCheckpoint

/-!
# Checkpoints that were cut off

`load` notices a cut in front of the shards, inside a key and behind a colon.
At any other place it succeeds, without the rest of the shards and with the
digits that are left of a number.
-/

namespace OpenArangoDBCore.Replication.ReplicationCheckpoint
open Delimited
open RocksDBEngine.BackupManifest (quote isDigit stoull stoull_eq)

/-- `load` of a file with this content fails and leaves the tracker alone. -/
def Rejects (content : ByteString) : Prop :=
  ∀ path tmpFile target, ∃ error,
    load path true ⟨some content, tmpFile⟩ target = (⟨false, error⟩, target)

theorem rejects_iff {content : ByteString} :
    Rejects content ↔ ∃ error, parse content = .error error := by
  unfold Rejects load
  constructor
  · intro h
    obtain ⟨error, herror⟩ := h [] none .new
    cases hparse : parse content with
    | error e => exact ⟨e, rfl⟩
    | ok state =>
      dsimp only at herror
      rw [if_neg (by decide), hparse] at herror
      cases herror
  · rintro ⟨error, hparse⟩ path tmpFile target
    refine ⟨error, ?_⟩
    dsimp only
    rw [if_neg (by decide), hparse]

/-! ### Texts without a valid entry where one begins -/

/-- After entries that can be read the text ends inside a key, or a colon is
not followed by a number of 64 bits. -/
inductive Malformed : ByteString → Prop where
  | unterminated {gap key : ByteString} (hgap : quote ∉ gap) (hkey : quote ∉ key) :
      Malformed (gap ++ quote :: key)
  | noNumber {text key rest : ByteString} (h : Opens text key rest) (hstop : StopsAt isDigit rest) :
      Malformed text
  | tooLarge {text key digits rest : ByteString} (h : Opens text key (digits ++ rest))
      (hdigits : ∀ b ∈ digits, isDigit b = true) (hlarge : 2 ^ 64 ≤ digitsValue digits)
      (hstop : StopsAt isDigit rest) : Malformed text
  | later {text key digits rest : ByteString} (h : Opens text key (digits ++ rest))
      (hne : digits ≠ []) (hdigits : ∀ b ∈ digits, isDigit b = true)
      (hfits : digitsValue digits < 2 ^ 64) (hstop : StopsAt isDigit rest)
      (hrest : Malformed rest) : Malformed text

theorem parseNumber_none {rest : ByteString} (hstop : StopsAt isDigit rest) (key : ByteString) :
    parseNumber key rest =
      .fails (lit "Checkpoint file has non-numeric sequence for shard: " ++ key) := by
  have hnone : ([] ++ rest).takeWhile isDigit = [] := hstop.takeWhile (by simp)
  unfold parseNumber
  exact if_pos hnone

theorem Malformed.error {text : ByteString} (h : Malformed text) (state : ShardState) :
    ∃ error, parseBody text state = .error error := by
  induction h generalizing state with
  | unterminated hgap hkey =>
    rw [parseBody_eq, parseEntry_of_unterminated hgap hkey]
    exact ⟨_, rfl⟩
  | noNumber h hstop =>
    rw [parseBody_eq, h.parseEntry_eq, parseNumber_none hstop]
    exact ⟨_, rfl⟩
  | @tooLarge text key digits rest h hdigits hlarge hstop =>
    have hne : digits ≠ [] := by
      rintro rfl
      exact absurd hlarge (by decide)
    rw [parseBody_eq, h.parseEntry_eq, parseNumber_digits hne hdigits hstop, stoull_eq,
      if_neg (not_lt.mpr hlarge)]
    exact ⟨_, rfl⟩
  | later h hne hdigits hfits hstop _ ih =>
    rw [parseBody_eq, h.parseEntry_eq, parseNumber_digits hne hdigits hstop, stoull_eq,
      if_pos hfits]
    exact ih _

theorem malformed_of_error {text error : ByteString} {state : ShardState}
    (h : parseBody text state = .error error) : Malformed text := by
  induction hlen : text.length using Nat.strong_induction_on generalizing text state with
  | _ n ih =>
    rw [parseBody_eq] at h
    rcases ends_or_opens text with hends | ⟨gap, key, hgap, hkey, rfl⟩ | ⟨key, number, hopens⟩
    · rw [hends.parseEntry_eq] at h
      cases h
    · exact .unterminated hgap hkey
    · cases hround : parseEntry text with
      | leaves =>
        rw [hround] at h
        cases h
      | reads key' seq rest =>
        rw [hround] at h
        have hshort := parseEntry_shorter hround
        obtain ⟨number', hopens', hnumber⟩ := parseEntry_reads hround
        obtain ⟨-, hstop, digits, hne, hdigits, hvalue, rfl⟩ := parseNumber_reads hnumber
        have hfits : digitsValue digits < 2 ^ 64 := by
          by_contra hlarge
          rw [stoull_eq, if_neg hlarge] at hvalue
          cases hvalue
        exact .later hopens' hne hdigits hfits hstop (ih rest.length (hlen ▸ hshort) h rfl)
      | fails e =>
        rw [hopens.parseEntry_eq] at hround
        have hsplit := List.takeWhile_append_dropWhile (p := isDigit) (l := number)
        have hdigits : ∀ b ∈ number.takeWhile isDigit, isDigit b = true :=
          fun _ => List.mem_takeWhile_imp
        have hstop := stopsAt_dropWhile isDigit number
        rw [← hsplit] at hopens
        by_cases hne : number.takeWhile isDigit = []
        · rw [hne, List.nil_append] at hopens
          exact .noNumber hopens hstop
        · refine .tooLarge hopens hdigits ?_ hstop
          by_contra hfits
          rw [← hsplit, parseNumber_digits hne hdigits hstop, stoull_eq,
            if_pos (not_le.mp hfits)] at hround
          cases hround

theorem parseBody_error_iff (text : ByteString) (state : ShardState) :
    (∃ error, parseBody text state = .error error) ↔ Malformed text :=
  ⟨fun ⟨_, h⟩ => malformed_of_error h, fun h => h.error state⟩

/-! ### Cuts through the entries that `save` writes -/

/-- The cut falls inside the key of an entry, or behind its colon and in front
of its number. -/
inductive CutsEntry : Bool → List (ByteString × UInt64) → ByteString → Prop where
  | inKey {first : Bool} {shardId part : ByteString} {seq : UInt64}
      {entries : List (ByteString × UInt64)} (h : part <+: shardId) :
      CutsEntry first ((shardId, seq) :: entries) (entryGap first ++ quote :: part)
  | atColon {first : Bool} {shardId : ByteString} {seq : UInt64}
      {entries : List (ByteString × UInt64)} : CutsEntry first ((shardId, seq) :: entries)
        (entryGap first ++ quote :: (shardId ++ [quote, colon]))
  | atNumber {first : Bool} {shardId : ByteString} {seq : UInt64}
      {entries : List (ByteString × UInt64)} : CutsEntry first ((shardId, seq) :: entries)
        (entryGap first ++ quote :: (shardId ++ [quote, colon, 0x20]))
  | later {first : Bool} {shardId body : ByteString} {seq : UInt64}
      {entries : List (ByteString × UInt64)} (h : CutsEntry false entries body) :
      CutsEntry first ((shardId, seq) :: entries) (renderEntries first [(shardId, seq)] ++ body)

theorem stopsAt_comma (rest : ByteString) : StopsAt isDigit (entryGap false ++ rest) := by
  intro b hb
  cases hb
  decide

theorem renderEntries_one (first : Bool) (shardId : ByteString) (seq : UInt64)
    (rest : ByteString) : renderEntries first [(shardId, seq)] ++ rest = entryGap first ++
      quote :: (shardId ++ quote :: colon :: 0x20 :: (decimal seq.toNat ++ rest)) := by
  rw [renderEntries_cons]
  simp [renderEntries]

theorem CutsEntry.stopsAt {entries : List (ByteString × UInt64)} {body : ByteString}
    (h : CutsEntry false entries body) : StopsAt isDigit body := by
  cases h with
  | inKey h => exact stopsAt_comma _
  | atColon => exact stopsAt_comma _
  | atNumber => exact stopsAt_comma _
  | later h =>
    rw [renderEntries_one]
    exact stopsAt_comma _

theorem CutsEntry.error {first : Bool} {entries : List (ByteString × UInt64)} {body : ByteString}
    (h : CutsEntry first entries body) (hids : ∀ e ∈ entries, quote ∉ e.1) (state : ShardState) :
    ∃ error, parseBody body state = .error error := by
  induction h generalizing state with
  | @inKey first shardId part seq entries h =>
    have hid := hids _ List.mem_cons_self
    have hpart : quote ∉ part := fun hmem => hid (h.subset hmem)
    rw [parseBody_eq, parseEntry_of_unterminated (quote_entryGap first) hpart]
    exact ⟨_, rfl⟩
  | @atColon first shardId seq entries =>
    have hid := hids _ List.mem_cons_self
    have hopens : Opens (entryGap first ++ quote :: (shardId ++ [quote, colon])) shardId [] :=
      .mk (quote_entryGap first) hid List.not_mem_nil List.not_mem_nil (List.forall_mem_nil _) nofun
    rw [parseBody_eq, hopens.parseEntry_eq]
    exact ⟨_, rfl⟩
  | @atNumber first shardId seq entries =>
    have hid := hids _ List.mem_cons_self
    have hopens := opens_entry (quote_entryGap first) hid (nofun : StopsAt isSpace [])
    rw [parseBody_eq, hopens.parseEntry_eq]
    exact ⟨_, rfl⟩
  | @later first shardId body seq entries h ih =>
    obtain ⟨hid, hrest⟩ := List.forall_mem_cons.mp hids
    rw [parseBody_eq, renderEntries_one, parseEntry_entry (quote_entryGap first) hid h.stopsAt]
    exact ih hrest _

theorem prefix_append_cases {p a b : ByteString} (h : p <+: a ++ b) :
    p <+: a ∨ ∃ q, p = a ++ q ∧ q <+: b := by
  rcases List.prefix_or_prefix_of_prefix h (List.prefix_append a b) with hp | ⟨q, rfl⟩
  · exact .inl hp
  · exact .inr ⟨q, rfl, (List.prefix_append_right_inj a).mp h⟩

theorem stopsAt_lastLine : StopsAt isDigit (lit "\n  ") := by
  intro b hb
  cases hb
  decide

/-- A number that was cut off is read as a smaller one. -/
theorem parseEntry_cutNumber {gap key digits : ByteString} {seq : UInt64} (hgap : quote ∉ gap)
    (hkey : quote ∉ key) (hne : digits ≠ []) (hdigits : digits <+: decimal seq.toNat) :
    parseEntry (gap ++ quote :: (key ++ quote :: colon :: 0x20 :: digits)) =
      .reads key (UInt64.ofNat (digitsValue digits)) [] := by
  have hall : ∀ b ∈ digits, isDigit b = true :=
    fun b hb => isDigit_decimal _ b (hdigits.subset hb)
  have hspace := stopsAt_space_of_digits hne hall []
  have hle := digitsValue_le_of_prefix hdigits
  rw [digitsValue_decimal] at hle
  have hstop : StopsAt isDigit [] := nofun
  have hread : parseNumber key (digits ++ []) = _ := parseNumber_digits hne hall hstop
  rw [List.append_nil] at hspace hread
  rw [(opens_entry hgap hkey hspace).parseEntry_eq, hread, stoull_eq,
    if_pos (hle.trans_lt seq.toNat_lt)]

/-- Every other cut is not noticed. -/
theorem cutsEntry_or_ok {first : Bool} {entries : List (ByteString × UInt64)} {body : ByteString}
    (hids : ∀ e ∈ entries, quote ∉ e.1)
    (hbody : body <+: renderEntries first entries ++ lit "\n  ") (state : ShardState) :
    CutsEntry first entries body ∨ ∃ restored, parseBody body state = .ok restored := by
  have hleaves : ∀ {text : ByteString}, Ends text → ∀ state,
      ∃ restored, parseBody text state = .ok restored := by
    intro text hends state
    rw [parseBody_eq, hends.parseEntry_eq]
    exact ⟨_, rfl⟩
  induction entries generalizing first body state with
  | nil =>
    have hline : quote ∉ lit "\n  " := by decide
    exact .inr (hleaves (.noQuote fun hmem => hline (hbody.subset hmem)) state)
  | cons e entries ih =>
    obtain ⟨shardId, seq⟩ := e
    obtain ⟨hid, hrest⟩ := List.forall_mem_cons.mp hids
    have hgap := quote_entryGap first
    simp only [renderEntries_cons, List.append_assoc, List.cons_append] at hbody
    rcases prefix_append_cases hbody with hbefore | ⟨q, rfl, hq⟩
    · exact .inr (hleaves (.noQuote fun hmem => hgap (hbefore.subset hmem)) state)
    rcases List.prefix_cons_iff.mp hq with rfl | ⟨inKey, rfl, hinKey⟩
    · rw [List.append_nil]
      exact .inr (hleaves (.noQuote hgap) state)
    rcases prefix_append_cases hinKey with hpart | ⟨behindKey, rfl, hbehind⟩
    · exact .inl (.inKey hpart)
    rcases List.prefix_cons_iff.mp hbehind with rfl | ⟨closed, rfl, hclosed⟩
    · rw [List.append_nil]
      exact .inl (.inKey (List.prefix_refl shardId))
    rcases List.prefix_cons_iff.mp hclosed with rfl | ⟨spaced, rfl, hspaced⟩
    · exact .inr (hleaves (.noColon hgap hid List.not_mem_nil) state)
    rcases List.prefix_cons_iff.mp hspaced with rfl | ⟨number, rfl, hnumber⟩
    · exact .inl .atColon
    rcases prefix_append_cases hnumber with hdigits | ⟨rest, rfl, hcut⟩
    · by_cases hne : number = []
      · rw [hne]
        exact .inl .atNumber
      · right
        rw [parseBody_eq, parseEntry_cutNumber hgap hid hne hdigits]
        exact ⟨_, rfl⟩
    · have hstop := (stopsAt_renderEntries stopsAt_lastLine).shorten hcut
      rcases ih hrest hcut (state.insert shardId seq) with hlater | hok
      · left
        rw [← renderEntries_one]
        exact .later hlater
      · right
        rw [parseBody_eq, parseEntry_entry hgap hid hstop]
        exact hok

/-! ### Truncated checkpoints -/

theorem parse_of_cut_header {content : ByteString} (h : content <+: header)
    (hlen : content.length < header.length) : ∃ error, parse content = .error error := by
  have hall : ∀ n < header.length, (parse (header.take n)).isOk = false := by decide +kernel
  have hcontent := hall _ hlen
  rw [← List.prefix_iff_eq_take.mp h] at hcontent
  cases hparse : parse content with
  | error e => exact ⟨e, rfl⟩
  | ok state =>
    rw [hparse] at hcontent
    cases hcontent

/-- What `save` writes in front of the brace that closes the shards. -/
def openShards (order : List (ByteString × UInt64)) : ByteString :=
  header ++ (renderEntries true order ++ lit "\n  ")

theorem cut_rejected_iff {order : List (ByteString × UInt64)} {content : ByteString}
    (hcut : content <+: openShards order) {Bad : ByteString → Prop}
    (hbad : ∀ body, body <+: renderEntries true order ++ lit "\n  " →
      ((∃ error, parseBody body ∅ = .error error) ↔ Bad body)) :
    Rejects content ↔ content.length < header.length ∨ ∃ body, content = header ++ body ∧
      Bad body := by
  rw [rejects_iff]
  by_cases hlen : content.length < header.length
  · have hpre := List.prefix_of_prefix_length_le hcut (List.prefix_append _ _) hlen.le
    exact iff_of_true (parse_of_cut_header hpre hlen) (.inl hlen)
  · obtain ⟨body, rfl⟩ := List.prefix_of_prefix_length_le (List.prefix_append header _) hcut
      (not_lt.mp hlen)
    have hbody := (List.prefix_append_right_inj header).mp hcut
    rw [parse_header, hbad body hbody]
    constructor
    · intro h
      exact .inr ⟨body, rfl, h⟩
    · rintro (h | ⟨body', heq, h⟩)
      · exact absurd h hlen
      · rwa [List.append_cancel_left heq]

theorem truncated_checkpoint_rejected_iff (tracker : SequenceNumberTracker)
    (order : UnorderedMap.IterationOrder tracker.getState) (content : ByteString)
    (hcut : content <+: openShards order.val) :
    (Rejects content ↔ content.length < header.length ∨
      ∃ body, content = header ++ body ∧ Malformed body) ∧
    ((∀ shardId ∈ tracker.getState, quote ∉ shardId) →
      (Rejects content ↔ content.length < header.length ∨
        ∃ body, content = header ++ body ∧ CutsEntry true order.val body)) := by
  refine ⟨cut_rejected_iff hcut fun body _ => parseBody_error_iff body ∅, fun hids => ?_⟩
  refine cut_rejected_iff hcut fun body hbody => ?_
  have horder : ∀ e ∈ order.val, quote ∉ e.1 := fun e he => hids e.1 (order.mem_of_mem he)
  constructor
  · rintro ⟨error, herror⟩
    rcases cutsEntry_or_ok horder hbody ∅ with h | ⟨restored, hok⟩
    · exact h
    · rw [hok] at herror
      cases herror
  · exact fun h => h.error horder ∅

def oneShard : SequenceNumberTracker := SequenceNumberTracker.new.markApplied (lit "s1") 42

theorem oneShard_cut_in_key_is_rejected : Rejects (header ++ lit "\n    \"s") :=
  ((truncated_checkpoint_rejected_iff oneShard ⟨[(lit "s1", 42)], by decide +kernel⟩
    (header ++ lit "\n    \"s") (by decide +kernel)).2 (by decide +kernel)).mpr
      (.inr ⟨_, rfl, .inKey (by decide)⟩)

/-- Cut behind the opening brace, and behind the first digit. -/
theorem cut_checkpoint_is_loaded :
    header <+: openShards [(lit "s1", 42)] ∧
      (load (lit "/c.json") true ⟨some header, none⟩ oneShard).1.success = true ∧
      (load (lit "/c.json") true ⟨some header, none⟩ oneShard).2.getState.size = 0 ∧
      header ++ lit "\n    \"s1\": 4" <+: openShards [(lit "s1", 42)] ∧
      (load (lit "/c.json") true ⟨some (header ++ lit "\n    \"s1\": 4"), none⟩
        oneShard).1.success = true ∧
      (load (lit "/c.json") true ⟨some (header ++ lit "\n    \"s1\": 4"), none⟩
        oneShard).2.lastAppliedSequence (lit "s1") = 4 := by
  decide +kernel

end OpenArangoDBCore.Replication.ReplicationCheckpoint
