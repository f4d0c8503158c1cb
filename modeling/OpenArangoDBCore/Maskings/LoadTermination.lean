import OpenArangoDBCore.Maskings.BracketNesting

/-!
# Termination of the masking parser

The loop over the collections goes on behind the object of the collection it
has read, and it looks for that object from the beginning of the text. A name
that stands twice among the entries which follow one another sends it back to
where it has been.
-/

namespace OpenArangoDBCore.Maskings.AttributeMasking
open TextSearch Iterate Relation
variable {json : ByteString} {collectionsEnd pos pos' : ℕ} {entry entry' : Entry}

/-! ### Entries of a text -/

/-- The second entry stands where the text goes on behind the first one. -/
def Followed (json : ByteString) (collectionsEnd : ℕ) (entry entry' : Entry) : Prop :=
  collectionHeader json collectionsEnd (behindEntry json collectionsEnd entry) = some entry'

/-- The entries of the object behind `brace`, from the first one on. -/
def Listed (json : ByteString) (brace : ℕ) (entry : Entry) : Prop :=
  let collectionsEnd := closingAt json (brace + 1) openBrace closeBrace
  ∃ first, collectionHeader json collectionsEnd (brace + 1) = some first ∧
    ReflTransGen (Followed json collectionsEnd) first entry

/-- The brackets of the object and of its entries. -/
structure NestsBelow (json : ByteString) (brace depth : ℕ) : Prop where
  object : nestingAt json (brace + 1) openBrace closeBrace < depth
  entries : ∀ entry, Listed json brace entry →
    entryNesting json (closingAt json (brace + 1) openBrace closeBrace) entry < depth

/-- No entry comes behind one of the same name, but for names without a brace
behind their first occurrence. -/
def NamesOnce (json : ByteString) (brace : ℕ) : Prop :=
  let collectionsEnd := closingAt json (brace + 1) openBrace closeBrace
  ∀ entry entry', Listed json brace entry → TransGen (Followed json collectionsEnd) entry entry' →
    entry.1 = entry'.1 → objectStart json entry.1 = none

/-- The loop, if no bracket nests too deep: at each entry it goes on behind it. -/
def walk (json : ByteString) (collectionsEnd pos : ℕ) : Option (Entry × ℕ) :=
  (collectionHeader json collectionsEnd pos).map fun entry =>
    (entry, behindEntry json collectionsEnd entry)

/-- The loop comes from one position to the other in one round. -/
def Leads (json : ByteString) (collectionsEnd : ℕ) : ℕ → ℕ → Prop :=
  Follows (walk json collectionsEnd)

theorem leads_iff : Leads json collectionsEnd pos pos' ↔
    ∃ entry, collectionHeader json collectionsEnd pos = some entry ∧
      behindEntry json collectionsEnd entry = pos' := by
  unfold Leads Follows walk
  constructor
  · rintro ⟨e, h⟩
    obtain ⟨entry, hheader, heq⟩ := Option.map_eq_some_iff.mp h
    exact ⟨entry, hheader, (Prod.mk.inj heq).2⟩
  · rintro ⟨entry, hheader, rfl⟩
    rw [hheader]
    exact ⟨entry, rfl⟩

/-- The listed entries are those that the loop comes to. -/
theorem listed_iff {brace : ℕ} : Listed json brace entry ↔
    ∃ pos, ReflTransGen (Leads json (closingAt json (brace + 1) openBrace closeBrace))
      (brace + 1) pos ∧
        collectionHeader json (closingAt json (brace + 1) openBrace closeBrace) pos =
          some entry := by
  constructor
  · rintro ⟨first, hfirst, hchain⟩
    induction hchain with
    | refl => exact ⟨brace + 1, .refl, hfirst⟩
    | tail _ hnext ih =>
      obtain ⟨pos, hreach, hheader⟩ := ih
      exact ⟨_, hreach.tail (leads_iff.mpr ⟨_, hheader, rfl⟩), hnext⟩
  · rintro ⟨pos, hreach, hheader⟩
    induction hreach generalizing entry with
    | refl => exact ⟨entry, hheader, .refl⟩
    | tail _ hround ih =>
      obtain ⟨before, hbefore, rfl⟩ := leads_iff.mp hround
      obtain ⟨first, hfirst, hchain⟩ := ih hbefore
      exact ⟨first, hfirst, hchain.tail hheader⟩

theorem transGen_followed_iff (h : collectionHeader json collectionsEnd pos = some entry) :
    TransGen (Followed json collectionsEnd) entry entry' ↔
      ∃ pos', TransGen (Leads json collectionsEnd) pos pos' ∧
        collectionHeader json collectionsEnd pos' = some entry' := by
  constructor
  · intro hchain
    induction hchain with
    | single hnext => exact ⟨_, .single (leads_iff.mpr ⟨entry, h, rfl⟩), hnext⟩
    | tail _ hnext ih =>
      obtain ⟨pos', hreach, hheader⟩ := ih
      exact ⟨_, hreach.tail (leads_iff.mpr ⟨_, hheader, rfl⟩), hnext⟩
  · rintro ⟨pos', hreach, hheader⟩
    induction hreach generalizing entry' with
    | single hround =>
      obtain ⟨before, hbefore, rfl⟩ := leads_iff.mp hround
      obtain rfl := Option.some.inj (h.symm.trans hbefore)
      exact .single hheader
    | tail _ hround ih =>
      obtain ⟨before, hbefore, rfl⟩ := leads_iff.mp hround
      exact (ih hbefore).tail hheader

/-! ### Where a round ends -/

theorem scanString_le (text : ByteString) : (scanString text).2 ≤ text.length := by
  fun_induction scanString text <;> grind

theorem closingIn_le (opening closing : Byte) (inString : Bool) (depth : ℕ) (text : ByteString) :
    closingIn opening closing inString depth text ≤ text.length + 1 := by
  fun_induction closingIn opening closing inString depth text <;> grind

theorem closingAt_le {start : ℕ} (h : start ≤ json.length) (opening closing : Byte) :
    closingAt json start opening closing ≤ json.length + 1 := by
  have hle := closingIn_le opening closing false 1 (json.drop start)
  rw [List.length_drop] at hle
  unfold closingAt
  omega

theorem extractString_le (h : pos ≤ json.length) : (extractString json pos).2 ≤ json.length := by
  have hle := scanString_le (json.drop pos)
  rw [List.length_drop] at hle
  unfold extractString
  dsimp only
  omega

theorem skipWs_le {bound : ℕ} (hbound : json.length ≤ bound) (h : pos ≤ bound) :
    skipWs json pos ≤ bound := by
  have hle := (List.takeWhile_prefix isspace (l := json.drop pos)).length_le
  rw [List.length_drop] at hle
  unfold skipWs
  omega

theorem skipComma_le {bound limit : ℕ} (hbound : json.length ≤ bound) (h : pos ≤ bound) :
    skipComma json limit pos ≤ bound := by
  have hle := skipWs_le hbound h
  unfold skipComma
  dsimp only
  split
  next hcomma =>
    obtain ⟨hlt, -⟩ := List.getElem?_eq_some_iff.mp hcomma.2
    omega
  next => exact hle

theorem collectionHeader_bounds {name : ByteString}
    (h : collectionHeader json collectionsEnd pos = some (name, pos')) :
    pos < pos' ∧ pos' ≤ json.length := by
  unfold collectionHeader at h
  dsimp only at h
  split at h
  next => cases h
  next hquote =>
    push Not at hquote
    obtain ⟨rfl, rfl⟩ := Prod.mk.inj (Option.some.inj h)
    obtain ⟨hlt, -⟩ := List.getElem?_eq_some_iff.mp hquote.2
    have hskip := le_skipWs json pos
    have hstring := le_extractString json (skipWs json pos + 1)
    have hend : (extractString json (skipWs json pos + 1)).2 ≤ json.length := extractString_le hlt
    have hspace := le_skipWs json (extractString json (skipWs json pos + 1)).2
    have hspaceEnd := skipWs_le le_rfl hend
    split
    next hcolon =>
      obtain ⟨hcolonLt, -⟩ := List.getElem?_eq_some_iff.mp hcolon
      have hlast := le_skipWs json (skipWs json (extractString json (skipWs json pos + 1)).2 + 1)
      exact ⟨by omega, skipWs_le le_rfl hcolonLt⟩
    next =>
      have hlast := le_skipWs json (skipWs json (extractString json (skipWs json pos + 1)).2)
      exact ⟨by omega, skipWs_le le_rfl hspaceEnd⟩

theorem rulesEnd_bounds (hpos : pos ≤ json.length) :
    pos ≤ rulesEnd json collectionsEnd pos ∧
      rulesEnd json collectionsEnd pos ≤ json.length + 2 := by
  unfold rulesEnd
  cases harray : rulesArray json collectionsEnd pos with
  | none => exact ⟨le_rfl, hpos.trans (Nat.le_add_right _ 2)⟩
  | some array =>
    obtain ⟨rulesKeyPos, hkey, hopen⟩ := Option.bind_eq_some_iff.mp harray
    split at hopen
    next =>
      obtain ⟨hle, -⟩ := findFrom_le (by decide) hkey
      obtain ⟨hlow, hlt⟩ := findFrom_le (List.cons_ne_nil _ _) hopen
      have hbrace := le_closingAt json (array + 1) openBracket closeBracket
      have hnext : array + 1 ≤ json.length := hlt
      have hend := closingAt_le hnext openBracket closeBracket
      dsimp only [Option.elim]
      omega
    next => cases hopen

theorem objectStart_lt {name : ByteString} {b : ℕ} (h : objectStart json name = some b) :
    b < json.length := by
  obtain ⟨i, -, hb⟩ := Option.bind_eq_some_iff.mp h
  exact (findFrom_le (List.cons_ne_nil _ _) hb).2

theorem Leads.le (h : Leads json collectionsEnd pos pos') : pos' ≤ json.length + 2 := by
  obtain ⟨entry, hheader, rfl⟩ := leads_iff.mp h
  refine skipComma_le (Nat.le_add_right _ 2) ?_
  unfold entryEnd
  cases hstart : objectStart json entry.1 with
  | none => exact (rulesEnd_bounds (collectionHeader_bounds hheader).2).2
  | some object =>
    have hnext : object + 1 ≤ json.length := objectStart_lt hstart
    have hle := closingAt_le hnext openBrace closeBrace
    dsimp only [Option.elim]
    omega

/-- Without a brace behind its name, an entry is passed. -/
theorem lt_behindEntry (hheader : collectionHeader json collectionsEnd pos = some entry)
    (hstart : objectStart json entry.1 = none) : pos < behindEntry json collectionsEnd entry := by
  obtain ⟨hlt, hle⟩ := collectionHeader_bounds hheader
  have hrules : entry.2 ≤ rulesEnd json collectionsEnd entry.2 := (rulesEnd_bounds hle).1
  have hcomma := le_skipComma json collectionsEnd (rulesEnd json collectionsEnd entry.2)
  unfold behindEntry entryEnd
  rw [hstart]
  dsimp only [Option.elim]
  omega

/-- With one, the name alone says where the text goes on. -/
theorem behindEntry_eq_of_name (hname : entry.1 = entry'.1)
    (hstart : objectStart json entry.1 ≠ none) :
    behindEntry json collectionsEnd entry = behindEntry json collectionsEnd entry' := by
  obtain ⟨object, hobject⟩ := Option.ne_none_iff_exists'.mp hstart
  unfold behindEntry entryEnd
  rw [← hname, hobject]
  rfl

/-! ### Walks of the loop -/

/-- A walk that does not end further on has a round that does not. -/
theorem lt_or_exists_not_lt (h : TransGen (Leads json collectionsEnd) pos pos') :
    pos < pos' ∨ ∃ r r', ReflTransGen (Leads json collectionsEnd) pos r ∧
      Leads json collectionsEnd r r' ∧ ReflTransGen (Leads json collectionsEnd) r' pos' ∧
        ¬ r < r' := by
  induction h with
  | @single later h =>
    by_cases hlt : pos < later
    · exact .inl hlt
    · exact .inr ⟨pos, later, .refl, h, .refl, hlt⟩
  | @tail middle later hwalk h ih =>
    rcases ih with hlt | ⟨r, r', hfirst, hround, hrest, hnot⟩
    · by_cases hnext : middle < later
      · exact .inl (hlt.trans hnext)
      · exact .inr ⟨middle, later, hwalk.to_reflTransGen, h, .refl, hnext⟩
    · exact .inr ⟨r, r', hfirst, hround, hrest.tail h, hnot⟩

variable {brace : ℕ}

theorem halts_of_namesOnce (h : NamesOnce json brace) (hbrace : brace + 1 ≤ json.length) :
    Halts (walk json (closingAt json (brace + 1) openBrace closeBrace)) (brace + 1) := by
  obtain ⟨stop, hstop⟩ : ∃ stop, stop = closingAt json (brace + 1) openBrace closeBrace := ⟨_, rfl⟩
  rw [← hstop]
  -- the positions of the walk, at most two behind the end of the text
  refine halts_of_finite (S := {pos | pos ≤ json.length + 2 ∧
    ReflTransGen (Leads json stop) (brace + 1) pos}) ?_ ?_ ?_ ⟨by omega, .refl⟩
  · exact (Set.finite_Iic (json.length + 2)).subset fun pos hpos => hpos.1
  · rintro pos ⟨-, hwalk⟩ pos' hleads
    exact ⟨Leads.le hleads, hwalk.tail hleads⟩
  · rintro pos ⟨-, hwalk⟩ hcycle
    obtain hlt | ⟨r, r', hfirst, hround, hrest, hnot⟩ := lt_or_exists_not_lt hcycle
    · exact lt_irrefl pos hlt
    · obtain ⟨entry, hheader, rfl⟩ := leads_iff.mp hround
      have hagain : TransGen (Leads json stop) r r := TransGen.head' hround (hrest.trans hfirst)
      have hlisted : Listed json brace entry :=
        listed_iff.mpr ⟨r, hstop ▸ hwalk.trans hfirst, hstop ▸ hheader⟩
      have hchain : TransGen (Followed json stop) entry entry :=
        (transGen_followed_iff hheader).mpr ⟨r, hagain, hheader⟩
      exact hnot (lt_behindEntry hheader (h entry entry hlisted (hstop ▸ hchain) rfl))

theorem namesOnce_of_halts
    (h : Halts (walk json (closingAt json (brace + 1) openBrace closeBrace)) (brace + 1)) :
    NamesOnce json brace := by
  intro entry entry' hlisted hchain hname
  by_contra hobject
  obtain ⟨pos, hwalk, hheader⟩ := listed_iff.mp hlisted
  obtain ⟨later, hlater, hheader'⟩ := (transGen_followed_iff hheader).mp hchain
  have hnext := leads_iff.mpr ⟨entry, hheader, rfl⟩
  have hnext' := leads_iff.mpr ⟨entry', hheader', rfl⟩
  rw [← behindEntry_eq_of_name hname hobject] at hnext'
  have hcycle := TransGen.tail' (reaches_of_transGen hnext hlater) hnext'
  exact not_halts_of_cycle hcycle (h.reaches (hwalk.tail hnext))

theorem collectionsBrace_le (h : collectionsBrace json = some brace) :
    brace + 1 ≤ json.length := by
  obtain ⟨collectionsPos, -, h⟩ := Option.bind_eq_some_iff.mp h
  exact (findFrom_le (List.cons_ne_nil _ _) h).2

/-- A round is a round of the walk, unless the brackets of its entry nest too deep. -/
theorem parseCollection_agrees : AgreesWhere
    (fun pos => ∀ entry, collectionHeader json collectionsEnd pos = some entry →
      entryNesting json collectionsEnd entry < 2 ^ 31)
    (parseCollection json collectionsEnd) (walk json collectionsEnd) where
  undefined := by
    intro pos hdeep
    push Not at hdeep
    obtain ⟨entry, hheader, hle⟩ := hdeep
    exact parseCollection_of_le hheader hle
  stop := by
    intro pos _ hstop
    exact parseCollection_of_none (Option.map_eq_none_iff.mp hstop)
  next := by
    intro pos pos' hok hround
    obtain ⟨entry, hheader, rfl⟩ := leads_iff.mp hround
    exact parseCollection_of_lt hheader (hok entry hheader)

/-- The parser stops exactly when its brackets nest less than 2 ^ 31 deep and no
name stands twice among the entries that follow one another. -/
theorem load_terminates_iff (json : ByteString) :
    (∃ rounds configs, loadConfigFromJson rounds json = some configs) ↔
      ∀ brace, collectionsBrace json = some brace →
        NestsBelow json brace (2 ^ 31) ∧ NamesOnce json brace := by
  unfold loadConfigFromJson
  cases hbrace : collectionsBrace json with
  | none => exact iff_of_true ⟨0, [], rfl⟩ nofun
  | some brace =>
    simp only [Option.some.injEq, forall_eq']
    by_cases hfits : nestingAt json (brace + 1) openBrace closeBrace < 2 ^ 31
    · simp only [findMatchingBrace_of_lt hfits, Option.bind_some]
      rw [parseCollection_agrees.attempt_iff]
      constructor
      · rintro ⟨hhalts, hshallow⟩
        refine ⟨⟨hfits, fun entry hlisted => ?_⟩, namesOnce_of_halts hhalts⟩
        obtain ⟨pos, hreach, hheader⟩ := listed_iff.mp hlisted
        exact hshallow pos hreach entry hheader
      · rintro ⟨hbelow, honce⟩
        refine ⟨halts_of_namesOnce honce (collectionsBrace_le hbrace), ?_⟩
        intro pos hreach entry hheader
        exact hbelow.entries entry (listed_iff.mpr ⟨pos, hreach, hheader⟩)
    · refine iff_of_false ?_ fun h => hfits h.1.object
      rintro ⟨rounds, configs, hload⟩
      rw [findMatchingBrace_of_le (Nat.not_lt.mp hfits)] at hload
      cases hload

def duplicateName : ByteString := lit "\x7b\"collections\": \x7b\"a\": \x7b\x7d, \"a\": \x7b\x7d\x7d\x7d"

/-- With a name twice, the loop reads the second collection again and again. -/
theorem duplicateName_never_loads :
    ¬ ∃ rounds configs, loadConfigFromJson rounds duplicateName = some configs := by
  have hbrace : collectionsBrace duplicateName = some 16 := by decide +kernel
  have hend : findMatchingBrace duplicateName 17 openBrace closeBrace = some 33 := by
    decide +kernel
  have hfirst : parseCollection duplicateName 33 17 = some (some (⟨lit "a", []⟩, 25)) := by
    decide +kernel
  have hagain : parseCollection duplicateName 33 25 = some (some (⟨lit "a", []⟩, 25)) := by
    decide +kernel
  have hnever : ∀ rounds, attempt (parseCollection duplicateName 33) rounds 25 = none := by
    intro rounds
    induction rounds with
    | zero => rfl
    | succ rounds ih => rw [attempt_step hagain, ih, Option.map_none]
  rintro ⟨rounds, configs, hload⟩
  unfold loadConfigFromJson at hload
  rw [hbrace] at hload
  dsimp only at hload
  rw [hend, Option.bind_some] at hload
  cases rounds with
  | zero => cases hload
  | succ rounds =>
    rw [attempt_step hfirst, hnever] at hload
    cases hload

end OpenArangoDBCore.Maskings.AttributeMasking
