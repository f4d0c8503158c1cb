import OpenArangoDBCore.Maskings.LayoutPositions

/-!
# Loading documented configurations

Where the parser goes on depends on the first brace behind the first
occurrence of the collection's name. Behind the object of a collection, its own
or an earlier one, the parser reads the next collection; behind any other brace
it stops.
-/

namespace OpenArangoDBCore.Maskings
open AttributeMasking Iterate
variable {doc : Document} {layout : Layout doc} {k limit : ℕ} {c : DocumentCollection}

/-- The collection that the parser reads after `c`, or their number if it stops. -/
def Document.followed (doc : Document) (c : DocumentCollection) : ℕ :=
  match (List.range (doc.collections.length - 1)).find? fun j =>
      braceBehind c.name doc.tokens = some (doc.brace j) with
  | some j => j + 1
  | none => doc.collections.length

/-- A round of the parser, on the numbers of the collections. -/
def Document.round (doc : Document) (k : ℕ) : Option (CollectionMaskingConfig × ℕ) :=
  doc.collections[k]?.map fun c => (c.loaded, doc.followed c)

theorem followed_cases (doc : Document) (c : DocumentCollection) :
    (∃ j, j + 1 < doc.collections.length ∧ braceBehind c.name doc.tokens = some (doc.brace j) ∧
        doc.followed c = j + 1) ∨
      (∀ j, j + 1 < doc.collections.length →
        braceBehind c.name doc.tokens ≠ some (doc.brace j)) ∧
          doc.followed c = doc.collections.length := by
  unfold Document.followed
  split
  next j hj =>
    have hmem := List.mem_of_find?_eq_some hj
    have hlt := List.mem_range.mp hmem
    have hfound := List.find?_some hj
    exact .inl ⟨j, by omega, of_decide_eq_true hfound, rfl⟩
  next hnone =>
    refine .inr ⟨fun j hj => ?_, rfl⟩
    have hno := List.find?_eq_none.mp hnone j (List.mem_range.mpr (by omega))
    exact fun hbrace => hno (decide_eq_true hbrace)

/-! ### What comes behind an object -/

/-- Behind an object with no collection behind it the parser stops. -/
theorem parseCollection_closes {front back : List Piece} {gap : Gap}
    (h : layout.pieces = front ++ (gap, Token.openBrace) :: back) (hcloses : Closes (tokensOf back))
    (limit : ℕ) : ∃ stop, findMatchingBrace layout.text
      ((print front).length + gap.val.length + 1) openBrace closeBrace = some stop ∧
        parseCollection layout.text limit (skipComma layout.text limit (stop + 1)) =
          some none := by
  obtain ⟨inner, behind, htokens, hbalanced, hstops⟩ := hcloses
  obtain ⟨inside, rest, rfl, rfl, hrest⟩ := tokensOf_eq_append htokens
  obtain ⟨g, others, rfl, rfl⟩ := tokensOf_eq_cons hrest
  unfold Layout.text
  rw [h]
  obtain ⟨stop, hmatch, hstop⟩ :=
    matching_print front others gap g hbalanced layout.trailing.val
  refine ⟨stop, hmatch, ?_⟩
  rw [hstop]
  have hsplit : front ++ (gap, Token.openBrace) :: (inside ++ (g, Token.closeBrace) :: others) =
      front ++ (gap, Token.openBrace) :: (inside ++ [(g, Token.closeBrace)]) ++ others := by simp
  have hdrop := drop_print
    (front ++ (gap, Token.openBrace) :: (inside ++ [(g, Token.closeBrace)])) others
    layout.trailing.val
  rw [← hsplit] at hdrop
  exact parseCollection_stops hdrop hstops

/-- Behind the object of a collection that is not the last comes the next one. -/
theorem skipComma_object {front back : List Piece} {gap : Gap}
    (h : layout.pieces = front ++ (gap, Token.openBrace) :: back) (hlimit : layout.Within limit)
    {c' : DocumentCollection} (hk : doc.collections[k]? = some c)
    (hnext : doc.collections[k + 1]? = some c') (hfront : front.length = doc.brace k) :
    ∃ stop, findMatchingBrace layout.text ((print front).length + gap.val.length + 1) openBrace
      closeBrace = some stop ∧
        skipComma layout.text limit (stop + 1) = layout.posOf (k + 1) := by
  have htokens : doc.tokens = tokensOf front ++ Token.openBrace :: tokensOf back := by
    rw [← layout.tokensOf_pieces, h]
    simp [tokensOf]
  have hback := inside_of_brace htokens hk (by rw [← hfront]; simp [tokensOf])
  rw [behind_next hnext] at hback
  obtain ⟨inside, rest, rfl, hinside, hrest⟩ := tokensOf_eq_append hback
  obtain ⟨g, behind, rfl, hbehind⟩ := tokensOf_eq_cons hrest
  obtain ⟨g', others, rfl, hothers⟩ := tokensOf_eq_cons hbehind
  -- the pieces up to the comma
  obtain ⟨passed, hpassed⟩ : ∃ passed, passed =
    front ++ (gap, Token.openBrace) :: (inside ++ [(g, Token.closeBrace)]) := ⟨_, rfl⟩
  have hsplit : layout.pieces = passed ++ (g', Token.comma) :: others := by
    rw [h, hpassed]
    simp
  have hcomma : layout.pieces = (passed ++ [(g', Token.comma)]) ++ others := by
    rw [hsplit]
    simp
  have hothersLength : 2 ≤ others.length := by
    have hlength := congrArg List.length hothers
    have htwo := two_le_behind doc (k + 1)
    rw [tokensOf, List.length_map, List.length_append] at hlength
    omega
  have hend := hlimit _ _ hcomma hothersLength
  have hdrop : layout.text.drop (print passed).length =
      g'.val ++ comma :: (print others ++ layout.trailing.val) := by
    unfold Layout.text
    rw [hsplit, drop_print, print_cons, List.append_assoc]
    rfl
  have hprint : (print (passed ++ [(g', Token.comma)])).length =
      (print passed).length + g'.val.length + 1 := by
    rw [print_append, List.length_append]
    simp [Token.text]
    omega
  have hposition : layout.posOf (k + 1) = (print (passed ++ [(g', Token.comma)])).length := by
    refine Layout.posOf_eq hcomma ?_
    have hinner := congrArg List.length hinside
    rw [tokensOf, List.length_map] at hinner
    rw [before_succ hk, hpassed, c.tokens_eq]
    rw [Document.brace] at hfront
    simp only [List.length_append, List.length_cons, List.length_nil] at hfront hinner ⊢
    omega
  have hbalanced : Balanced .openBrace .closeBrace 3 (tokensOf inside) := by
    rw [hinside]
    exact balanced_brace_collection c
  obtain ⟨stop, hmatch, hstop⟩ :=
    matching_print front ((g', Token.comma) :: others) gap g hbalanced layout.trailing.val
  rw [← h] at hmatch
  refine ⟨stop, hmatch, ?_⟩
  rw [hstop, ← hpassed, skipComma_comma hdrop (by omega), hposition, hprint]

/-! ### The parser on a document -/

/-- The position of the parser and the number of the collection it comes to. -/
def Layout.At (layout : Layout doc) (limit pos k : ℕ) : Prop :=
  (k < doc.collections.length ∧ pos = layout.posOf k) ∨
    (k = doc.collections.length ∧ parseCollection layout.text limit pos = some none)

theorem parseCollection_at (hlimit : layout.Within limit) (h : doc.collections[k]? = some c) :
    ∃ next, parseCollection layout.text limit (layout.posOf k) = some (some (c.loaded, next)) ∧
      layout.At limit next (doc.followed c) := by
  have htokens := layout.tokensOf_pieces
  rw [tokens_at h] at htokens
  obtain ⟨first, rest, hpieces, hfirst, hrest⟩ := tokensOf_eq_append htokens
  obtain ⟨own, behind, rfl, hown, hbehind⟩ := tokensOf_eq_append hrest
  have hposition : layout.posOf k = (print first).length := by
    refine Layout.posOf_eq hpieces ?_
    rw [← hfirst, tokensOf, List.length_map]
  have hdrop : layout.text.drop (layout.posOf k) =
      print own ++ (print behind ++ layout.trailing.val) := by
    unfold Layout.text
    rw [hposition, hpieces, drop_print, print_append, List.append_assoc]
  have hbehindLength : 2 ≤ behind.length := by
    have htwo := two_le_behind doc k
    rwa [← hbehind, tokensOf, List.length_map] at htwo
  have hend : layout.posOf k + (print own).length ≤ limit := by
    have hle := hlimit (first ++ own) behind (by rw [hpieces, List.append_assoc]) hbehindLength
    rw [print_append, List.length_append] at hle
    omega
  -- the brace that the parser takes for the collection's own
  obtain ⟨i, hi⟩ := exists_braceBehind_at h
  have hapart : List.IsChain Apart (tokensOf layout.pieces) := by
    rw [layout.tokensOf_pieces]
    exact apart_document doc
  obtain ⟨front, gap, back, hsplit, rfl, hstart⟩ := objectStart_print hapart
    (by rw [layout.tokensOf_pieces]; exact hi) layout.trailing.val
  have hfront : (tokensOf front).length = front.length := List.length_map _
  have hdocument : doc.tokens = tokensOf front ++ .openBrace :: tokensOf back := by
    rw [← layout.tokensOf_pieces, hsplit]
    simp [tokensOf]
  rcases followed_cases doc c with ⟨j, hj, hbrace, hfollowed⟩ | ⟨hno, hfollowed⟩
  · rw [hi] at hbrace
    have hnext : doc.collections[j + 1]? = some doc.collections[j + 1] :=
      List.getElem?_eq_getElem hj
    have hthis : doc.collections[j]? = some doc.collections[j] :=
      List.getElem?_eq_getElem (by omega)
    obtain ⟨stop, hstop, hcomma⟩ :=
      skipComma_object hsplit hlimit hthis hnext (Option.some.inj hbrace)
    refine ⟨_, parseCollection_print c hown hdrop hend hstart hstop, .inl ⟨by omega, ?_⟩⟩
    rw [hfollowed, hcomma]
  · suffices hcloses : Closes (tokensOf back) by
      obtain ⟨stop, hstop, hnone⟩ := parseCollection_closes hsplit hcloses limit
      exact ⟨_, parseCollection_print c hown hdrop hend hstart hstop, .inr ⟨hfollowed, hnone⟩⟩
    rcases brace_or_closes hdocument with ⟨j, c', hj, hbrace⟩ | hcloses
    · -- the object of the last collection
      obtain ⟨hlt, -⟩ := List.getElem?_eq_some_iff.mp hj
      have hlast : doc.collections.length ≤ j + 1 := by
        by_contra hmore
        refine hno j (by omega) ?_
        rw [hi, ← hbrace, hfront]
      refine ⟨c'.inside, doc.behind j, inside_of_brace hdocument hj hbrace,
        balanced_brace_collection c', ?_⟩
      rw [behind_last hlast]
      exact ⟨by simp, by simp⟩
    · exact hcloses

theorem parseCollection_empty (h : doc.collections = []) (limit : ℕ) :
    parseCollection layout.text limit (layout.posOf 0) = some none := by
  have htokens := layout.tokensOf_pieces
  obtain ⟨opening, closing, hpieces, hopening, hclosing⟩ := tokensOf_eq_append htokens
  have hposition : layout.posOf 0 = (print opening).length := by
    refine Layout.posOf_eq hpieces ?_
    rw [← hopening]
    simp [tokensOf, Document.before]
  rw [h] at hclosing
  refine parseCollection_none closing layout.trailing ?_ ?_
  · unfold Layout.text
    rw [hposition, hpieces]
    exact drop_print _ _ _
  · rw [hclosing]
    exact fun _ _ => by simp [separated]

/-- The parser goes from collection to collection as the braces of the document say. -/
theorem loadConfigFromJson_layout (layout : Layout doc) (rounds : ℕ) :
    loadConfigFromJson rounds layout.text = iterate doc.round rounds 0 := by
  obtain ⟨brace, limit, hbrace, hstart, hend, hlimit⟩ := collectionsBrace_layout layout
  unfold loadConfigFromJson
  rw [hbrace]
  dsimp only
  rw [hend, Option.bind_some, hstart]
  refine attempt_eq_of_rel (R := layout.At limit) ?_ ?_ rounds
  · rintro pos k (⟨hk, rfl⟩ | ⟨rfl, hstop⟩)
    · have hc : doc.collections[k]? = some doc.collections[k] := List.getElem?_eq_getElem hk
      obtain ⟨next, hparse, hat⟩ := parseCollection_at hlimit hc
      rw [Document.round, hc]
      exact ⟨_, hparse, .some ⟨rfl, hat⟩⟩
    · rw [Document.round, List.getElem?_eq_none le_rfl]
      exact ⟨none, hstop, .none⟩
  · rcases Nat.eq_zero_or_pos doc.collections.length with hzero | hpos
    · exact .inr ⟨hzero.symm, parseCollection_empty (List.length_eq_zero_iff.mp hzero) limit⟩
    · exact .inl ⟨hpos, rfl⟩

/-! ### When every collection is read -/

theorem brace_inj {j : ℕ} (hj : j < doc.collections.length) (hk : k < doc.collections.length)
    (h : doc.brace j = doc.brace k) : j = k := by
  rcases Nat.lt_trichotomy j k with hlt | heq | hgt
  · have hless := brace_lt_of_lt hlt (List.getElem?_eq_getElem hj)
    omega
  · exact heq
  · have hless := brace_lt_of_lt hgt (List.getElem?_eq_getElem hk)
    omega

/-- Each collection is followed by the next one. -/
theorem located_iff_followed (doc : Document) :
    doc.Located ↔ ∀ k c, doc.collections[k]? = some c → doc.followed c = k + 1 := by
  refine forall₂_congr fun k c => forall_congr' fun hk => ?_
  obtain ⟨hlt, -⟩ := List.getElem?_eq_some_iff.mp hk
  rcases followed_cases doc c with ⟨j, hj, hbrace, hfollowed⟩ | ⟨hno, hfollowed⟩
  · rw [hfollowed, hbrace]
    split
    next =>
      constructor
      · intro h
        rw [brace_inj (by omega) hlt (Option.some.inj h)]
      · intro h
        rw [Nat.succ.inj h]
    next =>
      refine iff_of_false (fun h => h j (by omega) rfl) ?_
      omega
  · rw [hfollowed]
    split
    next hmore => exact iff_of_false (hno k hmore) (by omega)
    next => exact iff_of_true (fun j hj => hno j (by omega)) (by omega)

theorem config_name_inj {j : ℕ} {c' : DocumentCollection} (hj : doc.collections[j]? = some c')
    (hk : doc.collections[k]? = some c) (h : c'.loaded = c.config) : j = k := by
  obtain ⟨hjLt, rfl⟩ := List.getElem?_eq_some_iff.mp hj
  obtain ⟨hkLt, rfl⟩ := List.getElem?_eq_some_iff.mp hk
  have hname : doc.collections[j].name = doc.collections[k].name :=
    Subtype.ext (congrArg CollectionMaskingConfig.collectionName h)
  refine (List.getElem?_inj (by simpa using hjLt) doc.nodup).mp ?_
  rw [List.getElem?_map, List.getElem?_map, hj, hk, Option.map_some, Option.map_some, hname]

theorem round_eq (h : doc.collections[k]? = some c) :
    doc.round k = some (c.loaded, doc.followed c) := by
  rw [Document.round, h, Option.map_some]

theorem iterate_round {rounds : ℕ} {out : List CollectionMaskingConfig}
    (h : iterate doc.round rounds k = some out) (hk : doc.collections[k]? = some c) :
    ∃ fewer later, out = c.loaded :: later ∧
      iterate doc.round fewer (doc.followed c) = some later := by
  cases rounds with
  | zero => cases h
  | succ rounds =>
    rw [iterate_step (round_eq hk)] at h
    obtain ⟨later, hlater, rfl⟩ := Option.map_eq_some_iff.mp h
    exact ⟨rounds, later, rfl, hlater⟩

/-- Nothing comes behind the last number. -/
theorem iterate_round_end {rounds : ℕ} {out : List CollectionMaskingConfig}
    (h : iterate doc.round rounds doc.collections.length = some out) : out = [] := by
  have hstop : doc.round doc.collections.length = none := by
    rw [Document.round, List.getElem?_eq_none le_rfl, Option.map_none]
  cases rounds with
  | zero => cases h
  | succ rounds =>
    rw [iterate_stop hstop] at h
    exact (Option.some.inj h).symm

theorem followed_of_iterate {rounds : ℕ} (h : iterate doc.round rounds k =
    some ((doc.collections.drop k).map DocumentCollection.config)) :
    ∀ k' c, k ≤ k' → doc.collections[k']? = some c →
      c.loaded = c.config ∧ doc.followed c = k' + 1 := by
  obtain ⟨later, hlater⟩ : ∃ later, later = doc.collections.drop k := ⟨_, rfl⟩
  rw [← hlater] at h
  induction later generalizing k rounds with
  | nil =>
    intro k' c hle hk'
    have hend := List.drop_eq_nil_iff.mp hlater.symm
    rw [List.getElem?_eq_none (by omega)] at hk'
    cases hk'
  | cons first later ih =>
    have hfirst : doc.collections[k]? = some first := by
      rw [← List.head?_drop, ← hlater, List.head?_cons]
    have hrest : later = doc.collections.drop (k + 1) := by
      rw [← List.tail_drop, ← hlater, List.tail_cons]
    obtain ⟨fewer, out, heq, hout⟩ := iterate_round h hfirst
    obtain ⟨hconfig, rfl⟩ := List.cons.inj heq
    have hnext : doc.followed first = k + 1 := by
      rcases followed_cases doc first with ⟨j, hj, -, hfollowed⟩ | ⟨-, hfollowed⟩
      · rw [hfollowed] at hout ⊢
        -- what is read there is the next of the document
        have hhere : doc.collections[j + 1]? = some doc.collections[j + 1] :=
          List.getElem?_eq_getElem hj
        obtain ⟨-, out, heq, -⟩ := iterate_round hout hhere
        obtain ⟨next, more, rfl, hloaded, -⟩ := List.map_eq_cons_iff.mp heq
        have hk : doc.collections[k + 1]? = some next := by
          rw [← List.head?_drop, ← hrest, List.head?_cons]
        exact config_name_inj hhere hk hloaded.symm
      · rw [hfollowed] at hout ⊢
        have hnil := List.map_eq_nil_iff.mp (iterate_round_end hout)
        rw [hnil] at hrest
        have hend := List.drop_eq_nil_iff.mp hrest.symm
        obtain ⟨hlt, -⟩ := List.getElem?_eq_some_iff.mp hfirst
        omega
    rw [hnext] at hout
    intro k' c hle hk'
    rcases Nat.eq_or_lt_of_le hle with rfl | hlt
    · obtain rfl : first = c := Option.some.inj (hfirst.symm.trans hk')
      exact ⟨hconfig.symm, hnext⟩
    · exact ih hout hrest k' c hlt hk'

theorem iterate_of_followed (h : ∀ k c, doc.collections[k]? = some c →
    c.loaded = c.config ∧ doc.followed c = k + 1) (hk : k ≤ doc.collections.length) :
    ∃ rounds, iterate doc.round rounds k =
      some ((doc.collections.drop k).map DocumentCollection.config) := by
  induction hk using Nat.decreasingInduction with
  | self =>
    refine ⟨1, ?_⟩
    rw [iterate_stop, List.drop_length, List.map_nil]
    rw [Document.round, List.getElem?_eq_none le_rfl, Option.map_none]
  | of_succ k hk ih =>
    obtain ⟨rounds, hrounds⟩ := ih
    have hc : doc.collections[k]? = some doc.collections[k] := List.getElem?_eq_getElem hk
    obtain ⟨hloaded, hfollowed⟩ := h k _ hc
    refine ⟨rounds + 1, ?_⟩
    rw [iterate_step (round_eq hc), hfollowed, hrounds, Option.map_some, hloaded,
      ← List.map_cons, ← List.drop_eq_getElem_cons]

theorem typesReadable_iff (doc : Document) :
    doc.TypesReadable ↔ ∀ (k : ℕ) (c : DocumentCollection),
      doc.collections[k]? = some c → c.loaded = c.config := by
  constructor
  · intro h k c hk
    exact c.loaded_eq_config_iff.mpr (h c (List.mem_of_getElem? hk))
  · intro h c hc
    obtain ⟨k, hk⟩ := List.mem_iff_getElem?.mp hc
    exact c.loaded_eq_config_iff.mp (h k c hk)

/-- A documented configuration is loaded as it was printed exactly when its
types can be read and each name leads to its own object. -/
theorem loads_completely_iff (doc : Document) (layout : Layout doc) :
    (∃ rounds, loadConfigFromJson rounds layout.text = some doc.configs) ↔
      doc.TypesReadable ∧ doc.Located := by
  simp only [loadConfigFromJson_layout]
  rw [typesReadable_iff, located_iff_followed]
  constructor
  · rintro ⟨rounds, hrounds⟩
    have hall := followed_of_iterate (k := 0) hrounds
    exact ⟨fun k c hk => (hall k c (Nat.zero_le k) hk).1,
      fun k c hk => (hall k c (Nat.zero_le k) hk).2⟩
  · rintro ⟨htypes, hlocated⟩
    exact iterate_of_followed (fun k c hk => ⟨htypes k c hk, hlocated k c hk⟩) (Nat.zero_le _)

/-- The document without whitespace. -/
def Document.compact (doc : Document) : Layout doc where
  pieces := doc.tokens.map fun t => (⟨[], rfl⟩, t)
  trailing := ⟨[], rfl⟩
  tokensOf_pieces := by simp [tokensOf, Function.comp_def]

/-- A rule for the path `orders` in front of the collection `orders`. -/
def usersWithOrders : Document where
  collections :=
    [⟨⟨lit "users", by decide⟩,
        [⟨⟨lit "orders", by decide⟩, ⟨lit "email", by decide⟩, [], false, by decide, by decide,
            by decide⟩,
          ⟨⟨lit "ssn", by decide⟩, ⟨lit "xifyFront", by decide⟩, [], false, by decide, by decide,
            by decide⟩]⟩,
      ⟨⟨lit "orders", by decide⟩, []⟩,
      ⟨⟨lit "payments", by decide⟩,
        [⟨⟨lit "card", by decide⟩, ⟨lit "creditCard", by decide⟩, [], false, by decide, by decide,
          by decide⟩]⟩]
  nodup := by decide

/-- The rules of `payments` are dropped. -/
theorem usersWithOrders_drops_payments :
    loadConfigFromJson 3 usersWithOrders.compact.text = some (usersWithOrders.configs.take 2) ∧
      ¬ ∃ rounds, loadConfigFromJson rounds usersWithOrders.compact.text =
        some usersWithOrders.configs := by
  constructor
  · rw [loadConfigFromJson_layout]
    decide +kernel
  · rintro ⟨rounds, hrounds⟩
    rw [loadConfigFromJson_layout] at hrounds
    have hall := followed_of_iterate (k := 0) hrounds
    have horders := (hall 1 _ (Nat.zero_le 1) rfl).2
    revert horders
    decide +kernel

end OpenArangoDBCore.Maskings
