import OpenArangoDBCore.Maskings.DocumentBraces

/-!
# Positions in a documented configuration

Where the parser finds a collection's object, where it comes to each
collection, and where it stops.
-/

namespace OpenArangoDBCore.Maskings
open AttributeMasking TextSearch Iterate
variable {doc : Document} {k : ℕ} {c : DocumentCollection}

/-! ### The search for a collection's object -/

theorem find_isSome_of_mem {t : Token} {tokens : List Token} (h : t ∈ tokens) :
    ∃ i, find [t] tokens = some i := by
  obtain ⟨front, back, rfl, hfront⟩ := List.eq_append_cons_of_mem h
  exact ⟨front.length, find_singleton_iff.mpr ⟨front, back, rfl, hfront, rfl⟩⟩

/-- A name with a brace behind it leads to a brace. -/
theorem exists_braceBehind {name : Name} {front between back : List Token} :
    ∃ i, braceBehind name (front ++ .str name :: (between ++ .openBrace :: back)) = some i := by
  have hname : .str name ∈ front ++ .str name :: (between ++ .openBrace :: back) := by simp
  obtain ⟨i, hi⟩ := find_isSome_of_mem hname
  obtain ⟨first, rest, heq, hfirst, rfl⟩ := find_singleton_iff.mp hi
  -- the first occurrence is not behind the given one
  have hle : first.length ≤ front.length := by
    by_contra hlt
    have hget := congrArg (fun l => l[front.length]?) heq
    rw [List.getElem?_append_right le_rfl, Nat.sub_self, List.getElem?_cons_zero,
      List.getElem?_append_left (by omega)] at hget
    exact hfirst (List.mem_of_getElem? hget.symm)
  have hmem : .openBrace ∈ (front ++ .str name :: (between ++ .openBrace :: back)).drop
      first.length := by
    rw [List.drop_append_of_le_length hle]
    simp
  obtain ⟨j, hj⟩ := find_isSome_of_mem hmem
  refine ⟨first.length + j, ?_⟩
  rw [braceBehind, hi, Option.bind_some, findFrom, hj]
  rfl

theorem exists_braceBehind_at (h : doc.collections[k]? = some c) :
    ∃ i, braceBehind c.name doc.tokens = some i := by
  have hsplit : doc.tokens = (documentOpening ++ doc.before k) ++
      Token.str c.name :: ([Token.colon] ++
      Token.openBrace :: (c.inside ++ [Token.closeBrace] ++ doc.behind k)) := by
    rw [tokens_at h, c.tokens_eq]
    simp
  rw [hsplit]
  exact exists_braceBehind

theorem braceBehind_split {name : Name} {tokens : List Token} {i : ℕ}
    (h : braceBehind name tokens = some i) :
    ∃ front between back, tokens = front ++ Token.str name :: (between ++ Token.openBrace :: back) ∧
      Token.str name ∉ front ∧ Token.openBrace ∉ between ∧
        i = front.length + 1 + between.length := by
  obtain ⟨p, hp, hi⟩ := Option.bind_eq_some_iff.mp h
  obtain ⟨front, rest, rfl, hfront, rfl⟩ := find_singleton_iff.mp hp
  obtain ⟨q, hq, rfl⟩ := Option.map_eq_some_iff.mp hi
  rw [List.drop_left] at hq
  obtain ⟨between, back, heq, hbetween, rfl⟩ := find_singleton_iff.mp hq
  cases between with
  | nil => exact absurd (List.cons.inj heq).1 Token.noConfusion
  | cons t between =>
    obtain ⟨rfl, rfl⟩ := List.cons.inj heq
    refine ⟨front, between, back, rfl, hfront, fun hmem => ?_, ?_⟩
    · exact hbetween (List.mem_cons_of_mem _ hmem)
    · rw [List.length_cons]
      omega

/-- The parser's search in the text is the search in the tokens. -/
theorem objectStart_print {pieces : List Piece} {name : Name}
    (happart : List.IsChain Apart (tokensOf pieces)) {i : ℕ}
    (h : braceBehind name (tokensOf pieces) = some i) (trailing : ByteString) :
    ∃ front gap back, pieces = front ++ (gap, Token.openBrace) :: back ∧ front.length = i ∧
      objectStart (print pieces ++ trailing) name.val =
        some ((print front).length + gap.val.length) := by
  obtain ⟨A, B, R, heq, hA, hB, rfl⟩ := braceBehind_split h
  obtain ⟨first, rest, rfl, rfl, hrest⟩ := tokensOf_eq_append heq
  obtain ⟨g, rest₁, rfl, hrest₁⟩ := tokensOf_eq_cons hrest
  obtain ⟨between, rest₂, rfl, rfl, hrest₂⟩ := tokensOf_eq_append hrest₁
  obtain ⟨gap, back, rfl, -⟩ := tokensOf_eq_cons hrest₂
  have hpart : List.IsChain Apart (tokensOf first ++ [Token.str name]) := by
    have hsplit : tokensOf first ++ Token.str name :: (tokensOf between ++ Token.openBrace :: R) =
        tokensOf first ++ [Token.str name] ++ (tokensOf between ++ Token.openBrace :: R) := by simp
    rw [heq, hsplit] at happart
    exact happart.left_of_append
  obtain ⟨object, hobject⟩ : ∃ object, object = print back ++ trailing := ⟨_, rfl⟩
  obtain ⟨text, htext⟩ : ∃ text, text = print (first ++ (g, Token.str name) :: (between ++
    (gap, Token.openBrace) :: back)) ++ trailing := ⟨_, rfl⟩
  have hsplit : text = (print first ++ g.val) ++ (quoted name.val ++
      ((print between ++ gap.val) ++ ([openBrace] ++ object))) := by
    rw [htext, hobject]
    simp [Token.text]
  have hname : find (quoted name.val) text = some (print first ++ g.val).length := by
    rw [hsplit, (noStart_print hpart hA g _).find, find_here]
    rfl
  have hdrop : text.drop (print first ++ g.val).length =
      (quoted name.val ++ print between ++ gap.val) ++ ([openBrace] ++ object) := by
    rw [hsplit, List.drop_left]
    simp
  have hno : openBrace ∉ quoted name.val ++ print between ++ gap.val := by
    simp only [List.mem_append, not_or]
    exact ⟨⟨notMem_quoted (by decide) (by decide) name, openBrace_notMem_print hB⟩,
      Gap.notMem (by decide) gap⟩
  refine ⟨first ++ (g, Token.str name) :: between, gap, back, by simp, ?_, ?_⟩
  · simp [tokensOf]
    omega
  · rw [← htext, objectStart, hname, Option.bind_some,
      findFrom_of_drop hdrop (noStart_of_notMem hno [] _)]
    simp [Token.text]
    omega

/-! ### Positions of a layout -/

theorem apart_document (doc : Document) : List.IsChain Apart doc.tokens := by
  have hcollections : List.IsChain Apart
      (separated (doc.collections.map DocumentCollection.tokens)) := by
    refine apart_separated fun item hitem => ?_
    obtain ⟨c, -, rfl⟩ := List.mem_map.mp hitem
    have hrules : List.IsChain Apart (separated (c.rules.map DocumentRule.tokens)) := by
      refine apart_separated fun item hitem => ?_
      obtain ⟨r, -, rfl⟩ := List.mem_map.mp hitem
      exact apart_rule r
    have hend : List.IsChain Apart [Token.closeBracket, Token.closeBrace] := by
      simp [List.isChain_cons_cons, Apart]
    have hinside : List.IsChain Apart (Token.openBracket :: (separated (c.rules.map
        DocumentRule.tokens) ++ [Token.closeBracket, Token.closeBrace])) := by
      have hlater := apart_append_cons (t := Token.closeBracket) (fun _ => Token.noConfusion) hrules
        (List.isChain_cons.mp hend).2
      exact List.isChain_cons.mpr ⟨fun _ _ => .inl fun _ => Token.noConfusion, hlater⟩
    simpa [DocumentCollection.tokens, List.isChain_cons_cons, Apart] using hinside
  have hend : List.IsChain Apart [Token.closeBrace, Token.closeBrace] := by
    simp [List.isChain_cons_cons, Apart]
  have hinside : List.IsChain Apart (Token.openBrace :: (separated (doc.collections.map
      DocumentCollection.tokens) ++ [Token.closeBrace, Token.closeBrace])) := by
    have hlater := apart_append_cons (t := .closeBrace) (fun _ => Token.noConfusion) hcollections
      (List.isChain_cons.mp hend).2
    exact List.isChain_cons.mpr ⟨fun _ _ => .inl fun _ => Token.noConfusion, hlater⟩
  simpa [Document.tokens, documentOpening, List.isChain_cons_cons, Apart] using hinside

theorem drop_print (front back : List Piece) (trailing : ByteString) :
    (print (front ++ back) ++ trailing).drop (print front).length = print back ++ trailing := by
  rw [print_append, List.append_assoc, List.drop_left]

/-- The partner of a printed brace, and the position behind it. -/
theorem matching_print (front back : List Piece) (g g' : Gap) {inside : List Piece}
    (h : Balanced .openBrace .closeBrace 3 (tokensOf inside)) (trailing : ByteString) :
    ∃ stop, findMatchingBrace
      (print (front ++ (g, .openBrace) :: (inside ++ (g', .closeBrace) :: back)) ++ trailing)
        ((print front).length + g.val.length + 1) openBrace closeBrace = some stop ∧
      stop + 1 = (print (front ++ (g, .openBrace) :: (inside ++ [(g', .closeBrace)]))).length := by
  have hdrop : (print (front ++ (g, .openBrace) :: (inside ++ (g', .closeBrace) :: back)) ++
      trailing).drop ((print front).length + g.val.length + 1) =
        print inside ++ (g'.val ++ closeBrace :: (print back ++ trailing)) := by
    have hat := drop_print front ((g, .openBrace) :: (inside ++ (g', .closeBrace) :: back)) trailing
    rw [print_cons, List.append_assoc] at hat
    rw [← List.drop_drop, drop_add hat]
    simp [Token.text]
  refine ⟨_, findMatchingBrace_of_drop bracePair h hdrop, ?_⟩
  simp [Token.text]
  omega

/-- Where the parser comes to collection number `k`. -/
def Layout.posOf (layout : Layout doc) (k : ℕ) : ℕ :=
  (print (layout.pieces.take (documentOpening ++ doc.before k).length)).length

theorem Layout.posOf_eq {layout : Layout doc} {front back : List Piece}
    (h : layout.pieces = front ++ back)
    (hfront : front.length = (documentOpening ++ doc.before k).length) :
    layout.posOf k = (print front).length := by
  rw [Layout.posOf, h, ← hfront, List.take_left]

/-- All but the last two tokens end in front of the limit. -/
def Layout.Within (layout : Layout doc) (limit : ℕ) : Prop :=
  ∀ front back, layout.pieces = front ++ back → 2 ≤ back.length → (print front).length ≤ limit

theorem within_of_pieces {layout : Layout doc} {front : List Piece} {p p' : Piece}
    (h : layout.pieces = front ++ [p, p']) (n : ℕ) :
    layout.Within ((print front).length + n) := by
  intro first rest hsplit hrest
  have heq : first ++ rest = front ++ [p, p'] := hsplit.symm.trans h
  have hlength := congrArg List.length heq
  simp only [List.length_append, List.length_cons, List.length_nil] at hlength
  have hfirst : first <+: front := by
    refine List.prefix_of_prefix_length_le ⟨rest, heq⟩ (List.prefix_append front [p, p']) ?_
    omega
  obtain ⟨more, rfl⟩ := hfirst
  rw [print_append, List.length_append]
  omega

/-- The search for the brace begins one byte behind the key. -/
theorem openBrace_behind_key {text front object : ByteString} {g₂ g₃ : Gap}
    (htext : text.drop front.length = quoted collectionsKey.val ++
      ((g₂.val ++ [colon] ++ g₃.val) ++ ([openBrace] ++ object))) :
    ∃ pos, findFrom [openBrace] text (front.length + 14) = some pos ∧
      pos = front.length + 13 + (g₂.val.length + 1 + g₃.val.length) ∧
      text.drop (pos + 1) = object := by
  obtain ⟨b, between, hbetween⟩ : ∃ b between, g₂.val ++ [colon] ++ g₃.val = b :: between :=
    List.exists_cons_of_ne_nil (by simp)
  have hlength : g₂.val.length + 1 + g₃.val.length = between.length + 1 := by
    have hlen := congrArg List.length hbetween
    simp only [List.length_append, List.length_cons, List.length_nil] at hlen
    omega
  have hno : openBrace ∉ between := by
    intro hmem
    have hopen : openBrace ∈ g₂.val ++ [colon] ++ g₃.val :=
      hbetween ▸ List.mem_cons_of_mem b hmem
    simp only [List.mem_append, List.mem_singleton] at hopen
    rcases hopen with (hopen | hopen) | hopen
    · exact Gap.notMem (by decide) g₂ hopen
    · exact absurd hopen (by decide)
    · exact Gap.notMem (by decide) g₃ hopen
  have hkeyLength : (quoted collectionsKey.val).length = 13 := by decide
  have hdrop : text.drop (front.length + 14) = between ++ ([openBrace] ++ object) := by
    have hbehind := drop_add htext
    rw [hkeyLength, hbetween] at hbehind
    rw [show (14 : ℕ) = 13 + 1 from rfl, ← Nat.add_assoc, ← List.drop_drop, hbehind]
    rfl
  have hbrace := findFrom_of_drop hdrop (noStart_of_notMem hno [] _)
  exact ⟨_, hbrace, by omega, drop_add (drop_add hdrop)⟩

theorem collectionsBrace_layout (layout : Layout doc) : ∃ brace limit,
    collectionsBrace layout.text = some brace ∧ brace + 1 = layout.posOf 0 ∧
      findMatchingBrace layout.text (brace + 1) openBrace closeBrace = some limit ∧
        layout.Within limit := by
  have htokens := layout.tokensOf_pieces
  obtain ⟨opening, others, hpieces, hopening, hothers⟩ := tokensOf_eq_append htokens
  obtain ⟨collections, closing, rfl, hcollections, hclosing⟩ := tokensOf_eq_append hothers
  obtain ⟨g, closing₀, rfl, hclosing₀⟩ := tokensOf_eq_cons hclosing
  obtain ⟨g', rfl⟩ := tokensOf_eq_singleton hclosing₀
  have hstart : layout.posOf 0 = (print opening).length := by
    refine Layout.posOf_eq hpieces ?_
    rw [← hopening]
    simp [tokensOf, Document.before]
  have hwithin : layout.Within ((print (opening ++ collections)).length + g.val.length) :=
    within_of_pieces (by rw [hpieces, List.append_assoc]) g.val.length
  obtain ⟨g₀, opening₀, rfl, hopening₀⟩ := tokensOf_eq_cons hopening
  obtain ⟨g₁, opening₁, rfl, hopening₁⟩ := tokensOf_eq_cons hopening₀
  obtain ⟨g₂, opening₂, rfl, hopening₂⟩ := tokensOf_eq_cons hopening₁
  obtain ⟨g₃, rfl⟩ := tokensOf_eq_singleton hopening₂
  obtain ⟨object, hobject⟩ : ∃ object, object = print collections ++ (g.val ++ closeBrace ::
    (print [(g', .closeBrace)] ++ layout.trailing.val)) := ⟨_, rfl⟩
  have hsplit : layout.text = (print [(g₀, .openBrace)] ++ g₁.val) ++
      (quoted collectionsKey.val ++ ((g₂.val ++ [colon] ++ g₃.val) ++ ([openBrace] ++ object))) := by
    rw [Layout.text, hpieces, hobject]
    simp [Token.text]
  have hkey : find (quoted (lit "collections")) layout.text =
      some (print [(g₀, .openBrace)] ++ g₁.val).length := by
    rw [hsplit]
    show find (quoted collectionsKey.val) _ = _
    rw [(noStart_print (by simp [tokensOf, List.isChain_cons_cons, Apart]) (by simp [tokensOf])
      g₁ _).find, find_here]
    rfl
  have htext : layout.text.drop (print [(g₀, Token.openBrace)] ++ g₁.val).length =
      quoted collectionsKey.val ++ ((g₂.val ++ [colon] ++ g₃.val) ++ ([openBrace] ++ object)) := by
    rw [hsplit, List.drop_left]
  obtain ⟨pos, hbrace, hpos, hinside⟩ := openBrace_behind_key htext
  rw [hobject] at hinside
  have hbalanced : Balanced .openBrace .closeBrace 3 (tokensOf collections) := by
    rw [hcollections]
    exact balanced_collections doc
  have hmatch := findMatchingBrace_of_drop bracePair hbalanced hinside
  have hposition : (print [(g₀, Token.openBrace), (g₁, .str collectionsKey), (g₂, .colon),
      (g₃, .openBrace)]).length = pos + 1 := by
    have hkeyLength : (quoted collectionsKey.val).length = 13 := by decide
    simp only [print_cons, print_nil, List.length_append, Token.text, List.length_singleton,
      List.length_nil] at hpos ⊢
    omega
  have hend : (print ([(g₀, Token.openBrace), (g₁, .str collectionsKey), (g₂, .colon),
      (g₃, .openBrace)] ++ collections)).length = pos + 1 + (print collections).length := by
    rw [print_append, List.length_append, hposition]
  refine ⟨pos, _, ?_, ?_, hmatch, hend ▸ hwithin⟩
  · rw [collectionsBrace, hkey, Option.bind_some, hbrace]
  · rw [hstart, hposition]

end OpenArangoDBCore.Maskings
