import OpenArangoDBCore.Maskings.LoadCollection

/-!
# Braces of a documented configuration

Behind the object of a collection comes the next collection. Every other brace
of a document closes where no collection comes.
-/

namespace OpenArangoDBCore.Maskings
open AttributeMasking

/-- The object that begins in front of these tokens closes, and nothing comes behind it. -/
def Closes (tokens : List Token) : Prop :=
  ∃ inner behind, tokens = inner ++ .closeBrace :: behind ∧
    Balanced .openBrace .closeBrace 3 inner ∧ Stops behind

/-- `φ` holds before and behind each opening brace of the tokens, which stand
between `before` and `behind`. -/
def EachBrace (φ : List Token → List Token → Prop) (before tokens behind : List Token) : Prop :=
  ∀ front back, tokens = front ++ .openBrace :: back → φ (before ++ front) (back ++ behind)

variable {φ : List Token → List Token → Prop} {before tokens more behind : List Token}

theorem eachBrace_of_notMem (h : .openBrace ∉ tokens) : EachBrace φ before tokens behind := by
  rintro front back rfl
  exact absurd (List.mem_append_right front List.mem_cons_self) h

theorem EachBrace.append (h : EachBrace φ before tokens (more ++ behind))
    (hmore : EachBrace φ (before ++ tokens) more behind) :
    EachBrace φ before (tokens ++ more) behind := by
  intro front back heq
  rcases List.append_eq_append_iff.mp heq with ⟨middle, rfl, hback⟩ | ⟨middle, rfl, hmiddle⟩
  · rw [← List.append_assoc]
    exact hmore middle back hback
  · cases middle with
    | nil =>
      rw [List.append_nil] at hmore
      have hfirst := hmore [] back hmiddle.symm
      rwa [List.append_nil] at hfirst
    | cons t middle =>
      obtain ⟨rfl, rfl⟩ := List.cons.inj hmiddle
      show φ (before ++ front) (middle ++ more ++ behind)
      rw [List.append_assoc]
      exact h front middle rfl

theorem EachBrace.cons (h : φ before (tokens ++ behind))
    (hrest : EachBrace φ (before ++ [.openBrace]) tokens behind) :
    EachBrace φ before (.openBrace :: tokens) behind := by
  intro front back heq
  cases front with
  | nil =>
    obtain ⟨-, rfl⟩ := List.cons.inj heq
    rwa [List.append_nil]
  | cons t front =>
    obtain ⟨rfl, rfl⟩ := List.cons.inj heq
    have hlater := hrest front back rfl
    rwa [List.append_assoc] at hlater

/-- The tokens of the collection between its braces. -/
def DocumentCollection.inside (c : DocumentCollection) : List Token :=
  [.str rulesKey, .colon, .openBracket] ++
    (separated (c.rules.map DocumentRule.tokens) ++ [.closeBracket])

theorem balanced_brace_collection (c : DocumentCollection) {n : ℕ} :
    Balanced .openBrace .closeBrace (n + 1) c.inside := by
  have hkey : Balanced .openBrace .closeBrace (n + 1) [.str rulesKey, .colon, .openBracket] :=
    balanced_of_notMem (by simp) (by simp)
  have hend : Balanced .openBrace .closeBrace (n + 1) [.closeBracket] :=
    balanced_of_notMem (by simp) (by simp)
  refine hkey.append (Balanced.append ?_ hend)
  refine balanced_separated (by decide) (by decide) fun item hitem => ?_
  obtain ⟨r, -, rfl⟩ := List.mem_map.mp hitem
  exact balanced_brace_rule r

theorem DocumentCollection.tokens_eq (c : DocumentCollection) :
    c.tokens = [Token.str c.name, Token.colon] ++
      Token.openBrace :: (c.inside ++ [Token.closeBrace]) := by
  simp [DocumentCollection.tokens, DocumentCollection.inside]

theorem balanced_collections (doc : Document) {n : ℕ} : Balanced Token.openBrace .closeBrace
    (n + 2) (separated (doc.collections.map DocumentCollection.tokens)) := by
  refine balanced_separated (by decide) (by decide) fun item hitem => ?_
  obtain ⟨c, -, rfl⟩ := List.mem_map.mp hitem
  rw [c.tokens_eq]
  exact (balanced_of_notMem (by simp) (by simp)).append (.nest (balanced_brace_collection c) .nil)

/-- No rule object has a collection behind it. -/
theorem closes_rules (rules : List DocumentRule) (before behind : List Token) :
    EachBrace (fun _ back => Closes back) before (separated (rules.map DocumentRule.tokens))
      (Token.closeBracket :: behind) := by
  have hrule : ∀ (r : DocumentRule) before rest, Stops rest →
      EachBrace (fun _ back => Closes back) before r.tokens rest := by
    intro r before rest hrest
    rw [r.tokens_eq_inside]
    refine EachBrace.cons ⟨r.inside, rest, by simp, balanced_brace_inside r, hrest⟩ ?_
    refine eachBrace_of_notMem fun hmem => ?_
    rcases List.mem_append.mp hmem with hmem | hmem
    · rcases List.mem_append.mp hmem with hmem | hmem
      · simp at hmem
      · exact notMem_rolesTokens (by decide) (fun _ => Token.noConfusion) (by decide) (by decide)
          (by decide) r hmem
    · simp at hmem
  induction rules generalizing before with
  | nil => exact eachBrace_of_notMem (by simp [separated])
  | cons r rules ih =>
    cases rules with
    | nil =>
      rw [List.map_singleton, separated_singleton]
      exact hrule r before _ ⟨by simp, by simp⟩
    | cons next rules =>
      have hcons : separated ((r :: next :: rules).map DocumentRule.tokens) = r.tokens ++
          ([Token.comma] ++ separated ((next :: rules).map DocumentRule.tokens)) :=
        separated_cons_cons _ _ _
      rw [hcons]
      refine (hrule r before _ ?_).append ((eachBrace_of_notMem (by simp)).append (ih _))
      -- behind the comma stands the brace of the next rule
      have hnext : ∃ more, separated ((next :: rules).map DocumentRule.tokens) =
          Token.openBrace :: more := by
        rw [List.map_cons, separated, Records.intercalate_cons_eq_flatMap, next.tokens_eq_inside]
        exact ⟨_, rfl⟩
      obtain ⟨tokens, htokens⟩ := hnext
      rw [htokens]
      exact ⟨by simp, by simp⟩

theorem EachBrace.mono {ψ : List Token → List Token → Prop} (h : EachBrace φ before tokens behind)
    (himp : ∀ front back, φ front back → ψ front back) : EachBrace ψ before tokens behind :=
  fun front back heq => himp _ _ (h front back heq)

theorem separated_append_cons (items : List (List Token)) (item : List Token)
    (later : List (List Token)) : separated (items ++ item :: later) =
      (items.flatMap fun x => x ++ [Token.comma]) ++
        (item ++ later.flatMap fun x => [Token.comma] ++ x) := by
  induction items with
  | nil => exact Records.intercalate_cons_eq_flatMap _ _ _
  | cons x items ih =>
    have hne : items ++ item :: later ≠ [] := by simp
    rw [List.cons_append, separated, List.intercalate_cons_of_ne_nil hne, List.flatMap_cons,
      List.append_assoc, List.append_assoc, ← ih]
    simp [separated]

variable {doc : Document} {k : ℕ} {c : DocumentCollection}

theorem collections_eq (h : doc.collections[k]? = some c) :
    doc.collections = doc.collections.take k ++ c :: doc.collections.drop (k + 1) := by
  obtain ⟨hlt, rfl⟩ := List.getElem?_eq_some_iff.mp h
  rw [← List.drop_eq_getElem_cons hlt, List.take_append_drop]

/-- The document around collection number `k`. -/
theorem tokens_at (h : doc.collections[k]? = some c) :
    doc.tokens = documentOpening ++ doc.before k ++ (c.tokens ++ doc.behind k) := by
  have hsplit : separated (doc.collections.map DocumentCollection.tokens) = doc.before k ++
      (c.tokens ++ (doc.collections.drop (k + 1)).flatMap fun c => [Token.comma] ++ c.tokens) := by
    rw [collections_eq h, List.map_append, List.map_cons, separated_append_cons,
      List.flatMap_map, List.flatMap_map, ← collections_eq h]
    rfl
  rw [Document.tokens, hsplit, Document.behind]
  simp

theorem before_succ (h : doc.collections[k]? = some c) :
    doc.before (k + 1) = doc.before k ++ (c.tokens ++ [Token.comma]) := by
  rw [Document.before, List.take_add_one, h, Option.toList_some, List.flatMap_append]
  simp [Document.before]

theorem two_le_behind (doc : Document) (k : ℕ) : 2 ≤ (doc.behind k).length := by
  simp [Document.behind]

theorem behind_last (h : doc.collections.length ≤ k + 1) :
    doc.behind k = [Token.closeBrace, Token.closeBrace] := by
  rw [Document.behind, List.drop_eq_nil_of_le h]
  rfl

theorem behind_next (h : doc.collections[k + 1]? = some c) :
    doc.behind k = Token.comma :: (c.tokens ++ doc.behind (k + 1)) := by
  obtain ⟨hlt, rfl⟩ := List.getElem?_eq_some_iff.mp h
  rw [Document.behind, List.drop_eq_getElem_cons hlt, List.flatMap_cons, Document.behind]
  simp

/-- Behind the brace of a collection come its rules and what is behind the collection. -/
theorem inside_of_brace {front back : List Token}
    (h : doc.tokens = front ++ Token.openBrace :: back)
    (hk : doc.collections[k]? = some c) (hfront : front.length = doc.brace k) :
    back = c.inside ++ Token.closeBrace :: doc.behind k := by
  have hsplit : front ++ Token.openBrace :: back = (documentOpening ++ doc.before k ++
      [Token.str c.name, Token.colon]) ++
        Token.openBrace :: (c.inside ++ Token.closeBrace :: doc.behind k) := by
    rw [← h, tokens_at hk, c.tokens_eq]
    simp
  have hlength : front.length = (documentOpening ++ doc.before k ++
      [Token.str c.name, Token.colon]).length := by
    rw [hfront, Document.brace]
    simp only [List.length_append, List.length_cons, List.length_nil]
  exact (List.cons.inj (List.append_inj hsplit hlength).2).2

theorem brace_lt_of_lt {j : ℕ} (hj : j < k) (h : doc.collections[j]? = some c) :
    doc.brace j < doc.brace k := by
  have hpos : 0 < c.tokens.length := by simp [DocumentCollection.tokens]
  have hstep := before_succ h
  have hrest : doc.before (j + 1) <+: doc.before k := by
    rw [Document.before, Document.before]
    obtain ⟨more, hmore⟩ := List.take_prefix_take_left (l := doc.collections) hj
    rw [← hmore, List.flatMap_append]
    exact List.prefix_append _ _
  have hle := hrest.length_le
  rw [hstep, List.length_append, List.length_append] at hle
  unfold Document.brace
  rw [List.length_append, List.length_append]
  omega

/-- A brace is the one of a collection, or nothing is read behind its object. -/
def Document.BraceAt (doc : Document) (front back : List Token) : Prop :=
  (∃ k c, doc.collections[k]? = some c ∧ front.length = doc.brace k) ∨ Closes back

theorem eachBrace_inside (c : DocumentCollection) (before behind : List Token) :
    EachBrace (fun _ back => Closes back) before c.inside behind := by
  refine (eachBrace_of_notMem (by simp)).append (EachBrace.append ?_ ?_)
  · exact closes_rules c.rules _ _
  · exact eachBrace_of_notMem (by simp)

theorem eachBrace_collection (h : doc.collections[k]? = some c) (behind : List Token) :
    EachBrace doc.BraceAt (documentOpening ++ doc.before k) c.tokens behind := by
  have hbrace : (documentOpening ++ doc.before k ++ [Token.str c.name, Token.colon]).length =
      doc.brace k := by
    rw [List.length_append, Document.brace]
    rfl
  rw [c.tokens_eq]
  refine (eachBrace_of_notMem (by simp)).append (.cons (.inl ⟨k, c, h, hbrace⟩) ?_)
  refine EachBrace.append ?_ (eachBrace_of_notMem (by simp))
  exact (eachBrace_inside c _ _).mono fun _ _ => .inr

theorem eachBrace_collections {later : List DocumentCollection}
    (h : later = doc.collections.drop k) :
    EachBrace doc.BraceAt (documentOpening ++ doc.before k)
      (separated (later.map DocumentCollection.tokens)) [Token.closeBrace, Token.closeBrace] := by
  induction later generalizing k with
  | nil => exact eachBrace_of_notMem (by simp [separated])
  | cons c later ih =>
    have hat : doc.collections[k]? = some c := by
      rw [← List.head?_drop, ← h]
      rfl
    have hrest : later = doc.collections.drop (k + 1) := by
      rw [← List.tail_drop, ← h]
      rfl
    cases later with
    | nil =>
      rw [List.map_singleton, separated_singleton]
      exact eachBrace_collection hat _
    | cons next later =>
      have hcons : separated ((c :: next :: later).map DocumentCollection.tokens) = c.tokens ++
          ([Token.comma] ++ separated ((next :: later).map DocumentCollection.tokens)) :=
        separated_cons_cons _ _ _
      have hnext := ih hrest
      rw [before_succ hat, ← List.append_assoc, ← List.append_assoc] at hnext
      rw [hcons]
      exact (eachBrace_collection hat _).append ((eachBrace_of_notMem (by simp)).append hnext)

/-- The opening braces are those of the collections, and others with nothing to read behind. -/
theorem brace_or_closes {front back : List Token}
    (h : doc.tokens = front ++ Token.openBrace :: back) :
    (∃ k c, doc.collections[k]? = some c ∧ front.length = doc.brace k) ∨ Closes back := by
  have hall : EachBrace doc.BraceAt (documentOpening ++ doc.before 0)
      (separated (doc.collections.map DocumentCollection.tokens))
      [Token.closeBrace, Token.closeBrace] :=
    eachBrace_collections List.drop_zero.symm
  have hdocument : EachBrace doc.BraceAt [] (Token.openBrace ::
        ([Token.str collectionsKey, Token.colon] ++ Token.openBrace ::
          (separated (doc.collections.map DocumentCollection.tokens) ++
            [Token.closeBrace, Token.closeBrace]))) [] := by
    -- the object around all others, and the one of the collections
    have houter : Closes ([Token.str collectionsKey, Token.colon] ++ Token.openBrace ::
        (separated (doc.collections.map DocumentCollection.tokens) ++
          [Token.closeBrace, Token.closeBrace])) := by
      refine ⟨[Token.str collectionsKey, Token.colon] ++ Token.openBrace ::
        (separated (doc.collections.map DocumentCollection.tokens) ++ [Token.closeBrace]), [],
          by simp, ?_, by simp, by simp⟩
      exact (balanced_of_notMem (by simp) (by simp)).append (.nest (balanced_collections doc) .nil)
    have hinner : Closes (separated (doc.collections.map DocumentCollection.tokens) ++
        [Token.closeBrace, Token.closeBrace]) :=
      ⟨_, [Token.closeBrace], rfl, balanced_collections doc, by simp, by simp⟩
    refine .cons (.inr (by rwa [List.append_nil])) ?_
    refine (eachBrace_of_notMem (by simp)).append (.cons (.inr (by rwa [List.append_nil])) ?_)
    exact hall.append (eachBrace_of_notMem (by simp))
  have hfound := hdocument front back h
  rwa [List.nil_append, List.append_nil] at hfound

end OpenArangoDBCore.Maskings
