import Mathlib.Data.List.Forall2
import Mathlib.Tactic

/-!
# Search filters of a directory

The string representation of a search filter as a grammar over octets, one
constructor for each alternative, and what a filter says of an entry. A value
stands for itself in a filter exactly if it is plain: well-formed UTF-8
without the octet zero, parentheses, asterisk and backslash.
-/

namespace OpenArangoDBCore.SearchFilter

abbrev Octet := Fin 256

def chr (c : Char) : Octet := ⟨c.toNat % 256, Nat.mod_lt _ (by decide)⟩

/-! ### Values -/

/-- A single octet that stands for itself. -/
def Utf1Subset (b : Octet) : Prop :=
  (1 ≤ b.val ∧ b.val ≤ 0x27) ∨ (0x2B ≤ b.val ∧ b.val ≤ 0x5B) ∨ (0x5D ≤ b.val ∧ b.val ≤ 0x7F)

/-- The octet ranges of the characters of two, three and four octets. -/
def multibyte : List (List (ℕ × ℕ)) :=
  [[(0xC2, 0xDF), (0x80, 0xBF)],
    [(0xE0, 0xE0), (0xA0, 0xBF), (0x80, 0xBF)], [(0xE1, 0xEC), (0x80, 0xBF), (0x80, 0xBF)],
    [(0xED, 0xED), (0x80, 0x9F), (0x80, 0xBF)], [(0xEE, 0xEF), (0x80, 0xBF), (0x80, 0xBF)],
    [(0xF0, 0xF0), (0x90, 0xBF), (0x80, 0xBF), (0x80, 0xBF)],
    [(0xF1, 0xF3), (0x80, 0xBF), (0x80, 0xBF), (0x80, 0xBF)],
    [(0xF4, 0xF4), (0x80, 0x8F), (0x80, 0xBF), (0x80, 0xBF)]]

def Multibyte (bs : List Octet) : Prop :=
  ∃ ranges ∈ multibyte, List.Forall₂ (fun b r => r.1 ≤ Fin.val b ∧ Fin.val b ≤ r.2) bs ranges

def hexDigit (b : Octet) : Option ℕ :=
  if 0x30 ≤ b.val ∧ b.val ≤ 0x39 then some (b.val - 0x30)
  else if 0x41 ≤ b.val ∧ b.val ≤ 0x46 then some (b.val - 0x37)
  else if 0x61 ≤ b.val ∧ b.val ≤ 0x66 then some (b.val - 0x57)
  else none

inductive Encodes : List Octet → List Octet → Prop
  | nil : Encodes [] []
  | single {b : Octet} {text value : List Octet} : Utf1Subset b → Encodes text value →
      Encodes (b :: text) (b :: value)
  | multi {bs text value : List Octet} : Multibyte bs → Encodes text value →
      Encodes (bs ++ text) (bs ++ value)
  | escaped {high low b : Octet} {h l : ℕ} {text value : List Octet} : hexDigit high = some h →
      hexDigit low = some l → b.val = 16 * h + l → Encodes text value →
      Encodes (chr '\\' :: high :: low :: text) (b :: value)

inductive Plain : List Octet → Prop
  | nil : Plain []
  | single {b : Octet} {value : List Octet} : Utf1Subset b → Plain value → Plain (b :: value)
  | multi {bs value : List Octet} : Multibyte bs → Plain value → Plain (bs ++ value)

/-! ### Filters -/

def IsAlpha (b : Octet) : Prop :=
  (0x41 ≤ b.val ∧ b.val ≤ 0x5A) ∨ (0x61 ≤ b.val ∧ b.val ≤ 0x7A)
def IsDigit (b : Octet) : Prop := 0x30 ≤ b.val ∧ b.val ≤ 0x39
def IsKeychar (b : Octet) : Prop := IsAlpha b ∨ IsDigit b ∨ b = chr '-'

def IsDescr (s : List Octet) : Prop :=
  ∃ b rest, s = b :: rest ∧ IsAlpha b ∧ ∀ c ∈ rest, IsKeychar c

def IsNumber (s : List Octet) : Prop :=
  s ≠ [] ∧ (∀ b ∈ s, IsDigit b) ∧ (s.head? = some (chr '0') → s.length = 1)

/-- Two or more numbers with dots between them. -/
inductive IsNumericOid : List Octet → Prop
  | two {s t : List Octet} : IsNumber s → IsNumber t → IsNumericOid (s ++ chr '.' :: t)
  | more {s t : List Octet} : IsNumericOid s → IsNumber t → IsNumericOid (s ++ chr '.' :: t)

def IsOid (s : List Octet) : Prop := IsDescr s ∨ IsNumericOid s

/-- An attribute type with options. -/
inductive IsAttribute : List Octet → Prop
  | oid {s : List Octet} : IsOid s → IsAttribute s
  | withOption {s opt : List Octet} : IsAttribute s → opt ≠ [] → (∀ b ∈ opt, IsKeychar b) →
      IsAttribute (s ++ chr ';' :: opt)

inductive Item where
  | equality (attr value : List Octet)
  | approx (attr value : List Octet)
  | greaterOrEqual (attr value : List Octet)
  | lessOrEqual (attr value : List Octet)
  | present (attr : List Octet)
  | substrings (attr first : List Octet) (inner : List (List Octet)) (last : List Octet)
  | extensible (attr : Option (List Octet)) (dnAttrs : Bool) (rule : Option (List Octet))
      (value : List Octet)

inductive Filter where
  | and (filters : List Filter)
  | or (filters : List Filter)
  | not (filter : Filter)
  | item (item : Item)

/-- An asterisk, then values that end in an asterisk each. -/
inductive DerivesInner : List Octet → List (List Octet) → Prop
  | star : DerivesInner [chr '*'] []
  | cons {text more value : List Octet} {inner : List (List Octet)} : DerivesInner more inner →
      Encodes text value → DerivesInner (more ++ text ++ [chr '*']) (inner ++ [value])

inductive DerivesDnAttrs : List Octet → Bool → Prop
  | none : DerivesDnAttrs [] false
  | dn : DerivesDnAttrs [chr ':', chr 'd', chr 'n'] true

inductive DerivesItem : List Octet → Item → Prop
  | equality {a text value : List Octet} : IsAttribute a → Encodes text value →
      DerivesItem (a ++ chr '=' :: text) (.equality a value)
  | approx {a text value : List Octet} : IsAttribute a → Encodes text value →
      DerivesItem (a ++ chr '~' :: chr '=' :: text) (.approx a value)
  | greaterOrEqual {a text value : List Octet} : IsAttribute a → Encodes text value →
      DerivesItem (a ++ chr '>' :: chr '=' :: text) (.greaterOrEqual a value)
  | lessOrEqual {a text value : List Octet} : IsAttribute a → Encodes text value →
      DerivesItem (a ++ chr '<' :: chr '=' :: text) (.lessOrEqual a value)
  | present {a : List Octet} : IsAttribute a →
      DerivesItem (a ++ [chr '=', chr '*']) (.present a)
  | substrings {a first middle last v w : List Octet} {inner : List (List Octet)} :
      IsAttribute a → Encodes first v → DerivesInner middle inner → Encodes last w →
      first ++ middle ++ last ≠ [chr '*'] →
      DerivesItem (a ++ chr '=' :: (first ++ middle ++ last)) (.substrings a v inner w)
  | extensible {a dn text value : List Octet} {dnAttrs : Bool} : IsAttribute a →
      DerivesDnAttrs dn dnAttrs → Encodes text value →
      DerivesItem (a ++ (dn ++ chr ':' :: chr '=' :: text))
        (.extensible (some a) dnAttrs none value)
  | extensibleRule {a dn rule text value : List Octet} {dnAttrs : Bool} : IsAttribute a →
      DerivesDnAttrs dn dnAttrs → IsOid rule → Encodes text value →
      DerivesItem (a ++ (dn ++ chr ':' :: rule ++ chr ':' :: chr '=' :: text))
        (.extensible (some a) dnAttrs (some rule) value)
  | extensibleBare {dn rule text value : List Octet} {dnAttrs : Bool} :
      DerivesDnAttrs dn dnAttrs → IsOid rule → Encodes text value →
      DerivesItem (dn ++ chr ':' :: rule ++ chr ':' :: chr '=' :: text)
        (.extensible none dnAttrs (some rule) value)

mutual

/-- The filters that a string represents. -/
inductive Derives : List Octet → Filter → Prop
  | and {text : List Octet} {filters : List Filter} : DerivesList text filters →
      Derives (chr '(' :: chr '&' :: text ++ [chr ')']) (.and filters)
  | or {text : List Octet} {filters : List Filter} : DerivesList text filters →
      Derives (chr '(' :: chr '|' :: text ++ [chr ')']) (.or filters)
  | not {text : List Octet} {filter : Filter} : Derives text filter →
      Derives (chr '(' :: chr '!' :: text ++ [chr ')']) (.not filter)
  | item {text : List Octet} {item : Item} : DerivesItem text item →
      Derives (chr '(' :: text ++ [chr ')']) (.item item)

inductive DerivesList : List Octet → List Filter → Prop
  | one {text : List Octet} {filter : Filter} : Derives text filter → DerivesList text [filter]
  | cons {text more : List Octet} {filter : Filter} {filters : List Filter} :
      Derives text filter → DerivesList more filters →
      DerivesList (text ++ more) (filter :: filters)

end

/-! ### Meaning -/

section Meaning
variable {Entry : Type} (rules : Item → Entry → Option Bool)

/- `none` is the third truth value, Undefined; the matching rules of the
directory decide the items. -/
mutual

def Filter.eval : Filter → Entry → Option Bool
  | .and filters, e => evalAnd filters e
  | .or filters, e => evalOr filters e
  | .not filter, e => (filter.eval e).map (!·)
  | .item item, e => rules item e

def evalAnd : List Filter → Entry → Option Bool
  | [], _ => some true
  | f :: filters, e =>
    match f.eval e, evalAnd filters e with
    | some false, _ | _, some false => some false
    | some true, some true => some true
    | _, _ => none

def evalOr : List Filter → Entry → Option Bool
  | [], _ => some false
  | f :: filters, e =>
    match f.eval e, evalOr filters e with
    | some true, _ | _, some true => some true
    | some false, some false => some false
    | _, _ => none

end

end Meaning
/-! ### Plain values -/

theorem multibyte_high {bs : List Octet} (h : Multibyte bs) : ∀ b ∈ bs, 0x80 ≤ b.val := by
  obtain ⟨ranges, hmem, hall⟩ := h
  have hhigh : ∀ ranges ∈ multibyte, ∀ r ∈ ranges, 0x80 ≤ r.1 := by decide
  have hranges := hhigh ranges hmem
  clear hmem hhigh
  induction hall with
  | nil => exact fun b hb => absurd hb List.not_mem_nil
  | cons hr _ ih =>
    intro b hb
    cases List.mem_cons.mp hb with
    | inl heq =>
      rw [heq]
      exact (hranges _ List.mem_cons_self).trans hr.1
    | inr hb => exact ih (fun r hr => hranges r (List.mem_cons_of_mem _ hr)) b hb

theorem Plain.encodes {v : List Octet} (h : Plain v) : Encodes v v := by
  induction h with
  | nil => exact .nil
  | single hb _ ih => exact .single hb ih
  | multi hbs _ ih => exact .multi hbs ih

/-- A value is no longer than its encoding, and as long only if it is plain. -/
theorem Encodes.length {text value : List Octet} (h : Encodes text value) :
    value.length ≤ text.length ∧ (value.length = text.length → text = value ∧ Plain value) := by
  induction h with
  | nil => exact ⟨Nat.le_refl _, fun _ => ⟨rfl, .nil⟩⟩
  | single hb _ ih =>
    obtain ⟨hle, hsame⟩ := ih
    refine ⟨Nat.succ_le_succ hle, ?_⟩
    intro heq
    obtain ⟨rfl, hplain⟩ := hsame (Nat.succ.inj heq)
    exact ⟨rfl, .single hb hplain⟩
  | multi hbs _ ih =>
    obtain ⟨hle, hsame⟩ := ih
    simp only [List.length_append]
    refine ⟨Nat.add_le_add_left hle _, ?_⟩
    intro heq
    obtain ⟨rfl, hplain⟩ := hsame (Nat.add_left_cancel heq)
    exact ⟨rfl, .multi hbs hplain⟩
  | escaped _ _ _ _ ih =>
    obtain ⟨hle, -⟩ := ih
    simp only [List.length_cons]
    refine ⟨by omega, ?_⟩
    intro heq
    omega

/-- Without a backslash an encoding is the value itself. -/
theorem Encodes.eq_of_no_escape {text value : List Octet} (h : Encodes text value)
    (hno : chr '\\' ∉ text) : text = value := by
  induction h with
  | nil => rfl
  | single _ _ ih =>
    rw [ih fun hmem => hno (List.mem_cons_of_mem _ hmem)]
  | multi _ _ ih =>
    rw [ih fun hmem => hno (List.mem_append_right _ hmem)]
  | escaped => exact absurd List.mem_cons_self hno

def special : List Octet := [chr '\x00', chr '(', chr ')', chr '*', chr '\\']

theorem Plain.no_special {v : List Octet} (h : Plain v) : ∀ b ∈ special, b ∉ v := by
  have hlow : ∀ b ∈ special, b.val < 0x80 := by decide +kernel
  have hsingle : ∀ b ∈ special, ¬ Utf1Subset b := by
    unfold Utf1Subset
    decide +kernel
  intro b hb
  induction h with
  | nil => exact List.not_mem_nil
  | single hb' _ ih =>
    intro hmem
    cases List.mem_cons.mp hmem with
    | inl heq => exact hsingle b hb (heq ▸ hb')
    | inr hmem => exact ih hmem
  | multi hbs _ ih =>
    intro hmem
    cases List.mem_append.mp hmem with
    | inl hmem =>
      have hhigh := multibyte_high hbs b hmem
      have := hlow b hb
      omega
    | inr hmem => exact ih hmem

/-! ### The strings of one equality -/

def AttrChar (b : Octet) : Prop := IsKeychar b ∨ b = chr '.' ∨ b = chr ';'

theorem number_chars {s : List Octet} (h : IsNumber s) : s ≠ [] ∧ ∀ b ∈ s, AttrChar b :=
  ⟨h.1, fun b hb => .inl (.inr (.inl (h.2.1 b hb)))⟩

theorem append_chars {s t : List Octet} {c : Octet} (hs : s ≠ [] ∧ ∀ b ∈ s, AttrChar b)
    (hc : AttrChar c) (ht : ∀ b ∈ t, AttrChar b) :
    s ++ c :: t ≠ [] ∧ ∀ b ∈ s ++ c :: t, AttrChar b := by
  refine ⟨List.append_ne_nil_of_left_ne_nil hs.1 _, ?_⟩
  intro b hb
  rcases List.mem_append.mp hb with hb | hb
  · exact hs.2 b hb
  · rcases List.mem_cons.mp hb with rfl | hb
    · exact hc
    · exact ht b hb

theorem oid_chars {s : List Octet} (h : IsOid s) : s ≠ [] ∧ ∀ b ∈ s, AttrChar b := by
  cases h with
  | inl h =>
    obtain ⟨b, rest, rfl, hb, hrest⟩ := h
    refine ⟨List.cons_ne_nil _ _, ?_⟩
    intro c hc
    rcases List.mem_cons.mp hc with rfl | hc
    · exact .inl (.inl hb)
    · exact .inl (hrest c hc)
  | inr h =>
    induction h with
    | two hs ht => exact append_chars (number_chars hs) (.inr (.inl rfl)) (number_chars ht).2
    | more _ ht ih => exact append_chars ih (.inr (.inl rfl)) (number_chars ht).2

theorem attribute_chars {s : List Octet} (h : IsAttribute s) :
    s ≠ [] ∧ ∀ b ∈ s, AttrChar b := by
  induction h with
  | oid h => exact oid_chars h
  | withOption _ _ hopt ih =>
    exact append_chars ih (.inr (.inr rfl)) fun b hb => .inl (hopt b hb)

/-- The octets that end an attribute or begin a composite filter. -/
theorem no_attrChar : ∀ b ∈ [chr '=', chr '~', chr '>', chr '<', chr ':', chr '&', chr '|',
    chr '!', chr '('], ¬ AttrChar b := by
  unfold AttrChar IsKeychar IsAlpha IsDigit
  decide +kernel

/-- An attribute ends at the first octet that is not one of an attribute. -/
theorem attribute_split {a b v w : List Octet} {c d : Octet} (ha : ∀ x ∈ a, AttrChar x)
    (hb : ∀ x ∈ b, AttrChar x) (hc : ¬ AttrChar c) (hd : ¬ AttrChar d)
    (h : a ++ c :: v = b ++ d :: w) : a = b ∧ c = d ∧ v = w := by
  induction a generalizing b with
  | nil =>
    cases b with
    | nil =>
      obtain ⟨hcd, hvw⟩ := List.cons.inj h
      exact ⟨rfl, hcd, hvw⟩
    | cons x b =>
      obtain ⟨hcx, -⟩ := List.cons.inj h
      exact absurd (hcx ▸ hb x List.mem_cons_self) hc
  | cons x a ih =>
    cases b with
    | nil =>
      obtain ⟨hxd, -⟩ := List.cons.inj h
      exact absurd (hxd ▸ ha x List.mem_cons_self) hd
    | cons y b =>
      obtain ⟨hxy, hrest⟩ := List.cons.inj h
      obtain ⟨hab, hcd, hvw⟩ := ih (fun z hz => ha z (List.mem_cons_of_mem _ hz))
        (fun z hz => hb z (List.mem_cons_of_mem _ hz)) hrest
      exact ⟨by rw [hxy, hab], hcd, hvw⟩

theorem inner_star {text : List Octet} {inner : List (List Octet)} (h : DerivesInner text inner) :
    chr '*' ∈ text := by
  cases h with
  | star => exact List.mem_cons_self
  | cons => exact List.mem_append_right _ List.mem_cons_self

theorem dnAttrs_colon {dn : List Octet} {dnAttrs : Bool} (h : DerivesDnAttrs dn dnAttrs)
    (rest : List Octet) : ∃ more, dn ++ chr ':' :: rest = chr ':' :: more := by
  cases h with
  | none => exact ⟨rest, rfl⟩
  | dn => exact ⟨_, rfl⟩

section Equality
variable {a v : List Octet}

/-- Behind the attribute of an equality comes the equals sign. -/
theorem equality_sign {b w : List Octet} {d : Octet} (ha : ∀ x ∈ a, AttrChar x)
    (hb : ∀ x ∈ b, AttrChar x) (hd : d ∈ [chr '~', chr '>', chr '<', chr ':', chr '&', chr '|',
      chr '!', chr '(']) : a ++ chr '=' :: v ≠ b ++ d :: w := by
  intro h
  have hequals : chr '=' ∉ [chr '~', chr '>', chr '<', chr ':', chr '&', chr '|', chr '!',
      chr '('] := by decide +kernel
  obtain ⟨-, heq, -⟩ := attribute_split ha hb (no_attrChar _ List.mem_cons_self)
    (no_attrChar d (List.mem_cons_of_mem _ hd)) h
  exact hequals (heq ▸ hd)

theorem derivesItem_plain (ha : IsAttribute a) (hv : Plain v) {item : Item} :
    DerivesItem (a ++ chr '=' :: v) item ↔ item = .equality a v := by
  have hchars := (attribute_chars ha).2
  have hequals : ¬ AttrChar (chr '=') := no_attrChar _ List.mem_cons_self
  have hcolon : ∀ b w : List Octet, (∀ x ∈ b, AttrChar x) →
      a ++ chr '=' :: v ≠ b ++ chr ':' :: w :=
    fun b w hb => equality_sign hchars hb (by decide +kernel)
  have hstar : chr '*' ∉ v := hv.no_special _ (by decide +kernel)
  have hescape : chr '\\' ∉ v := hv.no_special _ (by decide +kernel)
  constructor
  · intro h
    generalize htext : a ++ chr '=' :: v = text at h
    cases h with
    | equality ha' hvalue =>
      obtain ⟨rfl, -, rfl⟩ := attribute_split hchars (attribute_chars ha').2 hequals hequals htext
      rw [hvalue.eq_of_no_escape hescape]
    | present ha' =>
      obtain ⟨-, -, hvalue⟩ := attribute_split hchars (attribute_chars ha').2 hequals hequals htext
      rw [hvalue] at hstar
      exact absurd List.mem_cons_self hstar
    | substrings ha' _ hinner _ _ =>
      obtain ⟨-, -, hvalue⟩ := attribute_split hchars (attribute_chars ha').2 hequals hequals htext
      rw [hvalue] at hstar
      exact absurd (List.mem_append_left _ (List.mem_append_right _ (inner_star hinner))) hstar
    | approx ha' _ =>
      exact absurd htext (equality_sign hchars (attribute_chars ha').2 (by decide +kernel))
    | greaterOrEqual ha' _ =>
      exact absurd htext (equality_sign hchars (attribute_chars ha').2 (by decide +kernel))
    | lessOrEqual ha' _ =>
      exact absurd htext (equality_sign hchars (attribute_chars ha').2 (by decide +kernel))
    | @extensible _ _ text _ _ ha' hdn _ =>
      obtain ⟨more, hmore⟩ := dnAttrs_colon hdn (chr '=' :: text)
      rw [hmore] at htext
      exact absurd htext (hcolon _ _ (attribute_chars ha').2)
    | @extensibleRule _ _ rule text _ _ ha' hdn _ _ =>
      rw [List.append_assoc, List.cons_append] at htext
      obtain ⟨more, hmore⟩ := dnAttrs_colon hdn (rule ++ chr ':' :: chr '=' :: text)
      rw [hmore] at htext
      exact absurd htext (hcolon _ _ (attribute_chars ha').2)
    | @extensibleBare _ rule text _ _ hdn _ _ =>
      rw [List.append_assoc, List.cons_append] at htext
      obtain ⟨more, hmore⟩ := dnAttrs_colon hdn (rule ++ chr ':' :: chr '=' :: text)
      rw [hmore] at htext
      exact absurd htext (hcolon [] _ fun x hx => absurd hx List.not_mem_nil)
  · rintro rfl
    exact .equality ha hv.encodes

/-- With a plain value the string is that one equality and nothing else. -/
theorem derives_plain (ha : IsAttribute a) (hv : Plain v) {filter : Filter} :
    Derives (chr '(' :: (a ++ chr '=' :: v) ++ [chr ')']) filter ↔
      filter = .item (.equality a v) := by
  have hchars := (attribute_chars ha).2
  have hcomposite : ∀ (d : Octet) (text : List Octet), d ∈ [chr '~', chr '>', chr '<', chr ':',
      chr '&', chr '|', chr '!', chr '('] → a ++ chr '=' :: v ≠ d :: text :=
    fun d text hd => equality_sign (b := []) hchars (fun x hx => absurd hx List.not_mem_nil) hd
  constructor
  · intro h
    generalize htext : chr '(' :: (a ++ chr '=' :: v) ++ [chr ')'] = text at h
    cases h with
    | item h =>
      have hsame := List.append_cancel_right (List.cons.inj htext).2
      rw [← hsame] at h
      rw [(derivesItem_plain ha hv).mp h]
    | and h | or h | not h =>
      have hsame := List.append_cancel_right (List.cons.inj htext).2
      exact absurd hsame (hcomposite _ _ (by decide +kernel))
  · rintro rfl
    exact .item ((derivesItem_plain ha hv).mpr rfl)

/-- An equality is derived from an encoding of its value alone. -/
theorem derives_equality_inv {text : List Octet}
    (h : Derives text (.item (.equality a v))) :
    ∃ value, text = chr '(' :: (a ++ chr '=' :: value) ++ [chr ')'] ∧ Encodes value v := by
  cases h with
  | item h =>
    cases h with
    | equality _ hvalue => exact ⟨_, rfl, hvalue⟩

end Equality

end OpenArangoDBCore.SearchFilter
