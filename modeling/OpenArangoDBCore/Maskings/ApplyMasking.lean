import OpenArangoDBCore.Lib.Chains
import OpenArangoDBCore.Maskings.AttributeMasking
import OpenArangoDBCore.Maskings.DigitMasks

/-!
# Applying a masking config (AttributeMasking.cpp, AttributeMaskingEE.cpp)

The rules of a config work on the fields of a document in their order, each
on what the rules before it have left. So the value of a field goes through a
chain of masks: those of the rules for its path, its collection and the role.
-/

namespace OpenArangoDBCore.Maskings
open Chains Redaction

/-- `none` is the overflow of a counter. -/
abbrev MaskingFunction := ByteString → Option ByteString

/-- The masks that are installed, by their names. -/
abbrev Registry := ByteString → Option MaskingFunction

namespace AttributeMasking

def installMasking (name : ByteString) (factory : MaskingFunction) (registry : Registry) :
    Registry :=
  Function.update registry name (some factory)

def findMasking (name : ByteString) (registry : Registry) : Option MaskingFunction := registry name

end AttributeMasking

def XifyFrontMask.mask (input : ByteString) : Option ByteString :=
  some (input.map fun ch => if ch = 0x20 then 0x20 else maskChar)

namespace EmailMask

def fnv1a (data : ByteString) : UInt32 :=
  data.foldl (fun hash c => (hash ^^^ UInt32.ofNat c.val) * 16777619) 2166136261

def toAlpha : UInt32 → ℕ → ByteString
  | _, 0 => []
  | val, len + 1 => Fin.ofNat 256 (0x41 + (val % 26).toNat) :: toAlpha (val / 26) len

def mask (input : ByteString) : Option ByteString :=
  let h := fnv1a input
  some (toAlpha h 4 ++ lit "." ++ toAlpha (h >>> 8) 4 ++ lit "@" ++ toAlpha (h >>> 16) 4 ++
    lit ".invalid")

end EmailMask

def InstallMaskingsEE (registry : Registry) : Registry :=
  AttributeMasking.installMasking (lit "phone") PhoneMask.mask
    (AttributeMasking.installMasking (lit "creditCard") CreditCardMask.mask
      (AttributeMasking.installMasking (lit "email") EmailMask.mask
        (AttributeMasking.installMasking (lit "xifyFront") XifyFrontMask.mask registry)))

def MaskingRule.appliesToRole (rule : MaskingRule) (role : ByteString) : Bool :=
  if rule.roles = [] then true else rule.roles.any fun r => r = role

/-- The fields of a document by their names. -/
abbrev Fields := ByteString → Option ByteString

namespace AttributeMasking
variable (registry : Registry) (collectionName userRole : ByteString)

/-- The body of the inner loop. -/
def applyRule (result : Fields) (rule : MaskingRule) : Option Fields :=
  if rule.appliesToRole userRole = false then some result
  else match result rule.path with
    | none => some result
    | some value =>
      match findMasking rule.type registry with
      | none => some result
      | some maskFn => (maskFn value).map fun masked =>
        Function.update result rule.path (some masked)

def applyMasking (fields : Fields) (configs : List CollectionMaskingConfig) : Option Fields :=
  configs.foldlM (fun result config =>
    if config.collectionName ≠ collectionName then some result
    else config.rules.foldlM (applyRule registry userRole) result) fields

end AttributeMasking

/-! ### The masks of the enterprise edition -/

inductive Strategy where
  | xifyFront
  | email
  | creditCard
  | phone
  deriving DecidableEq

namespace Strategy

def mask : Strategy → MaskingFunction
  | xifyFront => XifyFrontMask.mask
  | email => EmailMask.mask
  | creditCard => CreditCardMask.mask
  | phone => PhoneMask.mask

def named (type : ByteString) : Option Strategy :=
  if type = lit "phone" then some phone
  else if type = lit "creditCard" then some creditCard
  else if type = lit "email" then some email
  else if type = lit "xifyFront" then some xifyFront
  else none

/-- What a mask makes of a value whose digits can be counted. -/
def output : Strategy → ByteString → ByteString
  | xifyFront, input => input.map fun ch => if ch = 0x20 then 0x20 else maskChar
  | email, input => (EmailMask.mask input).getD []
  | creditCard, input => revealLast isdigit maskChar id 4 input
  | phone, input =>
    revealLast isdigit maskChar (fun ch => if PhoneMask.isSeparator ch then ch else maskChar) 4
      input

theorem find_installed (type : ByteString) :
    AttributeMasking.findMasking type (InstallMaskingsEE fun _ => none) =
      (named type).map mask := by
  unfold AttributeMasking.findMasking InstallMaskingsEE AttributeMasking.installMasking named
  simp only [Function.update_apply]
  split
  · rfl
  · split
    · rfl
    · split
      · rfl
      · split <;> rfl

/-- The values whose digits an `int` can count. -/
def Short (value : ByteString) : Prop := value.length < 2 ^ 31

theorem toAlpha_length (val : UInt32) (len : ℕ) : (EmailMask.toAlpha val len).length = len := by
  induction len generalizing val with
  | zero => rfl
  | succ len ih => rw [EmailMask.toAlpha, List.length_cons, ih]

theorem mask_short (s : Strategy) {value : ByteString} (h : Short value) :
    s.mask value = some (s.output value) ∧ Short (s.output value) := by
  have hcount : value.countP isdigit < 2 ^ 31 := List.countP_le_length.trans_lt h
  cases s with
  | xifyFront => exact ⟨rfl, by unfold Short output; rwa [List.length_map]⟩
  | email =>
    refine ⟨rfl, ?_⟩
    unfold Short output EmailMask.mask
    dsimp only [Option.getD_some]
    simp only [List.length_append, toAlpha_length]
    decide
  | creditCard =>
    refine ⟨(maskDigits_eq id value).trans (if_pos hcount), ?_⟩
    unfold Short output
    rwa [length_revealLast]
  | phone =>
    refine ⟨(maskDigits_eq _ value).trans (if_pos hcount), ?_⟩
    unfold Short output
    rwa [length_revealLast]

end Strategy

/-! ### The chain of a field -/

section Chain
variable (collectionName userRole : ByteString)

def ruleStrategy (path : ByteString) (rule : MaskingRule) : Option Strategy :=
  if rule.appliesToRole userRole = true ∧ rule.path = path then Strategy.named rule.type else none

/-- The masks that the value of a field goes through. -/
def fieldChain (configs : List CollectionMaskingConfig) (path : ByteString) : List Strategy :=
  configs.flatMap fun config =>
    if config.collectionName ≠ collectionName then []
    else config.rules.filterMap (ruleStrategy userRole path)

def ShortFields (fields : Fields) : Prop := ∀ path value, fields path = some value →
  Strategy.Short value

/-- Every field on its own, through the chain that belongs to its path. -/
def throughChains (chains : ByteString → List Strategy) (fields : Fields) : Fields :=
  fun path => (fields path).map (runChain Strategy.output (chains path))

theorem throughChains_short {fields : Fields} (h : ShortFields fields)
    (chains : ByteString → List Strategy) : ShortFields (throughChains chains fields) := by
  intro path value hvalue
  obtain ⟨v, hv, rfl⟩ := Option.map_eq_some_iff.mp hvalue
  exact runChain_rel (R := fun v _ => Strategy.Short v) (fun k _ v _ hv => (k.mask_short hv).2)
    (w := v) (h path v hv)

theorem throughChains_throughChains (chains more : ByteString → List Strategy) (fields : Fields) :
    throughChains more (throughChains chains fields) =
      throughChains (fun path => chains path ++ more path) fields := by
  funext path
  unfold throughChains
  rw [Option.map_map]
  congr 1
  funext v
  exact (runChain_append _ _ v).symm

theorem throughChains_nil (fields : Fields) : throughChains (fun _ => []) fields = fields := by
  funext path
  exact Option.map_id'

theorem applyRule_chain {fields : Fields} (h : ShortFields fields) (rule : MaskingRule) :
    AttributeMasking.applyRule (InstallMaskingsEE fun _ => none) userRole fields rule =
      some (throughChains (fun path => (ruleStrategy userRole path rule).toList) fields) := by
  have hskip : (∀ path, fields path ≠ none → ruleStrategy userRole path rule = none) →
      throughChains (fun path => (ruleStrategy userRole path rule).toList) fields = fields := by
    intro hnone
    funext path
    unfold throughChains
    cases hf : fields path with
    | none => rfl
    | some v =>
      dsimp only
      rw [hnone path (by rw [hf]; nofun)]
      rfl
  unfold AttributeMasking.applyRule
  cases hrole : rule.appliesToRole userRole with
  | false =>
    rw [if_pos rfl, hskip]
    intro path _
    exact if_neg (by rw [hrole]; exact fun h => nomatch h.1)
  | true =>
    rw [if_neg Bool.noConfusion]
    cases hvalue : fields rule.path with
    | none =>
      dsimp only
      rw [hskip]
      intro path hpath
      refine if_neg ?_
      rintro ⟨-, rfl⟩
      exact hpath hvalue
    | some value =>
      dsimp only
      rw [Strategy.find_installed]
      cases hnamed : Strategy.named rule.type with
      | none =>
        rw [Option.map_none]
        dsimp only
        rw [hskip]
        intro path _
        unfold ruleStrategy
        rw [hnamed, ite_self]
      | some strategy =>
        rw [Option.map_some]
        dsimp only
        rw [(strategy.mask_short (h _ _ hvalue)).1, Option.map_some]
        congr 1
        funext path
        unfold throughChains ruleStrategy
        dsimp only
        rw [Function.update_apply, hrole, hnamed]
        by_cases hpath : path = rule.path
        · rw [if_pos hpath, hpath, hvalue, if_pos ⟨rfl, rfl⟩]
          rfl
        · rw [if_neg hpath, if_neg fun heq => hpath heq.2.symm]
          exact Option.map_id'.symm

theorem applyRules_chain {fields : Fields} (h : ShortFields fields) (rules : List MaskingRule) :
    rules.foldlM (AttributeMasking.applyRule (InstallMaskingsEE fun _ => none) userRole) fields =
      some (throughChains (fun path => rules.filterMap (ruleStrategy userRole path)) fields) := by
  induction rules generalizing fields with
  | nil => exact congrArg some (throughChains_nil fields).symm
  | cons rule rules ih =>
    rw [List.foldlM_cons, applyRule_chain userRole h]
    refine (ih (throughChains_short h _)).trans ?_
    rw [throughChains_throughChains]
    congr 1
    congr 1
    funext path
    cases hrule : ruleStrategy userRole path rule with
    | none => rw [List.filterMap_cons_none hrule]; rfl
    | some strategy => rw [List.filterMap_cons_some hrule]; rfl

/-- What is masked, and by what: the masks of a field are applied to it in the
order of the rules, no field comes or goes, and nothing else happens to any. -/
theorem applyMasking_chain {fields : Fields} (h : ShortFields fields)
    (configs : List CollectionMaskingConfig) :
    AttributeMasking.applyMasking (InstallMaskingsEE fun _ => none) collectionName userRole fields
        configs =
      some (throughChains (fieldChain collectionName userRole configs) fields) := by
  unfold AttributeMasking.applyMasking
  induction configs generalizing fields with
  | nil => exact congrArg some (throughChains_nil fields).symm
  | cons config configs ih =>
    rw [List.foldlM_cons]
    have hchain : ∀ path, fieldChain collectionName userRole (config :: configs) path =
        (if config.collectionName ≠ collectionName then []
          else config.rules.filterMap (ruleStrategy userRole path)) ++
        fieldChain collectionName userRole configs path := fun _ => List.flatMap_cons
    by_cases hname : config.collectionName = collectionName
    · rw [if_neg (not_not.mpr hname), applyRules_chain userRole h]
      refine (ih (throughChains_short h _)).trans ?_
      rw [throughChains_throughChains]
      congr 2
      funext path
      rw [hchain, if_neg (not_not.mpr hname)]
    · rw [if_pos hname]
      refine (ih h).trans ?_
      congr 2
      funext path
      rw [hchain, if_pos hname, List.nil_append]

end Chain

/-! ### What a chain lets through -/

/-- The same length and the same spaces. -/
def SameSpaces (v w : ByteString) : Prop :=
  v.map (fun ch => decide (ch = 0x20)) = w.map fun ch => decide (ch = 0x20)

/-- The same up to the digits, and the same last four of these. -/
def SameLastFour (v w : ByteString) : Prop :=
  SameShape isdigit v w ∧ lastSecrets isdigit 4 v = lastSecrets isdigit 4 w

theorem digit_not_space {ch : Byte} (h : isdigit ch = true) : ch ≠ 0x20 := by
  rintro rfl
  cases h

theorem revealLast_spaces (plain : Byte → Byte)
    (hplain : ∀ ch, isdigit ch = false → (decide (plain ch = 0x20) = decide (ch = 0x20)))
    (value : ByteString) :
    (revealLast isdigit maskChar plain 4 value).map (fun ch => decide (ch = 0x20)) =
      value.map fun ch => decide (ch = 0x20) := by
  refine map_revealLast 4 ?_ hplain value
  intro ch hch
  rw [decide_eq_false (digit_not_space hch)]
  rfl

theorem toAlpha_spaces (val : UInt32) (len : ℕ) :
    (EmailMask.toAlpha val len).map (fun ch => decide (ch = 0x20)) = List.replicate len false := by
  induction len generalizing val with
  | zero => rfl
  | succ len ih =>
    rw [EmailMask.toAlpha, List.map_cons, ih, List.replicate_succ]
    congr 1
    refine decide_eq_false ?_
    intro h
    have hmod : (val % 26).toNat < 26 := by
      rw [UInt32.toNat_mod]
      exact Nat.mod_lt _ (by decide)
    have hval := congrArg Fin.val h
    rw [Fin.val_ofNat, Nat.mod_eq_of_lt (by omega)] at hval
    have hspace : (0x20 : Byte).val = 0x20 := rfl
    omega

theorem xifyFront_hides {v w : ByteString} (h : SameSpaces v w) :
    Strategy.xifyFront.output v = Strategy.xifyFront.output w := by
  have hfactor : ∀ value : ByteString, Strategy.xifyFront.output value =
      (value.map fun ch => decide (ch = 0x20)).map
        fun space => if space then 0x20 else maskChar := by
    intro value
    unfold Strategy.output
    rw [List.map_map]
    refine List.map_congr_left ?_
    intro ch _
    simp
  rw [hfactor, hfactor, h]

theorem output_sameSpaces (s : Strategy) {v w : ByteString} (h : SameSpaces v w) :
    SameSpaces (s.output v) (s.output w) := by
  cases s with
  | xifyFront =>
    rw [xifyFront_hides h]
    rfl
  | email =>
    unfold SameSpaces Strategy.output EmailMask.mask
    simp only [Option.getD_some, List.map_append, toAlpha_spaces]
  | creditCard =>
    have hspaces := revealLast_spaces id fun _ _ => rfl
    exact (hspaces v).trans (h.trans (hspaces w).symm)
  | phone =>
    have hplain : ∀ ch, isdigit ch = false →
        decide ((if PhoneMask.isSeparator ch then ch else maskChar) = 0x20) =
          decide (ch = 0x20) := by
      intro ch _
      split
      next => rfl
      next hch =>
        symm
        rw [decide_eq_false]
        · rfl
        · rintro rfl
          exact hch rfl
    have hspaces := revealLast_spaces _ hplain
    exact (hspaces v).trans (h.trans (hspaces w).symm)

/-- Two values that no reader of a chain's output can tell apart. -/
inductive Concealed (chain : List Strategy) (v w : ByteString) : Prop
  | same (h : v = w)
  | spaces (hmask : .xifyFront ∈ chain) (h : SameSpaces v w)
  | digits (hmask : ∃ rest, chain = .creditCard :: rest ∨ chain = .phone :: rest)
      (h : SameLastFour v w)
  | hash (hmask : ∃ rest, chain = .email :: rest) (h : EmailMask.fnv1a v = EmailMask.fnv1a w)

theorem Concealed.output_eq {chain : List Strategy} {v w : ByteString} (h : Concealed chain v w) :
    runChain Strategy.output chain v = runChain Strategy.output chain w := by
  cases h with
  | same h => rw [h]
  | spaces hmask h =>
    exact runChain_eq_of_hidden hmask (fun s _ _ _ => output_sameSpaces s)
      (fun _ _ => xifyFront_hides) h
  | digits hmask h =>
    obtain ⟨rest, rfl | rfl⟩ := hmask
    · rw [runChain_cons, runChain_cons]
      exact congrArg (runChain Strategy.output rest) (revealLast_eq_of_sameShape 4 h.1 h.2)
    · rw [runChain_cons, runChain_cons]
      exact congrArg (runChain Strategy.output rest) (revealLast_eq_of_sameShape 4 h.1 h.2)
  | hash hmask h =>
    obtain ⟨rest, rfl⟩ := hmask
    rw [runChain_cons, runChain_cons]
    have houtput : ∀ value, Strategy.email.output value = (EmailMask.mask value).getD [] :=
      fun _ => rfl
    rw [houtput, houtput]
    unfold EmailMask.mask
    rw [h]

/-- Two documents with the same fields whose values differ only in what the
chains of the fields hide: the length and the spaces are what is left behind
`xifyFront`, wherever it stands; the last four digits and the rest behind a
card or phone mask that comes first; and a hash of 32 bits behind an email
mask that comes first. Then both are masked to the same document. -/
theorem masked_documents_agree (collectionName userRole : ByteString)
    (configs : List CollectionMaskingConfig) (fields fields' : Fields) (h : ShortFields fields)
    (h' : ShortFields fields')
    (halike : ∀ path, Option.Rel (Concealed (fieldChain collectionName userRole configs path))
      (fields path) (fields' path)) :
    AttributeMasking.applyMasking (InstallMaskingsEE fun _ => none) collectionName userRole fields
        configs =
      AttributeMasking.applyMasking (InstallMaskingsEE fun _ => none) collectionName userRole
        fields' configs := by
  rw [applyMasking_chain _ _ h, applyMasking_chain _ _ h']
  congr 1
  funext path
  have hvalues := halike path
  unfold throughChains
  generalize fields path = value at hvalues ⊢
  generalize fields' path = value' at hvalues ⊢
  cases hvalues with
  | none => rfl
  | some hconcealed => exact congrArg some hconcealed.output_eq

/-- Of an account no more is seen than its last digits, of a name its length. -/
def sampleConfig : List CollectionMaskingConfig :=
  [⟨lit "users", [⟨lit "card", lit "creditCard", []⟩, ⟨lit "card", lit "phone", [lit "guest"]⟩,
    ⟨lit "name", lit "email", [lit "admin"]⟩, ⟨lit "name", lit "xifyFront", []⟩]⟩]

def userFields (card name : ByteString) : Fields :=
  Function.update (Function.update (fun _ => none) (lit "card") (some card)) (lit "name")
    (some name)

theorem userFields_short {card name : ByteString} (hcard : Strategy.Short card)
    (hname : Strategy.Short name) : ShortFields (userFields card name) := by
  intro path value hvalue
  unfold userFields at hvalue
  rw [Function.update_apply, Function.update_apply] at hvalue
  split at hvalue
  · exact Option.some.inj hvalue ▸ hname
  · split at hvalue
    · exact Option.some.inj hvalue ▸ hcard
    · cases hvalue

theorem sample_users_agree :
    AttributeMasking.applyMasking (InstallMaskingsEE fun _ => none) (lit "users") (lit "guest")
        (userFields (lit "4111-1234") (lit "Ann Lee")) sampleConfig =
      AttributeMasking.applyMasking (InstallMaskingsEE fun _ => none) (lit "users") (lit "guest")
        (userFields (lit "5000-1234") (lit "Bob Ray")) sampleConfig := by
  refine masked_documents_agree _ _ _ _ _ (userFields_short (by unfold Strategy.Short; decide)
    (by unfold Strategy.Short; decide)) (userFields_short (by unfold Strategy.Short; decide)
    (by unfold Strategy.Short; decide)) ?_
  intro path
  unfold userFields
  rw [Function.update_apply, Function.update_apply, Function.update_apply, Function.update_apply]
  split
  next hname =>
    rw [hname]
    exact .some (.spaces (by decide +kernel) (by unfold SameSpaces; decide))
  · split
    next hcard =>
      rw [hcard]
      refine .some (.digits ⟨[.phone], .inl (by decide +kernel)⟩ ⟨?_, by decide⟩)
      unfold SameShape
      decide
    · exact .none

/-! ### Masking what is masked -/

namespace Strategy

def phonePlain (ch : Byte) : Byte := if PhoneMask.isSeparator ch then ch else maskChar

theorem creditCard_output (value : ByteString) :
    creditCard.output value = revealLast isdigit maskChar id 4 value := rfl

theorem phone_output (value : ByteString) :
    phone.output value = revealLast isdigit maskChar phonePlain 4 value := rfl

theorem phonePlain_maskChar : phonePlain maskChar = maskChar := by decide

theorem phonePlain_phonePlain (ch : Byte) : phonePlain (phonePlain ch) = phonePlain ch := by
  unfold phonePlain
  split
  · rfl
  next hch => rfl

theorem isdigit_phonePlain {ch : Byte} (h : isdigit ch = false) :
    isdigit (phonePlain ch) = false := by
  unfold phonePlain
  split
  · exact h
  · rfl

/-- Not more digits than a card or phone mask leaves. -/
def FewDigits (value : ByteString) : Prop := value.countP isdigit ≤ 4

/-- Nothing but what a phone mask leaves of the other bytes. -/
def PhoneLike (value : ByteString) : Prop :=
  ∀ ch ∈ value, isdigit ch = false → phonePlain ch = ch

theorem creditCard_fixed {value : ByteString} (h : FewDigits value) :
    creditCard.output value = value := revealLast_of_few 4 h fun _ _ _ => rfl

theorem phone_fixed {value : ByteString} (h : FewDigits value) (hlike : PhoneLike value) :
    phone.output value = value := revealLast_of_few 4 h hlike

theorem mem_xifyFront {value : ByteString} {ch : Byte} (h : ch ∈ xifyFront.output value) :
    ch = 0x20 ∨ ch = maskChar := by
  obtain ⟨c, -, rfl⟩ := List.mem_map.mp h
  split
  · exact .inl rfl
  · exact .inr rfl

theorem revealLast_few {plain : Byte → Byte}
    (hplain : ∀ ch, isdigit ch = false → isdigit (plain ch) = false) (value : ByteString) :
    FewDigits (revealLast isdigit maskChar plain 4 value) := by
  unfold FewDigits
  rw [countP_revealLast 4 rfl hplain]
  exact Nat.min_le_left _ _

theorem output_few {s : Strategy} (hs : s ≠ email) (value : ByteString) :
    FewDigits (s.output value) := by
  cases s with
  | email => exact absurd rfl hs
  | xifyFront =>
    have hnone : (xifyFront.output value).countP isdigit = 0 := by
      rw [List.countP_eq_zero]
      intro ch hch
      rcases mem_xifyFront hch with rfl | rfl <;> decide
    unfold FewDigits
    omega
  | creditCard =>
    rw [creditCard_output]
    exact revealLast_few (fun _ h => h) value
  | phone =>
    rw [phone_output]
    exact revealLast_few (fun _ h => isdigit_phonePlain h) value

theorem xifyFront_phoneLike (value : ByteString) : PhoneLike (xifyFront.output value) := by
  intro ch hch _
  rcases mem_xifyFront hch with rfl | rfl <;> decide

theorem phone_phoneLike (value : ByteString) : PhoneLike (phone.output value) := by
  intro ch hch hdigit
  rcases mem_revealLast 4 hch with ⟨-, h⟩ | rfl | ⟨c, -, -, heq⟩
  · rw [hdigit] at h
    cases h
  · exact phonePlain_maskChar
  · rw [heq]
    exact phonePlain_phonePlain c

theorem creditCard_phoneLike {value : ByteString} (h : PhoneLike value) :
    PhoneLike (creditCard.output value) := by
  intro ch hch hdigit
  rcases mem_revealLast 4 hch with ⟨-, hd⟩ | rfl | ⟨c, hc, hplain, heq⟩
  · rw [hdigit] at hd
    cases hd
  · exact phonePlain_maskChar
  · rw [heq]
    exact h c hc hplain

theorem output_output {s : Strategy} (hs : s ≠ email) (value : ByteString) :
    s.output (s.output value) = s.output value := by
  have hfew := output_few hs value
  cases s with
  | email => exact absurd rfl hs
  | creditCard => exact creditCard_fixed hfew
  | phone => exact phone_fixed hfew (phone_phoneLike value)
  | xifyFront =>
    refine (List.map_congr_left ?_).trans (List.map_id _)
    intro ch hch
    rcases mem_xifyFront hch with rfl | rfl <;> rfl

/-- A mask that has nothing to do on a value has nothing to do either on what
another mask makes of it. -/
theorem output_fixed {s t : Strategy} (hs : s ≠ email) (ht : t ≠ email) {value : ByteString}
    (h : s.output value = value) : s.output (t.output value) = t.output value := by
  have hfew := output_few ht value
  cases s with
  | email => exact absurd rfl hs
  | creditCard => exact creditCard_fixed hfew
  | phone =>
    refine phone_fixed hfew ?_
    cases t with
    | email => exact absurd rfl ht
    | xifyFront => exact xifyFront_phoneLike value
    | phone => exact phone_phoneLike value
    | creditCard =>
      refine creditCard_phoneLike ?_
      rw [← h]
      exact phone_phoneLike value
  | xifyFront =>
    -- on blanks and mask characters no mask has anything to do
    have hvalue : t.output value = value := by
      have hfew' : FewDigits value := h ▸ output_few hs value
      cases t with
      | email => exact absurd rfl ht
      | xifyFront => exact h
      | creditCard => exact creditCard_fixed hfew'
      | phone => exact phone_fixed hfew' (h ▸ xifyFront_phoneLike value)
    rw [hvalue, h]

end Strategy

theorem email_not_mem {collectionName userRole : ByteString}
    {configs : List CollectionMaskingConfig}
    (h : ∀ config ∈ configs, config.collectionName = collectionName → ∀ rule ∈ config.rules,
      rule.appliesToRole userRole = true → rule.type ≠ lit "email") (path : ByteString) :
    .email ∉ fieldChain collectionName userRole configs path := by
  intro hmem
  unfold fieldChain at hmem
  obtain ⟨config, hconfig, hmem⟩ := List.mem_flatMap.mp hmem
  split at hmem
  · cases hmem
  next hname =>
    obtain ⟨rule, hrule, hstrategy⟩ := List.mem_filterMap.mp hmem
    unfold ruleStrategy at hstrategy
    split at hstrategy
    next happlies =>
      refine h config hconfig (not_not.mp hname) rule hrule happlies.1 ?_
      unfold Strategy.named at hstrategy
      grind
    next => cases hstrategy

/-- Whatever rules, collections and roles a config has, as long as no email
mask applies: a masked document that is masked again stays as it is. -/
theorem remasking_changes_nothing (collectionName userRole : ByteString)
    (configs : List CollectionMaskingConfig) (fields : Fields) (hshort : ShortFields fields)
    (h : ∀ config ∈ configs, config.collectionName = collectionName → ∀ rule ∈ config.rules,
      rule.appliesToRole userRole = true → rule.type ≠ lit "email") :
    ((AttributeMasking.applyMasking (InstallMaskingsEE fun _ => none) collectionName userRole fields
        configs).bind fun masked =>
      AttributeMasking.applyMasking (InstallMaskingsEE fun _ => none) collectionName userRole masked
        configs) =
      AttributeMasking.applyMasking (InstallMaskingsEE fun _ => none) collectionName userRole fields
        configs := by
  rw [applyMasking_chain _ _ hshort, Option.bind_some,
    applyMasking_chain _ _ (throughChains_short hshort _)]
  congr 1
  funext path
  have hne : ∀ s ∈ fieldChain collectionName userRole configs path, s ≠ .email := by
    rintro s hs rfl
    exact email_not_mem h path hs
  unfold throughChains
  rw [Option.map_map]
  congr 1
  funext value
  exact runChain_runChain (fun s hs => Strategy.output_output (hne s hs))
    (fun s hs t ht _ => Strategy.output_fixed (hne s hs) (hne t ht)) value

theorem guest_remasked :
    ((AttributeMasking.applyMasking (InstallMaskingsEE fun _ => none) (lit "users") (lit "guest")
        (userFields (lit "4111-1234") (lit "Ann Lee")) sampleConfig).bind fun masked =>
      AttributeMasking.applyMasking (InstallMaskingsEE fun _ => none) (lit "users") (lit "guest")
        masked sampleConfig) =
      AttributeMasking.applyMasking (InstallMaskingsEE fun _ => none) (lit "users") (lit "guest")
        (userFields (lit "4111-1234") (lit "Ann Lee")) sampleConfig :=
  remasking_changes_nothing _ _ _ _ (userFields_short (by unfold Strategy.Short; decide)
    (by unfold Strategy.Short; decide)) (by decide +kernel)

end OpenArangoDBCore.Maskings
