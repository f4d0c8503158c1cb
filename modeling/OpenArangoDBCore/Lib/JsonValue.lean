import OpenArangoDBCore.Lib.JsonText

/-!
# JSON values

The value of a sequence of tokens, with the containers that are not complete
on a stack. Every string of the value is a token of the text.
-/

namespace OpenArangoDBCore

inductive Json where
  | null
  | bool (b : Bool)
  | num (text : Json.Text)
  | str (text : Json.Text)
  | arr (items : List Json)
  | obj (members : List (Json.Text × Json))

namespace Json

/-! ### Access -/

/-- The value of a member; where a key is repeated, the last one counts. -/
def member (key : Text) : Json → Option Json
  | .obj members => (members.reverse.find? fun m => decide (m.1 = key)).map Prod.snd
  | _ => none

def items : Json → Option (List Json)
  | .arr items => some items
  | _ => none

def string : Json → Option Text
  | .str text => some text
  | _ => none

def boolean : Json → Option Bool
  | .bool b => some b
  | _ => none

def number : Json → Option Text
  | .num text => some text
  | _ => none

/-! ### The parser -/

/-- A container that is waiting for a value. -/
inductive Frame where
  | arr (items : List Json)
  | obj (members : List (Text × Json)) (key : Text)

/-- What the parser has read and what it reads next. -/
inductive Parse where
  | value (frames : List Frame)
  | firstItem (frames : List Frame)
  | firstKey (frames : List Frame)
  | key (members : List (Text × Json)) (frames : List Frame)
  | colon (members : List (Text × Json)) (key : Text) (frames : List Frame)
  | afterItem (items : List Json) (frames : List Frame)
  | afterMember (members : List (Text × Json)) (frames : List Frame)
  | done (value : Json)

def place (value : Json) : List Frame → Parse
  | [] => .done value
  | .arr items :: frames => .afterItem (items ++ [value]) frames
  | .obj members key :: frames => .afterMember (members ++ [(key, value)]) frames

def parseValue (frames : List Frame) : Token → Option Parse
  | .openBrace => some (.firstKey frames)
  | .openBracket => some (.firstItem frames)
  | .null => some (place .null frames)
  | .bool b => some (place (.bool b) frames)
  | .num text => some (place (.num text) frames)
  | .str text => some (place (.str text) frames)
  | _ => none

def parseToken : Parse → Token → Option Parse
  | .value frames, token => parseValue frames token
  | .firstItem frames, token =>
    if token = .closeBracket then some (place (.arr []) frames)
    else parseValue (.arr [] :: frames) token
  | .firstKey frames, .closeBrace => some (place (.obj []) frames)
  | .firstKey frames, .str key => some (.colon [] key frames)
  | .key members frames, .str key => some (.colon members key frames)
  | .colon members key frames, .colon => some (.value (.obj members key :: frames))
  | .afterItem items frames, .comma => some (.value (.arr items :: frames))
  | .afterItem items frames, .closeBracket => some (place (.arr items) frames)
  | .afterMember members frames, .comma => some (.key members frames)
  | .afterMember members frames, .closeBrace => some (place (.obj members) frames)
  | _, _ => none

def parseTokens (tokens : List Token) : Option Json :=
  match tokens.foldlM parseToken (.value []) with
  | some (.done value) => some value
  | _ => none

/-- A document is UTF-8 and one value. -/
def parse (text : Text) : Option Json :=
  if wellFormed text then (lex text).bind parseTokens else none

/-! ### Where the strings of a value come from -/

inductive Mentions (text : Text) : Json → Prop where
  | str : Mentions text (.str text)
  | item {items : List Json} {value : Json} (hmem : value ∈ items) (h : Mentions text value) :
      Mentions text (.arr items)
  | member {members : List (Text × Json)} {entry : Text × Json} (hmem : entry ∈ members)
      (h : Mentions text entry.2) : Mentions text (.obj members)

theorem Mentions.of_string {value : Json} {text : Text} (h : value.string = some text) :
    Mentions text value := by
  cases value with
  | str other =>
    obtain rfl := Option.some.inj h
    exact .str
  | null => cases h
  | bool b => cases h
  | num other => cases h
  | arr items => cases h
  | obj members => cases h

theorem Mentions.of_member {value part : Json} {key text : Text}
    (h : value.member key = some part) (hpart : Mentions text part) : Mentions text value := by
  cases value with
  | obj members =>
    obtain ⟨entry, hentry, rfl⟩ := Option.map_eq_some_iff.mp h
    exact .member (List.mem_reverse.mp (List.mem_of_find?_eq_some hentry)) hpart
  | null => cases h
  | bool b => cases h
  | num other => cases h
  | str other => cases h
  | arr items => cases h

theorem Mentions.of_items {value : Json} {items : List Json} {text : Text}
    (h : value.items = some items) {item : Json} (hitem : item ∈ items)
    (hmentions : Mentions text item) : Mentions text value := by
  cases value with
  | arr others =>
    obtain rfl := Option.some.inj h
    exact .item hitem hmentions
  | null => cases h
  | bool b => cases h
  | num other => cases h
  | str other => cases h
  | obj members => cases h

theorem Mentions.of_memberString {value : Json} {key text : Text}
    (h : value.member key >>= string = some text) : Mentions text value := by
  obtain ⟨part, hpart, hstring⟩ := Option.bind_eq_some_iff.mp h
  exact Mentions.of_member hpart (Mentions.of_string hstring)

/-- All strings of the value satisfy `P`. -/
def Holds (P : Text → Prop) (value : Json) : Prop := ∀ text, Mentions text value → P text

theorem Holds.arr {P : Text → Prop} {items : List Json} (h : ∀ value ∈ items, value.Holds P) :
    (Json.arr items).Holds P := by
  intro text hmentions
  cases hmentions with
  | item hmem hvalue => exact h _ hmem text hvalue

theorem Holds.obj {P : Text → Prop} {members : List (Text × Json)}
    (h : ∀ entry ∈ members, entry.2.Holds P) : (Json.obj members).Holds P := by
  intro text hmentions
  cases hmentions with
  | member hmem hvalue => exact h _ hmem text hvalue

def Frame.Holds (P : Text → Prop) : Frame → Prop
  | .arr items => ∀ value ∈ items, value.Holds P
  | .obj members _ => ∀ entry ∈ members, entry.2.Holds P

def Parse.Holds (P : Text → Prop) : Parse → Prop
  | .value frames => ∀ frame ∈ frames, frame.Holds P
  | .firstItem frames => ∀ frame ∈ frames, frame.Holds P
  | .firstKey frames => ∀ frame ∈ frames, frame.Holds P
  | .key members frames =>
    (∀ entry ∈ members, entry.2.Holds P) ∧ ∀ frame ∈ frames, frame.Holds P
  | .colon members _ frames =>
    (∀ entry ∈ members, entry.2.Holds P) ∧ ∀ frame ∈ frames, frame.Holds P
  | .afterItem items frames => (∀ value ∈ items, value.Holds P) ∧ ∀ frame ∈ frames, frame.Holds P
  | .afterMember members frames =>
    (∀ entry ∈ members, entry.2.Holds P) ∧ ∀ frame ∈ frames, frame.Holds P
  | .done json => json.Holds P

theorem place_holds {P : Text → Prop} {value : Json} (hvalue : value.Holds P)
    {frames : List Frame} (h : ∀ frame ∈ frames, frame.Holds P) : (place value frames).Holds P := by
  cases frames with
  | nil => exact hvalue
  | cons frame frames =>
    obtain ⟨hframe, hframes⟩ := List.forall_mem_cons.mp h
    cases frame with
    | arr items =>
      refine ⟨fun other hmem => ?_, hframes⟩
      rcases List.mem_append.mp hmem with hmem | hmem
      · exact hframe other hmem
      · rw [List.mem_singleton.mp hmem]
        exact hvalue
    | obj members key =>
      refine ⟨fun entry hmem => ?_, hframes⟩
      rcases List.mem_append.mp hmem with hmem | hmem
      · exact hframe entry hmem
      · rw [List.mem_singleton.mp hmem]
        exact hvalue

theorem parseValue_holds {P : Text → Prop} {frames : List Frame}
    (h : ∀ frame ∈ frames, frame.Holds P) {token : Token} (htoken : ∀ text, token = .str text → P text)
    {q : Parse} (hq : parseValue frames token = some q) : q.Holds P := by
  cases token with
  | openBrace =>
    cases hq
    exact h
  | openBracket =>
    cases hq
    exact h
  | null =>
    cases hq
    exact place_holds nofun h
  | bool b =>
    cases hq
    exact place_holds nofun h
  | num text =>
    cases hq
    exact place_holds nofun h
  | str text =>
    cases hq
    refine place_holds (fun other hother => ?_) h
    cases hother
    exact htoken text rfl
  | closeBrace => cases hq
  | closeBracket => cases hq
  | comma => cases hq
  | colon => cases hq

theorem parseToken_holds {P : Text → Prop} {q : Parse} (h : q.Holds P) {token : Token}
    (htoken : ∀ text, token = .str text → P text) {q' : Parse}
    (hq : parseToken q token = some q') : q'.Holds P := by
  cases q with
  | value frames => exact parseValue_holds h htoken hq
  | firstItem frames =>
    rw [parseToken] at hq
    split at hq
    · cases hq
      exact place_holds (Holds.arr (List.forall_mem_nil _)) h
    · have hempty : Frame.Holds P (.arr []) := List.forall_mem_nil _
      exact parseValue_holds (List.forall_mem_cons.mpr ⟨hempty, h⟩) htoken hq
  | firstKey frames =>
    cases token <;> cases hq
    · exact place_holds (Holds.obj (List.forall_mem_nil _)) h
    · exact ⟨List.forall_mem_nil _, h⟩
  | key members frames =>
    cases token <;> cases hq
    exact h
  | colon members key frames =>
    cases token <;> cases hq
    exact List.forall_mem_cons.mpr h
  | afterItem items frames =>
    cases token <;> cases hq
    · exact place_holds (Holds.arr h.1) h.2
    · exact List.forall_mem_cons.mpr h
  | afterMember members frames =>
    cases token <;> cases hq
    · exact place_holds (Holds.obj h.1) h.2
    · exact h
  | done value => cases token <;> cases hq

theorem foldlM_parseToken_holds {P : Text → Prop} {tokens : List Token}
    (htokens : ∀ text, .str text ∈ tokens → P text) {q q' : Parse} (h : q.Holds P)
    (hq : tokens.foldlM parseToken q = some q') : q'.Holds P := by
  induction tokens generalizing q with
  | nil =>
    cases hq
    exact h
  | cons token tokens ih =>
    rw [List.foldlM_cons] at hq
    obtain ⟨middle, hmiddle, hlast⟩ := Option.bind_eq_some_iff.mp hq
    have hfirst : middle.Holds P := by
      refine parseToken_holds h (fun text htext => ?_) hmiddle
      exact htokens text (htext ▸ List.mem_cons_self)
    exact ih (fun text hmem => htokens text (List.mem_cons_of_mem token hmem)) hfirst hlast

theorem parseTokens_holds {P : Text → Prop} {tokens : List Token}
    (htokens : ∀ text, .str text ∈ tokens → P text) {value : Json}
    (h : parseTokens tokens = some value) : value.Holds P := by
  unfold parseTokens at h
  split at h
  next done hdone =>
    cases h
    exact foldlM_parseToken_holds htokens (q := .value []) (List.forall_mem_nil _) hdone
  next => cases h

theorem parse_holds {P : Text → Prop} {text : Text} (hreads : Reads P text) {value : Json}
    (h : parse text = some value) : wellFormed text = true ∧ value.Holds P := by
  unfold parse at h
  split at h
  next hwellFormed =>
    obtain ⟨tokens, htokens, hvalue⟩ := Option.bind_eq_some_iff.mp h
    exact ⟨hwellFormed, parseTokens_holds (hreads.of_lex htokens) hvalue⟩
  next => cases h

end Json
end OpenArangoDBCore
