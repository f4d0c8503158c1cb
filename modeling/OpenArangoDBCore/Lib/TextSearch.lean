import Mathlib.Data.List.Infix
import Mathlib.Tactic

/-!
# Positions in a text

The first position of a key in a text, counted from the beginning or from
another position on, as `std::string::find` returns it.
-/

namespace OpenArangoDBCore.TextSearch
variable {α : Type} [DecidableEq α]

/-- The first position at which the text goes on with the key. -/
def find (key : List α) : List α → Option ℕ
  | [] => if key = [] then some 0 else none
  | a :: text => if key.isPrefixOf (a :: text) then some 0 else (find key text).map (· + 1)

def findFrom (key text : List α) (pos : ℕ) : Option ℕ :=
  (find key (text.drop pos)).map (pos + ·)

omit [DecidableEq α] in
/-- The key begins at no position of `front`, which `rest` follows. -/
def NoStart (key : List α) : (front rest : List α) → Prop
  | [], _ => True
  | a :: front, rest => ¬ key <+: a :: (front ++ rest) ∧ NoStart key front rest

omit [DecidableEq α] in
theorem noStart_append {key front middle rest : List α} : NoStart key (front ++ middle) rest ↔
    NoStart key front (middle ++ rest) ∧ NoStart key middle rest := by
  induction front with
  | nil => rw [List.nil_append, NoStart, true_and]
  | cons a front ih =>
    rw [List.cons_append, NoStart, NoStart, ih, List.append_assoc, and_assoc]

omit [DecidableEq α] in
theorem noStart_of_notMem {q : α} {front : List α} (h : q ∉ front) (key rest : List α) :
    NoStart (q :: key) front rest := by
  induction front with
  | nil => trivial
  | cons a front ih =>
    refine ⟨fun hprefix => ?_, ih fun hmem => h (List.mem_cons_of_mem a hmem)⟩
    exact h (List.mem_cons.mpr (.inl (List.cons_prefix_cons.mp hprefix).1))

theorem NoStart.find {key front rest : List α} (h : NoStart key front rest) :
    find key (front ++ rest) = (find key rest).map (front.length + ·) := by
  induction front with
  | nil => simp
  | cons a front ih =>
    rw [List.cons_append, TextSearch.find, if_neg (by rw [List.isPrefixOf_iff_prefix]; exact h.1),
      ih h.2, Option.map_map]
    congr 1
    funext n
    rw [Function.comp_apply, List.length_cons]
    omega

theorem find_here (key rest : List α) : find key (key ++ rest) = some 0 := by
  cases key with
  | nil => cases rest <;> rfl
  | cons a key =>
    rw [List.cons_append, find, ← List.cons_append,
      if_pos (List.isPrefixOf_iff_prefix.mpr (List.prefix_append _ rest))]

theorem find_none {key text : List α} (hkey : key ≠ []) (h : NoStart key text []) :
    find key text = none := by
  have hfind := h.find
  rw [List.append_nil] at hfind
  rw [hfind, find, if_neg hkey]
  rfl

theorem find_le {key text : List α} {i : ℕ} (h : find key text = some i) :
    i + key.length ≤ text.length := by
  induction text generalizing i with
  | nil =>
    rw [find] at h
    split at h
    next hnil =>
      obtain rfl := Option.some.inj h
      rw [hnil]
      exact le_refl 0
    next => cases h
  | cons a text ih =>
    rw [find] at h
    split at h
    next hprefix =>
      obtain rfl := Option.some.inj h
      have hle := (List.isPrefixOf_iff_prefix.mp hprefix).length_le
      omega
    next =>
      obtain ⟨j, hj, rfl⟩ := Option.map_eq_some_iff.mp h
      have hle := ih hj
      rw [List.length_cons]
      omega

theorem findFrom_le {key text : List α} {pos i : ℕ} (hkey : key ≠ [])
    (h : findFrom key text pos = some i) : pos ≤ i ∧ i < text.length := by
  obtain ⟨j, hj, rfl⟩ := Option.map_eq_some_iff.mp h
  have hle := find_le hj
  have hpos := List.length_pos_iff.mpr hkey
  rw [List.length_drop] at hle
  omega

/-- A single symbol is found where it first occurs. -/
theorem find_singleton_iff {a : α} {text : List α} {i : ℕ} : find [a] text = some i ↔
    ∃ front rest, text = front ++ a :: rest ∧ a ∉ front ∧ front.length = i := by
  constructor
  · intro h
    have hmem : a ∈ text := by
      by_contra hno
      rw [find_none (List.cons_ne_nil a []) (noStart_of_notMem hno [] [])] at h
      cases h
    obtain ⟨front, rest, rfl, hfront⟩ := List.eq_append_cons_of_mem hmem
    refine ⟨front, rest, rfl, hfront, ?_⟩
    have hfind := (noStart_of_notMem hfront [] ([a] ++ rest)).find
    rw [find_here] at hfind
    exact Option.some.inj (hfind.symm.trans h)
  · rintro ⟨front, rest, rfl, hfront, rfl⟩
    have hfind := (noStart_of_notMem hfront [] ([a] ++ rest)).find
    rw [find_here] at hfind
    exact hfind

omit [DecidableEq α] in
theorem drop_past {text front rest : List α} {pos : ℕ} (h : text.drop pos = front ++ rest) :
    text.drop (pos + front.length) = rest := by
  rw [← List.drop_drop, h, List.drop_left]

theorem findFrom_singleton_iff {a : α} {text : List α} {pos i : ℕ} :
    findFrom [a] text pos = some i ↔
      ∃ front rest, text.drop pos = front ++ a :: rest ∧ a ∉ front ∧ pos + front.length = i := by
  unfold findFrom
  rw [Option.map_eq_some_iff]
  constructor
  · rintro ⟨j, hj, rfl⟩
    obtain ⟨front, rest, hsplit, hfront, rfl⟩ := find_singleton_iff.mp hj
    exact ⟨front, rest, hsplit, hfront, rfl⟩
  · rintro ⟨front, rest, hsplit, hfront, rfl⟩
    exact ⟨front.length, find_singleton_iff.mpr ⟨front, rest, hsplit, hfront, rfl⟩, rfl⟩

theorem findFrom_singleton_none_iff {a : α} {text : List α} {pos : ℕ} :
    findFrom [a] text pos = none ↔ a ∉ text.drop pos := by
  constructor
  · intro h hmem
    obtain ⟨front, rest, hsplit, hfront⟩ := List.eq_append_cons_of_mem hmem
    rw [findFrom_singleton_iff.mpr ⟨front, rest, hsplit, hfront, rfl⟩] at h
    cases h
  · intro h
    cases hfind : findFrom [a] text pos with
    | none => rfl
    | some i =>
      obtain ⟨front, rest, hsplit, -, -⟩ := findFrom_singleton_iff.mp hfind
      refine absurd ?_ h
      rw [hsplit]
      exact List.mem_append_right front List.mem_cons_self

/-- A symbol is found in front of the next occurrence of another one. -/
theorem findFrom_lt_iff {a b : α} {text front rest : List α} {pos : ℕ}
    (hsplit : text.drop pos = front ++ a :: rest) :
    (∃ i ∈ findFrom [b] text pos, i < pos + front.length) ↔ b ∈ front := by
  constructor
  · rintro ⟨i, hi, hlt⟩
    obtain ⟨before, after, hsplit', -, rfl⟩ := findFrom_singleton_iff.mp hi
    have hget := congrArg (fun text => text[before.length]?) (hsplit.symm.trans hsplit')
    rw [List.getElem?_append_left (by omega), List.getElem?_append_right le_rfl,
      Nat.sub_self] at hget
    exact List.mem_of_getElem? hget
  · intro hmem
    obtain ⟨before, after, rfl, hbefore⟩ := List.eq_append_cons_of_mem hmem
    refine ⟨pos + before.length, findFrom_singleton_iff.mpr ⟨before, after ++ a :: rest, ?_,
      hbefore, rfl⟩, ?_⟩
    · rw [hsplit, List.append_assoc, List.cons_append]
    · rw [List.length_append, List.length_cons]
      omega

theorem find_isPrefix {key text : List α} {i : ℕ} (h : find key text = some i) :
    key <+: text.drop i := by
  induction text generalizing i with
  | nil =>
    rw [find] at h
    split at h
    next hnil =>
      rw [hnil]
      exact List.nil_prefix
    next => cases h
  | cons a text ih =>
    rw [find] at h
    split at h
    next hprefix =>
      obtain rfl := Option.some.inj h
      exact List.isPrefixOf_iff_prefix.mp hprefix
    next =>
      obtain ⟨j, hj, rfl⟩ := Option.map_eq_some_iff.mp h
      exact ih hj

end OpenArangoDBCore.TextSearch
