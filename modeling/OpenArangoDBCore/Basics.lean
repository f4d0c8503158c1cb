import Mathlib.Data.List.AList
import Mathlib.Data.List.Lex
import Mathlib.Data.List.TakeWhile
import Mathlib.Tactic

/-!
# C++ data types of the enterprise library

`std::string` is a sequence of bytes compared as unsigned characters, and
`std::unordered_map` is a finite map; a function that iterates over one takes
the order as an argument.
-/

namespace OpenArangoDBCore

abbrev Byte := Fin 256

instance neZero_byte : NeZero 256 := ⟨by decide⟩

/-- `std::string` -/
abbrev ByteString := List Byte

instance decidableMem_byteString (b : Byte) (s : ByteString) : Decidable (b ∈ s) :=
  List.instDecidableMemOfLawfulBEq b s

/-- `std::unordered_map<K, V>` -/
abbrev UnorderedMap (K V : Type) := AList fun _ : K => V

/-- What `char const*` points to: the bytes before the terminating zero. -/
abbrev CString := {s : ByteString // (0 : Byte) ∉ s}

def c_str (s : ByteString) : CString :=
  ⟨s.takeWhile (· ≠ 0), fun h => absurd (List.mem_takeWhile_imp h) (by simp)⟩

theorem c_str_of_no_zero {s : ByteString} (h : 0 ∉ s) : (c_str s).val = s := by
  apply List.takeWhile_eq_self_iff.mpr
  intro b hb
  rw [decide_eq_true_eq]
  intro hzero
  exact h (hzero ▸ hb)

theorem c_str_append_of_zero {s : ByteString} (h : 0 ∈ s) (rest : ByteString) :
    c_str (s ++ rest) = c_str s := by
  apply Subtype.ext
  unfold c_str
  dsimp only
  rw [List.takeWhile_append, if_neg]
  intro hlen
  have hall := List.takeWhile_eq_self_iff.mp ((List.takeWhile_prefix _).eq_of_length hlen) 0 h
  simp at hall

/-- The bytes of an ASCII literal. -/
def lit (s : String) : ByteString := s.toList.map fun c => Fin.ofNat 256 c.toNat

/-- `std::to_string` of an unsigned integer. -/
def decimal (n : ℕ) : ByteString :=
  if n = 0 then lit "0" else (Nat.digits 10 n).reverse.map fun d => Fin.ofNat 256 (48 + d)

/-- `std::to_string` of an `int`. -/
def decimalInt (n : ℤ) : ByteString :=
  if n < 0 then lit "-" ++ decimal n.natAbs else decimal n.natAbs

theorem decimal_value (n : ℕ) :
    Nat.ofDigits 10 ((decimal n).reverse.map fun b => b.val - 48) = n := by
  by_cases hn : n = 0
  · subst hn
    rfl
  · have hrev : (decimal n).reverse = (Nat.digits 10 n).map fun d => Fin.ofNat 256 (48 + d) := by
      unfold decimal
      rw [if_neg hn, ← List.map_reverse, List.reverse_reverse]
    have hdigit : ∀ d ∈ Nat.digits 10 n, (Fin.ofNat 256 (48 + d) : Byte).val - 48 = id d := by
      intro d hd
      have hlt : d < 10 := Nat.digits_lt_base (by norm_num) hd
      show (48 + d) % 256 - 48 = d
      omega
    rw [hrev, List.map_map]
    have hsame := List.map_congr_left hdigit
    rw [List.map_id] at hsame
    calc Nat.ofDigits 10 ((Nat.digits 10 n).map _)
        = Nat.ofDigits 10 (Nat.digits 10 n) := congrArg _ hsame
      _ = n := Nat.ofDigits_digits 10 n

theorem decimal_injective {m n : ℕ} (h : decimal m = decimal n) : m = n := by
  rw [← decimal_value m, h, decimal_value n]

theorem decimal_digit (n : ℕ) : ∀ b ∈ decimal n, 0x30 ≤ b.val ∧ b.val ≤ 0x39 := by
  intro b hb
  unfold decimal at hb
  split at hb
  · rw [show lit "0" = [0x30] from rfl, List.mem_singleton] at hb
    rw [hb]
    decide
  · obtain ⟨d, hd, rfl⟩ := List.mem_map.mp hb
    have hlt : d < 10 := Nat.digits_lt_base (by norm_num) (List.mem_reverse.mp hd)
    have hval : (Fin.ofNat 256 (48 + d) : Byte).val = 48 + d := Nat.mod_eq_of_lt (by omega)
    omega

theorem decimal_ne_nil (n : ℕ) : decimal n ≠ [] := by
  unfold decimal
  split
  · decide
  next hn =>
    have hdigits : Nat.digits 10 n ≠ [] := Nat.digits_ne_nil_iff_ne_zero.mpr hn
    simpa using hdigits

/-- The number that a string of decimal digits stands for. -/
def digitsValue (digits : ByteString) : ℕ := digits.foldl (fun n b => 10 * n + (b.val - 0x30)) 0

theorem digitsValue_snoc (digits : ByteString) (b : Byte) :
    digitsValue (digits ++ [b]) = 10 * digitsValue digits + (b.val - 0x30) := by
  simp [digitsValue]

theorem digitsValue_eq_ofDigits (digits : ByteString) :
    digitsValue digits = Nat.ofDigits 10 (digits.reverse.map fun b => b.val - 48) := by
  induction digits using List.reverseRecOn with
  | nil => rfl
  | append_singleton digits b ih =>
    rw [digitsValue_snoc, ih, List.reverse_append, List.reverse_singleton, List.singleton_append,
      List.map_cons, Nat.ofDigits_cons]
    omega

theorem digitsValue_decimal (n : ℕ) : digitsValue (decimal n) = n := by
  rw [digitsValue_eq_ofDigits, decimal_value]

theorem digitsValue_le_of_prefix {digits whole : ByteString} (h : digits <+: whole) :
    digitsValue digits ≤ digitsValue whole := by
  obtain ⟨more, rfl⟩ := h
  induction more using List.reverseRecOn with
  | nil => rw [List.append_nil]
  | append_singleton more b ih =>
    rw [← List.append_assoc, digitsValue_snoc]
    omega

/-- `x + 1` on `uint64_t` counts up as long as it does not wrap to zero. -/
theorem toNat_succ_of_lt (x : UInt64) (h : x < x + 1) : (x + 1).toNat = x.toNat + 1 := by
  rw [UInt64.lt_iff_toNat_lt, UInt64.toNat_add] at h
  rw [UInt64.toNat_add]
  have hx := x.toNat_lt
  simp only [UInt64.toNat_one] at h ⊢
  omega

theorem lt_succ_of_pos (x : UInt64) (h : 0 < x + 1) : x < x + 1 := by
  grind

theorem toNat_min (a b : UInt64) : (min a b).toNat = min a.toNat b.toNat := by
  change (if a ≤ b then a else b).toNat = _
  split
  next hle => exact (min_eq_left (UInt64.le_iff_toNat_le.mp hle)).symm
  next hlt =>
    have hle := UInt64.le_of_lt (UInt64.not_le.mp hlt)
    exact (min_eq_right (UInt64.le_iff_toNat_le.mp hle)).symm

/-- What a loop that can throw has collected when it has not thrown. -/
theorem mem_filterMapM {ε α β : Type} {f : α → Except ε (Option β)} {xs : List α} {out : List β}
    (h : xs.filterMapM f = .ok out) (y : β) :
    y ∈ out ↔ ∃ x ∈ xs, f x = .ok (some y) := by
  induction xs generalizing out with
  | nil =>
    obtain rfl : [] = out := Except.ok.inj h
    simp
  | cons x xs ih =>
    rw [List.filterMapM_cons] at h
    cases hx : f x with
    | error e =>
      rw [hx] at h
      cases h
    | ok item =>
      rw [hx] at h
      cases hxs : xs.filterMapM f with
      | error e => cases item <;> simp [hxs, bind, Except.bind] at h
      | ok rest =>
        have hrest := ih hxs
        cases item with
        | none =>
          obtain rfl : rest = out := by simpa [hxs, bind, Except.bind] using h
          rw [hrest]
          simp [hx]
        | some z =>
          obtain rfl : z :: rest = out := by
            simpa [hxs, bind, Except.bind, pure, Except.pure] using h
          rw [List.mem_cons, hrest]
          simp [hx, eq_comm]

theorem filterMapM_ok_iff {ε α β : Type} {f : α → Except ε (Option β)} {xs : List α} :
    (∃ out, xs.filterMapM f = .ok out) ↔ ∀ x ∈ xs, ∃ item, f x = .ok item := by
  induction xs with
  | nil => exact iff_of_true ⟨[], rfl⟩ nofun
  | cons x xs ih =>
    rw [List.filterMapM_cons, List.forall_mem_cons, ← ih]
    cases hx : f x with
    | error e => exact iff_of_false nofun nofun
    | ok item =>
      cases hxs : xs.filterMapM f with
      | error e => cases item <;> simp [bind, Except.bind]
      | ok rest => cases item <;> simp [bind, Except.bind, pure, Except.pure]

theorem filterMapM_value {ε α β : Type} {f : α → Except ε (Option β)} {g : α → Option β}
    {xs : List α} {out : List β} (h : xs.filterMapM f = .ok out)
    (hg : ∀ x ∈ xs, ∀ item, f x = .ok item → item = g x) : out = xs.filterMap g := by
  induction xs generalizing out with
  | nil => exact (Except.ok.inj h).symm
  | cons x xs ih =>
    obtain ⟨hx, hxs⟩ := List.forall_mem_cons.mp hg
    rw [List.filterMapM_cons] at h
    cases hitem : f x with
    | error e =>
      rw [hitem] at h
      cases h
    | ok item =>
      rw [hitem] at h
      rw [List.filterMap_cons, ← hx item hitem]
      cases hrest : xs.filterMapM f with
      | error e => cases item <;> simp [hrest, bind, Except.bind] at h
      | ok rest =>
        rw [← ih hrest hxs]
        cases item <;> simpa [hrest, bind, Except.bind, pure, Except.pure] using h.symm

namespace UnorderedMap
variable {K V : Type} [DecidableEq K]

/-- `operator[]` on the left of no assignment: a missing key gets the default. -/
def touch (m : UnorderedMap K V) (k : K) (d : V) : UnorderedMap K V :=
  if k ∈ m then m else m.insert k d

theorem lookup_insert_of (m : UnorderedMap K V) (k j : K) (v : V) :
    (m.insert k v).lookup j = if j = k then some v else m.lookup j := by
  split
  next h => rw [h, AList.lookup_insert]
  next h => exact AList.lookup_insert_ne h

theorem lookup_erase_of (m : UnorderedMap K V) (k j : K) :
    (AList.erase k m).lookup j = if j = k then none else m.lookup j := by
  split
  next h => rw [h, AList.lookup_erase]
  next h => exact AList.lookup_erase_ne h

theorem touch_getD (m : UnorderedMap K V) (k j : K) (d : V) :
    ((m.touch k d).lookup j).getD d = (m.lookup j).getD d := by
  unfold touch
  split
  · rfl
  next h =>
    rw [lookup_insert_of]
    split
    next hj => rw [hj, AList.lookup_eq_none.mpr h]; rfl
    next => rfl

/-- An order in which the map can be iterated. -/
abbrev IterationOrder (m : UnorderedMap K V) :=
  {order : List (K × V) // order.Perm (m.entries.map fun e => (e.1, e.2))}

theorem IterationOrder.mem_iff {m : UnorderedMap K V} (order : IterationOrder m) (k : K) (v : V) :
    (k, v) ∈ order.val ↔ m.lookup k = some v := by
  rw [order.property.mem_iff, ← Option.mem_def, AList.mem_lookup_iff]
  simp

theorem IterationOrder.mem_of_mem {m : UnorderedMap K V} (order : IterationOrder m) {e : K × V}
    (h : e ∈ order.val) : e.1 ∈ m := by
  rw [← AList.lookup_isSome, (order.mem_iff e.1 e.2).mp h]
  rfl

omit [DecidableEq K] in
theorem IterationOrder.nodup {m : UnorderedMap K V} (order : IterationOrder m) :
    (order.val.map Prod.fst).Nodup := by
  rw [(order.property.map Prod.fst).nodup_iff, List.map_map]
  exact m.nodupKeys

/-- A map filled entry by entry holds the entries with its first keys. -/
theorem lookup_foldl_insert {entries : List (K × V)} (h : (entries.map Prod.fst).Nodup)
    (m : UnorderedMap K V) (k : K) (v : V) :
    (entries.foldl (fun m e => m.insert e.1 e.2) m).lookup k = some v ↔
      (k, v) ∈ entries ∨ k ∉ entries.map Prod.fst ∧ m.lookup k = some v := by
  induction entries generalizing m with
  | nil => simp
  | cons e entries ih =>
    obtain ⟨j, w⟩ := e
    obtain ⟨hj, hrest⟩ := List.nodup_cons.mp h
    rw [List.foldl_cons, ih hrest, lookup_insert_of]
    by_cases hk : k = j
    · subst hk
      have hmem : (k, v) ∉ entries := fun hmem => hj (List.mem_map.mpr ⟨_, hmem, rfl⟩)
      simp [hj, hmem, eq_comm]
    · simp [hk]

/-- Filling a map again in the order of another gives the same map. -/
theorem IterationOrder.lookup_refilled {m : UnorderedMap K V} (order : IterationOrder m) (k : K) :
    (order.val.foldl (fun m e => m.insert e.1 e.2) (∅ : UnorderedMap K V)).lookup k =
      m.lookup k := by
  apply Option.ext
  intro v
  have hfold := lookup_foldl_insert order.nodup ∅ k v
  rw [AList.lookup_empty] at hfold
  have horder := hfold.trans (or_iff_left fun h => absurd h.2 nofun)
  exact horder.trans (order.mem_iff k v)

def entryOrder (m : UnorderedMap K V) : IterationOrder m := ⟨_, List.Perm.refl _⟩

def size (m : UnorderedMap K V) : ℕ := m.keys.length

theorem size_zero_lookup (m : UnorderedMap K V) (h : m.size = 0) (k : K) : m.lookup k = none := by
  rw [AList.lookup_eq_none, AList.mem_keys, List.eq_nil_of_length_eq_zero h]
  exact List.not_mem_nil

theorem size_erase (m : UnorderedMap K V) (k : K) (h : k ∈ m) :
    size (AList.erase k m) + 1 = m.size := by
  have hk : k ∈ m.keys := AList.mem_keys.mp h
  have hp := List.length_pos_of_mem hk
  unfold size
  rw [AList.keys_erase, List.length_erase_of_mem hk]
  omega

/-- Sum of a measure over the stored values. -/
def sumBy (f : V → ℕ) (m : UnorderedMap K V) : ℕ := (m.entries.map fun e => f e.2).sum

theorem sumBy_erase (f : V → ℕ) (m : UnorderedMap K V) (k : K) :
    sumBy f m = ((m.lookup k).map f).getD 0 + sumBy f (AList.erase k m) := by
  have key : ∀ l : List (Sigma fun _ : K => V),
      (l.map fun e => f e.2).sum =
        ((l.dlookup k).map f).getD 0 + ((l.kerase k).map fun e => f e.2).sum := by
    intro l
    induction l with
    | nil => rfl
    | cons e l ih =>
      obtain ⟨a, v⟩ := e
      by_cases ha : k = a
      · subst ha
        simp [List.dlookup_cons_eq, List.kerase_cons_eq]
      · rw [List.dlookup_cons_ne _ _ ha, List.kerase_cons_ne (by simpa using ha)]
        simp only [List.map_cons, List.sum_cons]
        omega
  exact key m.entries

theorem sumBy_insert (f : V → ℕ) (m : UnorderedMap K V) (k : K) (v : V) :
    sumBy f (m.insert k v) = f v + sumBy f (AList.erase k m) := by
  unfold sumBy
  rw [AList.entries_insert]
  simp only [List.map_cons, List.sum_cons]
  rfl

theorem sumBy_touch (f : V → ℕ) (m : UnorderedMap K V) (k : K) (d : V) (hd : f d = 0) :
    sumBy f (m.touch k d) = sumBy f m := by
  unfold touch
  split
  · rfl
  next h =>
    have he := sumBy_erase f m k
    rw [AList.lookup_eq_none.mpr h] at he
    rw [sumBy_insert, hd, he]
    rfl

end UnorderedMap
end OpenArangoDBCore
