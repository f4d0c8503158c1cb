import Mathlib.Data.List.Infix
import Mathlib.Order.Basic
import Mathlib.Tactic

/-!
# Reading a value, checking it and writing it

Clients read the value of a key, check that theirs is larger and write it, and
others may write in between. The values of the keys never fall exactly when no
write is overtaken: nobody writes a larger value between a client's read and
its write.
-/

namespace OpenArangoDBCore.CheckThenAct
variable {T K V : Type}

inductive Access (K V : Type) where
  | read (key : K)
  | write (key : K) (value : V)
  deriving DecidableEq

/-- What was written to the key, the oldest value first. -/
def writesTo [DecidableEq K] (key : K) (history : List (T × Access K V)) : List V :=
  history.filterMap fun x =>
    match x.2 with
    | .read _ => none
    | .write k value => if k = key then some value else none

/-- The value of the key after the history. -/
def current [DecidableEq K] (initial : K → V) (key : K) (history : List (T × Access K V)) : V :=
  (writesTo key history).getLastD (initial key)

/-- A client that has read the key in `history`, not to read again before it
writes; `between` is what happened since. -/
structure ReadBefore (t : T) (key : K) (history before between : List (T × Access K V)) : Prop where
  split : history = before ++ (t, .read key) :: between
  last : ∀ k, (t, .read k) ∉ between

theorem ReadBefore.concat {t : T} {key : K} {history before between : List (T × Access K V)}
    (h : ReadBefore t key history before between) {x : T × Access K V} (hx : x.1 ≠ t) :
    ReadBefore t key (history ++ [x]) before (between ++ [x]) where
  split := by rw [h.split, List.append_assoc, List.cons_append]
  last k hmem := by
    rcases List.mem_append.mp hmem with hold | hnew
    · exact h.last k hold
    · exact hx (by rw [← List.mem_singleton.mp hnew])

/-- `Q` holds of every write and the history before it. -/
def EachWrite (Q : List (T × Access K V) → T → K → V → Prop) (history : List (T × Access K V)) :
    Prop :=
  ∀ past t key value, past ++ [(t, .write key value)] <+: history → Q past t key value

theorem eachWrite_nil {Q : List (T × Access K V) → T → K → V → Prop} : EachWrite Q [] := by
  intro past t key value h
  have hnil := List.prefix_nil.mp h
  simp at hnil

theorem eachWrite_concat {Q : List (T × Access K V) → T → K → V → Prop}
    {history : List (T × Access K V)} {x : T × Access K V} : EachWrite Q (history ++ [x]) ↔
      EachWrite Q history ∧ ∀ key value, x.2 = .write key value → Q history x.1 key value := by
  constructor
  · intro h
    refine ⟨fun past t key value hp => h past t key value (hp.trans (List.prefix_append _ _)), ?_⟩
    intro key value hx
    apply h
    rw [← hx]
  · rintro ⟨h, hlast⟩ past t key value hp
    rcases List.prefix_concat_iff.mp hp with heq | hold
    · obtain ⟨rfl, hx⟩ := List.append_inj' heq rfl
      obtain rfl := List.singleton_injective hx
      exact hlast key value rfl
    · exact h past t key value hold

variable [DecidableEq K] [Preorder V] {initial : K → V}

/-- Every write was allowed by what its client had read. -/
def Justified (initial : K → V) : List (T × Access K V) → Prop :=
  EachWrite fun past t key value =>
    ∃ before between, ReadBefore t key past before between ∧ current initial key before < value

/-- No value falls. -/
def Ascending (initial : K → V) : List (T × Access K V) → Prop :=
  EachWrite fun past _ key value => current initial key past ≤ value

/-- Between a client's read and its write nobody writes a larger value. -/
def NoOvertaking : List (T × Access K V) → Prop :=
  EachWrite fun past t key value => ∀ before between, ReadBefore t key past before between →
    ∀ u w, (u, .write key w) ∈ between → w ≤ value

omit [Preorder V] in
theorem writesTo_append (key : K) (history more : List (T × Access K V)) :
    writesTo key (history ++ more) = writesTo key history ++ writesTo key more :=
  List.filterMap_append

omit [Preorder V] in
theorem current_write (key : K) (history : List (T × Access K V)) (t : T) (value : V) :
    current initial key (history ++ [(t, .write key value)]) = value := by
  rw [current, writesTo_append]
  simp [writesTo]

omit [Preorder V] in
theorem current_other {key : K} (history : List (T × Access K V)) {x : T × Access K V}
    (h : ∀ value, x.2 ≠ .write key value) :
    current initial key (history ++ [x]) = current initial key history := by
  obtain ⟨t, access⟩ := x
  rw [current, writesTo_append]
  cases access with
  | read k => simp [writesTo, current]
  | write k value =>
    have hkey : k ≠ key := fun heq => h value (by rw [heq])
    simp [writesTo, current, hkey]

omit [Preorder V] in
/-- The last write since the read, or the value that was read. -/
theorem current_since (initial : K → V) (key : K) (before between : List (T × Access K V)) (t : T) :
    (∃ u w, (u, .write key w) ∈ between ∧
        current initial key (before ++ (t, .read key) :: between) = w) ∨
      current initial key (before ++ (t, .read key) :: between) = current initial key before := by
  induction between using List.reverseRecOn with
  | nil => exact .inr (current_other before nofun)
  | append_singleton between x ih =>
    obtain ⟨u, access⟩ := x
    have hassoc : before ++ (t, .read key) :: (between ++ [(u, access)]) =
        before ++ (t, .read key) :: between ++ [(u, access)] := by simp
    rw [hassoc]
    by_cases hx : ∃ value, access = .write key value
    · obtain ⟨value, rfl⟩ := hx
      exact .inl ⟨u, value, by simp, current_write key _ u value⟩
    · rw [current_other _ fun value hvalue => hx ⟨value, hvalue⟩]
      rcases ih with ⟨u, w, hmem, hcurrent⟩ | hcurrent
      · exact .inl ⟨u, w, List.mem_append_left _ hmem, hcurrent⟩
      · exact .inr hcurrent

/-- A value that was written stays a lower bound. -/
theorem Ascending.le_current {history past more : List (T × Access K V)} {t : T} {key : K} {w : V}
    (h : Ascending initial history) (hpast : past ++ (t, .write key w) :: more <+: history) :
    w ≤ current initial key (past ++ (t, .write key w) :: more) := by
  induction more using List.reverseRecOn with
  | nil => rw [current_write]
  | append_singleton more x ih =>
    obtain ⟨u, access⟩ := x
    have hassoc : past ++ (t, .write key w) :: (more ++ [(u, access)]) =
        past ++ (t, .write key w) :: more ++ [(u, access)] := by simp
    rw [hassoc] at hpast ⊢
    have hlower := ih ((List.prefix_append _ [(u, access)]).trans hpast)
    by_cases hx : ∃ value, access = .write key value
    · obtain ⟨value, rfl⟩ := hx
      rw [current_write]
      exact hlower.trans (h _ _ _ _ hpast)
    · rwa [current_other _ fun value hvalue => hx ⟨value, hvalue⟩]

theorem ascending_iff_noOvertaking {history : List (T × Access K V)}
    (hjustified : Justified initial history) : Ascending initial history ↔ NoOvertaking history := by
  constructor
  · intro h past t key value hwrite before between hread u w hmem
    obtain ⟨front, back, hback⟩ := List.mem_iff_append.mp hmem
    have hpast : past = before ++ (t, .read key) :: front ++ (u, .write key w) :: back := by
      rw [hread.split, hback, List.append_assoc, List.cons_append]
    have hprefix : before ++ (t, .read key) :: front ++ (u, .write key w) :: back <+: history := by
      rw [← hpast]
      exact (List.prefix_append past _).trans hwrite
    have hlower := h.le_current hprefix
    rw [← hpast] at hlower
    exact hlower.trans (h past t key value hwrite)
  · intro h past t key value hwrite
    obtain ⟨before, between, hread, hallowed⟩ := hjustified past t key value hwrite
    have hsince := current_since initial key before between t
    rw [← hread.split] at hsince
    rcases hsince with ⟨u, w, hmem, hcurrent⟩ | hcurrent
    · rw [hcurrent]
      exact h past t key value hwrite before between hread u w hmem
    · rw [hcurrent]
      exact hallowed.le

end OpenArangoDBCore.CheckThenAct
