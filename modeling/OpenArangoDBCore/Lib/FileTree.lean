import Mathlib.Data.List.Infix
import Mathlib.Tactic

/-!
# A tree of directories and files

An entry of the tree is named by the names on the way to it from the root. A
pathname is a string of octets whose components are followed one by one: the
empty one and `.` stay in the directory, `..` leads to the one above. There
are no links, so where a pathname leads does not depend on the tree.
-/

namespace OpenArangoDBCore.FileTree

abbrev Octet := Fin 256
abbrev Name := List Octet
abbrev Path := List Name

def zero : Octet := ⟨0, by decide⟩
def dot : Octet := ⟨0x2E, by decide⟩
def slash : Octet := ⟨0x2F, by decide⟩

/-- What an entry of a directory can be called. -/
def IsName (n : Name) : Prop := n ≠ [] ∧ n ≠ [dot] ∧ n ≠ [dot, dot] ∧ slash ∉ n ∧ zero ∉ n

instance (n : Name) : Decidable (IsName n) := inferInstanceAs (Decidable (_ ∧ _ ∧ _ ∧ _ ∧ _))

inductive Node where
  | directory
  | file (content : List Octet)
  deriving DecidableEq

@[ext]
structure Tree where
  node : Path → Option Node
  named : ∀ p n, node (p ++ [n]) ≠ none → IsName n
  above : ∀ p n, node (p ++ [n]) ≠ none → node p = some .directory

namespace Tree

def root : Tree where
  node p := if p = [] then some .directory else none
  named p n h := absurd (if_neg (by simp)) h
  above p n h := absurd (if_neg (by simp)) h

variable (t : Tree)

theorem directory_of_below {p : Path} {n : Name} {r : Path} (h : t.node (p ++ n :: r) ≠ none) :
    t.node p = some .directory := by
  induction r using List.reverseRecOn with
  | nil => exact t.above p n h
  | append_singleton r m ih =>
    have hparent := t.above (p ++ n :: r) m (by simpa using h)
    exact ih (by simp [hparent])

/-- With an entry come all those above it. -/
theorem exists_of_prefix {p q : Path} (hpq : p <+: q) (hq : t.node q ≠ none) :
    t.node p ≠ none := by
  obtain ⟨r, rfl⟩ := hpq
  cases r with
  | nil => simpa using hq
  | cons n r => simp [t.directory_of_below hq]

def remove (p : Path) : Tree where
  node q := if p <+: q then none else t.node q
  named q n h := by
    split at h
    · exact absurd rfl h
    · exact t.named q n h
  above q n h := by
    by_cases hpn : p <+: q ++ [n]
    · rw [if_pos hpn] at h
      exact absurd rfl h
    · rw [if_neg hpn] at h
      have hp : ¬ p <+: q := fun hp => hpn (hp.trans (List.prefix_append q [n]))
      rw [if_neg hp]
      exact t.above q n h

theorem remove_node (p q : Path) :
    (t.remove p).node q = if p <+: q then none else t.node q := rfl

theorem remove_other {p q : Path} (h : ¬ p <+: q) : (t.remove p).node q = t.node q := if_neg h

/-- A file or a new directory can be put there. -/
def Free (p : Path) (n : Name) : Prop :=
  t.node p = some .directory ∧ IsName n ∧ t.node (p ++ [n]) ≠ some .directory

instance (p : Path) (n : Name) : Decidable (t.Free p n) :=
  inferInstanceAs (Decidable (_ ∧ _ ∧ _))

def put (p : Path) (n : Name) (x : Node) : Tree :=
  if h : t.Free p n then {
    node := fun q => if q = p ++ [n] then some x else t.node q
    named := by
      intro q m hq
      by_cases heq : q ++ [m] = p ++ [n]
      · obtain ⟨-, hmn⟩ := List.append_inj' heq rfl
        rw [List.singleton_inj.mp hmn]
        exact h.2.1
      · rw [if_neg heq] at hq
        exact t.named q m hq
    above := by
      intro q m hq
      have hne : q ≠ p ++ [n] ∧ t.node q = some .directory := by
        by_cases heq : q ++ [m] = p ++ [n]
        · obtain ⟨rfl, -⟩ := List.append_inj' heq rfl
          exact ⟨by simp, h.1⟩
        · rw [if_neg heq] at hq
          have hdir := t.above q m hq
          exact ⟨fun hqn => h.2.2 (hqn ▸ hdir), hdir⟩
      rw [if_neg hne.1]
      exact hne.2 }
  else t

theorem put_node {p : Path} {n : Name} (h : t.Free p n) (x : Node) (q : Path) :
    (t.put p n x).node q = if q = p ++ [n] then some x else t.node q := by
  rw [put, dif_pos h]

theorem put_other (p : Path) (n : Name) (x : Node) {q : Path} (hq : q ≠ p ++ [n]) :
    (t.put p n x).node q = t.node q := by
  unfold put
  split
  · exact if_neg hq
  · rfl

theorem put_directory (p : Path) (n : Name) (x : Node) {q : Path}
    (hq : t.node q = some .directory) : (t.put p n x).node q = some .directory := by
  by_cases h : t.Free p n
  · have hne : q ≠ p ++ [n] := fun heq => h.2.2 (heq ▸ hq)
    rw [put_node t h, if_neg hne]
    exact hq
  · rw [put, dif_neg h]
    exact hq

end Tree

/-! ### Pathnames -/

/-- Where a component leads to. -/
def enter (p : Path) (c : Name) : Path :=
  if c = [] ∨ c = [dot] then p else if c = [dot, dot] then p.dropLast else p ++ [c]

theorem enter_name {n : Name} (h : IsName n) (p : Path) : enter p n = p ++ [n] := by
  unfold enter
  rw [if_neg (not_or.mpr ⟨h.1, h.2.1⟩), if_neg h.2.2.1]

def leads (p : Path) (cs : List Name) : Path := cs.foldl enter p

def walk (t : Tree) : Path → List Name → Option Path
  | p, [] => some p
  | p, c :: cs =>
    if t.node p = some .directory ∧ t.node (enter p c) ≠ none then walk t (enter p c) cs else none

theorem walk_append (t : Tree) (p : Path) (cs ds : List Name) :
    walk t p (cs ++ ds) = (walk t p cs).bind fun q => walk t q ds := by
  induction cs generalizing p with
  | nil => rfl
  | cons c cs ih =>
    simp only [List.cons_append, walk]
    split
    · exact ih _
    · rfl

theorem walk_leads {t : Tree} {p q : Path} {cs : List Name} (h : walk t p cs = some q) :
    q = leads p cs := by
  induction cs generalizing p with
  | nil => exact (Option.some.inj h).symm
  | cons c cs ih =>
    simp only [walk] at h
    split at h
    · exact ih h
    · cases h

section Resolve
variable (cwd : Path)

def components (s : List Octet) : List Name := s.splitOn slash

def origin (s : List Octet) : Path := if s.head? = some slash then [] else cwd

/-- The entry that a pathname names. -/
def resolve (t : Tree) (s : List Octet) : Option Path :=
  if s = [] then none else walk t (origin cwd s) (components s)

/-- Where a pathname leads to, with or without an entry there. -/
def target (s : List Octet) : Path := leads (origin cwd s) (components s)

theorem resolve_target {t : Tree} {s : List Octet} {p : Path} (h : resolve cwd t s = some p) :
    p = target cwd s := by
  unfold resolve at h
  split at h
  · cases h
  · exact walk_leads h

theorem components_child {s : List Octet} {n : Name} (hn : slash ∉ n) :
    components (s ++ slash :: n) = components s ++ [n] := by
  unfold components
  rw [List.splitOn_append_cons_self, List.splitOn_eq_singleton hn]

theorem origin_child {s : List Octet} (hs : s ≠ []) (rest : List Octet) :
    origin cwd (s ++ rest) = origin cwd s := by
  unfold origin
  cases s with
  | nil => exact absurd rfl hs
  | cons b s => rfl

theorem target_child {s : List Octet} (hs : s ≠ []) {n : Name} (hn : IsName n) :
    target cwd (s ++ slash :: n) = target cwd s ++ [n] := by
  unfold target leads
  rw [origin_child cwd hs, components_child hn.2.2.2.1, List.foldl_append]
  exact enter_name hn _

theorem resolve_child (t : Tree) {s : List Octet} (hs : s ≠ []) {n : Name} (hn : IsName n) :
    resolve cwd t (s ++ slash :: n) = (resolve cwd t s).bind fun p =>
      if t.node p = some .directory ∧ t.node (p ++ [n]) ≠ none then some (p ++ [n]) else none := by
  unfold resolve
  rw [if_neg hs, if_neg (by simp), origin_child cwd hs, components_child hn.2.2.2.1, walk_append]
  congr 1
  funext p
  rw [walk, enter_name hn]
  rfl

end Resolve
/-! ### New directories and files -/

inductive Errno where
  | noEntry
  | notDirectory
  deriving DecidableEq

structure Made where
  error : Option Errno
  created : List Path
  tree : Tree

def Tree.errno (t : Tree) (p : Path) : Errno :=
  if t.node p = none then .noEntry else .notDirectory

/-- The directories on the way, and those of them that were missing. -/
def makeDirs : Tree → Path → List Name → Made
  | t, p, [] =>
    if t.node p = some .directory then ⟨none, [], t⟩ else ⟨some (t.errno p), [], t⟩
  | t, p, c :: cs =>
    if t.node p ≠ some .directory then ⟨some (t.errno p), [], t⟩
    else if t.node (enter p c) = none then
      let made := makeDirs (t.put p c .directory) (enter p c) cs
      {made with created := enter p c :: made.created}
    else makeDirs t (enter p c) cs

/-- The directories that the components pass through and end in. -/
def passes : Path → List Name → List Path
  | p, [] => [p]
  | p, c :: cs => p :: passes (enter p c) cs

def AllDirs (t : Tree) (ps : List Path) : Prop := ∀ p ∈ ps, t.node p = some .directory

/-- All there was is as it was; what is new is a directory. -/
structure Tree.Grows (t t' : Tree) : Prop where
  kept : ∀ q, t.node q ≠ none → t'.node q = t.node q
  added : ∀ q, t.node q = none → t'.node q ≠ none → t'.node q = some .directory

theorem Tree.Grows.refl (t : Tree) : t.Grows t := ⟨fun _ _ => rfl, fun _ h h' => absurd h h'⟩

theorem Tree.Grows.trans {t t' t'' : Tree} (h : t.Grows t') (h' : t'.Grows t'') :
    t.Grows t'' := by
  constructor
  · intro q hq
    have hsame := h.kept q hq
    rw [h'.kept q (by rwa [hsame]), hsame]
  · intro q hq hq''
    by_cases hq' : t'.node q = none
    · exact h'.added q hq' hq''
    · rw [h'.kept q hq']
      exact h.added q hq hq'

theorem Tree.Grows.put {t : Tree} {p : Path} {n : Name} (h : t.node (p ++ [n]) = none) :
    t.Grows (t.put p n .directory) := by
  constructor
  · intro q hq
    exact t.put_other p n _ fun heq => hq (heq ▸ h)
  · intro q hq hq'
    by_cases heq : q = p ++ [n]
    · by_cases hfree : t.Free p n
      · rw [t.put_node hfree, if_pos heq]
      · rw [Tree.put, dif_neg hfree] at hq'
        exact absurd hq hq'
    · rw [t.put_other p n _ heq] at hq'
      exact absurd hq hq'

theorem Tree.Grows.directory {t t' : Tree} (h : t.Grows t') {p : Path}
    (hp : t.node p = some .directory) : t'.node p = some .directory := by
  rw [h.kept p (by rw [hp]; exact Option.some_ne_none _)]
  exact hp

/-- What a pathname without a terminating zero has for components. -/
def IsComponent (c : Name) : Prop := slash ∉ c ∧ zero ∉ c

theorem components_mem {s : List Octet} : ∀ c ∈ components s, slash ∉ c ∧ ∀ b ∈ c, b ∈ s := by
  unfold components
  induction s with
  | nil =>
    intro c hc
    rw [List.splitOn_nil, List.mem_singleton] at hc
    rw [hc]
    exact ⟨List.not_mem_nil, nofun⟩
  | cons x s ih =>
    intro c hc
    rw [List.splitOn_cons_eq_if_modifyHead] at hc
    split at hc
    next =>
      rcases List.mem_cons.mp hc with rfl | hc
      · exact ⟨List.not_mem_nil, nofun⟩
      · exact ⟨(ih c hc).1, fun b hb => List.mem_cons_of_mem _ ((ih c hc).2 b hb)⟩
    next hx =>
      cases hsplit : s.splitOn slash with
      | nil => exact absurd hsplit (List.splitOn_ne_nil _ _)
      | cons d ds =>
        rw [hsplit] at hc ih
        rcases List.mem_cons.mp hc with rfl | hc
        · obtain ⟨hslash, hsub⟩ := ih d List.mem_cons_self
          constructor
          · intro hmem
            rcases List.mem_cons.mp hmem with heq | hmem
            · exact hx (by rw [← heq]; exact BEq.rfl)
            · exact hslash hmem
          · intro b hb
            rcases List.mem_cons.mp hb with rfl | hb
            · exact List.mem_cons_self
            · exact List.mem_cons_of_mem _ (hsub b hb)
        · obtain ⟨hslash, hsub⟩ := ih c (List.mem_cons_of_mem _ hc)
          exact ⟨hslash, fun b hb => List.mem_cons_of_mem _ (hsub b hb)⟩

theorem components_isComponent {s : List Octet} (h : zero ∉ s) :
    ∀ c ∈ components s, IsComponent c :=
  fun c hc => ⟨(components_mem c hc).1, fun hz => h ((components_mem c hc).2 _ hz)⟩
theorem isName_of_missing {t : Tree} {p : Path} {c : Name} (hc : IsComponent c)
    (hp : t.node p = some .directory) (hmissing : t.node (enter p c) = none) : IsName c := by
  have hthere : t.node p ≠ none := by
    rw [hp]
    exact Option.some_ne_none _
  have hhere : ¬ (c = [] ∨ c = [dot]) := by
    intro h
    rw [enter, if_pos h] at hmissing
    exact hthere hmissing
  refine ⟨fun h => hhere (.inl h), fun h => hhere (.inr h), ?_, hc⟩
  intro h
  rw [enter, if_neg hhere, if_pos h] at hmissing
  exact t.exists_of_prefix (List.dropLast_prefix p) hthere hmissing

theorem passes_head (p : Path) (cs : List Name) : p ∈ passes p cs := by
  cases cs <;> exact List.mem_cons_self

theorem makeDirs_spec (t : Tree) (p : Path) (cs : List Name) (hcs : ∀ c ∈ cs, IsComponent c) :
    t.Grows (makeDirs t p cs).tree ∧
      ((makeDirs t p cs).error = none → AllDirs (makeDirs t p cs).tree (passes p cs)) ∧
      ((makeDirs t p cs).created = [] → (makeDirs t p cs).tree = t) := by
  induction cs generalizing t p with
  | nil =>
    unfold makeDirs passes
    by_cases hp : t.node p = some .directory
    · rw [if_pos hp]
      exact ⟨.refl t, fun _ q hq => by rw [List.mem_singleton.mp hq]; exact hp, fun _ => rfl⟩
    · rw [if_neg hp]
      exact ⟨.refl t, nofun, fun _ => rfl⟩
  | cons c cs ih =>
    have hrest : ∀ c ∈ cs, IsComponent c := fun d hd => hcs d (List.mem_cons_of_mem _ hd)
    unfold makeDirs passes
    by_cases hp : t.node p = some .directory
    swap
    · rw [if_pos hp]
      exact ⟨.refl t, nofun, fun _ => rfl⟩
    rw [if_neg (not_not.mpr hp)]
    by_cases hmissing : t.node (enter p c) = none
    · rw [if_pos hmissing]
      have hname := isName_of_missing (hcs c List.mem_cons_self) hp hmissing
      have hgrows : t.Grows (t.put p c .directory) := by
        rw [enter_name hname] at hmissing
        exact .put hmissing
      obtain ⟨hmade, hdirs, -⟩ := ih (t.put p c .directory) (enter p c) hrest
      refine ⟨hgrows.trans hmade, ?_, nofun⟩
      intro herror q hq
      rcases List.mem_cons.mp hq with rfl | hq
      · exact (hgrows.trans hmade).directory hp
      · exact hdirs herror q hq
    · rw [if_neg hmissing]
      obtain ⟨hmade, hdirs, hsame⟩ := ih t (enter p c) hrest
      refine ⟨hmade, ?_, hsame⟩
      intro herror q hq
      rcases List.mem_cons.mp hq with rfl | hq
      · exact hmade.directory hp
      · exact hdirs herror q hq

theorem makeDirs_append {t : Tree} {p : Path} {cs : List Name} (h : AllDirs t (passes p cs))
    (ds : List Name) : makeDirs t p (cs ++ ds) = makeDirs t (leads p cs) ds := by
  induction cs generalizing p with
  | nil => rfl
  | cons c cs ih =>
    have hp := h p List.mem_cons_self
    have hnext : AllDirs t (passes (enter p c) cs) := fun q hq => h q (List.mem_cons_of_mem _ hq)
    have hc := hnext _ (passes_head _ cs)
    rw [List.cons_append, makeDirs, if_neg (not_not.mpr hp), if_neg (by rw [hc]; nofun), ih hnext]
    rfl

theorem walk_directory_iff (t : Tree) (p : Path) (cs : List Name) :
    (∃ q, walk t p cs = some q ∧ t.node q = some .directory) ↔ AllDirs t (passes p cs) := by
  induction cs generalizing p with
  | nil => simp [walk, passes, AllDirs]
  | cons c cs ih =>
    unfold walk passes
    constructor
    · rintro ⟨q, hwalk, hq⟩
      split at hwalk
      next hp =>
        intro r hr
        rcases List.mem_cons.mp hr with rfl | hr
        · exact hp.1
        · exact (ih _).mp ⟨q, hwalk, hq⟩ r hr
      next => cases hwalk
    · intro hall
      have hnext : AllDirs t (passes (enter p c) cs) :=
        fun r hr => hall r (List.mem_cons_of_mem _ hr)
      rw [if_pos ⟨hall p List.mem_cons_self, by rw [hnext _ (passes_head _ cs)]; nofun⟩]
      exact (ih _).mpr hnext

theorem makeDirs_created (t : Tree) (p : Path) (cs : List Name) (hcs : ∀ c ∈ cs, IsComponent c)
    (q : Path) (hq : t.node q = none) (hq' : (makeDirs t p cs).tree.node q ≠ none) :
    q ∈ (makeDirs t p cs).created := by
  induction cs generalizing t p with
  | nil =>
    unfold makeDirs at hq'
    split at hq' <;> exact absurd hq hq'
  | cons c cs ih =>
    have hrest : ∀ c ∈ cs, IsComponent c := fun d hd => hcs d (List.mem_cons_of_mem _ hd)
    unfold makeDirs at hq' ⊢
    by_cases hp : t.node p = some .directory
    swap
    · rw [if_pos hp] at hq'
      exact absurd hq hq'
    rw [if_neg (not_not.mpr hp)] at hq' ⊢
    by_cases hmissing : t.node (enter p c) = none
    · rw [if_pos hmissing] at hq' ⊢
      by_cases heq : q = enter p c
      · rw [heq]
        exact List.mem_cons_self
      · refine List.mem_cons_of_mem _ (ih _ _ hrest ?_ hq')
        rw [enter_name (isName_of_missing (hcs c List.mem_cons_self) hp hmissing)] at heq
        rwa [t.put_other p c _ heq]
    · rw [if_neg hmissing] at hq' ⊢
      exact ih t (enter p c) hrest hq hq'

theorem leads_mem_passes (p : Path) (cs : List Name) : leads p cs ∈ passes p cs := by
  induction cs generalizing p with
  | nil => exact List.mem_singleton.mpr rfl
  | cons c cs ih => exact List.mem_cons_of_mem _ (ih _)

theorem passes_append (p : Path) (cs : List Name) (c : Name) :
    passes p (cs ++ [c]) = passes p cs ++ [enter (leads p cs) c] := by
  induction cs generalizing p with
  | nil => rfl
  | cons d cs ih =>
    rw [List.cons_append, passes, ih]
    rfl

section Directory
variable (cwd : Path)

def onTheWay (s : List Octet) : List Path := passes (origin cwd s) (components s)

theorem onTheWay_child {s : List Octet} (hs : s ≠ []) {n : Name} (hn : IsName n) :
    onTheWay cwd (s ++ slash :: n) = onTheWay cwd s ++ [target cwd s ++ [n]] := by
  unfold onTheWay target
  rw [origin_child cwd hs, components_child hn.2.2.2.1, passes_append, enter_name hn]

theorem resolve_directory_iff (t : Tree) (s : List Octet) :
    (∃ q, resolve cwd t s = some q ∧ t.node q = some .directory) ↔
      s ≠ [] ∧ AllDirs t (onTheWay cwd s) := by
  unfold resolve onTheWay
  by_cases hs : s = []
  · simp [hs]
  · rw [if_neg hs, walk_directory_iff]
    exact ⟨fun h => ⟨hs, h⟩, fun h => h.2⟩

theorem resolve_of_allDirs {t : Tree} {s : List Octet} (hs : s ≠ [])
    (h : AllDirs t (onTheWay cwd s)) : resolve cwd t s = some (target cwd s) := by
  obtain ⟨q, hq, -⟩ := (resolve_directory_iff cwd t s).mpr ⟨hs, h⟩
  rw [hq, resolve_target cwd hq]

theorem AllDirs.target {t : Tree} {s : List Octet} (h : AllDirs t (onTheWay cwd s)) :
    t.node (target cwd s) = some .directory := h _ (leads_mem_passes _ _)

/-- A name behind a slash at the end names the same entry. -/
theorem resolve_child_slash (t : Tree) (s : List Octet) {n : Name} (hn : IsName n) :
    resolve cwd t (s ++ [slash] ++ n) = (resolve cwd t (s ++ [slash])).bind fun p =>
      if t.node p = some .directory ∧ t.node (p ++ [n]) ≠ none then some (p ++ [n]) else none := by
  have horigin : origin cwd (s ++ [slash] ++ n) = origin cwd (s ++ [slash]) :=
    origin_child cwd (by simp) n
  have hempty : components (s ++ [slash]) = components s ++ [[]] := by
    unfold components
    rw [List.splitOn_append_cons_self]
    rfl
  unfold resolve
  rw [if_neg (by simp), if_neg (by simp), horigin, hempty, walk_append]
  rw [List.append_assoc, List.singleton_append, components_child hn.2.2.2.1, walk_append,
    Option.bind_assoc]
  congr 1
  funext p
  have hstay : enter p [] = p := by
    rw [enter, if_pos (.inl rfl)]
  by_cases hp : t.node p = some .directory
  · simp [walk, enter_name hn, hstay, hp]
  · simp [walk, hp]

end Directory

/-- Nothing changes but below an entry, and no directory goes. -/
structure Tree.Within (d : Path) (t t' : Tree) : Prop where
  outside : ∀ q, ¬ d <+: q → t'.node q = t.node q
  kept : ∀ q, t.node q = some .directory → t'.node q = some .directory

theorem Tree.Within.refl (d : Path) (t : Tree) : t.Within d t := ⟨fun _ _ => rfl, fun _ h => h⟩

theorem Tree.Within.trans {d : Path} {t t' t'' : Tree} (h : t.Within d t')
    (h' : t'.Within d t'') : t.Within d t'' :=
  ⟨fun q hq => (h'.outside q hq).trans (h.outside q hq), fun q hq => h'.kept q (h.kept q hq)⟩

theorem Tree.Within.below {d q : Path} {t t' : Tree} (h : t.Within d t')
    (hq : t'.node q ≠ t.node q) : d <+: q := by
  by_contra houtside
  exact hq (h.outside q houtside)

theorem Tree.Within.put {d p : Path} {n : Name} (h : d <+: p ++ [n]) (t : Tree) (x : Node) :
    t.Within d (t.put p n x) :=
  ⟨fun _ hq => t.put_other p n x fun heq => hq (heq ▸ h), fun _ hq => t.put_directory p n x hq⟩

def Tree.populate (t : Tree) (d : Path) (entries : List (Path × Name × Node)) : Tree :=
  entries.foldl (fun t e => t.put (d ++ e.1) e.2.1 e.2.2) t

theorem Tree.Within.populate (t : Tree) (d : Path) (entries : List (Path × Name × Node)) :
    t.Within d (t.populate d entries) := by
  unfold Tree.populate
  induction entries generalizing t with
  | nil => exact .refl d t
  | cons e entries ih =>
    have hbelow : d <+: (d ++ e.1) ++ [e.2.1] := by
      rw [List.append_assoc]
      exact List.prefix_append d _
    exact (Tree.Within.put hbelow t e.2.2).trans (ih _)

def writeFile (cwd : Path) (s content : List Octet) (t : Tree) : Option Tree :=
  match (components s).reverse with
  | [] => none
  | n :: above => (walk t (origin cwd s) above.reverse).bind fun p =>
    if t.Free p n then some (t.put p n (.file content)) else none

theorem writeFile_child (cwd : Path) {s : List Octet} (hs : s ≠ []) {n : Name} (hn : IsName n)
    {t : Tree} (h : AllDirs t (onTheWay cwd s)) (hfile : t.node (target cwd s ++ [n]) ≠ some .directory)
    (content : List Octet) :
    writeFile cwd (s ++ slash :: n) content t = some (t.put (target cwd s) n (.file content)) := by
  have hwalk : walk t (origin cwd s) (components s) = some (target cwd s) := by
    have hresolve := resolve_of_allDirs cwd hs h
    unfold resolve at hresolve
    rwa [if_neg hs] at hresolve
  unfold writeFile
  rw [components_child hn.2.2.2.1, List.reverse_append, List.reverse_singleton,
    List.singleton_append]
  dsimp only
  rw [List.reverse_reverse, origin_child cwd hs, hwalk, Option.bind_some,
    if_pos ⟨h.target, hn, hfile⟩]

theorem writeFile_node {cwd : Path} {s content : List Octet} {t t' : Tree}
    (h : writeFile cwd s content t = some t') : t'.node (target cwd s) = some (.file content) := by
  unfold writeFile at h
  generalize hcs : (components s).reverse = cs at h
  cases cs with
  | nil => cases h
  | cons n above =>
    obtain ⟨p, hp, h⟩ := Option.bind_eq_some_iff.mp h
    split at h
    next hfree =>
      obtain rfl := Option.some.inj h
      have hall : components s = above.reverse ++ [n] := by
        rw [← List.reverse_cons, ← hcs, List.reverse_reverse]
      have htarget : target cwd s = p ++ [n] := by
        rw [target, hall, leads, List.foldl_append, walk_leads hp]
        exact enter_name hfree.2.1 _
      rw [htarget, t.put_node hfree, if_pos rfl]
    next => cases h

theorem writeFile_other {cwd : Path} {s content : List Octet} {t t' : Tree}
    (h : writeFile cwd s content t = some t') {q : Path} (hq : q ≠ target cwd s) :
    t'.node q = t.node q := by
  unfold writeFile at h
  generalize hcs : (components s).reverse = cs at h
  cases cs with
  | nil => cases h
  | cons n above =>
    obtain ⟨p, hp, h⟩ := Option.bind_eq_some_iff.mp h
    split at h
    next hfree =>
      obtain rfl := Option.some.inj h
      refine t.put_other p n _ ?_
      rintro rfl
      apply hq
      have hall : components s = above.reverse ++ [n] := by
        rw [← List.reverse_cons, ← hcs, List.reverse_reverse]
      rw [target, hall, leads, List.foldl_append, walk_leads hp]
      exact (enter_name hfree.2.1 _).symm
    next => cases h

theorem writeFile_within {cwd d : Path} {s content : List Octet} {t t' : Tree}
    (hd : d <+: target cwd s) (h : writeFile cwd s content t = some t') : t.Within d t' := by
  unfold writeFile at h
  generalize hcs : (components s).reverse = cs at h
  cases cs with
  | nil => cases h
  | cons n above =>
    obtain ⟨p, hp, h⟩ := Option.bind_eq_some_iff.mp h
    split at h
    next hfree =>
      obtain rfl := Option.some.inj h
      refine .put ?_ t _
      have hall : components s = above.reverse ++ [n] := by
        rw [← List.reverse_cons, ← hcs, List.reverse_reverse]
      have htarget : target cwd s = p ++ [n] := by
        rw [target, hall, leads, List.foldl_append, walk_leads hp]
        exact enter_name hfree.2.1 _
      rwa [htarget] at hd
    next => cases h

end OpenArangoDBCore.FileTree
