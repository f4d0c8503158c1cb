import OpenArangoDBCore.Auth.LDAPAuthentication
import OpenArangoDBCore.Lib.Cuts

/-!
# Roles by a search for groups (LDAPHandler.cpp)

The filter has a placeholder for the user's DN, and each entry that the search
finds is a group. The library is taken by its documented behaviour: a result is
a chain of entries, of which `firstEntry` gives the first. Not every search is
answered: a text that is no filter is an error of the library, as is the filter
that a DN with a parenthesis or an escaped comma in it makes.
-/

namespace OpenArangoDBCore.Auth.LDAPRoles
open LDAPHandler LDAPAuthentication SearchFilter Cuts TextSearch

def placeholder : ByteString := lit "\x7buserDn\x7d"

/-- The filter that `fetchRolesViaSearch` searches with. -/
def roleFilter (config : LDAPConfig) (userDn : ByteString) : ByteString :=
  replaceFirst placeholder userDn config.rolesSearch

/-! ### The filter -/

theorem replaceFirst_eq {key : ByteString} (hne : key ≠ []) (replacement text : ByteString) :
    replaceFirst key replacement text =
      match find key text with
      | none => text
      | some i => text.take i ++ (replacement ++ text.drop (i + key.length)) := by
  induction text with
  | nil => rw [replaceFirst, if_neg hne, find, if_neg hne]
  | cons b rest ih =>
    rw [replaceFirst, find]
    split
    next =>
      dsimp only
      rw [List.take_zero, List.nil_append, Nat.zero_add]
    next =>
      rw [ih]
      cases find key rest with
      | none => rfl
      | some i =>
        rw [Option.map_some]
        dsimp only
        rw [List.take_succ_cons, Nat.add_right_comm, List.drop_succ_cons, List.cons_append]

/-- One replacement is all of them for a filter with at most one placeholder. -/
theorem replaceFirst_eq_replaceAll_iff {key : ByteString} (hne : key ≠ [])
    (replacement text : ByteString) :
    replaceFirst key replacement text = replaceAll key replacement text ↔
      occurrences key text ≤ 1 ∨ replacement = key := by
  have hpieces := pieces_cutAt hne text
  rw [replaceFirst_eq hne, replaceAll, occurrences]
  generalize cutAt key text = pieces at hpieces ⊢
  cases hfind : find key text with
  | none =>
    have hone := hpieces.unique (.last (not_infix_of_find_none hfind))
    rw [hone, List.intercalate_singleton]
    exact iff_of_true rfl (.inl (Nat.zero_le _))
  | some i =>
    have hrest := pieces_cutAt hne (text.drop (i + key.length))
    generalize cutAt key (text.drop (i + key.length)) = behind at hrest
    have hall := hpieces.unique (hrest.of_find hfind)
    rw [hall, List.intercalate_cons_of_ne_nil hrest.ne_nil, List.append_assoc]
    dsimp only
    rw [List.append_cancel_left_eq, List.append_cancel_left_eq, List.length_cons,
      Nat.add_sub_cancel, ← hrest.join, intercalate_eq_iff, eq_comm (a := key)]

/-! ### The directory -/

section
variable {ω LDAP LDAPMessage : Type} (funcs : LDAPFunctions ω LDAP LDAPMessage)

/-- What the library documents, over a directory that gives the DNs of the
entries under a base that match a filter. `answered` are the searches that
succeed; the others have another code (LDAP_FILTER_ERROR for what is no filter). -/
structure Serves (answered : CString → CString → Prop)
    (directory : CString → CString → List CString)
    (chain : LDAPMessage → List LDAPMessage) (dnOf : LDAPMessage → CString) : Prop where
  search : ∀ handle base filter w, answered base filter → ∃ result,
    (funcs.searchExtS handle base LDAP_SCOPE_SUBTREE filter w).1 = (LDAP_SUCCESS, some result) ∧
      (chain result).map dnOf = directory base filter
  refused : ∀ handle base filter w, ¬ answered base filter →
    (funcs.searchExtS handle base LDAP_SCOPE_SUBTREE filter w).1.1 ≠ LDAP_SUCCESS
  firstEntry : ∀ handle result w, (funcs.firstEntry handle result w).1 = (chain result).head?
  getDn : ∀ handle entry w, (funcs.getDn handle entry w).1 = some (dnOf entry)

variable {funcs} {answered : CString → CString → Prop}
  {directory : CString → CString → List CString} {chain : LDAPMessage → List LDAPMessage}
  {dnOf : LDAPMessage → CString} {config : LDAPConfig}

/-- The first entry is the only one that is looked at. -/
theorem fetchRolesViaSearch_answered (hserves : Serves funcs answered directory chain dnOf)
    (handle : LDAP) {userDn : ByteString}
    (hanswered : answered (c_str config.basedn) (c_str (roleFilter config userDn))) (w : ω) :
    (fetchRolesViaSearch funcs config handle userDn w).1 =
      ((directory (c_str config.basedn) (c_str (roleFilter config userDn))).take 1).map
        Subtype.val := by
  obtain ⟨result, hsearch, hchain⟩ :=
    hserves.search handle (c_str config.basedn) (c_str (roleFilter config userDn)) w hanswered
  rw [← hchain]
  unfold roleFilter placeholder at hsearch
  unfold fetchRolesViaSearch
  rw [bind_run]
  generalize funcs.searchExtS handle (c_str config.basedn) LDAP_SCOPE_SUBTREE _ w = answer
    at hsearch ⊢
  obtain ⟨_, w₁⟩ := answer
  obtain rfl : _ = (LDAP_SUCCESS, some result) := hsearch
  dsimp only
  rw [if_neg (by decide), bind_run]
  have hfirst := hserves.firstEntry handle result w₁
  generalize funcs.firstEntry handle result w₁ = first at hfirst ⊢
  obtain ⟨_, w₂⟩ := first
  obtain rfl : _ = (chain result).head? := hfirst
  cases hentries : chain result with
  | nil => rfl
  | cons entry entries =>
    rw [List.head?_cons]
    dsimp only
    rw [bind_run]
    have hdn := hserves.getDn handle entry w₂
    generalize funcs.getDn handle entry w₂ = dn at hdn ⊢
    obtain ⟨_, w₃⟩ := dn
    obtain rfl : _ = some (dnOf entry) := hdn
    rfl

/-- A search that fails is no reason to refuse the login. -/
theorem fetchRolesViaSearch_refused (hserves : Serves funcs answered directory chain dnOf)
    (handle : LDAP) {userDn : ByteString}
    (hrefused : ¬ answered (c_str config.basedn) (c_str (roleFilter config userDn))) (w : ω) :
    (fetchRolesViaSearch funcs config handle userDn w).1 = [] := by
  have hcode := hserves.refused handle _ _ w hrefused
  unfold roleFilter placeholder at hcode
  unfold fetchRolesViaSearch
  rw [bind_run]
  generalize funcs.searchExtS handle (c_str config.basedn) LDAP_SCOPE_SUBTREE _ w = answer
    at hcode ⊢
  obtain ⟨⟨rc, _ | result⟩, w₁⟩ := answer
  · rfl
  · dsimp only
    rw [if_pos hcode]
    rfl

theorem fetchRolesViaSearch_cases (hserves : Serves funcs answered directory chain dnOf)
    (handle : LDAP) (userDn : ByteString) (w : ω) :
    (answered (c_str config.basedn) (c_str (roleFilter config userDn)) ∧
      (fetchRolesViaSearch funcs config handle userDn w).1 =
        ((directory (c_str config.basedn) (c_str (roleFilter config userDn))).take 1).map
          Subtype.val) ∨
    (¬ answered (c_str config.basedn) (c_str (roleFilter config userDn)) ∧
      (fetchRolesViaSearch funcs config handle userDn w).1 = []) := by
  by_cases hanswered : answered (c_str config.basedn) (c_str (roleFilter config userDn))
  · exact .inl ⟨hanswered, fetchRolesViaSearch_answered hserves handle hanswered w⟩
  · exact .inr ⟨hanswered, fetchRolesViaSearch_refused hserves handle hanswered w⟩

/-- A login that succeeds returns what `fetchRoles` has found for the DN of the bind. -/
theorem authenticate_roles {username password dn : ByteString} {w w' : ω} {handle : LDAP}
    {roles : List ByteString}
    (hbind : userBind funcs config username w = (some (handle, dn), w'))
    (hauth : (authenticate funcs config username password w).1 = (true, roles)) :
    ∃ w₁, roles = (fetchRoles funcs config handle dn w₁).1 := by
  rw [authenticate_eq, bind_run, hbind] at hauth
  dsimp only at hauth
  unfold loginAs at hauth
  rw [bind_run] at hauth
  generalize bindUser funcs (some handle) dn password w' = bound at hauth
  obtain ⟨_ | _, w₁⟩ := bound
  · exact absurd (congrArg Prod.fst hauth) Bool.false_ne_true
  · exact ⟨w₁, (congrArg Prod.snd hauth).symm⟩

/-- The filter has the DN in place of each placeholder, the search with it is
answered, and each group that it finds is a role. -/
structure AllRolesReturned (answered : CString → CString → Prop)
    (directory : CString → CString → List CString) (config : LDAPConfig) (dn : ByteString)
    (roles : List ByteString) : Prop where
  filter : roleFilter config dn = replaceAll placeholder dn config.rolesSearch
  answer : answered (c_str config.basedn) (c_str (replaceAll placeholder dn config.rolesSearch))
  groups : roles = (directory (c_str config.basedn)
    (c_str (replaceAll placeholder dn config.rolesSearch))).map Subtype.val

end

/-! ### A server with groups -/

/-- As much of the grammar of filters as tells the ones below from texts that are
none: the parentheses are paired, and no value has a backslash. -/
def looksLikeFilter (filter : CString) : Bool :=
  filter.val.head? = some (chr '(') ∧ filter.val.count (chr '(') = filter.val.count (chr ')') ∧
    chr '\\' ∉ filter.val

/-- An entry is the rest of its chain. -/
def directoryServer (directory : CString → CString → List CString) :
    LDAPFunctions Unit Unit (List CString) where
  ldapInit _ := pure (LDAP_SUCCESS, some ())
  simpleBind _ _ password := pure (if password.val = lit "secret" then LDAP_SUCCESS else 49)
  searchExtS _ base _ filter :=
    pure <| if looksLikeFilter filter then (LDAP_SUCCESS, some (directory base filter))
      else (-7, none)
  setOption _ _ _ := pure LDAP_SUCCESS
  startTlsS _ := pure LDAP_SUCCESS
  unbindExt _ := pure LDAP_SUCCESS
  getDn _ entry := pure (some (entry.headD (c_str [])))
  memfree _ := pure ()
  firstEntry _ message := pure (message.head?.map fun dn => [dn])
  getValuesLen _ _ _ := pure none
  valueFreeLen _ := pure ()
  msgfree _ := pure ()

theorem serves_directoryServer (directory : CString → CString → List CString) :
    Serves (directoryServer directory) (fun _ filter => looksLikeFilter filter) directory
      (List.map fun dn => [dn]) fun entry => entry.headD (c_str []) where
  search := by
    intro _ base filter _ hfilter
    refine ⟨directory base filter, if_pos hfilter, ?_⟩
    rw [List.map_map]
    exact List.map_id _
  refused := by
    intro handle base filter w hno
    have hcode : ((directoryServer directory).searchExtS handle base LDAP_SCOPE_SUBTREE
        filter w).1 = (-7, none) := if_neg hno
    rw [hcode]
    decide
  firstEntry _ _ _ := List.head?_map.symm
  getDn _ _ _ := rfl

def groupConfig (rolesSearch : ByteString) : LDAPConfig :=
  { sampleConfig .Simple with rolesSearch }

def groupsOf (groups : List ByteString) : CString → CString → List CString :=
  fun _ _ => groups.map c_str

/-- The escaped comma of a DN is no escape of a filter. -/
example : (authenticate (directoryServer (groupsOf [lit "cn=editors"]))
    (groupConfig (lit "(member=\x7buserDn\x7d)")) (lit "Doe\\, John") (lit "secret") ()).1 =
      (true, []) := by decide

end OpenArangoDBCore.Auth.LDAPRoles
