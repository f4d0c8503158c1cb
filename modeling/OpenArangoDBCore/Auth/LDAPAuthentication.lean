import OpenArangoDBCore.Auth.LDAPHandler
import OpenArangoDBCore.Lib.SearchFilter

/-!
# What a login over LDAP proves

Both modes of `authenticate` lead to one bind as the user. An empty password
passes it, and in the search mode a username with the special characters of
a filter makes it the bind of somebody else.
-/

namespace OpenArangoDBCore.Auth.LDAPAuthentication
open LDAPHandler SearchFilter

theorem bind_run {ω α β : Type} (x : StateM ω α) (f : α → StateM ω β) (w : ω) :
    (x >>= f) w = f (x w).1 (x w).2 := rfl

section Bind
variable {ω LDAP LDAPMessage : Type} (funcs : LDAPFunctions ω LDAP LDAPMessage)
variable (config : LDAPConfig)

/-- The way of `authenticate` to the bind as the user: its handle and DN. -/
def userBind (username : ByteString) : StateM ω (Option (LDAP × ByteString)) := do
  match config.mode with
  | .Simple =>
    match ← createHandle funcs config with
    | none => pure none
    | some handle => pure (some (handle, config.dnPrefix ++ username ++ config.dnSuffix))
  | .Search =>
    match ← createHandle funcs config with
    | none => pure none
    | some adminHandle =>
      if ← bindUser funcs (some adminHandle) config.binddn config.bindpasswd then
        let userDn ← findUserDn funcs config adminHandle username
        destroyHandle funcs (some adminHandle)
        if userDn = [] then pure none
        else
          match ← createHandle funcs config with
          | none => pure none
          | some userHandle => pure (some (userHandle, userDn))
      else
        destroyHandle funcs (some adminHandle)
        pure none

theorem authenticate_eq (username password : ByteString) :
    authenticate funcs config username password = (do
      match ← userBind funcs config username with
      | none => pure (false, [])
      | some (handle, dn) => loginAs funcs config handle dn password) := by
  unfold authenticate userBind
  cases config.mode with
  | Simple =>
    simp only [bind_assoc]
    congr 1
    funext handle
    cases handle with
    | none => rfl
    | some handle => rfl
  | Search =>
    simp only [bind_assoc]
    congr 1
    funext handle
    cases handle with
    | none => rfl
    | some adminHandle =>
      simp only [bind_assoc]
      congr 1
      funext bound
      cases bound with
      | false => simp only [Bool.false_eq_true, if_false, bind_assoc, pure_bind]
      | true =>
        simp only [if_true, bind_assoc]
        congr 1
        funext userDn
        congr 1
        funext _
        split
        · rfl
        · simp only [bind_assoc]
          congr 1
          funext handle
          cases handle with
          | none => rfl
          | some handle => rfl

theorem authenticate_fst (username password : ByteString) (w : ω) :
    (authenticate funcs config username password w).1.1 =
      match userBind funcs config username w with
      | (none, _) => false
      | (some (handle, dn), w') =>
        decide ((funcs.simpleBind handle (c_str dn) (c_str password) w').1 = LDAP_SUCCESS) := by
  rw [authenticate_eq, bind_run]
  rcases userBind funcs config username w with ⟨_ | ⟨handle, dn⟩, w'⟩
  · rfl
  dsimp only
  have hbound : (bindUser funcs (some handle) dn password w').1 =
      decide ((funcs.simpleBind handle (c_str dn) (c_str password) w').1 = LDAP_SUCCESS) := rfl
  unfold loginAs
  rw [bind_run, hbound]
  by_cases hrc : (funcs.simpleBind handle (c_str dn) (c_str password) w').1 = LDAP_SUCCESS
  · rw [if_pos (decide_eq_true hrc), decide_eq_true hrc]
    rfl
  · rw [if_neg (by simpa using hrc), decide_eq_false hrc]
    rfl

/-- A bind with a DN and no password is an unauthenticated one, which succeeds. -/
def AllowsUnauthenticatedBind : Prop :=
  ∀ handle (dn : CString) w, dn.val ≠ [] →
    (funcs.simpleBind handle dn (c_str []) w).1 = LDAP_SUCCESS

/-- An empty password is refused only if it does not come to the bind of the
user, or comes to an anonymous one that the server refuses. -/
theorem empty_password_refused_iff (hserver : AllowsUnauthenticatedBind funcs)
    (username : ByteString) (w : ω) :
    (authenticate funcs config username [] w).1.1 = false ↔
      ∀ handle dn w', userBind funcs config username w = (some (handle, dn), w') →
        (c_str dn).val = [] ∧
          (funcs.simpleBind handle (c_str dn) (c_str []) w').1 ≠ LDAP_SUCCESS := by
  rw [authenticate_fst]
  rcases userBind funcs config username w with ⟨_ | ⟨handle, dn⟩, w'⟩
  · constructor
    · intro _ handle dn w' h
      cases h
    · intro _
      rfl
  · rw [decide_eq_false_iff_not]
    constructor
    · intro hrefused _ _ _ h
      cases h
      refine ⟨?_, hrefused⟩
      by_contra hdn
      exact hrefused (hserver handle (c_str dn) w' hdn)
    · intro h
      exact (h handle dn w' rfl).2

end Bind

/-! ### A server -/

/-- An account without a uid has an empty one. -/
structure Account where
  dn : ByteString
  uid : ByteString
  password : ByteString

/-- A server that knows the filters for one uid and for the presence of a uid. -/
def sampleServer (accounts : List Account) : LDAPFunctions Unit Unit (List Account) where
  ldapInit _ := pure (LDAP_SUCCESS, some ())
  simpleBind _ dn password := pure <|
    if password.val = [] then LDAP_SUCCESS
    else if accounts.any fun a => a.dn = dn.val ∧ a.password = password.val then LDAP_SUCCESS
    else 49
  searchExtS _ _ _ filter := pure (LDAP_SUCCESS, some <| accounts.filter fun a =>
    a.uid ≠ [] ∧ (filter.val = userFilter a.uid ∨ filter.val = userFilter (lit "*")))
  setOption _ _ _ := pure LDAP_SUCCESS
  startTlsS _ := pure LDAP_SUCCESS
  unbindExt _ := pure LDAP_SUCCESS
  getDn _ entry := pure (entry.head?.map fun a => c_str a.dn)
  memfree _ := pure ()
  firstEntry _ message := pure (message.head?.map fun a => [a])
  getValuesLen _ _ _ := pure none
  valueFreeLen _ := pure ()
  msgfree _ := pure ()

def sampleAccounts : List Account :=
  [⟨lit "uid=alice,ou=users", lit "alice", lit "secret"⟩, ⟨lit "cn=admin", [], lit "adminpass"⟩]

def sampleConfig (mode : LDAPAuthMode) : LDAPConfig where
  server := lit "ldap.example.com"
  port := 389
  basedn := lit "ou=users"
  binddn := lit "cn=admin"
  bindpasswd := lit "adminpass"
  dnPrefix := lit "uid="
  dnSuffix := lit ",ou=users"
  useTLS := false
  useLDAPS := false
  tlsCACertFile := []
  rolesAttribute := []
  rolesSearch := []
  mode := mode

theorem sampleServer_binds (accounts : List Account) :
    AllowsUnauthenticatedBind (sampleServer accounts) ∧
      ∀ handle (dn password : CString) w, password.val ≠ [] →
        ((sampleServer accounts).simpleBind handle dn password w).1 = LDAP_SUCCESS →
          ∃ a ∈ accounts, a.dn = dn.val ∧ a.password = password.val := by
  constructor
  · intro _ _ _ _
    rfl
  · intro _ dn password _ hne h
    by_contra hnone
    have hany : (accounts.any fun a => a.dn = dn.val ∧ a.password = password.val) = false := by
      rw [List.any_eq_false]
      intro a ha hboth
      exact hnone ⟨a, ha, of_decide_eq_true hboth⟩
    have hrefused : ((sampleServer accounts).simpleBind () dn password ()).1 =
        if password.val = [] then LDAP_SUCCESS
        else if accounts.any fun a => a.dn = dn.val ∧ a.password = password.val then LDAP_SUCCESS
        else 49 := rfl
    rw [hrefused, if_neg hne, hany] at h
    exact absurd h (by decide)

theorem sampleServer_refuses_unknown :
    (authenticate (sampleServer sampleAccounts) (sampleConfig .Search) (lit "bob") [] ()).1.1
      = false := by
  have hnobody : (userBind (sampleServer sampleAccounts) (sampleConfig .Search) (lit "bob") ()).1
      = none := by decide
  refine (empty_password_refused_iff _ _ (sampleServer_binds _).1 _ _).mpr ?_
  intro handle dn w' h
  rw [h] at hnobody
  cases hnobody

theorem empty_password_logs_in :
    AllowsUnauthenticatedBind (sampleServer sampleAccounts) ∧
      (∀ handle (dn password : CString) w, password.val ≠ [] →
        ((sampleServer sampleAccounts).simpleBind handle dn password w).1 = LDAP_SUCCESS →
          ∃ a ∈ sampleAccounts, a.dn = dn.val ∧ a.password = password.val) ∧
      (sampleConfig .Simple).validate = [] ∧
      (authenticate (sampleServer sampleAccounts) (sampleConfig .Simple) (lit "alice") [] ()).1.1
        = true :=
  ⟨(sampleServer_binds _).1, (sampleServer_binds _).2, by decide, by decide⟩

/-! ### The filter of the search for the user -/

theorem no_zero_lits : (0 : Byte) ∉ lit "(uid=" ∧ (0 : Byte) ∉ lit ")" := by decide

theorem uid_isAttribute : IsAttribute (lit "uid") := by
  refine .oid (.inl ⟨chr 'u', [chr 'i', chr 'd'], rfl, ?_, ?_⟩)
  · unfold IsAlpha
    decide
  · unfold IsKeychar IsAlpha IsDigit
    decide +kernel

theorem userFilter_eq (username : ByteString) :
    userFilter username = chr '(' :: (lit "uid" ++ chr '=' :: username) ++ [chr ')'] := rfl

theorem derives_userFilter {username : ByteString} (h : Plain username) {filter : Filter} :
    Derives (c_str (userFilter username)).val filter ↔
      filter = .item (.equality (lit "uid") username) := by
  have hzero : (0 : Byte) ∉ userFilter username := by
    intro hmem
    rcases List.mem_append.mp hmem with hmem | hmem
    · rcases List.mem_append.mp hmem with hmem | hmem
      · exact no_zero_lits.1 hmem
      · exact h.no_special 0 (by decide) hmem
    · exact no_zero_lits.2 hmem
  rw [c_str_of_no_zero hzero, userFilter_eq]
  exact derives_plain uid_isAttribute h

theorem plain_of_derives {username : ByteString}
    (h : Derives (c_str (userFilter username)).val (.item (.equality (lit "uid") username))) :
    Plain username := by
  obtain ⟨value, htext, hvalue⟩ := derives_equality_inv h
  obtain ⟨hle, hsame⟩ := hvalue.length
  -- A zero octet would cut the string, and then the value is too short.
  have hcut : (c_str (userFilter username)).val.length ≤ (userFilter username).length :=
    (List.takeWhile_prefix _).length_le
  rw [htext, userFilter_eq] at hcut
  simp only [List.length_append, List.length_cons] at hcut
  exact (hsame (by omega)).2

section Server
variable {ω LDAP LDAPMessage Entry : Type} (funcs : LDAPFunctions ω LDAP LDAPMessage)

/-- The entries of a search are those of the directory that match its filter. -/
def AnswersByFilter (rules : Item → Entry → Option Bool) (dnOf : Entry → CString)
    (directory : List Entry) : Prop :=
  ∀ handle base scope (filter : CString) message entry dn w₀ w₁ w₂,
    funcs.searchExtS handle base scope filter w₀ = ((LDAP_SUCCESS, some message), w₁) →
    funcs.firstEntry handle message w₁ = (some entry, w₂) →
    (funcs.getDn handle entry w₂).1 = some dn →
    ∃ e ∈ directory, dnOf e = dn ∧ ∃ f, Derives filter.val f ∧ f.eval rules e = some true

variable (config : LDAPConfig)

theorem findUserDn_found (handle : LDAP) (username : ByteString) (w : ω)
    (h : (findUserDn funcs config handle username w).1 ≠ []) :
    ∃ message entry dn w₁ w₂,
      funcs.searchExtS handle (c_str config.basedn) LDAP_SCOPE_SUBTREE
          (c_str (userFilter username)) w = ((LDAP_SUCCESS, some message), w₁) ∧
        funcs.firstEntry handle message w₁ = (some entry, w₂) ∧
        (funcs.getDn handle entry w₂).1 = some dn ∧
        (findUserDn funcs config handle username w).1 = dn.val := by
  unfold findUserDn at h ⊢
  rw [bind_run] at h ⊢
  generalize hsearch : funcs.searchExtS handle _ _ _ w = answer at h ⊢
  rcases answer with ⟨⟨rc, _ | message⟩, w₁⟩
  · exact absurd rfl h
  dsimp only at h ⊢
  by_cases hrc : rc ≠ LDAP_SUCCESS
  · rw [if_pos hrc] at h
    exact absurd rfl h
  rw [if_neg hrc, bind_run] at h ⊢
  generalize hfirst : funcs.firstEntry handle message w₁ = first at h ⊢
  rcases first with ⟨_ | entry, w₂⟩
  · exact absurd rfl h
  dsimp only at h ⊢
  rw [bind_run] at h ⊢
  generalize hdn : funcs.getDn handle entry w₂ = answer at h ⊢
  rcases answer with ⟨_ | dn, w₃⟩
  · exact absurd rfl h
  · exact ⟨message, entry, dn, w₁, w₂, by rw [not_not.mp hrc], hfirst, by rw [hdn], rfl⟩

theorem userBind_search (hmode : config.mode = .Search) {username dn : ByteString} {w w' : ω}
    {handle : LDAP} (h : userBind funcs config username w = (some (handle, dn), w')) :
    dn ≠ [] ∧ ∃ adminHandle w₁, (findUserDn funcs config adminHandle username w₁).1 = dn := by
  unfold userBind at h
  rw [hmode] at h
  dsimp only at h
  rw [bind_run] at h
  generalize createHandle funcs config w = created at h
  rcases created with ⟨_ | adminHandle, w₁⟩
  · cases h
  dsimp only at h
  rw [bind_run] at h
  generalize bindUser funcs (some adminHandle) config.binddn config.bindpasswd w₁ = bound at h
  rcases bound with ⟨_ | _, w₂⟩
  · cases h
  dsimp only at h
  rw [if_pos rfl, bind_run, bind_run] at h
  by_cases hempty : (findUserDn funcs config adminHandle username w₂).1 = []
  · rw [if_pos hempty] at h
    cases h
  rw [if_neg hempty, bind_run] at h
  generalize createHandle funcs config _ = created at h
  rcases created with ⟨_ | userHandle, w₄⟩
  · cases h
  · cases h
    exact ⟨hempty, adminHandle, w₂, rfl⟩

end Server

/-- The username is nothing but the value of the one equality, and whatever
answers by filters, the bind is as an entry with this uid. -/
def FilterIsData (username : ByteString) : Prop :=
  (∀ filter, Derives (c_str (userFilter username)).val filter ↔
      filter = .item (.equality (lit "uid") username)) ∧
    ∀ {ω LDAP LDAPMessage Entry : Type} (funcs : LDAPFunctions ω LDAP LDAPMessage)
      (rules : Item → Entry → Option Bool) (dnOf : Entry → CString) (directory : List Entry),
      AnswersByFilter funcs rules dnOf directory →
      ∀ config, config.mode = .Search → ∀ handle dn w w',
        userBind funcs config username w = (some (handle, dn), w') →
        ∃ e ∈ directory, (dnOf e).val = dn ∧ rules (.equality (lit "uid") username) e = some true

theorem filterIsData_iff (username : ByteString) : FilterIsData username ↔ Plain username := by
  constructor
  · intro h
    exact plain_of_derives ((h.1 _).mpr rfl)
  · intro hplain
    refine ⟨fun filter => derives_userFilter hplain, ?_⟩
    intro ω LDAP LDAPMessage Entry funcs rules dnOf directory hserver config hmode handle dn w w' h
    obtain ⟨hne, adminHandle, w₀, hfound⟩ := userBind_search funcs config hmode h
    rw [← hfound] at hne
    obtain ⟨message, entry, found, w₁, w₂, hsearch, hfirst, hdn, heq⟩ :=
      findUserDn_found funcs config adminHandle username w₀ hne
    obtain ⟨e, he, hsame, filter, hfilter, hmatch⟩ :=
      hserver _ _ _ _ _ _ _ _ _ _ hsearch hfirst hdn
    rw [(derives_userFilter hplain).mp hfilter] at hmatch
    exact ⟨e, he, by rw [hsame, ← hfound, heq], hmatch⟩

/-- Alice's password logs in a user called `*`. -/
theorem asterisk_is_no_data :
    ¬ FilterIsData (lit "*") ∧
      (authenticate (sampleServer sampleAccounts) (sampleConfig .Search) (lit "*") (lit "secret")
        ()).1.1 = true := by
  refine ⟨?_, by decide⟩
  intro h
  have hpresent : Derives (c_str (userFilter (lit "*"))).val (.item (.present (lit "uid"))) :=
    .item (.present uid_isAttribute)
  cases (h.1 _).mp hpresent

end OpenArangoDBCore.Auth.LDAPAuthentication
