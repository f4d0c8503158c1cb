import OpenArangoDBCore.Auth.LDAPAuthentication
import OpenArangoDBCore.Lib.Resources

/-!
# Handles and result messages of a login over LDAP

The calls of the library are logged, and their trace says what each acquires,
uses and releases. A search may set a message whatever it returns; with another
code than success the handler leaves the message, and it leaks.
-/

namespace OpenArangoDBCore.Auth.LDAPResources
open LDAPHandler LDAPAuthentication Resources
variable {ω LDAP LDAPMessage : Type}

inductive Resource (LDAP LDAPMessage : Type) where
  | handle (handle : LDAP)
  | message (message : LDAPMessage)
  | entry (entry : LDAPMessage)
  deriving DecidableEq

/-- A call of the table with what it answered. -/
inductive Call (LDAP LDAPMessage : Type) where
  | ldapInit (rc : ℤ) (handle : Option LDAP)
  | simpleBind (handle : LDAP)
  | searchExtS (handle : LDAP) (rc : ℤ) (result : Option LDAPMessage)
  | setOption (handle : LDAP)
  | startTlsS (handle : LDAP)
  | unbindExt (handle : LDAP)
  | getDn (handle : LDAP) (entry : LDAPMessage)
  | memfree
  | firstEntry (handle : LDAP) (message : LDAPMessage) (entry : Option LDAPMessage)
  | getValuesLen (handle : LDAP) (entry : LDAPMessage)
  | valueFreeLen
  | msgfree (message : LDAPMessage)
  deriving DecidableEq

/-- A message is set or not independently of the code. -/
@[simp] def Call.events : Call LDAP LDAPMessage → List (Event (Resource LDAP LDAPMessage))
  | .ldapInit rc handle =>
    if rc = LDAP_SUCCESS then (handle.map fun h => .acquire (.handle h)).toList else []
  | .simpleBind handle | .setOption handle | .startTlsS handle => [.use (.handle handle)]
  | .searchExtS handle _ result =>
    .use (.handle handle) :: (result.map fun m => .acquire (.message m)).toList
  | .unbindExt handle => [.release (.handle handle)]
  | .getDn handle entry | .getValuesLen handle entry =>
    [.use (.handle handle), .use (.entry entry)]
  | .firstEntry handle message entry => .use (.handle handle) :: .use (.message message) ::
    (entry.map fun e => .borrow (.message message) (.entry e)).toList
  | .msgfree message => [.release (.message message)]
  | .memfree | .valueFreeLen => []

/-- The message of a search that did not succeed. -/
@[simp] def Call.leaked : Call LDAP LDAPMessage → Multiset (Resource LDAP LDAPMessage)
  | .searchExtS _ rc (some message) => if rc = LDAP_SUCCESS then 0 else {.message message}
  | _ => 0

def traced (funcs : LDAPFunctions ω LDAP LDAPMessage) :
    LDAPFunctions (ω × List (Call LDAP LDAPMessage)) LDAP LDAPMessage where
  ldapInit uri := logged (funcs.ldapInit uri) fun a => .ldapInit a.1 a.2
  simpleBind handle dn password :=
    logged (funcs.simpleBind handle dn password) fun _ => .simpleBind handle
  searchExtS handle base scope filter :=
    logged (funcs.searchExtS handle base scope filter) fun a => .searchExtS handle a.1 a.2
  setOption handle option value :=
    logged (funcs.setOption handle option value) fun _ => .setOption handle
  startTlsS handle := logged (funcs.startTlsS handle) fun _ => .startTlsS handle
  unbindExt handle := logged (funcs.unbindExt handle) fun _ => .unbindExt handle
  getDn handle entry := logged (funcs.getDn handle entry) fun _ => .getDn handle entry
  memfree p := logged (funcs.memfree p) fun _ => .memfree
  firstEntry handle message :=
    logged (funcs.firstEntry handle message) fun a => .firstEntry handle message a
  getValuesLen handle entry target :=
    logged (funcs.getValuesLen handle entry target) fun _ => .getValuesLen handle entry
  valueFreeLen vals := logged (funcs.valueFreeLen vals) fun _ => .valueFreeLen
  msgfree message := logged (funcs.msgfree message) fun _ => .msgfree message

/-- The calls of one `authenticate`. -/
def calls (funcs : LDAPFunctions ω LDAP LDAPMessage) (config : LDAPConfig)
    (username password : ByteString) (w : ω) : List (Call LDAP LDAPMessage) :=
  (authenticate (traced funcs) config username password (w, [])).2.2

variable [DecidableEq LDAP] [DecidableEq LDAPMessage]

/-- The triples of this file. -/
abbrev Keeps {α : Type} (pre : Ledger (Resource LDAP LDAPMessage))
    (x : StateM (ω × List (Call LDAP LDAPMessage)) α) (y : StateM ω α)
    (post : α → Ledger (Resource LDAP LDAPMessage)) : Prop :=
  Triple Call.events Call.leaked pre x y post

/-- One handle is open, and the messages are read on it. -/
def opened (handle : LDAP) : Ledger (Resource LDAP LDAPMessage) := ⟨{.handle handle}, []⟩

def created (handle : Option LDAP) : Ledger (Resource LDAP LDAPMessage) :=
  handle.elim .empty opened

def reading (handle : LDAP) (message : LDAPMessage) : Ledger (Resource LDAP LDAPMessage) :=
  ⟨.message message ::ₘ {.handle handle}, []⟩

def readingEntry (handle : LDAP) (message : LDAPMessage) (entry : Option LDAPMessage) :
    Ledger (Resource LDAP LDAPMessage) :=
  ⟨.message message ::ₘ {.handle handle},
    (entry.map fun e => (.message message, .entry e)).toList⟩

/-! ### The functions of the table -/

variable (funcs : LDAPFunctions ω LDAP LDAPMessage) (config : LDAPConfig)
variable (handle : LDAP) (message entry : LDAPMessage)

theorem ldapInit_keeps (uri : CString) : Keeps .empty ((traced funcs).ldapInit uri)
    (funcs.ldapInit uri) fun a => if a.1 = LDAP_SUCCESS then created a.2 else .empty := by
  refine Triple.logged (fun a => .ldapInit a.1 a.2) rfl ?_
  rintro ⟨rc, _ | handle⟩
  · simp [created]
  · by_cases hrc : rc = LDAP_SUCCESS
    · simp [created, opened, hrc, Ledger.empty]
    · simp [hrc]

/-- A search opens its message; one that did not succeed leaks it. -/
theorem searchExtS_keeps (base : CString) (scope : ℤ) (filter : CString) : Keeps (opened handle)
    ((traced funcs).searchExtS handle base scope filter)
    (funcs.searchExtS handle base scope filter) fun a =>
      if a.1 = LDAP_SUCCESS then a.2.elim (opened handle) (reading handle) else opened handle := by
  refine Triple.logged (fun a => .searchExtS handle a.1 a.2) rfl ?_
  rintro ⟨rc, _ | message⟩
  · simp [opened]
  · by_cases hrc : rc = LDAP_SUCCESS
    · simp [opened, reading, hrc]
    · simp [opened, hrc, Ledger.add]
      exact (Multiset.singleton_add _ _).symm.trans (add_comm _ _)

theorem simpleBind_keeps (dn password : CString) : Keeps (opened handle)
    ((traced funcs).simpleBind handle dn password) (funcs.simpleBind handle dn password)
    fun _ => opened handle :=
  Triple.logged (fun _ => .simpleBind handle) rfl fun _ => by
    simp [opened]

theorem setOption_keeps (option : ℤ) (value : CString) : Keeps (opened handle)
    ((traced funcs).setOption handle option value) (funcs.setOption handle option value)
    fun _ => opened handle :=
  Triple.logged (fun _ => .setOption handle) rfl fun _ => by
    simp [opened]

theorem startTlsS_keeps : Keeps (opened handle) ((traced funcs).startTlsS handle)
    (funcs.startTlsS handle) fun _ => opened handle :=
  Triple.logged (fun _ => .startTlsS handle) rfl fun _ => by
    simp [opened]

theorem unbindExt_keeps : Keeps (opened handle) ((traced funcs).unbindExt handle)
    (funcs.unbindExt handle) fun _ => .empty :=
  Triple.logged (fun _ => .unbindExt handle) rfl fun _ => by
    simp [opened, Ledger.empty]

theorem firstEntry_keeps : Keeps (reading handle message)
    ((traced funcs).firstEntry handle message) (funcs.firstEntry handle message)
    (readingEntry handle message) :=
  Triple.logged (fun a => .firstEntry handle message a) rfl fun a => by
    cases a <;> simp [reading, readingEntry]

theorem getDn_keeps : Keeps (readingEntry handle message (some entry))
    ((traced funcs).getDn handle entry) (funcs.getDn handle entry)
    fun _ => readingEntry handle message (some entry) :=
  Triple.logged (fun _ => .getDn handle entry) rfl fun _ => by
    simp [readingEntry]

theorem getValuesLen_keeps (target : CString) : Keeps (readingEntry handle message (some entry))
    ((traced funcs).getValuesLen handle entry target) (funcs.getValuesLen handle entry target)
    fun _ => readingEntry handle message (some entry) :=
  Triple.logged (fun _ => .getValuesLen handle entry) rfl fun _ => by
    simp [readingEntry]

theorem memfree_keeps (ledger : Ledger (Resource LDAP LDAPMessage)) (p : CString) :
    Keeps ledger ((traced funcs).memfree p) (funcs.memfree p) fun _ => ledger :=
  Triple.logged (fun _ => .memfree) rfl fun _ => by
    simp

theorem valueFreeLen_keeps (ledger : Ledger (Resource LDAP LDAPMessage)) (vals : List BerValue) :
    Keeps ledger ((traced funcs).valueFreeLen vals) (funcs.valueFreeLen vals) fun _ => ledger :=
  Triple.logged (fun _ => .valueFreeLen) rfl fun _ => by
    simp

/-- The entry of the message goes with it. -/
theorem msgfree_keeps (first : Option LDAPMessage) : Keeps (readingEntry handle message first)
    ((traced funcs).msgfree message) (funcs.msgfree message) fun _ => opened handle :=
  Triple.logged (fun _ => .msgfree message) rfl fun _ => by
    cases first <;> simp [readingEntry, opened]

/-! ### The functions of the handler -/

theorem destroyHandle_keeps : Keeps (opened handle) (destroyHandle (traced funcs) (some handle))
    (destroyHandle funcs (some handle)) fun _ => .empty :=
  (unbindExt_keeps funcs handle).bind fun _ => .pure rfl

theorem bindUser_keeps (dn password : ByteString) : Keeps (opened handle)
    (bindUser (traced funcs) (some handle) dn password) (bindUser funcs (some handle) dn password)
    fun _ => opened handle :=
  (simpleBind_keeps funcs handle _ _).bind fun _ => .pure rfl

theorem createHandle_keeps : Keeps .empty (createHandle (traced funcs) config)
    (createHandle funcs config) created := by
  refine (ldapInit_keeps funcs _).bind ?_
  rintro ⟨rc, _ | handle⟩
  · dsimp only [created, Option.elim]
    rw [ite_self]
    exact .pure rfl
  · dsimp only
    by_cases hrc : rc = LDAP_SUCCESS
    · rw [if_pos hrc, if_neg (not_not.mpr hrc), if_neg (not_not.mpr hrc)]
      have hend : Keeps (opened handle)
          (if config.useTLS = true ∧ config.useLDAPS = false then do
            let rc ← (traced funcs).startTlsS handle
            if rc ≠ LDAP_SUCCESS then do
              destroyHandle (traced funcs) (some handle)
              pure none
            else pure (some handle)
          else pure (some handle))
          (if config.useTLS = true ∧ config.useLDAPS = false then do
            let rc ← funcs.startTlsS handle
            if rc ≠ LDAP_SUCCESS then do
              destroyHandle funcs (some handle)
              pure none
            else pure (some handle)
          else pure (some handle)) created := by
        split
        next =>
          refine (startTlsS_keeps funcs handle).bind fun rc => ?_
          split
          next => exact (destroyHandle_keeps funcs handle).bind fun _ => .pure rfl
          next => exact .pure rfl
        next => exact .pure rfl
      by_cases hfile : config.tlsCACertFile ≠ []
      · rw [if_pos hfile, if_pos hfile]
        exact (setOption_keeps funcs handle _ _).bind fun _ => hend
      · rw [if_neg hfile, if_neg hfile]
        exact hend
    · rw [if_neg hrc, if_pos hrc, if_pos hrc]
      exact .pure rfl

/-- The three searches: what is done with the message of a successful one ends
with its release. -/
theorem search_keeps {α : Type} (base : CString) (scope : ℤ) (filter : CString) (default : α)
    {f : LDAPMessage → StateM (ω × List (Call LDAP LDAPMessage)) α} {g : LDAPMessage → StateM ω α}
    (h : ∀ message, Keeps (reading handle message) (f message) (g message)
      fun _ => opened handle) :
    Keeps (opened handle)
      (do match ← (traced funcs).searchExtS handle base scope filter with
          | (_, none) => pure default
          | (rc, some message) => if rc ≠ LDAP_SUCCESS then pure default else f message)
      (do match ← funcs.searchExtS handle base scope filter with
          | (_, none) => pure default
          | (rc, some message) => if rc ≠ LDAP_SUCCESS then pure default else g message)
      fun _ => opened handle := by
  refine (searchExtS_keeps funcs handle base scope filter).bind ?_
  rintro ⟨rc, _ | message⟩
  · dsimp only [Option.elim]
    rw [ite_self]
    exact .pure rfl
  · dsimp only [Option.elim]
    by_cases hrc : rc = LDAP_SUCCESS
    · rw [if_pos hrc, if_neg (not_not.mpr hrc), if_neg (not_not.mpr hrc)]
      exact h message
    · rw [if_neg hrc, if_pos hrc, if_pos hrc]
      exact .pure rfl

/-- The end of a search, whatever was read from the first entry. -/
theorem close_keeps {α : Type} (first : Option LDAPMessage) (a : α) :
    Keeps (readingEntry handle message first)
      (do
        (traced funcs).msgfree message
        pure a)
      (do
        funcs.msgfree message
        pure a) fun _ => opened handle :=
  (msgfree_keeps funcs handle message first).bind fun _ => .pure rfl

theorem findUserDn_keeps (username : ByteString) : Keeps (opened handle)
    (findUserDn (traced funcs) config handle username) (findUserDn funcs config handle username)
    fun _ => opened handle := by
  refine search_keeps funcs handle _ _ _ [] fun message => ?_
  refine (firstEntry_keeps funcs handle message).bind ?_
  rintro (_ | entry)
  · exact close_keeps funcs handle message none []
  · refine (getDn_keeps funcs handle message entry).bind ?_
    rintro (_ | dn)
    · exact close_keeps funcs handle message (some entry) []
    · exact (memfree_keeps funcs _ dn).bind fun _ =>
        close_keeps funcs handle message (some entry) dn.val

theorem fetchRolesViaAttribute_keeps (userDn : ByteString) : Keeps (opened handle)
    (fetchRolesViaAttribute (traced funcs) config handle userDn)
    (fetchRolesViaAttribute funcs config handle userDn) fun _ => opened handle := by
  refine search_keeps funcs handle _ _ _ [] fun message => ?_
  refine (firstEntry_keeps funcs handle message).bind ?_
  rintro (_ | entry)
  · exact close_keeps funcs handle message none []
  · refine (getValuesLen_keeps funcs handle message entry _).bind ?_
    rintro (_ | vals)
    · exact close_keeps funcs handle message (some entry) []
    · exact (valueFreeLen_keeps funcs _ vals).bind fun _ =>
        close_keeps funcs handle message (some entry) (rolesOf vals)

theorem fetchRolesViaSearch_keeps (userDn : ByteString) : Keeps (opened handle)
    (fetchRolesViaSearch (traced funcs) config handle userDn)
    (fetchRolesViaSearch funcs config handle userDn) fun _ => opened handle := by
  refine search_keeps funcs handle _ _ _ [] fun message => ?_
  refine (firstEntry_keeps funcs handle message).bind ?_
  rintro (_ | entry)
  · exact close_keeps funcs handle message none []
  · refine (getDn_keeps funcs handle message entry).bind ?_
    rintro (_ | dn)
    · exact close_keeps funcs handle message (some entry) []
    · exact (memfree_keeps funcs _ dn).bind fun _ =>
        close_keeps funcs handle message (some entry) [dn.val]

theorem fetchRoles_keeps (userDn : ByteString) : Keeps (opened handle)
    (fetchRoles (traced funcs) config handle userDn) (fetchRoles funcs config handle userDn)
    fun _ => opened handle := by
  unfold fetchRoles
  split
  next => exact fetchRolesViaAttribute_keeps funcs config handle userDn
  next =>
    split
    next => exact fetchRolesViaSearch_keeps funcs config handle userDn
    next => exact .pure rfl

theorem loginAs_keeps (dn password : ByteString) : Keeps (opened handle)
    (loginAs (traced funcs) config handle dn password) (loginAs funcs config handle dn password)
    fun _ => .empty := by
  refine (bindUser_keeps funcs handle dn password).bind fun bound => ?_
  split
  next =>
    exact (fetchRoles_keeps funcs config handle dn).bind fun _ =>
      (destroyHandle_keeps funcs handle).bind fun _ => .pure rfl
  next => exact (destroyHandle_keeps funcs handle).bind fun _ => .pure rfl

theorem authenticate_keeps (username password : ByteString) : Keeps .empty
    (authenticate (traced funcs) config username password)
    (authenticate funcs config username password) fun _ => .empty := by
  unfold authenticate
  cases config.mode with
  | Simple =>
    refine (createHandle_keeps funcs config).bind ?_
    rintro (_ | handle)
    · exact .pure rfl
    · exact loginAs_keeps funcs config handle _ password
  | Search =>
    refine (createHandle_keeps funcs config).bind ?_
    rintro (_ | adminHandle)
    · exact .pure rfl
    · refine (bindUser_keeps funcs adminHandle _ _).bind fun bound => ?_
      split
      next =>
        refine (findUserDn_keeps funcs config adminHandle username).bind fun userDn => ?_
        refine (destroyHandle_keeps funcs adminHandle).bind fun _ => ?_
        split
        next => exact .pure rfl
        next =>
          refine (createHandle_keeps funcs config).bind ?_
          rintro (_ | userHandle)
          · exact .pure rfl
          · exact loginAs_keeps funcs config userHandle userDn password
      next => exact (destroyHandle_keeps funcs adminHandle).bind fun _ => .pure rfl

/-! ### One authentication -/

/-- Logging changes neither the answer nor what the library sees. -/
theorem authenticate_traced (username password : ByteString) (w : ω) :
    (authenticate (traced funcs) config username password (w, [])).1 =
        (authenticate funcs config username password w).1 ∧
      (authenticate (traced funcs) config username password (w, [])).2.1 =
        (authenticate funcs config username password w).2 := by
  have h := authenticate_keeps funcs config username password
  exact ⟨h.answer w [], h.state w []⟩

omit [DecidableEq LDAP] [DecidableEq LDAPMessage] in
theorem loginAs_refused (dn password : ByteString) (w : ω)
    (h : (loginAs funcs config handle dn password w).1.1 = false) :
    (loginAs funcs config handle dn password w).1.2 = [] := by
  unfold loginAs at h ⊢
  rw [bind_run] at h ⊢
  cases hbound : (bindUser funcs (some handle) dn password w).1 with
  | false => rfl
  | true =>
    rw [hbound] at h
    cases h

omit [DecidableEq LDAP] [DecidableEq LDAPMessage] in
theorem authenticate_refused (username password : ByteString) (w : ω)
    (h : (authenticate funcs config username password w).1.1 = false) :
    (authenticate funcs config username password w).1.2 = [] := by
  rw [authenticate_eq, bind_run] at h ⊢
  generalize userBind funcs config username w = bound at h ⊢
  rcases bound with ⟨_ | ⟨handle, dn⟩, w'⟩
  · rfl
  · exact loginAs_refused funcs config handle dn password w' h

omit [DecidableEq LDAP] [DecidableEq LDAPMessage] in
theorem leaked_eq_zero_iff (call : Call LDAP LDAPMessage) : call.leaked = 0 ↔
    ∀ handle rc message, call = .searchExtS handle rc (some message) → rc = LDAP_SUCCESS := by
  constructor
  · rintro h handle rc message rfl
    by_contra hrc
    rw [Call.leaked, if_neg hrc] at h
    exact Multiset.singleton_ne_zero _ h
  · intro h
    unfold Call.leaked
    split
    next handle rc message => exact if_pos (h handle rc message rfl)
    next => rfl

/-- The resources of a login are balanced exactly where no search of it answers
with a message and an error. -/
theorem balanced_iff_searches_succeed (username password : ByteString) (w : ω) :
    (Balanced ((calls funcs config username password w).flatMap Call.events) ∧
      ((authenticate funcs config username password w).1.1 = false →
        (authenticate funcs config username password w).1.2 = [])) ↔
    ∀ handle rc message,
      .searchExtS handle rc (some message) ∈ calls funcs config username password w →
        rc = LDAP_SUCCESS := by
  rw [and_iff_left (authenticate_refused funcs config username password w)]
  refine ((authenticate_keeps funcs config username password).balanced_iff w).trans ?_
  simp only [leaked_eq_zero_iff]
  constructor
  · intro h handle rc message hcall
    exact h _ hcall handle rc message rfl
  · rintro h call hcall handle rc message rfl
    exact h handle rc message hcall

/-- A server that stops every search at its size limit and answers what it has
found so far. -/
def limitedServer : LDAPFunctions Unit Unit Unit where
  ldapInit _ := pure (LDAP_SUCCESS, some ())
  simpleBind _ _ _ := pure LDAP_SUCCESS
  searchExtS _ _ _ _ := pure (4, some ())
  setOption _ _ _ := pure LDAP_SUCCESS
  startTlsS _ := pure LDAP_SUCCESS
  unbindExt _ := pure LDAP_SUCCESS
  getDn _ _ := pure (some (c_str (lit "uid=alice")))
  memfree _ := pure ()
  firstEntry _ _ := pure (some ())
  getValuesLen _ _ _ := pure none
  valueFreeLen _ := pure ()
  msgfree _ := pure ()

theorem limitedServer_leaks :
    Call.searchExtS () 4 (some ()) ∈
        calls limitedServer (sampleConfig .Search) (lit "alice") (lit "secret") () ∧
      .msgfree () ∉ calls limitedServer (sampleConfig .Search) (lit "alice") (lit "secret") () ∧
      ¬ Balanced ((calls limitedServer (sampleConfig .Search) (lit "alice") (lit "secret")
        ()).flatMap Call.events) := by
  decide

end OpenArangoDBCore.Auth.LDAPResources
