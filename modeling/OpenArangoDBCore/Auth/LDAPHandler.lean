import OpenArangoDBCore.Auth.LDAPConfig

/-!
# LDAP authentication (LDAPHandler.cpp)

The table of libldap functions is a parameter. A function of the table may
change the state of the library and the server, which is passed along; null
pointers are `none`. The arguments that are the same in all calls (attribute
list, controls, time limit, size limit) are left out.
-/

namespace OpenArangoDBCore.Auth

def LDAP_SUCCESS : ℤ := 0
def LDAP_SCOPE_SUBTREE : ℤ := 2
def LDAP_OPT_X_TLS_CACERTFILE : ℤ := 0x6002

/-- `bv_val` is the memory at the pointer. -/
structure BerValue where
  bv_val : Option ByteString
  bv_len : ℤ

structure LDAPFunctions (ω LDAP LDAPMessage : Type) where
  ldapInit : CString → StateM ω (ℤ × Option LDAP)
  simpleBind : LDAP → CString → CString → StateM ω ℤ
  searchExtS : LDAP → CString → ℤ → CString → StateM ω (ℤ × Option LDAPMessage)
  setOption : LDAP → ℤ → CString → StateM ω ℤ
  startTlsS : LDAP → StateM ω ℤ
  unbindExt : LDAP → StateM ω ℤ
  getDn : LDAP → LDAPMessage → StateM ω (Option CString)
  memfree : CString → StateM ω Unit
  firstEntry : LDAP → LDAPMessage → StateM ω (Option LDAPMessage)
  getValuesLen : LDAP → LDAPMessage → CString → StateM ω (Option (List BerValue))
  valueFreeLen : List BerValue → StateM ω Unit
  msgfree : LDAPMessage → StateM ω Unit

namespace LDAPHandler
variable {ω LDAP LDAPMessage : Type} (funcs : LDAPFunctions ω LDAP LDAPMessage)
variable (config : LDAPConfig)

def destroyHandle (handle : Option LDAP) : StateM ω Unit := do
  match handle with
  | some handle => let _ ← funcs.unbindExt handle
  | none => pure ()

def createHandle : StateM ω (Option LDAP) := do
  let scheme := if config.useLDAPS then lit "ldaps" else lit "ldap"
  let uri := scheme ++ lit "://" ++ config.server ++ lit ":" ++ decimalInt config.port
  match ← funcs.ldapInit (c_str uri) with
  | (_, none) => pure none
  | (rc, some handle) =>
    if rc ≠ LDAP_SUCCESS then pure none
    else
      if config.tlsCACertFile ≠ [] then
        let _ ← funcs.setOption handle LDAP_OPT_X_TLS_CACERTFILE (c_str config.tlsCACertFile)
      if config.useTLS = true ∧ config.useLDAPS = false then
        let rc ← funcs.startTlsS handle
        if rc ≠ LDAP_SUCCESS then
          destroyHandle funcs (some handle)
          pure none
        else pure (some handle)
      else pure (some handle)

def bindUser (handle : Option LDAP) (dn password : ByteString) : StateM ω Bool := do
  match handle with
  | none => pure false
  | some handle =>
    let rc ← funcs.simpleBind handle (c_str dn) (c_str password)
    pure (rc = LDAP_SUCCESS)

/-- The roles of the value array, empty and null values left out. -/
def rolesOf (vals : List BerValue) : List ByteString :=
  vals.filterMap fun val =>
    match val.bv_val with
    | some bytes => if 0 < val.bv_len then some (bytes.take val.bv_len.toNat) else none
    | none => none

def fetchRolesViaAttribute (handle : LDAP) (userDn : ByteString) : StateM ω (List ByteString) := do
  match ← funcs.searchExtS handle (c_str userDn) LDAP_SCOPE_SUBTREE
      (c_str (lit "(objectClass=*)")) with
  | (_, none) => pure []
  | (rc, some result) =>
    if rc ≠ LDAP_SUCCESS then pure []
    else
      let mut roles := []
      match ← funcs.firstEntry handle result with
      | none => pure ()
      | some entry =>
        match ← funcs.getValuesLen handle entry (c_str config.rolesAttribute) with
        | none => pure ()
        | some vals =>
          roles := rolesOf vals
          funcs.valueFreeLen vals
      funcs.msgfree result
      pure roles

def replaceFirst (placeholder replacement : ByteString) : ByteString → ByteString
  | [] => if placeholder = [] then replacement else []
  | b :: rest =>
    if placeholder.isPrefixOf (b :: rest) then
      replacement ++ (b :: rest).drop placeholder.length
    else b :: replaceFirst placeholder replacement rest

def fetchRolesViaSearch (handle : LDAP) (userDn : ByteString) : StateM ω (List ByteString) := do
  let filter := replaceFirst (lit "\x7buserDn\x7d") userDn config.rolesSearch
  match ← funcs.searchExtS handle (c_str config.basedn) LDAP_SCOPE_SUBTREE (c_str filter) with
  | (_, none) => pure []
  | (rc, some result) =>
    if rc ≠ LDAP_SUCCESS then pure []
    else
      let mut roles := []
      match ← funcs.firstEntry handle result with
      | none => pure ()
      | some entry =>
        match ← funcs.getDn handle entry with
        | none => pure ()
        | some dn =>
          roles := [dn.val]
          funcs.memfree dn
      funcs.msgfree result
      pure roles

def fetchRoles (handle : LDAP) (userDn : ByteString) : StateM ω (List ByteString) := do
  if config.rolesAttribute ≠ [] then fetchRolesViaAttribute funcs config handle userDn
  else if config.rolesSearch ≠ [] then fetchRolesViaSearch funcs config handle userDn
  else pure []

def userFilter (username : ByteString) : ByteString := lit "(uid=" ++ username ++ lit ")"

/-- Step 2 of the search mode, with the admin's handle; empty if no user is found. -/
def findUserDn (adminHandle : LDAP) (username : ByteString) : StateM ω ByteString := do
  match ← funcs.searchExtS adminHandle (c_str config.basedn) LDAP_SCOPE_SUBTREE
      (c_str (userFilter username)) with
  | (_, none) => pure []
  | (rc, some searchResult) =>
    if rc ≠ LDAP_SUCCESS then pure []
    else
      let mut userDn := []
      match ← funcs.firstEntry adminHandle searchResult with
      | none => pure ()
      | some entry =>
        match ← funcs.getDn adminHandle entry with
        | none => pure ()
        | some dn =>
          userDn := dn.val
          funcs.memfree dn
      funcs.msgfree searchResult
      pure userDn

/-- The end of both modes: bind as the user and fetch the roles. -/
def loginAs (handle : LDAP) (dn password : ByteString) : StateM ω (Bool × List ByteString) := do
  if ← bindUser funcs (some handle) dn password then
    let roles ← fetchRoles funcs config handle dn
    destroyHandle funcs (some handle)
    pure (true, roles)
  else
    destroyHandle funcs (some handle)
    pure (false, [])

/-- The answer and `outRoles`. -/
def authenticate (username password : ByteString) : StateM ω (Bool × List ByteString) := do
  match config.mode with
  | .Simple =>
    let dn := config.dnPrefix ++ username ++ config.dnSuffix
    match ← createHandle funcs config with
    | none => pure (false, [])
    | some handle => loginAs funcs config handle dn password
  | .Search =>
    match ← createHandle funcs config with
    | none => pure (false, [])
    | some adminHandle =>
      if ← bindUser funcs (some adminHandle) config.binddn config.bindpasswd then
        let userDn ← findUserDn funcs config adminHandle username
        destroyHandle funcs (some adminHandle)
        if userDn = [] then pure (false, [])
        else
          match ← createHandle funcs config with
          | none => pure (false, [])
          | some userHandle => loginAs funcs config userHandle userDn password
      else
        destroyHandle funcs (some adminHandle)
        pure (false, [])

end LDAPHandler
end OpenArangoDBCore.Auth
