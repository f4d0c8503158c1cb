import OpenArangoDBCore.Basics

/-! # Configuration of the LDAP authentication (LDAPConfig.cpp) -/

namespace OpenArangoDBCore.Auth

inductive LDAPAuthMode where
  | Simple
  | Search
  deriving DecidableEq, Repr

structure LDAPConfig where
  server : ByteString
  port : ℤ
  basedn : ByteString
  binddn : ByteString
  bindpasswd : ByteString
  dnPrefix : ByteString
  dnSuffix : ByteString
  useTLS : Bool
  useLDAPS : Bool
  tlsCACertFile : ByteString
  rolesAttribute : ByteString
  rolesSearch : ByteString
  mode : LDAPAuthMode

/-- The description of an error, empty on success. -/
def LDAPConfig.validate (cfg : LDAPConfig) : ByteString :=
  if cfg.server = [] then lit "LDAP server address must not be empty"
  else if cfg.port < 1 ∨ 65535 < cfg.port then lit "LDAP port must be between 1 and 65535"
  else if cfg.mode = .Search ∧ cfg.binddn = [] then
    lit "binddn is required for search authentication mode"
  else if cfg.mode = .Search ∧ cfg.basedn = [] then
    lit "basedn is required for search authentication mode"
  else if cfg.useTLS = true ∧ cfg.useLDAPS = true then
    lit "Cannot enable both StartTLS and LDAPS simultaneously"
  else []

end OpenArangoDBCore.Auth
