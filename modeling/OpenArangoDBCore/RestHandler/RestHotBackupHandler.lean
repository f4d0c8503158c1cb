import OpenArangoDBCore.RocksDBEngine.HotBackupCreate

/-! # REST handler of the hot backups (RestHotBackupHandler.cpp) -/

namespace OpenArangoDBCore.RestHandler.RestHotBackupHandler
open FileTree RocksDBEngine

def formatSuccess (resultJson : ByteString) : ByteString :=
  lit "\x7b\n  \"error\": false,\n  \"code\": 200,\n  \"result\": " ++ resultJson ++ lit "\n\x7d"

def formatError (code : ℤ) (message : ByteString) : ByteString :=
  lit "\x7b\n  \"error\": true,\n  \"code\": " ++ decimalInt code ++
    lit ",\n  \"errorMessage\": \"" ++ message ++ lit "\"\n\x7d"

/-- The names in quotation marks, between the brackets. -/
def renderCollections (collections : List ByteString) : ByteString :=
  (lit ", ").intercalate (collections.map BackupManifest.quoted)

def renderCreated (manifest : BackupManifest) : ByteString :=
  lit "\x7b\n" ++
    (lit "  \"id\": \"" ++ manifest.backupId ++ lit "\",\n") ++
    (lit "  \"datetime\": \"" ++ manifest.timestamp ++ lit "\",\n") ++
    (lit "  \"version\": \"" ++ manifest.version ++ lit "\",\n") ++
    -- the sequence number under the key of the duration
    (lit "  \"durationSeconds\": " ++ decimal manifest.sequenceNumber.toNat ++ lit ",\n") ++
    (lit "  \"collections\": [" ++ renderCollections manifest.collections ++ lit "],\n") ++
    (lit "  \"isConsistent\": " ++ (if manifest.isConsistent then lit "true" else lit "false") ++
      lit "\n") ++
    lit "\x7d"

def renderListed (m : BackupManifest) : ByteString :=
  lit "\x7b\n" ++
    (lit "  \"id\": \"" ++ m.backupId ++ lit "\",\n") ++
    (lit "  \"datetime\": \"" ++ m.timestamp ++ lit "\",\n") ++
    (lit "  \"version\": \"" ++ m.version ++ lit "\",\n") ++
    (lit "  \"collections\": [" ++ renderCollections m.collections ++ lit "],\n") ++
    (lit "  \"isConsistent\": " ++ (if m.isConsistent then lit "true" else lit "false") ++
      lit "\n") ++
    lit "\x7d"

/-- The result and `response`, for the result and the `out` of `_backup.create`. -/
def executeCreate (created : HotBackupResult × HotBackupCreate.CreateResult) :
    HotBackupResult × ByteString :=
  if created.1.ok = false then
    (created.1, formatError created.1.errorNumber created.1.errorMessage)
  else (.success, formatSuccess (renderCreated created.2.manifest))

/-- The same for `_backup.list`. -/
def executeList (listed : HotBackupResult × List BackupManifest) : HotBackupResult × ByteString :=
  if listed.1.ok = false then (listed.1, formatError listed.1.errorNumber listed.1.errorMessage)
  else (.success,
    formatSuccess (lit "[" ++ (lit ", ").intercalate (listed.2.map renderListed) ++ lit "]"))

/-- The result, `response` and the tree. -/
def executeDelete (cwd : Path) (backupBasePath backupId : ByteString) (t : Tree) :
    HotBackupResult × ByteString × Tree :=
  match RocksDBHotBackup.deleteBackup cwd backupBasePath backupId t with
  | (res, t') =>
    if res.ok = false then (res, formatError res.errorNumber res.errorMessage, t')
    else (.success, formatSuccess (lit "\x7b\"deleted\": true, \"id\": \"" ++ backupId ++
      lit "\"\x7d"), t')

end OpenArangoDBCore.RestHandler.RestHotBackupHandler
