/-
The exchange forms by the names they go by, for callers that hold nothing but
text.
-/
import ObjectVault.Settings

namespace ObjectVault.Exchange

/-- Read a value from its JSON text and write it again. -/
def respell? (α : Type) [Exchange α] (json : String) : Option String :=
  ((Json.read? (Bytes.ofText json)).bind fun document => (read? document : Option α)).map
    fun a => Json.render (write a)

/-- The respelling of each form. -/
def named : List (String × (String → Option String)) :=
  [("Oid", respell? Oid), ("Tid", respell? Tid), ("ObjectRecord", respell? Version),
    ("ObjectWrite", respell? Write), ("TransactionMeta", respell? CommitNote),
    ("VersionInfo", respell? VersionSummary), ("TxnState", respell? TxnState),
    ("AbortReason", respell? AbortReason), ("CacheStats", respell? CacheStats),
    ("PackReport", respell? PackReport), ("PackConfig", respell? PackSettings),
    ("RetentionPolicy", respell? Retention), ("StorageConfig", respell? Settings)]

/-- Respell a text in the form of the given name. -/
def respellNamed? (name json : String) : Option String :=
  (named.lookup name).bind (· json)

end ObjectVault.Exchange
