/-
The boundary between application objects and stored state.  A codec turns an
object into bytes and the set of oids it refers to, and bytes back into an
object.
-/
import ObjectVault.Version

namespace ObjectVault

inductive CodecError where
  | encode (detail : String)
  | decode (detail : String)
deriving DecidableEq

/-- The kind of an error, for callers that only tell kinds apart. -/
def CodecError.kind : CodecError → String
  | encode _ => "Encode"
  | decode _ => "Decode"

def CodecError.message : CodecError → String
  | encode detail => "encode failed: " ++ detail
  | decode detail => "decode failed: " ++ detail

/-- The stored form of an object. -/
structure Encoded where
  state : Bytes
  refs : OidSet

structure Codec (α : Type) where
  encode : α → Except CodecError Encoded
  decode : Bytes → Except CodecError α

end ObjectVault
