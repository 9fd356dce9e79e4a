/-
Nodes, the plainest application objects: a label, and the oids of children.
They are stored as JSON, and their children are their references.
-/
import ObjectVault.Codec
import ObjectVault.Exchange

namespace ObjectVault

structure Node where
  label : String
  children : List Oid
deriving DecidableEq, Inhabited

namespace Node

instance : Exchange Node where
  write node := .ofFields
    [("label", .ofText node.label), ("children", .list (node.children.map Exchange.write))]
  read? document := do
    let [label, children] ← document.slots? ["label", "children"] | none
    return ⟨← Document.required? Document.text? label,
      ← Document.required? (Document.listOf? Exchange.read?) children⟩

def encode (node : Node) : Encoded :=
  ⟨Json.write (Exchange.write node), OidSet.ofOids node.children⟩

def decode? (state : Bytes) : Option Node := (Json.read? state).bind Exchange.read?

def codec : Codec Node where
  encode node := .ok node.encode
  decode state := match decode? state with
    | some node => .ok node
    | none => .error (.decode "state is not a node")

end Node

end ObjectVault
