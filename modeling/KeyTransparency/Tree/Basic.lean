/-
# The server

`Tree` of `src/tree/mod.rs`: the store, the configuration, the latest signed head
and the auditor heads it has accepted.
-/

import KeyTransparency.Crypto.Signing
import KeyTransparency.Store

namespace KeyTransparency

/-- An accepted auditor head, with the data kept along with it. -/
structure AcceptedAuditorHead where
  treeSize : ℕ
  timestamp : ℤ
  signature : Octets
  rootValue : Octets
  consistency : List Octets

/-- The server's state.  Auditor heads are keyed by the auditor's public key. -/
structure Tree where
  store : Store
  config : PrivateConfig
  latest : Option TreeHead
  auditors : List (Octets × AcceptedAuditorHead)

namespace Tree

def treeSize (t : Tree) : ℕ := t.latest.elim 0 TreeHead.treeSize

end Tree

end KeyTransparency
