/-
# Messages

The messages of `proto/transparency.proto` and the stored node format of
`proto/prefix.proto`.  Their protobuf encoding is not modelled: what is sent or
stored is the message.  A `uint64` that is hashed or compared as a time is a
`U64`; sizes, positions and versions are natural numbers.
-/

import KeyTransparency.Library.Octets
import Mathlib.Data.Fin.Basic

namespace KeyTransparency

/-- A 64-bit time in milliseconds. -/
abbrev U64 := Fin (2 ^ 64)

instance instNeZeroU64 : NeZero (2 ^ 64) := ⟨by decide⟩

/-! ### Stored prefix tree nodes -/

structure ParentNode where
  hash : Octets
  ptr : Option ℕ
  firstUpdatePosition : Option ℕ
deriving DecidableEq, Repr

structure LeafNode where
  ctr : ℕ
  commitment : Octets
deriving DecidableEq, Repr

structure LogEntry where
  index : Octets
  copath : List ParentNode
  firstUpdatePosition : ℕ
  leaf : Option LeafNode
deriving DecidableEq, Repr

/-! ### Proofs -/

structure PrefixLeaf where
  vrfOutput : Octets
  commitment : Octets
deriving DecidableEq, Repr

/-- `resultType` is 1 for an inclusion, 2 for a non-inclusion at another leaf, 3
for a non-inclusion at an empty node. -/
structure PrefixSearchResult where
  resultType : ℕ
  leaf : Option PrefixLeaf
  depth : ℕ
deriving DecidableEq, Repr

structure PrefixProof where
  results : List PrefixSearchResult
  elements : List Octets
deriving DecidableEq, Repr

structure InclusionProof where
  elements : List Octets
deriving DecidableEq, Repr

structure CombinedTreeProof where
  timestamps : List U64
  prefixProofs : List PrefixProof
  prefixRoots : List Octets
  inclusion : Option InclusionProof
deriving DecidableEq, Repr

structure BinaryLadderStep where
  proof : Octets
  commitment : Option Octets
deriving DecidableEq, Repr

/-! ### Tree heads -/

structure AuditorTreeHead where
  treeSize : ℕ
  timestamp : ℤ
  signature : Octets
deriving DecidableEq, Repr

structure Signature where
  auditorPublicKey : Octets
  signature : Octets
deriving DecidableEq, Repr

structure TreeHead where
  treeSize : ℕ
  timestamp : ℤ
  signatures : List Signature
deriving DecidableEq, Repr

/-- Protobuf enumerations are open. -/
inductive FullTreeHeadType
  | reserved
  | same
  | updated
  | unknown (n : ℤ)
deriving DecidableEq, Repr

structure FullTreeHead where
  headType : FullTreeHeadType
  treeHead : Option TreeHead
  auditorTreeHead : Option AuditorTreeHead
deriving DecidableEq, Repr

/-- A signed 64-bit time read as an unsigned one. -/
def asU64 (t : ℤ) : U64 := ⟨(t % 2 ^ 64).toNat, by omega⟩

/-- An unsigned 64-bit time read as a signed one. -/
def asI64 (t : U64) : ℤ := if t.val < 2 ^ 63 then t.val else t.val - 2 ^ 64

@[simp] theorem asU64_asI64 (t : U64) : asU64 (asI64 t) = t := by
  have := t.isLt
  apply Fin.ext
  simp only [asU64, asI64]
  split_ifs <;> omega

/-! ### Requests and responses -/

structure UpdateValue where
  value : Octets
deriving DecidableEq, Repr

structure Consistency where
  last : Option ℕ
  distinguished : Option ℕ
deriving DecidableEq, Repr

structure SearchRequest where
  last : Option ℕ
  label : Octets
  version : Option ℕ
deriving DecidableEq, Repr

structure SearchResponse where
  fullTreeHead : Option FullTreeHead
  version : Option ℕ
  opening : Octets
  value : Option UpdateValue
  binaryLadder : List BinaryLadderStep
  search : Option CombinedTreeProof
deriving DecidableEq, Repr

structure LabelValue where
  value : Octets
deriving DecidableEq, Repr

structure UpdateRequest where
  last : Option ℕ
  label : Octets
  greatestVersion : Option ℕ
  values : List LabelValue
deriving DecidableEq, Repr

structure UpdateInfo where
  opening : Octets
  suffixSignature : Option Octets
deriving DecidableEq, Repr

structure UpdateResponse where
  fullTreeHead : Option FullTreeHead
  position : ℕ
  values : List LabelValue
  info : List UpdateInfo
  binaryLadder : List BinaryLadderStep
  update : Option CombinedTreeProof
deriving DecidableEq, Repr

structure MonitorMapEntry where
  position : ℕ
  version : ℕ
deriving DecidableEq, Repr

structure ContactMonitorRequest where
  last : Option ℕ
  label : Octets
  entries : List MonitorMapEntry
deriving DecidableEq, Repr

structure ContactMonitorResponse where
  fullTreeHead : Option FullTreeHead
  monitor : Option CombinedTreeProof
deriving DecidableEq, Repr

structure OwnerInitResponse where
  fullTreeHead : Option FullTreeHead
  greatestVersions : List ℕ
  binaryLadder : List BinaryLadderStep
  init : Option CombinedTreeProof
deriving DecidableEq, Repr

structure OwnerMonitorRequest where
  last : Option ℕ
  label : Octets
  entries : List MonitorMapEntry
  start : ℕ
  greatestVersion : Option ℕ
deriving DecidableEq, Repr

structure OwnerMonitorResponse where
  fullTreeHead : Option FullTreeHead
  monitor : Option CombinedTreeProof
  binaryLadder : List BinaryLadderStep
deriving DecidableEq, Repr

structure DistinguishedRequest where
  last : Option ℕ
  stop : Option ℕ
deriving DecidableEq, Repr

structure DistinguishedResponse where
  fullTreeHead : Option FullTreeHead
  distinguished : Option CombinedTreeProof
deriving DecidableEq, Repr

inductive CredentialType
  | reserved
  | standard
  | provisional
  | unknown (n : ℤ)
deriving DecidableEq, Repr

/-- A standard credential has `distinguished`, a provisional one `treeHead` and `search`. -/
structure Credential where
  label : Octets
  version : ℕ
  opening : Octets
  value : Option UpdateValue
  binaryLadder : List BinaryLadderStep
  position : ℕ
  credentialType : CredentialType
  distinguished : Option PrefixProof
  treeHead : Option TreeHead
  search : Option CombinedTreeProof
deriving DecidableEq, Repr

structure CredentialUpdate where
  position : ℕ
  monitor : Option CombinedTreeProof
deriving DecidableEq, Repr

structure GetCredentialRequest where
  label : Octets
deriving DecidableEq, Repr

structure GetCredentialUpdateRequest where
  label : Octets
  terminalPosition : ℕ
  terminalVersion : ℕ
deriving DecidableEq, Repr

structure AuditorUpdate where
  timestamp : U64
  added : List PrefixLeaf
  removed : List PrefixLeaf
  proof : Option PrefixProof
deriving DecidableEq, Repr

structure AuditBootstrapResponse where
  treeHead : Option TreeHead
  logPeaks : List Octets
  prefixRoot : Octets
  timestamp : U64
deriving DecidableEq, Repr

end KeyTransparency
