/-
# The memory of a client and its file

`KtClient` of `src/client/core.rs` as the source holds it, with finite maps and with the
versions of the labels, and the file that `save_state` writes and `persist_to` reads.  The
hexadecimal and JSON encodings are parameters, of which only that they are read back is used.
What was saved is restored, in whatever order the hash maps were written
(`persistTo_of_holds`).

A client runs on a `Host`, with its clock and its file system.
-/

import KeyTransparency.Client.State
import KeyTransparency.Library.FiniteMap
import KeyTransparency.Library.Hex
import KeyTransparency.Library.Transaction

namespace KeyTransparency

open FiniteMap Transaction

/-- The protocol state of a client: what it has taken over from verified responses. -/
structure ProtocolState where
  state : Option TrustedState
  labelVersions : FiniteMap Octets ℕ
  retainedSubtrees : OrderedMap Octets
  auditorHead : Option (ℕ × U64)
  monitoringMap : FiniteMap Octets (OrderedMap ℕ)
  versionMaterial : FiniteMap Octets (FiniteMap ℕ (Octets × Option Octets))
  distinguishedEntries : OrderedMap DistinguishedEntry
  retainedHead : Option Octets

structure ClientMemory extends ProtocolState where
  sigPk : Octets
  vrfPk : Octets
  config : PublicConfig
  statePath : Option String

namespace ClientMemory

/-- What the checks read of a client; none of them reads the head kept for gossip. -/
def view (m : ClientMemory) : KtClient where
  sigPk := m.sigPk
  vrfPk := m.vrfPk
  config := m.config
  state := m.state
  retainedSubtrees := m.retainedSubtrees.get
  auditorHead := m.auditorHead
  monitoringMap label := (m.monitoringMap.lookup label).getD .empty
  versionMaterial label version := (m.versionMaterial.lookup label).bind (·.lookup version)
  distinguishedEntries := m.distinguishedEntries
  retainedHead := none

/-- `with_channel`: a client that has not verified anything. -/
def withChannel (P : Primitives) (config : PublicConfig) : Result ClientMemory := do
  ensure (config.mode ≠ deploymentModeThirdPartyManagement)
    "Third-party management mode is not supported: leaf signatures would not be verified or committed"
  let sigPk ← (serviceVerifyingKey P config.serverSigPk).context
    "Invalid server signing public key in PublicConfig"
  return {
    sigPk, vrfPk := config.vrfPublicKey, config
    state := none, labelVersions := ∅, retainedSubtrees := .empty, auditorHead := none
    monitoringMap := ∅, versionMaterial := ∅, distinguishedEntries := .empty, retainedHead := none
    statePath := none }

end ClientMemory

/-! ### The file -/

structure PersistedMonitorEntry where
  position : ℕ
  version : ℕ

structure PersistedMonitoredLabel where
  label : List Char
  entries : List PersistedMonitorEntry

structure PersistedVersionMaterial where
  version : ℕ
  vrfOutput : List Char
  commitment : Option (List Char)

structure PersistedLabelMaterial where
  label : List Char
  versions : List PersistedVersionMaterial

structure PersistedDistinguishedEntry where
  position : ℕ
  timestamp : U64
  root : List Char
  peaks : List (List Char)

structure PersistedState where
  treeSize : ℕ
  rootHash : List Char
  timestamp : U64
  auditorHead : Option (ℕ × U64)
  labelVersions : List (List Char × ℕ)
  retainedSubtrees : List (ℕ × List Char)
  monitoringMap : List PersistedMonitoredLabel
  versionMaterial : List PersistedLabelMaterial
  distinguishedEntries : List PersistedDistinguishedEntry
  retainedHead : Option (List Char)

/-- The formats of the file: the crates `hex` and `serde_json`. -/
structure StateFormat (Text : Type) where
  hexEncode : Octets → List Char
  hexDecode : List Char → Result Octets
  toJson : PersistedState → Text
  fromJson : Text → Result PersistedState
  hexDecode_hexEncode : ∀ bytes, hexDecode (hexEncode bytes) = .ok bytes
  fromJson_toJson : ∀ p, fromJson (toJson p) = .ok p

/-- The files of a host, by path. -/
abbrev Files (Text : Type) := String → Option Text

/-- What a client runs on. -/
structure Host (Text : Type) where
  now : Option U64
  /-- The orders in which the hash maps are iterated. -/
  iteration : Iteration
  format : StateFormat Text
  /-- `prost::Message::encode` of a tree head. -/
  encodeHead : TreeHead → Result Octets
  /-- Writes a file, if it can, and leaves other files behind otherwise. -/
  write : Files Text → String → Text → Result Unit × Files Text

/-- A client and the files of its host. -/
structure Machine (Text : Type) where
  memory : ClientMemory
  files : Files Text

abbrev ClientM (Text : Type) := Transaction (Machine Text) Fault

variable {Text : Type}

namespace ClientM

def memory : ClientM Text ClientMemory := fun m => (.ok m.memory, m)

/-- An assignment to fields of the client. -/
def assign (f : ClientMemory → ClientMemory) : ClientM Text Unit :=
  modify fun m => { m with memory := f m.memory }

@[simp] theorem memory_bind {β : Type} (f : ClientMemory → ClientM Text β) (m : Machine Text) :
    (memory >>= f) m = f m.memory m := rfl

@[simp] theorem assign_run (f : ClientMemory → ClientMemory) (m : Machine Text) :
    assign f m = (.ok (), { m with memory := f m.memory }) := rfl

@[simp] theorem assign_bind {β : Type} (g : ClientMemory → ClientMemory)
    (f : Unit → ClientM Text β) (m : Machine Text) :
    (assign g >>= f) m = f () { m with memory := g m.memory } := rfl

end ClientM

open ClientM

/-! ### Saving -/

namespace PersistedState

variable (F : StateFormat Text) (it : Iteration)

def ofMonitoredLabel (e : Octets × OrderedMap ℕ) : PersistedMonitoredLabel :=
  ⟨F.hexEncode e.1, e.2.entries.map fun e => ⟨e.1, e.2⟩⟩

def ofVersionMaterial (e : ℕ × Octets × Option Octets) : PersistedVersionMaterial :=
  ⟨e.1, F.hexEncode e.2.1, e.2.2.map F.hexEncode⟩

def ofLabelMaterial (e : Octets × FiniteMap ℕ (Octets × Option Octets)) : PersistedLabelMaterial :=
  ⟨F.hexEncode e.1, (it.order e.2).map (ofVersionMaterial F)⟩

def ofDistinguishedEntry (e : ℕ × DistinguishedEntry) : PersistedDistinguishedEntry :=
  ⟨e.1, e.2.timestamp, F.hexEncode e.2.root, e.2.peaks.map F.hexEncode⟩

/-- The record that `save_state` writes. -/
def ofState (s : ProtocolState) : PersistedState where
  treeSize := s.state.elim 0 TrustedState.treeSize
  rootHash := s.state.elim [] fun s => F.hexEncode s.rootHash
  timestamp := s.state.elim 0 TrustedState.timestamp
  auditorHead := s.auditorHead
  labelVersions := (it.order s.labelVersions).map fun e => (F.hexEncode e.1, e.2)
  retainedSubtrees := s.retainedSubtrees.entries.map fun e => (e.1, F.hexEncode e.2)
  monitoringMap := (it.order s.monitoringMap).map (ofMonitoredLabel F)
  versionMaterial := (it.order s.versionMaterial).map (ofLabelMaterial F it)
  distinguishedEntries := s.distinguishedEntries.entries.map (ofDistinguishedEntry F)
  retainedHead := s.retainedHead.map F.hexEncode

end PersistedState

variable (host : Host Text)

def saveState : ClientM Text Unit := save fun m =>
  match m.memory.statePath with
  | none => (.ok (), m)
  | some path =>
    let (out, files) := host.write m.files path
      (host.format.toJson (.ofState host.format host.iteration m.memory.toProtocolState))
    (out, { m with files := files })

/-! ### Restoring -/

namespace PersistedState

variable (F : StateFormat Text)

def toLabelVersion (e : List Char × ℕ) : Result (Octets × ℕ) := do
  let label ← F.hexDecode e.1
  return (label, e.2)

def toRetainedSubtree (e : ℕ × List Char) : Result (ℕ × Octets) := do
  let value ← F.hexDecode e.2
  return (e.1, value)

def toMonitoredLabel (m : PersistedMonitoredLabel) : Result (Octets × OrderedMap ℕ) := do
  let label ← F.hexDecode m.label
  return (label, .collect (m.entries.map fun e => (e.position, e.version)))

def toVersionMaterial (v : PersistedVersionMaterial) : Result (ℕ × Octets × Option Octets) := do
  let vrfOutput ← F.hexDecode v.vrfOutput
  let commitment ← v.commitment.mapM F.hexDecode
  return (v.version, vrfOutput, commitment)

def toLabelMaterial (l : PersistedLabelMaterial) :
    Result (Octets × FiniteMap ℕ (Octets × Option Octets)) := do
  let inner ← l.versions.mapM (toVersionMaterial F)
  let label ← F.hexDecode l.label
  return (label, collect inner)

def toDistinguishedEntry (d : PersistedDistinguishedEntry) : Result (ℕ × DistinguishedEntry) := do
  let peaks ← d.peaks.mapM F.hexDecode
  let root ← F.hexDecode d.root
  return (d.position, ⟨d.timestamp, root, peaks⟩)

/-- The head of a file that has one. -/
def restoreHead (p : PersistedState) : ClientM Text Unit :=
  if 0 < p.treeSize then do
    let rootHash ← check (F.hexDecode p.rootHash)
    assign fun m => { m with state := some ⟨p.treeSize, rootHash, p.timestamp⟩ }
  else pure ()

/-- The fields are loaded one by one; those before an error stay loaded. -/
def restore (p : PersistedState) : ClientM Text Unit := do
  p.restoreHead F
  assign fun m => { m with auditorHead := p.auditorHead }
  let labelVersions ← check (p.labelVersions.mapM (toLabelVersion F))
  assign fun m => { m with labelVersions := collect labelVersions }
  let retainedSubtrees ← check (p.retainedSubtrees.mapM (toRetainedSubtree F))
  assign fun m => { m with retainedSubtrees := .collect retainedSubtrees }
  let monitoringMap ← check (p.monitoringMap.mapM (toMonitoredLabel F))
  assign fun m => { m with monitoringMap := collect monitoringMap }
  let versionMaterial ← check (p.versionMaterial.mapM (toLabelMaterial F))
  assign fun m => { m with versionMaterial := collect versionMaterial }
  let distinguishedEntries ← check (p.distinguishedEntries.mapM (toDistinguishedEntry F))
  assign fun m => { m with distinguishedEntries := .collect distinguishedEntries }
  let retainedHead ← check (p.retainedHead.mapM F.hexDecode)
  assign fun m => { m with retainedHead := retainedHead }

end PersistedState

/-- Loads what a file holds, if there is one. -/
def loadFile (F : StateFormat Text) : Option Text → ClientM Text Unit
  | none => pure ()
  | some data => do
    let p ← check (F.fromJson data)
    p.restore F

/-! ### The round trip -/

namespace PersistedState

variable {F : StateFormat Text} {it : Iteration} {s : ProtocolState} {m : Machine Text}

theorem option_mapM_hexDecode (o : Option Octets) : (o.map F.hexEncode).mapM F.hexDecode = .ok o := by
  cases o with
  | none => rfl
  | some bytes =>
    change (F.hexDecode (F.hexEncode bytes) >>= fun b => pure (some b)) = _
    rw [F.hexDecode_hexEncode]
    rfl

/-- What is read back one by one is read back. -/
theorem mapM_map_eq {α β : Type} {encode : α → β} {decode : β → Result α}
    (h : ∀ a, decode (encode a) = .ok a) (l : List α) : (l.map encode).mapM decode = .ok l := by
  rw [List.mapM_map]
  exact (Result.mapM_eq_ok fun a _ => h a).trans (congrArg _ (List.map_id l))

theorem toLabelVersion_of (e : Octets × ℕ) :
    toLabelVersion F (F.hexEncode e.1, e.2) = .ok e := by
  rw [toLabelVersion, F.hexDecode_hexEncode]
  rfl

theorem toRetainedSubtree_of (e : ℕ × Octets) :
    toRetainedSubtree F (e.1, F.hexEncode e.2) = .ok e := by
  rw [toRetainedSubtree, F.hexDecode_hexEncode]
  rfl

theorem toMonitoredLabel_of (e : Octets × OrderedMap ℕ) :
    toMonitoredLabel F (ofMonitoredLabel F e) = .ok e := by
  rw [toMonitoredLabel, ofMonitoredLabel, F.hexDecode_hexEncode, Result.ok_bind, List.map_map]
  exact congrArg (fun map => Except.ok (e.1, map))
    ((congrArg OrderedMap.collect (List.map_id e.2.entries)).trans (OrderedMap.collect_entries e.2))

theorem toVersionMaterial_of (e : ℕ × Octets × Option Octets) :
    toVersionMaterial F (ofVersionMaterial F e) = .ok e := by
  rw [toVersionMaterial, ofVersionMaterial, F.hexDecode_hexEncode, Result.ok_bind,
    option_mapM_hexDecode]
  rfl

theorem toLabelMaterial_of (e : Octets × FiniteMap ℕ (Octets × Option Octets)) :
    toLabelMaterial F (ofLabelMaterial F it e) = .ok e := by
  rw [toLabelMaterial, ofLabelMaterial, mapM_map_eq toVersionMaterial_of, Result.ok_bind,
    F.hexDecode_hexEncode, Result.ok_bind, collect_eq (it.enumerates e.2)]
  rfl

theorem toDistinguishedEntry_of (e : ℕ × DistinguishedEntry) :
    toDistinguishedEntry F (ofDistinguishedEntry F e) = .ok e := by
  rw [toDistinguishedEntry, ofDistinguishedEntry, mapM_map_eq F.hexDecode_hexEncode, Result.ok_bind,
    F.hexDecode_hexEncode]
  rfl

/-- The head of a client that has verified one is restored. -/
theorem restoreHead_ofState (hs : ∀ head ∈ s.state, 0 < head.treeSize)
    (hm : m.memory.state = none) : (ofState F it s).restoreHead F m =
      (.ok (), { m with memory := { m.memory with state := s.state } }) := by
  rw [restoreHead]
  cases hstate : s.state with
  | none =>
    rw [if_neg (by simp [ofState, hstate]), pure_run, ← hm]
  | some head =>
    have hroot : F.hexDecode (ofState F it s).rootHash = .ok head.rootHash := by
      simp only [ofState, hstate, Option.elim_some, F.hexDecode_hexEncode]
    rw [if_pos (by simpa [ofState, hstate] using hs head hstate), hroot, check_ok_bind, assign_run]
    simp only [ofState, hstate, Option.elim_some]

/-- **What was saved is restored**, whatever the orders in which it was written. -/
theorem restore_ofState (hs : ∀ head ∈ s.state, 0 < head.treeSize)
    (hm : m.memory.state = none) : (ofState F it s).restore F m =
      (.ok (), { m with memory := { m.memory with toProtocolState := s } }) := by
  have hlabels : (ofState F it s).labelVersions.mapM (toLabelVersion F) = .ok (it.order s.labelVersions) :=
    mapM_map_eq toLabelVersion_of _
  have hsubtrees : (ofState F it s).retainedSubtrees.mapM (toRetainedSubtree F) =
      .ok s.retainedSubtrees.entries := mapM_map_eq toRetainedSubtree_of _
  have hmonitored : (ofState F it s).monitoringMap.mapM (toMonitoredLabel F) =
      .ok (it.order s.monitoringMap) := mapM_map_eq toMonitoredLabel_of _
  have hmaterial : (ofState F it s).versionMaterial.mapM (toLabelMaterial F) =
      .ok (it.order s.versionMaterial) := mapM_map_eq toLabelMaterial_of _
  have hdistinguished : (ofState F it s).distinguishedEntries.mapM (toDistinguishedEntry F) =
      .ok s.distinguishedEntries.entries := mapM_map_eq toDistinguishedEntry_of _
  have hhead : (ofState F it s).retainedHead.mapM F.hexDecode = .ok s.retainedHead :=
    option_mapM_hexDecode _
  have hcollect₁ := collect_eq (it.enumerates s.labelVersions)
  have hcollect₂ := collect_eq (it.enumerates s.monitoringMap)
  have hcollect₃ := collect_eq (it.enumerates s.versionMaterial)
  have hcollect₄ := OrderedMap.collect_entries s.retainedSubtrees
  have hcollect₅ := OrderedMap.collect_entries s.distinguishedEntries
  rw [restore, bind_ok (restoreHead_ofState hs hm), hlabels, hsubtrees, hmonitored, hmaterial,
    hdistinguished, hhead]
  simp only [assign_bind, check_ok_bind, assign_run, hcollect₁, hcollect₂, hcollect₃, hcollect₄,
    hcollect₅]
  rfl

end PersistedState

def persistTo (path : String) : ClientM Text Unit := do
  let m ← get
  loadFile host.format (m.files path)
  assign fun m => { m with statePath := some path }

theorem saveState_run {path : String} {m : Machine Text} (hpath : m.memory.statePath = some path)
    (hwrite : ∀ files text, host.write files path text =
      (.ok (), Function.update files path (some text))) :
    saveState host m = (.ok (), { m with files := Function.update m.files path (some
      (host.format.toJson (.ofState host.format host.iteration m.memory.toProtocolState))) }) := by
  simp only [saveState, save, hpath, hwrite]

/-- **A file that holds a state** gives it to a new client. -/
theorem persistTo_of_holds {path : String} {it : Iteration} {s : ProtocolState} {m : Machine Text}
    (hfile : m.files path = some (host.format.toJson (.ofState host.format it s)))
    (hs : ∀ head ∈ s.state, 0 < head.treeSize) (hm : m.memory.state = none) :
    persistTo host path m = (.ok (), { m with memory := { m.memory with
      toProtocolState := s, statePath := some path } }) := by
  have hload : loadFile host.format (m.files path) m =
      (.ok (), { m with memory := { m.memory with toProtocolState := s } }) := by
    rw [hfile, loadFile, host.format.fromJson_toJson, check_ok_bind]
    exact PersistedState.restore_ofState hs hm
  rw [persistTo, get_bind, bind_ok hload, assign_run]

/-! ### A format -/

/-- Numbers in unary, for octets out of the range of a byte. -/
def unaryEncode (octets : Octets) : List Char :=
  octets.flatMap fun b => List.replicate b '1' ++ [',']

def unaryDecode : ℕ → List Char → Option Octets
  | _, [] => some []
  | n, c :: cs => if c = '1' then unaryDecode (n + 1) cs else (unaryDecode 0 cs).map (n :: ·)

theorem unaryDecode_replicate (n b : ℕ) (cs : List Char) :
    unaryDecode n (List.replicate b '1' ++ ',' :: cs) = (unaryDecode 0 cs).map ((n + b) :: ·) := by
  induction b generalizing n with
  | zero => rfl
  | succ b ih =>
    rw [List.replicate_succ, List.cons_append, unaryDecode, if_pos rfl, ih,
      show n + 1 + b = n + (b + 1) by omega]

theorem unaryDecode_unaryEncode (octets : Octets) : unaryDecode 0 (unaryEncode octets) = some octets := by
  induction octets with
  | nil => rfl
  | cons b octets ih =>
    have hcons : unaryEncode (b :: octets) = List.replicate b '1' ++ ',' :: unaryEncode octets := by
      simp [unaryEncode]
    rw [hcons, unaryDecode_replicate, ih, Option.map_some, Nat.zero_add]

/-- Hexadecimal for bytes, and a marked text for what is none. -/
def hexOrUnary (octets : Octets) : List Char :=
  if ∀ b ∈ octets, b < 256 then Octets.hexEncode false octets else 'u' :: unaryEncode octets

def ofHexOrUnary : List Char → Result Octets
  | 'u' :: cs => okOr (unaryDecode 0 cs) "invalid text"
  | cs => okOr (Octets.hexDecode cs) "invalid hexadecimal text"

theorem ofHexOrUnary_hexOrUnary (octets : Octets) : ofHexOrUnary (hexOrUnary octets) = .ok octets := by
  by_cases hbytes : ∀ b ∈ octets, b < 256
  · have hdecode := Octets.hexDecode_hexEncode false hbytes
    rw [hexOrUnary, if_pos hbytes]
    cases htext : Octets.hexEncode false octets with
    | nil =>
      rw [htext] at hdecode
      exact congrArg (fun o => okOr o "invalid hexadecimal text") hdecode
    | cons c cs =>
      rw [htext] at hdecode
      -- the mark is no hexadecimal digit
      have hmark : c ≠ 'u' := by
        rintro rfl
        cases cs with
        | nil => cases hdecode
        | cons d cs => cases hdecode
      rw [ofHexOrUnary, hdecode]
      · rfl
      · rintro cs' heq
        exact hmark (List.cons.inj heq).1
  · rw [hexOrUnary, if_neg hbytes, ofHexOrUnary, unaryDecode_unaryEncode]
    rfl

/-- Hexadecimal texts in a record that is the file. -/
def recordFormat : StateFormat PersistedState where
  hexEncode := hexOrUnary
  hexDecode := ofHexOrUnary
  toJson p := p
  fromJson p := .ok p
  hexDecode_hexEncode := ofHexOrUnary_hexOrUnary
  fromJson_toJson _ := rfl

/-- Seven bits an octet, the last octet unmarked. -/
def varint : ℕ → ℕ → Octets
  | 0, _ => []
  | fuel + 1, n => if n < 128 then [n] else (n % 128 + 128) :: varint fuel (n / 128)

/-- A field of a protobuf message, which is left out when it has its default value. -/
def uintField (field n : ℕ) : Octets := if n = 0 then [] else varint 10 (8 * field) ++ varint 10 n

def messageField (field : ℕ) (bytes : Octets) : Octets :=
  varint 10 (8 * field + 2) ++ varint 10 bytes.length ++ bytes

def bytesField (field : ℕ) (bytes : Octets) : Octets :=
  if bytes = [] then [] else messageField field bytes

def protobufTreeHead (th : TreeHead) : Octets :=
  uintField 1 th.treeSize ++ uintField 2 (asU64 th.timestamp) ++ th.signatures.flatMap fun s =>
    messageField 3 (bytesField 1 s.auditorPublicKey ++ bytesField 2 s.signature)

/-- A host whose file system works. -/
noncomputable def recordHost (now : Option U64) : Host PersistedState where
  now := now
  iteration := .some
  format := recordFormat
  encodeHead th := .ok (protobufTreeHead th)
  write files path text := (.ok (), Function.update files path (some text))

/-- A client that has verified nothing, and saves to a file that does not exist. -/
def Machine.fresh (config : PublicConfig) : Machine PersistedState where
  memory := {
    sigPk := config.serverSigPk, vrfPk := config.vrfPublicKey, config
    state := none, labelVersions := ∅, retainedSubtrees := .empty, auditorHead := none
    monitoringMap := ∅, versionMaterial := ∅, distinguishedEntries := .empty, retainedHead := none
    statePath := some "state" }
  files _ := none

end KeyTransparency
