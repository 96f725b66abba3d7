/-
# The operations of a client

The operations of `src/client/core.rs` as programs over the memory of the client, in the
order of the source: every verifier checks, commits the head with `verify_head_and_commit`,
which writes its fields one by one, and then writes what the operation retains; the operation
saves.  Each verifier refines the function that has the same checks and returns the client it
commits (`verifySearch_refines` and its siblings).

An operation is given the server's response to its request.
-/

import KeyTransparency.Client.Memory
import KeyTransparency.Client.Session

namespace KeyTransparency

open BinaryLadder ClientM LogMath Transaction

variable {Text : Type}

def Host.env (host : Host Text) : Env := ⟨host.now, fun _ => .ok ()⟩

namespace ClientMemory

/-- The material of a search is stashed: the loop over the versions of its ladders. -/
def stash (label : Octets) (ladders : Ladders) (m : ClientMemory) : ClientMemory :=
  { m with
    versionMaterial := m.versionMaterial.insert label
      (ladders.wireIndex.foldl (fun stash v =>
        match ladders.material v, ladders.vrfCache v with
        | some comm, some out => stash.insert v (out, comm)
        | _, _ => stash) ((m.versionMaterial.lookup label).getD ∅)) }

/-- The terminal entry enters the monitoring map. -/
def oblige (label : Octets) (terminal targetVersion : ℕ) (m : ClientMemory) : ClientMemory :=
  { m with
    monitoringMap := m.monitoringMap.insert label
      (((m.monitoringMap.lookup label).getD .empty).insert terminal targetVersion) }

/-- What a verified search retains. -/
def retain (label : Octets) (v : KtClient.Verified) (m : ClientMemory) : ClientMemory :=
  (m.stash label v.ladders).oblige label v.terminal v.targetVersion

end ClientMemory

namespace ClientM

variable (P : Primitives) (host : Host Text)

/-! ### The commit -/

/-- The accepted auditor's head is written at once. -/
def verifyAuditorTreeHead (fth : FullTreeHead) (th : TreeHead) (treeSize : ℕ)
    (candidateRoot : Octets) (captured : NodeMap) : ClientM Text Unit := do
  let self ← memory
  let head ← check ((self.view.verifyAuditorTreeHead P fth th treeSize candidateRoot
    captured).context "AuditorTreeHead verification failed")
  assign fun m => { m with auditorHead := some head }

/-- The auditor's head, where there is an auditor. -/
def verifyAuditing (fth : FullTreeHead) (th : TreeHead) (treeSize : ℕ) (candidateRoot : Octets)
    (captured : NodeMap) : ClientM Text Unit := do
  let self ← memory
  if self.config.mode = deploymentModeThirdPartyAuditing then
    verifyAuditorTreeHead P fth th treeSize candidateRoot captured
  else pure ()

/-- An updated head is verified and taken over. -/
def takeOver (fth : FullTreeHead) (treeSize : ℕ) (timestamp : Option U64) (candidateRoot : Octets)
    (captured : NodeMap) : ClientM Text Unit := do
  let self ← memory
  let th ← check (okOr fth.treeHead
    "FullTreeHead.head_type=updated but TreeHead is missing")
  check ((self.view.verifyTreeHeadSignature P th treeSize candidateRoot).context
    "TreeHead signature verification failed")
  verifyAuditing P fth th treeSize candidateRoot captured
  let headBytes ← check (host.encodeHead th)
  assign fun m => { m with retainedHead := some headBytes }
  assign fun m => { m with state := some ⟨treeSize, candidateRoot, timestamp.getD 0⟩ }
  assign fun m => { m with
    retainedSubtrees := .collect ((getRoots treeSize).filterMap fun n => (captured n).map (n, ·)) }

/-- A head that stays must have the retained root. -/
def checkSame (candidateRoot : Octets) : ClientM Text Unit := do
  let self ← memory
  let prev ← check (okOr self.state "SAME head without previous state")
  check (ensure (candidateRoot = prev.rootHash)
    "SAME head but proofs do not reconstruct the retained root")

def verifyHeadAndCommit (fth : FullTreeHead) (treeSize : ℕ) (timestamp : Option U64)
    (fthIsUpdated : Bool) (positions : List ℕ) (leafHashes inclusionElements : List Octets)
    (extraWanted : List ℕ) : ClientM Text NodeMap := do
  let self ← memory
  let (candidateRoot, captured) ← check ((LogVerifier.calculateRootCapturing P positions leafHashes
    treeSize inclusionElements self.view.retainedSubtrees
    (self.view.wantedNodes fth treeSize extraWanted)).context "Log tree root reconstruction failed")
  (if fthIsUpdated then takeOver P host fth treeSize timestamp candidateRoot captured
    else checkSame candidateRoot)
  return captured

def finishAndCommit (fth : FullTreeHead) (treeSize : ℕ) (timestamp : Option U64)
    (fthIsUpdated : Bool) (proof : CombinedTreeProof) (reader : ProofReader) (entryRoots : NodeMap)
    (extraWanted : List ℕ) : ClientM Text (List LeafData × NodeMap) := do
  let leafData ← check (reader.finish entryRoots)
  let inclusion ← check (okOr proof.inclusion "Missing inclusion proof")
  let captured ← verifyHeadAndCommit P host fth treeSize timestamp fthIsUpdated
    (leafData.map Prod.fst) (leafData.map fun d => logLeafValue P d.2.1 d.2.2) inclusion.elements
    extraWanted
  return (leafData, captured)

/-! ### The verifiers -/

/-- `verify_search_response` up to the commit of the head. -/
def verifySearch (label : Octets) (requestedVersion : Option ℕ) (resp : SearchResponse) :
    ClientM Text KtClient.Verified := do
  let self ← memory
  let fth ← check (okOr resp.fullTreeHead "Missing FullTreeHead")
  let proof ← check (okOr resp.search "Missing CombinedTreeProof")
  let (treeSize, timestamp, fthIsUpdated) ← check (self.view.treeSizeForFth host.env fth)
  check (ensure (treeSize ≠ 0) "Server returned empty tree for search")
  let value ← check (okOr resp.value "Missing UpdateValue")
  let targetVersion ← check (okOr (requestedVersion.or resp.version)
    "Greatest-version search response missing TreeSearchResponse.version")
  let base := if requestedVersion = none then baseBinaryLadder targetVersion else []
  check (ensure (requestedVersion = none → resp.binaryLadder.length = base.length)
    s!"Binary ladder length mismatch: got {resp.binaryLadder.length}, expected {base.length} for target v={targetVersion}")
  let targetCommitment ← check ((commit P label targetVersion value.value none resp.opening).context
    "Commitment computation failed")
  check (self.view.checkUpdatedBounds host.env fthIsUpdated timestamp)
  let reader ← check ((ProofReader.new proof).timestamps (getFrontier treeSize))
  let (terminal, s) ← check (self.view.searchWalk P label requestedVersion treeSize targetVersion
    resp.binaryLadder targetCommitment ⟨reader, .new base, fun _ => none⟩)
  check (ensure (resp.binaryLadder.length = s.ladders.wireIndex.length)
    s!"Binary ladder has {resp.binaryLadder.length} steps but only {s.ladders.wireIndex.length} versions were looked up")
  let (leafData, _) ← finishAndCommit P host fth treeSize timestamp fthIsUpdated proof s.reader
    s.entryRoots []
  return ⟨terminal, targetVersion, s.ladders, leafData⟩

/-- The client is saved before the obligation is entered. -/
def verifySearchResponse (label : Octets) (requestedVersion : Option ℕ) (resp : SearchResponse) :
    ClientM Text Unit := do
  let v ← verifySearch P host label requestedVersion resp
  saveState host
  assign (·.stash label v.ladders)
  assign (·.oblige label v.terminal v.targetVersion)

def verifyContactMonitor (label : Octets) (map : OrderedMap ℕ) (resp : ContactMonitorResponse) :
    ClientM Text (List LeafData) := do
  let self ← memory
  let fth ← check (okOr resp.fullTreeHead "Missing FullTreeHead")
  let proof ← check (okOr resp.monitor "Missing monitor proof")
  let (treeSize, timestamp, fthIsUpdated) ← check (self.view.treeSizeForFth host.env fth)
  check (ensure (treeSize ≠ 0) "Cannot monitor an empty tree")
  check (self.view.checkUpdatedBounds host.env fthIsUpdated timestamp)
  let reader ← check ((ProofReader.new proof).timestamps (getFrontier treeSize))
  let (_, reader) ← check (reader.timestamp (treeSize - 1))
  let w ← check (KtClient.replayContactLadders P (self.view.versionMaterial label) map treeSize
    self.view.config.reasonableMonitoringWindow reader fun _ => none)
  let (leafData, _) ← finishAndCommit P host fth treeSize timestamp fthIsUpdated proof w.reader
    w.entryRoots []
  assign fun m => { m with monitoringMap := m.monitoringMap.insert label w.newMap }
  return leafData

def verifyOwnerInit (label : Octets) (start : ℕ) (resp : OwnerInitResponse) :
    ClientM Text (List LeafData) := do
  let self ← memory
  let fth ← check (okOr resp.fullTreeHead "Missing FullTreeHead")
  let proof ← check (okOr resp.init "Missing init proof")
  let (treeSize, timestamp, fthIsUpdated) ← check (self.view.treeSizeForFth host.env fth)
  check (ensure (treeSize ≠ 0 ∧ start < treeSize) "Invalid start position for owner init")
  check (self.view.checkUpdatedBounds host.env fthIsUpdated timestamp)
  check (ensure (resp.greatestVersions.IsChain (· ≥ ·))
    "greatest_versions are not in descending order")
  let reader ← check ((ProofReader.new proof).timestamps (getFrontier treeSize))
  let (rightmostTs, reader) ← check (reader.timestamp (treeSize - 1))
  let (countExisting, s) ← check (self.view.ownerInitWalk P label resp.binaryLadder rightmostTs
    (ownerInitList start treeSize) none 0 ⟨reader, .new [], fun _ => none⟩)
  check (ensure (countExisting = resp.greatestVersions.length)
    s!"greatest_versions count {resp.greatestVersions.length} != {countExisting} entries where the label existed")
  check (ensure (resp.binaryLadder.length = s.ladders.wireIndex.length)
    "Owner-init binary ladder has unused steps")
  let (leafData, _) ← finishAndCommit P host fth treeSize timestamp fthIsUpdated proof s.reader
    s.entryRoots []
  -- `entry(label).or_default()`
  assign fun m => { m with
    monitoringMap := m.monitoringMap.insert label ((m.monitoringMap.lookup label).getD .empty) }
  return leafData

def verifyOwnerMonitor (label : Octets) (map : OrderedMap ℕ) (start : ℕ)
    (greatestVersion : Option ℕ) (resp : OwnerMonitorResponse) : ClientM Text (List LeafData) := do
  let self ← memory
  let fth ← check (okOr resp.fullTreeHead "Missing FullTreeHead")
  let proof ← check (okOr resp.monitor "Missing monitor proof")
  let (treeSize, timestamp, fthIsUpdated) ← check (self.view.treeSizeForFth host.env fth)
  check (ensure (treeSize ≠ 0) "Cannot monitor an empty tree")
  check (self.view.checkUpdatedBounds host.env fthIsUpdated timestamp)
  let bound := greatestVersion.getD maxVersion
  let rmw := self.view.config.reasonableMonitoringWindow
  let reader ← check ((ProofReader.new proof).timestamps (getFrontier treeSize))
  let (rightmostTs, reader) ← check (reader.timestamp (treeSize - 1))
  let w ← check (KtClient.replayContactLadders P (self.view.versionMaterial label) map treeSize rmw
    reader fun _ => none)
  let s ← check (self.view.replayOwnerWalk P label start treeSize rmw bound resp.binaryLadder 65
    (root treeSize) 0 rightmostTs ⟨w.reader, .new [], w.entryRoots⟩)
  check (ensure (resp.binaryLadder.length = s.ladders.wireIndex.length ∨ s.ladders.wireIndex = [])
    "Owner-monitor binary ladder step count mismatch")
  let (leafData, _) ← finishAndCommit P host fth treeSize timestamp fthIsUpdated proof s.reader
    s.entryRoots []
  return leafData

def verifyDistinguished (stop : Option ℕ) (resp : DistinguishedResponse) :
    ClientM Text (List LeafData) := do
  let self ← memory
  let fth ← check (okOr resp.fullTreeHead "Missing FullTreeHead")
  let proof ← check (okOr resp.distinguished "Missing distinguished proof")
  let (treeSize, timestamp, fthIsUpdated) ← check (self.view.treeSizeForFth host.env fth)
  check (ensure (treeSize ≠ 0) "Empty tree")
  check (self.view.checkUpdatedBounds host.env fthIsUpdated timestamp)
  let rightmostTs ← check (okOr timestamp "Missing head timestamp")
  let reader ← check ((ProofReader.new proof).timestamps (getFrontier treeSize))
  let (walked, reader) ← check (KtClient.distinguishedLoop treeSize
    self.view.config.reasonableMonitoringWindow stop (2 * treeSize + 2)
    [(root treeSize, 0, rightmostTs)] [] reader)
  let (leafData, captured) ← finishAndCommit P host fth treeSize timestamp fthIsUpdated proof reader
    (fun _ => none) (walked.flatMap fun p => getRoots (p + 1))
  assign fun m => { m with
    distinguishedEntries := .collect (walked.filterMap fun p =>
      (KtClient.distinguishedEntry leafData captured p).map (p, ·)) }
  return leafData

/-! ### The operations -/

/-- A greatest-version search records the version, and saves again. -/
def recordGreatest (user : Octets) : Option ℕ → Option ℕ → ClientM Text Unit
  | none, some greatest => do
    assign fun m => { m with labelVersions := m.labelVersions.insert user greatest }
    saveState host
  | _, _ => pure ()

def search (user : Octets) (version : Option ℕ) (resp : SearchResponse) : ClientM Text Unit := do
  verifySearchResponse P host user version resp
  recordGreatest host user version resp.version

def contactMonitor (user : Octets) (resp : ContactMonitorResponse) : ClientM Text Unit := do
  let self ← memory
  let map := self.view.monitoringMap user
  check (ensure (map.entries ≠ []) "No monitoring obligations recorded for this label")
  let _ ← verifyContactMonitor P host user map resp
  saveState host

def ownerInit (user : Octets) (start : ℕ) (resp : OwnerInitResponse) : ClientM Text Unit := do
  let _ ← verifyOwnerInit P host user start resp
  saveState host

def ownerMonitor (user : Octets) (entries : List (ℕ × ℕ)) (start : ℕ)
    (greatestVersion : Option ℕ) (resp : OwnerMonitorResponse) : ClientM Text Unit := do
  let _ ← verifyOwnerMonitor P host user (.collect entries) start greatestVersion resp
  saveState host

def distinguished (stop : Option ℕ) (resp : DistinguishedResponse) : ClientM Text Unit := do
  let _ ← verifyDistinguished P host stop resp
  saveState host

/-- The loop of `update` over its attempts: values in a response mean that the request was
disregarded, and the versions reported are absorbed before the next attempt. -/
def updateAttempts (user value : Octets) : ℕ → List UpdateResponse → ClientM Text Unit
  | 0, _ => check (fail "Update did not converge while catching up on existing versions")
  | _ + 1, [] => check (fail "the call was not answered")
  | attempts + 1, resp :: resps => do
    let self ← memory
    let greatestVersion := self.labelVersions.lookup user
    check (self.view.verifyUpdateResponse P user greatestVersion [value] resp)
    let start := greatestVersion.elim 0 (· + 1)
    if resp.values = [] then
      assign fun m => { m with labelVersions := m.labelVersions.insert user start }
      saveState host
    else
      assign fun m => { m with
        labelVersions := m.labelVersions.insert user (start + resp.values.length - 1) }
      updateAttempts user value attempts resps

def update (user value : Octets) (resps : List UpdateResponse) : ClientM Text Unit :=
  updateAttempts P host user value 32 resps

/-! ### What the operations compute -/

/-- The memory holds a client, after an operation of another one. -/
structure Follows (host : Host Text) (m : Machine Text) (c : KtClient) (m' : Machine Text) :
    Prop where
  view : m'.memory.view = { c with retainedHead := none }
  labelVersions : m'.memory.labelVersions = m.memory.labelVersions
  retainedHead : ∀ th ∈ c.retainedHead, ∃ bytes, host.encodeHead th = .ok bytes ∧
    m'.memory.retainedHead = some bytes
  statePath : m'.memory.statePath = m.memory.statePath
  files : m'.files = m.files

/-- **The commit of a head** does not touch the other maps. -/
structure Committed (host : Host Text) (m : Machine Text) (c : KtClient) (m' : Machine Text) : Prop
    extends Follows host m c m' where
  monitoringMap : m'.memory.monitoringMap = m.memory.monitoringMap
  versionMaterial : m'.memory.versionMaterial = m.memory.versionMaterial
  distinguishedEntries : m'.memory.distinguishedEntries = m.memory.distinguishedEntries

section

variable {P host} {m m' : Machine Text}

/-- The values of the peaks, collected. -/
theorem get_collect_peaks (n : ℕ) (captured : NodeMap) :
    (OrderedMap.collect ((getRoots n).filterMap fun id => (captured id).map (id, ·))).get =
      fun id => if id ∈ getRoots n then captured id else none := by
  have hmem : ∀ e : ℕ × Octets, e ∈ (getRoots n).filterMap (fun id => (captured id).map (id, ·)) ↔
      e.1 ∈ getRoots n ∧ captured e.1 = some e.2 := by
    rintro ⟨id, v⟩
    simp only [List.mem_filterMap, Option.map_eq_some_iff, Prod.mk.injEq]
    constructor
    · rintro ⟨_, hid, _, hv, rfl, rfl⟩
      exact ⟨hid, hv⟩
    · exact fun ⟨hid, hv⟩ => ⟨id, hid, v, hv, rfl, rfl⟩
  funext id
  refine Option.ext fun v => ?_
  rw [OrderedMap.get_eq_some, OrderedMap.mem_collect, hmem]
  · split_ifs with hid
    · exact and_iff_right hid
    · simp [hid]
  · intro e₁ h₁ e₂ h₂ heq
    exact Prod.ext heq (Option.some.inj (((hmem _).1 h₁).2.symm.trans
      ((congrArg captured heq).trans ((hmem _).1 h₂).2)))

/-- **The commit of a head** writes what the function returns, or nothing. -/
theorem verifyHeadAndCommit_refines (hencode : ∀ th, ∃ bytes, host.encodeHead th = .ok bytes)
    (fth : FullTreeHead) (n : ℕ) (timestamp : Option U64) (updated : Bool) (positions : List ℕ)
    (hashes elements : List Octets) (extraWanted : List ℕ) :
    Refines (verifyHeadAndCommit P host fth n timestamp updated positions hashes elements extraWanted)
      m (m.memory.view.verifyHeadAndCommit P fth n timestamp updated positions hashes elements
        extraWanted) fun r captured m' => captured = r.1 ∧ Committed host m r.2 m' := by
  refine Refines.check_bind fun root hroot => ?_
  obtain ⟨candidateRoot, captured⟩ := root
  cases updated with
  | true =>
    simp only [if_true, takeOver, bind_assoc]
    refine Refines.check_bind fun th hth => Refines.check_bind fun _ hsig => ?_
    obtain ⟨bytes, hbytes⟩ := hencode th
    have hhead : ∀ th' ∈ some th, ∃ bytes', host.encodeHead th' = .ok bytes' ∧
        some bytes = some bytes' := by
      rintro th' hth'
      obtain rfl := Option.some.inj hth'
      exact ⟨bytes, hbytes, rfl⟩
    by_cases hmode : m.memory.config.mode = deploymentModeThirdPartyAuditing
    · have hview : m.memory.view.config.mode = deploymentModeThirdPartyAuditing := hmode
      rw [verifyAuditing, bind_assoc]
      simp only [if_pos hview]
      refine Refines.of_eq (memory_bind _ _) ?_
      rw [if_pos hmode, verifyAuditorTreeHead, bind_assoc]
      refine Refines.of_eq (memory_bind _ _) ?_
      rw [bind_assoc]
      refine Refines.check_bind fun auditor hauditor => ?_
      refine ⟨captured, _, by rw [hbytes]; rfl, rfl, ?_⟩
      exact ⟨⟨congrArg (fun f => { m.memory.view with
          state := some ⟨n, candidateRoot, timestamp.getD 0⟩
          auditorHead := some auditor
          retainedSubtrees := f }) (get_collect_peaks n captured),
        rfl, hhead, rfl, rfl⟩, rfl, rfl, rfl⟩
    · have hview : ¬ m.memory.view.config.mode = deploymentModeThirdPartyAuditing := hmode
      rw [verifyAuditing, bind_assoc]
      simp only [if_neg hview]
      refine Refines.of_eq (memory_bind _ _) ?_
      rw [if_neg hmode]
      refine ⟨captured, _, by rw [hbytes]; rfl, rfl, ?_⟩
      exact ⟨⟨congrArg (fun f => { m.memory.view with
          state := some ⟨n, candidateRoot, timestamp.getD 0⟩
          retainedSubtrees := f }) (get_collect_peaks n captured),
        rfl, hhead, rfl, rfl⟩, rfl, rfl, rfl⟩
  | false =>
    simp only [Bool.false_eq_true, if_false, checkSame, bind_assoc]
    refine Refines.check_bind fun prev hprev => Refines.check_bind fun _ hsame => ?_
    exact ⟨captured, m, rfl, rfl, ⟨rfl, rfl, fun th hth => (by cases hth), rfl, rfl⟩, rfl, rfl, rfl⟩

theorem finishAndCommit_refines (hencode : ∀ th, ∃ bytes, host.encodeHead th = .ok bytes)
    (fth : FullTreeHead) (n : ℕ) (timestamp : Option U64) (updated : Bool) (proof : CombinedTreeProof)
    (reader : ProofReader) (entryRoots : NodeMap) (extraWanted : List ℕ) :
    Refines (finishAndCommit P host fth n timestamp updated proof reader entryRoots extraWanted) m
      (m.memory.view.finishAndCommit P fth n timestamp updated proof reader entryRoots extraWanted)
      fun r out m' => out = (r.1, r.2.1) ∧ Committed host m r.2.2 m' := by
  refine Refines.check_bind fun leafData _ => Refines.check_bind fun inclusion _ =>
    (verifyHeadAndCommit_refines hencode _ _ _ _ _ _ _ _).bind ?_
  rintro ⟨captured, c'⟩ _ m' - ⟨rfl, hcommitted⟩
  exact ⟨_, _, _, rfl, rfl, rfl, hcommitted⟩

/-- The obligations of a label are replaced. -/
theorem Follows.insert_monitoringMap {c : KtClient} (h : Follows host m c m') (label : Octets)
    (map : OrderedMap ℕ) :
    Follows host m { c with monitoringMap := Function.update c.monitoringMap label map }
      { m' with memory := { m'.memory with
        monitoringMap := m'.memory.monitoringMap.insert label map } } := by
  refine ⟨?_, h.labelVersions, h.retainedHead, h.statePath, h.files⟩
  have hmap : c.monitoringMap = m'.memory.view.monitoringMap := by rw [h.view]
  have hinsert : ({ m'.memory with monitoringMap := m'.memory.monitoringMap.insert label map } :
      ClientMemory).view.monitoringMap = Function.update c.monitoringMap label map := by
    funext l
    by_cases hl : l = label
    · subst hl
      simp [ClientMemory.view]
    · simp [ClientMemory.view, hmap, hl, Finmap.lookup_insert_of_ne]
  exact (congrArg (fun f => { m'.memory.view with monitoringMap := f }) hinsert).trans
    (congrArg (fun v : KtClient => { v with
      monitoringMap := Function.update c.monitoringMap label map }) h.view)

/-! ### The verifiers refine the functions -/

theorem verifySearch_refines (hencode : ∀ th, ∃ bytes, host.encodeHead th = .ok bytes)
    (label : Octets) (requestedVersion : Option ℕ) (resp : SearchResponse) (m : Machine Text) :
    Refines (verifySearch P host label requestedVersion resp) m
      (m.memory.view.verifySearch P host.env label requestedVersion resp)
      fun r v m' => v = r.1 ∧ Committed host m r.2 m' := by
  unfold verifySearch KtClient.verifySearch
  refine Refines.of_eq (memory_bind _ _) ?_
  refine Refines.check_bind fun fth _ => ?_
  refine Refines.check_bind fun proof _ => ?_
  refine Refines.check_bind fun head _ => ?_
  obtain ⟨n, timestamp, updated⟩ := head
  refine Refines.check_bind fun _ _ => ?_
  refine Refines.check_bind fun value _ => ?_
  refine Refines.check_bind fun target _ => ?_
  refine Refines.check_bind fun _ _ => ?_
  refine Refines.check_bind fun comm _ => ?_
  refine Refines.check_bind fun _ _ => ?_
  refine Refines.check_bind fun reader _ => ?_
  refine Refines.check_bind fun walked _ => ?_
  obtain ⟨terminal, s⟩ := walked
  refine Refines.check_bind fun _ _ => ?_
  refine (finishAndCommit_refines hencode _ _ _ _ _ _ _ _).bind ?_
  rintro ⟨leafData, captured, c'⟩ _ m' - ⟨rfl, hcommitted⟩
  exact ⟨_, _, _, rfl, rfl, rfl, hcommitted⟩

theorem verifyContactMonitor_refines (hencode : ∀ th, ∃ bytes, host.encodeHead th = .ok bytes)
    (label : Octets) (map : OrderedMap ℕ) (resp : ContactMonitorResponse) (m : Machine Text) :
    Refines (verifyContactMonitor P host label map resp) m
      (m.memory.view.verifyContactMonitor P host.env label map resp)
      fun r data m' => data = r.1 ∧ Follows host m r.2 m' := by
  unfold verifyContactMonitor KtClient.verifyContactMonitor
  refine Refines.of_eq (memory_bind _ _) ?_
  refine Refines.check_bind fun fth _ => ?_
  refine Refines.check_bind fun proof _ => ?_
  refine Refines.check_bind fun head _ => ?_
  obtain ⟨n, timestamp, updated⟩ := head
  refine Refines.check_bind fun _ _ => ?_
  refine Refines.check_bind fun _ _ => ?_
  refine Refines.check_bind fun reader _ => ?_
  refine Refines.check_bind fun rightmost _ => ?_
  obtain ⟨rightmostTs, reader⟩ := rightmost
  refine Refines.check_bind fun w _ => ?_
  refine (finishAndCommit_refines hencode _ _ _ _ _ _ _ _).bind ?_
  rintro ⟨leafData, captured, c'⟩ _ m' - ⟨rfl, hcommitted⟩
  exact ⟨_, _, _, rfl, rfl, rfl, hcommitted.toFollows.insert_monitoringMap label w.newMap⟩

theorem verifyOwnerInit_refines (hencode : ∀ th, ∃ bytes, host.encodeHead th = .ok bytes)
    (label : Octets) (start : ℕ) (resp : OwnerInitResponse) (m : Machine Text) :
    Refines (verifyOwnerInit P host label start resp) m
      (m.memory.view.verifyOwnerInit P host.env label start resp)
      fun r data m' => data = r.1 ∧ Follows host m r.2 m' := by
  unfold verifyOwnerInit KtClient.verifyOwnerInit
  refine Refines.of_eq (memory_bind _ _) ?_
  refine Refines.check_bind fun fth _ => ?_
  refine Refines.check_bind fun proof _ => ?_
  refine Refines.check_bind fun head _ => ?_
  obtain ⟨n, timestamp, updated⟩ := head
  refine Refines.check_bind fun _ _ => ?_
  refine Refines.check_bind fun _ _ => ?_
  refine Refines.check_bind fun _ _ => ?_
  refine Refines.check_bind fun reader _ => ?_
  refine Refines.check_bind fun rightmost _ => ?_
  obtain ⟨rightmostTs, reader⟩ := rightmost
  refine Refines.check_bind fun walked _ => ?_
  obtain ⟨countExisting, s⟩ := walked
  refine Refines.check_bind fun _ _ => ?_
  refine Refines.check_bind fun _ _ => ?_
  refine (finishAndCommit_refines hencode _ _ _ _ _ _ _ _).bind ?_
  rintro ⟨leafData, captured, c'⟩ _ m' - ⟨rfl, hcommitted⟩
  dsimp only at hcommitted
  -- the entry stays what it was, if there was one
  have hmap : (m'.memory.monitoringMap.lookup label).getD .empty = c'.monitoringMap label :=
    congrArg (fun v : KtClient => v.monitoringMap label) hcommitted.view
  have h := hcommitted.toFollows.insert_monitoringMap label
    ((m'.memory.monitoringMap.lookup label).getD .empty)
  rw [hmap, Function.update_eq_self, ← hmap] at h
  exact ⟨_, _, _, rfl, rfl, rfl, h⟩

theorem verifyOwnerMonitor_refines (hencode : ∀ th, ∃ bytes, host.encodeHead th = .ok bytes)
    (label : Octets) (map : OrderedMap ℕ) (start : ℕ) (greatestVersion : Option ℕ)
    (resp : OwnerMonitorResponse) (m : Machine Text) :
    Refines (verifyOwnerMonitor P host label map start greatestVersion resp) m
      (m.memory.view.verifyOwnerMonitor P host.env label map start greatestVersion resp)
      fun r data m' => data = r.1 ∧ Follows host m r.2 m' := by
  unfold verifyOwnerMonitor KtClient.verifyOwnerMonitor
  refine Refines.of_eq (memory_bind _ _) ?_
  refine Refines.check_bind fun fth _ => ?_
  refine Refines.check_bind fun proof _ => ?_
  refine Refines.check_bind fun head _ => ?_
  obtain ⟨n, timestamp, updated⟩ := head
  refine Refines.check_bind fun _ _ => ?_
  refine Refines.check_bind fun _ _ => ?_
  refine Refines.check_bind fun reader _ => ?_
  refine Refines.check_bind fun rightmost _ => ?_
  obtain ⟨rightmostTs, reader⟩ := rightmost
  refine Refines.check_bind fun w _ => ?_
  refine Refines.check_bind fun s _ => ?_
  refine Refines.check_bind fun _ _ => ?_
  refine (finishAndCommit_refines hencode _ _ _ _ _ _ _ _).bind ?_
  rintro ⟨leafData, captured, c'⟩ _ m' - ⟨rfl, hcommitted⟩
  exact ⟨_, _, _, rfl, rfl, rfl, hcommitted.toFollows⟩

theorem verifyDistinguished_refines (hencode : ∀ th, ∃ bytes, host.encodeHead th = .ok bytes)
    (stop : Option ℕ) (resp : DistinguishedResponse) (m : Machine Text) :
    Refines (verifyDistinguished P host stop resp) m
      (m.memory.view.verifyDistinguished P host.env stop resp)
      fun r data m' => data = r.1 ∧ Follows host m r.2 m' := by
  unfold verifyDistinguished KtClient.verifyDistinguished
  refine Refines.of_eq (memory_bind _ _) ?_
  refine Refines.check_bind fun fth _ => ?_
  refine Refines.check_bind fun proof _ => ?_
  refine Refines.check_bind fun head _ => ?_
  obtain ⟨n, timestamp, updated⟩ := head
  refine Refines.check_bind fun _ _ => ?_
  refine Refines.check_bind fun _ _ => ?_
  refine Refines.check_bind fun rightmostTs _ => ?_
  refine Refines.check_bind fun reader _ => ?_
  refine Refines.check_bind fun walked _ => ?_
  obtain ⟨walked, reader⟩ := walked
  refine (finishAndCommit_refines hencode _ _ _ _ _ _ _ _).bind ?_
  rintro ⟨leafData, captured, c'⟩ _ m' - ⟨rfl, hcommitted⟩
  refine ⟨_, _, _, rfl, rfl, rfl, ?_, hcommitted.labelVersions, hcommitted.retainedHead,
    hcommitted.statePath, hcommitted.files⟩
  exact congrArg (fun c : KtClient => { c with
    distinguishedEntries := .collect (walked.filterMap fun p =>
      (KtClient.distinguishedEntry leafData captured p).map (p, ·)) }) hcommitted.view

end

end ClientM

end KeyTransparency
