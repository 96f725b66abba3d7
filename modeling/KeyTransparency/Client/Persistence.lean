/-
# What a restart keeps

Runs of operations of a client whose state is saved (`Reached`), and what a new client finds
when it calls `persist_to` on the file (`Machine.Restorable`).  Every operation that succeeds
leaves a file with its whole state, except for the search of a fixed version: its obligation
enters the memory after the state was saved (`restorable_iff`).
-/

import KeyTransparency.Client.HonestCredential
import KeyTransparency.Client.Operations
import KeyTransparency.Client.OwnerInit
import KeyTransparency.Client.Retained

namespace KeyTransparency

open BinaryLadder ClientM LogMath Transaction

variable {Text : Type}

/-- An operation, with what the server answers. -/
inductive Operation
  | update (user value : Octets) (resps : List UpdateResponse)
  | search (user : Octets) (version : Option ℕ) (resp : SearchResponse)
  | contactMonitor (user : Octets) (resp : ContactMonitorResponse)
  | ownerInit (user : Octets) (start : ℕ) (resp : OwnerInitResponse)
  | ownerMonitor (user : Octets) (entries : List (ℕ × ℕ)) (start : ℕ)
      (greatestVersion : Option ℕ) (resp : OwnerMonitorResponse)
  | distinguished (stop : Option ℕ) (resp : DistinguishedResponse)

def Operation.run (P : Primitives) (host : Host Text) : Operation → ClientM Text Unit
  | update user value resps => ClientM.update P host user value resps
  | search user version resp => ClientM.search P host user version resp
  | contactMonitor user resp => ClientM.contactMonitor P host user resp
  | ownerInit user start resp => ClientM.ownerInit P host user start resp
  | ownerMonitor user entries start greatestVersion resp =>
    ClientM.ownerMonitor P host user entries start greatestVersion resp
  | distinguished stop resp => ClientM.distinguished P host stop resp

/-- A host on which nothing goes wrong: files are written, in the given format, and heads are
encoded. -/
structure Host.Works (host : Host Text) (F : StateFormat Text) : Prop where
  format : host.format = F
  write : ∀ files path text, host.write files path text =
    (.ok (), Function.update files path (some text))
  encodeHead : ∀ th, ∃ bytes, host.encodeHead th = .ok bytes

/-- **The machines that a client reaches** with operations after `persist_to`, whatever their
outcomes. -/
inductive Reached (P : Primitives) (F : StateFormat Text) : Machine Text → Prop
  | start {host : Host Text} {config : PublicConfig} {c : ClientMemory} {files : Files Text}
      {path : String} {m : Machine Text} (hnew : ClientMemory.withChannel P config = .ok c)
      (hhost : host.Works F) (hpersist : persistTo host path ⟨c, files⟩ = (.ok (), m)) : Reached P F m
  | step {host : Host Text} {op : Operation} {m m' : Machine Text}
      {out : Except (Failure Fault) Unit} (hm : Reached P F m) (hhost : host.Works F)
      (hrun : op.run P host m = (out, m')) : Reached P F m'

/-- **A new client gets the state from the file**: whatever its configuration, it has the
protocol state of the running client after `persist_to`. -/
def Machine.Restorable (P : Primitives) (F : StateFormat Text) (m : Machine Text) : Prop :=
  ∃ path, m.memory.statePath = some path ∧ ∀ (host : Host Text) config c, host.Works F →
    ClientMemory.withChannel P config = .ok c → ∃ m', persistTo host path ⟨c, m.files⟩ = (.ok (), m') ∧
      m'.memory.toProtocolState = m.memory.toProtocolState

/-- A search of a fixed version that the client accepts, and that retains what the client did
not hold yet: an obligation, or material. -/
def Operation.LeavesUnsaved (P : Primitives) (host : Host Text) (m : Machine Text) :
    Operation → Prop
  | search user (some version) resp => ∃ v c,
    m.memory.view.verifySearch P host.env user (some version) resp = .ok (v, c) ∧
      m.memory.retain user v ≠ m.memory
  | _ => False

/-- The client saves to a file, and has verified no empty head. -/
structure Machine.Ready (m : Machine Text) : Prop where
  path : ∃ path, m.memory.statePath = some path
  head : ∀ head ∈ m.memory.state, 0 < head.treeSize

/-- A file holds the protocol state. -/
def Machine.Holds (F : StateFormat Text) (m : Machine Text) (s : ProtocolState) : Prop :=
  ∃ path it, m.memory.statePath = some path ∧ m.files path = some (F.toJson (.ofState F it s))

section

variable {P : Primitives} {host : Host Text} {F : StateFormat Text} {m m' : Machine Text}

/-! ### Saved states -/

theorem withChannel_state {config : PublicConfig} {c : ClientMemory}
    (h : ClientMemory.withChannel P config = .ok c) : c.state = none := by
  obtain ⟨_, -, h⟩ := Result.bind_eq_ok.1 h
  obtain ⟨_, -, h⟩ := Result.bind_eq_ok.1 h
  exact Except.ok.inj h ▸ rfl

/-- **What the file holds is what is restored.** -/
theorem Machine.Holds.restores_iff {s : ProtocolState} (h : m.Holds F s)
    (hs : ∀ head ∈ s.state, 0 < head.treeSize) (hhost : host.Works F) {config : PublicConfig}
    {c : ClientMemory} (hnew : ClientMemory.withChannel P config = .ok c) :
    m.Restorable P F ↔ s = m.memory.toProtocolState := by
  obtain ⟨path, it, hpath, hfile⟩ := h
  have hrestore : ∀ (host : Host Text) (config : PublicConfig) (c : ClientMemory), host.Works F →
      ClientMemory.withChannel P config = .ok c → persistTo host path ⟨c, m.files⟩ =
        (.ok (), ⟨{ c with toProtocolState := s, statePath := some path }, m.files⟩) := by
    intro host config c hhost hnew
    obtain rfl := hhost.format
    exact persistTo_of_holds host hfile hs (withChannel_state hnew)
  constructor
  · rintro ⟨path', hpath', hall⟩
    obtain rfl := Option.some.inj (hpath.symm.trans hpath')
    obtain ⟨m', hrun, heq⟩ := hall host config c hhost hnew
    rw [hrestore host config c hhost hnew] at hrun
    rw [← heq, ← (Prod.mk.inj hrun).2]
  · rintro rfl
    exact ⟨path, hpath, fun host config c hhost hnew => ⟨_, hrestore host config c hhost hnew, rfl⟩⟩

/-- Saving keeps the memory, and makes the file hold it. -/
theorem saveState_holds (hm : m.Ready) (hhost : host.Works F) :
    ∃ m', saveState host m = (.ok (), m') ∧ m'.memory = m.memory ∧
      m'.Holds F m.memory.toProtocolState := by
  obtain ⟨path, hpath⟩ := hm.path
  refine ⟨_, saveState_run host hpath fun files text => hhost.write files path text, rfl, path, host.iteration, hpath, ?_⟩
  rw [← hhost.format]
  exact Function.update_self ..

/-! ### One operation -/

theorem Machine.Ready.follows (hm : m.Ready) {c : KtClient} (h : Follows host m c m')
    (hc : ∀ head ∈ c.state, 0 < head.treeSize) : m'.Ready := by
  have hstate : m'.memory.state = c.state := congrArg KtClient.state h.view
  refine ⟨?_, ?_⟩
  · rw [h.statePath]
    exact hm.path
  · rw [hstate]
    exact hc

theorem preserves_memory_bind {β : Type} {I : Machine Text → Prop} {f : ClientMemory → ClientM Text β}
    (h : ∀ self, Preserves I (f self)) : Preserves I (memory >>= f) :=
  fun m r m' hm hrun => h m.memory m r m' hm hrun

theorem assign_ready {f : ClientMemory → ClientMemory}
    (hpath : ∀ c, (f c).statePath = c.statePath) (hstate : ∀ c, (f c).state = c.state) :
    Preserves (@Machine.Ready Text) (assign f) :=
  Preserves.modify fun m hm => ⟨by rw [hpath]; exact hm.path, by rw [hstate]; exact hm.head⟩

theorem saveState_ready : Preserves Machine.Ready (saveState host) := by
  refine Preserves.save fun m hm => ?_
  obtain ⟨path, hpath⟩ := hm.path
  simp only [hpath]
  exact ⟨hm.path, hm.head⟩

section

variable (hencode : ∀ th, ∃ bytes, host.encodeHead th = .ok bytes)
include hencode

theorem verifySearch_ready (user : Octets) (version : Option ℕ) (resp : SearchResponse) :
    Preserves Machine.Ready (verifySearch P host user version resp) :=
  Preserves.of_refines (verifySearch_refines hencode user version resp)
    fun _ _ _ _ hm hb hR => hm.follows hR.2.toFollows ((Accepted.search hb rfl).state_pos hm.head)

theorem verifyOwnerInit_ready (user : Octets) (start : ℕ) (resp : OwnerInitResponse) :
    Preserves Machine.Ready (verifyOwnerInit P host user start resp) :=
  Preserves.of_refines (verifyOwnerInit_refines hencode user start resp)
    fun _ _ _ _ hm hb hR => hm.follows hR.2 ((Accepted.ownerInit hb).state_pos hm.head)

theorem verifyOwnerMonitor_ready (user : Octets) (map : OrderedMap ℕ) (start : ℕ)
    (greatestVersion : Option ℕ) (resp : OwnerMonitorResponse) :
    Preserves Machine.Ready (verifyOwnerMonitor P host user map start greatestVersion resp) :=
  Preserves.of_refines (verifyOwnerMonitor_refines hencode user map start greatestVersion resp)
    fun _ _ _ _ hm hb hR => hm.follows hR.2 ((Accepted.ownerMonitor hb).state_pos hm.head)

theorem verifyDistinguished_ready (stop : Option ℕ) (resp : DistinguishedResponse) :
    Preserves Machine.Ready (verifyDistinguished P host stop resp) :=
  Preserves.of_refines (verifyDistinguished_refines hencode stop resp)
    fun _ _ _ _ hm hb hR => hm.follows hR.2 ((Accepted.distinguished hb).state_pos hm.head)

/-- The obligations are those of the client that runs the operation. -/
theorem verifyContactMonitor_ready {user : Octets} {resp : ContactMonitorResponse}
    {out : Except (Failure Fault) (List LeafData)} (hm : m.Ready)
    (h : verifyContactMonitor P host user (m.memory.view.monitoringMap user) resp m = (out, m')) :
    m'.Ready :=
  Preserves.of_refines_at (verifyContactMonitor_refines hencode user _ resp m) hm
    (fun _ _ _ hb hR => hm.follows hR.2 ((Accepted.contactMonitor hb).state_pos hm.head)) h

theorem verifySearchResponse_ready (user : Octets) (version : Option ℕ) (resp : SearchResponse) :
    Preserves Machine.Ready (verifySearchResponse P host user version resp) := by
  refine (verifySearch_ready hencode user version resp).bind fun v => saveState_ready.bind fun _ =>
    Preserves.bind (assign_ready ?_ ?_) fun _ => assign_ready ?_ ?_
  · exact fun _ => rfl
  · exact fun _ => rfl
  · exact fun _ => rfl
  · exact fun _ => rfl

end

theorem recordGreatest_ready (user : Octets) (version greatest : Option ℕ) :
    Preserves Machine.Ready (recordGreatest host user version greatest) := by
  cases version with
  | some v => exact Preserves.pure ()
  | none =>
    cases greatest with
    | none => exact Preserves.pure ()
    | some greatest =>
      refine Preserves.bind (assign_ready ?_ ?_) fun _ => saveState_ready
      · exact fun _ => rfl
      · exact fun _ => rfl

theorem updateAttempts_ready (user value : Octets) : ∀ (attempts : ℕ) (resps : List UpdateResponse),
    Preserves Machine.Ready (updateAttempts P host user value attempts resps)
  | 0, _ => Preserves.check _
  | _ + 1, [] => Preserves.check _
  | attempts + 1, resp :: resps => by
    refine preserves_memory_bind fun self => (Preserves.check _).bind fun _ => ?_
    by_cases hvalues : resp.values = []
    · rw [if_pos hvalues]
      refine Preserves.bind (assign_ready ?_ ?_) fun _ => saveState_ready
      · exact fun _ => rfl
      · exact fun _ => rfl
    · rw [if_neg hvalues]
      refine Preserves.bind (assign_ready ?_ ?_) fun _ => updateAttempts_ready user value attempts resps
      · exact fun _ => rfl
      · exact fun _ => rfl

/-- **One step**: whatever the outcome of an operation. -/
theorem Operation.run_ready (hencode : ∀ th, ∃ bytes, host.encodeHead th = .ok bytes)
    (op : Operation) : Preserves Machine.Ready (op.run P host) := by
  cases op with
  | update user value resps => exact updateAttempts_ready user value 32 resps
  | search user version resp =>
    exact (verifySearchResponse_ready hencode user version resp).bind fun _ =>
      recordGreatest_ready user version resp.version
  | contactMonitor user resp =>
    intro m out m' hm hrun
    rw [run, ClientM.contactMonitor, memory_bind] at hrun
    cases hcheck : ensure ((m.memory.view.monitoringMap user).entries ≠ [])
        "No monitoring obligations recorded for this label" with
    | error e =>
      rw [hcheck] at hrun
      exact (Prod.mk.inj hrun).2 ▸ hm
    | ok u =>
      rw [hcheck, check_ok_bind] at hrun
      exact Preserves.bind_at (fun out t => verifyContactMonitor_ready hencode hm)
        (fun _ => saveState_ready) hrun
  | ownerInit user start resp =>
    exact (verifyOwnerInit_ready hencode user start resp).bind fun _ => saveState_ready
  | ownerMonitor user entries start greatestVersion resp =>
    exact (verifyOwnerMonitor_ready hencode user _ start greatestVersion resp).bind
      fun _ => saveState_ready
  | distinguished stop resp =>
    exact (verifyDistinguished_ready hencode stop resp).bind fun _ => saveState_ready

/-- No empty head is in a machine. -/
def Machine.NoEmptyHead (m : Machine Text) : Prop := ∀ head ∈ m.memory.state, 0 < head.treeSize

theorem assign_noEmptyHead {f : ClientMemory → ClientMemory} (h : ∀ c, (f c).state = c.state) :
    Preserves (@Machine.NoEmptyHead Text) (assign f) :=
  Preserves.modify fun m hm => by
    rw [Machine.NoEmptyHead, h]
    exact hm

/-- A file with an empty head has none. -/
theorem restore_noEmptyHead (p : PersistedState) :
    Preserves (@Machine.NoEmptyHead Text) (p.restore F) := by
  have hhead : Preserves (@Machine.NoEmptyHead Text) (p.restoreHead F) := by
    unfold PersistedState.restoreHead
    split_ifs with hsize
    · refine (Preserves.check _).bind fun root => Preserves.modify fun m hm head hhead => ?_
      obtain rfl := Option.some.inj hhead
      exact hsize
    · exact Preserves.pure ()
  refine hhead.bind fun _ => Preserves.bind (assign_noEmptyHead ?_) fun _ => (Preserves.check _).bind
    fun _ => Preserves.bind (assign_noEmptyHead ?_) fun _ => (Preserves.check _).bind fun _ =>
    Preserves.bind (assign_noEmptyHead ?_) fun _ => (Preserves.check _).bind fun _ =>
    Preserves.bind (assign_noEmptyHead ?_) fun _ => (Preserves.check _).bind fun _ =>
    Preserves.bind (assign_noEmptyHead ?_) fun _ => (Preserves.check _).bind fun _ =>
    Preserves.bind (assign_noEmptyHead ?_) fun _ => (Preserves.check _).bind fun _ =>
    assign_noEmptyHead ?_
  · exact fun _ => rfl
  · exact fun _ => rfl
  · exact fun _ => rfl
  · exact fun _ => rfl
  · exact fun _ => rfl
  · exact fun _ => rfl
  · exact fun _ => rfl

theorem loadFile_noEmptyHead : ∀ file : Option Text,
    Preserves (@Machine.NoEmptyHead Text) (loadFile F file)
  | none => Preserves.pure ()
  | some _ => (Preserves.check _).bind fun p => restore_noEmptyHead p

theorem persistTo_ready {path : String} {c : ClientMemory} {files : Files Text}
    (hc : c.state = none) (h : persistTo host path ⟨c, files⟩ = (.ok (), m)) : m.Ready := by
  rw [persistTo, get_bind] at h
  obtain ⟨_, t, hload, h⟩ := bind_eq_ok.1 h
  have ht : t.NoEmptyHead := loadFile_noEmptyHead _ _ _ _
    (fun head hhead => by rw [hc] at hhead; cases hhead) hload
  obtain rfl := (Prod.mk.inj h).2
  exact ⟨⟨path, rfl⟩, ht⟩

/-- **A run** keeps to the invariant. -/
theorem Reached.ready (h : Reached P F m) : m.Ready := by
  induction h with
  | start hnew hhost hpersist => exact persistTo_ready (withChannel_state hnew) hpersist
  | step hm hhost hrun ih => exact Operation.run_ready hhost.encodeHead _ _ _ _ ih hrun

/-- A new client can be made, as there is one already. -/
theorem Reached.exists_new (h : Reached P F m) :
    ∃ config c, ClientMemory.withChannel P config = .ok c := by
  induction h with
  | start hnew hhost hpersist => exact ⟨_, _, hnew⟩
  | step hm hhost hrun ih => exact ih

/-! ### What is saved -/

theorem holds_of_save (hm : m.Ready) (hhost : host.Works F) (h : saveState host m = (.ok (), m')) :
    m'.memory = m.memory ∧ m'.Holds F m'.memory.toProtocolState := by
  obtain ⟨t, hrun, hmemory, hholds⟩ := saveState_holds hm hhost
  obtain rfl := (Prod.mk.inj (hrun.symm.trans h)).2
  exact ⟨hmemory, by rwa [hmemory]⟩

/-- A program that saves last leaves its memory in the file. -/
def SavesLast (F : StateFormat Text) (x : ClientM Text Unit) : Prop :=
  ∀ m m', m.Ready → x m = (.ok (), m') → m'.Holds F m'.memory.toProtocolState

theorem savesLast_bind {α : Type} {x : ClientM Text α} {f : α → ClientM Text Unit}
    (hx : Preserves Machine.Ready x) (hf : ∀ a, SavesLast F (f a)) : SavesLast F (x >>= f) := by
  intro m m' hm h
  obtain ⟨a, t, hrun, h⟩ := bind_eq_ok.1 h
  exact hf a t m' (hx m _ t hm hrun) h

theorem savesLast_saveState (hhost : host.Works F) : SavesLast F (saveState host) :=
  fun _ _ hm h => (holds_of_save hm hhost h).2

theorem updateAttempts_savesLast (hhost : host.Works F) (user value : Octets) :
    ∀ (attempts : ℕ) (resps : List UpdateResponse),
      SavesLast F (updateAttempts P host user value attempts resps)
  | 0, _ => fun m m' _ h => by cases (Prod.mk.inj h).1
  | _ + 1, [] => fun m m' _ h => by cases (Prod.mk.inj h).1
  | attempts + 1, resp :: resps => by
    intro m m' hm h
    rw [updateAttempts, memory_bind] at h
    refine savesLast_bind (Preserves.check _) (fun _ => ?_) m m' hm h
    by_cases hvalues : resp.values = []
    · rw [if_pos hvalues]
      refine savesLast_bind (assign_ready ?_ ?_) fun _ => savesLast_saveState hhost
      · exact fun _ => rfl
      · exact fun _ => rfl
    · rw [if_neg hvalues]
      refine savesLast_bind (assign_ready ?_ ?_) fun _ =>
        updateAttempts_savesLast hhost user value attempts resps
      · exact fun _ => rfl
      · exact fun _ => rfl

/-- A greatest-version search is saved with its obligation. -/
theorem search_greatest_savesLast (hhost : host.Works F) (user : Octets) (resp : SearchResponse) :
    SavesLast F (ClientM.search P host user none resp) := by
  intro m m' hm h
  obtain ⟨_, t, hverify, hrecord⟩ := bind_eq_ok.1 h
  have ht := verifySearchResponse_ready hhost.encodeHead user none resp m _ t hm hverify
  -- a search that names no version has been checked to get one
  obtain ⟨v, t', hsearch, -⟩ := bind_eq_ok.1 hverify
  obtain ⟨r, hr, -⟩ := (verifySearch_refines hhost.encodeHead user none resp m).eq_ok hsearch
  obtain ⟨greatest, hgreatest⟩ : ∃ greatest, resp.version = some greatest := by
    simp only [KtClient.verifySearch, Result.bind_eq_ok, okOr_eq_ok] at hr
    obtain ⟨-, -, -, -, -, -, -, -, -, -, target, htarget, -⟩ := hr
    exact ⟨target, htarget⟩
  rw [hgreatest] at hrecord
  refine savesLast_bind (assign_ready ?_ ?_) (fun _ => savesLast_saveState hhost) t m' ht hrecord
  · exact fun _ => rfl
  · exact fun _ => rfl

/-- What a search retains changes two maps. -/
theorem retain_eq_iff {label : Octets} {v : KtClient.Verified} {c : ClientMemory} :
    c.retain label v = c ↔ (c.stash label v.ladders).versionMaterial = c.versionMaterial ∧
      (c.oblige label v.terminal v.targetVersion).monitoringMap = c.monitoringMap := by
  constructor
  · intro h
    have hmaterial : (c.retain label v).versionMaterial = c.versionMaterial := by rw [h]
    have hmap : (c.retain label v).monitoringMap = c.monitoringMap := by rw [h]
    exact ⟨hmaterial, hmap⟩
  · rintro ⟨hmaterial, hmap⟩
    have heq : c.retain label v = { c with
        versionMaterial := (c.stash label v.ladders).versionMaterial
        monitoringMap := (c.oblige label v.terminal v.targetVersion).monitoringMap } := rfl
    rw [heq, hmaterial, hmap]

theorem retain_toProtocolState_iff {label : Octets} {v : KtClient.Verified} {c : ClientMemory} :
    c.toProtocolState = (c.retain label v).toProtocolState ↔ c.retain label v = c := by
  constructor
  · intro h
    exact retain_eq_iff.2 ⟨(congrArg ProtocolState.versionMaterial h).symm,
      (congrArg ProtocolState.monitoringMap h).symm⟩
  · intro h
    rw [h]

theorem retain_congr {label : Octets} {v : KtClient.Verified} {c c' : ClientMemory}
    (hmaterial : c'.versionMaterial = c.versionMaterial) (hmap : c'.monitoringMap = c.monitoringMap) :
    c'.retain label v = c' ↔ c.retain label v = c := by
  rw [retain_eq_iff, retain_eq_iff]
  simp only [ClientMemory.stash, ClientMemory.oblige, hmaterial, hmap]

/-- **A fixed-version search** leaves the file with what it held before the obligation. -/
theorem search_fixed_holds (hm : m.Ready) (hhost : host.Works F) {user : Octets} {version : ℕ}
    {resp : SearchResponse} (h : ClientM.search P host user (some version) resp m = (.ok (), m')) :
    ∃ v c t, m.memory.view.verifySearch P host.env user (some version) resp = .ok (v, c) ∧
      Committed host m c t ∧ t.Ready ∧ m'.memory = t.memory.retain user v ∧
      m'.Holds F t.memory.toProtocolState := by
  obtain ⟨_, t₁, hverify, hrecord⟩ := bind_eq_ok.1 h
  obtain rfl := (Prod.mk.inj hrecord).2
  obtain ⟨v, t, hsearch, hrest⟩ := bind_eq_ok.1 hverify
  have ht := verifySearch_ready hhost.encodeHead user (some version) resp m _ t hm hsearch
  obtain ⟨⟨v', c⟩, hpure, rfl, hcommitted⟩ :=
    (verifySearch_refines hhost.encodeHead user (some version) resp m).eq_ok hsearch
  obtain ⟨_, t', hsave, hrest⟩ := bind_eq_ok.1 hrest
  obtain ⟨hmemory, path, it, hpath, hfile⟩ := holds_of_save ht hhost hsave
  obtain rfl := (Prod.mk.inj hrest).2
  rw [hmemory] at hpath hfile
  exact ⟨_, c, t, hpure, hcommitted, ht, congrArg (ClientMemory.retain user _) hmemory, path, it,
    (congrArg ClientMemory.statePath hmemory).trans hpath, hfile⟩

end

/-! ### A search whose obligation is lost -/

section

variable {P : Primitives} {c : KtClient} {label : Octets} {L : LabelLog} {proof : CombinedTreeProof}
  {m target : ℕ}

/-- The visits of a search for the version of the only entry. -/
def LabelLog.onlyVisits (L : LabelLog) (target : ℕ) : List Visit :=
  frontierVisits L.size ++ [.ladder 0 (L.searchLadder target 0)]

/-- **The search of a fixed version in a log of one entry** ends at this entry, if it holds
the version. -/
theorem KtClient.simulateFixedSearch_only (hone : L.size = 1) (hg : L.greatest 0 = some target)
    (hlifetime : c.config.maximumLifetime = none) {binaryLadder : List BinaryLadderStep}
    (hverify : c.CanVerify P label L) (ht : Transcript P L (L.onlyVisits target) m proof)
    (hwire : L.Wire (some target) (laddersOf (L.onlyVisits target)) (L.searchLadder target 0)
      binaryLadder) {reader : ProofReader}
    (hreader : reader.At L proof (entriesOf (frontierVisits L.size)) 0) :
    ∃ s, c.simulateFixedSearch P label L.size target binaryLadder (L.commitment target)
        ⟨reader, .new [], fun _ => none⟩ = .ok (0, s) ∧
      s.Follows P L proof (L.onlyVisits target) ∧
      s.ladders.wireIndex = L.searchLadder target 0 := by
  have hfrontier : entriesOf (frontierVisits L.size) = [0] := by
    rw [hone]
    rfl
  have hladders : laddersOf (frontierVisits L.size) = [] := laddersOf_stamps _
  have hseen : appendNew (entriesOf (frontierVisits L.size)) 0 =
      entriesOf (frontierVisits L.size) := appendNew_of_mem (hfrontier ▸ List.mem_singleton.2 rfl)
  have hbegin : entriesOf (frontierVisits L.size) <+: entriesOf (L.onlyVisits target) :=
    entriesOf_beginning (List.prefix_append _ _)
  -- the timestamp is read as that of the rightmost entry, and at the entry
  obtain ⟨r₁, hr₁, h₁⟩ := hreader.timestamp ht (e := 0) (by rwa [hseen])
  rw [hseen] at h₁
  obtain ⟨r₂, hr₂, h₂⟩ := h₁.timestamp ht (e := 0) (by rwa [hseen])
  rw [hseen] at h₂
  have hfollows : (SearchState.mk r₂ (.new []) fun _ => none).Follows P L proof
      (frontierVisits L.size) := by
    refine ⟨?_, fun e => ?_⟩
    · rw [hladders]
      exact h₂
    · rw [hladders]
      rfl
  obtain ⟨pp, r₃, entryRoots, hpp, hproves, hrecord, hend⟩ :=
    hfollows.ladder ht
      (laddersOf_getElem? (List.prefix_refl (L.onlyVisits target))) (hfrontier ▸ List.mem_singleton.2 rfl)
  have hslots : firstSeenAfter [] (L.searchLadder target 0) = L.searchLadder target 0 := by
    rw [firstSeenAfter_beginning (nodup_baseBinaryLadder target) List.nil_prefix
      (LabelLog.searchLadder_beginning target 0)]
    split_ifs with hempty
    · exact (List.eq_nil_of_length_eq_zero (Nat.le_zero.1 hempty)).symm
    · rfl
  obtain ⟨ladders, hladder, hwireIndex⟩ : ∃ ladders, c.verifyLadderProof P label pp target binaryLadder
      (L.commitment target) false false (.new []) = .ok (L.root P 0, L.relation target 0, ladders) ∧
      ladders.wireIndex = firstSeenAfter [] (L.searchLadder target 0) := by
    have hmem : (0, L.searchLadder target 0) ∈ laddersOf (L.onlyVisits target) := by
      rw [LabelLog.onlyVisits, laddersOf_ladder, hladders]
      exact List.mem_singleton.2 rfl
    have hgreatest : false = true → ∀ l ∈ laddersOf (L.onlyVisits target), ∀ g ∈ L.greatest l.1,
        g ≤ target := fun h => by cases h
    have hright : false = true → false = true → L.greatest 0 = some target := fun h => by cases h
    have hnew : (Ladders.new []).Honest L (L.searchLadder target 0) :=
      ⟨List.nil_prefix, fun v out h => by cases h⟩
    have hretains : (Ladders.new []).Retains L := fun v comm h => by cases h
    obtain ⟨ladders, hladder, hwireIndex, -, -⟩ := KtClient.verifyLadderProof_honest hwire hverify
      (by omega) (L.small (by omega) hg) hmem hgreatest hright hproves hnew hretains (by rw [Ladders.new, hslots])
    exact ⟨ladders, hladder, hwireIndex⟩
  have hrelation : L.relation target 0 = .eq := by rw [LabelLog.relation_eq_eq, hg]
  rw [hrelation] at hladder
  have hentry : c.verifyEntryLadder P label target binaryLadder (L.commitment target) false false 0
      ⟨r₂, .new [], fun _ => none⟩ = .ok (.eq, ⟨r₃, ladders, entryRoots⟩) := by
    rw [KtClient.verifyEntryLadder, hpp, Result.ok_bind]
    dsimp only
    rw [hladder, Result.context_ok, Result.ok_bind]
    dsimp only
    rw [hrecord]
    rfl
  have hexpired : KtClient.isExpired c.config.maximumLifetime (L.timestamp 0) (L.timestamp 0) = false := by
    rw [hlifetime]
    rfl
  refine ⟨_, ?_, hend ladders, hwireIndex.trans hslots⟩
  have hroot : root 1 = 0 := by decide
  rw [KtClient.simulateFixedSearch, hone, Nat.sub_self, hr₁, Result.ok_bind]
  dsimp only
  rw [hroot, KtClient.fixedLoop, KtClient.fixedStep]
  dsimp only
  rw [hr₂, Result.ok_bind]
  dsimp only
  rw [if_neg (by rw [hexpired]; simp), hentry]
  rfl

/-- **It is accepted**, with the entry as its terminal one. -/
theorem KtClient.verifySearch_only (hone : L.size = 1) (hg : L.greatest 0 = some target)
    (hlifetime : c.config.maximumLifetime = none) {env : Env} {resp : SearchResponse}
    {fth : FullTreeHead} {timestamp : Option U64} {updated : Bool} {value : UpdateValue}
    (hfth : resp.fullTreeHead = some fth) (hproof : resp.search = some proof)
    (hsize : c.treeSizeForFth env fth = .ok (L.size, timestamp, updated))
    (hbounds : c.checkUpdatedBounds env updated timestamp = .ok ())
    (hhead : c.HeadOf P L m fth updated) (hvalue : resp.value = some value)
    (hcommit : commit P label target value.value none resp.opening = .ok (L.commitment target))
    (hverify : c.CanVerify P label L) (ht : Transcript P L (L.onlyVisits target) m proof)
    (hwire : L.Wire (some target) (laddersOf (L.onlyVisits target)) (L.searchLadder target 0)
      resp.binaryLadder) (hcount : resp.binaryLadder.length = (L.searchLadder target 0).length) :
    ∃ v c', c.verifySearch P env label (some target) resp = .ok (v, c') ∧ v.terminal = 0 ∧
      v.targetVersion = target := by
  have h₀ : 0 < L.size := by omega
  have hn : L.size ≤ 2 ^ 62 := by omega
  have hbegin : frontierVisits L.size <+: L.onlyVisits target := List.prefix_append _ _
  obtain ⟨reader, hreader, hat⟩ := ProofReader.frontier_honest ht hbegin
  obtain ⟨s, hrun, hs, hslots⟩ := simulateFixedSearch_only hone hg hlifetime hverify ht hwire hat
  obtain ⟨captured, c', hfinish⟩ : ∃ captured c', c.finishAndCommit P fth L.size timestamp updated
      proof s.reader s.entryRoots [] = .ok (L.data P (L.onlyVisits target), captured, c') :=
    have ⟨_, _, _, _, h, _⟩ := finishAndCommit_honest hhead hn h₀ ht
      (last_mem_entriesOf h₀ hn hbegin) hs.reader hs.roots []
    ⟨_, _, h⟩
  have hcount' : resp.binaryLadder.length = s.ladders.wireIndex.length := by rwa [hslots]
  refine ⟨⟨0, target, s.ladders, L.data P (L.onlyVisits target)⟩, c', ?_, rfl, rfl⟩
  rw [verifySearch, hfth, okOr_some, Result.ok_bind, hproof, okOr_some, Result.ok_bind, hsize,
    Result.ok_bind]
  dsimp only
  rw [ensure_of (show L.size ≠ 0 by omega), Result.ok_bind, hvalue, okOr_some, Result.ok_bind,
    Option.some_or, okOr_some, Result.ok_bind, if_neg (by simp), ensure_of (by simp), Result.ok_bind,
    hcommit, Result.context_ok, Result.ok_bind, hbounds, Result.ok_bind, hreader, Result.ok_bind,
    searchWalk, hrun, Result.ok_bind]
  dsimp only
  rw [ensure_of hcount', Result.ok_bind, hfinish]
  rfl

end

/-- The log of one entry, with a commitment to a value. -/
def committedLog (commitment : Octets) : LabelLog :=
  { initiatedLog with
    contents := fun e key => (initiatedLog.contents e key).map fun _ => commitment
    commitment := fun _ => commitment
    lookup := fun he hv => by
      rw [initiatedLog.lookup he hv]
      split_ifs <;> rfl }

/-- A new client finds the version. -/
theorem exists_fixed_search : ∃ resp v c', (sampleClient 1).verifySearch Primitives.ideal
    ⟨none, fun _ => .ok ()⟩ [] (some 0) resp = .ok (v, c') ∧ v.terminal = 0 ∧ v.targetVersion = 0 := by
  obtain ⟨commitment, hcommit⟩ : ∃ commitment,
      commit Primitives.ideal [] 0 [] none (Octets.zeros 16) = .ok commitment := ⟨_, rfl⟩
  obtain ⟨fth, hfth, hhead⟩ := sampleClient_headOf 1 (committedLog commitment) 0
  obtain ⟨hsize, hbounds⟩ := hfth ⟨none, fun _ => .ok ()⟩ rfl
  have hladder : (committedLog commitment).searchLadder 0 0 = [0, 1] :=
    (LabelLog.searchLadder_self rfl).trans (by decide)
  have hvisits : (committedLog commitment).onlyVisits 0 = [.stamp 0, .ladder 0 [0, 1]] := by
    rw [LabelLog.onlyVisits, hladder]
    rfl
  obtain ⟨proof, ht⟩ : ∃ proof, Transcript Primitives.ideal (committedLog commitment)
      ((committedLog commitment).onlyVisits 0) 0 proof :=
    LabelLog.exists_transcript (fun v _ => isKey_sampleKey v)
      (by rw [hvisits]; exact fun e he => (List.mem_singleton.1 he).symm ▸ Nat.one_pos)
      (by rw [hvisits]; decide) 0
  let resp : SearchResponse := ⟨some fth, none, Octets.zeros 16, some ⟨[]⟩, [0, 1].map
    ((committedLog commitment).stepAfter (laddersOf ((committedLog commitment).onlyVisits 0))),
    some proof⟩
  have hwire : (committedLog commitment).Wire none (laddersOf ((committedLog commitment).onlyVisits 0))
      ((committedLog commitment).searchLadder 0 0) resp.binaryLadder := by
    rw [hladder]
    exact LabelLog.wire_map (by decide)
  have hcount : resp.binaryLadder.length = ((committedLog commitment).searchLadder 0 0).length := by
    rw [hladder]
    rfl
  obtain ⟨v, c', hverified⟩ := KtClient.verifySearch_only (c := sampleClient 1) rfl rfl rfl rfl rfl
    hsize hbounds hhead rfl hcommit (sampleClient_canVerify rfl fun _ => rfl) ht (hwire.of_none _) hcount
  exact ⟨resp, v, c', hverified⟩

/-! ### Restarts -/

/-- **When a restart loses nothing**: after an operation that succeeds, in any run of a client
that saves its state, a new client gets the state back from the file unless the operation was a
search of a fixed version that retained something new. -/
theorem restorable_iff {P : Primitives} {F : StateFormat Text} {host : Host Text}
    {op : Operation} {m m' : Machine Text} (hm : Reached P F m) (hhost : host.Works F)
    (hrun : op.run P host m = (.ok (), m')) :
    m'.Restorable P F ↔ ¬ op.LeavesUnsaved P host m := by
  have hready := hm.ready
  have hready' := Operation.run_ready hhost.encodeHead op m _ m' hready hrun
  obtain ⟨config, new, hnew⟩ := hm.exists_new
  have hsaved : SavesLast F (op.run P host) → m'.Restorable P F := fun hop =>
    ((hop m m' hready hrun).restores_iff hready'.head hhost hnew).2 rfl
  cases op with
  | update user value resps =>
    exact iff_of_true (hsaved (updateAttempts_savesLast hhost user value 32 resps)) fun h => h
  | search user version resp =>
    cases version with
    | none => exact iff_of_true (hsaved (search_greatest_savesLast hhost user resp)) fun h => h
    | some version =>
      obtain ⟨v, c, t, hpure, hcommitted, ht, hmemory, hholds⟩ := search_fixed_holds hready hhost hrun
      rw [hholds.restores_iff ht.head hhost hnew, hmemory, retain_toProtocolState_iff,
        retain_congr hcommitted.versionMaterial hcommitted.monitoringMap]
      constructor
      · rintro h ⟨v', c', hpure', hne⟩
        obtain ⟨rfl, -⟩ := Prod.mk.inj (Except.ok.inj (hpure.symm.trans hpure'))
        exact hne h
      · intro h
        by_contra hne
        exact h ⟨v, c, hpure, hne⟩
  | contactMonitor user resp =>
    refine iff_of_true (hsaved ?_) fun h => h
    intro m m' hm hrun
    obtain ⟨_, t, hcheck, hrun⟩ := bind_eq_ok.1 ((memory_bind _ _).symm.trans hrun)
    obtain ⟨-, rfl⟩ := check_eq_ok.1 hcheck
    obtain ⟨data, t', hverify, hsave⟩ := bind_eq_ok.1 hrun
    exact savesLast_saveState hhost t' m' (verifyContactMonitor_ready hhost.encodeHead hm hverify) hsave
  | ownerInit user start resp =>
    exact iff_of_true (hsaved (savesLast_bind (verifyOwnerInit_ready hhost.encodeHead user start resp)
      fun _ => savesLast_saveState hhost)) fun h => h
  | ownerMonitor user entries start greatestVersion resp =>
    exact iff_of_true (hsaved (savesLast_bind
      (verifyOwnerMonitor_ready hhost.encodeHead user _ start greatestVersion resp)
      fun _ => savesLast_saveState hhost)) fun h => h
  | distinguished stop resp =>
    exact iff_of_true (hsaved (savesLast_bind (verifyDistinguished_ready hhost.encodeHead stop resp)
      fun _ => savesLast_saveState hhost)) fun h => h

/-- A new client that saves to a file. -/
def sampleMachine : Machine PersistedState :=
  .fresh { watchingConfig with reasonableMonitoringWindow := 1 }

theorem recordHost_works : (recordHost none).Works recordFormat :=
  ⟨rfl, fun _ _ _ => rfl, fun _ => ⟨_, rfl⟩⟩

theorem sampleMachine_reached : Reached Primitives.ideal recordFormat sampleMachine := by
  have hnew : ClientMemory.withChannel Primitives.ideal { watchingConfig with
      reasonableMonitoringWindow := 1 } = .ok { sampleMachine.memory with statePath := none } := rfl
  have hpersist : persistTo (recordHost none) "state"
      ⟨{ sampleMachine.memory with statePath := none }, fun _ => none⟩ = (.ok (), sampleMachine) := rfl
  exact .start hnew recordHost_works hpersist

theorem view_sampleMachine : sampleMachine.memory.view = sampleClient 1 := rfl

/-- The operation succeeds on a machine that accepts the search. -/
theorem search_fixed_succeeds {P : Primitives} {F : StateFormat Text} {host : Host Text} {m : Machine Text}
    (hm : m.Ready) (hhost : host.Works F) {user : Octets} {version : ℕ} {resp : SearchResponse}
    {v : KtClient.Verified} {c : KtClient}
    (h : m.memory.view.verifySearch P host.env user (some version) resp = .ok (v, c)) :
    ∃ m', ClientM.search P host user (some version) resp m = (.ok (), m') := by
  obtain ⟨v', t, hsearch, -⟩ :=
    (verifySearch_refines hhost.encodeHead user (some version) resp m).of_eq_ok h
  have ht := verifySearch_ready hhost.encodeHead user (some version) resp m _ t hm hsearch
  obtain ⟨t', hsave, -⟩ := saveState_holds ht hhost
  have hresponse : verifySearchResponse P host user (some version) resp m =
      (.ok (), { t' with memory := t'.memory.retain user v' }) := by
    rw [verifySearchResponse, bind_ok hsearch, bind_ok hsave]
    rfl
  refine ⟨{ t' with memory := t'.memory.retain user v' }, ?_⟩
  rw [ClientM.search, bind_ok hresponse]
  rfl

/-- **An obligation that a restart loses**: a new client searches for a version and accepts
the answer, and what is restored from its file is without the obligation. -/
theorem obligation_lost : ∃ (m' : Machine PersistedState) (op : Operation),
    Reached Primitives.ideal recordFormat sampleMachine ∧
      op.run Primitives.ideal (recordHost none) sampleMachine = (.ok (), m') ∧
      ¬ m'.Restorable Primitives.ideal recordFormat := by
  have hready := sampleMachine_reached.ready
  obtain ⟨config, new, hnew⟩ := sampleMachine_reached.exists_new
  obtain ⟨resp, v, c', hverified, -⟩ := exists_fixed_search
  rw [← view_sampleMachine] at hverified
  obtain ⟨m', hrun⟩ := search_fixed_succeeds hready recordHost_works hverified
  obtain ⟨v', c, t, -, hcommitted, ht, hmemory, hholds⟩ :=
    search_fixed_holds hready recordHost_works hrun
  refine ⟨m', .search [] (some 0) resp, sampleMachine_reached, hrun, fun hrestorable => ?_⟩
  rw [hholds.restores_iff ht.head recordHost_works hnew, hmemory, retain_toProtocolState_iff,
    retain_eq_iff] at hrestorable
  -- the file is without obligations, as the machine was
  have hnone : t.memory.monitoringMap.lookup [] = none := by
    rw [hcommitted.monitoringMap]
    rfl
  rw [← hrestorable.2, ClientMemory.oblige] at hnone
  simp at hnone

/-- The answer to an update of the empty label with its first version. -/
def sampleUpdate : UpdateResponse where
  fullTreeHead := some ⟨.updated, some ⟨1, 0, []⟩, none⟩
  position := 0
  values := []
  info := [⟨Octets.zeros 16, none⟩]
  binaryLadder := [⟨Octets.beBytes 1 0 ++ Octets.beBytes 4 0, none⟩]
  update := some ⟨[], [⟨[], []⟩], [], none⟩

/-- An update is kept. -/
theorem update_kept : ∃ m', (Operation.update [] [] [sampleUpdate]).run Primitives.ideal
    (recordHost none) sampleMachine = (.ok (), m') ∧ m'.Restorable Primitives.ideal recordFormat := by
  have hverified : sampleMachine.memory.view.verifyUpdateResponse Primitives.ideal [] none [[]]
      sampleUpdate = .ok () := rfl
  obtain ⟨m', hrun⟩ : ∃ m', (Operation.update [] [] [sampleUpdate]).run Primitives.ideal
      (recordHost none) sampleMachine = (.ok (), m') := by
    have hnone : sampleMachine.memory.labelVersions.lookup [] = none := rfl
    have hvalues : sampleUpdate.values = [] := rfl
    have hready : Machine.Ready { sampleMachine with memory := { sampleMachine.memory with
        labelVersions := sampleMachine.memory.labelVersions.insert [] 0 } } :=
      ⟨⟨_, rfl⟩, fun head h => by cases h⟩
    obtain ⟨m', hsave, -⟩ := saveState_holds hready recordHost_works
    refine ⟨m', ?_⟩
    rw [Operation.run, ClientM.update, updateAttempts, memory_bind]
    dsimp only
    rw [hnone, hverified, check_ok_bind, if_pos hvalues, assign_bind]
    exact hsave
  exact ⟨m', hrun, (restorable_iff sampleMachine_reached recordHost_works hrun).2 fun h => h⟩

end KeyTransparency
