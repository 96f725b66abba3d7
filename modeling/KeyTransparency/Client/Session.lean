/-
# The responses of a session

What a client accepts, whatever the kind of the response, and runs of accepted
responses.  All kinds that take over a tree head go through the same steps
(`Accepted.takenOver`): the head's clock check, a reader in which timestamps do not
decrease, and the commit.  The response to an update is checked, but its head is not
taken over.
-/

import KeyTransparency.Client.Monitor

namespace KeyTransparency

open LogMath

namespace KtClient

variable (P : Primitives)

/-! ### Updates -/

/-- The binary ladder of an update, from a version on. -/
def verifyUpdateLadder (c : KtClient) (label : Octets) : ℕ → List BinaryLadderStep → Result Unit
  | _, [] => .ok ()
  | ver, step :: steps => do
    let input ← (constructVrfInput label ver).context "VRF input construction failed"
    let _ ← (P.ecvrfVerify c.config.cipherSuite c.vrfPk input step.proof).context
      s!"Update ladder VRF verify failed at v={ver}"
    ensure (step.commitment = none)
      s!"Commitment provided for v={ver} greater than advertised greatest_version"
    verifyUpdateLadder c label (ver + 1) steps

/-- The commitments of an update, from a version on. -/
def verifyUpdateInfo (label : Octets) : ℕ → List (UpdateInfo × Octets) → Result Unit
  | _, [] => .ok ()
  | ver, (info, value) :: rest => do
    let _ ← (commit P label ver value none info.opening).context
      s!"Commitment recompute failed at v={ver}"
    verifyUpdateInfo label (ver + 1) rest

/-- `verify_update_response`, which leaves the trusted state alone. -/
def verifyUpdateResponse (c : KtClient) (label : Octets) (advertisedGreatest : Option ℕ)
    (sentValues : List Octets) (resp : UpdateResponse) : Result Unit := do
  let proof ← okOr resp.update "Missing update proof"
  let fth ← okOr resp.fullTreeHead "Missing FullTreeHead"
  let th ← okOr fth.treeHead "Missing TreeHead"
  ensure (th.treeSize ≠ 0) "Tree size is 0"
  ensure (resp.position < th.treeSize)
    s!"Insertion position {resp.position} outside tree of size {th.treeSize}"
  let effectiveValues := if resp.values = [] then sentValues else resp.values.map LabelValue.value
  ensure (resp.info ≠ []) "Empty UpdateResponse.info"
  ensure (resp.info.length = effectiveValues.length)
    s!"info length {resp.info.length} != covered values {effectiveValues.length}"
  ensure (resp.binaryLadder.length = effectiveValues.length)
    s!"Binary ladder length {resp.binaryLadder.length} != covered versions {effectiveValues.length}"
  let startVer := advertisedGreatest.elim 0 (· + 1)
  c.verifyUpdateLadder P label startVer resp.binaryLadder
  verifyUpdateInfo P label startVer (resp.info.zip effectiveValues)
  ensure (proof.prefixProofs ≠ []) "Missing prefix proof"

end KtClient

/-! ### Acceptance -/

/-- A response together with the request it answers. -/
inductive Response
  | search (label : Octets) (requestedVersion : Option ℕ) (resp : SearchResponse)
  | contactMonitor (label : Octets) (resp : ContactMonitorResponse)
  | ownerInit (label : Octets) (start : ℕ) (resp : OwnerInitResponse)
  | ownerMonitor (label : Octets) (map : OrderedMap ℕ) (start : ℕ) (greatestVersion : Option ℕ)
      (resp : OwnerMonitorResponse)
  | distinguished (stop : Option ℕ) (resp : DistinguishedResponse)
  | update (label : Octets) (advertisedGreatest : Option ℕ) (sentValues : List Octets)
      (resp : UpdateResponse)

/-- The tree head that a response asks the client to take over. -/
def Response.fullTreeHead : Response → Option FullTreeHead
  | .search _ _ resp => resp.fullTreeHead
  | .contactMonitor _ resp => resp.fullTreeHead
  | .ownerInit _ _ resp => resp.fullTreeHead
  | .ownerMonitor _ _ _ _ resp => resp.fullTreeHead
  | .distinguished _ resp => resp.fullTreeHead
  | .update _ _ _ _ => none

/-- **The client accepts a response**, reads the given entries from it and is in the
last state afterwards. -/
inductive Accepted (P : Primitives) (env : Env) (c : KtClient) :
    Response → List LeafData → KtClient → Prop
  | search {label : Octets} {requestedVersion : Option ℕ} {resp : SearchResponse}
      {v : KtClient.Verified} {c' : KtClient}
      (h : c.verifySearch P env label requestedVersion resp = .ok (v, c'))
      (saved : env.saveState c' = .ok ()) :
      Accepted P env c (.search label requestedVersion resp) v.leafData (c'.retain label v)
  | contactMonitor {label : Octets} {resp : ContactMonitorResponse} {data : List LeafData}
      {c' : KtClient}
      (h : c.verifyContactMonitor P env label (c.monitoringMap label) resp = .ok (data, c')) :
      Accepted P env c (.contactMonitor label resp) data c'
  | ownerInit {label : Octets} {start : ℕ} {resp : OwnerInitResponse} {data : List LeafData}
      {c' : KtClient} (h : c.verifyOwnerInit P env label start resp = .ok (data, c')) :
      Accepted P env c (.ownerInit label start resp) data c'
  | ownerMonitor {label : Octets} {map : OrderedMap ℕ} {start : ℕ} {greatestVersion : Option ℕ}
      {resp : OwnerMonitorResponse} {data : List LeafData} {c' : KtClient}
      (h : c.verifyOwnerMonitor P env label map start greatestVersion resp = .ok (data, c')) :
      Accepted P env c (.ownerMonitor label map start greatestVersion resp) data c'
  | distinguished {stop : Option ℕ} {resp : DistinguishedResponse} {data : List LeafData}
      {c' : KtClient} (h : c.verifyDistinguished P env stop resp = .ok (data, c')) :
      Accepted P env c (.distinguished stop resp) data c'
  | update {label : Octets} {advertisedGreatest : Option ℕ} {sentValues : List Octets}
      {resp : UpdateResponse}
      (h : c.verifyUpdateResponse P label advertisedGreatest sentValues resp = .ok ()) :
      Accepted P env c (.update label advertisedGreatest sentValues resp) [] c

/-- A run of accepted responses, with the entries read from each. -/
inductive AcceptedRun (P : Primitives) :
    KtClient → List (Response × List LeafData) → KtClient → Prop
  | nil (c : KtClient) : AcceptedRun P c [] c
  | cons {env : Env} {c c' c'' : KtClient} {r : Response} {data : List LeafData}
      {rest : List (Response × List LeafData)} (h : Accepted P env c r data c')
      (run : AcceptedRun P c' rest c'') : AcceptedRun P c ((r, data) :: rest) c''

/-- A step of a client: it accepts a response that meets a condition. -/
def Step (P : Primitives) (Meets : KtClient → Response → Prop) (c c' : KtClient) : Prop :=
  ∃ env r data, Meets c r ∧ Accepted P env c r data c'

/-! ### What acceptance means -/

/-- The part of a client that the commit of a head sets. -/
structure KtClient.SameHead (c c' : KtClient) : Prop where
  sigPk : c.sigPk = c'.sigPk
  vrfPk : c.vrfPk = c'.vrfPk
  config : c.config = c'.config
  state : c.state = c'.state
  retainedSubtrees : c.retainedSubtrees = c'.retainedSubtrees
  auditorHead : c.auditorHead = c'.auditorHead
  retainedHead : c.retainedHead = c'.retainedHead

/-- The steps that every operation on a tree head has in common. -/
structure TakenOver (P : Primitives) (env : Env) (c : KtClient) (fth : FullTreeHead)
    (data : List LeafData) (c' : KtClient) (treeSize : ℕ) (timestamp : Option U64)
    (updated : Bool) : Prop where
  head : c.treeSizeForFth env fth = .ok (treeSize, timestamp, updated)
  nonempty : treeSize ≠ 0
  bounds : c.checkUpdatedBounds env updated timestamp = .ok ()
  monotone : data.Pairwise fun a b => a.1 < b.1 ∧ a.2.1 ≤ b.2.1
  commit : ∃ elements extraWanted captured committed,
    c.verifyHeadAndCommit P fth treeSize timestamp updated (data.map Prod.fst)
      (data.map fun d => logLeafValue P d.2.1 d.2.2) elements extraWanted =
        .ok (captured, committed) ∧ committed.SameHead c'

namespace KtClient

variable {P : Primitives}

theorem finishAndCommit_eq_ok {c c' : KtClient} {fth : FullTreeHead} {treeSize : ℕ}
    {timestamp : Option U64} {updated : Bool} {proof : CombinedTreeProof} {reader : ProofReader}
    {entryRoots : NodeMap} {extraWanted : List ℕ} {data : List LeafData} {captured : NodeMap} :
    c.finishAndCommit P fth treeSize timestamp updated proof reader entryRoots extraWanted =
        .ok (data, captured, c') ↔
      reader.finish entryRoots = .ok data ∧ ∃ inclusion, proof.inclusion = some inclusion ∧
        c.verifyHeadAndCommit P fth treeSize timestamp updated (data.map Prod.fst)
          (data.map fun d => logLeafValue P d.2.1 d.2.2) inclusion.elements extraWanted =
            .ok (captured, c') := by
  simp only [finishAndCommit, Result.bind_eq_ok, okOr_eq_ok]
  constructor
  · rintro ⟨data', hdata, inclusion, hinc, ⟨captured', c''⟩, hcommit, h⟩
    obtain ⟨rfl, rfl, rfl⟩ := by simpa using Except.ok.inj h
    exact ⟨hdata, inclusion, hinc, hcommit⟩
  · rintro ⟨hdata, inclusion, hinc, hcommit⟩
    exact ⟨data, hdata, inclusion, hinc, (captured, c'), hcommit, rfl⟩

end KtClient

section

variable {P : Primitives} {env : Env} {c c' : KtClient} {data : List LeafData}

/-- The end of an operation, after its checks on the head. -/
theorem TakenOver.of_finish {fth : FullTreeHead} {treeSize : ℕ} {timestamp : Option U64}
    {updated : Bool} {proof : CombinedTreeProof} {reader : ProofReader} {entryRoots : NodeMap}
    {extraWanted : List ℕ} {captured : NodeMap} {committed : KtClient}
    (head : c.treeSizeForFth env fth = .ok (treeSize, timestamp, updated)) (nonempty : treeSize ≠ 0)
    (bounds : c.checkUpdatedBounds env updated timestamp = .ok ())
    (h : c.finishAndCommit P fth treeSize timestamp updated proof reader entryRoots extraWanted =
      .ok (data, captured, committed)) (same : committed.SameHead c') :
    TakenOver P env c fth data c' treeSize timestamp updated := by
  obtain ⟨hfinish, inclusion, -, hcommit⟩ := KtClient.finishAndCommit_eq_ok.1 h
  exact ⟨head, nonempty, bounds, ProofReader.finish_monotone hfinish,
    inclusion.elements, extraWanted, captured, committed, hcommit, same⟩

/-- **All kinds of responses take a head over in the same steps**, except for updates,
which change nothing. -/
theorem Accepted.takenOver {r : Response} (h : Accepted P env c r data c') :
    (∃ fth treeSize timestamp updated, r.fullTreeHead = some fth ∧
      TakenOver P env c fth data c' treeSize timestamp updated) ∨
    (r.fullTreeHead = none ∧ data = [] ∧ c' = c) := by
  cases h with
  | search h saved =>
    simp only [KtClient.verifySearch, Result.bind_eq_ok, okOr_eq_ok, ensure_eq_ok] at h
    obtain ⟨fth, hfth, proof, -, ⟨n, ts, upd⟩, hhead, -, hn, value, -, target, -, -, -, comm, -, ⟨⟩,
      hbounds, reader, -, ⟨terminal, s⟩, -, -, -, ⟨data', captured, committed⟩, hfinish, h⟩ := h
    obtain ⟨rfl, rfl⟩ := Prod.mk.inj (Except.ok.inj h)
    exact .inl ⟨fth, n, ts, upd, hfth,
      .of_finish hhead hn hbounds hfinish ⟨rfl, rfl, rfl, rfl, rfl, rfl, rfl⟩⟩
  | contactMonitor h =>
    simp only [KtClient.verifyContactMonitor, Result.bind_eq_ok, okOr_eq_ok, ensure_eq_ok] at h
    obtain ⟨fth, hfth, proof, -, ⟨n, ts, upd⟩, hhead, -, hn, ⟨⟩, hbounds, reader, -, ⟨_, reader'⟩, -,
      w, -, ⟨data', captured, committed⟩, hfinish, h⟩ := h
    obtain ⟨rfl, rfl⟩ := Prod.mk.inj (Except.ok.inj h)
    exact .inl ⟨fth, n, ts, upd, hfth,
      .of_finish hhead hn hbounds hfinish ⟨rfl, rfl, rfl, rfl, rfl, rfl, rfl⟩⟩
  | ownerInit h =>
    simp only [KtClient.verifyOwnerInit, Result.bind_eq_ok, okOr_eq_ok, ensure_eq_ok] at h
    obtain ⟨fth, hfth, proof, -, ⟨n, ts, upd⟩, hhead, -, ⟨hn, -⟩, ⟨⟩, hbounds, -, -, reader, -,
      ⟨_, reader'⟩, -, ⟨count, s⟩, -, -, -, -, -, ⟨data', captured, committed⟩, hfinish, h⟩ := h
    obtain ⟨rfl, rfl⟩ := Prod.mk.inj (Except.ok.inj h)
    exact .inl ⟨fth, n, ts, upd, hfth,
      .of_finish hhead hn hbounds hfinish ⟨rfl, rfl, rfl, rfl, rfl, rfl, rfl⟩⟩
  | ownerMonitor h =>
    simp only [KtClient.verifyOwnerMonitor, Result.bind_eq_ok, okOr_eq_ok, ensure_eq_ok] at h
    obtain ⟨fth, hfth, proof, -, ⟨n, ts, upd⟩, hhead, -, hn, ⟨⟩, hbounds, reader, -, ⟨_, reader'⟩, -,
      w, -, s, -, -, -, ⟨data', captured, committed⟩, hfinish, h⟩ := h
    obtain ⟨rfl, rfl⟩ := Prod.mk.inj (Except.ok.inj h)
    exact .inl ⟨fth, n, ts, upd, hfth,
      .of_finish hhead hn hbounds hfinish ⟨rfl, rfl, rfl, rfl, rfl, rfl, rfl⟩⟩
  | distinguished h =>
    simp only [KtClient.verifyDistinguished, Result.bind_eq_ok, okOr_eq_ok, ensure_eq_ok] at h
    obtain ⟨fth, hfth, proof, -, ⟨n, ts, upd⟩, hhead, -, hn, ⟨⟩, hbounds, rightmost, -, reader, -,
      ⟨walked, reader'⟩, -, ⟨data', captured, committed⟩, hfinish, h⟩ := h
    obtain ⟨rfl, rfl⟩ := Prod.mk.inj (Except.ok.inj h)
    exact .inl ⟨fth, n, ts, upd, hfth,
      .of_finish hhead hn hbounds hfinish ⟨rfl, rfl, rfl, rfl, rfl, rfl, rfl⟩⟩
  | update h => exact .inr ⟨rfl, rfl, rfl⟩

end

end KeyTransparency
