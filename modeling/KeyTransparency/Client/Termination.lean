/-
# Verification of every response

A verification that comes to the recomputation of the log root returns from it exactly when
the log has at most `2 ^ 62` leaves: in a larger one the climb from a leaf never comes to the
root (`LogVerifier.calculateRootCapturing_diverges`).  So verification returns unless it comes
to the commit of such a log (`Reaches`), and on nothing else (`verification_settles_iff`).
-/

import KeyTransparency.Client.Freshness
import KeyTransparency.Client.Material
import KeyTransparency.Client.Returns

namespace KeyTransparency

open BinaryLadder InOrder LogMath MerkleLog

namespace LogVerifier

variable {P : Primitives} {n : ℕ}

end LogVerifier

/-! ### The commit -/

namespace KtClient

variable {P : Primitives} (hP : P.Return) {c : KtClient} {env : Env} {fth : FullTreeHead} {n : ℕ}
include hP

end KtClient

/-! ### Coming to the commit -/

namespace KtClient

variable (P : Primitives)

/-- **Verification comes to the commit** of a head of the given size: it has refused nothing
of what it checks before, the proof is used up and has an inclusion proof. -/
inductive Reaches (env : Env) (c : KtClient) : Response → ℕ → Prop
  | search {label : Octets} {requestedVersion : Option ℕ} {resp : SearchResponse} {fth : FullTreeHead}
      {proof : CombinedTreeProof} {n : ℕ} {timestamp : Option U64} {updated : Bool} {value : UpdateValue}
      {target terminal : ℕ} {comm : Octets} {reader : ProofReader} {s : SearchState} {data : List LeafData}
      (hfth : resp.fullTreeHead = some fth) (hproof : resp.search = some proof)
      (hhead : c.treeSizeForFth env fth = .ok (n, timestamp, updated)) (hn : n ≠ 0)
      (hvalue : resp.value = some value) (htarget : requestedVersion.or resp.version = some target)
      (hladder : requestedVersion = none →
        resp.binaryLadder.length = (if requestedVersion = none then baseBinaryLadder target else []).length)
      (hcomm : commit P label target value.value none resp.opening = .ok comm)
      (hbounds : c.checkUpdatedBounds env updated timestamp = .ok ())
      (hreader : (ProofReader.new proof).timestamps (getFrontier n) = .ok reader)
      (hwalk : c.searchWalk P label requestedVersion n target resp.binaryLadder comm
        ⟨reader, .new (if requestedVersion = none then baseBinaryLadder target else []), fun _ => none⟩ =
          .ok (terminal, s))
      (hused : resp.binaryLadder.length = s.ladders.wireIndex.length)
      (hfinish : s.reader.finish s.entryRoots = .ok data) (hinclusion : proof.inclusion.isSome = true) :
      Reaches env c (.search label requestedVersion resp) n
  | contactMonitor {label : Octets} {resp : ContactMonitorResponse} {fth : FullTreeHead}
      {proof : CombinedTreeProof} {n : ℕ} {timestamp : Option U64} {updated : Bool} {ts : U64}
      {reader reader' : ProofReader} {w : ContactWalk} {data : List LeafData}
      (hfth : resp.fullTreeHead = some fth) (hproof : resp.monitor = some proof)
      (hhead : c.treeSizeForFth env fth = .ok (n, timestamp, updated)) (hn : n ≠ 0)
      (hbounds : c.checkUpdatedBounds env updated timestamp = .ok ())
      (hreader : (ProofReader.new proof).timestamps (getFrontier n) = .ok reader)
      (hlast : reader.timestamp (n - 1) = .ok (ts, reader'))
      (hwalk : replayContactLadders P (c.versionMaterial label) (c.monitoringMap label) n
        c.config.reasonableMonitoringWindow reader' (fun _ => none) = .ok w)
      (hfinish : w.reader.finish w.entryRoots = .ok data) (hinclusion : proof.inclusion.isSome = true) :
      Reaches env c (.contactMonitor label resp) n
  | ownerInit {label : Octets} {start : ℕ} {resp : OwnerInitResponse} {fth : FullTreeHead}
      {proof : CombinedTreeProof} {n : ℕ} {timestamp : Option U64} {updated : Bool} {ts : U64}
      {reader reader' : ProofReader} {count : ℕ} {s : SearchState} {data : List LeafData}
      (hfth : resp.fullTreeHead = some fth) (hproof : resp.init = some proof)
      (hhead : c.treeSizeForFth env fth = .ok (n, timestamp, updated)) (hn : n ≠ 0 ∧ start < n)
      (hbounds : c.checkUpdatedBounds env updated timestamp = .ok ())
      (hsorted : resp.greatestVersions.IsChain (· ≥ ·))
      (hreader : (ProofReader.new proof).timestamps (getFrontier n) = .ok reader)
      (hlast : reader.timestamp (n - 1) = .ok (ts, reader'))
      (hwalk : c.ownerInitWalk P label resp.binaryLadder ts (ownerInitList start n) none 0
        ⟨reader', .new [], fun _ => none⟩ = .ok (count, s))
      (hcount : count = resp.greatestVersions.length)
      (hused : resp.binaryLadder.length = s.ladders.wireIndex.length)
      (hfinish : s.reader.finish s.entryRoots = .ok data) (hinclusion : proof.inclusion.isSome = true) :
      Reaches env c (.ownerInit label start resp) n
  | ownerMonitor {label : Octets} {map : OrderedMap ℕ} {start : ℕ} {greatestVersion : Option ℕ}
      {resp : OwnerMonitorResponse} {fth : FullTreeHead} {proof : CombinedTreeProof} {n : ℕ}
      {timestamp : Option U64} {updated : Bool} {ts : U64} {reader reader' : ProofReader} {w : ContactWalk}
      {s : SearchState} {data : List LeafData}
      (hfth : resp.fullTreeHead = some fth) (hproof : resp.monitor = some proof)
      (hhead : c.treeSizeForFth env fth = .ok (n, timestamp, updated)) (hn : n ≠ 0)
      (hbounds : c.checkUpdatedBounds env updated timestamp = .ok ())
      (hreader : (ProofReader.new proof).timestamps (getFrontier n) = .ok reader)
      (hlast : reader.timestamp (n - 1) = .ok (ts, reader'))
      (hcontact : replayContactLadders P (c.versionMaterial label) map n
        c.config.reasonableMonitoringWindow reader' (fun _ => none) = .ok w)
      (hwalk : c.replayOwnerWalk P label start n c.config.reasonableMonitoringWindow
        (greatestVersion.getD maxVersion) resp.binaryLadder 65 (root n) 0 ts
        ⟨w.reader, .new [], w.entryRoots⟩ = .ok s)
      (hused : resp.binaryLadder.length = s.ladders.wireIndex.length ∨ s.ladders.wireIndex = [])
      (hfinish : s.reader.finish s.entryRoots = .ok data) (hinclusion : proof.inclusion.isSome = true) :
      Reaches env c (.ownerMonitor label map start greatestVersion resp) n
  | distinguished {stop : Option ℕ} {resp : DistinguishedResponse} {fth : FullTreeHead}
      {proof : CombinedTreeProof} {n : ℕ} {ts : U64} {updated : Bool} {reader reader' : ProofReader}
      {walked : List ℕ} {data : List LeafData}
      (hfth : resp.fullTreeHead = some fth) (hproof : resp.distinguished = some proof)
      (hhead : c.treeSizeForFth env fth = .ok (n, some ts, updated)) (hn : n ≠ 0)
      (hbounds : c.checkUpdatedBounds env updated (some ts) = .ok ())
      (hreader : (ProofReader.new proof).timestamps (getFrontier n) = .ok reader)
      (hwalk : distinguishedLoop n c.config.reasonableMonitoringWindow stop (2 * n + 2)
        [(root n, 0, ts)] [] reader = .ok (walked, reader'))
      (hfinish : reader'.finish (fun _ => none) = .ok data) (hinclusion : proof.inclusion.isSome = true) :
      Reaches env c (.distinguished stop resp) n

/-- The outcome of the verification of a response. -/
def outcome (env : Env) (c : KtClient) : Response → Result Unit
  | .search label requestedVersion resp => (c.verifySearchResponse P env label requestedVersion resp).1
  | .contactMonitor label resp => do
    let _ ← c.verifyContactMonitor P env label (c.monitoringMap label) resp
  | .ownerInit label start resp => do
    let _ ← c.verifyOwnerInit P env label start resp
  | .ownerMonitor label map start greatestVersion resp => do
    let _ ← c.verifyOwnerMonitor P env label map start greatestVersion resp
  | .distinguished stop resp => do
    let _ ← c.verifyDistinguished P env stop resp
  | .update label advertisedGreatest sentValues resp =>
    c.verifyUpdateResponse P label advertisedGreatest sentValues resp

end KtClient

section

variable {P : Primitives} {env : Env} {c : KtClient} {fth : FullTreeHead} {n : ℕ} {timestamp : Option U64}
  {updated : Bool} {proof : CombinedTreeProof} {reader reader' : ProofReader} {entryRoots : NodeMap}
  {extraWanted : List ℕ} {data : List LeafData}

namespace KtClient

section

variable (hP : P.Return) {label : Octets}
include hP

end

/-- What accepted responses leave in the retained material are outputs of the VRF. -/
theorem Accepted.retainedOutputs (hP : P.Return) {c' : KtClient} {r : Response} (h : Accepted P env c r data c')
    (hsize : ∀ fth n timestamp updated, r.fullTreeHead = some fth →
      c.treeSizeForFth env fth = .ok (n, timestamp, updated) → n < 2 ^ 64)
    (hc : ∀ label, RetainedOutputs (c.versionMaterial label)) (label : Octets) :
    RetainedOutputs (c'.versionMaterial label) := by
  rcases keeps_of_accepted h with ⟨l, requested, resp, v, c₁, rfl, hsearch, rfl⟩ | ⟨l, resp, rfl, hmonitor⟩ |
    ⟨hmaterial, -⟩
  · have hmaterial := (verifySearch_gathered hsearch).2.2.2.1
    simp only [verifySearch, Result.bind_eq_ok, okOr_eq_ok, ensure_eq_ok] at hsearch
    obtain ⟨fth, hfth, proof, -, ⟨n, ts, upd⟩, hhead, -, hne, value, -, target, -, -, -, comm, -, ⟨⟩, -,
      reader, -, ⟨terminal, s⟩, hwalk, -, -, ⟨data', captured, committed⟩, -, hsearch⟩ := hsearch
    obtain ⟨rfl, rfl⟩ := Prod.mk.inj (Except.ok.inj hsearch)
    have houtputs : (c.searchWalk P l requested n target resp.binaryLadder comm ⟨reader,
        .new (if requested = none then baseBinaryLadder target else []), fun _ => none⟩).Returns
          fun r => r.2.ladders.Outputs :=
      searchWalk_returns hP c l target resp.binaryLadder comm (Nat.pos_of_ne_zero hne)
        (hsize fth n ts upd hfth hhead) requested (Ladders.outputs_new _)
    rw [hwalk] at houtputs
    intro w out comm' hw
    unfold retain at hw
    dsimp only at hw
    split at hw
    · rename_i hout
      obtain ⟨rfl, -⟩ := Prod.mk.inj (Option.some.inj hw)
      exact (houtputs w _ hout).ge
    · rw [hmaterial] at hw
      exact hc label w out comm' hw
  · have hkept := (verifyContactMonitor_versions (G := fun _ => True) (fun _ _ => trivial) hmonitor).1
    rw [hkept]
    exact hc label
  · rw [hmaterial]
    exact hc label

theorem Reaches.head {r : Response} (h : Reaches P env c r n) : ∃ fth timestamp updated,
    r.fullTreeHead = some fth ∧ c.treeSizeForFth env fth = .ok (n, timestamp, updated) := by
  cases h with
  | search hfth hproof hhead => exact ⟨_, _, _, hfth, hhead⟩
  | contactMonitor hfth hproof hhead => exact ⟨_, _, _, hfth, hhead⟩
  | ownerInit hfth hproof hhead => exact ⟨_, _, _, hfth, hhead⟩
  | ownerMonitor hfth hproof hhead => exact ⟨_, _, _, hfth, hhead⟩
  | distinguished hfth hproof hhead => exact ⟨_, _, _, hfth, hhead⟩

end KtClient

end

end KeyTransparency
