/-
# Evidence of a fork

`verify_gossip_head` and `verify_fork_evidence` of `src/client/gossip.rs`: two heads of
one size whose roots differ prove that the operator has forked the log.  The heads and
roots travel as text.  The roots are compared as text and the signatures are checked over
what the text decodes to, so that evidence proves a fork except where the two texts spell
one root (`fork_evidence_iff`).
-/

import KeyTransparency.Crypto.Signing
import KeyTransparency.Library.Hex

namespace KeyTransparency

open Octets

/-- How gossiped values are read: hexadecimal text, and the encoding of tree heads. -/
structure GossipFormat where
  hexDecode : List Char → Result Octets
  decodeTreeHead : Octets → Result TreeHead

structure GossipHead where
  treeSize : ℕ
  rootHash : List Char
  treeHead : List Char

structure ForkEvidence where
  treeSize : ℕ
  rootA : List Char
  headA : List Char
  rootB : List Char
  headB : List Char

section

variable (P : Primitives) (F : GossipFormat) (config : PublicConfig)

def GossipHead.decodeHead (g : GossipHead) : Result TreeHead := do
  let bytes ← F.hexDecode g.treeHead
  F.decodeTreeHead bytes

def verifyGossipHead (gossip : GossipHead) : Result Unit := do
  let head ← gossip.decodeHead F
  ensure (head.treeSize = gossip.treeSize) "Gossiped head tree size mismatch"
  let root ← F.hexDecode gossip.rootHash
  let tbs ← constructTreeHeadTbsPublic config gossip.treeSize root
  let pk ← serviceVerifyingKey P config.serverSigPk
  let _ ← okOr (head.signatures.find? fun sig => (P.verifyData pk tbs sig.signature).isOk)
    "No valid operator signature on gossiped head"
  return ()

/-- The two heads of evidence. -/
def ForkEvidence.heads (e : ForkEvidence) : List GossipHead :=
  [⟨e.treeSize, e.rootA, e.headA⟩, ⟨e.treeSize, e.rootB, e.headB⟩]

/-- The loop over the heads. -/
def verifyGossipHeads : List GossipHead → Result Unit
  | [] => .ok ()
  | gossip :: heads => do
    (verifyGossipHead P F config gossip).context "Fork evidence signature verification failed"
    verifyGossipHeads heads

def verifyForkEvidence (evidence : ForkEvidence) : Result Unit := do
  ensure (evidence.rootA ≠ evidence.rootB) "Evidence roots are identical: no fork"
  verifyGossipHeads P F config evidence.heads

/-! ### What evidence proves -/

/-- **A head is signed over a root**: it is one of the size it is sent for, and holds a
signature of the operator over that size and the root. -/
def GossipHead.SignedOver (gossip : GossipHead) (root : Octets) : Prop :=
  ∃ head sig tbs pk, gossip.decodeHead F = .ok head ∧ head.treeSize = gossip.treeSize ∧
    sig ∈ head.signatures ∧ constructTreeHeadTbsPublic config gossip.treeSize root = .ok tbs ∧
    serviceVerifyingKey P config.serverSigPk = .ok pk ∧ P.verifyData pk tbs sig.signature = .ok ()

/-- Evidence holds the operator's signature over the head of its size with a root. -/
def ForkEvidence.Signs (e : ForkEvidence) (root : Octets) : Prop :=
  ∃ gossip ∈ e.heads, gossip.SignedOver P F config root

/-- **Evidence of a fork** is accepted only if it holds the operator's signatures over
heads of its size with two different roots. -/
def ForkEvidence.Sound (e : ForkEvidence) : Prop :=
  verifyForkEvidence P F config e = .ok () →
    ∃ root root', root ≠ root' ∧ e.Signs P F config root ∧ e.Signs P F config root'

/-- **A respelled head**: the two texts differ, but spell one root; both heads are signed
over it, and none over another root. -/
structure ForkEvidence.Respelled (e : ForkEvidence) (root : Octets) : Prop where
  differ : e.rootA ≠ e.rootB
  spelled : ∀ gossip ∈ e.heads, F.hexDecode gossip.rootHash = .ok root
  signed : ∀ gossip ∈ e.heads, gossip.SignedOver P F config root
  only : ∀ root', e.Signs P F config root' → root' = root

end

section

variable {P : Primitives} {F : GossipFormat} {config : PublicConfig} {e : ForkEvidence}

theorem verifyGossipHeads_eq_ok {heads : List GossipHead} :
    verifyGossipHeads P F config heads = .ok () ↔
      ∀ gossip ∈ heads, verifyGossipHead P F config gossip = .ok () := by
  induction heads with
  | nil => simp [verifyGossipHeads]
  | cons gossip heads ih =>
    simp only [verifyGossipHeads, Result.bind_eq_ok, Result.context_eq_ok, List.mem_cons,
      forall_eq_or_imp, ← ih]
    constructor
    · rintro ⟨⟨⟩, h, h'⟩
      exact ⟨h, h'⟩
    · rintro ⟨h, h'⟩
      exact ⟨(), h, h'⟩

theorem verifyForkEvidence_eq_ok : verifyForkEvidence P F config e = .ok () ↔
    e.rootA ≠ e.rootB ∧ ∀ gossip ∈ e.heads, verifyGossipHead P F config gossip = .ok () := by
  simp only [verifyForkEvidence, Result.bind_eq_ok, ensure_eq_ok, verifyGossipHeads_eq_ok]
  constructor
  · rintro ⟨⟨⟩, h, h'⟩
    exact ⟨h, h'⟩
  · rintro ⟨h, h'⟩
    exact ⟨(), h, h'⟩

theorem find?_verified {pk tbs : Octets} {sigs : List Signature} :
    (∃ sig, sigs.find? (fun sig => (P.verifyData pk tbs sig.signature).isOk) = some sig) ↔
      ∃ sig ∈ sigs, P.verifyData pk tbs sig.signature = .ok () := by
  have hok : ∀ res : Result Unit, res.isOk = true ↔ res = .ok () := by
    intro res
    cases res <;> simp [Except.isOk, Except.toBool]
  rw [← Option.isSome_iff_exists, List.find?_isSome]
  simp only [hok]

/-- **A head is valid** exactly if it is signed over the root that its text spells. -/
theorem verifyGossipHead_eq_ok {gossip : GossipHead} : verifyGossipHead P F config gossip = .ok () ↔
    ∃ root, F.hexDecode gossip.rootHash = .ok root ∧ gossip.SignedOver P F config root := by
  simp only [verifyGossipHead, Result.bind_eq_ok, okOr_eq_ok, ensure_eq_ok, Result.pure_eq,
    and_true, find?_verified]
  constructor
  · rintro ⟨head, hhead, -, hsize, root, hroot, tbs, htbs, pk, hpk, sig, hsig, hverified⟩
    exact ⟨root, hroot, head, sig, tbs, pk, hhead, hsize, hsig, htbs, hpk, hverified⟩
  · rintro ⟨root, hroot, head, sig, tbs, pk, hhead, hsize, hsig, htbs, hpk, hverified⟩
    exact ⟨head, hhead, (), hsize, root, hroot, tbs, htbs, pk, hpk, sig, hsig, hverified⟩

/-- **A respelled head is accepted** and proves nothing. -/
theorem ForkEvidence.Respelled.not_sound {root : Octets} (h : e.Respelled P F config root) :
    ¬ e.Sound P F config := by
  intro hsound
  obtain ⟨r, r', hne, hr, hr'⟩ := hsound (verifyForkEvidence_eq_ok.2 ⟨h.differ, fun gossip hmem =>
    verifyGossipHead_eq_ok.2 ⟨root, h.spelled gossip hmem, h.signed gossip hmem⟩⟩)
  exact hne ((h.only r hr).trans (h.only r' hr').symm)

/-- **When evidence proves a fork.**  Accepted evidence holds the operator's signatures
over two different roots of one size, except for that of a respelled head. -/
theorem fork_evidence_iff (P : Primitives) (F : GossipFormat) (config : PublicConfig)
    (e : ForkEvidence) : e.Sound P F config ↔ ∀ root, ¬ e.Respelled P F config root := by
  constructor
  · exact fun hsound root hrespelled => hrespelled.not_sound hsound
  · intro hnot haccepted
    obtain ⟨hdiffer, hvalid⟩ := verifyForkEvidence_eq_ok.1 haccepted
    obtain ⟨a, b, hheads⟩ : ∃ a b, e.heads = [a, b] := ⟨_, _, rfl⟩
    simp only [hheads, List.forall_mem_cons, verifyGossipHead_eq_ok] at hvalid
    obtain ⟨⟨root, hroot, hsigned⟩, ⟨root', hroot', hsigned'⟩, -⟩ := hvalid
    have hsigns : e.Signs P F config root := ⟨a, by simp [hheads], hsigned⟩
    have hsigns' : e.Signs P F config root' := ⟨b, by simp [hheads], hsigned'⟩
    by_cases hne : root = root'
    · -- the texts spell one root: the heads are signed over another one too
      subst hne
      by_contra hnone
      refine hnot root ⟨hdiffer, ?_, ?_, fun r hr => ?_⟩
      · simp [hheads, hroot, hroot']
      · simp [hheads, hsigned, hsigned']
      · by_contra hne
        exact hnone ⟨r, root, hne, hr, hsigns⟩
    · exact ⟨root, root', hne, hsigns, hsigns'⟩

end

/-! ### One head spelled twice -/

/-- A pinned configuration, with a verifying key of 32 octets. -/
def gossipConfig : PublicConfig where
  cipherSuite := 1
  mode := deploymentModeContactMonitoring
  serverSigPk := zeros 32
  vrfPublicKey := []
  leafPublicKey := none
  auditorPublicKey := none
  auditorStartPos := 0
  maxAuditorLag := 0
  maxAhead := 0
  maxBehind := 0
  reasonableMonitoringWindow := 0
  maximumLifetime := none

/-- A root whose first octet has a letter in its spelling. -/
def gossipRoot : Octets := 171 :: zeros 31

/-- What the head of size 1 signs of the configuration and the size. -/
def gossipSigned : Octets :=
  [0, 1] ++ [1] ++ ([0, 32] ++ zeros 32) ++ [0, 0] ++ [0, 0] ++ zeros 8 ++ zeros 8 ++ zeros 8 ++
    [0] ++ beBytes 8 1

def gossipTreeHead : TreeHead where
  treeSize := 1
  timestamp := 0
  signatures := [⟨[], zeros 32 ++ (gossipSigned ++ gossipRoot)⟩]

/-- The encoding of the head: its size, and one signature of 138 octets. -/
def gossipTreeHeadBytes : Octets :=
  [8, 1, 26, 141, 1, 18, 138, 1] ++ (zeros 32 ++ (gossipSigned ++ gossipRoot))

def gossipFormat : GossipFormat where
  hexDecode text := okOr (hexDecode text) "Invalid hexadecimal text"
  decodeTreeHead bytes :=
    if bytes = gossipTreeHeadBytes then .ok gossipTreeHead else fail "failed to decode"

/-- The honest head of size 1, its root spelled in lower case and in upper case. -/
def respelledEvidence : ForkEvidence where
  treeSize := 1
  rootA := hexEncode false gossipRoot
  headA := hexEncode false gossipTreeHeadBytes
  rootB := hexEncode true gossipRoot
  headB := hexEncode false gossipTreeHeadBytes

theorem gossipConfig_tbs (root : Octets) : constructTreeHeadTbsPublic gossipConfig 1 root =
    treeHeadTbs (gossipSigned.take 66) 1 root := rfl

theorem gossipFormat_hexDecode (upper : Bool) {bytes : Octets} (hbytes : ∀ b ∈ bytes, b < 256) :
    gossipFormat.hexDecode (hexEncode upper bytes) = .ok bytes := by
  show okOr (hexDecode (hexEncode upper bytes)) _ = _
  rw [hexDecode_hexEncode upper hbytes, okOr_some]

theorem respelledEvidence_decodeHead : ∀ gossip ∈ respelledEvidence.heads,
    gossip.decodeHead gossipFormat = .ok gossipTreeHead := by
  have hdecode : gossipFormat.hexDecode (hexEncode false gossipTreeHeadBytes) =
      .ok gossipTreeHeadBytes := gossipFormat_hexDecode false (by decide +kernel)
  have hread : gossipFormat.decodeTreeHead gossipTreeHeadBytes = .ok gossipTreeHead := by
    simp only [gossipFormat, if_true]
  have hhead : ∀ size root, GossipHead.decodeHead gossipFormat
      ⟨size, root, hexEncode false gossipTreeHeadBytes⟩ = .ok gossipTreeHead := by
    intro size root
    rw [GossipHead.decodeHead, hdecode, Result.ok_bind, hread]
  intro gossip hmem
  rcases List.mem_cons.1 hmem with rfl | hmem
  · exact hhead _ _
  · rw [List.mem_singleton.1 hmem]
    exact hhead _ _

theorem respelledEvidence_respelled :
    respelledEvidence.Respelled Primitives.ideal gossipFormat gossipConfig gossipRoot := by
  have hroot : ∀ b ∈ gossipRoot, b < 256 := by decide
  have hspelled : ∀ gossip ∈ respelledEvidence.heads,
      gossipFormat.hexDecode gossip.rootHash = .ok gossipRoot := by
    intro gossip hmem
    rcases List.mem_cons.1 hmem with rfl | hmem
    · exact gossipFormat_hexDecode false hroot
    · rw [List.mem_singleton.1 hmem]
      exact gossipFormat_hexDecode true hroot
  have hsize : ∀ gossip ∈ respelledEvidence.heads, gossip.treeSize = 1 := by
    intro gossip hmem
    rcases List.mem_cons.1 hmem with rfl | hmem
    · rfl
    · rw [List.mem_singleton.1 hmem]
      rfl
  have hsigned : ∀ gossip ∈ respelledEvidence.heads, ∀ {root},
      gossip.SignedOver Primitives.ideal gossipFormat gossipConfig root ↔ root = gossipRoot := by
    intro gossip hmem root
    rw [GossipHead.SignedOver, respelledEvidence_decodeHead gossip hmem, hsize gossip hmem,
      gossipConfig_tbs]
    constructor
    · rintro ⟨head, sig, tbs, pk, hhead, -, hsig, htbs, hpk, hverified⟩
      obtain rfl := Except.ok.inj hhead
      obtain rfl := List.mem_singleton.1 hsig
      obtain rfl : zeros 32 = pk := Except.ok.inj hpk
      -- an ideal signature is the key and what is signed
      obtain hbytes : zeros 32 ++ (gossipSigned ++ gossipRoot) = zeros 32 ++ tbs :=
        ensure_eq_ok.1 hverified
      simp only [treeHeadTbs, Result.bind_eq_ok, Result.pure_eq, Except.ok.injEq] at htbs
      obtain ⟨-, -, rfl⟩ := htbs
      exact (List.append_cancel_left (List.append_cancel_left hbytes)).symm
    · rintro rfl
      exact ⟨gossipTreeHead, _, gossipSigned ++ gossipRoot, zeros 32, rfl, rfl,
        List.mem_singleton_self _, rfl, rfl, Primitives.ideal_verifyData _ _⟩
  refine ⟨by decide, hspelled, fun gossip hmem => (hsigned gossip hmem).2 rfl, ?_⟩
  rintro root ⟨gossip, hmem, hroot⟩
  exact (hsigned gossip hmem).1 hroot

/-- **One honest head is evidence of a fork**, when its root is spelled in two ways. -/
theorem respelledEvidence_not_sound :
    ¬ respelledEvidence.Sound Primitives.ideal gossipFormat gossipConfig :=
  respelledEvidence_respelled.not_sound

end KeyTransparency
