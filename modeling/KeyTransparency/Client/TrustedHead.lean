/-
# What a trusted head stands for

A client whose reconstruction ends at the root of a log has read the leaves of that
log, and the values it captured on the way are those of its nodes, wherever they came
from (`LogVerifier.captured_eq`).  So what it keeps of an accepted head is exact
(`retained_exact`), and a signature of the auditor that it accepts is over the root of
the log's own beginning (`auditor_head_sound`).
-/

import KeyTransparency.Client.Freshness
import KeyTransparency.Client.HonestHead
import KeyTransparency.Client.Reads

namespace KeyTransparency

open InOrder LogMath MerkleLog LogVerifier

section

variable {P : Primitives} {leaves : List Octets} {a n : ℕ}

/-! ### Captured values -/

/-- The leaves of a log: as many as its size says, each a digest. -/
structure LogOf (P : Primitives) (n : ℕ) (root : Octets) (leaves : List Octets) : Prop where
  size : leaves.length = n
  small : n ≤ 2 ^ 62
  digest : ∀ l ∈ leaves, l.length = 32
  root_eq : root = logRoot P leaves

/-- The leaves that an operation hashes from what it has read. -/
def leafHashes (P : Primitives) (data : List LeafData) : List Octets :=
  data.map fun d => logLeafValue P d.2.1 d.2.2

theorem length_leafHashes {data : List LeafData} : ∀ v ∈ leafHashes P data, v.length = 32 := by
  intro v hv
  obtain ⟨d, -, rfl⟩ := List.mem_map.1 hv
  exact length_logLeafValue P _ _

theorem ReadsLog.positions_lt {data : List LeafData} (hdata : ReadsLog n data) :
    ∀ p ∈ data.map Prod.fst, p < n := by
  intro p hp
  obtain ⟨d, hd, rfl⟩ := List.mem_map.1 hp
  exact hdata.below d hd

/-- **What was captured has its value in the log.** -/
theorem LogVerifier.captured_eq (hP : Function.Injective P.sha256) {root : Octets}
    (hlog : LogOf P n root leaves) (h₀ : 0 < n) {data : List LeafData} (hdata : ReadsLog n data)
    {elements : List Octets} {retained captured : NodeMap} {wanted : List ℕ}
    (h : calculateRootCapturing P (data.map Prod.fst) (leafHashes P data) n elements retained
      wanted = .ok (root, captured)) :
    captured = capturedValues P leaves (data.map Prod.fst) wanted := by
  obtain ⟨rfl, hn, hdigest, rfl⟩ := hlog
  exact calculateRootCapturing_captured hP hn (List.length_pos_iff.1 h₀) hdigest
    (by simp [leafHashes]) hdata.positions_lt length_leafHashes h

/-- The hash that was given for an entry. -/
theorem givenAt_leafHashes {data : List LeafData} (hdata : data.Pairwise fun a b => a.1 < b.1)
    {d : LeafData} (hd : d ∈ data) :
    givenAt ((data.map Prod.fst).zip (leafHashes P data)) d.1 =
      some (logLeafValue P d.2.1 d.2.2) := by
  rw [leafHashes, List.zip_map', givenAt]
  induction data with
  | nil => simp at hd
  | cons e data ih =>
    obtain ⟨he, hdata⟩ := List.pairwise_cons.1 hdata
    rw [List.map_cons, List.lookup_cons]
    rcases List.mem_cons.1 hd with rfl | hd
    · simp
    · have hne : (d.1 == e.1) = false := beq_eq_false_iff_ne.2 (he d hd).ne'
      simp only [hne]
      exact ih hdata hd

/-- **What was read is what the log's leaves hash.** -/
theorem LogVerifier.leafAt_eq (hP : Function.Injective P.sha256) {root : Octets}
    (hlog : LogOf P n root leaves) (h₀ : 0 < n) {data : List LeafData} (hdata : ReadsLog n data)
    (hpair : data.Pairwise fun a b => a.1 < b.1) {elements : List Octets}
    {retained captured : NodeMap} {wanted : List ℕ}
    (h : calculateRootCapturing P (data.map Prod.fst) (leafHashes P data) n elements retained
      wanted = .ok (root, captured)) {d : LeafData} (hd : d ∈ data) :
    leafAt leaves d.1 = logLeafValue P d.2.1 d.2.2 := by
  obtain ⟨rfl, hn, hdigest, rfl⟩ := hlog
  exact calculateRootCapturing_given hP hn (List.length_pos_iff.1 h₀) hdigest
    (by simp [leafHashes]) hdata.positions_lt length_leafHashes h (givenAt_leafHashes hpair hd)

/-- The peaks that were captured have the values of the smaller log. -/
theorem mapM_capturedValues {visited wanted : List ℕ} (ha : a ≤ leaves.length)
    (hn : leaves.length ≤ 2 ^ 62) {values : List Octets}
    (h : (getRoots a).mapM (capturedValues P leaves visited wanted) = some values) :
    values = (peaks a).map fun c => value (logPar P) (leafAt leaves) a c.1 c.2 := by
  rw [getRoots_eq (by omega), List.mapM_map] at h
  have hcap : ∀ c ∈ peaks a, ∀ v, capturedValues P leaves visited wanted (node c.1 c.2) = some v →
      v = value (logPar P) (leafAt leaves) a c.1 c.2 := fun c hc v hv => by
    rw [capturedValues, capture_map] at hv
    split_ifs at hv
    rw [← Option.some.inj hv]
    exact value_of_complete ((mem_peaksFrom hc).1.trans ha) (mem_peaksFrom hc).1
  generalize peaks a = cs at h hcap
  induction cs generalizing values with
  | nil => simpa using h.symm
  | cons c cs ih =>
    simp only [List.mapM_cons, Option.bind_eq_bind, Option.bind_eq_some_iff] at h
    obtain ⟨v, hv, vs, hvs, h⟩ := h
    obtain rfl := Option.some.inj h
    rw [List.map_cons, ← hcap c List.mem_cons_self v hv,
      ih hvs fun c hc => hcap c (List.mem_cons_of_mem _ hc)]

/-- The root of the peaks of a beginning of a log. -/
theorem accumulatorFromPeaks_take (ha : a ≤ leaves.length) (hn : leaves.length ≤ 2 ^ 62) :
    LogAccumulator.accumulatorFromPeaks P a
      ((peaks a).map fun c => value (logPar P) (leafAt leaves) a c.1 c.2) =
        .ok (logRoot P (leaves.take a)) := by
  rcases Nat.eq_zero_or_pos a with rfl | h₀
  · rfl
  · rw [LogAccumulator.accumulatorFromPeaks_peaks h₀ (by omega), LogTree.logRoot_take h₀ ha]
    rfl

/-- **The root at the auditor's size** is that of the log's beginning, if it was
derived at all. -/
theorem auditorRoot_eq_ok {visited wanted : List ℕ} (ha : a ≤ leaves.length)
    (hn : leaves.length ≤ 2 ^ 62) {root : Octets}
    (h : KtClient.auditorRoot P a leaves.length (logRoot P leaves)
      (capturedValues P leaves visited wanted) = .ok root) : root = logRoot P (leaves.take a) := by
  rw [KtClient.auditorRoot] at h
  split_ifs at h with he
  · rw [← Except.ok.inj h, he, List.take_length]
  · obtain ⟨values, hvalues, h⟩ := Result.bind_eq_ok.1 h
    rw [mapM_capturedValues ha hn (okOr_eq_ok.1 hvalues), accumulatorFromPeaks_take ha hn] at h
    exact (Except.ok.inj h).symm

end

/-! ### The auditor's head -/

/-- What an auditor signs determines the root. -/
theorem constructAuditorTreeHeadTbsPublic_inj {c : PublicConfig} {size size' : ℕ} {ts ts' : U64}
    {root root' tbs : Octets} (h : constructAuditorTreeHeadTbsPublic c size ts root = .ok tbs)
    (h' : constructAuditorTreeHeadTbsPublic c size' ts' root' = .ok tbs) : root = root' := by
  simp only [constructAuditorTreeHeadTbsPublic, auditorTreeHeadTbs, Result.bind_eq_ok,
    ensure_eq_ok] at h h'
  obtain ⟨config, -, -, hlen, h⟩ := h
  obtain ⟨config', -, -, hlen', h'⟩ := h'
  exact (List.append_inj' ((Except.ok.inj h).trans (Except.ok.inj h').symm)
    (hlen.trans hlen'.symm)).2

section

variable {P : Primitives} {env : Env} {c c' : KtClient} {r : Response} {data : List LeafData}
  {fth : FullTreeHead}

/-- The auditor has signed the given size and root, as the client is told so. -/
structure AuditorSigned (P : Primitives) (config : PublicConfig) (ath : AuditorTreeHead)
    (root : Octets) : Prop where
  signature : ∃ tbs apkBytes apk,
    constructAuditorTreeHeadTbsPublic config ath.treeSize (asU64 ath.timestamp) root = .ok tbs ∧
    config.auditorPublicKey = some apkBytes ∧ serviceVerifyingKey P apkBytes = .ok apk ∧
    P.verifyData apk tbs ath.signature = .ok ()

theorem KtClient.verifyAuditorTreeHead_signed {th : TreeHead} {n : ℕ} {root : Octets}
    {captured : NodeMap} {auditor : ℕ × U64}
    (h : c.verifyAuditorTreeHead P fth th n root captured = .ok auditor) :
    ∃ ath auditorRoot, fth.auditorTreeHead = some ath ∧ ath.treeSize ≤ th.treeSize ∧
      auditor = (ath.treeSize, asU64 ath.timestamp) ∧
      KtClient.auditorRoot P ath.treeSize n root captured = .ok auditorRoot ∧
      AuditorSigned P c.config ath auditorRoot := by
  simp only [verifyAuditorTreeHead, Result.bind_eq_ok, Result.context_eq_ok, okOr_eq_ok,
    ensure_eq_ok] at h
  obtain ⟨ath, hath, -, -, -, -, -, -, -, hsize, root', hroot, tbs, htbs, bytes, hbytes, apk, hapk, ⟨⟩,
    hverify, h⟩ := h
  exact ⟨ath, root', hath, hsize, (Except.ok.inj h).symm, hroot, ⟨tbs, bytes, apk, htbs, hbytes,
    hapk, hverify⟩⟩

/-- **Soundness of the auditor's head.**  In third-party-auditing mode, when a client
takes over an updated head whose root is that of some log, its auditor has signed, for
the size it reports, the root of the beginning of that log, and of no other one. -/
theorem Accepted.auditor_head_sound (hP : Function.Injective P.sha256)
    (h : Accepted P env c r data c') (hfth : r.fullTreeHead = some fth)
    (hupd : fth.headType = .updated) (hmode : c.config.mode = deploymentModeThirdPartyAuditing)
    {head : TrustedState} (hstate : c'.state = some head) {leaves : List Octets}
    (hlog : LogOf P head.treeSize head.rootHash leaves) :
    ∃ ath, fth.auditorTreeHead = some ath ∧ ath.treeSize ≤ head.treeSize ∧
      c'.auditorHead = some (ath.treeSize, asU64 ath.timestamp) ∧
      AuditorSigned P c.config ath (logRoot P (leaves.take ath.treeSize)) ∧
      ∀ tbs root, constructAuditorTreeHeadTbsPublic c.config ath.treeSize (asU64 ath.timestamp)
          (logRoot P (leaves.take ath.treeSize)) = .ok tbs →
        constructAuditorTreeHeadTbsPublic c.config ath.treeSize (asU64 ath.timestamp) root =
          .ok tbs → root = logRoot P (leaves.take ath.treeSize) := by
  obtain ⟨fth', n, timestamp, updated, hfth', htaken⟩ :=
    h.takenOver.resolve_right fun hnone => by simp [hnone.1] at hfth
  obtain rfl : fth' = fth := Option.some.inj (hfth'.symm.trans hfth)
  obtain ⟨th, hth, rfl, rfl, rfl, -⟩ := KtClient.treeSizeForFth_updated htaken.head hupd
  obtain ⟨elements, extraWanted, captured, committed, hcommit, same⟩ := htaken.commit
  obtain ⟨th', root, hth', hroot, -, hcommitted, -, haud⟩ :=
    KtClient.verifyHeadAndCommit_updated_eq_ok hcommit
  obtain rfl : th' = th := Option.some.inj (hth'.symm.trans hth)
  obtain ⟨auditor, hauditor, heq⟩ := haud hmode
  obtain rfl := Option.some.inj ((same.state ▸ hcommitted).symm.trans hstate)
  have hdata := h.reads hfth htaken.head hlog.small
  rw [LogVerifier.captured_eq hP hlog (Nat.pos_of_ne_zero htaken.nonempty) hdata hroot] at hauditor
  obtain ⟨ath, auditorRoot, hath, hsize, rfl, hderived, hsigned⟩ :=
    KtClient.verifyAuditorTreeHead_signed hauditor
  obtain ⟨hlen, hn, hdigest, rfl⟩ := hlog
  dsimp only at hlen hn
  rw [← hlen] at hderived hsize hn
  obtain rfl := auditorRoot_eq_ok hsize hn hderived
  exact ⟨ath, hath, hlen ▸ hsize, same.auditorHead ▸ heq, hsigned, fun tbs root htbs htbs' =>
    constructAuditorTreeHeadTbsPublic_inj htbs' htbs⟩

end

/-- The configuration of a log whose auditor may be ten milliseconds late. -/
def laggingConfig : PublicConfig :=
  { watchingConfig with
    mode := deploymentModeThirdPartyAuditing
    auditorPublicKey := some (Octets.zeros 32)
    maxAuditorLag := 10 }

/-- A new client takes over the head of a log of two entries of which the auditor has
seen the first. -/
theorem auditor_head_sound_two : ∃ (c c' : KtClient) (ath : AuditorTreeHead) (leaves : List Octets),
    leaves.length = 2 ∧ ath.treeSize = 1 ∧ c'.auditorHead = some (1, asU64 ath.timestamp) ∧
      AuditorSigned Primitives.ideal c.config ath (logRoot Primitives.ideal (leaves.take 1)) := by
  let leaf := logLeafValue Primitives.ideal (100 : U64) (Octets.zeros 32)
  let leaves := [leaf, leaf]
  have hdigest : ∀ l ∈ leaves, l.length = 32 := by simp [leaves, leaf]
  obtain ⟨c, hc, hconfig, hstate, hret, haud⟩ : ∃ c : KtClient,
      KtClient.withChannel Primitives.ideal laggingConfig = .ok c ∧ c.config = laggingConfig ∧
        c.state = none ∧ RetainsPeaks Primitives.ideal c.retainedSubtrees leaves 0 ∧
          c.auditorHead = none :=
    ⟨_, rfl, rfl, rfl, retainsPeaks_zero _ _, rfl⟩
  have hconfigured : ∃ bytes, serializeConfigurationPublic c.config = .ok bytes := by
    rw [hconfig]
    exact ⟨_, rfl⟩
  obtain ⟨sigs, hsigs⟩ := KtClient.exists_signature hconfigured 2
    (length_logRoot (P := Primitives.ideal) hdigest)
  have hfirst : (logRoot Primitives.ideal (leaves.take 1)).length = 32 :=
    length_logRoot fun l hl => hdigest l (List.mem_of_mem_take hl)
  obtain ⟨tbs, htbs⟩ : ∃ tbs, constructAuditorTreeHeadTbsPublic c.config 1 100
      (logRoot Primitives.ideal (leaves.take 1)) = .ok tbs := by
    obtain ⟨bytes, hbytes⟩ := hconfigured
    exact ⟨_, by
      rw [constructAuditorTreeHeadTbsPublic, hbytes, Result.ok_bind, auditorTreeHeadTbs,
        ensure_of hfirst]
      rfl⟩
  let ath : AuditorTreeHead := ⟨1, 100, Octets.zeros 32 ++ tbs⟩
  let fth : FullTreeHead := ⟨.updated, some ⟨2, asI64 100, sigs⟩, some ath⟩
  have horder : HeadsInOrder Primitives.ideal c ⟨2, asI64 100, sigs⟩
      ⟨1, 100, Octets.zeros 32 ++ tbs, [], []⟩ leaves :=
    { size := rfl
      serverSigned := hsigs _
      started := by simp [haud]
      notAhead := show (asU64 100).val ≤ (asU64 (asI64 100)).val by decide
      recent := by
        rw [hconfig]
        exact show (asU64 (asI64 100)).val - (asU64 100).val ≤ 10 by decide
      auditorSigned := ⟨tbs, Octets.zeros 32, Octets.zeros 32, htbs, by rw [hconfig]; rfl, rfl,
        ensure_of rfl _⟩ }
  have hboundary : BoundaryVisited [1] 1 := by decide
  have hwanted : ∀ id ∈ getRoots 1, id ∈ c.wantedNodes fth 2 [] := by
    intro id hid
    rw [KtClient.wantedNodes, hconfig]
    exact List.mem_append_right _ hid
  have hlt : ∀ p ∈ [1], p < leaves.length := by simp [leaves]
  have hroot := calculateRootCapturing_neededValues (P := Primitives.ideal)
    (show leaves.length ≤ 2 ^ 62 by simp [leaves]) (by simp [leaves]) hlt (Nat.zero_le _) hret
    (c.wantedNodes fth 2 [])
  have hath : fth.auditorTreeHead = some ⟨1, 100, Octets.zeros 32 ++ tbs⟩ := rfl
  have haud := KtClient.verifyAuditorTreeHead_eq_ok horder (by simp [leaves]) hath
    (auditorRoot_capturedValues hboundary (by omega) (by simp [leaves]) (by simp [leaves])
      fun _ => hwanted)
  have hcommit := @KtClient.verifyHeadAndCommit_updated _ _ _ _ _ _ _ _ _ _ _ _ (some 100)
    (by rw [hconfig]; rfl) hroot rfl (hsigs _) haud
  have hverified := KtClient.verifyDistinguished_last (by decide) (by decide)
    (by rw [hconfig]; rfl) (by simp [hstate]) rfl rfl hcommit
  obtain ⟨ath', hath', -, hhead, hsigned, -⟩ := (Accepted.distinguished hverified).auditor_head_sound
    Primitives.ideal_sha256_injective rfl rfl (by rw [hconfig]; rfl) rfl
    ⟨rfl, by decide, hdigest, rfl⟩
  obtain rfl := Option.some.inj hath'
  exact ⟨c, _, ath, leaves, rfl, rfl, hhead, hsigned⟩

end KeyTransparency
