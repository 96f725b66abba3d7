/-
# Bootstrapping an auditor

An auditor may begin at an arbitrary size of the log: `bootstrap` adopts the operator's
current head.  The signature of the head ties the peaks to the log (`Adopts.peaks`).  The
prefix root and the timestamp come beside it, and nothing that is checked depends on them
(`Adopts.given`): they are those of the last entry if the operator sends those.
-/

import KeyTransparency.Client.AuditorRounds
import KeyTransparency.Client.Freshness
import KeyTransparency.Tree.Audit

namespace KeyTransparency

open MerkleLog

namespace KtAuditor

variable {P : Primitives} {a a' : KtAuditor} {resp : AuditBootstrapResponse} {size : ℕ}

/-- What `bootstrap` checks, and what it takes over. -/
theorem bootstrap_eq_ok : a.bootstrap P resp = .ok (size, a') ↔
    ∃ th acc root tbs serverPk sig, resp.treeHead = some th ∧
      LogAccumulator.fromPeaks th.treeSize resp.logPeaks = .ok acc ∧ acc.calculateRoot P = .ok root ∧
      constructTreeHeadTbsPublic a.config th.treeSize root = .ok tbs ∧
      serviceVerifyingKey P a.config.serverSigPk = .ok serverPk ∧ th.signatures.head? = some sig ∧
      P.verifyData serverPk tbs sig.signature = .ok () ∧ th.treeSize = size ∧
      { a with
        logAccumulator := acc, prefixRoot := resp.prefixRoot, lastTimestamp := resp.timestamp } = a' := by
  simp only [bootstrap, Result.bind_eq_ok, okOr_eq_ok, Result.context_eq_ok, Result.pure_eq,
    Except.ok.injEq, Prod.mk.injEq]
  constructor
  · rintro ⟨th, hth, acc, hacc, root, hroot, tbs, htbs, serverPk, hpk, sig, hsig, ⟨⟩, hverify, hsize,
      hsame⟩
    exact ⟨th, acc, root, tbs, serverPk, sig, hth, hacc, hroot, htbs, hpk, hsig, hverify, hsize, hsame⟩
  · rintro ⟨th, acc, root, tbs, serverPk, sig, hth, hacc, hroot, htbs, hpk, hsig, hverify, hsize, hsame⟩
    exact ⟨th, hth, acc, hacc, root, hroot, tbs, htbs, serverPk, hpk, sig, hsig, (), hverify, hsize,
      hsame⟩

/-- What an auditor has adopted. -/
structure Adopts (P : Primitives) (a : KtAuditor) (resp : AuditBootstrapResponse) (size : ℕ)
    (a' : KtAuditor) : Prop where
  /-- The operator has signed the adopted size with the root of the adopted peaks. -/
  signed : ∃ th sig serverPk root tbs, resp.treeHead = some th ∧ th.signatures.head? = some sig ∧
    th.treeSize = size ∧ a'.logAccumulator.treeSize = size ∧
    a'.logAccumulator.calculateRoot P = .ok root ∧
    constructTreeHeadTbsPublic a.config size root = .ok tbs ∧
    serviceVerifyingKey P a.config.serverSigPk = .ok serverPk ∧
    P.verifyData serverPk tbs sig.signature = .ok ()
  /-- The peaks are those of every log with that size and that root. -/
  peaks : (∀ v ∈ resp.logPeaks, v.length = 32) → ∀ leaves : List Octets, leaves.length = size →
    size ≤ 2 ^ 62 → (∀ l ∈ leaves, l.length = 32) →
    a'.logAccumulator.calculateRoot P = .ok (logRoot P leaves) → a'.logAccumulator.Summarises P leaves
  /-- No check reads the prefix root and the timestamp. -/
  given : ∀ prefixRoot timestamp,
    a.bootstrap P { resp with prefixRoot := prefixRoot, timestamp := timestamp } =
      .ok (size, { a' with prefixRoot := prefixRoot, lastTimestamp := timestamp })
  adopted : a'.prefixRoot = resp.prefixRoot ∧ a'.lastTimestamp = resp.timestamp
  /-- The auditor is at such a log exactly if the operator has sent the prefix root and the
  timestamp of its last entry; all calls that follow then go on from there. -/
  state : ∀ (leaves : List Octets) (timestamp : U64) (prefixRoot : Octets),
    a'.logAccumulator.Summarises P leaves → leaves.getLast? = some (logLeafValue P timestamp prefixRoot) →
    (a'.Consistent P leaves ↔ resp.timestamp = timestamp ∧ resp.prefixRoot = prefixRoot) ∧
    (a'.Consistent P leaves → ∀ a'', Relation.ReflTransGen (Call P) a' a'' →
      ∃ added, a''.Consistent P (leaves ++ added))

/-- **What bootstrapping ensures**: the peaks are those of the log that the operator has signed;
the prefix root and the timestamp are the operator's word. -/
theorem bootstrap_adopts (hP : Function.Injective P.sha256)
    (h : a.bootstrap P resp = .ok (size, a')) : Adopts P a resp size a' := by
  obtain ⟨th, acc, root, tbs, serverPk, sig, hth, hacc, hroot, htbs, hpk, hsig, hverify, rfl, rfl⟩ :=
    bootstrap_eq_ok.1 h
  have hsize : acc.treeSize = th.treeSize := by
    obtain ⟨-, -, hacc⟩ := Result.bind_eq_ok.1 hacc
    rw [← Except.ok.inj hacc]
  refine ⟨⟨th, sig, serverPk, root, tbs, hth, hsig, rfl, hsize, hroot, htbs, hpk, hverify⟩, ?_, ?_,
    ⟨rfl, rfl⟩, ?_⟩
  · intro hvalues leaves hlen hn hleaves hlog
    rw [← hlen] at hacc hn
    exact LogAccumulator.summarises_of_root hP hleaves hn hvalues hacc hlog
  · intro prefixRoot timestamp
    exact bootstrap_eq_ok.2 ⟨th, acc, root, tbs, serverPk, sig, hth, hacc, hroot, htbs, hpk, hsig,
      hverify, rfl, rfl⟩
  · intro leaves timestamp prefixRoot hlog hlast
    refine ⟨⟨fun hc => ?_, ?_⟩, fun hc a'' hcalls => hc.reached hcalls⟩
    · obtain ⟨hstamp, hpre⟩ := logLeafValue_inj hP timestamp.isLt resp.timestamp.isLt
        (hc.rightmost _ (Option.mem_def.2 hlast))
      exact ⟨Fin.ext hstamp.symm, hpre.symm⟩
    · rintro ⟨rfl, rfl⟩
      refine ⟨hlog, fun leaf hleaf => ?_, ?_⟩
      · exact (Option.some.inj (hlast.symm.trans hleaf)).symm
      · rintro rfl
        cases hlast

/-! ### A log of one entry -/

/-- The operator signs a log of one entry, and sends any prefix root and timestamp with it. -/
theorem exists_bootstrap (leaf : Octets) (hleaf : leaf.length = 32) (prefixRoot : Octets)
    (timestamp : U64) : ∃ th a',
    (new [] watchingConfig).bootstrap Primitives.ideal ⟨some th, [leaf], prefixRoot, timestamp⟩ =
      .ok (1, a') ∧
    a'.logAccumulator.Summarises Primitives.ideal [leaf] ∧ a'.prefixRoot = prefixRoot ∧
    a'.lastTimestamp = timestamp := by
  obtain ⟨bytes, hbytes⟩ : ∃ bytes, serializeConfigurationPublic watchingConfig = .ok bytes := ⟨_, rfl⟩
  obtain ⟨tbs, htbs⟩ : ∃ tbs, constructTreeHeadTbsPublic watchingConfig 1 leaf = .ok tbs := by
    rw [constructTreeHeadTbsPublic, hbytes, Result.ok_bind, treeHeadTbs, ensure_of hleaf]
    exact ⟨_, rfl⟩
  have hverify := Primitives.ideal_verifyData (Octets.zeros 32) tbs
  have hacc : LogAccumulator.fromPeaks 1 [leaf] = .ok ⟨1, [(0, leaf)]⟩ :=
    (LogAccumulator.fromPeaks_eq_ok (by decide)).2 ⟨rfl, rfl⟩
  exact ⟨⟨1, 0, [⟨[], Octets.zeros 32 ++ tbs⟩]⟩, _, bootstrap_eq_ok.2 ⟨_, ⟨1, [(0, leaf)]⟩, leaf, tbs,
    Octets.zeros 32, _, rfl, hacc, rfl, htbs, rfl, rfl, hverify, rfl, rfl⟩, ⟨rfl, rfl⟩, rfl, rfl⟩

/-- The prefix root and the timestamp of the only entry. -/
theorem bootstrap_adopts_one : ∃ (a : KtAuditor) (resp : AuditBootstrapResponse) (a' : KtAuditor),
    a.bootstrap Primitives.ideal resp = .ok (1, a') ∧ Adopts Primitives.ideal a resp 1 a' := by
  obtain ⟨th, a', h, -⟩ := exists_bootstrap (logLeafValue Primitives.ideal (5 : U64) (Octets.zeros 32))
    (length_logLeafValue _ _ _) (Octets.zeros 32) 5
  exact ⟨_, _, a', h, bootstrap_adopts Primitives.ideal_sha256_injective h⟩

/-- **A wrong prefix root is adopted**, with a wrong timestamp, beside the peaks of the log that
the operator has signed. -/
theorem bootstrap_unchecked : ∃ (a : KtAuditor) (resp : AuditBootstrapResponse) (a' : KtAuditor)
    (leaves : List Octets) (timestamp : U64) (prefixRoot : Octets),
    a.bootstrap Primitives.ideal resp = .ok (1, a') ∧ (∀ v ∈ resp.logPeaks, v.length = 32) ∧
      a'.logAccumulator.Summarises Primitives.ideal leaves ∧
      leaves.getLast? = some (logLeafValue Primitives.ideal timestamp prefixRoot) ∧
      prefixRoot.length = 32 ∧ a'.prefixRoot.length = 32 ∧
      a'.prefixRoot ≠ prefixRoot ∧ a'.lastTimestamp ≠ timestamp ∧
      ¬ a'.Consistent Primitives.ideal leaves := by
  obtain ⟨th, a', h, hlog, hroot, hstamp⟩ :=
    exists_bootstrap (logLeafValue Primitives.ideal (5 : U64) (Octets.zeros 32))
      (length_logLeafValue _ _ _) (List.replicate 32 1) 4
  refine ⟨_, _, a', _, 5, Octets.zeros 32, h, ?_, hlog, rfl, by simp, by rw [hroot]; rfl, ?_, ?_,
    fun hc => ?_⟩
  · intro v hv
    rw [List.mem_singleton.1 hv]
    exact length_logLeafValue _ _ _
  · rw [hroot]
    decide
  · rw [hstamp]
    decide
  · have hleaf := hc.rightmost _ rfl
    rw [hroot, hstamp] at hleaf
    have := (logLeafValue_inj Primitives.ideal_sha256_injective (5 : U64).isLt (4 : U64).isLt hleaf).1
    exact absurd this (by decide)

end KtAuditor

/-! ### Honest operators -/

/-- **An honest operator** sends those of the last entry: an auditor with its keys comes to where
replaying the log from the first entry on would have led it. -/
theorem KtAuditor.bootstrap_honest {P : Primitives} {t : Tree} {epochs : List Epoch} {a : KtAuditor}
    (run : ServerRun P t epochs) (hne : epochs ≠ []) (hconfig : a.config = { t.config.toPublic P with
      auditorPublicKey := (if t.config.mode = deploymentModeThirdPartyAuditing then
        t.config.auditorKeys.head? else none).or t.config.auditorPublicKey })
    {serverPk : Octets} (hpk : serviceVerifyingKey P a.config.serverSigPk = .ok serverPk)
    (hverify : ∀ data, P.verifyData serverPk data (P.signData t.config.sigKey data) = .ok ()) :
    ∃ resp a', t.auditBootstrap P = .ok resp ∧ a.bootstrap P resp = .ok (epochs.length, a') ∧
      Replayed P epochs a' ∧ a'.config = a.config ∧ a'.signer = a.signer := by
  obtain ⟨hs, -⟩ := run.sound
  have hpos := List.length_pos_iff.2 hne
  have hn := run.size_le
  obtain ⟨th, hth⟩ : ∃ th, t.latest = some th := by
    cases hlatest : t.latest with
    | some th => exact ⟨th, rfl⟩
    | none =>
      have := hs.size
      rw [Tree.treeSize, hlatest] at this
      change 0 = epochs.length at this
      omega
  obtain ⟨now, hsigned⟩ := run.headSigned th hth
  obtain ⟨tbs, htbs, hhead⟩ := Result.bind_eq_ok.1 hsigned
  obtain rfl := Except.ok.inj hhead
  have htbs' : constructTreeHeadTbsPublic a.config epochs.length (logRoot P (leavesOf P epochs)) =
      .ok tbs := by
    rw [constructTreeHeadTbsPublic, hconfig]
    exact htbs
  have hlen : (leavesOf P epochs).length = epochs.length := length_leavesOf epochs
  have hvalues : ((LogMath.getRoots epochs.length).mapM fun node =>
      LogTree.resolveNode P t.store 64 node epochs.length) =
      .ok ((MerkleLog.peaks epochs.length).map fun c =>
        value (logPar P) (leafAt (leavesOf P epochs)) epochs.length c.1 c.2) := by
    rw [LogMath.getRoots_eq hn, List.mapM_map]
    refine Result.mapM_eq_ok fun c hc => ?_
    have hle := (mem_peaksFrom hc).1
    have e : (c.2 + 1) * 2 ^ c.1 = c.2 * 2 ^ c.1 + 2 ^ c.1 := by ring
    have := Nat.two_pow_pos c.1
    have hlevel := (Nat.pow_le_pow_iff_right (by omega : 1 < 2)).1 (show 2 ^ c.1 ≤ 2 ^ 62 by omega)
    have hread := LogTree.resolveNode_node (P := P) hs.log le_rfl (show c.1 < 64 by omega) hlevel
      (show c.2 * 2 ^ c.1 < (leavesOf P epochs).length by omega)
    rw [LogTree.readBack_current, hlen] at hread
    exact hread
  have hlast : epochs.length - 1 < epochs.length := by omega
  have hroot := hs.root _ hlast
  rw [List.take_of_length_le (by omega)] at hroot
  have hget : t.auditBootstrap P = .ok ⟨some ⟨epochs.length, asI64 now,
      [⟨P.verifyingKey t.config.sigKey, P.signData t.config.sigKey tbs⟩]⟩,
      (MerkleLog.peaks epochs.length).map fun c =>
        value (logPar P) (leafAt (leavesOf P epochs)) epochs.length c.1 c.2,
      rootAfter P epochs, epochs[epochs.length - 1].timestamp⟩ := by
    rw [Tree.auditBootstrap, hth, okOr_some, Result.ok_bind]
    dsimp only
    rw [hvalues, Result.ok_bind, LogTree.getPrefixRoot, hroot, okOr_some, Result.ok_bind,
      LogTree.getTimestamp, hs.timestamp _ hlast, okOr_some, Result.ok_bind]
    rfl
  have hacc := @LogAccumulator.fromPeaks_peaks P (leafAt (leavesOf P epochs)) _ hn
  have hcalc := @LogAccumulator.calculateRoot_peaks P (leafAt (leavesOf P epochs)) _ hpos
  have hlog : logRoot P (leavesOf P epochs) =
      MerkleLog.root (logPar P) (leafAt (leavesOf P epochs)) epochs.length := by
    rw [logRoot_of_ne_nil (List.ne_nil_of_length_pos (by omega)), hlen]
  rw [← hlog] at hcalc
  obtain ⟨a', ha'⟩ : ∃ a' : KtAuditor, { a with
      logAccumulator := ⟨epochs.length, (MerkleLog.peaks epochs.length).map fun c =>
        (c.1, value (logPar P) (leafAt (leavesOf P epochs)) epochs.length c.1 c.2)⟩
      prefixRoot := rootAfter P epochs
      lastTimestamp := epochs[epochs.length - 1].timestamp } = a' := ⟨_, rfl⟩
  refine ⟨_, a', hget, KtAuditor.bootstrap_eq_ok.2 ⟨_, _, _, tbs, serverPk, _, rfl, hacc, hcalc, htbs', hpk,
    rfl, hverify tbs, rfl, ?_⟩, ⟨⟨?_, ?_⟩, ?_, fun e he => ?_, fun hnil => absurd hnil hne⟩, ?_, ?_⟩
  · dsimp only
    exact ha'
  · rw [← ha', hlen]
  · rw [← ha', hlen, peakSpine, if_neg hpos.ne', List.reverse_reverse]
  · rw [← ha']
  · rw [List.getLast?_eq_getElem?, List.getElem?_eq_getElem hlast] at he
    rw [← ha', ← Option.some.inj he]
  · rw [← ha']
  · rw [← ha']

end KeyTransparency
