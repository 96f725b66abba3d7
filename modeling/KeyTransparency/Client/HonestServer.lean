/-
# Honest servers

A server can commit any epochs of new versions for any labels: for every plan of
timestamps that do not decrease, with at least one label each, there is an honest run
that has committed it (`exists_honestLog`).  The head of a run is signed for its log, so
that a client with the server's keys takes it over
(`KtClient.verifyTreeHeadSignature_signHead`).
-/

import KeyTransparency.Client.HonestHead
import KeyTransparency.Client.LadderProof
import KeyTransparency.Client.SampleLog

namespace KeyTransparency

open BinaryLadder LogMath MerkleLog Octets

section

variable {P : Primitives} {config : PrivateConfig} {t : Tree} {epochs : List Epoch} {label : Octets}

/-! ### The log of a run -/

/-- **A run holds a log**, whatever its labels are: a log of the epochs, in which the
versions of no label are told apart. -/
theorem ServerRun.exists_log (run : ServerRun P t epochs)
    (hordered : epochs.Pairwise fun e e' => e.timestamp ≤ e'.timestamp) :
    ∃ L : LabelLog, t.ServesLog P L ∧ L.size = epochs.length ∧
      (∀ e, L.timestamp e = (epochs[e]?.map Epoch.timestamp).getD 0) ∧
      L.leaves P = leavesOf P epochs := by
  obtain ⟨hs, -⟩ := run.sound
  -- no key of the log is the empty string
  have hnone : ∀ e, commitmentsOf (insertionsOf (epochs.take (e + 1))) [] = none := fun e =>
    commitmentsOf_insertionsOf_none fun u hu hindex => by
      have hkey := hs.keys u (mem_updatesOf_of_take hu)
      rw [hindex] at hkey
      exact absurd hkey.1 (by simp [indexLength])
  let L : LabelLog := {
    size := epochs.length
    timestamp := fun e => (epochs[e]?.map Epoch.timestamp).getD 0
    contents := fun e => commitmentsOf (insertionsOf (epochs.take (e + 1)))
    greatest := fun _ => none
    key := fun _ => []
    vrfProof := fun _ => []
    commitment := fun _ => []
    ordered := fun {e e'} hle hlt => by
      rw [List.getElem?_eq_getElem hlt, List.getElem?_eq_getElem (by omega)]
      rcases Nat.lt_or_eq_of_le hle with hlt' | rfl
      · exact List.pairwise_iff_getElem.1 hordered e e' (by omega) hlt hlt'
      · exact le_rfl
    growing := fun _ _ hg => by cases hg
    lookup := fun {e v} _ _ => hnone e
    small := fun _ hg => by cases hg }
  have hleaves : L.leaves P = leavesOf P epochs := by
    refine List.map_congr_left fun i _ => ?_
    simp only [L, LabelLog.root, rootAfter]
    cases epochs[i]? <;> rfl
  refine ⟨L, ⟨hs.size, fun e he => ?_, fun e he => ?_, hleaves ▸ hs.log⟩, rfl, fun _ => rfl, hleaves⟩
  · rw [LogTree.getTimestamp, hs.timestamp e he, okOr_some]
    simp only [L, List.getElem?_eq_getElem he, Option.map_some, Option.getD_some]
  · rw [LogTree.getPrefixRoot, hs.root e he, okOr_some]
    rfl

/-! ### The head of a run -/

/-- **A client with the server's keys** accepts the heads that it signs. -/
theorem KtClient.verifyTreeHeadSignature_signHead {c : KtClient} {n : ℕ} {now : U64} {root : Octets}
    {th : TreeHead} (hconfig : c.config = { config.toPublic P with
      auditorPublicKey := (if config.mode = deploymentModeThirdPartyAuditing then
        config.auditorKeys.head? else none).or config.auditorPublicKey })
    (hverify : ∀ data, P.verifyData c.sigPk data (P.signData config.sigKey data) = .ok ())
    (h : Tree.signHead P config n now root = .ok th) :
    c.verifyTreeHeadSignature P th n root = .ok () := by
  obtain ⟨tbs, htbs, h⟩ := Result.bind_eq_ok.1 h
  obtain rfl := Except.ok.inj h
  have htbs' : constructTreeHeadTbsPublic c.config n root = .ok tbs := by
    rw [constructTreeHeadTbsPublic, hconfig]
    exact htbs
  simp only [KtClient.verifyTreeHeadSignature, ensure_of, htbs', Result.context_ok, Result.ok_bind,
    KtClient.verifyAnySignature, hverify, ne_eq, List.cons_ne_nil, not_false_eq_true]

/-! ### Committing a plan -/

/-- Updates that get the next versions of their labels. -/
theorem exists_assigned (hvrf : VrfWorks P config) (s : Store) : ∀ {labels : List Octets}
    (overlay : Octets → Option ℕ), (∀ l ∈ labels, l.length < 256) →
    ∃ updates, assigned s updates overlay = updates.map .ok ∧
      updates.map PreUpdateData.label = labels ∧ ∀ u ∈ updates, IsKey u.index ∧
        ∃ opening, Batcher.precompute P config opening ⟨u.label, u.value, u.last, u.version⟩ = .ok u
  | [], overlay, _ => ⟨[], rfl, rfl, fun u hu => by cases hu⟩
  | label :: labels, overlay, hshort => by
    obtain ⟨u, hu, hkey, rfl, hvalue, hlast, hversion, -⟩ := exists_precompute hvrf
      (hshort label List.mem_cons_self) (show ([] : Octets).length < 2 ^ 32 by simp) (length_zeros 16) 0
      (Tree.nextVersion (s.history label) (overlay label))
    obtain ⟨updates, hassigned, hlabels, hupdates⟩ := exists_assigned hvrf s
      (Function.update overlay u.label (some u.version)) fun l hl => hshort l (List.mem_cons_of_mem _ hl)
    refine ⟨u :: updates, ?_, by rw [List.map_cons, hlabels], fun u' hu' => ?_⟩
    · rw [assigned, if_neg (not_not.2 hversion), ← hversion, hassigned, List.map_cons]
    · rcases List.mem_cons.1 hu' with rfl | hu'
      · exact ⟨hkey, Octets.zeros 16, by rw [hvalue, hlast, hversion]; exact hu⟩
      · exact hupdates u' hu'

/-- **One more epoch**, with new versions of the given labels. -/
theorem HonestLog.exists_commit (h : HonestLog P t epochs) {now : U64}
    (hnow : ∀ e ∈ epochs, e.timestamp ≤ now) {labels : List Octets} (hne : labels ≠ [])
    (hshort : ∀ l ∈ labels, l.length < 256) (hsize : epochs.length + 1 ≤ 2 ^ 62)
    (hsmall : (updatesOf epochs).length + labels.length ≤ maxVersion) : ∃ t' updates,
      HonestLog P t' (epochs ++ [⟨now, updates⟩]) ∧ t'.config = t.config ∧ t'.auditors = t.auditors ∧
        updates.map PreUpdateData.label = labels ∧ ∃ th, t'.latest = some th ∧
          Tree.signHead P t.config (epochs.length + 1) now
            (logRoot P (leavesOf P (epochs ++ [⟨now, updates⟩]))) = .ok th := by
  obtain ⟨updates, hassigned, hlabels, hupdates⟩ :=
    exists_assigned h.vrf t.store (fun _ => none) hshort
  obtain ⟨th, t', found, -, run, hconfig, hauditors, hlatest, -, hsigned⟩ := h.run.afterBatch_eq hassigned
    (by rintro rfl; exact hne hlabels.symm) (fun u hu => (hupdates u hu).1) hsize
  have hlength : (updatesOf (epochs ++ [⟨now, updates⟩])).length =
      (updatesOf epochs).length + labels.length := by
    rw [updatesOf_append, List.length_append, ← hlabels, List.length_map]
  refine ⟨t', updates, ⟨h.append run hconfig (fun u hu => (hupdates u hu).2) fun u hu => ?_, ?_⟩, hconfig,
    hauditors, hlabels, th, hlatest, hsigned⟩
  · have hmem : u ∈ updatesOf (epochs ++ [⟨now, updates⟩]) := by
      rw [updatesOf_append]
      exact List.mem_append_right _ hu
    have hu' := List.mem_map_of_mem (f := PreUpdateData.version) (mem_labelUpdates.2 ⟨hmem, rfl⟩)
    rw [run.consecutive.labelVersions u.label, List.mem_range] at hu'
    have hle : (labelUpdates u.label (updatesOf (epochs ++ [⟨now, updates⟩]))).length ≤
        (updatesOf (epochs ++ [⟨now, updates⟩])).length := List.length_filter_le _ _
    omega
  · exact List.pairwise_append.2 ⟨h.ordered, List.pairwise_singleton _ _, fun e he e' he' => by
      rw [List.mem_singleton.1 he']
      exact hnow e he⟩

/-- What an epoch was planned as. -/
def Epoch.planned (e : Epoch) : U64 × List Octets := (e.timestamp, e.updates.map PreUpdateData.label)

theorem updatesOf_planned (epochs : List Epoch) :
    (updatesOf epochs).map PreUpdateData.label = (epochs.map Epoch.planned).flatMap Prod.snd := by
  rw [updatesOf, List.map_flatMap, List.flatMap_map]
  rfl

/-- The number of versions of a label in a log that was planned. -/
theorem versionCount_planned (epochs : List Epoch) (label : Octets) (e : ℕ) :
    versionCount epochs label e =
      (((epochs.map Epoch.planned).take (e + 1)).flatMap Prod.snd).count label := by
  rw [versionCount, labelUpdates, ← List.map_take, ← updatesOf_planned, List.count, List.countP_map,
    List.countP_eq_length_filter]
  congr 1
  refine List.filter_congr fun u _ => ?_
  by_cases hu : u.label = label <;> simp [hu]

/-- **For every plan there is a run.** -/
theorem exists_honestLog (hsign : Signs P config) (hvrf : VrfWorks P config)
    {plan : List (U64 × List Octets)} (hordered : plan.Pairwise fun p p' => p.1 ≤ p'.1)
    (hne : ∀ p ∈ plan, p.2 ≠ []) (hshort : ∀ p ∈ plan, ∀ l ∈ p.2, l.length < 256)
    (hsize : plan.length ≤ 2 ^ 62) (hsmall : (plan.flatMap Prod.snd).length ≤ maxVersion) :
    ∃ t epochs, HonestLog P t epochs ∧ t.config = config ∧ t.auditors = [] ∧
      epochs.map Epoch.planned = plan ∧ ∀ p, plan.getLast? = some p → ∃ th, t.latest = some th ∧
        Tree.signHead P config plan.length p.1 (logRoot P (leavesOf P epochs)) = .ok th := by
  induction plan using List.reverseRecOn with
  | nil =>
    exact ⟨emptyServer config, [], ⟨⟨.start config hsign, fun u hu => (by cases hu),
      fun u hu => (by cases hu), hvrf⟩, .nil⟩, rfl, rfl, rfl, fun p hp => (by cases hp)⟩
  | append_singleton plan p ih =>
    obtain ⟨hordered', -, hlater⟩ := List.pairwise_append.1 hordered
    rw [List.length_append, List.length_singleton] at hsize
    rw [List.flatMap_append, List.length_append, List.flatMap_singleton] at hsmall
    obtain ⟨t, epochs, h, hconfig, hauditors, rfl, -⟩ := ih hordered'
      (fun q hq => hne q (List.mem_append_left _ hq)) (fun q hq => hshort q (List.mem_append_left _ hq))
      (by omega) (by omega)
    have hmem : p ∈ epochs.map Epoch.planned ++ [p] := List.mem_append_right _ (List.mem_singleton_self p)
    have hcount : (updatesOf epochs).length = ((epochs.map Epoch.planned).flatMap Prod.snd).length := by
      rw [← updatesOf_planned, List.length_map]
    obtain ⟨t', updates, h', hconfig', hauditors', hlabels, th, hth, hsigned⟩ := h.exists_commit
      (fun e he => hlater _ (List.mem_map_of_mem he) p (List.mem_singleton_self p)) (hne p hmem)
      (hshort p hmem) (by rwa [List.length_map] at hsize) (by omega)
    refine ⟨t', _, h', hconfig'.trans hconfig, hauditors'.trans hauditors, by
      rw [List.map_append, List.map_singleton, Epoch.planned, hlabels], fun q hq => ⟨th, hth, ?_⟩⟩
    rw [List.getLast?_concat] at hq
    obtain rfl := Option.some.inj hq
    rw [List.length_append, List.length_map, List.length_singleton, ← hconfig]
    exact hsigned

end

/-! ### Sample servers -/

/-- The configuration of a server whose clients are the sample clients. -/
def sampleServerConfig (window : ℕ) : PrivateConfig where
  cipherSuite := 1
  mode := deploymentModeContactMonitoring
  sigKey := zeros 32
  vrfKey := []
  vrfPublicKey := []
  auditorKeys := []
  auditorPublicKey := none
  auditorStartPos := 0
  maxAuditorLag := 0
  maxAhead := 10
  maxBehind := 10
  reasonableMonitoringWindow := window
  maximumLifetime := none
  leafPublicKey := none

theorem vrfWorks_ideal (config : PrivateConfig) : VrfWorks Primitives.ideal config := fun input =>
  ⟨_, _, rfl, by
    change (ensure (input = input) _ >>= fun _ => Except.ok (Primitives.outputBytes input)) = _
    rw [ensure_of rfl]
    rfl⟩

theorem vrfProve_sample {config : PrivateConfig} {label : Octets} (hlabel : label.length < 256) (v : ℕ) :
    config.vrfProve Primitives.ideal label v =
      .ok (Primitives.outputBytes (beBytes 1 label.length ++ label ++ beBytes 4 v),
        beBytes 1 label.length ++ label ++ beBytes 4 v) := by
  simp only [PrivateConfig.vrfProve, constructVrfInput, ensure_of hlabel, Result.ok_bind, opaqueBytes,
    if_pos (show label.length < 256 ^ 1 by omega), Result.pure_eq]
  rfl

/-- The keys of the empty label are not those of another one. -/
theorem distinct_sample {t : Tree} {epochs : List Epoch} (h : HonestLog Primitives.ideal t epochs)
    (hlabels : ∀ u ∈ updatesOf epochs, u.label = [] ∨ u.label = [0]) :
    Distinct Primitives.ideal t.config epochs [] := by
  intro u hu v hv proof hprove
  rw [vrfProve_sample (by simp)] at hprove
  have hkey := (Prod.mk.inj (Except.ok.inj hprove)).1
  obtain ⟨hvrf, -⟩ := h.precomputed_eq hu
  rcases hlabels u hu with hlabel | hlabel
  · rw [hlabel, vrfProve_sample (by simp)] at hvrf
    have hkey' := (Prod.mk.inj (Except.ok.inj hvrf)).1
    exact ⟨hlabel, sampleKey_inj (h.small u hu) hv (hkey'.trans hkey.symm)⟩
  · rw [hlabel, vrfProve_sample (by simp)] at hvrf
    have hkey' := (Prod.mk.inj (Except.ok.inj hvrf)).1
    have hfirst := congrArg (List.take 1) (hkey'.trans hkey.symm)
    simp [Primitives.outputBytes, beBytes] at hfirst

theorem distinct_planned {t : Tree} {epochs : List Epoch} {plan : List (U64 × List Octets)}
    (h : HonestLog Primitives.ideal t epochs) (hplan : epochs.map Epoch.planned = plan)
    (hlabels : ∀ p ∈ plan, ∀ l ∈ p.2, l = [] ∨ l = [0]) : Distinct Primitives.ideal t.config epochs [] :=
  distinct_sample h fun u hu => by
    have hmem := List.mem_map_of_mem (f := PreUpdateData.label) hu
    rw [updatesOf_planned, hplan] at hmem
    obtain ⟨p, hp, hl⟩ := List.mem_flatMap.1 hmem
    exact hlabels p hp _ hl

/-- **A sample server has committed a plan**: it serves the versions of the empty label,
and a sample client accepts its head. -/
structure Tree.Commits (window : ℕ) (plan : List (U64 × List Octets)) (t : Tree) (L : LabelLog) : Prop where
  serves : t.Serves Primitives.ideal [] L
  config : t.config = sampleServerConfig window
  auditors : t.auditors = []
  size : L.size = plan.length
  timestamp : ∀ e, L.timestamp e = (plan[e]?.map Prod.fst).getD 0
  greatest : ∀ e, L.greatest e = lastVersion (((plan.take (e + 1)).flatMap Prod.snd).count [])
  key : L.key = sampleKey
  vrfProof : ∀ v, L.vrfProof v = beBytes 1 0 ++ beBytes 4 v
  head : ∀ p, plan.getLast? = some p → ∃ th, t.latest = some th ∧ th.timestamp = asI64 p.1 ∧
    (sampleClient window).verifyTreeHeadSignature Primitives.ideal th L.size
      (logRoot Primitives.ideal (L.leaves Primitives.ideal)) = .ok ()

/-- A log that a sample server has filled as planned. -/
theorem exists_plannedLog (window : ℕ) (plan : List (U64 × List Octets))
    (hordered : plan.Pairwise fun p p' => p.1 ≤ p'.1) (hne : ∀ p ∈ plan, p.2 ≠ [])
    (hlabels : ∀ p ∈ plan, ∀ l ∈ p.2, l = [] ∨ l = [0]) (hsize : plan.length ≤ 2 ^ 62)
    (hsmall : (plan.flatMap Prod.snd).length ≤ maxVersion) :
    ∃ t epochs, HonestLog Primitives.ideal t epochs ∧ t.config = sampleServerConfig window ∧
      t.auditors = [] ∧ epochs.map Epoch.planned = plan ∧ Distinct Primitives.ideal t.config epochs [] ∧
      ∀ p, plan.getLast? = some p → ∃ th, t.latest = some th ∧
        Tree.signHead Primitives.ideal (sampleServerConfig window) plan.length p.1
          (logRoot Primitives.ideal (leavesOf Primitives.ideal epochs)) = .ok th := by
  have hshort : ∀ p ∈ plan, ∀ l ∈ p.2, l.length < 256 := fun p hp l hl => by
    rcases hlabels p hp l hl with rfl | rfl <;> simp
  obtain ⟨t, epochs, h, hconfig, hauditors, hplan, hhead⟩ :=
    exists_honestLog (show Signs Primitives.ideal (sampleServerConfig window) from ⟨_, rfl⟩)
      (vrfWorks_ideal _) hordered hne hshort hsize hsmall
  exact ⟨t, epochs, h, hconfig, hauditors, hplan, distinct_planned h hplan hlabels, hhead⟩

/-- Nothing is deleted. -/
@[simp] theorem Tree.without_none (t : Tree) : t.without (fun _ => false) = t := by
  simp [Tree.without]

/-- **For every plan there is a sample server.** -/
theorem exists_sampleServer (window : ℕ) {plan : List (U64 × List Octets)}
    (hordered : plan.Pairwise fun p p' => p.1 ≤ p'.1) (hne : ∀ p ∈ plan, p.2 ≠ [])
    (hlabels : ∀ p ∈ plan, ∀ l ∈ p.2, l = [] ∨ l = [0]) (hsize : plan.length ≤ 2 ^ 62)
    (hsmall : (plan.flatMap Prod.snd).length ≤ maxVersion) :
    ∃ (t : Tree) (L : LabelLog), t.Commits window plan L := by
  obtain ⟨t, epochs, h, hconfig, hauditors, hplan, hdist, hhead⟩ :=
    exists_plannedLog window plan hordered hne hlabels hsize hsmall
  have hlabel : ([] : Octets).length < 256 := by simp
  have hserves := h.serves hlabel hdist fun _ => false
  rw [Tree.without_none] at hserves
  have hlen : epochs.length = plan.length := by rw [← hplan, List.length_map]
  have hvrfOf : ∀ v, vrfOf Primitives.ideal t.config [] v =
      (sampleKey v, beBytes 1 0 ++ beBytes 4 v) := fun v => by
    rw [vrfOf, vrfProve_sample hlabel]
    rfl
  refine ⟨t, _, hserves, hconfig, hauditors, hlen, fun e => ?_, fun e => ?_,
    funext fun v => congrArg Prod.fst (hvrfOf v), fun v => congrArg Prod.snd (hvrfOf v), fun p hp => ?_⟩
  · change (epochs[e]?.map Epoch.timestamp).getD 0 = _
    rw [← hplan, List.getElem?_map, Option.map_map]
    rfl
  · change lastVersion (versionCount epochs [] e) = _
    rw [versionCount_planned, hplan]
  · obtain ⟨th, hth, hsigned⟩ := hhead p hp
    have hleaves := h.leaves_eq hlabel hdist
    refine ⟨th, hth, ?_, ?_⟩
    · obtain ⟨tbs, -, h⟩ := Result.bind_eq_ok.1 hsigned
      exact (Except.ok.inj h) ▸ rfl
    · rw [hleaves]
      change (sampleClient window).verifyTreeHeadSignature Primitives.ideal th epochs.length _ = _
      rw [hlen]
      have hverify : ∀ data, Primitives.ideal.verifyData (sampleClient window).sigPk data
          (Primitives.ideal.signData (sampleServerConfig window).sigKey data) = .ok () := fun data =>
        ensure_of (show (zeros 32).take 33 ++ data = zeros 32 ++ data by
          rw [List.take_of_length_le (by simp)]) _
      exact KtClient.verifyTreeHeadSignature_signHead rfl hverify hsigned

end KeyTransparency
