/-
# What a client retains of a log

A client that has seen heads of one log only retains of a label what this log says: the
obligations are for versions that exist where they are recorded, and the VRF outputs and
commitments are those of the label's updates.  A search establishes this for the entry that
it ends at (`Accepted.search_shown`), and monitoring only moves obligations to the right
(`KtClient.verifyContactMonitor_entries`).
-/

import KeyTransparency.Client.ContactAgreement
import KeyTransparency.Client.SearchTruth

namespace KeyTransparency

open BinaryLadder LogMath MerkleLog

/-! ### Where obligations go -/

namespace KtClient

section

variable {P : Primitives} {env : Env} {c c' : KtClient} {label : Octets}
  {material : ℕ → Option (Octets × Option Octets)} {pos ver treeSize rmw : ℕ} {rightmostTs : U64}
  {Q : ℕ × ℕ → Prop}

/-- A climb leaves the obligations but its own, and ends at an entry of its list. -/
theorem climbLadders_entries {list : List ℕ} : ∀ {moved moved' : Option ℕ} {w w' : ContactWalk},
    (∀ e ∈ w.newMap.entries, Q e) → climbLadders P material pos ver list moved w = .ok (moved', w') →
    (∀ e ∈ w'.newMap.entries, Q e) ∧ ∀ newpos ∈ moved', newpos ∈ list ∨ newpos ∈ moved := by
  induction list with
  | nil =>
    intro moved moved' w w' hmap h
    obtain ⟨rfl, rfl⟩ := Prod.mk.inj (Except.ok.inj h)
    exact ⟨hmap, fun newpos hnew => .inr hnew⟩
  | cons entry list ih =>
    intro moved moved' w w' hmap h
    rw [climbLadders.eq_def] at h
    cases htarget : w.ladderTargets entry with
    | some t =>
      simp only [htarget, Result.bind_eq_ok] at h
      obtain ⟨-, -, h⟩ := h
      obtain ⟨rfl, rfl⟩ := Prod.mk.inj (Except.ok.inj h)
      exact ⟨OrderedMap.forall_erase hmap, fun newpos hnew => (by cases hnew)⟩
    | none =>
      simp only [htarget, Result.bind_eq_ok] at h
      obtain ⟨⟨ts, reader⟩, -, ⟨pp, reader'⟩, -, root, -, entryRoots, -, h⟩ := h
      have hkept : ∀ e ∈ ({ w with
          reader := reader', entryRoots := entryRoots
          ladderTargets := Function.update w.ladderTargets entry (some ver) } : ContactWalk).newMap.entries,
          Q e := hmap
      obtain ⟨hmap', hmoved⟩ := ih hkept h
      refine ⟨hmap', fun newpos hnew => .inl ?_⟩
      rcases hmoved newpos hnew with hmem | hself
      · exact List.mem_cons_of_mem _ hmem
      · exact List.mem_cons.2 (.inl (Option.some.inj hself).symm)

/-- **An obligation moves to the right**, or it is gone. -/
theorem replayObligation_entries (hn : treeSize < 2 ^ 64) {w w' : ContactWalk}
    (hmove : ∀ newpos, pos < newpos → newpos < treeSize → Q (newpos, ver))
    (hmap : ∀ e ∈ w.newMap.entries, Q e)
    (h : replayObligation P material treeSize rmw rightmostTs pos ver w = .ok w') :
    ∀ e ∈ w'.newMap.entries, Q e := by
  simp only [replayObligation, Result.bind_eq_ok] at h
  obtain ⟨a, -, h⟩ := h
  have hkept : ∀ e ∈ ({ w with reader := a.reader } : ContactWalk).newMap.entries, Q e := hmap
  split_ifs at h
  · obtain rfl := Except.ok.inj h
    exact OrderedMap.forall_erase hmap
  · simp only [Result.bind_eq_ok] at h
    obtain ⟨⟨moved, w₁⟩, hclimb, h⟩ := h
    obtain ⟨hmap₁, hmoved⟩ := climbLadders_entries hkept hclimb
    cases moved with
    | none =>
      obtain rfl := Except.ok.inj h
      exact hmap₁
    | some newpos =>
      have hmem : newpos ∈ contactList pos treeSize a.ancestorDist :=
        (hmoved newpos rfl).resolve_right fun hnone => by cases hnone
      have hright := (List.mem_filter.1 (List.mem_mergeSort.1 (List.mem_of_mem_take hmem))).2
      dsimp only at h
      split_ifs at h
      · obtain rfl := Except.ok.inj h
        exact OrderedMap.forall_erase hmap₁
      · obtain rfl := Except.ok.inj h
        exact OrderedMap.forall_insert (OrderedMap.forall_erase hmap₁)
          (hmove newpos (by simpa using hright) (contactList_lt hn hmem))

theorem replayObligations_entries (hn : treeSize < 2 ^ 64) {entries : List (ℕ × ℕ)}
    (hmove : ∀ e ∈ entries, ∀ newpos, e.1 < newpos → newpos < treeSize → Q (newpos, e.2)) :
    ∀ {w w' : ContactWalk}, (∀ e ∈ w.newMap.entries, Q e) →
      replayObligations P material treeSize rmw rightmostTs entries w = .ok w' →
      ∀ e ∈ w'.newMap.entries, Q e := by
  induction entries with
  | nil =>
    intro w w' hmap h
    obtain rfl := Except.ok.inj h
    exact hmap
  | cons entry entries ih =>
    intro w w' hmap h
    obtain ⟨w₁, h₁, h₂⟩ := Result.bind_eq_ok.1 h
    exact ih (fun e he => hmove e (List.mem_cons_of_mem _ he))
      (replayObligation_entries hn (hmove entry List.mem_cons_self) hmap h₁) h₂

/-- **What holds of a label's obligations, wherever they move inside the log**, holds of
them after contact monitoring; the material and the other labels are left alone. -/
theorem verifyContactMonitor_entries {map : OrderedMap ℕ} {resp : ContactMonitorResponse}
    {data : List LeafData} (hmap : ∀ e ∈ map.entries, Q e)
    (hmove : ∀ head ∈ c'.state, ∀ e ∈ map.entries, ∀ newpos, e.1 < newpos → newpos < head.treeSize →
      Q (newpos, e.2))
    (hsmall : ∀ head ∈ c'.state, head.treeSize < 2 ^ 64)
    (h : c.verifyContactMonitor P env label map resp = .ok (data, c')) :
    c'.versionMaterial = c.versionMaterial ∧ (∀ l, l ≠ label → c'.monitoringMap l = c.monitoringMap l) ∧
      ∀ e ∈ (c'.monitoringMap label).entries, Q e := by
  simp only [verifyContactMonitor, replayContactLadders, Result.bind_eq_ok] at h
  obtain ⟨fth, -, proof, -, ⟨n, ts, upd⟩, hhead, -, -, -, -, reader, -, ⟨_, reader'⟩, -, w,
    ⟨⟨rightmostTs, reader''⟩, -, hreplay⟩, ⟨data', captured, committed⟩, hfinish, h⟩ := h
  obtain ⟨-, rfl⟩ := Prod.mk.inj (Except.ok.inj h)
  obtain ⟨hmaterial, hmaps⟩ := finishAndCommit_keeps hfinish
  obtain ⟨-, inclusion, -, hcommit⟩ := finishAndCommit_eq_ok.1 hfinish
  obtain ⟨head, hstate, hsize, -⟩ := verifyHeadAndCommit_derived hhead hcommit
  have hstate' : head ∈ ({ committed with
    monitoringMap := Function.update committed.monitoringMap label w.newMap } : KtClient).state := hstate
  refine ⟨hmaterial, fun l hl => (Function.update_of_ne hl ..).trans (congrFun hmaps l), ?_⟩
  have hnew : ∀ e ∈ w.newMap.entries, Q e := by
    refine replayObligations_entries (hsize ▸ hsmall head hstate') (fun e he newpos hlt hnewlt => ?_)
      (fun e he => ?_) hreplay
    · exact hmove head hstate' e (List.mem_reverse.1 he) newpos hlt (hsize ▸ hnewlt)
    · exact hmap e he
  simpa using hnew

end

end KtClient

/-! ### What a client has retained -/

/-- The version that a search asks for or is answered with is one of 32 bits. -/
def Response.SmallVersions : Response → Prop
  | .search _ requested resp => ∀ v ∈ requested.or resp.version, v ≤ maxVersion
  | _ => True

/-- The head of a client, if it has one, is a head of the log. -/
def KtClient.HeadIn (P : Primitives) (c : KtClient) (leaves : List Octets) : Prop :=
  ∀ prev ∈ c.state, prev.treeSize ≤ leaves.length ∧ prev.rootHash = logRoot P (leaves.take prev.treeSize)

/-- **A step of a client that follows a log**: it accepts a response that meets a condition,
and is left with a head of the log. -/
def LogStep (P : Primitives) (leaves : List Octets) (Meets : KtClient → Response → Prop)
    (c c' : KtClient) : Prop := Step P Meets c c' ∧ c'.HeadIn P leaves

/-- **What a client has retained of a label is what the log says.** -/
structure KtClient.RetainsTrue (c : KtClient) (L : LabelLog) (label : Octets) : Prop where
  obligations : ∀ e ∈ (c.monitoringMap label).entries, e.1 < L.size ∧ L.present e.1 e.2 = true
  material : ∀ {v : ℕ} {m : Octets × Option Octets}, v ≤ maxVersion → c.versionMaterial label v = some m →
    (∃ e < L.size, L.present e v = true) ∧ m = (L.key v, some (L.commitment v))

section

variable {P : Primitives} {env : Env} {c c' : KtClient} {label : Octets} {L : LabelLog}

/-- The maps of the first entries of a log. -/
def LabelLog.mapsUpTo (L : LabelLog) (n : ℕ) : MapLog := ⟨n, L.timestamp, L.contents⟩

theorem LabelLog.leaves_mapsUpTo {n : ℕ} (hn : n ≤ L.size) :
    (L.mapsUpTo n).leaves P = (L.leaves P).take n := by
  have hrange : (List.range L.size).take n = List.range n := by
    rw [List.take_range, Nat.min_eq_left hn]
  rw [← LabelLog.leaves_maps, MapLog.leaves, MapLog.leaves, mapLeaves, mapLeaves, ← List.map_take]
  exact congrArg _ hrange.symm

/-- A head of the log has its first leaves behind it. -/
theorem KtClient.HeadIn.logOf (hn : L.size ≤ 2 ^ 62) (hin : c.HeadIn P (L.leaves P)) {head : TrustedState}
    (hstate : c.state = some head) : head.treeSize ≤ L.size ∧
      LogOf P head.treeSize head.rootHash ((L.mapsUpTo head.treeSize).leaves P) := by
  obtain ⟨hle, hroot⟩ := hin head hstate
  rw [L.length_leaves] at hle
  have hleaves := L.leaves_mapsUpTo (P := P) hle
  refine ⟨hle, ?_, by omega, fun l hl => ?_, by rw [hleaves, hroot]⟩
  · rw [MapLog.leaves, length_mapLeaves]
    rfl
  · obtain ⟨e, -, rfl⟩ := List.mem_map.1 hl
    exact length_logLeafValue P _ _

theorem KtClient.RetainsTrue.congr (h : c.RetainsTrue L label)
    (hmaterial : c'.versionMaterial label = c.versionMaterial label)
    (hmaps : c'.monitoringMap label = c.monitoringMap label) : c'.RetainsTrue L label :=
  ⟨fun e he => h.obligations e (hmaps ▸ he), fun hv hm => h.material hv (hmaterial ▸ hm)⟩

/-- A search leaves a head. -/
theorem Accepted.exists_head {requested : Option ℕ} {resp : SearchResponse} {data : List LeafData}
    (h : Accepted P env c (.search label requested resp) data c') : ∃ head, c'.state = some head := by
  rcases h.takenOver with ⟨fth, n, timestamp, updated, -, htaken⟩ | ⟨hnone, -, -⟩
  · obtain ⟨elements, extraWanted, captured, committed, hcommit, same⟩ := htaken.commit
    obtain ⟨head, hstate, -⟩ := KtClient.verifyHeadAndCommit_derived htaken.head hcommit
    exact ⟨head, same.state ▸ hstate⟩
  · cases h with
    | search h saved =>
      simp only [KtClient.verifySearch, Result.bind_eq_ok, okOr_eq_ok] at h
      obtain ⟨fth, hfth, -⟩ := h
      exact absurd (hfth.symm.trans hnone) (by simp)

/-- **A search of a label** leaves what the log says of it. -/
theorem KtClient.RetainsTrue.search (hP : Function.Injective P.sha256) (hZ : ∀ m, P.sha256 m ≠ zeroValue)
    (hn : L.size ≤ 2 ^ 62) (hkeys : c.KeysAre P label L.key) (hret : c.RetainsTrue L label)
    {requested : Option ℕ} {resp : SearchResponse} {data : List LeafData}
    (hversion : ∀ v ∈ requested.or resp.version, v ≤ maxVersion)
    (h : Accepted P env c (.search label requested resp) data c') (hin : c'.HeadIn P (L.leaves P)) :
    c'.RetainsTrue L label := by
  obtain ⟨head, hstate⟩ := h.exists_head
  obtain ⟨hle, hlog⟩ := hin.logOf hn hstate
  obtain ⟨v, c₁, rfl, hverify, hshown⟩ := h.search_shown hP hZ hkeys hversion hstate hlog
  obtain ⟨-, -, -, hmaterial, hmaps⟩ := KtClient.verifySearch_gathered hverify
  -- what the log holds for a version is the commitment of the version
  have hholds : ∀ {e w : ℕ} {comm : Octets}, e < head.treeSize → w ≤ maxVersion →
      L.contents e (L.key w) = some comm → L.present e w = true ∧ comm = L.commitment w := by
    intro e w comm he hw hcontents
    rw [LabelLog.contents_key (by omega) hw] at hcontents
    cases hpresent : L.present e w with
    | true =>
      rw [hpresent, if_pos rfl] at hcontents
      exact ⟨rfl, (Option.some.inj hcontents).symm⟩
    | false =>
      rw [hpresent, if_neg Bool.false_ne_true] at hcontents
      cases hcontents
  constructor
  · have hnew : v.terminal < L.size ∧ L.present v.terminal v.targetVersion = true := by
      obtain ⟨value, comm, -, -, hcontents⟩ := hshown.committed
      have hlt : v.terminal < head.treeSize := hshown.lt
      exact ⟨by omega, (hholds hlt (hversion _ hshown.version) hcontents).1⟩
    intro e he
    simp only [KtClient.retain, Function.update_self, hmaps] at he
    exact OrderedMap.forall_insert (Q := fun e => e.1 < L.size ∧ L.present e.1 e.2 = true)
      hret.obligations hnew e he
  · intro w m hw hm
    simp only [KtClient.retain, beq_self_eq_true, hmaterial] at hm
    cases hcomm : v.ladders.material w with
    | none =>
      rw [hcomm] at hm
      exact hret.material hw hm
    | some comm =>
      cases hout : v.ladders.vrfCache w with
      | none =>
        rw [hcomm, hout] at hm
        exact hret.material hw hm
      | some out =>
        rw [hcomm, hout] at hm
        obtain rfl := Option.some.inj hm
        obtain ⟨comm', rfl, e, he, hcontents⟩ := hshown.ladders.material hcomm
        obtain ⟨hpresent, rfl⟩ := hholds he hw hcontents
        have hlt : e < head.treeSize := he
        exact ⟨⟨e, by omega, hpresent⟩, by rw [(hshown.ladders.cache hout).1]⟩

/-- **One accepted response** leaves what the log says of a label. -/
theorem KtClient.RetainsTrue.accepted (hP : Function.Injective P.sha256) (hZ : ∀ m, P.sha256 m ≠ zeroValue)
    (hn : L.size ≤ 2 ^ 62) (hkeys : c.KeysAre P label L.key) (hret : c.RetainsTrue L label) {r : Response}
    {data : List LeafData} (hsmall : r.SmallVersions) (h : Accepted P env c r data c')
    (hin : c'.HeadIn P (L.leaves P)) : c'.RetainsTrue L label := by
  rcases KtClient.keeps_of_accepted h with ⟨l, requested, resp, v, c₁, rfl, hsearch, rfl⟩ |
    ⟨l, resp, rfl, hmonitor⟩ | ⟨hmaterial, hmaps⟩
  · by_cases hl : l = label
    · subst hl
      exact hret.search hP hZ hn hkeys hsmall h hin
    · obtain ⟨-, -, -, hmaterial, hmaps⟩ := KtClient.verifySearch_gathered hsearch
      refine hret.congr ?_ ?_
      · funext w
        simp [KtClient.retain, beq_eq_false_iff_ne.2 (Ne.symm hl), hmaterial]
      · simp [KtClient.retain, Function.update_of_ne (Ne.symm hl), hmaps]
  · have hbelow : ∀ head ∈ c'.state, head.treeSize ≤ L.size := fun head hhead =>
      (hin.logOf hn hhead).1
    by_cases hl : l = label
    · subst hl
      obtain ⟨hmaterial, -, hmap⟩ := KtClient.verifyContactMonitor_entries hret.obligations
        (fun head hhead e he newpos hlt hnew => by
          have := hbelow head hhead
          exact ⟨by omega, LabelLog.present_later (hret.obligations e he).2 hlt.le (by omega)⟩)
        (fun head hhead => by
          have := hbelow head hhead
          omega) hmonitor
      exact ⟨hmap, fun hv hm => hret.material hv (hmaterial ▸ hm)⟩
    · obtain ⟨hmaterial, hothers, -⟩ := KtClient.verifyContactMonitor_versions (G := fun _ => True)
        (fun _ _ => trivial) hmonitor
      exact hret.congr (congrFun hmaterial label) (hothers label (Ne.symm hl))
  · exact hret.congr (congrFun hmaterial label) (congrFun hmaps label)

end

/-! ### Runs -/

section

variable {P : Primitives} {config : PublicConfig} {server : PrivateConfig} {leaves : List Octets}
  {c₀ c : KtClient} {label : Octets} {L : LabelLog} {Meets : KtClient → Response → Prop}

/-- Along a run the keys of the server stay known. -/
theorem knows_of_run (hknows : c₀.Knows P server)
    (run : Relation.ReflTransGen (LogStep P leaves Meets) c₀ c) : c.Knows P server := by
  induction run with
  | refl => exact hknows
  | tail _ step ih =>
    obtain ⟨⟨env, r, data, -, h⟩, -⟩ := step
    exact h.knows ih

/-- **A client that follows a log** is one of its clients. -/
theorem clientOf_of_run (hc : KtClient.withChannel P config = .ok c₀) (hknows : c₀.Knows P server)
    (run : Relation.ReflTransGen (LogStep P leaves Meets) c₀ c) : c.ClientOf P server leaves := by
  constructor
  · refine ⟨config, c₀, hc, hknows, Relation.ReflTransGen.mono (fun a b step => ?_) _ _ run⟩
    obtain ⟨⟨env, r, data, -, h⟩, -⟩ := step
    exact ⟨env, r, data, trivial, h⟩
  · rcases run.cases_tail with rfl | ⟨b, -, -, hin⟩
    · intro prev hprev
      simp only [KtClient.withChannel, Result.bind_eq_ok] at hc
      obtain ⟨-, -, pk, -, hc⟩ := hc
      obtain rfl := Except.ok.inj hc
      cases hprev
    · exact hin

/-- The key of a log's server has one output for each input, whoever uses it. -/
theorem KtClient.VrfUnique.congr (h : c₀.VrfUnique P) (hc₀ : c₀.Knows P server) (hc : c.Knows P server) :
    c.VrfUnique P := by
  intro input proof proof' out out' hout hout'
  rw [hc.vrfPk, hc.config] at hout hout'
  refine @h input proof proof' _ _ ?_ ?_
  · rw [hc₀.vrfPk, hc₀.config]
    exact hout
  · rw [hc₀.vrfPk, hc₀.config]
    exact hout'

/-- A new client has retained nothing. -/
theorem KtClient.withChannel_retainsTrue (hc : KtClient.withChannel P config = .ok c₀) :
    c₀.RetainsTrue L label := by
  simp only [KtClient.withChannel, Result.bind_eq_ok] at hc
  obtain ⟨-, -, pk, -, hc⟩ := hc
  obtain rfl := Except.ok.inj hc
  exact ⟨fun e he => (by cases he), fun hv hm => (by cases hm)⟩

/-- **Along a run** a client retains of a label what the log says. -/
theorem retainsTrue_of_run {t : Tree} {epochs : List Epoch} (hP : Function.Injective P.sha256)
    (hZ : ∀ m, P.sha256 m ≠ zeroValue) (h : HonestLog P t epochs) (hlabel : label.length < 256)
    (hdist : Distinct P t.config epochs label) (hc : KtClient.withChannel P config = .ok c₀)
    (hknows : c₀.Knows P t.config) (hunique : c₀.VrfUnique P)
    (hsmall : ∀ c r, Meets c r → r.SmallVersions)
    (run : Relation.ReflTransGen (LogStep P (leavesOf P epochs) Meets) c₀ c) :
    c.RetainsTrue (h.labelLog hlabel hdist) label := by
  induction run with
  | refl => exact KtClient.withChannel_retainsTrue hc
  | @tail b c run step ih =>
    obtain ⟨⟨env, r, data, hmeets, haccepted⟩, hin⟩ := step
    have hb := knows_of_run hknows run
    have hkeys : b.KeysAre P label (h.labelLog hlabel hdist).key :=
      hb.keysAre (hunique.congr hknows hb) h hlabel hdist
    rw [← h.leaves_eq hlabel hdist] at hin
    exact ih.accepted hP hZ h.run.size_le hkeys (hsmall _ _ hmeets) haccepted hin

/-- Along a run of responses that cover their ladders every obligation stays covered. -/
theorem covered_of_logSteps (hc : KtClient.withChannel P config = .ok c₀)
    (hcovers : ∀ c r, Meets c r → r.CoversLadder c)
    (run : Relation.ReflTransGen (LogStep P leaves Meets) c₀ c) : c.Covered := by
  induction run with
  | refl => exact KtClient.withChannel_covered hc
  | tail _ step ih =>
    obtain ⟨⟨env, r, data, hmeets, h⟩, -⟩ := step
    exact ih.accepted (hcovers _ _ hmeets) h

/-- **Obligations that are covered can be replayed** over the log they are from. -/
theorem KtClient.RetainsTrue.replayable (hret : c.RetainsTrue L label)
    (hcovered : c.Covered) :
    L.Replayable (c.versionMaterial label) (c.monitoringMap label).entries := by
  intro e he
  obtain ⟨hlt, hpresent⟩ := hret.obligations e he
  have hver := LabelLog.le_of_present hlt hpresent
  refine ⟨hlt, hpresent, fun v hv => ?_⟩
  obtain ⟨out, comm, hm⟩ := hcovered label e he v hv
  obtain ⟨-, heq⟩ := hret.material ((le_of_mem_monitoringBinaryLadder hv).trans hver) hm
  rw [hm, heq]

end

/-! ### The request and its answer -/

/-- Obligations inside the log, in the order of their entries, are those of a valid request. -/
theorem Tree.validateMonitorEntries_eq_ok {n : ℕ} {entries : List (ℕ × ℕ)} (hlt : ∀ e ∈ entries, e.1 < n)
    (hsorted : entries.Pairwise fun a b => a.1 < b.1) : ∀ {prev : Option ℕ},
    (∀ p ∈ prev, ∀ e ∈ entries, p < e.1) →
    validateMonitorEntries n (entries.map fun e => ⟨e.1, e.2⟩) prev = .ok () := by
  induction entries with
  | nil => exact fun _ => rfl
  | cons e entries ih =>
    intro prev hprev
    obtain ⟨hhead, hrest⟩ := List.pairwise_cons.1 hsorted
    have hpos := hlt e List.mem_cons_self
    have hnot : ¬prev.any (e.1 ≤ ·) = true := by
      cases prev with
      | none => simp
      | some p =>
        have := hprev p rfl e List.mem_cons_self
        simpa using this
    rw [List.map_cons, validateMonitorEntries, if_neg (by simpa using hpos), if_neg hnot]
    refine ih (fun x hx => hlt x (List.mem_cons_of_mem _ hx)) hrest fun p hp x hx => ?_
    obtain rfl := Option.some.inj hp
    exact hhead x hx

/-- A single obligation has an outcome. -/
theorem LabelLog.replayed_single (L : LabelLog) (rmw : ℕ) (e : ℕ × ℕ) (map : OrderedMap ℕ) :
    (L.replayed rmw [e] (fun _ => none) map).isSome := by
  have hcovered : Climb.coveredBy (fun _ => none) (L.climbList rmw e.1) = none := by simp [Climb.coveredBy]
  unfold LabelLog.replayed
  split_ifs with hmem
  · rfl
  · dsimp only
    rw [hcovered]
    rfl

/-- A sample client has searched for a label, and has one obligation. -/
theorem exists_obliged_client : ∃ (t : Tree) (epochs : List Epoch) (_ : HonestLog Primitives.ideal t epochs)
    (c : KtClient) (e : ℕ × ℕ), Distinct Primitives.ideal t.config epochs [] ∧
      t.config = sampleServerConfig 15 ∧ t.auditors = [] ∧ (c.monitoringMap []).entries = [e] ∧
      Relation.ReflTransGen (LogStep Primitives.ideal (leavesOf Primitives.ideal epochs) fun c r =>
        r.CoversLadder c ∧ r.SmallVersions) (sampleClient 15) c := by
  obtain ⟨t, epochs, h, hdist, hconfig, hauditors, hsearch⟩ := exists_renewed_search
  obtain ⟨resp, data, c, head, hversion, haccepted, hc, -⟩ := hsearch _ (sampleClient_clientOf hconfig _)
  have run : Relation.ReflTransGen (LogStep Primitives.ideal (leavesOf Primitives.ideal epochs) fun c r =>
      r.CoversLadder c ∧ r.SmallVersions) (sampleClient 15) c :=
    .single ⟨⟨_, .search [] none resp, data, ⟨trivial, small_of_version hversion⟩, haccepted⟩, hc.head⟩
  cases haccepted with
  | @search _ _ _ v c₁ hverify saved =>
    obtain ⟨-, -, -, -, hmaps⟩ := KtClient.verifySearch_gathered hverify
    refine ⟨t, epochs, h, _, (v.terminal, v.targetVersion), hdist, hconfig, hauditors, ?_, run⟩
    simp only [KtClient.retain, Function.update_self, hmaps]
    rfl

/-! ### Main results -/

/-- **What a client retains over a run.**  A new client accepts any responses, from whomever,
and is left after each with a head of the log of an honest server.  Then every obligation
that it has for a label is for a version which an update brought by the entry of the
obligation, and what it has retained of a version is the VRF output and the commitment of
the version's update. -/
theorem retained_of_run {P : Primitives} (hP : Function.Injective P.sha256)
    (hZ : ∀ m, P.sha256 m ≠ zeroValue) {t : Tree} {epochs : List Epoch} {label : Octets}
    (h : HonestLog P t epochs) (hlabel : label.length < 256) (hdist : Distinct P t.config epochs label)
    {config : PublicConfig} {c₀ c : KtClient} (hc : KtClient.withChannel P config = .ok c₀)
    (hknows : c₀.Knows P t.config) (hunique : c₀.VrfUnique P)
    (run : Relation.ReflTransGen (LogStep P (leavesOf P epochs) fun _ r => r.SmallVersions) c₀ c) :
    (∀ e ∈ (c.monitoringMap label).entries, e.1 < epochs.length ∧
      ∃ u ∈ updatesOf (epochs.take (e.1 + 1)), u.label = label ∧ u.version = e.2) ∧
    ∀ v ≤ maxVersion, ∀ m ∈ c.versionMaterial label v,
      ∃ u ∈ updatesOf epochs, u.label = label ∧ u.version = v ∧ m = (u.index, some u.commitment) := by
  have hret := retainsTrue_of_run hP hZ h hlabel hdist hc hknows hunique (fun _ _ hr => hr) run
  -- a version that is there was brought by an update
  have hexists : ∀ {e v : ℕ}, (h.labelLog hlabel hdist).present e v = true →
      ∃ u ∈ updatesOf (epochs.take (e + 1)), u.label = label ∧ u.version = v := by
    intro e v hpresent
    have hany : (lastVersion (versionCount epochs label e)).any (v ≤ ·) = true := hpresent
    rw [lastVersion_any, decide_eq_true_eq] at hany
    exact h.run.consecutive.exists_version.2 hany
  constructor
  · intro e he
    obtain ⟨hlt, hpresent⟩ := hret.obligations e he
    exact ⟨hlt, hexists hpresent⟩
  · intro v hv m hm
    obtain ⟨⟨e, -, hpresent⟩, rfl⟩ := hret.material hv hm
    obtain ⟨u, hu, rfl, rfl⟩ := hexists hpresent
    have hu' := mem_updatesOf_of_take hu
    obtain ⟨hindex, hcommitment⟩ := h.update_eq hu'
    refine ⟨u, hu', rfl, rfl, ?_⟩
    rw [hindex, hcommitment]
    rfl

/-- What a client has retained after a search. -/
theorem retained_of_run_search : ∃ (t : Tree) (epochs : List Epoch) (c : KtClient),
    HonestLog Primitives.ideal t epochs ∧ (c.monitoringMap []).entries ≠ [] ∧
    (∀ e ∈ (c.monitoringMap []).entries, e.1 < epochs.length ∧
      ∃ u ∈ updatesOf (epochs.take (e.1 + 1)), u.label = [] ∧ u.version = e.2) ∧
    ∀ v ≤ maxVersion, ∀ m ∈ c.versionMaterial [] v,
      ∃ u ∈ updatesOf epochs, u.label = [] ∧ u.version = v ∧ m = (u.index, some u.commitment) := by
  obtain ⟨t, epochs, h, c, e, hdist, hconfig, -, hentries, run⟩ := exists_obliged_client
  have run' : Relation.ReflTransGen (LogStep Primitives.ideal (leavesOf Primitives.ideal epochs) fun _ r =>
      r.SmallVersions) (sampleClient 15) c := by
    refine Relation.ReflTransGen.mono (fun a b step => ?_) _ _ run
    obtain ⟨⟨env, r, data, hr, haccepted⟩, hin⟩ := step
    exact ⟨⟨env, r, data, hr.2, haccepted⟩, hin⟩
  exact ⟨t, epochs, c, h, by simp [hentries], retained_of_run Primitives.ideal_sha256_injective
    Primitives.ideal_sha256_ne_zeros h (by decide) hdist (withChannel_sampleClient 15)
    (hconfig ▸ sampleClient_knows 15) (sampleClient 15).vrfUnique_ideal run'⟩

/-- **When contact monitoring succeeds.**  A new client follows the log of an honest server,
and the ladders of the fixed versions that it searches for are covered.  Then the server
answers its request to monitor a label, and the client accepts this answer exactly when the
replay of its obligations over the log has an outcome; this outcome replaces them, and the
client goes on following the log. -/
theorem contact_monitor_accepted_iff {P : Primitives} (hP : Function.Injective P.sha256)
    (hZ : ∀ m, P.sha256 m ≠ zeroValue) {t : Tree} {epochs : List Epoch} {label : Octets}
    (h : HonestLog P t epochs) (hmode : t.config.mode = deploymentModeContactMonitoring)
    (hauditors : t.auditors = []) (hlabel : label.length < 256) (hdist : Distinct P t.config epochs label)
    {config : PublicConfig} {c₀ c : KtClient} (hc : KtClient.withChannel P config = .ok c₀)
    (hknows : c₀.Knows P t.config) (hunique : c₀.VrfUnique P)
    (run : Relation.ReflTransGen (LogStep P (leavesOf P epochs) fun c r => r.CoversLadder c ∧ r.SmallVersions)
      c₀ c) {env : Env} (hclock : c.checkTimestampBounds env (c.headTimestamp t) = .ok ())
    {req : ContactMonitorRequest} (hreq : c.contactMonitorRequest label = .ok req) :
    ∃ resp, t.contactMonitor P req = .ok resp ∧
      ((∃ data c', Accepted P env c (.contactMonitor label resp) data c') ↔
        ((h.labelLog hlabel hdist).replayed t.config.reasonableMonitoringWindow
          (c.monitoringMap label).entries.reverse (fun _ => none) (c.monitoringMap label)).isSome) ∧
      ∀ data c', Accepted P env c (.contactMonitor label resp) data c' →
        (h.labelLog hlabel hdist).replayed t.config.reasonableMonitoringWindow
          (c.monitoringMap label).entries.reverse (fun _ => none) (c.monitoringMap label) =
            some (c'.monitoringMap label) ∧
        LogStep P (leavesOf P epochs) (fun c r => r.CoversLadder c ∧ r.SmallVersions) c c' := by
  have hn := h.run.size_le
  have hret := retainsTrue_of_run hP hZ h hlabel hdist hc hknows hunique (fun _ _ hr => hr.2) run
  have hreplayable := hret.replayable (covered_of_logSteps hc (fun _ _ hr => hr.1) run)
  have hclient := clientOf_of_run hc hknows run
  simp only [KtClient.contactMonitorRequest, Result.bind_eq_ok, ensure_eq_ok] at hreq
  obtain ⟨-, hne, hreq⟩ := hreq
  obtain rfl := Except.ok.inj hreq
  obtain ⟨entry, hentry⟩ := List.exists_mem_of_ne_nil _ hne
  have hlt : ∀ e ∈ (c.monitoringMap label).entries, e.1 < epochs.length := fun e he => (hreplayable e he).1
  have h₀ : 0 < epochs.length := (Nat.zero_le _).trans_lt (hlt entry hentry)
  have hs := h.serves hlabel hdist fun _ => false
  rw [Tree.without_none] at hs
  have hmode' : t.config.mode ≠ deploymentModeThirdPartyAuditing := by rw [hmode]; decide
  have hmeets := hclient.meets hP h hauditors hmode' hlabel hdist h₀ hclock
  have hconfig : c.config.mode ≠ deploymentModeThirdPartyAuditing := by
    rw [hclient.knows.config]
    exact hmode'
  have hwindow : c.config.reasonableMonitoringWindow = t.config.reasonableMonitoringWindow := by
    rw [hclient.knows.config]
    rfl
  have hleaves := h.leaves_eq hlabel hdist
  have hlen := (h.labelLog hlabel hdist).length_leaves P
  -- the server's answer
  obtain ⟨climbs, hclimbs⟩ := (h.labelLog hlabel hdist).exists_climbs hn (fun _ => none)
    fun e (he : e ∈ (c.monitoringMap label).entries.reverse) => hlt e (List.mem_reverse.1 he)
  obtain ⟨proof, htraverse, ht⟩ := Tree.traverseContactMonitoring_honest hs hauditors h₀ hn hmeets.known rfl
    hclimbs fun e he => LabelLog.le_of_present (hreplayable e he).1 (hreplayable e he).2.1
  obtain ⟨hreplayed, hrefused⟩ := KtClient.verifyContactMonitor_replayed hmeets hconfig hs.size h₀ hn hwindow
    hclimbs ht hreplayable
  refine ⟨⟨some (t.getFullTreeHead (c.state.map TrustedState.treeSize)), some proof⟩, ?_, ?_, ?_⟩
  · have hmonitored : t.monitoredTreeSize = .ok epochs.length := by
      rw [Tree.monitoredTreeSize, if_neg (show ¬t.treeSize = 0 from hs.size.trans_ne h₀.ne')]
      exact congrArg _ hs.size
    have hlast : Tree.traverseContactMonitoring P t epochs.length label
      ((c.monitoringMap label).entries.map fun e => ⟨e.1, e.2⟩)
      ((c.state.map TrustedState.treeSize).getD 0) = _ := htraverse
    have hvalid := Tree.validateMonitorEntries_eq_ok hlt (c.monitoringMap label).sorted
      fun p (hp : p ∈ (none : Option ℕ)) => (by cases hp)
    rw [Tree.contactMonitor, hmonitored, Result.ok_bind]
    dsimp only
    rw [hvalid, Result.ok_bind, hlast]
    rfl
  · constructor
    · rintro ⟨data, c', haccepted⟩
      cases haccepted with
      | contactMonitor h' =>
        by_contra hnone
        exact hrefused (by simpa using hnone) _ h'
    · intro hsome
      obtain ⟨map, hmap⟩ := Option.isSome_iff_exists.1 hsome
      obtain ⟨data, c', hverified, -⟩ := hreplayed map hmap
      exact ⟨data, c', .contactMonitor hverified⟩
  · intro data c' haccepted
    have haccepted' := haccepted
    cases haccepted with
    | contactMonitor h' =>
      cases houtcome : (h.labelLog hlabel hdist).replayed t.config.reasonableMonitoringWindow
          (c.monitoringMap label).entries.reverse (fun _ => none) (c.monitoringMap label) with
      | none => exact absurd h' (hrefused houtcome _)
      | some map =>
        obtain ⟨data', c'', hverified, hmonitored⟩ := hreplayed map houtcome
        obtain ⟨rfl, rfl⟩ := Prod.mk.inj (Except.ok.inj (hverified.symm.trans h'))
        obtain ⟨head, hstate, hsize, hroot⟩ := hmonitored.head
        refine ⟨by rw [hmonitored.monitoringMap, Function.update_self],
          ⟨env, .contactMonitor label _, _, ⟨trivial, trivial⟩, haccepted'⟩, fun prev hprev => ?_⟩
        obtain rfl : head = prev := Option.some.inj (hstate.symm.trans hprev)
        rw [hleaves] at hroot hlen
        exact ⟨(hsize.trans hlen.symm).le, by rw [hroot, hsize, ← hlen, List.take_length]⟩

/-- A client monitors the version that it has found. -/
theorem contact_monitor_accepted_search : ∃ (t : Tree) (c c' : KtClient) (req : ContactMonitorRequest)
    (resp : ContactMonitorResponse) (data : List LeafData), c.contactMonitorRequest [] = .ok req ∧
      t.contactMonitor Primitives.ideal req = .ok resp ∧
      Accepted Primitives.ideal ⟨none, fun _ => .ok ()⟩ c (.contactMonitor [] resp) data c' := by
  obtain ⟨t, epochs, h, c, e, hdist, hconfig, hauditors, hentries, run⟩ := exists_obliged_client
  obtain ⟨req, hreq⟩ : ∃ req, c.contactMonitorRequest [] = .ok req := by
    unfold KtClient.contactMonitorRequest
    dsimp only
    rw [ensure_of (by simp [hentries]), Result.ok_bind]
    exact ⟨_, rfl⟩
  obtain ⟨resp, hresp, hiff, -⟩ := contact_monitor_accepted_iff Primitives.ideal_sha256_injective
    Primitives.ideal_sha256_ne_zeros h (by rw [hconfig]; rfl) hauditors (by decide) hdist
    (withChannel_sampleClient 15) (hconfig ▸ sampleClient_knows 15) (sampleClient 15).vrfUnique_ideal run
    (c.checkTimestampBounds_clockless _) hreq
  rw [hentries] at hiff
  obtain ⟨data, c', haccepted⟩ := hiff.2 (LabelLog.replayed_single _ _ e _)
  exact ⟨t, c, c', req, resp, data, hreq, hresp, haccepted⟩

end KeyTransparency
