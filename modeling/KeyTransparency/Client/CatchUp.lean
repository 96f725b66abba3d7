/-
# The loop of an update

`update` of `src/client/core.rs` against a server that nobody else updates
(`updateAnswers`).  Each answer that has values brings the client to the last version of
one more log entry, and after the last such entry the client adds its own
(`WrittenLog.updateAttempts_answers`).
-/

import KeyTransparency.Client.HonestServer
import KeyTransparency.Client.Operations
import KeyTransparency.Tree.UpdateRound

namespace KeyTransparency

open Batcher BinaryLadder Values ClientM

/-! ### The model -/

namespace ClientMemory

/-- The request of an attempt. -/
def updateRequest (self : ClientMemory) (user value : Octets) : UpdateRequest :=
  ⟨self.state.map TrustedState.treeSize, user, self.labelVersions.lookup user, [⟨value⟩]⟩

/-- The version after the greatest one that the client knows. -/
def nextVersion (self : ClientMemory) (user : Octets) : ℕ :=
  (self.labelVersions.lookup user).elim 0 (· + 1)

/-- The greatest version is recorded. -/
def withVersion (self : ClientMemory) (user : Octets) (version : ℕ) : ClientMemory :=
  { self with labelVersions := self.labelVersions.insert user version }

end ClientMemory

section

variable (P : Primitives)

/-- The answers to the attempts of an updater, when it is the only one, and the server
afterwards.  The server reads its clock and draws an opening in each round. -/
def updateAnswers (user value : Octets) (rounds : ℕ → U64 × Octets) :
    ℕ → ClientMemory → Tree → List UpdateResponse × Tree
  | 0, _, t => ([], t)
  | attempts + 1, self, t =>
    match t.serveUpdate P (some (rounds attempts).1) (rounds attempts).2 (self.updateRequest user value) with
    | (.error _, t') => ([], t')
    | (.ok resp, t') =>
      if resp.values = [] then ([resp], t')
      else
        let rest := updateAnswers user value rounds attempts
          (self.withVersion user (self.nextVersion user + resp.values.length - 1)) t'
        (resp :: rest.1, rest.2)

end

/-- The entries that brought versions of a label, from one on. -/
def laterEntries (epochs : List Epoch) (label : Octets) (start : ℕ) : List ℕ :=
  (List.range epochs.length).filter fun e => broughtFrom epochs label start e ≠ []

/-! ### What the client checks -/

section

variable {P : Primitives} {t : Tree} {epochs : List Epoch} {label : Octets} {start e : ℕ}

/-- **A client with the server's keys** accepts what it is told of updates. -/
theorem WrittenLog.verifyUpdate_ok (h : WrittenLog P t epochs) {c : KtClient}
    (hsuite : c.config.cipherSuite = t.config.cipherSuite) (hkey : c.vrfPk = t.config.vrfPublicKey) :
    ∀ {us : List PreUpdateData} {start : ℕ}, (∀ u ∈ us, u ∈ updatesOf epochs ∧ u.label = label) →
      us.map PreUpdateData.version = List.range' start us.length →
      c.verifyUpdateLadder P label start (us.map fun u => ⟨u.vrfProof, none⟩) = .ok () ∧
        KtClient.verifyUpdateInfo P label start
          ((us.map fun u => (⟨u.opening, none⟩ : UpdateInfo)).zip (us.map PreUpdateData.value)) = .ok ()
  | [], _, _, _ => ⟨rfl, rfl⟩
  | u :: us, start, hmem, hversions => by
    rw [List.map_cons, List.length_cons, List.range'_succ] at hversions
    obtain ⟨hversion, hversions⟩ := List.cons.inj hversions
    obtain ⟨hu, hlabel⟩ := hmem u List.mem_cons_self
    obtain ⟨hprove, hcommit⟩ := h.precomputed_eq hu
    rw [hlabel, hversion] at hprove hcommit
    obtain ⟨ih₁, ih₂⟩ := h.verifyUpdate_ok hsuite hkey
      (fun u' hu' => hmem u' (List.mem_cons_of_mem _ hu')) hversions
    have hshort : label.length < 256 := by
      obtain ⟨input, hinput, -⟩ := Result.bind_eq_ok.1 hprove
      obtain ⟨⟨⟩, hlabel, -⟩ := Result.bind_eq_ok.1 hinput
      exact ensure_eq_ok.1 hlabel
    obtain ⟨hproof, -, input, hinput, hverify⟩ := vrfProve_eq h.vrf hshort start
    rw [hprove] at hproof
    have hproof : u.vrfProof = (vrfOf P t.config label start).2 := congrArg Prod.snd (Except.ok.inj hproof)
    constructor
    · rw [List.map_cons, KtClient.verifyUpdateLadder, hinput, Result.context_ok, Result.ok_bind, hsuite,
        hkey, hproof, hverify, Result.context_ok, Result.ok_bind, ensure_of rfl, Result.ok_bind, ih₁]
    · rw [List.map_cons, List.map_cons, List.zip_cons_cons, KtClient.verifyUpdateInfo, hcommit,
        Result.context_ok, Result.ok_bind, ih₂]

/-- The client accepts an answer that tells of updates. -/
theorem WrittenLog.verifyUpdateResponse_ok (h : WrittenLog P t epochs) {c : KtClient}
    (hsuite : c.config.cipherSuite = t.config.cipherSuite) (hkey : c.vrfPk = t.config.vrfPublicKey)
    {us : List PreUpdateData} (hmem : ∀ u ∈ us, u ∈ updatesOf epochs ∧ u.label = label)
    (hversions : us.map PreUpdateData.version = List.range' start us.length) (hne : us ≠ [])
    {greatest : Option ℕ} (hstart : greatest.elim 0 (· + 1) = start) {sent : List Octets}
    {resp : UpdateResponse} {fth : FullTreeHead} {th : TreeHead} {proof : CombinedTreeProof}
    (hfth : resp.fullTreeHead = some fth) (hth : fth.treeHead = some th) (hposition : resp.position < th.treeSize)
    (hvalues : (if resp.values = [] then sent else resp.values.map LabelValue.value) =
      us.map PreUpdateData.value)
    (hinfo : resp.info = us.map fun u => ⟨u.opening, none⟩)
    (hladder : resp.binaryLadder = us.map fun u => ⟨u.vrfProof, none⟩)
    (hproof : resp.update = some proof) (hproofs : proof.prefixProofs ≠ []) :
    c.verifyUpdateResponse P label greatest sent resp = .ok () := by
  obtain ⟨hsteps, hcommits⟩ := h.verifyUpdate_ok hsuite hkey hmem hversions
  rw [KtClient.verifyUpdateResponse, hproof, hfth, okOr_some, Result.ok_bind, okOr_some, Result.ok_bind,
    hth, okOr_some, Result.ok_bind]
  dsimp only
  rw [hvalues, hinfo, hladder, hstart, hsteps, hcommits,
    ensure_of (show th.treeSize ≠ 0 by omega), Result.ok_bind, ensure_of hposition, Result.ok_bind,
    ensure_of (by simpa using hne), Result.ok_bind, ensure_of (by simp), Result.ok_bind,
    ensure_of (by simp), Result.ok_bind, Result.ok_bind, Result.ok_bind, ensure_of hproofs]

end

/-! ### The entries of a label -/

section

variable {epochs : List Epoch} {label : Octets} {start e : ℕ}

/-- Which entries brought versions from one on. -/
theorem Consecutive.broughtFrom_ne_nil (h : Consecutive epochs) :
    broughtFrom epochs label start e ≠ [] ↔
      versionsBefore epochs label e < versionCount epochs label e ∧ start < versionCount epochs label e := by
  have hcount : versionCount epochs label e = versionsBefore epochs label e +
      (labelUpdates label ((epochs[e]?.map Epoch.updates).getD [])).length := by
    rw [versionCount, updatesOf_take_succ, labelUpdates_append, List.length_append, versionsBefore]
  constructor
  · intro hne
    obtain ⟨u, hu⟩ := List.exists_mem_of_ne_nil _ hne
    obtain ⟨hu, hle⟩ := List.mem_filter.1 hu
    have hlt := List.length_pos_of_mem hu
    obtain ⟨hmem, hlabel⟩ := List.mem_filter.1 hu
    have hversion : u.version < versionCount epochs label e := h.exists_version.1
      ⟨u, by rw [updatesOf_take_succ]; exact List.mem_append_right _ hmem, by simpa using hlabel, rfl⟩
    have hle : start ≤ u.version := by simpa using hle
    omega
  · rintro ⟨hlt, hstart⟩
    obtain ⟨u, hu, rfl, hversion⟩ := h.exists_version.2
      (show versionCount epochs label e - 1 < versionCount epochs label e by omega)
    rw [updatesOf_take_succ] at hu
    rcases List.mem_append.1 hu with hu | hu
    · have := h.lt_versionsBefore hu
      omega
    · exact List.ne_nil_of_mem (List.mem_filter.2 ⟨List.mem_filter.2 ⟨hu, by simp⟩, by simp; omega⟩)

theorem laterEntries_eq (h : Consecutive epochs) (he : e < epochs.length)
    (hbefore : versionsBefore epochs label e ≤ start) (hcount : start < versionCount epochs label e) :
    laterEntries epochs label start = e :: laterEntries epochs label (versionCount epochs label e) := by
  obtain ⟨rest, hrest⟩ := Nat.exists_eq_add_of_lt he
  have hsplit : List.range epochs.length = List.range e ++ e :: List.range' (e + 1) rest := by
    rw [hrest, List.range_eq_range', List.range_eq_range', show e + rest + 1 = e + (rest + 1) by omega,
      ← List.range'_append_1, List.range'_succ, Nat.zero_add]
  have hearlier : ∀ e' < e, versionCount epochs label e' ≤ versionsBefore epochs label e := fun e' he' =>
    versionsBefore_mono (show e' + 1 ≤ e by omega)
  have hlater : ∀ e' ∈ List.range' (e + 1) rest,
      versionCount epochs label e ≤ versionsBefore epochs label e' := fun e' he' =>
    versionsBefore_mono (List.mem_range'_1.1 he').1
  have hfirst : ∀ start', versionsBefore epochs label e ≤ start' →
      (List.range e).filter (fun e' => decide (broughtFrom epochs label start' e' ≠ [])) = [] := by
    intro start' hle
    refine List.filter_eq_nil_iff.2 fun e' he' => ?_
    have := hearlier e' (List.mem_range.1 he')
    rw [decide_eq_true_eq, h.broughtFrom_ne_nil]
    omega
  have hself : broughtFrom epochs label start e ≠ [] := h.broughtFrom_ne_nil.2 ⟨by omega, hcount⟩
  have hself' : ¬ broughtFrom epochs label (versionCount epochs label e) e ≠ [] := by
    rw [h.broughtFrom_ne_nil]
    omega
  have hrest' : (List.range' (e + 1) rest).filter (fun e' => decide (broughtFrom epochs label start e' ≠ [])) =
      (List.range' (e + 1) rest).filter
        (fun e' => decide (broughtFrom epochs label (versionCount epochs label e) e' ≠ [])) := by
    refine List.filter_congr fun e' he' => ?_
    have := hlater e' he'
    rw [decide_eq_decide, h.broughtFrom_ne_nil, h.broughtFrom_ne_nil]
    omega
  rw [laterEntries, laterEntries, hsplit, List.filter_append, List.filter_append, hfirst start hbefore,
    hfirst _ (by omega), List.nil_append, List.nil_append, List.filter_cons, List.filter_cons,
    if_pos (by simpa using hself), if_neg (by simpa using hself'), hrest']

theorem versionCount_le (he : e < epochs.length) :
    versionCount epochs label e ≤ (labelUpdates label (updatesOf epochs)).length := by
  have hmono : versionsBefore epochs label (e + 1) ≤ versionsBefore epochs label epochs.length :=
    versionsBefore_mono he
  rw [versionsBefore, versionsBefore, List.take_length] at hmono
  exact hmono

theorem laterEntries_nil (h : Consecutive epochs)
    (hstart : (labelUpdates label (updatesOf epochs)).length ≤ start) : laterEntries epochs label start = [] := by
  refine List.filter_eq_nil_iff.2 fun e he => ?_
  have hle : versionCount epochs label e ≤ (labelUpdates label (updatesOf epochs)).length :=
    versionCount_le (List.mem_range.1 he)
  rw [decide_eq_true_eq, h.broughtFrom_ne_nil]
  omega

end

/-! ### The loop -/

section

variable {P : Primitives} {t : Tree} {epochs : List Epoch} {Text : Type} {host : Host Text}
  {user value : Octets} {rounds : ℕ → U64 × Octets}

/-- The client after an attempt that found the entry `e`. -/
theorem ClientMemory.withVersion_withVersion (self : ClientMemory) (user : Octets) (v v' : ℕ) :
    (self.withVersion user v).withVersion user v' = self.withVersion user v' := by
  simp [withVersion, Finmap.insert_insert]

theorem ClientMemory.nextVersion_withVersion (self : ClientMemory) (user : Octets) (v : ℕ) :
    (self.withVersion user v).nextVersion user = v + 1 := by
  simp [withVersion, nextVersion, Finmap.lookup_insert]

theorem WrittenLog.exists_head (h : WrittenLog P t epochs) (hpos : 0 < epochs.length) :
    ∃ th, (t.getFullTreeHead none).treeHead = some th ∧ th.treeSize = epochs.length := by
  have hsize := h.run.sound.1.size
  rw [Tree.getFullTreeHead, if_neg (by rw [Option.getD_none]; omega)]
  rw [Tree.treeSize] at hsize
  cases hhead : t.latest with
  | none =>
    rw [hhead] at hsize
    simp at hsize
    omega
  | some th =>
    rw [hhead] at hsize
    exact ⟨th, rfl, by simpa using hsize⟩

/-- **An attempt that is behind**: the client accepts the answer, which brings it to the last
version of an entry. -/
theorem WrittenLog.attempt_stale (h : WrittenLog P t epochs) {self : ClientMemory} (value : Octets)
    (now : U64) (opening : Octets)
    (hsuite : self.config.cipherSuite = t.config.cipherSuite) (hkey : self.vrfPk = t.config.vrfPublicKey)
    (hstale : self.nextVersion user < (t.store.history user).length) :
    ∃ e resp, t.serveUpdate P (some now) opening (self.updateRequest user value) = (.ok resp, t) ∧
      resp.position = e ∧ e < epochs.length ∧ versionsBefore epochs user e ≤ self.nextVersion user ∧
      self.nextVersion user < versionCount epochs user e ∧ resp.values ≠ [] ∧
      self.nextVersion user + resp.values.length = versionCount epochs user e ∧
      self.view.verifyUpdateResponse P user (self.labelVersions.lookup user) [value] resp = .ok () := by
  have hview : (self.updateRequest user value).greatestVersion.elim 0 (· + 1) = self.nextVersion user := rfl
  obtain ⟨e, proof, he, hbefore, hlast, hproofs, hcatch⟩ := h.catchUpUpdate_eq _ hview hstale
  have hserve := h.serveUpdate_stale now opening hview hstale
  rw [hcatch] at hserve
  replace hbefore : versionsBefore epochs user e ≤ self.nextVersion user := hbefore
  replace hlast : self.nextVersion user < versionCount epochs user e := hlast
  obtain ⟨heq, hversions⟩ := h.run.consecutive.broughtFrom_eq hbefore
  have hlen := congrArg List.length hversions
  rw [List.length_map, List.length_range'] at hlen
  obtain ⟨th, hth, hthsize⟩ := h.exists_head (by omega)
  have hmem : ∀ u ∈ broughtFrom epochs user (self.nextVersion user) e,
      u ∈ updatesOf epochs ∧ u.label = user := fun u hu => by
    rw [heq] at hu
    obtain ⟨hu, hlabel⟩ := List.mem_filter.1 (List.mem_filter.1 hu).1
    exact ⟨mem_updatesOf_of_take hu, by simpa using hlabel⟩
  have hne : broughtFrom epochs user (self.nextVersion user) e ≠ [] :=
    List.ne_nil_of_length_pos (by omega)
  have hvalues : (broughtFrom epochs user (self.nextVersion user) e).map
      (LabelValue.mk ∘ PreUpdateData.value) ≠ [] := by simpa using hne
  refine ⟨e, _, hserve, rfl, he, hbefore, hlast, hvalues, ?_, ?_⟩
  · change self.nextVersion user + List.length (List.map _ (broughtFrom epochs user _ e)) = _
    rw [List.length_map]
    omega
  · refine h.verifyUpdateResponse_ok hsuite hkey hmem (by rw [hversions, hlen]) hne hview rfl hth
      (by rw [hthsize]; exact he) ?_ rfl rfl rfl hproofs
    refine (if_neg hvalues).trans ?_
    exact (List.map_map ..).trans rfl

/-- **An attempt that is not behind**: the client accepts the answer, and its value is the
label's next version. -/
theorem WrittenLog.attempt_current (h : WrittenLog P t epochs) {self : ClientMemory} (value : Octets)
    (now : U64) {opening : Octets} (hopening : opening.length = 16)
    (hlabel : user.length < 256) (hvalue : value.length < 2 ^ 32)
    (hversion : (t.store.history user).length ≤ maxVersion) (hsize : epochs.length + 1 ≤ 2 ^ 62)
    (hsuite : self.config.cipherSuite = t.config.cipherSuite) (hkey : self.vrfPk = t.config.vrfPublicKey)
    (hcurrent : self.nextVersion user = (t.store.history user).length) :
    ∃ u resp t', t.serveUpdate P (some now) opening (self.updateRequest user value) = (.ok resp, t') ∧
      WrittenLog P t' (epochs ++ [⟨now, [u]⟩]) ∧ u.label = user ∧ u.value = value ∧
      u.version = (t.store.history user).length ∧ resp.position = epochs.length ∧ resp.values = [] ∧
      self.view.verifyUpdateResponse P user (self.labelVersions.lookup user) [value] resp = .ok () := by
  have hgreatest : self.labelVersions.lookup user = lastVersion (t.store.history user).length := by
    rw [← hcurrent, ClientMemory.nextVersion]
    cases self.labelVersions.lookup user <;> rfl
  obtain ⟨u, t', fth, th, proof, h', hconfig, hulabel, huvalue, huversion, hth, hthsize, hproofs, hserve⟩ :=
    @WrittenLog.serveUpdate_current P t epochs (self.updateRequest user value) h now _ _ hopening hlabel hvalue
      rfl hgreatest hversion hsize
  replace huversion : u.version = (t.store.history user).length := huversion
  refine ⟨u, _, t', hserve, h', hulabel, huvalue, huversion, rfl, rfl, ?_⟩
  refine h'.verifyUpdateResponse_ok
    (hsuite.trans (congrArg PrivateConfig.cipherSuite hconfig.symm))
    (hkey.trans (congrArg PrivateConfig.vrfPublicKey hconfig.symm)) (fun u' (hu' : u' ∈ [u]) => ?_) ?_
    (List.cons_ne_nil u []) rfl rfl hth (by rw [hthsize]; exact Nat.lt_succ_self _)
    ((if_pos rfl).trans ?_) rfl rfl rfl hproofs
  · rw [List.mem_singleton.1 hu', updatesOf_append]
    exact ⟨List.mem_append_right _ (List.mem_singleton_self u), hulabel⟩
  · rw [List.map_singleton, huversion, ← hcurrent]
    rfl
  · rw [List.map_singleton, huvalue]

/-- An answer without values ends the loop. -/
theorem updateAttempts_posted {attempts : ℕ} {m : Machine Text} {resp : UpdateResponse}
    {resps : List UpdateResponse} (hvalues : resp.values = [])
    (hverify : m.memory.view.verifyUpdateResponse P user (m.memory.labelVersions.lookup user) [value] resp =
      .ok ()) :
    updateAttempts P host user value (attempts + 1) (resp :: resps) m =
      saveState host { m with memory := m.memory.withVersion user (m.memory.nextVersion user) } := by
  rw [updateAttempts, memory_bind, hverify, Transaction.check_ok_bind]
  rw [if_pos hvalues]
  rfl

/-- An answer with values does not. -/
theorem updateAttempts_caughtUp {attempts : ℕ} {m : Machine Text} {resp : UpdateResponse}
    {resps : List UpdateResponse} (hvalues : resp.values ≠ [])
    (hverify : m.memory.view.verifyUpdateResponse P user (m.memory.labelVersions.lookup user) [value] resp =
      .ok ()) :
    updateAttempts P host user value (attempts + 1) (resp :: resps) m =
      updateAttempts P host user value attempts resps
        { m with memory := m.memory.withVersion user (m.memory.nextVersion user + resp.values.length - 1) } := by
  rw [updateAttempts, memory_bind, hverify, Transaction.check_ok_bind]
  rw [if_neg hvalues]
  rfl

/-- **The loop of an update.**  Every attempt finds one more of the entries that brought
versions to come, and the attempt after the last of them adds the value. -/
theorem WrittenLog.updateAttempts_answers (h : WrittenLog P t epochs)
    (hopening : ∀ k, (rounds k).2.length = 16)
    (hlabel : user.length < 256) (hvalue : value.length < 2 ^ 32)
    (hversion : (t.store.history user).length ≤ maxVersion) (hsize : epochs.length + 1 ≤ 2 ^ 62) :
    ∀ (attempts : ℕ) (m : Machine Text),
      m.memory.config.cipherSuite = t.config.cipherSuite → m.memory.vrfPk = t.config.vrfPublicKey →
      m.memory.nextVersion user ≤ (t.store.history user).length →
      if (laterEntries epochs user (m.memory.nextVersion user)).length < attempts then
        ∃ resps resp now u t', updateAnswers P user value rounds attempts m.memory t = (resps ++ [resp], t') ∧
          resps.map UpdateResponse.position = laterEntries epochs user (m.memory.nextVersion user) ∧
          WrittenLog P t' (epochs ++ [⟨now, [u]⟩]) ∧ u.label = user ∧ u.value = value ∧
          u.version = (t.store.history user).length ∧
          updateAttempts P host user value attempts (resps ++ [resp]) m =
            saveState host { m with memory := m.memory.withVersion user (t.store.history user).length }
      else
        ∃ resps, updateAnswers P user value rounds attempts m.memory t = (resps, t) ∧
          resps.map UpdateResponse.position =
            (laterEntries epochs user (m.memory.nextVersion user)).take attempts ∧
          updateAttempts P host user value attempts resps m =
            (.error (.check (.err "Update did not converge while catching up on existing versions")),
              { m with memory := (((laterEntries epochs user (m.memory.nextVersion user)).take
                attempts).getLast?.elim m.memory fun e =>
                  m.memory.withVersion user (versionCount epochs user e - 1)) })
  | 0, m, hsuite, hkey, hle => by
    rw [if_neg (Nat.not_lt_zero _)]
    exact ⟨[], rfl, rfl, rfl⟩
  | attempts + 1, m, hsuite, hkey, hle => by
    rcases Nat.lt_or_eq_of_le hle with hstale | hcurrent
    · obtain ⟨e, resp, hserve, hposition, he, hbefore, hlast, hvalues, hlen, hverify⟩ :=
        h.attempt_stale value (rounds attempts).1 (rounds attempts).2 hsuite hkey hstale
      have hnext := m.memory.nextVersion_withVersion user (versionCount epochs user e - 1)
      rw [Nat.sub_add_cancel (by omega)] at hnext
      have ih := h.updateAttempts_answers hopening hlabel hvalue hversion hsize attempts
        { m with memory := m.memory.withVersion user (versionCount epochs user e - 1) } hsuite hkey
        (by
          dsimp only
          rw [hnext, ← h.run.length_labelUpdates]
          exact versionCount_le he)
      have hanswers : ∀ resps t', updateAnswers P user value rounds attempts
          (m.memory.withVersion user (versionCount epochs user e - 1)) t = (resps, t') →
          updateAnswers P user value rounds (attempts + 1) m.memory t = (resp :: resps, t') := fun resps t' heq => by
        rw [updateAnswers, hserve]
        dsimp only
        rw [if_neg hvalues, hlen, heq]
      have hattempt : ∀ resps, updateAttempts P host user value (attempts + 1) (resp :: resps) m =
          updateAttempts P host user value attempts resps
            { m with memory := m.memory.withVersion user (versionCount epochs user e - 1) } := fun resps => by
        rw [updateAttempts_caughtUp hvalues hverify, hlen]
      rw [laterEntries_eq h.run.consecutive he hbefore hlast]
      dsimp only at ih
      rw [hnext] at ih
      simp only [List.length_cons, Nat.add_lt_add_iff_right, List.take_succ_cons]
      split_ifs at ih ⊢ with hlt
      · obtain ⟨resps, last, now, u, t', hrest, hpositions, h', hulabel, huvalue, huversion, hrun⟩ := ih
        refine ⟨resp :: resps, last, now, u, t', hanswers _ _ hrest, ?_, h', hulabel, huvalue, huversion, ?_⟩
        · rw [List.map_cons, hposition, hpositions]
        · rw [List.cons_append, hattempt, hrun]
          simp only [ClientMemory.withVersion_withVersion]
      · obtain ⟨resps, hrest, hpositions, hrun⟩ := ih
        refine ⟨resp :: resps, hanswers _ _ hrest, ?_, ?_⟩
        · rw [List.map_cons, hposition, hpositions]
        · rw [hattempt, hrun, List.getLast?_cons]
          cases ((laterEntries epochs user (versionCount epochs user e)).take attempts).getLast? with
          | none => rfl
          | some e' => simp only [Option.elim_some, Option.getD_some, ClientMemory.withVersion_withVersion]
    · rw [laterEntries_nil h.run.consecutive
        (by rw [h.run.length_labelUpdates]; exact hcurrent.ge), if_pos (by simp)]
      obtain ⟨u, resp, t', hserve, h', hulabel, huvalue, huversion, -, hvalues, hverify⟩ :=
        h.attempt_current value (rounds attempts).1 (hopening attempts) hlabel hvalue hversion hsize
          hsuite hkey hcurrent
      refine ⟨[], resp, _, u, t', ?_, rfl, h', hulabel, huvalue, huversion, ?_⟩
      · rw [updateAnswers, hserve]
        dsimp only
        rw [if_pos hvalues, List.nil_append]
      · rw [List.nil_append, updateAttempts_posted hvalues hverify, hcurrent]

/-- A client that can add a version: it has the server's keys and knows no version that the
server does not, and the next version can be encoded and logged. -/
structure Machine.CanUpdate (m : Machine Text) (t : Tree) (user value : Octets) : Prop where
  suite : m.memory.config.cipherSuite = t.config.cipherSuite
  key : m.memory.vrfPk = t.config.vrfPublicKey
  known : m.memory.nextVersion user ≤ (t.store.history user).length
  label : user.length < 256
  value : value.length < 2 ^ 32
  version : (t.store.history user).length ≤ maxVersion
  size : t.treeSize + 1 ≤ 2 ^ 62

/-- **Catch-up is exact and makes progress.**  A request that lacks versions is told those
that the log entry of the first of them brought.  The loop takes one round for each entry
that brought versions to come, after which the client knows the last version of the entry,
and then adds its own, as long as the 32 attempts suffice. -/
theorem update_catches_up (h : WrittenLog P t epochs) :
    (∀ (req : UpdateRequest) (start : ℕ), req.greatestVersion.elim 0 (· + 1) = start →
      start < (t.store.history req.label).length →
        ∃ resp told, t.catchUpUpdate P req = .ok resp ∧ t.TellsExactly P req.label start told resp) ∧
    ∀ (Text : Type) (host : Host Text) (m : Machine Text) (user value : Octets)
      (rounds : ℕ → U64 × Octets), (∀ k, (rounds k).2.length = 16) → m.CanUpdate t user value →
      let later := laterEntries epochs user (m.memory.nextVersion user)
      (∀ k ≤ later.length, ∃ resps, updateAnswers P user value rounds k m.memory t = (resps, t) ∧
        resps.map UpdateResponse.position = later.take k ∧
        updateAttempts P host user value k resps m =
          (.error (.check (.err "Update did not converge while catching up on existing versions")),
            { m with memory := ((later.take k).getLast?.elim m.memory fun e =>
              m.memory.withVersion user (versionCount epochs user e - 1)) })) ∧
      (later.length < 32 → ∃ resps resp now u t',
        updateAnswers P user value rounds 32 m.memory t = (resps ++ [resp], t') ∧
        resps.map UpdateResponse.position = later ∧
        WrittenLog P t' (epochs ++ [⟨now, [u]⟩]) ∧ u.label = user ∧ u.value = value ∧
        u.version = (t.store.history user).length ∧
        update P host user value (resps ++ [resp]) m =
          saveState host { m with memory := m.memory.withVersion user (t.store.history user).length }) := by
  refine ⟨fun req start hstart hstale => h.catchUpUpdate_exact req hstart hstale, ?_⟩
  intro Text host m user value rounds hopening hm later
  have hsize : epochs.length + 1 ≤ 2 ^ 62 := by
    rw [← h.run.sound.1.size]
    exact hm.size
  have hloop := fun k => @WrittenLog.updateAttempts_answers P t epochs Text host user value rounds h
    hopening hm.label hm.value hm.version hsize k m
    hm.suite hm.key hm.known
  constructor
  · intro k hk
    have hsome := hloop k
    rwa [if_neg (Nat.not_lt.2 hk)] at hsome
  · intro hlt
    have hall := hloop 32
    rwa [if_pos hlt] at hall

end

/-! ### Sample updates -/

section

/-- A log in which another label has an entry between those of the empty label. -/
def catchUpPlan : List (U64 × List Octets) := [(0, [[], [0]]), (1, [[0]]), (2, [[], []])]

def sampleRounds (_ : ℕ) : U64 × Octets := (3, Octets.zeros 16)

theorem versionsBefore_planned (epochs : List Epoch) (label : Octets) : ∀ e : ℕ,
    versionsBefore epochs label e = (((epochs.map Epoch.planned).take e).flatMap Prod.snd).count label
  | 0 => by simp [versionsBefore, updatesOf, labelUpdates]
  | e + 1 => versionCount_planned epochs label e

/-- The entries to come, in a log that was planned. -/
theorem laterEntries_planned {epochs : List Epoch} (h : Consecutive epochs) (label : Octets) (start : ℕ) :
    laterEntries epochs label start = (List.range (epochs.map Epoch.planned).length).filter fun e =>
      (((epochs.map Epoch.planned).take e).flatMap Prod.snd).count label <
          (((epochs.map Epoch.planned).take (e + 1)).flatMap Prod.snd).count label ∧
        start < (((epochs.map Epoch.planned).take (e + 1)).flatMap Prod.snd).count label := by
  rw [laterEntries, List.length_map]
  refine List.filter_congr fun e _ => ?_
  rw [decide_eq_decide, h.broughtFrom_ne_nil, versionsBefore_planned, versionCount_planned]

/-- A planned log and a new client that can update its empty label. -/
theorem exists_canUpdate {plan : List (U64 × List Octets)} (hordered : plan.Pairwise fun p p' => p.1 ≤ p'.1)
    (hne : ∀ p ∈ plan, p.2 ≠ []) (hshort : ∀ p ∈ plan, ∀ l ∈ p.2, l.length < 256)
    (hsize : plan.length + 1 ≤ 2 ^ 62) (hsmall : (plan.flatMap Prod.snd).length ≤ maxVersion) :
    ∃ t epochs, WrittenLog Primitives.ideal t epochs ∧ epochs.map Epoch.planned = plan ∧
      (Machine.fresh watchingConfig).CanUpdate t [] [7] := by
  obtain ⟨t, epochs, h, hconfig, -, hplan, -⟩ :=
    exists_honestLog (show Signs Primitives.ideal (sampleServerConfig 0) from ⟨_, rfl⟩) (vrfWorks_ideal _)
      hordered hne hshort (by omega) hsmall
  have hlength : (t.store.history []).length ≤ maxVersion := by
    rw [← h.run.length_labelUpdates]
    refine (List.length_filter_le _ _).trans ?_
    rwa [← @List.length_map _ _ (updatesOf epochs) PreUpdateData.label, updatesOf_planned, hplan]
  refine ⟨t, epochs, h.toWrittenLog, hplan, ?_, ?_, Nat.zero_le _, by simp, by simp, hlength, ?_⟩
  · rw [hconfig]
    rfl
  · rw [hconfig]
    rfl
  · rwa [h.run.sound.1.size, ← List.length_map Epoch.planned, hplan]

/-- A new client updates the empty label of that log: two answers bring it to the versions
there are, and the third one tells of its own. -/
theorem update_catches_up_twice : ∃ t epochs resps resp now u t',
    WrittenLog Primitives.ideal t epochs ∧ epochs.map Epoch.planned = catchUpPlan ∧
    updateAnswers Primitives.ideal [] [7] sampleRounds 32 (Machine.fresh watchingConfig).memory t =
      (resps ++ [resp], t') ∧
    resps.map UpdateResponse.position = [0, 2] ∧ WrittenLog Primitives.ideal t' (epochs ++ [⟨now, [u]⟩]) ∧
    u.label = [] ∧ u.value = [7] ∧ u.version = 3 ∧
    update Primitives.ideal (recordHost none) [] [7] (resps ++ [resp]) (Machine.fresh watchingConfig) =
      saveState (recordHost none) { Machine.fresh watchingConfig with
        memory := (Machine.fresh watchingConfig).memory.withVersion [] 3 } := by
  obtain ⟨t, epochs, h, hplan, hm⟩ := @exists_canUpdate catchUpPlan (by decide) (by decide) (by decide)
    (by decide) (by decide)
  have hlater : laterEntries epochs [] ((Machine.fresh watchingConfig).memory.nextVersion []) = [0, 2] := by
    rw [laterEntries_planned h.run.consecutive, hplan]
    decide
  have hlength : (t.store.history []).length = 3 := by
    rw [← h.run.length_labelUpdates]
    have hcount := versionsBefore_planned epochs [] epochs.length
    rw [versionsBefore, List.take_length, ← List.length_map Epoch.planned, List.take_length, hplan] at hcount
    exact hcount
  obtain ⟨-, hloop⟩ := update_catches_up h
  obtain ⟨-, hall⟩ := hloop _ (recordHost none) _ [] [7] sampleRounds (fun _ => Octets.length_zeros 16) hm
  rw [hlater, hlength] at hall
  obtain ⟨resps, resp, now, u, t', hrun⟩ := hall (by decide)
  exact ⟨t, epochs, resps, resp, now, u, t', h, hplan, hrun⟩

/-- **32 attempts are not enough** for a new client when the versions of a label are spread
over 32 log entries. -/
theorem update_does_not_converge : ∃ t epochs resps,
    WrittenLog Primitives.ideal t epochs ∧ epochs.map Epoch.planned = List.replicate 32 (0, [[]]) ∧
    updateAnswers Primitives.ideal [] [7] sampleRounds 32 (Machine.fresh watchingConfig).memory t =
      (resps, t) ∧
    (update Primitives.ideal (recordHost none) [] [7] resps (Machine.fresh watchingConfig)).1 =
      .error (.check (.err "Update did not converge while catching up on existing versions")) := by
  obtain ⟨t, epochs, h, hplan, hm⟩ := @exists_canUpdate (List.replicate 32 (0, [[]])) (by decide) (by decide)
    (by decide) (by decide) (by decide)
  have hlater : (laterEntries epochs [] ((Machine.fresh watchingConfig).memory.nextVersion [])).length = 32 := by
    rw [laterEntries_planned h.run.consecutive, hplan]
    decide
  have hsize := hm.size
  rw [h.run.sound.1.size] at hsize
  have hloop := @WrittenLog.updateAttempts_answers _ _ _ _ (recordHost none) _ _ sampleRounds h
    (fun _ => Octets.length_zeros 16) hm.label hm.value hm.version hsize 32 (Machine.fresh watchingConfig)
    hm.suite hm.key hm.known
  rw [if_neg (by rw [hlater]; decide)] at hloop
  obtain ⟨resps, hanswers, -, hrun⟩ := hloop
  exact ⟨t, epochs, resps, h, hplan, hanswers, congrArg Prod.fst hrun⟩

end

end KeyTransparency
