/-
# The calls of an auditor

`process_and_sign` advances the accumulator, the prefix root and the timestamp of an
auditor record by record, and stops at the first record that it rejects.  Whatever it is
answered, the three describe one log afterwards (`KtAuditor.Consistent`): the records
before the rejected one are in it, nothing of the rejected one is, and nothing is signed.
So a failure costs nothing: the calls that follow go on from there
(`audit_failure_resumable`).
-/

import KeyTransparency.Client.AuditReplay

namespace KeyTransparency

open MerkleLog

/-- **One log**: the accumulator holds its leaves, and the last of them is the one of the
timestamp and the prefix root. -/
structure KtAuditor.Consistent (P : Primitives) (leaves : List Octets) (a : KtAuditor) : Prop where
  log : a.logAccumulator.Summarises P leaves
  rightmost : ∀ leaf ∈ leaves.getLast?, leaf = logLeafValue P a.lastTimestamp a.prefixRoot
  start : leaves = [] → a.lastTimestamp = 0 ∧ a.prefixRoot = Octets.zeros 32

namespace KtAuditor

variable {P : Primitives} {a a' a₁ : KtAuditor} {update : AuditorUpdate} {updates : List AuditorUpdate}
  {leaves : List Octets}

/-! ### One record -/

/-- The leaf of a record is the one of the new timestamp and the new prefix root, and
nothing else of the auditor changes. -/
theorem processUpdate_eq_ok (h : a.processUpdate P update = .ok a') :
    a'.lastTimestamp = update.timestamp ∧ a.lastTimestamp ≤ a'.lastTimestamp ∧
      a'.logAccumulator =
        a.logAccumulator.appendLeaf P (logLeafValue P a'.lastTimestamp a'.prefixRoot) ∧
      a'.config = a.config ∧ a'.signer = a.signer := by
  obtain ⟨proof, hcheck, h⟩ := Result.bind_eq_ok.1 h
  obtain ⟨newPrefixRoot, -, h⟩ := Result.bind_eq_ok.1 h
  obtain rfl := Except.ok.inj h
  obtain ⟨⟨⟩, hstamp, -⟩ := Result.bind_eq_ok.1 hcheck
  exact ⟨rfl, ensure_eq_ok.1 hstamp, rfl, rfl, rfl⟩

theorem Consistent.processUpdate (hc : a.Consistent P leaves) (h : a.processUpdate P update = .ok a') :
    a'.Consistent P (leaves ++ [logLeafValue P a'.lastTimestamp a'.prefixRoot]) := by
  obtain ⟨-, -, hlog, -, -⟩ := processUpdate_eq_ok h
  refine ⟨?_, ?_, fun hnil => ?_⟩
  · rw [hlog]
    exact hc.log.appendLeaf _
  · intro leaf hleaf
    rw [List.getLast?_concat] at hleaf
    exact (Option.some.inj hleaf).symm
  · exact absurd hnil (List.append_ne_nil_of_right_ne_nil _ (List.cons_ne_nil _ _))

/-! ### The records of an answer -/

/-- **The loop** goes through all records, or stops at the first one that is rejected,
where the ones before it have led. -/
theorem processUpdates_cases (P : Primitives) : ∀ (updates : List AuditorUpdate) (a : KtAuditor),
    (∃ a', a.processUpdates P updates = (.ok (), a')) ∨
    ∃ valid bad rest e a', updates = valid ++ bad :: rest ∧ a.processUpdates P valid = (.ok (), a') ∧
      a'.processUpdate P bad = .error e ∧ a.processUpdates P updates = (.error e, a')
  | [], a => .inl ⟨a, rfl⟩
  | update :: updates, a => by
    rw [processUpdates]
    cases hstep : a.processUpdate P update with
    | error e => exact .inr ⟨[], update, updates, e, a, rfl, rfl, hstep, rfl⟩
    | ok a₁ =>
      rcases processUpdates_cases P updates a₁ with ⟨a', hall⟩ | ⟨valid, bad, rest, e, a', rfl, hvalid,
        hbad, hstop⟩
      · exact .inl ⟨a', hall⟩
      · refine .inr ⟨update :: valid, bad, rest, e, a', rfl, ?_, hbad, hstop⟩
        rw [processUpdates, hstep]
        exact hvalid

/-- **All records accepted** lead to one log, that has a leaf more for each of them. -/
theorem Consistent.processUpdates : ∀ {updates : List AuditorUpdate} {a : KtAuditor}
    {leaves : List Octets}, a.Consistent P leaves → a.processUpdates P updates = (.ok (), a') →
    (∃ added, added.length = updates.length ∧ a'.Consistent P (leaves ++ added)) ∧
      a'.config = a.config ∧ a'.signer = a.signer
  | [], a, leaves, hc, h => by
    obtain ⟨-, rfl⟩ := Prod.mk.inj h
    exact ⟨⟨[], rfl, by rwa [List.append_nil]⟩, rfl, rfl⟩
  | update :: updates, a, leaves, hc, h => by
    rw [KtAuditor.processUpdates] at h
    cases hstep : a.processUpdate P update with
    | error e =>
      rw [hstep] at h
      cases h
    | ok a₁ =>
      rw [hstep] at h
      obtain ⟨-, -, -, hconfig, hsigner⟩ := processUpdate_eq_ok hstep
      obtain ⟨⟨added, hlen, hc'⟩, hconfig', hsigner'⟩ := (hc.processUpdate hstep).processUpdates h
      rw [List.append_assoc, List.singleton_append] at hc'
      exact ⟨⟨_, by rw [List.length_cons, List.length_cons, hlen], hc'⟩, hconfig'.trans hconfig,
        hsigner'.trans hsigner⟩

/-! ### A call -/

/-- What the server answers to `audit`, and what becomes of the auditor. -/
inductive Outcome (P : Primitives) (a : KtAuditor) (leaves : List Octets) (updates : List AuditorUpdate)
    (call : (AuditorTreeHead → Result Unit) → Result Unit × KtAuditor) : Prop
  /-- All records are accepted, and the size that they lead to is signed. -/
  | signed (a' : KtAuditor) (added : List Octets) (all : a.processUpdates P updates = (.ok (), a'))
      (length : added.length = updates.length) (consistent : a'.Consistent P (leaves ++ added))
      (call_eq : ∀ setAuditorHead, call setAuditorHead = (a'.signHead P >>= setAuditorHead, a'))
  /-- A record is rejected: the ones before it stay processed, and `set_auditor_head` is not
  called. -/
  | rejected (a' : KtAuditor) (valid : List AuditorUpdate) (bad : AuditorUpdate)
      (rest : List AuditorUpdate) (e : Fault) (added : List Octets) (split : updates = valid ++ bad :: rest)
      (before : a.processUpdates P valid = (.ok (), a')) (invalid : a'.processUpdate P bad = .error e)
      (length : added.length = valid.length) (consistent : a'.Consistent P (leaves ++ added))
      (call_eq : ∀ setAuditorHead, call setAuditorHead = (.error e, a'))

/-- **A call** that is answered with records. -/
theorem processAndSign_outcome {audit : ℕ → ℕ → Result (List AuditorUpdate × Bool)} {more : Bool}
    (hc : a.Consistent P leaves) (haudit : audit a.logAccumulator.treeSize 10 = .ok (updates, more))
    (hne : updates ≠ []) : Outcome P a leaves updates (a.processAndSign P audit) := by
  obtain ⟨update, rest, rfl⟩ := List.exists_cons_of_ne_nil hne
  have hsigned : ∀ {a'}, a.processUpdates P (update :: rest) = (.ok (), a') → ∀ setAuditorHead,
      a.processAndSign P audit setAuditorHead = (a'.signHead P >>= setAuditorHead, a') := by
    intro a' hall setAuditorHead
    unfold KtAuditor.processAndSign
    rewrite [haudit]
    dsimp only
    rw [hall]
  have hrejected : ∀ {e a'}, a.processUpdates P (update :: rest) = (.error e, a') → ∀ setAuditorHead,
      a.processAndSign P audit setAuditorHead = (.error e, a') := by
    intro e a' hstop setAuditorHead
    unfold KtAuditor.processAndSign
    rewrite [haudit]
    dsimp only
    rw [hstop]
  rcases processUpdates_cases P (update :: rest) a with ⟨a', hall⟩ |
    ⟨valid, bad, tail, e, a', hsplit, hvalid, hbad, hstop⟩
  · obtain ⟨⟨added, hlen, hc'⟩, -, -⟩ := hc.processUpdates hall
    exact .signed a' added hall hlen hc' (hsigned hall)
  · obtain ⟨⟨added, hlen, hc'⟩, -, -⟩ := hc.processUpdates hvalid
    exact .rejected a' valid bad tail e added hsplit hvalid hbad hlen hc' (hrejected hstop)

/-- A call that is answered with no record, or with an error, changes nothing. -/
theorem processAndSign_of_nothing {audit : ℕ → ℕ → Result (List AuditorUpdate × Bool)}
    (haudit : ∀ updates more, audit a.logAccumulator.treeSize 10 = .ok (updates, more) → updates = [])
    (setAuditorHead : AuditorTreeHead → Result Unit) :
    (a.processAndSign P audit setAuditorHead).2 = a := by
  unfold KtAuditor.processAndSign
  cases hanswer : audit a.logAccumulator.treeSize 10 with
  | error e => rfl
  | ok answer =>
    obtain ⟨updates, more⟩ := answer
    rw [haudit updates more hanswer]

/-- One call, whatever the server answers. -/
def Call (P : Primitives) (a a' : KtAuditor) : Prop :=
  ∃ audit setAuditorHead, a' = (a.processAndSign P audit setAuditorHead).2

theorem Consistent.call (hc : a.Consistent P leaves) (h : Call P a a') :
    ∃ added, a'.Consistent P (leaves ++ added) := by
  obtain ⟨audit, setAuditorHead, rfl⟩ := h
  by_cases hnothing : ∀ updates more, audit a.logAccumulator.treeSize 10 = .ok (updates, more) →
      updates = []
  · rw [processAndSign_of_nothing hnothing]
    exact ⟨[], by rwa [List.append_nil]⟩
  · push Not at hnothing
    obtain ⟨updates, more, haudit, hne⟩ := hnothing
    rcases processAndSign_outcome hc haudit hne with ⟨a', added, -, -, hc', hcall⟩ |
      ⟨a', valid, bad, rest, e, added, -, -, -, -, hc', hcall⟩
    · rw [hcall]
      exact ⟨added, hc'⟩
    · rw [hcall]
      exact ⟨added, hc'⟩

/-- **In every state reached** the auditor is at one log, that goes on from where it was. -/
theorem Consistent.reached (hc : a.Consistent P leaves)
    (h : Relation.ReflTransGen (Call P) a a') : ∃ added, a'.Consistent P (leaves ++ added) := by
  induction h with
  | refl => exact ⟨[], by rwa [List.append_nil]⟩
  | tail _ hcall ih =>
    obtain ⟨added, hc'⟩ := ih
    obtain ⟨more, hc''⟩ := hc'.call hcall
    exact ⟨added ++ more, by rwa [List.append_assoc] at hc''⟩

/-! ### Resuming -/

/-- The records of an answer up to one that is rejected are those of the log. -/
def HonestSoFar (P : Primitives) (t : Tree) (a : KtAuditor)
    (answer : Result (List AuditorUpdate × Bool)) : Prop :=
  ∀ updates more, answer = .ok (updates, more) → ∃ valid rest, updates = valid ++ rest ∧
    a.logAccumulator.treeSize + valid.length ≤ t.treeSize ∧
    Tree.auditUpdates t.store a.logAccumulator.treeSize valid.length = .ok valid ∧
    ∀ bad ∈ rest.head?, ∀ a', a.processUpdates P valid = (.ok (), a') →
      ∃ e, a'.processUpdate P bad = .error e

/-- One call, that may fail at any record of its answer. -/
def Attempt (P : Primitives) (t : Tree) (a a' : KtAuditor) : Prop :=
  ∃ audit setAuditorHead, HonestSoFar P t a (audit a.logAccumulator.treeSize 10) ∧
    a' = (a.processAndSign P audit setAuditorHead).2

/-- Calls to an honest server. -/
def honestCalls (P : Primitives) (t : Tree) (setAuditorHead : AuditorTreeHead → Result Unit) (m : ℕ)
    (a : KtAuditor) : KtAuditor :=
  (fun a : KtAuditor => (a.processAndSign P t.audit setAuditorHead).2)^[m] a

theorem processUpdates_append : ∀ {valid rest : List AuditorUpdate} {a : KtAuditor},
    a.processUpdates P valid = (.ok (), a') →
    a.processUpdates P (valid ++ rest) = a'.processUpdates P rest
  | [], rest, a, h => by
    obtain ⟨-, rfl⟩ := Prod.mk.inj h
    rfl
  | update :: valid, rest, a, h => by
    rw [List.cons_append, processUpdates]
    rw [processUpdates] at h
    cases hstep : a.processUpdate P update with
    | error e =>
      rw [hstep] at h
      cases h
    | ok a₁ =>
      rw [hstep] at h
      exact processUpdates_append h

/-- The state after an answer whose records are accepted up to one that is not. -/
theorem processAndSign_state {audit : ℕ → ℕ → Result (List AuditorUpdate × Bool)} {more : Bool}
    {valid rest : List AuditorUpdate}
    (haudit : audit a.logAccumulator.treeSize 10 = .ok (valid ++ rest, more))
    (hvalid : a.processUpdates P valid = (.ok (), a'))
    (hrest : ∀ bad ∈ rest.head?, ∃ e, a'.processUpdate P bad = .error e)
    (setAuditorHead : AuditorTreeHead → Result Unit) :
    (a.processAndSign P audit setAuditorHead).2 = a' := by
  have hall := @processUpdates_append _ _ valid rest _ hvalid
  have hstate : (a.processUpdates P (valid ++ rest)).2 = a' := by
    rw [hall]
    cases rest with
    | nil => rfl
    | cons bad rest =>
      obtain ⟨e, he⟩ := hrest bad rfl
      rw [processUpdates, he]
  unfold KtAuditor.processAndSign
  rw [haudit]
  generalize valid ++ rest = updates at hstate
  cases updates with
  | nil => exact hstate
  | cons update updates =>
    dsimp only
    rw [← hstate]
    cases a.processUpdates P (update :: updates) with
    | mk r a₁ => cases r <;> rfl

variable {t : Tree} {epochs : List Epoch} {k : ℕ}

/-- **An attempt** leads to some later entry of the log. -/
theorem Attempt.replayed (hs : t.Sound P epochs) (hdistinct : DistinctKeys epochs)
    (htimes : NonDecreasing epochs) (hk : k ≤ epochs.length) (h : Replayed P (epochs.take k) a)
    (hattempt : Attempt P t a a') :
    ∃ k', k ≤ k' ∧ k' ≤ epochs.length ∧ Replayed P (epochs.take k') a' ∧ a'.config = a.config ∧
      a'.signer = a.signer := by
  obtain ⟨audit, setAuditorHead, hhonest, rfl⟩ := hattempt
  have hsize : a.logAccumulator.treeSize = k := (h.atRoot hk).1
  by_cases hnothing : ∀ updates more, audit a.logAccumulator.treeSize 10 = .ok (updates, more) →
      updates = []
  · rw [processAndSign_of_nothing hnothing]
    exact ⟨k, le_rfl, hk, h, rfl, rfl⟩
  · push Not at hnothing
    obtain ⟨updates, more, haudit, -⟩ := hnothing
    obtain ⟨valid, rest, rfl, hlen, hrecords, hrest⟩ := hhonest updates more haudit
    rw [hsize, hs.size] at hlen
    rw [hsize] at hrecords
    obtain ⟨records, a', hrecords', -, hrun, hreplayed, hconfig, hsigner⟩ :=
      replay_run hs hdistinct htimes hlen h
    obtain rfl : valid = records := Except.ok.inj (hrecords.symm.trans hrecords')
    rw [processAndSign_state haudit hrun fun bad hbad => hrest bad hbad a' hrun]
    exact ⟨_, Nat.le_add_right _ _, hlen, hreplayed, hconfig, hsigner⟩

theorem attempts_replayed (hs : t.Sound P epochs) (hdistinct : DistinctKeys epochs)
    (htimes : NonDecreasing epochs) (hk : k ≤ epochs.length) (h : Replayed P (epochs.take k) a)
    (hattempts : Relation.ReflTransGen (Attempt P t) a a') :
    ∃ k', k ≤ k' ∧ k' ≤ epochs.length ∧ Replayed P (epochs.take k') a' ∧ a'.config = a.config ∧
      a'.signer = a.signer := by
  induction hattempts with
  | refl => exact ⟨k, le_rfl, hk, h, rfl, rfl⟩
  | tail _ hattempt ih =>
    obtain ⟨k₁, hk₁, hle, h₁, hconfig, hsigner⟩ := ih
    obtain ⟨k₂, hk₂, hle₂, h₂, hconfig₂, hsigner₂⟩ := hattempt.replayed hs hdistinct htimes hle h₁
    exact ⟨k₂, hk₁.trans hk₂, hle₂, h₂, hconfig₂.trans hconfig, hsigner₂.trans hsigner⟩

/-- **Honest calls** take ten entries each. -/
theorem honestCalls_replayed (hs : t.Sound P epochs) (hdistinct : DistinctKeys epochs)
    (htimes : NonDecreasing epochs) (setAuditorHead : AuditorTreeHead → Result Unit) :
    ∀ {m k : ℕ} {a : KtAuditor}, k ≤ epochs.length → Replayed P (epochs.take k) a →
    Replayed P (epochs.take (min (k + 10 * m) epochs.length)) (honestCalls P t setAuditorHead m a) ∧
      (honestCalls P t setAuditorHead m a).config = a.config ∧
      (honestCalls P t setAuditorHead m a).signer = a.signer
  | 0, k, a, hk, h => by
    rw [Nat.mul_zero, Nat.add_zero, Nat.min_eq_left hk]
    exact ⟨h, rfl, rfl⟩
  | m + 1, k, a, hk, h => by
    have hsize : a.logAccumulator.treeSize = k := (h.atRoot hk).1
    rw [honestCalls, Function.iterate_succ_apply, ← honestCalls]
    rcases hk.eq_or_lt with rfl | hlt
    · have hsame : (a.processAndSign P t.audit setAuditorHead).2 = a :=
        processAndSign_of_nothing (fun updates more haudit => by
          rw [hsize, Tree.audit, ensure_of hs.size.ge, Result.ok_bind, if_pos hs.size.symm] at haudit
          exact (Prod.mk.inj (Except.ok.inj haudit)).1.symm) setAuditorHead
      rw [hsame]
      have := honestCalls_replayed hs hdistinct htimes setAuditorHead (m := m) le_rfl h
      rwa [Nat.min_eq_right (by omega)] at this ⊢
    · obtain ⟨records, more, a', haudit, -, hrun, hreplayed, hconfig, hsigner⟩ :=
        h.nextRecords hs hdistinct htimes hlt
      have haudit' : t.audit a.logAccumulator.treeSize 10 = .ok (records ++ [], more) := by
        rw [hsize, List.append_nil, haudit]
      rw [processAndSign_state haudit' hrun (fun bad hbad => by cases hbad)]
      obtain ⟨h', hconfig', hsigner'⟩ := honestCalls_replayed hs hdistinct htimes setAuditorHead
        (m := m) (Nat.min_le_right (k + 10) epochs.length) hreplayed
      refine ⟨?_, hconfig'.trans hconfig, hsigner'.trans hsigner⟩
      rwa [show min (min (k + 10) epochs.length + 10 * m) epochs.length =
        min (k + 10 * (m + 1)) epochs.length by omega] at h'

/-- What an auditor has come to is determined by the log. -/
theorem replayed_unique (h : Replayed P epochs a) (h' : Replayed P epochs a')
    (hconfig : a.config = a'.config) (hsigner : a.signer = a'.signer) : a = a' := by
  obtain ⟨signer, ⟨treeSize, peaks⟩, prefixRoot, lastTimestamp, config⟩ := a
  obtain ⟨signer', ⟨treeSize', peaks'⟩, prefixRoot', lastTimestamp', config'⟩ := a'
  obtain rfl : treeSize = treeSize' := h.log.treeSize.trans h'.log.treeSize.symm
  obtain rfl : peaks = peaks' := h.log.peaks.trans h'.log.peaks.symm
  obtain rfl : prefixRoot = prefixRoot' := h.root.trans h'.root.symm
  obtain rfl : config = config' := hconfig
  obtain rfl : signer = signer' := hsigner
  have hstamp : lastTimestamp = lastTimestamp' := by
    cases hlast : epochs.getLast? with
    | none =>
      have hnil := List.getLast?_eq_none_iff.1 hlast
      exact (h.start hnil).trans (h'.start hnil).symm
    | some e => exact (h.lastTimestamp e hlast).trans (h'.lastTimestamp e hlast).symm
  rw [hstamp]

end KtAuditor

open KtAuditor

variable {P : Primitives} {t : Tree} {epochs : List Epoch} {a : KtAuditor} {k : ℕ}

/-- An auditor that has replayed a log is at it. -/
theorem Replayed.consistent (h : Replayed P epochs a) : a.Consistent P (leavesOf P epochs) := by
  refine ⟨h.log, ?_, fun hnil => ?_⟩
  · rcases List.eq_nil_or_concat epochs with rfl | ⟨init, e, rfl⟩
    · rintro leaf ⟨⟩
    · intro leaf hleaf
      rw [List.concat_eq_append] at h hleaf
      rw [leavesOf_append, List.getLast?_concat, Option.mem_some_iff, LogTree.entryLeaf, lastEntry]
        at hleaf
      rw [h.lastTimestamp e List.getLast?_concat, h.root, ← hleaf]
  · obtain rfl : epochs = [] := List.length_eq_zero_iff.1 ((length_leavesOf ..).symm.trans
      (congrArg List.length hnil))
    refine ⟨h.start rfl, h.root.trans ?_⟩
    exact (replayed_new [] a.config).root.symm

/-- **A failed call leaves an auditor consistent and resumable.**  From a state that an honest
log has led to: in every state that calls lead to from there, whatever they are answered,
the three fields are of one log, and a call has one of two outcomes, where the second one
keeps nothing of the record that is rejected and signs nothing; and after calls that failed
at any record, so long as the ones before it were those of the log, calls to an honest
server lead to the same state as without the failures. -/
theorem audit_failure_resumable (run : ServerRun P t epochs) (hdistinct : DistinctKeys epochs)
    (htimes : NonDecreasing epochs) (hk : k ≤ epochs.length) (h : Replayed P (epochs.take k) a) :
    (∀ a', Relation.ReflTransGen (Call P) a a' → ∃ leaves, a'.Consistent P leaves ∧
      (leavesOf P epochs).take k <+: leaves ∧
      ∀ audit updates more, audit a'.logAccumulator.treeSize 10 = .ok (updates, more) →
        updates ≠ [] → Outcome P a' leaves updates (a'.processAndSign P audit)) ∧
    ∀ a', Relation.ReflTransGen (Attempt P t) a a' → ∀ setAuditorHead setAuditorHead' m m',
      epochs.length ≤ a'.logAccumulator.treeSize + 10 * m → epochs.length ≤ k + 10 * m' →
      honestCalls P t setAuditorHead m a' = honestCalls P t setAuditorHead' m' a := by
  obtain ⟨hs, -⟩ := run.sound
  constructor
  · intro a' hreached
    have hc := h.consistent
    rw [leavesOf_take] at hc
    obtain ⟨added, hc'⟩ := hc.reached hreached
    exact ⟨_, hc', List.prefix_append _ _, fun audit updates more haudit hne =>
      processAndSign_outcome hc' haudit hne⟩
  · intro a' hattempts setAuditorHead setAuditorHead' m m' hm hm'
    obtain ⟨k', -, hk', h', hconfig, hsigner⟩ := attempts_replayed hs hdistinct htimes hk h hattempts
    rw [(h'.atRoot hk').1] at hm
    obtain ⟨h₁, hconfig₁, hsigner₁⟩ := honestCalls_replayed hs hdistinct htimes setAuditorHead (m := m)
      hk' h'
    obtain ⟨h₂, hconfig₂, hsigner₂⟩ := honestCalls_replayed hs hdistinct htimes setAuditorHead' (m := m')
      hk h
    rw [Nat.min_eq_right hm] at h₁
    rw [Nat.min_eq_right hm'] at h₂
    exact replayed_unique h₁ h₂ (hconfig₁.trans (hconfig.trans hconfig₂.symm))
      (hsigner₁.trans (hsigner.trans hsigner₂.symm))

/-- A log of one entry, and an auditor that starts. -/
theorem audit_failure_resumable_first : ∃ t a, ∀ a',
    Relation.ReflTransGen (Attempt Primitives.ideal t) a a' → ∀ setAuditorHead,
      honestCalls Primitives.ideal t setAuditorHead 1 a' =
        honestCalls Primitives.ideal t setAuditorHead 1 a := by
  have run := (ServerRun.start (P := Primitives.ideal) plainConfig plainConfig_signs).batch 5 [firstUpdate]
    firstUpdate_keys (by decide)
  have hepochs : committedBy (emptyServer plainConfig) 5 [firstUpdate] = [⟨5, [firstUpdate]⟩] := rfl
  rw [hepochs, List.nil_append] at run
  obtain ⟨-, hresume⟩ := audit_failure_resumable run (List.nodup_singleton _)
    (List.pairwise_singleton _ _) (Nat.zero_le 1)
    (replayed_new [] (plainConfig.toPublic Primitives.ideal))
  exact ⟨_, _, fun a' hattempts setAuditorHead =>
    hresume a' hattempts setAuditorHead setAuditorHead 1 1 (by simp) (by simp)⟩

end KeyTransparency
