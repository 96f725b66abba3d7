/-
# The proof of a walk

A walk over a log is a list of visits, to an entry's timestamp or to an entry with the
ladder of some versions.  The session of a server gathers what the visits need
(`TraversalSession.Gathered`); its combined proof is a `Transcript` of them, which a
client reads in the order of its own visits (`ProofReader.At`).  Both go by the order in
which entries and versions are seen first.
-/

import KeyTransparency.Client.InclusionAgreement
import KeyTransparency.Client.LadderProof
import KeyTransparency.Client.ProofReader

namespace KeyTransparency

open BinaryLadder LogVerifier

/-- A visit of a walk. -/
inductive Visit
  | stamp (entry : ℕ)
  | ladder (entry : ℕ) (versions : List ℕ)
deriving DecidableEq

namespace Visit

def entry : Visit → ℕ
  | stamp e => e
  | ladder e _ => e

def asLadder : Visit → Option (ℕ × List ℕ)
  | stamp _ => none
  | ladder e versions => some (e, versions)

end Visit

/-- The visits with a ladder. -/
def laddersOf (visits : List Visit) : List (ℕ × List ℕ) := visits.filterMap Visit.asLadder

/-- The entries of a walk, in the order in which they are seen first. -/
def entriesOf (visits : List Visit) : List ℕ := firstSeen (visits.map Visit.entry)

/-- The versions looked up, in the order in which they are seen first. -/
def versionsOf (visits : List Visit) : List ℕ := firstSeen ((laddersOf visits).flatMap Prod.snd)

section

variable {visits : List Visit} {e : ℕ} {versions : List ℕ}

@[simp] theorem laddersOf_stamp : laddersOf (visits ++ [.stamp e]) = laddersOf visits := by
  simp [laddersOf, List.filterMap_append, Visit.asLadder]

@[simp] theorem laddersOf_ladder :
    laddersOf (visits ++ [.ladder e versions]) = laddersOf visits ++ [(e, versions)] := by
  simp [laddersOf, List.filterMap_append, Visit.asLadder]

@[simp] theorem entriesOf_stamp :
    entriesOf (visits ++ [.stamp e]) = appendNew (entriesOf visits) e := by
  rw [entriesOf, List.map_append, List.map_singleton, firstSeen_concat, entriesOf, Visit.entry]

@[simp] theorem entriesOf_ladder :
    entriesOf (visits ++ [.ladder e versions]) = appendNew (entriesOf visits) e := by
  rw [entriesOf, List.map_append, List.map_singleton, firstSeen_concat, entriesOf, Visit.entry]

@[simp] theorem versionsOf_stamp : versionsOf (visits ++ [.stamp e]) = versionsOf visits := by
  rw [versionsOf, laddersOf_stamp, versionsOf]

@[simp] theorem versionsOf_ladder :
    versionsOf (visits ++ [.ladder e versions]) = firstSeenAfter (versionsOf visits) versions := by
  rw [versionsOf, laddersOf_ladder, List.flatMap_append, firstSeen_append, List.flatMap_singleton,
    versionsOf]

theorem mem_entriesOf : e ∈ entriesOf visits ↔ ∃ visit ∈ visits, visit.entry = e := by
  simp [entriesOf]

theorem nodup_entriesOf (visits : List Visit) : (entriesOf visits).Nodup := nodup_firstSeen _

theorem mem_entriesOf_of_ladder (h : e ∈ (laddersOf visits).map Prod.fst) : e ∈ entriesOf visits := by
  obtain ⟨⟨e', versions⟩, hmem, rfl⟩ := List.mem_map.1 h
  obtain ⟨visit, hvisit, hladder⟩ := List.mem_filterMap.1 hmem
  cases visit with
  | stamp e => cases hladder
  | ladder e vs =>
    obtain ⟨rfl, rfl⟩ := Prod.mk.inj (Option.some.inj hladder)
    exact mem_entriesOf.2 ⟨_, hvisit, rfl⟩

end

/-! ### What a session gathers -/

/-- A step of the binary ladder for a version, after some ladders: it has the commitment
of the version if one of them found it, unless that is the one to be recomputed. -/
structure LabelLog.StepFor (L : LabelLog) (target : Option ℕ) (ladders : List (ℕ × List ℕ)) (v : ℕ)
    (step : BinaryLadderStep) : Prop where
  proof : step.proof = L.vrfProof v
  commitment : ∀ c ∈ step.commitment, c = L.commitment v
  found : target ≠ some v → (∃ l ∈ ladders, v ∈ l.2 ∧ L.present l.1 v = true) →
    step.commitment.isSome
  absent : step.commitment.isSome → ∃ l ∈ ladders, v ∈ l.2 ∧ L.present l.1 v = true

/-- The steps of the binary ladder after some ladders. -/
structure LabelLog.Steps (L : LabelLog) (target : Option ℕ) (ladders : List (ℕ × List ℕ))
    (steps : List (ℕ × BinaryLadderStep)) : Prop where
  versions : steps.map Prod.fst = firstSeen (ladders.flatMap Prod.snd)
  step : ∀ x ∈ steps, L.StepFor target ladders x.1 x.2

/-- **What a session holds** after the visits of a walk. -/
structure TraversalSession.Gathered (P : Primitives) (label : Octets) (L : LabelLog)
    (target : Option ℕ) (visits : List Visit) (s : TraversalSession) : Prop where
  label : s.label = label
  order : s.tsOrder = entriesOf visits
  bound : ∀ e ∈ entriesOf visits, e < L.size
  timestamps : ∀ e ∈ entriesOf visits, s.timestamps e = some (L.timestamp e)
  proofs : List.Forall₂ (fun (l : ℕ × List ℕ) (p : ℕ × PrefixProof) => p.1 = l.1 ∧
    p.2.Proves P (L.contents l.1) (l.2.map L.key)) (laddersOf visits) s.prefixProofs
  roots : ∀ e ∈ entriesOf visits, e ∉ (laddersOf visits).map Prod.fst →
    s.availableRoots e = some (L.root P e)
  available : ∀ e, ∀ root ∈ s.availableRoots e, root = L.root P e
  steps : L.Steps target (laddersOf visits) s.binaryLadder

namespace TraversalSession

variable {P : Primitives} {t : Tree} {label : Octets} {L : LabelLog} {target : Option ℕ}
  {visits : List Visit} {s : TraversalSession} {e : ℕ}

theorem gathered_new (P : Primitives) (label : Octets) (L : LabelLog) (target : Option ℕ) :
    (TraversalSession.new label).Gathered P label L target [] where
  label := rfl
  order := rfl
  bound e he := by cases he
  timestamps e he := by cases he
  proofs := .nil
  roots e he := by cases he
  available e root h := by cases h
  steps := ⟨rfl, fun x hx => by cases hx⟩

section

variable (s : TraversalSession) (idx : ℕ) (ts : U64)

theorem addNode_tsOrder : (s.addNode idx ts).tsOrder = appendNew s.tsOrder idx := by
  unfold addNode appendNew
  split <;> rfl

@[simp] theorem addNode_label : (s.addNode idx ts).label = s.label := by
  unfold addNode
  split <;> rfl

@[simp] theorem addNode_prefixProofs : (s.addNode idx ts).prefixProofs = s.prefixProofs := by
  unfold addNode
  split <;> rfl

@[simp] theorem addNode_availableRoots : (s.addNode idx ts).availableRoots = s.availableRoots := by
  unfold addNode
  split <;> rfl

@[simp] theorem addNode_binaryLadder : (s.addNode idx ts).binaryLadder = s.binaryLadder := by
  unfold addNode
  split <;> rfl

@[simp] theorem addNode_foundValue : (s.addNode idx ts).foundValue = s.foundValue := by
  unfold addNode
  split <;> rfl

@[simp] theorem addNode_foundOpening : (s.addNode idx ts).foundOpening = s.foundOpening := by
  unfold addNode
  split <;> rfl

end

/-- Noting an entry's timestamp. -/
theorem Gathered.timestamps_addNode (h : s.Gathered P label L target visits) :
    ∀ e' ∈ appendNew (entriesOf visits) e,
      (s.addNode e (L.timestamp e)).timestamps e' = some (L.timestamp e') := by
  intro e' he'
  rw [addNode]
  split_ifs with hmem
  · rw [h.order] at hmem
    rw [appendNew_of_mem hmem] at he'
    exact h.timestamps e' he'
  · rcases mem_appendNew.1 he' with he' | rfl
    · have hne : e' ≠ e := fun heq => hmem (h.order ▸ heq ▸ he')
      dsimp only
      rw [Function.update_of_ne hne]
      exact h.timestamps e' he'
    · exact Function.update_self ..

theorem Gathered.bound_append (h : s.Gathered P label L target visits) (he : e < L.size) :
    ∀ e' ∈ appendNew (entriesOf visits) e, e' < L.size := by
  intro e' he'
  rcases mem_appendNew.1 he' with he' | rfl
  · exact h.bound e' he'
  · exact he

/-- **A visit to an entry's timestamp** is gathered. -/
theorem Gathered.visitTimestampOnly (h : s.Gathered P label L target visits)
    (hs : t.ServesLog P L) (he : e < L.size) :
    ∃ s', s.visitTimestampOnly t e = .ok s' ∧ s'.Gathered P label L target (visits ++ [.stamp e]) ∧
      s'.foundValue = s.foundValue ∧ s'.foundOpening = s.foundOpening := by
  have hown : (s.availableRoots e).getD (L.root P e) = L.root P e := by
    cases havail : s.availableRoots e with
    | none => exact Option.getD_none
    | some root => exact h.available e root havail
  have havailable : ∀ e', Function.update s.availableRoots e (some (L.root P e)) e' =
      if e' = e then some (L.root P e) else s.availableRoots e' := fun e' => by
    rw [Function.update_apply]
  refine ⟨{ s.addNode e (L.timestamp e) with
    availableRoots := Function.update s.availableRoots e (some (L.root P e)) }, ?_, ?_,
    addNode_foundValue .., addNode_foundOpening ..⟩
  · rw [TraversalSession.visitTimestampOnly, hs.timestamp e he, Result.ok_bind, hs.prefixRoot e he]
    simp only [addNode_availableRoots, hown, Result.pure_eq]
  · constructor
    · exact (addNode_label ..).trans h.label
    · rw [entriesOf_stamp, ← h.order]
      exact addNode_tsOrder s e _
    · rw [entriesOf_stamp]
      exact h.bound_append he
    · rw [entriesOf_stamp]
      exact h.timestamps_addNode
    · rw [laddersOf_stamp]
      exact (addNode_prefixProofs s e (L.timestamp e)).symm ▸ h.proofs
    · intro e' he' hladders
      rw [laddersOf_stamp] at hladders
      rw [entriesOf_stamp] at he'
      refine (havailable e').trans ?_
      split_ifs with heq
      · rw [heq]
      · exact h.roots e' ((mem_appendNew.1 he').resolve_right heq) hladders
    · intro e' root hroot
      have hroot := (havailable e').symm.trans hroot
      split_ifs at hroot with heq
      · rw [heq, Option.some.inj hroot]
      · exact h.available e' root hroot
    · rw [laddersOf_stamp]
      exact (addNode_binaryLadder s e (L.timestamp e)).symm ▸ h.steps

theorem Gathered.visitAll (hs : t.ServesLog P L) : ∀ {nodes : List ℕ} {visits : List Visit}
    {s : TraversalSession}, s.Gathered P label L target visits → (∀ e ∈ nodes, e < L.size) →
    ∃ s', TraversalSession.visitAll t nodes s = .ok s' ∧
      s'.Gathered P label L target (visits ++ nodes.map .stamp) ∧
      s'.foundValue = s.foundValue ∧ s'.foundOpening = s.foundOpening
  | [], visits, s, h, _ => ⟨s, rfl, by rwa [List.map_nil, List.append_nil], rfl, rfl⟩
  | e :: nodes, visits, s, h, hlt => by
    obtain ⟨s₁, hrun₁, h₁, hv₁, ho₁⟩ := h.visitTimestampOnly hs (hlt e List.mem_cons_self)
    obtain ⟨s₂, hrun₂, h₂, hv₂, ho₂⟩ := Gathered.visitAll hs h₁ fun e' he' =>
      hlt e' (List.mem_cons_of_mem _ he')
    rw [List.append_assoc] at h₂
    refine ⟨s₂, ?_, h₂, hv₂.trans hv₁, ho₂.trans ho₁⟩
    rw [TraversalSession.visitAll, hrun₁, Result.ok_bind, hrun₂]

end TraversalSession

/-! ### The steps of a ladder -/

namespace LabelLog

variable {L : LabelLog} {target : Option ℕ} {ladders : List (ℕ × List ℕ)} {versions : List ℕ}
  {steps : List (ℕ × BinaryLadderStep)} {step : BinaryLadderStep} {e v v' : ℕ} {c : Option Octets}

/-- One more version of a ladder, for the step of another one. -/
theorem StepFor.of_ne (h : L.StepFor target (ladders ++ [(e, versions)]) v' step) (hne : v' ≠ v) :
    L.StepFor target (ladders ++ [(e, versions ++ [v])]) v' step := by
  have hiff : (∃ l ∈ ladders ++ [(e, versions ++ [v])], v' ∈ l.2 ∧ L.present l.1 v' = true) ↔
      ∃ l ∈ ladders ++ [(e, versions)], v' ∈ l.2 ∧ L.present l.1 v' = true := by
    simp [hne]
  exact ⟨h.proof, h.commitment, fun ht hex => h.found ht (hiff.1 hex), fun hc => hiff.2 (h.absent hc)⟩

theorem Steps.nil (h : L.Steps target ladders steps) (e : ℕ) :
    L.Steps target (ladders ++ [(e, [])]) steps := by
  have hiff : ∀ v, (∃ l ∈ ladders ++ [(e, [])], v ∈ l.2 ∧ L.present l.1 v = true) ↔
      ∃ l ∈ ladders, v ∈ l.2 ∧ L.present l.1 v = true := fun v => by
    simp
  refine ⟨by simpa using h.versions, fun x hx => ?_⟩
  have hstep := h.step x hx
  exact ⟨hstep.proof, hstep.commitment, fun ht hex => hstep.found ht ((hiff x.1).1 hex),
    fun hc => (hiff x.1).2 (hstep.absent hc)⟩

/-- What a lookup of a version at an entry yields for the step of the version. -/
structure Yields (L : LabelLog) (target : Option ℕ) (e v : ℕ) (c : Option Octets) : Prop where
  commitment : ∀ x ∈ c, x = L.commitment v
  found : target ≠ some v → L.present e v = true → c.isSome
  absent : c.isSome → L.present e v = true

/-- **A version that was looked up before**: its step takes over the commitment. -/
theorem Steps.fill (h : L.Steps target (ladders ++ [(e, versions)]) steps) (hc : L.Yields target e v c)
    (hmem : v ∈ steps.map Prod.fst) :
    L.Steps target (ladders ++ [(e, versions ++ [v])])
      (steps.map (TraversalSession.fillStep v c)) := by
  have hfst : ∀ x, (TraversalSession.fillStep v c x).1 = x.1 := fun x => by
    unfold TraversalSession.fillStep
    split <;> rfl
  constructor
  · have hseen : v ∈ firstSeen ((ladders ++ [(e, versions)]).flatMap Prod.snd) := h.versions ▸ hmem
    rw [List.map_map, show Prod.fst ∘ TraversalSession.fillStep v c = Prod.fst from funext hfst,
      h.versions]
    simp only [List.flatMap_append, List.flatMap_cons, List.flatMap_nil, List.append_nil,
      ← List.append_assoc] at hseen ⊢
    rw [firstSeen_concat, appendNew_of_mem hseen]
  · intro x hx
    obtain ⟨x, hx', rfl⟩ := List.mem_map.1 hx
    have hold := h.step x hx'
    rw [hfst]
    rcases eq_or_ne x.1 v with heq | hne
    · subst heq
      rcases hcomm : x.2.commitment with _ | old
      · have hfill : (TraversalSession.fillStep x.1 c x).2 = { x.2 with commitment := c } := by
          rw [TraversalSession.fillStep, if_pos ⟨rfl, hcomm⟩]
        rw [hfill]
        refine ⟨hold.proof, hc.commitment, fun ht hex => ?_, fun hsome =>
          ⟨(e, versions ++ [x.1]), by simp, by simp, hc.absent hsome⟩⟩
        obtain ⟨l, hl, hvl, hpresent⟩ := hex
        rcases List.mem_append.1 hl with hl | hl
        · have := hold.found ht ⟨l, List.mem_append_left _ hl, hvl, hpresent⟩
          rw [hcomm] at this
          cases this
        · obtain rfl := List.mem_singleton.1 hl
          exact hc.found ht hpresent
      · have hfill : (TraversalSession.fillStep x.1 c x).2 = x.2 := by
          rw [TraversalSession.fillStep, if_neg fun h => by rw [hcomm] at h; cases h.2]
        rw [hfill]
        refine ⟨hold.proof, hold.commitment, fun _ _ => by rw [hcomm]; rfl, fun hsome => ?_⟩
        obtain ⟨l, hl, hvl, hpresent⟩ := hold.absent hsome
        rcases List.mem_append.1 hl with hl | hl
        · exact ⟨l, List.mem_append_left _ hl, hvl, hpresent⟩
        · obtain rfl := List.mem_singleton.1 hl
          exact ⟨(e, versions ++ [x.1]), by simp, by simp, hpresent⟩
    · have hfill : (TraversalSession.fillStep v c x).2 = x.2 := by
        rw [TraversalSession.fillStep, if_neg fun h => hne h.1]
      rw [hfill]
      exact hold.of_ne hne

/-- **A new version** has its step at the end. -/
theorem Steps.append (h : L.Steps target (ladders ++ [(e, versions)]) steps)
    (hc : L.Yields target e v c) (hmem : v ∉ steps.map Prod.fst) :
    L.Steps target (ladders ++ [(e, versions ++ [v])]) (steps ++ [(v, ⟨L.vrfProof v, c⟩)]) := by
  have hseen : v ∉ firstSeen ((ladders ++ [(e, versions)]).flatMap Prod.snd) := h.versions ▸ hmem
  constructor
  · have hnew := appendNew_of_not_mem hseen
    simp only [List.flatMap_append, List.flatMap_cons, List.flatMap_nil, List.append_nil] at hnew ⊢
    rw [← List.append_assoc, firstSeen_concat, hnew, List.map_append, h.versions]
    simp
  · intro x hx
    rcases List.mem_append.1 hx with hx | hx
    · exact (h.step x hx).of_ne fun heq => hmem (heq ▸ List.mem_map_of_mem hx)
    · obtain rfl := List.mem_singleton.1 hx
      refine ⟨rfl, hc.commitment, fun ht hex => ?_, fun hsome =>
        ⟨(e, versions ++ [v]), by simp, by simp, hc.absent hsome⟩⟩
      obtain ⟨l, hl, hvl, hpresent⟩ := hex
      rcases List.mem_append.1 hl with hl | hl
      · refine absurd (mem_firstSeen.2 (List.mem_flatMap.2 ⟨l, ?_, hvl⟩)) hseen
        exact List.mem_append_left _ hl
      · obtain rfl := List.mem_singleton.1 hl
        exact hc.found ht hpresent

end LabelLog

namespace TraversalSession

variable {P : Primitives} {t : Tree} {label : Octets} {L : LabelLog} {target extract : Option ℕ}
  {visits : List Visit} {s : TraversalSession} {e v : ℕ} {ladders : List (ℕ × List ℕ)}

theorem yields (he : e < L.size) (hv : v ≤ maxVersion) (hextract : extract = none ∨ extract = target) :
    L.Yields target e v (if extract = some v then none else L.contents e (L.key v)) := by
  rw [L.contents_key he hv]
  split_ifs with h₁ h₂
  · refine ⟨fun x hx => (by cases hx), fun ht => ?_, fun h => (by cases h)⟩
    rcases hextract with hextract | hextract
    · rw [hextract] at h₁
      cases h₁
    · exact absurd (hextract ▸ h₁) ht
  · exact ⟨fun x hx => (Option.some.inj hx).symm, fun _ _ => rfl, fun _ => h₂⟩
  · exact ⟨fun x hx => (by cases hx), fun _ hp => absurd hp h₂, fun h => (by cases h)⟩

theorem addStep_eq (hs : t.Serves P label L) (hlabel : s.label = label) (he : e < L.size)
    (hv : v ≤ maxVersion) (hextract : extract = none ∨ extract = target) {versions : List ℕ}
    (h : L.Steps target (ladders ++ [(e, versions)]) s.binaryLadder) :
    ∃ steps, s.addStep P t extract (v, L.contents e (L.key v)) = .ok { s with binaryLadder := steps } ∧
      L.Steps target (ladders ++ [(e, versions ++ [v])]) steps := by
  have hyields := yields he hv hextract
  rw [addStep]
  dsimp only
  generalize (if extract = some v then none else L.contents e (L.key v)) = c at hyields ⊢
  split_ifs with hmem
  · exact ⟨_, rfl, h.fill hyields hmem⟩
  · rw [hlabel, hs.vrf v hv, Result.ok_bind]
    exact ⟨_, rfl, h.append hyields hmem⟩

theorem addSteps_eq (hs : t.Serves P label L) (he : e < L.size)
    (hextract : extract = none ∨ extract = target) : ∀ {versions done : List ℕ} {s : TraversalSession},
    s.label = label → (∀ v ∈ versions, v ≤ maxVersion) →
    L.Steps target (ladders ++ [(e, done)]) s.binaryLadder →
    ∃ steps, addSteps P t extract (versions.map fun v => (v, L.contents e (L.key v))) s =
        .ok { s with binaryLadder := steps } ∧
      L.Steps target (ladders ++ [(e, done ++ versions)]) steps
  | [], done, s, _, _, h => ⟨s.binaryLadder, rfl, by rwa [List.append_nil]⟩
  | v :: versions, done, s, hlabel, hv, h => by
    obtain ⟨steps₁, hrun₁, h₁⟩ := addStep_eq hs hlabel he (hv v List.mem_cons_self) hextract h
    obtain ⟨steps₂, hrun₂, h₂⟩ := addSteps_eq (s := { s with binaryLadder := steps₁ }) hs he hextract
      hlabel (fun v' hv' => hv v' (List.mem_cons_of_mem _ hv')) h₁
    rw [List.append_assoc, List.singleton_append] at h₂
    refine ⟨steps₂, ?_, h₂⟩
    rw [List.map_cons, addSteps, hrun₁, Result.ok_bind, hrun₂]

/-- The value and the opening that a visit fetches. -/
def extracted (t : Tree) (extract : Option ℕ) (s : TraversalSession) : Result TraversalSession :=
  match extract with
  | none => .ok s
  | some v => do
    let (value, opening) ← t.extractValueAndOpening (t.store.history s.label) v
    return { s with foundValue := some value, foundOpening := opening }

/-- **A visit with a ladder** is gathered. -/
theorem Gathered.visit_eq (h : s.Gathered P label L target visits) (hs : t.Serves P label L)
    (he : e < L.size) {versions : List ℕ} (hv : ∀ v ∈ versions, v ≤ maxVersion)
    (hextract : extract = none ∨ extract = target) :
    ∃ s', s.visit P t e versions extract = extracted t extract s' ∧
      s'.Gathered P label L target (visits ++ [.ladder e versions]) ∧
      s'.foundValue = s.foundValue ∧ s'.foundOpening = s.foundOpening := by
  obtain ⟨ptr, pp, hptr, hproof, hproves⟩ := hs.generateLadderProof he hv
  have hlabel : (s.addNode e (L.timestamp e)).label = label := (addNode_label ..).trans h.label
  have hsteps : L.Steps target (laddersOf visits ++ [(e, [])])
      ((s.addNode e (L.timestamp e)).addProof e pp).binaryLadder := by
    change L.Steps _ _ (s.addNode e (L.timestamp e)).binaryLadder
    rw [addNode_binaryLadder]
    exact h.steps.nil e
  obtain ⟨steps, hadd, hsteps'⟩ := addSteps_eq (s := (s.addNode e (L.timestamp e)).addProof e pp)
    hs he hextract hlabel hv hsteps
  refine ⟨{ (s.addNode e (L.timestamp e)).addProof e pp with binaryLadder := steps }, ?_, ?_,
    addNode_foundValue .., addNode_foundOpening ..⟩
  · rw [TraversalSession.visit, hs.timestamp e he, Result.ok_bind]
    dsimp only
    rw [hptr, Result.ok_bind, hlabel, hproof, Result.ok_bind]
    dsimp only
    rw [hadd, Result.ok_bind]
    cases extract with
    | none => rfl
    | some v => rfl
  · constructor
    · exact hlabel
    · rw [entriesOf_ladder, ← h.order]
      exact addNode_tsOrder s e _
    · rw [entriesOf_ladder]
      exact h.bound_append he
    · rw [entriesOf_ladder]
      exact h.timestamps_addNode
    · rw [laddersOf_ladder]
      change List.Forall₂ _ _ ((s.addNode e (L.timestamp e)).prefixProofs ++ [(e, pp)])
      rw [addNode_prefixProofs]
      exact List.rel_append h.proofs (.cons ⟨rfl, hproves⟩ .nil)
    · intro e' he' hladders
      rw [laddersOf_ladder, List.map_append, List.mem_append, not_or] at hladders
      rw [entriesOf_ladder] at he'
      have hold := (mem_appendNew.1 he').resolve_right fun heq => hladders.2 (by simp [heq])
      exact (congrFun (addNode_availableRoots s e (L.timestamp e)) e').trans
        (h.roots e' hold hladders.1)
    · intro e' root hroot
      exact h.available e' root ((congrFun (addNode_availableRoots s e (L.timestamp e)) e').symm.trans
        hroot)
    · rw [laddersOf_ladder]
      exact hsteps'

theorem Gathered.found (h : s.Gathered P label L target visits) (value : Option UpdateValue)
    (opening : Octets) :
    ({ s with foundValue := value, foundOpening := opening } : TraversalSession).Gathered P label L
      target visits :=
  ⟨h.label, h.order, h.bound, h.timestamps, h.proofs, h.roots, h.available, h.steps⟩

end TraversalSession

/-! ### Combined proofs -/

/-- The entries of a walk from left to right. -/
def sortedEntries (visits : List Visit) : List ℕ := (entriesOf visits).mergeSort (· ≤ ·)

/-- **A combined proof of the visits of a walk**, for a client that has seen the log up to
a size. -/
structure Transcript (P : Primitives) (L : LabelLog) (visits : List Visit) (m : ℕ)
    (proof : CombinedTreeProof) : Prop where
  bound : ∀ e ∈ entriesOf visits, e < L.size
  timestamps : proof.timestamps = (entriesOf visits).map L.timestamp
  proofs : List.Forall₂ (fun (l : ℕ × List ℕ) (pp : PrefixProof) =>
    pp.Proves P (L.contents l.1) (l.2.map L.key)) (laddersOf visits) proof.prefixProofs
  roots : proof.prefixRoots =
    ((sortedEntries visits).filter fun e => e ∉ (laddersOf visits).map Prod.fst).map (L.root P)
  inclusion : proof.inclusion = some ⟨neededValues P (L.leaves P) (sortedEntries visits) m⟩

section

variable {visits : List Visit}

@[simp] theorem mem_sortedEntries {e : ℕ} : e ∈ sortedEntries visits ↔ e ∈ entriesOf visits :=
  List.mem_mergeSort

theorem pairwise_sortedEntries (visits : List Visit) : (sortedEntries visits).Pairwise (· < ·) := by
  have hle := List.pairwise_mergeSort' (· ≤ ·) (entriesOf visits)
  have hne : (sortedEntries visits).Nodup := List.nodup_mergeSort.2 (nodup_entriesOf visits)
  exact (hle.and hne).imp fun h => lt_of_le_of_ne h.1 h.2

theorem filter_sortedEntries (visits : List Visit) (p : ℕ → Bool) :
    ((entriesOf visits).filter p).mergeSort (· ≤ ·) = (sortedEntries visits).filter p := by
  refine List.Perm.eq_of_pairwise' (r := (· ≤ ·)) (List.pairwise_mergeSort' _ _)
    ((List.pairwise_mergeSort' _ _).filter p) ?_
  exact (List.mergeSort_perm _ _).trans ((List.mergeSort_perm _ _).symm.filter p)

/-- **The combined proof that a session makes** of the visits of a walk, beside the
elements of its inclusion proof. -/
theorem TraversalSession.Gathered.finalize_elements {P : Primitives} {t : Tree} {label : Octets}
    {L : LabelLog} {target : Option ℕ} {s : TraversalSession} {m : ℕ}
    (h : s.Gathered P label L target visits) {elements : List Octets}
    (hproof : t.inclusionProof P (sortedEntries visits) L.size m = .ok elements) :
    ∃ proof, s.finalize P t L.size m = .ok proof ∧ proof.inclusion = some ⟨elements⟩ ∧
      (elements = neededValues P (L.leaves P) (sortedEntries visits) m →
        Transcript P L visits m proof) := by
  have hladders : s.prefixProofs.map Prod.fst = (laddersOf visits).map Prod.fst := by
    have heq : List.Forall₂ (fun a b => a = b) (s.prefixProofs.map Prod.fst)
        ((laddersOf visits).map Prod.fst) :=
      List.forall₂_map_left_iff.2 (List.forall₂_map_right_iff.2 (h.proofs.flip.imp fun _ _ h => h.1))
    rwa [List.forall₂_eq_eq_eq] at heq
  have hproofs : List.Forall₂ (fun (l : ℕ × List ℕ) (pp : PrefixProof) =>
      pp.Proves P (L.contents l.1) (l.2.map L.key)) (laddersOf visits) (s.prefixProofs.map Prod.snd) :=
    List.forall₂_map_right_iff.2 (h.proofs.imp fun _ _ h => h.2)
  refine ⟨⟨_, s.prefixProofs.map Prod.snd, _, some ⟨elements⟩⟩, ?_, rfl, fun heq =>
    ⟨h.bound, rfl, hproofs, rfl, by rw [heq]⟩⟩
  have htimestamps : (entriesOf visits).filterMap s.timestamps = (entriesOf visits).map L.timestamp := by
    exact List.filterMap_eq_map_iff_forall_eq_some.2 h.timestamps
  have hroots : ((sortedEntries visits).filter fun e => e ∉ (laddersOf visits).map Prod.fst).filterMap
      s.availableRoots =
        ((sortedEntries visits).filter fun e => e ∉ (laddersOf visits).map Prod.fst).map (L.root P) := by
    refine List.filterMap_eq_map_iff_forall_eq_some.2 fun e he => ?_
    obtain ⟨hmem, hnot⟩ := List.mem_filter.1 he
    exact h.roots e (mem_sortedEntries.1 hmem) (by simpa using hnot)
  rw [TraversalSession.finalize, hladders, h.order, filter_sortedEntries, htimestamps, hroots]
  rw [show (entriesOf visits).mergeSort (· ≤ ·) = sortedEntries visits from rfl, hproof]
  rfl

/-- Without auditors the inclusion proof has the values a client needs. -/
theorem Tree.inclusionProof_neededValues {P : Primitives} {t : Tree} {leaves : List Octets}
    {visited : List ℕ} {m : ℕ} (hlog : Holds t.store leaves) (hauditors : t.auditors = [])
    (hne : leaves ≠ []) (hsize : leaves.length ≤ 2 ^ 62) (hbound : ∀ e ∈ visited, e < leaves.length)
    (hm : m ≤ leaves.length) :
    t.inclusionProof P visited leaves.length m = .ok (neededValues P leaves visited m) := by
  have hbatch : LogTree.getBatchProofForNodes P t.store visited leaves.length m [] =
      .ok ((MerkleLog.needed leaves.length (LogTree.descends visited [] leaves.length) (LogTree.keeps m)
        (MerkleLog.height leaves.length) 0).map fun c =>
          MerkleLog.value (logPar P) (leafAt leaves) leaves.length c.1 c.2) :=
    LogTree.getBatchProofForNodes_eq hlog hsize hne hbound hm
  have hdescends : LogTree.descends visited [] leaves.length = MerkleLog.above visited := by
    funext k i
    exact LogTree.descends_nil _ _ k i
  rw [hdescends] at hbatch
  rw [Tree.inclusionProof, Tree.boundaries, hauditors, List.map_nil, List.max?_nil, Option.toList_none,
    hbatch, neededValues]

/-- **The combined proof** of a server without auditors. -/
theorem TraversalSession.Gathered.finalize {P : Primitives} {t : Tree} {label : Octets} {L : LabelLog}
    {target : Option ℕ} {s : TraversalSession} {m : ℕ} (h : s.Gathered P label L target visits)
    (hs : t.Serves P label L) (hauditors : t.auditors = []) (hpos : 0 < L.size)
    (hsize : L.size ≤ 2 ^ 62) (hm : m ≤ L.size) :
    ∃ proof, s.finalize P t L.size m = .ok proof ∧ Transcript P L visits m proof := by
  have hlen : (L.leaves P).length = L.size := L.length_leaves P
  have hproof := Tree.inclusionProof_neededValues (P := P) hs.log hauditors
    (List.length_pos_iff.1 (by omega)) (hlen ▸ hsize)
    (fun e (he : e ∈ sortedEntries visits) => by rw [hlen]; exact h.bound e (mem_sortedEntries.1 he))
    (hlen ▸ hm)
  rw [hlen] at hproof
  obtain ⟨proof, hfinal, -, htranscript⟩ := h.finalize_elements hproof
  exact ⟨proof, hfinal, htranscript rfl⟩

end

end KeyTransparency
