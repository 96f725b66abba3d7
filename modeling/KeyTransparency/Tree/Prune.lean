/-
# Pruning

`prune_expired_versions` of `src/tree/prune.rs`: the values and the openings of the
versions of a label that were superseded and whose log entry is older than the maximum
lifetime are deleted.  Nothing else of the store changes, and only the extraction of a
value reads what was deleted: a search that extracts another version is the same
(`Tree.traverseFixedSearch_without`).
-/

import KeyTransparency.Tree.LabelEntry
import KeyTransparency.Tree.Readable

namespace KeyTransparency

open BinaryLadder InOrder LogMath

namespace Tree

/-! ### The model -/

/-- The loop over the history. -/
def pruneLoop (treeSize greatest maxLife : ℕ) (rightmostTs : U64) :
    List (ℕ × ℕ) → ℕ → Tree → Result (ℕ × Tree)
  | [], pruned, t => .ok (pruned, t)
  | (version, pos) :: history, pruned, t =>
    -- the greatest version never expires through the lifetime mechanism
    if version = greatest then pruneLoop treeSize greatest maxLife rightmostTs history pruned t
    else do
      let entry ← t.findLogEntryForPrefixPos pos treeSize
      let ts ← LogTree.getTimestamp t.store entry
      if maxLife ≤ rightmostTs.val - ts.val then
        pruneLoop treeSize greatest maxLife rightmostTs history (pruned + 1)
          (t.without fun p => decide (p = pos))
      else pruneLoop treeSize greatest maxLife rightmostTs history pruned t

/-- The number of versions whose data was deleted. -/
def pruneExpiredVersions (t : Tree) (label : Octets) : Result (ℕ × Tree) :=
  match t.config.maximumLifetime with
  | none => .ok (0, t)
  | some maxLife =>
    if t.treeSize = 0 then .ok (0, t)
    else do
      let rightmostTs ← LogTree.getTimestamp t.store (t.treeSize - 1)
      match (t.store.history label).getLast? with
      | none => return (0, t)
      | some (greatest, _) =>
        pruneLoop t.treeSize greatest maxLife rightmostTs (t.store.history label) 0 t

/-- Whether an entry is older than the maximum lifetime. -/
def ExpiredAt (t : Tree) (e : ℕ) : Prop :=
  ∃ ts rightmostTs, LogTree.getTimestamp t.store e = .ok ts ∧
    LogTree.getTimestamp t.store (t.treeSize - 1) = .ok rightmostTs ∧
    t.isExpired rightmostTs ts = true

/-- Whether the entry that brought an update is. -/
def BroughtLongAgo (t : Tree) (pos : ℕ) : Prop :=
  ∃ e, t.findLogEntryForPrefixPos pos t.treeSize = .ok e ∧ t.ExpiredAt e

/-- A version that pruning deletes: one that was superseded and whose entry is expired. -/
structure Outlived (t : Tree) (label : Octets) (v : ℕ) : Prop where
  superseded : ∃ g pos, (t.store.history label).getLast? = some (g, pos) ∧ v ≠ g
  expired : ∃ pos, (v, pos) ∈ t.store.history label ∧ t.BroughtLongAgo pos

/-! ### What deleting leaves as it was -/

section

variable (P : Primitives) (t : Tree) (gone : ℕ → Bool)

theorem without_without (gone' : ℕ → Bool) :
    (t.without gone).without gone' = t.without fun p => gone' p || gone p := by
  simp only [without, Tree.mk.injEq, Store.mk.injEq, and_true, true_and]
  constructor <;> funext p <;> by_cases h : gone p = true <;> by_cases h' : gone' p = true <;>
    simp [h, h']

@[simp] theorem treeSize_without : (t.without gone).treeSize = t.treeSize := rfl

@[simp] theorem config_without : (t.without gone).config = t.config := rfl

@[simp] theorem history_without (label : Octets) :
    (t.without gone).store.history label = t.store.history label := rfl

@[simp] theorem getTimestamp_without (e : ℕ) :
    LogTree.getTimestamp (t.without gone).store e = LogTree.getTimestamp t.store e := rfl

@[simp] theorem getPrefixPtr_without (e : ℕ) :
    LogTree.getPrefixPtr (t.without gone).store e = LogTree.getPrefixPtr t.store e := rfl

@[simp] theorem getMaxVersionAt_without (history : List (ℕ × ℕ)) (e : ℕ) :
    (t.without gone).getMaxVersionAt history e = t.getMaxVersionAt history e := rfl

@[simp] theorem isExpired_without (rightmostTs ts : U64) :
    (t.without gone).isExpired rightmostTs ts = t.isExpired rightmostTs ts := rfl

@[simp] theorem isUnexpiredDistinguished_without (rightmostTs : U64) (dset : List ℕ) (e : ℕ)
    (ts : U64) : (t.without gone).isUnexpiredDistinguished rightmostTs dset e ts =
      t.isUnexpiredDistinguished rightmostTs dset e ts := rfl

@[simp] theorem findLogEntryForPrefixPos_without (pos n : ℕ) :
    (t.without gone).findLogEntryForPrefixPos pos n = t.findLogEntryForPrefixPos pos n := rfl

theorem resolveNode_without (n : ℕ) : ∀ fuel nodeId,
    LogTree.resolveNode P (t.without gone).store fuel nodeId n =
      LogTree.resolveNode P t.store fuel nodeId n := by
  intro fuel
  induction fuel with
  | zero => exact fun _ => rfl
  | succ fuel ih =>
    intro nodeId
    rw [LogTree.resolveNode, LogTree.resolveNode]
    simp only [ih]
    rfl

@[simp] theorem inclusionProof_without (visited : List ℕ) (n m : ℕ) :
    inclusionProof P (t.without gone) visited n m = inclusionProof P t visited n m := by
  simp only [inclusionProof, LogTree.getBatchProofForNodes, resolveNode_without]
  rfl

theorem searchLoop_without (index : Octets) : ∀ fuel curr copath nodes,
    PrefixTree.searchLoop P dropAll (t.without gone).store index fuel curr copath nodes =
      PrefixTree.searchLoop P dropAll t.store index fuel curr copath nodes := by
  intro fuel
  induction fuel with
  | zero => exact fun _ _ _ => rfl
  | succ fuel ih =>
    intro curr copath nodes
    rw [PrefixTree.searchLoop, PrefixTree.searchLoop]
    simp only [ih]
    rfl

@[simp] theorem generateLadderProof_without (ptr : ℕ) (label : Octets) (versions : List ℕ) :
    (t.without gone).generateLadderProof P ptr label versions =
      t.generateLadderProof P ptr label versions := by
  have hlookup : (t.without gone).ladderLookup P ptr label = t.ladderLookup P ptr label := by
    funext v
    simp only [ladderLookup, PrefixTree.searchForProof, searchLoop_without]
    rfl
  rw [generateLadderProof, generateLadderProof, hlookup]

theorem distinguishedBelow_without (window n : ℕ) : ∀ fuel node leftTs rightTs,
    distinguishedBelow (t.without gone).store window n fuel node leftTs rightTs =
      distinguishedBelow t.store window n fuel node leftTs rightTs := by
  intro fuel
  induction fuel with
  | zero => exact fun _ _ _ => rfl
  | succ fuel ih =>
    intro node leftTs rightTs
    rw [distinguishedBelow, distinguishedBelow]
    simp only [ih]
    rfl

@[simp] theorem findDistinguishedNodes_without (n : ℕ) :
    (t.without gone).findDistinguishedNodes n = t.findDistinguishedNodes n := by
  simp only [findDistinguishedNodes, distinguishedBelow_without]
  rfl

@[simp] theorem unexpiredDistinguishedLeft_without (rightmostTs : U64) (identified : ℕ) :
    ∀ dset, (t.without gone).unexpiredDistinguishedLeft rightmostTs identified dset =
      t.unexpiredDistinguishedLeft rightmostTs identified dset := by
  intro dset
  induction dset with
  | nil => rfl
  | cons d dset ih =>
    rw [unexpiredDistinguishedLeft, unexpiredDistinguishedLeft, ih]
    rfl

@[simp] theorem visitTimestampOnly_without (e : ℕ) (s : TraversalSession) :
    s.visitTimestampOnly (t.without gone) e = s.visitTimestampOnly t e := rfl

@[simp] theorem visitAll_without : ∀ (nodes : List ℕ) (s : TraversalSession),
    s.visitAll (t.without gone) nodes = s.visitAll t nodes := by
  intro nodes
  induction nodes with
  | nil => exact fun _ => rfl
  | cons e nodes ih =>
    intro s
    simp only [TraversalSession.visitAll, ih, visitTimestampOnly_without]

@[simp] theorem addSteps_without (extract : Option ℕ) : ∀ results (s : TraversalSession),
    s.addSteps P (t.without gone) extract results = s.addSteps P t extract results := by
  intro results
  induction results with
  | nil => exact fun _ => rfl
  | cons result results ih =>
    intro s
    simp only [TraversalSession.addSteps, ih]
    rfl

@[simp] theorem finalize_without (n m : ℕ) (s : TraversalSession) :
    s.finalize P (t.without gone) n m = s.finalize P t n m := by
  rw [TraversalSession.finalize, TraversalSession.finalize, inclusionProof_without]

end

/-! ### Searches -/

section

variable {P : Primitives} {t : Tree} {gone : ℕ → Bool} {label : Octets} {v n last : ℕ}

theorem visitTimestampOnly_label {e : ℕ} {s s' : TraversalSession}
    (h : s.visitTimestampOnly t e = .ok s') : s'.label = s.label := by
  obtain ⟨ts, -, h⟩ := Result.bind_eq_ok.1 h
  split at h <;> exact (Except.ok.inj h) ▸ TraversalSession.addNode_label ..

theorem visitAll_label : ∀ {nodes : List ℕ} {s s' : TraversalSession},
    s.visitAll t nodes = .ok s' → s'.label = s.label
  | [], s, s', h => (Except.ok.inj h) ▸ rfl
  | node :: nodes, s, s', h => by
    obtain ⟨s₁, h₁, h⟩ := Result.bind_eq_ok.1 h
    exact (visitAll_label h).trans (visitTimestampOnly_label h₁)

/-- **A visit is the same** where the data of the version that it extracts is. -/
theorem visit_without {e : ℕ} {versions : List ℕ} {extract : Option ℕ} {s : TraversalSession}
    (h : ∀ v ∈ extract, (t.without gone).extractValueAndOpening (t.store.history s.label) v =
      t.extractValueAndOpening (t.store.history s.label) v) :
    s.visit P (t.without gone) e versions extract = s.visit P t e versions extract := by
  simp only [TraversalSession.visit, getTimestamp_without, getPrefixPtr_without,
    generateLadderProof_without, addSteps_without, history_without]
  refine bind_congr fun ts => bind_congr fun ptr => bind_congr fun x => ?_
  cases hadd : ((s.addNode e ts).addProof e x.1).addSteps P t extract x.2 with
  | error err => rfl
  | ok s₁ =>
    have hlabel : s₁.label = s.label := by
      obtain ⟨steps, rfl⟩ := addSteps_eq_ok hadd
      exact TraversalSession.addNode_label ..
    rw [Result.ok_bind, Result.ok_bind]
    cases extract with
    | none => rfl
    | some v =>
      dsimp only
      rw [hlabel, h v rfl]

theorem fixedSearchStep_label {history : List (ℕ × ℕ)} {rightmostTs : U64} {dset : List ℕ} {curr : ℕ}
    {w w' : FixedSearch} {turn : Walk}
    (h : fixedSearchStep P t n v history rightmostTs dset curr w = .ok (turn, w')) :
    w'.session.label = w.session.label := by
  obtain ⟨ts, -, h⟩ := Result.bind_eq_ok.1 h
  dsimp only at h
  generalize (if isLeaf curr then none else ibstRightChild curr n) = rightChild at h
  by_cases hexp : t.isExpired rightmostTs ts = true
  · rw [if_pos hexp] at h
    obtain ⟨session, hvisit, h⟩ := Result.bind_eq_ok.1 h
    cases rightChild <;> exact (Prod.mk.inj (Except.ok.inj h)).2 ▸ visitTimestampOnly_label hvisit
  · rw [if_neg hexp] at h
    obtain ⟨session, hvisit, h⟩ := Result.bind_eq_ok.1 h
    have hlabel := visit_label hvisit
    split_ifs at h
    · cases rightChild <;> exact (Prod.mk.inj (Except.ok.inj h)).2 ▸ hlabel
    · exact (Prod.mk.inj (Except.ok.inj h)).2 ▸ hlabel
    · exact (Prod.mk.inj (Except.ok.inj h)).2 ▸ hlabel
    · exact (Prod.mk.inj (Except.ok.inj h)).2 ▸ hlabel

theorem fixedSearchLoop_label {history : List (ℕ × ℕ)} {rightmostTs : U64} {dset : List ℕ} :
    ∀ {fuel curr : ℕ} {w w' : FixedSearch} {success : Bool},
      fixedSearchLoop P t n v history rightmostTs dset fuel curr w = .ok (success, w') →
        w'.session.label = w.session.label
  | 0, _, _, _, _, h => by cases h
  | fuel + 1, curr, w, w', success, h => by
    obtain ⟨⟨turn, w₁⟩, hstep, h⟩ := Result.bind_eq_ok.1 h
    have hlabel := fixedSearchStep_label hstep
    cases turn with
    | goto entry => exact (fixedSearchLoop_label h).trans hlabel
    | stop => exact (Prod.mk.inj (Except.ok.inj h)).2 ▸ hlabel
    | terminal entry => exact (Prod.mk.inj (Except.ok.inj h)).2 ▸ hlabel

/-- **A search for a version is the same** where the version's data is. -/
theorem traverseFixedSearch_without
    (h : (t.without gone).extractValueAndOpening (t.store.history label) v =
      t.extractValueAndOpening (t.store.history label) v) :
    traverseFixedSearch P (t.without gone) n label v last = traverseFixedSearch P t n label v last := by
  have hvisit : ∀ (e : ℕ) (versions : List ℕ) (extract : Option ℕ) (s : TraversalSession),
      s.label = label → (∀ v' ∈ extract, v' = v) →
      s.visit P (t.without gone) e versions extract = s.visit P t e versions extract :=
    fun e versions extract s hlabel hextract => visit_without fun v' hv' => by
      rw [hlabel, hextract v' hv', h]
  have hextract : ∀ m : Option ℕ, ∀ v' ∈ (if m = some v then some v else none), v' = v := by
    intro m v' hv'
    split_ifs at hv'
    · exact (Option.some.inj hv').symm
    · cases hv'
  have hstep : ∀ rightmostTs dset curr (w : FixedSearch), w.session.label = label →
      fixedSearchStep P (t.without gone) n v (t.store.history label) rightmostTs dset curr w =
        fixedSearchStep P t n v (t.store.history label) rightmostTs dset curr w := by
    intro rightmostTs dset curr w hlabel
    rw [fixedSearchStep, fixedSearchStep]
    refine bind_congr fun ts => ?_
    dsimp only
    rw [hvisit _ _ _ _ hlabel (hextract _)]
    rfl
  have hloop : ∀ rightmostTs dset fuel curr (w : FixedSearch), w.session.label = label →
      fixedSearchLoop P (t.without gone) n v (t.store.history label) rightmostTs dset fuel curr w =
        fixedSearchLoop P t n v (t.store.history label) rightmostTs dset fuel curr w := by
    intro rightmostTs dset fuel
    induction fuel with
    | zero => exact fun _ _ _ => rfl
    | succ fuel ih =>
      intro curr w hlabel
      rw [fixedSearchLoop, fixedSearchLoop, hstep _ _ _ _ hlabel]
      cases hrun : fixedSearchStep P t n v (t.store.history label) rightmostTs dset curr w with
      | error e => rfl
      | ok x =>
        obtain ⟨turn, w'⟩ := x
        rw [Result.ok_bind, Result.ok_bind]
        cases turn with
        | goto entry => exact ih entry w' ((fixedSearchStep_label hrun).trans hlabel)
        | stop => rfl
        | terminal entry => rfl
  have hlookup : ∀ rightmostTs dset (w : FixedSearch), w.session.label = label →
      fixedSearchLookup P (t.without gone) v rightmostTs dset w =
        fixedSearchLookup P t v rightmostTs dset w := by
    intro rightmostTs dset w hlabel
    rw [fixedSearchLookup, fixedSearchLookup]
    refine bind_congr fun identified => ?_
    rw [unexpiredDistinguishedLeft_without]
    refine bind_congr fun left => ?_
    rw [hvisit _ _ _ _ hlabel fun v' hv' => (Option.some.inj hv').symm]
  rw [traverseFixedSearch, traverseFixedSearch]
  simp only [history_without, getTimestamp_without, findDistinguishedNodes_without,
    TraversalSession.visitFrontier, visitAll_without, finalize_without]
  refine bind_congr fun rightmostTs => bind_congr fun dset => ?_
  cases hfrontier : (TraversalSession.new label).visitAll t (getFrontier n) with
  | error e => rw [Result.error_bind, Result.error_bind]
  | ok session =>
    rw [Result.ok_bind, Result.ok_bind, hloop _ _ _ _ _ (visitAll_label hfrontier)]
    cases hrun : fixedSearchLoop P t n v (t.store.history label) rightmostTs dset 65 (root n)
        ⟨session, false, false, [], []⟩ with
    | error e => rw [Result.error_bind, Result.error_bind]
    | ok x =>
      obtain ⟨success, w⟩ := x
      rw [Result.ok_bind, Result.ok_bind]
      dsimp only
      rw [hlookup _ _ _ ((fixedSearchLoop_label hrun).trans (visitAll_label hfrontier))]

/-- **A search for the greatest version is the same** where the greatest version's data
is. -/
theorem traverseGreatestSearch_without
    (h : ∀ rightmost ∈ (getFrontier n).getLast?,
      ∀ g ∈ t.getMaxVersionAt (t.store.history label) rightmost,
        (t.without gone).extractValueAndOpening (t.store.history label) g =
          t.extractValueAndOpening (t.store.history label) g) :
    traverseGreatestSearch P (t.without gone) n label last = traverseGreatestSearch P t n label last := by
  have hloop : ∀ {target rightmost : ℕ}, rightmost ∈ (getFrontier n).getLast? →
      target ∈ t.getMaxVersionAt (t.store.history label) rightmost →
      ∀ (nodes : List ℕ) (s : TraversalSession), s.label = label →
        greatestSearchLoop P (t.without gone) (t.store.history label) target rightmost nodes s =
          greatestSearchLoop P t (t.store.history label) target rightmost nodes s := by
    intro target rightmost hright htarget nodes
    induction nodes with
    | nil => exact fun _ _ => rfl
    | cons node nodes ih =>
      intro s hlabel
      have hvisit : ∀ versions, s.visit P (t.without gone) node versions
            (if node = rightmost then some target else none) =
          s.visit P t node versions (if node = rightmost then some target else none) := fun versions =>
        visit_without fun v' hv' => by
          split_ifs at hv'
          · rw [hlabel, ← Option.some.inj hv']
            exact h rightmost hright target htarget
          · cases hv'
      rw [greatestSearchLoop, greatestSearchLoop, getMaxVersionAt_without, hvisit]
      cases hrun : s.visit P t node
          (searchLadder target (t.getMaxVersionAt (t.store.history label) node))
          (if node = rightmost then some target else none) with
      | error e => rw [Result.error_bind, Result.error_bind]
      | ok s' =>
        rw [Result.ok_bind, Result.ok_bind]
        exact ih s' ((visit_label hrun).trans hlabel)
  rw [traverseGreatestSearch, traverseGreatestSearch]
  simp only [history_without, getMaxVersionAt_without, TraversalSession.visitFrontier,
    visitAll_without, finalize_without]
  cases hfrontier : (TraversalSession.new label).visitAll t (getFrontier n) with
  | error e => rw [Result.error_bind, Result.error_bind]
  | ok session =>
    rw [Result.ok_bind, Result.ok_bind]
    cases hright : (getFrontier n).getLast? with
    | none => rfl
    | some rightmost =>
      simp only [Option.elim_some, Result.ok_bind]
      cases htarget : t.getMaxVersionAt (t.store.history label) rightmost with
      | none => rfl
      | some target =>
        simp only [Option.elim_some, Result.ok_bind]
        rw [hloop hright htarget _ _ (visitAll_label hfrontier)]

/-- **The data of a version** is the same where none of its places was deleted. -/
theorem extractValueAndOpening_without {history : List (ℕ × ℕ)}
    (h : ∀ p, (v, p) ∈ history → gone p = false) :
    (t.without gone).extractValueAndOpening history v = t.extractValueAndOpening history v := by
  rw [extractValueAndOpening, extractValueAndOpening]
  cases hfind : history.find? fun h => h.1 = v with
  | none => rfl
  | some x =>
    have hv : x.1 = v := by simpa using List.find?_some hfind
    have hkept := h x.2 (hv ▸ List.mem_of_find?_eq_some hfind)
    simp [without, hkept]

/-! ### A search extracts its version -/

theorem visit_extracts {e : ℕ} {versions : List ℕ} {s s' : TraversalSession}
    (h : s.visit P t e versions (some v) = .ok s') :
    ∃ data, t.extractValueAndOpening (t.store.history s.label) v = .ok data := by
  obtain ⟨ts, -, h⟩ := Result.bind_eq_ok.1 h
  obtain ⟨ptr, -, h⟩ := Result.bind_eq_ok.1 h
  obtain ⟨⟨proof, results⟩, -, h⟩ := Result.bind_eq_ok.1 h
  obtain ⟨s₁, h₁, h⟩ := Result.bind_eq_ok.1 h
  obtain ⟨data, hdata, -⟩ := Result.bind_eq_ok.1 h
  have hlabel : s₁.label = s.label := by
    obtain ⟨steps, rfl⟩ := addSteps_eq_ok h₁
    exact TraversalSession.addNode_label ..
  exact ⟨data, hlabel ▸ hdata⟩

theorem fixedSearchStep_extracts {rightmostTs : U64} {dset : List ℕ} {curr entry : ℕ}
    {w w' : FixedSearch} (hlabel : w.session.label = label)
    (h : fixedSearchStep P t n v (t.store.history label) rightmostTs dset curr w =
      .ok (.terminal entry, w')) :
    ∃ data, t.extractValueAndOpening (t.store.history label) v = .ok data := by
  obtain ⟨ts, -, h⟩ := Result.bind_eq_ok.1 h
  dsimp only at h
  generalize (if isLeaf curr then none else ibstRightChild curr n) = rightChild at h
  by_cases hexp : t.isExpired rightmostTs ts = true
  · rw [if_pos hexp] at h
    obtain ⟨session, -, h⟩ := Result.bind_eq_ok.1 h
    cases rightChild <;> cases (Prod.mk.inj (Except.ok.inj h)).1
  · rw [if_neg hexp] at h
    obtain ⟨session, hvisit, h⟩ := Result.bind_eq_ok.1 h
    split_ifs at h with h₁ h₂ h₃ h₄
    · cases rightChild <;> cases (Prod.mk.inj (Except.ok.inj h)).1
    · cases (Prod.mk.inj (Except.ok.inj h)).1
    · cases (Prod.mk.inj (Except.ok.inj h)).1
    · have hgreatest : t.getMaxVersionAt (t.store.history label) curr = some v := by
        cases hm : t.getMaxVersionAt (t.store.history label) curr with
        | none => simp [hm] at h₁
        | some m =>
          simp only [hm, Option.all_some, Option.any_some, decide_eq_true_eq] at h₁ h₂
          rw [show m = v by omega]
      rw [if_pos hgreatest] at hvisit
      exact hlabel ▸ visit_extracts hvisit

theorem fixedSearchLoop_extracts {rightmostTs : U64} {dset : List ℕ} : ∀ {fuel curr : ℕ}
    {w w' : FixedSearch}, w.session.label = label →
    fixedSearchLoop P t n v (t.store.history label) rightmostTs dset fuel curr w = .ok (true, w') →
      ∃ data, t.extractValueAndOpening (t.store.history label) v = .ok data
  | 0, _, _, _, _, h => by cases h
  | fuel + 1, curr, w, w', hlabel, h => by
    obtain ⟨⟨turn, w₁⟩, hstep, h⟩ := Result.bind_eq_ok.1 h
    cases turn with
    | goto entry => exact fixedSearchLoop_extracts ((fixedSearchStep_label hstep).trans hlabel) h
    | stop => cases (Prod.mk.inj (Except.ok.inj h)).1
    | terminal entry => exact fixedSearchStep_extracts hlabel hstep

/-- **A search that succeeds** has extracted the version's data. -/
theorem traverseFixedSearch_extracts {r : SearchResultData}
    (h : traverseFixedSearch P t n label v last = .ok r) :
    ∃ data, t.extractValueAndOpening (t.store.history label) v = .ok data := by
  obtain ⟨rightmostTs, -, h⟩ := Result.bind_eq_ok.1 h
  obtain ⟨dset, -, h⟩ := Result.bind_eq_ok.1 h
  obtain ⟨session, hfrontier, h⟩ := Result.bind_eq_ok.1 h
  obtain ⟨⟨success, w⟩, hloop, h⟩ := Result.bind_eq_ok.1 h
  obtain ⟨session', hlookup, -⟩ := Result.bind_eq_ok.1 h
  have hlabel := visitAll_label hfrontier
  cases success with
  | true => exact fixedSearchLoop_extracts hlabel hloop
  | false =>
    obtain ⟨identified, -, hlookup⟩ := Result.bind_eq_ok.1 hlookup
    obtain ⟨left, -, hlookup⟩ := Result.bind_eq_ok.1 hlookup
    split_ifs at hlookup
    obtain ⟨session'', hvisit, -⟩ := Result.bind_eq_ok.1 hlookup
    have hlabel' : w.session.label = label := (fixedSearchLoop_label hloop).trans hlabel
    exact hlabel' ▸ visit_extracts hvisit

end

end Tree

end KeyTransparency
