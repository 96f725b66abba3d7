/-
# Serving a search for a fixed version

The path of a search for a fixed version is decided by the log alone: it goes right at an
entry that has outlived its lifetime or lacks the version, left at one with a greater
version (`LabelLog.goes`), and comes to a last entry (`LogMath.EndsAt`).  A server's walk
makes the visits of this path (`Tree.fixedSearchLoop_along`).
-/

import KeyTransparency.Client.GreatestSearch
import KeyTransparency.Tree.SearchPath

namespace KeyTransparency

open BinaryLadder InOrder LogMath

/-! ### The path -/

namespace LabelLog

variable (L : LabelLog) (lifetime : Option ℕ) (target e : ℕ)

/-- Whether an entry has outlived its lifetime, at the log's last timestamp. -/
def expired : Bool := KtClient.isExpired lifetime (L.timestamp (L.size - 1)) (L.timestamp e)

/-- Where a search for a version goes at an entry. -/
def goes : Ordering := if L.expired lifetime e then .lt else L.relation target e

/-- What a search for a version reads at an entry. -/
def fixedVisit : Visit :=
  if L.expired lifetime e then .stamp e else .ladder e (L.searchLadder target e)

/-- The visits of a search that has walked over some entries. -/
def fixedVisits (walked : List ℕ) : List Visit :=
  frontierVisits L.size ++ walked.map (L.fixedVisit lifetime target)

/-- An unexpired distinguished entry, which vouches for older ones. -/
def vouches (dset : List ℕ) (d : ℕ) : Bool := decide (d ∈ dset) && !L.expired lifetime d

/-- The first of some entries that has the version beneath greater ones. -/
def identified (walked : List ℕ) : Option ℕ :=
  (walked.filter fun e => L.goes lifetime target e = .gt).min?

/-- The entries on the way to an entry. -/
def pathTo (z : ℕ) : List ℕ := ibstDirectPathLoop z 65 L.size 0

/-- **The visits of a search that is served**, whose path ends at an entry: the version is
the greatest one there, or it is looked up where it was brought; and an unexpired
distinguished entry vouches for it when an expired entry was passed. -/
inductive Served (dset : List ℕ) (z : ℕ) : List Visit → Prop
  | found (here : L.goes lifetime target z = .eq)
      (vouched : (L.pathTo z).any (L.expired lifetime) = false ∨ L.vouches lifetime dset z = true ∨
        ((L.pathTo z).filter (· < z)).any (L.vouches lifetime dset) = true) :
      Served dset z (L.fixedVisits lifetime target (L.pathTo z ++ [z]))
  | brought {first : ℕ} (elsewhere : L.goes lifetime target z ≠ .eq)
      (here : L.identified lifetime target (L.pathTo z ++ [z]) = some first)
      (vouched : (L.pathTo z ++ [z]).any (L.expired lifetime) = true →
        ∃ d < first, L.vouches lifetime dset d = true) :
      Served dset z (L.fixedVisits lifetime target (L.pathTo z ++ [z]) ++ [.ladder first [target]])

variable {L lifetime target e}

theorem goes_eq_gt : L.goes lifetime target e = .gt ↔
    L.expired lifetime e = false ∧ ∃ g, L.greatest e = some g ∧ target < g := by
  unfold goes
  cases L.expired lifetime e with
  | true => simp
  | false =>
    rw [if_neg (by simp), relation_eq_gt, Option.any_eq_true]
    simp

theorem mem_of_identified {walked : List ℕ} {first : ℕ} (h : L.identified lifetime target walked = some first) :
    first ∈ walked ∧ L.goes lifetime target first = .gt := by
  obtain ⟨hmem, -⟩ := List.min?_eq_some_iff.1 h
  obtain ⟨hmem, hgoes⟩ := List.mem_filter.1 hmem
  exact ⟨hmem, of_decide_eq_true hgoes⟩

theorem expired_of_le {e' : ℕ} (hle : e ≤ e') (hlt : e' < L.size) (h : L.expired lifetime e' = true) :
    L.expired lifetime e = true := by
  unfold expired KtClient.isExpired at *
  obtain ⟨ml, hml, hexp⟩ := (Option.any_eq_true _ _).1 h
  refine (Option.any_eq_true _ _).2 ⟨ml, hml, ?_⟩
  have hts := Fin.le_def.1 (L.ordered hle hlt)
  rw [decide_eq_true_eq] at hexp ⊢
  omega

/-- The entries of a search are entries of the log. -/
theorem walked_lt (hn : L.size ≤ 2 ^ 62) {z : ℕ} (hz : z < L.size) (he : e ∈ L.pathTo z ++ [z]) : e < L.size := by
  rcases List.mem_append.1 he with he | he
  · exact (ibstDirectPathLoop_lt (hn.trans_lt (by decide)) he).trans_eq (Nat.zero_add _)
  · rwa [List.mem_singleton.1 he]

theorem fixedVisits_beginning {walked walked' : List ℕ} (h : walked <+: walked') :
    L.fixedVisits lifetime target walked <+: L.fixedVisits lifetime target walked' := by
  obtain ⟨rest, rfl⟩ := h
  unfold fixedVisits
  rw [List.map_append, ← List.append_assoc]
  exact List.prefix_append _ _

theorem fixedVisits_concat (walked : List ℕ) : L.fixedVisits lifetime target (walked ++ [e]) =
    L.fixedVisits lifetime target walked ++ [L.fixedVisit lifetime target e] := by
  unfold fixedVisits
  rw [List.map_append, List.map_singleton, List.append_assoc]

end LabelLog

/-! ### The server's walk -/

/-- **A server has walked over some entries**, and went right at some of them. -/
structure FixedSearch.Passed (P : Primitives) (label : Octets) (L : LabelLog) (lifetime : Option ℕ)
    (target : ℕ) (walked left : List ℕ) (w : FixedSearch) : Prop where
  session : w.session.Gathered P label L (some target) (L.fixedVisits lifetime target walked)
  expiredOnPath : w.expiredOnPath = walked.any (L.expired lifetime)
  encounteredExpired : w.encounteredExpired = walked.any (L.expired lifetime)
  leftPath : w.leftPath = left.map fun e => (e, L.timestamp e)
  inspected : w.inspected = (walked.filter fun e => !L.expired lifetime e).map fun e => (e, L.greatest e)

namespace Tree

section

variable {P : Primitives} {t : Tree} {label : Octets} {L : LabelLog} {lifetime : Option ℕ}
  {target e z : ℕ} {dset walked left : List ℕ} {w : FixedSearch}

theorem isExpired_eq (hlifetime : t.config.maximumLifetime = lifetime) (e : ℕ) :
    t.isExpired (L.timestamp (L.size - 1)) (L.timestamp e) = L.expired lifetime e := by
  rw [← hlifetime]
  rfl

/-- **At an entry that does not have the version** as its greatest one the walk goes on. -/
theorem fixedSearchStep_on (hs : t.Serves P label L) (hlifetime : t.config.maximumLifetime = lifetime)
    (hw : w.Passed P label L lifetime target walked left) (he : e < L.size)
    (hne : L.goes lifetime target e ≠ .eq) {rightChild : Option ℕ}
    (hright : (if isLeaf e then none else ibstRightChild e L.size) = rightChild) (dset : List ℕ) :
    ∃ w' : FixedSearch,
      w'.Passed P label L lifetime target (walked ++ [e]) left ∧
      fixedSearchStep P t L.size target (t.store.history label) (L.timestamp (L.size - 1)) dset e w =
        .ok (if L.goes lifetime target e = .lt then
          (rightChild.elim .stop .goto, rightChild.elim w' fun _ =>
            { w' with leftPath := w'.leftPath ++ [(e, L.timestamp e)] })
        else (if isLeaf e then .stop else .goto (leftChild e), w')) := by
  have hexpired := isExpired_eq (L := L) hlifetime e
  unfold fixedSearchStep
  rw [hs.timestamp e he, Result.ok_bind]
  dsimp only
  rw [hright]
  unfold LabelLog.goes at hne ⊢
  cases hexp : L.expired lifetime e with
  | true =>
    obtain ⟨session, hvisit, hsession, -⟩ := hw.session.visitTimestampOnly hs.servesLog he
    have hread : L.fixedVisit lifetime target e = .stamp e := if_pos hexp
    rw [if_pos (hexpired.trans hexp), hvisit, Result.ok_bind]
    refine ⟨{ w with session := session, encounteredExpired := true, expiredOnPath := true }, ?_, ?_⟩
    · constructor
      · rw [LabelLog.fixedVisits_concat, hread]
        exact hsession
      · simp [hexp]
      · simp [hexp]
      · exact hw.leftPath
      · simp [hexp, hw.inspected]
    · rw [if_pos rfl, if_pos rfl]
      cases rightChild <;> rfl
  | false =>
    rw [hexp, if_neg (by simp)] at hne
    have hgreatest := hs.greatest e he
    have hread : L.fixedVisit lifetime target e = .ladder e (L.searchLadder target e) := by
      rw [LabelLog.fixedVisit, hexp, if_neg (by simp)]
    have hother : L.greatest e ≠ some target := fun h => hne (LabelLog.relation_eq_eq.2 h)
    obtain ⟨session, hvisit, hsession, -⟩ := hw.session.visit_eq hs he
      (fun v hv => LabelLog.le_of_mem_searchLadder hv) (show none = none ∨ none = some target from .inl rfl)
    rw [if_neg (by rw [hexpired, hexp]; simp), hgreatest, if_neg hother, LabelLog.searchLadder_eq, hvisit]
    have hpassed : ({ w with
        session := session, inspected := w.inspected ++ [(e, L.greatest e)] } : FixedSearch).Passed P label
          L lifetime target (walked ++ [e]) left := by
      constructor
      · rw [LabelLog.fixedVisits_concat, hread]
        exact hsession
      · simp [hexp, hw.expiredOnPath]
      · simp [hexp, hw.encounteredExpired]
      · exact hw.leftPath
      · simp [hexp, hw.inspected]
    refine ⟨_, hpassed, ?_⟩
    rw [if_neg (show ¬false = true by simp)]
    change (if Option.all _ (L.greatest e) = true then _ else _) = _
    simp only [← LabelLog.relation_eq_lt, ← LabelLog.relation_eq_gt]
    cases hrel : L.relation target e with
    | lt =>
      rw [if_pos rfl, if_pos rfl]
      cases rightChild <;> rfl
    | eq => exact absurd hrel hne
    | gt =>
      have hgt : ¬Ordering.gt = .lt := by simp
      rw [if_neg hgt, if_neg hgt, if_pos rfl]
      split_ifs <;> rfl

/-- **Along the path** to its last entry the walk makes the path's visits. -/
theorem fixedSearchLoop_along (hs : t.Serves P label L) (hn : L.size < 2 ^ 64)
    (hlifetime : t.config.maximumLifetime = lifetime) (dset : List ℕ) : ∀ {k i size fuel : ℕ} {walked left : List ℕ}
      {w : FixedSearch}, Block L.size k i size → k < fuel → i * 2 ^ (k + 1) ≤ z →
      z < i * 2 ^ (k + 1) + size →
      EndsAt (L.goes lifetime target) L.size (ibstDirectPathLoop z fuel size (i * 2 ^ (k + 1))) z →
      w.Passed P label L lifetime target walked left → ∃ fuel' w',
        fixedSearchLoop P t L.size target (t.store.history label) (L.timestamp (L.size - 1)) dset fuel
            (node k i) w =
          fixedSearchLoop P t L.size target (t.store.history label) (L.timestamp (L.size - 1)) dset
            (fuel' + 1) z w' ∧
        w'.Passed P label L lifetime target
          (walked ++ ibstDirectPathLoop z fuel size (i * 2 ^ (k + 1)))
          (left ++ (ibstDirectPathLoop z fuel size (i * 2 ^ (k + 1))).filter (· < z)) := by
  intro k
  induction k using Nat.strong_induction_on with
  | _ k ih =>
    intro i size fuel walked left w h hfuel hlow hhigh hends hw
    obtain ⟨fuel, rfl⟩ := Nat.exists_eq_succ_of_ne_zero (show fuel ≠ 0 by omega)
    by_cases hz : z = node k i
    · subst hz
      rw [h.path_self hn, List.filter_nil, List.append_nil, List.append_nil]
      exact ⟨fuel, w, rfl, hw⟩
    · obtain ⟨k', i', size', hk, hlow', hhigh', hblock, hpath, hside⟩ := h.toward hn hlow hhigh hz fuel
      rw [hpath] at hends ⊢
      obtain ⟨hright, hleft, hends'⟩ := endsAt_cons.1 hends
      have hlevel := h.level_lt hn
      have hchild := rightChild_of_isLeaf (n := L.size) hlevel i
      rcases hside with ⟨hlt, hleaf, hgoto, -⟩ | ⟨hgt, hgoto, -⟩
      · have hgoes := hleft hlt
        obtain ⟨w₁, hw₁, hstep⟩ := fixedSearchStep_on hs hlifetime hw h.node_lt
          (by rw [hgoes]; simp) hchild dset
        rw [hgoes, if_neg (by simp), hleaf, if_neg (by simp), hgoto] at hstep
        obtain ⟨fuel', w', hloop, hw'⟩ := ih k' hk hblock (by omega) hlow' hhigh' hends' hw₁
        rw [List.append_assoc, List.singleton_append] at hw'
        refine ⟨fuel', w', ?_, ?_⟩
        · rw [fixedSearchLoop, hstep, Result.ok_bind]
          exact hloop
        · rw [List.filter_cons_of_neg (by simpa using hlt.le)]
          exact hw'
      · have hgoes := hright hgt
        obtain ⟨w₁, hw₁, hstep⟩ := fixedSearchStep_on hs hlifetime hw h.node_lt
          (by rw [hgoes]; simp) (hchild.trans hgoto) dset
        rw [hgoes, if_pos rfl] at hstep
        have hw₂ : ({ w₁ with leftPath := w₁.leftPath ++ [(node k i, L.timestamp (node k i))] } :
            FixedSearch).Passed P label L lifetime target (walked ++ [node k i]) (left ++ [node k i]) :=
          { hw₁ with leftPath := by simp [hw₁.leftPath] }
        obtain ⟨fuel', w', hloop, hw'⟩ := ih k' hk hblock (by omega) hlow' hhigh' hends' hw₂
        rw [List.append_assoc, List.singleton_append, List.append_assoc, List.singleton_append] at hw'
        refine ⟨fuel', w', ?_, ?_⟩
        · rw [fixedSearchLoop, hstep, Result.ok_bind]
          exact hloop
        · rw [List.filter_cons_of_pos (by simpa using hgt)]
          exact hw'

/-- **An entry that vouches** for an expired version: unexpired and distinguished. -/
theorem isUnexpiredDistinguished_eq (hlifetime : t.config.maximumLifetime = lifetime) (e : ℕ) :
    t.isUnexpiredDistinguished (L.timestamp (L.size - 1)) dset e (L.timestamp e) =
      L.vouches lifetime dset e := by
  unfold isUnexpiredDistinguished LabelLog.vouches
  rw [isExpired_eq hlifetime]

/-- **At the last entry, without the version**, the walk stops. -/
theorem fixedSearchLoop_stop (hs : t.Serves P label L)
    (hlifetime : t.config.maximumLifetime = lifetime)
    (hw : w.Passed P label L lifetime target walked left) (he : z < L.size)
    (hstop : L.goes lifetime target z = .lt ∧ ibstRightChild z L.size = none ∨
      L.goes lifetime target z = .gt ∧ isLeaf z = true) (dset : List ℕ) (fuel : ℕ) : ∃ w' : FixedSearch,
      fixedSearchLoop P t L.size target (t.store.history label) (L.timestamp (L.size - 1)) dset
        (fuel + 1) z w = .ok (false, w') ∧
      w'.Passed P label L lifetime target (walked ++ [z]) left := by
  have hne : L.goes lifetime target z ≠ .eq := by
    rcases hstop with h | h <;> rw [h.1] <;> simp
  obtain ⟨w', hw', hstep⟩ := fixedSearchStep_on hs hlifetime hw he hne rfl dset
  refine ⟨w', ?_, hw'⟩
  rw [fixedSearchLoop, hstep, Result.ok_bind]
  rcases hstop with ⟨hgoes, hnone⟩ | ⟨hgoes, hleaf⟩
  · rw [hgoes, if_pos rfl, hnone, ite_self]
    rfl
  · rw [hgoes, if_neg (by simp), if_pos hleaf]
    rfl

/-- **At an entry with the version** the walk ends: with its value, unless the version is
expired. -/
theorem fixedSearchLoop_found (hs : t.Serves P label L) (hlifetime : t.config.maximumLifetime = lifetime)
    (hw : w.Passed P label L lifetime target walked left) (he : z < L.size)
    (hfound : L.goes lifetime target z = .eq) {fuel : ℕ} {out : Bool × FixedSearch}
    (h : fixedSearchLoop P t L.size target (t.store.history label) (L.timestamp (L.size - 1)) dset
      (fuel + 1) z w = .ok out) : ∃ value opening,
      t.extractValueAndOpening (t.store.history label) target = .ok (value, opening) ∧ out.1 = true ∧
      out.2.session.Gathered P label L (some target) (L.fixedVisits lifetime target (walked ++ [z])) ∧
      out.2.session.foundValue = some value ∧ out.2.session.foundOpening = opening ∧
      (walked.any (L.expired lifetime) = false ∨ L.vouches lifetime dset z = true ∨
        left.any (L.vouches lifetime dset) = true) := by
  have hexp : L.expired lifetime z = false := by
    by_contra hexp
    rw [LabelLog.goes, if_pos (by simpa using hexp)] at hfound
    cases hfound
  rw [LabelLog.goes, hexp, if_neg (by simp), LabelLog.relation_eq_eq] at hfound
  have hexpired := isExpired_eq (L := L) hlifetime z
  have hread : L.fixedVisit lifetime target z = .ladder z (L.searchLadder target z) := by
    rw [LabelLog.fixedVisit, hexp, if_neg (by simp)]
  obtain ⟨session, hvisit, hsession, -⟩ := hw.session.visit_eq hs he
    (fun v hv => LabelLog.le_of_mem_searchLadder hv)
    (show some target = none ∨ some target = some target from .inr rfl)
  unfold fixedSearchLoop fixedSearchStep at h
  rw [hs.timestamp z he, Result.ok_bind] at h
  dsimp only at h
  rw [if_neg (by rw [hexpired, hexp]; simp), hs.greatest z he, LabelLog.searchLadder_eq, if_pos hfound,
    hvisit, TraversalSession.extracted,
    show t.store.history session.label = t.store.history label by rw [hsession.label]] at h
  cases hopen : t.extractValueAndOpening (t.store.history label) target with
  | error err =>
    rw [hopen] at h
    cases h
  | ok data =>
    obtain ⟨value, opening⟩ := data
    rw [hopen] at h
    simp only [Result.ok_bind, Result.pure_eq, hfound, Option.all_some, Option.any_some, lt_irrefl,
      decide_false, Bool.false_eq_true, if_false] at h
    have hleft : (w.leftPath.any fun p => t.isUnexpiredDistinguished (L.timestamp (L.size - 1)) dset p.1
        p.2) = left.any (L.vouches lifetime dset) := by
      rw [hw.leftPath, List.any_map]
      exact congrArg left.any (funext fun e => isUnexpiredDistinguished_eq hlifetime e)
    rw [isUnexpiredDistinguished_eq hlifetime, hleft, hw.expiredOnPath] at h
    split_ifs at h with hok
    · obtain rfl := Except.ok.inj h
      refine ⟨value, opening, rfl, rfl, ?_, rfl, rfl, hok⟩
      rw [LabelLog.fixedVisits_concat, hread]
      exact hsession.found (some value) opening
    · cases h

/-- The entry that brought the version, among those that were inspected. -/
theorem inspected_min (hw : w.Passed P label L lifetime target walked left) :
    ((w.inspected.filter fun e => e.2.any (target < ·)).map Prod.fst).min? =
      L.identified lifetime target walked := by
  unfold LabelLog.identified
  rw [hw.inspected, List.filter_map, List.map_map, List.filter_filter]
  have hfst : ∀ l : List ℕ, l.map (Prod.fst ∘ fun e => (e, L.greatest e)) = l := fun l => List.map_id' l
  rw [hfst]
  congr 2
  funext e
  rw [Bool.eq_iff_iff, Bool.and_eq_true, decide_eq_true_eq, LabelLog.goes, Function.comp_apply,
    ← LabelLog.relation_eq_gt]
  cases L.expired lifetime e <;> simp

/-- Whether an unexpired distinguished entry lies left of an entry. -/
theorem unexpiredDistinguishedLeft_eq (hs : t.ServesLog P L)
    (hlifetime : t.config.maximumLifetime = lifetime) {identified : ℕ} : ∀ {dset : List ℕ},
    dset.Pairwise (· < ·) → (∀ d ∈ dset, d < L.size) →
    t.unexpiredDistinguishedLeft (L.timestamp (L.size - 1)) identified dset =
      .ok (dset.any fun d => decide (d < identified) && !L.expired lifetime d)
  | [], _, _ => rfl
  | d :: dset, hsorted, hlt => by
    obtain ⟨hfirst, hrest⟩ := List.pairwise_cons.1 hsorted
    unfold unexpiredDistinguishedLeft
    by_cases hd : identified ≤ d
    · have hnone : ((d :: dset).any fun d => decide (d < identified) && !L.expired lifetime d) = false := by
        rw [List.any_eq_false]
        intro x hx
        have hle : d ≤ x := by
          rcases List.mem_cons.1 hx with rfl | hx
          · exact le_rfl
          · exact (hfirst x hx).le
        simp [show ¬x < identified by omega]
      rw [if_pos hd, hnone]
    · rw [if_neg hd, hs.timestamp d (hlt d List.mem_cons_self), Result.ok_bind, isExpired_eq hlifetime,
        List.any_cons]
      cases hexp : L.expired lifetime d with
      | true =>
        rw [if_pos rfl, unexpiredDistinguishedLeft_eq hs hlifetime hrest
          fun x hx => hlt x (List.mem_cons_of_mem _ hx)]
        simp
      | false =>
        rw [if_neg (by simp)]
        simp [show d < identified by omega]

/-- **Step 6**: the version is looked up where it was brought, unless it is expired there. -/
theorem fixedSearchLookup_found (hs : t.Serves P label L)
    (hlifetime : t.config.maximumLifetime = lifetime)
    (hw : w.Passed P label L lifetime target walked left) (hwalked : ∀ e ∈ walked, e < L.size)
    (hsorted : dset.Pairwise (· < ·)) (hdset : ∀ d ∈ dset, d < L.size) {session : TraversalSession}
    (h : fixedSearchLookup P t target (L.timestamp (L.size - 1)) dset w = .ok session) :
    ∃ identified value opening, L.identified lifetime target walked = some identified ∧
      (walked.any (L.expired lifetime) = true →
        ∃ d < identified, L.vouches lifetime dset d = true) ∧
      t.extractValueAndOpening (t.store.history label) target = .ok (value, opening) ∧
      session.Gathered P label L (some target)
        (L.fixedVisits lifetime target walked ++ [.ladder identified [target]]) ∧
      session.foundValue = some value ∧ session.foundOpening = opening := by
  unfold fixedSearchLookup at h
  rw [inspected_min hw] at h
  cases hmin : L.identified lifetime target walked with
  | none =>
    rw [hmin] at h
    cases h
  | some identified =>
    rw [hmin] at h
    dsimp only [Option.elim] at h
    rw [Result.ok_bind, unexpiredDistinguishedLeft_eq hs.servesLog hlifetime hsorted hdset,
      hw.encounteredExpired] at h
    obtain ⟨hmem, hgoes⟩ := LabelLog.mem_of_identified hmin
    have hlt := hwalked identified hmem
    obtain ⟨hexp, g, hg, htarget⟩ := LabelLog.goes_eq_gt.1 hgoes
    have hsmall := L.small hlt hg
    obtain ⟨left', hleft, h⟩ := Result.bind_eq_ok.1 h
    cases left' with
    | false =>
      rw [if_pos rfl] at h
      cases h
    | true =>
      rw [if_neg (by simp)] at h
      obtain ⟨session', hvisit, hsession, -⟩ := hw.session.visit_eq hs hlt
        (fun v (hv : v ∈ [target]) => by rw [List.mem_singleton.1 hv]; omega)
        (show some target = none ∨ some target = some target from .inr rfl)
      rw [hvisit, TraversalSession.extracted,
        show t.store.history session'.label = t.store.history label by rw [hsession.label]] at h
      cases hopen : t.extractValueAndOpening (t.store.history label) target with
      | error err =>
        rw [hopen] at h
        cases h
      | ok data =>
        obtain ⟨value, opening⟩ := data
        rw [hopen] at h
        obtain rfl := Except.ok.inj (show Except.ok _ = Except.ok session from h)
        refine ⟨identified, value, opening, rfl, fun hany => ?_, rfl, hsession.found _ _, rfl, rfl⟩
        rw [if_pos hany] at hleft
        obtain ⟨d, hd, hok⟩ := List.any_eq_true.1 (Except.ok.inj hleft)
        rw [Bool.and_eq_true, decide_eq_true_eq] at hok
        exact ⟨d, hok.1, by rw [LabelLog.vouches, decide_eq_true hd, hok.2]; rfl⟩

/-- The lookup succeeds for a version that is stored. -/
theorem fixedSearchLookup_isOk (hs : t.Serves P label L)
    (hlifetime : t.config.maximumLifetime = lifetime)
    (hw : w.Passed P label L lifetime target walked left) (hwalked : ∀ e ∈ walked, e < L.size)
    (hsorted : dset.Pairwise (· < ·)) (hdset : ∀ d ∈ dset, d < L.size) {first : ℕ}
    (hfirst : L.identified lifetime target walked = some first)
    (hvouched : walked.any (L.expired lifetime) = true → ∃ d < first, L.vouches lifetime dset d = true)
    {value : UpdateValue} {opening : Octets}
    (hstored : t.extractValueAndOpening (t.store.history label) target = .ok (value, opening)) :
    ∃ session, fixedSearchLookup P t target (L.timestamp (L.size - 1)) dset w = .ok session := by
  obtain ⟨hmem, hgoes⟩ := LabelLog.mem_of_identified hfirst
  obtain ⟨-, g, hg, htarget⟩ := LabelLog.goes_eq_gt.1 hgoes
  have hsmall := L.small (hwalked first hmem) hg
  obtain ⟨session, hvisit, hsession, -⟩ := hw.session.visit_eq hs (hwalked first hmem)
    (fun v (hv : v ∈ [target]) => by rw [List.mem_singleton.1 hv]; omega)
    (show some target = none ∨ some target = some target from .inr rfl)
  have hleft : (if w.encounteredExpired then
      t.unexpiredDistinguishedLeft (L.timestamp (L.size - 1)) first dset else pure true) = .ok true := by
    rw [hw.encounteredExpired]
    split_ifs with hany
    · obtain ⟨d, hd, hok⟩ := hvouched hany
      rw [LabelLog.vouches, Bool.and_eq_true, decide_eq_true_eq] at hok
      rw [unexpiredDistinguishedLeft_eq hs.servesLog hlifetime hsorted hdset]
      exact congrArg _ (List.any_eq_true.2 ⟨d, hok.1, by rw [decide_eq_true hd, hok.2]; rfl⟩)
    · rfl
  unfold fixedSearchLookup
  rw [inspected_min hw, hfirst]
  dsimp only [Option.elim]
  rw [Result.ok_bind, hleft, Result.ok_bind, if_neg (by simp), hvisit, TraversalSession.extracted,
    show t.store.history session.label = t.store.history label by rw [hsession.label], hstored]
  exact ⟨_, rfl⟩

/-- **From the root** the walk comes to the last entry of its path. -/
theorem fixedSearchLoop_start (hs : t.Serves P label L) (h₀ : 0 < L.size) (hn : L.size ≤ 2 ^ 62)
    (hlifetime : t.config.maximumLifetime = lifetime) (dset : List ℕ) (hz : z < L.size)
    (hends : EndsAt (L.goes lifetime target) L.size (L.pathTo z) z) : ∃ session fuel w,
      (TraversalSession.new label).visitFrontier t L.size = .ok session ∧
      fixedSearchLoop P t L.size target (t.store.history label) (L.timestamp (L.size - 1)) dset 65
          (LogMath.root L.size) ⟨session, false, false, [], []⟩ =
        fixedSearchLoop P t L.size target (t.store.history label) (L.timestamp (L.size - 1)) dset
          (fuel + 1) z w ∧
      w.Passed P label L lifetime target (L.pathTo z) ((L.pathTo z).filter (· < z)) := by
  have hn' : L.size < 2 ^ 64 := hn.trans_lt (by decide)
  have hlevel : Nat.log2 L.size < 64 := (Nat.log2_lt (by omega)).2 hn'
  obtain ⟨session, hrun, hsession, -⟩ := (TraversalSession.gathered_new P label L (some target)).visitAll
    hs.servesLog fun e (he : e ∈ getFrontier L.size) => mem_getFrontier_lt hn he
  have hstart : (⟨session, false, false, [], []⟩ : FixedSearch).Passed P label L lifetime target [] [] := by
    refine ⟨?_, rfl, rfl, rfl, rfl⟩
    rw [LabelLog.fixedVisits, List.map_nil, List.append_nil]
    exact hsession
  obtain ⟨fuel, w, halong, hw⟩ := fixedSearchLoop_along (z := z) hs hn' hlifetime dset (.root h₀)
    (show Nat.log2 L.size < 65 by omega) (by omega) (by omega) (by rwa [Nat.zero_mul]) hstart
  rw [Nat.zero_mul, List.nil_append, List.nil_append, ← LabelLog.pathTo] at hw
  rw [← root_eq h₀ hn'] at halong
  exact ⟨session, fuel, w, hrun, halong, hw⟩

/-- **What a server answers** to a search for a fixed version: the path's visits, and
where no entry of the path has the version as its greatest one, its lookup. -/
theorem traverseFixedSearch_served (hs : t.Serves P label L) (hauditors : t.auditors = [])
    (h₀ : 0 < L.size) (hn : L.size ≤ 2 ^ 62) {m : ℕ} (hm : m ≤ L.size)
    (hlifetime : t.config.maximumLifetime = lifetime) (hdset : t.findDistinguishedNodes L.size = .ok dset)
    (hsorted : dset.Pairwise (· < ·)) (hlt : ∀ d ∈ dset, d < L.size) (hz : z < L.size)
    (hends : EndsAt (L.goes lifetime target) L.size (L.pathTo z) z) {r : SearchResultData}
    (h : traverseFixedSearch P t L.size label target m = .ok r) : ∃ visits value,
      L.Served lifetime target dset z visits ∧ r.value = some value ∧
      t.extractValueAndOpening (t.store.history label) target = .ok (value, r.opening) ∧
      Transcript P L visits m r.combinedProof ∧
      L.Wire (some target) (laddersOf visits) (versionsOf visits) r.binaryLadder ∧
      r.binaryLadder.length = (versionsOf visits).length := by
  obtain ⟨s₁, fuel', w, hrun₁, halong, hw⟩ := fixedSearchLoop_start hs h₀ hn hlifetime dset hz hends
  unfold traverseFixedSearch at h
  rw [hs.timestamp _ (by omega), Result.ok_bind, hdset, Result.ok_bind, hrun₁, Result.ok_bind, halong] at h
  obtain ⟨⟨success, w'⟩, hloop, h⟩ := Result.bind_eq_ok.1 h
  obtain ⟨session, hsession, h⟩ := Result.bind_eq_ok.1 h
  obtain ⟨proof, hproof, h⟩ := Result.bind_eq_ok.1 h
  obtain rfl := Except.ok.inj h
  dsimp only at hsession hproof ⊢
  -- the session of either ending gives its visits
  obtain ⟨visits, value, hserved, hopen, hgathered, hvalue⟩ : ∃ visits value,
      L.Served lifetime target dset z visits ∧
      t.extractValueAndOpening (t.store.history label) target = .ok (value, session.foundOpening) ∧
      session.Gathered P label L (some target) visits ∧ session.foundValue = some value := by
    by_cases hfound : L.goes lifetime target z = .eq
    · obtain ⟨value, opening, hopen, rfl, hgathered, hvalue, rfl, hok⟩ :=
        fixedSearchLoop_found hs hlifetime hw hz hfound hloop
      obtain rfl := Except.ok.inj hsession
      exact ⟨_, value, .found hfound hok, hopen, hgathered, hvalue⟩
    · obtain ⟨w'', hloop', hw''⟩ := fixedSearchLoop_stop hs hlifetime hw hz
        (hends.stops.resolve_left hfound) dset fuel'
      obtain ⟨rfl, rfl⟩ := Prod.mk.inj (Except.ok.inj (hloop'.symm.trans hloop))
      have hwalked : ∀ e ∈ L.pathTo z ++ [z], e < L.size := fun e he => LabelLog.walked_lt hn hz he
      obtain ⟨identified, value, opening, hmin, hvouched, hopen, hgathered, hvalue, rfl⟩ :=
        fixedSearchLookup_found hs hlifetime hw'' hwalked hsorted hlt hsession
      exact ⟨_, value, .brought hfound hmin hvouched, hopen, hgathered, hvalue⟩
  obtain ⟨proof', hproof', htranscript⟩ := hgathered.finalize hs hauditors h₀ hn hm
  obtain rfl := Except.ok.inj (hproof'.symm.trans hproof)
  have hversions := hgathered.steps.versions
  have hwire := hgathered.steps.wire
  rw [← versionsOf] at hversions hwire
  refine ⟨visits, value, hserved, hvalue, hopen, htranscript, hwire, ?_⟩
  rw [← hversions, List.length_map]
  exact List.length_map _

/-- **A version that an entry of the path brought** is served, if it is stored and an entry
vouches for it. -/
theorem traverseFixedSearch_brought (hs : t.Serves P label L) (hauditors : t.auditors = [])
    (h₀ : 0 < L.size) (hn : L.size ≤ 2 ^ 62) {m : ℕ} (hm : m ≤ L.size)
    (hlifetime : t.config.maximumLifetime = lifetime) (hdset : t.findDistinguishedNodes L.size = .ok dset)
    (hsorted : dset.Pairwise (· < ·)) (hlt : ∀ d ∈ dset, d < L.size) (hz : z < L.size)
    (hends : EndsAt (L.goes lifetime target) L.size (L.pathTo z) z)
    (hother : L.goes lifetime target z ≠ .eq) {first : ℕ}
    (hfirst : L.identified lifetime target (L.pathTo z ++ [z]) = some first)
    (hvouched : (L.pathTo z ++ [z]).any (L.expired lifetime) = true →
      ∃ d < first, L.vouches lifetime dset d = true) {value : UpdateValue} {opening : Octets}
    (hstored : t.extractValueAndOpening (t.store.history label) target = .ok (value, opening)) :
    ∃ r, traverseFixedSearch P t L.size label target m = .ok r := by
  obtain ⟨s₁, fuel', w, hrun₁, halong, hw⟩ := fixedSearchLoop_start hs h₀ hn hlifetime dset hz hends
  obtain ⟨w', hloop, hw'⟩ := fixedSearchLoop_stop hs hlifetime hw hz (hends.stops.resolve_left hother) dset fuel'
  have hwalked : ∀ e ∈ L.pathTo z ++ [z], e < L.size := fun e he => LabelLog.walked_lt hn hz he
  obtain ⟨session', hlookup⟩ := fixedSearchLookup_isOk hs hlifetime hw' hwalked hsorted hlt hfirst hvouched hstored
  obtain ⟨_, _, _, -, -, -, hgathered, -⟩ := fixedSearchLookup_found hs hlifetime hw' hwalked hsorted hlt hlookup
  obtain ⟨proof, hproof, -⟩ := hgathered.finalize hs hauditors h₀ hn hm
  unfold traverseFixedSearch
  rw [hs.timestamp _ (by omega), Result.ok_bind, hdset, Result.ok_bind, hrun₁, Result.ok_bind, halong, hloop,
    Result.ok_bind]
  dsimp only
  rw [if_neg (by simp), hlookup, Result.ok_bind, hproof]
  exact ⟨_, rfl⟩

end

end Tree

end KeyTransparency
