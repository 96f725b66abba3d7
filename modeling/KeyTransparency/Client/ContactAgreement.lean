/-
# Replaying obligations

What replaying the obligations of a label comes to is decided by the log and by the map
alone (`LabelLog.replayed`): from right to left, each obligation is released, moves up, or
is covered by one further right that has a greater version.  A server that has been asked
to monitor a label visits what this takes (`LabelLog.Climbs`), and a client that is given
these visits accepts them exactly where there is an outcome
(`KtClient.verifyContactMonitor_replayed`).
-/

import KeyTransparency.Client.Approach
import KeyTransparency.Client.HonestSearch
import Mathlib.Data.List.TakeWhile

namespace KeyTransparency

open BinaryLadder InOrder LogMath

namespace LogMath

/-- The ancestors right of an entry go from right to left on the way down. -/
theorem pairwise_right_ibstDirectPathLoop {target : ℕ} : ∀ {fuel size offset : ℕ}, size < 2 ^ 64 →
    ((ibstDirectPathLoop target fuel size offset).filter (target < ·)).Pairwise (· > ·)
  | 0, _, _, _ => by simp [ibstDirectPathLoop]
  | fuel + 1, size, offset, hsize => by
    rw [ibstDirectPathLoop]
    by_cases hpos : 0 < size
    · have := Nat.log2_self_le (show size ≠ 0 by omega)
      have := Nat.two_pow_pos (Nat.log2 size)
      rw [if_pos hpos, log2_eq (by omega), Nat.one_shiftLeft]
      dsimp only
      split_ifs with heq hlt
      · simp
      · rw [List.filter_cons_of_pos (by simpa using hlt)]
        refine List.pairwise_cons.2 ⟨fun e he => ?_, pairwise_right_ibstDirectPathLoop (by omega)⟩
        have := ibstDirectPathLoop_lt (by omega) (List.mem_filter.1 he).1
        omega
      · rw [List.filter_cons_of_neg (by simpa using by omega)]
        exact pairwise_right_ibstDirectPathLoop (by omega)
    · simp [hpos]

end LogMath

/-! ### Climbs -/

namespace Climb

/-- The entries of a climb before the first that an earlier climb has covered. -/
def uncovered (targets : ℕ → Option ℕ) (list : List ℕ) : List ℕ :=
  list.takeWhile fun e => (targets e).isNone

/-- The version whose climb has covered the next entry, if there is one. -/
def coveredBy (targets : ℕ → Option ℕ) (list : List ℕ) : Option ℕ :=
  (list.dropWhile fun e => (targets e).isNone).head?.bind targets

/-- What is covered when a climb has gone through the given entries. -/
def cover (ver : ℕ) (entries : List ℕ) (targets : ℕ → Option ℕ) (e : ℕ) : Option ℕ :=
  if e ∈ entries then some ver else targets e

/-- The visits of a climb through the given entries. -/
def visits (ver : ℕ) (entries : List ℕ) : List Visit :=
  entries.map fun e => .ladder e (monitoringBinaryLadder ver [])

variable {targets : ℕ → Option ℕ} {list entries : List ℕ} {ver e : ℕ}

theorem cover_nil : cover ver [] targets = targets := funext fun _ => if_neg List.not_mem_nil

theorem cover_cons :
    cover ver entries (Function.update targets e (some ver)) = cover ver (e :: entries) targets := by
  funext e'
  by_cases he : e' = e
  · subst he
    simp [cover]
  · simp [cover, he]

theorem cover_of_not_mem (h : e ∉ entries) : cover ver entries targets e = targets e := if_neg h

/-- Climbs depend on what is covered of them only. -/
theorem uncovered_congr {targets' : ℕ → Option ℕ} (h : ∀ e ∈ list, targets' e = targets e) :
    uncovered targets' list = uncovered targets list := by
  induction list with
  | nil => rfl
  | cons e list ih =>
    have hrest := ih fun x hx => h x (List.mem_cons_of_mem _ hx)
    unfold uncovered at hrest ⊢
    rw [List.takeWhile_cons, List.takeWhile_cons, h e List.mem_cons_self, hrest]

theorem uncovered_cons_of_none (h : targets e = none) :
    uncovered targets (e :: list) = e :: uncovered targets list :=
  List.takeWhile_cons_of_pos (by rw [h]; rfl)

theorem uncovered_cons_of_some {target : ℕ} (h : targets e = some target) :
    uncovered targets (e :: list) = [] := List.takeWhile_cons_of_neg (by rw [h]; simp)

theorem coveredBy_cons_of_none (h : targets e = none) :
    coveredBy targets (e :: list) = coveredBy targets list := by
  rw [coveredBy, List.dropWhile_cons_of_pos (by rw [h]; rfl)]
  rfl

theorem coveredBy_cons_of_some {target : ℕ} (h : targets e = some target) :
    coveredBy targets (e :: list) = some target := by
  rw [coveredBy, List.dropWhile_cons_of_neg (by rw [h]; simp)]
  exact h

theorem coveredBy_congr {targets' : ℕ → Option ℕ} (h : ∀ e ∈ list, targets' e = targets e) :
    coveredBy targets' list = coveredBy targets list := by
  induction list with
  | nil => rfl
  | cons e list ih =>
    have hself := h e List.mem_cons_self
    cases htarget : targets e with
    | none =>
      rw [coveredBy_cons_of_none htarget, coveredBy_cons_of_none (hself.trans htarget),
        ih fun x hx => h x (List.mem_cons_of_mem _ hx)]
    | some target => rw [coveredBy_cons_of_some htarget, coveredBy_cons_of_some (hself.trans htarget)]

theorem mem_uncovered (h : e ∈ uncovered targets list) : e ∈ list ∧ targets e = none :=
  ⟨(List.takeWhile_prefix _).subset h, Option.isNone_iff_eq_none.1
    (List.mem_takeWhile_imp (p := fun e => (targets e).isNone) h)⟩

/-- **A climb ends** with its list, or at an entry that is covered. -/
theorem uncovered_cases (targets : ℕ → Option ℕ) (list : List ℕ) :
    (coveredBy targets list = none ∧ list = uncovered targets list) ∨
    ∃ e rest target, coveredBy targets list = some target ∧ targets e = some target ∧
      list = uncovered targets list ++ e :: rest := by
  have hsplit := List.takeWhile_append_dropWhile (p := fun e => (targets e).isNone) (l := list)
  cases hrest : list.dropWhile fun e => (targets e).isNone with
  | nil =>
    rw [hrest, List.append_nil] at hsplit
    exact .inl ⟨by rw [coveredBy, hrest]; rfl, hsplit.symm⟩
  | cons e rest =>
    have hcovered : (targets e).isNone = false := by
      have := List.head_dropWhile_not (p := fun e => (targets e).isNone) (l := list)
        (by rw [hrest]; exact List.cons_ne_nil _ _)
      simpa [hrest] using this
    obtain ⟨target, htarget⟩ := Option.isSome_iff_exists.1 (by simpa using hcovered)
    rw [hrest] at hsplit
    exact .inr ⟨e, rest, target, by rw [coveredBy, hrest]; exact htarget, htarget, hsplit.symm⟩

end Climb

open Climb

namespace LabelLog

variable (L : LabelLog) (rmw : ℕ)

def distinguished : List ℕ := L.contiguous.distinguished rmw

/-- The entries that an obligation climbs. -/
def climbList (pos : ℕ) : List ℕ :=
  contactList pos L.size fun a => decide (a ∈ L.distinguished rmw)

/-- Where an obligation goes whose climb no other one stops. -/
def moved (pos ver : ℕ) (map : OrderedMap ℕ) : OrderedMap ℕ :=
  match (L.climbList rmw pos).getLast? with
  | none => map
  | some newpos =>
    if newpos ∈ L.distinguished rmw then map.erase pos else (map.erase pos).insert newpos ver

/-- **What replaying the obligations comes to**: they are taken from right to left, each
is released, moved, or covered by one further right that has a greater version.  Where that
one has no greater version, there is no outcome. -/
def replayed : List (ℕ × ℕ) → (ℕ → Option ℕ) → OrderedMap ℕ → Option (OrderedMap ℕ)
  | [], _, map => some map
  | (pos, ver) :: entries, targets, map =>
    if pos ∈ L.distinguished rmw then replayed entries targets (map.erase pos)
    else
      let list := L.climbList rmw pos
      let targets' := cover ver (uncovered targets list) targets
      match coveredBy targets list with
      | some target => if ver < target then replayed entries targets' (map.erase pos) else none
      | none => replayed entries targets' (L.moved rmw pos ver map)

/-- The walk towards an entry of the log, and what it tells. -/
structure Way (pos : ℕ) (stamps : List ℕ) (z : ApproachEnd) : Prop where
  walk : Approach L.timestamp L.size rmw pos (0, L.timestamp (L.size - 1)) (fun _ => false)
    (LogMath.root L.size) stamps z
  short : stamps.length < 65
  lt : ∀ e ∈ stamps, e < L.size
  reaches : z.Reaches rmw pos ↔ pos ∈ L.distinguished rmw
  dist : ∀ a ∈ ibstDirectPath pos L.size, z.ancestorDist a = decide (a ∈ L.distinguished rmw)

/-- **The visits for the obligations of a label.** -/
inductive Climbs : List (ℕ × ℕ) → (ℕ → Option ℕ) → List Visit → Prop
  | nil {targets : ℕ → Option ℕ} : Climbs [] targets []
  | released {pos ver : ℕ} {entries : List (ℕ × ℕ)} {targets : ℕ → Option ℕ} {stamps : List ℕ}
      {z : ApproachEnd} {visits : List Visit} (way : L.Way rmw pos stamps z)
      (hmem : pos ∈ L.distinguished rmw) (rest : Climbs entries targets visits) :
    Climbs ((pos, ver) :: entries) targets (stamps.map .stamp ++ visits)
  | climbed {pos ver : ℕ} {entries : List (ℕ × ℕ)} {targets : ℕ → Option ℕ} {stamps : List ℕ}
      {z : ApproachEnd} {visits : List Visit} (way : L.Way rmw pos stamps z)
      (hmem : pos ∉ L.distinguished rmw)
      (rest : Climbs entries (cover ver (uncovered targets (L.climbList rmw pos)) targets) visits) :
    Climbs ((pos, ver) :: entries) targets (stamps.map .stamp ++
      Climb.visits ver (uncovered targets (L.climbList rmw pos)) ++ visits)

variable {L rmw}

theorem exists_way (hn : L.size ≤ 2 ^ 62) {pos : ℕ} (hpos : pos < L.size) :
    ∃ stamps z, L.Way rmw pos stamps z := by
  have h₀ : 0 < L.size := by omega
  have hlevel : Nat.log2 L.size < 64 := (Nat.log2_lt (by omega)).2 (by omega)
  obtain ⟨stamps, z, hwalk, hlen, hlt, hreach, hdist, -⟩ :=
    (Bounds.whole h₀ L.timestamp rmw (L.timestamp (L.size - 1))).exists_approach
      (show L.size < 2 ^ 64 by omega) (show Nat.log2 L.size < 65 by omega)
      (show 0 * 2 ^ (Nat.log2 L.size + 1) ≤ pos by omega)
      (show pos < 0 * 2 ^ (Nat.log2 L.size + 1) + L.size by omega) fun _ _ _ => rfl
  rw [← root_eq h₀ (by omega)] at hwalk
  rw [Nat.zero_mul] at hdist
  exact ⟨stamps, z, hwalk, by omega, hlt, hreach, fun a ha => hdist a (List.mem_reverse.1 ha)⟩

/-- **There are such visits** for obligations inside the log. -/
theorem exists_climbs (hn : L.size ≤ 2 ^ 62) : ∀ {entries : List (ℕ × ℕ)} (targets : ℕ → Option ℕ),
    (∀ e ∈ entries, e.1 < L.size) → ∃ visits, L.Climbs rmw entries targets visits
  | [], targets, _ => ⟨[], .nil⟩
  | (pos, ver) :: entries, targets, h => by
    obtain ⟨stamps, z, way⟩ : ∃ stamps z, L.Way rmw pos stamps z := exists_way hn (h _ List.mem_cons_self)
    have hrest : ∀ e ∈ entries, e.1 < L.size := fun e he => h e (List.mem_cons_of_mem _ he)
    by_cases hmem : pos ∈ L.distinguished rmw
    · obtain ⟨visits, hvisits⟩ := exists_climbs hn targets hrest
      exact ⟨_, .released way hmem hvisits⟩
    · obtain ⟨visits, hvisits⟩ := exists_climbs hn _ hrest
      exact ⟨_, .climbed way hmem hvisits⟩

theorem contactList_congr {pos n : ℕ} {dist dist' : ℕ → Bool}
    (h : ∀ a ∈ ibstDirectPath pos n, dist a = dist' a) : contactList pos n dist = contactList pos n dist' := by
  have hlist : ∀ l : List ℕ, (∀ a ∈ l, dist a = dist' a) → l.findIdx? dist = l.findIdx? dist' := by
    intro l hl
    induction l with
    | nil => rfl
    | cons a l ih =>
      rw [List.findIdx?_cons, List.findIdx?_cons, hl a List.mem_cons_self,
        ih fun x hx => hl x (List.mem_cons_of_mem _ hx)]
  unfold contactList
  dsimp only
  rw [hlist _ fun a ha => h a (List.mem_filter.1 (List.mem_mergeSort.1 ha)).1]

/-- The walk towards an entry finds what it climbs. -/
theorem Way.list {pos : ℕ} {stamps : List ℕ} {z : ApproachEnd} (h : L.Way rmw pos stamps z) :
    contactList pos L.size z.ancestorDist = L.climbList rmw pos := contactList_congr h.dist

theorem mem_climbList {pos e : ℕ} (h : e ∈ L.climbList rmw pos) :
    e ∈ ibstDirectPath pos L.size ∧ pos < e := by
  have hmem := List.mem_filter.1 (List.mem_mergeSort.1 (List.mem_of_mem_take h))
  exact ⟨hmem.1, by simpa using hmem.2⟩

theorem lt_of_mem_climbList (hn : L.size ≤ 2 ^ 62) {pos e : ℕ} (h : e ∈ L.climbList rmw pos) :
    e < L.size := contactList_lt (by omega) h

/-- The entries of a climb go from left to right. -/
theorem pairwise_climbList (hn : L.size ≤ 2 ^ 62) (pos : ℕ) :
    (L.climbList rmw pos).Pairwise (· < ·) := by
  have hright : ((ibstDirectPath pos L.size).filter (pos < ·)).Pairwise (· < ·) := by
    rw [ibstDirectPath, List.filter_reverse, List.pairwise_reverse]
    exact pairwise_right_ibstDirectPathLoop (by omega)
  rw [climbList, contactList, List.mergeSort_of_pairwise (hright.imp fun h => by simpa using h.le)]
  exact hright.sublist (List.take_sublist _ _)

end LabelLog

/-! ### The server's climb -/

section

variable {P : Primitives} {t : Tree} {label : Octets} {L : LabelLog} {rmw pos ver k : ℕ}
  {visits done : List Visit} {m : ℕ} {proof : CombinedTreeProof} {targets : ℕ → Option ℕ}

theorem le_of_mem_monitoringBinaryLadder {v : ℕ} (h : v ∈ monitoringBinaryLadder ver []) : v ≤ ver := by
  have hmem := (List.mem_filter.1 h).2
  simp only [decide_eq_true_eq] at hmem
  exact hmem.1

/-- **The server climbs** up to the first entry that another climb has covered. -/
theorem Tree.contactLadders_honest (hs : t.Serves P label L) (hver : ver ≤ maxVersion) :
    ∀ {list : List ℕ} {targets : ℕ → Option ℕ} {visits : List Visit} {s : TraversalSession}, list.Nodup →
      (∀ e ∈ list, e < L.size) → s.Gathered P label L none visits →
      ∃ s', contactLadders P t ver list s targets = .ok (s', cover ver (uncovered targets list) targets) ∧
        s'.Gathered P label L none (visits ++ Climb.visits ver (uncovered targets list))
  | [], targets, visits, s, _, _, h => by
    refine ⟨s, ?_, by rwa [uncovered, List.takeWhile_nil, Climb.visits, List.map_nil, List.append_nil]⟩
    rw [uncovered, List.takeWhile_nil, cover_nil]
    rfl
  | e :: list, targets, visits, s, hnodup, hlt, h => by
    obtain ⟨hnot, hnodup⟩ := List.nodup_cons.1 hnodup
    unfold contactLadders
    cases htarget : targets e with
    | some target =>
      rw [if_pos (by simp), uncovered_cons_of_some htarget, cover_nil]
      exact ⟨s, rfl, by rwa [Climb.visits, List.map_nil, List.append_nil]⟩
    | none =>
      obtain ⟨s₁, hvisit, h₁⟩ : ∃ s₁, s.visit P t e (monitoringBinaryLadder ver []) none = .ok s₁ ∧
          s₁.Gathered P label L none (visits ++ [.ladder e (monitoringBinaryLadder ver [])]) := by
        obtain ⟨s₁, hvisit, h₁, -, -⟩ := h.visit_eq hs (hlt e List.mem_cons_self)
          (fun v hv => (le_of_mem_monitoringBinaryLadder hv).trans hver) (.inl rfl)
        exact ⟨s₁, hvisit, h₁⟩
      have hsame : uncovered (Function.update targets e (some ver)) list = uncovered targets list :=
        uncovered_congr fun x hx => Function.update_of_ne (ne_of_mem_of_not_mem hx hnot) ..
      obtain ⟨s₂, hrun, h₂⟩ : ∃ s₂, contactLadders P t ver list s₁ (Function.update targets e (some ver)) =
          .ok (s₂, cover ver (uncovered targets list) (Function.update targets e (some ver))) ∧
          s₂.Gathered P label L none (visits ++ [.ladder e (monitoringBinaryLadder ver [])] ++
            Climb.visits ver (uncovered targets list)) := by
        rw [← hsame]
        exact contactLadders_honest hs hver hnodup (fun x hx => hlt x (List.mem_cons_of_mem _ hx)) h₁
      rw [cover_cons] at hrun
      rw [if_neg (by simp), hvisit, Result.ok_bind, hrun, uncovered_cons_of_none htarget]
      exact ⟨s₂, rfl, by rwa [Climb.visits, List.map_cons, List.append_cons]⟩

/-- **The server's visits** for the obligations of a label. -/
theorem Tree.visitContactEntries_honest (hs : t.Serves P label L) (hn : L.size ≤ 2 ^ 62)
    (hrmw : t.config.reasonableMonitoringWindow = rmw) {entries : List (ℕ × ℕ)} {climbs : List Visit}
    (h : L.Climbs rmw entries targets climbs) (hver : ∀ e ∈ entries, e.2 ≤ maxVersion) :
    ∀ {visits : List Visit} {s : TraversalSession}, s.Gathered P label L none visits →
    ∃ s', visitContactEntries P t L.size (L.timestamp (L.size - 1)) (entries.map fun e => ⟨e.1, e.2⟩) s
        targets = .ok s' ∧ s'.Gathered P label L none (visits ++ climbs) := by
  induction h with
  | nil =>
    intro visits s hg
    exact ⟨s, rfl, by rwa [List.append_nil]⟩
  | @released pos ver entries targets stamps z climbs way hmem rest ih =>
    intro visits s hg
    obtain ⟨s₁, hrun₁, hg₁⟩ := way.walk.visited hs.servesLog hrmw way.lt way.short hg
    obtain ⟨s₂, hrun₂, hg₂⟩ := ih (fun e he => hver e (List.mem_cons_of_mem _ he)) hg₁
    refine ⟨s₂, ?_, by rwa [← List.append_assoc]⟩
    rw [List.map_cons, visitContactEntries, visitContactEntry]
    dsimp only
    rw [hrun₁, Result.ok_bind]
    dsimp only
    rw [hrmw, if_pos (show z.parentDist = true ∧ z.curr = pos ∧ rmw ≤ z.bounds.2.val - z.bounds.1.val from
      way.reaches.2 hmem)]
    exact hrun₂
  | @climbed pos ver entries targets stamps z climbs way hmem rest ih =>
    intro visits s hg
    obtain ⟨s₁, hrun₁, hg₁⟩ := way.walk.visited hs.servesLog hrmw way.lt way.short hg
    have hnodup : (L.climbList rmw pos).Nodup := (LabelLog.pairwise_climbList hn pos).imp ne_of_lt
    obtain ⟨s₂, hrun₂, hg₂⟩ := @contactLadders_honest P t label L ver hs (hver _ List.mem_cons_self) _ targets _ _
      hnodup (fun e he => LabelLog.lt_of_mem_climbList hn he) hg₁
    obtain ⟨s₃, hrun₃, hg₃⟩ := ih (fun e he => hver e (List.mem_cons_of_mem _ he)) hg₂
    refine ⟨s₃, ?_, by rwa [← List.append_assoc, ← List.append_assoc]⟩
    rw [List.map_cons, visitContactEntries, visitContactEntry]
    dsimp only
    rw [hrun₁, Result.ok_bind]
    dsimp only
    rw [hrmw, if_neg (show ¬(z.parentDist = true ∧ z.curr = pos ∧ rmw ≤ z.bounds.2.val - z.bounds.1.val) from
      mt way.reaches.1 hmem), way.list, hrun₂, Result.ok_bind]
    exact hrun₃

/-! ### The client's climb -/

/-- What follows the visits of a walk follows any others to the same entries. -/
theorem SearchState.Follows.congr {done' : List Visit} {s : SearchState} (h : s.Follows P L proof done)
    (hentries : entriesOf done' = entriesOf done) (hladders : laddersOf done' = laddersOf done) :
    s.Follows P L proof done' := by
  constructor
  · rw [hentries, hladders]
    exact h.reader
  · rw [hladders]
    exact h.roots

/-- **Following a visit with a ladder**, whose timestamp is read before it. -/
theorem SearchState.Follows.visit {s : SearchState} (h : s.Follows P L proof done)
    (ht : Transcript P L visits m proof) {e : ℕ} {versions : List ℕ}
    (hvisits : done ++ [.ladder e versions] <+: visits) :
    ∃ reader₁ pp reader₂ entryRoots, s.reader.timestamp e = .ok (L.timestamp e, reader₁) ∧
      reader₁.prefixProof = .ok (pp, reader₂) ∧
      pp.Proves P (L.contents e) (versions.map L.key) ∧
      ProofReader.recordEntryRoot s.entryRoots e (L.root P e) = .ok entryRoots ∧
      ∀ ladders, (SearchState.mk reader₂ ladders entryRoots).Follows P L proof
        (done ++ [.ladder e versions]) := by
  have hentries := entriesOf_beginning hvisits
  rw [entriesOf_ladder] at hentries
  obtain ⟨reader₁, hts, h₁⟩ := h.stamp ht hentries
  have hladder : (laddersOf visits)[(laddersOf (done ++ [.stamp e])).length]? = some (e, versions) := by
    rw [laddersOf_stamp]
    exact laddersOf_getElem? hvisits
  obtain ⟨pp, reader₂, entryRoots, hpp, hproves, hrecord, h₂⟩ := h₁.ladder ht hladder
    (mem_entriesOf.2 ⟨.stamp e, by simp, rfl⟩)
  refine ⟨reader₁, pp, reader₂, entryRoots, hts, hpp, hproves, hrecord, fun ladders =>
    (h₂ ladders).congr ?_ ?_⟩
  · rw [entriesOf_ladder, entriesOf_ladder, entriesOf_stamp]
    exact (appendNew_of_mem (mem_appendNew.2 (.inr rfl))).symm
  · rw [laddersOf_ladder, laddersOf_ladder, laddersOf_stamp]

/-- The material of a version's monitoring ladder is that of the log. -/
def LabelLog.Material (L : LabelLog) (material : ℕ → Option (Octets × Option Octets)) (ver : ℕ) : Prop :=
  ∀ v ∈ monitoringBinaryLadder ver [], material v = some (L.key v, some (L.commitment v))

theorem KtClient.verifyMonitoringLookups_honest {material : ℕ → Option (Octets × Option Octets)} {e : ℕ}
    (he : e < L.size) {pp : PrefixProof} : ∀ {versions : List ℕ} {j off : ℕ} {root : Option Octets},
    (∀ v ∈ versions, v ≤ maxVersion ∧ L.present e v = true ∧
      material v = some (L.key v, some (L.commitment v))) →
    pp.ProvesFrom P (L.contents e) j off (versions.map L.key) → (∀ prev ∈ root, prev = L.root P e) →
    verifyMonitoringLookups P material pp j versions off root =
      .ok (pp.elements.length, if versions = [] then root else some (L.root P e))
  | [], j, off, root, _, hproves, _ => by
    obtain ⟨-, rfl⟩ := hproves
    rfl
  | v :: versions, j, off, root, hall, hproves, hroot => by
    obtain ⟨hv, hpresent, hmaterial⟩ := hall v List.mem_cons_self
    obtain ⟨result, hresult, htype, hcompute, hrest⟩ := hproves
    have hcontents : L.contents e (L.key v) = some (L.commitment v) := by
      rw [LabelLog.contents_key he hv, if_pos hpresent]
    rw [hcontents] at hcompute htype
    have hinclusion : pp.results[j]?.any (·.resultType = 1) = true := by
      rw [hresult, Option.any_some, decide_eq_true_eq]
      exact htype.2 rfl
    have hlookup : verifyMonitoringLookup P material pp j v off root =
        .ok (off + result.depth, some (L.root P e)) := by
      rw [verifyMonitoringLookup, ensure_of hinclusion, Result.ok_bind, hmaterial, okOr_some, Result.ok_bind]
      dsimp only
      rw [okOr_some, Result.ok_bind]
      have hcompute' : PrefixVerifier.computeRootFromResult P pp j (L.key v) (some (L.commitment v)) off =
        .ok (L.root P e, result.depth) := hcompute
      rw [hcompute', Result.ok_bind]
      dsimp only
      rw [agreeingRoot, ensure_of hroot]
      rfl
    have hlookups : verifyMonitoringLookups P material pp (j + 1) versions (off + result.depth)
        (some (L.root P e)) = .ok (pp.elements.length,
          if versions = [] then some (L.root P e) else some (L.root P e)) :=
      verifyMonitoringLookups_honest he (fun w hw => hall w (List.mem_cons_of_mem _ hw)) hrest
        fun prev hprev => (Option.some.inj hprev).symm
    rw [verifyMonitoringLookups, hlookup, Result.ok_bind]
    dsimp only
    rw [hlookups, if_neg (List.cons_ne_nil _ _), ite_self]

theorem monitoringBinaryLadder_ne_nil (hver : ver ≤ maxVersion) : monitoringBinaryLadder ver [] ≠ [] :=
  List.ne_nil_of_mem (List.mem_filter.2 ⟨mem_baseBinaryLadder_self (show ver < 2 ^ 32 by
    have : maxVersion = 2 ^ 32 - 1 := rfl
    omega), by simp⟩)

/-- **An honest monitoring ladder verifies.** -/
theorem KtClient.verifyMonitoringLadder_honest {material : ℕ → Option (Octets × Option Octets)} {e : ℕ}
    (he : e < L.size) (hver : ver ≤ maxVersion) (hpresent : L.present e ver = true)
    (hmaterial : L.Material material ver) {pp : PrefixProof}
    (hproves : pp.Proves P (L.contents e) ((monitoringBinaryLadder ver []).map L.key)) :
    verifyMonitoringLadder P material pp ver = .ok (L.root P e) := by
  have htypes := congrArg List.length hproves.types
  rw [List.length_map, List.length_map, List.length_map, List.drop_zero] at htypes
  have hlookups : verifyMonitoringLookups P material pp 0 (monitoringBinaryLadder ver []) 0 none =
      .ok (pp.elements.length, if monitoringBinaryLadder ver [] = [] then none else some (L.root P e)) :=
    verifyMonitoringLookups_honest he (fun v hv => by
      have hle := le_of_mem_monitoringBinaryLadder hv
      obtain ⟨g, hg, hle'⟩ := LabelLog.present_iff.1 hpresent
      exact ⟨hle.trans hver, LabelLog.present_iff.2 ⟨g, hg, hle.trans hle'⟩, hmaterial v hv⟩) hproves
    fun prev (hprev : prev ∈ none) => by cases hprev
  rw [verifyMonitoringLadder, ensure_of htypes, Result.ok_bind, hlookups, Result.ok_bind]
  dsimp only
  rw [ensure_of rfl, Result.ok_bind, if_neg (monitoringBinaryLadder_ne_nil hver)]
  rfl

/-- **The client climbs** through the entries that no other climb has covered. -/
theorem KtClient.climbLadders_uncovered {material : ℕ → Option (Octets × Option Octets)}
    (ht : Transcript P L visits m proof) (hver : ver ≤ maxVersion) (hmaterial : L.Material material ver)
    (rest : List ℕ) : ∀ {entries : List ℕ} {movedTo : Option ℕ} {w : ContactWalk} {done : List Visit},
    entries.Nodup → (∀ e ∈ entries, w.ladderTargets e = none ∧ e < L.size ∧ L.present e ver = true) →
    (SearchState.mk w.reader (.new []) w.entryRoots).Follows P L proof done →
    done ++ Climb.visits ver entries <+: visits →
    ∃ reader entryRoots, climbLadders P material pos ver (entries ++ rest) movedTo w =
        climbLadders P material pos ver rest (entries.getLast?.or movedTo)
          ⟨reader, entryRoots, w.newMap, cover ver entries w.ladderTargets⟩ ∧
      (SearchState.mk reader (.new []) entryRoots).Follows P L proof (done ++ Climb.visits ver entries)
  | [], movedTo, w, done, _, _, h, _ => by
    refine ⟨w.reader, w.entryRoots, ?_, by rwa [Climb.visits, List.map_nil, List.append_nil]⟩
    rw [cover_nil, List.getLast?_nil, Option.none_or]
    rfl
  | e :: entries, movedTo, w, done, hnodup, hall, h, hvisits => by
    obtain ⟨hnot, hnodup⟩ := List.nodup_cons.1 hnodup
    obtain ⟨htarget, he, hpresent⟩ := hall e List.mem_cons_self
    have hsplit : done ++ Climb.visits ver (e :: entries) =
        done ++ [.ladder e (monitoringBinaryLadder ver [])] ++ Climb.visits ver entries := by
      rw [Climb.visits, List.map_cons, List.append_cons]
      rfl
    rw [hsplit] at hvisits ⊢
    obtain ⟨reader₁, pp, reader₂, entryRoots₁, hts, hpp, hproves, hrecord, h₁⟩ :=
      h.visit ht ((List.prefix_append _ _).trans hvisits)
    have hladder := verifyMonitoringLadder_honest he hver hpresent hmaterial hproves
    obtain ⟨reader, entryRoots, hrun, h'⟩ := @climbLadders_uncovered material ht hver hmaterial rest entries
      (some e) ⟨reader₂, entryRoots₁, w.newMap, Function.update w.ladderTargets e (some ver)⟩ _ hnodup
      (fun x hx => ⟨(Function.update_of_ne (ne_of_mem_of_not_mem hx hnot) ..).trans
        (hall x (List.mem_cons_of_mem _ hx)).1, (hall x (List.mem_cons_of_mem _ hx)).2⟩) (h₁ _) hvisits
    refine ⟨reader, entryRoots, ?_, h'⟩
    rw [List.cons_append, climbLadders, htarget]
    dsimp only
    dsimp only at hts
    rw [hts, Result.ok_bind]
    dsimp only
    rw [hpp, Result.ok_bind]
    dsimp only
    rw [hladder, Result.context_ok, Result.ok_bind, hrecord, Result.ok_bind, hrun, cover_cons]
    congr 1
    cases entries with
    | nil => rfl
    | cons x entries => simp [List.getLast?_cons]

/-- **One obligation**: its climb goes through what is not covered, and ends as the outcome
of the replay has it. -/
theorem KtClient.replayObligation_climbed {material : ℕ → Option (Octets × Option Octets)}
    (hn : L.size ≤ 2 ^ 62) (ht : Transcript P L visits m proof) (hver : ver ≤ maxVersion)
    (hmaterial : L.Material material ver) (hpresent : L.present pos ver = true) {stamps : List ℕ}
    {z : ApproachEnd} (way : L.Way rmw pos stamps z) (hmem : pos ∉ L.distinguished rmw) {w : ContactWalk}
    (h : (SearchState.mk w.reader (.new []) w.entryRoots).Follows P L proof done)
    (hvisits : done ++ (stamps.map .stamp ++
      Climb.visits ver (uncovered w.ladderTargets (L.climbList rmw pos))) <+: visits) :
    ∃ (reader : ProofReader) (entryRoots : NodeMap) (e : ℕ),
      (SearchState.mk reader (.new []) entryRoots).Follows P L proof
        (done ++ (stamps.map .stamp ++ Climb.visits ver (uncovered w.ladderTargets (L.climbList rmw pos)))) ∧
      replayObligation P material L.size rmw (L.timestamp (L.size - 1)) pos ver w =
        match coveredBy w.ladderTargets (L.climbList rmw pos) with
        | some target =>
          if ver < target then
            .ok ⟨reader, entryRoots, w.newMap.erase pos,
              cover ver (uncovered w.ladderTargets (L.climbList rmw pos)) w.ladderTargets⟩
          else fail s!"Entry {e} already covered by a ladder with non-greater target {target}"
        | none => .ok ⟨reader, entryRoots, L.moved rmw pos ver w.newMap,
            cover ver (uncovered w.ladderTargets (L.climbList rmw pos)) w.ladderTargets⟩ := by
  have hlist : ∀ e ∈ L.climbList rmw pos, e < L.size ∧ L.present e ver = true := fun e he => by
    have hlt := LabelLog.lt_of_mem_climbList hn he
    exact ⟨hlt, LabelLog.present_later hpresent (LabelLog.mem_climbList he).2.le hlt⟩
  have hnodup : (L.climbList rmw pos).Nodup := (LabelLog.pairwise_climbList hn pos).imp ne_of_lt
  rw [← List.append_assoc] at hvisits ⊢
  -- the walk towards the entry
  obtain ⟨reader₁, hrun₁, hat₁⟩ := way.walk.read ht way.short h.reader
    (entriesOf_beginning ((List.prefix_append _ _).trans hvisits))
  have h₁ : (SearchState.mk reader₁ (.new []) w.entryRoots).Follows P L proof
      (done ++ stamps.map .stamp) := by
    constructor
    · rw [laddersOf_append, laddersOf_stamps, List.append_nil]
      exact hat₁
    · rw [laddersOf_append, laddersOf_stamps, List.append_nil]
      exact h.roots
  -- the climb, to its end or to an entry that is covered
  have hclimb : ∀ rest, ∃ reader entryRoots, climbLadders P material pos ver
        (uncovered w.ladderTargets (L.climbList rmw pos) ++ rest) none { w with reader := reader₁ } =
      climbLadders P material pos ver rest (uncovered w.ladderTargets (L.climbList rmw pos)).getLast?
        ⟨reader, entryRoots, w.newMap,
          cover ver (uncovered w.ladderTargets (L.climbList rmw pos)) w.ladderTargets⟩ ∧
      (SearchState.mk reader (.new []) entryRoots).Follows P L proof (done ++ stamps.map .stamp ++
        Climb.visits ver (uncovered w.ladderTargets (L.climbList rmw pos))) := fun rest => by
    obtain ⟨reader, entryRoots, hrun, h₂⟩ := @climbLadders_uncovered P L pos ver visits m proof material ht hver
      hmaterial rest _ none { w with reader := reader₁ } _ (hnodup.sublist (List.takeWhile_sublist _))
      (fun e he => ⟨(mem_uncovered he).2, hlist e (mem_uncovered he).1⟩) h₁ hvisits
    rw [Option.or_none] at hrun
    exact ⟨reader, entryRoots, hrun, h₂⟩
  have hstart : replayObligation P material L.size rmw (L.timestamp (L.size - 1)) pos ver w =
      climbLadders P material pos ver (L.climbList rmw pos) none { w with reader := reader₁ } >>= fun r =>
        match r.1 with
        | some newpos =>
          let newMap := r.2.newMap.erase pos
          if z.ancestorDist newpos then .ok { r.2 with newMap := newMap }
          else .ok { r.2 with newMap := newMap.insert newpos ver }
        | none => .ok r.2 := by
    rw [replayObligation, hrun₁, Result.ok_bind]
    dsimp only
    rw [if_neg (show ¬(z.parentDist = true ∧ z.curr = pos ∧ rmw ≤ z.bounds.2.val - z.bounds.1.val) from
      mt way.reaches.1 hmem), way.list]
    rfl
  rw [hstart]
  rcases uncovered_cases w.ladderTargets (L.climbList rmw pos) with
    ⟨hcovered, hall⟩ | ⟨e, rest, target, hcovered, htarget, hsplit⟩
  · obtain ⟨reader, entryRoots, hrun, h₂⟩ := hclimb []
    rw [List.append_nil, ← hall] at hrun
    refine ⟨reader, entryRoots, 0, h₂, ?_⟩
    rw [hrun, hcovered, ← hall]
    unfold climbLadders LabelLog.moved
    rw [Result.ok_bind]
    dsimp only
    cases hlast : (L.climbList rmw pos).getLast? with
    | none => rfl
    | some newpos =>
      have hpath := (LabelLog.mem_climbList (List.mem_of_getLast? hlast)).1
      dsimp only
      rw [way.dist newpos hpath]
      by_cases hdist : newpos ∈ L.distinguished rmw
      · rw [if_pos (decide_eq_true hdist), if_pos hdist]
      · rw [if_neg (by simpa using hdist), if_neg hdist]
  · obtain ⟨reader, entryRoots, hrun, h₂⟩ := hclimb (e :: rest)
    rw [← hsplit] at hrun
    refine ⟨reader, entryRoots, e, h₂, ?_⟩
    have htarget' : cover ver (uncovered w.ladderTargets (L.climbList rmw pos)) w.ladderTargets e =
        some target := by
      refine (cover_of_not_mem fun hmem' => ?_).trans htarget
      rw [(mem_uncovered hmem').2] at htarget
      cases htarget
    rw [hrun, hcovered, climbLadders]
    dsimp only
    rw [htarget']
    dsimp only
    by_cases hlt : ver < target
    · rw [ensure_of hlt, if_pos hlt]
      rfl
    · rw [if_neg hlt, ensure, if_neg hlt]
      rfl

/-- A client can replay the obligations: it retains the material of their versions, and
these are in the log. -/
def LabelLog.Replayable (L : LabelLog) (material : ℕ → Option (Octets × Option Octets))
    (entries : List (ℕ × ℕ)) : Prop :=
  ∀ e ∈ entries, e.1 < L.size ∧ L.present e.1 e.2 = true ∧ L.Material material e.2

theorem LabelLog.le_of_present {e v : ℕ} (he : e < L.size) (h : L.present e v = true) : v ≤ maxVersion := by
  obtain ⟨g, hg, hle⟩ := LabelLog.present_iff.1 h
  exact hle.trans (L.small he hg)

/-- **Replaying the obligations of a label** comes to their outcome, and fails where there
is none. -/
theorem KtClient.replayObligations_replayed {material : ℕ → Option (Octets × Option Octets)}
    (hn : L.size ≤ 2 ^ 62) (ht : Transcript P L visits m proof) {entries : List (ℕ × ℕ)}
    {climbs : List Visit} (h : L.Climbs rmw entries targets climbs)
    (hentries : L.Replayable material entries) : ∀ {w : ContactWalk} {done : List Visit},
    w.ladderTargets = targets → (SearchState.mk w.reader (.new []) w.entryRoots).Follows P L proof done →
    done ++ climbs <+: visits →
    (∀ map, L.replayed rmw entries targets w.newMap = some map →
      ∃ w', replayObligations P material L.size rmw (L.timestamp (L.size - 1)) entries w = .ok w' ∧
        w'.newMap = map ∧
        (SearchState.mk w'.reader (.new []) w'.entryRoots).Follows P L proof (done ++ climbs)) ∧
    (L.replayed rmw entries targets w.newMap = none → ∀ w',
      replayObligations P material L.size rmw (L.timestamp (L.size - 1)) entries w ≠ .ok w') := by
  induction h with
  | nil =>
    intro w done htargets hw _
    refine ⟨fun map hmap => ⟨w, rfl, Option.some.inj hmap, by rwa [List.append_nil]⟩, fun hnone => ?_⟩
    cases hnone
  | @released pos ver entries targets stamps z climbs way hmem rest ih =>
    intro w done htargets hw hvisits
    have hrest : L.Replayable material entries := fun e he => hentries e (List.mem_cons_of_mem _ he)
    rw [← List.append_assoc] at hvisits ⊢
    obtain ⟨reader₁, hrun₁, hat₁⟩ := way.walk.read ht way.short hw.reader
      (entriesOf_beginning ((List.prefix_append _ _).trans hvisits))
    have h₁ : (SearchState.mk reader₁ (.new []) w.entryRoots).Follows P L proof
        (done ++ stamps.map .stamp) := by
      constructor
      · rw [laddersOf_append, laddersOf_stamps, List.append_nil]
        exact hat₁
      · rw [laddersOf_append, laddersOf_stamps, List.append_nil]
        exact hw.roots
    have hstep : replayObligation P material L.size rmw (L.timestamp (L.size - 1)) pos ver w =
        .ok ⟨reader₁, w.entryRoots, w.newMap.erase pos, w.ladderTargets⟩ := by
      rw [replayObligation, hrun₁, Result.ok_bind]
      dsimp only
      rw [if_pos (show z.parentDist = true ∧ z.curr = pos ∧ rmw ≤ z.bounds.2.val - z.bounds.1.val from
        way.reaches.2 hmem)]
      rfl
    rw [replayObligations, hstep, Result.ok_bind, LabelLog.replayed, if_pos hmem]
    exact ih hrest (w := ⟨reader₁, w.entryRoots, w.newMap.erase pos, w.ladderTargets⟩) htargets h₁ hvisits
  | @climbed pos ver entries targets stamps z climbs way hmem rest ih =>
    intro w done htargets hw hvisits
    have hrest : L.Replayable material entries := fun e he => hentries e (List.mem_cons_of_mem _ he)
    obtain ⟨hpos, hpresent, hmaterial⟩ := hentries _ List.mem_cons_self
    subst htargets
    rw [← List.append_assoc] at hvisits ⊢
    obtain ⟨reader, entryRoots, e, h₁, hstep⟩ := replayObligation_climbed hn ht
      (LabelLog.le_of_present hpos hpresent) hmaterial hpresent way hmem hw
      ((List.prefix_append _ _).trans hvisits)
    rw [replayObligations, hstep, LabelLog.replayed, if_neg hmem]
    dsimp only
    cases coveredBy w.ladderTargets (L.climbList rmw pos) with
    | none =>
      dsimp only
      rw [Result.ok_bind]
      exact ih hrest (w := ⟨reader, entryRoots, _, _⟩) rfl h₁ hvisits
    | some target =>
      dsimp only
      split_ifs with hlt
      · rw [Result.ok_bind]
        exact ih hrest (w := ⟨reader, entryRoots, _, _⟩) rfl h₁ hvisits
      · refine ⟨fun map hmap => (by cases hmap), fun _ w' hw' => ?_⟩
        obtain ⟨r, hr, -⟩ := Result.bind_eq_ok.1 hw'
        cases hr

/-! ### Contact monitoring -/

/-- **What the server answers** to a request for contact monitoring. -/
theorem Tree.traverseContactMonitoring_honest (hs : t.Serves P label L) (hauditors : t.auditors = [])
    (h₀ : 0 < L.size) (hn : L.size ≤ 2 ^ 62) (hm : m ≤ L.size)
    (hrmw : t.config.reasonableMonitoringWindow = rmw) {entries : List (ℕ × ℕ)} {climbs : List Visit}
    (h : L.Climbs rmw entries.reverse (fun _ => none) climbs) (hver : ∀ e ∈ entries, e.2 ≤ maxVersion) :
    ∃ proof, traverseContactMonitoring P t L.size label (entries.map fun e => ⟨e.1, e.2⟩) m = .ok proof ∧
      Transcript P L (frontierVisits L.size ++ climbs) m proof := by
  obtain ⟨s₁, hrun₁, h₁, -, -⟩ := (TraversalSession.gathered_new P label L none).visitAll
    hs.servesLog fun e (he : e ∈ getFrontier L.size) => mem_getFrontier_lt hn he
  obtain ⟨s₂, hrun₂, h₂⟩ := visitContactEntries_honest hs hn hrmw h
    (fun e he => hver e (List.mem_reverse.1 he)) h₁
  obtain ⟨proof, hfinal, htranscript⟩ := h₂.finalize hs hauditors h₀ hn hm
  refine ⟨proof, ?_, htranscript⟩
  rw [traverseContactMonitoring, TraversalSession.visitFrontier, hrun₁, Result.ok_bind,
    hs.timestamp _ (by omega), Result.ok_bind, ← List.map_reverse, hrun₂, Result.ok_bind, hfinal]

theorem KtClient.replayContactLadders_replayed {material : ℕ → Option (Octets × Option Octets)}
    (h₀ : 0 < L.size) (hn : L.size ≤ 2 ^ 62) {map : OrderedMap ℕ} {climbs : List Visit}
    (ht : Transcript P L visits m proof) (hvisits : frontierVisits L.size ++ climbs <+: visits)
    (hclimbs : L.Climbs rmw map.entries.reverse (fun _ => none) climbs)
    (hentries : L.Replayable material map.entries) {reader : ProofReader}
    (hreader : reader.At L proof (entriesOf (frontierVisits L.size)) 0) :
    (∀ map', L.replayed rmw map.entries.reverse (fun _ => none) map = some map' →
      ∃ w, replayContactLadders P material map L.size rmw reader (fun _ => none) = .ok w ∧ w.newMap = map' ∧
        (SearchState.mk w.reader (.new []) w.entryRoots).Follows P L proof
          (frontierVisits L.size ++ climbs)) ∧
    (L.replayed rmw map.entries.reverse (fun _ => none) map = none →
      ∀ w, replayContactLadders P material map L.size rmw reader (fun _ => none) ≠ .ok w) := by
  have hfrontier := (List.prefix_append _ _).trans hvisits
  have hlast := last_mem_entriesOf h₀ hn (List.prefix_refl (frontierVisits L.size))
  obtain ⟨reader', hts, hreader'⟩ := hreader.timestamp ht (e := L.size - 1)
    (by rw [appendNew_of_mem hlast]; exact entriesOf_beginning hfrontier)
  rw [appendNew_of_mem hlast] at hreader'
  have hfollows : (SearchState.mk reader' (.new []) fun _ => none).Follows P L proof
      (frontierVisits L.size) := by
    refine ⟨?_, fun e => ?_⟩
    · rw [frontierVisits, laddersOf_stamps]
      exact hreader'
    · rw [frontierVisits, laddersOf_stamps]
      rfl
  have hreverse : L.Replayable material map.entries.reverse := fun e he => hentries e (List.mem_reverse.1 he)
  rw [replayContactLadders, hts, Result.ok_bind]
  exact replayObligations_replayed hn ht hclimbs hreverse (w := ⟨reader', fun _ => none, map, fun _ => none⟩)
    rfl hfollows hvisits

/-- What a client has after it has accepted an answer to contact monitoring. -/
structure KtClient.Monitored (P : Primitives) (L : LabelLog) (label : Octets) (map : OrderedMap ℕ)
    (c c' : KtClient) : Prop where
  head : ∃ head, c'.state = some head ∧ head.treeSize = L.size ∧ head.rootHash = logRoot P (L.leaves P)
  monitoringMap : c'.monitoringMap = Function.update c.monitoringMap label map
  versionMaterial : c'.versionMaterial = c.versionMaterial

/-- **A client accepts the answer** to contact monitoring where the replay of its
obligations has an outcome, and retains this outcome; otherwise it refuses the answer. -/
theorem KtClient.verifyContactMonitor_replayed {env : Env} {c : KtClient} {H : U64}
    (hmeets : c.Meets P env t L m H) (hmode : c.config.mode ≠ deploymentModeThirdPartyAuditing)
    (hsize : t.treeSize = L.size) (h₀ : 0 < L.size) (hn : L.size ≤ 2 ^ 62)
    (hrmw : c.config.reasonableMonitoringWindow = rmw) {map : OrderedMap ℕ} {climbs : List Visit}
    (hclimbs : L.Climbs rmw map.entries.reverse (fun _ => none) climbs)
    (ht : Transcript P L (frontierVisits L.size ++ climbs) m proof)
    (hentries : L.Replayable (c.versionMaterial label) map.entries) :
    (∀ map', L.replayed rmw map.entries.reverse (fun _ => none) map = some map' →
      ∃ data c', c.verifyContactMonitor P env label map
          ⟨some (t.getFullTreeHead (c.state.map TrustedState.treeSize)), some proof⟩ = .ok (data, c') ∧
        Monitored P L label map' c c') ∧
    (L.replayed rmw map.entries.reverse (fun _ => none) map = none → ∀ r, c.verifyContactMonitor P env label
      map ⟨some (t.getFullTreeHead (c.state.map TrustedState.treeSize)), some proof⟩ ≠ .ok r) := by
  have hfrontier := List.prefix_append (frontierVisits L.size) climbs
  have hlast := last_mem_entriesOf h₀ hn hfrontier
  have hlastFrontier := last_mem_entriesOf h₀ hn (List.prefix_refl (frontierVisits L.size))
  obtain ⟨reader, hreader, hat⟩ := ProofReader.frontier_honest ht hfrontier
  obtain ⟨reader', hrightmost, hat'⟩ := hat.timestamp ht (e := L.size - 1)
    (by rw [appendNew_of_mem hlastFrontier]; exact entriesOf_beginning hfrontier)
  rw [appendNew_of_mem hlastFrontier] at hat'
  obtain ⟨hreplayed, hrefused⟩ := replayContactLadders_replayed h₀ hn ht List.prefix_rfl hclimbs hentries hat'
  have hstart : c.verifyContactMonitor P env label map
        ⟨some (t.getFullTreeHead (c.state.map TrustedState.treeSize)), some proof⟩ =
      replayContactLadders P (c.versionMaterial label) map L.size rmw reader' (fun _ => none) >>= fun w =>
        c.finishAndCommit P (t.getFullTreeHead (c.state.map TrustedState.treeSize)) L.size (some H)
            (decide (m < L.size)) proof w.reader w.entryRoots [] >>= fun r =>
          .ok (r.1, { r.2.2 with
            monitoringMap := Function.update r.2.2.monitoringMap label w.newMap }) := by
    unfold verifyContactMonitor
    dsimp only
    rw [okOr_some, Result.ok_bind, okOr_some, Result.ok_bind, hmeets.treeSizeForFth_eq hsize h₀,
      Result.ok_bind]
    dsimp only
    rw [ensure_of h₀.ne', Result.ok_bind, hmeets.checkUpdatedBounds_eq, Result.ok_bind, hreader,
      Result.ok_bind, hrightmost, Result.ok_bind, hrmw]
    rfl
  constructor
  · intro map' hmap
    obtain ⟨w, hw, rfl, hfollows⟩ := hreplayed map' hmap
    obtain ⟨captured, head, th, retained, hfinish, hheadSize, hheadRoot, -⟩ :=
      @KtClient.finishAndCommit_honest P L _ _ _ _ _ _ (hmeets.headOf hmode hsize h₀) hn h₀ ht hlast
        (some H) _ hfollows.reader _ hfollows.roots []
    refine ⟨L.data P (frontierVisits L.size ++ climbs), { c with
      retainedHead := th, state := some head, retainedSubtrees := retained
      monitoringMap := Function.update c.monitoringMap label w.newMap }, ?_,
      ⟨head, rfl, hheadSize, hheadRoot⟩, rfl, rfl⟩
    rw [hstart, hw, Result.ok_bind, hfinish, Result.ok_bind]
  · intro hnone r hr
    rw [hstart] at hr
    obtain ⟨w, hw, -⟩ := Result.bind_eq_ok.1 hr
    exact hrefused hnone w hw

end

end KeyTransparency
