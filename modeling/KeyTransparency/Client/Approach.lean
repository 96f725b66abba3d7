/-
# The way to an obligation

Before the ladders of an obligation are climbed, the walk from the root towards its entry
tells which entries above are distinguished.  Both sides make it by the same rules
(`Approach`): the server adds a timestamp for every entry that it passes, and the client
reads one.  The walk tells of every entry on the way whether it is distinguished
(`Bounds.exists_approach`), and both sides come to the same end of it
(`Approach.visited`, `Approach.read`).
-/

import KeyTransparency.Client.DistinguishedTests
import KeyTransparency.Client.OwnerInit

namespace KeyTransparency

open BinaryLadder InOrder LogMath

/-! ### The way to an obligation -/

/-- Where the walk from the root towards an entry ends. -/
structure ApproachEnd where
  bounds : U64 × U64
  parentDist : Bool
  ancestorDist : ℕ → Bool
  curr : ℕ

/-- The test of an entry at the end of the walk towards it. -/
def ApproachEnd.Reaches (rmw pos : ℕ) (z : ApproachEnd) : Prop :=
  z.parentDist = true ∧ z.curr = pos ∧ rmw ≤ z.bounds.2.val - z.bounds.1.val

/-- **The walk from the root towards an entry**, as both sides make it, with the entries
whose timestamps are read.  It ends at the entry, or at the first entry above it that is not
distinguished. -/
inductive Approach (ts : ℕ → U64) (n rmw pos : ℕ) :
    U64 × U64 → (ℕ → Bool) → ℕ → List ℕ → ApproachEnd → Prop
  | here {bounds : U64 × U64} {dist : ℕ → Bool} :
    Approach ts n rmw pos bounds dist pos [] ⟨bounds, true, dist, pos⟩
  | out {bounds : U64 × U64} {dist : ℕ → Bool} {curr : ℕ} (hne : curr ≠ pos)
      (hdist : bounds.2.val - bounds.1.val < rmw) :
    Approach ts n rmw pos bounds dist curr [curr] ⟨bounds, false, Function.update dist curr false, curr⟩
  | left {bounds : U64 × U64} {dist : ℕ → Bool} {curr : ℕ} {stamps : List ℕ} {z : ApproachEnd}
      (hlt : pos < curr) (hdist : rmw ≤ bounds.2.val - bounds.1.val)
      (rest : Approach ts n rmw pos (bounds.1, ts curr) (Function.update dist curr true) (leftChild curr)
        stamps z) :
    Approach ts n rmw pos bounds dist curr (curr :: stamps) z
  | right {bounds : U64 × U64} {dist : ℕ → Bool} {curr rc : ℕ} {stamps : List ℕ} {z : ApproachEnd}
      (hlt : curr < pos) (hdist : rmw ≤ bounds.2.val - bounds.1.val)
      (hchild : ibstRightChild curr n = some rc)
      (rest : Approach ts n rmw pos (ts curr, bounds.2) (Function.update dist curr true) rc stamps z) :
    Approach ts n rmw pos bounds dist curr (curr :: stamps) z

section

variable {ts : ℕ → U64} {rmw n pos : ℕ} {dset : List ℕ}

/-- **There is such a walk**; it tells which entries are distinguished. -/
theorem Bounds.exists_approach (hn : n < 2 ^ 64) : ∀ {k i size fuel : ℕ} {bounds : U64 × U64}
    {dist : ℕ → Bool}, Bounds ts rmw n dset k i size bounds true → k < fuel → i * 2 ^ (k + 1) ≤ pos →
    pos < i * 2 ^ (k + 1) + size →
    (∀ x, i * 2 ^ (k + 1) ≤ x → x < i * 2 ^ (k + 1) + size → dist x = false) →
    ∃ stamps z, Approach ts n rmw pos bounds dist (node k i) stamps z ∧ stamps.length ≤ k ∧
      (∀ e ∈ stamps, e < n) ∧ (z.Reaches rmw pos ↔ pos ∈ dset) ∧
      (∀ a ∈ ibstDirectPathLoop pos fuel size (i * 2 ^ (k + 1)), z.ancestorDist a = decide (a ∈ dset)) ∧
      ∀ x, x < i * 2 ^ (k + 1) ∨ i * 2 ^ (k + 1) + size ≤ x → z.ancestorDist x = dist x := by
  intro k
  induction k using Nat.strong_induction_on with
  | _ k ih =>
    intro i size fuel bounds dist h hfuel hlow hhigh hfalse
    obtain ⟨fuel, rfl⟩ := Nat.exists_eq_succ_of_ne_zero (show fuel ≠ 0 by omega)
    obtain ⟨hsize, hleft, hroot, hright⟩ := h.block.halving hn
    have hnode : node k i = i * 2 ^ (k + 1) + (2 ^ k - 1) := rfl
    have hle := h.block.node_le
    have hpow := Nat.two_pow_pos k
    have hpath : ibstDirectPathLoop pos (fuel + 1) size (i * 2 ^ (k + 1)) =
        if pos = node k i then []
        else if pos < node k i then
          node k i :: ibstDirectPathLoop pos fuel (2 ^ k - 1) (i * 2 ^ (k + 1))
        else node k i :: ibstDirectPathLoop pos fuel (size - 2 ^ k) (node k i + 1) := by
      rw [ibstDirectPathLoop, if_pos hsize, hleft]
      dsimp only
      rw [hroot, hright]
    rw [hpath]
    by_cases hpos : pos = node k i
    · rw [if_pos hpos, ← hpos]
      refine ⟨[], _, .here, Nat.zero_le _, fun e he => (by cases he), ?_, fun a ha => (by cases ha),
        fun x _ => rfl⟩
      rw [hpos, h.mem_node, isDist, Bool.true_and, decide_eq_true_eq]
      exact ⟨fun hreach => hreach.2.2, fun hdist => ⟨rfl, rfl, hdist⟩⟩
    · rw [if_neg hpos]
      cases hdist : isDist rmw bounds true with
      | false =>
        have hnone : ∀ x, i * 2 ^ (k + 1) ≤ x → x < i * 2 ^ (k + 1) + size → x ∉ dset :=
          fun x hlow hhigh => h.not_mem hdist hlow hhigh
        rw [isDist, Bool.true_and, decide_eq_false_iff_not, Nat.not_le] at hdist
        have hbelow : ∀ x, i * 2 ^ (k + 1) ≤ x → x < i * 2 ^ (k + 1) + size →
            Function.update dist (node k i) false x = decide (x ∈ dset) := by
          intro x hlow hhigh
          rw [decide_eq_false (hnone x hlow hhigh)]
          by_cases hx : x = node k i
          · rw [hx, Function.update_self]
          · rw [Function.update_of_ne hx, hfalse x hlow hhigh]
        refine ⟨[node k i], _, .out (Ne.symm hpos) hdist, ?_, fun e he => ?_, ?_, fun a ha => ?_,
          fun x hx => Function.update_of_ne (by omega) ..⟩
        · rcases Nat.eq_zero_or_pos k with rfl | hk
          · have := h.block.size_lt
            omega
          · exact hk
        · rw [List.mem_singleton.1 he]
          exact h.block.node_lt
        · exact ⟨fun hreach => (by cases hreach.1), fun hmem => absurd hmem (hnone pos hlow hhigh)⟩
        · have ha' : a ∈ ibstDirectPathLoop pos (fuel + 1) size (i * 2 ^ (k + 1)) := by
            rw [hpath, if_neg hpos]
            exact ha
          have := h.block.within
          exact hbelow a (le_of_mem_ibstDirectPathLoop ha') (ibstDirectPathLoop_lt (by omega) ha')
      | true =>
        have hself : node k i ∈ dset := h.mem_node.2 hdist
        have hbounds : rmw ≤ bounds.2.val - bounds.1.val := by
          rwa [isDist, Bool.true_and, decide_eq_true_eq] at hdist
        -- what the walk through a child finds, with the entry above it
        have through : ∀ {k' i' size' : ℕ} {bounds' : U64 × U64}, k' < k →
            Bounds ts rmw n dset k' i' size' bounds' true → i' * 2 ^ (k' + 1) ≤ pos →
            pos < i' * 2 ^ (k' + 1) + size' → i * 2 ^ (k + 1) ≤ i' * 2 ^ (k' + 1) →
            i' * 2 ^ (k' + 1) + size' ≤ i * 2 ^ (k + 1) + size →
            (node k i < i' * 2 ^ (k' + 1) ∨ i' * 2 ^ (k' + 1) + size' ≤ node k i) →
            ∃ stamps z, Approach ts n rmw pos bounds' (Function.update dist (node k i) true) (node k' i')
                stamps z ∧ stamps.length < k ∧ (∀ e ∈ stamps, e < n) ∧ (z.Reaches rmw pos ↔ pos ∈ dset) ∧
              (∀ a ∈ node k i :: ibstDirectPathLoop pos fuel size' (i' * 2 ^ (k' + 1)),
                z.ancestorDist a = decide (a ∈ dset)) ∧
              ∀ x, x < i * 2 ^ (k + 1) ∨ i * 2 ^ (k + 1) + size ≤ x → z.ancestorDist x = dist x := by
          intro k' i' size' bounds' hk hb hlow' hhigh' hstart hend hapart
          obtain ⟨stamps, z, hwalk, hlen, hlt, hreach, hdist', hout⟩ := @ih k' hk i' size' fuel bounds'
            (Function.update dist (node k i) true) hb (show k' < fuel by omega) hlow' hhigh'
            fun x hx hx' => by
              rw [Function.update_of_ne (by omega)]
              exact hfalse x (by omega) (by omega)
          refine ⟨stamps, z, hwalk, by omega, hlt, hreach, fun a ha => ?_, fun x hx => ?_⟩
          · rcases List.mem_cons.1 ha with rfl | ha
            · rw [hout _ hapart, Function.update_self, decide_eq_true hself]
            · exact hdist' a ha
          · rw [hout x (by omega), Function.update_of_ne (by omega)]
        rcases Nat.lt_or_gt_of_ne hpos with hlt | hgt
        · rw [if_pos hlt]
          obtain ⟨k', i', hk, hchild, hstart, hbelow⟩ := h.leftChild hn (by
            cases k with
            | zero =>
              rw [pow_zero] at hnode
              omega
            | succ k => simp [isLeaf_node])
          rw [hdist] at hbelow
          rw [← hstart] at hlow ⊢
          obtain ⟨stamps, z, hwalk, hlen, hall, hreach, hdist', hout⟩ := through hk hbelow hlow (by omega)
            (by omega) (by omega) (by omega)
          rw [← hchild] at hwalk
          refine ⟨node k i :: stamps, z, .left hlt hbounds hwalk, hlen, fun e he => ?_, hreach, hdist', ?_⟩
          · rcases List.mem_cons.1 he with rfl | he
            · exact h.block.node_lt
            · exact hall e he
          · rwa [← hstart] at hout
        · rw [if_neg (by omega)]
          obtain ⟨k', i', hk, hstart, hchild, hbelow⟩ := h.right hn (show 2 ^ k < size by omega)
          rw [hdist] at hbelow
          rw [← hstart]
          obtain ⟨stamps, z, hwalk, hlen, hall, hreach, hdist', hout⟩ := through hk hbelow (by omega)
            (by omega) (by omega) (by omega) (by omega)
          refine ⟨node k i :: stamps, z, .right hgt hbounds hchild hwalk, hlen, fun e he => ?_, hreach,
            hdist', hout⟩
          rcases List.mem_cons.1 he with rfl | he
          · exact h.block.node_lt
          · exact hall e he

end

section

variable {P : Primitives} {t : Tree} {label : Octets} {L : LabelLog} {rmw pos k : ℕ} {bounds : U64 × U64}
  {dist : ℕ → Bool} {curr : ℕ} {stamps : List ℕ} {z : ApproachEnd} {target : Option ℕ}
  {visits done : List Visit} {m : ℕ} {proof : CombinedTreeProof}

/-- **The server makes the walk.** -/
theorem Approach.visited (h : Approach L.timestamp L.size rmw pos bounds dist curr stamps z)
    (hs : t.ServesLog P L) (hrmw : t.config.reasonableMonitoringWindow = rmw)
    (hlt : ∀ e ∈ stamps, e < L.size) : ∀ {fuel : ℕ} {s : TraversalSession} {visits : List Visit},
    stamps.length < fuel → s.Gathered P label L target visits →
    ∃ s', t.contactAncestorsLoop L.size pos fuel ⟨s, bounds, true, dist, curr⟩ =
        .ok ⟨s', z.bounds, z.parentDist, z.ancestorDist, z.curr⟩ ∧
      s'.Gathered P label L target (visits ++ stamps.map .stamp) := by
  induction h with
  | here =>
    intro fuel s visits hfuel hg
    obtain ⟨fuel, rfl⟩ := Nat.exists_eq_succ_of_ne_zero (show fuel ≠ 0 by omega)
    refine ⟨s, ?_, by rwa [List.map_nil, List.append_nil]⟩
    rw [Tree.contactAncestorsLoop]
    dsimp only
    rw [if_pos rfl]
  | @out bounds dist curr hne hdist =>
    intro fuel s visits hfuel hg
    obtain ⟨fuel, rfl⟩ := Nat.exists_eq_succ_of_ne_zero (show fuel ≠ 0 by omega)
    have hcurr := hlt curr List.mem_cons_self
    obtain ⟨s', hvisit, hg', -, -⟩ := hg.visitTimestampOnly hs hcurr
    refine ⟨s', ?_, hg'⟩
    rw [Tree.contactAncestorsLoop]
    dsimp only
    rw [if_neg hne, hvisit, Result.ok_bind, hs.timestamp curr hcurr, Result.ok_bind, hrmw, Bool.true_and,
      decide_eq_false (show ¬rmw ≤ bounds.2.val - bounds.1.val by omega), if_pos rfl]
    rfl
  | @left bounds dist curr stamps z hlt' hdist rest ih =>
    intro fuel s visits hfuel hg
    rw [List.length_cons] at hfuel
    obtain ⟨fuel, rfl⟩ := Nat.exists_eq_succ_of_ne_zero (show fuel ≠ 0 by omega)
    have hcurr := hlt curr List.mem_cons_self
    obtain ⟨s₁, hvisit, hg₁, -, -⟩ := hg.visitTimestampOnly hs hcurr
    obtain ⟨s', hrun, hg'⟩ := ih (fun e he => hlt e (List.mem_cons_of_mem _ he))
      (show stamps.length < fuel by omega) hg₁
    refine ⟨s', ?_, by rwa [List.map_cons, List.append_cons]⟩
    rw [Tree.contactAncestorsLoop]
    dsimp only
    rw [if_neg (show ¬curr = pos by omega), hvisit, Result.ok_bind, hs.timestamp curr hcurr, Result.ok_bind,
      hrmw, Bool.true_and, decide_eq_true hdist, if_neg (by simp), if_pos hlt']
    exact hrun
  | @right bounds dist curr rc stamps z hlt' hdist hchild rest ih =>
    intro fuel s visits hfuel hg
    rw [List.length_cons] at hfuel
    obtain ⟨fuel, rfl⟩ := Nat.exists_eq_succ_of_ne_zero (show fuel ≠ 0 by omega)
    have hcurr := hlt curr List.mem_cons_self
    obtain ⟨s₁, hvisit, hg₁, -, -⟩ := hg.visitTimestampOnly hs hcurr
    obtain ⟨s', hrun, hg'⟩ := ih (fun e he => hlt e (List.mem_cons_of_mem _ he))
      (show stamps.length < fuel by omega) hg₁
    refine ⟨s', ?_, by rwa [List.map_cons, List.append_cons]⟩
    rw [Tree.contactAncestorsLoop]
    dsimp only
    rw [if_neg (show ¬curr = pos by omega), hvisit, Result.ok_bind, hs.timestamp curr hcurr, Result.ok_bind,
      hrmw, Bool.true_and, decide_eq_true hdist, if_neg (by simp), if_neg (by omega)]
    rw [hchild]
    exact hrun

/-- **The client makes the walk**, and reads the same timestamps. -/
theorem Approach.read (h : Approach L.timestamp L.size rmw pos bounds dist curr stamps z)
    (ht : Transcript P L visits m proof) : ∀ {fuel : ℕ} {reader : ProofReader} {done : List Visit},
    stamps.length < fuel → reader.At L proof (entriesOf done) k →
    entriesOf (done ++ stamps.map .stamp) <+: entriesOf visits →
    ∃ reader', KtClient.ancestorLoop L.size rmw pos fuel ⟨reader, bounds, true, dist, curr⟩ =
        .ok ⟨reader', z.bounds, z.parentDist, z.ancestorDist, z.curr⟩ ∧
      reader'.At L proof (entriesOf (done ++ stamps.map .stamp)) k := by
  induction h with
  | here =>
    intro fuel reader done hfuel hr hseen
    obtain ⟨fuel, rfl⟩ := Nat.exists_eq_succ_of_ne_zero (show fuel ≠ 0 by omega)
    refine ⟨reader, ?_, by rwa [List.map_nil, List.append_nil]⟩
    rw [KtClient.ancestorLoop]
    dsimp only
    rw [if_pos rfl]
  | @out bounds dist curr hne hdist =>
    intro fuel reader done hfuel hr hseen
    obtain ⟨fuel, rfl⟩ := Nat.exists_eq_succ_of_ne_zero (show fuel ≠ 0 by omega)
    rw [List.map_singleton, entriesOf_stamp] at hseen
    obtain ⟨reader', hts, hr'⟩ := hr.timestamp ht hseen
    refine ⟨reader', ?_, by rwa [List.map_singleton, entriesOf_stamp]⟩
    rw [KtClient.ancestorLoop]
    dsimp only
    rw [if_neg hne, hts, Result.ok_bind]
    dsimp only
    rw [Bool.true_and, decide_eq_false (show ¬rmw ≤ bounds.2.val - bounds.1.val by omega), if_pos rfl]
    rfl
  | @left bounds dist curr stamps z hlt' hdist rest ih =>
    intro fuel reader done hfuel hr hseen
    rw [List.length_cons] at hfuel
    obtain ⟨fuel, rfl⟩ := Nat.exists_eq_succ_of_ne_zero (show fuel ≠ 0 by omega)
    rw [List.map_cons, List.append_cons] at hseen
    have hfirst := (entriesOf_beginning (List.prefix_append _ _)).trans hseen
    rw [entriesOf_stamp] at hfirst
    obtain ⟨reader₁, hts, hr₁⟩ := hr.timestamp ht hfirst
    rw [← entriesOf_stamp] at hr₁
    obtain ⟨reader', hrun, hr'⟩ := ih (show stamps.length < fuel by omega) hr₁ hseen
    refine ⟨reader', ?_, by rwa [List.map_cons, List.append_cons]⟩
    rw [KtClient.ancestorLoop]
    dsimp only
    rw [if_neg (show ¬curr = pos by omega), hts, Result.ok_bind]
    dsimp only
    rw [Bool.true_and, decide_eq_true hdist, if_neg (by simp), if_pos hlt']
    exact hrun
  | @right bounds dist curr rc stamps z hlt' hdist hchild rest ih =>
    intro fuel reader done hfuel hr hseen
    rw [List.length_cons] at hfuel
    obtain ⟨fuel, rfl⟩ := Nat.exists_eq_succ_of_ne_zero (show fuel ≠ 0 by omega)
    rw [List.map_cons, List.append_cons] at hseen
    have hfirst := (entriesOf_beginning (List.prefix_append _ _)).trans hseen
    rw [entriesOf_stamp] at hfirst
    obtain ⟨reader₁, hts, hr₁⟩ := hr.timestamp ht hfirst
    rw [← entriesOf_stamp] at hr₁
    obtain ⟨reader', hrun, hr'⟩ := ih (show stamps.length < fuel by omega) hr₁ hseen
    refine ⟨reader', ?_, by rwa [List.map_cons, List.append_cons]⟩
    rw [KtClient.ancestorLoop]
    dsimp only
    rw [if_neg (show ¬curr = pos by omega), hts, Result.ok_bind]
    dsimp only
    rw [Bool.true_and, decide_eq_true hdist, if_neg (by simp), if_neg (by omega)]
    rw [hchild]
    exact hrun

end

end KeyTransparency
