/-
# Server and client agree on inclusion proofs

The elements the server sends for a set of visited leaves are the ones the
client's recursion asks for, in the order it asks for them, whatever the sizes,
the leaves and the peaks the client has kept (`inclusion_proof_agreement`).
-/

import KeyTransparency.Client.LogReconstruct
import KeyTransparency.Tree.LogProof

namespace KeyTransparency

open LogMath InOrder MerkleLog

/-- A client's retained values are the peaks of the log at size `m`. -/
def RetainsPeaks (P : Primitives) (retained : NodeMap) (leaves : List Octets) (m : ℕ) : Prop :=
  ∀ k i, retained (node k i) =
    if (k, i) ∈ peaks m then some (value (logPar P) (leafAt leaves) m k i) else none

/-- The peaks of a log with their values. -/
def peakValues (P : Primitives) (leaves : List Octets) (m : ℕ) : NodeMap := fun id =>
  ((peaks m).find? fun c => node c.1 c.2 == id).map fun c =>
    value (logPar P) (leafAt leaves) m c.1 c.2

theorem retainsPeaks_peakValues (P : Primitives) (leaves : List Octets) (m : ℕ) :
    RetainsPeaks P (peakValues P leaves m) leaves m := by
  intro k i
  rw [peakValues]
  split_ifs with h
  · cases hf : (peaks m).find? fun c => node c.1 c.2 == node k i with
    | none => simpa using List.find?_eq_none.1 hf _ h
    | some c =>
      have hc := List.find?_some hf
      obtain ⟨h₁, h₂⟩ := node_inj (beq_iff_eq.1 hc)
      rw [← h₁, ← h₂]
      rfl
  · rw [Option.map_eq_none_iff, List.find?_eq_none]
    rintro c hc e
    obtain ⟨rfl, rfl⟩ := node_inj (beq_iff_eq.1 e)
    exact h hc

/-- Nothing is retained of the empty log. -/
theorem retainsPeaks_zero (P : Primitives) (leaves : List Octets) :
    RetainsPeaks P (fun _ => none) leaves 0 := by
  intro k i
  rw [if_neg]
  simp [peaks, peaksFrom, height]

namespace LogVerifier

variable {P : Primitives} {leaves : List Octets} {retained : NodeMap} {m n : ℕ}

/-- The hashes of the leaves at some positions. -/
def leavesAt (leaves : List Octets) (indices : List ℕ) : List Octets := indices.map (leafAt leaves)

theorem givenAt_leavesAt {indices : List ℕ} {p : ℕ} {v : Octets}
    (h : givenAt (indices.zip (leavesAt leaves indices)) p = some v) : v = leafAt leaves p := by
  have hmem : (p, v) ∈ indices.zip (leavesAt leaves indices) := by
    obtain ⟨l₁, l₂, e, -⟩ := List.lookup_eq_some_iff.1 h
    rw [e]
    simp
  rw [leavesAt, ← List.map_prod_left_eq_zip] at hmem
  obtain ⟨q, -, e⟩ := List.mem_map.1 hmem
  rw [Prod.mk.injEq] at e
  rw [← e.1, e.2]

/-- What a client captures of the nodes it reached. -/
theorem capture_map {wanted : List ℕ} {f : ℕ × ℕ → Octets} {k i : ℕ} :
    ∀ {cs : List (ℕ × ℕ)} {captured : NodeMap},
      capture wanted (cs.map fun c => (c, f c)) captured (node k i) =
        if node k i ∈ wanted ∧ (k, i) ∈ cs then some (f (k, i)) else captured (node k i)
  | [], captured => by simp [capture]
  | c :: cs, captured => by
    rw [List.map_cons, capture, List.foldl_cons, ← capture, capture_map, record]
    by_cases hw : node k i ∈ wanted
    · by_cases hc : (k, i) ∈ cs
      · simp [hw, hc]
      · by_cases he : (k, i) = c
        · subst he
          simp [hw]
        · have hne : node k i ≠ node c.1 c.2 := fun h => by
            obtain ⟨h₁, h₂⟩ := node_inj h
            exact he (by rw [h₁, h₂])
          simp only [hw, hc, List.mem_cons, he, or_self, and_false, if_false]
          split_ifs
          · rw [Function.update_of_ne hne]
          · rfl
    · simp only [hw, false_and, if_false]
      split_ifs with h
      · rw [Function.update_of_ne]
        rintro e
        exact hw (e ▸ h)
      · rfl

theorem keptAt_isSome (hret : RetainsPeaks P retained leaves m) (k i : ℕ) :
    (keptAt retained k i).isSome = LogTree.keeps m k i := by
  rw [keptAt, hret, LogTree.keeps]
  split_ifs with h <;> simp [h]

/-- The values of the nodes a client needs, for the leaves it is given and the
peaks it has kept. -/
def neededValues (P : Primitives) (leaves : List Octets) (indices : List ℕ) (m : ℕ) :
    List Octets :=
  (needed leaves.length (above indices) (LogTree.keeps m) (height leaves.length) 0).map fun c =>
    value (logPar P) (leafAt leaves) leaves.length c.1 c.2

/-- What a client captures when it is given the right values. -/
def capturedValues (P : Primitives) (leaves : List Octets) (indices wanted : List ℕ) : NodeMap :=
  capture wanted ((walk leaves.length (above indices) (height leaves.length) 0).map fun c =>
    (c, value (logPar P) (leafAt leaves) leaves.length c.1 c.2)) fun _ => none

/-- **Completeness.**  The needed values make the client derive the root, with
none of them left over. -/
theorem calculateRootCapturing_neededValues (hn : leaves.length ≤ 2 ^ 62) (h₀ : leaves ≠ [])
    {indices : List ℕ} (hlt : ∀ p ∈ indices, p < leaves.length) (hm : m ≤ leaves.length)
    (hret : RetainsPeaks P retained leaves m) (wanted : List ℕ) :
    calculateRootCapturing P indices (leavesAt leaves indices) leaves.length
        (neededValues P leaves indices m) retained wanted =
      .ok (logRoot P leaves, capturedValues P leaves indices wanted) := by
  have hpos := List.length_pos_iff.2 h₀
  rw [calculateRootCapturing_eq_ok_iff hn hpos (by simp [leavesAt]) hlt]
  have hgiven : ∀ p, (givenAt (indices.zip (leavesAt leaves indices)) p).isSome = true ↔
      p ∈ indices := fun p => by
    rw [givenAt_isSome, List.map_fst_zip (by simp [leavesAt])]
  refine ⟨_, ?_, rfl⟩
  rw [logRoot_of_ne_nil h₀, neededValues, ← List.append_nil (List.map _ _)]
  have hkeep : LogTree.keeps m = fun k i => (keptAt retained k i).isSome := by
    funext k i
    exact (keptAt_isSome hret k i).symm
  rw [hkeep]
  refine reconstruct_needed (fun i => ?_) (fun i v h => givenAt_leavesAt h)
    (fun k i v _ _ h => ?_) [] _ _
  · rw [Bool.eq_iff_iff, above_zero, hgiven]
  · rw [keptAt, hret] at h
    split_ifs at h with hc
    · obtain ⟨h₁, -, -⟩ := mem_peaksFrom hc
      rw [← Option.some.inj h]
      exact value_of_complete h₁ (h₁.trans hm)

/-- The verifier opens the nodes above the leaves it is given. -/
theorem opens_above {indices : List ℕ} {hashes : List Octets} (hlen : indices.length = hashes.length)
    (hlt : ∀ p ∈ indices, p < n) :
    Opens n (givenAt (indices.zip hashes)) (above indices) :=
  .of_above (fun p => by rw [givenAt_isSome, List.map_fst_zip hlen.le]) hlt

theorem givenAt_mem {indices : List ℕ} {hashes : List Octets} {p : ℕ} {v : Octets}
    (h : givenAt (indices.zip hashes) p = some v) : v ∈ hashes := by
  obtain ⟨l₁, l₂, e, -⟩ := List.lookup_eq_some_iff.1 h
  exact (List.of_mem_zip (show (p, v) ∈ indices.zip hashes by rw [e]; simp)).2

/-- **Soundness.**  A verifier that derives the root of a log was given the needed
values, and every node it reached has the value it has in that log. -/
theorem calculateRootCapturing_binding (hP : Function.Injective P.sha256)
    (hn : leaves.length ≤ 2 ^ 62) (h₀ : leaves ≠ []) (hleaf : ∀ l ∈ leaves, l.length = 32)
    {indices : List ℕ} {hashes : List Octets} (hlen : indices.length = hashes.length)
    (hlt : ∀ p ∈ indices, p < leaves.length) (hhash : ∀ h ∈ hashes, h.length = 32)
    {elements : List Octets} {wanted : List ℕ} {captured : NodeMap}
    (h : calculateRootCapturing P indices hashes leaves.length elements retained wanted =
      .ok (logRoot P leaves, captured)) :
    elements = (needed leaves.length (above indices) (fun k i => (keptAt retained k i).isSome)
        (height leaves.length) 0).map
          (fun c => value (logPar P) (leafAt leaves) leaves.length c.1 c.2) ∧
      reconstruct (logPar P) leaves.length (givenAt (indices.zip hashes)) (above indices)
          (keptAt retained) (height leaves.length) 0 elements =
        some (logRoot P leaves, [], (walk leaves.length (above indices) (height leaves.length) 0).map
          fun c => (c, value (logPar P) (leafAt leaves) leaves.length c.1 c.2)) := by
  have hpos := List.length_pos_iff.2 h₀
  obtain ⟨visits, hrec, -⟩ := (calculateRootCapturing_eq_ok_iff hn hpos hlen hlt).1 h
  have hbind := reconstruct_binding (S := logScheme P hP) (opens_above hlen hlt)
    (fun p v hv => hhash v (givenAt_mem hv)) (fun p hp => hleaf _ (leafAt_mem hp)) (by omega)
    (hrec.trans (by rw [logRoot_of_ne_nil h₀]; rfl))
  refine ⟨hbind.1.trans (List.append_nil _), ?_⟩
  rw [hrec, hbind.2]
  rfl

/-- **What was captured has its value in the log.** -/
theorem calculateRootCapturing_captured (hP : Function.Injective P.sha256)
    (hn : leaves.length ≤ 2 ^ 62) (h₀ : leaves ≠ []) (hleaf : ∀ l ∈ leaves, l.length = 32)
    {indices : List ℕ} {hashes : List Octets} (hlen : indices.length = hashes.length)
    (hlt : ∀ p ∈ indices, p < leaves.length) (hhash : ∀ h ∈ hashes, h.length = 32)
    {elements : List Octets} {wanted : List ℕ} {captured : NodeMap}
    (h : calculateRootCapturing P indices hashes leaves.length elements retained wanted =
      .ok (logRoot P leaves, captured)) : captured = capturedValues P leaves indices wanted := by
  have hbind := (calculateRootCapturing_binding hP hn h₀ hleaf hlen hlt hhash h).2
  obtain ⟨visits, hrec, rfl⟩ :=
    (calculateRootCapturing_eq_ok_iff hn (List.length_pos_iff.2 h₀) hlen hlt).1 h
  rw [hbind] at hrec
  obtain rfl := (Prod.mk.inj (Prod.mk.inj (Option.some.inj hrec)).2).2
  rfl

/-- **What was given is what the log has.** -/
theorem calculateRootCapturing_given (hP : Function.Injective P.sha256)
    (hn : leaves.length ≤ 2 ^ 62) (h₀ : leaves ≠ []) (hleaf : ∀ l ∈ leaves, l.length = 32)
    {indices : List ℕ} {hashes : List Octets} (hlen : indices.length = hashes.length)
    (hlt : ∀ p ∈ indices, p < leaves.length) (hhash : ∀ h ∈ hashes, h.length = 32)
    {elements : List Octets} {wanted : List ℕ} {captured : NodeMap}
    (h : calculateRootCapturing P indices hashes leaves.length elements retained wanted =
      .ok (logRoot P leaves, captured)) {p : ℕ} {v : Octets}
    (hv : givenAt (indices.zip hashes) p = some v) : leafAt leaves p = v := by
  have hpos := List.length_pos_iff.2 h₀
  obtain ⟨visits, hrec, -⟩ := (calculateRootCapturing_eq_ok_iff hn hpos hlen hlt).1 h
  -- the log's own reconstruction from the leaves at the same positions
  have hlen' : indices.length = (leavesAt leaves indices).length := by simp [leavesAt]
  obtain ⟨visits', hrec', -⟩ := (calculateRootCapturing_eq_ok_iff hn hpos hlen' hlt).1
    (calculateRootCapturing_neededValues hn h₀ hlt (Nat.zero_le _) (retainsPeaks_zero P leaves) [])
  have hmem : p ∈ indices := by
    have hp := givenAt_isSome.1 (Option.isSome_of_eq_some hv)
    rwa [List.map_fst_zip hlen.le] at hp
  have hroot : p / 2 ^ height leaves.length = 0 :=
    Nat.div_eq_of_lt ((hlt _ hmem).trans_le (le_two_pow_height _))
  rw [← hroot] at hrec hrec'
  have hagree := reconstruct_agree (S := logScheme P hP) (opens_above hlen hlt)
    (opens_above hlen' hlt) (fun p v hv => hhash v (givenAt_mem hv)) (fun p v hv => ?_)
    (above_self hmem) (above_self hmem) (hlt _ hmem) hrec hrec'
  · rw [hv] at hagree
    exact (givenAt_leavesAt hagree.symm).symm
  · have hp := givenAt_isSome.1 (Option.isSome_of_eq_some hv)
    rw [List.map_fst_zip hlen'.le] at hp
    rw [givenAt_leavesAt hv]
    exact hleaf _ (leafAt_mem (hlt p hp))

end LogVerifier

/-- A server without auditors descends where the client does. -/
theorem LogTree.descends_nil (indices : List ℕ) (n k i : ℕ) :
    LogTree.descends indices [] n k i = above indices k i := by
  simp [LogTree.descends]

/-- **Server and client agree on inclusion proofs.**  For a log filled in any
batches, any visited leaves and any retained size, the elements the server
produces make the client derive the server's root, consuming every one of them. -/
theorem inclusion_proof_agreement {P : Primitives} {s : Store} {leaves : List Octets}
    (hs : LogTree.Filled P s leaves) (h₀ : 1 ≤ leaves.length) (hn : leaves.length < 2 ^ 61)
    {indices : List ℕ} (hlt : ∀ p ∈ indices, p < leaves.length) {m : ℕ} (hm : m ≤ leaves.length)
    {retained : NodeMap} (hret : RetainsPeaks P retained leaves m) (wanted : List ℕ) :
    ∃ elements root captured,
      LogTree.getBatchProofForNodes P s indices leaves.length m [] = .ok elements ∧
      LogTree.getRoot P s leaves.length = .ok root ∧ root = logRoot P leaves ∧
      LogVerifier.calculateRootCapturing P indices (LogVerifier.leavesAt leaves indices)
        leaves.length elements retained wanted = .ok (root, captured) := by
  have hne : leaves ≠ [] := List.length_pos_iff.1 h₀
  have hn' : leaves.length ≤ 2 ^ 62 := by omega
  have hholds := hs.holds hn'
  refine ⟨LogVerifier.neededValues P leaves indices m, logRoot P leaves, _, ?_,
    LogTree.getRoot_current hholds hn', rfl,
    LogVerifier.calculateRootCapturing_neededValues hn' hne hlt hm hret wanted⟩
  rw [LogTree.getBatchProofForNodes_eq hholds hn' hne hlt hm]
  have : LogTree.descends indices [] leaves.length = above indices := by
    funext k i
    exact LogTree.descends_nil indices _ k i
  rw [this, LogVerifier.neededValues]

/-- A log of four leaves, of which the third is visited by a client that has seen
the first two. -/
theorem inclusion_proof_agreement_four : ∃ s elements root captured,
    LogTree.getBatchProofForNodes Primitives.ideal s [2] 4 2 [] = .ok elements ∧
      LogTree.getRoot Primitives.ideal s 4 = .ok root ∧
      LogVerifier.calculateRootCapturing Primitives.ideal [2]
        (LogVerifier.leavesAt (fourEntries.map (LogTree.entryLeaf Primitives.ideal)) [2]) 4 elements
        (peakValues Primitives.ideal (fourEntries.map (LogTree.entryLeaf Primitives.ideal)) 2) [] =
          .ok (root, captured) := by
  obtain ⟨r, s, -, hs⟩ := exists_fourEntries_store
  obtain ⟨elements, root, captured, h₁, h₂, -, h₃⟩ := inclusion_proof_agreement hs (by decide)
    (by simp [fourEntries]) (show ∀ p ∈ [2], p < _ by decide) (m := 2) (by decide)
    (retainsPeaks_peakValues _ _ _) []
  exact ⟨s, elements, root, captured, h₁, h₂, h₃⟩

end KeyTransparency
