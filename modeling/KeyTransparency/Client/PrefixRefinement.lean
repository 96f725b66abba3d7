/-
# The prefix tree is a versioned map

Over any run (`PrefixRun`), the root returned at a pointer is the root of the map that
holds the insertions up to it, and a search from that pointer proves to the client
what the map says of a key, whatever the caches hold (`prefix_refinement`).
-/

import KeyTransparency.Client.PrefixVerifier
import KeyTransparency.Tree.PrefixRun

namespace KeyTransparency

open SparseMerkle

/-- The insertions up to a pointer. -/
def upTo (history : List Insertion) (ptr : ℕ) : List Insertion :=
  history.filter fun x => x.position ≤ ptr

/-- What a result says of a key: its commitment, or that it has none. -/
def ProofResult.Says (commitments : Octets → Option Octets) (key : Octets) (r : ProofResult) : Prop :=
  match commitments key with
  | some c => r.resultType = 1 ∧ r.commitment = some c
  | none => (r.resultType = 2 ∨ r.resultType = 3) ∧ r.commitment = none

/-- A prefix proof has a result and its elements at some place. -/
structure PrefixProof.Shows (proof : PrefixProof) (idx offset : ℕ) (r : ProofResult) : Prop where
  result : proof.results[idx]? = some r.searchResult
  elements : (proof.elements.drop offset).take r.depth = r.inclusionProof
  length : offset + r.depth ≤ proof.elements.length

section

variable {P : Primitives} {h : List Insertion} {t : Octets} {found : PrefixTree.SearchEnd}

theorem key_of_latestBelow {y : Insertion} (hk : KeysValid h) (ht : IsKey t)
    (hy : latestBelow h (keyBits t) = some y) : y.key = t :=
  key_eq_of_keyBits (hk y (mem_of_latestBelow hy)) ht (prefix_of_latestBelow hy)

theorem commitmentsOf_of_none {level : ℕ} (hk : KeysValid h) (ht : IsKey t)
    (hn : latestBelow h ((keyBits t).take level) = none) : commitmentsOf h t = none := by
  rw [commitmentsOf_eq hk ht, latestBelow_longer (List.take_prefix _ _) hn, Option.map_none]

/-- **The search's proof**: it says what the map does, and the client folds it to the
map's root. -/
theorem EndsAs.proof_eq (hk : KeysValid h) (ht : IsKey t) (hf : EndsAs P h t found) :
    ∃ r, found.proof = .ok r ∧ r.Says (commitmentsOf h) t ∧
      ∀ {proof idx offset}, PrefixProof.Shows proof idx offset r →
        PrefixVerifier.computeRootFromResult P proof idx t r.commitment offset =
          .ok (prefixRoot P (commitmentsOf h), r.depth) := by
  cases found with
  | found entry =>
    obtain ⟨y, ctr, hleaf, hc, hy⟩ := hf
    refine ⟨⟨entry.copath.map ParentNode.hash, some y.commitment, 1, none, none,
      entry.copath.length⟩, ?_, ?_, fun {proof idx offset} hs => ?_⟩
    · rw [PrefixTree.SearchEnd.proof, hleaf]
    · rw [ProofResult.Says, commitmentsOf_eq hk ht, hy]
      exact ⟨rfl, rfl⟩
    · have hfold := hc.fold_eq hk hy (Nat.zero_le _)
      rw [key_of_latestBelow hk ht hy] at hfold
      rw [List.drop_zero, List.drop_zero] at hfold
      refine PrefixVerifier.computeRootFromResult_eq_ok.2 ⟨_, leafHash P t y.commitment, 256, hs.result,
        hc.length_le, rfl, hs.length, by rw [ht.length]; decide, ?_, rfl⟩
      have hel := hs.elements
      dsimp only at hel
      dsimp only [ProofResult.searchResult]
      rw [hel, List.take_of_length_le (by simp)]
      exact hfold.symm
  | failed copath entry =>
    obtain ⟨hc, hpos, hlast, hnone, y, ctr, hmem, hindex, hleaf⟩ := hf
    refine ⟨⟨copath.map ParentNode.hash, none, 2, some entry.index, some y.commitment, copath.length⟩,
      ?_, ?_, fun {proof idx offset} hs => ?_⟩
    · rw [PrefixTree.SearchEnd.proof, hleaf]
    · rw [ProofResult.Says, commitmentsOf_of_none hk ht hnone]
      exact ⟨.inl rfl, rfl⟩
    · have hforeign : entry.index ≠ t := by
        rw [hindex]
        rintro rfl
        exact latestBelow_eq_none.1 hnone y (mem_of_latestBelow hmem) (List.take_prefix _ _)
      have hzero := subtreeHash_of_none (P := P) hk (by rw [List.length_take]; simp) hnone
      have hfold := fold_beside (P := P) hk (Nat.zero_le copath.length) hc.length_le
        (fun l _ hl => hc.getD_hash hl) fun l _ hl hn => hlast <| latestBelow_longer
          ((keyBits t).take_prefix_take_left (show l ≤ copath.length - 1 by omega)) hn
      rw [List.drop_zero, List.drop_zero, hzero] at hfold
      refine PrefixVerifier.computeRootFromResult_eq_ok.2 ⟨_, zeroValue, copath.length, hs.result,
        hc.length_le, ?_, hs.length, by rw [ht.length]; exact hc.length_le, ?_, rfl⟩
      · rw [PrefixVerifier.startOf]
        change (ensure (entry.index ≠ t) _ >>= _) = _
        rw [ensure_of hforeign, Result.ok_bind]
        rfl
      · have hel := hs.elements
        dsimp only at hel
        dsimp only [ProofResult.searchResult]
        rw [hel]
        exact hfold.symm

theorem SearchEnd.proof_depth {r : ProofResult} (h : found.proof = .ok r) :
    r.depth = r.inclusionProof.length := by
  unfold PrefixTree.SearchEnd.proof at h
  split at h
  · split at h
    · obtain rfl := Except.ok.inj h
      simp
    · simp at h
  · dsimp only at h
    split at h <;> obtain rfl := Except.ok.inj h <;> simp

theorem coldProof_depth {entries : ℕ → Option LogEntry} {ptr : ℕ} {r : ProofResult}
    (h : coldProof P entries ptr t = .ok r) : r.depth = r.inclusionProof.length := by
  obtain ⟨found, -, hr⟩ := Result.bind_eq_ok.1 h
  exact SearchEnd.proof_depth hr

end

/-! ### The history up to a pointer -/

section

variable {P : Primitives} {st : PrefixState} {x : Insertion}

theorem upTo_append {newer before : List Insertion}
    (hsorted : (newer ++ x :: before).Pairwise fun a b => b.position < a.position) :
    upTo (newer ++ x :: before) x.position = x :: before := by
  obtain ⟨-, hbefore, hnewer⟩ := List.pairwise_append.1 hsorted
  have h₁ : newer.filter (fun y => y.position ≤ x.position) = [] :=
    List.filter_eq_nil_iff.2 fun y hy => by
      have := hnewer y hy x List.mem_cons_self
      simpa using this
  have h₂ : (x :: before).filter (fun y => y.position ≤ x.position) = x :: before :=
    List.filter_eq_self.2 fun y hy => by
      rcases List.mem_cons.1 hy with rfl | hy
      · simp
      · simpa using (List.rel_of_pairwise_cons hbefore hy).le
  rw [upTo, List.filter_append, h₁, h₂, List.nil_append]

/-- The history splits at each of its pointers. -/
theorem PrefixState.Sound.split (hs : st.Sound P) (hx : x ∈ st.history) :
    ∃ before, x :: before <:+ st.history ∧ upTo st.history x.position = x :: before := by
  obtain ⟨newer, before, heq⟩ := List.append_of_mem hx
  refine ⟨before, heq ▸ List.suffix_append _ _, ?_⟩
  rw [heq]
  exact upTo_append (heq ▸ hs.sorted)

theorem rootsOf_getElem {history : List Insertion} {i : ℕ} (hi : i < history.length) :
    (rootsOf P history)[i]? = some (prefixRoot P (commitmentsOf (history.drop i))) := by
  induction history generalizing i with
  | nil => simp at hi
  | cons x history ih =>
    cases i with
    | zero => rfl
    | succ i => exact ih (by simpa using hi)

/-- **A search from a pointer**, whatever the caches hold. -/
theorem PrefixState.Sound.search (hs : st.Sound P) (hx : x ∈ st.history) {key : Octets}
    (hkey : IsKey key) :
    ∃ r, coldProof P st.store.prefixes x.position key = .ok r ∧
      r.Says (commitmentsOf (upTo st.history x.position)) key ∧
      ∀ {proof idx offset}, PrefixProof.Shows proof idx offset r →
        PrefixVerifier.computeRootFromResult P proof idx key r.commitment offset =
          .ok (prefixRoot P (commitmentsOf (upTo st.history x.position)), r.depth) := by
  obtain ⟨before, hsuf, hup⟩ := hs.split hx
  have hk := hs.keys.of_suffix hsuf
  obtain ⟨found, hfound, hends⟩ := coldSearch_ends (P := P) hk hkey
    fun y b hy => hs.recorded y b (hy.trans hsuf)
  obtain ⟨r, hr, hsays, hroot⟩ := hends.proof_eq hk hkey
  rw [hup]
  refine ⟨r, ?_, hsays, hroot⟩
  rw [coldProof, hfound, Result.ok_bind, hr]

/-- **The prefix tree refines a versioned map.**  In every state of a run, the root
returned at each pointer is the root of the map of the insertions up to it; a search
from the pointer, with any cache or none, finds what that map holds of the key, and the
client folds its proof to the root; and the next batch succeeds. -/
theorem prefix_refinement (P : Primitives) (st : PrefixState) (run : PrefixRun P st) :
    (∀ (i : ℕ) (x : Insertion), st.history[i]? = some x →
      st.roots[i]? = some (prefixRoot P (commitmentsOf (upTo st.history x.position)))) ∧
    (∀ x ∈ st.history, ∀ (key : Octets) (evict : Eviction), IsKey key → ∃ r warm cold,
      PrefixTree.searchForProof P evict st.store x.position key st.nodes = .ok (r, warm) ∧
      PrefixTree.searchForProof P evict st.store x.position key Nodes.cold = .ok (r, cold) ∧
      r.Says (commitmentsOf (upTo st.history x.position)) key ∧
      PrefixVerifier.computeRootFromResult P ⟨[r.searchResult], r.inclusionProof⟩ 0 key r.commitment 0 =
        .ok (prefixRoot P (commitmentsOf (upTo st.history x.position)), r.depth)) ∧
    ∀ (evict : Eviction) (startVersion : ℕ) (entries : List (Octets × Octets)),
      (st.ptr = none ∨ st.history ≠ []) → (∀ e ∈ entries, IsKey e.1) →
      (∀ x ∈ st.history, x.position < startVersion) → ∃ r store,
        (PrefixTree.batchInsert P evict startVersion st.ptr entries st.cache).Runs st.store r store := by
  have hs := run.sound
  refine ⟨fun i x hx => ?_, fun x hx key evict hkey => ?_, fun evict v entries hptr hkeys hfresh => ?_⟩
  · obtain ⟨hi, rfl⟩ := List.getElem?_eq_some_iff.1 hx
    have hsplit := List.take_append_drop i st.history
    rw [List.drop_eq_getElem_cons hi] at hsplit
    have hup := upTo_append (hsplit.symm ▸ hs.sorted)
    rw [hsplit] at hup
    rw [hs.roots, rootsOf_getElem hi, hup, List.drop_eq_getElem_cons hi]
  · obtain ⟨r, hr, hsays, hroot⟩ := hs.search hx hkey
    have hcold : Nodes.cold.Hold P st.store st.store.prefixes :=
      NodeCache.Of.hold (fun _ _ h => by cases h) hs.hold.leaf
    have hans₁ := searchForProof_answers evict hs.hold x.position key
    have hans₂ := searchForProof_answers evict hcold x.position key
    rw [hr] at hans₁ hans₂
    obtain ⟨warm, hwarm, -⟩ := hans₁
    obtain ⟨cold, hcold, -⟩ := hans₂
    refine ⟨r, warm, cold, hwarm, hcold, hsays, hroot ⟨rfl, ?_, ?_⟩⟩
    · rw [List.drop_zero, List.take_of_length_le (coldProof_depth hr).ge]
    · rw [Nat.zero_add, coldProof_depth hr]
  · have hroot : st.ptr = rootPtr st.history := by
      rcases hs.ptr with h | ⟨hempty, hzero⟩
      · exact h
      · rcases hptr with h | h
        · cases h.symm.trans hzero
        · exact absurd hempty h
    obtain ⟨results, ptr, cache, store, hruns, -⟩ := batchInsert_runs evict v hs hroot hkeys hfresh
    exact ⟨_, store, hruns⟩

/-- Two keys inserted in one batch. -/
def twoInsertions : List Insertion :=
  [⟨1, List.replicate 32 255, [1]⟩, ⟨0, Octets.zeros 32, [0]⟩]

theorem exists_run_two : ∃ st, PrefixRun Primitives.ideal st ∧ st.history = twoInsertions := by
  have run := PrefixRun.start (P := Primitives.ideal) Store.empty fun _ => rfl
  have hkeys : ∀ e ∈ [(Octets.zeros 32, [0]), (List.replicate 32 255, [1])], IsKey e.1 := by
    intro e he
    have hcases : e.1 = Octets.zeros 32 ∨ e.1 = List.replicate 32 255 := by
      rcases List.mem_cons.1 he with rfl | he
      · exact .inl rfl
      · rw [List.mem_singleton.1 he]
        exact .inr rfl
    rcases hcases with h | h <;> rw [h] <;> exact ⟨by decide, by decide⟩
  obtain ⟨results, ptr, cache, store, hruns, -⟩ :=
    batchInsert_runs (fun _ _ => false) 0 run.sound rfl hkeys (by simp)
  exact ⟨_, run.batch (fun _ _ => false) 0 _ hkeys (by simp) hruns, rfl⟩

theorem prefix_refinement_two : ∃ st, PrefixRun Primitives.ideal st ∧ st.history = twoInsertions ∧
    st.roots[0]? = some (prefixRoot Primitives.ideal (commitmentsOf twoInsertions)) ∧
    ∃ r warm, PrefixTree.searchForProof Primitives.ideal (fun _ _ => true) st.store 0
      (List.replicate 32 255) st.nodes = .ok (r, warm) ∧ r.commitment = none := by
  obtain ⟨st, run, hst⟩ := exists_run_two
  obtain ⟨hroots, hsearch, -⟩ := prefix_refinement Primitives.ideal st run
  have hroot := hroots 0 ⟨1, List.replicate 32 255, [1]⟩ (by rw [hst]; rfl)
  obtain ⟨r, warm, -, hr, -, hsays, -⟩ := hsearch ⟨0, Octets.zeros 32, [0]⟩ (by rw [hst]; decide)
    (List.replicate 32 255) (fun _ _ => true) ⟨by decide, by decide⟩
  rw [hst] at hroot hsays
  exact ⟨st, run, hst, hroot, r, warm, hr, hsays.2⟩

end

end KeyTransparency
