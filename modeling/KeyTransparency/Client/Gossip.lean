/-
# Gossip about distinguished heads

`compare_roots` of `src/client/verifier.rs` and `check_gossiped_roots` of
`src/client/core.rs`, with the lists of roots that peers exchange.  The lists are cut to
their common length at the recent end before they are compared, so that two views of one
log pass when the positions of their distinguished entries overlap after the cut, and
only then; and what passes for two logs makes them agree up to an entry that both views
have (`gossip_agreement`).

A root stands for its hexadecimal string, or for the error that decoding a string gives.
-/

import KeyTransparency.Client.DistinguishedAgreement
import KeyTransparency.Library.Overlap

namespace KeyTransparency

open BinaryLadder InOrder LogMath MerkleLog

/-- `compare_roots`. -/
def compareRoots (rootsA rootsB : List Octets) : Result Unit :=
  if rootsA.length ≠ rootsB.length then fail "Root lists must be the same size"
  else if ∃ x < rootsA.length, rootsA.take (rootsA.length - x) = rootsB.drop x ∨
      rootsB.take (rootsA.length - x) = rootsA.drop x then .ok ()
  else fail "No valid overlap between root lists: possible fork"

structure GossipRoots where
  roots : List (ℕ × Result Octets)

namespace KtClient

variable (P : Primitives)

def exportDistinguishedRoots (c : KtClient) : Result GossipRoots := do
  let roots ← c.distinguishedRoots P
  return ⟨roots.map fun e => (e.1, .ok e.2)⟩

def checkGossipedRoots (c : KtClient) (theirs : GossipRoots) : Result Unit := do
  let mine ← c.distinguishedRoots P
  let n := min mine.length theirs.roots.length
  if n = 0 then fail "No overlapping distinguished heads to compare"
  else do
    let a := (mine.drop (mine.length - n)).map Prod.snd
    let b ← (theirs.roots.drop (theirs.roots.length - n)).mapM Prod.snd
    compareRoots a b

/-- The positions of the retained distinguished heads, oldest first. -/
def distinguishedPositions (c : KtClient) : List ℕ := c.distinguishedEntries.entries.map Prod.fst

/-- **The distinguished entries come from a walk over a log**: from a response about it
that the client has accepted, at any size and for any stop. -/
def WalkedOver (c : KtClient) (leaves : List Octets) : Prop :=
  ∃ env stop resp c₀ data c₁ head, verifyDistinguished P c₀ env stop resp = .ok (data, c₁) ∧
    c₁.state = some head ∧ LogOf P head.treeSize head.rootHash leaves ∧
    c.distinguishedEntries = c₁.distinguishedEntries

end KtClient

section

variable {P : Primitives} {c c' : KtClient} {leaves leaves' : List Octets}

/-! ### Comparing -/

/-- **Lists that are compared** overlap. -/
theorem KtClient.checkGossipedRoots_eq_ok {mine theirs : List (ℕ × Octets)}
    (hmine : c.distinguishedRoots P = .ok mine) :
    c.checkGossipedRoots P ⟨theirs.map fun e => (e.1, .ok e.2)⟩ = .ok () ↔
      (mine.map Prod.snd).Overlaps (theirs.map Prod.snd) := by
  have hdecode : ∀ l : List (ℕ × Octets), (l.map fun e => (e.1, (.ok e.2 : Result Octets))).mapM Prod.snd =
      .ok (l.map Prod.snd) := fun l => by
    rw [List.mapM_map]
    exact Result.mapM_eq_ok fun e _ => rfl
  rw [checkGossipedRoots, hmine, Result.ok_bind, List.Overlaps]
  simp only [List.length_map]
  split_ifs with hn
  · simp [hn, fail]
  · rw [← List.map_drop, hdecode, Result.ok_bind, compareRoots]
    have hlen : ((mine.drop (mine.length - min mine.length theirs.length)).map Prod.snd).length =
        min mine.length theirs.length := by
      rw [List.length_map, List.length_drop]
      omega
    have hlen' : ((theirs.drop (theirs.length - min mine.length theirs.length)).map Prod.snd).length =
        min mine.length theirs.length := by
      rw [List.length_map, List.length_drop]
      omega
    rw [hlen, hlen', if_neg (not_not.2 rfl), List.map_drop, List.map_drop, List.rtake, List.rtake,
      List.length_map, List.length_map]
    split_ifs with h
    · exact ⟨fun _ => h, fun _ => rfl⟩
    · exact ⟨fun heq => (by cases heq), fun h' => absurd h' h⟩

/-! ### Roots -/

/-- **The root of a log determines it.** -/
theorem logRoot_inj (hP : Function.Injective P.sha256) (hleaf : ∀ l ∈ leaves, IsLogLeaf P l)
    (hleaf' : ∀ l ∈ leaves', IsLogLeaf P l) (hne : leaves ≠ []) (hne' : leaves' ≠ [])
    (h : logRoot P leaves = logRoot P leaves') : leaves = leaves' := by
  rw [logRoot_of_ne_nil hne, logRoot_of_ne_nil hne', MerkleLog.root, MerkleLog.root] at h
  have hpos := List.length_pos_iff.2 hne
  have hpos' := List.length_pos_iff.2 hne'
  have hat : ∀ p < leaves.length, (logSeparated P hP).Leaf (leafAt leaves p) := fun p hp =>
    hleaf _ (leafAt_mem hp)
  have hat' : ∀ p < leaves'.length, (logSeparated P hP).Leaf (leafAt leaves' p) := fun p hp =>
    hleaf' _ (leafAt_mem hp)
  have hsize := (logSeparated P hP).value_size_inj hat hat' (by omega) (by omega) h
  have hle := le_two_pow_height leaves.length
  have hle' := le_two_pow_height leaves'.length
  have hlen : leaves.length = leaves'.length := by omega
  refine List.ext_getElem hlen fun p hp hp' => ?_
  rw [← hlen] at h
  have hvalue : leafAt leaves p = leafAt leaves' p := HashScheme.value_inj (S := logScheme P hP)
    (fun q hq => (logSeparated P hP).leaf_digest (hat q hq))
    (fun q hq => (logSeparated P hP).leaf_digest (hat' q (hlen ▸ hq))) (by omega) h p (by omega)
    (by omega) hp
  rwa [leafAt, leafAt, List.getD_eq_getElem _ _ hp, List.getD_eq_getElem _ _ hp'] at hvalue

/-- **What a walk leaves** of an entry is that of the log. -/
theorem KtClient.WalkedOver.anchors (hP : Function.Injective P.sha256) (h : c.WalkedOver P leaves)
    {p : ℕ} {d : DistinguishedEntry} (hd : c.distinguishedEntries.get p = some d) :
    d.Anchors P leaves p := by
  obtain ⟨env, stop, resp, c₀, data, c₁, head, haccepted, hstate, hlog, hentries⟩ := h
  obtain ⟨walked, -, -, hanchors⟩ := verifyDistinguished_entries hP haccepted hstate hlog
  exact hanchors p d (hentries ▸ hd)

/-- The roots that a walk leaves. -/
theorem KtClient.WalkedOver.roots (hP : Function.Injective P.sha256) (h : c.WalkedOver P leaves) :
    c.distinguishedRoots P =
        .ok (c.distinguishedPositions.map fun p => (p, logRoot P (leaves.take (p + 1)))) ∧
      ∀ p ∈ c.distinguishedPositions, p < leaves.length := by
  have hanchors : ∀ p d, c.distinguishedEntries.get p = some d → d.Anchors P leaves p :=
    fun p d hd => h.anchors hP hd
  obtain ⟨env, stop, resp, c₀, data, c₁, head, haccepted, hstate, hlog, hentries⟩ := h
  obtain ⟨walked, -, hexact⟩ := verifyDistinguished_exact hP haccepted hstate hlog
  rw [distinguishedRoots, distinguishedPositions, hentries]
  refine ⟨?_, fun p hp => ?_⟩
  · rw [List.map_map]
    exact hexact.roots
  · obtain ⟨⟨p, d⟩, hd, rfl⟩ := List.mem_map.1 hp
    exact (hanchors p d (hentries ▸ OrderedMap.get_eq_some.2 hd)).lt

/-- The roots that a client compares. -/
theorem KtClient.WalkedOver.check_iff (hP : Function.Injective P.sha256) (h : c.WalkedOver P leaves)
    (h' : c'.WalkedOver P leaves') : ∃ theirs, c'.exportDistinguishedRoots P = .ok theirs ∧
      (c.checkGossipedRoots P theirs = .ok () ↔
        (c.distinguishedPositions.map fun p => logRoot P (leaves.take (p + 1))).Overlaps
          (c'.distinguishedPositions.map fun p => logRoot P (leaves'.take (p + 1)))) := by
  obtain ⟨hmine, -⟩ := h.roots hP
  obtain ⟨htheirs, -⟩ := h'.roots hP
  refine ⟨⟨_⟩, by rw [exportDistinguishedRoots, htheirs]; rfl, ?_⟩
  rw [checkGossipedRoots_eq_ok hmine, List.map_map, List.map_map]
  rfl

/-! ### Agreement -/

/-- A beginning of a log, as a later view has it. -/
theorem take_of_beginning {p : ℕ} {all : List Octets} (h : leaves <+: all) (hp : p < leaves.length) :
    leaves.take (p + 1) = all.take (p + 1) := by
  obtain ⟨rest, rfl⟩ := h
  rw [List.take_append_of_le_length hp]

/-- Of two logs, equal roots at distinguished entries are those of equal beginnings. -/
theorem KtClient.WalkedOver.root_inj (hP : Function.Injective P.sha256) (h : c.WalkedOver P leaves)
    (h' : c'.WalkedOver P leaves') (hleaf : ∀ l ∈ leaves, IsLogLeaf P l)
    (hleaf' : ∀ l ∈ leaves', IsLogLeaf P l) {p q : ℕ} (hp : p ∈ c.distinguishedPositions)
    (hq : q ∈ c'.distinguishedPositions)
    (heq : logRoot P (leaves.take (p + 1)) = logRoot P (leaves'.take (q + 1))) :
    p = q ∧ leaves.take (p + 1) = leaves'.take (q + 1) := by
  have hlt := (h.roots hP).2 p hp
  have hlt' := (h'.roots hP).2 q hq
  have htake := logRoot_inj hP (fun l hl => hleaf l (List.mem_of_mem_take hl))
    (fun l hl => hleaf' l (List.mem_of_mem_take hl))
    (List.length_pos_iff.1 (by rw [List.length_take]; omega))
    (List.length_pos_iff.1 (by rw [List.length_take]; omega)) heq
  have hlen := congrArg List.length htake
  rw [List.length_take, List.length_take] at hlen
  exact ⟨by omega, htake⟩

/-- **Views of one log** are compared by the positions of their distinguished entries. -/
theorem KtClient.WalkedOver.overlaps_iff (hP : Function.Injective P.sha256) (h : c.WalkedOver P leaves)
    (h' : c'.WalkedOver P leaves') (hleaf : ∀ l ∈ leaves, IsLogLeaf P l)
    (hleaf' : ∀ l ∈ leaves', IsLogLeaf P l) {all : List Octets} (hall : leaves <+: all)
    (hall' : leaves' <+: all) :
    (c.distinguishedPositions.map fun p => logRoot P (leaves.take (p + 1))).Overlaps
        (c'.distinguishedPositions.map fun p => logRoot P (leaves'.take (p + 1))) ↔
      c.distinguishedPositions.Overlaps c'.distinguishedPositions := by
  obtain ⟨-, hlt⟩ := h.roots hP
  obtain ⟨-, hlt'⟩ := h'.roots hP
  have hmine : (c.distinguishedPositions.map fun p => logRoot P (leaves.take (p + 1))) =
      c.distinguishedPositions.map fun p => logRoot P (all.take (p + 1)) :=
    List.map_congr_left fun p hp => by rw [take_of_beginning hall (hlt p hp)]
  have htheirs : (c'.distinguishedPositions.map fun p => logRoot P (leaves'.take (p + 1))) =
      c'.distinguishedPositions.map fun p => logRoot P (all.take (p + 1)) :=
    List.map_congr_left fun p hp => by rw [take_of_beginning hall' (hlt' p hp)]
  rw [hmine, htheirs]
  refine List.overlaps_map fun p hp q hq heq => ?_
  rw [← take_of_beginning hall (hlt p hp), ← take_of_beginning hall' (hlt' q hq)] at heq
  exact (h.root_inj hP h' hleaf hleaf' hp hq heq).1

/-- **Gossip between views.**  What two clients have walked over passes, when they have
walked over one log, exactly if the positions of their distinguished entries overlap,
cut to their common length at the recent end; and if it passes, whichever logs they have
walked over, these agree up to an entry that is distinguished for both. -/
theorem gossip_agreement (hP : Function.Injective P.sha256) (h : c.WalkedOver P leaves)
    (h' : c'.WalkedOver P leaves') (hleaf : ∀ l ∈ leaves, IsLogLeaf P l)
    (hleaf' : ∀ l ∈ leaves', IsLogLeaf P l) :
    ∃ theirs, c'.exportDistinguishedRoots P = .ok theirs ∧
      (∀ all, leaves <+: all → leaves' <+: all → (c.checkGossipedRoots P theirs = .ok () ↔
        c.distinguishedPositions.Overlaps c'.distinguishedPositions)) ∧
      (c.checkGossipedRoots P theirs = .ok () → ∃ p ∈ c.distinguishedPositions,
        p ∈ c'.distinguishedPositions ∧ p < leaves.length ∧ p < leaves'.length ∧
          leaves.take (p + 1) = leaves'.take (p + 1)) := by
  obtain ⟨theirs, hexport, hcheck⟩ := h.check_iff hP h'
  refine ⟨theirs, hexport, fun all hall hall' =>
    hcheck.trans (h.overlaps_iff hP h' hleaf hleaf' hall hall'), fun hok => ?_⟩
  obtain ⟨root, hmem, hmem'⟩ := (hcheck.1 hok).exists_mem
  obtain ⟨p, hp, rfl⟩ := List.mem_map.1 hmem
  obtain ⟨q, hq, heq⟩ := List.mem_map.1 hmem'
  obtain ⟨rfl, htake⟩ := h.root_inj hP h' hleaf hleaf' hp hq heq.symm
  exact ⟨p, hp, hq, (h.roots hP).2 p hp, (h'.roots hP).2 p hq, htake⟩

end

/-! ### Views of a growing log -/

/-- A client that has walked over a sample log, whose head has the given timestamp. -/
theorem exists_walkedOver (window : ℕ) {L : LabelLog} (hkeys : ∀ v ≤ maxVersion, IsKey (L.key v))
    (h₀ : 0 < L.size) (hn : L.size ≤ 2 ^ 62) (now : U64) : ∃ c : KtClient,
      c.WalkedOver Primitives.ideal (L.leaves Primitives.ideal) ∧
        c.distinguishedPositions = L.distinguishedTo window now := by
  have hdigest : ∀ l ∈ L.leaves Primitives.ideal, l.length = 32 := fun l hl => by
    obtain ⟨e, -, rfl⟩ := List.mem_map.1 hl
    exact length_logLeafValue _ _ _
  obtain ⟨sigs, hsigs⟩ := KtClient.exists_signature (c := sampleClient window) ⟨_, rfl⟩ L.size
    (length_logRoot (P := Primitives.ideal) hdigest)
  let t : Tree := { emptyServer plainConfig with latest := some ⟨L.size, asI64 now, sigs⟩ }
  have hmode : (sampleClient window).config.mode ≠ deploymentModeThirdPartyAuditing :=
    show deploymentModeContactMonitoring ≠ deploymentModeThirdPartyAuditing by decide
  have hmeets : (sampleClient window).Meets Primitives.ideal clockless t L 0 now := {
    client := ⟨retainsPeaks_zero _ _, fun prev hprev => (by cases hprev), by simp [sampleClient]⟩
    known := Nat.zero_le _
    newer := fun _ => ⟨_, rfl, asU64_asI64 now, hsigs _⟩
    same := fun hzero => by omega
    clock := KtClient.checkTimestampBounds_eq_ok.2 (by
      rw [clockless, Option.getD_none, saturatingAdd, saturatingAdd]
      omega)
    audited := fun h => absurd h hmode
    unaudited := fun _ => rfl }
  obtain ⟨proof, htranscript⟩ : ∃ proof, Transcript Primitives.ideal L
      (L.distinguishedVisits (L.walkTo window (rightOf none) now)) 0 proof :=
    LabelLog.exists_transcript hkeys (fun e he => LabelLog.distinguishedVisits_lt hn (mem_sortedEntries.2 he))
      (fun l hl => by rw [LabelLog.laddersOf_distinguishedVisits] at hl; cases hl) 0
  obtain ⟨data, c, head, haccepted, hstate, hsize, hroot⟩ := KtClient.verifyDistinguished_honest
    h₀ hn rfl hmeets htranscript fun ath hath => by cases hath
  have hlog : LogOf Primitives.ideal head.treeSize head.rootHash (L.leaves Primitives.ideal) :=
    LabelLog.logOf hn hsize hroot
  obtain ⟨hkept, -⟩ := KtClient.verifyDistinguished_walked Primitives.ideal_sha256_injective h₀ hn rfl
    hmeets rfl haccepted hstate hlog
  refine ⟨c, ⟨clockless, none, _, _, data, c, head, haccepted, hstate, hlog, rfl⟩, ?_⟩
  -- both lists are in order
  have hmem : ∀ p, p ∈ c.distinguishedPositions ↔ p ∈ L.distinguishedTo window now := fun p => by
    have hiff : p ∈ c.distinguishedPositions ↔ (c.distinguishedEntries.get p).isSome = true := by
      rw [Option.isSome_iff_exists, KtClient.distinguishedPositions, List.mem_map]
      constructor
      · rintro ⟨e, he, rfl⟩
        exact ⟨e.2, OrderedMap.get_eq_some.2 he⟩
      · rintro ⟨d, hd⟩
        exact ⟨_, OrderedMap.get_eq_some.1 hd, rfl⟩
    rw [hiff, hkept]
    exact ⟨mem_distinguishedIn_of_walkIn, fun hp => mem_walkIn hp fun _ _ _ => rfl⟩
  have hsorted : c.distinguishedPositions.Pairwise (· < ·) :=
    List.pairwise_map.2 c.distinguishedEntries.sorted
  have hsorted' : (L.distinguishedTo window now).Pairwise (· < ·) := pairwise_distinguishedIn
  have hperm := (List.perm_ext_iff_of_nodup (hsorted.imp fun h => h.ne) (hsorted'.imp fun h => h.ne)).2 hmem
  exact hperm.eq_of_pairwise (fun a b _ _ h h' => absurd h (by omega)) hsorted hsorted'

/-- A log of entries ten milliseconds apart. -/
def tickingLog (size : ℕ) : LabelLog :=
  sampleLog size (fun e => if e = 0 then 10 else if e = 1 then 20 else 30) (fun _ => none)
    (fun {e e'} h _ => by
      by_cases he : e = 0
      · by_cases he' : e' = 0
        · simp [he, he']
        · rw [if_pos he, if_neg he']
          split_ifs <;> decide
      · rw [if_neg he, if_neg (show e' ≠ 0 by omega)]
        by_cases he₁ : e = 1
        · rw [if_pos he₁]
          split_ifs <;> decide
        · rw [if_neg he₁, if_neg (show e' ≠ 1 by omega)])
    (@noVersions_growing size) (@noVersions_small size)

/-- Views of a log with two and three distinguished entries, of which two are shared. -/
theorem gossip_two_of_three : ∃ (c c' : KtClient) (leaves leaves' : List Octets) (theirs : GossipRoots),
    c.WalkedOver Primitives.ideal leaves ∧ c'.WalkedOver Primitives.ideal leaves' ∧
      c.distinguishedPositions = [0, 1] ∧ c'.distinguishedPositions = [0, 1, 2] ∧
      c'.exportDistinguishedRoots Primitives.ideal = .ok theirs ∧
      c.checkGossipedRoots Primitives.ideal theirs = .ok () := by
  obtain ⟨c, h, hpositions⟩ := exists_walkedOver 10 (L := tickingLog 2) (fun v _ => isKey_sampleKey v)
    (by decide) (by decide) 20
  obtain ⟨c', h', hpositions'⟩ := exists_walkedOver 10 (L := tickingLog 3) (fun v _ => isKey_sampleKey v)
    (by decide) (by decide) 30
  have hp : c.distinguishedPositions = [0, 1] := hpositions.trans (by decide)
  have hp' : c'.distinguishedPositions = [0, 1, 2] := hpositions'.trans (by decide)
  obtain ⟨theirs, hexport, hcheck, -⟩ := gossip_agreement Primitives.ideal_sha256_injective h h'
    (LabelLog.isLogLeaf _) (LabelLog.isLogLeaf _)
  refine ⟨c, c', _, _, theirs, h, h', hp, hp', hexport,
    (hcheck _ ⟨[_], rfl⟩ (List.prefix_refl _)).2 ?_⟩
  rw [hp, hp']
  exact (List.overlaps_take (l := [0, 1, 2]) (by decide) (show 2 ≤ 3 by omega)).2 (by decide)

/-- **Views that share an entry may fail**: one client has walked over a log when it had
one distinguished entry, the other when it had two. -/
theorem gossip_misaligned : ∃ (c c' : KtClient) (leaves leaves' : List Octets) (theirs : GossipRoots),
    leaves <+: leaves' ∧
    c.WalkedOver Primitives.ideal leaves ∧ c'.WalkedOver Primitives.ideal leaves' ∧
      c.distinguishedPositions = [0] ∧ c'.distinguishedPositions = [0, 1] ∧
      c'.exportDistinguishedRoots Primitives.ideal = .ok theirs ∧
      c.checkGossipedRoots Primitives.ideal theirs ≠ .ok () := by
  obtain ⟨c, h, hpositions⟩ := exists_walkedOver 10 (L := tickingLog 1) (fun v _ => isKey_sampleKey v)
    (by decide) (by decide) 10
  obtain ⟨c', h', hpositions'⟩ := exists_walkedOver 10 (L := tickingLog 2) (fun v _ => isKey_sampleKey v)
    (by decide) (by decide) 20
  have hp : c.distinguishedPositions = [0] := hpositions.trans (by decide)
  have hp' : c'.distinguishedPositions = [0, 1] := hpositions'.trans (by decide)
  have hbeginning : (tickingLog 1).leaves Primitives.ideal <+: (tickingLog 2).leaves Primitives.ideal :=
    ⟨[_], rfl⟩
  obtain ⟨theirs, hexport, hcheck⟩ := h.check_iff Primitives.ideal_sha256_injective h'
  refine ⟨c, c', _, _, theirs, hbeginning, h, h', hp, hp', hexport, fun hok => ?_⟩
  have hoverlaps := (h.overlaps_iff Primitives.ideal_sha256_injective h' (LabelLog.isLogLeaf _)
    (LabelLog.isLogLeaf _) hbeginning (List.prefix_refl _)).1 (hcheck.1 hok)
  rw [hp, hp'] at hoverlaps
  have := (List.overlaps_take (l := [0, 1]) (by decide) (show 1 ≤ 2 by omega)).1 hoverlaps
  exact absurd this (by decide)

end KeyTransparency
