/-
# What an owner's walk proves

An owner that monitors a label walks over the distinguished entries right of a start.
Whatever the response, each of them is read, and its ladder shows the greatest version
that the entry's map holds (`replayOwnerWalk_sound`).  So no version beyond an
advertised one goes unseen; an owner that advertises no version, however, is told
nothing, since then every version is within the bound (`owner_monitor_sound_iff`).
-/

import KeyTransparency.Client.LadderSound
import KeyTransparency.Client.Retained
import KeyTransparency.Tree.Distinguished

namespace KeyTransparency

open BinaryLadder InOrder LogMath MerkleLog

/-- A log whose entries hold the versions of a label contiguously. -/
structure ContiguousLog where
  size : ℕ
  timestamp : ℕ → U64
  contents : ℕ → Octets → Option Octets
  /-- The greatest version in an entry's map. -/
  greatest : ℕ → Option ℕ
  key : ℕ → Octets
  held : ∀ {e v : ℕ}, e < size → v ≤ maxVersion →
    (contents e (key v)).isSome = (greatest e).any (v ≤ ·)
  small : ∀ {e g : ℕ}, e < size → greatest e = some g → g ≤ maxVersion

namespace ContiguousLog

variable (L : ContiguousLog)

/-- The leaf hashes of the log. -/
def leaves (P : Primitives) : List Octets :=
  (List.range L.size).map fun e => logLeafValue P (L.timestamp e) (prefixRoot P (L.contents e))

/-- The distinguished entries of the log, in order. -/
def distinguished (window : ℕ) : List ℕ :=
  distinguishedIn (fun e => (L.timestamp e).val) window L.size (Nat.log2 L.size) 0 0
    (L.timestamp (L.size - 1)).val

@[simp] theorem length_leaves (P : Primitives) : (L.leaves P).length = L.size := by simp [leaves]

variable {L}

theorem leafAt_leaves {P : Primitives} {e : ℕ} (he : e < L.size) :
    leafAt (L.leaves P) e = logLeafValue P (L.timestamp e) (prefixRoot P (L.contents e)) := by
  rw [leafAt, leaves, List.getD_eq_getElem _ _ (by simpa using he), List.getElem_map,
    List.getElem_range]

end ContiguousLog

section

variable {P : Primitives} {env : Env} {c c' : KtClient} {L : ContiguousLog}

/-! ### What was read -/

/-- **What is read of an accepted head is what the leaves of its log hash.** -/
theorem Accepted.leafAt_eq (hP : Function.Injective P.sha256) {r : Response} {data : List LeafData}
    {fth : FullTreeHead} (h : Accepted P env c r data c') (hfth : r.fullTreeHead = some fth)
    {head : TrustedState} (hstate : c'.state = some head) {leaves : List Octets}
    (hlog : LogOf P head.treeSize head.rootHash leaves) {d : LeafData} (hd : d ∈ data) :
    leafAt leaves d.1 = logLeafValue P d.2.1 d.2.2 := by
  obtain ⟨fth', n, timestamp, updated, hfth', htaken⟩ :=
    h.takenOver.resolve_right fun hnone => by simp [hnone.1] at hfth
  obtain rfl := Option.some.inj (hfth.symm.trans hfth')
  obtain ⟨elements, extraWanted, captured, committed, hcommit, same⟩ := htaken.commit
  obtain ⟨head', hstate', rfl, hroot, -⟩ := KtClient.verifyHeadAndCommit_derived htaken.head hcommit
  rw [← same.state, hstate'] at hstate
  obtain rfl := Option.some.inj hstate
  exact LogVerifier.leafAt_eq hP hlog (Nat.pos_of_ne_zero htaken.nonempty)
    (h.reads hfth htaken.head hlog.small) (htaken.monotone.imp And.left) hroot hd

/-- A reader and the roots recorded with it say of a log what it holds. -/
structure ReadsTrue (P : Primitives) (L : ContiguousLog) (reader : ProofReader)
    (entryRoots : NodeMap) : Prop where
  timestamp : ∀ {e : ℕ} {ts : U64}, (e, ts) ∈ reader.assignedTs.entries → ts = L.timestamp e
  root : ∀ {e : ℕ} {ts : U64} {root : Octets}, (e, ts) ∈ reader.assignedTs.entries →
    entryRoots e = some root → root = prefixRoot P (L.contents e)

/-- What has been recorded of an entry stays. -/
def RootsKept (entryRoots entryRoots' : NodeMap) : Prop :=
  ∀ e root, entryRoots e = some root → entryRoots' e = some root

theorem RootsKept.refl (entryRoots : NodeMap) : RootsKept entryRoots entryRoots := fun _ _ h => h

theorem RootsKept.trans {r r' r'' : NodeMap} (h : RootsKept r r') (h' : RootsKept r' r'') :
    RootsKept r r'' := fun _ _ hr => h' _ _ (h _ _ hr)

theorem ProofReader.recordEntryRoot_kept {entryRoots entryRoots' : NodeMap} {entry : ℕ}
    {root : Octets} (h : ProofReader.recordEntryRoot entryRoots entry root = .ok entryRoots') :
    RootsKept entryRoots entryRoots' ∧ entryRoots' entry = some root := by
  simp only [recordEntryRoot, Result.bind_eq_ok, ensure_eq_ok] at h
  obtain ⟨-, hprev, h⟩ := h
  obtain rfl := Except.ok.inj h
  refine ⟨fun e r hr => ?_, Function.update_self ..⟩
  by_cases he : e = entry
  · subst he
    rw [Function.update_self, hprev r hr]
  · rwa [Function.update_of_ne he]

/-- What is true afterwards was true before. -/
theorem ReadsTrue.of_extends {n : ℕ} {r r' : ProofReader} {roots roots' : NodeMap}
    (h : ReadsTrue P L r' roots') (hext : r.Extends n r') (hkept : RootsKept roots roots') :
    ReadsTrue P L r roots :=
  ⟨fun he => h.timestamp (hext.keeps he), fun he hroot => h.root (hext.keeps he) (hkept _ _ hroot)⟩

/-- What `finish` returns has the roots recorded before. -/
theorem ProofReader.surfaceRoots_root {entryRoots : NodeMap} {e : ℕ} {ts : U64} {root : Octets}
    (hroot : entryRoots e = some root) : ∀ {entries : List (ℕ × U64)} {roots unused : List Octets}
      {out : List LeafData}, ProofReader.surfaceRoots entryRoots entries roots = .ok (out, unused) →
        (e, ts) ∈ entries → (e, ts, root) ∈ out
  | [], roots, unused, out, h, he => absurd he List.not_mem_nil
  | (pos, ts') :: entries, roots, unused, out, h, he => by
    rw [surfaceRoots.eq_def] at h
    cases hpos : entryRoots pos with
    | some root' =>
      simp only [hpos] at h
      obtain ⟨⟨out', unused'⟩, hrest, h⟩ := Result.bind_eq_ok.1 h
      obtain ⟨rfl, -⟩ := Prod.mk.inj (Except.ok.inj h)
      rcases List.mem_cons.1 he with he | he
      · obtain ⟨rfl, rfl⟩ := Prod.mk.inj he
        rw [Option.some.inj (hroot.symm.trans hpos)]
        exact List.mem_cons_self
      · exact List.mem_cons_of_mem _ (surfaceRoots_root hroot hrest he)
    | none =>
      cases roots with
      | nil => simp [hpos] at h
      | cons first roots =>
        simp only [hpos] at h
        obtain ⟨⟨out', unused'⟩, hrest, h⟩ := Result.bind_eq_ok.1 h
        obtain ⟨rfl, -⟩ := Prod.mk.inj (Except.ok.inj h)
        rcases List.mem_cons.1 he with he | he
        · obtain ⟨rfl, rfl⟩ := Prod.mk.inj he
          cases hroot.symm.trans hpos
        · exact List.mem_cons_of_mem _ (surfaceRoots_root hroot hrest he)

theorem ProofReader.finish_root {reader : ProofReader} {entryRoots : NodeMap} {out : List LeafData}
    (h : reader.finish entryRoots = .ok out) {e : ℕ} {ts : U64} {root : Octets}
    (he : (e, ts) ∈ reader.assignedTs.entries) (hroot : entryRoots e = some root) :
    (e, ts, root) ∈ out := by
  simp only [finish, Result.bind_eq_ok, ensure_eq_ok] at h
  obtain ⟨-, -, -, -, ⟨out', unused⟩, hout, -, -, h⟩ := h
  obtain rfl := Except.ok.inj h
  exact surfaceRoots_root hroot hout he

/-- **A reader that ends at the root of a log has read that log.** -/
theorem Accepted.readsTrue (hP : Function.Injective P.sha256) {r : Response} {data : List LeafData}
    {fth : FullTreeHead} (h : Accepted P env c r data c') (hfth : r.fullTreeHead = some fth)
    {head : TrustedState} (hstate : c'.state = some head)
    (hlog : LogOf P head.treeSize head.rootHash (L.leaves P)) {reader : ProofReader}
    {entryRoots : NodeMap} (hbelow : ∀ e ∈ reader.assignedTs.entries, e.1 < L.size)
    (hfinish : reader.finish entryRoots = .ok data) : ReadsTrue P L reader entryRoots := by
  have hleaf : ∀ d ∈ data, d.1 < L.size →
      L.timestamp d.1 = d.2.1 ∧ prefixRoot P (L.contents d.1) = d.2.2 := fun d hd hlt => by
    have hleaf := h.leafAt_eq hP hfth hstate hlog hd
    rw [ContiguousLog.leafAt_leaves hlt] at hleaf
    obtain ⟨hts, hroot⟩ := logLeafValue_inj hP (L.timestamp d.1).isLt d.2.1.isLt hleaf
    exact ⟨Fin.ext hts, hroot⟩
  constructor
  · intro e ts he
    have hlt := hbelow _ he
    rw [← ProofReader.finish_entries hfinish] at he
    obtain ⟨d, hd, heq⟩ := List.mem_map.1 he
    obtain ⟨rfl, rfl⟩ := Prod.mk.inj heq
    exact (hleaf d hd hlt).1.symm
  · intro e ts root he hroot
    exact (hleaf _ (ProofReader.finish_root hfinish he hroot) (hbelow _ he)).2.symm

/-! ### The walk -/

namespace KtClient

variable {label : Octets} {start rmw bound : ℕ} {binaryLadder : List BinaryLadderStep}

theorem replayOwnerWalk_kept {n : ℕ} : ∀ {fuel node : ℕ} {leftTs rightTs : U64} {s s' : SearchState},
    c.replayOwnerWalk P label start n rmw bound binaryLadder fuel node leftTs rightTs s = .ok s' →
    RootsKept s.entryRoots s'.entryRoots
  | 0, node, leftTs, rightTs, s, s', h => by cases h
  | fuel + 1, node, leftTs, rightTs, s, s', h => by
    rcases replayOwnerWalk_cases h with ⟨-, rfl⟩ | ⟨-, nodeTs, reader, s₁, -, hentry, hwalk⟩
    · exact .refl _
    · have hwalk : RootsKept s₁.entryRoots s'.entryRoots := by
        generalize (if isLeaf node then none else ibstRightChild node n) = rightChild at hwalk
        cases rightChild with
        | none =>
          obtain rfl := Except.ok.inj hwalk
          exact .refl _
        | some rc => exact replayOwnerWalk_kept hwalk
      rcases hentry with ⟨-, rfl⟩ | ⟨-, s₂, pp, reader', root, found, ladders, entryRoots, hleft, -, -,
        -, hrecord, rfl⟩
      · exact hwalk
      · refine .trans ?_ ((ProofReader.recordEntryRoot_kept hrecord).1.trans hwalk)
        split_ifs at hleft
        · obtain rfl := Except.ok.inj hleft
          exact .refl _
        · have hkept := replayOwnerWalk_kept hleft
          exact hkept

/-- What the walk shows of an entry: it is read, and the label has no version beyond the
bound there. -/
structure ShownWithin (L : ContiguousLog) (bound : ℕ) (s : SearchState) (x : ℕ) : Prop where
  read : ∃ ts, (x, ts) ∈ s.reader.assignedTs.entries
  within : ∀ v ∈ L.greatest x, v ≤ bound

theorem ShownWithin.of_extends {n x : ℕ} {s s' : SearchState} (h : ShownWithin L bound s x)
    (hext : s.reader.Extends n s'.reader) : ShownWithin L bound s' x := by
  obtain ⟨ts, hts⟩ := h.read
  exact ⟨⟨ts, hext.keeps hts⟩, h.within⟩

/-- **Soundness of the owner's walk.**  Every distinguished entry below a node and right
of the start is shown to be within the bound. -/
theorem replayOwnerWalk_sound (hP : Function.Injective P.sha256) (hZ : ∀ m, P.sha256 m ≠ zeroValue)
    (hkeys : c.KeysAre P label L.key) (hn : L.size ≤ 2 ^ 62) : ∀ {fuel k i : ℕ}
      {leftTs rightTs : U64} {s s' : SearchState}, k < 64 → node k i < L.size →
    c.replayOwnerWalk P label start L.size rmw bound binaryLadder fuel (node k i) leftTs rightTs s =
      .ok s' →
    s.ladders.CacheTrue L.key → ReadsTrue P L s'.reader s'.entryRoots →
    s'.ladders.CacheTrue L.key ∧ ∀ x ∈ distinguishedIn (fun e => (L.timestamp e).val) rmw L.size k i
      leftTs.val rightTs.val, start < x → ShownWithin L bound s' x
  | 0, k, i, leftTs, rightTs, s, s', _, _, h, _, _ => by cases h
  | fuel + 1, k, i, leftTs, rightTs, s, s', hk, hlt, h, hcache, htrue => by
    rcases replayOwnerWalk_cases h with ⟨hw, rfl⟩ | ⟨hw, nodeTs, reader, s₁, hts, hentry, hwalk⟩
    · exact ⟨hcache, fun x hx => by simp [distinguishedIn_of_lt hw] at hx⟩
    have hread := ProofReader.mem_of_timestamp hts
    -- the walk to the right, from where it begins
    obtain ⟨hext, hkept, hright⟩ : s₁.reader.Extends L.size s'.reader ∧
        RootsKept s₁.entryRoots s'.entryRoots ∧ (s₁.ladders.CacheTrue L.key →
          s'.ladders.CacheTrue L.key ∧ ∀ j, k = j + 1 → ∀ x ∈ distinguishedIn
            (fun e => (L.timestamp e).val) rmw L.size j (2 * i + 1) nodeTs.val rightTs.val,
              start < x → ShownWithin L bound s' x) := by
      rw [isLeaf_node] at hwalk
      cases k with
      | zero =>
        obtain rfl := Except.ok.inj hwalk
        exact ⟨.refl _ _, .refl _, fun hcache => ⟨hcache, fun j hj => by omega⟩⟩
      | succ k =>
        have hk64 : k < 64 := by omega
        have hchild : ibstRightChild (node (k + 1) i) L.size =
            ibstRightLoop L.size 64 (node k (2 * i + 1)) := by
          rw [ibstRightChild, level_node hk, if_neg (Nat.succ_ne_zero k), Nat.add_sub_cancel,
            node_xor_right]
        rw [if_neg (by simp), hchild] at hwalk
        rcases @ibstRightLoop_cases (fun e => (L.timestamp e).val) rmw L.size k (2 * i + 1) 64 hk64
          hk64 with ⟨k', j', hk', hloop, hlt', heq⟩ | ⟨hloop, heq⟩
        · rw [hloop] at hwalk
          have hwalk : c.replayOwnerWalk P label start L.size rmw bound binaryLadder fuel (node k' j')
            nodeTs rightTs s₁ = .ok s' := hwalk
          refine ⟨replayOwnerWalk_extends (by omega) hlt' hwalk, replayOwnerWalk_kept hwalk, fun hcache => ?_⟩
          obtain ⟨hcache', hshown⟩ := replayOwnerWalk_sound hP hZ hkeys hn (by omega) hlt' hwalk hcache
            htrue
          refine ⟨hcache', fun j hj x hx => hshown x ?_⟩
          obtain rfl := Nat.succ.inj hj
          rwa [heq] at hx
        · rw [hloop] at hwalk
          obtain rfl := Except.ok.inj hwalk
          refine ⟨.refl _ _, .refl _, fun hcache => ⟨hcache, fun j hj x hx => ?_⟩⟩
          obtain rfl := Nat.succ.inj hj
          rw [heq] at hx
          cases hx
    rcases hentry with ⟨hstart, rfl⟩ | ⟨hstart, s₂, pp, reader', root, found, ladders, entryRoots, hleft,
      hpp, hladder, hbound, hrecord, rfl⟩
    · obtain rfl := htrue.timestamp (hext.keeps hread)
      refine ⟨(hright hcache).1, fun x hx hxs => ?_⟩
      rcases mem_distinguishedIn_cases hx hlt with ⟨hlow, -⟩ | rfl | ⟨-, j, rfl, hx⟩
      · omega
      · omega
      · exact (hright hcache).2 j rfl x hx hxs
    · have hext₂ : s₂.reader.Extends L.size s'.reader :=
        (ProofReader.prefixProof_extends hpp).trans hext
      obtain ⟨hroots, hroot⟩ := ProofReader.recordEntryRoot_kept hrecord
      have htrue₂ := htrue.of_extends hext₂ (hroots.trans hkept)
      -- the walk to the left
      obtain ⟨hext₁, hcache₂, hshown₂⟩ : reader.Extends L.size s₂.reader ∧
          s₂.ladders.CacheTrue L.key ∧ ∀ j, k = j + 1 → ∀ x ∈ distinguishedIn
            (fun e => (L.timestamp e).val) rmw L.size j (2 * i) leftTs.val nodeTs.val,
              start < x → ShownWithin L bound s₂ x := by
        rw [isLeaf_node] at hleft
        cases k with
        | zero =>
          obtain rfl := Except.ok.inj hleft
          exact ⟨.refl _ _, hcache, fun j hj => by omega⟩
        | succ k =>
          rw [if_neg (by simp), leftChild_node (by omega)] at hleft
          have hlt' : node k (2 * i) < L.size := by
            have := leftChild_le (show node (k + 1) i + 1 < 2 ^ 64 by omega)
            rw [leftChild_node (by omega)] at this
            omega
          obtain ⟨hcache₂, hshown₂⟩ := replayOwnerWalk_sound hP hZ hkeys hn (by omega) hlt' hleft hcache
            htrue₂
          refine ⟨replayOwnerWalk_extends (by omega) hlt' hleft, hcache₂, fun j hj => ?_⟩
          obtain rfl := Nat.succ.inj hj
          exact hshown₂
      have hread' := hext₂.keeps (hext₁.keeps hread)
      obtain rfl := htrue.timestamp hread'
      obtain ⟨rfl, -, hcache'⟩ := verifyOwnerLadder_sound hP hZ hkeys (fun v => L.held hlt)
        (fun g hg => L.small hlt hg) hcache₂ (htrue.root hread' (hkept _ _ hroot)) hladder
      refine ⟨(hright hcache').1, fun x hx hxs => ?_⟩
      rcases mem_distinguishedIn_cases hx hlt with ⟨-, j, rfl, hx⟩ | rfl | ⟨-, j, rfl, hx⟩
      · exact (hshown₂ j rfl x hx hxs).of_extends hext₂
      · exact ⟨⟨_, hread'⟩, hbound⟩
      · exact (hright hcache').2 j rfl x hx hxs

/-- **What owner monitoring shows.**  Every distinguished entry right of the start is
read, and the label has no version beyond the bound there. -/
theorem verifyOwnerMonitor_shown (hP : Function.Injective P.sha256)
    (hZ : ∀ m, P.sha256 m ≠ zeroValue) (hkeys : c.KeysAre P label L.key) {map : OrderedMap ℕ}
    {greatestVersion : Option ℕ} {resp : OwnerMonitorResponse} {data : List LeafData}
    (h : c.verifyOwnerMonitor P env label map start greatestVersion resp = .ok (data, c'))
    {head : TrustedState} (hstate : c'.state = some head)
    (hlog : LogOf P head.treeSize head.rootHash (L.leaves P)) :
    ∀ x ∈ L.distinguished c.config.reasonableMonitoringWindow, start < x →
      x ∈ data.map Prod.fst ∧ ∀ v ∈ L.greatest x, v ≤ greatestVersion.getD maxVersion := by
  have haccepted := Accepted.ownerMonitor h
  have hsize : L.size = head.treeSize := by rw [← L.length_leaves P, hlog.size]
  have hn := hlog.small
  simp only [verifyOwnerMonitor, Result.bind_eq_ok, okOr_eq_ok, ensure_eq_ok] at h
  obtain ⟨fth, hfth, proof, hproof, ⟨n, timestamp, updated⟩, hhead, -, hpos, ⟨⟩, -, reader, hreader,
    ⟨ts, reader'⟩, hts, w, hcontact, s, hwalk, -, -, ⟨data', captured, committed⟩, hfinish, h⟩ := h
  obtain ⟨rfl, rfl⟩ := Prod.mk.inj (Except.ok.inj h)
  dsimp only at hpos hts hcontact hwalk hstate hfinish hreader
  obtain ⟨hfin, inclusion, -, hcommit⟩ := finishAndCommit_eq_ok.1 hfinish
  obtain ⟨head', hstate', rfl, -⟩ := verifyHeadAndCommit_derived hhead hcommit
  obtain rfl := Option.some.inj (hstate'.symm.trans hstate)
  rw [← hsize] at hpos hts hcontact hwalk hn hreader
  have h₀ : 0 < L.size := Nat.pos_of_ne_zero hpos
  -- the reader goes on from the frontier over the contact ladders to the walk
  have hlast := ProofReader.timestamp_extends hts (show L.size - 1 < L.size by omega)
  have hafter := (replayContactLadders_extends h₀ (by omega) hcontact).trans
    (replayOwnerWalk_extends (by omega) (root_lt h₀ (by omega)) hwalk)
  have hreads := ReadsLog.of_finish hn hreader (hlast.trans hafter) hfin
  have hbelow : ∀ e ∈ s.reader.assignedTs.entries, e.1 < L.size := fun e he => by
    rw [← ProofReader.finish_entries hfin] at he
    obtain ⟨d, hd, rfl⟩ := List.mem_map.1 he
    exact hreads.below d hd
  have htrue := haccepted.readsTrue hP hfth hstate' hlog hbelow hfin
  obtain rfl := htrue.timestamp (hafter.keeps (ProofReader.mem_of_timestamp hts))
  have hroot : root L.size = node (Nat.log2 L.size) 0 := root_eq h₀ (by omega)
  have hrootlt := root_lt h₀ (by omega)
  rw [hroot] at hwalk hrootlt
  have hshown := (replayOwnerWalk_sound hP hZ hkeys hn ((Nat.log2_lt (by omega)).2 (by omega)) hrootlt
    hwalk (Ladders.cacheTrue_new []) htrue).2
  intro x hx hxs
  obtain ⟨⟨ts, hread⟩, hwithin⟩ := hshown x hx hxs
  refine ⟨?_, hwithin⟩
  rw [← ProofReader.finish_entries hfin] at hread
  obtain ⟨d, hd, heq⟩ := List.mem_map.1 hread
  exact List.mem_map.2 ⟨d, hd, (Prod.mk.inj heq).1⟩

end KtClient

end

end KeyTransparency
