/-
# What a verified ladder proves

When VRF outputs are determined by label and version (`KtClient.KeysAre`), the lookups
of a ladder whose root is that of an entry's map are answered by that map.  So a full
ladder shows the entry's greatest version (`verifyOwnerLadder_sound`), and a monitoring
ladder shows that the map holds its target (`verifyMonitoringLadder_sound`).
-/

import KeyTransparency.Client.LadderDecode
import KeyTransparency.Client.PrefixSound

namespace KeyTransparency

open BinaryLadder

/-- **VRF outputs are determined**: what verifies for a version of a label is its key. -/
def KtClient.KeysAre (P : Primitives) (c : KtClient) (label : Octets) (key : ℕ → Octets) : Prop :=
  ∀ {v : ℕ} {input proof out : Octets}, constructVrfInput label v = .ok input →
    P.ecvrfVerify c.config.cipherSuite c.vrfPk input proof = .ok out → out = key v

/-- The cached VRF outputs are the keys. -/
def Ladders.CacheTrue (key : ℕ → Octets) (s : Ladders) : Prop :=
  ∀ {v : ℕ} {out : Octets}, s.vrfCache v = some out → out = key v ∧ IsKey (key v)

section

variable {P : Primitives} {c : KtClient} {label : Octets} {key : ℕ → Octets}
  {contents : Octets → Option Octets} {binaryLadder : List BinaryLadderStep}

theorem Ladders.cacheTrue_new (wireIndex : List ℕ) : (Ladders.new wireIndex).CacheTrue key := by
  intro v out h
  cases h

theorem KtClient.ladderStep_sound (hkeys : c.KeysAre P label key) {msg : String} {v : ℕ}
    {s s' : Ladders} {step : BinaryLadderStep} {out : Octets} (hs : s.CacheTrue key)
    (h : c.ladderStep P (constructVrfInput label v) msg binaryLadder v s = .ok (step, out, s')) :
    out = key v ∧ IsKey (key v) ∧ s'.CacheTrue key := by
  simp only [ladderStep, Result.bind_eq_ok] at h
  obtain ⟨step', -, h⟩ := h
  cases hcache : s.vrfCache v with
  | some o =>
    simp only [hcache, Result.pure_eq, Except.ok.injEq, Prod.mk.injEq] at h
    obtain ⟨-, rfl, rfl⟩ := h
    exact ⟨(hs hcache).1, (hs hcache).2, hs⟩
  | none =>
    simp only [hcache, Result.bind_eq_ok, Result.context_eq_ok, Result.pure_eq, Except.ok.injEq,
      Prod.mk.injEq] at h
    obtain ⟨input, hinput, o, hverify, -, rfl, rfl⟩ := h
    obtain rfl := hkeys hinput hverify
    have hkey : IsKey (key v) :=
      ⟨(P.ecvrfVerify_bytes hverify).1, (P.ecvrfVerify_bytes hverify).2⟩
    refine ⟨rfl, hkey, fun {w o} hw => ?_⟩
    dsimp only at hw
    by_cases hwv : w = v
    · subst hwv
      rw [Function.update_self] at hw
      exact ⟨(Option.some.inj hw).symm, hkey⟩
    · rw [Function.update_of_ne hwv] at hw
      exact hs hw

/-! ### Owner ladders -/

theorem agreeingRoot_eq_ok {computedRoot computedRoot' : Option Octets} {root : Octets}
    {msg : String} : agreeingRoot computedRoot root msg = .ok computedRoot' ↔
      (∀ prev ∈ computedRoot, prev = root) ∧ computedRoot' = some root := by
  simp only [agreeingRoot, Result.bind_eq_ok, ensure_eq_ok]
  constructor
  · rintro ⟨-, hprev, h⟩
    exact ⟨hprev, (Except.ok.inj h).symm⟩
  · rintro ⟨hprev, rfl⟩
    exact ⟨(), hprev, rfl⟩

namespace KtClient

/-- What one lookup of an owner ladder checks. -/
theorem verifyOwnerLookup_eq_ok {pp : PrefixProof} {greatest : Option ℕ} {j off off' : ℕ}
    {lk : DecodedLookup} {root root' : Option Octets} {s s' : Ladders}
    (h : c.verifyOwnerLookup P label pp greatest binaryLadder j lk off root s =
      .ok (off', root', s')) :
    ∃ step out comm used r, c.ladderStep P (constructVrfInput label lk.version)
        s!"Owner ladder VRF verify failed at v={lk.version}" binaryLadder lk.version s =
          .ok (step, out, s') ∧
      PrefixVerifier.computeRootFromResult P pp j out comm off = .ok (r, used) ∧
      (∀ prev ∈ root, prev = r) ∧ root' = some r := by
  simp only [verifyOwnerLookup, Result.bind_eq_ok, ensure_eq_ok] at h
  obtain ⟨⟨⟩, -, ⟨step, out, ladders⟩, hstep, ⟨⟩, -, ⟨r, used⟩, hcompute, computedRoot, hroot, h⟩ := h
  obtain ⟨hprev, rfl⟩ := agreeingRoot_eq_ok.1 hroot
  obtain ⟨-, h⟩ := Prod.mk.inj (Except.ok.inj h)
  obtain ⟨rfl, rfl⟩ := Prod.mk.inj h
  exact ⟨step, out, _, used, r, hstep, hcompute, hprev, rfl⟩

/-- The lookups of an owner ladder keep the root they have begun with. -/
theorem verifyOwnerLookups_root {pp : PrefixProof} {greatest : Option ℕ} :
    ∀ {decoded : List DecodedLookup} {j off off' : ℕ} {r : Octets} {root' : Option Octets}
      {s s' : Ladders},
    c.verifyOwnerLookups P label pp greatest binaryLadder j decoded off (some r) s =
      .ok (off', root', s') → root' = some r
  | [], j, off, off', r, root', s, s', h => by
    obtain ⟨-, h⟩ := Prod.mk.inj (Except.ok.inj h)
    exact (Prod.mk.inj h).1.symm
  | lk :: decoded, j, off, off', r, root', s, s', h => by
    obtain ⟨⟨off₁, root₁, s₁⟩, hlookup, h⟩ := Result.bind_eq_ok.1 h
    obtain ⟨step, out, comm, used, r', -, -, hprev, rfl⟩ := verifyOwnerLookup_eq_ok hlookup
    rw [hprev r rfl]
    exact verifyOwnerLookups_root h

/-- **The lookups are answered by the map** whose root they lead to. -/
theorem verifyOwnerLookups_sound (hP : Function.Injective P.sha256)
    (hZ : ∀ m, P.sha256 m ≠ zeroValue) (hkeys : c.KeysAre P label key) {pp : PrefixProof}
    {greatest : Option ℕ} : ∀ {decoded : List DecodedLookup} {j off off' : ℕ} {root : Option Octets}
      {s s' : Ladders}, s.CacheTrue key →
    DecodedLookup.answers pp.results j = decoded.map DecodedLookup.inclusion →
    c.verifyOwnerLookups P label pp greatest binaryLadder j decoded off root s =
      .ok (off', some (prefixRoot P contents), s') →
    (∀ lk ∈ decoded, lk.inclusion = (contents (key lk.version)).isSome) ∧ s'.CacheTrue key
  | [], j, off, off', root, s, s', hs, _, h => by
    obtain ⟨-, h⟩ := Prod.mk.inj (Except.ok.inj h)
    obtain ⟨-, rfl⟩ := Prod.mk.inj h
    exact ⟨fun lk hlk => absurd hlk List.not_mem_nil, hs⟩
  | lk :: decoded, j, off, off', root, s, s', hs, hans, h => by
    obtain ⟨⟨off₁, root₁, s₁⟩, hlookup, h⟩ := Result.bind_eq_ok.1 h
    obtain ⟨step, out, comm, used, r, hstep, hcompute, -, rfl⟩ := verifyOwnerLookup_eq_ok hlookup
    obtain ⟨rfl, hkey, hs₁⟩ := ladderStep_sound hkeys hs hstep
    obtain rfl := Option.some.inj (verifyOwnerLookups_root h)
    obtain ⟨result, hresult, htype, hrest⟩ := DecodedLookup.answers_eq_cons.1 hans
    obtain ⟨hsound, hs'⟩ := verifyOwnerLookups_sound hP hZ hkeys hs₁ hrest h
    refine ⟨fun lk' hlk' => ?_, hs'⟩
    rcases List.mem_cons.1 hlk' with rfl | hlk'
    · obtain ⟨hincluded, habsent⟩ := computeRootFromResult_sound hP hZ hkey hresult hcompute
      rw [← htype]
      by_cases hone : result.resultType = 1
      · obtain ⟨hsome, hcontents⟩ := hincluded hone
        rw [hcontents, decide_eq_true hone]
        exact (Option.isSome_iff_ne_none.2 hsome).symm
      · rw [habsent hone, decide_eq_false hone, Option.isSome_none]
    · exact hsound lk' hlk'

/-- **Soundness of an owner ladder.**  When its root is that of an entry's map, it shows
the greatest version that the map holds. -/
theorem verifyOwnerLadder_sound (hP : Function.Injective P.sha256)
    (hZ : ∀ m, P.sha256 m ≠ zeroValue) (hkeys : c.KeysAre P label key) {greatest : Option ℕ}
    (hcontents : ∀ v ≤ maxVersion, (contents (key v)).isSome = greatest.any (v ≤ ·))
    (hsmall : ∀ g ∈ greatest, g ≤ maxVersion) {pp : PrefixProof} {found : Option ℕ} {root : Octets}
    {s s' : Ladders} (hs : s.CacheTrue key) (hroot : root = prefixRoot P contents)
    (h : c.verifyOwnerLadder P label pp binaryLadder s = .ok (root, found, s')) :
    found = greatest ∧ found = ownerGreatest pp.results ∧ s'.CacheTrue key := by
  simp only [verifyOwnerLadder, Result.bind_eq_ok, ensure_eq_ok, okOr_eq_ok] at h
  obtain ⟨d, hd, ⟨⟩, -, ⟨off, computed, ladders⟩, hlookups, ⟨⟩, -, root', hcomputed, h⟩ := h
  obtain ⟨hroot', hresult⟩ := Prod.mk.inj (Except.ok.inj h)
  obtain ⟨rfl, rfl⟩ := Prod.mk.inj hresult
  dsimp only at hcomputed
  rw [hcomputed, hroot', hroot] at hlookups
  obtain ⟨htrace, hans⟩ := decodeSearchLadder_eq_ok.1 hd
  obtain ⟨htrue, hs'⟩ := verifyOwnerLookups_sound hP hZ hkeys hs (j := 0) hans hlookups
  refine ⟨?_, rfl, hs'⟩
  have hcut := @decoded_eq _ _ _ (fun v => (contents (key v)).isSome) hd htrue
  -- the lookups ask for versions, of which the map holds those up to its greatest
  have hmem : ∀ lk ∈ d, lk.inclusion = greatest.any (lk.version ≤ ·) := fun lk hlk => by
    rw [htrue lk hlk]
    refine hcontents _ ?_
    rw [hcut] at hlk
    obtain ⟨v, hv, rfl⟩ := List.mem_map.1 hlk
    exact mem_ladder_path (ProbeTree.mem_path_of_mem_cut hv)
  replace hcut := @decoded_eq _ _ _ (fun v => greatest.any (v ≤ ·)) hd hmem
  cases hfound : ownerGreatest pp.results with
  | none =>
    rw [hfound] at hd
    obtain ⟨b, rest, hfirst, -⟩ := ProbeTree.trace_probe.1 htrace
    obtain ⟨lk, d', rfl, hlk, -⟩ := List.map_eq_cons_iff.1 hfirst
    have hzero := ownerGreatest_eq_none hfound hd lk List.mem_cons_self
    rw [hmem lk List.mem_cons_self] at hzero
    cases greatest with
    | none => rfl
    | some g =>
      have hversion : lk.version = 0 := congrArg Prod.fst hlk
      simp [hversion] at hzero
  | some g =>
    have hmax := List.max?_eq_some_iff.1 (ownerGreatest_eq_some hfound hd)
    rw [hfound, Option.getD_some] at hcut
    obtain ⟨lk, hlk, rfl⟩ := List.mem_map.1 hmax.1
    obtain ⟨hlk, hincluded⟩ := List.mem_filter.1 hlk
    have hheld := hmem lk hlk
    rw [hincluded] at hheld
    cases greatest with
    | none => simp at hheld
    | some G =>
      have hle : lk.version ≤ G := by simpa using hheld.symm
      -- the ladder asks for everything, the greatest version included
      have hpath : ladder.cut (fun v => (some G).any (v ≤ ·)) (searchEnds lk.version) =
          baseBinaryLadder G := by
        rw [baseBinaryLadder_eq]
        refine (ProbeTree.cut_eq_path fun v hv => ?_).trans
          (ProbeTree.path_congr fun v _ => by simp)
        have hvd : (⟨v, (some G).any (v ≤ ·)⟩ : DecodedLookup) ∈ d := by
          rw [hcut]
          exact List.mem_map_of_mem (f := fun v => (⟨v, (some G).any (v ≤ ·)⟩ : DecodedLookup)) hv
        by_cases hvG : v ≤ G
        · have hin := hmax.2 v (List.mem_map.2 ⟨_, List.mem_filter.2 ⟨hvd, by simpa using hvG⟩, rfl⟩)
          simp [searchEnds, hvG, hin]
        · have : ¬ v ≤ lk.version := by omega
          simp [searchEnds, hvG, this]
      have hself : G ∈ baseBinaryLadder G := mem_baseBinaryLadder_self (by
        have := hsmall G rfl
        unfold maxVersion at this
        omega)
      rw [← hpath] at hself
      have hGd : (⟨G, (some G).any (G ≤ ·)⟩ : DecodedLookup) ∈ d := by
        rw [hcut]
        exact List.mem_map_of_mem (f := fun v => (⟨v, (some G).any (v ≤ ·)⟩ : DecodedLookup)) hself
      have hGle := hmax.2 G (List.mem_map.2 ⟨_, List.mem_filter.2 ⟨hGd, by simp⟩, rfl⟩)
      rw [show lk.version = G by omega]

/-! ### Monitoring ladders -/

/-- What one lookup of a monitoring ladder checks. -/
theorem verifyMonitoringLookup_eq_ok {material : ℕ → Option (Octets × Option Octets)}
    {pp : PrefixProof} {j v off off' : ℕ} {root root' : Option Octets}
    (h : verifyMonitoringLookup P material pp j v off root = .ok (off', root')) :
    ∃ result out comm used r, pp.results[j]? = some result ∧ result.resultType = 1 ∧
      material v = some (out, some comm) ∧
      PrefixVerifier.computeRootFromResult P pp j out (some comm) off = .ok (r, used) ∧
      (∀ prev ∈ root, prev = r) ∧ root' = some r := by
  simp only [verifyMonitoringLookup, Result.bind_eq_ok, ensure_eq_ok, okOr_eq_ok] at h
  obtain ⟨⟨⟩, hincluded, ⟨out, comm⟩, hmaterial, comm', hcomm, ⟨r, used⟩, hcompute, computedRoot,
    hroot, h⟩ := h
  dsimp only at hcomm
  subst hcomm
  obtain ⟨hprev, rfl⟩ := agreeingRoot_eq_ok.1 hroot
  obtain ⟨-, rfl⟩ := Prod.mk.inj (Except.ok.inj h)
  obtain ⟨result, hresult, htype⟩ := (Option.any_eq_true _ _).1 hincluded
  exact ⟨result, out, comm', used, r, hresult, by simpa using htype, hmaterial, hcompute, hprev, rfl⟩

theorem verifyMonitoringLookups_root {material : ℕ → Option (Octets × Option Octets)}
    {pp : PrefixProof} : ∀ {versions : List ℕ} {j off off' : ℕ} {r : Octets} {root' : Option Octets},
    verifyMonitoringLookups P material pp j versions off (some r) = .ok (off', root') →
      root' = some r
  | [], j, off, off', r, root', h => (Prod.mk.inj (Except.ok.inj h)).2.symm
  | v :: versions, j, off, off', r, root', h => by
    obtain ⟨⟨off₁, root₁⟩, hlookup, h⟩ := Result.bind_eq_ok.1 h
    obtain ⟨_, _, _, _, r', -, -, -, -, hprev, rfl⟩ := verifyMonitoringLookup_eq_ok hlookup
    rw [hprev r rfl]
    exact verifyMonitoringLookups_root h

theorem verifyMonitoringLookups_sound (hP : Function.Injective P.sha256)
    (hZ : ∀ m, P.sha256 m ≠ zeroValue) {material : ℕ → Option (Octets × Option Octets)}
    {pp : PrefixProof} : ∀ {versions : List ℕ} {j off off' : ℕ} {root : Option Octets},
    verifyMonitoringLookups P material pp j versions off root =
      .ok (off', some (prefixRoot P contents)) →
    ∀ v ∈ versions, ∃ out comm, material v = some (out, some comm) ∧
      (IsKey out → contents out = some comm)
  | [], j, off, off', root, _ => fun v hv => absurd hv List.not_mem_nil
  | w :: versions, j, off, off', root, h => fun v hv => by
    obtain ⟨⟨off₁, root₁⟩, hlookup, hrest⟩ := Result.bind_eq_ok.1 h
    obtain ⟨result, out, comm, used, r, hresult, htype, hmaterial, hcompute, -, rfl⟩ :=
      verifyMonitoringLookup_eq_ok hlookup
    rcases List.mem_cons.1 hv with rfl | hv
    · obtain rfl := Option.some.inj (verifyMonitoringLookups_root hrest)
      exact ⟨out, comm, hmaterial, fun hkey =>
        ((computeRootFromResult_sound hP hZ hkey hresult hcompute).1 htype).2⟩
    · exact verifyMonitoringLookups_sound hP hZ hrest v hv

/-- **Soundness of a monitoring ladder.**  When its root is that of an entry's map, the
map holds the target with the retained commitment. -/
theorem verifyMonitoringLadder_sound (hP : Function.Injective P.sha256)
    (hZ : ∀ m, P.sha256 m ≠ zeroValue) {material : ℕ → Option (Octets × Option Octets)}
    {pp : PrefixProof} {target : ℕ} {root : Octets} (htarget : target ≤ maxVersion)
    (hroot : root = prefixRoot P contents)
    (h : verifyMonitoringLadder P material pp target = .ok root) :
    ∃ out comm, material target = some (out, some comm) ∧
      (IsKey out → contents out = some comm) := by
  simp only [verifyMonitoringLadder, Result.bind_eq_ok, ensure_eq_ok, okOr_eq_ok] at h
  obtain ⟨⟨⟩, -, ⟨off, computed⟩, hlookups, ⟨⟩, -, hcomputed⟩ := h
  dsimp only at hcomputed
  rw [hcomputed, hroot] at hlookups
  refine verifyMonitoringLookups_sound hP hZ hlookups target (List.mem_filter.2 ⟨?_, by simp⟩)
  exact mem_baseBinaryLadder_self (by
    unfold maxVersion at htarget
    omega)

end KtClient

end

end KeyTransparency
