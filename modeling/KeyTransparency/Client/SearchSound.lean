/-
# What an accepted search shows

A search ladder whose root is that of an entry's map shows how the versions in this map
relate to the target, and nothing else (`MapLog.relation`).  So a search walks where the
maps of the log say, and ends at an entry that they determine (`MapLog.terminal`), which
holds the target with the commitment that the client has computed
(`Accepted.search_shown`).  Nothing is assumed of which versions the maps hold beside each
other.
-/

import KeyTransparency.Client.AppendOnly
import KeyTransparency.Client.LadderInverse
import KeyTransparency.Client.Material
import KeyTransparency.Client.UpdateSound

namespace KeyTransparency

open BinaryLadder InOrder LogMath

/-- A log of maps, of which nothing else is known. -/
structure MapLog where
  size : ℕ
  timestamp : ℕ → U64
  contents : ℕ → Octets → Option Octets

/-- How the versions that exist relate to a target, as its search ladder shows it. -/
def relationTo (target : ℕ) (existing : ℕ → Bool) : Ordering :=
  relationAfter target .eq ((ladder.cut existing (searchEnds target)).map fun v => ⟨v, existing v⟩)

namespace MapLog

variable (M : MapLog) (key : ℕ → Octets)

/-- The leaf hashes of the log. -/
def leaves (P : Primitives) : List Octets := mapLeaves P M.timestamp M.contents M.size

/-- Whether a version exists at an entry. -/
def held (e v : ℕ) : Bool := (M.contents e (key v)).isSome

/-- How the versions at an entry relate to a target. -/
def relation (target e : ℕ) : Ordering := relationTo target (M.held key e)

/-- Where a search for a version goes at an entry. -/
def goes (lifetime : Option ℕ) (target e : ℕ) : Ordering :=
  if KtClient.isExpired lifetime (M.timestamp (M.size - 1)) (M.timestamp e) then .lt
  else M.relation key target e

/-- The entries that a search for a version walks over, from one on. -/
def route (lifetime : Option ℕ) (target : ℕ) : ℕ → ℕ → List ℕ
  | 0, _ => []
  | fuel + 1, e => e ::
    match M.goes key lifetime target e with
    | .eq => []
    | .lt => (if isLeaf e then none else ibstRightChild e M.size).elim [] (route lifetime target fuel)
    | .gt => if isLeaf e then [] else route lifetime target fuel (leftChild e)

/-- **The entry that a search ends at**: the first of the frontier whose greatest version is
the target; or, of the entries on the way to a fixed version, the one with this version as
its greatest, or the leftmost one with a greater version. -/
def terminal (lifetime : Option ℕ) (requested : Option ℕ) (target : ℕ) : Option ℕ :=
  match requested with
  | none => (getFrontier M.size).find? fun e => M.relation key target e = .eq
  | some _ =>
    let route := M.route key lifetime target 65 (root M.size)
    (route.find? fun e => M.goes key lifetime target e = .eq).or
      (route.filter fun e => M.goes key lifetime target e = .gt).min?

end MapLog

/-- The entries of a route are entries of the log. -/
theorem MapLog.route_lt {M : MapLog} {key : ℕ → Octets} {lifetime : Option ℕ} {target : ℕ}
    (hn : M.size < 2 ^ 64) : ∀ {fuel e : ℕ}, e < M.size → ∀ x ∈ M.route key lifetime target fuel e, x < M.size
  | 0, e, _, x, hx => by cases hx
  | fuel + 1, e, he, x, hx => by
    rw [route] at hx
    rcases List.mem_cons.1 hx with rfl | hx
    · exact he
    · have hright := @lt_of_rightChild e M.size
      generalize (if isLeaf e then none else ibstRightChild e M.size) = rightChild at hx hright
      cases hgo : M.goes key lifetime target e with
      | eq =>
        rw [hgo] at hx
        cases hx
      | lt =>
        rw [hgo] at hx
        cases rightChild with
        | none => cases hx
        | some rc => exact route_lt hn (hright rfl) x hx
      | gt =>
        rw [hgo] at hx
        dsimp only at hx
        split_ifs at hx
        · cases hx
        · exact route_lt hn ((leftChild_le (by omega)).trans_lt he) x hx

theorem MapLog.terminal_lt {M : MapLog} {key : ℕ → Octets} {lifetime requested : Option ℕ} {target e : ℕ}
    (h₀ : 0 < M.size) (hn : M.size ≤ 2 ^ 62) (h : M.terminal key lifetime requested target = some e) :
    e < M.size := by
  cases requested with
  | none => exact mem_getFrontier_lt hn (List.mem_of_find?_eq_some h)
  | some v =>
    have hroute := @route_lt M key lifetime target (by omega) 65 _ (root_lt h₀ (by omega))
    rcases Option.or_eq_some_iff.1 h with h | ⟨-, h⟩
    · exact hroute e (List.mem_of_find?_eq_some h)
    · exact hroute e (List.mem_filter.1 (List.min?_eq_some_iff.1 h).1).1

/-! ### What a ladder shows -/

section

variable {P : Primitives} {c : KtClient} {label : Octets} {key : ℕ → Octets}
  {contents : Octets → Option Octets} {binaryLadder : List BinaryLadderStep} {pp : PrefixProof}
  {target : ℕ} {comm : Octets} {greatest isRightmost : Bool}

/-- Where the lookups leave no relation, none of them has ended the search. -/
theorem open_of_relationAfter {t : ℕ} : ∀ {lookups : List DecodedLookup} {relation : Ordering},
    relationAfter t relation lookups = .eq →
    relation = .eq ∧ ∀ lk ∈ lookups, searchEnds t lk.version lk.inclusion = false
  | [], relation, h => ⟨h, fun lk hlk => absurd hlk List.not_mem_nil⟩
  | lk :: lookups, relation, h => by
    rw [relationAfter_cons] at h
    obtain ⟨hrelation, hopen⟩ := open_of_relationAfter h
    cases hends : searchEnds t lk.version lk.inclusion with
    | true =>
      rw [hends, if_pos rfl, DecodedLookup.side] at hrelation
      split_ifs at hrelation
    | false =>
      rw [hends, if_neg Bool.false_ne_true] at hrelation
      refine ⟨hrelation, fun x hx => ?_⟩
      rcases List.mem_cons.1 hx with rfl | hx
      · exact hends
      · exact hopen x hx

/-- An undecided ladder has found nothing that tells the versions from those up to the
target. -/
theorem undecided_of_relationTo {existing : ℕ → Bool} (h : relationTo target existing = .eq) :
    ∀ v ∈ ladder.cut existing (searchEnds target), existing v = decide (v ≤ target) := by
  intro v hv
  have hopen : searchEnds target v (existing v) = false :=
    (open_of_relationAfter h).2 ⟨v, existing v⟩ (List.mem_map.2 ⟨v, hv, rfl⟩)
  cases hexists : existing v with
  | true => simpa [searchEnds, hexists] using hopen
  | false => simpa [searchEnds, hexists] using hopen

/-- **An undecided ladder asks for its target**, and finds it. -/
theorem mem_cut_of_relationTo {existing : ℕ → Bool} (htarget : target ≤ maxVersion)
    (h : relationTo target existing = .eq) :
    ladder.cut existing (searchEnds target) = baseBinaryLadder target ∧ existing target = true := by
  have hundecided := undecided_of_relationTo h
  have hpath : ladder.cut existing (searchEnds target) = ladder.path existing :=
    ProbeTree.cut_eq_path fun v hv => by
      rw [hundecided v hv, searchEnds]
      by_cases hle : v ≤ target
      · simp [hle]
      · simp [hle]
  have hbase : ladder.cut existing (searchEnds target) = baseBinaryLadder target := by
    rw [hpath, baseBinaryLadder_eq]
    exact ProbeTree.path_congr fun v hv => hundecided v (hpath ▸ hv)
  have hself : target ∈ baseBinaryLadder target := mem_baseBinaryLadder_self (by
    unfold maxVersion at htarget
    omega)
  refine ⟨hbase, ?_⟩
  rw [hundecided target (hbase ▸ hself)]
  exact decide_eq_true le_rfl

/-- The material of a search was seen in the maps of the entries it has been at. -/
def Ladders.MaterialSeen (s : Ladders) (seen : ℕ → Octets → Prop) : Prop :=
  ∀ {v : ℕ} {m : Option Octets}, s.material v = some m → ∃ comm, m = some comm ∧ seen v comm

theorem Ladders.MaterialSeen.mono {s : Ladders} {seen seen' : ℕ → Octets → Prop}
    (h : s.MaterialSeen seen) (hseen : ∀ v comm, seen v comm → seen' v comm) :
    s.MaterialSeen seen' := fun hm => by
  obtain ⟨comm, rfl, hcomm⟩ := h hm
  exact ⟨comm, rfl, hseen _ _ hcomm⟩

namespace KtClient

theorem ladderStep_context {input : Result Octets} {msg msg' : String} {v : ℕ} {s : Ladders}
    {r : BinaryLadderStep × Octets × Ladders} :
    c.ladderStep P (input.context msg) msg' binaryLadder v s = .ok r ↔
      c.ladderStep P input msg' binaryLadder v s = .ok r := by
  unfold ladderStep
  cases s.vrfCache v with
  | some out => rfl
  | none => simp only [Result.bind_eq_ok, Result.context_eq_ok]

/-- What one lookup of a search ladder checks. -/
theorem verifyLookup_eq_ok {j : ℕ} {lk : DecodedLookup} {s s' : LadderFold}
    (h : c.verifyLookup P label pp target binaryLadder comm greatest isRightmost j lk s = .ok s') :
    ∃ step out ladders commitment root used,
      lookupRelation target greatest isRightmost lk s.relation = .ok s'.relation ∧
      c.ladderStep P (constructVrfInput label lk.version)
        s!"Binary ladder VRF verify failed at v={lk.version}" binaryLadder lk.version s.ladders =
          .ok (step, out, ladders) ∧
      lookupCommitment target comm greatest lk step = .ok commitment ∧
      PrefixVerifier.computeRootFromResult P pp j out commitment s.elementsOffset = .ok (root, used) ∧
      (∀ prev ∈ s.computedRoot, prev = root) ∧ s'.computedRoot = some root ∧
      s'.ladders = { ladders with material := (if lk.inclusion then
        Function.update ladders.material lk.version (some commitment) else ladders.material) } := by
  simp only [verifyLookup, Result.bind_eq_ok] at h
  obtain ⟨relation, hrel, ⟨step, out, ladders⟩, hstep, commitment, hcomm, ⟨root, used⟩, hcompute,
    computedRoot, hroot, h⟩ := h
  obtain rfl := Except.ok.inj h
  obtain ⟨hprev, rfl⟩ := agreeingRoot_eq_ok.1 hroot
  exact ⟨step, out, ladders, commitment, root, used, hrel, ladderStep_context.1 hstep, hcomm, hcompute, hprev,
    rfl, rfl⟩

theorem verifyLookups_root : ∀ {decoded : List DecodedLookup} {j : ℕ} {s s' : LadderFold} {r : Octets},
    s.computedRoot = some r →
    c.verifyLookups P label pp target binaryLadder comm greatest isRightmost j decoded s = .ok s' →
    s'.computedRoot = some r
  | [], j, s, s', r, hr, h => by
    obtain rfl := Except.ok.inj h
    exact hr
  | lk :: decoded, j, s, s', r, hr, h => by
    obtain ⟨s₁, hlookup, h⟩ := Result.bind_eq_ok.1 h
    obtain ⟨_, _, _, _, root, _, -, -, -, -, hprev, hroot, -⟩ := verifyLookup_eq_ok hlookup
    rw [hprev r hr] at *
    exact verifyLookups_root hroot h

/-- At the rightmost entry of a search for the greatest version no lookup tells the
versions from those up to the target. -/
theorem lookupRelation_rightmost {lk : DecodedLookup} {relation relation' : Ordering}
    (hgreatest : greatest = true) (hright : isRightmost = true)
    (h : lookupRelation target greatest isRightmost lk relation = .ok relation') :
    searchEnds target lk.version lk.inclusion = false := by
  subst hgreatest hright
  unfold lookupRelation at h
  cases hinc : lk.inclusion with
  | true =>
    by_cases hlt : target < lk.version
    · rw [if_pos ⟨hinc, hlt⟩, if_pos rfl] at h
      cases h
    · simpa [searchEnds] using hlt
  | false =>
    by_cases hle : lk.version ≤ target
    · rw [if_neg (by simp [hinc]), if_pos ⟨hinc, hle⟩, if_pos ⟨rfl, rfl⟩] at h
      cases h
    · simpa [searchEnds] using hle

/-- The commitment that a lookup for an existing version is verified with. -/
theorem lookupCommitment_target {lk : DecodedLookup} {step : BinaryLadderStep} {commitment : Option Octets}
    (h : lookupCommitment target comm greatest lk step = .ok commitment) :
    (lk.inclusion = true → lk.version = target → commitment = some comm) ∧
      (lk.inclusion = true → commitment ≠ none) := by
  unfold lookupCommitment at h
  split_ifs at h with hinc hversion
  · obtain ⟨⟨⟩, -, h⟩ := Result.bind_eq_ok.1 h
    obtain rfl := Except.ok.inj h
    exact ⟨fun _ _ => rfl, fun _ => Option.some_ne_none _⟩
  · obtain ⟨comm', -, h⟩ := Result.bind_eq_ok.1 h
    obtain rfl := Except.ok.inj h
    exact ⟨fun _ hv => absurd hv hversion, fun _ => Option.some_ne_none _⟩
  · exact ⟨fun hi => absurd hi hinc, fun hi => absurd hi hinc⟩

/-- **The lookups are answered by the map** whose root they lead to. -/
theorem verifyLookups_shown (hP : Function.Injective P.sha256) (hZ : ∀ m, P.sha256 m ≠ zeroValue)
    (hkeys : c.KeysAre P label key) {seen : ℕ → Octets → Prop}
    (hseen : ∀ v comm, contents (key v) = some comm → seen v comm) :
    ∀ {decoded : List DecodedLookup} {j : ℕ} {s s' : LadderFold},
    s.ladders.CacheTrue key → s.ladders.MaterialSeen seen →
    DecodedLookup.answers pp.results j = decoded.map DecodedLookup.inclusion →
    c.verifyLookups P label pp target binaryLadder comm greatest isRightmost j decoded s = .ok s' →
    s'.computedRoot = some (prefixRoot P contents) →
    (∀ lk ∈ decoded, lk.inclusion = (contents (key lk.version)).isSome) ∧
      (∀ lk ∈ decoded, lk.inclusion = true → lk.version = target → contents (key target) = some comm) ∧
      (greatest = true → isRightmost = true →
        ∀ lk ∈ decoded, searchEnds target lk.version lk.inclusion = false) ∧
      s'.ladders.CacheTrue key ∧ s'.ladders.MaterialSeen seen
  | [], j, s, s', hcache, hmat, _, h, _ => by
    obtain rfl := Except.ok.inj h
    exact ⟨fun lk hlk => absurd hlk List.not_mem_nil, fun lk hlk => absurd hlk List.not_mem_nil,
      fun _ _ lk hlk => absurd hlk List.not_mem_nil, hcache, hmat⟩
  | lk :: decoded, j, s, s', hcache, hmat, hans, h, hroot => by
    obtain ⟨s₁, hlookup, h⟩ := Result.bind_eq_ok.1 h
    obtain ⟨step, out, ladders, commitment, root, used, hrel, hstep, hcomm, hcompute, -, hroot₁, hladders⟩ :=
      verifyLookup_eq_ok hlookup
    obtain ⟨htarget, hsome⟩ := lookupCommitment_target hcomm
    obtain ⟨rfl, hkey, hcache₁⟩ := ladderStep_sound hkeys hcache hstep
    have hends : root = prefixRoot P contents :=
      Option.some.inj ((verifyLookups_root hroot₁ h).symm.trans hroot)
    rw [hends] at hcompute
    obtain ⟨result, hresult, htype, hrest⟩ := DecodedLookup.answers_eq_cons.1 hans
    obtain ⟨hincluded, habsent⟩ := computeRootFromResult_sound hP hZ hkey hresult hcompute
    -- the lookup is answered by the map
    have hhere : lk.inclusion = (contents (key lk.version)).isSome ∧
        (lk.inclusion = true → contents (key lk.version) = commitment) := by
      rw [← htype]
      by_cases hone : result.resultType = 1
      · obtain ⟨hne, hcontents⟩ := hincluded hone
        rw [hcontents, decide_eq_true hone]
        exact ⟨(Option.isSome_iff_ne_none.2 hne).symm, fun _ => rfl⟩
      · rw [habsent hone, decide_eq_false hone]
        exact ⟨rfl, fun h => absurd h (by simp)⟩
    have hmat₁ : s₁.ladders.MaterialSeen seen := by
      intro v m hm
      rw [hladders] at hm
      have hkept : ladders.material = s.ladders.material := (ladderStep_eq_ok hstep).1
      dsimp only at hm
      by_cases hinc : lk.inclusion = true
      · rw [if_pos hinc] at hm
        by_cases hv : v = lk.version
        · subst hv
          rw [Function.update_self] at hm
          obtain rfl := Option.some.inj hm
          obtain ⟨comm', rfl⟩ := Option.ne_none_iff_exists'.1 (hsome hinc)
          exact ⟨comm', rfl, hseen _ _ (hhere.2 hinc)⟩
        · rw [Function.update_of_ne hv, hkept] at hm
          exact hmat hm
      · rw [if_neg hinc, hkept] at hm
        exact hmat hm
    have hcache₁' : s₁.ladders.CacheTrue key := fun hv => hcache₁ (by rwa [hladders] at hv)
    obtain ⟨htrue, htargets, hrightmost, hcache', hmat'⟩ :=
      verifyLookups_shown hP hZ hkeys hseen hcache₁' hmat₁ hrest h hroot
    refine ⟨fun lk' hlk' => ?_, fun lk' hlk' hinc hversion => ?_, fun hg hr lk' hlk' => ?_, hcache', hmat'⟩
    · rcases List.mem_cons.1 hlk' with rfl | hlk'
      · exact hhere.1
      · exact htrue lk' hlk'
    · rcases List.mem_cons.1 hlk' with rfl | hlk'
      · rw [← htarget hinc hversion, ← hversion]
        exact hhere.2 hinc
      · exact htargets lk' hlk' hinc hversion
    · rcases List.mem_cons.1 hlk' with rfl | hlk'
      · exact lookupRelation_rightmost hg hr hrel
      · exact hrightmost hg hr lk' hlk'

/-- **A search ladder shows the relation** of the map whose root it leads to; where that is
equality, the map holds the target with the commitment that the client has computed.  At
the rightmost entry of a search for the greatest version it is. -/
theorem verifyLadderProof_shown (hP : Function.Injective P.sha256) (hZ : ∀ m, P.sha256 m ≠ zeroValue)
    (hkeys : c.KeysAre P label key) (htarget : target ≤ maxVersion) {seen : ℕ → Octets → Prop}
    (hseen : ∀ v comm, contents (key v) = some comm → seen v comm) {root : Octets} {relation : Ordering}
    {s s' : Ladders} (hcache : s.CacheTrue key) (hmat : s.MaterialSeen seen) (hroot : root = prefixRoot P contents)
    (h : c.verifyLadderProof P label pp target binaryLadder comm greatest isRightmost s =
      .ok (root, relation, s')) :
    relation = relationTo target (fun v => (contents (key v)).isSome) ∧
      (relation = .eq → contents (key target) = some comm) ∧
      (greatest = true → isRightmost = true → relation = .eq) ∧
      s'.CacheTrue key ∧ s'.MaterialSeen seen := by
  have hladder := h
  simp only [verifyLadderProof, Result.bind_eq_ok, Result.context_eq_ok, ensure_eq_ok, okOr_eq_ok] at h
  obtain ⟨decoded, hdecode, fold, hlookups, ⟨⟩, -, ⟨⟩, -, root', hcomputed, h⟩ := h
  obtain ⟨rfl, hrest⟩ := Prod.mk.inj (Except.ok.inj h)
  obtain ⟨rfl, rfl⟩ := Prod.mk.inj hrest
  have hafter := verifyLadderProof_relation hdecode hladder
  rw [hroot] at hcomputed
  have hans := (decodeSearchLadder_eq_ok.1 hdecode).2
  obtain ⟨htrue, htargets, hrightmost, hcache', hmat'⟩ :=
    verifyLookups_shown hP hZ hkeys hseen hcache hmat (j := 0) hans hlookups hcomputed
  have hcut := @decoded_eq _ _ _ (fun v => (contents (key v)).isSome) hdecode htrue
  have hrelation : fold.relation = relationTo target (fun v => (contents (key v)).isSome) := by
    rw [hafter, hcut]
    rfl
  refine ⟨hrelation, fun heq => ?_, fun hg hr => ?_, hcache', hmat'⟩
  · rw [hrelation] at heq
    obtain ⟨hbase, hexists⟩ := mem_cut_of_relationTo htarget heq
    have hself : target ∈ baseBinaryLadder target := mem_baseBinaryLadder_self (by
      unfold maxVersion at htarget
      omega)
    refine htargets ⟨target, true⟩ ?_ rfl rfl
    rw [hcut, hbase]
    exact List.mem_map.2 ⟨target, hself, by rw [hexists]⟩
  · rw [hafter]
    exact relationAfter_of_open (hrightmost hg hr)

/-- **The lookup of step 6**: the map whose root it leads to holds the target. -/
theorem verifySingleLookup_shown (hP : Function.Injective P.sha256) (hZ : ∀ m, P.sha256 m ≠ zeroValue)
    (hkeys : c.KeysAre P label key) {seen : ℕ → Octets → Prop} {root : Octets} {s s' : Ladders}
    (hcache : s.CacheTrue key) (hmat : s.MaterialSeen seen) (hroot : root = prefixRoot P contents)
    (h : c.verifySingleLookup P label pp target binaryLadder comm s = .ok (root, true, s')) :
    contents (key target) = some comm ∧ s'.CacheTrue key ∧ s'.MaterialSeen seen := by
  simp only [verifySingleLookup, Result.bind_eq_ok, ensure_eq_ok] at h
  obtain ⟨⟨⟩, hlen, ⟨step, out, ladders⟩, hstep, ⟨root', used⟩, hcompute, ⟨⟩, -, h⟩ := h
  obtain ⟨rfl, hrest⟩ := Prod.mk.inj (Except.ok.inj h)
  obtain ⟨hinc, rfl⟩ := Prod.mk.inj hrest
  obtain ⟨rfl, hkey, hcache'⟩ := ladderStep_sound hkeys hcache hstep
  obtain ⟨r, hr⟩ := List.length_eq_one_iff.1 hlen
  dsimp only at hcompute hinc hroot
  rw [hinc, if_pos rfl] at hcompute
  rw [hroot] at hcompute
  rw [hr, List.head?_cons, Option.any_some, decide_eq_true_eq] at hinc
  obtain ⟨-, hcontents⟩ := (computeRootFromResult_sound hP hZ hkey (by rw [hr]; rfl) hcompute).1 hinc
  have hkept : ladders.material = s.material := (ladderStep_eq_ok hstep).1
  refine ⟨hcontents, hcache', fun hm => hmat ?_⟩
  rw [← hkept]
  exact hm

end KtClient

end

/-! ### What was read -/

/-- A reader and the roots recorded with it say of a log what it holds. -/
structure MapLog.ReadTrue (P : Primitives) (M : MapLog) (reader : ProofReader) (entryRoots : NodeMap) :
    Prop where
  below : ∀ e ∈ reader.assignedTs.entries, e.1 < M.size
  timestamp : ∀ {e : ℕ} {ts : U64}, (e, ts) ∈ reader.assignedTs.entries → ts = M.timestamp e
  root : ∀ {e : ℕ} {ts : U64} {root : Octets}, (e, ts) ∈ reader.assignedTs.entries →
    entryRoots e = some root → root = prefixRoot P (M.contents e)

/-- **What the ladders of a search leave behind**: keys, and what was seen in the maps. -/
structure Ladders.Shown (M : MapLog) (key : ℕ → Octets) (s : Ladders) : Prop where
  cache : s.CacheTrue key
  material : s.MaterialSeen fun v comm => ∃ e < M.size, M.contents e (key v) = some comm

section

variable {P : Primitives} {env : Env} {c c' : KtClient} {label : Octets} {key : ℕ → Octets} {M : MapLog}
  {binaryLadder : List BinaryLadderStep} {target n e : ℕ} {comm : Octets} {greatest isRightmost : Bool}
  {lifetime : Option ℕ}

theorem Ladders.shown_new (wireIndex : List ℕ) : (Ladders.new wireIndex).Shown M key :=
  ⟨Ladders.cacheTrue_new wireIndex, fun hm => by cases hm⟩

/-- What is true afterwards was true before. -/
theorem MapLog.ReadTrue.of_extends {r r' : ProofReader} {roots roots' : NodeMap}
    (h : M.ReadTrue P r' roots') (hext : r.Extends n r') (hkept : RootsKept roots roots') :
    M.ReadTrue P r roots :=
  ⟨fun e he => h.below e (hext.keeps he), fun he => h.timestamp (hext.keeps he),
    fun he hroot => h.root (hext.keeps he) (hkept _ _ hroot)⟩

theorem MapLog.goes_eq_gt : M.goes key lifetime target e = .gt ↔
    KtClient.isExpired lifetime (M.timestamp (M.size - 1)) (M.timestamp e) = false ∧
      M.relation key target e = .gt := by
  unfold goes
  cases KtClient.isExpired lifetime (M.timestamp (M.size - 1)) (M.timestamp e) with
  | true => simp
  | false => simp

namespace KtClient

/-! ### The walks -/

theorem verifyEntryLadder_kept {relation : Ordering} {s s' : SearchState}
    (h : c.verifyEntryLadder P label target binaryLadder comm greatest isRightmost e s =
      .ok (relation, s')) :
    s'.reader.assignedTs = s.reader.assignedTs ∧ RootsKept s.entryRoots s'.entryRoots := by
  simp only [verifyEntryLadder, Result.bind_eq_ok] at h
  obtain ⟨⟨pp, reader⟩, hpp, ⟨root, relation', ladders⟩, -, entryRoots, hrecord, h⟩ := h
  obtain ⟨-, rfl⟩ := Prod.mk.inj (Except.ok.inj h)
  exact ⟨ProofReader.prefixProof_assignedTs hpp, (ProofReader.recordEntryRoot_kept hrecord).1⟩

/-- **The ladder of an entry shows its relation.** -/
theorem verifyEntryLadder_shown (hP : Function.Injective P.sha256) (hZ : ∀ m, P.sha256 m ≠ zeroValue)
    (hkeys : c.KeysAre P label key) (htarget : target ≤ maxVersion) {relation : Ordering}
    {s s' : SearchState} (hs : s.ladders.Shown M key) {ts : U64} (hread : (e, ts) ∈ s.reader.assignedTs.entries)
    (htrue : M.ReadTrue P s'.reader s'.entryRoots)
    (h : c.verifyEntryLadder P label target binaryLadder comm greatest isRightmost e s =
      .ok (relation, s')) :
    relation = M.relation key target e ∧ (relation = .eq → M.contents e (key target) = some comm) ∧
      (greatest = true → isRightmost = true → relation = .eq) ∧ s'.ladders.Shown M key := by
  obtain ⟨hassigned, -⟩ := verifyEntryLadder_kept h
  rw [← hassigned] at hread
  simp only [verifyEntryLadder, Result.bind_eq_ok, Result.context_eq_ok] at h
  obtain ⟨⟨pp, reader⟩, hpp, ⟨root, relation', ladders⟩, hladder, entryRoots, hrecord, h⟩ := h
  obtain ⟨rfl, rfl⟩ := Prod.mk.inj (Except.ok.inj h)
  have hroot : root = prefixRoot P (M.contents e) :=
    htrue.root hread (ProofReader.recordEntryRoot_kept hrecord).2
  obtain ⟨hrelation, hheld, hright, hcache, hmat⟩ := verifyLadderProof_shown hP hZ hkeys htarget
    (fun v comm' hv => ⟨e, htrue.below _ hread, hv⟩) hs.cache hs.material hroot hladder
  exact ⟨hrelation, hheld, hright, hcache, hmat⟩

theorem greatestWalk_kept {rightmost : ℕ} : ∀ {entries : List ℕ} {first first' : Option ℕ}
    {s s' : SearchState},
    c.greatestWalk P label target binaryLadder comm rightmost entries first s = .ok (first', s') →
    s'.reader.assignedTs = s.reader.assignedTs ∧ RootsKept s.entryRoots s'.entryRoots
  | [], first, first', s, s', h => by
    obtain ⟨-, rfl⟩ := Prod.mk.inj (Except.ok.inj h)
    exact ⟨rfl, .refl _⟩
  | e :: entries, first, first', s, s', h => by
    obtain ⟨⟨relation, s₁⟩, h₁, h₂⟩ := Result.bind_eq_ok.1 h
    obtain ⟨hassigned, hkept⟩ := verifyEntryLadder_kept h₁
    obtain ⟨hassigned', hkept'⟩ := greatestWalk_kept h₂
    exact ⟨hassigned'.trans hassigned, hkept.trans hkept'⟩

/-- **A search for the greatest version** finds the first entry of the frontier that has
it, and the rightmost one has it. -/
theorem greatestWalk_shown (hP : Function.Injective P.sha256) (hZ : ∀ m, P.sha256 m ≠ zeroValue)
    (hkeys : c.KeysAre P label key) (htarget : target ≤ maxVersion) {rightmost : ℕ} :
    ∀ {entries : List ℕ} {first first' : Option ℕ} {s s' : SearchState}, s.ladders.Shown M key →
    (∀ e ∈ entries, ∃ ts, (e, ts) ∈ s.reader.assignedTs.entries) → M.ReadTrue P s'.reader s'.entryRoots →
    c.greatestWalk P label target binaryLadder comm rightmost entries first s = .ok (first', s') →
    first' = first.or (entries.find? fun e => M.relation key target e = .eq) ∧
      (∀ e ∈ entries, M.relation key target e = .eq → M.contents e (key target) = some comm) ∧
      (rightmost ∈ entries → M.relation key target rightmost = .eq) ∧ s'.ladders.Shown M key
  | [], first, first', s, s', hs, _, _, h => by
    obtain ⟨rfl, rfl⟩ := Prod.mk.inj (Except.ok.inj h)
    exact ⟨by rw [List.find?_nil, Option.or_none], fun e he => absurd he List.not_mem_nil,
      fun he => absurd he List.not_mem_nil, hs⟩
  | e :: entries, first, first', s, s', hs, hread, htrue, h => by
    obtain ⟨⟨relation, s₁⟩, h₁, h₂⟩ := Result.bind_eq_ok.1 h
    obtain ⟨hassigned, hkept⟩ := verifyEntryLadder_kept h₁
    obtain ⟨hassigned', hkept'⟩ := greatestWalk_kept h₂
    dsimp only at h₂ hassigned hassigned' hkept' hkept
    have hsame : s'.reader.assignedTs = s.reader.assignedTs := hassigned'.trans hassigned
    have htrue₁ : M.ReadTrue P s₁.reader s₁.entryRoots :=
      htrue.of_extends (n := 0) ⟨fun he => hassigned' ▸ he, fun he => .inl (hassigned' ▸ he)⟩ hkept'
    obtain ⟨ts, hts⟩ := hread e List.mem_cons_self
    obtain ⟨rfl, hheld, hright, hs₁⟩ := verifyEntryLadder_shown hP hZ hkeys htarget hs hts htrue₁ h₁
    obtain ⟨hfirst, hall, hlast, hs'⟩ := greatestWalk_shown hP hZ hkeys htarget hs₁
      (fun x hx => hassigned ▸ hread x (List.mem_cons_of_mem _ hx)) htrue h₂
    refine ⟨?_, fun x hx heq => ?_, fun hx => ?_, hs'⟩
    · rw [hfirst]
      by_cases heq : M.relation key target e = .eq
      · rw [List.find?_cons_of_pos (by simpa using heq)]
        cases first with
        | none => rw [if_pos ⟨heq, rfl⟩]; rfl
        | some x => rw [if_neg (by simp)]; rfl
      · rw [List.find?_cons_of_neg (by simpa using heq), if_neg fun hboth => heq hboth.1]
    · rcases List.mem_cons.1 hx with rfl | hx
      · exact hheld heq
      · exact hall x hx heq
    · rcases List.mem_cons.1 hx with rfl | hx
      · exact hright rfl (beq_self_eq_true _)
      · exact hlast hx

/-- What one turn of the walk to a fixed version keeps and reads. -/
theorem fixedStep_kept {treeSize : ℕ} {rightmostTs : U64} {turn : Walk} {w w' : FixedWalk}
    (h : c.fixedStep P label treeSize target binaryLadder comm rightmostTs e w = .ok (turn, w')) :
    RootsKept w.entryRoots w'.entryRoots ∧ ∃ ts, (e, ts) ∈ w'.reader.assignedTs.entries := by
  simp only [fixedStep, Result.bind_eq_ok] at h
  obtain ⟨⟨ts, reader⟩, hts, h⟩ := h
  have hread := ProofReader.mem_of_timestamp hts
  dsimp only at h
  generalize (if isLeaf e then none else ibstRightChild e treeSize) = rightChild at h
  by_cases hexp : isExpired c.config.maximumLifetime rightmostTs ts = true
  · rw [if_pos hexp] at h
    cases rightChild <;>
      · obtain ⟨-, rfl⟩ := Prod.mk.inj (Except.ok.inj h)
        exact ⟨.refl _, ts, hread⟩
  · rw [if_neg hexp] at h
    obtain ⟨⟨relation, s⟩, hladder, h⟩ := Result.bind_eq_ok.1 h
    obtain ⟨hassigned, hkept⟩ := verifyEntryLadder_kept hladder
    have hread' : (e, ts) ∈ s.reader.assignedTs.entries := hassigned ▸ hread
    cases relation with
    | lt =>
      cases rightChild <;>
        · obtain ⟨-, rfl⟩ := Prod.mk.inj (Except.ok.inj h)
          exact ⟨hkept, ts, hread'⟩
    | gt =>
      cases hleaf : isLeaf e <;> simp only [hleaf] at h <;>
        · obtain ⟨-, rfl⟩ := Prod.mk.inj (Except.ok.inj h)
          exact ⟨hkept, ts, hread'⟩
    | eq =>
      dsimp only at h
      split_ifs at h
      · obtain ⟨-, rfl⟩ := Prod.mk.inj (Except.ok.inj h)
        exact ⟨hkept, ts, hread'⟩
      · cases h

theorem fixedLoop_kept {treeSize : ℕ} {rightmostTs : U64} : ∀ {fuel curr : ℕ}
    {terminal : Option ℕ} {w w' : FixedWalk},
    c.fixedLoop P label treeSize target binaryLadder comm rightmostTs fuel curr w =
      .ok (terminal, w') → RootsKept w.entryRoots w'.entryRoots
  | 0, curr, terminal, w, w', h => by cases h
  | fuel + 1, curr, terminal, w, w', h => by
    obtain ⟨⟨turn, w₁⟩, hstep, h⟩ := Result.bind_eq_ok.1 h
    have hkept := (fixedStep_kept hstep).1
    cases turn with
    | goto entry => exact hkept.trans (fixedLoop_kept h)
    | stop =>
      obtain ⟨-, rfl⟩ := Prod.mk.inj (Except.ok.inj h)
      exact hkept
    | terminal entry =>
      obtain ⟨-, rfl⟩ := Prod.mk.inj (Except.ok.inj h)
      exact hkept

/-- Where a turn of the walk leads. -/
def turnOf (goes : Ordering) (n e : ℕ) : Walk :=
  match goes with
  | .eq => .terminal e
  | .lt => (if isLeaf e then none else ibstRightChild e n).elim .stop .goto
  | .gt => if isLeaf e then .stop else .goto (leftChild e)

/-- **One turn goes where the log says.** -/
theorem fixedStep_shown (hP : Function.Injective P.sha256) (hZ : ∀ m, P.sha256 m ≠ zeroValue)
    (hkeys : c.KeysAre P label key) (htarget : target ≤ maxVersion)
    (hlifetime : c.config.maximumLifetime = lifetime) {turn : Walk} {w w' : FixedWalk}
    (hs : w.ladders.Shown M key) (htrue : M.ReadTrue P w'.reader w'.entryRoots)
    (h : c.fixedStep P label M.size target binaryLadder comm (M.timestamp (M.size - 1)) e w =
      .ok (turn, w')) :
    turn = turnOf (M.goes key lifetime target e) M.size e ∧
      w'.inspected = w.inspected ++ (if isExpired lifetime (M.timestamp (M.size - 1)) (M.timestamp e) then []
        else [(e, M.relation key target e)]) ∧
      (M.goes key lifetime target e = .eq → M.contents e (key target) = some comm) ∧
      w'.ladders.Shown M key := by
  simp only [fixedStep, Result.bind_eq_ok] at h
  obtain ⟨⟨ts, reader⟩, hts, h⟩ := h
  have hread := ProofReader.mem_of_timestamp hts
  unfold turnOf MapLog.goes
  dsimp only at h
  rw [hlifetime] at h
  generalize (if isLeaf e then none else ibstRightChild e M.size) = rightChild at h ⊢
  by_cases hexp : isExpired lifetime (M.timestamp (M.size - 1)) ts = true
  · rw [if_pos hexp] at h
    cases hright : rightChild with
    | none =>
      rw [hright] at h
      obtain ⟨rfl, rfl⟩ := Prod.mk.inj (Except.ok.inj h)
      obtain rfl := htrue.timestamp hread
      simp only [if_pos hexp]
      exact ⟨rfl, (List.append_nil _).symm, fun hlt => (by cases hlt), hs⟩
    | some rc =>
      rw [hright] at h
      obtain ⟨rfl, rfl⟩ := Prod.mk.inj (Except.ok.inj h)
      obtain rfl := htrue.timestamp hread
      simp only [if_pos hexp]
      exact ⟨rfl, (List.append_nil _).symm, fun hlt => (by cases hlt), hs⟩
  · rw [if_neg hexp] at h
    obtain ⟨⟨relation, s⟩, hladder, h⟩ := Result.bind_eq_ok.1 h
    obtain ⟨hassigned, -⟩ := verifyEntryLadder_kept hladder
    dsimp only at hassigned h
    have hread' : (e, ts) ∈ s.reader.assignedTs.entries := hassigned ▸ hread
    -- whatever the turn, it is the state after the ladder that is read on from
    have hshown : ∀ {w'' : FixedWalk}, w''.toSearchState = s → M.ReadTrue P w''.reader w''.entryRoots →
        ts = M.timestamp e ∧ relation = M.relation key target e ∧
          (relation = .eq → M.contents e (key target) = some comm) ∧ s.ladders.Shown M key := by
      intro w'' hw htrue
      have htrue' : M.ReadTrue P s.reader s.entryRoots := hw ▸ htrue
      obtain ⟨hrelation, hheld, -, hs'⟩ := @verifyEntryLadder_shown P c label key M binaryLadder target e comm
        false false hP hZ hkeys htarget relation { w.toSearchState with reader := reader } s hs ts hread htrue'
        hladder
      exact ⟨htrue'.timestamp hread', hrelation, hheld, hs'⟩
    cases relation with
    | lt =>
      cases hright : rightChild with
      | none =>
        rw [hright] at h
        obtain ⟨rfl, rfl⟩ := Prod.mk.inj (Except.ok.inj h)
        obtain ⟨rfl, hrelation, -, hs'⟩ := hshown rfl htrue
        rw [if_neg hexp, if_neg hexp, ← hrelation]
        exact ⟨rfl, rfl, fun hlt => (by cases hlt), hs'⟩
      | some rc =>
        rw [hright] at h
        obtain ⟨rfl, rfl⟩ := Prod.mk.inj (Except.ok.inj h)
        obtain ⟨rfl, hrelation, -, hs'⟩ := hshown rfl htrue
        rw [if_neg hexp, if_neg hexp, ← hrelation]
        exact ⟨rfl, rfl, fun hlt => (by cases hlt), hs'⟩
    | gt =>
      cases hleaf : isLeaf e with
      | true =>
        rw [hleaf] at h
        obtain ⟨rfl, rfl⟩ := Prod.mk.inj (Except.ok.inj h)
        obtain ⟨rfl, hrelation, -, hs'⟩ := hshown rfl htrue
        rw [if_neg hexp, if_neg hexp, ← hrelation]
        exact ⟨rfl, rfl, fun hlt => (by cases hlt), hs'⟩
      | false =>
        rw [hleaf] at h
        obtain ⟨rfl, rfl⟩ := Prod.mk.inj (Except.ok.inj h)
        obtain ⟨rfl, hrelation, -, hs'⟩ := hshown rfl htrue
        rw [if_neg hexp, if_neg hexp, ← hrelation]
        exact ⟨rfl, rfl, fun hlt => (by cases hlt), hs'⟩
    | eq =>
      dsimp only at h
      split_ifs at h
      · obtain ⟨rfl, rfl⟩ := Prod.mk.inj (Except.ok.inj h)
        obtain ⟨rfl, hrelation, hheld, hs'⟩ := hshown rfl htrue
        rw [if_neg hexp, if_neg hexp, ← hrelation]
        exact ⟨rfl, rfl, fun _ => hheld rfl, hs'⟩
      · cases h

/-- The entries that were inspected have been read. -/
def FixedWalk.InspectsRead (w : FixedWalk) : Prop :=
  ∀ p ∈ w.inspected, ∃ ts, (p.1, ts) ∈ w.reader.assignedTs.entries

/-- **A walk has gone over a route**: it ends where the route does, and has inspected the
entries of it that are not expired. -/
structure FixedWalk.Walked (M : MapLog) (key : ℕ → Octets) (lifetime : Option ℕ) (target : ℕ) (comm : Octets)
    (route : List ℕ) (terminal : Option ℕ) (w w' : FixedWalk) : Prop where
  stop : terminal = route.find? fun e => M.goes key lifetime target e = .eq
  greater : (w'.inspected.filter fun p => p.2 = .gt).map Prod.fst =
    (w.inspected.filter fun p => p.2 = .gt).map Prod.fst ++
      (route.filter fun e => M.goes key lifetime target e = .gt)
  held : ∀ e ∈ terminal, M.contents e (key target) = some comm
  inspects : w'.InspectsRead
  shown : w'.ladders.Shown M key

/-- **The walk to a fixed version goes over the route** that the log determines. -/
theorem fixedLoop_shown (hP : Function.Injective P.sha256) (hZ : ∀ m, P.sha256 m ≠ zeroValue)
    (hkeys : c.KeysAre P label key) (htarget : target ≤ maxVersion)
    (hlifetime : c.config.maximumLifetime = lifetime) (hn : M.size < 2 ^ 64) :
    ∀ {fuel curr : ℕ} {terminal : Option ℕ} {w w' : FixedWalk}, curr < M.size →
    w.ladders.Shown M key → w.InspectsRead → M.ReadTrue P w'.reader w'.entryRoots →
    c.fixedLoop P label M.size target binaryLadder comm (M.timestamp (M.size - 1)) fuel curr w =
      .ok (terminal, w') →
    FixedWalk.Walked M key lifetime target comm (M.route key lifetime target fuel curr) terminal w w'
  | 0, curr, terminal, w, w', _, _, _, _, h => by cases h
  | fuel + 1, curr, terminal, w, w', hcurr, hs, hinspects, htrue, h => by
    obtain ⟨⟨turn, w₁⟩, hstep, h⟩ := Result.bind_eq_ok.1 h
    obtain ⟨hkept₁, ts, hread⟩ := fixedStep_kept hstep
    obtain ⟨hext₁, hnext⟩ := fixedStep_extends hn hcurr hstep
    dsimp only at h hread hkept₁ hext₁
    -- what follows the turn, if anything does
    have hafter : w₁.reader.Extends M.size w'.reader ∧ RootsKept w₁.entryRoots w'.entryRoots := by
      cases turn with
      | goto entry => exact ⟨fixedLoop_extends hn (hnext _ rfl) h, fixedLoop_kept h⟩
      | stop =>
        obtain ⟨-, rfl⟩ := Prod.mk.inj (Except.ok.inj h)
        exact ⟨.refl _ _, .refl _⟩
      | terminal entry =>
        obtain ⟨-, rfl⟩ := Prod.mk.inj (Except.ok.inj h)
        exact ⟨.refl _ _, .refl _⟩
    obtain ⟨rfl, hinspected, hheld, hs₁⟩ := fixedStep_shown hP hZ hkeys htarget hlifetime hs
      (htrue.of_extends hafter.1 hafter.2) hstep
    have hinspects₁ : w₁.InspectsRead := by
      intro p hp
      rw [hinspected] at hp
      rcases List.mem_append.1 hp with hp | hp
      · obtain ⟨ts', hts'⟩ := hinspects p hp
        exact ⟨ts', hext₁.keeps hts'⟩
      · split_ifs at hp
        · cases hp
        · obtain rfl := List.mem_singleton.1 hp
          exact ⟨ts, hread⟩
    have hgreater : (w₁.inspected.filter fun p => p.2 = .gt).map Prod.fst =
        (w.inspected.filter fun p => p.2 = .gt).map Prod.fst ++
          ([curr].filter fun e => M.goes key lifetime target e = .gt) := by
      rw [hinspected, List.filter_append, List.map_append]
      congr 1
      by_cases hgt : M.goes key lifetime target curr = .gt
      · obtain ⟨hexp, hrel⟩ := MapLog.goes_eq_gt.1 hgt
        rw [if_neg (by simp [hexp]), List.filter_cons_of_pos (by simpa using hrel),
          List.filter_cons_of_pos (by simpa using hgt)]
        rfl
      · rw [List.filter_cons_of_neg (by simpa using hgt), List.filter_nil]
        split_ifs with hexp
        · rfl
        · have hrel : ¬M.relation key target curr = .gt := fun hrel =>
            hgt (MapLog.goes_eq_gt.2 ⟨by simpa using hexp, hrel⟩)
          rw [List.filter_cons_of_neg (by simpa using hrel)]
          rfl
    -- the walk ends here, or goes on from a child
    have hstops : M.goes key lifetime target curr ≠ .eq →
        (.ok (none, w₁) : Result (Option ℕ × FixedWalk)) = .ok (terminal, w') →
        FixedWalk.Walked M key lifetime target comm [curr] terminal w w' := by
      intro hne h
      obtain ⟨rfl, rfl⟩ := Prod.mk.inj (Except.ok.inj h)
      refine ⟨?_, hgreater, fun e he => (by cases he), hinspects₁, hs₁⟩
      rw [List.find?_cons_of_neg (by simpa using hne), List.find?_nil]
    have hgoes : ∀ {entry : ℕ}, entry < M.size → M.goes key lifetime target curr ≠ .eq →
        c.fixedLoop P label M.size target binaryLadder comm (M.timestamp (M.size - 1)) fuel entry w₁ =
          .ok (terminal, w') →
        FixedWalk.Walked M key lifetime target comm (curr :: M.route key lifetime target fuel entry)
          terminal w w' := by
      intro entry hentry hne h
      have hrest := fixedLoop_shown hP hZ hkeys htarget hlifetime hn hentry hs₁ hinspects₁ htrue h
      refine ⟨?_, ?_, hrest.held, hrest.inspects, hrest.shown⟩
      · rw [List.find?_cons_of_neg (by simpa using hne), hrest.stop]
      · rw [hrest.greater, hgreater, List.append_assoc, ← List.filter_append]
        rfl
    rw [MapLog.route]
    unfold turnOf at h hnext
    cases hgo : M.goes key lifetime target curr with
    | eq =>
      rw [hgo] at h
      obtain ⟨rfl, rfl⟩ := Prod.mk.inj (Except.ok.inj h)
      refine ⟨?_, hgreater, fun e he => ?_, hinspects₁, hs₁⟩
      · rw [List.find?_cons_of_pos (by simpa using hgo)]
      · obtain rfl := Option.some.inj he
        exact hheld hgo
    | lt =>
      rw [hgo] at h hnext
      dsimp only at h hnext ⊢
      generalize (if isLeaf curr then none else ibstRightChild curr M.size) = rightChild at h hnext ⊢
      cases rightChild with
      | none => exact hstops (by rw [hgo]; decide) h
      | some rc => exact hgoes (hnext rc rfl) (by rw [hgo]; decide) h
    | gt =>
      rw [hgo] at h hnext
      dsimp only at h hnext ⊢
      cases hleaf : isLeaf curr with
      | true =>
        rw [hleaf, if_pos rfl] at h
        exact hstops (by rw [hgo]; decide) h
      | false =>
        rw [hleaf, if_neg Bool.false_ne_true] at h hnext
        exact hgoes (hnext _ rfl) (by rw [hgo]; decide) h

/-- **Step 6** finds the version at the leftmost entry with a greater one. -/
theorem fixedLookup_shown (hP : Function.Injective P.sha256) (hZ : ∀ m, P.sha256 m ≠ zeroValue)
    (hkeys : c.KeysAre P label key) {w : FixedWalk} {s : SearchState} (hs : w.ladders.Shown M key)
    (hinspects : w.InspectsRead) (htrue : M.ReadTrue P s.reader s.entryRoots)
    (h : c.fixedLookup P label target binaryLadder comm w = .ok (e, s)) :
    ((w.inspected.filter fun p => decide (p.2 = .gt)).map Prod.fst).min? = some e ∧
      M.contents e (key target) = some comm ∧ s.ladders.Shown M key := by
  simp only [fixedLookup, Result.bind_eq_ok, Result.context_eq_ok, ensure_eq_ok, okOr_eq_ok] at h
  obtain ⟨identified, hmin, -, -, ⟨pp, reader⟩, hpp, ⟨root, included, ladders⟩, hlookup, entryRoots,
    hrecord, -, rfl, h⟩ := h
  obtain ⟨rfl, rfl⟩ := Prod.mk.inj (Except.ok.inj h)
  obtain ⟨p, hp, rfl⟩ := List.mem_map.1 (List.min?_eq_some_iff.1 hmin).1
  obtain ⟨ts, hread⟩ := hinspects p (List.mem_filter.1 hp).1
  have hread' : (p.1, ts) ∈ reader.assignedTs.entries := by
    rw [ProofReader.prefixProof_assignedTs hpp]
    exact hread
  have hroot : root = prefixRoot P (M.contents p.1) :=
    htrue.root hread' (ProofReader.recordEntryRoot_kept hrecord).2
  obtain ⟨hheld, hcache, hmat⟩ := verifySingleLookup_shown hP hZ hkeys hs.cache hs.material hroot hlookup
  exact ⟨hmin, hheld, hcache, hmat⟩

theorem fixedLookup_kept {w : FixedWalk} {s : SearchState}
    (h : c.fixedLookup P label target binaryLadder comm w = .ok (e, s)) :
    RootsKept w.entryRoots s.entryRoots := by
  simp only [fixedLookup, Result.bind_eq_ok] at h
  obtain ⟨identified, -, -, -, ⟨pp, reader⟩, -, ⟨root, included, ladders⟩, -, entryRoots, hrecord, -, -,
    h⟩ := h
  obtain ⟨-, rfl⟩ := Prod.mk.inj (Except.ok.inj h)
  exact (ProofReader.recordEntryRoot_kept hrecord).1

/-- **A search ends where the log says**, at an entry that holds the target with the
commitment that the client has computed. -/
theorem searchWalk_shown (hP : Function.Injective P.sha256) (hZ : ∀ m, P.sha256 m ≠ zeroValue)
    (hkeys : c.KeysAre P label key) (htarget : target ≤ maxVersion)
    (hlifetime : c.config.maximumLifetime = lifetime) (h₀ : 0 < M.size) (hn : M.size ≤ 2 ^ 62)
    {requested : Option ℕ} {s s' : SearchState} (hs : s.ladders.Shown M key)
    (hfrontier : ∀ e ∈ getFrontier M.size, ∃ ts, (e, ts) ∈ s.reader.assignedTs.entries)
    (htrue : M.ReadTrue P s'.reader s'.entryRoots)
    (h : c.searchWalk P label requested M.size target binaryLadder comm s = .ok (e, s')) :
    M.terminal key lifetime requested target = some e ∧ M.contents e (key target) = some comm ∧
      (requested = none → M.relation key target (M.size - 1) = .eq) ∧ s'.ladders.Shown M key := by
  cases requested with
  | none =>
    simp only [searchWalk, Result.bind_eq_ok, getLast?_getFrontier h₀ hn] at h
    obtain ⟨rightmost, hright, ⟨first, s₁⟩, hwalk, h⟩ := h
    obtain rfl := Except.ok.inj hright
    obtain ⟨rfl, rfl⟩ := Prod.mk.inj (Except.ok.inj h)
    obtain ⟨hfirst, hheld, hlast, hs'⟩ := greatestWalk_shown hP hZ hkeys htarget hs hfrontier htrue hwalk
    have hmem : M.size - 1 ∈ getFrontier M.size := List.mem_of_getLast? (getLast?_getFrontier h₀ hn)
    have heq := hlast hmem
    obtain ⟨x, hx⟩ : ∃ x, (getFrontier M.size).find? (fun e => decide (M.relation key target e = .eq)) =
        some x := Option.isSome_iff_exists.1
      (List.find?_isSome.2 ⟨_, hmem, by simpa using heq⟩)
    rw [Option.none_or, hx] at hfirst
    dsimp only at hfirst ⊢
    rw [hfirst, Option.getD_some]
    refine ⟨hx, hheld x (List.mem_of_find?_eq_some hx) (by simpa using List.find?_some hx), fun _ => heq, hs'⟩
  | some v =>
    simp only [searchWalk, simulateFixedSearch, Result.bind_eq_ok] at h
    obtain ⟨⟨rightmostTs, reader⟩, hts, ⟨terminal, w⟩, hloop, h⟩ := h
    have hread := ProofReader.mem_of_timestamp hts
    have hroot := root_lt h₀ (show M.size < 2 ^ 64 by omega)
    have hext := @fixedLoop_extends P c label target M.size binaryLadder comm rightmostTs
      (show M.size < 2 ^ 64 by omega) _ _ _ _ _ hroot hloop
    dsimp only at h hread hloop hext
    -- the reader of the loop, before the lookup that may follow it
    have hlooptrue : M.ReadTrue P w.reader w.entryRoots := by
      cases terminal with
      | some entry =>
        obtain ⟨rfl, rfl⟩ := Prod.mk.inj (Except.ok.inj h)
        exact htrue
      | none =>
        exact htrue.of_extends (@fixedLookup_extends P c label target M.size _ _ w _ s' h) (fixedLookup_kept h)
    obtain rfl := hlooptrue.timestamp (hext.keeps hread)
    have hinspects : (⟨{ s with reader := reader }, (0, M.timestamp (M.size - 1)), true, false, false, [],
      []⟩ : FixedWalk).InspectsRead := fun p hp => by cases hp
    obtain ⟨hterminal, hgreater, hheld, hinspects', hs'⟩ := fixedLoop_shown hP hZ hkeys htarget hlifetime
      (show M.size < 2 ^ 64 by omega) hroot hs hinspects hlooptrue hloop
    dsimp only at hgreater
    rw [List.filter_nil, List.map_nil, List.nil_append] at hgreater
    unfold MapLog.terminal
    dsimp only
    cases terminal with
    | some entry =>
      obtain ⟨rfl, rfl⟩ := Prod.mk.inj (Except.ok.inj h)
      rw [← hterminal]
      exact ⟨rfl, hheld _ rfl, fun hnone => (by cases hnone), hs'⟩
    | none =>
      obtain ⟨hmin, hfound, hs''⟩ := fixedLookup_shown hP hZ hkeys hs' hinspects' htrue h
      rw [← hterminal, Option.none_or, ← hgreater]
      exact ⟨hmin, hfound, fun hnone => (by cases hnone), hs''⟩

end KtClient

/-! ### Accepted searches -/

/-- **A reader that ends at the root of a log has read that log.** -/
theorem Accepted.mapsRead (hP : Function.Injective P.sha256) {r : Response} {data : List LeafData}
    {fth : FullTreeHead} (h : Accepted P env c r data c') (hfth : r.fullTreeHead = some fth)
    {head : TrustedState} (hstate : c'.state = some head)
    (hlog : LogOf P head.treeSize head.rootHash (M.leaves P)) {reader : ProofReader}
    {entryRoots : NodeMap} (hbelow : ∀ e ∈ reader.assignedTs.entries, e.1 < M.size)
    (hfinish : reader.finish entryRoots = .ok data) : M.ReadTrue P reader entryRoots := by
  have hleaf : ∀ d ∈ data, d.1 < M.size →
      M.timestamp d.1 = d.2.1 ∧ prefixRoot P (M.contents d.1) = d.2.2 := fun d hd hlt => by
    have hleaf := h.leafAt_eq hP hfth hstate hlog hd
    rw [MapLog.leaves, leafAt_mapLeaves hlt] at hleaf
    obtain ⟨hts, hroot⟩ := logLeafValue_inj hP (M.timestamp d.1).isLt d.2.1.isLt hleaf
    exact ⟨Fin.ext hts, hroot⟩
  refine ⟨hbelow, fun {e ts} he => ?_, fun {e ts root} he hroot => ?_⟩
  · have hlt := hbelow _ he
    rw [← ProofReader.finish_entries hfinish] at he
    obtain ⟨d, hd, heq⟩ := List.mem_map.1 he
    obtain ⟨rfl, rfl⟩ := Prod.mk.inj heq
    exact (hleaf d hd hlt).1.symm
  · exact (hleaf _ (ProofReader.finish_root hfinish he hroot) (hbelow _ he)).2.symm

/-- **What an accepted search has shown** of the log behind its head. -/
structure KtClient.Verified.Shown (P : Primitives) (M : MapLog) (key : ℕ → Octets) (c : KtClient) (label : Octets)
    (requested : Option ℕ) (resp : SearchResponse) (v : KtClient.Verified) : Prop where
  version : requested.or resp.version = some v.targetVersion
  terminal : M.terminal key c.config.maximumLifetime requested v.targetVersion = some v.terminal
  lt : v.terminal < M.size
  greatest : requested = none → M.relation key v.targetVersion (M.size - 1) = .eq
  committed : ∃ value comm, resp.value = some value ∧
    commit P label v.targetVersion value.value none resp.opening = .ok comm ∧
    M.contents v.terminal (key v.targetVersion) = some comm
  ladders : v.ladders.Shown M key

/-- **Soundness of a search**, against a log of any maps. -/
theorem Accepted.search_shown (hP : Function.Injective P.sha256) (hZ : ∀ m, P.sha256 m ≠ zeroValue)
    (hkeys : c.KeysAre P label key) {requested : Option ℕ} {resp : SearchResponse} {data : List LeafData}
    (hversion : ∀ v ∈ requested.or resp.version, v ≤ maxVersion)
    (h : Accepted P env c (.search label requested resp) data c') {head : TrustedState}
    (hstate : c'.state = some head) (hlog : LogOf P head.treeSize head.rootHash (M.leaves P)) :
    ∃ v c₁, c' = c₁.retain label v ∧ c.verifySearch P env label requested resp = .ok (v, c₁) ∧
      v.Shown P M key c label requested resp := by
  have haccepted := h
  have hsize : M.size = head.treeSize := by rw [← hlog.size, MapLog.leaves, length_mapLeaves]
  have hn := hlog.small
  cases h with
  | @search _ _ _ v c₁ h saved =>
    refine ⟨v, c₁, rfl, h, ?_⟩
    simp only [KtClient.verifySearch, Result.bind_eq_ok, okOr_eq_ok, ensure_eq_ok, Result.context_eq_ok] at h
    obtain ⟨fth, hfth, proof, -, ⟨n, timestamp, updated⟩, hhead, -, hpos, value, hvalue, target, htarget, -,
      -, comm, hcomm, ⟨⟩, -, reader, hreader, ⟨terminal, s⟩, hwalk, -, -, ⟨data', captured, committed⟩, hfinish,
      h⟩ := h
    obtain ⟨rfl, rfl⟩ := Prod.mk.inj (Except.ok.inj h)
    dsimp only at hpos hwalk hfinish hreader hstate
    obtain ⟨hfin, inclusion, -, hcommit⟩ := KtClient.finishAndCommit_eq_ok.1 hfinish
    obtain ⟨head', hstate', rfl, -⟩ := KtClient.verifyHeadAndCommit_derived hhead hcommit
    obtain rfl : head' = head := Option.some.inj (hstate'.symm.trans hstate)
    rw [← hsize] at hpos hwalk hreader hn
    have h₀ : 0 < M.size := Nat.pos_of_ne_zero hpos
    obtain ⟨-, hfrontier⟩ := ProofReader.timestamps_extends hreader fun p hp => mem_getFrontier_lt hn hp
    have hreads := ReadsLog.of_finish hn hreader (KtClient.searchWalk_extends h₀ (by omega) hwalk) hfin
    have hbelow : ∀ e ∈ s.reader.assignedTs.entries, e.1 < M.size := fun e he => by
      rw [← ProofReader.finish_entries hfin] at he
      obtain ⟨d, hd, rfl⟩ := List.mem_map.1 he
      exact hreads.below d hd
    have htrue := haccepted.mapsRead hP hfth hstate hlog hbelow hfin
    obtain ⟨hterminal, hheld, hgreatest, hshown⟩ := KtClient.searchWalk_shown hP hZ hkeys
      (hversion _ htarget) rfl h₀ hn (Ladders.shown_new _) hfrontier htrue hwalk
    exact ⟨htarget, hterminal, MapLog.terminal_lt h₀ hn hterminal, hgreatest, ⟨value, comm, hvalue, hcomm, hheld⟩, hshown⟩

end

end KeyTransparency
