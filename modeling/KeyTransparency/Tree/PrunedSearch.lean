/-
# Searches that pruning ends

Which searches succeed for a version whose log entry is expired.  Every unexpired entry
then has a greatest version from it on (`Tree.Aged`), so the walk goes right at expired
entries and left at entries with later versions.  It succeeds just when it comes to an
unexpired entry at which the version is the greatest one, and either no ancestor of that
entry is expired or the entry is distinguished (`Tree.Aged.loop_iff`).  Step 6 never
succeeds (`Tree.Aged.lookup_error`).
-/

import KeyTransparency.Tree.Navigation
import KeyTransparency.Tree.Prune
import KeyTransparency.Tree.Readable

namespace KeyTransparency

open BinaryLadder InOrder LogMath

namespace Tree

/-! ### The walk for a version that has aged -/

/-- **A version that has aged** in a log: the first entries are expired, and every
unexpired entry has a greatest version from it on. -/
structure Aged (t : Tree) (history : List (ℕ × ℕ)) (n v : ℕ) (rightmostTs : U64) (ts : ℕ → U64) :
    Prop where
  older : ∀ {e e' : ℕ}, e ≤ e' → e' < n → t.isExpired rightmostTs (ts e') = true →
    t.isExpired rightmostTs (ts e) = true
  first : t.isExpired rightmostTs (ts 0) = true
  growing : ∀ {e e' m : ℕ}, e ≤ e' → e' < n → t.getMaxVersionAt history e = some m →
    ∃ m', t.getMaxVersionAt history e' = some m' ∧ m ≤ m'
  later : ∀ e < n, t.isExpired rightmostTs (ts e) = false →
    ∃ m, t.getMaxVersionAt history e = some m ∧ v ≤ m

/-- The state of the walk when the entries from `lo` to `hi` are left to search. -/
structure Descent (t : Tree) (label : Octets) (n v : ℕ) (rightmostTs : U64) (ts : ℕ → U64)
    (lo hi : ℕ) (w : FixedSearch) : Prop where
  session : Within label n w.session
  left : ∀ p ∈ w.leftPath, t.isExpired rightmostTs p.2 = true
  below : ∀ d < lo, t.isExpired rightmostTs (ts d) = true
  above : ∀ d, hi ≤ d → d < n → t.isExpired rightmostTs (ts d) = false →
    ∃ p ∈ w.inspected, p.1 ≤ d ∧ p.2.any (v < ·) = true
  inspected : ∀ p ∈ w.inspected, p.1 < n
  encountered : w.encounteredExpired = true ∨ lo = 0

/-- **Where the walk succeeds** in the block that starts at `lo`: an unexpired entry has
the version as its greatest one, no ancestor in the block is such an entry, and no
ancestor at all is expired unless the entry is distinguished. -/
def Shows (t : Tree) (history : List (ℕ × ℕ)) (v : ℕ) (rightmostTs : U64) (ts : ℕ → U64)
    (dset : List ℕ) (expiredOnPath : Bool) (fuel size lo : ℕ) : Prop :=
  ∃ s, lo ≤ s ∧ s < lo + size ∧ t.getMaxVersionAt history s = some v ∧
    t.isExpired rightmostTs (ts s) = false ∧
    (∀ a ∈ ibstDirectPathLoop s fuel size lo, t.getMaxVersionAt history a = some v →
      t.isExpired rightmostTs (ts a) = true) ∧
    ((expiredOnPath = false ∧
        ∀ a ∈ ibstDirectPathLoop s fuel size lo, t.isExpired rightmostTs (ts a) = false) ∨ s ∈ dset)

section

variable {P : Primitives} {t : Tree} {label : Octets} {history : List (ℕ × ℕ)} {n v m k i size e : ℕ}
  {rightmostTs : U64} {ts : ℕ → U64} {dset : List ℕ} {eop : Bool} {w : FixedSearch} {fuel : ℕ}

/-! #### One turn -/

/-- **At an expired entry** the walk goes right. -/
theorem Readable.step_expired (hr : t.Readable P label n ts) (hs : Within label n w.session) (he : e < n)
    (hexp : t.isExpired rightmostTs (ts e) = true) (rightChild : Option ℕ)
    (hright : (if isLeaf e then none else ibstRightChild e n) = rightChild) :
    ∃ session, Within label n session ∧
      fixedSearchStep P t n v history rightmostTs dset e w =
        .ok (rightChild.elim .stop .goto, { w with
          session := session, encounteredExpired := true, expiredOnPath := true,
          leftPath := rightChild.elim w.leftPath fun _ => w.leftPath ++ [(e, ts e)] }) := by
  obtain ⟨session, hvisit, hsession⟩ := hr.visitTimestampOnly_ok hs he
  refine ⟨session, hsession, ?_⟩
  rw [fixedSearchStep, hr.timestamp e he, Result.ok_bind]
  dsimp only
  rw [hright, if_pos hexp, hvisit, Result.ok_bind]
  cases rightChild <;> rfl

/-- **At an entry with a later version** the walk goes left. -/
theorem Readable.step_later (hr : t.Readable P label n ts) (hs : Within label n w.session) (he : e < n)
    (hexp : t.isExpired rightmostTs (ts e) = false) (hm : t.getMaxVersionAt history e = some m)
    (hlt : v < m) :
    ∃ session, Within label n session ∧
      fixedSearchStep P t n v history rightmostTs dset e w =
        .ok (if isLeaf e then .stop else .goto (leftChild e), { w with
          session := session, inspected := w.inspected ++ [(e, some m)] }) := by
  obtain ⟨session, hvisit, hsession⟩ := hr.visit_eq (s := w.session)
    hs he (fun _ hx => le_of_mem_searchLadder hx) none
  refine ⟨session, hsession, ?_⟩
  rw [fixedSearchStep, hr.timestamp e he, Result.ok_bind]
  dsimp only
  rw [if_neg (by simp [hexp]), hm, if_neg (fun h => by have := Option.some.inj h; omega), hvisit]
  change (if Option.all _ (some m) = true then _ else _) = _
  rw [if_neg (by simp; omega), if_pos (by simp [hlt])]
  split_ifs <;> rfl

/-- **At an entry with the version** the walk ends. -/
theorem Readable.step_found (hr : t.Readable P label n ts) (hs : Within label n w.session) (he : e < n)
    (hexp : t.isExpired rightmostTs (ts e) = false)
    (hm : t.getMaxVersionAt (t.store.history label) e = some v)
    (hdata : ∃ data, t.extractValueAndOpening (t.store.history label) v = .ok data)
    (hleft : ∀ p ∈ w.leftPath, t.isExpired rightmostTs p.2 = true) :
    ∃ session, Within label n session ∧
      fixedSearchStep P t n v (t.store.history label) rightmostTs dset e w =
        if w.expiredOnPath = false ∨ e ∈ dset then
          .ok (.terminal e, { w with session := session, inspected := w.inspected ++ [(e, some v)] })
        else .error (.kt .expired) := by
  obtain ⟨session, hvisit, hsession⟩ := hr.visit_eq (s := w.session)
    hs he (fun _ hx => le_of_mem_searchLadder hx) (some v)
  obtain ⟨data, hdata⟩ := hdata
  have hextract : TraversalSession.extracted t (some v) session =
      .ok { session with foundValue := some data.1, foundOpening := data.2 } := by
    rw [TraversalSession.extracted, hsession.label, hdata]
    rfl
  have hleft' : (w.leftPath.any fun p => t.isUnexpiredDistinguished rightmostTs dset p.1 p.2) = false := by
    simp only [List.any_eq_false, isUnexpiredDistinguished, Bool.and_eq_true, not_and]
    intro p hp _
    simp [hleft p hp]
  have hhere : t.isUnexpiredDistinguished rightmostTs dset e (ts e) = true ↔ e ∈ dset := by
    simp [isUnexpiredDistinguished, hexp]
  refine ⟨{ session with foundValue := some data.1, foundOpening := data.2 },
    ⟨hsession.label, hsession.bound⟩, ?_⟩
  rw [fixedSearchStep, hr.timestamp e he, Result.ok_bind]
  dsimp only
  rw [if_neg (by simp [hexp]), hm, if_pos rfl, hvisit, hextract]
  change (if Option.all _ (some v) = true then _ else _) = _
  rw [if_neg (by simp), if_neg (by simp)]
  simp only [hleft', hhere, Bool.false_eq_true, or_false]
  rfl

/-! #### Where the walk succeeds -/

theorem Aged.shows_right (ha : t.Aged history n v rightmostTs ts) (h : Block n k i size)
    (hn : n < 2 ^ 64) (hexp : t.isExpired rightmostTs (ts (node k i)) = true) :
    t.Shows history v rightmostTs ts dset eop (fuel + 1) size (i * 2 ^ (k + 1)) ↔
      t.Shows history v rightmostTs ts dset true fuel (size - 2 ^ k) (node k i + 1) := by
  have hnode : node k i = i * 2 ^ (k + 1) + (2 ^ k - 1) := rfl
  have hle := h.node_le
  have hpos := Nat.two_pow_pos k
  constructor
  · rintro ⟨s, hlow, hhigh, hshown, hfresh, htop, hok⟩
    have hgt : node k i < s := by
      by_contra hle
      have := ha.older (Nat.not_lt.1 hle) h.node_lt hexp
      rw [hfresh] at this
      cases this
    rw [h.path_right hn hgt] at htop hok
    refine ⟨s, hgt, by omega, hshown, hfresh, fun a ha => htop a (List.mem_cons_of_mem _ ha),
      .inr (hok.resolve_left fun hpath => ?_)⟩
    rw [hpath.2 _ List.mem_cons_self] at hexp
    cases hexp
  · rintro ⟨s, hlow, hhigh, hshown, hfresh, htop, hok⟩
    refine ⟨s, by omega, by omega, hshown, hfresh, ?_, .inr (hok.resolve_left fun h => by cases h.1)⟩
    rw [h.path_right hn (show node k i < s by omega)]
    intro a hmem hshow
    rcases List.mem_cons.1 hmem with rfl | hmem
    · exact hexp
    · exact htop a hmem hshow

theorem Aged.shows_left (ha : t.Aged history n v rightmostTs ts) (h : Block n k i size)
    (hn : n < 2 ^ 64) (hexp : t.isExpired rightmostTs (ts (node k i)) = false)
    (hm : t.getMaxVersionAt history (node k i) = some m) (hlt : v < m) :
    t.Shows history v rightmostTs ts dset eop (fuel + 1) size (i * 2 ^ (k + 1)) ↔
      t.Shows history v rightmostTs ts dset eop fuel (2 ^ k - 1) (i * 2 ^ (k + 1)) := by
  have hnode : node k i = i * 2 ^ (k + 1) + (2 ^ k - 1) := rfl
  have hle := h.node_le
  have hwithin := h.within
  have hpos := Nat.two_pow_pos k
  constructor
  · rintro ⟨s, hlow, hhigh, hshown, hfresh, htop, hok⟩
    have hbefore : s < node k i := by
      by_contra hle
      obtain ⟨m', hm', hmm⟩ := ha.growing (Nat.not_lt.1 hle) (by omega) hm
      have := Option.some.inj (hshown.symm.trans hm')
      omega
    rw [h.path_left hn hbefore] at htop hok
    refine ⟨s, hlow, by omega, hshown, hfresh, fun a ha => htop a (List.mem_cons_of_mem _ ha),
      hok.imp_left fun hpath => ⟨hpath.1, fun a ha => hpath.2 a (List.mem_cons_of_mem _ ha)⟩⟩
  · rintro ⟨s, hlow, hhigh, hshown, hfresh, htop, hok⟩
    refine ⟨s, hlow, by omega, hshown, hfresh, ?_, ?_⟩
    · rw [h.path_left hn (show s < node k i by omega)]
      intro a hmem hshow
      rcases List.mem_cons.1 hmem with rfl | hmem
      · have := Option.some.inj (hm.symm.trans hshow)
        omega
      · exact htop a hmem hshow
    · rw [h.path_left hn (show s < node k i by omega)]
      exact hok.imp_left fun hpath => ⟨hpath.1, fun a hmem =>
        (List.mem_cons.1 hmem).elim (fun heq => heq ▸ hexp) (hpath.2 a)⟩

theorem shows_found (h : Block n k i size) (hn : n < 2 ^ 64)
    (hexp : t.isExpired rightmostTs (ts (node k i)) = false)
    (hm : t.getMaxVersionAt history (node k i) = some v) :
    t.Shows history v rightmostTs ts dset eop (fuel + 1) size (i * 2 ^ (k + 1)) ↔
      eop = false ∨ node k i ∈ dset := by
  have hnode : node k i = i * 2 ^ (k + 1) + (2 ^ k - 1) := rfl
  have hle := h.node_le
  have hpos := Nat.two_pow_pos k
  constructor
  · rintro ⟨s, hlow, hhigh, hshown, hfresh, htop, hok⟩
    have hself : s = node k i := by
      by_contra hne
      have hmem : node k i ∈ ibstDirectPathLoop s (fuel + 1) size (i * 2 ^ (k + 1)) := by
        rcases Nat.lt_or_gt_of_ne hne with hlt | hgt
        · rw [h.path_left hn hlt]
          exact List.mem_cons_self
        · rw [h.path_right hn hgt]
          exact List.mem_cons_self
      have := htop _ hmem hm
      rw [hexp] at this
      cases this
    rw [← hself]
    exact hok.imp_left And.left
  · intro hok
    refine ⟨node k i, by omega, by omega, hm, hexp, ?_, ?_⟩
    · rw [h.path_self hn]
      exact fun a ha => by cases ha
    · rw [h.path_self hn]
      exact hok.imp_left fun heop => ⟨heop, fun a ha => by cases ha⟩

/-! #### The whole walk -/

/-- A search that has ended without success. -/
structure Closed (t : Tree) (n v : ℕ) (rightmostTs : U64) (ts : ℕ → U64) (w : FixedSearch) : Prop where
  encountered : w.encounteredExpired = true
  later : ∀ d < n, t.isExpired rightmostTs (ts d) = false →
    ∃ p ∈ w.inspected, p.1 ≤ d ∧ p.2.any (v < ·) = true
  inspected : ∀ p ∈ w.inspected, p.1 < n

/-- **The walk for a version that has aged** succeeds just where it is to; otherwise it
fails or ends with every unexpired entry at or after an inspected one. -/
theorem Aged.loop (hr : t.Readable P label n ts)
    (ha : t.Aged (t.store.history label) n v rightmostTs ts)
    (hdata : ∃ data, t.extractValueAndOpening (t.store.history label) v = .ok data)
    (hn : n < 2 ^ 64) : ∀ {k i size fuel : ℕ} {w : FixedSearch}, Block n k i size → k < fuel →
      t.Descent label n v rightmostTs ts (i * 2 ^ (k + 1)) (i * 2 ^ (k + 1) + size) w →
      (t.Shows (t.store.history label) v rightmostTs ts dset w.expiredOnPath fuel size
          (i * 2 ^ (k + 1)) → ∃ w', fixedSearchLoop P t n v (t.store.history label) rightmostTs dset
            fuel (node k i) w = .ok (true, w') ∧ Within label n w'.session) ∧
      (¬ t.Shows (t.store.history label) v rightmostTs ts dset w.expiredOnPath fuel size
          (i * 2 ^ (k + 1)) → ∀ out, fixedSearchLoop P t n v (t.store.history label) rightmostTs dset
            fuel (node k i) w = .ok out → out.1 = false ∧ t.Closed n v rightmostTs ts out.2) := by
  intro k
  induction k using Nat.strong_induction_on with
  | _ k ih =>
    intro i size fuel w h hfuel hw
    obtain ⟨fuel, rfl⟩ := Nat.exists_eq_succ_of_ne_zero (show fuel ≠ 0 by omega)
    have hnode : node k i = i * 2 ^ (k + 1) + (2 ^ k - 1) := rfl
    have hle := h.node_le
    have hpos := Nat.two_pow_pos k
    have hlt := h.node_lt
    have hlevel := h.level_lt hn
    rw [fixedSearchLoop]
    cases hexp : t.isExpired rightmostTs (ts (node k i)) with
    | true =>
      have hbelow : ∀ d < node k i + 1, t.isExpired rightmostTs (ts d) = true := fun d hd =>
        ha.older (Nat.lt_succ_iff.1 hd) hlt hexp
      rw [ha.shows_right h hn hexp]
      rcases h.rightChild_cases hn with ⟨hnone, hsize⟩ | ⟨k', i', hk, hchild, hstart, hblock⟩
      · obtain ⟨session, hsession, hstep⟩ := hr.step_expired
          hw.session hlt hexp none (by rw [rightChild_of_isLeaf hlevel, hnone])
        rw [hstep, Result.ok_bind]
        constructor
        · rintro ⟨s, hlow, hhigh, -⟩
          omega
        · rintro - out hout
          obtain rfl := Except.ok.inj hout
          refine ⟨rfl, rfl, fun d hd hfresh => ?_, hw.inspected⟩
          rcases Nat.lt_or_ge d (i * 2 ^ (k + 1) + size) with hlt' | hge
          · have := hbelow d (by omega)
            rw [hfresh] at this
            cases this
          · exact hw.above d hge hd hfresh
      · obtain ⟨session, hsession, hstep⟩ := hr.step_expired
          hw.session hlt hexp (some (node k' i'))
          (by rw [rightChild_of_isLeaf hlevel, hchild])
        rw [hstep, Result.ok_bind, ← hstart]
        refine ih k' hk hblock (by omega) (w := { w with
          session := session, encounteredExpired := true, expiredOnPath := true,
          leftPath := w.leftPath ++ [(node k i, ts (node k i))] })
          ⟨hsession, ?_, ?_, ?_, hw.inspected, .inl rfl⟩
        · intro p hp
          rcases List.mem_append.1 hp with hp | hp
          · exact hw.left p hp
          · rw [List.mem_singleton.1 hp]
            exact hexp
        · intro d hd
          exact hbelow d (by omega)
        · intro d hd
          exact hw.above d (by omega)
    | false =>
      obtain ⟨m, hm, hvm⟩ := ha.later _ hlt hexp
      rcases hvm.lt_or_eq with hvm | rfl
      · obtain ⟨session, hsession, hstep⟩ := hr.step_later hw.session hlt hexp hm hvm
        rw [hstep, Result.ok_bind, ha.shows_left h hn hexp hm hvm]
        have habove : ∀ d, node k i ≤ d → d < n → t.isExpired rightmostTs (ts d) = false →
            ∃ p ∈ w.inspected ++ [(node k i, some m)], p.1 ≤ d ∧ p.2.any (v < ·) = true :=
          fun d hd _ _ => ⟨(node k i, some m), List.mem_append_right _ (List.mem_singleton_self _), hd,
            by simp [hvm]⟩
        have hinspected : ∀ p ∈ w.inspected ++ [(node k i, some m)], p.1 < n := by
          intro p hp
          rcases List.mem_append.1 hp with hp | hp
          · exact hw.inspected p hp
          · rw [List.mem_singleton.1 hp]
            exact hlt
        cases hleaf : isLeaf (node k i) with
        | true =>
          have hk : k = 0 := by
            rw [isLeaf_node] at hleaf
            exact beq_iff_eq.1 hleaf
          rw [if_pos rfl]
          constructor
          · rintro ⟨s, hlow, hhigh, -⟩
            have hone : 2 ^ k = 1 := by rw [hk, pow_zero]
            omega
          · rintro - out hout
            obtain rfl := Except.ok.inj hout
            have hlow : i * 2 ^ (k + 1) = node k i := by rw [hnode, hk]; rfl
            refine ⟨rfl, hw.encountered.resolve_right fun hzero => ?_, fun d hd hfresh => ?_, hinspected⟩
            · rw [← hlow, hzero, ha.first] at hexp
              cases hexp
            · rcases Nat.lt_or_ge d (node k i) with hd' | hd'
              · have := hw.below d (by omega)
                rw [hfresh] at this
                cases this
              · exact habove d hd' hd hfresh
        | false =>
          obtain ⟨k', i', hk, hchild, hstart, hblock⟩ := h.leftChild_eq hn hleaf
          rw [if_neg (by simp), hchild, ← hstart]
          refine ih k' hk hblock (by omega) (w := { w with
            session := session, inspected := w.inspected ++ [(node k i, some m)] })
            ⟨hsession, hw.left, ?_, ?_, hinspected, ?_⟩
          · rw [hstart]
            exact hw.below
          · intro d hd
            exact habove d (by omega)
          · rw [hstart]
            exact hw.encountered
      · obtain ⟨session, hsession, hstep⟩ := hr.step_found hw.session hlt hexp hm hdata
          hw.left
        rw [hstep, shows_found h hn hexp hm]
        constructor
        · intro hok
          rw [if_pos hok, Result.ok_bind]
          exact ⟨_, rfl, hsession⟩
        · intro hnot out hout
          rw [if_neg hnot] at hout
          cases hout

/-! #### The search -/

theorem unexpiredDistinguishedLeft_true {identified : ℕ} : ∀ {dset : List ℕ},
    t.unexpiredDistinguishedLeft rightmostTs identified dset = .ok true →
      ∃ d < identified, ∃ x, LogTree.getTimestamp t.store d = .ok x ∧
        t.isExpired rightmostTs x = false
  | [], h => by cases h
  | d :: dset, h => by
    rw [unexpiredDistinguishedLeft] at h
    split_ifs at h with hd
    · cases h
    · obtain ⟨x, hx, h⟩ := Result.bind_eq_ok.1 h
      split_ifs at h with hexp
      · exact unexpiredDistinguishedLeft_true h
      · exact ⟨d, by omega, x, hx, by simpa using hexp⟩

/-- **Step 6 fails** after such a walk: left of the first entry with a later version all
entries are expired. -/
theorem Closed.lookup_error (hc : t.Closed n v rightmostTs ts w)
    (hts : ∀ e < n, LogTree.getTimestamp t.store e = .ok (ts e)) (session : TraversalSession) :
    fixedSearchLookup P t v rightmostTs dset w ≠ .ok session := by
  intro h
  obtain ⟨identified, hidentified, h⟩ := Result.bind_eq_ok.1 h
  obtain ⟨left, hleft, h⟩ := Result.bind_eq_ok.1 h
  rw [if_pos hc.encountered] at hleft
  cases left with
  | false =>
    rw [if_pos rfl] at h
    cases h
  | true =>
    obtain ⟨d, hd, x, hx, hfresh⟩ := unexpiredDistinguishedLeft_true hleft
    cases hmin : ((w.inspected.filter fun e => e.2.any (v < ·)).map Prod.fst).min? with
    | none =>
      rw [hmin] at hidentified
      cases hidentified
    | some least =>
      rw [hmin] at hidentified
      obtain rfl := Except.ok.inj hidentified
      obtain ⟨hmem, hle⟩ := List.min?_eq_some_iff.1 hmin
      obtain ⟨p, hp, rfl⟩ := List.mem_map.1 hmem
      have hlt := hc.inspected p (List.mem_filter.1 hp).1
      rw [hts d (by omega)] at hx
      obtain rfl := Except.ok.inj hx
      obtain ⟨q, hq, hqd, hqv⟩ := hc.later d (by omega) hfresh
      have := hle q.1 (List.mem_map_of_mem (List.mem_filter.2 ⟨hq, hqv⟩))
      omega

/-- **The search for a version that has aged** succeeds just where it is to. -/
theorem Aged.search (hr : t.Readable P label n ts)
    (ha : t.Aged (t.store.history label) n v (ts (n - 1)) ts)
    (hdata : ∃ data, t.extractValueAndOpening (t.store.history label) v = .ok data)
    (h₀ : 0 < n) (hn : n ≤ 2 ^ 62) (hdset : t.findDistinguishedNodes n = .ok dset) :
    (t.Shows (t.store.history label) v (ts (n - 1)) ts dset false 65 n 0 →
      ∃ r, traverseFixedSearch P t n label v 0 = .ok r) ∧
    ∀ last r, traverseFixedSearch P t n label v last = .ok r →
      t.Shows (t.store.history label) v (ts (n - 1)) ts dset false 65 n 0 := by
  have hn' : n < 2 ^ 64 := hn.trans_lt (by decide)
  have hroot : root n = node (Nat.log2 n) 0 := root_eq h₀ hn'
  have hlevel : Nat.log2 n < 64 := (Nat.log2_lt (by omega)).2 hn'
  have hstart : 0 * 2 ^ (Nat.log2 n + 1) = 0 := Nat.zero_mul _
  have hnew : Within label n (.new label) := ⟨rfl, fun e he => (by cases he)⟩
  obtain ⟨session, hfrontier, hsession⟩ := hr.visitAll_ok hnew fun e (he : e ∈ getFrontier n) =>
    mem_getFrontier_lt hn he
  have hw : t.Descent label n v (ts (n - 1)) ts (0 * 2 ^ (Nat.log2 n + 1))
      (0 * 2 ^ (Nat.log2 n + 1) + n) ⟨session, false, false, [], []⟩ := by
    rw [hstart, Nat.zero_add]
    exact ⟨hsession, fun p hp => (by cases hp), fun d hd => absurd hd (Nat.not_lt_zero d),
      fun d hd hd' => absurd hd' (by omega), fun p hp => (by cases hp), .inr rfl⟩
  obtain ⟨hgood, hbad⟩ := ha.loop hr hdata hn' (.root h₀) (show Nat.log2 n < 65 by omega) hw
  rw [hstart] at hgood hbad
  have hrun : ∀ last, ∃ k, traverseFixedSearch P t n label v last = fixedSearchLoop P t n v
        (t.store.history label) (ts (n - 1)) dset 65 (node (Nat.log2 n) 0) ⟨session, false, false, [], []⟩ >>= k ∧
      ∀ r, k r = (if r.1 = true then pure r.2.session else fixedSearchLookup P t v (ts (n - 1)) dset r.2) >>=
        fun session => session.finalize P t n last >>= fun proof =>
          .ok ⟨proof, session.ladder, session.foundValue, session.foundOpening, v⟩ := by
    intro last
    refine ⟨_, ?_, fun r => rfl⟩
    rw [traverseFixedSearch, hr.timestamp _ (by omega), Result.ok_bind, hdset, Result.ok_bind,
      TraversalSession.visitFrontier, hfrontier, Result.ok_bind, hroot]
    rfl
  constructor
  · intro hshows
    obtain ⟨w', hloop, hsession'⟩ := hgood hshows
    obtain ⟨proof, hproof, -⟩ := hr.finalize_ok hsession' 0
    obtain ⟨k, hrun, hk⟩ := hrun 0
    rw [hrun, hloop, Result.ok_bind, hk]
    simp only [if_true, Result.pure_eq, Result.ok_bind, hproof]
    exact ⟨_, rfl⟩
  · intro last r h
    by_contra hnot
    obtain ⟨k, hrun, hk⟩ := hrun last
    rw [hrun] at h
    obtain ⟨⟨success, w'⟩, hloop, h⟩ := Result.bind_eq_ok.1 h
    rw [hk] at h
    obtain ⟨hfalse, hclosed⟩ := hbad hnot _ hloop
    obtain rfl : success = false := hfalse
    obtain ⟨session', hlookup, -⟩ := Result.bind_eq_ok.1 h
    exact hclosed.lookup_error hr.timestamp session' hlookup

end

end Tree

end KeyTransparency
