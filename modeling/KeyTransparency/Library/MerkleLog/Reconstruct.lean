/-
# Partial reconstructions of append-only Merkle trees

A verifier that is given some leaves, that has kept the values of some nodes and
that reads the values of further nodes from a list, computes `reconstruct`.  It
descends only into *opened* nodes, the ones above a given leaf.  `needed` lists
the nodes whose values it reads, `walk` the nodes it computes or is given.

* `reconstruct_needed` (completeness): the values at `needed` make it return the
  value of the node, with nothing left over;
* `reconstruct_binding` (soundness): if it returns the true value of the node, all
  it was given, kept and read was true;
* `reconstruct_agree`: two reconstructions of one value agree at every leaf
  both were given.

The values read from the list may have any size; soundness holds because of two
children one is always above a given leaf, and so a digest (`HashScheme`).
-/

import KeyTransparency.Library.MerkleLog.Value

namespace MerkleLog

variable {V : Type*}

/-! ### Blocks above positions -/

/-- Whether the node at level `k` and block `i` is above one of the positions. -/
def above (ps : List ℕ) (k i : ℕ) : Bool := ps.any fun p => p / 2 ^ k == i

theorem above_iff {ps : List ℕ} {k i : ℕ} : above ps k i = true ↔ ∃ p ∈ ps, p / 2 ^ k = i := by
  simp [above]

theorem above_zero {ps : List ℕ} {i : ℕ} : above ps 0 i = true ↔ i ∈ ps := by
  simp [above_iff]

theorem above_self {ps : List ℕ} {p : ℕ} (hp : p ∈ ps) (k : ℕ) : above ps k (p / 2 ^ k) = true :=
  above_iff.2 ⟨p, hp, rfl⟩

/-- The block of level `k` above a position. -/
theorem div_two_pow_bounds (p k : ℕ) :
    p / 2 ^ k * 2 ^ k ≤ p ∧ p < (p / 2 ^ k + 1) * 2 ^ k :=
  ⟨Nat.div_mul_le_self p _, by
    rw [Nat.mul_comm]
    exact Nat.lt_mul_div_succ p (Nat.two_pow_pos k)⟩

theorem div_two_pow_eq_iff {p k i : ℕ} : p / 2 ^ k = i ↔ i * 2 ^ k ≤ p ∧ p < (i + 1) * 2 ^ k := by
  rw [Nat.div_eq_iff (Nat.two_pow_pos k)]
  have := Nat.two_pow_pos k
  rw [Nat.add_one_mul]
  omega

/-- A node is above a position when one of its children is. -/
theorem above_succ {ps : List ℕ} {k i : ℕ} :
    above ps (k + 1) i = true ↔ above ps k (2 * i) = true ∨ above ps k (2 * i + 1) = true := by
  simp only [above_iff, pow_succ, ← Nat.div_div_eq_div_mul]
  constructor
  · rintro ⟨p, hp, h⟩
    rcases Nat.even_or_odd' (p / 2 ^ k) with ⟨j, hj | hj⟩
    · exact .inl ⟨p, hp, by omega⟩
    · exact .inr ⟨p, hp, by omega⟩
  · rintro (⟨p, hp, h⟩ | ⟨p, hp, h⟩) <;> exact ⟨p, hp, by omega⟩

/-! ### Reconstructions -/

section Reconstruct

variable (par : Bool → V → V → V) (n : ℕ)

/-- The nodes whose values a verifier reads from its list, in the order it reads
them: the ones reached but neither opened nor kept. -/
def needed (opened kept : ℕ → ℕ → Bool) : ℕ → ℕ → List (ℕ × ℕ)
  | 0, i => if opened 0 i then [] else if kept 0 i then [] else [(0, i)]
  | k + 1, i =>
    if opened (k + 1) i then
      if (2 * i + 1) * 2 ^ k < n then
        needed opened kept k (2 * i) ++ needed opened kept k (2 * i + 1)
      else needed opened kept k (2 * i)
    else if kept (k + 1) i then [] else [(k + 1, i)]

/-- The nodes a verifier reaches, children before their parent. -/
def walk (opened : ℕ → ℕ → Bool) : ℕ → ℕ → List (ℕ × ℕ)
  | 0, i => [(0, i)]
  | k + 1, i =>
    if opened (k + 1) i then
      if (2 * i + 1) * 2 ^ k < n then
        walk opened k (2 * i) ++ walk opened k (2 * i + 1) ++ [(k + 1, i)]
      else walk opened k (2 * i) ++ [(k + 1, i)]
    else [(k + 1, i)]

/-- The value of a node that is not opened: the kept one, else the next one of
the list. -/
def stub (kept : Option V) : List V → Option (V × List V) := fun vs =>
  match kept, vs with
  | some v, vs => some (v, vs)
  | none, v :: vs => some (v, vs)
  | none, [] => none

/-- The value a verifier computes for a node, what is left of its list, and the
nodes it reached with their values. -/
def reconstruct (given : ℕ → Option V) (opened : ℕ → ℕ → Bool) (kept : ℕ → ℕ → Option V) :
    ℕ → ℕ → List V → Option (V × List V × List ((ℕ × ℕ) × V))
  | 0, i, vs =>
    match given i with
    | some v => some (v, vs, [((0, i), v)])
    | none => (stub (kept 0 i) vs).map fun (v, vs) => (v, vs, [((0, i), v)])
  | k + 1, i, vs =>
    if opened (k + 1) i then
      (reconstruct given opened kept k (2 * i) vs).bind fun (l, vs, ls) =>
        if (2 * i + 1) * 2 ^ k < n then
          (reconstruct given opened kept k (2 * i + 1) vs).map fun (r, vs, rs) =>
            (par (k == 0) l r, vs, ls ++ rs ++ [((k + 1, i), par (k == 0) l r)])
        else some (l, vs, ls ++ [((k + 1, i), l)])
    else (stub (kept (k + 1) i) vs).map fun (v, vs) => (v, vs, [((k + 1, i), v)])

variable {par n}

theorem needed_opened {opened kept : ℕ → ℕ → Bool} {k i : ℕ} (h : opened (k + 1) i = true) :
    needed n opened kept (k + 1) i =
      if (2 * i + 1) * 2 ^ k < n then
        needed n opened kept k (2 * i) ++ needed n opened kept k (2 * i + 1)
      else needed n opened kept k (2 * i) := by
  rw [needed, if_pos h]

theorem needed_closed {opened kept : ℕ → ℕ → Bool} {k i : ℕ} (h : opened k i = false) :
    needed n opened kept k i = if kept k i then [] else [(k, i)] := by
  cases k <;> simp [needed, h]

/-- A verifier that is given every leaf needs nothing else. -/
theorem needed_all {kept : ℕ → ℕ → Bool} : ∀ {k i : ℕ}, i * 2 ^ k < n →
    needed n (above (List.range n)) kept k i = []
  | 0, i, hi => by
    have hopen : above (List.range n) 0 i = true := above_zero.2 (List.mem_range.2 (by omega))
    simp [needed, hopen]
  | k + 1, i, hi => by
    obtain ⟨e₀, -, -, -⟩ := block_halves k i
    have hopen : above (List.range n) (k + 1) i = true := by
      refine above_iff.2 ⟨i * 2 ^ (k + 1), List.mem_range.2 hi, ?_⟩
      exact Nat.mul_div_cancel _ (Nat.two_pow_pos _)
    rw [needed_opened hopen, needed_all (by omega)]
    split_ifs with hr
    · rw [needed_all hr]
      rfl
    · rfl

variable {given : ℕ → Option V} {opened : ℕ → ℕ → Bool} {kept : ℕ → ℕ → Option V} {leaf : ℕ → V}

/-- A reached node at level `k` is the start of the walk below it. -/
theorem mem_walk_self (k i : ℕ) : (k, i) ∈ walk n opened k i := by
  cases k with
  | zero => simp [walk]
  | succ k => rw [walk]; split_ifs <;> simp

/-- **The needed values suffice.**  Given true leaves, true kept values and the
true values at the needed nodes, a verifier computes the true value, reads
exactly these values, and every node it reaches gets its true value. -/
theorem reconstruct_needed (hopen : ∀ i, opened 0 i = (given i).isSome)
    (hgiven : ∀ i v, given i = some v → v = leaf i)
    (hkept : ∀ k i v, (k, i) ∈ walk n opened k i → opened k i = false →
      kept k i = some v → v = value par leaf n k i) (rest : List V) :
    ∀ k i, reconstruct par n given opened kept k i
        ((needed n opened (fun k i => (kept k i).isSome) k i).map
          (fun c => value par leaf n c.1 c.2) ++ rest) =
      some (value par leaf n k i, rest,
        (walk n opened k i).map fun c => (c, value par leaf n c.1 c.2))
  | 0, i => by
    cases hg : given i with
    | some v =>
      obtain rfl := hgiven i v hg
      simp [reconstruct, needed, walk, hopen, hg]
    | none =>
      cases hk : kept 0 i with
      | some v =>
        obtain rfl := hkept 0 i v (mem_walk_self 0 i) (by simp [hopen, hg]) hk
        simp [reconstruct, needed, walk, hopen, hg, hk, stub]
      | none => simp [reconstruct, needed, walk, hopen, hg, hk, stub]
  | k + 1, i => by
    have ih := reconstruct_needed hopen hgiven hkept (k := k)
    by_cases ho : opened (k + 1) i
    · by_cases hr : (2 * i + 1) * 2 ^ k < n
      · rw [reconstruct, needed, walk, if_pos ho, if_pos ho, if_pos ho, if_pos hr, if_pos hr,
          List.map_append, List.append_assoc, ih]
        simp only [Option.bind_some, if_pos hr, ih, Option.map_some, value_succ_of_lt hr,
          List.map_append, List.map_cons, List.map_nil]
      · rw [reconstruct, needed, walk, if_pos ho, if_pos ho, if_pos ho, if_neg hr, if_neg hr, ih]
        simp only [Option.bind_some, if_neg hr, value_succ_of_le (Nat.not_lt.1 hr),
          List.map_append, List.map_cons, List.map_nil]
    · rw [Bool.not_eq_true] at ho
      cases hk : kept (k + 1) i with
      | some v =>
        obtain rfl := hkept (k + 1) i v (mem_walk_self _ i) ho hk
        simp [reconstruct, needed, walk, ho, hk, stub]
      | none => simp [reconstruct, needed, walk, ho, hk, stub]

end Reconstruct

/-! ### Soundness -/

section Sound

/-- A verifier opens the nodes above its given leaves and no others. -/
structure Opens (n : ℕ) (given : ℕ → Option V) (opened : ℕ → ℕ → Bool) : Prop where
  leaf : ∀ i, opened 0 i = (given i).isSome
  child : ∀ k i, opened (k + 1) i = true →
    opened k (2 * i) = true ∨ (2 * i + 1) * 2 ^ k < n ∧ opened k (2 * i + 1) = true

theorem Opens.of_above {n : ℕ} {given : ℕ → Option V} {ps : List ℕ}
    (hps : ∀ p, (given p).isSome = true ↔ p ∈ ps) (hlt : ∀ p ∈ ps, p < n) :
    Opens n given (above ps) where
  leaf i := by rw [Bool.eq_iff_iff, above_zero, hps]
  child k i h := by
    refine (above_succ.1 h).imp_right fun h => ⟨?_, h⟩
    obtain ⟨p, hp, h⟩ := above_iff.1 h
    have := (div_two_pow_eq_iff.1 h).1
    have := hlt p hp
    omega

variable {S : HashScheme V} {n : ℕ} {given : ℕ → Option V} {opened : ℕ → ℕ → Bool}
  {kept : ℕ → ℕ → Option V} {leaf : ℕ → V}

theorem stub_eq_some {kv : Option V} {vs rest : List V} {v : V} (h : stub kv vs = some (v, rest)) :
    kv = some v ∧ rest = vs ∨ kv = none ∧ vs = v :: rest := by
  unfold stub at h
  split at h <;> simp_all

/-- What a verifier computes at an opened node. -/
theorem reconstruct_opened {par : Bool → V → V → V} {k i : ℕ} {vs rest : List V} {v : V}
    {visits : List ((ℕ × ℕ) × V)} (hi : opened (k + 1) i = true)
    (h : reconstruct par n given opened kept (k + 1) i vs = some (v, rest, visits)) :
    ∃ l vs₁ ls, reconstruct par n given opened kept k (2 * i) vs = some (l, vs₁, ls) ∧
      ((2 * i + 1) * 2 ^ k < n ∧ (∃ r rs, v = par (k == 0) l r ∧
          reconstruct par n given opened kept k (2 * i + 1) vs₁ = some (r, rest, rs) ∧
          visits = ls ++ rs ++ [((k + 1, i), v)]) ∨
        n ≤ (2 * i + 1) * 2 ^ k ∧ v = l ∧ rest = vs₁ ∧ visits = ls ++ [((k + 1, i), v)]) := by
  rw [reconstruct, if_pos hi, Option.bind_eq_some_iff] at h
  obtain ⟨⟨l, vs₁, ls⟩, hl, h⟩ := h
  refine ⟨l, vs₁, ls, hl, ?_⟩
  by_cases hr : (2 * i + 1) * 2 ^ k < n
  · simp only [if_pos hr, Option.map_eq_some_iff, Prod.mk.injEq, Prod.exists] at h
    obtain ⟨r, vs₂, rs, hr', rfl, rfl, rfl⟩ := h
    exact .inl ⟨hr, r, rs, rfl, hr', rfl⟩
  · simp only [if_neg hr, Option.some.injEq, Prod.mk.injEq] at h
    obtain ⟨rfl, rfl, rfl⟩ := h
    exact .inr ⟨Nat.not_lt.1 hr, rfl, rfl, rfl⟩

/-- What a verifier computes for an opened node is a digest. -/
theorem reconstruct_digest (ho : Opens n given opened)
    (hgiven : ∀ p v, given p = some v → S.Digest v) :
    ∀ {k i vs v rest visits}, opened k i = true →
      reconstruct S.par n given opened kept k i vs = some (v, rest, visits) → S.Digest v
  | 0, i, vs, v, rest, visits, hi, h => by
    rw [ho.leaf, Option.isSome_iff_exists] at hi
    obtain ⟨w, hw⟩ := hi
    simp only [reconstruct, hw, Option.some.injEq, Prod.mk.injEq] at h
    exact h.1 ▸ hgiven i w hw
  | k + 1, i, vs, v, rest, visits, hi, h => by
    obtain ⟨l, vs₁, ls, hl, ⟨-, r, rs, rfl, -⟩ | ⟨hr, rfl, -⟩⟩ := reconstruct_opened hi h
    · exact S.par_digest _ _ _
    · exact reconstruct_digest ho hgiven
        ((ho.child k i hi).resolve_right fun h => absurd h.1 (by omega)) hl

/-- **Soundness.**  If a verifier computes the true value of a node, then it read
the true values of the needed nodes, and every node it reached got its true
value. -/
theorem reconstruct_binding (ho : Opens n given opened)
    (hgiven : ∀ p v, given p = some v → S.Digest v) (hleaf : ∀ p < n, S.Digest (leaf p)) :
    ∀ {k i vs rest visits}, i * 2 ^ k < n →
      reconstruct S.par n given opened kept k i vs =
        some (value S.par leaf n k i, rest, visits) →
      vs = (needed n opened (fun k i => (kept k i).isSome) k i).map
          (fun c => value S.par leaf n c.1 c.2) ++ rest ∧
        visits = (walk n opened k i).map fun c => (c, value S.par leaf n c.1 c.2)
  | 0, i, vs, rest, visits, hi, h => by
    have ho₀ := ho.leaf i
    cases hg : given i with
    | some v =>
      simp only [reconstruct, hg, value_zero, Option.some.injEq, Prod.mk.injEq] at h
      obtain ⟨rfl, rfl, rfl⟩ := h
      simp [needed, walk, ho₀, hg]
    | none =>
      simp only [reconstruct, hg, value_zero, Option.map_eq_some_iff, Prod.mk.injEq] at h
      obtain ⟨⟨v, vs'⟩, hs, rfl, rfl, rfl⟩ := h
      rcases stub_eq_some hs with ⟨hk, rfl⟩ | ⟨hk, rfl⟩ <;> simp [needed, walk, ho₀, hg, hk]
  | k + 1, i, vs, rest, visits, hi, h => by
    obtain ⟨e₀, e₁, e₂, e₃⟩ := block_halves k i
    by_cases hop : opened (k + 1) i = true
    · obtain ⟨l, vs₁, ls, hl, ⟨hr, r, rs, e, hr', rfl⟩ | ⟨hr, e, rfl, rfl⟩⟩ :=
        reconstruct_opened hop h
      · obtain ⟨rfl, rfl⟩ : value S.par leaf n k (2 * i) = l ∧
            value S.par leaf n k (2 * i + 1) = r := by
          rw [value_succ_of_lt hr] at e
          -- one child is above a given leaf, so its value is a digest
          rcases ho.child k i hop with hc | ⟨-, hc⟩
          · exact (S.par_inj_left (HashScheme.value_digest hleaf (by omega))
              (reconstruct_digest ho hgiven hc hl) e).2
          · exact (S.par_inj_right (HashScheme.value_digest hleaf hr)
              (reconstruct_digest ho hgiven hc hr') e).2
        obtain ⟨rfl, rfl⟩ := reconstruct_binding ho hgiven hleaf (by omega) hl
        obtain ⟨rfl, rfl⟩ := reconstruct_binding ho hgiven hleaf hr hr'
        rw [needed, walk, if_pos hop, if_pos hop, if_pos hr, if_pos hr]
        simp
      · rw [value_succ_of_le hr] at e
        subst e
        obtain ⟨rfl, rfl⟩ := reconstruct_binding ho hgiven hleaf (by omega) hl
        rw [needed, walk, if_pos hop, if_pos hop, if_neg (by omega), if_neg (by omega)]
        simp
    · rw [reconstruct, if_neg hop] at h
      obtain ⟨⟨v, vs'⟩, hs, h⟩ := Option.map_eq_some_iff.1 h
      simp only [Prod.mk.injEq] at h
      obtain ⟨rfl, rfl, rfl⟩ := h
      rcases stub_eq_some hs with ⟨hk, rfl⟩ | ⟨hk, rfl⟩ <;> simp [needed, walk, hop, hk]

/-- **Agreement.**  Two verifiers that compute the same value for a node were
given the same leaf wherever both were given one. -/
theorem reconstruct_agree {given' : ℕ → Option V} {opened' : ℕ → ℕ → Bool}
    {kept' : ℕ → ℕ → Option V} (ho : Opens n given opened) (ho' : Opens n given' opened')
    (hgiven : ∀ p v, given p = some v → S.Digest v)
    (hgiven' : ∀ p v, given' p = some v → S.Digest v) {p : ℕ}
    (hp : ∀ k, opened k (p / 2 ^ k) = true) (hp' : ∀ k, opened' k (p / 2 ^ k) = true)
    (hn : p < n) :
    ∀ {k vs vs' v rest rest' visits visits'},
      reconstruct S.par n given opened kept k (p / 2 ^ k) vs = some (v, rest, visits) →
      reconstruct S.par n given' opened' kept' k (p / 2 ^ k) vs' = some (v, rest', visits') →
      given p = given' p
  | 0, vs, vs', v, rest, rest', visits, visits', h, h' => by
    have h₀ := hp 0
    have h₀' := hp' 0
    rw [pow_zero, Nat.div_one] at *
    rw [ho.leaf, Option.isSome_iff_exists] at h₀
    rw [ho'.leaf, Option.isSome_iff_exists] at h₀'
    obtain ⟨w, hw⟩ := h₀
    obtain ⟨w', hw'⟩ := h₀'
    simp only [reconstruct, hw, hw', Option.some.injEq, Prod.mk.injEq] at h h'
    rw [hw, hw', h.1, h'.1]
  | k + 1, vs, vs', v, rest, rest', visits, visits', h, h' => by
    obtain ⟨l, vs₁, ls, hl, hv⟩ := reconstruct_opened (hp _) h
    obtain ⟨l', vs₁', ls', hl', hv'⟩ := reconstruct_opened (hp' _) h'
    have hpk : p / 2 ^ (k + 1) = p / 2 ^ k / 2 := by rw [pow_succ, Nat.div_div_eq_div_mul]
    have hlow := (div_two_pow_bounds p k).1
    rcases hv with ⟨hr, r, rs, e, hr₁, -⟩ | ⟨hr, rfl, -⟩
    · obtain ⟨-, r', rs', e', hr₁', -⟩ := hv'.resolve_right fun h => absurd h.1 (by omega)
      rw [e] at e'
      rcases Nat.mod_two_eq_zero_or_one (p / 2 ^ k) with hb | hb
      · rw [hpk, show 2 * (p / 2 ^ k / 2) = p / 2 ^ k by omega] at hl hl'
        obtain ⟨-, rfl, -⟩ := S.par_inj_left (reconstruct_digest ho hgiven (hp k) hl)
          (reconstruct_digest ho' hgiven' (hp' k) hl') e'
        exact reconstruct_agree ho ho' hgiven hgiven' hp hp' hn hl hl'
      · rw [hpk, show 2 * (p / 2 ^ k / 2) + 1 = p / 2 ^ k by omega] at hr₁ hr₁'
        obtain ⟨-, -, rfl⟩ := S.par_inj_right (reconstruct_digest ho hgiven (hp k) hr₁)
          (reconstruct_digest ho' hgiven' (hp' k) hr₁') e'
        exact reconstruct_agree ho ho' hgiven hgiven' hp hp' hn hr₁ hr₁'
    · obtain ⟨-, rfl, -⟩ := hv'.resolve_left fun h => absurd h.1 (by omega)
      have hb : 2 * (p / 2 ^ (k + 1)) = p / 2 ^ k := by
        by_contra hb
        rw [show 2 * (p / 2 ^ (k + 1)) + 1 = p / 2 ^ k by omega] at hr
        omega
      rw [hb] at hl hl'
      exact reconstruct_agree ho ho' hgiven hgiven' hp hp' hn hl hl'

end Sound

end MerkleLog
