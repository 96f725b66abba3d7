/-
# Obligations are kept

An obligation says that a version must go on existing from its entry on.  Replaying the
obligations moves them up, drops those that reach a distinguished entry, and drops those
that another one covers.  None of this gives up what an obligation says
(`LabelLog.replayed_kept`); the one way to weaken an obligation is to write a lesser version
over it, where it stands.  So along a run in which no step does this, an obligation is kept
until an entry right of it is distinguished (`kept_of_run`).
-/

import KeyTransparency.Client.ReplaySound

namespace KeyTransparency

open BinaryLadder InOrder LogMath Climb

/-! ### One replay -/

/-- **An obligation is kept** by a map that has one further right for no lesser version,
or it is at or left of a distinguished entry. -/
def OrderedMap.Keeps (map : OrderedMap ℕ) (distinguished : List ℕ) (pos ver : ℕ) : Prop :=
  (∃ pos' ver', map.get pos' = some ver' ∧ pos ≤ pos' ∧ ver ≤ ver') ∨ ∃ d ∈ distinguished, pos ≤ d

/-- One map has a lesser version than another where this has an obligation. -/
def OrderedMap.Lowers (map map' : OrderedMap ℕ) : Prop :=
  ∃ pos ver ver', map.get pos = some ver ∧ map'.get pos = some ver' ∧ ver' < ver

namespace OrderedMap.Keeps

variable {map map' : OrderedMap ℕ} {D D' : List ℕ} {pos pos' ver ver' : ℕ}

theorem of_get (h : map.get pos = some ver) : map.Keeps D pos ver := .inl ⟨pos, ver, h, le_rfl, le_rfl⟩

/-- What is kept further right and for a greater version is kept. -/
theorem of_le (h : map.Keeps D pos' ver') (hpos : pos ≤ pos') (hver : ver ≤ ver') : map.Keeps D pos ver := by
  rcases h with ⟨q, v, hget, hle, hle'⟩ | ⟨d, hd, hle⟩
  · exact .inl ⟨q, v, hget, hpos.trans hle, hver.trans hle'⟩
  · exact .inr ⟨d, hd, hpos.trans hle⟩

/-- **A map that keeps the obligations of another** keeps what that one keeps. -/
theorem trans (h : map.Keeps D pos ver) (hD : ∀ d ∈ D, d ∈ D')
    (hkeeps : ∀ {q v : ℕ}, map.get q = some v → map'.Keeps D' q v) : map'.Keeps D' pos ver := by
  rcases h with ⟨q, v, hget, hle, hle'⟩ | ⟨d, hd, hle⟩
  · exact (hkeeps hget).of_le hle hle'
  · exact .inr ⟨d, hD d hd, hle⟩

/-- Erasing an obligation that is kept elsewhere. -/
theorem erase (hself : (map.erase pos).Keeps D pos ver) (hget : map.get pos = some ver) {q v : ℕ}
    (h : map.get q = some v) : (map.erase pos).Keeps D q v := by
  by_cases hq : q = pos
  · subst hq
    obtain rfl := Option.some.inj (hget.symm.trans h)
    exact hself
  · exact .of_get (by rw [OrderedMap.get_erase_of_ne hq, h])

end OrderedMap.Keeps

namespace LabelLog

variable {L : LabelLog} {rmw : ℕ}

/-- A climb ends at its rightmost entry. -/
theorem le_getLast_climbList (hn : L.size ≤ 2 ^ 62) {pos newpos e : ℕ}
    (hlast : (L.climbList rmw pos).getLast? = some newpos) (he : e ∈ L.climbList rmw pos) : e ≤ newpos := by
  obtain ⟨below, hlist⟩ := List.getLast?_eq_some_iff.1 hlast
  have hsorted : (L.climbList rmw pos).Pairwise (· < ·) := pairwise_climbList hn pos
  rw [hlist] at he hsorted
  rcases List.mem_append.1 he with hbelow | hself
  · exact ((List.pairwise_append.1 hsorted).2.2 e hbelow newpos (List.mem_singleton_self _)).le
  · exact (List.mem_singleton.1 hself).le

/-- The replay of obligations leaves the others as they are, where a climb has come. -/
theorem replayed_get {q : ℕ} {entries : List (ℕ × ℕ)} {targets : ℕ → Option ℕ} {map map' : OrderedMap ℕ}
    (h : L.replayed rmw entries targets map = some map') (hne : ∀ e ∈ entries, e.1 ≠ q) (htarget : targets q ≠ none) :
    map'.get q = map.get q := by
  induction entries generalizing targets map with
  | nil => rw [Option.some.inj h]
  | cons e entries ih =>
    obtain ⟨pos, ver⟩ := e
    have hpos : q ≠ pos := Ne.symm (hne _ List.mem_cons_self)
    have hrest : ∀ e ∈ entries, e.1 ≠ q := fun e he => hne e (List.mem_cons_of_mem _ he)
    have htarget' : cover ver (uncovered targets (L.climbList rmw pos)) targets q ≠ none := by
      unfold cover
      split_ifs
      · exact Option.some_ne_none _
      · exact htarget
    rw [replayed] at h
    split_ifs at h with hmem
    · rw [ih h hrest htarget, OrderedMap.get_erase_of_ne hpos]
    · dsimp only at h
      rcases uncovered_cases targets (L.climbList rmw pos) with ⟨hnone, huncovered⟩ | ⟨e, rest, target, hsome, -, -⟩
      · rw [hnone] at h
        rw [ih h hrest htarget', moved]
        cases hlast : (L.climbList rmw pos).getLast? with
        | none => rfl
        | some newpos =>
          -- the climb ends where no other has come
          have hnew : q ≠ newpos := by
            rintro rfl
            have hmem' : q ∈ uncovered targets (L.climbList rmw pos) := by
              rw [← huncovered]
              exact List.mem_of_getLast? hlast
            exact htarget (mem_uncovered hmem').2
          dsimp only
          split_ifs
          · rw [OrderedMap.get_erase_of_ne hpos]
          · rw [OrderedMap.get_insert_of_ne hnew, OrderedMap.get_erase_of_ne hpos]
      · rw [hsome] at h
        dsimp only at h
        split_ifs at h
        rw [ih h hrest htarget', OrderedMap.get_erase_of_ne hpos]

/-- **One obligation of a replay**, the entries left of it still to come: what was there is
kept, where no other entry is touched, and what the climbs have newly covered is kept, too. -/
structure ReplayStep (D : List ℕ) (entries : List (ℕ × ℕ)) (pos : ℕ) (targets targets' : ℕ → Option ℕ)
    (map map₁ : OrderedMap ℕ) : Prop where
  keeps : ∀ q v, map.get q = some v → map₁.Keeps D q v
  same : ∀ x ∈ entries, map₁.get x.1 = map.get x.1
  covered : ∀ e v, targets' e = some v → targets e = some v ∨ map₁.Keeps D e v ∧ pos < e
  fresh : ∀ q v, targets' q = none → map₁.get q = some v → targets q = none ∧ map.get q = some v

namespace ReplayStep

variable {D : List ℕ} {entries : List (ℕ × ℕ)} {targets targets' : ℕ → Option ℕ} {map : OrderedMap ℕ}
  {pos newpos ver : ℕ}

/-- The obligation is dropped. -/
theorem dropped (hself : map.get pos = some ver) (hleft : ∀ x ∈ entries, x.1 < pos)
    (hkept : (map.erase pos).Keeps D pos ver)
    (hcovered : ∀ e v, targets' e = some v → targets e = some v ∨ (map.erase pos).Keeps D e v ∧ pos < e)
    (hnone : ∀ q, targets' q = none → targets q = none) :
    ReplayStep D entries pos targets targets' map (map.erase pos) where
  keeps q v hq := OrderedMap.Keeps.erase hkept hself hq
  same x hx := OrderedMap.get_erase_of_ne (hleft x hx).ne
  covered := hcovered
  fresh q v htarget hq := by
    rw [OrderedMap.get_erase] at hq
    split_ifs at hq
    exact ⟨hnone q htarget, hq⟩

/-- The obligation moves to the end of its climb, over none for a greater version. -/
theorem landed (hself : map.get pos = some ver) (hleft : ∀ x ∈ entries, x.1 < pos) (hpos : pos < newpos)
    (hover : ∀ v, map.get newpos = some v → v ≤ ver)
    (hcovered : ∀ e v, targets' e = some v → targets e = some v ∨ v = ver ∧ e ≤ newpos ∧ pos < e)
    (hnone : ∀ q, targets' q = none → targets q = none ∧ q ≠ newpos) :
    ReplayStep D entries pos targets targets' map ((map.erase pos).insert newpos ver) := by
  have hlanded : ((map.erase pos).insert newpos ver).get newpos = some ver := OrderedMap.get_insert_self
  constructor
  · intro q v hq
    by_cases hqnew : q = newpos
    · subst hqnew
      exact OrderedMap.Keeps.of_le (.of_get hlanded) le_rfl (hover v hq)
    · by_cases hqpos : q = pos
      · subst hqpos
        obtain rfl := Option.some.inj (hself.symm.trans hq)
        exact OrderedMap.Keeps.of_le (.of_get hlanded) hpos.le le_rfl
      · exact .of_get (by rw [OrderedMap.get_insert_of_ne hqnew, OrderedMap.get_erase_of_ne hqpos, hq])
  · intro x hx
    rw [OrderedMap.get_insert_of_ne ((hleft x hx).trans hpos).ne, OrderedMap.get_erase_of_ne (hleft x hx).ne]
  · intro e v htarget
    rcases hcovered e v htarget with hold | ⟨rfl, hle, hlt⟩
    · exact .inl hold
    · exact .inr ⟨OrderedMap.Keeps.of_le (.of_get hlanded) hle le_rfl, hlt⟩
  · intro q v htarget hq
    obtain ⟨hold, hqnew⟩ := hnone q htarget
    rw [OrderedMap.get_insert_of_ne hqnew, OrderedMap.get_erase] at hq
    split_ifs at hq
    exact ⟨hold, hq⟩

end ReplayStep

/-- **What a replay does with its first obligation**: it drops it at a distinguished entry,
moves it to the end of its climb, or drops it where another climb has come. -/
theorem exists_replayStep (hn : L.size ≤ 2 ^ 62) {entries : List (ℕ × ℕ)} {targets : ℕ → Option ℕ}
    {map map' : OrderedMap ℕ} {pos ver : ℕ} (h : L.replayed rmw ((pos, ver) :: entries) targets map = some map')
    (hself : map.get pos = some ver) (hleft : ∀ x ∈ entries, x.1 < pos)
    (htargets : ∀ e v, targets e = some v → map.Keeps (L.distinguished rmw) e v)
    (hlow : ∀ q v v', targets q = none → map.get q = some v → map'.get q = some v' → v ≤ v') :
    ∃ targets' map₁, L.replayed rmw entries targets' map₁ = some map' ∧
      ReplayStep (L.distinguished rmw) entries pos targets targets' map map₁ := by
  have hfresh : ∀ {list : List ℕ}, ∀ q, cover ver list targets q = none → targets q = none ∧ q ∉ list := by
    intro list q hq
    unfold cover at hq
    split_ifs at hq with hmem
    exact ⟨hq, hmem⟩
  rw [replayed] at h
  split_ifs at h with hmem
  · exact ⟨_, _, h, .dropped hself hleft (.inr ⟨pos, hmem, le_rfl⟩) (fun e v htarget => .inl htarget)
      fun q htarget => htarget⟩
  · dsimp only at h
    rcases uncovered_cases targets (L.climbList rmw pos) with
      ⟨hnone, huncovered⟩ | ⟨e₀, rest, target, hsome, htarget₀, hsplit⟩
    · rw [hnone] at h
      dsimp only at h
      rw [← huncovered] at h
      have huntouched : ∀ e ∈ L.climbList rmw pos, targets e = none := by
        intro e he
        rw [huncovered] at he
        exact (mem_uncovered he).2
      cases hlast : (L.climbList rmw pos).getLast? with
      | none =>
        have hmoved : L.moved rmw pos ver map = map := by rw [moved, hlast]
        rw [List.getLast?_eq_none_iff.1 hlast, cover_nil, hmoved] at h
        exact ⟨_, _, h, fun q v hq => .of_get hq, fun x _ => rfl, fun e v htarget => .inl htarget,
          fun q v htarget hq => ⟨htarget, hq⟩⟩
      | some newpos =>
        have hnew : newpos ∈ L.climbList rmw pos := List.mem_of_getLast? hlast
        have hpos : pos < newpos := (mem_climbList hnew).2
        have hcover : ∀ e v, cover ver (L.climbList rmw pos) targets e = some v →
            targets e = some v ∨ v = ver ∧ e ≤ newpos ∧ pos < e := by
          intro e v htarget
          unfold cover at htarget
          split_ifs at htarget with hmem'
          · exact .inr ⟨(Option.some.inj htarget).symm, le_getLast_climbList hn hlast hmem',
              (mem_climbList hmem').2⟩
          · exact .inl htarget
        by_cases hdist : newpos ∈ L.distinguished rmw
        · have hmoved : L.moved rmw pos ver map = map.erase pos := by
            rw [moved, hlast]
            exact if_pos hdist
          rw [hmoved] at h
          have hkept : ∀ {e v : ℕ}, e ≤ newpos → (map.erase pos).Keeps (L.distinguished rmw) e v :=
            fun hle => .inr ⟨newpos, hdist, hle⟩
          exact ⟨_, _, h, .dropped hself hleft (hkept hpos.le)
            (fun e v htarget => (hcover e v htarget).imp_right fun hnew => ⟨hkept hnew.2.1, hnew.2.2⟩)
            fun q htarget => (hfresh q htarget).1⟩
        · have hmoved : L.moved rmw pos ver map = (map.erase pos).insert newpos ver := by
            rw [moved, hlast]
            exact if_neg hdist
          rw [hmoved] at h
          refine ⟨_, _, h, .landed hself hleft hpos (fun v hv => ?_) hcover fun q htarget => ?_⟩
          · -- what was at the place is not lowered
            refine hlow newpos v ver (huntouched newpos hnew) hv ?_
            rw [replayed_get h (fun x hx => ((hleft x hx).trans hpos).ne) (by simp [cover, hnew]),
              OrderedMap.get_insert_self]
          · obtain ⟨hold, hnot⟩ := hfresh q htarget
            exact ⟨hold, fun heq => hnot (heq ▸ hnew)⟩
    · rw [hsome] at h
      dsimp only at h
      split_ifs at h with hlt
      -- the entries below the one that is covered
      have hmem₀ : e₀ ∈ L.climbList rmw pos := by
        rw [hsplit]
        exact List.mem_append_right _ List.mem_cons_self
      have hpos₀ : pos < e₀ := (mem_climbList hmem₀).2
      have hkept₀ : (map.erase pos).Keeps (L.distinguished rmw) e₀ target := by
        rcases htargets e₀ target htarget₀ with ⟨q, v, hget, hle, hle'⟩ | hdist
        · exact .inl ⟨q, v, by rw [OrderedMap.get_erase_of_ne (by omega), hget], hle, hle'⟩
        · exact .inr hdist
      refine ⟨_, _, h, .dropped hself hleft (hkept₀.of_le hpos₀.le hlt.le) (fun e v htarget => ?_)
        fun q htarget => (hfresh q htarget).1⟩
      unfold cover at htarget
      split_ifs at htarget with hmem'
      · obtain rfl := Option.some.inj htarget
        have hsorted' : (L.climbList rmw pos).Pairwise (· < ·) := pairwise_climbList hn pos
        rw [hsplit, List.pairwise_append] at hsorted'
        have hle : e < e₀ := hsorted'.2.2 e hmem' e₀ List.mem_cons_self
        exact .inr ⟨hkept₀.of_le hle.le hlt.le, (mem_climbList (mem_uncovered hmem').1).2⟩
      · exact .inl htarget

/-- **Replaying obligations keeps them**, as long as none is lowered where it stands.  The
induction goes from right to left: what the climbs so far have covered is kept, and where
none has come the map still has what it had. -/
theorem replayed_keeps (hn : L.size ≤ 2 ^ 62) {entries : List (ℕ × ℕ)} {targets : ℕ → Option ℕ}
    {map map' : OrderedMap ℕ} (h : L.replayed rmw entries targets map = some map')
    (hsorted : entries.Pairwise (fun a b => b.1 < a.1)) (hheld : ∀ e ∈ entries, map.get e.1 = some e.2)
    (htargets : ∀ e v, targets e = some v → map.Keeps (L.distinguished rmw) e v ∧ ∀ x ∈ entries, x.1 < e)
    (hlow : ∀ q v v', targets q = none → map.get q = some v → map'.get q = some v' → v ≤ v')
    {q v : ℕ} (hget : map.get q = some v) : map'.Keeps (L.distinguished rmw) q v := by
  induction entries generalizing targets map q v with
  | nil =>
    obtain rfl := Option.some.inj h
    exact .of_get hget
  | cons e entries ih =>
    obtain ⟨hleft, hsorted⟩ := List.pairwise_cons.1 hsorted
    obtain ⟨targets', map₁, hreplay, step⟩ := exists_replayStep hn h (hheld e List.mem_cons_self) hleft
      (fun d v htarget => (htargets d v htarget).1) hlow
    refine (step.keeps q v hget).trans (fun d hd => hd) fun hget₁ => ih hreplay hsorted
      (fun x hx => ?_) (fun d v htarget => ?_) (fun q v v' htarget hq hq' => ?_) hget₁
    · rw [step.same x hx, hheld x (List.mem_cons_of_mem _ hx)]
    · rcases step.covered d v htarget with hold | ⟨hkept, hlt⟩
      · obtain ⟨hkept, hright⟩ := htargets d v hold
        exact ⟨hkept.trans (fun d hd => hd) fun hq => step.keeps _ _ hq,
          fun x hx => hright x (List.mem_cons_of_mem _ hx)⟩
      · exact ⟨hkept, fun x hx => (hleft x hx).trans hlt⟩
    · obtain ⟨htarget, hq⟩ := step.fresh q v htarget hq
      exact hlow q v v' htarget hq hq'

/-- The distinguished entries of a log of which the first entries are there. -/
def distinguishedUpTo (L : LabelLog) (rmw n : ℕ) : List ℕ :=
  distinguishedIn (fun e => (L.timestamp e).val) rmw n (Nat.log2 n) 0 0 (L.timestamp (n - 1)).val

/-- **What is distinguished stays so** while the log grows. -/
theorem distinguishedUpTo_grows {n n' : ℕ} (h₀ : 0 < n) (hle : n ≤ n') (hsize : n' ≤ L.size) :
    ∀ d ∈ L.distinguishedUpTo rmw n, d ∈ L.distinguishedUpTo rmw n' := by
  have hlevel : Nat.log2 n ≤ Nat.log2 n' := by
    rw [Nat.log2_eq_log_two, Nat.log2_eq_log_two]
    exact Nat.log_mono_right hle
  have hinitial : distinguishedIn (fun e => (L.timestamp e).val) rmw n (Nat.log2 n') 0 0
      (L.timestamp (n - 1)).val <+: L.distinguishedUpTo rmw n' :=
    distinguishedIn_initial hle (fun p hp hp' => L.ordered (by omega) (by omega))
      (L.ordered (by omega) (by omega))
  rw [distinguishedIn_above hlevel Nat.lt_log2_self] at hinitial
  exact fun d hd => hinitial.subset hd

/-- **Above an entry that has a distinguished one to the right** there is a distinguished one
on its way, or it is distinguished itself. -/
theorem exists_distinguished_above {ts : ℕ → U64} {n pos d : ℕ} {dset : List ℕ} (hn : n < 2 ^ 64)
    (hd : d ∈ dset) (hle : pos ≤ d) : ∀ {k i size fuel : ℕ} {bounds : U64 × U64} {parentDist : Bool},
    Bounds ts rmw n dset k i size bounds parentDist → k < fuel → i * 2 ^ (k + 1) ≤ pos →
    d < i * 2 ^ (k + 1) + size →
    ∃ d' ∈ dset, d' = pos ∨ pos < d' ∧ d' ∈ ibstDirectPathLoop pos fuel size (i * 2 ^ (k + 1)) := by
  intro k
  induction k using Nat.strong_induction_on with
  | _ k ih =>
    intro i size fuel bounds parentDist h hfuel hlow hhigh
    obtain ⟨fuel, rfl⟩ := Nat.exists_eq_succ_of_ne_zero (show fuel ≠ 0 by omega)
    obtain ⟨hpos, hleft, hroot, hright⟩ := h.block.halving hn
    have hdist : isDist rmw bounds parentDist = true := by
      by_contra hfalse
      exact h.not_mem (Bool.eq_false_iff.2 hfalse) (hlow.trans hle) hhigh hd
    have hself : node k i ∈ dset := h.mem_node.2 hdist
    rw [ibstDirectPathLoop, if_pos hpos, hleft]
    dsimp only
    rw [hroot, hright]
    split_ifs with h₁ h₂
    · exact ⟨node k i, hself, .inl h₁.symm⟩
    · exact ⟨node k i, hself, .inr ⟨h₂, List.mem_cons_self⟩⟩
    · have hnode : node k i = i * 2 ^ (k + 1) + (2 ^ k - 1) := rfl
      have := Nat.two_pow_pos k
      obtain ⟨k', i', hk, hstart, -, hbelow⟩ := h.right hn (show 2 ^ k < size by omega)
      obtain ⟨d', hd', habove⟩ := ih k' hk hbelow (show k' < fuel by omega) (by omega) (by omega)
      rcases habove with heq | ⟨hlt, hmem⟩
      · exact ⟨d', hd', .inl heq⟩
      · rw [hstart] at hmem
        exact ⟨d', hd', .inr ⟨hlt, List.mem_cons_of_mem _ hmem⟩⟩

end LabelLog

/-! ### Runs -/

section

variable {P : Primitives} {env : Env} {c c' : KtClient} {label : Octets} {L : LabelLog} {n : ℕ}

/-- The obligations of a label are inside the log of the client's head. -/
def KtClient.WithinHead (c : KtClient) (label : Octets) : Prop :=
  ∀ e ∈ (c.monitoringMap label).entries, ∃ head, c.state = some head ∧ e.1 < head.treeSize

/-- Whether an obligation is kept, over the log up to the client's head. -/
def KtClient.KeepsObligation (c : KtClient) (L : LabelLog) (label : Octets) (pos ver : ℕ) : Prop :=
  ∃ head, c.state = some head ∧ (c.monitoringMap label).Keeps
    (L.distinguishedUpTo c.config.reasonableMonitoringWindow head.treeSize) pos ver

/-- **Replaying the obligations of a map** keeps them. -/
theorem LabelLog.replayed_map_keeps (hn : L.size ≤ 2 ^ 62) {rmw : ℕ} {map map' : OrderedMap ℕ}
    (h : L.replayed rmw map.entries.reverse (fun _ => none) map = some map') (hlow : ¬map.Lowers map') {q v : ℕ}
    (hget : map.get q = some v) : map'.Keeps (L.distinguished rmw) q v := by
  refine LabelLog.replayed_keeps hn h (List.pairwise_reverse.2 map.sorted)
    (fun e he => OrderedMap.get_eq_some.2 (List.mem_reverse.1 he)) (fun e v htarget => (by cases htarget))
    (fun q v v' _ hq hq' => ?_) hget
  by_contra hlt
  exact hlow ⟨q, v, v', hq, hq', by omega⟩

/-- **One accepted response** keeps the obligations of a label, unless it lowers one. -/
theorem KtClient.keepsObligation_accepted (hP : Function.Injective P.sha256)
    (hZ : ∀ m, P.sha256 m ≠ zeroValue) (hn : L.size ≤ 2 ^ 62) (hkeys : c.KeysAre P label L.key)
    (hconfig : c'.config = c.config) (hwithin : c.WithinHead label) {r : Response} {data : List LeafData}
    (hsmall : r.SmallVersions) (h : Accepted P env c r data c') (hin : c'.HeadIn P (L.leaves P)) :
    c'.WithinHead label ∧ (¬(c.monitoringMap label).Lowers (c'.monitoringMap label) →
      ∀ {q v : ℕ}, (c.monitoringMap label).get q = some v → c'.KeepsObligation L label q v) := by
  -- the head does not shrink
  have hgrows : ∀ e ∈ (c.monitoringMap label).entries, ∃ head, c'.state = some head ∧ e.1 < head.treeSize := by
    intro e he
    obtain ⟨prev, hprev, hlt⟩ := hwithin e he
    obtain ⟨head, hhead, hle⟩ := h.head_grows hprev
    exact ⟨head, hhead, by omega⟩
  have hsame : c'.monitoringMap label = c.monitoringMap label → c'.WithinHead label ∧
      (¬(c.monitoringMap label).Lowers (c'.monitoringMap label) →
        ∀ {q v : ℕ}, (c.monitoringMap label).get q = some v → c'.KeepsObligation L label q v) := by
    intro hmap
    refine ⟨fun e he => hgrows e (hmap ▸ he), fun _ q v hget => ?_⟩
    obtain ⟨head, hhead, -⟩ := hgrows _ (OrderedMap.get_eq_some.1 hget)
    exact ⟨head, hhead, .of_get (by rw [hmap, hget])⟩
  rcases keeps_of_accepted h with ⟨l, requested, resp, v, c₁, rfl, hsearch, rfl⟩ |
    ⟨l, resp, rfl, hmonitor⟩ | ⟨-, hmaps⟩
  · obtain ⟨-, -, -, -, hmaps⟩ := verifySearch_gathered hsearch
    by_cases hl : l = label
    · subst hl
      obtain ⟨head, hstate⟩ := h.exists_head
      obtain ⟨-, hlog⟩ := hin.logOf hn hstate
      obtain ⟨v', c₂, heq, hverify, hshown⟩ := h.search_shown hP hZ hkeys hsmall hstate hlog
      obtain ⟨rfl, rfl⟩ := Prod.mk.inj (Except.ok.inj (hsearch.symm.trans hverify))
      have hlt : v.terminal < head.treeSize := hshown.lt
      have hmap : (c₁.retain l v).monitoringMap l =
          (c.monitoringMap l).insert v.terminal v.targetVersion := by
        simp only [retain, Function.update_self, hmaps]
      refine ⟨?_, fun hlow q w hget => ⟨head, hstate, ?_⟩⟩
      · unfold WithinHead
        rw [hmap]
        exact OrderedMap.forall_insert hgrows ⟨head, hstate, hlt⟩
      · rw [hmap] at hlow ⊢
        by_cases hq : q = v.terminal
        · subst hq
          refine OrderedMap.Keeps.of_le (.of_get OrderedMap.get_insert_self) le_rfl ?_
          by_contra hgreater
          exact hlow ⟨_, w, v.targetVersion, hget, OrderedMap.get_insert_self, by omega⟩
        · exact .of_get (by rw [OrderedMap.get_insert_of_ne hq, hget])
    · exact hsame (by simp [retain, Function.update_of_ne (Ne.symm hl), hmaps])
  · by_cases hl : l = label
    · subst hl
      refine ⟨fun e he => ?_, fun hlow q w hget => ?_⟩
      · have hmoves := verifyContactMonitor_entries (Q := fun e => ∃ head, c'.state = some head ∧ e.1 < head.treeSize)
          hgrows (fun head hhead e he newpos _ hlt => ⟨head, hhead, hlt⟩) (fun head hhead => by
            have := (hin.logOf hn hhead).1
            omega) hmonitor
        exact hmoves.2.2 e he
      · obtain ⟨head, hstate, -⟩ := hgrows _ (OrderedMap.get_eq_some.1 hget)
        obtain ⟨hle, houtcome⟩ := h.contactMonitor_replayed hP hn hin hstate fun e he => by
          obtain ⟨head', hstate', hlt⟩ := hgrows e he
          obtain rfl := Option.some.inj (hstate.symm.trans hstate')
          exact hlt
        have hkept := LabelLog.replayed_map_keeps (hle.trans hn) houtcome hlow hget
        exact ⟨head, hstate, hconfig ▸ hkept⟩
    · obtain ⟨-, hothers, -⟩ := verifyContactMonitor_versions (G := fun _ => True) (fun _ _ => trivial) hmonitor
      exact hsame (hothers label (Ne.symm hl))
  · exact hsame (congrFun hmaps label)

/-- **What is kept stays kept** by a response that lowers no obligation. -/
theorem KtClient.KeepsObligation.accepted (hn : L.size ≤ 2 ^ 62) (hconfig : c'.config = c.config) {r : Response}
    {data : List LeafData} (h : Accepted P env c r data c') (hin : c'.HeadIn P (L.leaves P))
    (hkeeps : ∀ {q v : ℕ}, (c.monitoringMap label).get q = some v → c'.KeepsObligation L label q v)
    {pos ver : ℕ} (hkept : c.KeepsObligation L label pos ver) : c'.KeepsObligation L label pos ver := by
  obtain ⟨prev, hprev, hkept⟩ := hkept
  obtain ⟨head, hhead, hle⟩ := h.head_grows hprev
  obtain ⟨hsize, -⟩ := hin.logOf hn hhead
  refine ⟨head, hhead, hkept.trans (fun d hd => ?_) fun hget => ?_⟩
  · have hlt : d < prev.treeSize := (mem_distinguishedIn hd).1
    rw [hconfig]
    exact LabelLog.distinguishedUpTo_grows (by omega) hle hsize d hd
  · obtain ⟨head', hhead', hkept'⟩ := hkeeps hget
    obtain rfl := Option.some.inj (hhead.symm.trans hhead')
    exact hkept'

end

section

variable {P : Primitives} {server : PrivateConfig} {c c' : KtClient} {label : Octets} {L : LabelLog}

/-- A step that lowers no obligation of a label. -/
def SparingStep (P : Primitives) (leaves : List Octets) (label : Octets) (c c' : KtClient) : Prop :=
  LogStep P leaves (fun _ r => r.SmallVersions) c c' ∧
    ¬(c.monitoringMap label).Lowers (c'.monitoringMap label)

/-- **Along a run** the obligations stay inside the head's log. -/
theorem withinHead_of_run {c₀ : KtClient} (hP : Function.Injective P.sha256) (hZ : ∀ m, P.sha256 m ≠ zeroValue)
    (hn : L.size ≤ 2 ^ 62) (hknows : c₀.Knows P server)
    (hkeys : ∀ {c : KtClient}, c.Knows P server → c.KeysAre P label L.key) (hwithin : c₀.WithinHead label)
    (run : Relation.ReflTransGen (LogStep P (L.leaves P) fun _ r => r.SmallVersions) c₀ c) :
    c.WithinHead label := by
  induction run with
  | refl => exact hwithin
  | @tail b c run step ih =>
    obtain ⟨⟨env, r, data, hsmall, h⟩, hin⟩ := step
    have hb := knows_of_run hknows run
    exact (KtClient.keepsObligation_accepted hP hZ hn (hkeys hb) ((h.knows hb).config.trans hb.config.symm) ih
      hsmall h hin).1

/-- **Along a run that lowers no obligation** what a client has at its beginning is kept. -/
theorem kept_of_run (hP : Function.Injective P.sha256) (hZ : ∀ m, P.sha256 m ≠ zeroValue)
    (hn : L.size ≤ 2 ^ 62) (hknows : c.Knows P server)
    (hkeys : ∀ {c : KtClient}, c.Knows P server → c.KeysAre P label L.key) (hwithin : c.WithinHead label)
    (run : Relation.ReflTransGen (SparingStep P (L.leaves P) label) c c') {pos ver : ℕ}
    (hget : (c.monitoringMap label).get pos = some ver) : c'.KeepsObligation L label pos ver := by
  induction run with
  | refl =>
    obtain ⟨head, hhead, -⟩ := hwithin _ (OrderedMap.get_eq_some.1 hget)
    exact ⟨head, hhead, .of_get hget⟩
  | @tail b c' run step ih =>
    obtain ⟨⟨⟨env, r, data, hsmall, h⟩, hin⟩, hlow⟩ := step
    have run' : Relation.ReflTransGen (LogStep P (L.leaves P) fun _ r => r.SmallVersions) c b :=
      Relation.ReflTransGen.mono (fun a b step => step.1) _ _ run
    have hb := knows_of_run hknows run'
    have hconfig : c'.config = b.config := (h.knows hb).config.trans hb.config.symm
    have hstep := KtClient.keepsObligation_accepted hP hZ hn (hkeys hb) hconfig
      (withinHead_of_run hP hZ hn hknows hkeys hwithin run') hsmall h hin
    exact ih.accepted hn hconfig h hin fun hq => hstep.2 hlow hq

/-- A new client has no obligations. -/
theorem KtClient.withChannel_withinHead {config : PublicConfig} {c₀ : KtClient}
    (hc : KtClient.withChannel P config = .ok c₀) : c₀.WithinHead label := by
  simp only [KtClient.withChannel, Result.bind_eq_ok] at hc
  obtain ⟨-, -, pk, -, hc⟩ := hc
  obtain rfl := Except.ok.inj hc
  exact fun e he => (by cases he)

end

/-! ### Main result -/

/-- **Obligations are kept over runs.**  A new client follows the log of an honest server by
accepting any responses, from whomever, and has an obligation for a label.  It goes on with
any responses, none of which leaves it with a lesser version where it had an obligation.
Then it has an obligation at this entry or to its right, for this version or a greater one,
or an entry has become distinguished that is this one or lies right of it on its way to the
root. -/
theorem obligations_kept {P : Primitives} (hP : Function.Injective P.sha256)
    (hZ : ∀ m, P.sha256 m ≠ zeroValue) {t : Tree} {epochs : List Epoch} {label : Octets}
    (h : HonestLog P t epochs) (hlabel : label.length < 256) (hdist : Distinct P t.config epochs label)
    {config : PublicConfig} {c₀ c c' : KtClient} (hc : KtClient.withChannel P config = .ok c₀)
    (hknows : c₀.Knows P t.config) (hunique : c₀.VrfUnique P)
    (run : Relation.ReflTransGen (LogStep P (leavesOf P epochs) fun _ r => r.SmallVersions) c₀ c)
    (run' : Relation.ReflTransGen (SparingStep P (leavesOf P epochs) label) c c')
    {pos ver : ℕ} (hget : (c.monitoringMap label).get pos = some ver) :
    (∃ pos' ver', (c'.monitoringMap label).get pos' = some ver' ∧ pos ≤ pos' ∧ ver ≤ ver') ∨
      ∃ head, c'.state = some head ∧
        ∃ d ∈ (h.labelLog hlabel hdist).distinguishedUpTo t.config.reasonableMonitoringWindow head.treeSize,
          d = pos ∨ pos < d ∧ d ∈ ibstDirectPath pos head.treeSize := by
  have hn := h.run.size_le
  rw [← h.leaves_eq hlabel hdist] at run run'
  have hkeys : ∀ {c : KtClient}, c.Knows P t.config → c.KeysAre P label (h.labelLog hlabel hdist).key :=
    fun hc => hc.keysAre (hunique.congr hknows hc) h hlabel hdist
  have hwithin := withinHead_of_run hP hZ hn hknows hkeys (KtClient.withChannel_withinHead hc) run
  have hall := run.trans (Relation.ReflTransGen.mono (fun a b step => step.1) _ _ run')
  have hknows' := knows_of_run hknows hall
  obtain ⟨head, hhead, hkept⟩ := kept_of_run hP hZ hn (knows_of_run hknows run) hkeys hwithin run' hget
  rcases hkept with hkept | ⟨d, hd, hle⟩
  · exact .inl hkept
  · have hwindow : c'.config.reasonableMonitoringWindow = t.config.reasonableMonitoringWindow := by
      rw [hknows'.config]
      rfl
    rw [hwindow] at hd
    have hlt : d < head.treeSize := (mem_distinguishedIn hd).1
    have hin : c'.HeadIn P ((h.labelLog hlabel hdist).leaves P) := (clientOf_of_run hc hknows hall).head
    have hsize := (hin.logOf hn hhead).1.trans hn
    have hlevel : Nat.log2 head.treeSize < 64 := (Nat.log2_lt (by omega)).2 (by omega)
    obtain ⟨d', hd', habove⟩ := LabelLog.exists_distinguished_above (by omega) hd hle
      (Bounds.whole (by omega) (h.labelLog hlabel hdist).timestamp t.config.reasonableMonitoringWindow
        ((h.labelLog hlabel hdist).timestamp (head.treeSize - 1)))
      (show Nat.log2 head.treeSize < 65 by omega) (by omega) (by omega)
    refine .inr ⟨head, hhead, d', hd', habove.imp_right fun ⟨hlt, hmem⟩ => ⟨hlt, ?_⟩⟩
    rw [Nat.zero_mul] at hmem
    exact List.mem_reverse.2 hmem

/-- What a search has found is monitored after another search. -/
theorem obligations_kept_searches : ∃ (t : Tree) (epochs : List Epoch)
    (h : HonestLog Primitives.ideal t epochs) (hdist : Distinct Primitives.ideal t.config epochs [])
    (c c' : KtClient) (pos ver : ℕ), (c.monitoringMap []).get pos = some ver ∧ Step Primitives.ideal (fun _ _ => True) c c' ∧
    ((∃ pos' ver', (c'.monitoringMap []).get pos' = some ver' ∧ pos ≤ pos' ∧ ver ≤ ver') ∨
      ∃ head, c'.state = some head ∧ ∃ d ∈ (h.labelLog (by decide) hdist).distinguishedUpTo
        t.config.reasonableMonitoringWindow head.treeSize,
          d = pos ∨ pos < d ∧ d ∈ ibstDirectPath pos head.treeSize) := by
  obtain ⟨t, epochs, h, hdist, hconfig, -, hsearch⟩ := exists_renewed_search
  obtain ⟨resp, data, c, head, hversion, haccepted, hclient, -⟩ := hsearch _ (sampleClient_clientOf hconfig _)
  obtain ⟨resp', data', c', head', hversion', haccepted', hclient', -⟩ := hsearch c hclient
  -- both searches find the same version
  have hfinds : ∀ {c c' : KtClient} {resp : SearchResponse} {data : List LeafData}, resp.version = some 1 →
      Accepted Primitives.ideal ⟨none, fun _ => .ok ()⟩ c (.search [] none resp) data c' →
      ∃ z, c'.monitoringMap [] = (c.monitoringMap []).insert z 1 := by
    intro c c' resp data hversion haccepted
    cases haccepted with
    | @search _ _ _ v c₁ hverify saved =>
      obtain ⟨-, htarget, -, -, hmaps⟩ := KtClient.verifySearch_gathered hverify
      rw [Option.none_or, hversion] at htarget
      refine ⟨v.terminal, ?_⟩
      simp only [KtClient.retain, Function.update_self, hmaps]
      rw [← Option.some.inj htarget]
  obtain ⟨z, hmap⟩ := hfinds hversion haccepted
  obtain ⟨z', hmap'⟩ := hfinds hversion' haccepted'
  have hget : (c.monitoringMap []).get z = some 1 := by rw [hmap, OrderedMap.get_insert_self]
  have hlow : ¬(c.monitoringMap []).Lowers (c'.monitoringMap []) := by
    rintro ⟨pos, ver, ver', hpos, hpos', hlt⟩
    rw [hmap', OrderedMap.get_insert] at hpos'
    rw [hmap, OrderedMap.get_insert] at hpos
    rw [hmap, OrderedMap.get_insert] at hpos'
    have hempty : ((sampleClient 15).monitoringMap []).get pos = none := rfl
    rw [hempty] at hpos hpos'
    split_ifs at hpos hpos' <;> simp_all
  have run : Relation.ReflTransGen (LogStep Primitives.ideal (leavesOf Primitives.ideal epochs) fun _ r =>
      r.SmallVersions) (sampleClient 15) c :=
    .single ⟨⟨_, .search [] none resp, data, small_of_version hversion, haccepted⟩, hclient.head⟩
  have run' : Relation.ReflTransGen (SparingStep Primitives.ideal (leavesOf Primitives.ideal epochs) []) c c' :=
    .single ⟨⟨⟨_, .search [] none resp', data', small_of_version hversion', haccepted'⟩, hclient'.head⟩, hlow⟩
  exact ⟨t, epochs, h, hdist, c, c', z, 1, hget, ⟨_, _, _, trivial, haccepted'⟩,
    obligations_kept Primitives.ideal_sha256_injective Primitives.ideal_sha256_ne_zeros h (by decide) hdist
      (withChannel_sampleClient 15) (hconfig ▸ sampleClient_knows 15) (sampleClient 15).vrfUnique_ideal run run' hget⟩

end KeyTransparency
