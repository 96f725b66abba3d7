/-
# Runs of a server

What a server goes through on a disk that does not fail: batches, ticks of the epoch
ticker, restarts and auditor heads (`ServerRun`), with the epochs it has committed.
-/

import KeyTransparency.Tree.Audit
import KeyTransparency.Tree.Commit

namespace KeyTransparency

/-- The epoch that a batch commits, if it has a valid update. -/
def committedBy (t : Tree) (now : U64) (updates : List PreUpdateData) : List Epoch :=
  if validUpdates t.store updates = [] then [] else [⟨now, validUpdates t.store updates⟩]

/-- The runs of a server without store errors, with the epochs committed. -/
inductive ServerRun (P : Primitives) : Tree → List Epoch → Prop
  | start (config : PrivateConfig) (hsign : Signs P config) : ServerRun P (emptyServer config) []
  | batch {t : Tree} {epochs : List Epoch} (run : ServerRun P t epochs) (now : U64)
      (updates : List PreUpdateData) (hkeys : ∀ u ∈ updates, IsKey u.index)
      (hsize : epochs.length + 1 ≤ 2 ^ 62) :
      ServerRun P (Tree.afterBatch P t none (some now) updates).2 (epochs ++ committedBy t now updates)
  | tick {t : Tree} {epochs : List Epoch} (run : ServerRun P t epochs) (now : U64) :
      ServerRun P (t.afterRefresh none (some now)).2 epochs
  | restart {t : Tree} {epochs : List Epoch} (run : ServerRun P t epochs) :
      ServerRun P { t with latest := t.store.head, auditors := [] } epochs
  | auditor {t t' : Tree} {epochs : List Epoch} (run : ServerRun P t epochs) (head : AuditorTreeHead)
      (auditorKeys : List (Octets × Octets)) (hset : t.setAuditorHead P head auditorKeys = .ok t') :
      ServerRun P t' epochs

section

variable {P : Primitives} {t : Tree} {epochs : List Epoch}

theorem Tree.setAuditorHead_eq_ok {t' : Tree} {head : AuditorTreeHead}
    {auditorKeys : List (Octets × Octets)} (h : t.setAuditorHead P head auditorKeys = .ok t') :
    ∃ auditors, t' = { t with auditors } := by
  obtain ⟨-, -, h⟩ := Result.bind_eq_ok.1 h
  obtain ⟨root, -, h⟩ := Result.bind_eq_ok.1 h
  obtain ⟨verified, -, h⟩ := Result.bind_eq_ok.1 h
  obtain ⟨auditor, -, h⟩ := Result.bind_eq_ok.1 h
  obtain ⟨-, -, h⟩ := Result.bind_eq_ok.1 h
  dsimp only at h
  split_ifs at h <;> obtain ⟨consistency, -, h⟩ := Result.bind_eq_ok.1 h <;>
    exact ⟨_, (Except.ok.inj h).symm⟩

/-- **Every store of a run** is that of its epochs. -/
theorem ServerRun.sound (run : ServerRun P t epochs) : t.Sound P epochs ∧ Signs P t.config := by
  induction run with
  | start config hsign => exact ⟨emptyServer_sound config, hsign⟩
  | @batch t epochs run now updates hkeys hsize ih =>
    obtain ⟨hs, hsign⟩ := ih
    rcases eq_or_ne (validUpdates t.store updates) [] with hnil | hne
    · rw [committedBy, if_pos hnil, List.append_nil, afterBatch_of_none _ hnil]
      exact ⟨hs, hsign⟩
    · obtain ⟨th, store, found, heq, -, -, hs'⟩ := afterBatch_sound hs hsign hsize now hkeys hne
      rw [committedBy, if_neg hne, heq]
      exact ⟨hs', hsign⟩
  | tick run now ih =>
    refine ⟨ih.1.tick (some now), ?_⟩
    rw [Tree.afterRefresh_config]
    exact ih.2
  | @restart t epochs run ih =>
    obtain ⟨hs, hsign⟩ := ih
    refine ⟨?_, hsign⟩
    rw [hs.head]
    exact { hs with }
  | auditor run head auditorKeys hset ih =>
    obtain ⟨auditors, rfl⟩ := Tree.setAuditorHead_eq_ok hset
    exact ⟨{ ih.1 with }, ih.2⟩

/-- The size of a log stays in range. -/
theorem ServerRun.size_le (run : ServerRun P t epochs) : epochs.length ≤ 2 ^ 62 := by
  induction run with
  | start config hsign => exact Nat.zero_le _
  | @batch t epochs run now updates hkeys hsize ih =>
    rw [committedBy]
    split_ifs
    · rwa [List.append_nil]
    · rwa [List.length_append, List.length_singleton]
  | tick run now ih => exact ih
  | restart run ih => exact ih
  | auditor run head auditorKeys hset ih => exact ih

/-- The head of a server is signed for a log; any timestamp may stand beside it. -/
def Tree.HeadSigned (P : Primitives) (t : Tree) (epochs : List Epoch) : Prop :=
  ∀ th, t.latest = some th → ∃ now,
    Tree.signHead P t.config epochs.length now (logRoot P (leavesOf P epochs)) = .ok th

theorem Tree.signHead_restamp {config : PrivateConfig} {n : ℕ} {now now' : U64} {root : Octets}
    {th : TreeHead} (h : Tree.signHead P config n now root = .ok th) :
    Tree.signHead P config n now' root = .ok { th with timestamp := asI64 now' } := by
  obtain ⟨tbs, htbs, h⟩ := Result.bind_eq_ok.1 h
  obtain rfl := Except.ok.inj h
  rw [Tree.signHead, htbs]
  rfl

theorem Tree.HeadSigned.tick (h : t.HeadSigned P epochs) (now : Option U64) :
    (t.afterRefresh none now).2.HeadSigned P epochs := by
  obtain ⟨store, config, latest, auditors⟩ := t
  cases latest with
  | none => exact h
  | some th =>
    cases now with
    | none => exact h
    | some now =>
      have hread : (Db.ofResult (okOr (some now) "second time provided was later than self"))
          ⟨store, none⟩ = (.ok now, ⟨store, none⟩) := rfl
      unfold Tree.afterRefresh Tree.refreshHeadTimestamp
      dsimp only
      rw [Db.bind_apply, hread]
      dsimp only
      split_ifs
      · exact h
      · rintro th' hth'
        obtain rfl := Option.some.inj hth'
        obtain ⟨_, hsigned⟩ := h th rfl
        exact ⟨now, Tree.signHead_restamp hsigned⟩

/-- **Every head of a run** is signed for the log. -/
theorem ServerRun.headSigned (run : ServerRun P t epochs) : t.HeadSigned P epochs := by
  induction run with
  | start config hsign =>
    intro th hth
    cases hth
  | @batch t epochs run now updates hkeys hsize ih =>
    obtain ⟨hs, hsign⟩ := run.sound
    rcases eq_or_ne (validUpdates t.store updates) [] with hnil | hne
    · rw [committedBy, if_pos hnil, List.append_nil, afterBatch_of_none _ hnil]
      exact ih
    · obtain ⟨th, store, found, heq, -, hsigned, -⟩ := afterBatch_sound hs hsign hsize now hkeys hne
      rw [committedBy, if_neg hne, heq]
      rintro th' hth'
      obtain rfl := Option.some.inj hth'
      rw [List.length_append, List.length_singleton]
      exact ⟨now, hsigned⟩
  | tick run now ih => exact ih.tick (some now)
  | @restart t epochs run ih =>
    intro th hth
    exact ih th (run.sound.1.head.symm.trans hth)
  | auditor run head auditorKeys hset ih =>
    obtain ⟨auditors, rfl⟩ := Tree.setAuditorHead_eq_ok hset
    exact ih

end

end KeyTransparency
