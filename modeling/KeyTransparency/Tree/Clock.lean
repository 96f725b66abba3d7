/-
# The server's clock

A commit takes the reading of the system clock as it is, while `refresh_head_timestamp`
compares it with the head it re-stamps.  So over any run of batches, ticks, failed
operations and restarts (`LogRun`), the head is never older than the last log entry, and
the log's timestamps are in order exactly when the clock has not stepped back from one
commit to a later one (`log_timestamps_iff`).
-/

import KeyTransparency.Tree.Commit

namespace KeyTransparency

open Db

namespace Tree

/-- The clock reading of a batch that has committed: the tree has grown. -/
def commitTime (t t' : Tree) (now : Option U64) : List U64 :=
  if t'.treeSize = t.treeSize then [] else now.toList

/-- The runs of a server, with the clock readings of its commits.  A batch and a tick
take the reading that the clock gives them, on a disk that may fail at any operation;
what else happens to the server leaves its head and timestamps alone. -/
inductive LogRun (P : Primitives) : Tree → List U64 → Prop
  | start (t : Tree) (hhead : t.store.head = none) (hlatest : t.latest = none) : LogRun P t []
  | batch {t : Tree} {times : List U64} (run : LogRun P t times) (budget : Option ℕ)
      (now : Option U64) (updates : List PreUpdateData) :
      LogRun P (afterBatch P t budget now updates).2
        (times ++ commitTime t (afterBatch P t budget now updates).2 now)
  | tick {t : Tree} {times : List U64} (run : LogRun P t times) (budget : Option ℕ)
      (now : Option U64) : LogRun P (afterRefresh t budget now).2 times
  | restart {t : Tree} {times : List U64} (run : LogRun P t times) :
      LogRun P { t with latest := t.store.head, auditors := [] } times
  | other {t t' : Tree} {times : List U64} (run : LogRun P t times)
      (htimestamp : t'.store.timestamp = t.store.timestamp) (hhead : t'.store.head = t.store.head)
      (hlatest : t'.latest = t.latest) : LogRun P t' times

/-- The entries' timestamps are non-decreasing, and the head's is not below the last. -/
def TimestampsOrdered (t : Tree) : Prop :=
  ∃ times : List U64, times.length = t.treeSize ∧
    (∀ i (h : i < times.length), LogTree.getTimestamp t.store i = .ok times[i]) ∧
    times.Pairwise (· ≤ ·) ∧
    ∀ th, t.latest = some th → ∀ last, times.getLast? = some last → last ≤ asU64 th.timestamp

/-! ### What a batch leaves -/

/-- A store with the timestamps below a size and the head of another. -/
structure Keeps (n : ℕ) (s₀ s : Store) : Prop where
  timestamp : ∀ i < n, s.timestamp i = s₀.timestamp i
  head : s.head = s₀.head

/-- It also has the timestamp of one more entry. -/
structure Stamped (n : ℕ) (now : U64) (s₀ s : Store) : Prop extends Keeps n s₀ s where
  stamp : s.timestamp n = some now

section

variable {P : Primitives} {n : ℕ} {s₀ : Store} {now : U64}

theorem Keeps.refl (n : ℕ) (s : Store) : Keeps n s s := ⟨fun _ _ => rfl, rfl⟩

theorem Keeps.of_eq {s s' : Store} (h : Keeps n s₀ s) (ht : s'.timestamp = s.timestamp)
    (hh : s'.head = s.head) : Keeps n s₀ s' :=
  ⟨fun i hi => (congrFun ht i).trans (h.timestamp i hi), hh.trans h.head⟩

theorem Stamped.of_eq {s s' : Store} (h : Stamped n now s₀ s) (ht : s'.timestamp = s.timestamp)
    (hh : s'.head = s.head) : Stamped n now s₀ s' :=
  ⟨h.toKeeps.of_eq ht hh, (congrFun ht n).trans h.stamp⟩

variable {α : Type}

theorem keeps_read (f : Store → Result α) :
    Triple (Keeps n s₀) (read f) (fun _ => Keeps n s₀) (Keeps n s₀) :=
  triple_read (fun _ h => h) fun _ _ h _ => h

theorem keeps_ofResult (r : Result α) :
    Triple (Keeps n s₀) (ofResult r) (fun a s => r = .ok a ∧ Keeps n s₀ s) (Keeps n s₀) :=
  triple_ofResult (fun _ h => h) fun _ _ hr h => ⟨hr, h⟩

theorem keeps_write {f : Store → Store} (ht : ∀ s, (f s).timestamp = s.timestamp)
    (hh : ∀ s, (f s).head = s.head) :
    Triple (Keeps n s₀) (write f) (fun _ => Keeps n s₀) (Keeps n s₀) :=
  triple_write (fun _ h => h) fun s h => h.of_eq (ht s) (hh s)

theorem stamped_write {f : Store → Store} (ht : ∀ s, (f s).timestamp = s.timestamp)
    (hh : ∀ s, (f s).head = s.head) :
    Triple (Stamped n now s₀) (write f) (fun _ => Stamped n now s₀) (Keeps n s₀) :=
  triple_write (fun _ h => h.toKeeps) fun s h => h.of_eq (ht s) (hh s)

theorem keeps_batchInsert (version : ℕ) (ptr : Option ℕ) (entries : List (Octets × Octets))
    (cache : NodeCache) :
    Triple (Keeps n s₀) (PrefixTree.batchInsert P dropAll version ptr entries cache)
      (fun _ => Keeps n s₀) (Keeps n s₀) := by
  refine (keeps_read _).bind fun ⟨roots, results, written, ptr, nodes⟩ => ?_
  refine Triple.bind ?_ fun _ => triple_pure fun _ h => h
  exact keeps_write (fun _ => rfl) fun _ => rfl

theorem keeps_appendEntry (root : Octets) (chunkCache : List (ℕ × NodeChunk)) :
    Triple (Keeps n s₀) (LogTree.appendEntry P n (now, root) chunkCache)
      (fun _ => Stamped n now s₀) (Keeps n s₀) := by
  have hload : Triple (Keeps n s₀) (LogTree.loadChunk P (LogMath.chunkId (n * 2)) chunkCache)
      (fun _ => Keeps n s₀) (Keeps n s₀) := by
    unfold LogTree.loadChunk
    cases chunkCache.lookup (LogMath.chunkId (n * 2)) with
    | none =>
      exact (keeps_read _).bind fun _ => triple_pure fun _ h => h
    | some c => exact triple_pure fun _ h => h
  have hstamp : Triple (Keeps n s₀)
      (write fun s => { s with timestamp := Function.update s.timestamp n (some now) })
      (fun _ => Stamped n now s₀) (Keeps n s₀) :=
    triple_write (fun _ h => h) fun s h =>
      ⟨⟨fun i hi => by
        dsimp only
        rw [Function.update_of_ne (by omega)]
        exact h.timestamp i hi, h.head⟩, Function.update_self _ _ _⟩
  unfold LogTree.appendEntry
  refine hload.bind fun _ => (keeps_ofResult _).bind fun _ =>
    (hstamp.consequence (fun _ h => h.2) (fun _ _ h => h) fun _ h => h).bind fun _ => ?_
  refine Triple.bind ?_ fun _ => triple_pure fun _ h => h
  exact stamped_write (fun _ => rfl) fun _ => rfl

theorem keeps_batchAppend (root : Octets) :
    Triple (Keeps n s₀) (LogTree.batchAppend P n [(now, root)])
      (fun _ => Stamped n now s₀) (Keeps n s₀) := by
  have hput : ∀ f : Store → Store, (∀ s, (f s).timestamp = s.timestamp) → (∀ s, (f s).head = s.head) →
      Triple (Stamped n now s₀) (do write f; read fun s => LogTree.getRoot P s (n + 1))
        (fun _ => Stamped n now s₀) (Keeps n s₀) := fun f ht hh =>
    (stamped_write ht hh).bind fun _ => triple_read (fun _ h => h.toKeeps) fun _ _ h _ => h
  have hentry : Triple (Keeps n s₀) (LogTree.appendEntries P n [(now, root)] [])
      (fun _ => Stamped n now s₀) (Keeps n s₀) := by
    exact (keeps_appendEntry root _).bind fun _ => triple_pure fun _ h => h
  unfold LogTree.batchAppend
  refine hentry.bind fun chunkCache => ?_
  refine hput (fun s => { s with log := _ }) ?_ ?_ <;> exact fun _ => rfl

theorem keeps_currentLogPtr (startSize : ℕ) :
    Triple (Keeps n s₀) (currentLogPtr startSize) (fun _ => Keeps n s₀) (Keeps n s₀) := by
  unfold currentLogPtr
  split_ifs
  · exact keeps_read _
  · exact triple_pure fun _ h => h

theorem keeps_assignVersions :
    ∀ (updates : List PreUpdateData) (overlay : Octets → Option ℕ),
      Triple (Keeps n s₀) (assignVersions updates overlay) (fun _ => Keeps n s₀) (Keeps n s₀)
  | [], _ => triple_pure fun _ h => h
  | update :: updates, overlay => by
    unfold assignVersions
    refine (keeps_read _).bind fun history => ?_
    dsimp only
    split_ifs
    · exact (keeps_assignVersions updates _).bind fun _ => triple_pure fun _ h => h
    · exact (keeps_assignVersions updates _).bind fun _ => triple_pure fun _ h => h

/-- What a commit leaves: one more entry, of the clock's reading, and the head of it. -/
structure Committed (n : ℕ) (reading : Option U64) (s₀ : Store) (th : TreeHead) (s : Store) : Prop where
  reading : ∃ now, reading = some now ∧ s.timestamp n = some now ∧ th.timestamp = asI64 now
  timestamp : ∀ i < n, s.timestamp i = s₀.timestamp i
  head : s.head = some th
  size : th.treeSize = n + 1

theorem signHead_eq_ok {config : PrivateConfig} {treeSize : ℕ} {root : Octets} {th : TreeHead}
    (h : signHead P config treeSize now root = .ok th) :
    th.treeSize = treeSize ∧ th.timestamp = asI64 now := by
  obtain ⟨tbs, -, h⟩ := Result.bind_eq_ok.1 h
  obtain rfl := Except.ok.inj h
  exact ⟨rfl, rfl⟩

variable {t : Tree}

theorem commitUpdates_leaves (reading : Option U64) (slots : List (Result PreUpdateData))
    (valid : List PreUpdateData) :
    Triple (Keeps t.treeSize s₀) (commitUpdates P t reading slots valid)
      (fun r s => Committed t.treeSize reading s₀ r.2 s) (Keeps t.treeSize s₀) := by
  unfold commitUpdates
  refine (keeps_ofResult _).bind fun now => ?_
  rcases reading with _ | now'
  · intro d hd
    cases hd.1
  obtain rfl | hne := eq_or_ne now now'
  swap
  · intro d hd
    exact absurd (Except.ok.inj hd.1).symm hne
  refine Triple.consequence (Triple.bind (keeps_read _) fun version => ?_) (fun _ h => h.2)
    (fun _ _ h => h) fun _ h => h
  refine (keeps_currentLogPtr _).bind fun ptr => (keeps_read _).bind fun blob =>
    (keeps_batchInsert _ _ _ _).bind fun ⟨roots, found, finalPrefixPtr, cache⟩ => ?_
  refine Triple.bind (keeps_write (fun _ => rfl) fun _ => rfl) fun _ =>
    Triple.bind (keeps_write (fun _ => rfl) fun _ => rfl) fun _ => (keeps_ofResult _).bind fun root => ?_
  refine Triple.bind (Triple.consequence (keeps_batchAppend root) (fun _ h => h.2) (fun _ _ h => h)
    fun _ h => h) fun newLogRoot => ?_
  refine Triple.bind (stamped_write (fun _ => rfl) fun _ => rfl) fun _ =>
    Triple.bind (stamped_write (fun _ => rfl) fun _ => rfl) fun _ =>
    Triple.bind (stamped_write (fun _ => rfl) fun _ => rfl) fun _ =>
    Triple.bind (stamped_write (fun _ => rfl) fun _ => rfl) fun _ => ?_
  refine Triple.bind (triple_ofResult (fun _ h => h.toKeeps) fun th s hth h =>
    (⟨hth, h⟩ : _ = Except.ok th ∧ Stamped t.treeSize now s₀ s)) fun th => ?_
  have hhead : Triple
      (fun s => signHead P t.config (t.treeSize + 1) now newLogRoot = .ok th ∧ Stamped t.treeSize now s₀ s)
      (write fun s => { s with head := some th })
      (fun _ => Committed t.treeSize (some now) s₀ th) (Keeps t.treeSize s₀) := by
    refine triple_write (fun _ h => h.2.toKeeps) fun s h => ?_
    obtain ⟨hsize, htime⟩ := signHead_eq_ok h.1
    exact ⟨⟨now, rfl, h.2.stamp, htime⟩, h.2.timestamp, rfl, hsize⟩
  exact hhead.bind fun _ => triple_pure fun _ h => h

/-- **A batch** either leaves the entries and the head as they are, or commits. -/
theorem applyBatch_leaves (reading : Option U64) (updates : List PreUpdateData) :
    Triple (Keeps t.treeSize s₀) (applyBatch P t reading updates)
      (fun r s => (t.latest = some r.2 ∧ Keeps t.treeSize s₀ s) ∨
        Committed t.treeSize reading s₀ r.2 s) (Keeps t.treeSize s₀) := by
  unfold applyBatch
  refine ((keeps_ofResult _).consequence (fun _ h => h) (fun _ _ h => h.2) fun _ h => h).bind fun _ =>
    (keeps_assignVersions _ _).bind fun slots => ?_
  dsimp only
  split_ifs
  · refine (keeps_ofResult _).bind fun th => triple_pure fun s h => .inl ⟨?_, h.2⟩
    exact okOr_eq_ok.1 h.1
  · exact (commitUpdates_leaves _ _ _).consequence (fun _ h => h) (fun _ _ h => .inr h) fun _ h => h

/-! ### What runs leave -/

/-- The state of a server whose commits took the given clock readings. -/
structure Clocked (t : Tree) (times : List U64) : Prop where
  head : t.store.head = t.latest
  size : t.treeSize = times.length
  timestamp : ∀ i (h : i < times.length), t.store.timestamp i = some times[i]
  latest : ∀ th, t.latest = some th → ∀ last, times.getLast? = some last → last ≤ asU64 th.timestamp

theorem Clocked.congr {t' : Tree} {times : List U64} (h : Clocked t times)
    (hkeeps : Keeps t.treeSize t.store t'.store) (hlatest : t'.latest = t.latest) :
    Clocked t' times where
  head := hkeeps.head.trans (h.head.trans hlatest.symm)
  size := by rw [treeSize, hlatest, ← treeSize, h.size]
  timestamp i hi := (hkeeps.timestamp i (h.size ▸ hi)).trans (h.timestamp i hi)
  latest := hlatest ▸ h.latest

theorem commitTime_of_latest {t' : Tree} (reading : Option U64) (h : t'.latest = t.latest) :
    commitTime t t' reading = [] := by
  rw [commitTime, treeSize, h, ← treeSize, if_pos rfl]

/-- **A batch** keeps what holds of the timestamps. -/
theorem Clocked.batch {times : List U64} (h : Clocked t times) (budget : Option ℕ)
    (reading : Option U64) (updates : List PreUpdateData) :
    Clocked (afterBatch P t budget reading updates).2
      (times ++ commitTime t (afterBatch P t budget reading updates).2 reading) := by
  have hleaves := applyBatch_leaves (P := P) (t := t) reading updates ⟨t.store, budget⟩
    (Keeps.refl _ _)
  unfold afterBatch
  rcases hr : applyBatch P t reading updates ⟨t.store, budget⟩ with ⟨_ | ⟨results, th⟩, d⟩ <;>
    rw [hr] at hleaves <;> dsimp only at hleaves ⊢
  · have hlatest : ({ t with store := d.store } : Tree).latest = t.latest := rfl
    rw [commitTime_of_latest reading hlatest, List.append_nil]
    exact h.congr hleaves hlatest
  · rcases hleaves with ⟨hlatest, hkeeps⟩ | hc
    · rw [commitTime_of_latest reading hlatest.symm, List.append_nil]
      exact h.congr hkeeps hlatest.symm
    · obtain ⟨now, rfl, hstamp, htime⟩ := hc.reading
      have hsize : ({ t with store := d.store, latest := some th } : Tree).treeSize = t.treeSize + 1 :=
        hc.size
      rw [commitTime, hsize, if_neg (by omega), Option.toList_some]
      refine ⟨hc.head, by rw [hsize, h.size, List.length_append, List.length_singleton],
        fun i hi => ?_, fun th' hth' last hlast => ?_⟩
      · dsimp only
        rcases Nat.lt_or_ge i times.length with hlt | hge
        · rw [List.getElem_append_left hlt, hc.timestamp i (h.size ▸ hlt), h.timestamp i hlt]
        · rw [List.length_append, List.length_singleton] at hi
          obtain rfl : i = t.treeSize := by
            have := h.size
            omega
          rw [List.getElem_append_right hge, hstamp]
          simp
      · obtain rfl : th = th' := Option.some.inj hth'
        rw [List.getLast?_append_of_ne_nil _ (by simp)] at hlast
        obtain rfl : now = last := by simpa using hlast
        rw [htime, asU64_asI64]

/-- The head that a tick re-stamps is later than it was. -/
structure Restamped (t : Tree) (th' : Option TreeHead) (s : Store) : Prop where
  timestamp : ∀ i < t.treeSize, s.timestamp i = t.store.timestamp i
  head : s.head = th'
  later : ∃ th now, t.latest = some th ∧ asU64 th.timestamp < now ∧
    th' = some { th with timestamp := asI64 now }

theorem refreshHeadTimestamp_leaves (reading : Option U64) :
    Triple (Keeps t.treeSize t.store) (refreshHeadTimestamp t reading)
      (fun th s => (t.latest = th ∧ Keeps t.treeSize t.store s) ∨ Restamped t th s)
      (Keeps t.treeSize t.store) := by
  unfold refreshHeadTimestamp
  cases hl : t.latest with
  | none => exact triple_pure fun s h => .inl ⟨rfl, h⟩
  | some th =>
    refine (keeps_ofResult _).bind fun now => ?_
    dsimp only
    split_ifs with hle
    · exact triple_pure fun s h => .inl ⟨rfl, h.2⟩
    · have hwrite : Triple (fun s => okOr reading "second time provided was later than self" = .ok now ∧
          Keeps t.treeSize t.store s)
          (write fun s => { s with head := some { th with timestamp := asI64 now } })
          (fun _ => Restamped t (some { th with timestamp := asI64 now })) (Keeps t.treeSize t.store) :=
        triple_write (fun _ h => h.2) fun s h =>
          ⟨h.2.timestamp, rfl, th, now, hl, not_le.1 hle, rfl⟩
      exact hwrite.bind fun _ => triple_pure fun _ h => .inr h

theorem Clocked.tick {times : List U64} (h : Clocked t times) (budget : Option ℕ)
    (reading : Option U64) : Clocked (afterRefresh t budget reading).2 times := by
  have hleaves := refreshHeadTimestamp_leaves (t := t) reading ⟨t.store, budget⟩ (Keeps.refl _ _)
  unfold afterRefresh
  rcases hr : refreshHeadTimestamp t reading ⟨t.store, budget⟩ with ⟨_ | th', d⟩ <;>
    rw [hr] at hleaves <;> dsimp only at hleaves ⊢
  · exact h.congr hleaves rfl
  · rcases hleaves with ⟨hlatest, hkeeps⟩ | hc
    · exact h.congr hkeeps hlatest.symm
    · obtain ⟨th, now, hl, hlt, rfl⟩ := hc.later
      have hsize : t.treeSize = th.treeSize := by rw [treeSize, hl]; rfl
      refine ⟨hc.head, hsize ▸ h.size, fun i hi => ?_, fun th₂ hth₂ last hlast => ?_⟩
      · exact (hc.timestamp i (h.size ▸ hi)).trans (h.timestamp i hi)
      · obtain rfl := Option.some.inj hth₂
        dsimp only
        rw [asU64_asI64]
        exact (h.latest th hl last hlast).trans hlt.le

/-- **Over every run**, the entries have the readings of their commits, and the head is
not older than the last one. -/
theorem LogRun.clocked {times : List U64} (run : LogRun P t times) : Clocked t times := by
  induction run with
  | start t hhead hlatest =>
    refine ⟨by rw [hhead, hlatest], by rw [treeSize, hlatest]; rfl,
      fun i hi => absurd hi (Nat.not_lt_zero _), fun th hth => ?_⟩
    rw [hlatest] at hth
    cases hth
  | batch run budget now updates ih => exact ih.batch budget now updates
  | tick run budget now ih => exact ih.tick budget now
  | restart run ih => exact ih.congr (Keeps.refl _ _) ih.head
  | other run htimestamp hhead hlatest ih =>
    exact ih.congr ⟨fun i _ => congrFun htimestamp i, hhead⟩ hlatest

theorem Clocked.ordered_iff {times : List U64} (h : Clocked t times) :
    TimestampsOrdered t ↔ times.Pairwise (· ≤ ·) := by
  have hget : ∀ i (hi : i < times.length), LogTree.getTimestamp t.store i = .ok times[i] :=
    fun i hi => by rw [LogTree.getTimestamp, h.timestamp i hi, okOr_some]
  constructor
  · rintro ⟨times', hlen, hget', hsorted, -⟩
    have heq : times' = times := by
      refine List.ext_getElem (hlen.trans h.size) fun i h₁ h₂ => ?_
      exact Except.ok.inj ((hget' i h₁).symm.trans (hget i h₂))
    exact heq ▸ hsorted
  · exact fun hsorted => ⟨times, h.size.symm, hget, hsorted, h.latest⟩

/-- **The log's timestamps are in order exactly when the clock was.**  In any run, they are
non-decreasing, with the head's not below the last, if and only if no commit took a clock
reading below that of an earlier commit. -/
theorem log_timestamps_iff {times : List U64} (run : LogRun P t times) :
    TimestampsOrdered t ↔ times.Pairwise (· ≤ ·) := run.clocked.ordered_iff

end

/-! ### A clock that steps back -/

/-- The first version of a label, for a key of equal bytes. -/
def firstVersion (label : Octets) (byte : ℕ) : PreUpdateData where
  label := label
  value := []
  last := 0
  version := 0
  index := List.replicate 32 byte
  vrfProof := []
  commitment := []
  opening := []

theorem isKey_firstVersion (label : Octets) {byte : ℕ} (h : byte < 256) :
    IsKey (firstVersion label byte).index :=
  ⟨List.length_replicate, fun b hb => by rw [List.eq_of_mem_replicate hb]; exact h⟩

/-- A label without a history takes its first version. -/
theorem validUpdates_firstVersion {s : Store} (label : Octets) (byte : ℕ) (h : s.history label = []) :
    validUpdates s [firstVersion label byte] = [firstVersion label byte] := by
  unfold validUpdates assigned assigned
  dsimp only [firstVersion]
  rw [h]
  rfl

/-- **Two commits**, whatever their clock readings. -/
theorem exists_two_commits (first second : U64) :
    ∃ t, LogRun Primitives.ideal t [first, second] ∧
      t.Sound Primitives.ideal
        [⟨first, [firstVersion [0] 0]⟩, ⟨second, [firstVersion [1] 1]⟩] := by
  have hkeys : ∀ (label : Octets) (byte : ℕ), byte < 256 →
      ∀ u ∈ [firstVersion label byte], IsKey u.index := fun label byte hb u hu => by
    rw [List.mem_singleton.1 hu]
    exact isKey_firstVersion label hb
  have hvalid₁ := validUpdates_firstVersion (s := Store.empty) [0] 0 rfl
  obtain ⟨th₁, s₁, _, hb₁, -, -, hs₁⟩ := afterBatch_sound
    (emptyServer_sound (P := Primitives.ideal) plainConfig) plainConfig_signs (by simp) first
    (hkeys [0] 0 (by decide)) (by
      change validUpdates Store.empty _ ≠ []
      rw [hvalid₁]
      simp)
  change Sound Primitives.ideal _ ([] ++ [⟨first, validUpdates Store.empty [firstVersion [0] 0]⟩]) at hs₁
  rw [hvalid₁] at hs₁
  have hvalid₂ : validUpdates s₁ [firstVersion [1] 1] = [firstVersion [1] 1] :=
    validUpdates_firstVersion [1] 1 ((hs₁.history [1]).trans rfl)
  obtain ⟨th₂, s₂, _, hb₂, -, -, hs₂⟩ := afterBatch_sound hs₁ plainConfig_signs (by simp) second
    (hkeys [1] 1 (by decide)) (by
      dsimp only
      rw [hvalid₂]
      simp)
  dsimp only at hs₂ hb₂
  rw [hvalid₂] at hs₂
  have run₁ := (LogRun.start (P := Primitives.ideal) (emptyServer plainConfig) rfl rfl).batch none
    (some first) [firstVersion [0] 0]
  have run₂ := run₁.batch none (some second) [firstVersion [1] 1]
  rw [hb₁] at run₂
  dsimp only at run₂
  rw [hb₂] at run₂
  have hsize₁ : Tree.treeSize { emptyServer plainConfig with store := s₁, latest := some th₁ } = 1 := hs₁.size
  have hsize₂ : Tree.treeSize { emptyServer plainConfig with store := s₂, latest := some th₂ } = 2 := hs₂.size
  dsimp only at run₂
  rw [commitTime, commitTime, hsize₁, hsize₂] at run₂
  exact ⟨_, run₂, hs₂⟩

/-- A clock that read 1000 at the first commit and 500 at the second. -/
theorem clock_stepped_back : ∃ t, LogRun Primitives.ideal t [1000, 500] ∧ ¬ TimestampsOrdered t := by
  obtain ⟨t, run, -⟩ := exists_two_commits 1000 500
  refine ⟨t, run, fun h => ?_⟩
  have h := run.clocked.ordered_iff.1 h
  revert h
  decide

/-- A clock that read 500 at both commits. -/
theorem log_timestamps_two : ∃ t, LogRun Primitives.ideal t [500, 500] ∧ TimestampsOrdered t := by
  obtain ⟨t, run, -⟩ := exists_two_commits 500 500
  exact ⟨t, run, (log_timestamps_iff run).2 (by decide)⟩

end Tree

end KeyTransparency
