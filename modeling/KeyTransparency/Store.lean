/-
# The store

`src/db.rs`: one table for each column family, keyed as there, holding the
decoded messages where the source stores their protobuf encoding.  The store is
read by pure functions; `Db` is a computation that also writes.  A disk may fail
after a number of operations (`Disk.budget`): then a computation stops with what
it wrote so far, which is also what a process that stops leaves behind.
-/

import KeyTransparency.Fault
import KeyTransparency.Proto
import Mathlib.Logic.Function.Basic

namespace KeyTransparency

structure Store where
  log : ℕ → Option Octets
  prefixes : ℕ → Option LogEntry
  value : ℕ → Option Octets
  opening : ℕ → Option Octets
  head : Option TreeHead
  /-- The meta table at `next_prefix_version`. -/
  nextPrefixVersion : Option ℕ
  timestamp : ℕ → Option U64
  prefixRoot : ℕ → Option Octets
  prefixPtr : ℕ → Option ℕ
  history : Octets → List (ℕ × ℕ)
  auditBlob : ℕ → Option AuditorUpdate

namespace Store

def empty : Store where
  log _ := none
  prefixes _ := none
  value _ := none
  opening _ := none
  head := none
  nextPrefixVersion := none
  timestamp _ := none
  prefixRoot _ := none
  prefixPtr _ := none
  history _ := []
  auditBlob _ := none

/-- A write batch: later entries win. -/
def putAll {α : Type} (entries : List (ℕ × α)) (table : ℕ → Option α) : ℕ → Option α :=
  entries.foldl (fun t e => Function.update t e.1 (some e.2)) table

/-- `put_history_batch` appends to the histories of the labels. -/
def putHistoryBatch (entries : List (Octets × ℕ × ℕ)) (table : Octets → List (ℕ × ℕ)) :
    Octets → List (ℕ × ℕ) :=
  entries.foldl (fun t e => Function.update t e.1 (t e.1 ++ [e.2])) table

end Store

/-- A store, and how many more of its operations succeed: all of them when the
budget is `none`. -/
structure Disk where
  store : Store
  budget : Option ℕ

/-- Computations that read and write the disk. -/
abbrev Db := ExceptT Fault (StateM Disk)

namespace Db

variable {α : Type}

/-- One operation: it fails when the budget is used up. -/
def operation (f : Store → Result α × Store) : Db α := fun d =>
  match d.budget with
  | some 0 => (.error (.err "store operation failed"), d)
  | some (b + 1) => ((f d.store).1, ⟨(f d.store).2, some b⟩)
  | none => ((f d.store).1, ⟨(f d.store).2, none⟩)

def read (f : Store → Result α) : Db α := operation fun s => (f s, s)

def write (f : Store → Store) : Db Unit := operation fun s => (.ok (), f s)

/-- A step that does not touch the disk. -/
def ofResult (r : Result α) : Db α := fun d => (r, d)

/-- On a disk that does not fail, `x` turns the store `s` into `s'` and returns
`a`. -/
def Runs (x : Db α) (s : Store) (a : α) (s' : Store) : Prop :=
  x ⟨s, none⟩ = (.ok a, ⟨s', none⟩)

section Runs

variable {β : Type} {x : Db α} {f : α → Db β} {s s' s'' : Store} {a : α} {b : β}

theorem bind_apply (x : Db α) (f : α → Db β) (d : Disk) :
    (x >>= f) d = match x d with
      | (.ok a, d') => f a d'
      | (.error e, d') => (.error e, d') := by
  change (ExceptT.bind x f) d = _
  simp only [ExceptT.bind, ExceptT.mk, ExceptT.bindCont, bind, StateT.bind]
  rcases x d with ⟨_ | _, _⟩ <;> rfl

theorem Runs.bind (h : Runs x s a s') (h' : Runs (f a) s' b s'') : Runs (x >>= f) s b s'' := by
  rw [Runs, bind_apply, h]
  exact h'

theorem Runs.unique {a' : α} (h : Runs x s a s') (h' : Runs x s a' s'') : a = a' ∧ s' = s'' := by
  obtain ⟨h₁, h₂⟩ := Prod.mk.inj (h.symm.trans h')
  exact ⟨Except.ok.inj h₁, (Disk.mk.inj h₂).1⟩

theorem runs_pure (a : α) (s : Store) : Runs (pure a) s a s := rfl

theorem runs_read {f : Store → Result α} (h : f s = .ok a) : Runs (read f) s a s := by
  simp only [Runs, read, operation, h]

theorem runs_read_bind {f : Store → Result α} {g : α → Db β} (h : Runs (read f >>= g) s b s') :
    ∃ a, f s = .ok a ∧ Runs (g a) s b s' := by
  rw [Runs, bind_apply] at h
  simp only [read, operation] at h
  cases hf : f s with
  | error e =>
    rw [hf] at h
    cases (Prod.mk.inj h).1
  | ok a =>
    rw [hf] at h
    exact ⟨a, rfl, h⟩

theorem runs_write (f : Store → Store) (s : Store) : Runs (write f) s () (f s) := rfl

theorem runs_ofResult {r : Result α} (h : r = .ok a) (s : Store) : Runs (ofResult r) s a s := by
  rw [h]
  rfl

end Runs

/-! ### Triples -/

/-- From a store that meets `pre`, whatever the budget: if `x` returns, its result and
the store meet `post`, and if it fails, the store meets `err`. -/
def Triple (pre : Store → Prop) (x : Db α) (post : α → Store → Prop) (err : Store → Prop) : Prop :=
  ∀ d, pre d.store → match x d with
    | (.ok a, d') => post a d'.store
    | (.error _, d') => err d'.store

section Triple

variable {β : Type} {x : Db α} {f : α → Db β} {pre err : Store → Prop} {mid : α → Store → Prop}
  {post : β → Store → Prop}

theorem Triple.bind (hx : Triple pre x mid err) (hf : ∀ a, Triple (mid a) (f a) post err) :
    Triple pre (x >>= f) post err := by
  intro d hd
  have h := hx d hd
  rw [bind_apply]
  rcases hxd : x d with ⟨_ | a, d'⟩
  · rw [hxd] at h
    exact h
  · rw [hxd] at h
    exact hf a d' h

theorem Triple.consequence {pre' err' : Store → Prop} {mid' : α → Store → Prop}
    (hx : Triple pre x mid err) (hpre : ∀ s, pre' s → pre s) (hmid : ∀ a s, mid a s → mid' a s)
    (herr : ∀ s, err s → err' s) : Triple pre' x mid' err' := by
  intro d hd
  have h := hx d (hpre _ hd)
  rcases hxd : x d with ⟨_ | a, d'⟩ <;> rw [hxd] at h
  · exact herr _ h
  · exact hmid _ _ h

theorem triple_pure {a : α} (h : ∀ s, pre s → mid a s) : Triple pre (pure a) mid err :=
  fun _ hd => h _ hd

theorem triple_operation {f : Store → Result α × Store} (hfail : ∀ s, pre s → err s)
    (hok : ∀ s a s', pre s → f s = (.ok a, s') → mid a s')
    (herr : ∀ s e s', pre s → f s = (.error e, s') → err s') :
    Triple pre (operation f) mid err := by
  intro d hd
  have hres : match f d.store with
      | (.ok a, s') => mid a s'
      | (.error _, s') => err s' := by
    rcases hfd : f d.store with ⟨e | a, s'⟩
    · exact herr _ _ _ hd hfd
    · exact hok _ _ _ hd hfd
  rcases hfd : f d.store with ⟨e | a, s'⟩ <;> rw [hfd] at hres <;> unfold operation <;>
    rcases d.budget with _ | _ | b <;> simp only [hfd] <;> first | exact hres | exact hfail _ hd

theorem triple_read {f : Store → Result α} (hfail : ∀ s, pre s → err s)
    (hok : ∀ s a, pre s → f s = .ok a → mid a s) : Triple pre (read f) mid err :=
  triple_operation hfail
    (fun s a s' hs h => by
      obtain ⟨hf, rfl⟩ := Prod.mk.inj h
      exact hok s a hs hf)
    fun s e s' hs h => by
      obtain ⟨-, rfl⟩ := Prod.mk.inj h
      exact hfail s hs

theorem triple_write {f : Store → Store} {mid : Unit → Store → Prop} (hfail : ∀ s, pre s → err s)
    (hok : ∀ s, pre s → mid () (f s)) : Triple pre (write f) mid err :=
  triple_operation hfail
    (fun s a s' hs h => by
      obtain ⟨-, rfl⟩ := Prod.mk.inj h
      exact hok s hs)
    fun s e s' hs h => by cases (Prod.mk.inj h).1

theorem triple_ofResult {r : Result α} (hfail : ∀ s, pre s → err s)
    (hok : ∀ a s, r = .ok a → pre s → mid a s) : Triple pre (ofResult r) mid err := by
  intro d hd
  cases r with
  | error e => exact hfail _ hd
  | ok a => exact hok a _ rfl hd

end Triple

end Db

/-! ### Write batches -/

namespace Store

variable {α : Type}

theorem putAll_of_not_mem {es : List (ℕ × α)} {t : ℕ → Option α} {k : ℕ}
    (h : ∀ e ∈ es, e.1 ≠ k) : putAll es t k = t k := by
  induction es generalizing t with
  | nil => rfl
  | cons e es ih =>
    rw [putAll, List.foldl_cons]
    exact (ih fun e' he => h e' (List.mem_cons_of_mem _ he)).trans
      (Function.update_of_ne (h e List.mem_cons_self).symm _ _)

theorem putAll_of_mem {es : List (ℕ × α)} {t : ℕ → Option α} {k : ℕ} {v : α}
    (hnd : (es.map Prod.fst).Nodup) (h : (k, v) ∈ es) : putAll es t k = some v := by
  induction es generalizing t with
  | nil => exact absurd h (by simp)
  | cons e es ih =>
    rw [List.map_cons, List.nodup_cons] at hnd
    rw [putAll, List.foldl_cons]
    rcases List.mem_cons.1 h with rfl | h
    · refine (putAll_of_not_mem fun e he heq => hnd.1 ?_).trans (Function.update_self _ _ _)
      exact List.mem_map.2 ⟨e, he, heq⟩
    · exact ih hnd.2 h

end Store

end KeyTransparency
