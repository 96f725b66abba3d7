/-
# Probe trees

A search that asks one question after the other, where the answer decides what is
asked next: a tree with a question at every node.  Under a fixed way of answering it
takes one path; a search that stops early takes the beginning of it.
-/

import Mathlib.Data.List.Basic
import Mathlib.Data.Nat.Notation
import Mathlib.Tactic.SplitIfs

namespace KeyTransparency

/-- The questions of a search, numbered. -/
inductive ProbeTree
  | done
  | probe (v : ℕ) (yes no : ProbeTree)

namespace ProbeTree

variable {answer answer' : ℕ → Bool} {stop : ℕ → Bool → Bool}

/-- The questions that are asked under the given answers. -/
def path (answer : ℕ → Bool) : ProbeTree → List ℕ
  | done => []
  | probe v yes no => v :: if answer v then yes.path answer else no.path answer

/-- The questions up to the first one whose answer ends the search. -/
def cut (answer : ℕ → Bool) (stop : ℕ → Bool → Bool) : ProbeTree → List ℕ
  | done => []
  | probe v yes no =>
    v :: if stop v (answer v) then []
      else if answer v then yes.cut answer stop else no.cut answer stop

/-- A record of questions and answers that a search can have had. -/
inductive Trace (stop : ℕ → Bool → Bool) : ProbeTree → List (ℕ × Bool) → Prop
  | done : Trace stop .done []
  | stop {v : ℕ} {b : Bool} {yes no : ProbeTree} (h : stop v b = true) :
      Trace stop (.probe v yes no) [(v, b)]
  | yes {v : ℕ} {yes no : ProbeTree} {l : List (ℕ × Bool)} (h : stop v true = false)
      (rest : Trace stop yes l) : Trace stop (.probe v yes no) ((v, true) :: l)
  | no {v : ℕ} {yes no : ProbeTree} {l : List (ℕ × Bool)} (h : stop v false = false)
      (rest : Trace stop no l) : Trace stop (.probe v yes no) ((v, false) :: l)

@[simp] theorem trace_done {l : List (ℕ × Bool)} : Trace stop .done l ↔ l = [] := by
  constructor
  · rintro ⟨⟩
    rfl
  · rintro rfl
    exact .done

/-- A record of a search begins with the first question. -/
theorem trace_probe {v : ℕ} {yes no : ProbeTree} {l : List (ℕ × Bool)} :
    Trace stop (.probe v yes no) l ↔ ∃ b rest, l = (v, b) :: rest ∧
      if stop v b then rest = [] else Trace stop (if b then yes else no) rest := by
  constructor
  · intro h
    cases h with
    | stop h => exact ⟨_, [], rfl, by rw [if_pos h]⟩
    | yes h rest => exact ⟨true, _, rfl, by rw [if_neg (by simp [h]), if_pos rfl]; exact rest⟩
    | no h rest => exact ⟨false, _, rfl, by rw [if_neg (by simp [h]), if_neg (by simp)]; exact rest⟩
  · rintro ⟨b, rest, rfl, h⟩
    split_ifs at h with hstop hb
    · rw [h]
      exact .stop hstop
    · subst hb
      exact .yes (by simpa using hstop) h
    · obtain rfl : b = false := by simpa using hb
      exact .no (by simpa using hstop) h

/-- **A record is the search under its own answers.** -/
theorem Trace.eq_cut {t : ProbeTree} {l : List (ℕ × Bool)} (h : Trace stop t l)
    (hans : ∀ p ∈ l, p.2 = answer p.1) : l = (t.cut answer stop).map fun v => (v, answer v) := by
  induction h with
  | done => rfl
  | stop h =>
    have hv := hans _ List.mem_cons_self
    simp only at hv
    rw [cut, ← hv, if_pos h, List.map_singleton, ← hv]
  | yes h _ ih =>
    have hv := hans _ List.mem_cons_self
    simp only at hv
    rw [cut, ← hv, if_neg (by simp [h]), if_pos rfl, List.map_cons, ← hv,
      ← ih fun p hp => hans p (List.mem_cons_of_mem _ hp)]
  | no h _ ih =>
    have hv := hans _ List.mem_cons_self
    simp only at hv
    rw [cut, ← hv, if_neg (by simp [h]), if_neg (by simp), List.map_cons, ← hv,
      ← ih fun p hp => hans p (List.mem_cons_of_mem _ hp)]

/-- After the first question a record ends, or goes on in the subtree of the answer. -/
theorem Trace.tail {v v' : ℕ} {b : Bool} {yes no : ProbeTree} {rest : List (ℕ × Bool)}
    (h : Trace stop (.probe v yes no) ((v', b) :: rest)) :
    v' = v ∧ (rest = [] ∨ Trace stop (if b then yes else no) rest) := by
  obtain ⟨b', rest', heq, h⟩ := trace_probe.1 h
  obtain ⟨hhead, rfl⟩ := List.cons.inj heq
  obtain ⟨rfl, rfl⟩ := Prod.mk.inj hhead
  refine ⟨rfl, ?_⟩
  by_cases hstop : stop v' b = true
  · rw [if_pos hstop] at h
    exact .inl h
  · rw [if_neg hstop] at h
    exact .inr h

/-- **The answers determine a record.** -/
theorem Trace.unique {stop' : ℕ → Bool → Bool} {t : ProbeTree} {l l' : List (ℕ × Bool)}
    (h : Trace stop t l) (h' : Trace stop' t l') (hans : l.map Prod.snd = l'.map Prod.snd) :
    l = l' := by
  induction h generalizing l' with
  | done => exact (trace_done.1 h').symm
  | stop _ =>
    obtain ⟨b', rest, rfl, -⟩ := trace_probe.1 h'
    simp only [List.map_cons, List.map_nil, List.cons.injEq] at hans
    rw [hans.1, List.map_eq_nil_iff.1 hans.2.symm]
  | yes _ rest ih =>
    obtain ⟨b', rest', rfl, -⟩ := trace_probe.1 h'
    obtain ⟨hb, htail⟩ := List.cons.inj hans
    obtain rfl : true = b' := hb
    rcases h'.tail.2 with rfl | hrest
    · rw [List.map_eq_nil_iff.1 htail]
    · rw [ih hrest htail]
  | no _ rest ih =>
    obtain ⟨b', rest', rfl, -⟩ := trace_probe.1 h'
    obtain ⟨hb, htail⟩ := List.cons.inj hans
    obtain rfl : false = b' := hb
    rcases h'.tail.2 with rfl | hrest
    · rw [List.map_eq_nil_iff.1 htail]
    · rw [ih hrest htail]

/-- **The search under given answers has a record.** -/
theorem trace_cut (answer : ℕ → Bool) (stop : ℕ → Bool → Bool) :
    ∀ t : ProbeTree, Trace stop t ((t.cut answer stop).map fun v => (v, answer v))
  | done => .done
  | probe v yes no => by
    rw [cut]
    by_cases h : stop v (answer v) = true
    · rw [if_pos h]
      exact .stop h
    · rw [if_neg h]
      cases hv : answer v
      · rw [hv] at h
        simpa [hv] using .no (by simpa using h) (trace_cut answer stop no)
      · rw [hv] at h
        simpa [hv] using .yes (by simpa using h) (trace_cut answer stop yes)

/-- A search that is never ended early asks everything. -/
theorem cut_eq_path : ∀ {t : ProbeTree}, (∀ v ∈ t.cut answer stop, stop v (answer v) = false) →
    t.cut answer stop = t.path answer
  | done, _ => rfl
  | probe v yes no, h => by
    rw [cut] at h ⊢
    have hv := h v List.mem_cons_self
    rw [if_neg (by simp [hv])] at h ⊢
    rw [path]
    cases ha : answer v
    · rw [ha] at h
      rw [if_neg (by simp), if_neg (by simp),
        cut_eq_path fun w hw => h w (List.mem_cons_of_mem _ (by simpa using hw))]
    · rw [ha] at h
      rw [if_pos rfl, if_pos rfl,
        cut_eq_path fun w hw => h w (List.mem_cons_of_mem _ (by simpa using hw))]

/-- A search that could end somewhere does end. -/
theorem exists_mem_cut {t : ProbeTree} {v : ℕ} (hv : v ∈ t.path answer) (hstop : stop v (answer v) = true) :
    ∃ w ∈ t.cut answer stop, stop w (answer w) = true := by
  by_contra hnone
  have hopen : ∀ w ∈ t.cut answer stop, stop w (answer w) = false := fun w hw => by
    cases h : stop w (answer w) with
    | false => rfl
    | true => exact absurd ⟨w, hw, h⟩ hnone
  rw [← cut_eq_path hopen] at hv
  rw [hopen v hv] at hstop
  cases hstop

/-- A search that asks everything ends at its last question, if anywhere. -/
theorem stop_of_cut_eq_path : ∀ {t : ProbeTree}, t.cut answer stop = t.path answer →
    ∀ v ∈ (t.path answer).dropLast, stop v (answer v) = false
  | done, _, v, hv => by cases hv
  | probe w yes no, h, v, hv => by
    rw [cut, path] at h
    rw [path] at hv
    have htail := (List.cons.inj h).2
    by_cases hstop : stop w (answer w) = true
    · rw [if_pos hstop] at htail
      rw [← htail] at hv
      cases hv
    · rw [if_neg hstop] at htail
      cases ha : answer w with
      | false =>
        simp only [ha, Bool.false_eq_true, if_false] at htail hv
        cases hpath : no.path answer with
        | nil => rw [hpath] at hv; cases hv
        | cons x rest =>
          rw [hpath, List.dropLast_cons_cons, List.mem_cons] at hv
          rcases hv with rfl | hv
          · simpa using hstop
          · exact stop_of_cut_eq_path htail v (by rwa [hpath])
      | true =>
        simp only [ha, if_true] at htail hv
        cases hpath : yes.path answer with
        | nil => rw [hpath] at hv; cases hv
        | cons x rest =>
          rw [hpath, List.dropLast_cons_cons, List.mem_cons] at hv
          rcases hv with rfl | hv
          · simpa using hstop
          · exact stop_of_cut_eq_path htail v (by rwa [hpath])

/-- Where a search ends, as a position in the whole one. -/
theorem cut_eq_take (answer : ℕ → Bool) (stop : ℕ → Bool → Bool) :
    ∀ t : ProbeTree, t.cut answer stop = (t.path answer).take
      (((t.path answer).findIdx? fun v => stop v (answer v)).elim (t.path answer).length (· + 1))
  | done => rfl
  | probe v yes no => by
    rw [cut, path, List.findIdx?_cons]
    have key : ∀ u : ProbeTree, u.cut answer stop = (u.path answer).take
        (((u.path answer).findIdx? fun v => stop v (answer v)).elim (u.path answer).length
          (· + 1)) →
        u.cut answer stop = (u.path answer).take
          ((Option.map (· + 1) ((u.path answer).findIdx? fun v => stop v (answer v))).elim
            ((u.path answer).length + 1) (· + 1) - 1) := by
      intro u hu
      rw [hu]
      cases (u.path answer).findIdx? fun v => stop v (answer v) <;> rfl
    by_cases h : stop v (answer v) = true
    · rw [if_pos h, if_pos h]
      rfl
    · rw [if_neg h, if_neg h]
      cases answer v with
      | false =>
        rw [if_neg (by simp), if_neg (by simp), key no (cut_eq_take answer stop no)]
        cases (no.path answer).findIdx? fun v => stop v (answer v) <;> simp
      | true =>
        rw [if_pos rfl, if_pos rfl, key yes (cut_eq_take answer stop yes)]
        cases (yes.path answer).findIdx? fun v => stop v (answer v) <;> simp

theorem mem_path_of_mem_cut {t : ProbeTree} {v : ℕ} (h : v ∈ t.cut answer stop) :
    v ∈ t.path answer := by
  rw [cut_eq_take] at h
  exact List.mem_of_mem_take h

/-- The same answers lead the same way. -/
theorem path_congr : ∀ {t : ProbeTree}, (∀ v ∈ t.path answer, answer v = answer' v) →
    t.path answer = t.path answer'
  | done, _ => rfl
  | probe v yes no, h => by
    rw [path] at h ⊢
    rw [path, ← h v List.mem_cons_self]
    cases ha : answer v
    · rw [ha] at h
      rw [if_neg (by simp), if_neg (by simp),
        path_congr fun w hw => h w (List.mem_cons_of_mem _ (by simpa using hw))]
    · rw [ha] at h
      rw [if_pos rfl, if_pos rfl,
        path_congr fun w hw => h w (List.mem_cons_of_mem _ (by simpa using hw))]

/-- **A search that ends at the first unexpected answer** asks the beginning of what is
asked under the expected ones. -/
theorem cut_beginning_path (h : ∀ v, stop v (answer v) = false → answer v = answer' v) :
    ∀ t : ProbeTree, t.cut answer stop <+: t.path answer'
  | done => List.prefix_rfl
  | probe v yes no => by
    rw [cut, path, List.cons_prefix_cons]
    refine ⟨rfl, ?_⟩
    by_cases hstop : stop v (answer v) = true
    · rw [if_pos hstop]
      exact List.nil_prefix
    · rw [if_neg hstop, ← h v (by simpa using hstop)]
      split_ifs
      · exact cut_beginning_path h yes
      · exact cut_beginning_path h no

end ProbeTree

end KeyTransparency
