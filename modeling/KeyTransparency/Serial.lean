/-
# Updates are serialised

What the batches stand for: a map from labels to the lists of their values, to which a
request appends when the greatest version it names is the label's (`Values.apply`).
Over any run of batches, `process_batch` does to the server what the requests do one
after the other to that map (`serialised_updates`).
-/

import KeyTransparency.Batcher

namespace KeyTransparency

/-- The values of each label, in the order of their versions. -/
abbrev Values := Octets → List Octets

/-- A label's version with its value. -/
abbrev Versioned := Octets × Octets × ℕ

namespace Values

def greatest (values : List Octets) : Option ℕ :=
  if values = [] then none else some (values.length - 1)

theorem greatest_eq_none {values : List Octets} : greatest values = none ↔ values = [] := by
  unfold greatest
  split_ifs with h
  · exact ⟨fun _ => h, fun _ => rfl⟩
  · exact ⟨fun h' => (by cases h'), fun h' => absurd h' h⟩

theorem greatest_eq_some {values : List Octets} {version : ℕ} :
    greatest values = some version ↔ values.length = version + 1 := by
  unfold greatest
  split_ifs with h
  · exact ⟨fun h' => (by cases h'), fun h' => by rw [h] at h'; cases h'⟩
  · have := List.length_pos_iff.2 h
    rw [Option.some.injEq]
    omega

/-- A request is applied when it has values and names the greatest version. -/
def Accepts (m : Values) (req : UpdateRequest) : Prop :=
  req.values ≠ [] ∧ req.greatestVersion = greatest (m req.label)

instance (m : Values) (req : UpdateRequest) : Decidable (m.Accepts req) :=
  inferInstanceAs (Decidable (_ ∧ _))

def append (m : Values) (label value : Octets) : Values :=
  Function.update m label (m label ++ [value])

def apply (m : Values) (req : UpdateRequest) : Values :=
  if m.Accepts req then Function.update m req.label (m req.label ++ req.values.map LabelValue.value)
  else m

/-- The requests one after the other. -/
def run (m : Values) (reqs : List UpdateRequest) : Values := reqs.foldl apply m

/-- The versions that a request's values get. -/
def versions (m : Values) (req : UpdateRequest) : List ℕ :=
  (List.range req.values.length).map ((m req.label).length + ·)

/-- Each version is the next one of its label. -/
def Next (m : Values) : List Versioned → Prop
  | [] => True
  | (label, value, version) :: rest =>
    version = (m label).length ∧ Next (m.append label value) rest

def appendAll (m : Values) (us : List Versioned) : Values :=
  us.foldl (fun m u => m.append u.1 u.2.1) m

theorem appendAll_append (m : Values) (xs ys : List Versioned) :
    m.appendAll (xs ++ ys) = (m.appendAll xs).appendAll ys := List.foldl_append

theorem next_append {xs ys : List Versioned} :
    ∀ {m : Values}, m.Next (xs ++ ys) ↔ m.Next xs ∧ (m.appendAll xs).Next ys := by
  induction xs with
  | nil => exact fun {m} => ⟨fun h => ⟨trivial, h⟩, fun h => h.2⟩
  | cons x xs ih => exact fun {m} => (and_congr_right fun _ => ih).trans and_assoc.symm

theorem appendAll_label (label : Octets) (us : List Versioned) :
    ∀ m : Values, m.appendAll us label =
      m label ++ (us.filter fun u => u.1 = label).map fun u => u.2.1 := by
  induction us with
  | nil => exact fun m => (List.append_nil _).symm
  | cons u us ih =>
    intro m
    rw [appendAll, List.foldl_cons, ← appendAll, ih, append]
    rcases eq_or_ne u.1 label with rfl | hne
    · simp [List.append_assoc]
    · simp [Function.update_of_ne hne.symm, hne]

/-- A label's versions follow on those it has. -/
theorem Next.versions (label : Octets) {us : List Versioned} :
    ∀ {m : Values}, m.Next us → (us.filter fun u => u.1 = label).map (fun u => u.2.2) =
      List.range' (m label).length (us.filter fun u => u.1 = label).length := by
  induction us with
  | nil => exact fun _ => rfl
  | cons u us ih =>
    intro m h
    obtain ⟨hversion, h⟩ := h
    have ih := ih h
    rw [append] at ih
    rcases eq_or_ne u.1 label with rfl | hne
    · rw [Function.update_self, List.length_append, List.length_singleton] at ih
      simp only [List.filter_cons, decide_true, if_true, List.map_cons, List.length_cons,
        List.range'_succ, ih, hversion]
    · rw [Function.update_of_ne hne.symm] at ih
      simpa only [List.filter_cons, decide_eq_true_eq, hne, if_false] using ih

/-- The versions that one request gets, with its values. -/
def triples (label : Octets) (values : List LabelValue) (versions : List ℕ) : List Versioned :=
  (values.zip versions).map fun v => (label, v.1.value, v.2)

theorem next_triples (label : Octets) (values : List LabelValue) :
    ∀ m : Values, m.Next (triples label values
        ((List.range values.length).map ((m label).length + ·))) ∧
      m.appendAll (triples label values ((List.range values.length).map ((m label).length + ·))) =
        Function.update m label (m label ++ values.map LabelValue.value) := by
  induction values with
  | nil => exact fun m => ⟨trivial, by simp [triples, appendAll]⟩
  | cons v values ih =>
    intro m
    obtain ⟨ih₁, ih₂⟩ := ih (m.append label v.value)
    have hlen : (m.append label v.value label).length = (m label).length + 1 := by
      simp [append]
    have heq : triples label (v :: values)
          ((List.range (v :: values).length).map ((m label).length + ·)) =
        (label, v.value, (m label).length) :: triples label values
          ((List.range values.length).map ((m.append label v.value label).length + ·)) := by
      rw [List.length_cons, List.range_succ_eq_map, List.map_cons, List.map_map, hlen, triples,
        List.zip_cons_cons, List.map_cons, triples]
      have hfun : ((m label).length + ·) ∘ Nat.succ = ((m label).length + 1 + ·) := by
        funext k
        simp only [Function.comp_apply]
        omega
      rw [hfun, Nat.add_zero]
    rw [heq]
    refine ⟨⟨rfl, ih₁⟩, ?_⟩
    rw [appendAll, List.foldl_cons, ← appendAll, ih₂]
    simp [append]

end Values

/-- The values of a server's labels. -/
def Tree.values (t : Tree) : Values := fun label =>
  (t.store.history label).map fun e => (t.store.value e.2).getD []

def PreUpdateData.versioned (u : PreUpdateData) : Versioned := (u.label, u.value, u.version)

def Batcher.CryptoJob.versioned (job : Batcher.CryptoJob) : Versioned :=
  (job.label, job.value, job.version)

namespace Batcher

open Values

variable {P : Primitives} {s : Store} {m : Values}

/-! ### The first phase -/

/-- What the first phase makes of jobs, by the map they are applied to. -/
def sortedOf : Values → List UpdateJob → Sorted
  | _, [] => .empty
  | m, job :: jobs =>
    (sortedOf (m.apply job.req) jobs).add job (decideJob (greatest (m job.req.label)) job.req)

/-- The overlay over a store gives the greatest versions of a map. -/
def Tracks (s : Store) (overlay : Octets → Option ℕ) (m : Values) : Prop :=
  ∀ label, (overlay label).or ((s.history label).getLast?.map Prod.fst) = greatest (m label)

theorem Tracks.update {overlay : Octets → Option ℕ} (h : Tracks s overlay m) (label : Octets)
    {values : List Octets} (hne : values ≠ []) :
    Tracks s (Function.update overlay label (some (values.length - 1))) (Function.update m label values) := by
  intro label'
  rcases eq_or_ne label' label with rfl | hl
  · rw [Function.update_self, Function.update_self, greatest, if_neg hne]
    rfl
  · rw [Function.update_of_ne hl, Function.update_of_ne hl]
    exact h label'

theorem decideJob_of_accepts {req : UpdateRequest} (h : m.Accepts req)
    (hlabel : req.label.length ≤ 255) :
    decideJob (greatest (m req.label)) req = .accept (m.versions req) := by
  obtain ⟨hvalues, hgreatest⟩ := h
  unfold decideJob
  rw [if_neg (not_not.2 hgreatest), if_neg hvalues, if_neg (by omega), Values.versions]
  have hstart : ((greatest (m req.label)).map (· + 1)).getD 0 = (m req.label).length := by
    unfold greatest
    split_ifs with hnil
    · rw [hnil]
      rfl
    · have := List.length_pos_iff.2 hnil
      simp only [Option.map_some, Option.getD_some]
      omega
  rw [hstart]

theorem decideJob_of_not_accepts {req : UpdateRequest} (h : ¬ m.Accepts req) (versions : List ℕ) :
    decideJob (greatest (m req.label)) req ≠ .accept versions := by
  unfold decideJob
  split_ifs with h₁ h₂ h₃
  · simp
  · simp
  · simp
  · simp
  · exact absurd ⟨h₃, not_not.1 h₁⟩ h

theorem runs_currentGreatest {overlay : Octets → Option ℕ} (h : Tracks s overlay m) (label : Octets) :
    (currentGreatest overlay label).Runs s (greatest (m label)) s := by
  rw [← h label]
  unfold currentGreatest
  cases overlay label with
  | some version => exact Db.runs_pure _ _
  | none =>
    have hread : (labelHistoryOrEmpty label).Runs s (s.history label) s := rfl
    exact hread.bind (Db.runs_pure _ _)

theorem Tracks.record {overlay : Octets → Option ℕ} (h : Tracks s overlay m) {req : UpdateRequest}
    (hlabel : req.label.length ≤ 255) :
    Tracks s ((decideJob (greatest (m req.label)) req).record req.label overlay) (m.apply req) := by
  unfold Values.apply
  split_ifs with hacc
  · have hlen : (m req.label ++ req.values.map LabelValue.value).length =
        (m req.label).length + req.values.length := by simp
    have hpos := List.length_pos_iff.2 hacc.1
    have hlast : (m.versions req).getLast? =
        some ((m req.label ++ req.values.map LabelValue.value).length - 1) := by
      rw [Values.versions, List.getLast?_map, List.getLast?_range, if_neg (by omega), hlen]
      simp only [Option.map_some]
      congr 1
      omega
    rw [decideJob_of_accepts hacc hlabel, Decision.record, hlast]
    exact h.update _ (by simp [hacc.1])
  · cases hd : decideJob (greatest (m req.label)) req with
    | accept versions => exact absurd hd (decideJob_of_not_accepts hacc versions)
    | refuse e => exact h
    | catchUp => exact h

theorem runs_sortJobs :
    ∀ {jobs : List UpdateJob} {overlay : Octets → Option ℕ} {m : Values}, Tracks s overlay m →
      (∀ job ∈ jobs, job.req.label.length ≤ 255) →
      (sortJobs jobs overlay).Runs s (sortedOf m jobs) s
  | [], _, _, _, _ => Db.runs_pure _ _
  | job :: jobs, overlay, m, h, hlabels => by
    have hrest := runs_sortJobs (h.record (hlabels job List.mem_cons_self)) fun j hj =>
      hlabels j (List.mem_cons_of_mem _ hj)
    exact (runs_currentGreatest h _).bind (hrest.bind (Db.runs_pure _ _))

/-- **Every job is answered once**: at once, as one to catch up or as one accepted. -/
theorem sortedOf_ids (m : Values) (jobs : List UpdateJob) :
    List.Perm ((sortedOf m jobs).replies.map Prod.fst ++
        ((sortedOf m jobs).catchUps.map UpdateJob.id ++
          (sortedOf m jobs).accepted.map fun a => a.1.id))
      (jobs.map UpdateJob.id) := by
  induction jobs generalizing m with
  | nil => exact List.Perm.refl _
  | cons job jobs ih =>
    have ih := ih (m.apply job.req)
    rw [sortedOf, List.map_cons]
    cases decideJob (greatest (m job.req.label)) job.req with
    | refuse e => exact ih.cons job.id
    | catchUp =>
      refine (List.perm_middle).trans ?_
      exact ih.cons job.id
    | accept versions =>
      have h := ih.cons job.id
      refine List.Perm.trans ?_ h
      simp only [Sorted.add, List.map_cons, ← List.append_assoc]
      exact List.perm_middle

/-- The versions accepted follow on those that the labels have. -/
theorem sortedOf_next {jobs : List UpdateJob} :
    ∀ {m : Values}, (∀ job ∈ jobs, job.req.label.length ≤ 255) →
      m.Next ((cryptoJobs (sortedOf m jobs).accepted).map CryptoJob.versioned) ∧
        m.appendAll ((cryptoJobs (sortedOf m jobs).accepted).map CryptoJob.versioned) =
          m.run (jobs.map UpdateJob.req) := by
  induction jobs with
  | nil => exact fun {m} _ => ⟨trivial, rfl⟩
  | cons job jobs ih =>
    intro m hlabels
    obtain ⟨ih₁, ih₂⟩ := @ih (m.apply job.req) fun j hj => hlabels j (List.mem_cons_of_mem _ hj)
    rw [sortedOf, List.map_cons, Values.run, List.foldl_cons, ← Values.run]
    by_cases hacc : m.Accepts job.req
    · have hjob := Values.next_triples job.req.label job.req.values m
      have happ : m.apply job.req = Function.update m job.req.label
          (m job.req.label ++ job.req.values.map LabelValue.value) := if_pos hacc
      have hcrypto : (cryptoJobs (Sorted.add job (.accept (m.versions job.req))
          (sortedOf (m.apply job.req) jobs)).accepted).map CryptoJob.versioned =
          triples job.req.label job.req.values (m.versions job.req) ++
            (cryptoJobs (sortedOf (m.apply job.req) jobs).accepted).map CryptoJob.versioned := by
        simp only [Sorted.add, cryptoJobs, List.flatMap_cons, List.map_append, List.map_map]
        rfl
      rw [decideJob_of_accepts hacc (hlabels job List.mem_cons_self), hcrypto, next_append,
        appendAll_append]
      rw [Values.versions, hjob.2, ← happ]
      exact ⟨⟨hjob.1, ih₁⟩, ih₂⟩
    · have happ : m.apply job.req = m := if_neg hacc
      have hsame : (Sorted.add job (decideJob (greatest (m job.req.label)) job.req)
          (sortedOf (m.apply job.req) jobs)).accepted = (sortedOf (m.apply job.req) jobs).accepted := by
        cases hd : decideJob (greatest (m job.req.label)) job.req with
        | accept versions => exact absurd hd (decideJob_of_not_accepts hacc versions)
        | refuse e => rfl
        | catchUp => rfl
      rw [happ] at ih₁ ih₂ hsame ⊢
      rw [hsame]
      exact ⟨ih₁, ih₂⟩

/-! ### The batch -/

theorem precompute_ok {config : PrivateConfig} {opening : Octets} {job : CryptoJob} {u : PreUpdateData}
    (h : precompute P config opening job = .ok u) : u.versioned = job.versioned ∧ IsKey u.index := by
  obtain ⟨⟨index, vrfProof⟩, hvrf, h⟩ := Result.bind_eq_ok.1 h
  obtain ⟨commitment, -, h⟩ := Result.bind_eq_ok.1 h
  obtain rfl := Except.ok.inj h
  obtain ⟨input, -, hvrf⟩ := Result.bind_eq_ok.1 hvrf
  obtain ⟨hlen, hbytes⟩ := P.ecvrfProve_bytes hvrf
  exact ⟨rfl, hlen, hbytes⟩

theorem forall₂_of_mapM_eq_ok {α β : Type} {f : α → Result β} :
    ∀ {l : List α} {bs : List β}, l.mapM f = .ok bs → List.Forall₂ (fun a b => f a = .ok b) l bs
  | [], bs, h => by
    obtain rfl := Except.ok.inj h
    exact .nil
  | a :: l, bs, h => by
    rw [List.mapM_cons] at h
    obtain ⟨b, hb, h⟩ := Result.bind_eq_ok.1 h
    obtain ⟨bs', hbs, h⟩ := Result.bind_eq_ok.1 h
    obtain rfl := Except.ok.inj h
    exact .cons hb (forall₂_of_mapM_eq_ok hbs)

theorem precomputeAll_ok {config : PrivateConfig} {openings : ℕ → Octets}
    {accepted : List (UpdateJob × List ℕ)} {pres : List PreUpdateData}
    (h : precomputeAll P config openings accepted = .ok pres) :
    pres.map PreUpdateData.versioned = (cryptoJobs accepted).map CryptoJob.versioned ∧
      ∀ u ∈ pres, IsKey u.index := by
  have hall := forall₂_of_mapM_eq_ok h
  have hspec := hall.imp fun job u hu => precompute_ok hu
  refine ⟨?_, fun u hu => ?_⟩
  · have hmap : List.Forall₂ (fun a b => a = b)
        ((cryptoJobs accepted).zipIdx.map fun job => job.1.versioned)
        (pres.map PreUpdateData.versioned) :=
      List.forall₂_map_left_iff.2 (List.forall₂_map_right_iff.2 (hspec.imp fun _ _ h => h.1.symm))
    rw [List.forall₂_eq_eq_eq] at hmap
    rw [← hmap]
    change (cryptoJobs accepted).zipIdx.map (CryptoJob.versioned ∘ Prod.fst) = _
    rw [← List.map_map, List.zipIdx_map_fst]
  · obtain ⟨i, hi, rfl⟩ := List.mem_iff_getElem.1 hu
    exact (hspec.get (by rw [hspec.length_eq]; exact hi) hi).2

theorem nextVersion_eq {history : List (ℕ × ℕ)} {overlay : Option ℕ} {values : List Octets}
    (h : overlay.or (history.getLast?.map Prod.fst) = greatest values) :
    Tree.nextVersion history overlay = values.length := by
  unfold Tree.nextVersion
  dsimp only
  cases overlay with
  | some version =>
    rw [if_neg (by simp), Option.getD_some, greatest_eq_some.1 h.symm]
  | none =>
    rw [Option.none_or] at h
    cases hlast : history.getLast? with
    | none =>
      rw [hlast] at h
      rw [if_pos ⟨List.getLast?_eq_none_iff.1 hlast, rfl⟩, greatest_eq_none.1 h.symm]
      rfl
    | some last =>
      rw [hlast] at h
      have hne : history ≠ [] := by
        rintro rfl
        cases hlast
      rw [if_neg fun h => hne h.1, Option.map_some, Option.getD_none, Option.getD_some,
        greatest_eq_some.1 h.symm]

/-- A batch of next versions is valid as a whole. -/
theorem assigned_of_next {s : Store} :
    ∀ {pres : List PreUpdateData} {overlay : Octets → Option ℕ} {m : Values}, Tracks s overlay m →
      m.Next (pres.map PreUpdateData.versioned) → assigned s pres overlay = pres.map .ok
  | [], _, _, _, _ => rfl
  | u :: pres, overlay, m, h, hnext => by
    obtain ⟨hversion, hnext⟩ := hnext
    have hver := nextVersion_eq (h u.label)
    have hne : m u.label ++ [u.value] ≠ [] := by simp
    have hrest := h.update u.label hne
    rw [List.length_append, List.length_singleton, Nat.add_sub_cancel] at hrest
    unfold assigned
    dsimp only
    rw [hver, if_neg (not_not.2 hversion), List.map_cons]
    congr 1
    exact assigned_of_next hrest hnext

end Batcher

/-! ### Histories -/

section

open Values

variable {P : Primitives} {epochs : List Epoch} {t : Tree}

theorem historyFrom_versions (label : Octets) :
    ∀ (position : ℕ) (us : List PreUpdateData), (historyFrom label position us).map Prod.fst =
      ((us.map PreUpdateData.versioned).filter fun u => u.1 = label).map fun u => u.2.2
  | _, [] => rfl
  | position, u :: us => by
    rw [historyFrom, List.map_cons, List.filter_cons]
    split_ifs with h₁ h₂ h₂
    · rw [List.map_cons, List.map_cons, historyFrom_versions]
      rfl
    · exact absurd (decide_eq_true h₁) h₂
    · exact absurd (of_decide_eq_true h₂) h₁
    · exact historyFrom_versions label _ us

theorem historyFrom_values {table : ℕ → Option Octets} (label : Octets) :
    ∀ (position : ℕ) (us : List PreUpdateData),
      (∀ i (h : i < us.length), table (position + i) = some us[i].value) →
      (historyFrom label position us).map (fun e => (table e.2).getD []) =
        ((us.map PreUpdateData.versioned).filter fun u => u.1 = label).map fun u => u.2.1
  | _, [], _ => rfl
  | position, u :: us, htable => by
    have ih := historyFrom_values label (position + 1) us fun i hi => by
      have h := htable (i + 1) (by simpa using hi)
      rwa [show position + 1 + i = position + (i + 1) by omega]
    have hu : table position = some u.value := htable 0 (by simp)
    rw [historyFrom, List.map_cons, List.filter_cons]
    split_ifs with h₁ h₂ h₂
    · rw [List.map_cons, List.map_cons, ih, hu]
      rfl
    · exact absurd (decide_eq_true h₁) h₂
    · exact absurd (of_decide_eq_true h₂) h₁
    · exact ih

theorem mem_historyFrom {label : Octets} {e : ℕ × ℕ} :
    ∀ {position : ℕ} {us : List PreUpdateData}, e ∈ historyFrom label position us →
      position ≤ e.2 ∧ e.2 < position + us.length
  | _, [], h => by cases h
  | position, u :: us, h => by
    rw [historyFrom] at h
    rw [List.length_cons]
    have hrest : e ∈ historyFrom label (position + 1) us → position ≤ e.2 ∧
        e.2 < position + (us.length + 1) := fun h => by
      have := mem_historyFrom h
      omega
    split_ifs at h
    · rcases List.mem_cons.1 h with rfl | h
      · dsimp only
        omega
      · exact hrest h
    · exact hrest h

theorem historyFrom_sorted (label : Octets) :
    ∀ (position : ℕ) (us : List PreUpdateData),
      (historyFrom label position us).Pairwise fun a b => a.2 < b.2
  | _, [] => List.Pairwise.nil
  | position, u :: us => by
    rw [historyFrom]
    split_ifs
    · exact List.pairwise_cons.2 ⟨fun e he => (mem_historyFrom he).1, historyFrom_sorted label _ us⟩
    · exact historyFrom_sorted label _ us

/-- An update's version is in its label's history, at the place of the update. -/
theorem mem_historyFrom_getElem {us : List PreUpdateData} :
    ∀ {position i : ℕ} (hi : i < us.length),
      (us[i].version, position + i) ∈ historyFrom us[i].label position us := by
  induction us with
  | nil => exact fun hi => absurd hi (Nat.not_lt_zero _)
  | cons u us ih =>
    intro position i hi
    rw [historyFrom]
    cases i with
    | zero => simp
    | succ i =>
      have h := @ih (position + 1) i (by simpa using hi)
      rw [show position + 1 + i = position + (i + 1) by omega] at h
      simp only [List.getElem_cons_succ]
      split_ifs
      · exact List.mem_cons_of_mem _ h
      · exact h

/-- The versions of a log's updates, each the next one of its label. -/
def Consecutive (epochs : List Epoch) : Prop :=
  Next (fun _ => []) ((updatesOf epochs).map PreUpdateData.versioned)

theorem Tree.Sound.values_eq (hs : t.Sound P epochs) :
    t.values = appendAll (fun _ => []) ((updatesOf epochs).map PreUpdateData.versioned) := by
  funext label
  rw [appendAll_label, List.nil_append, Tree.values, hs.history, historyOf]
  exact historyFrom_values label 0 _ fun i hi => by rw [Nat.zero_add]; exact hs.value i hi

theorem Tree.Sound.history_versions (hs : t.Sound P epochs) (hc : Consecutive epochs)
    (label : Octets) : (t.store.history label).map Prod.fst = List.range (t.store.history label).length := by
  have hlen := congrArg List.length (historyFrom_versions label 0 (updatesOf epochs))
  have hversions := Next.versions label hc
  rw [List.length_map, List.length_map] at hlen
  rw [hs.history, historyOf, historyFrom_versions, hversions, hlen, List.range_eq_range']
  rfl

theorem Tree.Sound.tracks (hs : t.Sound P epochs) (hc : Consecutive epochs) :
    Batcher.Tracks t.store (fun _ => none) t.values := by
  intro label
  have hver := hs.history_versions hc label
  have hlen : (t.values label).length = (t.store.history label).length := by
    rw [Tree.values, List.length_map]
  rw [Option.none_or, ← List.getLast?_map, hver, List.getLast?_range]
  split_ifs with h
  · exact (greatest_eq_none.2 (List.length_eq_zero_iff.1 (hlen.trans h))).symm
  · refine (greatest_eq_some.2 ?_).symm
    omega

end

/-! ### One batch -/

namespace Batcher

open Values

variable {P : Primitives} {epochs : List Epoch} {t : Tree}

theorem Sorted.subset_add (job : UpdateJob) (decision : Decision) (sorted : Sorted) :
    sorted.replies ⊆ (sorted.add job decision).replies ∧
      sorted.catchUps ⊆ (sorted.add job decision).catchUps ∧
      sorted.accepted ⊆ (sorted.add job decision).accepted := by
  cases decision with
  | refuse e => exact ⟨List.subset_cons_self _ _, List.Subset.refl _, List.Subset.refl _⟩
  | catchUp => exact ⟨List.Subset.refl _, List.subset_cons_self _ _, List.Subset.refl _⟩
  | accept versions => exact ⟨List.Subset.refl _, List.Subset.refl _, List.subset_cons_self _ _⟩

/-- Where the first phase puts a job: by the map that the jobs before it have made. -/
theorem sortedOf_split {job : UpdateJob} (hlabel : job.req.label.length ≤ 255)
    (before after : List UpdateJob) :
    ∀ m : Values,
      if (m.run (before.map UpdateJob.req)).Accepts job.req then
        (job, (m.run (before.map UpdateJob.req)).versions job.req) ∈
          (sortedOf m (before ++ job :: after)).accepted
      else (∃ e, (job.id, .refused e) ∈ (sortedOf m (before ++ job :: after)).replies) ∨
        job ∈ (sortedOf m (before ++ job :: after)).catchUps := by
  induction before with
  | nil =>
    intro m
    have hrun : m.run (List.map UpdateJob.req []) = m := rfl
    rw [List.nil_append, sortedOf, hrun]
    split_ifs with hacc
    · rw [decideJob_of_accepts hacc hlabel]
      exact List.mem_cons_self
    · cases hd : decideJob (greatest (m job.req.label)) job.req with
      | accept versions => exact absurd hd (decideJob_of_not_accepts hacc versions)
      | refuse e => exact .inl ⟨e, List.mem_cons_self⟩
      | catchUp => exact .inr List.mem_cons_self
  | cons first before ih =>
    intro m
    obtain ⟨h₁, h₂, h₃⟩ := Sorted.subset_add first
      (decideJob (greatest (m first.req.label)) first.req)
      (sortedOf (m.apply first.req) (before ++ job :: after))
    have ih := ih (m.apply first.req)
    rw [List.map_cons, Values.run, List.foldl_cons, ← Values.run, List.cons_append, sortedOf]
    split_ifs at ih ⊢ with hacc
    · exact h₃ ih
    · exact ih.imp (fun ⟨e, he⟩ => ⟨e, h₁ he⟩) fun hmem => h₂ hmem

theorem fillSlots_ok (fth : FullTreeHead) :
    ∀ {pres : List PreUpdateData} {found : List PrefixSearch}, found.length = pres.length →
      Tree.fillSlots fth (pres.map .ok) found = (found.map fun r => ⟨fth, r⟩).map .ok
  | [], [], _ => rfl
  | u :: pres, [], h => by simp at h
  | [], r :: found, h => by simp at h
  | u :: pres, r :: found, h => by
    rw [List.map_cons, Tree.fillSlots, fillSlots_ok fth (Nat.succ.inj h), List.map_cons, List.map_cons]

theorem groupReply_ok (pres : List PreUpdateData) {posts : List PostUpdateData} (h : posts ≠ []) :
    ∃ post, groupReply pres (posts.map .ok) = .posted pres post := by
  have hnone : (posts.map (Except.ok : _ → Result PostUpdateData)).findSome?
      errorOf = none := by
    rw [List.findSome?_eq_none_iff]
    intro r hr
    obtain ⟨post, -, rfl⟩ := List.mem_map.1 hr
    rfl
  refine ⟨posts.getLast h, ?_⟩
  unfold groupReply
  rw [hnone, List.getLast?_map, List.getLast?_eq_some_getLast h]
  rfl

/-- A reply that tells a job of its versions. -/
def Tells (reply : Reply) (us : List Versioned) : Prop :=
  ∃ pres post, reply = .posted pres post ∧ pres.map PreUpdateData.versioned = us

theorem groupReplies_ok :
    ∀ {accepted : List (UpdateJob × List ℕ)} {pres : List PreUpdateData} {posts : List PostUpdateData},
      (∀ a ∈ accepted, a.1.req.values.length = a.2.length ∧ a.2 ≠ []) →
      pres.map PreUpdateData.versioned = (cryptoJobs accepted).map CryptoJob.versioned →
      posts.length = pres.length →
      List.Forall₂ (fun (a : UpdateJob × List ℕ) r => r.1 = a.1.id ∧
          Tells r.2 (triples a.1.req.label a.1.req.values a.2))
        accepted (groupReplies accepted pres (posts.map .ok))
  | [], _, _, _, _, _ => .nil
  | (job, versions) :: accepted, pres, posts, hacc, hpres, hposts => by
    obtain ⟨hlen, hne⟩ := hacc _ List.mem_cons_self
    dsimp only at hlen hne
    have hsplit : (cryptoJobs ((job, versions) :: accepted)).map CryptoJob.versioned =
        triples job.req.label job.req.values versions ++
          (cryptoJobs accepted).map CryptoJob.versioned := by
      simp only [cryptoJobs, List.flatMap_cons, List.map_append, List.map_map]
      rfl
    have htriples : (triples job.req.label job.req.values versions).length = versions.length := by
      rw [triples, List.length_map, List.length_zip]
      omega
    rw [hsplit] at hpres
    have htake : (pres.take versions.length).map PreUpdateData.versioned =
        triples job.req.label job.req.values versions := by
      rw [List.map_take, hpres, ← htriples, List.take_left]
    have hdrop : (pres.drop versions.length).map PreUpdateData.versioned =
        (cryptoJobs accepted).map CryptoJob.versioned := by
      rw [List.map_drop, hpres, ← htriples, List.drop_left]
    have hlong : versions.length ≤ pres.length := by
      have := congrArg List.length hpres
      rw [List.length_map, List.length_append, htriples] at this
      omega
    have hposts' : posts.take versions.length ≠ [] := by
      rw [Ne, List.take_eq_nil_iff, not_or]
      have := List.length_pos_iff.2 hne
      exact ⟨by omega, fun h => by rw [h] at hposts; simp at hposts; omega⟩
    obtain ⟨post, hpost⟩ := groupReply_ok (pres.take versions.length) hposts'
    rw [groupReplies, ← List.map_take, ← List.map_drop, hpost]
    refine .cons ⟨rfl, _, post, rfl, htake⟩ (groupReplies_ok (fun a ha =>
      hacc a (List.mem_cons_of_mem _ ha)) hdrop ?_)
    rw [List.length_drop, List.length_drop, hposts]

theorem sortedOf_accepted {jobs : List UpdateJob} :
    ∀ {m : Values}, (∀ job ∈ jobs, job.req.label.length ≤ 255) →
      ∀ a ∈ (sortedOf m jobs).accepted, a.1.req.values.length = a.2.length ∧ a.2 ≠ [] := by
  induction jobs with
  | nil => exact fun {m} _ a ha => by cases ha
  | cons job jobs ih =>
    intro m hlabels a ha
    have ih := @ih (m.apply job.req) fun j hj => hlabels j (List.mem_cons_of_mem _ hj)
    rw [sortedOf] at ha
    by_cases hacc : m.Accepts job.req
    · rw [decideJob_of_accepts hacc (hlabels job List.mem_cons_self)] at ha
      rcases List.mem_cons.1 ha with rfl | ha
      · exact ⟨by simp [Values.versions], by simp [Values.versions, hacc.1]⟩
      · exact ih a ha
    · cases hd : decideJob (greatest (m job.req.label)) job.req with
      | accept versions => exact absurd hd (decideJob_of_not_accepts hacc versions)
      | refuse e => rw [hd] at ha; exact ih a ha
      | catchUp => rw [hd] at ha; exact ih a ha

/-! ### Runs of batches -/

/-- A place in the prefix tree belongs to a log entry: it lies above the pointers of the
entries before. -/
def InEntry (s : Store) (n p : ℕ) : Prop :=
  (∃ q, s.prefixPtr n = some q ∧ p ≤ q) ∧ ∀ i < n, ∀ q, s.prefixPtr i = some q → q < p

/-- What becomes of a request that is applied: its reply tells the versions of its values,
and they are stored with them, all in the new log entry. -/
structure Applied (t t' : Tree) (m : Values) (req : UpdateRequest) (reply : Reply) : Prop where
  tells : Tells reply (triples req.label req.values (m.versions req))
  entry : t'.treeSize = t.treeSize + 1
  stored : ∀ u ∈ triples req.label req.values (m.versions req),
    ∃ p, (u.2.2, p) ∈ t'.store.history req.label ∧ t'.store.value p = some u.2.1 ∧
      InEntry t'.store t.treeSize p

/-- What a batch does to a server, and what it replies. -/
structure Outcome (t t' : Tree) (jobs : List UpdateJob) (replies : List (ℕ × Reply)) : Prop where
  /-- The values are those that the requests make one after the other. -/
  values : t'.values = t.values.run (jobs.map UpdateJob.req)
  versions : ∀ label,
    (t'.store.history label).map Prod.fst = List.range (t'.store.history label).length
  positions : ∀ label, (t'.store.history label).Pairwise fun a b => a.2 < b.2
  pointers : ∀ i j, i < j → j < t'.treeSize →
    ∃ p q, t'.store.prefixPtr i = some p ∧ t'.store.prefixPtr j = some q ∧ p < q
  answered : (replies.map Prod.fst).Perm (jobs.map UpdateJob.id)
  job : ∀ before job after, jobs = before ++ job :: after → ∃ reply, (job.id, reply) ∈ replies ∧
    if (t.values.run (before.map UpdateJob.req)).Accepts job.req then
      Applied t t' (t.values.run (before.map UpdateJob.req)) job.req reply
    else ∀ pres post, reply ≠ .posted pres post

/-- No VRF proof and no commitment of a batch fails. -/
def CryptoSucceeds (P : Primitives) (t : Tree) (openings : ℕ → Octets) (jobs : List UpdateJob) : Prop :=
  ∀ sorted d, sortJobs jobs (fun _ => none) ⟨t.store, none⟩ = (.ok sorted, d) →
    ∃ pres, precomputeAll P t.config openings sorted.accepted = .ok pres

/-- The runs of a server without store or crypto errors: batches, with ticks of the epoch
ticker and auditor heads in between. -/
inductive BatchRun (P : Primitives) : Tree → Prop
  | start (config : PrivateConfig) (hsign : Signs P config) : BatchRun P (emptyServer config)
  | batch {t : Tree} (run : BatchRun P t) (now : U64) (openings : ℕ → Octets) (jobs : List UpdateJob)
      (hlabels : ∀ job ∈ jobs, job.req.label.length ≤ 255) (hcrypto : CryptoSucceeds P t openings jobs)
      (hsize : t.treeSize + 1 ≤ 2 ^ 62) :
      BatchRun P (processBatch P t none (some now) openings jobs).2
  | tick {t : Tree} (run : BatchRun P t) (now : U64) : BatchRun P (t.afterRefresh none (some now)).2
  | auditors {t : Tree} (run : BatchRun P t) (auditors : List (Octets × AcceptedAuditorHead)) :
      BatchRun P { t with auditors }

/-- A batch that accepts no version leaves the server as it is. -/
theorem processBatch_of_nil (hs : t.Sound P epochs) (hc : Consecutive epochs) (now : U64)
    (openings : ℕ → Octets) {jobs : List UpdateJob} (hlabels : ∀ job ∈ jobs, job.req.label.length ≤ 255)
    (hnil : (sortedOf t.values jobs).accepted = []) :
    processBatch P t none (some now) openings jobs =
      ((sortedOf t.values jobs).replies ++ catchUpReplies (sortedOf t.values jobs).catchUps, t) := by
  have hsort := runs_sortJobs (hs.tracks hc) hlabels
  rw [Db.Runs] at hsort
  unfold processBatch commitSorted
  rw [hsort]
  dsimp only
  rw [if_pos hnil]

/-- A batch that accepts versions commits them, and tells each job of its own. -/
theorem processBatch_of_ne_nil (hs : t.Sound P epochs) (hc : Consecutive epochs)
    (hsign : Signs P t.config) (now : U64) (openings : ℕ → Octets) {jobs : List UpdateJob}
    (hlabels : ∀ job ∈ jobs, job.req.label.length ≤ 255) (hcrypto : CryptoSucceeds P t openings jobs)
    (hsize : t.treeSize + 1 ≤ 2 ^ 62) (hne : (sortedOf t.values jobs).accepted ≠ []) :
    ∃ pres replies t',
      processBatch P t none (some now) openings jobs =
        ((sortedOf t.values jobs).replies ++
          (catchUpReplies (sortedOf t.values jobs).catchUps ++ replies), t') ∧
      List.Forall₂ (fun (a : UpdateJob × List ℕ) r => r.1 = a.1.id ∧
        Tells r.2 (triples a.1.req.label a.1.req.values a.2)) (sortedOf t.values jobs).accepted replies ∧
      pres.map PreUpdateData.versioned =
        (cryptoJobs (sortedOf t.values jobs).accepted).map CryptoJob.versioned ∧
      t'.Sound P (epochs ++ [⟨now, pres⟩]) ∧ t'.config = t.config := by
  have hsort := runs_sortJobs (hs.tracks hc) hlabels
  obtain ⟨pres, hpres⟩ := hcrypto _ _ hsort
  obtain ⟨hversioned, hkeys⟩ := precomputeAll_ok hpres
  have hacc := sortedOf_accepted (m := t.values) hlabels
  obtain ⟨hnext, -⟩ := sortedOf_next (m := t.values) hlabels
  rw [← hversioned] at hnext
  have hassigned := assigned_of_next (hs.tracks hc) hnext
  have hvalid : validUpdates t.store pres = pres := by
    rw [validUpdates, hassigned, List.filterMap_map]
    exact List.filterMap_some
  have hpres_ne : pres ≠ [] := by
    obtain ⟨a, ha⟩ := List.exists_mem_of_ne_nil _ hne
    obtain ⟨hlen, hv⟩ := hacc a ha
    have hpos := List.length_pos_iff.2 hv
    intro hnil
    rw [hnil, List.map_nil, eq_comm, List.map_eq_nil_iff, cryptoJobs, List.flatMap_eq_nil_iff] at hversioned
    have := congrArg List.length (hversioned a ha)
    rw [List.length_map, List.length_zip, List.length_nil] at this
    omega
  obtain ⟨th, store, found, hbatch, hfound, -, hsound⟩ := afterBatch_sound hs hsign
    (by rw [← hs.size]; exact hsize) now hkeys (by rw [hvalid]; exact hpres_ne)
  rw [hvalid] at hsound hfound
  rw [hassigned, fillSlots_ok _ hfound] at hbatch
  have hposts : (found.map fun r => PostUpdateData.mk
      (Tree.getFullTreeHead { t with latest := some th } none) r).length = pres.length := by
    rw [List.length_map, hfound]
  have hreplies := groupReplies_ok hacc hversioned hposts
  refine ⟨pres, _, _, ?_, hreplies, hversioned, hsound, rfl⟩
  rw [Db.Runs] at hsort
  unfold processBatch commitSorted
  rw [hsort]
  dsimp only
  rw [if_neg hne, hpres]
  dsimp only
  rw [hbatch]

theorem consecutive_append (now : U64) {pres : List PreUpdateData} (hs : t.Sound P epochs)
    (hc : Consecutive epochs) (hnext : t.values.Next (pres.map PreUpdateData.versioned)) :
    Consecutive (epochs ++ [⟨now, pres⟩]) := by
  rw [Consecutive, updatesOf_append, List.map_append, next_append, ← hs.values_eq]
  exact ⟨hc, hnext⟩

/-- **Every server of a run** has consecutive versions. -/
theorem BatchRun.sound (run : BatchRun P t) :
    ∃ epochs, t.Sound P epochs ∧ Consecutive epochs ∧ Signs P t.config := by
  induction run with
  | start config hsign => exact ⟨[], emptyServer_sound config, trivial, hsign⟩
  | @batch t run now openings jobs hlabels hcrypto hsize ih =>
    obtain ⟨epochs, hs, hc, hsign⟩ := ih
    rcases eq_or_ne (sortedOf t.values jobs).accepted [] with hnil | hne
    · rw [processBatch_of_nil hs hc now openings hlabels hnil]
      exact ⟨epochs, hs, hc, hsign⟩
    · obtain ⟨pres, replies, t', heq, -, hversioned, hs', hconfig⟩ :=
        processBatch_of_ne_nil hs hc hsign now openings hlabels hcrypto hsize hne
      have hnext := (sortedOf_next (m := t.values) hlabels).1
      rw [← hversioned] at hnext
      rw [heq]
      exact ⟨_, hs', consecutive_append now hs hc hnext, hconfig ▸ hsign⟩
  | tick run now ih =>
    obtain ⟨epochs, hs, hc, hsign⟩ := ih
    refine ⟨epochs, hs.tick (some now), hc, ?_⟩
    rwa [Tree.afterRefresh_config]
  | auditors run auditors ih =>
    obtain ⟨epochs, hs, hc, hsign⟩ := ih
    exact ⟨epochs, { hs with }, hc, hsign⟩

/-- Where the updates of the last epoch are stored. -/
theorem stored_of_last {e : Epoch} (hs : t.Sound P (epochs ++ [e])) {u : Versioned}
    (hu : u ∈ e.updates.map PreUpdateData.versioned) :
    ∃ p, (u.2.2, p) ∈ t.store.history u.1 ∧ t.store.value p = some u.2.1 ∧
      InEntry t.store epochs.length p := by
  obtain ⟨update, hmem, rfl⟩ := List.mem_map.1 hu
  obtain ⟨i, hi, rfl⟩ := List.mem_iff_getElem.1 hmem
  have hall := updatesOf_append epochs e
  have hlen : (updatesOf (epochs ++ [e])).length = (updatesOf epochs).length + e.updates.length := by
    rw [hall, List.length_append]
  have hlast : (epochs ++ [e]).take (epochs.length + 1) = epochs ++ [e] :=
    List.take_of_length_le (by simp)
  have hsize : (epochs ++ [e]).length = epochs.length + 1 := by simp
  refine ⟨(updatesOf epochs).length + i, ?_, ?_, ⟨_, hs.ptr epochs.length (by omega), ?_⟩,
    fun j hj q hq => ?_⟩
  · rw [hs.history, historyOf_append]
    exact List.mem_append_right _ (mem_historyFrom_getElem hi)
  · rw [hs.value _ (by omega)]
    simp only [hall, List.getElem_append_right (Nat.le_add_right _ i), Nat.add_sub_cancel_left]
    rfl
  · rw [hlast]
    omega
  · rw [hs.ptr j (by omega)] at hq
    obtain rfl := Option.some.inj hq
    have htake : (epochs ++ [e]).take epochs.length = epochs := by simp
    have hle : (updatesOf ((epochs ++ [e]).take (j + 1))).length ≤ (updatesOf epochs).length := by
      rcases Nat.lt_or_ge (j + 1) epochs.length with h | h
      · have := updatesOf_take_lt hs.committed h (by omega)
        rw [htake] at this
        exact this.le
      · rw [show j + 1 = epochs.length by omega, htake]
    have hpos := updatesOf_take_lt hs.committed (show 0 < j + 1 by omega) (by omega)
    omega

/-- The place of each triple of a job in the batch's versions. -/
theorem triples_mem {accepted : List (UpdateJob × List ℕ)} {a : UpdateJob × List ℕ}
    (ha : a ∈ accepted) {u : Versioned} (hu : u ∈ triples a.1.req.label a.1.req.values a.2) :
    u ∈ (cryptoJobs accepted).map CryptoJob.versioned := by
  rw [cryptoJobs, List.map_flatMap]
  refine List.mem_flatMap.2 ⟨a, ha, ?_⟩
  rw [List.map_map]
  exact hu

theorem run_values_outcome {t' : Tree} {epochs' : List Epoch} (hs : t'.Sound P epochs')
    (hc : Consecutive epochs') :
    (∀ label, (t'.store.history label).map Prod.fst = List.range (t'.store.history label).length) ∧
      ∀ label, (t'.store.history label).Pairwise fun a b => a.2 < b.2 := by
  refine ⟨hs.history_versions hc, fun label => ?_⟩
  rw [hs.history]
  exact historyFrom_sorted label 0 _

/-- **Updates are serialised.**  In any run without store or crypto errors, a batch of jobs
does to the values what the jobs' requests do one after the other; histories stay
contiguous, at increasing places, and pointers increase; each job is answered once, and
it is told of the next versions, stored in the new entry, if and only if the greatest
version it names is the label's when its turn comes. -/
theorem serialised_updates (run : BatchRun P t) (now : U64) (openings : ℕ → Octets)
    (jobs : List UpdateJob) (hlabels : ∀ job ∈ jobs, job.req.label.length ≤ 255)
    (hcrypto : CryptoSucceeds P t openings jobs) (hsize : t.treeSize + 1 ≤ 2 ^ 62) :
    Outcome t (processBatch P t none (some now) openings jobs).2 jobs
      (processBatch P t none (some now) openings jobs).1 := by
  obtain ⟨epochs, hs, hc, hsign⟩ := run.sound
  obtain ⟨hnext, hrun⟩ := sortedOf_next (m := t.values) hlabels
  have hids := sortedOf_ids t.values jobs
  rcases eq_or_ne (sortedOf t.values jobs).accepted [] with hnil | hne
  · rw [processBatch_of_nil hs hc now openings hlabels hnil]
    obtain ⟨hversions, hpositions⟩ := run_values_outcome hs hc
    rw [hnil] at hrun hids
    refine ⟨hrun, hversions, hpositions, fun i j => hs.pointers, ?_, fun before job after heq => ?_⟩
    · simpa [catchUpReplies, Function.comp_def] using hids
    · have hmem : job ∈ jobs := heq ▸ List.mem_append_right _ List.mem_cons_self
      have hsplit := sortedOf_split (hlabels job hmem) before after t.values
      rw [← heq, hnil] at hsplit
      split_ifs at hsplit ⊢ with hacc
      · cases hsplit
      · rcases hsplit with ⟨e, he⟩ | hcatch
        · exact ⟨_, List.mem_append_left _ he, fun _ _ h => by cases h⟩
        · exact ⟨_, List.mem_append_right _ (List.mem_map.2 ⟨job, hcatch, rfl⟩), fun _ _ h => by cases h⟩
  · obtain ⟨pres, replies, t', hbatch, hreplies, hversioned, hs', -⟩ :=
      processBatch_of_ne_nil hs hc hsign now openings hlabels hcrypto hsize hne
    rw [← hversioned] at hnext hrun
    have hc' := consecutive_append now hs hc hnext
    obtain ⟨hversions, hpositions⟩ := run_values_outcome hs' hc'
    have hgrown : t'.treeSize = t.treeSize + 1 := by
      rw [hs'.size, hs.size, List.length_append, List.length_singleton]
    have hreplyIds : replies.map Prod.fst = (sortedOf t.values jobs).accepted.map fun a => a.1.id := by
      have h := List.forall₂_map_left_iff.2 (List.forall₂_map_right_iff.2
        (hreplies.imp fun _ _ h => h.1.symm))
      rw [List.forall₂_eq_eq_eq] at h
      exact h.symm
    rw [hbatch]
    refine ⟨?_, hversions, hpositions, fun i j => hs'.pointers, ?_, fun before job after heq => ?_⟩
    · rw [hs'.values_eq, updatesOf_append, List.map_append, appendAll_append, ← hs.values_eq]
      exact hrun
    · rw [List.map_append, List.map_append, hreplyIds]
      simpa [catchUpReplies, Function.comp_def] using hids
    · have hmem : job ∈ jobs := heq ▸ List.mem_append_right _ List.mem_cons_self
      have hsplit := sortedOf_split (hlabels job hmem) before after t.values
      rw [← heq] at hsplit
      split_ifs at hsplit ⊢ with hacc
      · obtain ⟨i, hi, hget⟩ := List.mem_iff_getElem.1 hsplit
        have hi' : i < replies.length := by rwa [← hreplies.length_eq]
        obtain ⟨hid, htells⟩ := hreplies.get hi hi'
        rw [List.get_eq_getElem, List.get_eq_getElem, hget] at hid htells
        refine ⟨replies[i].2, ?_, htells, hgrown, fun u hu => ?_⟩
        · rw [← hid]
          exact List.mem_append_right _ (List.mem_append_right _ (List.getElem_mem hi'))
        · have hlabel : u.1 = job.req.label := by
            obtain ⟨v, -, rfl⟩ := List.mem_map.1 hu
            rfl
          have hmem' := triples_mem hsplit hu
          rw [← hversioned] at hmem'
          have hstored := stored_of_last hs' hmem'
          rw [hlabel] at hstored
          rw [hs.size]
          exact hstored
      · rcases hsplit with ⟨e, he⟩ | hcatch
        · exact ⟨_, List.mem_append_left _ he, fun _ _ h => by cases h⟩
        · exact ⟨_, List.mem_append_right _ (List.mem_append_left _ (List.mem_map.2 ⟨job, hcatch, rfl⟩)),
            fun _ _ h => by cases h⟩

/-- Two jobs that claim the first version of one label. -/
def collidingJobs : List UpdateJob :=
  [⟨0, ⟨none, [1], none, [⟨[2]⟩, ⟨[3]⟩]⟩⟩, ⟨1, ⟨none, [1], none, [⟨[4]⟩]⟩⟩]

theorem collidingJobs_crypto : CryptoSucceeds Primitives.ideal (emptyServer plainConfig)
    (fun _ => Octets.zeros 16) collidingJobs := by
  intro sorted d h
  have hsort : sortJobs collidingJobs (fun _ => none) ⟨Store.empty, none⟩ =
      (.ok ⟨[], [⟨1, ⟨none, [1], none, [⟨[4]⟩]⟩⟩],
        [(⟨0, ⟨none, [1], none, [⟨[2]⟩, ⟨[3]⟩]⟩⟩, [0, 1])]⟩, ⟨Store.empty, none⟩) := rfl
  obtain ⟨hsorted, -⟩ := Prod.mk.inj (hsort.symm.trans h)
  obtain rfl := Except.ok.inj hsorted
  exact ⟨_, rfl⟩

theorem serialised_updates_two : Outcome (emptyServer plainConfig)
    (processBatch Primitives.ideal (emptyServer plainConfig) none (some 5) (fun _ => Octets.zeros 16)
      collidingJobs).2 collidingJobs
    (processBatch Primitives.ideal (emptyServer plainConfig) none (some 5) (fun _ => Octets.zeros 16)
      collidingJobs).1 :=
  serialised_updates (.start plainConfig plainConfig_signs) 5 (fun _ => Octets.zeros 16) collidingJobs
    (by decide) collidingJobs_crypto (by decide)

end Batcher

end KeyTransparency
