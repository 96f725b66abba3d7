/-
# The batcher

`process_batch` of `src/batcher.rs`.  Update jobs are gone through in order: a job whose
`greatest_version` is the label's greatest version, in the store or in the batch so far,
gets the next versions; one that is behind is told what it has missed, and any other is
refused.  The versions accepted are committed as one batch, and each job is answered once.

A reply names the call of `catch_up_update` or `post_update` that answers a job, and what
it is made with; `Tree.CatchUp` has the answers.  The openings drawn for the commitments
are an input.
-/

import KeyTransparency.Tree.Commit

namespace KeyTransparency

/-- A job; its number stands for the channel that its reply is sent on. -/
structure UpdateJob where
  id : ℕ
  req : UpdateRequest
deriving DecidableEq

inductive Reply
  | refused (e : Fault)
  /-- The answer of `catch_up_update`. -/
  | catchUp (req : UpdateRequest)
  /-- The answer of `post_update`. -/
  | posted (pres : List PreUpdateData) (post : PostUpdateData)

namespace Batcher

variable (P : Primitives)

/-! ### Sequential versioning -/

inductive Decision
  | refuse (e : Fault)
  | catchUp
  | accept (versions : List ℕ)
deriving DecidableEq

/-- Whether a job's greatest version is behind the label's. -/
def behind (claimed actual : Option ℕ) : Bool :=
  match claimed, actual with
  | none, some _ => true
  | some claimed, some actual => decide (claimed < actual)
  | _, _ => false

/-- The compare-and-swap on `greatest_version`. -/
def decideJob (currentGreatest : Option ℕ) (req : UpdateRequest) : Decision :=
  if req.greatestVersion ≠ currentGreatest then
    if behind req.greatestVersion currentGreatest then .catchUp
    else .refuse (.kt .versionConflict)
  else if req.values = [] then
    .refuse (.err "Empty values: no versions exist beyond the advertised greatest_version")
  else if 255 < req.label.length then
    .refuse (.err "Label exceeds 255 bytes (opaque<0..2^8-1>)")
  else
    let startVer := (currentGreatest.map (· + 1)).getD 0
    .accept ((List.range req.values.length).map (startVer + ·))

/-- `get_label_history(…).unwrap_or_default()`: a failed read is an empty history. -/
def labelHistoryOrEmpty (label : Octets) : Db (List (ℕ × ℕ)) := fun d =>
  match Db.read (fun s => .ok (s.history label)) d with
  | (.ok history, d) => (.ok history, d)
  | (.error _, d) => (.ok [], d)

/-- A label's greatest version, in the batch so far or in the store. -/
def currentGreatest (overlay : Octets → Option ℕ) (label : Octets) : Db (Option ℕ) :=
  match overlay label with
  | some version => pure (some version)
  | none => do
    let history ← labelHistoryOrEmpty label
    return history.getLast?.map Prod.fst

/-- What the first phase makes of the jobs: replies that are sent at once, jobs to catch
up, and jobs with the versions they got. -/
structure Sorted where
  replies : List (ℕ × Reply)
  catchUps : List UpdateJob
  accepted : List (UpdateJob × List ℕ)

namespace Sorted

def empty : Sorted := ⟨[], [], []⟩

/-- One more job, before the others. -/
def add (job : UpdateJob) (decision : Decision) (sorted : Sorted) : Sorted :=
  match decision with
  | .refuse e => { sorted with replies := (job.id, .refused e) :: sorted.replies }
  | .catchUp => { sorted with catchUps := job :: sorted.catchUps }
  | .accept versions => { sorted with accepted := (job, versions) :: sorted.accepted }

end Sorted

/-- The overlay after a job: the last of the versions it got. -/
def Decision.record (decision : Decision) (label : Octets) (overlay : Octets → Option ℕ) :
    Octets → Option ℕ :=
  match decision with
  | .accept versions => Function.update overlay label versions.getLast?
  | _ => overlay

def sortJobs : List UpdateJob → (Octets → Option ℕ) → Db Sorted
  | [], _ => return .empty
  | job :: jobs, overlay => do
    let current ← currentGreatest overlay job.req.label
    let decision := decideJob current job.req
    let sorted ← sortJobs jobs (decision.record job.req.label overlay)
    return sorted.add job decision

/-! ### Cryptography -/

structure CryptoJob where
  label : Octets
  value : Octets
  last : ℕ
  version : ℕ
deriving DecidableEq

def cryptoJobs (accepted : List (UpdateJob × List ℕ)) : List CryptoJob :=
  accepted.flatMap fun a => (a.1.req.values.zip a.2).map fun v =>
    ⟨a.1.req.label, v.1.value, a.1.req.last.getD 0, v.2⟩

/-- The closure of the second phase, for the opening it drew. -/
def precompute (config : PrivateConfig) (opening : Octets) (job : CryptoJob) :
    Result PreUpdateData := do
  let (index, vrfProof) ← config.vrfProve P job.label job.version
  let commitment ← commit P job.label job.version job.value none opening
  return ⟨job.label, job.value, job.last, job.version, index, vrfProof, commitment, opening⟩

def precomputeAll (config : PrivateConfig) (openings : ℕ → Octets)
    (accepted : List (UpdateJob × List ℕ)) : Result (List PreUpdateData) :=
  (cryptoJobs accepted).zipIdx.mapM fun job => precompute P config (openings job.2) job.1

/-! ### Replies -/

def errorOf : Result PostUpdateData → Option Fault
  | .error e => some e
  | .ok _ => none

/-- The reply to a job, from the results of its versions. -/
def groupReply (pres : List PreUpdateData) (group : List (Result PostUpdateData)) : Reply :=
  match group.findSome? errorOf with
  | some e => .refused e
  | none =>
    match group.getLast? with
    | some (.ok post) => .posted pres post
    | _ => .refused (.panic "called `Option::unwrap()` on a `None` value")

def groupReplies : List (UpdateJob × List ℕ) → List PreUpdateData → List (Result PostUpdateData) →
    List (ℕ × Reply)
  | [], _, _ => []
  | (job, versions) :: accepted, pres, results =>
    (job.id, groupReply (pres.take versions.length) (results.take versions.length)) ::
      groupReplies accepted (pres.drop versions.length) (results.drop versions.length)

def catchUpReplies (jobs : List UpdateJob) : List (ℕ × Reply) :=
  jobs.map fun job => (job.id, .catchUp job.req)

def failAll (accepted : List (UpdateJob × List ℕ)) (e : Fault) : List (ℕ × Reply) :=
  accepted.map fun a => (a.1.id, .refused e)

/-! ### The batch -/

/-- The phases after the first. -/
def commitSorted (t : Tree) (budget : Option ℕ) (now : Option U64) (openings : ℕ → Octets)
    (sorted : Sorted) : List (ℕ × Reply) × Tree :=
  if sorted.accepted = [] then (catchUpReplies sorted.catchUps, t)
  else
    match precomputeAll P t.config openings sorted.accepted with
    | .error e =>
      (catchUpReplies sorted.catchUps ++ failAll sorted.accepted (e.within "Batch crypto failed"), t)
    | .ok pres =>
      match Tree.afterBatch P t budget now pres with
      | (.ok results, t) =>
        (catchUpReplies sorted.catchUps ++ groupReplies sorted.accepted pres results, t)
      | (.error e, t) =>
        (catchUpReplies sorted.catchUps ++ failAll sorted.accepted (e.within "Batch commit failed"), t)

/-- `process_batch`: the replies sent, and the server after the batch. -/
def processBatch (t : Tree) (budget : Option ℕ) (now : Option U64) (openings : ℕ → Octets)
    (batch : List UpdateJob) : List (ℕ × Reply) × Tree :=
  match sortJobs batch (fun _ => none) ⟨t.store, budget⟩ with
  | (.ok sorted, d) =>
    let r := commitSorted P { t with store := d.store } d.budget now openings sorted
    (sorted.replies ++ r.1, r.2)
  | (.error _, d) => ([], { t with store := d.store })

end Batcher

end KeyTransparency
