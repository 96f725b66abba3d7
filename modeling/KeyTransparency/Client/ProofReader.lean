/-
# Reading combined proofs

`ProofReader` of `src/client/core.rs` consumes the fields of a combined proof as
queues, in the order in which the replayed algorithm asks for them.  The timestamps
it has assigned to entries never decrease from left to right; the reader carries
this as a field, so that the check of each new timestamp is what lets it in.
-/

import KeyTransparency.Client.State

namespace KeyTransparency

/-- An entry with its timestamp and prefix root. -/
abbrev LeafData := ℕ × U64 × Octets

structure ProofReader where
  proof : CombinedTreeProof
  tsIdx : ℕ
  proofIdx : ℕ
  /-- The timestamps of the entries read so far. -/
  assignedTs : OrderedMap U64
  monotone : assignedTs.entries.Pairwise fun a b => a.2 ≤ b.2

namespace ProofReader

def new (proof : CombinedTreeProof) : ProofReader := ⟨proof, 0, 0, .empty, List.Pairwise.nil⟩

/-- Where timestamps do not decrease, a new one needs to be compared with its
neighbours only. -/
theorem insert_monotone {assigned : OrderedMap U64} {pos : ℕ} {ts : U64}
    (h : assigned.entries.Pairwise fun a b => a.2 ≤ b.2)
    (hleft : ∀ left ∈ (assigned.before pos).getLast?, left.2 ≤ ts)
    (hright : ∀ right ∈ (assigned.after pos).head?, ts ≤ right.2) :
    (assigned.insert pos ts).entries.Pairwise fun a b => a.2 ≤ b.2 := by
  have hbefore : ∀ p ∈ assigned.before pos, p.2 ≤ ts :=
    OrderedMap.le_getLast_before (R := (· ≤ ·)) le_trans h hleft
  have hafter : ∀ p ∈ assigned.after pos, ts ≤ p.2 :=
    OrderedMap.le_head_after (R := (· ≤ ·)) le_trans h hright
  exact OrderedMap.pairwise_insert h hbefore hafter
    fun p hp q hq => (hbefore p hp).trans (hafter q hq)

/-- The timestamp of an entry: the one it was given already, else the next one, which
must fit between its neighbours. -/
def timestamp (r : ProofReader) (pos : ℕ) : Result (U64 × ProofReader) :=
  match r.assignedTs.get pos with
  | some ts => .ok (ts, r)
  | none =>
    match r.proof.timestamps[r.tsIdx]? with
    | none => fail s!"Timestamp queue exhausted at entry {pos}"
    | some ts =>
      if hleft : ∀ left ∈ (r.assignedTs.before pos).getLast?, left.2 ≤ ts then
        if hright : ∀ right ∈ (r.assignedTs.after pos).head?, ts ≤ right.2 then
          .ok (ts, { r with
            tsIdx := r.tsIdx + 1
            assignedTs := r.assignedTs.insert pos ts
            monotone := insert_monotone r.monotone hleft hright })
        else fail s!"Timestamp for entry {pos} is newer than an entry to its right"
      else fail s!"Timestamp for entry {pos} is older than an entry to its left"

def prefixProof (r : ProofReader) : Result (PrefixProof × ProofReader) := do
  let pp ← okOr r.proof.prefixProofs[r.proofIdx]? "PrefixProof queue exhausted"
  return (pp, { r with proofIdx := r.proofIdx + 1 })

/-- The timestamps of a list of entries, read one after the other. -/
def timestamps (r : ProofReader) : List ℕ → Result ProofReader
  | [] => .ok r
  | pos :: rest => do
    let (_, r) ← r.timestamp pos
    r.timestamps rest

/-- The loop of `finish`: an entry has the root of its verified proof, or the next of
the roots sent for entries without one. -/
def surfaceRoots (entryRoots : NodeMap) :
    List (ℕ × U64) → List Octets → Result (List LeafData × List Octets)
  | [], roots => .ok ([], roots)
  | (pos, ts) :: rest, roots =>
    match entryRoots pos with
    | some root => do
      let (out, roots) ← surfaceRoots entryRoots rest roots
      return ((pos, ts, root) :: out, roots)
    | none =>
      match roots with
      | root :: roots => do
        let (out, roots) ← surfaceRoots entryRoots rest roots
        return ((pos, ts, root) :: out, roots)
      | [] => fail s!"Missing prefix root for entry {pos}"

/-- Enforces that all three queues were consumed and returns the entries touched, by
position. -/
def finish (r : ProofReader) (entryRoots : NodeMap) : Result (List LeafData) := do
  ensure (r.tsIdx = r.proof.timestamps.length)
    s!"{r.proof.timestamps.length - r.tsIdx} unused timestamps in proof"
  ensure (r.proofIdx = r.proof.prefixProofs.length)
    s!"{r.proof.prefixProofs.length - r.proofIdx} unused PrefixProofs in proof"
  let (out, unused) ← surfaceRoots entryRoots r.assignedTs.entries r.proof.prefixRoots
  ensure (unused = []) s!"{unused.length} unused prefix roots in proof"
  return out

/-- `record_entry_root`: all proofs of an entry must agree on its prefix root. -/
def recordEntryRoot (map : NodeMap) (entry : ℕ) (root : Octets) : Result NodeMap := do
  ensure (∀ prev ∈ map entry, prev = root)
    s!"PrefixProofs for entry {entry} disagree on the prefix-tree root"
  return Function.update map entry (some root)

/-! ### What was read -/

section

variable {r r' : ProofReader} {pos : ℕ} {ts : U64}

theorem surfaceRoots_entries {entryRoots : NodeMap} : ∀ {entries : List (ℕ × U64)}
    {roots unused : List Octets} {out : List LeafData},
    surfaceRoots entryRoots entries roots = .ok (out, unused) →
      out.map (fun d => (d.1, d.2.1)) = entries
  | [], roots, unused, out, h => by
    obtain ⟨rfl, -⟩ := Prod.mk.inj (Except.ok.inj h)
    rfl
  | (pos, ts) :: entries, roots, unused, out, h => by
    rw [surfaceRoots.eq_def] at h
    cases hroot : entryRoots pos with
    | some root =>
      simp only [hroot] at h
      obtain ⟨⟨out', unused'⟩, hrest, h⟩ := Result.bind_eq_ok.1 h
      obtain ⟨rfl, -⟩ := Prod.mk.inj (Except.ok.inj h)
      rw [List.map_cons, surfaceRoots_entries hrest]
    | none =>
      cases roots with
      | nil => simp [hroot] at h
      | cons root roots =>
        simp only [hroot] at h
        obtain ⟨⟨out', unused'⟩, hrest, h⟩ := Result.bind_eq_ok.1 h
        obtain ⟨rfl, -⟩ := Prod.mk.inj (Except.ok.inj h)
        rw [List.map_cons, surfaceRoots_entries hrest]

/-- What `finish` returns are the entries read, with their timestamps. -/
theorem finish_entries {entryRoots : NodeMap} {out : List LeafData}
    (h : r.finish entryRoots = .ok out) : out.map (fun d => (d.1, d.2.1)) = r.assignedTs.entries := by
  simp only [finish, Result.bind_eq_ok, ensure_eq_ok] at h
  obtain ⟨-, -, -, -, ⟨out', unused⟩, hout, -, -, h⟩ := h
  obtain rfl := Except.ok.inj h
  exact surfaceRoots_entries hout

/-- **The timestamps of a verified proof do not decrease** from left to right. -/
theorem finish_monotone {entryRoots : NodeMap} {out : List LeafData}
    (h : r.finish entryRoots = .ok out) :
    out.Pairwise fun a b => a.1 < b.1 ∧ a.2.1 ≤ b.2.1 := by
  have := r.assignedTs.sorted.and r.monotone
  rw [← finish_entries h, List.pairwise_map] at this
  exact this

end

end ProofReader

end KeyTransparency
