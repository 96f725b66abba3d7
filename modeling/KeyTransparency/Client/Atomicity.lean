/-
# Errors leave the client alone

Every verifier makes all of its checks before it writes, with one exception, the auditor's
head, after which only the encoding of the tree head could fail.  So an error other than one
of the file system leaves the whole state as it was (`verification_atomic`).
-/

import KeyTransparency.Client.Freshness
import KeyTransparency.Client.Operations

namespace KeyTransparency

open ClientM Transaction

variable {Text : Type}

namespace ClientM

variable {P : Primitives} {host : Host Text}

theorem atomic_memory_bind {β : Type} {f : ClientMemory → ClientM Text β}
    (h : ∀ self, Atomic (f self)) : Atomic (memory >>= f) :=
  fun m e m' hrun => h m.memory m e m' hrun

/-- What a search writes after the commit is not checked. -/
theorem verifySearchResponse_atomic (hencode : ∀ th, ∃ bytes, host.encodeHead th = .ok bytes)
    (label : Octets) (requestedVersion : Option ℕ) (resp : SearchResponse) :
    Atomic (verifySearchResponse P host label requestedVersion resp) :=
  Atomic.bind (Atomic.of_refines (verifySearch_refines hencode label requestedVersion resp))
    fun _ => Unchecked.bind (Unchecked.save _) fun _ =>
      Unchecked.bind (Unchecked.modify _) fun _ => Unchecked.modify _

theorem recordGreatest_unchecked (user : Octets) (version greatest : Option ℕ) :
    Unchecked (recordGreatest host user version greatest) := by
  cases version with
  | some v => exact Unchecked.pure ()
  | none =>
    cases greatest with
    | none => exact Unchecked.pure ()
    | some greatest => exact Unchecked.bind (Unchecked.modify _) fun _ => Unchecked.save _

end ClientM

/-- **An error that is not one of the file system leaves everything as it was**, whatever the
client holds and whatever the response says: in the verification of a response, and in the
operation that asked for it. -/
theorem verification_atomic {P : Primitives} {host : Host Text}
    (hencode : ∀ th, ∃ bytes, host.encodeHead th = .ok bytes) :
    ((∀ label version resp, Atomic (verifySearchResponse P host label version resp)) ∧
      (∀ label map resp, Atomic (verifyContactMonitor P host label map resp)) ∧
      (∀ label start resp, Atomic (verifyOwnerInit P host label start resp)) ∧
      (∀ label map start greatest resp,
        Atomic (verifyOwnerMonitor P host label map start greatest resp)) ∧
      ∀ stop resp, Atomic (verifyDistinguished P host stop resp)) ∧
    (∀ user version resp, Atomic (search P host user version resp)) ∧
      (∀ user resp, Atomic (contactMonitor P host user resp)) ∧
      (∀ user start resp, Atomic (ownerInit P host user start resp)) ∧
      (∀ user entries start greatest resp,
        Atomic (ownerMonitor P host user entries start greatest resp)) ∧
      ∀ stop resp, Atomic (distinguished P host stop resp) := by
  have hcontact : ∀ label map resp, Atomic (verifyContactMonitor P host label map resp) :=
    fun label map resp => Atomic.of_refines (verifyContactMonitor_refines hencode label map resp)
  have hinit : ∀ label start resp, Atomic (verifyOwnerInit P host label start resp) :=
    fun label start resp => Atomic.of_refines (verifyOwnerInit_refines hencode label start resp)
  have howner : ∀ label map start greatest resp,
      Atomic (verifyOwnerMonitor P host label map start greatest resp) :=
    fun label map start greatest resp =>
      Atomic.of_refines (verifyOwnerMonitor_refines hencode label map start greatest resp)
  have hdistinguished : ∀ stop resp, Atomic (verifyDistinguished P host stop resp) :=
    fun stop resp => Atomic.of_refines (verifyDistinguished_refines hencode stop resp)
  refine ⟨⟨verifySearchResponse_atomic hencode, hcontact, hinit, howner, hdistinguished⟩,
    fun user version resp => ?_, fun user resp => ?_, fun user start resp => ?_,
    fun user entries start greatest resp => ?_, fun stop resp => ?_⟩
  · exact (verifySearchResponse_atomic hencode user version resp).bind fun _ =>
      recordGreatest_unchecked user version resp.version
  · exact atomic_memory_bind fun self => Atomic.check_bind fun _ =>
      (hcontact user _ resp).bind fun _ => Unchecked.save _
  · exact (hinit user start resp).bind fun _ => Unchecked.save _
  · exact (howner user _ start greatest resp).bind fun _ => Unchecked.save _
  · exact (hdistinguished stop resp).bind fun _ => Unchecked.save _

/-- A response without a tree head leaves a new client as it was. -/
theorem headless_search_atomic : (search Primitives.ideal (recordHost none) [] none
    ⟨none, none, [], none, [], none⟩ (Machine.fresh watchingConfig)).2 = Machine.fresh watchingConfig := by
  have hrun : search Primitives.ideal (recordHost none) [] none ⟨none, none, [], none, [], none⟩
      (Machine.fresh watchingConfig) =
        (.error (.check (.err "Missing FullTreeHead")), Machine.fresh watchingConfig) := rfl
  exact (verification_atomic (fun th => ⟨_, rfl⟩)).2.1 [] none _ _ _ _ (hrun.trans rfl)

end KeyTransparency
