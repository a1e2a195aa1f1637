/-
Webernetes.Etcd.SingleOp — a put or delete issued directly against the
same request as the only operation of a transaction.

The builders namespace the options of a transaction's operation on the
client (`namespacedPutOptions`, `namespacedDeleteOptions`) and run it
with the empty namespace; a direct request carries its namespace into
the store. `sameEffect_iff` compares the two in every store: they leave
the same store, publish the same batches and answer alike up to the
namespace prefix (`SameEffect`) exactly for the requests of
`Interchangeable`. The two ways part where the direct path does not take
a revision and the transaction does (a delete that matches nothing or
has no range), and where the prefix hides that the key is empty.
-/
import Webernetes.Etcd.Atomicity
import Mathlib.Data.List.Forall2

namespace Webernetes.Etcd

open Js

variable {locale : Locale}

/-- A put or delete under a namespace. -/
inductive SingleRequest where
  | put (ns : JsString) (options : PutOptions)
  | delete (ns : JsString) (options : DeleteOptions)
  deriving DecidableEq

namespace SingleRequest

/-- `PutBuilder.op` and `DeleteBuilder.op`. -/
def op : SingleRequest → RequestOp
  | .put ns options => { requestPut := some (namespacedPutOptions ns options) }
  | .delete ns options => { requestDeleteRange := some (namespacedDeleteOptions ns options) }

/-- The transaction of this one operation. -/
def viaTxn (request : SingleRequest) : TxnRequest := { success := [request.op] }

end SingleRequest

/-- The same stored value, its key with the namespace prefix in `viaTxn`
and without it in `direct`. -/
def SameUpToPrefix (ns : JsString) (direct viaTxn : KeyValue) : Prop :=
  ∃ key, viaTxn.key = Buffer.fromString key
    ∧ direct.key = Buffer.fromString (unprefixKey key ns)
    ∧ direct.value = viaTxn.value
    ∧ direct.createRevision = viaTxn.createRevision
    ∧ direct.modRevision = viaTxn.modRevision
    ∧ direct.version = viaTxn.version

/-- The two put responses say the same. -/
def PutResponse.Agree (ns : JsString) (direct viaTxn : PutResponse) : Prop :=
  direct.header = viaTxn.header ∧ Option.Rel (SameUpToPrefix ns) direct.prevKv viaTxn.prevKv

/-- The two delete responses say the same. -/
def DeleteResponse.Agree (ns : JsString) (direct viaTxn : DeleteResponse) : Prop :=
  direct.header = viaTxn.header ∧ direct.deleted = viaTxn.deleted
    ∧ List.Forall₂ (SameUpToPrefix ns) direct.prevKvs viaTxn.prevKvs

/-- The transaction answers its one operation as the direct request is
answered, or both throw the same error. -/
def Answers {ρ : Type} (agree : ρ → ResponseOp → Prop) (direct : Except EtcdError ρ)
    (viaTxn : Except EtcdError TxnResponse) : Prop :=
  match direct, viaTxn with
  | .ok response, .ok txn => txn.succeeded = true ∧ ∃ op, txn.responses = [op] ∧ agree response op
  | .error e, .error e' => e = e'
  | _, _ => False

def PutAnswers (ns : JsString) : PutResponse → ResponseOp → Prop
  | direct, .put viaTxn => direct.Agree ns viaTxn
  | _, _ => False

def DeleteAnswers (ns : JsString) : DeleteResponse → ResponseOp → Prop
  | direct, .deleteRange viaTxn => direct.Agree ns viaTxn
  | _, _ => False

namespace FakeState

/-- The direct request and the transaction leave the same store, publish
the same batches and answer alike. -/
def SameEffect (s : FakeState locale) (request : SingleRequest) : Prop :=
  match request with
  | .put ns options =>
    (s.put ns options).state = (s.txn request.viaTxn).state
      ∧ (s.put ns options).published = (s.txn request.viaTxn).published
      ∧ Answers (PutAnswers ns) (s.put ns options).result (s.txn request.viaTxn).result
  | .delete ns options =>
    (s.delete ns options).state = (s.txn request.viaTxn).state
      ∧ (s.delete ns options).published = (s.txn request.viaTxn).published
      ∧ Answers (DeleteAnswers ns) (s.delete ns options).result (s.txn request.viaTxn).result

/-- A put has a key of its own, or no namespace to lend it one; a delete
has a range and matches a live key. -/
def Interchangeable (s : FakeState locale) : SingleRequest → Prop
  | .put ns options => options.key ≠ [] ∨ ns = []
  | .delete ns options => RangeValid options.key options.rangeEnd ∧ s.matched ns options ≠ []

/-! ## The transaction side -/

@[simp] theorem chosenOperations_viaTxn (s : FakeState locale) (request : SingleRequest) :
    s.chosenOperations request.viaTxn = [request.op] := by
  simp [chosenOperations, SingleRequest.viaTxn]

theorem assertWriteRanges_single (op : RequestOp) : assertTxnWriteRangesValid [op] = .ok () := by
  simp only [assertTxnWriteRangesValid, assertWriteRangesLoop]
  split <;> simp

theorem isWrite_op (request : SingleRequest) : isWrite request.op = true := by
  cases request <;> rfl

/-- The transaction of one valid operation. -/
theorem txn_viaTxn_of_valid (s : FakeState locale) (request : SingleRequest)
    (h : s.bumpRevision.OpValid request.op) :
    s.txn request.viaTxn =
      { result := .ok
          { header := s.header (s.revision + 1)
            succeeded := true
            responses := s.bumpRevision.opResponses (s.revision + 1) request.op }
        state := s.bumpRevision.appendRecords
          (s.bumpRevision.opRecords (s.revision + 1) request.op)
        records := s.bumpRevision.opRecords (s.revision + 1) request.op
        published := batches (s.bumpRevision.opRecords (s.revision + 1) request.op) } := by
  have hstart : s.txnStart [request.op] = s.bumpRevision :=
    txnStart_revision_of_write s (by simp [isWrite_op])
  have hcheck : assertTxnWriteRangesValid (s.chosenOperations request.viaTxn) = .ok () := by
    rw [chosenOperations_viaTxn]; exact assertWriteRanges_single _
  have hops : OpsValid (s.txnStart (s.chosenOperations request.viaTxn)).revision
      (s.txnStart (s.chosenOperations request.viaTxn))
      (s.chosenOperations request.viaTxn) := by
    rw [chosenOperations_viaTxn, hstart]; exact ⟨h, trivial⟩
  rw [txn_of_valid s _ hcheck hops]
  simp only [chosenOperations_viaTxn, hstart, branchRecords, branchResponses, List.append_nil,
    bumpRevision_revision]
  rfl

/-- The transaction of one invalid operation has taken a revision. -/
theorem txn_viaTxn_of_not_valid (s : FakeState locale) (request : SingleRequest)
    (h : ¬ s.bumpRevision.OpValid request.op) :
    ∃ e, s.bumpRevision.applyOp (s.revision + 1) request.op = .error e
      ∧ s.txn request.viaTxn =
        { result := .error e, state := s.bumpRevision, records := [], published := [] } := by
  obtain ⟨e, he⟩ := applyOp_of_not_valid s.bumpRevision (s.revision + 1) request.op h
  have hstart : s.txnStart [request.op] = s.bumpRevision :=
    txnStart_revision_of_write s (by simp [isWrite_op])
  refine ⟨e, he, ?_⟩
  simp only [txn, chosenOperations_viaTxn, assertWriteRanges_single, hstart, txnLoop,
    bumpRevision_revision, he]

/-! ## Keys with and without their prefix -/

theorem toPublicKv_sameUpToPrefix (value : StoredValue) (ns : JsString) :
    SameUpToPrefix ns (toPublicKv value ns false) (toPublicKv value [] false) := by
  refine ⟨value.key, by simp [toPublicKv], ?_, rfl, rfl, rfl, rfl⟩
  unfold toPublicKv unprefixKey
  by_cases hns : ns = []
  · simp [hns]
  · simp [hns]

theorem rel_toPublicKv (existing : Option StoredValue) (ns : JsString) (prevKv : Bool) :
    Option.Rel (SameUpToPrefix ns)
      (if prevKv then existing.map fun old => toPublicKv old ns false else none)
      (if prevKv then existing.map fun old => toPublicKv old [] false else none) := by
  cases prevKv with
  | false => exact .none
  | true =>
    cases existing with
    | none => exact .none
    | some old => exact .some (toPublicKv_sameUpToPrefix old ns)

theorem forall₂_toPublicKv (values : List StoredValue) (ns : JsString) (prevKv : Bool) :
    List.Forall₂ (SameUpToPrefix ns)
      (if prevKv then values.map fun value => toPublicKv value ns false else [])
      (if prevKv then values.map fun value => toPublicKv value [] false else []) := by
  cases prevKv with
  | false => exact .nil
  | true =>
    simp only [if_true, List.forall₂_map_left_iff, List.forall₂_map_right_iff]
    exact List.forall₂_same.mpr fun value _ => toPublicKv_sameUpToPrefix value ns

/-! ## Puts -/

theorem putValid_namespaced (s : FakeState locale) (ns : JsString) (options : PutOptions)
    (h : options.key ≠ [] ∨ ns = []) :
    s.bumpRevision.OpValid (SingleRequest.put ns options).op ↔ s.PutValid ns options := by
  have hkey : ns ++ options.key ≠ [] ↔ options.key ≠ [] := by
    rcases h with h | h
    · simp [h]
    · simp [h]
  simp only [OpValid, SingleRequest.op, PutValid, namespacedPutOptions, namespacedKey,
    List.nil_append, bumpRevision_revisionsOf]
  exact and_congr hkey Iff.rfl

theorem put_sameEffect (s : FakeState locale) (ns : JsString) (options : PutOptions)
    (h : options.key ≠ [] ∨ ns = []) : s.SameEffect (.put ns options) := by
  unfold SameEffect
  by_cases hvalid : s.PutValid ns options
  · have hop := (putValid_namespaced s ns options h).mpr hvalid
    simp only [put_of_valid s ns options hvalid, txn_viaTxn_of_valid s _ hop]
    refine ⟨rfl, by simp [batches, opRecords, SingleRequest.op, putValue, namespacedPutOptions],
      rfl, _, rfl, rfl, ?_⟩
    exact rel_toPublicKv _ ns options.prevKv
  · have hop := mt (putValid_namespaced s ns options h).mp hvalid
    obtain ⟨e, he, htxn⟩ := txn_viaTxn_of_not_valid s (.put ns options) hop
    simp only [put_of_not_valid s ns options hvalid, htxn]
    refine ⟨trivial, trivial, ?_⟩
    have hbad : ¬ s.bumpRevision.PutValid [] (namespacedPutOptions ns options) := hop
    simp only [applyOp, SingleRequest.op, applyPut_of_not_valid _ _ _ _ hbad, error_bind,
      Except.error.injEq] at he
    subst he
    simp only [Answers, putError, namespacedPutOptions, namespacedKey]
    rcases h with h | h
    · simp [h]
    · simp [h]

/-- A put without a key under a namespace throws when issued directly,
and writes the namespace itself through a transaction. -/
theorem put_not_sameEffect (s : FakeState locale) (ns : JsString) (options : PutOptions)
    (hkey : options.key = []) (hns : ns ≠ []) : ¬ s.SameEffect (.put ns options) := by
  have hvalid : ¬ s.PutValid ns options := fun hv => hv.1 hkey
  unfold SameEffect
  simp only [put_of_not_valid s ns options hvalid]
  rintro ⟨-, -, hanswer⟩
  by_cases hop : s.bumpRevision.OpValid (SingleRequest.put ns options).op
  · rw [txn_viaTxn_of_valid s _ hop] at hanswer
    exact hanswer
  · obtain ⟨e, he, htxn⟩ := txn_viaTxn_of_not_valid s (.put ns options) hop
    have hbad : ¬ s.bumpRevision.PutValid [] (namespacedPutOptions ns options) := hop
    simp only [applyOp, SingleRequest.op, applyPut_of_not_valid _ _ _ _ hbad, error_bind,
      Except.error.injEq] at he
    rw [htxn] at hanswer
    subst he
    simp [Answers, putError, hkey, namespacedPutOptions, namespacedKey, hns, emptyKeyError,
      keyNotFoundError] at hanswer

/-! ## Deletes -/

theorem rangeValid_namespaced {key rangeEnd : JsString} (ns : JsString)
    (h : RangeValid key rangeEnd) :
    RangeValid (namespacedKey ns key) (namespacedRangeEnd ns rangeEnd) := by
  by_cases hns : ns = []
  · subst hns
    rcases h with h | h
    · exact .inl h
    · exact .inr (by simp [namespacedRangeEnd, h, zeroKey])
  · exact .inl (by simp [namespacedKey, hns])

theorem delete_sameEffect (s : FakeState locale) (ns : JsString) (options : DeleteOptions)
    (hvalid : RangeValid options.key options.rangeEnd) (hmatch : s.matched ns options ≠ []) :
    s.SameEffect (.delete ns options) := by
  have hop : s.bumpRevision.OpValid (SingleRequest.delete ns options).op :=
    rangeValid_namespaced ns hvalid
  have hrecords : s.bumpRevision.opRecords (s.revision + 1) (SingleRequest.delete ns options).op
      = (s.matched ns options).map fun value => deleteRecord value (s.revision + 1) := by
    simp only [opRecords, SingleRequest.op, matched_namespaced]
    rfl
  have hmatched : s.bumpRevision.matched [] (namespacedDeleteOptions ns options)
      = s.matched ns options := by
    rw [matched_namespaced]
    rfl
  unfold SameEffect
  simp only [delete_of_valid s ns options hvalid, if_neg hmatch, txn_viaTxn_of_valid s _ hop,
    hrecords]
  refine ⟨trivial, by simp [batches, hmatch], rfl, _, rfl, rfl, ?_, ?_⟩
  · rw [hmatched]
  · rw [hmatched]
    exact forall₂_toPublicKv _ ns options.prevKv

/-- Through a transaction a delete takes a revision in any case. -/
theorem txn_viaTxn_revision (s : FakeState locale) (request : SingleRequest) :
    (s.txn request.viaTxn).state.revision = s.revision + 1 := by
  by_cases hop : s.bumpRevision.OpValid request.op
  · rw [txn_viaTxn_of_valid s _ hop]
    simp
  · obtain ⟨e, -, htxn⟩ := txn_viaTxn_of_not_valid s request hop
    rw [htxn]
    simp

/-- A direct delete that finds nothing to delete leaves the revision. -/
theorem delete_revision_of_not_interchangeable (s : FakeState locale) (ns : JsString)
    (options : DeleteOptions) (h : ¬ s.Interchangeable (.delete ns options)) :
    (s.delete ns options).state.revision = s.revision := by
  by_cases hvalid : RangeValid options.key options.rangeEnd
  · have hnone : s.matched ns options = [] := by
      by_contra hne
      exact h ⟨hvalid, hne⟩
    rw [delete_of_valid s ns options hvalid, if_pos hnone]
  · rw [delete_of_not_valid s ns options hvalid]

/-- **When the two ways agree.** A direct put or delete has the effect
and the answer of the transaction of that one operation exactly when it
is `Interchangeable`. -/
theorem sameEffect_iff (s : FakeState locale) (request : SingleRequest) :
    s.SameEffect request ↔ s.Interchangeable request := by
  cases request with
  | put ns options =>
    by_cases h : options.key ≠ [] ∨ ns = []
    · exact iff_of_true (put_sameEffect s ns options h) h
    · refine iff_of_false ?_ h
      push Not at h
      exact put_not_sameEffect s ns options h.1 h.2
  | delete ns options =>
    by_cases h : s.Interchangeable (.delete ns options)
    · exact iff_of_true (delete_sameEffect s ns options h.1 h.2) h
    · refine iff_of_false ?_ h
      rintro ⟨hstate, -, -⟩
      have hrev := congrArg FakeState.revision hstate
      rw [delete_revision_of_not_interchangeable s ns options h, txn_viaTxn_revision] at hrev
      omega

/-- Deleting a missing key of an empty store leaves revision 0 directly
and takes revision 1 through a transaction. -/
theorem delete_missing_not_sameEffect :
    ¬ (FakeState.initial rootLocale 3).SameEffect (.delete [] { key := js "a", rangeEnd := [] }) := by
  rintro ⟨hstate, -, -⟩
  exact absurd (congrArg FakeState.revision hstate) (by decide)

end FakeState

end Webernetes.Etcd
