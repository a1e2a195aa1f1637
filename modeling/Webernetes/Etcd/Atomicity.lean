/-
Webernetes.Etcd.Atomicity — which requests are all or nothing.

`AllOrNothing` is what a caller expects of a put, a delete or a
transaction: it succeeds with every write of its branch applied at one
revision and one batch published, or it throws and leaves the store as
it was. The source takes the revision before it validates a put, and
applies the operations of a transaction one by one before it validates
the later ones; nothing is rolled back. `allOrNothing_iff` is the exact
set of requests that come out whole, `NoLateFailure`: a request that
throws after the revision was taken has changed the store.
-/
import Webernetes.Etcd.Effects

namespace Webernetes.Etcd

open Js

variable {locale : Locale}

namespace FakeState

/-- The operations a write request performs, spelled as those of a
transaction. -/
def operations (s : FakeState locale) : WriteRequest → List RequestOp
  | .put ns options => [{ requestPut := some (namespacedPutOptions ns options) }]
  | .delete ns options => [{ requestDeleteRange := some (namespacedDeleteOptions ns options) }]
  | .txn request => s.chosenOperations request

/-- Every write of the operations is applied, in order and at one new
revision, and their records are published as one batch. -/
def Committed {ρ : Type} (s : FakeState locale) (ops : List RequestOp)
    (out : Outcome locale ρ) : Prop :=
  ∃ start, (start = s ∨ start = s.bumpRevision)
    ∧ out.records = branchRecords start.revision start ops
    ∧ out.state = start.appendRecords out.records
    ∧ out.published = batches out.records
    ∧ ∀ record ∈ out.records,
        record.revision = out.state.revision ∧ record.revision = s.revision + 1

/-- The request is applied whole, or throws and changes nothing. -/
def AllOrNothing (s : FakeState locale) (request : WriteRequest) : Prop :=
  match (s.execWrite request).result with
  | .ok _ => s.Committed (s.operations request) (s.execWrite request)
  | .error _ => (s.execWrite request).state = s ∧ (s.execWrite request).published = []

/-- The request does not throw once it has taken a revision: a put is
valid; a transaction is refused by the overlap check, writes nothing, or
has all its operations valid at their turns. -/
def NoLateFailure (s : FakeState locale) : WriteRequest → Prop
  | .put ns options => s.PutValid ns options
  | .delete _ _ => True
  | .txn request =>
    assertTxnWriteRangesValid (s.chosenOperations request) ≠ .ok ()
      ∨ (s.chosenOperations request).any isWrite = false
      ∨ OpsValid (s.revision + 1) s.bumpRevision (s.chosenOperations request)

/-! ## Records of one operation -/

theorem matched_namespaced (s : FakeState locale) (ns : JsString) (options : DeleteOptions) :
    s.matched [] (namespacedDeleteOptions ns options) = s.matched ns options := by
  simp [matched, namespacedDeleteOptions, namespacedRangeEnd_nil_left]

/-! ## The three entry points -/

theorem put_allOrNothing_iff (s : FakeState locale) (ns : JsString) (options : PutOptions) :
    s.AllOrNothing (.put ns options) ↔ s.PutValid ns options := by
  by_cases h : s.PutValid ns options
  · refine iff_of_true ?_ h
    simp only [AllOrNothing, execWrite, Outcome.map, put_of_valid s ns options h, Except.map]
    refine ⟨s.bumpRevision, .inr rfl, ?_, ?_, ?_, ?_⟩
    · rfl
    · rfl
    · simp [batches]
    · simp [appendRecord, appendRevision]
  · refine iff_of_false ?_ h
    simp only [AllOrNothing, execWrite, Outcome.map, put_of_not_valid s ns options h, Except.map]
    rintro ⟨hstate, -⟩
    have hrev := congrArg FakeState.revision hstate
    simp at hrev

theorem delete_allOrNothing (s : FakeState locale) (ns : JsString) (options : DeleteOptions) :
    s.AllOrNothing (.delete ns options) := by
  by_cases h : RangeValid options.key options.rangeEnd
  · simp only [AllOrNothing, execWrite, Outcome.map, delete_of_valid s ns options h]
    by_cases hnone : s.matched ns options = []
    · rw [if_pos hnone]
      refine ⟨s, .inl rfl, ?_, rfl, rfl, by simp⟩
      simp [branchRecords, operations, opRecords, matched_namespaced, hnone]
    · rw [if_neg hnone]
      refine ⟨s.bumpRevision, .inr rfl, ?_, rfl, ?_, ?_⟩
      · have hm : s.bumpRevision.matched ns options = s.matched ns options := rfl
        simp [branchRecords, operations, opRecords, matched_namespaced, hm]
      · simp [batches, hnone]
      · intro record hmem
        obtain ⟨value, -, rfl⟩ := List.mem_map.mp hmem
        simp
  · simp [AllOrNothing, execWrite, Outcome.map, delete_of_not_valid s ns options h, Except.map]

/-- A transaction whose operations are all valid is applied whole. -/
theorem txn_allOrNothing_of_valid (s : FakeState locale) (request : TxnRequest)
    (h : assertTxnWriteRangesValid (s.chosenOperations request) = .ok ())
    (hops : OpsValid (s.txnStart (s.chosenOperations request)).revision
      (s.txnStart (s.chosenOperations request)) (s.chosenOperations request)) :
    s.AllOrNothing (.txn request) := by
  simp only [AllOrNothing, execWrite, Outcome.map, txn_of_valid s request h hops, Except.map]
  refine ⟨s.txnStart (s.chosenOperations request), ?_, rfl, rfl, rfl, ?_⟩
  · unfold txnStart
    split
    · exact .inr rfl
    · exact .inl rfl
  · intro record hmem
    have hrev := branchRecords_revision _ _ _ record hmem
    refine ⟨by simpa using hrev, ?_⟩
    cases hw : (s.chosenOperations request).any isWrite with
    | true => rw [txnStart_revision_of_write s hw] at hrev; exact hrev
    | false =>
      rw [txnStart_of_not_write s hw, branchRecords_of_not_write _ _ _ hw] at hmem
      cases hmem

theorem txn_allOrNothing_iff (s : FakeState locale) (request : TxnRequest) :
    s.AllOrNothing (.txn request) ↔ s.NoLateFailure (.txn request) := by
  unfold NoLateFailure
  cases hcheck : assertTxnWriteRangesValid (s.chosenOperations request) with
  | error e =>
    refine iff_of_true ?_ (.inl (by rw [hcheck]; simp))
    simp [AllOrNothing, execWrite, Outcome.map, txn_of_overlap s request hcheck, Except.map]
  | ok =>
    cases hw : (s.chosenOperations request).any isWrite with
    | false =>
      refine iff_of_true ?_ (.inr (.inl hw))
      have hstart := txnStart_of_not_write s hw
      by_cases hops : OpsValid (s.txnStart (s.chosenOperations request)).revision
          (s.txnStart (s.chosenOperations request)) (s.chosenOperations request)
      · exact txn_allOrNothing_of_valid s request hcheck hops
      · obtain ⟨e, done, bad, rest, hsplit, -, -, htxn⟩ :=
          txn_of_not_valid s request hcheck hops
        have hdone : branchRecords s.revision s done = [] := by
          refine branchRecords_of_not_write _ _ _ ?_
          rw [hsplit, List.any_append, Bool.or_eq_false_iff] at hw
          exact hw.1
        rw [hstart, hdone] at htxn
        simp [AllOrNothing, execWrite, Outcome.map, htxn, Except.map]
    | true =>
      have hstart := txnStart_revision_of_write s hw
      by_cases hops : OpsValid (s.revision + 1) s.bumpRevision (s.chosenOperations request)
      · refine iff_of_true (txn_allOrNothing_of_valid s request hcheck ?_) (.inr (.inr hops))
        rw [hstart]; exact hops
      · refine iff_of_false ?_ (by simp only [hcheck, hw]; simp [hops])
        have hops' : ¬ OpsValid (s.txnStart (s.chosenOperations request)).revision
            (s.txnStart (s.chosenOperations request)) (s.chosenOperations request) := by
          rw [hstart]; exact hops
        obtain ⟨e, done, bad, rest, -, -, -, htxn⟩ := txn_of_not_valid s request hcheck hops'
        rw [hstart] at htxn
        simp only [AllOrNothing, execWrite, Outcome.map, htxn]
        rintro ⟨hstate, -⟩
        have hrev := congrArg FakeState.revision hstate
        simp at hrev

/-- A transaction that puts `a` and then touches the missing key `b`. -/
def putThenTouchMissing : TxnRequest where
  success :=
    [{ requestPut := some { key := js "a", value := some [1] } },
     { requestPut := some { key := js "b", ignoreValue := true } }]

end FakeState

end Webernetes.Etcd
