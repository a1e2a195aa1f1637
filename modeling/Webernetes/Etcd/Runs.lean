/-
Webernetes.Etcd.Runs — runs of requests against one store.

A state of a run is the store together with the batches of records its
requests appended so far, one batch a request, in order. The batches are
a ghost: no function of the source reads them. They are the history the
store is compared with. `log` runs them together, and `writes` forgets
of a record all but what it wrote, which is a log of `Base.Mvcc`.

Requests that throw are steps too, with whatever they appended before
they threw. Reads change nothing and are stated of the states of a run.
-/
import Webernetes.Base.Mvcc
import Webernetes.Base.Transition
import Webernetes.Etcd.Effects

namespace Webernetes.Etcd

open Js Base Base.Mvcc

variable {locale : Locale}

/-- What a record wrote. -/
def RevisionEvent.write (record : RevisionEvent) : Write JsString Buffer where
  revision := record.revision
  key := record.key
  value := if record.event.type = .put then some record.event.kv.value else none

/-- The writes of a list of records. -/
def writes (records : List RevisionEvent) : List (Write JsString Buffer) :=
  records.map RevisionEvent.write

@[simp] theorem writes_nil : writes [] = [] := rfl

theorem writes_append (left right : List RevisionEvent) :
    writes (left ++ right) = writes left ++ writes right := by
  simp [writes]

@[simp] theorem writes_singleton (record : RevisionEvent) : writes [record] = [record.write] := rfl

@[simp] theorem RevisionEvent.write_key (record : RevisionEvent) :
    record.write.key = record.key := rfl

@[simp] theorem RevisionEvent.write_revision (record : RevisionEvent) :
    record.write.revision = record.revision := rfl

/-- A request that may change the store. -/
inductive StoreRequest where
  | write (request : WriteRequest)
  | compact (revision : Int)
  deriving DecidableEq

/-- A store and the batches of records its requests appended. -/
structure Traced (locale : Locale) where
  store : FakeState locale
  batches : List (List RevisionEvent)

namespace Traced

/-- All records appended so far. -/
def log (t : Traced locale) : List RevisionEvent := t.batches.flatten

def initial (locale : Locale) (retainedRevisions : Nat) : Traced locale where
  store := FakeState.initial locale retainedRevisions
  batches := []

def exec (t : Traced locale) : StoreRequest → Traced locale
  | .write request =>
    { store := (t.store.execWrite request).state
      batches := t.batches ++ [(t.store.execWrite request).records] }
  | .compact revision =>
    { store := (t.store.compact revision).state
      batches := t.batches ++ [[]] }

@[simp] theorem log_initial (locale : Locale) (retainedRevisions : Nat) :
    (initial locale retainedRevisions).log = [] := rfl

@[simp] theorem log_exec_write (t : Traced locale) (request : WriteRequest) :
    (t.exec (.write request)).log = t.log ++ (t.store.execWrite request).records := by
  simp [exec, log]

@[simp] theorem log_exec_compact (t : Traced locale) (revision : Int) :
    (t.exec (.compact revision)).log = t.log := by
  simp [exec, log]

/-- The request returns. -/
def Succeeds (t : Traced locale) : StoreRequest → Prop
  | .write request => (t.store.execWrite request).result.isOk = true
  | .compact revision => (t.store.compact revision).result.isOk = true

instance (t : Traced locale) : (request : StoreRequest) → Decidable (t.Succeeds request)
  | .write _ => inferInstanceAs (Decidable (_ = _))
  | .compact _ => inferInstanceAs (Decidable (_ = _))

end Traced

/-- The runs of a store: any request at any time, from a store made with
any number of retained revisions. -/
def requests (locale : Locale) : System (Traced locale) StoreRequest where
  init t := ∃ retainedRevisions, t = Traced.initial locale retainedRevisions
  step t request t' := t' = t.exec request

namespace FakeState

/-! ## What a write request can do -/

/-- The store a write request works on: with the revision taken, or as it
was when the request appends nothing. -/
def Based (s base : FakeState locale) (records : List RevisionEvent) : Prop :=
  base = s.bumpRevision ∨ (base = s ∧ records = [])

theorem any_isWrite_of_prefix {done ops : List RequestOp} (hdone : done <+: ops)
    (h : ops.any isWrite = false) : done.any isWrite = false := by
  rw [List.any_eq_false] at h ⊢
  exact fun op hop => h op (hdone.subset hop)

theorem based_txnStart (s : FakeState locale) (revision : Nat) {ops done : List RequestOp}
    (hdone : done <+: ops) :
    s.Based (s.txnStart ops) (branchRecords revision (s.txnStart ops) done) := by
  cases h : ops.any isWrite with
  | true => exact .inl (txnStart_revision_of_write s h)
  | false =>
    have hnone := any_isWrite_of_prefix hdone h
    exact .inr ⟨txnStart_of_not_write s h, branchRecords_of_not_write _ _ _ hnone⟩

/-- What any transaction does: nothing, when its write ranges overlap;
else it applies the valid operations up to the first invalid one. -/
theorem txn_effect (s : FakeState locale) (request : TxnRequest) :
    ((s.txn request).state = s ∧ (s.txn request).records = []) ∨
    (assertTxnWriteRangesValid (s.chosenOperations request) = .ok () ∧
      ∃ done, done <+: s.chosenOperations request ∧
        OpsValid (s.txnStart (s.chosenOperations request)).revision
          (s.txnStart (s.chosenOperations request)) done ∧
        (s.txn request).records = branchRecords
          (s.txnStart (s.chosenOperations request)).revision
          (s.txnStart (s.chosenOperations request)) done ∧
        (s.txn request).state
          = (s.txnStart (s.chosenOperations request)).appendRecords (s.txn request).records) := by
  cases hcheck : assertTxnWriteRangesValid (s.chosenOperations request) with
  | error e => exact .inl (by simp [txn_of_overlap s request hcheck])
  | ok u =>
    refine .inr ⟨rfl, ?_⟩
    by_cases hops : OpsValid (s.txnStart (s.chosenOperations request)).revision
      (s.txnStart (s.chosenOperations request)) (s.chosenOperations request)
    · exact ⟨_, List.prefix_rfl, hops, by simp [txn_of_valid s request hcheck hops]⟩
    · obtain ⟨e, done, bad, rest, hsplit, hdone, -, htxn⟩ :=
        txn_of_not_valid s request hcheck hops
      exact ⟨done, ⟨bad :: rest, hsplit.symm⟩, hdone, by simp [htxn]⟩

/-- Every write request appends its records to the store it works on, all
at the revision it took. -/
theorem execWrite_effect (s : FakeState locale) (request : WriteRequest) :
    ∃ base, s.Based base (s.execWrite request).records
      ∧ (s.execWrite request).state = base.appendRecords (s.execWrite request).records
      ∧ ∀ record ∈ (s.execWrite request).records, record.revision = base.revision := by
  cases request with
  | put ns options =>
    by_cases hvalid : s.PutValid ns options
    · refine ⟨s.bumpRevision, .inl rfl, ?_⟩
      simp [execWrite, Outcome.map, put_of_valid s ns options hvalid]
    · refine ⟨s.bumpRevision, .inl rfl, ?_⟩
      simp [execWrite, Outcome.map, put_of_not_valid s ns options hvalid]
  | delete ns options =>
    by_cases hvalid : RangeValid options.key options.rangeEnd
    · by_cases hmatch : s.matched ns options = []
      · refine ⟨s, .inr ⟨rfl, ?_⟩, ?_⟩ <;>
          simp [execWrite, Outcome.map, delete_of_valid s ns options hvalid, hmatch]
      · refine ⟨s.bumpRevision, .inl rfl, ?_⟩
        simp [execWrite, Outcome.map, delete_of_valid s ns options hvalid, hmatch]
    · refine ⟨s, .inr ⟨rfl, ?_⟩, ?_⟩ <;>
        simp [execWrite, Outcome.map, delete_of_not_valid s ns options hvalid]
  | txn request =>
    rcases txn_effect s request with ⟨hstate, hrecords⟩ | ⟨-, done, hdone, -, hrecords, hstate⟩
    · refine ⟨s, .inr ⟨rfl, ?_⟩, ?_⟩ <;> simp [execWrite, Outcome.map, hstate, hrecords]
    · refine ⟨s.txnStart (s.chosenOperations request), ?_, hstate, ?_⟩
      · simp only [execWrite, Outcome.map, hrecords]
        exact based_txnStart s _ hdone
      · intro record hrecord
        simp only [execWrite, Outcome.map, hrecords] at hrecord
        exact branchRecords_revision _ _ _ record hrecord

theorem compact_effect (s : FakeState locale) (requested : Int) :
    (s.compact requested).state = s ∨
    ∃ revision, revision ≠ 0 ∧ revision ≤ s.revision ∧ (s.compact requested).state =
      { s with
        compactedRevision := max s.compactedRevision revision
        history := compactLoop revision (s.history.items.length + 1) 0 s.history } := by
  unfold compact
  cases hres : s.resolveRevision (some requested) with
  | error e => exact .inl rfl
  | ok revision =>
    by_cases hzero : revision = 0
    · exact .inl (by simp [hzero])
    · refine .inr ⟨revision, hzero, ?_, by simp [hzero]⟩
      unfold resolveRevision at hres
      split at hres
      · cases hres; exact Nat.le_refl _
      · split at hres
        · cases hres; exact Nat.le_refl _
        · split at hres
          · cases hres
          · rename_i r hr hlow hhigh
            cases hres
            simp only [Option.some.injEq] at hr
            omega

theorem compact_revision (s : FakeState locale) (requested : Int) :
    (s.compact requested).state.revision = s.revision := by
  rcases s.compact_effect requested with hstate | ⟨_, -, -, hstate⟩ <;> rw [hstate]

theorem compact_histories (s : FakeState locale) (requested : Int) :
    (s.compact requested).state.histories = s.histories := by
  rcases s.compact_effect requested with hstate | ⟨_, -, -, hstate⟩ <;> rw [hstate]

end FakeState

end Webernetes.Etcd
