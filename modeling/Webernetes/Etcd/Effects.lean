/-
Webernetes.Etcd.Effects — what a request does to the store, said once.

Every change of a key's history goes through `appendRevision`, and what
it appends is fixed by the event record (`appendRecord`). So a write
request comes to three things: the store it starts from (the revision
taken or not), the records it appends, and whether it throws.
`put_eq`, `delete_eq` and `txn_eq` say so for the three entry points,
the last through `txnLoop_eq`, one lemma for the loop over the
operations. Validity is spelled out as predicates on the input and the
store (`PutValid`, `RangeValid`, `RangeReadable`, `OpValid`), with
`applyOp_of_valid` / `applyOp_of_not_valid` to connect them to the code.
-/
import Webernetes.Etcd.State

namespace Webernetes.Etcd

open Js

variable {locale : Locale}

/-! ## Requests -/

/-- A write request. -/
inductive WriteRequest where
  | put (ns : JsString) (options : PutOptions)
  | delete (ns : JsString) (options : DeleteOptions)
  | txn (request : TxnRequest)
  deriving DecidableEq

inductive Response where
  | put (response : PutResponse)
  | delete (response : DeleteResponse)
  | txn (response : TxnResponse)
  deriving DecidableEq

def Outcome.map {ρ τ : Type} (f : ρ → τ) (out : Outcome locale ρ) : Outcome locale τ where
  result := out.result.map f
  state := out.state
  records := out.records
  published := out.published

namespace FakeState

def execWrite (s : FakeState locale) : WriteRequest → Outcome locale Response
  | .put ns options => (s.put ns options).map .put
  | .delete ns options => (s.delete ns options).map .delete
  | .txn request => (s.txn request).map .txn

/-! ## Records -/

/-- The revision a record appends to its key's history. -/
def recordRevision (record : RevisionEvent) : StoredRevision where
  key := record.key
  value := if record.event.type = .put then some record.event.kv.value else none
  createRevision := record.event.kv.createRevision
  modRevision := record.revision
  version := record.event.kv.version
  deleted := decide (record.event.type = .delete)
  historyRevision := record.revision

/-- `appendRevision` of a record. -/
def appendRecord (s : FakeState locale) (record : RevisionEvent) : FakeState locale :=
  s.appendRevision record.key (recordRevision record) record

/-- The records of a list, appended in order. -/
def appendRecords (s : FakeState locale) (records : List RevisionEvent) : FakeState locale :=
  records.foldl appendRecord s

@[simp] theorem appendRecords_nil (s : FakeState locale) : s.appendRecords [] = s := rfl

@[simp] theorem appendRecords_cons (s : FakeState locale) (record : RevisionEvent)
    (records : List RevisionEvent) :
    s.appendRecords (record :: records) = (s.appendRecord record).appendRecords records := rfl

theorem appendRecords_append (s : FakeState locale) (left right : List RevisionEvent) :
    s.appendRecords (left ++ right) = (s.appendRecords left).appendRecords right := by
  simp [appendRecords]

@[simp] theorem recordRevision_putRecord (existing : Option StoredValue) (next : StoredValue) :
    recordRevision (putRecord existing next) = next.revisionOf := by
  simp [recordRevision, putRecord, StoredValue.revisionOf, toPublicKv]

@[simp] theorem recordRevision_deleteRecord (value : StoredValue) (revision : Nat) :
    recordRevision (deleteRecord value revision) = tombstone value revision := by
  simp [recordRevision, deleteRecord, tombstone, toPublicKv]

@[simp] theorem putRecord_key (existing : Option StoredValue) (next : StoredValue) :
    (putRecord existing next).key = next.key := rfl

@[simp] theorem deleteRecord_key (value : StoredValue) (revision : Nat) :
    (deleteRecord value revision).key = value.key := rfl

@[simp] theorem putRecord_revision (existing : Option StoredValue) (next : StoredValue) :
    (putRecord existing next).revision = next.modRevision := rfl

@[simp] theorem deleteRecord_revision (value : StoredValue) (revision : Nat) :
    (deleteRecord value revision).revision = revision := rfl

@[simp] theorem putValue_key (existing : Option StoredValue) (options : PutOptions)
    (key : JsString) (revision : Nat) : (putValue existing options key revision).key = key := rfl

@[simp] theorem putValue_modRevision (existing : Option StoredValue) (options : PutOptions)
    (key : JsString) (revision : Nat) :
    (putValue existing options key revision).modRevision = revision := rfl

/-! ## What appending and bumping leave alone -/

@[simp] theorem bumpRevision_revision (s : FakeState locale) :
    s.bumpRevision.revision = s.revision + 1 := rfl

@[simp] theorem bumpRevision_histories (s : FakeState locale) :
    s.bumpRevision.histories = s.histories := rfl

@[simp] theorem bumpRevision_history (s : FakeState locale) :
    s.bumpRevision.history = s.history := rfl

@[simp] theorem bumpRevision_compactedRevision (s : FakeState locale) :
    s.bumpRevision.compactedRevision = s.compactedRevision := rfl

@[simp] theorem bumpRevision_retainedRevisions (s : FakeState locale) :
    s.bumpRevision.retainedRevisions = s.retainedRevisions := rfl

@[simp] theorem bumpRevision_revisionsOf (s : FakeState locale) (key : JsString) :
    s.bumpRevision.revisionsOf key = s.revisionsOf key := rfl

@[simp] theorem bumpRevision_collectDeleted (s : FakeState locale) (ns : JsString)
    (options : DeleteOptions) :
    s.bumpRevision.collectDeleted ns options = s.collectDeleted ns options := rfl

@[simp] theorem appendRecord_revision (s : FakeState locale) (record : RevisionEvent) :
    (s.appendRecord record).revision = s.revision := rfl

@[simp] theorem appendRecord_retainedRevisions (s : FakeState locale) (record : RevisionEvent) :
    (s.appendRecord record).retainedRevisions = s.retainedRevisions := rfl

@[simp] theorem appendRecords_revision (s : FakeState locale) (records : List RevisionEvent) :
    (s.appendRecords records).revision = s.revision := by
  induction records generalizing s with
  | nil => rfl
  | cons record records ih => rw [appendRecords_cons, ih, appendRecord_revision]

@[simp] theorem appendRecords_retainedRevisions (s : FakeState locale)
    (records : List RevisionEvent) :
    (s.appendRecords records).retainedRevisions = s.retainedRevisions := by
  induction records generalizing s with
  | nil => rfl
  | cons record records ih => rw [appendRecords_cons, ih, appendRecord_retainedRevisions]

/-! ## Validity -/

/-- The range has a key, or asks for everything. -/
def RangeValid (key rangeEnd : JsString) : Prop := key ≠ [] ∨ rangeEnd = zeroKey

instance (key rangeEnd : JsString) : Decidable (RangeValid key rangeEnd) :=
  inferInstanceAs (Decidable (_ ∨ _))

/-- The put has a key, and a touch finds it alive. -/
def PutValid (s : FakeState locale) (ns : JsString) (options : PutOptions) : Prop :=
  options.key ≠ [] ∧
    (options.ignoreValue = true → (currentValue (s.revisionsOf (namespacedKey ns options.key))).isSome)

instance (s : FakeState locale) (ns : JsString) (options : PutOptions) :
    Decidable (s.PutValid ns options) :=
  inferInstanceAs (Decidable (_ ∧ _))

/-- The read asks for the current revision, or for one that has happened
and is above the watermark. -/
def RevisionReadable (s : FakeState locale) (requested : Option Int) : Prop :=
  ∀ r ∈ requested, 0 < r → (s.compactedRevision : Int) < r ∧ r ≤ s.revision

def RangeReadable (s : FakeState locale) (options : RangeOptions) : Prop :=
  RangeValid options.key options.rangeEnd ∧ s.RevisionReadable options.revision

/-- The live values a delete matches. -/
def matched (s : FakeState locale) (ns : JsString) (options : DeleteOptions) :
    List StoredValue :=
  (iterateRange s.histories (namespacedKey ns options.key)
    (namespacedRangeEnd ns options.rangeEnd)).filterMap fun entry => currentValue entry.2

/-- The operation passes its own checks in this store. -/
def OpValid (s : FakeState locale) (op : RequestOp) : Prop :=
  match op.requestRange, op.requestPut, op.requestDeleteRange with
  | some o, _, _ => s.RangeReadable o
  | none, some o, _ => s.PutValid [] o
  | none, none, some o => RangeValid o.key o.rangeEnd
  | none, none, none => op.requestTxn = false

/-- The records an operation appends when it is valid. -/
def opRecords (s : FakeState locale) (revision : Nat) (op : RequestOp) : List RevisionEvent :=
  match op.requestRange, op.requestPut, op.requestDeleteRange with
  | some _, _, _ => []
  | none, some o, _ =>
    [putRecord (currentValue (s.revisionsOf o.key))
      (putValue (currentValue (s.revisionsOf o.key)) o o.key revision)]
  | none, none, some o => (s.matched [] o).map fun value => deleteRecord value revision
  | none, none, none => []

/-- The response of a range read whose checks pass. -/
def rangeAnswer (s : FakeState locale) (ns : JsString) (options : RangeOptions) : RangeResponse :=
  s.rangeResponse ns options ((s.resolveRevision options.revision).toOption.getD 0)

/-- The responses of a valid operation. -/
def opResponses (s : FakeState locale) (revision : Nat) (op : RequestOp) : List ResponseOp :=
  match op.requestRange, op.requestPut, op.requestDeleteRange with
  | some o, _, _ => [.range (s.rangeAnswer [] o)]
  | none, some o, _ =>
    [.put { header := s.header revision
            prevKv := if o.prevKv then
              (currentValue (s.revisionsOf o.key)).map fun old => toPublicKv old [] false
              else none }]
  | none, none, some o =>
    [.deleteRange { header := s.header revision
                    deleted := (s.matched [] o).length
                    prevKvs := if o.prevKv then
                      (s.matched [] o).map fun value => toPublicKv value [] false else [] }]
  | none, none, none => []

/-! ## The checks, and what they answer -/

@[simp] theorem ok_bind {α β : Type} (a : α) (f : α → Except EtcdError β) :
    (Except.ok a >>= f) = f a := rfl

@[simp] theorem error_bind {α β : Type} (e : EtcdError) (f : α → Except EtcdError β) :
    (Except.error e >>= f) = .error e := rfl

@[simp] theorem map_ok {α β : Type} (a : α) (f : α → β) :
    f <$> (Except.ok a : Except EtcdError α) = .ok (f a) := rfl

@[simp] theorem map_error {α β : Type} (e : EtcdError) (f : α → β) :
    f <$> (Except.error e : Except EtcdError α) = .error e := rfl

@[simp] theorem toOption_ok {α : Type} (a : α) :
    (Except.ok a : Except EtcdError α).toOption = some a := rfl

theorem assertValidRange_of_valid {key rangeEnd : JsString} (h : RangeValid key rangeEnd) :
    assertValidRange key rangeEnd = .ok () := by
  unfold assertValidRange
  rw [if_neg]
  rintro ⟨hkey, hend⟩
  rcases h with h | h
  · exact h (List.length_eq_zero_iff.mp hkey)
  · exact hend h

theorem assertValidRange_of_not_valid {key rangeEnd : JsString}
    (h : ¬ RangeValid key rangeEnd) : assertValidRange key rangeEnd = .error emptyKeyError := by
  unfold assertValidRange
  rw [if_pos]
  unfold RangeValid at h
  push Not at h
  exact ⟨List.length_eq_zero_iff.mpr h.1, h.2⟩

theorem collectDeleted_of_valid (s : FakeState locale) (ns : JsString) (options : DeleteOptions)
    (h : RangeValid options.key options.rangeEnd) :
    s.collectDeleted ns options = .ok (s.matched ns options) := by
  unfold collectDeleted
  rw [assertValidRange_of_valid h]
  rfl

theorem collectDeleted_of_not_valid (s : FakeState locale) (ns : JsString)
    (options : DeleteOptions) (h : ¬ RangeValid options.key options.rangeEnd) :
    s.collectDeleted ns options = .error emptyKeyError := by
  unfold collectDeleted
  rw [assertValidRange_of_not_valid h]
  rfl

/-- Which error a put that is not valid throws. -/
def putError (options : PutOptions) : EtcdError :=
  if options.key = [] then emptyKeyError else keyNotFoundError

theorem applyPut_of_valid (s : FakeState locale) (ns : JsString) (options : PutOptions)
    (revision : Nat) (h : s.PutValid ns options) :
    s.applyPutAtRevision ns options revision =
      let existing := currentValue (s.revisionsOf (namespacedKey ns options.key))
      let record := putRecord existing (putValue existing options (namespacedKey ns options.key) revision)
      .ok ({ response :=
              { header := s.header revision
                prevKv := if options.prevKv then existing.map fun old => toPublicKv old ns false
                  else none }
             records := [record] }, s.appendRecord record) := by
  obtain ⟨hkey, htouch⟩ := h
  have hlen : ¬ options.key.length = 0 := fun hz => hkey (List.length_eq_zero_iff.mp hz)
  have hcheck : ¬ (options.ignoreValue = true
      ∧ currentValue (s.revisionsOf (namespacedKey ns options.key)) = none) := by
    rintro ⟨hi, hnone⟩
    have hsome := htouch hi
    rw [hnone] at hsome
    cases hsome
  simp only [applyPutAtRevision, assertNonEmptyKey, if_neg hlen, appendRecord,
    recordRevision_putRecord, putRecord_key, putValue_key]
  exact if_neg hcheck

theorem applyPut_of_not_valid (s : FakeState locale) (ns : JsString) (options : PutOptions)
    (revision : Nat) (h : ¬ s.PutValid ns options) :
    s.applyPutAtRevision ns options revision = .error (putError options) := by
  unfold applyPutAtRevision assertNonEmptyKey putError
  by_cases hkey : options.key = []
  · simp [hkey]
  · have hlen : ¬ options.key.length = 0 := fun hz => hkey (List.length_eq_zero_iff.mp hz)
    have hcheck : options.ignoreValue = true
        ∧ currentValue (s.revisionsOf (namespacedKey ns options.key)) = none := by
      unfold PutValid at h
      push Not at h
      obtain ⟨hi, hnone⟩ := h hkey
      exact ⟨hi, by simpa using hnone⟩
    simp only [if_neg hlen, if_pos hcheck, if_neg hkey]

/-- A read at the current revision, or at one still readable, passes its
checks. -/
theorem range_of_readable (s : FakeState locale) (ns : JsString) (options : RangeOptions)
    (h : s.RangeReadable options) : s.range ns options = .ok (s.rangeAnswer ns options) := by
  obtain ⟨hvalid, hrev⟩ := h
  unfold range rangeAnswer
  rw [assertValidRange_of_valid hvalid]
  cases hr : options.revision with
  | none => simp [resolveRevision]
  | some r =>
    by_cases hpos : 0 < r
    · obtain ⟨hlow, hhigh⟩ := hrev r (by simp [hr]) hpos
      have h1 : ¬ r ≤ 0 := by omega
      have h2 : ¬ (s.revision : Int) < r := by omega
      have h3 : ¬ r.toNat = 0 := by omega
      have h4 : ¬ r.toNat ≤ s.compactedRevision := by omega
      simp [resolveRevision, h1, h2, hpos, assertRangeRevisionAvailable,
        compactedRevisionForRange, h3, h4]
    · have h1 : r ≤ 0 := by omega
      simp [resolveRevision, h1, hpos]

/-- A read that is not readable throws. -/
theorem range_of_not_readable (s : FakeState locale) (ns : JsString) (options : RangeOptions)
    (h : ¬ s.RangeReadable options) : ∃ e, s.range ns options = .error e := by
  unfold range
  by_cases hvalid : RangeValid options.key options.rangeEnd
  · rw [assertValidRange_of_valid hvalid]
    have hrev : ¬ s.RevisionReadable options.revision := fun hr => h ⟨hvalid, hr⟩
    unfold RevisionReadable at hrev
    push Not at hrev
    obtain ⟨r, hr, hpos, hbad⟩ := hrev
    have hr' : options.revision = some r := by simpa using hr
    have h1 : ¬ r ≤ 0 := by omega
    by_cases hfuture : (s.revision : Int) < r
    · refine ⟨futureRevError, ?_⟩
      simp [hr', resolveRevision, h1, hfuture]
    · have hlow : r.toNat ≤ s.compactedRevision := by
        by_contra hc
        exact absurd (hbad (by omega)) (by omega)
      have h3 : ¬ r.toNat = 0 := by omega
      refine ⟨compactedError, ?_⟩
      simp [hr', resolveRevision, h1, hfuture, hpos, assertRangeRevisionAvailable,
        compactedRevisionForRange, h3, hlow]
  · rw [assertValidRange_of_not_valid hvalid]
    exact ⟨emptyKeyError, rfl⟩

/-! ## One operation and the loop over them -/

theorem applyDelete_eq (s : FakeState locale) (ns : JsString) (options : DeleteOptions)
    (revision : Nat) (deleted : List StoredValue) :
    s.applyDeleteAtRevision ns options revision deleted =
      ({ response :=
          { header := s.header revision
            deleted := deleted.length
            prevKvs := if options.prevKv then deleted.map fun value => toPublicKv value ns false
              else [] }
         records := deleted.map fun value => deleteRecord value revision },
       s.appendRecords (deleted.map fun value => deleteRecord value revision)) := by
  simp only [applyDeleteAtRevision, appendRecords, List.foldl_map, appendRecord,
    recordRevision_deleteRecord, deleteRecord_key]

theorem applyOp_of_valid (s : FakeState locale) (revision : Nat) (op : RequestOp)
    (h : s.OpValid op) :
    s.applyOp revision op = .ok (s.opResponses revision op, s.opRecords revision op,
      s.appendRecords (s.opRecords revision op)) := by
  unfold OpValid at h
  unfold applyOp opResponses opRecords
  cases hrange : op.requestRange with
  | some o =>
    rw [hrange] at h
    simp [range_of_readable s [] o h]
  | none =>
    rw [hrange] at h
    cases hput : op.requestPut with
    | some o =>
      rw [hput] at h
      simp [applyPut_of_valid s [] o revision h]
    | none =>
      rw [hput] at h
      cases hdel : op.requestDeleteRange with
      | some o =>
        rw [hdel] at h
        simp only [collectDeleted_of_valid s [] o h, ok_bind, applyDelete_eq]
        split
        · rename_i hlen
          simp [List.length_eq_zero_iff.mp hlen]
          rfl
        · rfl
      | none =>
        rw [hdel] at h
        simp only at h
        simp [h]

theorem applyOp_of_not_valid (s : FakeState locale) (revision : Nat) (op : RequestOp)
    (h : ¬ s.OpValid op) : ∃ e, s.applyOp revision op = .error e := by
  unfold OpValid at h
  unfold applyOp
  cases hrange : op.requestRange with
  | some o =>
    rw [hrange] at h
    obtain ⟨e, he⟩ := range_of_not_readable s [] o h
    exact ⟨e, by simp [he]⟩
  | none =>
    rw [hrange] at h
    cases hput : op.requestPut with
    | some o =>
      rw [hput] at h
      exact ⟨_, by simp [applyPut_of_not_valid s [] o revision h]; rfl⟩
    | none =>
      rw [hput] at h
      cases hdel : op.requestDeleteRange with
      | some o =>
        rw [hdel] at h
        exact ⟨_, by simp [collectDeleted_of_not_valid s [] o h]; rfl⟩
      | none =>
        rw [hdel] at h
        simp only [Bool.not_eq_false] at h
        exact ⟨nestedTxnError, by simp [h]⟩

/-- Every operation is valid at its turn. -/
def OpsValid (revision : Nat) : FakeState locale → List RequestOp → Prop
  | _, [] => True
  | s, op :: rest => s.OpValid op ∧ OpsValid revision (s.appendRecords (s.opRecords revision op)) rest

/-- The records the operations append when all are valid. -/
def branchRecords (revision : Nat) : FakeState locale → List RequestOp → List RevisionEvent
  | _, [] => []
  | s, op :: rest =>
    s.opRecords revision op
      ++ branchRecords revision (s.appendRecords (s.opRecords revision op)) rest

/-- The responses the operations push when all are valid. -/
def branchResponses (revision : Nat) : FakeState locale → List RequestOp → List ResponseOp
  | _, [] => []
  | s, op :: rest =>
    s.opResponses revision op
      ++ branchResponses revision (s.appendRecords (s.opRecords revision op)) rest

/-- The loop, when every operation is valid at its turn. -/
theorem txnLoop_of_valid (revision : Nat) : ∀ (ops : List RequestOp) (s : FakeState locale)
    (responses : List ResponseOp) (records : List RevisionEvent), OpsValid revision s ops →
    txnLoop revision ops s responses records =
      (.ok (responses ++ branchResponses revision s ops),
        records ++ branchRecords revision s ops, s.appendRecords (branchRecords revision s ops))
  | [], s, responses, records, _ => by
      simp [txnLoop, branchRecords, branchResponses]
  | op :: rest, s, responses, records, h => by
      obtain ⟨hop, hrest⟩ := h
      simp only [txnLoop, applyOp_of_valid s revision op hop]
      rw [txnLoop_of_valid revision rest _ _ _ hrest]
      simp [branchRecords, branchResponses, appendRecords_append]

/-- The loop, when some operation is not valid at its turn: it throws
after the operations before that one. -/
theorem txnLoop_of_not_valid (revision : Nat) : ∀ (ops : List RequestOp) (s : FakeState locale)
    (responses : List ResponseOp) (records : List RevisionEvent), ¬ OpsValid revision s ops →
    ∃ e done bad rest, ops = done ++ bad :: rest ∧ OpsValid revision s done
      ∧ ¬ (s.appendRecords (branchRecords revision s done)).OpValid bad
      ∧ txnLoop revision ops s responses records =
        (.error e, records ++ branchRecords revision s done,
          s.appendRecords (branchRecords revision s done))
  | [], _, _, _, h => absurd trivial h
  | op :: rest, s, responses, records, h => by
      by_cases hop : s.OpValid op
      · have hrest : ¬ OpsValid revision (s.appendRecords (s.opRecords revision op)) rest :=
          fun hr => h ⟨hop, hr⟩
        obtain ⟨e, done, bad, rest', hsplit, hdone, hbad, hloop⟩ :=
          txnLoop_of_not_valid revision rest _ (responses ++ s.opResponses revision op)
            (records ++ s.opRecords revision op) hrest
        refine ⟨e, op :: done, bad, rest', by simp [hsplit], ⟨hop, hdone⟩, ?_, ?_⟩
        · simpa [branchRecords, appendRecords_append] using hbad
        · simp only [txnLoop, applyOp_of_valid s revision op hop, hloop]
          simp [branchRecords, appendRecords_append]
      · obtain ⟨e, he⟩ := applyOp_of_not_valid s revision op hop
        refine ⟨e, [], op, rest, rfl, trivial, by simpa [branchRecords] using hop, ?_⟩
        simp [txnLoop, he, branchRecords]

/-- Every record of an operation carries the revision it was applied at. -/
theorem opRecords_revision (s : FakeState locale) (revision : Nat) (op : RequestOp) :
    ∀ record ∈ s.opRecords revision op, record.revision = revision := by
  intro record hmem
  unfold opRecords at hmem
  split at hmem
  · cases hmem
  · rw [List.mem_singleton.mp hmem, putRecord_revision, putValue_modRevision]
  · obtain ⟨value, -, rfl⟩ := List.mem_map.mp hmem
    rfl
  · cases hmem

theorem branchRecords_revision (revision : Nat) : ∀ (ops : List RequestOp) (s : FakeState locale),
    ∀ record ∈ branchRecords revision s ops, record.revision = revision
  | [], _, _, h => by simp [branchRecords] at h
  | op :: rest, s, record, h => by
      rw [branchRecords, List.mem_append] at h
      rcases h with h | h
      · exact opRecords_revision s revision op record h
      · exact branchRecords_revision revision rest _ record h

/-- Operations that are no writes append nothing. -/
theorem branchRecords_of_not_write (revision : Nat) : ∀ (ops : List RequestOp)
    (s : FakeState locale), ops.any isWrite = false → branchRecords revision s ops = []
  | [], _, _ => rfl
  | op :: rest, s, h => by
      simp only [List.any_cons, Bool.or_eq_false_iff, isWrite, Option.isSome_eq_false_iff,
        Option.isNone_iff_eq_none] at h
      obtain ⟨⟨hput, hdel⟩, hrest⟩ := h
      have hop : s.opRecords revision op = [] := by
        unfold opRecords
        cases op.requestRange <;> simp [hput, hdel]
      rw [branchRecords, hop]
      exact branchRecords_of_not_write revision rest _ hrest

theorem txnStart_revision_of_write (s : FakeState locale) {ops : List RequestOp}
    (h : ops.any isWrite = true) : s.txnStart ops = s.bumpRevision := by
  simp [txnStart, h]

theorem txnStart_of_not_write (s : FakeState locale) {ops : List RequestOp}
    (h : ops.any isWrite = false) : s.txnStart ops = s := by
  simp [txnStart, h]

/-! ## The entry points -/

/-- The batches of a request that appended these records. -/
def batches (records : List RevisionEvent) : List (List RevisionEvent) :=
  if records = [] then [] else [records]

theorem put_of_valid (s : FakeState locale) (ns : JsString) (options : PutOptions)
    (h : s.PutValid ns options) :
    let key := namespacedKey ns options.key
    let existing := currentValue (s.revisionsOf key)
    let record := putRecord existing (putValue existing options key (s.revision + 1))
    s.put ns options =
      { result := .ok
          { header := s.header (s.revision + 1)
            prevKv := if options.prevKv then existing.map fun old => toPublicKv old ns false
              else none }
        state := s.bumpRevision.appendRecord record
        records := [record]
        published := [[record]] } := by
  have hb : s.bumpRevision.PutValid ns options := h
  simp only [put, applyPut_of_valid _ ns options _ hb]
  rfl

theorem put_of_not_valid (s : FakeState locale) (ns : JsString) (options : PutOptions)
    (h : ¬ s.PutValid ns options) :
    s.put ns options =
      { result := .error (putError options), state := s.bumpRevision, records := []
        published := [] } := by
  have hb : ¬ s.bumpRevision.PutValid ns options := h
  simp only [put, applyPut_of_not_valid _ ns options _ hb]

theorem delete_of_not_valid (s : FakeState locale) (ns : JsString) (options : DeleteOptions)
    (h : ¬ RangeValid options.key options.rangeEnd) :
    s.delete ns options =
      { result := .error emptyKeyError, state := s, records := [], published := [] } := by
  simp only [delete, collectDeleted_of_not_valid s ns options h]

theorem delete_of_valid (s : FakeState locale) (ns : JsString) (options : DeleteOptions)
    (h : RangeValid options.key options.rangeEnd) :
    s.delete ns options =
      if s.matched ns options = [] then
        { result := .ok { header := s.header s.revision, deleted := 0, prevKvs := [] }
          state := s, records := [], published := [] }
      else
        let records := (s.matched ns options).map fun value => deleteRecord value (s.revision + 1)
        { result := .ok
            { header := s.header (s.revision + 1)
              deleted := (s.matched ns options).length
              prevKvs := if options.prevKv then
                (s.matched ns options).map fun value => toPublicKv value ns false else [] }
          state := s.bumpRevision.appendRecords records
          records := records
          published := [records] } := by
  simp only [delete, collectDeleted_of_valid s ns options h, applyDelete_eq,
    List.length_eq_zero_iff]
  rfl

theorem txn_of_overlap (s : FakeState locale) (request : TxnRequest) {e : EtcdError}
    (h : assertTxnWriteRangesValid (s.chosenOperations request) = .error e) :
    s.txn request = { result := .error e, state := s, records := [], published := [] } := by
  simp only [txn, h]

theorem txn_of_valid (s : FakeState locale) (request : TxnRequest)
    (h : assertTxnWriteRangesValid (s.chosenOperations request) = .ok ())
    (hops : OpsValid (s.txnStart (s.chosenOperations request)).revision
      (s.txnStart (s.chosenOperations request)) (s.chosenOperations request)) :
    let ops := s.chosenOperations request
    let start := s.txnStart ops
    s.txn request =
      { result := .ok
          { header := start.header start.revision
            succeeded := request.compare.all s.evaluateCompare
            responses := branchResponses start.revision start ops }
        state := start.appendRecords (branchRecords start.revision start ops)
        records := branchRecords start.revision start ops
        published := batches (branchRecords start.revision start ops) } := by
  simp only [txn, h, txnLoop_of_valid _ _ _ [] [] hops, List.nil_append, batches,
    List.length_pos_iff]
  split <;> simp_all [header]

theorem txn_of_not_valid (s : FakeState locale) (request : TxnRequest)
    (h : assertTxnWriteRangesValid (s.chosenOperations request) = .ok ())
    (hops : ¬ OpsValid (s.txnStart (s.chosenOperations request)).revision
      (s.txnStart (s.chosenOperations request)) (s.chosenOperations request)) :
    let ops := s.chosenOperations request
    let start := s.txnStart ops
    ∃ e done bad rest, ops = done ++ bad :: rest ∧ OpsValid start.revision start done
      ∧ ¬ (start.appendRecords (branchRecords start.revision start done)).OpValid bad
      ∧ s.txn request =
        { result := .error e
          state := start.appendRecords (branchRecords start.revision start done)
          records := branchRecords start.revision start done
          published := [] } := by
  obtain ⟨e, done, bad, rest, hsplit, hdone, hbad, hloop⟩ :=
    txnLoop_of_not_valid _ _ _ [] [] hops
  exact ⟨e, done, bad, rest, hsplit, hdone, hbad, by simp only [txn, h, hloop, List.nil_append]⟩

end FakeState

end Webernetes.Etcd
