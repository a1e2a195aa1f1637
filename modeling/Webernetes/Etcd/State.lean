/-
Webernetes.Etcd.State — the key-value store of `cluster/etcd.ts`: the
part of `FakeState` that put, delete, txn, range and compact read and
write.

A request runs to its end before the next one starts, so it is a
function from the store to an `Outcome`: its result or the error it
throws, the store it leaves, and the batches it hands to `publish`. A
throw in JavaScript undoes nothing, hence the store of an `Outcome` is
there in both cases. Every effect on the store comes before the first
`publish`, so delivery to the watchers is modelled on top, in
`Etcd.Watch` and `Etcd.Nested`.

Two ghosts, which no function of the source reads: a record carries the
key string it was appended under (`RevisionEvent.key`; the event itself
has only the key's buffer), and an `Outcome` carries all the records the
request appended, also when it threw (`Outcome.records`).

Revisions, versions and counts are numbers here where the responses
spell them in decimal. Requested revisions, limits and comparison
operands come from the caller and are integers.
-/
import Webernetes.Etcd.Keys
import Mathlib.Data.Sum.Order
import Mathlib.Data.List.Lex

namespace Webernetes.Etcd

open Js

/-! ## Errors -/

inductive EtcdErrorCode where
  | errEmptyKey | errCompacted | errFutureRev | errInvalidRange
  | errInvalidArgument | errUnsupported | errClosed
  deriving DecidableEq

structure EtcdError where
  message : String
  code : EtcdErrorCode
  deriving DecidableEq

def emptyKeyError : EtcdError := ⟨"etcdserver: key is not provided", .errEmptyKey⟩

def futureRevError : EtcdError :=
  ⟨"etcdserver: mvcc: required revision is a future revision", .errFutureRev⟩

def compactedError : EtcdError :=
  ⟨"etcdserver: mvcc: required revision has been compacted", .errCompacted⟩

def keyNotFoundError : EtcdError := ⟨"etcdserver: key not found", .errInvalidArgument⟩

def duplicateKeyError : EtcdError :=
  ⟨"etcdserver: duplicate key given in txn request", .errInvalidArgument⟩

def nestedTxnError : EtcdError :=
  ⟨"nested transactions are not implemented in the fake etcd", .errUnsupported⟩

/-! ## Stored and public values -/

structure StoredValue where
  key : JsString
  value : Buffer
  createRevision : Nat
  modRevision : Nat
  version : Nat
  deriving DecidableEq

structure StoredRevision where
  key : JsString
  value : Option Buffer
  createRevision : Nat
  modRevision : Nat
  version : Nat
  deleted : Bool
  historyRevision : Nat
  deriving DecidableEq

structure KeyValue where
  key : Buffer
  value : Buffer
  createRevision : Nat
  modRevision : Nat
  version : Nat
  deriving DecidableEq

structure ResponseHeader where
  revision : Nat
  deriving DecidableEq

inductive WatchEventType where
  | put | delete
  deriving DecidableEq

structure WatchEvent where
  type : WatchEventType
  kv : KeyValue
  prevKv : Option KeyValue
  deriving DecidableEq

/-- A record of the event history; `key` is the ghost described above. -/
structure RevisionEvent where
  revision : Nat
  event : WatchEvent
  key : JsString
  deriving DecidableEq

def toPublicKv (value : StoredValue) (ns : JsString) (keysOnly : Bool) : KeyValue where
  key := Buffer.fromString (if ns.isPrefixOf value.key then value.key.drop ns.length else value.key)
  value := if keysOnly then [] else value.value
  createRevision := value.createRevision
  modRevision := value.modRevision
  version := value.version

/-- A retained revision as the value it stored. -/
def StoredRevision.stored (r : StoredRevision) : StoredValue where
  key := r.key
  value := r.value.getD []
  createRevision := r.createRevision
  modRevision := r.modRevision
  version := r.version

def currentValue (revisions : List StoredRevision) : Option StoredValue :=
  match revisions.getLast? with
  | none => none
  | some last => if last.deleted then none else some last.stored

/-- The loop of `findRevisionAtOrBefore`. -/
def findRevisionLoop (revisions : List StoredRevision) (revision : Nat) :
    Nat → Int → Int → Option StoredRevision → Option StoredRevision
  | 0, _, _, result => result
  | fuel + 1, low, high, result =>
    if low ≤ high then
      match revisions[((low + high) / 2).toNat]? with
      | none => result
      | some candidate =>
        if candidate.modRevision ≤ revision then
          findRevisionLoop revisions revision fuel ((low + high) / 2 + 1) high (some candidate)
        else findRevisionLoop revisions revision fuel low ((low + high) / 2 - 1) result
    else result

def findRevisionAtOrBefore (revisions : List StoredRevision) (revision : Nat) :
    Option StoredRevision :=
  findRevisionLoop revisions revision revisions.length 0 ((revisions.length : Int) - 1) none

def resolveStoredValueAt (revisions : List StoredRevision) (revision : Nat) :
    Option StoredValue :=
  match findRevisionAtOrBefore revisions revision with
  | none => none
  | some resolved => if resolved.deleted then none else some resolved.stored

/-! ## Requests and responses -/

inductive SortTarget where
  | key | version | create | mod | value
  deriving DecidableEq

inductive SortOrder where
  | none | ascend | descend
  deriving DecidableEq

structure RangeOptions where
  key : JsString
  rangeEnd : JsString
  limit : Int := 0
  revision : Option Int := none
  sortTarget : SortTarget := .key
  sortOrder : SortOrder := .none
  keysOnly : Bool := false
  countOnly : Bool := false
  minModRevision : Option Int := none
  maxModRevision : Option Int := none
  minCreateRevision : Option Int := none
  maxCreateRevision : Option Int := none
  deriving DecidableEq

structure DeleteOptions where
  key : JsString
  rangeEnd : JsString
  prevKv : Bool := false
  deriving DecidableEq

structure PutOptions where
  key : JsString
  value : Option Buffer := none
  prevKv : Bool := false
  ignoreValue : Bool := false
  deriving DecidableEq

inductive CompareResult where
  | equal | greater | less | notEqual
  deriving DecidableEq

inductive CompareTarget where
  | version | create | mod | value | lease
  deriving DecidableEq

structure Compare where
  result : Option CompareResult := none
  target : Option CompareTarget := none
  key : Option Buffer := none
  version : Option Int := none
  createRevision : Option Int := none
  modRevision : Option Int := none
  value : Option Buffer := none
  lease : Option Int := none
  deriving DecidableEq

/-- An operation of a transaction. Of a nested transaction only its
presence is read. -/
structure RequestOp where
  requestRange : Option RangeOptions := none
  requestPut : Option PutOptions := none
  requestDeleteRange : Option DeleteOptions := none
  requestTxn : Bool := false
  deriving DecidableEq

structure TxnRequest where
  compare : List Compare := []
  success : List RequestOp := []
  failure : List RequestOp := []
  deriving DecidableEq

structure RangeResponse where
  header : ResponseHeader
  kvs : List KeyValue
  count : Nat
  more : Bool
  deriving DecidableEq

structure PutResponse where
  header : ResponseHeader
  prevKv : Option KeyValue
  deriving DecidableEq

structure DeleteResponse where
  header : ResponseHeader
  deleted : Nat
  prevKvs : List KeyValue
  deriving DecidableEq

inductive ResponseOp where
  | range (response : RangeResponse)
  | put (response : PutResponse)
  | deleteRange (response : DeleteResponse)
  deriving DecidableEq

structure TxnResponse where
  header : ResponseHeader
  succeeded : Bool
  responses : List ResponseOp
  deriving DecidableEq

/-! ## Options under a namespace -/

def namespacedRangeOptions (ns : JsString) (options : RangeOptions) : RangeOptions :=
  { options with
    key := namespacedKey ns options.key
    rangeEnd := namespacedRangeEnd ns options.rangeEnd }

def namespacedPutOptions (ns : JsString) (options : PutOptions) : PutOptions :=
  { options with key := namespacedKey ns options.key }

def namespacedDeleteOptions (ns : JsString) (options : DeleteOptions) : DeleteOptions :=
  { options with
    key := namespacedKey ns options.key
    rangeEnd := namespacedRangeEnd ns options.rangeEnd }

/-! ## Sorting a range -/

/-- `SortKey`. The primary is a string or a number; one sort never mixes
the two. -/
structure SortKey where
  primary : JsString ⊕ₗ Nat
  key : JsString

def makeSortKey (value : StoredValue) : SortTarget → SortKey
  | .create => ⟨Sum.inrₗ value.createRevision, value.key⟩
  | .mod => ⟨Sum.inrₗ value.modRevision, value.key⟩
  | .version => ⟨Sum.inrₗ value.version, value.key⟩
  | .value => ⟨Sum.inlₗ (Buffer.toLatin1 value.value), value.key⟩
  | .key => ⟨Sum.inlₗ value.key, value.key⟩

/-- `compareSortKeys`: the primary in the order asked for, ties by key,
ascending in any case. -/
def compareSortKeys (locale : Locale) (order : SortOrder) (left right : SortKey) : Ordering :=
  (match order with
    | .descend => compare right.primary left.primary
    | _ => compare left.primary right.primary).then
    (locale.localeCompare left.key right.key)

theorem transCmp_comap {α β : Type} (f : α → β) (cmp : β → β → Ordering) [Std.TransCmp cmp] :
    Std.TransCmp fun a b => cmp (f a) (f b) where
  eq_swap := Std.OrientedCmp.eq_swap
  isLE_trans := Std.TransCmp.isLE_trans

instance (locale : Locale) (order : SortOrder) : Std.TransCmp (compareSortKeys locale order) := by
  have hkey : Std.TransCmp fun l r : SortKey => locale.localeCompare l.key r.key :=
    transCmp_comap SortKey.key locale.localeCompare
  have hup : Std.TransCmp fun l r : SortKey => compare l.primary r.primary :=
    transCmp_comap SortKey.primary compare
  have hdown : Std.TransCmp fun l r : SortKey => compare r.primary l.primary :=
    Std.TransCmp.opposite
  cases order with
  | none => exact inferInstanceAs (Std.TransCmp (compareLex _ _))
  | ascend => exact inferInstanceAs (Std.TransCmp (compareLex _ _))
  | descend => exact inferInstanceAs (Std.TransCmp (compareLex _ _))

def passesRangeFilters (value : StoredValue) (options : RangeOptions) : Bool :=
  (options.minModRevision.all fun (r : Int) => decide (r ≤ value.modRevision))
    && (options.maxModRevision.all fun (r : Int) => decide ((value.modRevision : Int) ≤ r))
    && (options.minCreateRevision.all fun (r : Int) => decide (r ≤ value.createRevision))
    && (options.maxCreateRevision.all fun (r : Int) => decide ((value.createRevision : Int) ≤ r))

/-- `iterateRange`: the entries from the start on, up to the first key
out of range. -/
def iterateRange {V : Type} {locale : Locale} (values : SortedMap locale.localeCompare V)
    (start rangeEnd : JsString) : List (JsString × V) :=
  (values.entriesFrom start).takeWhile fun entry => isKeyInRange entry.1 start rangeEnd

/-! ## What a write stores and reports -/

/-- The value a put stores over `existing`. -/
def putValue (existing : Option StoredValue) (options : PutOptions) (key : JsString)
    (revision : Nat) : StoredValue where
  key := key
  value := match options.ignoreValue, existing with
    | true, some old => old.value
    | _, _ => options.value.getD []
  createRevision := existing.elim revision (·.createRevision)
  modRevision := revision
  version := existing.elim 0 (·.version) + 1

/-- A stored value as a revision of its key's history. -/
def StoredValue.revisionOf (v : StoredValue) : StoredRevision where
  key := v.key
  value := some v.value
  createRevision := v.createRevision
  modRevision := v.modRevision
  version := v.version
  deleted := false
  historyRevision := v.modRevision

def putRecord (existing : Option StoredValue) (next : StoredValue) : RevisionEvent where
  revision := next.modRevision
  event :=
    { type := .put
      kv := toPublicKv next [] false
      prevKv := existing.map fun old => toPublicKv old [] false }
  key := next.key

/-- The revision a delete appends to the history of a value's key. -/
def tombstone (value : StoredValue) (revision : Nat) : StoredRevision where
  key := value.key
  value := none
  createRevision := value.createRevision
  modRevision := revision
  version := value.version
  deleted := true
  historyRevision := revision

def deleteRecord (value : StoredValue) (revision : Nat) : RevisionEvent where
  revision := revision
  event :=
    { type := .delete
      kv := { toPublicKv value [] false with modRevision := revision }
      prevKv := some (toPublicKv value [] false) }
  key := value.key

/-! ## The store -/

/-- The fields of `FakeState` behind the requests. The constructor of
`Etcd` makes `retainedRevisions` at least one. -/
structure FakeState (locale : Locale) where
  revision : Nat
  compactedRevision : Nat
  histories : SortedMap locale.localeCompare (List StoredRevision)
  history : SortedMap (compare : Nat → Nat → Ordering) (List RevisionEvent)
  retainedRevisions : Nat
  retained_pos : 1 ≤ retainedRevisions

/-- What a request does: its result, the store it leaves, the records it
appended (ghost) and the batches it published, in order. -/
structure Outcome (locale : Locale) (ρ : Type) where
  result : Except EtcdError ρ
  state : FakeState locale
  records : List RevisionEvent
  published : List (List RevisionEvent)

/-- The response of a write together with its event records. -/
structure Applied (ρ : Type) where
  response : ρ
  records : List RevisionEvent

/-- `new Etcd(ctx, { retainedRevisions })`. -/
def FakeState.initial (locale : Locale) (retainedRevisions : Nat) : FakeState locale where
  revision := 0
  compactedRevision := 0
  histories := SortedMap.empty
  history := SortedMap.empty
  retainedRevisions := max 1 retainedRevisions
  retained_pos := Nat.le_max_left _ _

namespace FakeState

variable {locale : Locale}

def header (_s : FakeState locale) (revision : Nat) : ResponseHeader := ⟨revision⟩

def assertNonEmptyKey (key : JsString) : Except EtcdError Unit :=
  if key.length = 0 then .error emptyKeyError else .ok ()

def assertValidRange (key rangeEnd : JsString) : Except EtcdError Unit :=
  if key.length = 0 ∧ rangeEnd ≠ zeroKey then .error emptyKeyError else .ok ()

def resolveRevision (s : FakeState locale) (requested : Option Int) : Except EtcdError Nat :=
  match requested with
  | none => .ok s.revision
  | some r =>
    if r ≤ 0 then .ok s.revision
    else if (s.revision : Int) < r then .error futureRevError
    else .ok r.toNat

def compactedRevisionForRange (s : FakeState locale) (revision : Nat) : Option Nat :=
  if revision = 0 then none
  else if revision ≤ s.compactedRevision then some s.compactedRevision
  else none

def assertRangeRevisionAvailable (s : FakeState locale) (revision : Nat) :
    Except EtcdError Unit :=
  match s.compactedRevisionForRange revision with
  | some _ => .error compactedError
  | none => .ok ()

/-- The history kept under a key, empty when there is none. -/
def revisionsOf (s : FakeState locale) (key : JsString) : List StoredRevision :=
  (s.histories.get key).getD []

/-- The values of a range read, in the order of the response. -/
def rangeValues (s : FakeState locale) (ns : JsString) (options : RangeOptions)
    (revision : Nat) : List StoredValue :=
  let entries := iterateRange s.histories (namespacedKey ns options.key)
    (namespacedRangeEnd ns options.rangeEnd)
  let values := (entries.filterMap fun entry => resolveStoredValueAt entry.2 revision).filter
    fun value => passesRangeFilters value options
  let ordered := values.foldl
    (fun (m : SortedMap (compareSortKeys locale options.sortOrder) StoredValue) value =>
      m.set (makeSortKey value options.sortTarget) value)
    SortedMap.empty
  ordered.items.map Prod.snd

def rangeResponse (s : FakeState locale) (ns : JsString) (options : RangeOptions)
    (revision : Nat) : RangeResponse :=
  let values := s.rangeValues ns options revision
  let limited := if 0 < options.limit then values.take options.limit.toNat else values
  { header := s.header revision
    kvs := if options.countOnly then []
      else limited.map fun value => toPublicKv value ns options.keysOnly
    count := values.length
    more := decide (0 < options.limit ∧ options.limit < values.length) }

def range (s : FakeState locale) (ns : JsString) (options : RangeOptions) :
    Except EtcdError RangeResponse := do
  assertValidRange options.key options.rangeEnd
  let revision ← s.resolveRevision options.revision
  if options.revision.any (fun r => decide (0 < r)) then
    s.assertRangeRevisionAvailable revision
  return s.rangeResponse ns options revision

def bumpRevision (s : FakeState locale) : FakeState locale :=
  { s with revision := s.revision + 1 }

/-- The trimming loop of `appendRevision`: the history that is left and
the compaction watermark. -/
def trimRevisions (retained : Nat) : List StoredRevision → Nat → List StoredRevision × Nat
  | [], watermark => ([], watermark)
  | removed :: rest, watermark =>
    if retained < (removed :: rest).length then
      trimRevisions retained rest (max watermark removed.historyRevision)
    else (removed :: rest, watermark)

/-- `appendRevision`; the record it returns is the one appended. -/
def appendRevision (s : FakeState locale) (key : JsString) (revision : StoredRevision)
    (record : RevisionEvent) : FakeState locale :=
  let trimmed := trimRevisions s.retainedRevisions (s.revisionsOf key ++ [revision])
    s.compactedRevision
  { s with
    history := s.history.set revision.modRevision
      ((s.history.get revision.modRevision).getD [] ++ [record])
    histories := s.histories.set key trimmed.1
    compactedRevision := trimmed.2 }

def collectDeleted (s : FakeState locale) (ns : JsString) (options : DeleteOptions) :
    Except EtcdError (List StoredValue) := do
  assertValidRange options.key options.rangeEnd
  return (iterateRange s.histories (namespacedKey ns options.key)
    (namespacedRangeEnd ns options.rangeEnd)).filterMap fun entry => currentValue entry.2

def applyPutAtRevision (s : FakeState locale) (ns : JsString) (options : PutOptions)
    (revision : Nat) : Except EtcdError (Applied PutResponse × FakeState locale) :=
  match assertNonEmptyKey options.key with
  | .error e => .error e
  | .ok () =>
    let key := namespacedKey ns options.key
    let existing := currentValue (s.revisionsOf key)
    if options.ignoreValue = true ∧ existing = none then .error keyNotFoundError
    else
      let nextValue := putValue existing options key revision
      let record := putRecord existing nextValue
      let response : PutResponse :=
        { header := s.header revision
          prevKv := if options.prevKv then existing.map fun old => toPublicKv old ns false
            else none }
      .ok ({ response, records := [record] }, s.appendRevision key nextValue.revisionOf record)

def applyDeleteAtRevision (s : FakeState locale) (ns : JsString) (options : DeleteOptions)
    (revision : Nat) (deleted : List StoredValue) :
    Applied DeleteResponse × FakeState locale :=
  ({ response :=
      { header := s.header revision
        deleted := deleted.length
        prevKvs := if options.prevKv then deleted.map fun value => toPublicKv value ns false
          else [] }
     records := deleted.map fun value => deleteRecord value revision },
   deleted.foldl (fun s value => s.appendRevision value.key (tombstone value revision)
      (deleteRecord value revision)) s)

/-! ## Requests on the store -/

def put (s : FakeState locale) (ns : JsString) (options : PutOptions) :
    Outcome locale PutResponse :=
  let bumped := s.bumpRevision
  match bumped.applyPutAtRevision ns options bumped.revision with
  | .error e => { result := .error e, state := bumped, records := [], published := [] }
  | .ok (applied, next) =>
    { result := .ok applied.response
      state := next
      records := applied.records
      published := [applied.records] }

def delete (s : FakeState locale) (ns : JsString) (options : DeleteOptions) :
    Outcome locale DeleteResponse :=
  match s.collectDeleted ns options with
  | .error e => { result := .error e, state := s, records := [], published := [] }
  | .ok deleted =>
    if deleted.length = 0 then
      { result := .ok { header := s.header s.revision, deleted := 0, prevKvs := [] }
        state := s
        records := []
        published := [] }
    else
      let bumped := s.bumpRevision
      let (applied, next) := bumped.applyDeleteAtRevision ns options bumped.revision deleted
      { result := .ok applied.response
        state := next
        records := applied.records
        published := [applied.records] }

/-- Whether a comparison of two operands comes out as asked. -/
def compareHolds {α : Type} [LinearOrder α] (result : Option CompareResult) (left right : α) :
    Bool :=
  match result with
  | some .greater => decide (right < left)
  | some .less => decide (left < right)
  | some .notEqual => decide (left ≠ right)
  | _ => decide (left = right)

def evaluateCompare (s : FakeState locale) (clause : Compare) : Bool :=
  let key := (clause.key.map Buffer.toString).getD []
  let current := currentValue (s.revisionsOf key)
  match clause.target with
  | some .value =>
    compareHolds clause.result ((current.map fun v => Buffer.toLatin1 v.value).getD [])
      ((clause.value.map Buffer.toLatin1).getD [])
  | some .create =>
    compareHolds clause.result (current.elim 0 fun v => (v.createRevision : Int))
      (clause.createRevision.getD 0)
  | some .mod =>
    compareHolds clause.result (current.elim 0 fun v => (v.modRevision : Int))
      (clause.modRevision.getD 0)
  | some .lease => compareHolds clause.result 0 (clause.lease.getD 0)
  | _ =>
    compareHolds clause.result (current.elim 0 fun v => (v.version : Int))
      (clause.version.getD 0)

/-- The keys an operation writes, as the overlap check sees them. -/
def writeRange (op : RequestOp) : Option KeyRange :=
  match op.requestPut, op.requestDeleteRange with
  | some put, _ => some { start := put.key, rangeEnd := [] }
  | none, some del => some { start := del.key, rangeEnd := del.rangeEnd }
  | none, none => none

/-- The loop of `assertTxnWriteRangesValid`, with the ranges seen so far. -/
def assertWriteRangesLoop : List RequestOp → List KeyRange → Except EtcdError Unit
  | [], _ => .ok ()
  | op :: rest, ranges =>
    match writeRange op with
    | none => assertWriteRangesLoop rest ranges
    | some range =>
      if ranges.any fun existing => rangesOverlap existing range then .error duplicateKeyError
      else assertWriteRangesLoop rest (ranges ++ [range])

def assertTxnWriteRangesValid (operations : List RequestOp) : Except EtcdError Unit :=
  assertWriteRangesLoop operations []

/-- Whether the operation counts as a write when the revision is taken. -/
def isWrite (op : RequestOp) : Bool :=
  op.requestPut.isSome || op.requestDeleteRange.isSome

/-- One pass of the loop over the operations of a transaction: the
responses and records it pushes and the store it leaves. -/
def applyOp (s : FakeState locale) (revision : Nat) (op : RequestOp) :
    Except EtcdError (List ResponseOp × List RevisionEvent × FakeState locale) :=
  match op.requestRange, op.requestPut, op.requestDeleteRange, op.requestTxn with
  | some o, _, _, _ => do
    let response ← s.range [] o
    return ([.range response], [], s)
  | none, some o, _, _ => do
    let (applied, next) ← s.applyPutAtRevision [] o revision
    return ([.put applied.response], applied.records, next)
  | none, none, some o, _ => do
    let deleted ← s.collectDeleted [] o
    if deleted.length = 0 then
      return ([.deleteRange { header := s.header revision, deleted := 0, prevKvs := [] }], [], s)
    else
      let (applied, next) := s.applyDeleteAtRevision [] o revision deleted
      return ([.deleteRange applied.response], applied.records, next)
  | none, none, none, true => .error nestedTxnError
  | none, none, none, false => .ok ([], [], s)

/-- The loop over the operations of a transaction. On a throw the store
and the records are those of the operations before it. -/
def txnLoop (revision : Nat) : List RequestOp → FakeState locale → List ResponseOp →
    List RevisionEvent →
    Except EtcdError (List ResponseOp) × List RevisionEvent × FakeState locale
  | [], s, responses, records => (.ok responses, records, s)
  | op :: rest, s, responses, records =>
    match s.applyOp revision op with
    | .error e => (.error e, records, s)
    | .ok (response, appended, next) =>
      txnLoop revision rest next (responses ++ response) (records ++ appended)

/-- The branch of a transaction its comparisons choose. -/
def chosenOperations (s : FakeState locale) (request : TxnRequest) : List RequestOp :=
  if request.compare.all s.evaluateCompare then request.success else request.failure

/-- The store the operations of a transaction start from. -/
def txnStart (s : FakeState locale) (operations : List RequestOp) : FakeState locale :=
  if operations.any isWrite then s.bumpRevision else s

def txn (s : FakeState locale) (request : TxnRequest) : Outcome locale TxnResponse :=
  let succeeded := request.compare.all s.evaluateCompare
  let operations := s.chosenOperations request
  match assertTxnWriteRangesValid operations with
  | .error e => { result := .error e, state := s, records := [], published := [] }
  | .ok () =>
    let start := s.txnStart operations
    match txnLoop start.revision operations start [] [] with
    | (.error e, records, next) =>
      { result := .error e, state := next, records := records, published := [] }
    | (.ok responses, records, next) =>
      { result := .ok { header := next.header start.revision, succeeded, responses }
        state := next
        records := records
        published := if 0 < records.length then [records] else [] }

/-- The loop of `compact`. It walks the live entry array by index while
it deletes from it. -/
def compactLoop (revision : Nat) : Nat → Nat →
    SortedMap (compare : Nat → Nat → Ordering) (List RevisionEvent) →
    SortedMap (compare : Nat → Nat → Ordering) (List RevisionEvent)
  | 0, _, history => history
  | fuel + 1, index, history =>
    match history.items[index]? with
    | none => history
    | some (historyRevision, _) =>
      if revision < historyRevision then history
      else compactLoop revision fuel (index + 1) (history.delete historyRevision)

def compact (s : FakeState locale) (requestedRevision : Int) : Outcome locale Unit :=
  match s.resolveRevision (some requestedRevision) with
  | .error e => { result := .error e, state := s, records := [], published := [] }
  | .ok revision =>
    if revision = 0 then { result := .ok (), state := s, records := [], published := [] }
    else
      { result := .ok ()
        state := { s with
          compactedRevision := max s.compactedRevision revision
          history := compactLoop revision (s.history.items.length + 1) 0 s.history }
        records := []
        published := [] }

end FakeState

end Webernetes.Etcd
