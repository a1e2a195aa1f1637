/-
Webernetes.Etcd.Lease — the leases behind the locks of `cluster/etcd.ts`.

A lock is a key with an empty value. `acquireLock` creates the key in a
transaction that compares its create revision with 0 and enters a lease
into the lease table, with a timeout that revokes it and an interval that
puts the timeout off. `revokeLease` runs for a release and for an expiry
alike and deletes the key, `releaseLeasePassively` stops the interval
only.

The clock keeps its pending tasks. When a task is due is left open: any
pending task may run at any time, so an expiry can come at any point and
so can a keep-alive. The delays are therefore no part of the model.

`acquireLock_cases`, `revokeLease_of_lookup` and `refreshLease_of_lookup`
say what an operation does; the invariants are in `Etcd.LeaseTable`.
-/
import Webernetes.Etcd.Cell
import Mathlib.Data.List.AList
import Mathlib.Data.Rat.Floor

namespace Webernetes.Etcd

open Js Base
open FakeState (recordRevision)

variable {locale : Locale}

/-! ## Timers -/

inductive TimerCallback where
  | revokeLease (id : Nat)
  | refreshLease (id : Nat)
  deriving DecidableEq

/-- The lease a callback is for. -/
def TimerCallback.lease : TimerCallback → Nat
  | .revokeLease id => id
  | .refreshLease id => id

/-- A pending task of the clock; an interval stays pending after it runs. -/
structure Task where
  callback : TimerCallback
  interval : Bool
  deriving DecidableEq

structure Clock where
  nextHandle : Nat
  tasks : AList fun _ : Nat => Task

namespace Clock

def initial : Clock where
  nextHandle := 1
  tasks := ∅

def setTask (clock : Clock) (task : Task) : Clock where
  nextHandle := clock.nextHandle + 1
  tasks := clock.tasks.insert clock.nextHandle task

/-- `setTimeout`; the handle is the clock's next one. -/
def setTimeout (clock : Clock) (callback : TimerCallback) : Clock :=
  clock.setTask { callback, interval := false }

def setInterval (clock : Clock) (callback : TimerCallback) : Clock :=
  clock.setTask { callback, interval := true }

/-- `clearTimeout`, and `clearInterval`, which calls it. -/
def clearTimeout (clock : Clock) (handle : Nat) : Clock :=
  { clock with tasks := clock.tasks.erase handle }

@[simp] theorem setTask_nextHandle (clock : Clock) (task : Task) :
    (clock.setTask task).nextHandle = clock.nextHandle + 1 := rfl

@[simp] theorem clearTimeout_nextHandle (clock : Clock) (handle : Nat) :
    (clock.clearTimeout handle).nextHandle = clock.nextHandle := rfl

theorem lookup_setTask (clock : Clock) (task : Task) (handle : Nat) :
    (clock.setTask task).tasks.lookup handle
      = if handle = clock.nextHandle then some task else clock.tasks.lookup handle := by
  split
  · rename_i h
    rw [h]
    exact AList.lookup_insert _
  · rename_i h
    exact AList.lookup_insert_ne h

theorem lookup_clearTimeout (clock : Clock) (cleared handle : Nat) :
    (clock.clearTimeout cleared).tasks.lookup handle
      = if handle = cleared then none else clock.tasks.lookup handle := by
  split
  · rename_i h
    rw [h]
    exact AList.lookup_erase _ _
  · rename_i h
    exact AList.lookup_erase_ne h

end Clock

/-! ## The lease table -/

structure LeaseRecord where
  id : Nat
  key : JsString
  expireHandle : Nat
  keepAliveHandle : Nat
  deriving DecidableEq

/-- The handle under which a record keeps the task of a callback. -/
def LeaseRecord.handle (lease : LeaseRecord) : TimerCallback → Nat
  | .revokeLease _ => lease.expireHandle
  | .refreshLease _ => lease.keepAliveHandle

inductive LockError where
  /-- The TTL in an etcd lease must be at least 1 second. Got: … -/
  | ttlTooShort (seconds : ℚ)
  /-- Failed to acquire a lock on … -/
  | held (key : JsString)
  /-- Cannot set a lock TTL after acquiring the lock -/
  | ttlAfterAcquire
  /-- Attempted to release a lock which was not acquired -/
  | notAcquired
  | etcd (error : EtcdError)
  deriving DecidableEq

/-- The store with its lease table and the clock. -/
structure LeaseStore (locale : Locale) where
  store : FakeState locale
  nextLeaseId : Nat
  leases : AList fun _ : Nat => LeaseRecord
  clock : Clock

/-! The transaction of `acquireLock`. -/

def acquireCompare (absoluteKey : JsString) : Compare where
  key := some (Buffer.fromString absoluteKey)
  target := some .create
  result := some .equal
  createRevision := some 0

def acquirePut (absoluteKey : JsString) : PutOptions where
  key := absoluteKey
  value := some []
  prevKv := false
  ignoreValue := false

def acquireRequest (absoluteKey : JsString) : TxnRequest where
  compare := [acquireCompare absoluteKey]
  success := [{ requestPut := some (acquirePut absoluteKey) }]

namespace LeaseStore

def initial (locale : Locale) (retainedRevisions : Nat) : LeaseStore locale where
  store := FakeState.initial locale retainedRevisions
  nextLeaseId := 1
  leases := ∅
  clock := Clock.initial

/-- The record of `new FakeLease`, with the handles its two timers get. -/
def newRecord (l : LeaseStore locale) (id : Nat) (key : JsString) : LeaseRecord where
  id := id
  key := key
  expireHandle := l.clock.nextHandle
  keepAliveHandle := l.clock.nextHandle + 1

/-- `new FakeLease` and its entry in the table. -/
def addLease (l : LeaseStore locale) (id : Nat) (key : JsString) : LeaseStore locale :=
  { l with
    leases := l.leases.insert id (l.newRecord id key)
    clock := (l.clock.setTimeout (.revokeLease id)).setInterval (.refreshLease id) }

def acquireLock (l : LeaseStore locale) (ns key : JsString) (ttlSeconds : ℚ) :
    Except LockError Nat × LeaseStore locale :=
  if ttlSeconds < 1 then (.error (.ttlTooShort ttlSeconds), l)
  else
    let absoluteKey := namespacedKey ns key
    let leaseId := l.nextLeaseId
    let result := l.store.txn (acquireRequest absoluteKey)
    let l := { l with store := result.state, nextLeaseId := leaseId + 1 }
    match result.result with
    | .error e => (.error (.etcd e), l)
    | .ok response =>
      if response.succeeded then (.ok leaseId, l.addLease leaseId absoluteKey)
      else (.error (.held key), l)

def revokeLease (l : LeaseStore locale) (id : Nat) : LeaseStore locale :=
  match l.leases.lookup id with
  | none => l
  | some lease =>
    { l with
      clock := (l.clock.clearTimeout lease.expireHandle).clearTimeout lease.keepAliveHandle
      leases := l.leases.erase id
      store := if (l.store.current lease.key).isSome then
          (l.store.delete [] { key := lease.key, rangeEnd := [], prevKv := false }).state
        else l.store }

def releaseLeasePassively (l : LeaseStore locale) (id : Nat) : LeaseStore locale :=
  match l.leases.lookup id with
  | none => l
  | some lease => { l with clock := l.clock.clearTimeout lease.keepAliveHandle }

def refreshLease (l : LeaseStore locale) (id : Nat) : LeaseStore locale :=
  match l.leases.lookup id with
  | none => l
  | some lease =>
    { l with
      leases := l.leases.insert id { lease with expireHandle := l.clock.nextHandle }
      clock := (l.clock.clearTimeout lease.expireHandle).setTimeout (.revokeLease id) }

def runCallback (l : LeaseStore locale) : TimerCallback → LeaseStore locale
  | .revokeLease id => l.revokeLease id
  | .refreshLease id => l.refreshLease id

/-- A pending task runs; a timeout is dropped afterwards. -/
def fire (l : LeaseStore locale) (handle : Nat) : LeaseStore locale :=
  match l.clock.tasks.lookup handle with
  | none => l
  | some task =>
    let l := l.runCallback task.callback
    if task.interval then l else { l with clock := l.clock.clearTimeout handle }

/-- Any other request on the store. -/
def request (l : LeaseStore locale) : StoreRequest → LeaseStore locale
  | .write request => { l with store := (l.store.execWrite request).state }
  | .compact revision => { l with store := (l.store.compact revision).state }

/-! ## What an operation can do -/

/-- The record of a lock key's creation. -/
def createdRecord (s : FakeState locale) (key : JsString) : RevisionEvent :=
  putRecord (s.current key) (putValue (s.current key) (acquirePut key) key (s.revision + 1))

/-- An acquire either fails and leaves at most a revision taken, or its
comparison holds and it creates the key and a lease. -/
theorem acquireLock_cases (l : LeaseStore locale) (ns key : JsString) (ttlSeconds : ℚ) :
    (∃ e store nextLeaseId, l.acquireLock ns key ttlSeconds
        = (.error e, { l with store, nextLeaseId })
      ∧ l.nextLeaseId ≤ nextLeaseId ∧ (store = l.store ∨ store = l.store.bumpRevision)
      ∧ (ttlSeconds < 1 ∨ namespacedKey ns key = []
        ∨ l.store.evaluateCompare (acquireCompare (namespacedKey ns key)) = false)) ∨
    (l.store.evaluateCompare (acquireCompare (namespacedKey ns key)) = true
      ∧ namespacedKey ns key ≠ []
      ∧ l.acquireLock ns key ttlSeconds = (.ok l.nextLeaseId,
          LeaseStore.addLease { l with
              store := l.store.bumpRevision.appendRecord
                (createdRecord l.store (namespacedKey ns key))
              nextLeaseId := l.nextLeaseId + 1 }
            l.nextLeaseId (namespacedKey ns key))) := by
  unfold acquireLock
  by_cases hshort : ttlSeconds < 1
  · exact .inl ⟨_, l.store, l.nextLeaseId, if_pos hshort, Nat.le_refl _, .inl rfl, .inl hshort⟩
  · rw [if_neg hshort]
    dsimp only [acquireRequest]
    generalize namespacedKey ns key = absoluteKey
    cases hcompare : l.store.evaluateCompare (acquireCompare absoluteKey) with
    | false =>
      rw [l.store.txn_refused hcompare]
      exact .inl ⟨_, l.store, l.nextLeaseId + 1, rfl, Nat.le_succ _, .inl rfl, .inr (.inr rfl)⟩
    | true =>
      by_cases hkey : absoluteKey = []
      · have hinvalid : ¬ l.store.PutValid [] (acquirePut absoluteKey) := fun hvalid => hvalid.1 hkey
        obtain ⟨e, htxn⟩ := l.store.txn_put_of_not_valid hcompare hinvalid
        rw [htxn]
        exact .inl ⟨_, l.store.bumpRevision, l.nextLeaseId + 1, rfl, Nat.le_succ _, .inr rfl,
          .inr (.inl hkey)⟩
      · have hvalid : l.store.PutValid [] (acquirePut absoluteKey) := ⟨hkey, fun h => by cases h⟩
        obtain ⟨responses, htxn⟩ := l.store.txn_put hcompare hvalid
        rw [htxn]
        exact .inr ⟨rfl, hkey, rfl⟩

/-- A revocation of a lease in the table deletes what is live under its
key. -/
theorem delete_key {s : FakeState locale} (h : s.WellKept) {key : JsString} (hkey : key ≠ []) :
    (s.delete [] { key, rangeEnd := [], prevKv := false }).state.WellKept ∧
    ∀ other, (s.delete [] { key, rangeEnd := [], prevKv := false }).state.current other
      = if (s.live key).isSome ∧ locale.Same key other then none else s.current other := by
  have hkept := h.execWrite (.delete [] { key, rangeEnd := [], prevKv := false })
  refine ⟨hkept, fun other => ?_⟩
  rw [FakeState.delete_of_valid s [] _ (.inl hkey), h.matched_single [] rfl, namespacedKey_nil]
  cases hlive : s.live key with
  | none => simp
  | some value =>
    obtain ⟨-, hvalue⟩ := FakeState.WellKept.live_eq_some_iff.mp hlive
    simp only [Option.toList_some, List.map_singleton, List.cons_ne_nil, if_false,
      FakeState.appendRecords_cons, FakeState.appendRecords_nil, FakeState.current_appendRecord,
      FakeState.deleteRecord_key, hvalue, FakeState.current_bumpRevision, Option.isSome_some,
      true_and]
    rfl

theorem revokeLease_of_lookup {l : LeaseStore locale} {id : Nat} {lease : LeaseRecord}
    (h : l.leases.lookup id = some lease) :
    l.revokeLease id =
      { l with
        clock := (l.clock.clearTimeout lease.expireHandle).clearTimeout lease.keepAliveHandle
        leases := l.leases.erase id
        store := if (l.store.current lease.key).isSome then
            (l.store.delete [] { key := lease.key, rangeEnd := [], prevKv := false }).state
          else l.store } := by
  simp only [revokeLease, h]

theorem revokeLease_of_not_lookup {l : LeaseStore locale} {id : Nat}
    (h : l.leases.lookup id = none) : l.revokeLease id = l := by
  simp only [revokeLease, h]

theorem refreshLease_of_lookup {l : LeaseStore locale} {id : Nat} {lease : LeaseRecord}
    (h : l.leases.lookup id = some lease) :
    l.refreshLease id =
      { l with
        leases := l.leases.insert id { lease with expireHandle := l.clock.nextHandle }
        clock := (l.clock.clearTimeout lease.expireHandle).setTimeout (.revokeLease id) } := by
  simp only [refreshLease, h]

theorem lookup_insert (leases : AList fun _ : Nat => LeaseRecord) (id : Nat)
    (lease : LeaseRecord) (other : Nat) :
    (leases.insert id lease).lookup other
      = if other = id then some lease else leases.lookup other := by
  split
  · rename_i h
    rw [h]
    exact AList.lookup_insert _
  · rename_i h
    exact AList.lookup_insert_ne h

theorem lookup_erase (leases : AList fun _ : Nat => LeaseRecord) (id other : Nat) :
    (leases.erase id).lookup other = if other = id then none else leases.lookup other := by
  split
  · rename_i h
    rw [h]
    exact AList.lookup_erase _ _
  · rename_i h
    exact AList.lookup_erase_ne h

end LeaseStore

end Webernetes.Etcd
