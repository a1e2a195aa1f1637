/-
Webernetes.Etcd.WithLock — `Lock`, `Etcd.withLock`, and locks over whole
runs.

A call of `withLock` is followed from one await to the next: `Phase` says
what it awaits and `Call.resume` runs it to its next await. What it finds
when it goes on is a `Signal`, and any signal may come at any time: the
state of its context, the clock, which case of the `select` is taken,
and whether its callback threw. Awaits of calls that have nothing left
to do are no phases.

`Locks` is the store with its leases and all calls. A step is any
operation on any lock object, any pending timer, any other request, or
one call going on. `locks_exclusive` is the result: in every run the lock
key is there exactly while its one lease is, callbacks whose leases are
kept alive do not overlap, and the key is free after a callback.
-/
import Webernetes.Etcd.LeaseTable

namespace Webernetes.Etcd

open Js Base

variable {locale : Locale}

/-! ## Lock objects -/

structure Lock where
  ns : JsString
  key : JsString
  leaseTTL : ℚ := 30
  lease : Option Nat := none
  deriving DecidableEq

namespace Lock

def ttl (lock : Lock) (seconds : ℚ) : Except LockError Lock :=
  if lock.lease.isSome then .error .ttlAfterAcquire else .ok { lock with leaseTTL := seconds }

def acquire (lock : Lock) (l : LeaseStore locale) : Except LockError Lock × LeaseStore locale :=
  match l.acquireLock lock.ns lock.key lock.leaseTTL with
  | (.error e, l) => (.error e, l)
  | (.ok id, l) => (.ok { lock with lease := some id }, l)

def release (lock : Lock) (l : LeaseStore locale) : Except LockError Lock × LeaseStore locale :=
  match lock.lease with
  | none => (.error .notAcquired, l)
  | some id => (.ok { lock with lease := none }, l.revokeLease id)

end Lock

def isLockAcquireFailure : LockError → Bool
  | .held _ => true
  | _ => false

/-! ## Calls of `withLock` -/

inductive CallError where
  | context
  | timedOut (key : JsString)
  | lock (error : LockError)
  | callback
  deriving DecidableEq

/-- The case a `select` takes. -/
inductive Selected where
  | done | deleted | after
  deriving DecidableEq

/-- What a call finds when it goes on. -/
structure Signal where
  ctxErr : Bool := false
  nowMs : ℚ := 0
  selected : Selected := .deleted
  threw : Bool := false
  deriving DecidableEq

/-- What a call awaits. -/
inductive Phase where
  | acquiring (outcome : Except LockError (Option Lock))
  | creatingWatcher
  | reacquiring (outcome : Except LockError (Option Lock))
  | selecting
  | cancellingWatcher (outcome : Except CallError (Option Lock))
  | running (lock : Lock)
  | ended (lock : Lock) (threw : Bool)
  | settled (result : Except CallError Unit)
  deriving DecidableEq

/-- The lock a call has in hand. -/
def Phase.lock : Phase → Option Lock
  | .acquiring (.ok lock) => lock
  | .reacquiring (.ok lock) => lock
  | .cancellingWatcher (.ok lock) => lock
  | .running lock => some lock
  | .ended lock _ => some lock
  | _ => none

structure Call where
  key : JsString
  ttlSeconds : ℚ
  deadline : ℚ
  phase : Phase
  deriving DecidableEq

def tryAcquireLock (l : LeaseStore locale) (key : JsString) (ttlSeconds : ℚ) :
    Except LockError (Option Lock) × LeaseStore locale :=
  match ({ ns := [], key } : Lock).ttl ttlSeconds with
  | .error e => (.error e, l)
  | .ok lock =>
    match lock.acquire l with
    | (.ok lock, l) => (.ok (some lock), l)
    | (.error e, l) => if isLockAcquireFailure e then (.ok none, l) else (.error e, l)

namespace Call

/-- A round of the loop, up to the await of `tryAcquireLock`. -/
def iterate (c : Call) (l : LeaseStore locale) (signal : Signal) : Call × LeaseStore locale :=
  if signal.ctxErr then ({ c with phase := .settled (.error .context) }, l)
  else
    let result := tryAcquireLock l c.key c.ttlSeconds
    ({ c with phase := .acquiring result.1 }, result.2)

/-- A call before its first round; the default of `timeoutMs` is 5000.
The phase is of no account. -/
def entered (key : JsString) (timeoutMs : Option ℚ) (nowMs : ℚ) : Call where
  key := key
  ttlSeconds := max 1 ⌈timeoutMs.getD 5000 / 1000⌉
  deadline := nowMs + timeoutMs.getD 5000
  phase := .creatingWatcher

/-- `withLock` up to its first await. -/
def start (l : LeaseStore locale) (key : JsString) (timeoutMs : Option ℚ) (signal : Signal) :
    Call × LeaseStore locale :=
  (entered key timeoutMs signal.nowMs).iterate l signal

/-- A call goes on to its next await. -/
def resume (c : Call) (l : LeaseStore locale) (signal : Signal) : Call × LeaseStore locale :=
  match c.phase with
  | .acquiring (.error e) => ({ c with phase := .settled (.error (.lock e)) }, l)
  | .acquiring (.ok (some lock)) => ({ c with phase := .running lock }, l)
  | .acquiring (.ok none) =>
    if c.deadline - signal.nowMs ≤ 0 then
      ({ c with phase := .settled (.error (.timedOut c.key)) }, l)
    else ({ c with phase := .creatingWatcher }, l)
  | .creatingWatcher =>
    let result := tryAcquireLock l c.key c.ttlSeconds
    ({ c with phase := .reacquiring result.1 }, result.2)
  | .reacquiring (.error e) => ({ c with phase := .cancellingWatcher (.error (.lock e)) }, l)
  | .reacquiring (.ok (some lock)) => ({ c with phase := .cancellingWatcher (.ok (some lock)) }, l)
  | .reacquiring (.ok none) => ({ c with phase := .selecting }, l)
  | .selecting =>
    match signal.selected with
    | .done => ({ c with phase := .cancellingWatcher (.error .context) }, l)
    | _ => ({ c with phase := .cancellingWatcher (.ok none) }, l)
  | .cancellingWatcher (.error e) => ({ c with phase := .settled (.error e) }, l)
  | .cancellingWatcher (.ok (some lock)) => ({ c with phase := .running lock }, l)
  | .cancellingWatcher (.ok none) => c.iterate l signal
  | .running lock => ({ c with phase := .ended lock signal.threw }, l)
  | .ended lock threw =>
    -- The `finally` of `runWithEtcdLock`, whether the callback returned or threw.
    match lock.release l with
    | (.error e, l) => ({ c with phase := .settled (.error (.lock e)) }, l)
    | (.ok _, l) =>
      ({ c with phase := .settled (if threw then .error .callback else .ok ()) }, l)
  | .settled _ => (c, l)

/-- The lease of the lock a call has in hand. -/
def lease (c : Call) : Option Nat := c.phase.lock.bind (·.lease)

end Call

theorem tryAcquireLock_eq (l : LeaseStore locale) (key : JsString) (ttlSeconds : ℚ) :
    (tryAcquireLock l key ttlSeconds).2 = (l.acquireLock [] key ttlSeconds).2 ∧
    ∀ lock, (tryAcquireLock l key ttlSeconds).1 = .ok (some lock) →
      ∃ id, (l.acquireLock [] key ttlSeconds).1 = .ok id ∧ lock.lease = some id := by
  simp only [tryAcquireLock, Lock.ttl, Lock.acquire, Option.isSome_none, Bool.false_eq_true,
    if_false]
  rcases hacquire : l.acquireLock [] key ttlSeconds with ⟨result, l'⟩
  cases result with
  | error e =>
    dsimp only
    split
    · exact ⟨rfl, fun lock h => by cases h⟩
    · exact ⟨rfl, fun lock h => by cases h⟩
  | ok id => exact ⟨rfl, fun lock h => by cases h; exact ⟨id, rfl, rfl⟩⟩

namespace Call

/-- What a call can do when it goes on: keep or drop the lock it has in
hand, try to acquire one, or release the one it has. -/
structure Goes (c c' : Call) (l l' : LeaseStore locale) (ended : Option Nat) : Prop where
  key : c'.key = c.key
  leased : (∀ lock, c.phase.lock = some lock → lock.lease.isSome) →
    ∀ lock, c'.phase.lock = some lock → lock.lease.isSome
  step : (ended = none ∧ l' = l ∧ ∀ id, c'.lease = some id → c.lease = some id) ∨
    (ended = none ∧ ∃ ttlSeconds, l' = (l.acquireLock [] c.key ttlSeconds).2 ∧
      ∀ id, c'.lease = some id → (l.acquireLock [] c.key ttlSeconds).1 = .ok id) ∨
    (∃ id, ended = some id ∧ l' = l.revokeLease id ∧ c'.lease = none)

/-- The lease a call is about to release. -/
def releasing (c : Call) : Option Nat :=
  match c.phase with
  | .ended lock _ => lock.lease
  | _ => none

/-- An attempt at the lock, whatever awaits its outcome. -/
theorem goes_tryAcquireLock (c : Call) (l : LeaseStore locale)
    (phase : Except LockError (Option Lock) → Phase)
    (hphase : ∀ outcome lock, (phase outcome).lock = some lock → outcome = .ok (some lock)) :
    Goes c { c with phase := phase (tryAcquireLock l c.key c.ttlSeconds).1 } l
      (tryAcquireLock l c.key c.ttlSeconds).2 none := by
  obtain ⟨hstore, hlock⟩ := tryAcquireLock_eq l c.key c.ttlSeconds
  refine ⟨rfl, fun _ lock h => ?_, .inr (.inl ⟨rfl, c.ttlSeconds, hstore, fun id h => ?_⟩)⟩
  · obtain ⟨id, -, hlease⟩ := hlock lock (hphase _ lock h)
    simp [hlease]
  · obtain ⟨lock, hinhand, hid⟩ := Option.bind_eq_some_iff.mp h
    obtain ⟨id', hacquire, hlease⟩ := hlock lock (hphase _ lock hinhand)
    rw [hlease] at hid
    cases hid
    exact hacquire

theorem goes_iterate (c : Call) (l : LeaseStore locale) (signal : Signal) :
    Goes c (c.iterate l signal).1 l (c.iterate l signal).2 none := by
  unfold iterate
  split
  · exact ⟨rfl, fun _ lock h => (by cases h), .inl ⟨rfl, rfl, fun id h => (by cases h)⟩⟩
  · refine goes_tryAcquireLock c l .acquiring fun outcome lock h => ?_
    cases outcome <;> cases h
    rfl

theorem goes_resume (c : Call) (l : LeaseStore locale) (signal : Signal) :
    Goes c (c.resume l signal).1 l (c.resume l signal).2 c.releasing := by
  obtain ⟨key, ttlSeconds, deadline, phase⟩ := c
  -- A phase that keeps the lock in hand, or has none.
  have keeps : ∀ phase' : Phase, (∀ lock, phase'.lock = some lock → phase.lock = some lock) →
      Goes ⟨key, ttlSeconds, deadline, phase⟩ ⟨key, ttlSeconds, deadline, phase'⟩ l l none := by
    intro phase' hkeeps
    refine ⟨rfl, fun hleased lock h => hleased lock (hkeeps lock h), .inl ⟨rfl, rfl, ?_⟩⟩
    intro id h
    obtain ⟨lock, hlock, hid⟩ := Option.bind_eq_some_iff.mp h
    exact Option.bind_eq_some_iff.mpr ⟨lock, hkeeps lock hlock, hid⟩
  cases phase with
  | acquiring outcome =>
    rcases outcome with e | _ | lock
    · exact keeps _ fun lock h => by cases h
    · simp only [resume]
      split
      · exact keeps _ fun lock h => by cases h
      · exact keeps _ fun lock h => by cases h
    · exact keeps _ fun lock h => h
  | creatingWatcher =>
    refine goes_tryAcquireLock ⟨key, ttlSeconds, deadline, _⟩ l .reacquiring
      fun outcome lock h => ?_
    cases outcome <;> cases h
    rfl
  | reacquiring outcome =>
    rcases outcome with e | _ | lock
    · exact keeps _ fun lock h => by cases h
    · exact keeps _ fun lock h => by cases h
    · exact keeps _ fun lock h => h
  | selecting =>
    simp only [resume]
    split
    · exact keeps _ fun lock h => by cases h
    · exact keeps _ fun lock h => by cases h
  | cancellingWatcher outcome =>
    rcases outcome with e | _ | lock
    · exact keeps _ fun lock h => by cases h
    · exact goes_iterate _ l signal
    · exact keeps _ fun lock h => h
  | running lock => exact keeps _ fun lock h => h
  | ended lock threw =>
    simp only [resume, releasing, Lock.release]
    cases hlease : lock.lease with
    | none => exact keeps _ fun lock h => by cases h
    | some id =>
      exact ⟨rfl, fun _ lock h => (by cases h), .inr (.inr ⟨id, rfl, rfl, rfl⟩)⟩
  | settled result => exact keeps _ fun lock h => h

end Call

/-! ## Runs -/

/-- The store with its leases and all calls of `withLock`. -/
structure Locks (locale : Locale) where
  leases : LeaseStore locale
  calls : List Call

inductive LockStep where
  | acquire (lock : Lock)
  | release (lock : Lock)
  | releasePassively (id : Nat)
  | fire (handle : Nat)
  | request (request : StoreRequest)
  | withLock (key : JsString) (timeoutMs : Option ℚ) (signal : Signal)
  | resume (call : Nat) (signal : Signal)

namespace Locks

def initial (locale : Locale) (retainedRevisions : Nat) : Locks locale where
  leases := LeaseStore.initial locale retainedRevisions
  calls := []

def exec (m : Locks locale) : LockStep → Locks locale
  | .acquire lock => { m with leases := (lock.acquire m.leases).2 }
  | .release lock => { m with leases := (lock.release m.leases).2 }
  | .releasePassively id => { m with leases := m.leases.releaseLeasePassively id }
  | .fire handle => { m with leases := m.leases.fire handle }
  | .request request => { m with leases := m.leases.request request }
  | .withLock key timeoutMs signal =>
    let result := Call.start m.leases key timeoutMs signal
    { leases := result.2, calls := m.calls ++ [result.1] }
  | .resume i signal =>
    match m.calls[i]? with
    | none => m
    | some c =>
      let result := c.resume m.leases signal
      { leases := result.2, calls := m.calls.set i result.1 }

/-- The lease a step releases or lets expire. -/
def ends (m : Locks locale) : LockStep → Option Nat
  | .release lock => lock.lease
  | .fire handle => m.leases.expiring handle
  | .resume i _ => m.calls[i]?.bind Call.releasing
  | _ => none

end Locks

/-- The runs of a store with locks: any operation at any time. -/
def locks (locale : Locale) : System (Locks locale) LockStep where
  init m := ∃ retainedRevisions, m = Locks.initial locale retainedRevisions
  step m step m' := m' = m.exec step

namespace Locks

/-! ### What is claimed of a lock key -/

/-- No request but the lock operations writes the key. -/
def LockOnly (key : JsString) (m : Locks locale) : LockStep → Prop
  | .request (.write write) =>
    ∀ record ∈ (m.leases.store.execWrite write).records, record.key ≠ key
  | _ => True

/-- The key is one key: no request writes another string that the
collation takes for it, and the comparison of an acquire looks at the key
that is acquired. -/
def LockDistinct (key : JsString) (m : Locks locale) : LockStep → Prop
  | .request (.write write) =>
    ∀ record ∈ (m.leases.store.execWrite write).records,
      locale.Same record.key key → record.key = key
  | .acquire lock =>
    locale.Same (namespacedKey lock.ns lock.key) key →
      locale.Comparable (namespacedKey lock.ns lock.key)
  | .withLock name _ _ => locale.Same name key → locale.Comparable name
  | _ => True

/-- The steps that meet both. -/
def LockProper (key : JsString) (m : Locks locale) (step : LockStep) : Prop :=
  m.LockOnly key step ∧ m.LockDistinct key step

/-- The call runs its callback and its lease is still outstanding. -/
def Running (m : Locks locale) (key : JsString) (i : Nat) : Prop :=
  ∃ c lock id, m.calls[i]? = some c ∧ c.key = key ∧ c.phase = .running lock
    ∧ lock.lease = some id ∧ m.leases.Outstanding key id

/-- Nobody holds the lock, and whoever asks for it next gets it. -/
def Free (m : Locks locale) (key : JsString) : Prop :=
  m.leases.store.live key = none ∧ (∀ id, ¬ m.leases.Outstanding key id)
    ∧ ∀ lock : Lock, namespacedKey lock.ns lock.key = key → 1 ≤ lock.leaseTTL →
      (lock.acquire m.leases).1.isOk = true

/-- What a lock key is good for, among steps that meet `ok`. -/
structure Exclusive (ok : Locks locale → LockStep → Prop) (m : Locks locale) (key : JsString) :
    Prop where
  /-- The key is there while a lease for it is outstanding. -/
  present_iff : (m.leases.store.live key).isSome ↔ ∃ id, m.leases.Outstanding key id
  /-- One lease is outstanding at most. -/
  one : ∀ id id', m.leases.Outstanding key id → m.leases.Outstanding key id' → id = id'
  /-- A lease and its key outlast every step but the end of this lease. -/
  kept : ∀ step, ok m step → ∀ id, m.leases.Outstanding key id → m.ends step ≠ some id →
    (m.exec step).leases.Outstanding key id
      ∧ ((m.exec step).leases.store.live key).isSome
  /-- A call that runs its callback has a lease. -/
  leased : ∀ c ∈ m.calls, ∀ lock, c.phase = .running lock → lock.lease.isSome
  /-- Callbacks whose leases are kept alive do not overlap. -/
  noOverlap : ∀ i j, m.Running key i → m.Running key j → i = j
  /-- After a callback, returned or thrown, the lock is free. -/
  freed : ∀ i c id signal, m.calls[i]? = some c → c.releasing = some id →
    m.leases.Outstanding key id → (m.exec (.resume i signal)).Free key

/-! ### The invariant of a run -/

structure Invariant (m : Locks locale) (key : JsString) : Prop where
  consistent : m.leases.Consistent key
  armed : m.leases.Armed
  comparable : ∀ c ∈ m.calls, locale.Same c.key key → locale.Comparable c.key
  leased : ∀ c ∈ m.calls, ∀ lock, c.phase.lock = some lock → lock.lease.isSome
  own : ∀ c ∈ m.calls, ∀ id, c.lease = some id → id < m.leases.nextLeaseId
    ∧ ∀ lease, m.leases.leases.lookup id = some lease → lease.key = c.key
  distinct : ∀ (i j : Nat) c c' id, m.calls[i]? = some c → m.calls[j]? = some c' →
    c.lease = some id → c'.lease = some id → i = j

theorem invariant_initial (locale : Locale) (retainedRevisions : Nat) (key : JsString) :
    (initial locale retainedRevisions).Invariant key where
  consistent := LeaseStore.consistent_initial locale retainedRevisions key
  armed := LeaseStore.armed_initial locale retainedRevisions
  comparable := fun c hc => by cases hc
  leased := fun c hc => by cases hc
  own := fun c hc => by cases hc
  distinct := fun i j c c' id hc => by simp [initial] at hc

/-- What an acquire that succeeds gives out. -/
theorem acquireLock_ok {l : LeaseStore locale} {ns key : JsString} {ttlSeconds : ℚ} {id : Nat}
    (h : (l.acquireLock ns key ttlSeconds).1 = .ok id) :
    id = l.nextLeaseId ∧ id < (l.acquireLock ns key ttlSeconds).2.nextLeaseId
      ∧ ∀ lease, (l.acquireLock ns key ttlSeconds).2.leases.lookup id = some lease →
        lease.key = namespacedKey ns key := by
  rcases l.acquireLock_cases ns key ttlSeconds with ⟨e, store, nextLeaseId, hacquire, -⟩ |
    ⟨-, -, hacquire⟩
  · rw [hacquire] at h
    cases h
  · rw [hacquire] at h ⊢
    cases h
    refine ⟨rfl, Nat.lt_succ_self _, fun lease hl => ?_⟩
    simp only [LeaseStore.addLease, LeaseStore.lookup_insert, if_pos] at hl
    cases hl
    rfl

/-- A call that goes on keeps the leases in order, and comes to a new
lease only by acquiring it. -/
theorem goes_spec {c c' : Call} {l l' : LeaseStore locale} {ended : Option Nat} {key : JsString}
    (h : Call.Goes c c' l l' ended) (hconsistent : l.Consistent key) (harmed : l.Armed)
    (hcomparable : locale.Same c.key key → locale.Comparable c.key) :
    l'.Consistent key ∧ l'.Armed ∧ l.Follows l' ended ∧
      ∀ id, c'.lease = some id → c.lease = some id ∨ (id = l.nextLeaseId ∧ id < l'.nextLeaseId
        ∧ ∀ lease, l'.leases.lookup id = some lease → lease.key = c.key) := by
  rcases h.step with ⟨rfl, rfl, hlease⟩ | ⟨rfl, ttlSeconds, rfl, hlease⟩ | ⟨id, rfl, rfl, hlease⟩
  · exact ⟨hconsistent, harmed, .of_leases rfl (Nat.le_refl _), fun id hid => .inl (hlease id hid)⟩
  · exact ⟨hconsistent.acquireLock _ hcomparable, harmed.acquireLock hconsistent.issued _ _ _,
      LeaseStore.follows_acquireLock hconsistent.issued _ _ _,
      fun id hid => .inr (acquireLock_ok (hlease id hid))⟩
  · refine ⟨hconsistent.revokeLease id, harmed.revokeLease id, l.follows_revokeLease id, ?_⟩
    intro other hother
    rw [hlease] at hother
    cases hother

namespace Invariant

variable {m : Locks locale} {key : JsString}

/-- A step that is no call's. -/
theorem of_leases (h : m.Invariant key) {l' : LeaseStore locale} {ended : Option Nat}
    (hconsistent : l'.Consistent key) (harmed : l'.Armed) (hfollows : m.leases.Follows l' ended) :
    Invariant { m with leases := l' } key where
  consistent := hconsistent
  armed := harmed
  comparable := h.comparable
  leased := h.leased
  own := fun c hc id hid => by
    obtain ⟨hlt, hown⟩ := h.own c hc id hid
    refine ⟨Nat.lt_of_lt_of_le hlt hfollows.next, fun lease' hl' => ?_⟩
    obtain ⟨lease, hl, hkey⟩ := hfollows.old id lease' hl' hlt
    exact hkey.symm.trans (hown lease hl)
  distinct := h.distinct

/-- A call goes on: the one at `i`, or a new one. -/
theorem goes (h : m.Invariant key) {i : Nat} {c c' : Call} {l' : LeaseStore locale}
    {calls' : List Call} {ended : Option Nat} (hgoes : Call.Goes c c' m.leases l' ended)
    (hcalls : ∀ j d, calls'[j]? = some d → (j ≠ i ∧ m.calls[j]? = some d) ∨ (j = i ∧ d = c'))
    (hprior : m.calls[i]? = some c ∨ c.phase.lock = none)
    (hcomparable : locale.Same c.key key → locale.Comparable c.key) :
    Invariant { leases := l', calls := calls' } key := by
  obtain ⟨hconsistent, harmed, hfollows, hnew⟩ := goes_spec hgoes h.consistent h.armed hcomparable
  have hmem : ∀ d ∈ calls', d ∈ m.calls ∨ d = c' := by
    intro d hd
    obtain ⟨j, hj⟩ := List.getElem?_of_mem hd
    rcases hcalls j d hj with ⟨-, hold⟩ | ⟨-, rfl⟩
    · exact .inl (List.mem_of_getElem? hold)
    · exact .inr rfl
  have hnone : c.phase.lock = none → ∀ id, c.lease ≠ some id := by
    intro hlock id hid
    rw [Call.lease, hlock] at hid
    cases hid
  have hheld : ∀ id, c.lease = some id → m.calls[i]? = some c :=
    fun id hid => hprior.resolve_right fun hlock => hnone hlock id hid
  constructor
  · exact hconsistent
  · exact harmed
  · intro d hd
    rcases hmem d hd with hd | rfl
    · exact h.comparable d hd
    · rw [hgoes.key]
      exact hcomparable
  · intro d hd
    rcases hmem d hd with hd | rfl
    · exact h.leased d hd
    · refine hgoes.leased fun lock hlock => ?_
      rcases hprior with hprior | hprior
      · exact h.leased c (List.mem_of_getElem? hprior) lock hlock
      · rw [hprior] at hlock
        cases hlock
  · intro d hd id hid
    have hold : ∀ e ∈ m.calls, e.lease = some id → e.key = d.key → id < l'.nextLeaseId
        ∧ ∀ lease, l'.leases.lookup id = some lease → lease.key = d.key := by
      intro e he heid hkey
      obtain ⟨hlt, hown⟩ := h.own e he id heid
      refine ⟨Nat.lt_of_lt_of_le hlt hfollows.next, fun lease' hl' => ?_⟩
      obtain ⟨lease, hl, hsame⟩ := hfollows.old id lease' hl' hlt
      exact hsame.symm.trans ((hown lease hl).trans hkey)
    rcases hmem d hd with hd | rfl
    · exact hold d hd hid rfl
    · rcases hnew id hid with hprev | ⟨-, hlt, hkey⟩
      · exact hold c (List.mem_of_getElem? (hheld id hprev)) hprev hgoes.key.symm
      · exact ⟨hlt, fun lease hl => (hkey lease hl).trans hgoes.key.symm⟩
  · -- A lease is in one call's hand: those of other calls are older than a new one.
    have hother : ∀ j d id, j ≠ i → m.calls[j]? = some d → d.lease = some id →
        c'.lease ≠ some id := by
      intro j d id hne hj hd hid
      rcases hnew id hid with hprev | ⟨rfl, -, -⟩
      · exact hne (h.distinct j i d c id hj (hheld id hprev) hd hprev)
      · exact Nat.lt_irrefl _ (h.own d (List.mem_of_getElem? hj) _ hd).1
    intro j k d e id hj hk hd he
    rcases hcalls j d hj with ⟨hji, hj⟩ | ⟨rfl, rfl⟩ <;>
      rcases hcalls k e hk with ⟨hki, hk⟩ | ⟨rfl, rfl⟩
    · exact h.distinct j k d e id hj hk hd he
    · exact absurd he (hother j d id hji hj hd)
    · exact absurd hd (hother k e id hki hk he)
    · rfl

theorem withLock (h : m.Invariant key) {name : JsString}
    (hname : locale.Same name key → locale.Comparable name) (timeoutMs : Option ℚ)
    (signal : Signal) : (m.exec (.withLock name timeoutMs signal)).Invariant key := by
  refine h.goes (i := m.calls.length)
    (Call.goes_iterate (.entered name timeoutMs signal.nowMs) m.leases signal) ?_ (.inr rfl) hname
  intro j d hj
  rcases Nat.lt_trichotomy j m.calls.length with hlt | rfl | hgt
  · rw [List.getElem?_append_left hlt] at hj
    exact .inl ⟨Nat.ne_of_lt hlt, hj⟩
  · rw [List.getElem?_concat_length] at hj
    exact .inr ⟨rfl, (Option.some.inj hj).symm⟩
  · rw [List.getElem?_eq_none (by simp; omega)] at hj
    cases hj

theorem resume (h : m.Invariant key) (i : Nat) (signal : Signal) :
    (m.exec (.resume i signal)).Invariant key := by
  cases hi : m.calls[i]? with
  | none =>
    simp only [exec, hi]
    exact h
  | some c =>
    simp only [exec, hi]
    refine h.goes (Call.goes_resume c m.leases signal) ?_ (.inl hi)
      (h.comparable c (List.mem_of_getElem? hi))
    intro j d hj
    rw [List.getElem?_set] at hj
    split at hj
    · rename_i hij
      split at hj
      · exact .inr ⟨hij.symm, (Option.some.inj hj).symm⟩
      · cases hj
    · rename_i hij
      exact .inl ⟨fun hji => hij hji.symm, hj⟩

end Invariant

theorem acquire_snd (lock : Lock) (l : LeaseStore locale) :
    (lock.acquire l).2 = (l.acquireLock lock.ns lock.key lock.leaseTTL).2 := by
  unfold Lock.acquire
  rcases l.acquireLock lock.ns lock.key lock.leaseTTL with ⟨_ | _, _⟩ <;> rfl

/-- **The step.** It keeps the invariant, and ends at most the lease it
says it ends. -/
theorem exec_spec {m : Locks locale} {key : JsString} (h : m.Invariant key) {step : LockStep}
    (hproper : m.LockProper key step) :
    (m.exec step).Invariant key ∧ m.leases.Follows (m.exec step).leases (m.ends step) := by
  obtain ⟨honly, hdistinct⟩ := hproper
  cases step with
  | acquire lock =>
    have hfollows := LeaseStore.follows_acquireLock h.consistent.issued lock.ns lock.key lock.leaseTTL
    have harmed := h.armed.acquireLock h.consistent.issued lock.ns lock.key lock.leaseTTL
    have hconsistent := h.consistent.acquireLock lock.leaseTTL hdistinct
    rw [← acquire_snd] at hfollows harmed hconsistent
    exact ⟨h.of_leases hconsistent harmed hfollows, hfollows⟩
  | release lock =>
    simp only [exec, ends, Lock.release]
    cases lock.lease with
    | none => exact ⟨h, .of_leases rfl (Nat.le_refl _)⟩
    | some id =>
      have hfollows := m.leases.follows_revokeLease id
      exact ⟨h.of_leases (h.consistent.revokeLease id) (h.armed.revokeLease id) hfollows, hfollows⟩
  | releasePassively id =>
    have hfollows := m.leases.follows_releaseLeasePassively id
    exact ⟨h.of_leases (h.consistent.releaseLeasePassively id) (h.armed.releaseLeasePassively id)
      hfollows, hfollows⟩
  | fire handle =>
    have hfollows := LeaseStore.follows_fire h.armed handle
    exact ⟨h.of_leases (h.consistent.fire handle) (h.armed.fire handle) hfollows, hfollows⟩
  | request request =>
    have hfollows := m.leases.follows_request request
    refine ⟨h.of_leases (h.consistent.request ?_) (h.armed.request request) hfollows, hfollows⟩
    rintro write rfl record hrecord hsame
    exact honly record hrecord (hdistinct record hrecord hsame)
  | withLock name timeoutMs signal =>
    have hinv := h.withLock hdistinct timeoutMs signal
    refine ⟨hinv, ?_⟩
    exact (goes_spec (Call.goes_iterate (.entered name timeoutMs signal.nowMs) m.leases signal)
      h.consistent h.armed hdistinct).2.2.1
  | resume i signal =>
    refine ⟨h.resume i signal, ?_⟩
    cases hi : m.calls[i]? with
    | none =>
      simp only [exec, ends, hi]
      exact .of_leases rfl (Nat.le_refl _)
    | some c =>
      simp only [exec, ends, hi]
      exact (goes_spec (Call.goes_resume c m.leases signal) h.consistent h.armed
        (h.comparable c (List.mem_of_getElem? hi))).2.2.1

/-! ### The guarantees -/

namespace Invariant

variable {m : Locks locale} {key : JsString}

theorem outstanding_unique (h : m.Invariant key) {id id' : Nat}
    (hid : m.leases.Outstanding key id) (hid' : m.leases.Outstanding key id') : id = id' := by
  obtain ⟨lease, hl, hkey⟩ := h.armed.outstanding_iff.mp hid
  obtain ⟨lease', hl', hkey'⟩ := h.armed.outstanding_iff.mp hid'
  exact h.consistent.unique id id' lease lease' hl hl' (hkey ▸ locale.same_refl _)
    (hkey' ▸ locale.same_refl _)

theorem live_of_outstanding (h : m.Invariant key) {id : Nat}
    (hid : m.leases.Outstanding key id) : (m.leases.store.live key).isSome := by
  obtain ⟨lease, hl, hkey⟩ := h.armed.outstanding_iff.mp hid
  obtain ⟨value, hvalue, hvaluekey⟩ :=
    h.consistent.held id lease hl (hkey ▸ locale.same_refl _)
  rw [FakeState.WellKept.live_eq_some_iff.mpr ⟨hvalue, hvaluekey.trans hkey⟩]
  rfl

theorem outstanding_of_live (h : m.Invariant key) (hlive : (m.leases.store.live key).isSome) :
    ∃ id, m.leases.Outstanding key id := by
  obtain ⟨value, hvalue⟩ := Option.isSome_iff_exists.mp hlive
  obtain ⟨hcurrent, hkey⟩ := FakeState.WellKept.live_eq_some_iff.mp hvalue
  obtain ⟨id, lease, hl, hleasekey⟩ := h.consistent.owned value hcurrent
  exact ⟨id, h.armed.outstanding_iff.mpr ⟨lease, hl, hleasekey.trans hkey⟩⟩

/-- When the last lease has gone, the lock is free. -/
theorem free (h : m.Invariant key) (hkey : key ≠ []) (hcomparable : locale.Comparable key)
    (hnone : ∀ id lease, m.leases.leases.lookup id = some lease → ¬ locale.Same lease.key key) :
    m.Free key := by
  have hcurrent : m.leases.store.current key = none := by
    cases hvalue : m.leases.store.current key with
    | none => rfl
    | some value =>
      obtain ⟨id, lease, hl, hleasekey⟩ := h.consistent.owned value hvalue
      exact absurd (hleasekey ▸ (h.consistent.kept.found hvalue).same) (hnone id lease hl)
  refine ⟨by rw [FakeState.live_eq, hcurrent]; rfl, fun id hid => ?_, ?_⟩
  · obtain ⟨lease, hl, hleasekey⟩ := h.armed.outstanding_iff.mp hid
    exact hnone id lease hl (hleasekey ▸ locale.same_refl _)
  · rintro lock rfl httl
    have hcompare : m.leases.store.evaluateCompare
        (acquireCompare (namespacedKey lock.ns lock.key)) = true :=
      (h.consistent.kept.create_eq_zero hcomparable).mpr hcurrent
    unfold Lock.acquire
    rcases m.leases.acquireLock_cases lock.ns lock.key lock.leaseTTL with
      ⟨e, store, nextLeaseId, -, -, -, hshort | hempty | hrefused⟩ | ⟨-, -, hacquire⟩
    · exact absurd httl (not_le.mpr hshort)
    · exact absurd hempty hkey
    · rw [hrefused] at hcompare
      cases hcompare
    · rw [hacquire]
      rfl

theorem freed (h : m.Invariant key) {i : Nat} {c : Call} {id : Nat} (signal : Signal)
    (hi : m.calls[i]? = some c) (hreleasing : c.releasing = some id)
    (hid : m.leases.Outstanding key id) : (m.exec (.resume i signal)).Free key := by
  obtain ⟨hinv, hfollows⟩ := exec_spec h (show m.LockProper key (.resume i signal) from ⟨trivial, trivial⟩)
  have hends : m.ends (.resume i signal) = some id := by simp [ends, hi, hreleasing]
  rw [hends] at hfollows
  obtain ⟨lease, hl, hkey⟩ := h.armed.outstanding_iff.mp hid
  have hlease : c.lease = some id := by
    unfold Call.releasing at hreleasing
    split at hreleasing
    · rename_i lock threw hphase
      simp [Call.lease, hphase, Phase.lock, hreleasing]
    · cases hreleasing
  have hckey : c.key = key :=
    ((h.own c (List.mem_of_getElem? hi) id hlease).2 lease hl).symm.trans hkey
  refine hinv.free (hkey ▸ h.consistent.named id lease hl) ?_ ?_
  · exact hckey ▸ h.comparable c (List.mem_of_getElem? hi) (hckey ▸ locale.same_refl _)
  · intro other lease' hl' hsame
    -- A lease that is left was there before, so it was the one that has ended.
    have hlt : other < m.leases.nextLeaseId := by
      have hnext : (m.exec (.resume i signal)).leases.nextLeaseId = m.leases.nextLeaseId := by
        have hgoes := (Call.goes_resume c m.leases signal).step
        rw [hreleasing] at hgoes
        rcases hgoes with ⟨hended, -⟩ | ⟨hended, -⟩ | ⟨id', -, hstore, -⟩
        · cases hended
        · cases hended
        · simp only [exec, hi, hstore, LeaseStore.revokeLease]
          split <;> rfl
      exact hnext ▸ hinv.consistent.issued other lease' hl'
    obtain ⟨before, hbefore, hbeforekey⟩ := hfollows.old other lease' hl' hlt
    have heq : other = id := h.consistent.unique other id before lease hbefore hl
      (hbeforekey ▸ hsame) (hkey ▸ locale.same_refl _)
    rw [heq, hfollows.gone id rfl] at hl'
    cases hl'

theorem exclusive (h : m.Invariant key) : Exclusive (LockProper key) m key where
  present_iff := ⟨h.outstanding_of_live, fun ⟨_, hid⟩ => h.live_of_outstanding hid⟩
  one := fun _ _ => h.outstanding_unique
  kept := fun step hproper id hid hne => by
    obtain ⟨hinv, hfollows⟩ := exec_spec h hproper
    obtain ⟨lease, hl, hkey⟩ := h.armed.outstanding_iff.mp hid
    obtain ⟨lease', hl', hkey'⟩ := hfollows.stays id lease hl hne
    have hid' := hinv.armed.outstanding_iff.mpr ⟨lease', hl', hkey'.trans hkey⟩
    exact ⟨hid', hinv.live_of_outstanding hid'⟩
  leased := fun c hc lock hphase => h.leased c hc lock (by rw [hphase]; rfl)
  noOverlap := by
    rintro i j ⟨c, lock, id, hi, -, hphase, hlease, hid⟩
      ⟨c', lock', id', hj, -, hphase', hlease', hid'⟩
    obtain rfl := h.outstanding_unique hid hid'
    refine h.distinct i j c c' id hi hj ?_ ?_
    · simp [Call.lease, hphase, Phase.lock, hlease]
    · simp [Call.lease, hphase', Phase.lock, hlease']
  freed := fun _ _ _ signal hi hreleasing hid => h.freed signal hi hreleasing hid

end Invariant

end Locks

theorem invariant_of_reach {key : JsString} {m : Locks locale}
    (h : ((locks locale).guarded (Locks.LockProper key)).Reach m) : m.Invariant key := by
  refine h.invariant (P := fun m => m.Invariant key) ?_ ?_
  · rintro _ ⟨retainedRevisions, rfl⟩
    exact Locks.invariant_initial locale retainedRevisions key
  · rintro m step _ - hinv ⟨rfl, hproper⟩
    exact (Locks.exec_spec hinv hproper).1

/-- **Locks exclude each other.** In every run in which only lock
operations write the lock key, and it is one key to the collation and to
a comparison, the key is there exactly while its one lease is
outstanding, no end of another lease removes it, callbacks whose leases
are kept alive do not overlap, and the lock is free after a callback. -/
theorem locks_exclusive {key : JsString} {m : Locks locale}
    (h : ((locks locale).guarded (Locks.LockProper key)).Reach m) :
    Locks.Exclusive (Locks.LockProper key) m key :=
  (invariant_of_reach h).exclusive

/-- A call of `withLock` comes to its callback, which is running while
another call is refused the lock. -/
def twoCalls : List LockStep :=
  [.withLock (js "k") none {}, .resume 0 {}, .withLock (js "k") none {}]

/-- The locks after steps from a new store. -/
def locksAfter (steps : List LockStep) : Locks rootLocale :=
  steps.foldl Locks.exec (Locks.initial rootLocale 3)

theorem locks_exclusive_after_calls :
    (locksAfter twoCalls).Running (js "k") 0
      ∧ Locks.Exclusive (Locks.LockProper (js "k")) (locksAfter twoCalls) (js "k") := by
  have hk : rootLocale.Comparable (js "k") := by decide
  have h0 : ((locks rootLocale).guarded (Locks.LockProper (js "k"))).Reach (locksAfter []) :=
    .start ⟨3, rfl⟩
  have h1 := h0.step (l := LockStep.withLock (js "k") none {}) ⟨rfl, trivial, fun _ => hk⟩
  have h2 := h1.step (l := LockStep.resume 0 {}) ⟨rfl, trivial, trivial⟩
  have h3 := h2.step (l := LockStep.withLock (js "k") none {}) ⟨rfl, trivial, fun _ => hk⟩
  have hcall : (locksAfter twoCalls).calls[0]? = some
      { key := js "k", ttlSeconds := 5, deadline := 5000
        phase := .running { ns := [], key := js "k", leaseTTL := 5, lease := some 1 } } := by
    decide +kernel
  have hlease : (locksAfter twoCalls).leases.leases.lookup 1
      = some { id := 1, key := js "k", expireHandle := 1, keepAliveHandle := 2 } := by
    decide +kernel
  have htimer : (locksAfter twoCalls).leases.clock.tasks.lookup 1
      = some { callback := .revokeLease 1, interval := false } := by
    decide +kernel
  exact ⟨⟨_, _, 1, hcall, rfl, rfl, rfl, _, hlease, rfl, htimer⟩,
    locks_exclusive (m := locksAfter twoCalls) h3⟩

/-- A lock key that is one lone surrogate. -/
def surrogateLock : Lock := { ns := [], key := [0xD800] }

/-- Two acquires of it succeed. -/
theorem surrogateLock_not_exclusive :
    ((locks rootLocale).guarded (Locks.LockOnly surrogateLock.key)).Reach
        (locksAfter [.acquire surrogateLock, .acquire surrogateLock])
      ∧ ¬ Locks.Exclusive (Locks.LockOnly surrogateLock.key)
        (locksAfter [.acquire surrogateLock, .acquire surrogateLock]) surrogateLock.key := by
  have h0 : ((locks rootLocale).guarded (Locks.LockOnly surrogateLock.key)).Reach (locksAfter []) :=
    .start ⟨3, rfl⟩
  have h1 := h0.step (l := LockStep.acquire surrogateLock) ⟨rfl, trivial⟩
  refine ⟨h1.step (l := LockStep.acquire surrogateLock) ⟨rfl, trivial⟩, fun h => ?_⟩
  have htwo := h.one 1 2 ⟨_, rfl, rfl, rfl⟩ ⟨_, rfl, rfl, rfl⟩
  cases htwo

end Webernetes.Etcd
