/-
Webernetes.Go.Monitor — `Mutex` and `Cond` of `go/sync`, and asynchronous
calls that use one of each.

A call that awaits `lock()` or `wait()` has a `Status`. `enter` is the
call of `lock()`, `leave` the call of `unlock()`, `wait` the first half of
`Cond.wait` (the second half is another `enter`, once the call is
notified) and `signal` is `Cond.signal`. An `unlock` hands the mutex over
to the first call that waits for it.

`Sound` ties the two queues to the statuses. `awake` counts the calls
that are on their way to the mutex or have it; a monitor where nothing
can go on has no call awake (`awake_eq_zero`).
-/
import Webernetes.Js.Text

namespace Webernetes.Go

open Js

/-! ## Mutex and Cond -/

structure Mutex where
  locked : Bool := false
  waiters : List Nat := []
  deriving DecidableEq

namespace Mutex

/-- Whether the mutex is taken at once. -/
def lock (mutex : Mutex) (waiter : Nat) : Bool × Mutex :=
  if mutex.locked then (false, { mutex with waiters := mutex.waiters ++ [waiter] })
  else (true, { mutex with locked := true })

/-- The waiter that has the mutex now, if there is one. -/
def unlock (mutex : Mutex) : Except JsString (Option Nat × Mutex) :=
  if mutex.locked = false then .error (js "sync: unlock of unlocked mutex")
  else
    match mutex.waiters with
    | [] => .ok (none, { mutex with locked := false })
    | waiter :: rest => .ok (some waiter, { mutex with waiters := rest })

end Mutex

structure Cond where
  waiters : List Nat := []
  deriving DecidableEq

namespace Cond

def wait (cond : Cond) (waiter : Nat) : Cond := ⟨cond.waiters ++ [waiter]⟩

/-- The waiter that is notified, if there is one. -/
def signal (cond : Cond) : Option Nat × Cond :=
  match cond.waiters with
  | [] => (none, cond)
  | waiter :: rest => (some waiter, ⟨rest⟩)

end Cond

/-! ## Calls -/

/-- Where a call stands: outside, waiting for the mutex, in possession of
it, waiting for a signal, or notified of one. -/
inductive Status where
  | idle | locking | holding | parked | notified
  deriving DecidableEq

def Status.isAwake : Status → Bool
  | .locking => true
  | .holding => true
  | .notified => true
  | _ => false

structure Monitor where
  mutex : Mutex := {}
  cond : Cond := {}
  calls : List Status := []
  deriving DecidableEq

namespace Monitor

def setStatus (m : Monitor) (call : Nat) (status : Status) : Monitor :=
  { m with calls := m.calls.set call status }

/-- A new call, outside. -/
def call (m : Monitor) : Monitor := { m with calls := m.calls ++ [.idle] }

/-- A call of `lock()`. -/
def enter (m : Monitor) (call : Nat) : Monitor :=
  match m.mutex.lock call with
  | (true, mutex) => { m with mutex }.setStatus call .holding
  | (false, mutex) => { m with mutex }.setStatus call .locking

/-- A call of `unlock()`, after which the call stands at `next`. -/
def release (m : Monitor) (call : Nat) (next : Status) : Except JsString Monitor :=
  match m.mutex.unlock with
  | .error e => .error e
  | .ok (none, mutex) => .ok ({ m with mutex }.setStatus call next)
  | .ok (some waiter, mutex) =>
    .ok (({ m with mutex }.setStatus call next).setStatus waiter .holding)

def leave (m : Monitor) (call : Nat) : Except JsString Monitor := m.release call .idle

/-- `wait()` up to its second await. -/
def wait (m : Monitor) (call : Nat) : Except JsString Monitor :=
  { m with cond := m.cond.wait call }.release call .parked

def signal (m : Monitor) : Monitor :=
  match m.cond.signal with
  | (none, _) => m
  | (some waiter, cond) => { m with cond }.setStatus waiter .notified

/-- The calls on their way to the mutex, and the one that has it. -/
def awake (m : Monitor) : Nat := m.calls.countP Status.isAwake

/-- The call stands there. -/
abbrev At (m : Monitor) (call : Nat) (status : Status) : Prop := m.calls[call]? = some status

/-- The queues hold the calls that wait in them, and a locked mutex has
its holder. -/
structure Sound (m : Monitor) : Prop where
  locking : ∀ i, i ∈ m.mutex.waiters ↔ m.At i .locking
  lockingNodup : m.mutex.waiters.Nodup
  parked : ∀ i, i ∈ m.cond.waiters ↔ m.At i .parked
  parkedNodup : m.cond.waiters.Nodup
  holder : m.mutex.locked = true ↔ ∃ i, m.At i .holding
  oneHolder : ∀ i j, m.At i .holding → m.At j .holding → i = j
  locked : m.mutex.waiters ≠ [] → m.mutex.locked = true

theorem sound_empty : Sound {} where
  locking := by simp
  lockingNodup := List.nodup_nil
  parked := by simp
  parkedNodup := List.nodup_nil
  holder := by simp
  oneHolder := by simp
  locked := by simp

theorem at_setStatus {m : Monitor} {i j : Nat} {s other old : Status} (h : m.At i old) :
    (m.setStatus i s).At j other ↔ if j = i then s = other else m.At j other := by
  have hlt := (List.getElem?_eq_some_iff.mp h).1
  show (m.calls.set i s)[j]? = some other ↔ _
  rw [List.getElem?_set]
  by_cases hij : i = j
  · simp [hij, hij ▸ hlt]
  · simp [hij, Ne.symm hij]

/-- A call that changes its status counts as awake or not. -/
theorem awake_setStatus {m : Monitor} {i : Nat} {s old : Status} (h : m.At i old) :
    (m.setStatus i s).awake + (if old.isAwake then 1 else 0)
      = m.awake + (if s.isAwake then 1 else 0) := by
  obtain ⟨hlt, hget⟩ := List.getElem?_eq_some_iff.mp h
  have hpos : (if old.isAwake then 1 else 0) ≤ m.calls.countP Status.isAwake := by
    split
    · exact List.countP_pos_iff.mpr ⟨old, hget ▸ List.getElem_mem hlt, ‹_›⟩
    · exact Nat.zero_le _
  show (m.calls.set i s).countP Status.isAwake + _ = _
  rw [List.countP_set hlt, hget]
  unfold awake
  omega

namespace Sound

variable {m : Monitor}

theorem at_call {i : Nat} {status : Status} (hne : status ≠ .idle) :
    m.call.At i status ↔ m.At i status := by
  show (m.calls ++ [Status.idle])[i]? = some status ↔ _
  rw [List.getElem?_append]
  split
  · rfl
  · rename_i hlt
    rw [At, List.getElem?_eq_none (Nat.le_of_not_lt hlt)]
    cases hi : i - m.calls.length with
    | zero => simp [Ne.symm hne]
    | succ n => simp

theorem call (h : m.Sound) : m.call.Sound where
  locking i := (h.locking i).trans (at_call (by decide)).symm
  lockingNodup := h.lockingNodup
  parked i := (h.parked i).trans (at_call (by decide)).symm
  parkedNodup := h.parkedNodup
  holder := h.holder.trans (exists_congr fun _ => (at_call (by decide)).symm)
  oneHolder i j hi hj := h.oneHolder i j ((at_call (by decide)).mp hi) ((at_call (by decide)).mp hj)
  locked := h.locked

/-- A call from outside, or one that was notified, goes for the mutex. -/
theorem enter (h : m.Sound) {i : Nat} {status : Status} (hi : m.At i status)
    (hfree : status = .idle ∨ status = .notified) : (m.enter i).Sound := by
  obtain ⟨hlocking, hlockingNodup, hparked, hparkedNodup, hholder, hone, hlocked⟩ := h
  have hset : ∀ (mutex : Mutex) (status' other : Status) (j : Nat),
      (setStatus { m with mutex } i status').At j other
        ↔ if j = i then status' = other else m.At j other :=
    fun mutex status' other j => at_setStatus (m := { m with mutex }) hi
  unfold Monitor.enter Mutex.lock
  cases hm : m.mutex.locked with
  | false =>
    simp only [Bool.false_eq_true, if_false]
    exact
      { locking := fun j => by rw [hset]; grind [Monitor.setStatus]
        lockingNodup := hlockingNodup
        parked := fun j => by rw [hset]; grind [Monitor.setStatus]
        parkedNodup := hparkedNodup
        holder := by simp only [hset]; grind [Monitor.setStatus]
        oneHolder := fun j k => by simp only [hset]; grind
        locked := by grind [Monitor.setStatus] }
  | true =>
    simp only [if_true]
    exact
      { locking := fun j => by rw [hset]; grind [Monitor.setStatus]
        lockingNodup := by grind [Monitor.setStatus]
        parked := fun j => by rw [hset]; grind [Monitor.setStatus]
        parkedNodup := hparkedNodup
        holder := by simp only [hset]; grind [Monitor.setStatus]
        oneHolder := fun j k => by simp only [hset]; grind
        locked := by grind [Monitor.setStatus] }

/-- The holder gives up the mutex, for the outside or for the condition it
has queued up for, and is no longer awake. -/
theorem release (h : m.Sound) {i : Nat} (hi : m.At i .holding) {cond : Cond} {next : Status}
    (hnext : next = .idle ∧ cond = m.cond ∨ next = .parked ∧ cond = m.cond.wait i) :
    ∃ m', ({ m with cond } : Monitor).release i next = .ok m' ∧ m'.Sound
      ∧ m'.awake + 1 = m.awake ∧ m'.cond = cond := by
  obtain ⟨hlocking, hlockingNodup, hparked, hparkedNodup, hholder, hone, hlocked⟩ := h
  have hm : m.mutex.locked = true := hholder.mpr ⟨i, hi⟩
  have hset : ∀ (mutex : Mutex) (status' other : Status) (j : Nat),
      (setStatus { mutex, cond, calls := m.calls } i status').At j other
        ↔ if j = i then status' = other else m.At j other :=
    fun mutex status' other j => at_setStatus (m := { mutex, cond, calls := m.calls }) hi
  have hasleep : next.isAwake = false := by rcases hnext with ⟨rfl, -⟩ | ⟨rfl, -⟩ <;> rfl
  have hawake : ∀ mutex : Mutex,
      (setStatus { mutex, cond, calls := m.calls } i next).awake + 1 = m.awake := by
    intro mutex
    have hcount : (setStatus { mutex, cond, calls := m.calls } i next).awake + 1
        = m.awake + (if next.isAwake then 1 else 0) :=
      awake_setStatus (m := { mutex, cond, calls := m.calls }) hi
    simpa [hasleep] using hcount
  unfold Monitor.release Mutex.unlock
  simp only [hm, Bool.true_eq_false, if_false]
  cases hwaiters : m.mutex.waiters with
  | nil =>
    refine ⟨_, rfl, ?_, hawake _, rfl⟩
    exact
      { locking := fun j => by rw [hset]; grind [Monitor.setStatus, Cond.wait]
        lockingNodup := by grind [Monitor.setStatus, Cond.wait]
        parked := fun j => by rw [hset]; grind [Monitor.setStatus, Cond.wait]
        parkedNodup := by grind [Monitor.setStatus, Cond.wait]
        holder := by simp only [hset]; grind [Monitor.setStatus]
        oneHolder := fun j k => by simp only [hset]; grind
        locked := by grind [Monitor.setStatus] }
  | cons waiter rest =>
    have hwaiter : m.At waiter .locking := (hlocking waiter).mp (hwaiters ▸ List.mem_cons_self)
    have hne : waiter ≠ i := fun heq => by
      rw [heq, At, hi] at hwaiter
      cases hwaiter
    have hold : ∀ mutex : Mutex,
        (setStatus { mutex, cond, calls := m.calls } i next).At waiter .locking := by
      intro mutex
      rw [hset, if_neg hne]
      exact hwaiter
    have hset' : ∀ (mutex : Mutex) (other : Status) (j : Nat),
        ((setStatus { mutex, cond, calls := m.calls } i next).setStatus waiter .holding).At j other
          ↔ if j = waiter then .holding = other else if j = i then next = other
            else m.At j other := by
      intro mutex other j
      rw [at_setStatus (hold mutex), hset]
    refine ⟨_, rfl, ?_, ?_, rfl⟩
    · exact
        { locking := fun j => by rw [hset']; grind [Monitor.setStatus, Cond.wait]
          lockingNodup := by grind [Monitor.setStatus, Cond.wait]
          parked := fun j => by rw [hset']; grind [Monitor.setStatus, Cond.wait]
          parkedNodup := by grind [Monitor.setStatus, Cond.wait]
          holder := by simp only [hset']; grind [Monitor.setStatus]
          oneHolder := fun j k => by simp only [hset']; grind
          locked := by grind [Monitor.setStatus] }
    · have hcount := awake_setStatus (s := .holding) (hold ⟨true, rest⟩)
      rw [← hawake ⟨true, rest⟩]
      exact hcount

theorem leave (h : m.Sound) {i : Nat} (hi : m.At i .holding) :
    ∃ m', m.leave i = .ok m' ∧ m'.Sound ∧ m'.awake + 1 = m.awake ∧ m'.cond = m.cond :=
  h.release hi (.inl ⟨rfl, rfl⟩)

theorem wait (h : m.Sound) {i : Nat} (hi : m.At i .holding) :
    ∃ m', m.wait i = .ok m' ∧ m'.Sound ∧ m'.awake + 1 = m.awake
      ∧ m'.cond = m.cond.wait i :=
  h.release hi (.inr ⟨rfl, rfl⟩)

/-- A signal wakes the first call that is parked, if one is. -/
theorem signal (h : m.Sound) :
    m.signal.Sound ∧ (m.cond.waiters = [] ∧ m.signal = m ∨
      m.cond.waiters ≠ [] ∧ m.signal.awake = m.awake + 1) := by
  unfold Monitor.signal Cond.signal
  cases hwaiters : m.cond.waiters with
  | nil => exact ⟨h, .inl ⟨rfl, rfl⟩⟩
  | cons waiter rest =>
    have hwaiter : m.At waiter .parked := (h.parked waiter).mp (hwaiters ▸ List.mem_cons_self)
    obtain ⟨hlocking, hlockingNodup, hparked, hparkedNodup, hholder, hone, hlocked⟩ := h
    have hset : ∀ (other : Status) (j : Nat),
        (setStatus { m with cond := ⟨rest⟩ } waiter .notified).At j other
          ↔ if j = waiter then .notified = other else m.At j other :=
      fun other j => at_setStatus (m := { m with cond := ⟨rest⟩ }) hwaiter
    have hcount := awake_setStatus (s := .notified) (m := { m with cond := ⟨rest⟩ }) hwaiter
    refine ⟨?_, .inr ⟨List.cons_ne_nil _ _, hcount⟩⟩
    exact
      { locking := fun j => by rw [hset]; grind [Monitor.setStatus]
        lockingNodup := hlockingNodup
        parked := fun j => by rw [hset]; grind [Monitor.setStatus]
        parkedNodup := by grind [Monitor.setStatus]
        holder := by simp only [hset]; grind [Monitor.setStatus]
        oneHolder := fun j k => by simp only [hset]; grind
        locked := by grind [Monitor.setStatus] }

/-- A monitor where no call holds the mutex or is notified has no call
awake. -/
theorem awake_eq_zero (h : m.Sound) (hholding : ∀ i, ¬ m.At i .holding)
    (hnotified : ∀ i, ¬ m.At i .notified) : m.awake = 0 := by
  refine List.countP_eq_zero.mpr fun status hstatus hawake => ?_
  obtain ⟨i, hi⟩ := List.mem_iff_getElem?.mp hstatus
  cases status with
  | idle => cases hawake
  | parked => cases hawake
  | holding => exact hholding i hi
  | notified => exact hnotified i hi
  | locking =>
    -- A call that waits for the mutex waits for a holder.
    have hmem := (h.locking i).mpr hi
    obtain ⟨j, hj⟩ := h.holder.mp (h.locked (List.ne_nil_of_mem hmem))
    exact hholding j hj

end Sound

/-- A call that goes for the mutex is awake from then on. -/
theorem awake_enter {m : Monitor} {i : Nat} {status : Status} (hi : m.At i status) :
    (m.enter i).awake + (if status.isAwake then 1 else 0) = m.awake + 1
      ∧ (m.enter i).cond = m.cond := by
  unfold Monitor.enter Mutex.lock
  cases hm : m.mutex.locked with
  | false =>
    have hcount := awake_setStatus (s := .holding)
      (m := { m with mutex := { m.mutex with locked := true } }) hi
    simp only [Bool.false_eq_true, if_false]
    exact ⟨hcount, rfl⟩
  | true =>
    have hcount := awake_setStatus (s := .locking)
      (m := { m with mutex := { m.mutex with waiters := m.mutex.waiters ++ [i] } }) hi
    simp only [if_true]
    exact ⟨hcount, rfl⟩

theorem awake_call (m : Monitor) : m.call.awake = m.awake ∧ m.call.cond = m.cond := by
  refine ⟨?_, rfl⟩
  show (m.calls ++ [Status.idle]).countP _ = _
  simp [List.countP_append, Status.isAwake, awake]

theorem at_call_last (m : Monitor) : m.call.At m.calls.length .idle := by
  simp [At, call]

end Monitor

end Webernetes.Go
