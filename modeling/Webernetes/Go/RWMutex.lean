/-
Webernetes.Go.RWMutex — the readers and writers lock.

A lock is granted at once, or the call waits in the queue until `dispatch`
resolves it: the writer at the head of the queue, or the readers up to the
next writer. A waiter is known by its number; `dispatch` answers whom it
has resolved.

`RWLocks` adds who holds the lock, who has ever waited and who was
resolved, all ghosts. The invariant is that a lock without a writer has
an empty queue or a writer at its head behind readers, so the lock is not
idle while anyone waits (`RWLocks.Consistent`).
-/
import Webernetes.Base.Transition

namespace Webernetes.Go

open Base

inductive LockKind where
  | read
  | write
  deriving DecidableEq

/-- `RWMutexWaiter`. -/
structure RWMutexWaiter where
  kind : LockKind
  id : Nat
  deriving DecidableEq

structure RWMutex where
  activeReaders : Nat := 0
  writerActive : Bool := false
  waitingWriters : Nat := 0
  waiters : List RWMutexWaiter := []
  deriving DecidableEq

namespace RWMutex

variable (m : RWMutex)

def tryLock : Bool × RWMutex :=
  if m.writerActive ∨ m.activeReaders ≠ 0 then (false, m) else (true, { m with writerActive := true })

def tryRLock : Bool × RWMutex :=
  if m.writerActive ∨ m.waitingWriters ≠ 0 then (false, m)
  else (true, { m with activeReaders := m.activeReaders + 1 })

/-- `lock` by a call with a number: granted, or queued. -/
def lock (id : Nat) : Bool × RWMutex :=
  match m.tryLock with
  | (true, m) => (true, m)
  | (false, m) => (false, { m with
      waitingWriters := m.waitingWriters + 1
      waiters := m.waiters ++ [⟨.write, id⟩] })

def rLock (id : Nat) : Bool × RWMutex :=
  match m.tryRLock with
  | (true, m) => (true, m)
  | (false, m) => (false, { m with waiters := m.waiters ++ [⟨.read, id⟩] })

/-- The loop over the readers at the head of the queue. -/
def grantReaders (resolved : List RWMutexWaiter) : List RWMutexWaiter → Nat →
    List RWMutexWaiter × List RWMutexWaiter × Nat
  | ⟨.read, id⟩ :: waiters, activeReaders =>
    grantReaders (resolved ++ [⟨.read, id⟩]) waiters (activeReaders + 1)
  | waiters, activeReaders => (resolved, waiters, activeReaders)

/-- The waiters it resolves, in order. -/
def dispatch : List RWMutexWaiter × RWMutex :=
  if m.writerActive ∨ m.activeReaders ≠ 0 then ([], m)
  else
    match m.waiters with
    | [] => ([], m)
    | ⟨.write, id⟩ :: waiters =>
      ([⟨.write, id⟩],
        { m with waiters, waitingWriters := m.waitingWriters - 1, writerActive := true })
    | waiters =>
      let (resolved, waiters, activeReaders) := grantReaders [] waiters m.activeReaders
      (resolved, { m with waiters, activeReaders })

def unlock : Except String (List RWMutexWaiter × RWMutex) :=
  if !m.writerActive then .error "sync: Unlock of unlocked RWMutex"
  else .ok { m with writerActive := false }.dispatch

def rUnlock : Except String (List RWMutexWaiter × RWMutex) :=
  if m.activeReaders ≤ 0 then .error "sync: RUnlock of unlocked RWMutex"
  else
    let m := { m with activeReaders := m.activeReaders - 1 }
    if m.activeReaders = 0 then .ok m.dispatch else .ok ([], m)

/-- What the loop leaves and whom it resolves. -/
theorem grantReaders_eq (resolved waiters : List RWMutexWaiter) (activeReaders : Nat) :
    ∃ granted rest, waiters = granted ++ rest ∧ (∀ w ∈ granted, w.kind = .read)
      ∧ (∀ w ∈ rest.head?, w.kind = .write)
      ∧ grantReaders resolved waiters activeReaders
        = (resolved ++ granted, rest, activeReaders + granted.length) := by
  induction waiters generalizing resolved activeReaders with
  | nil => exact ⟨[], [], rfl, by simp, by simp, by simp [grantReaders]⟩
  | cons w waiters ih =>
    obtain ⟨kind, id⟩ := w
    cases kind with
    | write => exact ⟨[], ⟨.write, id⟩ :: waiters, rfl, by simp, by simp, by simp [grantReaders]⟩
    | read =>
      obtain ⟨granted, rest, rfl, hread, hrest, heq⟩ := ih (resolved ++ [⟨.read, id⟩]) (activeReaders + 1)
      refine ⟨⟨.read, id⟩ :: granted, rest, rfl, by simpa using hread, hrest, ?_⟩
      rw [grantReaders, heq]
      simp only [List.append_assoc, List.singleton_append, List.length_cons, Prod.mk.injEq, true_and]
      omega

/-- What `dispatch` does to a lock that nobody holds. -/
inductive Dispatches (m : RWMutex) : List RWMutexWaiter → RWMutex → Prop where
  | none (h : m.waiters = []) : Dispatches m [] m
  | writer (id : Nat) (rest : List RWMutexWaiter) (h : m.waiters = ⟨.write, id⟩ :: rest) :
      Dispatches m [⟨.write, id⟩]
        { m with waiters := rest, waitingWriters := m.waitingWriters - 1, writerActive := true }
  | readers (granted rest : List RWMutexWaiter) (h : m.waiters = granted ++ rest)
      (hne : granted ≠ []) (hread : ∀ w ∈ granted, w.kind = .read)
      (hrest : ∀ w ∈ rest.head?, w.kind = .write) :
      Dispatches m granted { m with waiters := rest, activeReaders := granted.length }

theorem dispatches (hwriter : m.writerActive = false) (hreaders : m.activeReaders = 0) :
    Dispatches m m.dispatch.1 m.dispatch.2 := by
  unfold dispatch
  rw [if_neg (by simp [hwriter, hreaders])]
  split
  · rename_i h
    exact .none h
  · rename_i id rest h
    exact .writer id rest h
  · rename_i waiters hnil hwrite
    obtain ⟨granted, rest, heq, hread, hrest, hloop⟩ := grantReaders_eq [] m.waiters 0
    simp only [hreaders, hloop, List.nil_append, Nat.zero_add]
    refine .readers granted rest heq ?_ hread hrest
    rintro rfl
    rw [List.nil_append] at heq
    cases rest with
    | nil => exact hnil heq
    | cons w rest =>
      obtain ⟨kind, id⟩ := w
      obtain rfl : kind = .write := hrest ⟨kind, id⟩ rfl
      exact hwrite id rest heq

end RWMutex

/-! ## Calls -/

/-- The lock, who holds it, whose turn it was to wait, and who was
resolved; all in order. `next` is the number of the next call. -/
structure RWLocks where
  mutex : RWMutex := {}
  holders : List RWMutexWaiter := []
  queued : List Nat := []
  granted : List Nat := []
  next : Nat := 0
  deriving DecidableEq

inductive RWStep where
  | lock
  | tryLock
  | rLock
  | tryRLock
  | unlock (id : Nat)
  | rUnlock (id : Nat)
  deriving DecidableEq

namespace RWLocks

variable (m : RWLocks)

/-- A call that is granted at once holds the lock, another one waits. -/
def called (kind : LockKind) (outcome : Bool × RWMutex) (waits : Bool) : RWLocks :=
  { m with
    mutex := outcome.2
    holders := if outcome.1 then m.holders ++ [⟨kind, m.next⟩] else m.holders
    queued := if !outcome.1 && waits then m.queued ++ [m.next] else m.queued
    next := m.next + 1 }

/-- A holder that has let go, and those that were resolved. -/
def released (holder : RWMutexWaiter) (resolved : List RWMutexWaiter) (mutex : RWMutex) : RWLocks :=
  { m with
    mutex
    holders := m.holders.erase holder ++ resolved
    granted := m.granted ++ resolved.map (·.id) }

def exec : RWStep → RWLocks
  | .lock => m.called .write (m.mutex.lock m.next) true
  | .tryLock => m.called .write m.mutex.tryLock false
  | .rLock => m.called .read (m.mutex.rLock m.next) true
  | .tryRLock => m.called .read m.mutex.tryRLock false
  | .unlock id =>
    match m.mutex.unlock with
    | .ok (resolved, mutex) => m.released ⟨.write, id⟩ resolved mutex
    | .error _ => m
  | .rUnlock id =>
    match m.mutex.rUnlock with
    | .ok (resolved, mutex) => m.released ⟨.read, id⟩ resolved mutex
    | .error _ => m

/-- Only who holds the lock lets it go. -/
def ByHolder : RWStep → Prop
  | .unlock id => ⟨.write, id⟩ ∈ m.holders
  | .rUnlock id => ⟨.read, id⟩ ∈ m.holders
  | _ => True

/-- Any order of calls on a new lock. -/
def rwMutex : System RWLocks RWStep where
  init m := m = {}
  step m act m' := m.ByHolder act ∧ m' = m.exec act

/-! ## The invariant -/

structure Consistent : Prop where
  readers : m.holders.countP (·.kind = .read) = m.mutex.activeReaders
  writers : m.holders.countP (·.kind = .write) = if m.mutex.writerActive then 1 else 0
  exclusive : m.mutex.writerActive = true → m.mutex.activeReaders = 0
  waiting : m.mutex.waitingWriters = m.mutex.waiters.countP (·.kind = .write)
  /-- Without a writer the queue starts with one, behind readers. -/
  head : m.mutex.writerActive = false → ∀ w ∈ m.mutex.waiters.head?,
    w.kind = .write ∧ m.mutex.activeReaders ≠ 0
  order : m.granted ++ m.mutex.waiters.map (·.id) = m.queued
  ascending : m.queued.Pairwise (· < ·)
  fresh : ∀ id ∈ m.queued, id < m.next

variable {m}

/-- The first of a queue with nobody active. -/
theorem Consistent.waiters_eq_nil (h : m.Consistent) (hwriter : m.mutex.writerActive = false)
    (hreaders : m.mutex.activeReaders = 0) : m.mutex.waiters = [] := by
  cases hwaiters : m.mutex.waiters with
  | nil => rfl
  | cons w rest =>
    obtain ⟨-, hne⟩ := h.head hwriter w (by rw [hwaiters]; rfl)
    exact absurd hreaders hne

theorem pairwise_concat {queued : List Nat} {next : Nat} (h : queued.Pairwise (· < ·))
    (hfresh : ∀ id ∈ queued, id < next) : (queued ++ [next]).Pairwise (· < ·) := by
  rw [List.pairwise_append]
  exact ⟨h, List.pairwise_singleton _ _, fun id hid next' hnext' => by
    rw [List.mem_singleton.mp hnext']
    exact hfresh id hid⟩

theorem consistent_initial : ({} : RWLocks).Consistent := by
  constructor <;> simp

/-- A call that joins the queue. -/
theorem Consistent.queued (h : m.Consistent) (kind : LockKind)
    (hblocked : m.mutex.writerActive = true ∨ m.mutex.activeReaders ≠ 0)
    (hread : kind = .read → m.mutex.writerActive = true ∨ m.mutex.waitingWriters ≠ 0) :
    Consistent { m with
      mutex := { m.mutex with
        waitingWriters := m.mutex.waitingWriters + if kind = .write then 1 else 0
        waiters := m.mutex.waiters ++ [⟨kind, m.next⟩] }
      queued := m.queued ++ [m.next]
      next := m.next + 1 } where
  readers := h.readers
  writers := h.writers
  exclusive := h.exclusive
  waiting := by
    simp only [h.waiting, List.countP_append, List.countP_singleton]
    cases kind <;> simp
  head := by
    intro hwriter w hw
    dsimp only at hwriter hw ⊢
    cases hwaiters : m.mutex.waiters with
    | nil =>
      rw [hwaiters] at hw
      cases hw
      refine ⟨?_, by simpa [hwriter] using hblocked⟩
      cases kind with
      | write => rfl
      | read =>
        have hnone : m.mutex.waitingWriters = 0 := by rw [h.waiting, hwaiters]; rfl
        simp [hwriter, hnone] at hread
    | cons first rest =>
      rw [hwaiters] at hw
      exact h.head hwriter w (by rw [hwaiters]; exact hw)
  order := by
    simp only [List.map_append, List.map_singleton]
    rw [← List.append_assoc, h.order]
  ascending := pairwise_concat h.ascending h.fresh
  fresh := by
    intro id hid
    rcases List.mem_append.mp hid with hid | hid
    · exact Nat.lt_succ_of_lt (h.fresh id hid)
    · rw [List.mem_singleton.mp hid]
      exact Nat.lt_succ_self _

/-- A call that is granted at once. -/
theorem Consistent.taken (h : m.Consistent) (kind : LockKind)
    (hwriter : m.mutex.writerActive = false)
    (hfree : if kind = .write then m.mutex.activeReaders = 0 else m.mutex.waitingWriters = 0) :
    Consistent { m with
      mutex := { m.mutex with
        writerActive := decide (kind = .write)
        activeReaders := m.mutex.activeReaders + if kind = .read then 1 else 0 }
      holders := m.holders ++ [⟨kind, m.next⟩]
      next := m.next + 1 } where
  readers := by
    simp only [List.countP_append, h.readers, List.countP_singleton]
    cases kind <;> simp
  writers := by
    simp only [List.countP_append, h.writers, hwriter, List.countP_singleton]
    cases kind <;> simp
  exclusive := by
    cases kind with
    | read => simp
    | write => simpa using hfree
  waiting := h.waiting
  head := by
    cases kind with
    | write => simp
    | read =>
      intro _ w hw
      obtain ⟨hwrite, hne⟩ := h.head hwriter w hw
      exact ⟨hwrite, by simp⟩
  order := h.order
  ascending := h.ascending
  fresh id hid := Nat.lt_succ_of_lt (h.fresh id hid)

/-- A call that is turned away. -/
theorem Consistent.refused (h : m.Consistent) : Consistent { m with next := m.next + 1 } :=
  ⟨h.readers, h.writers, h.exclusive, h.waiting, h.head, h.order, h.ascending,
    fun id hid => Nat.lt_succ_of_lt (h.fresh id hid)⟩

/-- Nobody holds the lock, and `dispatch` hands it on. -/
theorem consistent_of_dispatches {resolved : List RWMutexWaiter} {mutex : RWMutex}
    (h : m.mutex.Dispatches resolved mutex) (hwriter : m.mutex.writerActive = false)
    (hreaders : m.mutex.activeReaders = 0)
    (hwaiting : m.mutex.waitingWriters = m.mutex.waiters.countP (·.kind = .write))
    (horder : m.granted ++ m.mutex.waiters.map (·.id) = m.queued)
    (hascending : m.queued.Pairwise (· < ·)) (hfresh : ∀ id ∈ m.queued, id < m.next) :
    Consistent { m with
      mutex, holders := resolved, granted := m.granted ++ resolved.map (·.id) } := by
  cases h with
  | none hnil =>
    refine ⟨by simp [hreaders], by simp [hwriter], by simp [hwriter], hwaiting, by simp [hnil], ?_,
      hascending, hfresh⟩
    simpa using horder
  | writer id rest hrest =>
    rw [hrest] at hwaiting horder
    refine ⟨by simp [hreaders], by simp, by simp [hreaders], ?_, by simp, ?_, hascending, hfresh⟩
    · simp [hwaiting]
    · simpa using horder
  | readers _ rest hsplit hne hread hhead =>
    rw [hsplit] at hwaiting horder
    have hno : resolved.countP (·.kind = .write) = 0 := by
      rw [List.countP_eq_zero]
      intro w hw
      simp [hread w hw]
    have hall : resolved.countP (·.kind = .read) = resolved.length := by
      rw [List.countP_eq_length]
      intro w hw
      simp [hread w hw]
    refine ⟨hall, by simp [hwriter, hno], by simp [hwriter], ?_, ?_, ?_, hascending, hfresh⟩
    · simpa [hno] using hwaiting
    · exact fun _ w hw => ⟨hhead w hw, by simpa using hne⟩
    · simpa using horder

theorem length_holders (holders : List RWMutexWaiter) : holders.length
    = holders.countP (·.kind = .read) + holders.countP (·.kind = .write) := by
  induction holders with
  | nil => rfl
  | cons w holders ih =>
    obtain ⟨kind, id⟩ := w
    cases kind <;> simp [ih] <;> omega

theorem countP_of_mem {p : RWMutexWaiter → Bool} {w : RWMutexWaiter} {holders : List RWMutexWaiter}
    (hw : w ∈ holders) : holders.countP p = (holders.erase w).countP p + if p w then 1 else 0 := by
  rw [(List.perm_cons_erase hw).countP_eq, List.countP_cons]

theorem erase_eq_nil {w : RWMutexWaiter} (hw : w ∈ m.holders)
    (hone : m.holders.length = 1) : m.holders.erase w = [] := by
  rw [← List.length_eq_zero_iff, List.length_erase_of_mem hw, hone]

/-- Someone who writes is alone. -/
theorem Consistent.writer_alone (h : m.Consistent) {id : Nat} (hid : ⟨.write, id⟩ ∈ m.holders) :
    m.mutex.writerActive = true ∧ m.mutex.activeReaders = 0 ∧ m.holders.length = 1 := by
  have hpos : 0 < m.holders.countP (·.kind = .write) :=
    List.countP_pos_iff.mpr ⟨_, hid, by simp⟩
  have hactive : m.mutex.writerActive = true := by
    by_contra hno
    rw [h.writers, if_neg hno] at hpos
    exact Nat.lt_irrefl 0 hpos
  have hreaders := h.exclusive hactive
  refine ⟨hactive, hreaders, ?_⟩
  rw [length_holders, h.readers, h.writers, hreaders, if_pos hactive]

/-- Someone who reads is among readers. -/
theorem Consistent.reader_among (h : m.Consistent) {id : Nat} (hid : ⟨.read, id⟩ ∈ m.holders) :
    m.mutex.writerActive = false ∧ 0 < m.mutex.activeReaders
      ∧ m.holders.length = m.mutex.activeReaders := by
  have hpos : 0 < m.mutex.activeReaders := by
    rw [← h.readers]
    exact List.countP_pos_iff.mpr ⟨_, hid, by simp⟩
  have hactive : m.mutex.writerActive = false := by
    by_contra hyes
    have hzero := h.exclusive (by simpa using hyes)
    omega
  refine ⟨hactive, hpos, ?_⟩
  rw [length_holders, h.readers, h.writers, hactive]
  simp

/-! ## Steps -/

/-- One lets go. -/
def releases : RWStep → Nat
  | .unlock _ | .rUnlock _ => 1
  | _ => 0

/-- What a step does, in a consistent state. -/
inductive Does (m : RWLocks) : RWStep → RWLocks → Prop where
  | taken (act : RWStep) (kind : LockKind) (hact : releases act = 0) (hwriter : m.mutex.writerActive = false)
      (hfree : if kind = .write then m.mutex.activeReaders = 0 else m.mutex.waitingWriters = 0) :
      Does m act { m with
        mutex := { m.mutex with
          writerActive := decide (kind = .write)
          activeReaders := m.mutex.activeReaders + if kind = .read then 1 else 0 }
        holders := m.holders ++ [⟨kind, m.next⟩]
        next := m.next + 1 }
  | refused (act : RWStep) (hact : releases act = 0) : Does m act { m with next := m.next + 1 }
  | queued (act : RWStep) (kind : LockKind) (hact : releases act = 0)
      (hblocked : m.mutex.writerActive = true ∨ m.mutex.activeReaders ≠ 0)
      (hread : kind = .read → m.mutex.writerActive = true ∨ m.mutex.waitingWriters ≠ 0) :
      Does m act { m with
        mutex := { m.mutex with
          waitingWriters := m.mutex.waitingWriters + if kind = .write then 1 else 0
          waiters := m.mutex.waiters ++ [⟨kind, m.next⟩] }
        queued := m.queued ++ [m.next]
        next := m.next + 1 }
  /-- One reader of several lets go. -/
  | left (id : Nat) (hid : ⟨.read, id⟩ ∈ m.holders) (hmore : 1 < m.mutex.activeReaders) :
      Does m (.rUnlock id) { m with
        mutex := { m.mutex with activeReaders := m.mutex.activeReaders - 1 }
        holders := m.holders.erase ⟨.read, id⟩ }
  /-- The last one lets go. -/
  | handed (act : RWStep) (resolved : List RWMutexWaiter) (mutex : RWMutex)
      (hact : releases act = 1) (hone : m.holders.length = 1)
      (h : RWMutex.Dispatches { m.mutex with writerActive := false, activeReaders := 0 } resolved
        mutex) :
      Does m act { m with
        mutex, holders := resolved, granted := m.granted ++ resolved.map (·.id) }

theorem Consistent.does (h : m.Consistent) {act : RWStep} (hact : m.ByHolder act) :
    m.Does act (m.exec act) := by
  cases act with
  | lock =>
    simp only [exec, called, RWMutex.lock, RWMutex.tryLock]
    by_cases hfree : m.mutex.writerActive ∨ m.mutex.activeReaders ≠ 0
    · simpa [hfree] using Does.queued (m := m) .lock .write rfl hfree (by simp)
    · have hfree := not_or.mp hfree
      simp only [ne_eq, not_not, Bool.not_eq_true] at hfree
      simpa [hfree] using Does.taken (m := m) .lock .write rfl hfree.1 (by simpa using hfree.2)
  | tryLock =>
    simp only [exec, called, RWMutex.tryLock]
    by_cases hfree : m.mutex.writerActive ∨ m.mutex.activeReaders ≠ 0
    · simpa [hfree] using Does.refused (m := m) .tryLock rfl
    · have hfree := not_or.mp hfree
      simp only [ne_eq, not_not, Bool.not_eq_true] at hfree
      simpa [hfree] using Does.taken (m := m) .tryLock .write rfl hfree.1 (by simpa using hfree.2)
  | rLock =>
    simp only [exec, called, RWMutex.rLock, RWMutex.tryRLock]
    by_cases hfree : m.mutex.writerActive ∨ m.mutex.waitingWriters ≠ 0
    · have hblocked : m.mutex.writerActive = true ∨ m.mutex.activeReaders ≠ 0 := by
        by_contra hidle
        simp only [not_or, not_not, Bool.not_eq_true] at hidle
        have hnil := h.waiters_eq_nil hidle.1 hidle.2
        simp [hidle.1, h.waiting, hnil] at hfree
      simpa [hfree] using Does.queued (m := m) .rLock .read rfl hblocked fun _ => hfree
    · have hfree := not_or.mp hfree
      simp only [ne_eq, not_not, Bool.not_eq_true] at hfree
      simpa [hfree] using Does.taken (m := m) .rLock .read rfl hfree.1 (by simpa using hfree.2)
  | tryRLock =>
    simp only [exec, called, RWMutex.tryRLock]
    by_cases hfree : m.mutex.writerActive ∨ m.mutex.waitingWriters ≠ 0
    · simpa [hfree] using Does.refused (m := m) .tryRLock rfl
    · have hfree := not_or.mp hfree
      simp only [ne_eq, not_not, Bool.not_eq_true] at hfree
      simpa [hfree] using Does.taken (m := m) .tryRLock .read rfl hfree.1 (by simpa using hfree.2)
  | unlock id =>
    have hid : ⟨.write, id⟩ ∈ m.holders := hact
    obtain ⟨hactive, hreaders, hone⟩ := h.writer_alone hid
    have hdoes := Does.handed (m := m) (.unlock id) _ _ rfl hone
      (RWMutex.dispatches { m.mutex with writerActive := false, activeReaders := 0 } rfl rfl)
    simpa [exec, RWMutex.unlock, hactive, hreaders, released, erase_eq_nil hid hone] using hdoes
  | rUnlock id =>
    have hid : ⟨.read, id⟩ ∈ m.holders := hact
    obtain ⟨hactive, hpos, hlength⟩ := h.reader_among hid
    simp only [exec, RWMutex.rUnlock]
    rw [if_neg (by omega)]
    by_cases hlast : m.mutex.activeReaders = 1
    · have hdoes := Does.handed (m := m) (.rUnlock id) _ _ rfl (hlength.trans hlast)
        (RWMutex.dispatches { m.mutex with writerActive := false, activeReaders := 0 } rfl rfl)
      simpa [hactive, hlast, released, erase_eq_nil hid (hlength.trans hlast)] using hdoes
    · have hne : m.mutex.activeReaders - 1 ≠ 0 := by omega
      simpa [hne, released] using Does.left (m := m) id hid (by omega)

theorem Consistent.step (h : m.Consistent) {act : RWStep} {m' : RWLocks} (hdoes : m.Does act m') :
    m'.Consistent := by
  cases hdoes with
  | taken _ kind hact hwriter hfree => exact h.taken kind hwriter hfree
  | refused => exact h.refused
  | queued _ kind hact hblocked hread => exact h.queued kind hblocked hread
  | left id hid hmore =>
    obtain ⟨hactive, -, -⟩ := h.reader_among hid
    refine ⟨?_, ?_, ?_, h.waiting, ?_, h.order, h.ascending, h.fresh⟩
    · have hcount := h.readers
      rw [countP_of_mem hid] at hcount
      simp only [decide_true, if_true] at hcount
      exact Nat.eq_sub_of_add_eq hcount
    · have hcount := h.writers
      rw [countP_of_mem hid] at hcount
      simpa using hcount
    · simp [hactive]
    · intro _ w hw
      exact ⟨(h.head hactive w hw).1, by dsimp only; omega⟩
  | handed _ resolved mutex hact hone hd =>
    exact consistent_of_dispatches (m := { m with
      mutex := { m.mutex with writerActive := false, activeReaders := 0 } }) hd rfl rfl h.waiting h.order
      h.ascending h.fresh

theorem consistent_of_reach (h : rwMutex.Reach m) : m.Consistent := by
  refine h.invariant ?_ ?_
  · rintro m rfl
    exact consistent_initial
  · rintro m act m' - hm ⟨hact, rfl⟩
    exact hm.step (hm.does hact)

/-! ## Waiting -/

/-- How many are ahead of a call in the queue. -/
def ahead (id : Nat) : List RWMutexWaiter → Nat
  | [] => 0
  | w :: waiters => if w.id = id then 0 else ahead id waiters + 1

/-- How many are before a call: who holds the lock, and who is ahead. -/
def before (m : RWLocks) (id : Nat) : Nat := m.holders.length + ahead id m.mutex.waiters

/-- The call waits. -/
def Waits (m : RWLocks) (id : Nat) : Prop := ∃ w ∈ m.mutex.waiters, w.id = id

/-- Steps through which a call waits, and how many have let go in them. -/
inductive Waiting (id : Nat) : RWLocks → Nat → RWLocks → Prop where
  | start {m : RWLocks} (hid : m.Waits id) : Waiting id m 0 m
  | step {m m' m'' : RWLocks} {n : Nat} {act : RWStep} (h : Waiting id m n m')
      (hstep : rwMutex.step m' act m'') (hid : m''.Waits id) : Waiting id m (n + releases act) m''

theorem ahead_concat {id : Nat} {waiters : List RWMutexWaiter} (hid : ∃ w ∈ waiters, w.id = id)
    (last : RWMutexWaiter) : ahead id (waiters ++ [last]) = ahead id waiters := by
  induction waiters with
  | nil => simp at hid
  | cons w waiters ih =>
    rw [List.cons_append, ahead, ahead]
    split
    · rfl
    · rename_i hw
      rw [ih (by simpa [hw] using hid)]

theorem ahead_append {id : Nat} {front rest : List RWMutexWaiter} (hfront : ∀ w ∈ front, w.id ≠ id) :
    ahead id (front ++ rest) = front.length + ahead id rest := by
  induction front with
  | nil => simp
  | cons w front ih =>
    rw [List.cons_append, ahead, if_neg (hfront w List.mem_cons_self),
      ih fun v hv => hfront v (List.mem_cons_of_mem _ hv), List.length_cons]
    omega

/-- Who is in the queue is in it once. -/
theorem Consistent.ids_ascend (h : m.Consistent) :
    (m.mutex.waiters.map (·.id)).Pairwise (· < ·) := by
  have hall := h.ascending
  rw [← h.order] at hall
  exact (List.pairwise_append.mp hall).2.1

/-- While a call waits the lock is held. -/
theorem Consistent.held (h : m.Consistent) (hne : m.mutex.waiters ≠ []) : 0 < m.holders.length := by
  rw [length_holders, h.readers, h.writers]
  cases hwriter : m.mutex.writerActive with
  | true => simp
  | false =>
    obtain ⟨w, rest, hw⟩ := List.exists_cons_of_ne_nil hne
    obtain ⟨-, hreaders⟩ := h.head hwriter w (by rw [hw]; rfl)
    omega

theorem Waits.ne_nil {id : Nat} (h : m.Waits id) : m.mutex.waiters ≠ [] := by
  obtain ⟨w, hw, -⟩ := h
  exact List.ne_nil_of_mem hw

/-- Nobody overtakes: what is before a waiter goes down by one with each
release, and by nothing else. -/
theorem Consistent.before_step (h : m.Consistent) {act : RWStep} {m' : RWLocks}
    (hdoes : m.Does act m') {id : Nat} (hid : m.Waits id) (hid' : m'.Waits id) :
    m'.before id + releases act = m.before id := by
  cases hdoes with
  | taken _ kind hact hwriter hfree =>
    obtain ⟨w, rest, hw⟩ := List.exists_cons_of_ne_nil hid.ne_nil
    obtain ⟨hwrite, hreaders⟩ := h.head hwriter w (by rw [hw]; rfl)
    have hwaiting : m.mutex.waitingWriters ≠ 0 := by simp [h.waiting, hw, hwrite]
    cases kind with
    | read => exact absurd hfree hwaiting
    | write => exact absurd hfree hreaders
  | refused _ hact =>
    rw [hact]
    rfl
  | queued _ kind hact hblocked hread =>
    rw [hact]
    exact congrArg (m.holders.length + ·) (ahead_concat hid _)
  | left i hi hmore =>
    have hlength := List.length_erase_of_mem hi
    have hpos : 0 < m.holders.length := List.length_pos_of_mem hi
    simp only [before, releases, hlength]
    omega
  | handed _ resolved mutex hact hone hd =>
    rw [hact]
    have hsplit : m.mutex.waiters = resolved ++ mutex.waiters := by
      cases hd with
      | none hnil => rfl
      | writer i rest hrest => exact hrest
      | readers granted rest hsplit _ _ _ => exact hsplit
    have hascend := h.ids_ascend
    rw [hsplit, List.map_append, List.pairwise_append] at hascend
    have hfront : ∀ w ∈ resolved, w.id ≠ id := by
      intro w hw heq
      obtain ⟨v, hv, hvid⟩ := hid'
      have hlt := hascend.2.2 w.id (List.mem_map_of_mem hw) v.id (List.mem_map_of_mem hv)
      omega
    simp only [before, hsplit, ahead_append hfront, hone]
    omega

/-- While a call waits, fewer let go than were before it. -/
theorem Waiting.bound {id : Nat} {m m' : RWLocks} {n : Nat} (h : Waiting id m n m')
    (hm : m.Consistent) : m'.Consistent ∧ m'.Waits id ∧ m'.before id + n = m.before id := by
  induction h with
  | start hid => exact ⟨hm, hid, rfl⟩
  | step h hstep hid' ih =>
    obtain ⟨hm', hid, hbefore⟩ := ih
    obtain ⟨hact, rfl⟩ := hstep
    have hdoes := hm'.does hact
    have hnext := hm'.before_step hdoes hid hid'
    exact ⟨hm'.step hdoes, hid', by omega⟩

/-! ## The lock -/

/-- What the lock is good for. -/
structure Exclusive (m : RWLocks) : Prop where
  /-- A writer holds it alone. -/
  writer : ∀ id, ⟨.write, id⟩ ∈ m.holders → m.holders = [⟨.write, id⟩]
  /-- Who has waited was granted the lock or waits, once and in order. -/
  order : m.granted ++ m.mutex.waiters.map (·.id) = m.queued ∧ m.queued.Nodup
  /-- A queued writer blocks later readers. -/
  blocks : (∃ w ∈ m.mutex.waiters, w.kind = .write) →
    m.mutex.tryRLock.1 = false ∧ ∀ id, (m.mutex.rLock id).1 = false
  /-- It is not idle while a call waits. -/
  busy : m.mutex.waiters ≠ [] → m.holders ≠ []
  /-- A waiter is granted the lock before as many have let go as were
  before it. -/
  bounded : ∀ id n m', Waiting id m n m' → n < m.before id
  /-- A holder can let go. -/
  unlocks : ∀ act, m.ByHolder act → ∀ id,
    (act = .unlock id → ∃ outcome, m.mutex.unlock = .ok outcome)
      ∧ (act = .rUnlock id → ∃ outcome, m.mutex.rUnlock = .ok outcome)

/-- **In every state some order of calls leads to**, a writer is alone, the
queue is served in order, and no waiter is forgotten. -/
theorem exclusive_of_reach (h : rwMutex.Reach m) : m.Exclusive := by
  have hm := consistent_of_reach h
  refine ⟨?_, ⟨hm.order, hm.ascending.imp Nat.ne_of_lt⟩, ?_, ?_, ?_, ?_⟩
  · intro id hid
    obtain ⟨-, -, hone⟩ := hm.writer_alone hid
    obtain ⟨w, hw⟩ := List.length_eq_one_iff.mp hone
    rw [hw] at hid ⊢
    rw [List.mem_singleton.mp hid]
  · rintro ⟨w, hw, hwrite⟩
    have hwaiting : m.mutex.waitingWriters ≠ 0 := by
      rw [hm.waiting, ← Nat.pos_iff_ne_zero]
      exact List.countP_pos_iff.mpr ⟨w, hw, by simpa using hwrite⟩
    have hrefused : m.mutex.tryRLock = (false, m.mutex) := by simp [RWMutex.tryRLock, hwaiting]
    exact ⟨by rw [hrefused], fun id => by simp only [RWMutex.rLock, hrefused]⟩
  · intro hne hnil
    have hheld := hm.held hne
    simp [hnil] at hheld
  · intro id n m' hwaiting
    obtain ⟨hm', hid, hbefore⟩ := hwaiting.bound hm
    have hheld := hm'.held hid.ne_nil
    have hpos : m'.holders.length ≤ m'.before id := Nat.le_add_right _ _
    omega
  · intro act hact id
    refine ⟨?_, ?_⟩
    · rintro rfl
      obtain ⟨hactive, -, -⟩ := hm.writer_alone hact
      exact ⟨_, by simp only [RWMutex.unlock, hactive]; rfl⟩
    · rintro rfl
      obtain ⟨-, hpos, -⟩ := hm.reader_among hact
      simp only [RWMutex.rUnlock]
      rw [if_neg (by omega)]
      split <;> exact ⟨_, rfl⟩

/-- A reader, a writer and a reader behind it; the first lets go. -/
theorem exclusive_of_reach_handed :
    (((({} : RWLocks).exec .rLock).exec .lock).exec .rLock |>.exec (.rUnlock 0)).holders
        = [⟨.write, 1⟩]
      ∧ (((({} : RWLocks).exec .rLock).exec .lock).exec .rLock |>.exec (.rUnlock 0)).Exclusive := by
  refine ⟨by decide, exclusive_of_reach ?_⟩
  have hstart : rwMutex.Reach {} := .start rfl
  have hread : rwMutex.Reach (({} : RWLocks).exec .rLock) :=
    hstart.step (l := .rLock) (show True ∧ _ from ⟨trivial, rfl⟩)
  have hwrite : rwMutex.Reach ((({} : RWLocks).exec .rLock).exec .lock) :=
    hread.step (l := .lock) (show True ∧ _ from ⟨trivial, rfl⟩)
  have hbehind : rwMutex.Reach (((({} : RWLocks).exec .rLock).exec .lock).exec .rLock) :=
    hwrite.step (l := .rLock) (show True ∧ _ from ⟨trivial, rfl⟩)
  have hheld : (((({} : RWLocks).exec .rLock).exec .lock).exec .rLock).ByHolder (.rUnlock 0) := by
    show _ ∈ _
    decide
  exact hbehind.step (l := .rUnlock 0) ⟨hheld, rfl⟩

end RWLocks

end Webernetes.Go
