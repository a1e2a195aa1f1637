/-
Webernetes.Clock — `Clock`: timers and microtasks against a clock that can
be stepped.

The callbacks are programs of their own: `Script` is what a callback does
with the clock, and `body` says which one runs under a callback's name, on
the state of the rest of the program. A script may never end the work of a
step (timers that arm each other without a delay), so the loops take fuel.

The timer table carries that it is in order: a timer that is in it was
armed under its own handle, and is not cleared.
-/
import Webernetes.Js.OrderedMap
import Mathlib.Data.Prod.Lex
import Mathlib.Data.Rat.Defs
import Mathlib.Algebra.Order.Ring.Rat

namespace Webernetes

open Js

/-! ## Timers -/

structure Task (κ : Type) where
  handle : Nat
  callback : κ
  dueAtMs : ℚ
  intervalMs : Option ℚ := none

variable {κ σ : Type}

/-- Due times first, then the order of scheduling. -/
def Task.key (task : Task κ) : Lex (ℚ × Nat) := toLex (task.dueAtMs, task.handle)

/-- The timers, by their handles; `cancelled` lists those whose flag is set. -/
structure Timers (κ : Type) where
  nextHandle : Nat
  tasks : JsMap Nat (Task κ)
  cancelled : List Nat
  armed : ∀ handle task, tasks.get handle = some task →
    task.handle = handle ∧ handle < nextHandle ∧ handle ∉ cancelled
      ∧ ∀ intervalMs, task.intervalMs = some intervalMs → 0 < intervalMs
  cancelled_lt : ∀ handle ∈ cancelled, handle < nextHandle

namespace Timers

variable (t : Timers κ)

def init : Timers κ where
  nextHandle := 1
  tasks := .empty
  cancelled := []
  armed := by simp
  cancelled_lt := by simp

/-- A timer under the next handle. -/
def add (task : Task κ) (hhandle : task.handle = t.nextHandle)
    (hpos : ∀ intervalMs, task.intervalMs = some intervalMs → 0 < intervalMs) : Timers κ where
  nextHandle := t.nextHandle + 1
  tasks := t.tasks.set t.nextHandle task
  cancelled := t.cancelled
  armed handle task' h := by
    rw [JsMap.get_set] at h
    split at h
    · rename_i hsame
      cases h
      subst hsame
      exact ⟨hhandle, Nat.lt_succ_self _,
        fun hmem => Nat.lt_irrefl _ (t.cancelled_lt t.nextHandle hmem), hpos⟩
    · obtain ⟨hsame, hlt, hrest⟩ := t.armed handle task' h
      exact ⟨hsame, Nat.lt_succ_of_lt hlt, hrest⟩
  cancelled_lt handle h := Nat.lt_succ_of_lt (t.cancelled_lt handle h)

/-- The timer is no longer in the table. -/
def delete (handle : Nat) : Timers κ where
  nextHandle := t.nextHandle
  tasks := t.tasks.delete handle
  cancelled := t.cancelled
  armed handle' task h := by
    rw [JsMap.get_delete] at h
    split at h
    · cases h
    · exact t.armed handle' task h
  cancelled_lt := t.cancelled_lt

/-- `clearTimeout`. -/
def clearTimeout (handle : Nat) : Timers κ :=
  match h : t.tasks.get handle with
  | none => t
  | some _ =>
    { nextHandle := t.nextHandle
      tasks := t.tasks.delete handle
      cancelled := handle :: t.cancelled
      armed := fun handle' task h' => by
        rw [JsMap.get_delete] at h'
        split at h'
        · cases h'
        · rename_i hne
          obtain ⟨hsame, hlt, hnot, hpos⟩ := t.armed handle' task h'
          exact ⟨hsame, hlt, by simp [hne, hnot], hpos⟩
      cancelled_lt := fun handle' h' => by
        obtain rfl | h' := List.mem_cons.mp h'
        · exact (t.armed handle' _ h).2.1
        · exact t.cancelled_lt handle' h' }

/-- What is done with a timer after its callback: it goes, or is due again
one interval later. -/
def settle (handle : Nat) : Timers κ :=
  match h : t.tasks.get handle with
  | none => t
  | some task =>
    match hinterval : task.intervalMs with
    | none => t.delete handle
    | some intervalMs =>
      if handle ∈ t.cancelled then t.delete handle
      else
        { nextHandle := t.nextHandle
          tasks := t.tasks.set handle { task with dueAtMs := task.dueAtMs + intervalMs }
          cancelled := t.cancelled
          armed := fun handle' task' h' => by
            rw [JsMap.get_set] at h'
            split at h'
            · rename_i hsame
              cases h'
              subst hsame
              exact t.armed handle' task h
            · exact t.armed handle' task' h'
          cancelled_lt := t.cancelled_lt }

/-- The one of two that is due first. -/
def earlier (task : Task κ) : Option (Task κ) → Option (Task κ)
  | none => some task
  | some next =>
    if task.dueAtMs < next.dueAtMs ∨ task.dueAtMs = next.dueAtMs ∧ task.handle < next.handle then
      some task
    else some next

def nextDueTask (targetMs : ℚ) : Option (Task κ) :=
  t.tasks.values.foldl (fun next task =>
    if task.handle ∈ t.cancelled ∨ task.dueAtMs > targetMs then next else earlier task next) none

end Timers

/-! ## Clocks -/

/-- What happens on a clock. -/
inductive Event (κ : Type) where
  | armed (task : Task κ)
  | cleared (handle : Nat)
  | ran (handle : Nat) (nowMs : ℚ)
  | microtask (nowMs : ℚ)
  | reached (targetMs : ℚ)

/-- A clock, and what has happened on it. -/
structure Clock (κ : Type) where
  timers : Timers κ := .init
  microtasks : List κ := []
  flushingMicrotasks : Bool := false
  paused : Bool := false
  wallStartedAtMs : ℚ
  simulatedNowMs : ℚ
  log : List (Event κ) := []

/-- What a callback does with the clock, and the state of the rest of the
program that it leaves. An interval that is not positive is an error of the
call, which the callback may catch. -/
inductive Script (κ σ : Type) where
  | returns (s : σ)
  | throws (s : σ)
  | nowMs (next : ℚ → Script κ σ)
  | setTimeout (callback : κ) (delayMs : ℚ) (next : Nat → Script κ σ)
  | setInterval (callback : κ) (intervalMs : ℚ) (next : Option Nat → Script κ σ)
  | clearTimeout (handle : Nat) (next : Script κ σ)
  | clear (next : Script κ σ)
  | queueMicrotask (callback : κ) (next : Script κ σ)

namespace Clock

variable (c : Clock κ)

/-- `nowMs`, where `Date.now()` is `dateNow`. -/
def nowMs (dateNow : ℚ) : ℚ :=
  if c.paused then c.simulatedNowMs else c.simulatedNowMs + (dateNow - c.wallStartedAtMs)

def arm (task : Task κ) (hhandle : task.handle = c.timers.nextHandle)
    (hpos : ∀ intervalMs, task.intervalMs = some intervalMs → 0 < intervalMs) : Clock κ :=
  { c with timers := c.timers.add task hhandle hpos, log := c.log ++ [.armed task] }

def setTimeout (dateNow : ℚ) (callback : κ) (delayMs : ℚ) : Clock κ :=
  c.arm { handle := c.timers.nextHandle, callback, dueAtMs := c.nowMs dateNow + max 0 delayMs } rfl
    (by simp)

/-- `setInterval`, of an interval that is positive. -/
def setInterval (dateNow : ℚ) (callback : κ) (intervalMs : ℚ) (hpos : 0 < intervalMs) : Clock κ :=
  c.arm { handle := c.timers.nextHandle, callback, dueAtMs := c.nowMs dateNow + intervalMs,
          intervalMs := some intervalMs } rfl (by simpa using hpos)

def clearTimeout (handle : Nat) : Clock κ :=
  if c.timers.tasks.contains handle then
    { c with timers := c.timers.clearTimeout handle, log := c.log ++ [.cleared handle] }
  else c

def clear : Clock κ := { c.timers.tasks.keys.foldl clearTimeout c with microtasks := [] }

/-- The clock a script leaves, the state, and whether it threw. -/
def exec (dateNow : ℚ) : Clock κ → Script κ σ → Clock κ × σ × Bool
  | c, .returns s => (c, s, false)
  | c, .throws s => (c, s, true)
  | c, .nowMs next => exec dateNow c (next (c.nowMs dateNow))
  | c, .setTimeout callback delayMs next =>
    exec dateNow (c.setTimeout dateNow callback delayMs) (next c.timers.nextHandle)
  | c, .setInterval callback intervalMs next =>
    if h : intervalMs ≤ 0 then exec dateNow c (next none)
    else
      exec dateNow (c.setInterval dateNow callback intervalMs (not_le.mp h))
        (next (some c.timers.nextHandle))
  | c, .clearTimeout handle next => exec dateNow (c.clearTimeout handle) next
  | c, .clear next => exec dateNow c.clear next
  | c, .queueMicrotask callback next =>
    exec dateNow { c with microtasks := c.microtasks ++ [callback] } next

variable (body : κ → σ → Script κ σ)

/-- The loop of `flushMicrotasks(true)`; no result where the fuel runs out. -/
def drain (dateNow : ℚ) : Nat → Clock κ → σ → Option (Clock κ × σ × Bool)
  | 0, _, _ => none
  | fuel + 1, c, s =>
    match c.microtasks with
    | [] => some (c, s, false)
    | callback :: rest =>
      let started :=
        { c with microtasks := rest, log := c.log ++ [Event.microtask (c.nowMs dateNow)] }
      match started.exec dateNow (body callback s) with
      | (c, s, true) => some (c, s, true)
      | (c, s, false) => drain dateNow fuel c s

/-- `flushMicrotasks(true)`, and whether a microtask threw. -/
def flushMicrotasks (dateNow : ℚ) (fuel : Nat) (s : σ) : Option (Clock κ × σ × Bool) :=
  if c.flushingMicrotasks then some (c, s, false)
  else
    (drain body dateNow fuel { c with flushingMicrotasks := true } s).map fun (c, s, threw) =>
      ({ c with flushingMicrotasks := false }, s, threw)

/-- The callback of a timer that is due, and the microtasks after it; what
throws ends both, and is caught. -/
def runTask (dateNow : ℚ) (fuel : Nat) (s : σ) (task : Task κ) : Option (Clock κ × σ) :=
  let started := { c with log := c.log ++ [Event.ran task.handle (c.nowMs dateNow)] }
  match started.exec dateNow (body task.callback s) with
  | (c, s, true) => some (c, s)
  | (c, s, false) => (c.flushMicrotasks body dateNow fuel s).map fun (c, s, _) => (c, s)

/-- The loop of `step`. -/
def runDue (dateNow targetMs : ℚ) : Nat → Clock κ → σ → Option (Clock κ × σ)
  | 0, _, _ => none
  | fuel + 1, c, s =>
    match c.timers.nextDueTask targetMs with
    | none => some (c, s)
    | some task =>
      let c := { c with simulatedNowMs := task.dueAtMs }
      if task.handle ∈ c.timers.cancelled then
        runDue dateNow targetMs fuel { c with timers := c.timers.delete task.handle } s
      else
        match c.runTask body dateNow fuel s task with
        | none => none
        | some (c, s) =>
          runDue dateNow targetMs fuel { c with timers := c.timers.settle task.handle } s

/-- `step`, once the target is known. -/
def stepTo (targetMs dateNow dateNow' : ℚ) (fuel : Nat) (s : σ) :
    Option (Clock κ × σ × Bool) :=
  let started := { c with simulatedNowMs := c.nowMs dateNow, paused := true }
  match started.runDue body dateNow targetMs fuel s with
  | none => none
  | some (ran, s) =>
    let ran := { ran with simulatedNowMs := targetMs, log := ran.log ++ [Event.reached targetMs] }
    (ran.flushMicrotasks body dateNow fuel s).map fun (flushed, s, threw) =>
      if c.paused then (flushed, s, threw)
      else ({ flushed with paused := false, wallStartedAtMs := dateNow' }, s, threw)

/-- `step`, and whether it throws; `dateNow` is read at the start,
`dateNow'` at the end. -/
def step (ms dateNow dateNow' : ℚ) (fuel : Nat) (s : σ) : Option (Clock κ × σ × Bool) :=
  if ms < 0 then some (c, s, true)
  else c.stepTo body (c.nowMs dateNow + ms) dateNow dateNow' fuel s

end Clock

end Webernetes
