/-
Webernetes.ClientGo.DelayingQueue — `Delaying`: `add`, `addAfter` and the
waiting loop.

`addAfter` and the loop wait on channels, so what happens is a matter of
order: the clock moves on, timers fire, calls are made, and the loop takes its
next step whenever its turn comes (`DelayingStep`). A request is known by its
number. `log` records what was asked and what became of it; only `added`,
`overdue` and `ready` are calls of `queue.add`.

Of the channels the loop selects from there is what decides its choice: a tick
that waits in `heartbeat.C` or in the timer's channel, and the values and
blocked senders of `waitingForAddCh`. The queue is never shut down.
-/
import Webernetes.Base.Transition
import Webernetes.ClientGo.WaitForQueue

namespace Webernetes.ClientGo

open Js Go Base

/-- What the loop's select answers. -/
inductive Selected where
  | heartbeat
  | ready
  | entry (ref : Nat)
  deriving DecidableEq

inductive LoopState where
  | top
  /-- What was due at `now` was taken; the timer is to be set. -/
  | arm (now : Time)
  /-- The select is about to look for a ready case; whether the timer is one
  of its cases. -/
  | select (nextReadyAt : Bool)
  | blocked (nextReadyAt : Bool)
  | selected (answer : Selected)
  /-- The loop of `tryReceive`. -/
  | drain
  deriving DecidableEq

structure Timer where
  dueAt : ℚ
  active : Bool := true
  tick : Bool := false
  deriving DecidableEq

inductive DelayEvent (T : Type) where
  /-- `add`, or `addAfter` without a delay. -/
  | added (item : T)
  | requested (item : T) (readyAt : Time)
  /-- The loop received the request in time, and inserted it. -/
  | kept (ref : Nat) (item : T) (at_ : ℚ)
  /-- The loop received the request when it was due, and added the item. -/
  | overdue (ref : Nat) (item : T) (readyAt : Time) (at_ : ℚ)
  /-- The loop took the entry of the item, and added it. -/
  | ready (item : T) (readyAt : Time) (at_ : ℚ)
  deriving DecidableEq

structure Delaying (T : Type) where
  /-- `clock.nowMs()`. -/
  nowMs : ℚ
  waitingForQueue : WaitForPriorityQueue T := {}
  waitingEntryByData : JsMap T Nat := .empty
  /-- Requests whose select has yet to look for a ready case. -/
  offers : List Nat := []
  /-- `waitingForAddCh`. -/
  values : List Nat := []
  senders : List Nat := []
  heartbeat : Bool := false
  nextReadyAtTimer : Option Timer := none
  loop : LoopState := .top
  log : List (DelayEvent T) := []

namespace Delaying

variable {T : Type} (w : Delaying T)

/-- `clock.now()`. -/
def now : Time := timeClip (.finite w.nowMs)

/-- `waitingForAddCh` is made with this capacity. -/
def capacity : Nat := 1000

/-- A call of `queue.add`, or a request. -/
def record (event : DelayEvent T) : Delaying T := { w with log := w.log ++ [event] }

def addAfter (item : T) (durationMs : Number) : Delaying T :=
  if durationMs.nonPositive then w.record (.added item)
  else
    let readyAt := timeClip (durationMs.add w.nowMs)
    { w.record (.requested item readyAt) with
      waitingForQueue := { w.waitingForQueue with
        objects := w.waitingForQueue.objects ++ [{ data := item, readyAt }] }
      offers := w.offers ++ [w.waitingForQueue.objects.length] }

/-- The select of `addAfter`. A loop that is blocked receives at once. -/
def offer (ref : Nat) : Delaying T :=
  let w := { w with offers := w.offers.erase ref }
  match w.loop with
  | .blocked _ => { w with loop := .selected (.entry ref) }
  | _ =>
    if w.values.length < capacity then { w with values := w.values ++ [ref] }
    else { w with senders := w.senders ++ [ref] }

/-- `tryReceive` of `waitingForAddCh`, with `drainSender`. -/
def tryReceive : Option (Nat × Delaying T) :=
  match w.values, w.senders with
  | ref :: values, sender :: senders =>
    if values.length < capacity then
      some (ref, { w with values := values ++ [sender], senders })
    else some (ref, { w with values })
  | ref :: values, [] => some (ref, { w with values })
  | [], ref :: senders => some (ref, { w with senders })
  | [], [] => none

/-- The heartbeat's interval has passed. -/
def tick : Delaying T :=
  match w.loop with
  | .blocked _ => { w with loop := .selected .heartbeat }
  | _ => { w with heartbeat := true }

/-- The timer's delay has passed. -/
def fire (timer : Timer) : Delaying T :=
  match w.loop with
  | .blocked true =>
    { w with nextReadyAtTimer := some { timer with active := false }, loop := .selected .ready }
  | _ => { w with nextReadyAtTimer := some { timer with active := false, tick := true } }

variable [DecidableEq T]

/-- What the loop does with a request it received. -/
def receive (ref : Nat) : Delaying T :=
  match w.waitingForQueue.objects[ref]? with
  | none => w
  | some entry =>
    if Time.after entry.readyAt w.now then
      let (waitingForQueue, waitingEntryByData) :=
        insert w.waitingForQueue w.waitingEntryByData ref
      { w.record (.kept ref entry.data w.nowMs) with waitingForQueue, waitingEntryByData }
    else w.record (.overdue ref entry.data entry.readyAt w.nowMs)

/-- The loop over what is due at `now`; `fuel` is the number of entries, and
each turn takes one. -/
def popDue (now : Time) : Nat → Delaying T → Delaying T
  | 0, w => w
  | fuel + 1, w =>
    match w.waitingForQueue.peek, Heap.pop (waitForHeap T) w.waitingForQueue with
    | some first, some (ref, waitingForQueue) =>
      if Time.after first.readyAt now then w
      else
        match w.waitingForQueue.objects[ref]? with
        | none => w
        | some entry =>
          popDue now fuel { w.record (.ready entry.data entry.readyAt w.nowMs) with
            waitingForQueue
            waitingEntryByData := w.waitingEntryByData.delete entry.data }
    | _, _ => w

def arm (now : Time) : Delaying T :=
  match w.waitingForQueue.peek with
  | none => { w with loop := .select false }
  | some entry =>
    let delay : ℚ := match entry.readyAt, now with
      | some readyAt, some now => readyAt - now
      | _, _ => 0
    { w with nextReadyAtTimer := some { dueAt := w.nowMs + max 0 delay }, loop := .select true }

/-- The cases of the loop's select that are ready. -/
def readyCases (nextReadyAt : Bool) : List (Selected × Delaying T) :=
  (if w.heartbeat then [(.heartbeat, { w with heartbeat := false })] else [])
  ++ (match w.nextReadyAtTimer with
    | some timer =>
      if nextReadyAt && timer.tick then
        [(.ready, { w with nextReadyAtTimer := some { timer with tick := false } })]
      else []
    | none => [])
  ++ (match w.tryReceive with
    | some (ref, w) => [(.entry ref, w)]
    | none => [])

/-- The next step of the loop; `random` stands for `Math.random()`. -/
def step (random : Nat) : Delaying T :=
  match w.loop with
  | .top =>
    let now := w.now
    { w.popDue now w.waitingForQueue.entries.length with loop := .arm now }
  | .arm now => w.arm now
  | .select nextReadyAt =>
    let cases := w.readyCases nextReadyAt
    match cases[random % cases.length]? with
    | some (answer, w) => { w with loop := .selected answer }
    | none => { w with loop := .blocked nextReadyAt }
  | .blocked _ => w
  | .selected (.entry ref) => { w.receive ref with loop := .drain }
  | .selected _ => { w with loop := .top }
  | .drain =>
    match w.tryReceive with
    | some (ref, w) => w.receive ref
    | none => { w with loop := .top }

end Delaying

inductive DelayingStep (T : Type) where
  | add (item : T)
  | addAfter (item : T) (durationMs : Number)
  | offer (ref : Nat)
  | advance (ms : ℚ)
  | tick
  | fire
  | loop (random : Nat)
  deriving DecidableEq

/-- A step that is not due changes nothing. -/
def Delaying.exec {T : Type} [DecidableEq T] (w : Delaying T) : DelayingStep T → Delaying T
  | .add item => w.record (.added item)
  | .addAfter item durationMs => w.addAfter item durationMs
  | .offer ref => if ref ∈ w.offers then w.offer ref else w
  | .advance ms => if 0 ≤ ms then { w with nowMs := w.nowMs + ms } else w
  | .tick => w.tick
  | .fire =>
    match w.nextReadyAtTimer with
    | some timer => if timer.active ∧ timer.dueAt ≤ w.nowMs then w.fire timer else w
    | none => w
  | .loop random => w.step random

/-- Every order of calls, of the passing of time and of the loop's steps. -/
def delaying (T : Type) [DecidableEq T] : System (Delaying T) (DelayingStep T) where
  init w := ∃ nowMs, 0 ≤ nowMs ∧ w = { nowMs }
  step w act w' := w' = w.exec act

end Webernetes.ClientGo
