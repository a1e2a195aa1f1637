/-
Webernetes.Go.Channel — `Channel` and `Channel.select`.

A call of `send`, `receive` or `select` that blocks leaves a `Waiter` in
the queues of its channels. `settle` is what ends a call: the first answer
counts, and a select withdraws its other waiters. Calls are numbered in
the order they are made, which is the order the queues keep.

`Channels` is all channels and all calls. `close` takes the blocked
receivers out of their queue and calls them one by one; since a handler
that runs in between may use any channel, each such turn is a step of its
own (`notify`). What a handler of a select does counts as later steps.
`log` records how each call ended.
-/
import Webernetes.Base.Transition
import Webernetes.Js.Text

namespace Webernetes.Go

open Js Base

variable {α : Type}

/-! ## Channels -/

/-- A blocked call, and which of its cases waits. -/
structure Waiter where
  call : Nat
  index : Nat := 0
  deriving DecidableEq

structure PendingSender (α : Type) where
  value : α
  waiter : Waiter
  deriving DecidableEq

structure Channel (α : Type) where
  capacity : Nat
  values : List α := []
  receivers : List Waiter := []
  senders : List (PendingSender α) := []
  closed : Bool := false
  /-- The receivers that `close` took and has yet to call. -/
  closing : List Waiter := []
  deriving DecidableEq

namespace Channel

def canReceive (channel : Channel α) : Bool :=
  !channel.values.isEmpty || !channel.senders.isEmpty || channel.closed

def canSend (channel : Channel α) : Bool :=
  !channel.closed &&
    (!channel.receivers.isEmpty || decide (channel.values.length < channel.capacity))

end Channel

inductive SelectCase (α : Type) where
  | receive (channel : Option Nat)
  | send (channel : Option Nat) (value : α)
  deriving DecidableEq

/-- A place in a queue of a channel. -/
inductive Slot where
  | receiver (channel : Nat) (waiter : Waiter)
  | sender (channel : Nat) (waiter : Waiter)
  deriving DecidableEq

def Slot.waiter : Slot → Waiter
  | receiver _ waiter => waiter
  | sender _ waiter => waiter

/-- A call: whether it was answered, where it waits, and whether an answer
withdraws it from there, as for a select. -/
structure Call where
  selected : Bool := false
  cancels : Bool := false
  waits : List Slot := []
  deriving DecidableEq

/-- How a call ended; a `received` without a value is `ok: false`. -/
inductive Event (α : Type) where
  | sent (channel : Nat) (waiter : Waiter) (value : α)
  | received (channel : Nat) (waiter : Waiter) (result : Option α)
  | failed (call : Nat) (error : JsString)
  | refused (call : Nat)
  | defaulted (call : Nat)
  | closed (channel : Nat) (call : Nat)
  deriving DecidableEq

def Event.call : Event α → Nat
  | sent _ waiter _ => waiter.call
  | received _ waiter _ => waiter.call
  | failed call _ => call
  | refused call => call
  | defaulted call => call
  | closed _ call => call

structure Channels (α : Type) where
  channel : Nat → Channel α
  calls : List Call := []
  log : List (Event α) := []

namespace Channels

def update (w : Channels α) (c : Nat) (f : Channel α → Channel α) : Channels α :=
  { w with channel := Function.update w.channel c (f (w.channel c)) }

def cancel (w : Channels α) : Slot → Channels α
  | .receiver c waiter => w.update c fun ch => { ch with receivers := ch.receivers.erase waiter }
  | .sender c waiter =>
    w.update c fun ch => { ch with senders := ch.senders.eraseP fun s => s.waiter = waiter }

/-- `settle` and `fail` of a select, `resolve` and `reject` of a plain call. -/
def settle (w : Channels α) (call : Nat) (event : Event α) : Channels α :=
  match w.calls[call]? with
  | none => w
  | some record =>
    if record.selected then w
    else
      let w := { w with calls := w.calls.set call { record with selected := true } }
      let w := if record.cancels then record.waits.foldl cancel w else w
      { w with log := w.log ++ [event] }

def sendOnClosed : JsString := js "send on closed channel"

def trySend (w : Channels α) (c : Nat) (value : α) : Except JsString (Bool × Channels α) :=
  if (w.channel c).closed then .error sendOnClosed
  else
    match (w.channel c).receivers with
    | receiver :: receivers =>
      let w := w.update c fun ch => { ch with receivers }
      .ok (true, w.settle receiver.call (.received c receiver (some value)))
    | [] =>
      if (w.channel c).values.length ≥ (w.channel c).capacity then .ok (false, w)
      else .ok (true, w.update c fun ch => { ch with values := ch.values ++ [value] })

def drainSender (w : Channels α) (c : Nat) : Channels α :=
  if (w.channel c).closed then w
  else
    match (w.channel c).senders, (w.channel c).receivers with
    | [], _ => w
    | sender :: senders, receiver :: receivers =>
      let w := w.update c fun ch => { ch with senders, receivers }
      let w := w.settle sender.waiter.call (.sent c sender.waiter sender.value)
      w.settle receiver.call (.received c receiver (some sender.value))
    | sender :: senders, [] =>
      if (w.channel c).values.length < (w.channel c).capacity then
        let w := w.update c fun ch => { ch with senders, values := ch.values ++ [sender.value] }
        w.settle sender.waiter.call (.sent c sender.waiter sender.value)
      else w

def tryReceive (w : Channels α) (c : Nat) : Option (Option α) × Channels α :=
  match (w.channel c).values, (w.channel c).senders with
  | value :: values, _ =>
    (some (some value), (w.update c fun ch => { ch with values }).drainSender c)
  | [], sender :: senders =>
    let w := w.update c fun ch => { ch with senders }
    (some (some sender.value), w.settle sender.waiter.call (.sent c sender.waiter sender.value))
  | [], [] => if (w.channel c).closed then (some none, w) else (none, w)

/-- `close` up to the calls of its receivers. -/
def close (w : Channels α) (c : Nat) : Except JsString (Channels α) :=
  if (w.channel c).closed then .error (js "close of closed channel")
  else
    let senders := (w.channel c).senders
    let w := w.update c fun ch => { ch with closed := true, senders := [] }
    let w := senders.foldl (fun w sender =>
      w.settle sender.waiter.call (.failed sender.waiter.call sendOnClosed)) w
    .ok (w.update c fun ch => { ch with receivers := [], closing := ch.receivers })

/-- One turn of the last loop of `close`. -/
def notify (w : Channels α) (c : Nat) : Channels α :=
  match (w.channel c).closing, (w.channel c).values with
  | [], _ => w
  | receiver :: closing, [] =>
    let w := w.update c fun ch => { ch with closing }
    w.settle receiver.call (.received c receiver none)
  | receiver :: closing, value :: values =>
    let w := w.update c fun ch => { ch with closing, values }
    w.settle receiver.call (.received c receiver (some value))

/-! ## Calls -/

/-- A waiter takes its place in a queue. -/
def wait (w : Channels α) (call : Nat) (entry : SelectCase α × Nat) : Channels α :=
  let waiter : Waiter := ⟨call, entry.2⟩
  let mark (slot : Slot) (w : Channels α) : Channels α :=
    { w with calls := w.calls.modify call fun r => { r with waits := r.waits ++ [slot] } }
  match entry.1 with
  | .receive (some c) =>
    mark (.receiver c waiter)
      (w.update c fun ch => { ch with receivers := ch.receivers ++ [waiter] })
  | .send (some c) value =>
    mark (.sender c waiter)
      (w.update c fun ch => { ch with senders := ch.senders ++ [⟨value, waiter⟩] })
  | _ => w

/-- A new call. -/
def enter (w : Channels α) : Channels α := { w with calls := w.calls ++ [{}] }

def callTrySend (w : Channels α) (c : Nat) (value : α) : Channels α :=
  let call := w.calls.length
  match w.enter.trySend c value with
  | .error e => w.enter.settle call (.failed call e)
  | .ok (true, w) => w.settle call (.sent c ⟨call, 0⟩ value)
  | .ok (false, w) => w.settle call (.refused call)

def send (w : Channels α) (c : Nat) (value : α) : Channels α :=
  let call := w.calls.length
  match w.enter.trySend c value with
  | .error e => w.enter.settle call (.failed call e)
  | .ok (true, w) => w.settle call (.sent c ⟨call, 0⟩ value)
  | .ok (false, w) => w.wait call (.send (some c) value, 0)

def callTryReceive (w : Channels α) (c : Nat) : Channels α :=
  let call := w.calls.length
  match w.enter.tryReceive c with
  | (some result, w) => w.settle call (.received c ⟨call, 0⟩ result)
  | (none, w) => w.settle call (.refused call)

def receive (w : Channels α) (c : Nat) : Channels α :=
  let call := w.calls.length
  match w.enter.tryReceive c with
  | (some result, w) => w.settle call (.received c ⟨call, 0⟩ result)
  | (none, w) => w.wait call (.receive (some c), 0)

def callClose (w : Channels α) (c : Nat) : Channels α :=
  let call := w.calls.length
  match w.enter.close c with
  | .error e => w.enter.settle call (.failed call e)
  | .ok w => w.settle call (.closed c call)

/-- Whether a case is ready. -/
def ready (w : Channels α) : SelectCase α → Bool
  | .receive (some c) => (w.channel c).canReceive
  | .send (some c) _ => (w.channel c).canSend
  | _ => false

/-- The ready case the random number picks. -/
def pickReady (w : Channels α) (cases : List (SelectCase α)) (random : Nat) :
    Option (SelectCase α × Nat) :=
  let readyCases := cases.zipIdx.filter fun entry => w.ready entry.1
  readyCases[random % readyCases.length]?

/-- `Channel.select`; `random` stands for `Math.random()`. -/
def select (w : Channels α) (cases : List (SelectCase α)) (hasDefault : Bool) (random : Nat) :
    Channels α :=
  let call := w.calls.length
  let w := w.enter
  match w.pickReady cases random with
  | some (.receive (some c), i) =>
    match w.tryReceive c with
    | (some result, w) => w.settle call (.received c ⟨call, i⟩ result)
    | (none, w) => w.settle call (.failed call (js "selected channel was not ready"))
  | some (.send (some c) value, i) =>
    match w.trySend c value with
    | .error e => w.settle call (.failed call e)
    | .ok (_, w) => w.settle call (.sent c ⟨call, i⟩ value)
  | _ =>
    if hasDefault then w.settle call (.defaulted call)
    else
      let w := { w with calls := w.calls.modify call fun r => { r with cancels := true } }
      cases.zipIdx.foldl (fun w entry => w.wait call entry) w

end Channels

inductive ChannelStep (α : Type) where
  | trySend (channel : Nat) (value : α)
  | send (channel : Nat) (value : α)
  | tryReceive (channel : Nat)
  | receive (channel : Nat)
  | select (cases : List (SelectCase α)) (hasDefault : Bool) (random : Nat)
  | close (channel : Nat)
  | notify (channel : Nat)
  deriving DecidableEq

def Channels.exec (w : Channels α) : ChannelStep α → Channels α
  | .trySend c value => w.callTrySend c value
  | .send c value => w.send c value
  | .tryReceive c => w.callTryReceive c
  | .receive c => w.receive c
  | .select cases hasDefault random => w.select cases hasDefault random
  | .close c => w.callClose c
  | .notify c => w.notify c

/-- Channels of any capacities, before any call. -/
def Channels.initial (capacity : Nat → Nat) : Channels α where
  channel c := { capacity := capacity c }

def channels (α : Type) (capacity : Nat → Nat) : System (Channels α) (ChannelStep α) where
  init w := w = .initial capacity
  step w act w' := w' = w.exec act

end Webernetes.Go
