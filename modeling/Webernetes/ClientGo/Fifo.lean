/-
Webernetes.ClientGo.Fifo — `FIFO` of `tools/cache/fifo.ts`.

`add`, `update`, `delete` and `replace` find the keys of their objects
first and then run to their end under the lock. `pop` keeps the lock
while `process` runs and waits on the condition while the queue is empty.
Objects are values here (`structuredClone` copies them), a call of
`keyFunc` is over by the time its caller asks for the lock.

A machine has one FIFO and any number of calls, which go on in any order.
The log, which no function of the source reads, holds what happened to
the queue and the items, as events of `Base.LazyQueue`.
-/
import Webernetes.Base.LazyQueue
import Webernetes.Base.Transition
import Webernetes.Go.Monitor
import Webernetes.Js.OrderedMap

namespace Webernetes.Go.Monitor

/-- `Cond.broadcast`. -/
def broadcast (m : Monitor) : Monitor :=
  m.cond.waiters.foldl (fun m waiter => m.setStatus waiter .notified) { m with cond := {} }

end Webernetes.Go.Monitor

namespace Webernetes.ClientGo

open Js Base Go

variable {ν ε : Type}

/-- The errors a call returns: a `KeyError`, `errFIFOClosed`, or what
`process` answered. -/
inductive FifoError (ν ε : Type) where
  | key (obj : ν) (err : ε)
  | closed
  | process (err : ε)

/-- `FIFO<T>`; its mutex, its condition and the calls that use them are
the monitor. The channel `synced` is closed when `syncedClosed` is set. -/
structure FIFO (ν : Type) where
  items : JsMap JsString ν
  queue : List JsString
  populated : Bool
  initialPopulationCount : Nat
  closed : Bool
  syncedClosed : Bool
  lastSyncResourceVersion : JsString
  monitor : Monitor

/-- What `process` is called with, and whether `pop` checks for the
initial sync afterwards. -/
structure Popped (ν : Type) where
  item : ν
  isInInitialList : Bool
  shouldCheckSynced : Bool

namespace FIFO

def initial : FIFO ν where
  items := .empty
  queue := []
  populated := false
  initialPopulationCount := 0
  closed := false
  syncedClosed := false
  lastSyncResourceVersion := []
  monitor := {}

def hasSynced (f : FIFO ν) : Bool := f.syncedClosed

def checkSynced (f : FIFO ν) : FIFO ν :=
  let synced := f.populated && decide (f.initialPopulationCount = 0)
  if synced && !f.syncedClosed then { f with syncedClosed := true } else f

/-- `add` under the lock. -/
def add (f : FIFO ν) (id : JsString) (obj : ν) : FIFO ν :=
  let f := { f with populated := true }.checkSynced
  let f := if f.items.contains id then f else { f with queue := f.queue ++ [id] }
  { f with items := f.items.set id obj, monitor := f.monitor.broadcast }

/-- `delete` under the lock. -/
def delete (f : FIFO ν) (id : JsString) : FIFO ν :=
  let f := { f with populated := true }.checkSynced
  { f with items := f.items.delete id }

/-- `replace` under the lock. -/
def replace (f : FIFO ν) (items : JsMap JsString ν) (resourceVersion : JsString) : FIFO ν :=
  let f :=
    if f.populated then f
    else { f with populated := true, initialPopulationCount := items.size }.checkSynced
  let f := { f with items, queue := items.keys, lastSyncResourceVersion := resourceVersion }
  if f.queue = [] then f else { f with monitor := f.monitor.broadcast }

/-- `resync` under the lock. -/
def resync (f : FIFO ν) : FIFO ν :=
  let f := { f with queue := f.queue ++ f.items.keys.filter fun id => !f.queue.contains id }
  if f.queue = [] then f else { f with monitor := f.monitor.broadcast }

/-- `close` under the lock. -/
def close (f : FIFO ν) : FIFO ν :=
  { f with closed := true, monitor := f.monitor.broadcast }

/-- The loop of `pop`, as far as it runs without waiting: the first ids
without an item are dropped. -/
def takeNext : List JsString → FIFO ν →
    FIFO ν × List (LazyQueue.Event JsString ν) × Option (Popped ν)
  | [], f => ({ f with queue := [] }, [], none)
  | id :: rest, f =>
    let isInInitialList := !f.hasSynced
    let shouldCheckSynced := decide (0 < f.initialPopulationCount)
    let f := { f with
      queue := rest
      initialPopulationCount :=
        if shouldCheckSynced then f.initialPopulationCount - 1 else f.initialPopulationCount }
    match f.items.get id with
    | none =>
      let f := if shouldCheckSynced then f.checkSynced else f
      let (f, log, popped) := takeNext rest f
      (f, .skip id :: log, popped)
    | some item =>
      ({ f with items := f.items.delete id }, [.take id item],
        some ⟨item, isInInitialList, shouldCheckSynced⟩)

/-- `unlock` in a `finally`; a throw of `unlock` leaves the monitor as it
is. -/
def unlock (f : FIFO ν) (call : Nat) : FIFO ν :=
  { f with monitor := (f.monitor.leave call).toOption.getD f.monitor }

/-- `cond.wait` up to the await of the notification. -/
def wait (f : FIFO ν) (call : Nat) : FIFO ν :=
  { f with monitor := (f.monitor.wait call).toOption.getD f.monitor }

end FIFO

/-! ## Calls -/

/-- A call of the interface, before its keys are known. -/
inductive FifoRequest (ν : Type) where
  | add (obj : ν)
  | update (obj : ν)
  | delete (obj : ν)
  | replace (list : List ν) (resourceVersion : JsString)
  | resync
  | close
  | pop

/-- Where a call stands: before its turn under the lock, at `process`, or
at its end. -/
inductive FifoCall (ν ε : Type) where
  | add (id : JsString) (obj : ν)
  | delete (id : JsString)
  | replace (items : JsMap JsString ν) (resourceVersion : JsString)
  | resync
  | close
  | pop
  | processing (popped : Popped ν)
  | returned (item : Option ν) (err : Option (FifoError ν ε))
  | threw (popped : Popped ν)

/-- The keys of a list that `replace` is called with. -/
def keyedItems (keyFunc : ν → Except ε JsString) : List ν → Except (FifoError ν ε) (List (JsString × ν))
  | [] => .ok []
  | item :: list =>
    match keyFunc item with
    | .error err => .error (.key item err)
    | .ok key =>
      match keyedItems keyFunc list with
      | .error err => .error err
      | .ok entries => .ok ((key, item) :: entries)

/-- A call up to its `lock()`. -/
def FifoRequest.prepare (keyFunc : ν → Except ε JsString) :
    FifoRequest ν → Except (FifoError ν ε) (FifoCall ν ε)
  | .add obj =>
    match keyFunc obj with
    | .error err => .error (.key obj err)
    | .ok id => .ok (.add id obj)
  | .update obj =>
    match keyFunc obj with
    | .error err => .error (.key obj err)
    | .ok id => .ok (.add id obj)
  | .delete obj =>
    match keyFunc obj with
    | .error err => .error (.key obj err)
    | .ok id => .ok (.delete id)
  | .replace list resourceVersion =>
    match keyedItems keyFunc list with
    | .error err => .error err
    | .ok entries => .ok (.replace (.ofList entries) resourceVersion)
  | .resync => .ok .resync
  | .close => .ok .close
  | .pop => .ok .pop

/-! ## Runs -/

/-- A FIFO with its calls and the log. -/
structure FifoMachine (ν ε : Type) where
  fifo : FIFO ν
  calls : List (FifoCall ν ε)
  log : List (LazyQueue.Event JsString ν)

inductive FifoStep (ν ε : Type) where
  /-- A call comes. -/
  | call (request : FifoRequest ν)
  /-- A call that has the lock, or is notified, goes on. -/
  | resume (call : Nat)
  /-- `process` settles: it answers, or it throws. -/
  | settle (call : Nat) (err : Option ε)
  | throws (call : Nat)

namespace FifoMachine

def initial : FifoMachine ν ε where
  fifo := .initial
  calls := []
  log := []

def startCall (keyFunc : ν → Except ε JsString) (m : FifoMachine ν ε) (request : FifoRequest ν) :
    FifoMachine ν ε :=
  match request.prepare keyFunc with
  | .error err =>
    { m with
      fifo := { m.fifo with monitor := m.fifo.monitor.call }
      calls := m.calls ++ [.returned none (some err)] }
  | .ok call =>
    { m with
      fifo := { m.fifo with monitor := m.fifo.monitor.call.enter m.fifo.monitor.calls.length }
      calls := m.calls ++ [call] }

/-- A call ends and gives up the lock. -/
def finish (m : FifoMachine ν ε) (i : Nat) (fifo : FIFO ν)
    (log : List (LazyQueue.Event JsString ν)) (call : FifoCall ν ε) : FifoMachine ν ε where
  fifo := fifo.unlock i
  calls := m.calls.set i call
  log := m.log ++ log

/-- `pop` with the lock: to its `process`, its end, or its wait. -/
def resumePop (m : FifoMachine ν ε) (i : Nat) : FifoMachine ν ε :=
  match m.fifo.takeNext m.fifo.queue with
  | (fifo, log, some popped) =>
    { fifo, calls := m.calls.set i (.processing popped), log := m.log ++ log }
  | (fifo, log, none) =>
    if fifo.closed then m.finish i fifo log (.returned none (some .closed))
    else { fifo := fifo.wait i, calls := m.calls, log := m.log ++ log }

/-- A call with the lock goes on. -/
def run (m : FifoMachine ν ε) (i : Nat) : FifoMachine ν ε :=
  match m.calls[i]? with
  | some (.add id obj) => m.finish i (m.fifo.add id obj) [.put id obj] (.returned none none)
  | some (.delete id) => m.finish i (m.fifo.delete id) [.remove id] (.returned none none)
  | some (.replace items resourceVersion) =>
    m.finish i (m.fifo.replace items resourceVersion) [.reset items.entries] (.returned none none)
  | some .resync => m.finish i m.fifo.resync [] (.returned none none)
  | some .close => m.finish i m.fifo.close [] (.returned none none)
  | some .pop => m.resumePop i
  | _ => m

def resume (m : FifoMachine ν ε) (i : Nat) : FifoMachine ν ε :=
  match m.fifo.monitor.calls[i]? with
  | some .holding => m.run i
  | some .notified => { m with fifo.monitor := m.fifo.monitor.enter i }
  | _ => m

def settle (m : FifoMachine ν ε) (i : Nat) (err : Option ε) : FifoMachine ν ε :=
  match m.calls[i]? with
  | some (.processing popped) =>
    let fifo := if popped.shouldCheckSynced then m.fifo.checkSynced else m.fifo
    m.finish i fifo [] (.returned (some popped.item) (err.map .process))
  | _ => m

def throws (m : FifoMachine ν ε) (i : Nat) : FifoMachine ν ε :=
  match m.calls[i]? with
  | some (.processing popped) => m.finish i m.fifo [] (.threw popped)
  | _ => m

def exec (keyFunc : ν → Except ε JsString) (m : FifoMachine ν ε) :
    FifoStep ν ε → FifoMachine ν ε
  | .call request => m.startCall keyFunc request
  | .resume i => m.resume i
  | .settle i err => m.settle i err
  | .throws i => m.throws i

end FifoMachine

/-- The runs of a FIFO: any calls, each going on at any time. -/
def fifoSystem (keyFunc : ν → Except ε JsString) : System (FifoMachine ν ε) (FifoStep ν ε) where
  init m := m = .initial
  step m act m' := m' = m.exec keyFunc act

end Webernetes.ClientGo
