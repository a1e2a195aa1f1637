/-
Webernetes.Kubelet.PodStatusCache — the cache of the statuses of pods, and the
calls that wait in it for a status that is newer than a time.

The bodies under the lock are the steps; a call of `getNewerThan` takes three
or four of them. Its channel is its own, so a subscription names its call.
What is kept beside the source's fields: the data that a call was sent.
-/
import Webernetes.Base.Transition
import Webernetes.Js.OrderedMap
import Webernetes.Js.Text

namespace Webernetes.Kubelet.PodStatusCache

open Js Base

variable {σ ε : Type}

/-! ## The cache -/

/-- What is known of a pod; times in milliseconds. -/
structure Data (σ ε : Type) where
  status : Option σ
  error : Option ε
  modified : Int
  observedTime : Int
  deriving DecidableEq

/-- A subscription, with the call that receives from its channel. -/
structure SubRecord where
  time : Int
  ch : Nat
  deriving DecidableEq

structure Cache (σ ε : Type) where
  pods : JsMap JsString (Data σ ε) := .empty
  timestamp : Option Int := none
  subscribers : JsMap JsString (List SubRecord) := .empty

def after (left right : Int) : Bool := decide (right < left)

def before (left right : Int) : Bool := decide (left < right)

/-- `newPodStatus({ id })` is a parameter: the cache carries statuses and reads
none. -/
def makeDefaultData (newPodStatus : JsString → σ) (id : JsString) : Data σ ε where
  status := some (newPodStatus id)
  error := none
  modified := 0
  observedTime := 0

namespace Cache

variable (newPodStatus : JsString → σ) (cache : Cache σ ε)

def getData (id : JsString) : Data σ ε :=
  (cache.pods.get id).getD (makeDefaultData newPodStatus id)

def globalTimestampIsNewer (minTime : Int) : Bool := cache.timestamp.any (after · minTime)

def getIfNewerThan (id : JsString) (minTime : Int) : Option (Data σ ε) :=
  match cache.pods.get id with
  | none => if cache.globalTimestampIsNewer minTime then some (makeDefaultData newPodStatus id) else none
  | some data =>
    if cache.globalTimestampIsNewer minTime || after data.modified minTime
        || after data.observedTime minTime then some data
    else none

/-- The subscriptions of a pod. -/
def subscribersOf (id : JsString) : List SubRecord := (cache.subscribers.get id).getD []

/-- `newList`, which is set, or the pod's subscriptions are deleted. -/
def setSubscribers (id : JsString) (newList : List SubRecord) : Cache σ ε :=
  { cache with subscribers :=
      if newList.isEmpty then cache.subscribers.delete id else cache.subscribers.set id newList }

end Cache

/-! ## Calls -/

/-- A `Channel` of capacity one. -/
structure Chan (α : Type) where
  buffer : Option α := none
  closed : Bool := false
  deriving DecidableEq

namespace Chan

variable {α : Type}

def trySend (ch : Chan α) (value : α) : Chan α :=
  if ch.closed || ch.buffer.isSome then ch else { ch with buffer := some value }

def close (ch : Chan α) : Chan α := { ch with closed := true }

/-- What a receive gives, `none` while it would wait: the value, or that the
channel is closed. -/
def receive (ch : Chan α) : Option (Option α) :=
  if ch.buffer.isSome then some ch.buffer else if ch.closed then some none else none

end Chan

/-- How the `select` ended. -/
inductive Outcome (σ ε : Type) where
  | returned (status : Option σ) (error : Option ε)
  | canceled
  deriving DecidableEq

inductive Stage (σ ε : Type) where
  /-- Waits for the lock to subscribe. -/
  | called
  /-- In the `select`, with a subscription or without. -/
  | selecting (record : Bool)
  /-- Waits for the lock to unsubscribe. -/
  | leaving (outcome : Outcome σ ε)
  | done (outcome : Outcome σ ε)
  deriving DecidableEq

/-- A call of `getNewerThan`. -/
structure Call (σ ε : Type) where
  id : JsString
  minTime : Int
  stage : Stage σ ε := .called
  ch : Chan (Data σ ε) := {}
  sent : Option (Data σ ε) := none
  deriving DecidableEq

structure State (σ ε : Type) where
  cache : Cache σ ε := {}
  calls : List (Call σ ε) := []

inductive Action (σ ε : Type) where
  | getNewerThan (id : JsString) (minTime : Int)
  | subscribe (i : Nat)
  | receive (i : Nat)
  | cancel (i : Nat)
  | unsubscribe (i : Nat)
  | set (id : JsString) (status : Option σ) (error : Option ε) (timestamp : Int)
  | setObservedTime (id : JsString) (timestamp : Int)
  | delete (id : JsString)
  | updateTime (timestamp : Int)

/-! ## Steps -/

def Call.deliver (call : Call σ ε) (data : Data σ ε) : Call σ ε :=
  { call with ch := call.ch.trySend data, sent := call.sent.or (some data) }

def cacheResultFromReceive (newPodStatus : JsString → σ) (id : JsString) :
    Option (Data σ ε) → Outcome σ ε
  | none => .returned (some (newPodStatus id)) none
  | some data => .returned data.status data.error

namespace State

variable (newPodStatus : JsString → σ) (m : State σ ε)

def modifyCall (i : Nat) (f : Call σ ε → Call σ ε) : State σ ε :=
  { m with calls := m.calls.modify i f }

/-- The waiters of a pod whose minimum time is not after the timestamp are
sent its data. -/
def notify (id : JsString) (timestamp : Int) : State σ ε :=
  match m.cache.subscribers.get id with
  | none => m
  | some list =>
    let data := m.cache.getData newPodStatus id
    let woken := list.filter fun record => !before timestamp record.time
    let sent := woken.foldl (fun m record => m.modifyCall record.ch fun call =>
      let call := call.deliver data
      { call with ch := call.ch.close }) m
    { sent with cache := m.cache.setSubscribers id (list.filter (before timestamp ·.time)) }

def set (id : JsString) (status : Option σ) (error : Option ε) (timestamp : Int) : State σ ε :=
  let pods := m.cache.pods.set id { status, error, modified := timestamp, observedTime := timestamp }
  { m with cache := { m.cache with pods } }.notify newPodStatus id timestamp

def setObservedTime (id : JsString) (timestamp : Int) : State σ ε :=
  let pods := match m.cache.pods.get id with
    | none => m.cache.pods
    | some data => m.cache.pods.set id { data with observedTime := timestamp }
  { m with cache := { m.cache with pods } }.notify newPodStatus id timestamp

def delete (id : JsString) : State σ ε :=
  { m with cache := { m.cache with pods := m.cache.pods.delete id } }

def updateTime (timestamp : Int) : State σ ε :=
  m.cache.subscribers.keys.foldl (fun m id => m.notify newPodStatus id timestamp)
    { m with cache := { m.cache with timestamp := some timestamp } }

def subscribe (i : Nat) (call : Call σ ε) : State σ ε :=
  match m.cache.getIfNewerThan newPodStatus call.id call.minTime with
  | some data =>
    m.modifyCall i fun call => { call.deliver data with stage := .selecting false }
  | none =>
    { m.modifyCall i fun call => { call with stage := .selecting true } with
      cache := m.cache.setSubscribers call.id
        (m.cache.subscribersOf call.id ++ [{ time := call.minTime, ch := i }]) }

def unsubscribe (i : Nat) (call : Call σ ε) : State σ ε :=
  match m.cache.subscribers.get call.id with
  | none => m
  | some list => { m with cache := m.cache.setSubscribers call.id (list.filter (·.ch ≠ i)) }

/-- The end of the `select`; `finally` unsubscribes where there was a
subscription. -/
def leave (i : Nat) (record : Bool) (outcome : Outcome σ ε) : State σ ε :=
  m.modifyCall i fun call =>
    { call with stage := if record then .leaving outcome else .done outcome }

def exec : Action σ ε → State σ ε
  | .getNewerThan id minTime => { m with calls := m.calls ++ [{ id, minTime }] }
  | .subscribe i =>
    match m.calls[i]? with
    | some call =>
      match call.stage with
      | .called => m.subscribe newPodStatus i call
      | _ => m
    | none => m
  | .receive i =>
    match m.calls[i]? with
    | some call =>
      match call.stage, call.ch.receive with
      | .selecting record, some result =>
        (m.modifyCall i fun call => { call with ch := { call.ch with buffer := none } }).leave i record
          (cacheResultFromReceive newPodStatus call.id result)
      | _, _ => m
    | none => m
  | .cancel i =>
    match m.calls[i]? with
    | some call =>
      match call.stage with
      | .selecting record => m.leave i record .canceled
      | _ => m
    | none => m
  | .unsubscribe i =>
    match m.calls[i]? with
    | some call =>
      match call.stage with
      | .leaving outcome =>
        (m.unsubscribe i call).modifyCall i fun call => { call with stage := .done outcome }
      | _ => m
    | none => m
  | .set id status error timestamp => m.set newPodStatus id status error timestamp
  | .setObservedTime id timestamp => m.setObservedTime newPodStatus id timestamp
  | .delete id => m.delete id
  | .updateTime timestamp => m.updateTime newPodStatus timestamp

end State

/-- The cache under calls of its methods in any order. -/
def system (newPodStatus : JsString → σ) : System (State σ ε) (Action σ ε) where
  init m := m = {}
  step m action m' := m' = m.exec newPodStatus action

end Webernetes.Kubelet.PodStatusCache
