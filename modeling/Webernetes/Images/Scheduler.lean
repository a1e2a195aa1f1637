/-
Webernetes.Images.Scheduler — the scheduler: the pods that its informer
tells it of, and the binds that it has in flight.

A bind stops at every `await`, and goes on by a step of its own; the calls
of the API are cut where they read and write the store. The store keeps a
pod under `podKey`, with the revision of its last write. Besides the binds
anyone may create pods and nodes, and change and delete pods; a change is
any change, so the writes of other binds are among them. A pod whose
deletion was pending is deleted by a step of its own, too.

The informer tells of pods in the order of their writes. The waits between
attempts are left out, and so are the events that the scheduler records.
-/
import Webernetes.Base.Transition
import Webernetes.Js.OrderedMap
import Webernetes.Storage.Object

namespace Webernetes.Images

open Js Base Storage

/-! ## Pods -/

/-- What the scheduler reads of a pod, and the rest of it. -/
structure SchedulablePod where
  «namespace» : Option JsString := none
  name : Option JsString := none
  nodeName : Option JsString := none
  schedulerName : Option JsString := none
  rest : JsString := []
  deriving DecidableEq

def podKey (pod : SchedulablePod) : JsString :=
  pod.namespace.getD (js "default") ++ js "/" ++ pod.name.getD []

structure StoredPod where
  pod : SchedulablePod
  resourceVersion : Nat
  deriving DecidableEq

/-- What `schedulePod` asks of a pod. -/
def SchedulablePod.waits (pod : SchedulablePod) : Bool :=
  !truthy pod.nodeName && pod.schedulerName.getD (js "default-scheduler") == js "default-scheduler"
    && truthy pod.name

/-! ## Binds -/

/-- Where a call of `bindPod` stands: before it lists the nodes, before
the read of an attempt, before the two reads and the write of the binding,
after the write, and after its end. -/
inductive Bind where
  | listing
  | reading (server : JsString) (attempt : Nat)
  | binding (server : JsString) (attempt : Nat)
  | updating (server : JsString) (attempt : Nat) (read : StoredPod)
  | committing (server : JsString) (attempt : Nat) (read : StoredPod)
  | bound
  | ended
  deriving DecidableEq

/-- The attempts of `retryConflicts`. -/
def attempts : Nat := 5

/-- After a conflict the next attempt starts, if there is one. -/
def Bind.conflict (server : JsString) (attempt : Nat) : Bind :=
  if attempt + 1 < attempts then .reading server (attempt + 1) else .ended

/-- The scheduler, the store and what the informer is yet to tell.
`pending` holds the binds in flight. -/
structure Scheduler where
  revision : Nat := 0
  pods : JsMap JsString StoredPod := .empty
  nodes : List JsString := []
  events : List StoredPod := []
  pending : JsMap JsString Bind := .empty
  nextServerIndex : Nat := 0

namespace Scheduler

/-- A pod is written. -/
def put (s : Scheduler) (pod : SchedulablePod) : Scheduler :=
  let stored : StoredPod := { pod, resourceVersion := s.revision + 1 }
  { s with
    revision := s.revision + 1
    pods := s.pods.set (podKey pod) stored
    events := s.events ++ [stored] }

def setBind (s : Scheduler) (key : JsString) (bind : Bind) : Scheduler :=
  { s with pending := s.pending.set key bind }

def schedulePod (s : Scheduler) (pod : SchedulablePod) : Scheduler :=
  if !pod.waits then s
  else
    let key := podKey pod
    if s.pending.contains key then s else s.setBind key .listing

/-- The nodes in turn. -/
def nextServer (s : Scheduler) : Option JsString := s.nodes[s.nextServerIndex % s.nodes.length]?

/-- A bind goes on to its next `await`. -/
def move (s : Scheduler) (key : JsString) : Scheduler :=
  match s.pending.get key with
  | none => s
  | some .listing =>
    match s.nextServer with
    | none => s.setBind key .ended
    | some server =>
      { s.setBind key (.reading server 0) with nextServerIndex := s.nextServerIndex + 1 }
  | some (.reading server attempt) =>
    match s.pods.get key with
    | none => s.setBind key .ended
    | some current =>
      if truthy current.pod.nodeName then s.setBind key .ended
      else s.setBind key (.binding server attempt)
  | some (.binding server attempt) =>
    match s.pods.get key with
    | none => s.setBind key .ended
    | some current =>
      if server.isEmpty then s.setBind key .ended
      else if truthy current.pod.nodeName then s.setBind key .ended
      else s.setBind key (.updating server attempt current)
  | some (.updating server attempt read) =>
    match s.pods.get key with
    | none => s.setBind key .ended
    | some existing =>
      if existing.resourceVersion ≠ read.resourceVersion then
        s.setBind key (.conflict server attempt)
      else s.setBind key (.committing server attempt read)
  | some (.committing server attempt read) =>
    match s.pods.get key with
    | none => s.setBind key (.conflict server attempt)
    | some existing =>
      if existing.resourceVersion ≠ read.resourceVersion then
        s.setBind key (.conflict server attempt)
      else (s.put { read.pod with nodeName := some server }).setBind key .bound
  | some .bound => s.setBind key .ended
  | some .ended => { s with pending := s.pending.delete key }

/-- The informer tells of the next pod. -/
def deliver (s : Scheduler) : Scheduler :=
  match s.events with
  | [] => s
  | stored :: events => { s with events }.schedulePod stored.pod

def createPod (s : Scheduler) (pod : SchedulablePod) : Scheduler :=
  if !truthy pod.name then s
  else if s.pods.contains (podKey pod) then s else s.put pod

/-- Anything about a pod may change, but where it is stored. -/
def updatePod (s : Scheduler) (key : JsString) (change : SchedulablePod → SchedulablePod) : Scheduler :=
  match s.pods.get key with
  | none => s
  | some existing =>
    s.put { change existing.pod with
      «namespace» := existing.pod.namespace
      name := existing.pod.name }

def deletePod (s : Scheduler) (key : JsString) : Scheduler :=
  if s.pods.contains key then
    { s with revision := s.revision + 1, pods := s.pods.delete key }
  else s

/-- A node takes some place among the nodes that are listed. -/
def createNode (s : Scheduler) (index : Nat) (name : JsString) : Scheduler :=
  if name.isEmpty || s.nodes.contains name then s
  else { s with nodes := s.nodes.take index ++ name :: s.nodes.drop index }

end Scheduler

/-! ## Runs -/

inductive SchedulerStep where
  | createPod (pod : SchedulablePod)
  | updatePod (key : JsString) (change : SchedulablePod → SchedulablePod)
  | deletePod (key : JsString)
  | createNode (index : Nat) (name : JsString)
  | deliver
  | move (key : JsString)

def Scheduler.step (s : Scheduler) : SchedulerStep → Scheduler
  | .createPod pod => s.createPod pod
  | .updatePod key change => s.updatePod key change
  | .deletePod key => s.deletePod key
  | .createNode index name => s.createNode index name
  | .deliver => s.deliver
  | .move key => s.move key

/-- A store where each pod is under its key, and nodes have names. -/
structure SchedulerStore (s : Scheduler) : Prop where
  key : ∀ key stored, s.pods.get key = some stored → podKey stored.pod = key
  nodes : ∀ name ∈ s.nodes, name ≠ []

/-- The scheduler starts on any store; the informer tells of what there is. -/
def schedulerSystem : System Scheduler SchedulerStep where
  init s := SchedulerStore s ∧ s.events = s.pods.values ∧ s.pending = .empty
  step s act s' := s' = s.step act

end Webernetes.Images
