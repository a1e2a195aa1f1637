/-
Webernetes.Kubelet.Pleg — the pod lifecycle event generator: records of the
pods that were listed, and the events between two of them.

What is kept beside the source's fields: the snapshots that were reconciled
and the pods as they were listed last. Whether an inspection of a pod fails
is an argument; its result goes to the status cache and is left out.
-/
import Webernetes.Js.OrderedMap
import Webernetes.Js.Text

namespace Webernetes.Kubelet

open Js

/-! ## Pods -/

inductive State where
  | created
  | running
  | exited
  | unknown
  deriving DecidableEq

structure Container where
  id : JsString
  state : State
  deriving DecidableEq

structure Pod where
  id : JsString
  containers : List Container
  sandboxes : List Container
  deriving DecidableEq

def findContainerByID (pod : Pod) (id : JsString) : Option Container :=
  pod.containers.find? (·.id = id)

def findSandboxByID (pod : Pod) (id : JsString) : Option Container :=
  pod.sandboxes.find? (·.id = id)

/-! ## Events -/

inductive PlegContainerState where
  | running
  | exited
  | unknown
  | nonExistent
  deriving DecidableEq

inductive PodLifeCycleEventType where
  | containerStarted
  | containerDied
  | containerRemoved
  | podSync
  | containerChanged
  deriving DecidableEq

structure PodLifecycleEvent where
  id : JsString
  type : PodLifeCycleEventType
  data : Option JsString := none
  deriving DecidableEq

def convertState : State → PlegContainerState
  | .created => .unknown
  | .running => .running
  | .exited => .exited
  | .unknown => .unknown

def generateEvents (podID cid : JsString) (oldState newState : PlegContainerState) :
    List PodLifecycleEvent :=
  if newState = oldState then []
  else
    match newState, oldState with
    | .running, _ => [{ id := podID, type := .containerStarted, data := cid }]
    | .exited, _ => [{ id := podID, type := .containerDied, data := cid }]
    | .unknown, _ => [{ id := podID, type := .containerChanged, data := cid }]
    | .nonExistent, .exited => [{ id := podID, type := .containerRemoved, data := cid }]
    | .nonExistent, _ =>
      [{ id := podID, type := .containerDied, data := cid },
        { id := podID, type := .containerRemoved, data := cid }]

def getContainerState (pod : Option Pod) (cid : JsString) : PlegContainerState :=
  match pod with
  | none => .nonExistent
  | some pod =>
    match findContainerByID pod cid with
    | some container => convertState container.state
    | none =>
      match findSandboxByID pod cid with
      | some sandbox => convertState sandbox.state
      | none => .nonExistent

def computeEvents (oldPod newPod : Option Pod) (cid : JsString) : List PodLifecycleEvent :=
  let pid := ((oldPod.map (·.id)).or (newPod.map (·.id))).getD []
  generateEvents pid cid (getContainerState oldPod cid) (getContainerState newPod cid)

/-- `fillCidSet`: the containers whose ids are not there yet. -/
def fillCidSet (containers cs : List Container) : List Container :=
  cs.foldl (fun containers c =>
    if (containers.map (·.id)).contains c.id then containers else containers ++ [c]) containers

/-- The containers of a pod, and its sandboxes as containers. -/
def fillPod (containers : List Container) : Option Pod → List Container
  | none => containers
  | some p => fillCidSet (fillCidSet containers p.containers) p.sandboxes

/-- The containers of the pods, once for each id. -/
def getContainersFromPods (pods : List (Option Pod)) : List Container := pods.foldl fillPod []

/-! ## Records -/

structure PodRecord where
  old : Option Pod := none
  current : Option Pod := none
  deriving DecidableEq

abbrev PodRecords := JsMap JsString PodRecord

namespace PodRecords

variable (records : PodRecords)

def getOld (id : JsString) : Option Pod := (records.get id).bind PodRecord.old

def getCurrent (id : JsString) : Option Pod := (records.get id).bind PodRecord.current

/-- The current pod of a record, which is made where there is none. -/
def setCurrentPod (id : JsString) (current : Option Pod) : PodRecords :=
  match records.get id with
  | some record => records.set id { record with current }
  | none => records.set id { current }

def setCurrent (pods : List Pod) : PodRecords :=
  pods.foldl (fun records pod => setCurrentPod records pod.id (some pod))
    (JsMap.mapValues records fun record => { record with current := none })

def updateInternal (id : JsString) (record : PodRecord) : PodRecords :=
  match record.current with
  | none => records.delete id
  | some current => records.set id { old := current, current := none }

def update (id : JsString) : PodRecords :=
  match records.get id with
  | none => records
  | some record => records.updateInternal id record

end PodRecords

/-! ## The generator -/

/-- `GenericPLEG`, and the events that were sent. `reconciled` lists the
snapshots of pods that were reconciled, `listed` is how the pods were listed
last. -/
structure GenericPLEG where
  podRecords : PodRecords := .empty
  podsToReinspect : JsSet JsString := .empty
  events : List PodLifecycleEvent := []
  reconciled : List (JsString × Option Pod) := []
  listed : JsString → Option Pod := fun _ => none

namespace GenericPLEG

variable (g : GenericPLEG)

def requestReinspect (podUID : JsString) : GenericPLEG :=
  { g with podsToReinspect := g.podsToReinspect.add podUID }

/-- The events of all containers of the pod. -/
def podEvents (oldPod pod : Option Pod) : List PodLifecycleEvent :=
  (getContainersFromPods [oldPod, pod]).flatMap fun container =>
    computeEvents oldPod pod container.id

/-- The rest of `reconcilePodRecord` once the pod has been inspected. -/
def inspected (pid : JsString) (pod : Option Pod) (events : List PodLifecycleEvent) :
    GenericPLEG :=
  let events := if events.length = 0 then [{ id := pid, type := .podSync }] else events
  { g with
    podRecords := g.podRecords.update pid
    events := g.events ++ events.filter fun event => event.type ≠ .containerChanged
    reconciled := g.reconciled ++ [(pid, pod)] }

/-- `reconcilePodRecord`; `fails` says whether the inspection of the pod
fails, which that of a pod that is gone never does. -/
def reconcilePodRecord (fails : Bool) (pid : JsString) : GenericPLEG :=
  let oldPod := g.podRecords.getOld pid
  let pod := g.podRecords.getCurrent pid
  let events := podEvents oldPod pod
  let reinspect := g.podsToReinspect.elems.contains pid
  let g := { g with podsToReinspect := g.podsToReinspect.delete pid }
  if events.length = 0 ∧ reinspect = false then
    { g with reconciled := g.reconciled ++ [(pid, pod)] }
  else if pod.isSome ∧ fails = true then g.requestReinspect pid
  else g.inspected pid pod events

/-- What happens while the records are reconciled, by the pod that is next:
the requests made before, and whether the inspection fails. -/
structure Inspections where
  requests : JsString → List JsString
  fails : JsString → Bool

/-- The pods one after the other. -/
def reconcileAll (inspections : Inspections) (pids : List JsString) : GenericPLEG :=
  pids.foldl (fun g pid =>
    ((inspections.requests pid).foldl requestReinspect g).reconcilePodRecord
      (inspections.fails pid) pid) g

/-- `relist`, where the pods could be listed. -/
def relist (podList : List Pod) (inspections : Inspections) : GenericPLEG :=
  let g :=
    { g with
      podRecords := g.podRecords.setCurrent podList
      listed := fun pid => podList.reverse.find? (·.id = pid) }
  g.reconcileAll inspections g.podRecords.keys

/-- `relistPod`, where the pod could be looked up. -/
def relistPod (podUID : JsString) (pod : Option Pod) (inspections : Inspections) : GenericPLEG :=
  let g :=
    { g with
      podRecords := g.podRecords.setCurrentPod podUID pod
      listed := fun pid => if pid = podUID then pod else g.listed pid }
  g.reconcileAll inspections [podUID]

end GenericPLEG

end Webernetes.Kubelet
