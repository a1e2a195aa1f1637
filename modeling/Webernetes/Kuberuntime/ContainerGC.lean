/-
Webernetes.Kuberuntime.ContainerGC — the collection of dead containers and
sandboxes.

Containers that do not run are gathered by pod and container name, and go in
three rounds: all of those of pods that are to be removed, then the oldest of
each unit beyond `maxPerPodContainer`, then, while there are more than
`maxContainers` in all, the oldest of each unit beyond an equal share, and the
oldest of those that are left. After that the sandboxes of a pod go that are
neither ready nor hold a container, all or all but the newest.

The calls to the runtime answer as `Host` says; a call that fails changes
nothing.
-/
import Webernetes.Base.Foremost
import Webernetes.Js.MapLoops
import Webernetes.Js.Text
import Mathlib.Algebra.Ring.Nat

namespace Webernetes.Kuberuntime

open Js Base

/-! ## The runtime -/

namespace GC

inductive ContainerState where
  | created
  | running
  | exited
  | unknown
  deriving DecidableEq

/-- `name` is that of its `metadata`. -/
structure Container where
  id : JsString
  podSandboxId : JsString
  name : JsString
  state : ContainerState
  createdAt : Int
  labels : JsMap JsString JsString := JsMap.empty

inductive SandboxState where
  | ready
  | notReady
  deriving DecidableEq

/-- `uid` is that of its `metadata`. -/
structure PodSandbox where
  id : JsString
  uid : JsString
  state : SandboxState
  createdAt : Int

/-- What the runtime knows, each under its id. -/
structure Runtime where
  containers : List Container
  sandboxes : List PodSandbox
  nodup_containers : (containers.map Container.id).Nodup
  nodup_sandboxes : (sandboxes.map PodSandbox.id).Nodup

/-- Which calls to the runtime go well. -/
structure Host where
  listContainers : Bool
  listPodSandbox : Bool
  killContainer : JsString → Bool
  removeContainer : JsString → Bool
  stopPodSandbox : JsString → Bool
  removePodSandbox : JsString → Bool

structure PodStateProvider where
  shouldPodContentBeRemoved : JsString → Bool
  shouldPodRuntimeBeRemoved : JsString → Bool

structure GCPolicy where
  minAgeMs : Option Int := none
  maxPerPodContainer : Option Int := none
  maxContainers : Option Int := none

def kubernetesPodUIDLabel : JsString := js "io.kubernetes.pod.uid"

/-- `getContainerInfoFromLabels(labels).podUID`. -/
def podUID (labels : JsMap JsString JsString) : JsString := (labels.get kubernetesPodUIDLabel).getD (js "")

def Runtime.removeContainer (rt : Runtime) (id : JsString) : Runtime :=
  { rt with
    containers := rt.containers.filter fun container => container.id ≠ id
    nodup_containers := rt.nodup_containers.sublist (List.filter_sublist.map _) }

def Runtime.removePodSandbox (rt : Runtime) (id : JsString) : Runtime :=
  { rt with
    sandboxes := rt.sandboxes.filter fun sandbox => sandbox.id ≠ id
    nodup_sandboxes := rt.nodup_sandboxes.sublist (List.filter_sublist.map _) }

/-! ## Units -/

structure ContainerGCInfo where
  id : JsString
  name : JsString
  createTime : Int
  unknown : Bool
  deriving DecidableEq

structure SandboxGCInfo where
  id : JsString
  createTime : Int
  active : Bool
  deriving DecidableEq

structure EvictUnit where
  uid : JsString
  name : JsString
  deriving DecidableEq

def evictUnitKey (key : EvictUnit) : JsString := key.uid ++ [0] ++ key.name

def byCreated (left right : ContainerGCInfo) : Int := right.createTime - left.createTime

def sandboxByCreated (left right : SandboxGCInfo) : Int := right.createTime - left.createTime

/-- The containers of each unit, under the text of the unit. -/
abbrev ContainersByEvictUnit := JsMap JsString (EvictUnit × List ContainerGCInfo)

namespace ContainersByEvictUnit

def keys (evictUnits : ContainersByEvictUnit) : List EvictUnit :=
  evictUnits.entries.map fun entry => entry.2.1

def get (evictUnits : ContainersByEvictUnit) (key : EvictUnit) : Option (List ContainerGCInfo) :=
  (JsMap.get evictUnits (evictUnitKey key)).map Prod.snd

def set (evictUnits : ContainersByEvictUnit) (key : EvictUnit) (value : List ContainerGCInfo) :
    ContainersByEvictUnit :=
  JsMap.set evictUnits (evictUnitKey key) (key, value)

def delete (evictUnits : ContainersByEvictUnit) (key : EvictUnit) : ContainersByEvictUnit :=
  JsMap.delete evictUnits (evictUnitKey key)

def append (evictUnits : ContainersByEvictUnit) (key : EvictUnit) (value : ContainerGCInfo) :
    ContainersByEvictUnit :=
  set evictUnits key ((get evictUnits key).getD [] ++ [value])

def numContainers (evictUnits : ContainersByEvictUnit) : Nat :=
  (evictUnits.entries.map fun entry => entry.2.2.length).sum

def numEvictUnits (evictUnits : ContainersByEvictUnit) : Nat := evictUnits.size

end ContainersByEvictUnit

/-! ## The collector -/

section Collector

variable (host : Host) (now : Int) (podStateProvider : PodStateProvider)

/-- One turn of the loop of `removeOldestN`. -/
def evict (rt : Runtime) (container : ContainerGCInfo) : Runtime :=
  if container.unknown && !host.killContainer container.id then rt
  else if host.removeContainer container.id then rt.removeContainer container.id
  else rt

def removeOldestN (rt : Runtime) (containers : List ContainerGCInfo) (toRemove : Nat) :
    List ContainerGCInfo × Runtime :=
  let numToKeep := containers.length - toRemove
  let containers :=
    if numToKeep > 0 then containers.insertionSort fun left right => byCreated left right ≤ 0
    else containers
  (containers.take numToKeep, (containers.drop numToKeep).reverse.foldl (evict host) rt)

def removeSandbox (rt : Runtime) (sandboxID : JsString) : Runtime :=
  if host.stopPodSandbox sandboxID && host.removePodSandbox sandboxID then rt.removePodSandbox sandboxID
  else rt

def removeOldestNSandboxes (rt : Runtime) (sandboxes : List SandboxGCInfo) (toRemove : Nat) : Runtime :=
  let numToKeep := sandboxes.length - toRemove
  let sandboxes :=
    if numToKeep > 0 then sandboxes.insertionSort fun left right => sandboxByCreated left right ≤ 0
    else sandboxes
  (sandboxes.drop numToKeep).reverse.foldl
    (fun rt sandbox => if sandbox.active then rt else removeSandbox host rt sandbox.id) rt

def enforceMaxContainersPerEvictUnit (evictUnits : ContainersByEvictUnit) (rt : Runtime)
    (maxContainers : Nat) : ContainersByEvictUnit × Runtime :=
  evictUnits.keys.foldl (fun (evictUnits, rt) key =>
    let unit := (evictUnits.get key).getD []
    if unit.length > maxContainers then
      let (kept, rt) := removeOldestN host rt unit (unit.length - maxContainers)
      (evictUnits.set key kept, rt)
    else (evictUnits, rt)) (evictUnits, rt)

def unitOf (container : Container) : EvictUnit := ⟨podUID container.labels, container.name⟩

def infoOf (container : Container) : ContainerGCInfo where
  id := container.id
  name := container.name
  createTime := container.createdAt
  unknown := container.state = .unknown

/-- The container does not run, and is old enough. -/
def evictable (minAgeMs : Int) (container : Container) : Bool :=
  container.state ≠ .running && container.createdAt ≤ now - minAgeMs

def evictableContainers (rt : Runtime) (minAgeMs : Int) : Option ContainersByEvictUnit :=
  if host.listContainers then
    some ((rt.containers.filter (evictable now minAgeMs)).foldl
      (fun (evictUnits : ContainersByEvictUnit) container =>
        evictUnits.append (unitOf container) (infoOf container)) JsMap.empty)
  else none

/-- Everything of the pod is to go. -/
def toBeRemoved (evictNonDeletedPods : Bool) (uid : JsString) : Bool :=
  podStateProvider.shouldPodContentBeRemoved uid ||
    evictNonDeletedPods && podStateProvider.shouldPodRuntimeBeRemoved uid

def evictDeletedPods (evictNonDeletedPods : Bool) (evictUnits : ContainersByEvictUnit) (rt : Runtime) :
    ContainersByEvictUnit × Runtime :=
  evictUnits.keys.foldl (fun (evictUnits, rt) key =>
    let unit := (evictUnits.get key).getD []
    if toBeRemoved podStateProvider evictNonDeletedPods key.uid then
      (evictUnits.delete key, (removeOldestN host rt unit unit.length).2)
    else (evictUnits, rt)) (evictUnits, rt)

/-- The rounds for `maxContainers`. -/
def enforceMaxContainers (evictUnits : ContainersByEvictUnit) (rt : Runtime) (maxContainers : Nat) :
    Runtime :=
  if evictUnits.numContainers > maxContainers then
    let numContainersPerEvictUnit := max 1 (maxContainers / evictUnits.numEvictUnits)
    let (evictUnits, rt) := enforceMaxContainersPerEvictUnit host evictUnits rt numContainersPerEvictUnit
    if evictUnits.numContainers > maxContainers then
      let flattened := evictUnits.keys.flatMap fun key => (evictUnits.get key).getD []
      let flattened := flattened.insertionSort fun left right => byCreated left right ≤ 0
      (removeOldestN host rt flattened (evictUnits.numContainers - maxContainers)).2
    else rt
  else rt

def evictContainers (gcPolicy : GCPolicy) (allSourcesReady evictNonDeletedPods : Bool) (rt : Runtime) :
    Runtime :=
  match evictableContainers host now rt (gcPolicy.minAgeMs.getD 0) with
  | none => rt
  | some evictUnits =>
    let (evictUnits, rt) :=
      if allSourcesReady then evictDeletedPods host podStateProvider evictNonDeletedPods evictUnits rt
      else (evictUnits, rt)
    let maxPerPodContainer := gcPolicy.maxPerPodContainer.getD 0
    let (evictUnits, rt) :=
      if maxPerPodContainer ≥ 0 then
        enforceMaxContainersPerEvictUnit host evictUnits rt maxPerPodContainer.toNat
      else (evictUnits, rt)
    let maxContainers := gcPolicy.maxContainers.getD 0
    if maxContainers ≥ 0 then enforceMaxContainers host evictUnits rt maxContainers.toNat else rt

/-- The sandboxes of each pod, each with whether it is in use. -/
def sandboxesByPod (rt : Runtime) : JsMap JsString (List SandboxGCInfo) :=
  let sandboxIDs := rt.containers.map Container.podSandboxId
  rt.sandboxes.foldl (JsMap.addTo PodSandbox.uid fun existing sandbox =>
    existing.getD [] ++ [{
      id := sandbox.id
      createTime := sandbox.createdAt
      active := sandbox.state = .ready || sandboxIDs.contains sandbox.id }]) JsMap.empty

def evictSandboxes (evictNonDeletedPods : Bool) (rt : Runtime) : Runtime :=
  if host.listContainers && host.listPodSandbox then
    (sandboxesByPod rt).entries.foldl (fun rt entry =>
      let (podUID, sandboxes) := entry
      if toBeRemoved podStateProvider evictNonDeletedPods podUID then
        removeOldestNSandboxes host rt sandboxes sandboxes.length
      else removeOldestNSandboxes host rt sandboxes (sandboxes.length - 1)) rt
  else rt

def garbageCollect (gcPolicy : GCPolicy) (allSourcesReady evictNonDeletedPods : Bool) (rt : Runtime) :
    Runtime :=
  evictSandboxes host podStateProvider evictNonDeletedPods
    (evictContainers host now podStateProvider gcPolicy allSourcesReady evictNonDeletedPods rt)

end Collector

end GC

end Webernetes.Kuberuntime
