/-
Webernetes.Kubelet.StatusManager — the statuses that the kubelet caches for
its pods, and the four calls that update them.

The pod manager is read once a call, and the clock for each condition. That
the loop that syncs is woken, and what the notifiers are told, is left out but
for the notification itself.
-/
import Webernetes.Etcd.Keys
import Webernetes.Kubelet.PodConfig
import Webernetes.Kubelet.StatusGenerate

namespace Webernetes.Kubelet

open Js Api

variable {T O : Type}

/-! ## Pods and containers -/

def podConditionsByKubelet : List JsString :=
  [js "PodScheduled", js "Ready", js "Initialized", js "ContainersReady", js "PodResizeInProgress",
    js "PodResizePending"]

def podConditionByKubelet (conditionType : JsString) : Bool :=
  podConditionsByKubelet.contains conditionType || conditionType = js "PodReadyToStartContainers"
    || conditionType = js "AllContainersRestarting"

def podConditionSharedByKubelet (conditionType : JsString) : Bool := conditionType = js "DisruptionTarget"

def apiserverSource : JsString := js "api"

/-- `getPodSource`, where there is no error. -/
def getPodSource (pod : Api.Pod T O) : Option JsString :=
  (pod.annotations.getD .empty).get PodConfig.configSourceAnnotationKey

def isStaticPod (pod : Api.Pod T O) : Bool := (getPodSource pod).any fun source => source ≠ apiserverSource

def podStatusKey (pod : Api.Pod T O) : JsString :=
  pod.uid.getD (pod.namespace.getD (js "default") ++ js "/" ++ pod.name.getD [])

structure ContainerID where
  type : JsString
  id : JsString
  deriving DecidableEq

def ContainerID.toString (id : ContainerID) : JsString := id.type ++ js "://" ++ id.id

/-- The text before a separator that comes first in it, and the text after. -/
def cutFirst (separator : JsString) : JsString → Option (JsString × JsString)
  | [] => none
  | u :: us =>
    if separator.isPrefixOf (u :: us) then some ([], (u :: us).drop separator.length)
    else (cutFirst separator us).map fun (before, after) => (u :: before, after)

def trimQuotes (text : JsString) : JsString :=
  let isQuote (u : CodeUnit) : Bool := js "\"" = [u]
  ((text.dropWhile isQuote).reverse.dropWhile isQuote).reverse

def parseContainerID (containerID : Option JsString) : ContainerID :=
  match cutFirst (js "://") (trimQuotes (containerID.getD [])) with
  | none => ⟨[], []⟩
  | some (type, id) => if (cutFirst (js "://") id).isSome then ⟨[], []⟩ else ⟨type, id⟩

/-! ## Normal statuses -/

/-- The host's collation and its reading of dates. -/
structure Host (T : Type) where
  locale : Etcd.Locale
  parseDate : JsString → T

section Normalize

variable (host : Host T)

/-- `new Date(time)`. -/
def toDate : Stamp T → T
  | .date t => t
  | .text s => host.parseDate s

def normalizeTimeStamp (time : Option (Stamp T)) : Option (Stamp T) :=
  if Stamp.truthy time then time.map fun time => .date (toDate host time) else none

/-- A time that is normalised where it is there. -/
def normalizeIfThere (time : Option (Stamp T)) : Option (Stamp T) :=
  if Stamp.truthy time then normalizeTimeStamp host time else time

def normalizeRunning (running : ContainerStateRunning T) : ContainerStateRunning T :=
  { running with startedAt := normalizeIfThere host running.startedAt }

def normalizeTerminated (bytesPerStatus : Nat) (terminated : ContainerStateTerminated T O) :
    ContainerStateTerminated T O :=
  { terminated with
    startedAt := normalizeIfThere host terminated.startedAt
    finishedAt := normalizeIfThere host terminated.finishedAt
    message := terminated.message.map fun message =>
      if message.length > bytesPerStatus then message.take bytesPerStatus else message }

def normalizeContainerState (bytesPerStatus : Nat) (state : ContainerState T O) : ContainerState T O :=
  { state with
    running := state.running.map (normalizeRunning host)
    terminated := state.terminated.map (normalizeTerminated host bytesPerStatus) }

/-- A container's status, as the loop over the statuses leaves it. -/
def normalizeContainerStatus (bytesPerStatus : Nat) (status : ContainerStatus T O) : ContainerStatus T O :=
  { status with
    state := status.state.map (normalizeContainerState host bytesPerStatus)
    lastState := status.lastState.map (normalizeContainerState host bytesPerStatus) }

/-- The loop over the statuses, and the sort after it. -/
def normalizeContainerStatuses (bytesPerStatus : Nat) (statuses : List (ContainerStatus T O)) :
    List (ContainerStatus T O) :=
  (statuses.map (normalizeContainerStatus host bytesPerStatus)).mergeSort fun left right =>
    (host.locale.localeCompare left.name right.name).isLE

def maxPodTerminationMessageLogLength : Nat := 1024 * 12

def bytesPerStatus (pod : Api.Pod T O) : Nat :=
  let spec := pod.spec.getD {}
  let containers := (spec.containers.getD []).length + (spec.initContainers.getD []).length
    + (spec.ephemeralContainers.getD []).length
  if containers > 0 then maxPodTerminationMessageLogLength / containers
  else maxPodTerminationMessageLogLength

def normalizeCondition (condition : PodCondition T) : PodCondition T :=
  { condition with
    lastProbeTime := normalizeTimeStamp host condition.lastProbeTime
    lastTransitionTime := normalizeTimeStamp host condition.lastTransitionTime }

def normalizeStatus (pod : Api.Pod T O) (status : PodStatus T O) : PodStatus T O :=
  let normalizeAll := normalizeContainerStatuses host (bytesPerStatus pod)
  { status with
    startTime := normalizeIfThere host status.startTime
    conditions := status.conditions.map (List.map (normalizeCondition host))
    containerStatuses := status.containerStatuses.map normalizeAll
    initContainerStatuses := status.initContainerStatuses.map normalizeAll
    ephemeralContainerStatuses := status.ephemeralContainerStatuses.map normalizeAll }

end Normalize

/-! ## Comparing statuses -/

/-- The conditions that the kubelet owns or shares, by their types. -/
def kubeletConditions (status : PodStatus T O) : JsMap JsString (PodCondition T) :=
  .ofList (((status.conditions.getD []).filter fun c =>
    podConditionByKubelet c.type || podConditionSharedByKubelet c.type).map fun c => (c.type, c))

def sameCondition (oldCondition newCondition : PodCondition T) : Bool :=
  oldCondition.status = newCondition.status && oldCondition.message = newCondition.message
    && oldCondition.reason = newCondition.reason

def isPodStatusByKubeletEqual [DecidableEq T] [DecidableEq O] (oldStatus status : PodStatus T O) : Bool :=
  let newConditions := kubeletConditions status
  let oldConditions := kubeletConditions oldStatus
  if newConditions.size ≠ oldConditions.size then false
  else if newConditions.values.any fun newCondition =>
      !(oldConditions.get newCondition.type).any fun oldCondition => sameCondition oldCondition newCondition
    then false
  else
    let oldCopy := { oldStatus with
      conditions := status.conditions
      resourceClaimStatuses := status.resourceClaimStatuses
      extendedResourceClaimStatus := status.extendedResourceClaimStatus
      nodeAllocatableResourceClaimStatuses := status.nodeAllocatableResourceClaimStatuses
      observedGeneration := some (oldStatus.observedGeneration.getD 0) }
    oldCopy = { status with observedGeneration := some (status.observedGeneration.getD 0) }

/-! ## Updating a status -/

def updateLastTransitionTime (now : T) (status oldStatus : PodStatus T O) (conditionType : JsString) :
    PodStatus T O :=
  match getPodCondition status conditionType with
  | none => status
  | some condition =>
    let lastTransitionTime :=
      match getPodCondition oldStatus conditionType with
      | none => some (.date now)
      | some oldCondition =>
        if condition.status = oldCondition.status then oldCondition.lastTransitionTime
        else some (.date now)
    { status with conditions :=
        status.conditions.map (setCondition conditionType fun c => { c with lastTransitionTime }) }

/-- The conditions whose transition times are kept. -/
def transitionConditions : List JsString :=
  [js "ContainersReady", js "Ready", js "Initialized", js "PodReadyToStartContainers", js "PodScheduled",
    js "DisruptionTarget", js "AllContainersRestarting"]

/-- A terminated container that nothing lets restart. -/
def mayNotRestart (podSpec : Option PodSpec) (status : ContainerStatus T O)
    (terminated : ContainerStateTerminated T O) : Bool :=
  !(terminated.exitCode ≠ 0 && podSpec.bind PodSpec.restartPolicy = some (js "OnFailure"))
    && !((podSpec.getD {}).containers.getD []).any fun container =>
      container.name = status.name && containerShouldRestart container podSpec terminated.exitCode

/-- The loop over the new statuses, for an old one. -/
def leavesTerminated (podSpec : Option PodSpec) (newStatuses : PodStatus T O) (oldStatus : ContainerStatus T O) :
    Option JsString :=
  match oldStatus.terminated with
  | none => none
  | some terminated =>
    if mayNotRestart podSpec oldStatus terminated then
      ((newStatuses.containerStatuses.getD []).find? fun newStatus =>
        oldStatus.name = newStatus.name && newStatus.terminated.isNone).map ContainerStatus.name
    else none

/-- The message of the error. -/
def checkContainerStateTransition (oldStatuses newStatuses : PodStatus T O) (podSpec : Option PodSpec) :
    Option JsString :=
  if podSpec.bind PodSpec.restartPolicy = some (js "Always") then none
  else if allContainersCouldRestart podSpec then none
  else ((oldStatuses.containerStatuses.getD []).findSome? (leavesTerminated podSpec newStatuses)).map fun name =>
    js "terminated container " ++ name ++ js " attempted illegal transition to non-terminated state"

structure VersionedPodStatus (T O : Type) where
  version : Nat
  podName : JsString
  podNamespace : Option JsString
  «at» : T
  podIsFinished : Bool
  status : PodStatus T O

structure PodStatusNotification (T O : Type) where
  pod : Api.Pod T O
  status : PodStatus T O
  isAdded : Bool
  podIsFinished : Bool

abbrev PodStatuses (T O : Type) := JsMap JsString (VersionedPodStatus T O)

/-- What a call reads of the clock. -/
structure Readings (T : Type) where
  transition : JsString → T
  start : T
  «at» : T

/-- What a call reads of the pod manager. -/
structure PodManager (T O : Type) where
  getPodByUid : JsString → Option (Api.Pod T O)
  getMirrorPodByPod : Api.Pod T O → Option (Api.Pod T O)

/-- What there is after `updateStatusInternal`. -/
structure Updated (T O : Type) where
  podStatuses : PodStatuses T O
  changed : Bool := false
  notification : Option (PodStatusNotification T O) := none

section Update

variable (host : Host T) (manager : PodManager T O) (clock : Readings T) (podStatuses : PodStatuses T O)

/-- The status before the update. -/
def oldStatusOf (pod : Api.Pod T O) : PodStatus T O :=
  match podStatuses.get (podStatusKey pod) with
  | some cachedStatus => cachedStatus.status
  | none =>
    match manager.getMirrorPodByPod pod with
    | some mirrorPod => mirrorPod.status.getD {}
    | none => pod.status.getD {}

def keepStartTime (status oldStatus : PodStatus T O) : PodStatus T O :=
  if Stamp.truthy oldStatus.startTime then
    { status with startTime := oldStatus.startTime.map fun time => .date (toDate host time) }
  else if !Stamp.truthy status.startTime then { status with startTime := some (.date clock.start) }
  else status

def keepObservedGeneration (status oldStatus : PodStatus T O) : PodStatus T O :=
  if oldStatus.observedGeneration.getD 0 > status.observedGeneration.getD 0 then
    { status with observedGeneration := oldStatus.observedGeneration }
  else status

/-- The status as it is when it is compared with the cached one. -/
def nextStatus (pod : Api.Pod T O) (status oldStatus : PodStatus T O) : PodStatus T O :=
  let status := transitionConditions.foldl (fun status conditionType =>
    updateLastTransitionTime (clock.transition conditionType) status oldStatus conditionType) status
  let status := keepStartTime host clock status oldStatus
  let status := keepObservedGeneration status oldStatus
  normalizeStatus host pod status

def nextIsFinished (pod : Api.Pod T O) (cachedStatus : Option (VersionedPodStatus T O)) (podIsFinished : Bool) : Bool :=
  podIsFinished || (!isStaticPod pod && cachedStatus.any VersionedPodStatus.podIsFinished)

variable [DecidableEq T] [DecidableEq O]

def updateStatusInternal (pod : Api.Pod T O) (status : PodStatus T O) (forceUpdate podIsFinished : Bool) :
    Updated T O :=
  let name := pod.name.getD []
  if name.isEmpty then { podStatuses }
  else
    let key := podStatusKey pod
    let cachedStatus := podStatuses.get key
    let oldStatus := oldStatusOf manager podStatuses pod
    let podIsFinished := nextIsFinished pod cachedStatus podIsFinished
    if (checkContainerStateTransition oldStatus status pod.spec).isSome then { podStatuses }
    else
      let status := nextStatus host clock pod status oldStatus
      if cachedStatus.any (fun cached => isPodStatusByKubeletEqual cached.status status) && !forceUpdate then
        { podStatuses }
      else
        let newStatus : VersionedPodStatus T O :=
          { status
            version := ((cachedStatus.map VersionedPodStatus.version).getD 0) + 1
            podName := name
            podNamespace := pod.namespace
            podIsFinished
            «at» := (cachedStatus.map VersionedPodStatus.at).getD clock.at }
        { podStatuses := podStatuses.set key newStatus
          changed := true
          notification := some {
            pod := { pod with status := some status }
            status
            isAdded := cachedStatus.isNone && pod.deletionTimestamp.isNone
            podIsFinished } }

end Update

/-! ## The calls -/

def findContainerStatus (status : PodStatus T O) (containerId : ContainerID) : Option (ContainerStatus T O) :=
  (status.containerStatuses.getD []).find? fun containerStatus =>
    (parseContainerID containerStatus.containerID).toString = containerId.toString

/-- An assignment to the status that `findContainerStatus` finds. -/
def setContainerStatus (containerId : ContainerID) (f : ContainerStatus T O → ContainerStatus T O)
    (status : PodStatus T O) : PodStatus T O :=
  { status with containerStatuses := status.containerStatuses.map (setFirst (fun containerStatus =>
      (parseContainerID containerStatus.containerID).toString = containerId.toString) f) }

/-- `updateConditionFunc`. -/
def updateCondition (conditionType : JsString) (condition : PodCondition T) (status : PodStatus T O) :
    PodStatus T O :=
  let conditions := status.conditions.getD []
  { status with conditions := some (
      if conditions.any fun condition => condition.type = conditionType then
        setCondition conditionType (fun _ => condition) conditions
      else conditions ++ [condition]) }

/-- The status with the readiness of a container and the conditions of it. -/
def withReadiness (pod : Api.Pod T O) (containerId : ContainerID) (ready : Bool) (oldStatus : PodStatus T O) :
    PodStatus T O :=
  let status := setContainerStatus containerId (fun containerStatus => { containerStatus with ready }) oldStatus
  let allContainerStatuses := status.containerStatuses.getD []
  let status := updateCondition (js "Ready") (generatePodReadyCondition pod
    (some (status.conditions.getD [])) (some allContainerStatuses) status.phase) status
  updateCondition (js "ContainersReady") (generateContainersReadyCondition pod
    (some allContainerStatuses) status.phase) status

def getContainerByIndex (containers : List Api.Container) (statuses : List (ContainerStatus T O)) (idx : Nat) :
    Option Api.Container :=
  match containers[idx]?, statuses[idx]? with
  | some container, some status => if status.name = container.name then some container else none
  | _, _ => none

def exitedWithZero (state : Option (ContainerState T O)) : Bool :=
  (state.bind ContainerState.terminated).any fun terminated => terminated.exitCode = 0

/-- The last init container has done its work. -/
def lastInitContainerDone (container : Api.Container) (status : ContainerStatus T O) : Bool :=
  if isRestartableInitContainer (some container) then
    (status.state.bind ContainerState.running).isSome && status.started = some true
  else exitedWithZero status.lastState || exitedWithZero status.state

def hasPodInitialized (pod : Api.Pod T O) : Bool :=
  let initContainers := (pod.spec.getD {}).initContainers.getD []
  let status := pod.status.getD {}
  let initStatuses := status.initContainerStatuses.getD []
  if initContainers.length = 0 then true
  else if (status.containerStatuses.getD []).any fun status =>
      (status.lastState.bind ContainerState.terminated).isSome || (status.state.bind ContainerState.waiting).isNone
    then true
  else
    match getContainerByIndex initContainers initStatuses (initStatuses.length - 1), initStatuses.getLast? with
    | some container, some status => lastInitContainerDone container status
    | _, _ => false

/-- The init containers up to the last one that is not waiting, the first one
where all of them are. -/
def initializedContainers (containers : List (ContainerStatus T O)) : List (ContainerStatus T O) :=
  let waits (container : ContainerStatus T O) : Bool :=
    (container.state.bind ContainerState.waiting).isSome
      && (container.lastState.bind ContainerState.terminated).isNone
  match (containers.reverse.dropWhile waits).reverse with
  | [] => containers.take 1
  | initialized => initialized

def containerReasonStatusUnknown : JsString := js "ContainerStatusUnknown"

/-- A container that could not be located is terminated. -/
def terminateContainer (status : ContainerStatus T O) : ContainerStatus T O :=
  if status.terminated.isSome then status
  else
    { status with state := some { terminated := some {
        reason := some containerReasonStatusUnknown
        message := some (js "The container could not be located when the pod was terminated")
        exitCode := 137 } } }

/-- The loop over the init containers, from an index on; its bound is read again
in each turn. -/
def terminateInitFrom : Nat → Nat → List (ContainerStatus T O) → List (ContainerStatus T O)
  | 0, _, statuses => statuses
  | turns + 1, i, statuses =>
    if i < (initializedContainers statuses).length then
      terminateInitFrom turns (i + 1) (statuses.modify i terminateContainer)
    else statuses

def terminatedPhase (phase : Option JsString) : Option JsString :=
  if isPodPhaseTerminal phase then phase else some (js "Failed")

/-- The status of a pod that was terminated. -/
def terminatedStatus (pod : Api.Pod T O) (oldStatus : PodStatus T O) : PodStatus T O :=
  { oldStatus with
    containerStatuses :=
      if hasPodInitialized pod then oldStatus.containerStatuses.map (List.map terminateContainer)
      else oldStatus.containerStatuses
    initContainerStatuses := oldStatus.initContainerStatuses.map fun statuses =>
      terminateInitFrom statuses.length 0 statuses
    phase := if isStaticPod pod then oldStatus.phase else terminatedPhase oldStatus.phase }

section Calls

variable (host : Host T) (manager : PodManager T O) (clock : Readings T) (podStatuses : PodStatuses T O)

variable [DecidableEq T] [DecidableEq O]

def setPodStatus (pod : Api.Pod T O) (status : PodStatus T O) : Updated T O :=
  let status := { status with observedGeneration := some (calculatePodStatusObservedGeneration pod) }
  updateStatusInternal host manager clock podStatuses pod status pod.deletionTimestamp.isSome false

/-- The status that `setPodStatus` returns beside whether there was a change. -/
def setPodStatusResult (pod : Api.Pod T O) (status : PodStatus T O) : PodStatus T O :=
  match (setPodStatus host manager clock podStatuses pod status).podStatuses.get (podStatusKey pod) with
  | some cached => cached.status
  | none => { status with observedGeneration := some (calculatePodStatusObservedGeneration pod) }

def setContainerReadiness (podUid : JsString) (containerId : ContainerID) (ready : Bool) : Updated T O :=
  match manager.getPodByUid podUid with
  | none => { podStatuses }
  | some pod =>
    match podStatuses.get (podStatusKey pod) with
    | none => { podStatuses }
    | some oldStatus =>
      match findContainerStatus oldStatus.status containerId with
      | none => { podStatuses }
      | some containerStatus =>
        if containerStatus.ready = ready then { podStatuses }
        else updateStatusInternal host manager clock podStatuses pod
          (withReadiness pod containerId ready oldStatus.status) false false

def setContainerStartup (podUid : JsString) (containerId : ContainerID) (started : Bool) : Updated T O :=
  match manager.getPodByUid podUid with
  | none => { podStatuses }
  | some pod =>
    match podStatuses.get (podStatusKey pod) with
    | none => { podStatuses }
    | some oldStatus =>
      match findContainerStatus oldStatus.status containerId with
      | none => { podStatuses }
      | some containerStatus =>
        if containerStatus.started = some started then { podStatuses }
        else updateStatusInternal host manager clock podStatuses pod
          (setContainerStatus containerId (fun containerStatus => { containerStatus with started := some started })
            oldStatus.status) false false

def terminatePod (pod : Api.Pod T O) : Updated T O :=
  let oldStatus :=
    match podStatuses.get (podStatusKey pod) with
    | some cachedStatus => cachedStatus.status
    | none => pod.status.getD {}
  updateStatusInternal host manager clock podStatuses pod (terminatedStatus pod oldStatus) true true

end Calls

def deletePodStatus (uid : JsString) (podStatuses : PodStatuses T O) : PodStatuses T O := podStatuses.delete uid

def removeOrphanedStatuses (podUids : List JsString) (podStatuses : PodStatuses T O) : PodStatuses T O :=
  (podStatuses.keys.filter fun key => !podUids.contains key).foldl JsMap.delete podStatuses

end Webernetes.Kubelet
