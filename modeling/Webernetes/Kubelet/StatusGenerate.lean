/-
Webernetes.Kubelet.StatusGenerate — the conditions on the readiness of a pod
and of its containers, as the kubelet generates them.
-/
import Webernetes.Api.PodUtil

namespace Webernetes.Kubelet

open Js Api

variable {T O : Type}

def formatContainerNames (names : List JsString) : JsString :=
  js "[" ++ (js " ").intercalate names ++ js "]"

/-- `pod.metadata?.generation ?? 0`, for a condition of the pod. -/
def conditionGeneration (pod : Api.Pod T O) (conditionType : JsString) : Option Int :=
  some (calculatePodConditionObservedGeneration (pod.generation.getD 0) conditionType)

def generateContainersReadyConditionForTerminalPhase (pod : Api.Pod T O) (phase : Option JsString) :
    PodCondition T where
  type := js "ContainersReady"
  observedGeneration := conditionGeneration pod (js "ContainersReady")
  status := js "False"
  reason := some (if phase = some (js "Failed") then js "PodFailed" else js "PodCompleted")

def generatePodReadyConditionForTerminalPhase (pod : Api.Pod T O) (phase : Option JsString) : PodCondition T where
  type := js "Ready"
  observedGeneration := conditionGeneration pod (js "Ready")
  status := js "False"
  reason := some (if phase = some (js "Failed") then js "PodFailed" else js "PodCompleted")

/-- The containers whose statuses are asked for, by their names. -/
def readyContainers (pod : Api.Pod T O) : List JsString :=
  let spec := pod.spec.getD {}
  (((spec.initContainers.getD []).filter fun container => isRestartableInitContainer (some container))
    ++ spec.containers.getD []).map Container.name

def unknownContainers (pod : Api.Pod T O) (containerStatuses : List (ContainerStatus T O)) : List JsString :=
  (readyContainers pod).filter fun name => (getContainerStatus (some containerStatuses) name).isNone

def unreadyContainers (pod : Api.Pod T O) (containerStatuses : List (ContainerStatus T O)) : List JsString :=
  (readyContainers pod).filter fun name =>
    (getContainerStatus (some containerStatuses) name).any fun status => !status.ready

def generateContainersReadyCondition (pod : Api.Pod T O) (containerStatuses : Option (List (ContainerStatus T O)))
    (podPhase : Option JsString) : PodCondition T :=
  let observedGeneration := conditionGeneration pod (js "ContainersReady")
  match containerStatuses with
  | none =>
    { type := js "ContainersReady", observedGeneration, status := js "False",
      reason := some (js "UnknownContainerStatuses") }
  | some containerStatuses =>
    let unknown := unknownContainers pod containerStatuses
    let unready := unreadyContainers pod containerStatuses
    if podPhase = some (js "Succeeded") && unknown.isEmpty then
      generateContainersReadyConditionForTerminalPhase pod podPhase
    else if podPhase = some (js "Failed") then
      generateContainersReadyConditionForTerminalPhase pod podPhase
    else
      let unknownMessages := if unknown.isEmpty then []
        else [js "containers with unknown status: " ++ formatContainerNames unknown]
      let unreadyMessages := if unready.isEmpty then []
        else [js "containers with unready status: " ++ formatContainerNames unready]
      let unreadyMessage := (js ", ").intercalate (unknownMessages ++ unreadyMessages)
      if !unreadyMessage.isEmpty then
        { type := js "ContainersReady", observedGeneration, status := js "False",
          reason := some (js "ContainersNotReady"), message := some unreadyMessage }
      else { type := js "ContainersReady", observedGeneration, status := js "True" }

/-- What is said of a readiness gate that is not met. -/
def readinessGateMessage (conditions : Option (List (PodCondition T))) (conditionType : JsString) :
    Option JsString :=
  match getPodConditionFromList conditions conditionType with
  | none => some (js "corresponding condition of pod readiness gate \"" ++ conditionType
      ++ js "\" does not exist.")
  | some condition =>
    if condition.status ≠ js "True" then
      some (js "the status of pod readiness gate \"" ++ conditionType ++ js "\" is not \"True\", but "
        ++ condition.status)
    else none

def generatePodReadyCondition (pod : Api.Pod T O) (conditions : Option (List (PodCondition T)))
    (containerStatuses : Option (List (ContainerStatus T O))) (phase : Option JsString) : PodCondition T :=
  let observedGeneration := conditionGeneration pod (js "Ready")
  let containersReady := generateContainersReadyCondition pod containerStatuses phase
  if containersReady.status ≠ js "True" then
    { type := js "Ready", observedGeneration, status := containersReady.status,
      reason := containersReady.reason, message := containersReady.message }
  else
    let gates := ((pod.spec.getD {}).readinessGates.getD [])
    let unreadyMessages := gates.filterMap (readinessGateMessage conditions)
    if !unreadyMessages.isEmpty then
      { type := js "Ready", observedGeneration, status := js "False",
        reason := some (js "ReadinessGatesNotReady"),
        message := some ((js ", ").intercalate unreadyMessages) }
    else { type := js "Ready", observedGeneration, status := js "True" }

end Webernetes.Kubelet
