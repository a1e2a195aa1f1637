/-
Webernetes.Api.PodUtil — pods as the kubelet reads them, and what is asked of
their conditions and of their restart policies.

`T` are the values of `Date`, `O` the fields that nothing here reads; two such
fields are compared as `deepEqual` compares them. A field that is not there is
`undefined`.
-/
import Webernetes.Js.OrderedMap
import Webernetes.Js.Text

namespace Webernetes.Api

open Js

variable {T O : Type}

/-! ## Pods -/

/-- A time as it is kept, or as it was read. -/
inductive Stamp (T : Type) where
  | date (t : T)
  | text (s : JsString)
  deriving DecidableEq

/-- A time that is there, and not the empty text. -/
def Stamp.truthy : Option (Stamp T) → Bool
  | none => false
  | some (.text s) => !s.isEmpty
  | some (.date _) => true

structure PodCondition (T : Type) where
  type : JsString
  status : JsString
  reason : Option JsString := none
  message : Option JsString := none
  lastProbeTime : Option (Stamp T) := none
  lastTransitionTime : Option (Stamp T) := none
  observedGeneration : Option Int := none
  deriving DecidableEq

structure ContainerStateWaiting where
  reason : Option JsString := none
  message : Option JsString := none
  deriving DecidableEq

structure ContainerStateRunning (T : Type) where
  startedAt : Option (Stamp T) := none
  deriving DecidableEq

structure ContainerStateTerminated (T O : Type) where
  exitCode : Int
  reason : Option JsString := none
  message : Option JsString := none
  startedAt : Option (Stamp T) := none
  finishedAt : Option (Stamp T) := none
  other : Option O := none
  deriving DecidableEq

structure ContainerState (T O : Type) where
  waiting : Option ContainerStateWaiting := none
  running : Option (ContainerStateRunning T) := none
  terminated : Option (ContainerStateTerminated T O) := none
  deriving DecidableEq

structure ContainerStatus (T O : Type) where
  name : JsString
  containerID : Option JsString := none
  ready : Bool := false
  started : Option Bool := none
  state : Option (ContainerState T O) := none
  lastState : Option (ContainerState T O) := none
  other : Option O := none
  deriving DecidableEq

/-- `state?.terminated`. -/
def ContainerStatus.terminated (status : ContainerStatus T O) : Option (ContainerStateTerminated T O) :=
  status.state.bind ContainerState.terminated

structure PodStatus (T O : Type) where
  phase : Option JsString := none
  reason : Option JsString := none
  message : Option JsString := none
  conditions : Option (List (PodCondition T)) := none
  startTime : Option (Stamp T) := none
  observedGeneration : Option Int := none
  containerStatuses : Option (List (ContainerStatus T O)) := none
  initContainerStatuses : Option (List (ContainerStatus T O)) := none
  ephemeralContainerStatuses : Option (List (ContainerStatus T O)) := none
  resourceClaimStatuses : Option O := none
  extendedResourceClaimStatus : Option O := none
  nodeAllocatableResourceClaimStatuses : Option O := none
  other : Option O := none
  deriving DecidableEq

structure ExitCodes where
  operator : JsString
  values : Option (List Int) := none
  deriving DecidableEq

structure ContainerRestartRule where
  action : JsString
  exitCodes : Option ExitCodes := none
  deriving DecidableEq

structure Container where
  name : JsString
  restartPolicy : Option JsString := none
  restartPolicyRules : Option (List ContainerRestartRule) := none
  deriving DecidableEq

/-- The readiness gates by their condition types. -/
structure PodSpec where
  restartPolicy : Option JsString := none
  containers : Option (List Container) := none
  initContainers : Option (List Container) := none
  ephemeralContainers : Option (List Container) := none
  readinessGates : Option (List JsString) := none
  deriving DecidableEq

/-- A `V1Pod`, with the fields of its `metadata` in front. -/
structure Pod (T O : Type) where
  name : Option JsString := none
  «namespace» : Option JsString := none
  uid : Option JsString := none
  annotations : Option (JsMap JsString JsString) := none
  deletionTimestamp : Option (Stamp T) := none
  generation : Option Int := none
  spec : Option PodSpec := none
  status : Option (PodStatus T O) := none

/-! ## Conditions -/

def getContainerStatus (statuses : Option (List (ContainerStatus T O))) (name : JsString) :
    Option (ContainerStatus T O) :=
  (statuses.getD []).find? fun status => status.name = name

def getPodConditionFromList (conditions : Option (List (PodCondition T))) (conditionType : JsString) :
    Option (PodCondition T) :=
  (conditions.getD []).find? fun condition => condition.type = conditionType

def getPodCondition (status : PodStatus T O) (conditionType : JsString) : Option (PodCondition T) :=
  getPodConditionFromList status.conditions conditionType

/-- An assignment to the first element that there is of a kind. -/
def setFirst {α : Type} (p : α → Bool) (f : α → α) : List α → List α
  | [] => []
  | x :: xs => if p x then f x :: xs else x :: setFirst p f xs

/-- An assignment to the condition that `getPodCondition` finds. -/
def setCondition (conditionType : JsString) (f : PodCondition T → PodCondition T)
    (conditions : List (PodCondition T)) : List (PodCondition T) :=
  setFirst (fun condition => condition.type = conditionType) f conditions

/-- What is found after an assignment that keeps the types. -/
theorem find?_setCondition {conditionType conditionType' : JsString} {f : PodCondition T → PodCondition T}
    (hf : ∀ condition, (f condition).type = condition.type) (conditions : List (PodCondition T)) :
    (setCondition conditionType f conditions).find? (fun condition => condition.type = conditionType') =
      if conditionType' = conditionType then
        (conditions.find? fun condition => condition.type = conditionType').map f
      else conditions.find? fun condition => condition.type = conditionType' := by
  unfold setCondition
  induction conditions with
  | nil =>
    rw [setFirst]
    split <;> rfl
  | cons condition conditions ih =>
    rw [setFirst]
    by_cases htype : condition.type = conditionType
    · rw [if_pos (by simpa using htype), List.find?_cons, List.find?_cons, hf, htype]
      by_cases hsame : conditionType' = conditionType
      · subst hsame
        simp
      · simp [hsame, Ne.symm hsame]
    · rw [if_neg (by simpa using htype), List.find?_cons, List.find?_cons, ih]
      by_cases hfound : condition.type = conditionType'
      · have hne : conditionType' ≠ conditionType := by
          rintro rfl
          exact htype hfound
        simp [hfound, hne]
      · simp [hfound]

/-! ## Phases, generations and restarts -/

def isPodPhaseTerminal (phase : Option JsString) : Bool :=
  phase = some (js "Failed") || phase = some (js "Succeeded")

/-- Both branches of the source give the generation of the pod. -/
def calculatePodStatusObservedGeneration (pod : Pod T O) : Int := pod.generation.getD 0

def calculatePodConditionObservedGeneration (generation : Int) (_conditionType : JsString) : Int := generation

def isRestartableInitContainer (initContainer : Option Container) : Bool :=
  match initContainer.bind Container.restartPolicy with
  | none => false
  | some restartPolicy => restartPolicy = js "Always"

/-- The rule's exit codes match. -/
def ContainerRestartRule.matchesExitCode (rule : ContainerRestartRule) (exitCode : Int) : Bool :=
  match rule.exitCodes with
  | none => false
  | some exitCodes =>
    let exitCodeMatched := (exitCodes.values.getD []).contains exitCode
    if exitCodes.operator = js "In" then exitCodeMatched
    else if exitCodes.operator = js "NotIn" then !exitCodeMatched
    else false

def findMatchingContainerRestartRule (container : Container) (exitCode : Int) : Option ContainerRestartRule :=
  (container.restartPolicyRules.getD []).find? fun rule => rule.matchesExitCode exitCode

/-- The `switch` over a restart policy, where one of its cases is met. -/
def policyRestarts (restartPolicy : JsString) (exitCode : Int) : Option Bool :=
  if restartPolicy = js "Always" then some true
  else if restartPolicy = js "OnFailure" then some (exitCode ≠ 0)
  else if restartPolicy = js "Never" then some false
  else none

/-- The rule of the container that matches asks for a restart. -/
def ruleRestarts (container : Container) (exitCode : Int) : Bool :=
  match findMatchingContainerRestartRule container exitCode with
  | none => false
  | some rule => rule.action = js "Restart" || rule.action = js "RestartAllContainers"

def containerShouldRestart (container : Container) (podSpec : Option PodSpec) (exitCode : Int) : Bool :=
  let byPod := ((podSpec.bind PodSpec.restartPolicy).bind (policyRestarts · exitCode)).getD true
  match container.restartPolicy with
  | none => byPod
  | some restartPolicy =>
    if ruleRestarts container exitCode then true
    else (policyRestarts restartPolicy exitCode).getD byPod

def allContainersCouldRestart (pod : Option PodSpec) : Bool :=
  match pod with
  | none => false
  | some spec =>
    let couldRestart (container : Container) : Bool :=
      (container.restartPolicyRules.getD []).any fun rule => rule.action = js "RestartAllContainers"
    (spec.initContainers.getD []).any couldRestart || (spec.containers.getD []).any couldRestart

end Webernetes.Api
