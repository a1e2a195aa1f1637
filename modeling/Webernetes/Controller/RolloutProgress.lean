/-
Webernetes.Controller.RolloutProgress — how a deployment's `Progressing`
condition is kept: `syncRolloutStatus` and `requeueStuckDeployment` of
`deployment-controller.ts`, with the conditions and the counts of
`deployment-util.ts`.

The time of a condition is a date, or a text where the condition was read
back from the store; `getTime` of a text is a TypeError, and what may throw
gives an option. `updateProgressing_progressed` says why a new status has the
`Progressing` condition it has.
-/
import Webernetes.Api.PodUtil
import Webernetes.Controller.DeploymentUtil

namespace Webernetes.Controller.Rollouts

open Js Api

/-! ## Conditions and statuses -/

/-- Dates are in milliseconds. -/
structure DeploymentCondition where
  type : JsString
  status : JsString
  lastUpdateTime : Option (Stamp Int) := none
  lastTransitionTime : Option (Stamp Int) := none
  reason : Option JsString := none
  message : Option JsString := none
  deriving DecidableEq

structure DeploymentStatus where
  observedGeneration : Option Int := none
  replicas : Option Int := none
  updatedReplicas : Option Int := none
  readyReplicas : Option Int := none
  availableReplicas : Option Int := none
  unavailableReplicas : Option Int := none
  collisionCount : Option Int := none
  terminatingReplicas : Option Int := none
  conditions : Option (List DeploymentCondition) := none
  deriving DecidableEq

structure ReplicaSetCondition where
  type : JsString
  status : JsString
  lastTransitionTime : Option (Stamp Int) := none
  reason : Option JsString := none
  message : Option JsString := none
  deriving DecidableEq

/-- A deployment with the fields its status is computed from. -/
structure RolloutDeployment extends Deployment where
  name : Option JsString := none
  generation : Option Int := none
  progressDeadlineSeconds : Option Int := none
  status : Option DeploymentStatus := none
  deriving DecidableEq

/-- A ReplicaSet with its status; `replicas` is the field of its spec. -/
structure RolloutReplicaSet extends ReplicaSet where
  statusReplicas : Option Int := none
  readyReplicas : Option Int := none
  terminatingReplicas : Option Int := none
  observedGeneration : Option Int := none
  conditions : Option (List ReplicaSetCondition) := none
  deriving DecidableEq

def progressing : JsString := js "Progressing"
def replicaSetUpdatedReason : JsString := js "ReplicaSetUpdated"
def newRSAvailableReason : JsString := js "NewReplicaSetAvailable"
def timedOutReason : JsString := js "ProgressDeadlineExceeded"
def minimumReplicasAvailable : JsString := js "MinimumReplicasAvailable"
def minimumReplicasUnavailable : JsString := js "MinimumReplicasUnavailable"

def newDeploymentCondition (now : Int) (type status reason message : JsString) :
    DeploymentCondition where
  type := type
  status := status
  lastUpdateTime := some (.date now)
  lastTransitionTime := some (.date now)
  reason := some reason
  message := some message

def getDeploymentCondition (status : Option DeploymentStatus) (condType : JsString) :
    Option DeploymentCondition :=
  ((status.bind (·.conditions)).getD []).find? fun condition => decide (condition.type = condType)

def filterOutCondition (conditions : List DeploymentCondition) (condType : JsString) :
    List DeploymentCondition :=
  conditions.filter fun condition => decide (condition.type ≠ condType)

def DeploymentStatus.push (status : DeploymentStatus) (condition : DeploymentCondition) :
    DeploymentStatus :=
  { status with
    conditions :=
      some (filterOutCondition (status.conditions.getD []) condition.type ++ [condition]) }

def setDeploymentCondition (status : DeploymentStatus) (condition : DeploymentCondition) :
    DeploymentStatus :=
  match getDeploymentCondition (some status) condition.type with
  | none => status.push condition
  | some currentCond =>
    if currentCond.status = condition.status then
      if currentCond.reason = condition.reason then status
      else status.push { condition with lastTransitionTime := currentCond.lastTransitionTime }
    else status.push condition

def removeDeploymentCondition (status : DeploymentStatus) (condType : JsString) :
    DeploymentStatus :=
  { status with conditions := some (filterOutCondition (status.conditions.getD []) condType) }

def replicaSetToDeploymentCondition (condition : ReplicaSetCondition) : DeploymentCondition where
  type := condition.type
  status := condition.status
  lastUpdateTime := condition.lastTransitionTime
  lastTransitionTime := condition.lastTransitionTime
  reason := condition.reason
  message := condition.message

/-! What setting and removing do to the conditions of each type, and that
they leave the counts alone. -/

theorem find_filterOut (conditions : List DeploymentCondition) (condType other : JsString) :
    (filterOutCondition conditions condType).find? (fun c => decide (c.type = other))
      = if other = condType then none else conditions.find? (fun c => decide (c.type = other)) := by
  unfold filterOutCondition
  rw [List.find?_filter]
  split
  · rename_i heq
    rw [List.find?_eq_none]
    intro c _
    simp [heq]
  · rename_i hne
    congr 1
    funext c
    by_cases hc : c.type = other
    · simp [hc, hne]
    · simp [hc]

theorem get_push (status : DeploymentStatus) (condition : DeploymentCondition)
    (condType : JsString) :
    getDeploymentCondition (some (status.push condition)) condType
      = if condType = condition.type then some condition
        else getDeploymentCondition (some status) condType := by
  unfold getDeploymentCondition DeploymentStatus.push
  simp only [Option.bind_some, Option.getD_some, List.find?_append, find_filterOut]
  split
  · rename_i heq
    simp [heq]
  · rename_i hne
    simp [Ne.symm hne]

theorem get_remove (status : DeploymentStatus) (condType other : JsString) :
    getDeploymentCondition (some (removeDeploymentCondition status condType)) other
      = if other = condType then none else getDeploymentCondition (some status) other := by
  unfold getDeploymentCondition removeDeploymentCondition
  simp only [Option.bind_some, Option.getD_some, find_filterOut]

theorem get_set_of_ne (status : DeploymentStatus) (condition : DeploymentCondition)
    {condType : JsString} (hne : condType ≠ condition.type) :
    getDeploymentCondition (some (setDeploymentCondition status condition)) condType
      = getDeploymentCondition (some status) condType := by
  unfold setDeploymentCondition
  split
  · simp [get_push, hne]
  · split
    · split
      · rfl
      · simp [get_push, hne]
    · simp [get_push, hne]

/-- A condition that was set is there, with its status and its reason. -/
theorem get_set_self (status : DeploymentStatus) (condition : DeploymentCondition) :
    ∃ c, getDeploymentCondition (some (setDeploymentCondition status condition)) condition.type
        = some c
      ∧ c.status = condition.status ∧ c.reason = condition.reason := by
  unfold setDeploymentCondition
  split
  · exact ⟨condition, by simp [get_push], rfl, rfl⟩
  · rename_i currentCond hcurrent
    split
    · rename_i hstatus
      split
      · rename_i hreason
        exact ⟨currentCond, hcurrent, hstatus, hreason⟩
      · exact ⟨{ condition with lastTransitionTime := currentCond.lastTransitionTime },
          by simp [get_push], rfl, rfl⟩
    · exact ⟨condition, by simp [get_push], rfl, rfl⟩

/-- The same counts and generations. -/
def SameCounts (left right : DeploymentStatus) : Prop :=
  left = { right with conditions := left.conditions }

theorem SameCounts.refl (status : DeploymentStatus) : SameCounts status status := rfl

theorem SameCounts.trans {a b c : DeploymentStatus} (hab : SameCounts a b) (hbc : SameCounts b c) :
    SameCounts a c := by
  unfold SameCounts at hab hbc ⊢
  rw [hab, hbc]

theorem set_sameCounts (status : DeploymentStatus) (condition : DeploymentCondition) :
    SameCounts (setDeploymentCondition status condition) status := by
  unfold setDeploymentCondition
  split
  · rfl
  · split
    · split
      · rfl
      · rfl
    · rfl

theorem remove_sameCounts (status : DeploymentStatus) (condType : JsString) :
    SameCounts (removeDeploymentCondition status condType) status := rfl

/-! ## The progress of a rollout -/

def hasProgressDeadline (deployment : RolloutDeployment) : Bool :=
  decide (deployment.progressDeadlineSeconds ≠ none
    ∧ deployment.progressDeadlineSeconds ≠ some 2147483647)

def getActualReplicaCountForReplicaSets (replicaSets : List RolloutReplicaSet) : Int :=
  (replicaSets.map fun rs => rs.statusReplicas.getD 0).sum

def getReadyReplicaCountForReplicaSets (replicaSets : List RolloutReplicaSet) : Int :=
  (replicaSets.map fun rs => rs.readyReplicas.getD 0).sum

/-- A ReplicaSet that was never observed does not count; one that was, and
has no count, leaves the sum unknown. -/
def getTerminatingReplicaCountForReplicaSets (replicaSets : List RolloutReplicaSet) : Option Int :=
  replicaSets.foldlM (fun terminatingReplicas rs =>
    match rs.terminatingReplicas with
    | some count => some (terminatingReplicas + count)
    | none => if rs.observedGeneration.getD 0 = 0 then some terminatingReplicas else none) 0

def deploymentComplete (deployment : RolloutDeployment) (newStatus : DeploymentStatus) : Bool :=
  decide (newStatus.updatedReplicas.getD 0 = deployment.desired
    ∧ newStatus.replicas.getD 0 = deployment.desired
    ∧ newStatus.availableReplicas.getD 0 = deployment.desired
    ∧ deployment.generation.getD 0 ≤ newStatus.observedGeneration.getD 0)

def deploymentProgressing (deployment : RolloutDeployment) (newStatus : DeploymentStatus) : Bool :=
  let oldStatus := deployment.status.getD {}
  let oldStatusOldReplicas := oldStatus.replicas.getD 0 - oldStatus.updatedReplicas.getD 0
  let newStatusOldReplicas := newStatus.replicas.getD 0 - newStatus.updatedReplicas.getD 0
  decide (oldStatus.updatedReplicas.getD 0 < newStatus.updatedReplicas.getD 0
    ∨ newStatusOldReplicas < oldStatusOldReplicas
    ∨ oldStatus.readyReplicas.getD 0 < newStatus.readyReplicas.getD 0
    ∨ oldStatus.availableReplicas.getD 0 < newStatus.availableReplicas.getD 0)

/-- `getTime`, which a text does not have: a TypeError. -/
def getTime : Stamp Int → Option Int
  | .date t => some t
  | .text _ => none

/-- The deadline in milliseconds. -/
def deltaMs (deployment : RolloutDeployment) : Int :=
  deployment.progressDeadlineSeconds.getD 0 * 1000

/-- Nothing when `getTime` throws. -/
def deploymentTimedOut (now : Int) (deployment : RolloutDeployment) (newStatus : DeploymentStatus) :
    Option Bool :=
  if hasProgressDeadline deployment = false then some false
  else
    match getDeploymentCondition (some newStatus) progressing with
    | none => some false
    | some condition =>
      if condition.reason = some newRSAvailableReason then some false
      else if condition.reason = some timedOutReason then some true
      else if Stamp.truthy condition.lastUpdateTime = false then some false
      else (condition.lastUpdateTime.bind getTime).map fun from_ =>
        decide (from_ + deltaMs deployment < now)

/-- The counts of a status, with the stored conditions. -/
def countStatus (allReplicaSets : List RolloutReplicaSet) (newReplicaSet : Option RolloutReplicaSet)
    (deployment : RolloutDeployment) : DeploymentStatus :=
  let sets := allReplicaSets.map RolloutReplicaSet.toReplicaSet
  let availableReplicas := getAvailableReplicaCountForReplicaSets sets
  let totalReplicas := getReplicaCountForReplicaSets sets
  { observedGeneration := deployment.generation
    replicas := some (getActualReplicaCountForReplicaSets allReplicaSets)
    updatedReplicas := some (getActualReplicaCountForReplicaSets newReplicaSet.toList)
    readyReplicas := some (getReadyReplicaCountForReplicaSets allReplicaSets)
    availableReplicas := some availableReplicas
    unavailableReplicas := some (max (totalReplicas - availableReplicas) 0)
    collisionCount := deployment.status.bind (·.collisionCount)
    terminatingReplicas := getTerminatingReplicaCountForReplicaSets allReplicaSets
    conditions := some ((deployment.status.bind (·.conditions)).getD []) }

/-- The `Available` condition for so many available replicas. -/
def availableCondition (now : Int) (deployment : RolloutDeployment) (availableReplicas : Int) :
    DeploymentCondition :=
  if deployment.desired - maxUnavailable deployment.toDeployment ≤ availableReplicas then
    newDeploymentCondition now (js "Available") (js "True") minimumReplicasAvailable
      (js "Deployment has minimum availability.")
  else
    newDeploymentCondition now (js "Available") (js "False") minimumReplicasUnavailable
      (js "Deployment does not have minimum availability.")

def calculateStatus (now : Int) (allReplicaSets : List RolloutReplicaSet)
    (newReplicaSet : Option RolloutReplicaSet) (deployment : RolloutDeployment) :
    DeploymentStatus :=
  let status := countStatus allReplicaSets newReplicaSet deployment
  setDeploymentCondition status
    (availableCondition now deployment (status.availableReplicas.getD 0))

/-- The failures of a ReplicaSet. -/
def RolloutReplicaSet.failures (rs : RolloutReplicaSet) : List DeploymentCondition :=
  ((rs.conditions.getD []).filter fun condition =>
    decide (condition.type = js "ReplicaFailure")).map replicaSetToDeploymentCondition

def getReplicaFailures (allReplicaSets : List RolloutReplicaSet)
    (newReplicaSet : Option RolloutReplicaSet) : List DeploymentCondition :=
  if (newReplicaSet.toList.flatMap RolloutReplicaSet.failures).isEmpty then
    allReplicaSets.flatMap RolloutReplicaSet.failures
  else newReplicaSet.toList.flatMap RolloutReplicaSet.failures

/-- `ReplicaSet "…"` or `Deployment "…"`, and what it did. -/
def progressMessage (newRS : Option RolloutReplicaSet) (d : RolloutDeployment) (what : JsString) :
    JsString :=
  match newRS with
  | some newRS => js "ReplicaSet \"" ++ newRS.name.getD [] ++ js "\" " ++ what
  | none => js "Deployment \"" ++ d.name.getD [] ++ js "\" " ++ what

/-- A rollout the condition says is over, and nothing of which is old. -/
def isCompleteDeployment (d : RolloutDeployment) (newStatus : DeploymentStatus) : Bool :=
  decide (newStatus.replicas.getD 0 = newStatus.updatedReplicas.getD 0
    ∧ (getDeploymentCondition d.status progressing).bind (·.reason) = some newRSAvailableReason)

/-- The condition of a rollout that progresses. -/
def progressingCondition (now : Int) (newRS : Option RolloutReplicaSet) (d : RolloutDeployment) :
    DeploymentCondition :=
  let condition := newDeploymentCondition now progressing (js "True") replicaSetUpdatedReason
    (progressMessage newRS d (js "is progressing."))
  match getDeploymentCondition d.status progressing with
  | none => condition
  | some currentCond =>
    if currentCond.status = js "True" then
      { condition with lastTransitionTime := currentCond.lastTransitionTime }
    else condition

/-- The new status with its `Progressing` condition; nothing when the sync
throws. -/
def updateProgressing (now : Int) (newRS : Option RolloutReplicaSet) (d : RolloutDeployment)
    (newStatus : DeploymentStatus) : Option DeploymentStatus :=
  if hasProgressDeadline d = false then some (removeDeploymentCondition newStatus progressing)
  else if isCompleteDeployment d newStatus then some newStatus
  else if deploymentComplete d newStatus then
    some (setDeploymentCondition newStatus (newDeploymentCondition now progressing (js "True")
      newRSAvailableReason (progressMessage newRS d (js "has successfully progressed."))))
  else if deploymentProgressing d newStatus then
    -- a current condition is removed first, so that the new one is always set
    let newStatus :=
      if (getDeploymentCondition d.status progressing).isSome then
        removeDeploymentCondition newStatus progressing
      else newStatus
    some (setDeploymentCondition newStatus (progressingCondition now newRS d))
  else
    (deploymentTimedOut now d newStatus).map fun timedOut =>
      if timedOut then
        setDeploymentCondition newStatus (newDeploymentCondition now progressing (js "False")
          timedOutReason (progressMessage newRS d (js "has timed out progressing.")))
      else newStatus

def updateReplicaFailure (allRSs : List RolloutReplicaSet) (newRS : Option RolloutReplicaSet)
    (newStatus : DeploymentStatus) : DeploymentStatus :=
  match (getReplicaFailures allRSs newRS).head? with
  | some condition => setDeploymentCondition newStatus condition
  | none => removeDeploymentCondition newStatus (js "ReplicaFailure")

/-- `deepEqual(d.status ?? {}, newStatus)`: a status that was read back has
no key whose value is undefined, and a new status has all its keys. -/
def statusUnchanged (stored : Option DeploymentStatus) (newStatus : DeploymentStatus) : Bool :=
  decide (stored.getD {} = newStatus) && newStatus.observedGeneration.isSome
    && newStatus.collisionCount.isSome && newStatus.terminatingReplicas.isSome

/-- What `requeueStuckDeployment` does with the queue. -/
inductive Requeue where
  | no
  | rateLimited
  | after (ms : Int)
  deriving DecidableEq

/-- Nothing when `getTime` throws. -/
def requeueStuckDeployment (now : Int) (deployment : RolloutDeployment)
    (newStatus : DeploymentStatus) : Option Requeue :=
  match getDeploymentCondition deployment.status progressing with
  | none => some .no
  | some currentCond =>
    if hasProgressDeadline deployment = false then some .no
    else if deploymentComplete deployment newStatus = true
        ∨ currentCond.reason = some timedOutReason then some .no
    else if Stamp.truthy currentCond.lastUpdateTime = false then some .no
    else (currentCond.lastUpdateTime.bind getTime).map fun from_ =>
      let after := from_ + deltaMs deployment - now
      if after < 1000 then .rateLimited else .after (after + 1000)

/-- What a sync comes to: the status is kept, or a new one is written. -/
inductive Outcome where
  | kept (requeue : Requeue)
  | written (newStatus : DeploymentStatus)
  deriving DecidableEq

/-- Nothing when the sync throws. The clock is read at one time: nothing
waits between its readings. -/
def syncRolloutStatus (now : Int) (allRSs : List RolloutReplicaSet)
    (newRS : Option RolloutReplicaSet) (d : RolloutDeployment) : Option Outcome := do
  let newStatus ← updateProgressing now newRS d (calculateStatus now allRSs newRS d)
  let newStatus := updateReplicaFailure allRSs newRS newStatus
  if statusUnchanged d.status newStatus then
    let requeue ← requeueStuckDeployment now d newStatus
    return .kept requeue
  else return .written newStatus

/-- The status after a sync. -/
def Outcome.status (d : RolloutDeployment) : Outcome → DeploymentStatus
  | .kept _ => d.status.getD {}
  | .written newStatus => newStatus

/-! ## What each part does to the `Progressing` condition -/

variable {now : Int} {allRSs : List RolloutReplicaSet} {newRS : Option RolloutReplicaSet}
  {d : RolloutDeployment}

/-- `Progressing` is false, and for the deadline. -/
def TimedOut (status : DeploymentStatus) : Prop :=
  ∃ c, getDeploymentCondition (some status) progressing = some c
    ∧ c.status = js "False" ∧ c.reason = some timedOutReason

theorem availableCondition_type (now : Int) (d : RolloutDeployment) (availableReplicas : Int) :
    (availableCondition now d availableReplicas).type = js "Available" := by
  unfold availableCondition
  split
  · rfl
  · rfl

/-- The availability is another condition. -/
theorem calculateStatus_get (now : Int) (allRSs : List RolloutReplicaSet)
    (newRS : Option RolloutReplicaSet) (d : RolloutDeployment) :
    getDeploymentCondition (some (calculateStatus now allRSs newRS d)) progressing
      = getDeploymentCondition d.status progressing := by
  have hne : progressing ≠ js "Available" := by decide
  unfold calculateStatus
  rw [get_set_of_ne]
  · simp [getDeploymentCondition, countStatus]
  · rw [availableCondition_type]
    exact hne

theorem RolloutReplicaSet.failures_type {rs : RolloutReplicaSet} {c : DeploymentCondition}
    (hc : c ∈ rs.failures) : c.type = js "ReplicaFailure" := by
  obtain ⟨failure, hmem, rfl⟩ := List.mem_map.mp hc
  have htype := (List.mem_filter.mp hmem).2
  exact of_decide_eq_true htype

theorem getReplicaFailures_type {c : DeploymentCondition}
    (hc : c ∈ getReplicaFailures allRSs newRS) : c.type = js "ReplicaFailure" := by
  unfold getReplicaFailures at hc
  split at hc
  · obtain ⟨rs, -, hmem⟩ := List.mem_flatMap.mp hc
    exact RolloutReplicaSet.failures_type hmem
  · obtain ⟨rs, -, hmem⟩ := List.mem_flatMap.mp hc
    exact RolloutReplicaSet.failures_type hmem

theorem updateReplicaFailure_get (allRSs : List RolloutReplicaSet)
    (newRS : Option RolloutReplicaSet) (newStatus : DeploymentStatus) :
    getDeploymentCondition (some (updateReplicaFailure allRSs newRS newStatus)) progressing
      = getDeploymentCondition (some newStatus) progressing := by
  have hne : progressing ≠ js "ReplicaFailure" := by decide
  unfold updateReplicaFailure
  split
  · rename_i condition hhead
    apply get_set_of_ne
    rw [getReplicaFailures_type (List.mem_of_mem_head? hhead)]
    exact hne
  · rw [get_remove, if_neg hne]

theorem updateReplicaFailure_sameCounts (allRSs : List RolloutReplicaSet)
    (newRS : Option RolloutReplicaSet) (newStatus : DeploymentStatus) :
    SameCounts (updateReplicaFailure allRSs newRS newStatus) newStatus := by
  unfold updateReplicaFailure
  split
  · exact set_sameCounts _ _
  · exact remove_sameCounts _ _

theorem SameCounts.deploymentComplete {left right : DeploymentStatus} (h : SameCounts left right)
    (d : RolloutDeployment) : deploymentComplete d left = deploymentComplete d right := by
  rw [h]
  rfl

theorem SameCounts.deploymentProgressing {left right : DeploymentStatus}
    (h : SameCounts left right) (d : RolloutDeployment) :
    deploymentProgressing d left = deploymentProgressing d right := by
  rw [h]
  rfl

theorem getDeploymentCondition_getD (status : Option DeploymentStatus) (condType : JsString) :
    getDeploymentCondition (some (status.getD {})) condType
      = getDeploymentCondition status condType := by
  cases status with
  | none => rfl
  | some status => rfl

theorem statusUnchanged_eq {newStatus : DeploymentStatus}
    (h : statusUnchanged d.status newStatus = true) : d.status.getD {} = newStatus := by
  simp only [statusUnchanged, Bool.and_eq_true, decide_eq_true_eq] at h
  exact h.1.1.1

/-- A status that is kept is the stored one, so that nothing progresses. -/
theorem statusUnchanged_progressing {newStatus : DeploymentStatus}
    (h : statusUnchanged d.status newStatus = true) :
    deploymentProgressing d newStatus = false := by
  simp [deploymentProgressing, statusUnchanged_eq h]

theorem progressingCondition_type (now : Int) (newRS : Option RolloutReplicaSet)
    (d : RolloutDeployment) : (progressingCondition now newRS d).type = progressing
      ∧ (progressingCondition now newRS d).reason = some replicaSetUpdatedReason := by
  unfold progressingCondition
  split
  · exact ⟨rfl, rfl⟩
  · split
    · exact ⟨rfl, rfl⟩
    · exact ⟨rfl, rfl⟩

/-- Why a new status has the `Progressing` condition it has. -/
inductive Progressed (now : Int) (d : RolloutDeployment) (newStatus updated : DeploymentStatus) :
    Prop where
  | ended (hover : isCompleteDeployment d newStatus = true) (h : updated = newStatus)
  | complete (hcomplete : deploymentComplete d newStatus = true) (c : DeploymentCondition)
      (hget : getDeploymentCondition (some updated) progressing = some c)
      (hreason : c.reason = some newRSAvailableReason)
  | progressed (hcomplete : deploymentComplete d newStatus = false)
      (hprogress : deploymentProgressing d newStatus = true) (c : DeploymentCondition)
      (hget : getDeploymentCondition (some updated) progressing = some c)
      (hreason : c.reason = some replicaSetUpdatedReason)
  | timedOut (hcomplete : deploymentComplete d newStatus = false)
      (hprogress : deploymentProgressing d newStatus = false)
      (htimedOut : deploymentTimedOut now d newStatus = some true) (h : TimedOut updated)
  | waiting (hover : isCompleteDeployment d newStatus = false)
      (hcomplete : deploymentComplete d newStatus = false)
      (hprogress : deploymentProgressing d newStatus = false)
      (htimedOut : deploymentTimedOut now d newStatus = some false) (h : updated = newStatus)

theorem updateProgressing_progressed (hdeadline : hasProgressDeadline d = true)
    {newStatus updated : DeploymentStatus}
    (h : updateProgressing now newRS d newStatus = some updated) :
    Progressed now d newStatus updated ∧ SameCounts updated newStatus := by
  unfold updateProgressing at h
  rw [hdeadline] at h
  simp only [Bool.true_eq_false, if_false] at h
  split at h
  · rename_i hover
    cases h
    exact ⟨.ended hover rfl, .refl _⟩
  · rename_i hover
    split at h
    · rename_i hcomplete
      cases h
      obtain ⟨c, hget, -, hreason⟩ := get_set_self newStatus
        (newDeploymentCondition now progressing (js "True") newRSAvailableReason
          (progressMessage newRS d (js "has successfully progressed.")))
      exact ⟨.complete hcomplete c hget hreason, set_sameCounts _ _⟩
    · rename_i hcomplete
      rw [Bool.not_eq_true] at hover hcomplete
      split at h
      · rename_i hprogress
        cases h
        obtain ⟨htype, hupdated⟩ := progressingCondition_type now newRS d
        obtain ⟨c, hget, -, hreason⟩ := get_set_self
          (if (getDeploymentCondition d.status progressing).isSome then
            removeDeploymentCondition newStatus progressing else newStatus)
          (progressingCondition now newRS d)
        rw [htype] at hget
        refine ⟨.progressed hcomplete hprogress c hget (hreason.trans hupdated), ?_⟩
        refine (set_sameCounts _ _).trans ?_
        split
        · exact remove_sameCounts _ _
        · exact .refl _
      · rename_i hprogress
        rw [Bool.not_eq_true] at hprogress
        cases htimedOut : deploymentTimedOut now d newStatus with
        | none => simp [htimedOut] at h
        | some timedOut =>
          cases timedOut with
          | true =>
            simp only [htimedOut, Option.map_some, if_true, Option.some.injEq] at h
            cases h
            exact ⟨.timedOut hcomplete hprogress htimedOut (get_set_self newStatus _),
              set_sameCounts _ _⟩
          | false =>
            simp only [htimedOut, Option.map_some, Bool.false_eq_true, if_false,
              Option.some.injEq] at h
            exact ⟨.waiting hover hcomplete hprogress htimedOut h.symm, h ▸ .refl _⟩

/-- No progress is updated only because a time was read. -/
theorem updateProgressing_none {newStatus : DeploymentStatus}
    (h : updateProgressing now newRS d newStatus = none) :
    deploymentComplete d newStatus = false ∧ deploymentProgressing d newStatus = false
      ∧ deploymentTimedOut now d newStatus = none := by
  unfold updateProgressing at h
  split at h
  · cases h
  · split at h
    · cases h
    · split at h
      · cases h
      · rename_i hcomplete
        split at h
        · cases h
        · rename_i hprogress
          rw [Bool.not_eq_true] at hcomplete hprogress
          exact ⟨hcomplete, hprogress, Option.map_eq_none_iff.mp h⟩

/-! ## The parts of a sync -/

/-- The parts of a sync that ended. -/
theorem syncRolloutStatus_some {outcome : Outcome}
    (h : syncRolloutStatus now allRSs newRS d = some outcome) :
    ∃ updated, updateProgressing now newRS d (calculateStatus now allRSs newRS d) = some updated
      ∧ outcome.status d = updateReplicaFailure allRSs newRS updated
      ∧ ∀ requeue, outcome = .kept requeue →
        statusUnchanged d.status (updateReplicaFailure allRSs newRS updated) = true
          ∧ requeueStuckDeployment now d (updateReplicaFailure allRSs newRS updated)
            = some requeue := by
  unfold syncRolloutStatus at h
  cases hupdated : updateProgressing now newRS d (calculateStatus now allRSs newRS d) with
  | none => simp [hupdated] at h
  | some updated =>
    refine ⟨updated, rfl, ?_⟩
    simp only [hupdated, Option.bind_eq_bind, Option.bind_some] at h
    split at h
    · rename_i hunchanged
      cases hrequeue : requeueStuckDeployment now d (updateReplicaFailure allRSs newRS updated) with
      | none => simp [hrequeue] at h
      | some requeue =>
        simp only [hrequeue, Option.bind_some, Option.pure_def, Option.some.injEq] at h
        cases h
        refine ⟨statusUnchanged_eq hunchanged, ?_⟩
        intro requeue' heq
        cases heq
        exact ⟨hunchanged, rfl⟩
    · cases h
      refine ⟨rfl, ?_⟩
      intro requeue heq
      cases heq

theorem syncRolloutStatus_isSome_parts :
    (syncRolloutStatus now allRSs newRS d).isSome = true ↔
      ∃ updated, updateProgressing now newRS d (calculateStatus now allRSs newRS d) = some updated
        ∧ (statusUnchanged d.status (updateReplicaFailure allRSs newRS updated) = true →
          (requeueStuckDeployment now d
            (updateReplicaFailure allRSs newRS updated)).isSome = true) := by
  unfold syncRolloutStatus
  cases hupdated : updateProgressing now newRS d (calculateStatus now allRSs newRS d) with
  | none => simp
  | some updated =>
    simp only [Option.bind_eq_bind, Option.bind_some, Option.some.injEq, exists_eq_left']
    split
    · rename_i hunchanged
      cases hrequeue : requeueStuckDeployment now d (updateReplicaFailure allRSs newRS updated) with
      | none => simp [hunchanged]
      | some requeue => simp
    · rename_i hchanged
      simp [hchanged]

end Webernetes.Controller.Rollouts
