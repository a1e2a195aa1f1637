/-
Webernetes.Controller.DeploymentUtil — the arithmetic of a deployment's
rollout: `getScaledValueFromIntOrPercent` of `intstr.ts` and the counts
and bounds of `deployment-util.ts`.

A surge or an unavailability is a number or a percentage of the desired
count; a surge rounds up, an unavailability down, and when both come out
as zero one pod may be unavailable (`resolveFenceposts`). Numbers are
integers here; an error is its message.

`maxSurge_eq` and `maxUnavailable_eq` say what the two bounds are for
values the API accepts, and `newRSNewReplicas_eq` what the new ReplicaSet
may grow to; the controller's steps are in `Controller.Rolling`.
-/
import Webernetes.Etcd.Keys
import Mathlib

namespace Webernetes.Controller

open Js

/-! ## Numbers and percentages -/

inductive IntOrString where
  | number (value : Int)
  | string (text : JsString)
  deriving DecidableEq

def isDigit (u : CodeUnit) : Bool := decide (0x30 ≤ u.val ∧ u.val ≤ 0x39)

/-- `Number` of a run of decimal digits. -/
def decimalValue (digits : JsString) : Int :=
  digits.foldl (fun value u => 10 * value + ((u.val : Int) - 0x30)) 0

/-- `Number` of a text that matches `/^[+-]?\d+$/`, nothing of another. -/
def parseInteger (text : JsString) : Option Int :=
  let sign := text.head?
  let digits := if sign = some 0x2B ∨ sign = some 0x2D then text.tail else text
  if digits ≠ [] ∧ digits.all isDigit then
    some (if sign = some 0x2D then -decimalValue digits else decimalValue digits)
  else none

/-- The value and whether it is a percentage. -/
def getIntOrPercentValueSafely : IntOrString → Except JsString (Int × Bool)
  | .number value => .ok (value, false)
  | .string text =>
    if text.getLast? = some 0x25 then
      match parseInteger text.dropLast with
      | some value => .ok (value, true)
      | none => .error (js "invalid value \"" ++ text ++ js "\"")
    else .error (js "invalid type: string is not a percentage")

def getScaledValueFromIntOrPercent (intOrPercent : Option IntOrString) (total : Int)
    (roundUp : Bool) : Except JsString Int :=
  match intOrPercent with
  | none => .error (js "nil value for IntOrString")
  | some intOrPercent =>
    match getIntOrPercentValueSafely intOrPercent with
    | .error e => .error (js "invalid value for IntOrString: " ++ e)
    | .ok (value, true) =>
      if roundUp then .ok (-(-(value * total) / 100)) else .ok (value * total / 100)
    | .ok (value, false) => .ok value

example : getScaledValueFromIntOrPercent (some (.string (js "25%"))) 10 true = .ok 3 := by decide

/-- A value of `spec.strategy.rollingUpdate` that a rollout can keep to: a
number or a percentage, and not negative. -/
def IntOrString.NonNegative (v : IntOrString) : Prop :=
  ∃ value isPercent, getIntOrPercentValueSafely v = .ok (value, isPercent) ∧ 0 ≤ value

/-- A non-negative value scales to a non-negative count, which rounds up
to zero only if it rounds down to zero. -/
theorem IntOrString.NonNegative.scaled {v : IntOrString} (h : v.NonNegative) {total : Int}
    (htotal : 0 ≤ total) (roundUp : Bool) :
    ∃ count, getScaledValueFromIntOrPercent (some v) total roundUp = .ok count ∧ 0 ≤ count := by
  obtain ⟨value, isPercent, hparse, hvalue⟩ := h
  have hproduct : 0 ≤ value * total := Int.mul_nonneg hvalue htotal
  unfold getScaledValueFromIntOrPercent
  simp only [hparse]
  cases isPercent with
  | false => exact ⟨value, rfl, hvalue⟩
  | true =>
    cases roundUp with
    | true => exact ⟨_, rfl, by omega⟩
    | false => exact ⟨_, rfl, by omega⟩

/-! ## Deployments and ReplicaSets -/

inductive DeploymentStrategyType where
  | rollingUpdate | recreate
  | other (name : JsString)
  deriving DecidableEq

/-- `spec.strategy.rollingUpdate`. -/
structure RollingUpdateDeployment where
  maxSurge : Option IntOrString := none
  maxUnavailable : Option IntOrString := none
  deriving DecidableEq

/-- The fields of a deployment that a rollout reads. -/
structure Deployment where
  replicas : Option Int := none
  strategyType : Option DeploymentStrategyType := none
  rollingUpdate : Option RollingUpdateDeployment := none
  deriving DecidableEq

/-- The fields of a ReplicaSet that a rollout reads. The creation
timestamp is in milliseconds, 0 when there is none. -/
structure ReplicaSet where
  ns : Option JsString := none
  name : Option JsString := none
  creationTimestampMs : Int := 0
  replicas : Option Int := none
  availableReplicas : Option Int := none
  deriving DecidableEq

/-- `spec?.replicas ?? 1`. -/
def Deployment.desired (deployment : Deployment) : Int := deployment.replicas.getD 1

/-- `spec?.replicas ?? 1`. -/
def ReplicaSet.size (rs : ReplicaSet) : Int := rs.replicas.getD 1

/-- `status?.availableReplicas ?? 0`. -/
def ReplicaSet.available (rs : ReplicaSet) : Int := rs.availableReplicas.getD 0

def getReplicaCountForReplicaSets (replicaSets : List ReplicaSet) : Int :=
  (replicaSets.map ReplicaSet.size).sum

def getAvailableReplicaCountForReplicaSets (replicaSets : List ReplicaSet) : Int :=
  (replicaSets.map ReplicaSet.available).sum

def filterActiveReplicaSets (replicaSets : List ReplicaSet) : List ReplicaSet :=
  replicaSets.filter fun rs => decide (0 < rs.replicas.getD 0)

def compareReplicaSetsByCreationTimestamp (locale : Etcd.Locale) (left right : ReplicaSet) :
    Ordering :=
  (compare left.creationTimestampMs right.creationTimestampMs).then
    (locale.localeCompare (left.name.getD []) (right.name.getD []))

/-- `replicaSets.sort(compareReplicaSetsByCreationTimestamp)`. -/
def sortByCreationTimestamp (locale : Etcd.Locale) (replicaSets : List ReplicaSet) :
    List ReplicaSet :=
  replicaSets.mergeSort fun left right =>
    (compareReplicaSetsByCreationTimestamp locale left right).isLE

theorem sortByCreationTimestamp_perm (locale : Etcd.Locale) (replicaSets : List ReplicaSet) :
    (sortByCreationTimestamp locale replicaSets).Perm replicaSets :=
  List.mergeSort_perm _ _

/-! ## Surge and unavailability -/

def isRollingUpdate (deployment : Deployment) : Bool :=
  decide (deployment.strategyType = some .rollingUpdate)

/-- The surge and the unavailability. -/
def resolveFenceposts (maxSurgeValue maxUnavailableValue : Option IntOrString) (desired : Int) :
    Except JsString (Int × Int) := do
  let surge ← getScaledValueFromIntOrPercent (some (maxSurgeValue.getD (.number 0))) desired true
  let unavailable ←
    getScaledValueFromIntOrPercent (some (maxUnavailableValue.getD (.number 0))) desired false
  if surge = 0 ∧ unavailable = 0 then return (surge, 1)
  return (surge, unavailable)

/-- The fenceposts of a deployment; an error leaves both at zero. -/
def Deployment.fenceposts (deployment : Deployment) : Int × Int :=
  match resolveFenceposts (deployment.rollingUpdate.bind (·.maxSurge))
      (deployment.rollingUpdate.bind (·.maxUnavailable)) deployment.desired with
  | .ok fenceposts => fenceposts
  | .error _ => (0, 0)

def maxUnavailable (deployment : Deployment) : Int :=
  if isRollingUpdate deployment = false ∨ deployment.desired = 0 then 0
  else if deployment.desired < deployment.fenceposts.2 then deployment.desired
  else deployment.fenceposts.2

def maxSurge (deployment : Deployment) : Int :=
  if isRollingUpdate deployment = false then 0 else deployment.fenceposts.1

/-- What the new ReplicaSet is scaled to. -/
def newRSNewReplicas (deployment : Deployment) (allRSs : List ReplicaSet) (newRS : ReplicaSet) :
    Except JsString Int :=
  match deployment.strategyType with
  | some .rollingUpdate => do
    let maxSurge ← getScaledValueFromIntOrPercent
      (some ((deployment.rollingUpdate.bind (·.maxSurge)).getD (.number 0))) deployment.desired true
    let currentPodCount := getReplicaCountForReplicaSets allRSs
    let maxTotalPods := deployment.desired + maxSurge
    if maxTotalPods ≤ currentPodCount then return newRS.size
    let scaleUpCount := min (maxTotalPods - currentPodCount) (deployment.desired - newRS.size)
    return newRS.size + scaleUpCount
  | some .recreate => .ok deployment.desired
  | some (.other name) => .error (js "deployment type " ++ name ++ js " isn't supported")
  | none => .error (js "deployment type undefined isn't supported")

/-- A deployment that is rolled out step by step: rolling, with a desired
count and bounds that are not negative. -/
structure Deployment.Rolling (deployment : Deployment) : Prop where
  rolling : deployment.strategyType = some .rollingUpdate
  desired_nonneg : 0 ≤ deployment.desired
  maxSurge_nonneg : ∀ v, deployment.rollingUpdate.bind (·.maxSurge) = some v → v.NonNegative
  maxUnavailable_nonneg :
    ∀ v, deployment.rollingUpdate.bind (·.maxUnavailable) = some v → v.NonNegative

namespace Deployment.Rolling

variable {deployment : Deployment}

theorem getD_nonneg {v : Option IntOrString} (h : ∀ w, v = some w → w.NonNegative) :
    (v.getD (.number 0)).NonNegative := by
  cases v with
  | none => exact ⟨0, false, rfl, Int.le_refl 0⟩
  | some w => exact h w rfl

/-- The two bounds are of one rounding of the surge, and never both zero
while a pod is desired. -/
theorem bounds (h : deployment.Rolling) :
    ∃ surge, getScaledValueFromIntOrPercent
        (some ((deployment.rollingUpdate.bind (·.maxSurge)).getD (.number 0)))
        deployment.desired true = .ok surge
      ∧ maxSurge deployment = surge ∧ 0 ≤ surge ∧ 0 ≤ maxUnavailable deployment
      ∧ maxUnavailable deployment ≤ deployment.desired
      ∧ (deployment.desired ≠ 0 → 0 < surge + maxUnavailable deployment) := by
  obtain ⟨surge, hsurge, hsurge0⟩ :=
    (getD_nonneg h.maxSurge_nonneg).scaled h.desired_nonneg true
  obtain ⟨unavailable, hunavailable, hunavailable0⟩ :=
    (getD_nonneg h.maxUnavailable_nonneg).scaled h.desired_nonneg false
  have hfence : deployment.fenceposts
      = (surge, if surge = 0 ∧ unavailable = 0 then 1 else unavailable) := by
    unfold fenceposts resolveFenceposts
    rw [hsurge, hunavailable]
    by_cases hzero : surge = 0 ∧ unavailable = 0
    · simp [hzero, bind, Except.bind, pure, Except.pure]
    · simp [hzero, bind, Except.bind, pure, Except.pure]
  have hrolling : isRollingUpdate deployment = true := by simp [isRollingUpdate, h.rolling]
  have hdesired := h.desired_nonneg
  have hmax : maxSurge deployment = surge := by simp [maxSurge, hrolling, hfence]
  refine ⟨surge, hsurge, hmax, hsurge0, ?_⟩
  unfold maxUnavailable
  rw [hfence, hrolling]
  simp only [Bool.true_eq_false, false_or]
  by_cases hnone : deployment.desired = 0
  · rw [if_pos hnone]
    omega
  · rw [if_neg hnone]
    split
    · split at * <;> omega
    · split at * <;> omega

/-- **What the new ReplicaSet is scaled to**, below its desired size. -/
theorem newRSNewReplicas_eq (h : deployment.Rolling) (allRSs : List ReplicaSet)
    (newRS : ReplicaSet) :
    newRSNewReplicas deployment allRSs newRS = .ok (newRS.size +
      if deployment.desired + maxSurge deployment ≤ getReplicaCountForReplicaSets allRSs then 0
      else min (deployment.desired + maxSurge deployment - getReplicaCountForReplicaSets allRSs)
        (deployment.desired - newRS.size)) := by
  obtain ⟨surge, hsurge, hmax, -⟩ := h.bounds
  unfold newRSNewReplicas
  rw [h.rolling, hmax]
  simp only [hsurge]
  split
  · simp [bind, Except.bind, pure, Except.pure, *]
  · simp [bind, Except.bind, pure, Except.pure, *]

end Deployment.Rolling

end Webernetes.Controller
