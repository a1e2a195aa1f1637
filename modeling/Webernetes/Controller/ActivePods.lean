/-
Webernetes.Controller.ActivePods — which pods a ReplicaSet deletes first:
`ActivePodsWithRanks` of `controller-utils.ts` and `getPodsToDelete` of
`replica-set.ts`.

`swap` exchanges two pods and their ranks at once, so the two arrays are a
list of pods with their ranks, and `sort` is insertion by swaps. A time is
what `timestampMs` reads, and the comparison takes the reading of a text and
`Math.floor(Math.log2(d))` from the host, whatever they are.
-/
import Webernetes.Api.PodUtil
import Webernetes.Base.StrictOrder
import Webernetes.Go.Strconv
import Mathlib.Data.Prod.Lex

namespace Webernetes.Controller.ActivePods

open Js Api Base.StrictOrder

/-! ## Pods -/

structure RestartedContainer where
  name : JsString
  restartCount : Option Int := none
  deriving DecidableEq

/-- A `V1Pod`, with the fields of its parts in front. -/
structure V1Pod where
  uid : Option JsString := none
  annotations : Option (JsMap JsString JsString) := none
  creationTimestamp : Option (Stamp Int) := none
  deletionTimestamp : Option (Stamp Int) := none
  nodeName : Option JsString := none
  initContainers : Option (List Container) := none
  phase : Option JsString := none
  conditions : Option (List (PodCondition Int)) := none
  containerStatuses : Option (List RestartedContainer) := none
  initContainerStatuses : Option (List RestartedContainer) := none

/-- What the comparison takes from the host. -/
structure Host where
  dateParse : JsString → Option Int
  floorLog2 : Int → Int

variable (host : Host) (now : Option Int)

def timestampMs : Option (Stamp Int) → Option Int
  | some (.date t) => some t
  | some (.text s) => host.dateParse s
  | none => none

def podPhaseOrdinal (pod : V1Pod) : Int :=
  if pod.phase = some (js "Unknown") then 1 else if pod.phase = some (js "Running") then 2 else 0

def getPodReadyCondition (pod : V1Pod) : Option (PodCondition Int) :=
  getPodConditionFromList pod.conditions (js "Ready")

def isPodReady (pod : V1Pod) : Bool :=
  match getPodReadyCondition pod with
  | none => false
  | some condition => condition.status = js "True"

def isPodActive (pod : V1Pod) : Bool :=
  pod.phase ≠ some (js "Succeeded") && pod.phase ≠ some (js "Failed") &&
    !Stamp.truthy pod.deletionTimestamp

def podDeletionCost : JsString := js "controller.kubernetes.io/pod-deletion-cost"

def validFirstDigit (str : JsString) : Bool :=
  match str with
  | [] => false
  | first :: _ =>
    first = Go.unit '-' || (first = Go.unit '0' && str = js "0") ||
      (decide (Go.unit '1' ≤ first) && decide (first ≤ Go.unit '9'))

/-- The cost that is read; with an error it is zero. -/
def getDeletionCostFromPodAnnotations (annotations : Option (JsMap JsString JsString)) : Int :=
  match annotations.bind (·.get podDeletionCost) with
  | none => 0
  | some value =>
    if !validFirstDigit value then 0
    else match Go.parseInt value 10 32 with
      | (_, some _) => 0
      | (i, none) => i

def podReadyTime (pod : V1Pod) : Int :=
  if isPodReady pod then
    match getPodReadyCondition pod with
    | none => 0
    | some condition =>
      if condition.status = js "True" then (timestampMs host condition.lastTransitionTime).getD 0
      else 0
  else 0

def isZeroTime (value : Option Int) : Bool := value = none || value = some 0

def afterOrZero (left right : Option Int) : Bool :=
  if isZeroTime left || isZeroTime right then isZeroTime left
  else decide (right.getD 0 < left.getD 0)

/-- `d > 0 ? Math.floor(Math.log2(d)) : -1`, of the age `d`. -/
def ageRank (now time : Int) : Int :=
  if 0 < now - time then host.floorLog2 (now - time) else -1

def logarithmicRankDiff (leftTime rightTime now : Int) : Int :=
  ageRank host now leftTime - ageRank host now rightTime

def maxContainerRestarts (pod : V1Pod) : Int × Int :=
  let regularRestarts := (pod.containerStatuses.getD []).foldl
    (fun restarts c => max restarts (c.restartCount.getD 0)) 0
  let names := (pod.initContainers.getD []).filterMap fun c =>
    if c.restartPolicy = some (js "Always") then some c.name else none
  let sidecarRestarts := (pod.initContainerStatuses.getD []).foldl
    (fun restarts c => if names.contains c.name then max restarts (c.restartCount.getD 0) else restarts) 0
  (regularRestarts, sidecarRestarts)

def compareMaxContainerRestarts (left right : V1Pod) : Option Bool :=
  let (regularRestartsI, sidecarRestartsI) := maxContainerRestarts left
  let (regularRestartsJ, sidecarRestartsJ) := maxContainerRestarts right
  if regularRestartsI ≠ regularRestartsJ then some (decide (regularRestartsJ < regularRestartsI))
  else if sidecarRestartsI ≠ sidecarRestartsJ then
    some (decide (sidecarRestartsJ < sidecarRestartsI))
  else none

def uidOf (pod : V1Pod) : JsString := pod.uid.getD []

/-- By the logarithms of two ages, and by the uids where these are the same. -/
def lessByAge (left right : V1Pod) (leftTime rightTime now : Int) : Bool :=
  let rankDiff := logarithmicRankDiff host leftTime rightTime now
  if rankDiff = 0 then decide (uidOf left < uidOf right) else decide (rankDiff < 0)

/-- Of two pods that have been ready from different times. -/
def lessByReadyTime (left right : V1Pod) : Bool :=
  let readyTime1 := podReadyTime host left
  let readyTime2 := podReadyTime host right
  match now with
  | none => afterOrZero (some readyTime1) (some readyTime2)
  | some now =>
    if isZeroTime (some readyTime1) || isZeroTime (some readyTime2) then
      afterOrZero (some readyTime1) (some readyTime2)
    else lessByAge host left right readyTime1 readyTime2 now

def lessByCreation (left right : V1Pod) : Bool :=
  let leftCreationTimestamp := timestampMs host left.creationTimestamp
  let rightCreationTimestamp := timestampMs host right.creationTimestamp
  if leftCreationTimestamp ≠ rightCreationTimestamp then
    match now, leftCreationTimestamp, rightCreationTimestamp with
    | some now, some leftTime, some rightTime => lessByAge host left right leftTime rightTime now
    | _, _, _ => afterOrZero leftCreationTimestamp rightCreationTimestamp
  else false

/-- The end of `less`: restarts, then creation times. -/
def lessByRestarts (left right : V1Pod) : Bool :=
  match compareMaxContainerRestarts left right with
  | some restartCompare => restartCompare
  | none => lessByCreation host now left right

/-- A pod of `pods` and the number of `rank` that goes with it. -/
structure RankedPod where
  pod : V1Pod
  rank : Int

/-- `less(i, j)`. -/
def less (i j : RankedPod) : Bool :=
  let left := i.pod
  let right := j.pod
  let leftNodeName := left.nodeName.getD []
  let rightNodeName := right.nodeName.getD []
  if leftNodeName ≠ rightNodeName ∧ (leftNodeName.isEmpty ∨ rightNodeName.isEmpty) then
    leftNodeName.isEmpty
  else if podPhaseOrdinal left ≠ podPhaseOrdinal right then
    decide (podPhaseOrdinal left < podPhaseOrdinal right)
  else if isPodReady left ≠ isPodReady right then !isPodReady left
  else
    let leftDeletionCost := getDeletionCostFromPodAnnotations left.annotations
    let rightDeletionCost := getDeletionCostFromPodAnnotations right.annotations
    if leftDeletionCost ≠ rightDeletionCost then decide (leftDeletionCost < rightDeletionCost)
    else if i.rank ≠ j.rank then decide (j.rank < i.rank)
    else
      let readyTime1 := podReadyTime host left
      let readyTime2 := podReadyTime host right
      if isPodReady left ∧ isPodReady right ∧ readyTime1 ≠ readyTime2 then
        lessByReadyTime host now left right
      else lessByRestarts host now left right

/-- `sort()`. -/
def sortPods (pods : List RankedPod) : List RankedPod := sort (less host now) pods

/-! ## `getPodsToDelete` -/

def podsOnNode (relatedPods : List V1Pod) : JsMap JsString Int :=
  relatedPods.foldl (fun podsOnNode pod =>
    if isPodActive pod then
      let nodeName := pod.nodeName.getD []
      podsOnNode.set nodeName ((podsOnNode.get nodeName).getD 0 + 1)
    else podsOnNode) .empty

def getPodsRankedByRelatedPodsOnSameNode (podsToRank relatedPods : List V1Pod) : List RankedPod :=
  podsToRank.map fun pod =>
    { pod := pod, rank := ((podsOnNode relatedPods).get (pod.nodeName.getD [])).getD 0 }

/-- `pods.slice(0, diff)`. -/
def slice (pods : List V1Pod) (diff : Int) : List V1Pod :=
  if 0 ≤ diff then pods.take diff.toNat else pods.take (pods.length + diff).toNat

/-- `now` is what the clock reads. The sort is in place, on `filteredPods`. -/
def getPodsToDelete (now : Int) (filteredPods relatedPods : List V1Pod) (diff : Int) : List V1Pod :=
  if diff < filteredPods.length then
    let podsWithRanks := getPodsRankedByRelatedPodsOnSameNode filteredPods relatedPods
    slice ((sortPods host (some now) podsWithRanks).map RankedPod.pod) diff
  else slice filteredPods diff

end Webernetes.Controller.ActivePods
