/-
Webernetes.Kubelet.StatusSync — the loop that sends the cached statuses to the
API, one batch at a time, one pod of a batch after another.

A pod's turn is a read, a patch and perhaps a delete; what the API answers to
each is given, and between two of them the statuses may be updated. What the
pod manager shows is read anew where the source reads it. `sent` is kept
beside the versions: what each of them stands for.
-/
import Webernetes.Kubelet.StatusManagerRuns

namespace Webernetes.Kubelet

open Js Api Base

variable {T O : Type}

/-! ## Merging a status -/

def replaceOrAppendPodCondition (conditions : List (PodCondition T)) (condition : PodCondition T) :
    List (PodCondition T) :=
  if conditions.any fun existing => existing.type = condition.type then
    setCondition condition.type (fun _ => condition) conditions
  else conditions ++ [condition]

/-- `updatePodCondition`, up to what it returns. -/
def updatePodCondition (now : T) (status : PodStatus T O) (condition : PodCondition T) : PodStatus T O :=
  match getPodCondition status condition.type with
  | none =>
    let condition := { condition with lastTransitionTime := some (.date now) }
    { status with conditions := some (status.conditions.getD [] ++ [condition]) }
  | some oldCondition =>
    let lastTransitionTime :=
      if condition.status = oldCondition.status then oldCondition.lastTransitionTime else some (.date now)
    { status with conditions :=
        status.conditions.map (setCondition condition.type fun _ => { condition with lastTransitionTime }) }

def conditionTrue (status : PodStatus T O) (conditionType : JsString) : Bool :=
  (getPodCondition status conditionType).any fun condition => condition.status = js "True"

/-- The variables of the loop over the new conditions. -/
structure MergingConditions (T O : Type) where
  newPodStatus : PodStatus T O
  podConditions : List (PodCondition T)

/-- The body of that loop. A shared condition is the kubelet's to set only where
a pod without running containers comes to its end. -/
def mergeCondition (now : T) (oldPodStatus : PodStatus T O) (ends : Bool) (m : MergingConditions T O)
    (c : PodCondition T) : MergingConditions T O :=
  if podConditionByKubelet c.type then { m with podConditions := m.podConditions ++ [c] }
  else if podConditionSharedByKubelet c.type && ends then
    let newPodStatus := updateLastTransitionTime now m.newPodStatus oldPodStatus c.type
    match getPodCondition newPodStatus c.type with
    | none => { m with newPodStatus }
    | some updatedCondition =>
      { newPodStatus, podConditions := replaceOrAppendPodCondition m.podConditions updatedCondition }
  else m

def transitionsToTerminal (oldPodStatus newPodStatus : PodStatus T O) : Bool :=
  !isPodPhaseTerminal oldPodStatus.phase && isPodPhaseTerminal newPodStatus.phase

/-- `podConditions` after the loop. -/
def mergedConditions (now : T) (oldPodStatus newPodStatus : PodStatus T O) (couldHaveRunningContainers : Bool) :
    List (PodCondition T) :=
  let kept := (oldPodStatus.conditions.getD []).filter fun c => !podConditionByKubelet c.type
  let ends := transitionsToTerminal oldPodStatus newPodStatus && !couldHaveRunningContainers
  ((newPodStatus.conditions.getD []).foldl (mergeCondition now oldPodStatus ends)
    { newPodStatus, podConditions := kept }).podConditions

/-- The last part of `mergePodStatus`: a pod that has ended is not ready. -/
def endReadiness (now : T) (pod : Api.Pod T O) (status : PodStatus T O) : PodStatus T O :=
  if isPodPhaseTerminal status.phase
      && (conditionTrue status (js "Ready") || conditionTrue status (js "ContainersReady")) then
    let status := updatePodCondition now status
      (generateContainersReadyConditionForTerminalPhase pod status.phase)
    updatePodCondition now status (generatePodReadyConditionForTerminalPhase pod status.phase)
  else status

def mergePodStatus (now : T) (pod : Api.Pod T O) (oldPodStatus newPodStatus : PodStatus T O)
    (couldHaveRunningContainers : Bool) : PodStatus T O :=
  let merged := { newPodStatus with
    conditions := some (mergedConditions now oldPodStatus newPodStatus couldHaveRunningContainers)
    resourceClaimStatuses := oldPodStatus.resourceClaimStatuses
    extendedResourceClaimStatus := oldPodStatus.extendedResourceClaimStatus
    nodeAllocatableResourceClaimStatuses := oldPodStatus.nodeAllocatableResourceClaimStatuses }
  let merged :=
    if transitionsToTerminal oldPodStatus newPodStatus && couldHaveRunningContainers then
      { merged with
        phase := oldPodStatus.phase
        reason := oldPodStatus.reason
        message := oldPodStatus.message }
    else merged
  endReadiness now pod merged

/-! ## What needs to be sent -/

def isMirrorPod (pod : Api.Pod T O) : Bool :=
  ((pod.annotations.getD .empty).get PodConfig.configMirrorAnnotationKey).isSome

/-- The status that is passed as well is not looked at. -/
def canBeDeleted (pod : Api.Pod T O) (podIsFinished : Bool) : Bool :=
  if pod.deletionTimestamp.isNone || isMirrorPod pod then false
  else if !isPodPhaseTerminal (pod.status.getD {}).phase then false
  else podIsFinished

/-- The maps of the pod manager. -/
structure PodDirectory (T O : Type) extends PodManager T O where
  translatePodUid : JsString → JsString
  podToMirror : JsString → Option JsString
  mirrorToPod : JsString → Bool

structure Manager (T O : Type) where
  podStatuses : PodStatuses T O := .empty
  apiStatusVersions : JsMap JsString Nat := .empty

structure PendingUpdate (T O : Type) where
  podUid : JsString
  statusUid : JsString
  status : VersionedPodStatus T O

section Capture

variable (host : Host T) (directory : PodDirectory T O)

def needsUpdate (apiStatusVersions : JsMap JsString Nat) (uid : JsString) (status : VersionedPodStatus T O) :
    Bool :=
  match apiStatusVersions.get uid with
  | none => true
  | some latest =>
    if latest < status.version then true
    else (directory.getPodByUid uid).any fun pod => canBeDeleted pod status.podIsFinished

def needsReconcile [DecidableEq T] [DecidableEq O] (uid : JsString) (status : PodStatus T O) : Bool :=
  match directory.getPodByUid uid with
  | none => false
  | some pod =>
    match if isStaticPod pod then directory.getMirrorPodByPod pod else some pod with
    | none => false
    | some pod => !isPodStatusByKubeletEqual (normalizeStatus host pod (pod.status.getD {})) status

/-- The uid that a status is kept under at the API, where it is to be sent. -/
def uidOfStatus (uid : JsString) : Option JsString :=
  match directory.podToMirror uid with
  | none => some uid
  | some mirrorUid => if mirrorUid.isEmpty then none else some mirrorUid

/-- The versions of the pods that are known; the loop before a full batch. -/
def forgetVersions (m : Manager T O) : JsMap JsString Nat :=
  (m.apiStatusVersions.keys.filter fun uid =>
    !m.podStatuses.contains uid && !directory.mirrorToPod uid).foldl JsMap.delete m.apiStatusVersions

/-- The variables of the loop over the cached statuses. -/
structure Capturing (T O : Type) where
  apiStatusVersions : JsMap JsString Nat
  updatedStatuses : List (PendingUpdate T O) := []

/-- The body of that loop. -/
def captureOne [DecidableEq T] [DecidableEq O] (all : Bool) (c : Capturing T O)
    (entry : JsString × VersionedPodStatus T O) : Capturing T O :=
  let (uid, status) := entry
  match uidOfStatus directory uid with
  | none => c
  | some statusUid =>
    let update : PendingUpdate T O := { podUid := uid, statusUid, status }
    if !all then
      if (c.apiStatusVersions.get statusUid).getD 0 ≥ status.version then c
      else { c with updatedStatuses := c.updatedStatuses ++ [update] }
    else if needsUpdate directory c.apiStatusVersions statusUid status then
      { c with updatedStatuses := c.updatedStatuses ++ [update] }
    else if needsReconcile host directory uid status.status then
      { apiStatusVersions := c.apiStatusVersions.delete statusUid
        updatedStatuses := c.updatedStatuses ++ [update] }
    else c

/-- What a batch captures under the lock. -/
def capture [DecidableEq T] [DecidableEq O] (all : Bool) (m : Manager T O) : Capturing T O :=
  m.podStatuses.entries.foldl (captureOne host directory all)
    { apiStatusVersions := if all then forgetVersions directory m else m.apiStatusVersions }

end Capture

/-! ## Batches -/

/-- A status that is patched, or was found to be there: the pod as it was read,
which pod the pod manager took it for, and what else was read then. -/
structure Sent (T O : Type) where
  podUid : JsString
  status : VersionedPodStatus T O
  pod : Api.Pod T O
  translatedUid : JsString
  couldHaveRunningContainers : Bool
  now : T

/-- `mergedStatus`: what the pod is patched with. -/
def Sent.merged (sent : Sent T O) : PodStatus T O :=
  mergePodStatus sent.now sent.pod (sent.pod.status.getD {}) sent.status.status sent.couldHaveRunningContainers

/-- Where the loop over a batch is. -/
inductive Phase (T O : Type) where
  | ready
  | reading (update : PendingUpdate T O)
  | patching (update : PendingUpdate T O) (sending : Sent T O)
  | deleting (update : PendingUpdate T O)

/-- The update that is being synced. -/
def Phase.update : Phase T O → List (PendingUpdate T O)
  | .ready => []
  | .reading update => [update]
  | .patching update _ => [update]
  | .deleting update => [update]

/-- The manager, the rest of the running batch, and where that is. -/
structure Syncing (T O : Type) where
  manager : Manager T O := {}
  batch : Option (List (PendingUpdate T O)) := none
  phase : Phase T O := .ready
  sent : JsMap JsString (Sent T O) := .empty

/-- What is still to be synced. -/
def Syncing.pending (s : Syncing T O) : List (PendingUpdate T O) := s.phase.update ++ s.batch.getD []

inductive SyncEvent (T O : Type) where
  | statuses (event : Event T O)
  | startBatch (directory : PodDirectory T O) (all : Bool)
  /-- The next update of the batch, or its end. -/
  | next
  /-- The pod that is read, whether the context is done, and what is asked of
  the pod manager, of the pod workers and of the clock then. -/
  | read (pod : Option (Api.Pod T O)) (cancelled : Bool) (directory : PodDirectory T O)
      (couldHaveRunningContainers : Bool) (now : T)
  /-- A patch that is answered with the pod, found to change nothing, or fails. -/
  | patch (answer : Option (Option (Api.Pod T O)))
  | delete (succeeded : Bool)

/-- A call fails, or the context is done. -/
def SyncEvent.fails : SyncEvent T O → Bool
  | .read pod cancelled _ _ _ => pod.isNone || cancelled
  | .patch answer => answer.isNone
  | .delete succeeded => !succeeded
  | _ => false

section Exec

variable (host : Host T) [DecidableEq T] [DecidableEq O]

def Syncing.startBatch (s : Syncing T O) (directory : PodDirectory T O) (all : Bool) : Syncing T O :=
  let captured := capture host directory all s.manager
  { s with
    manager := { s.manager with apiStatusVersions := captured.apiStatusVersions }
    batch := some captured.updatedStatuses
    sent := (s.sent.keys.filter fun uid => !captured.apiStatusVersions.contains uid).foldl JsMap.delete s.sent }

/-- `syncPod`, up to its patch. -/
def Syncing.read (s : Syncing T O) (update : PendingUpdate T O) (pod : Api.Pod T O) (directory : PodDirectory T O)
    (couldHaveRunningContainers : Bool) (now : T) : Syncing T O :=
  let translatedUid := directory.translatePodUid (pod.uid.getD [])
  if !translatedUid.isEmpty && translatedUid ≠ update.podUid then
    { s with
      phase := .ready
      manager := { s.manager with podStatuses := deletePodStatus update.podUid s.manager.podStatuses } }
  else
    let sending : Sent T O :=
      { podUid := update.podUid, status := update.status, pod, translatedUid, couldHaveRunningContainers, now }
    { s with phase := .patching update sending }

/-- `syncPod`, after a patch that did not fail. -/
def Syncing.patched (s : Syncing T O) (update : PendingUpdate T O) (sending : Sent T O)
    (answer : Option (Api.Pod T O)) : Syncing T O :=
  let current := answer.getD sending.pod
  let key := podStatusKey current
  { s with
    manager := { s.manager with
      apiStatusVersions := s.manager.apiStatusVersions.set key update.status.version }
    sent := s.sent.set key sending
    phase := if canBeDeleted current update.status.podIsFinished then .deleting update else .ready }

/-- An event, where it may happen. The API answers a patch with the pod that it
was sent for. -/
def Syncing.exec (s : Syncing T O) : SyncEvent T O → Option (Syncing T O)
  | .statuses event =>
    some { s with manager := { s.manager with podStatuses := event.apply host s.manager.podStatuses } }
  | .startBatch directory all =>
    match s.phase, s.batch with
    | .ready, none => some (s.startBatch host directory all)
    | _, _ => none
  | .next =>
    match s.phase, s.batch with
    | .ready, some (update :: updates) => some { s with phase := .reading update, batch := some updates }
    | .ready, some [] => some { s with batch := none }
    | _, _ => none
  | .read pod cancelled directory couldHaveRunningContainers now =>
    match s.phase with
    | .reading update =>
      match pod with
      | none => some { s with phase := .ready }
      | some pod =>
        if cancelled then some { s with phase := .ready }
        else some (s.read update pod directory couldHaveRunningContainers now)
    | _ => none
  | .patch answer =>
    match s.phase with
    | .patching update sending =>
      match answer with
      | none => some { s with phase := .ready }
      | some answer =>
        if answer.all fun current => podStatusKey current = podStatusKey sending.pod then
          some (s.patched update sending answer)
        else none
    | _ => none
  | .delete succeeded =>
    match s.phase with
    | .deleting update =>
      if succeeded then
        some { s with
          phase := .ready
          manager := { s.manager with podStatuses := deletePodStatus update.podUid s.manager.podStatuses } }
      else some { s with phase := .ready }
    | _ => none

def syncing : System (Syncing T O) (SyncEvent T O) where
  init s := s = {}
  step s event s' := s.exec host event = some s'

end Exec

end Webernetes.Kubelet
