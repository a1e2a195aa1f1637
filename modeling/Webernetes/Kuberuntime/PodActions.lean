/-
Webernetes.Kuberuntime.PodActions — what the runtime manager does about the
sandbox and the containers of a pod.

`computePodActions` goes one of two ways. In a sandbox that stays,
`containerShouldRestart` is asked about each container that exited. For a
sandbox that is made anew, every container is started except those that ran
once and succeeded: a policy `Never` is looked at for the whole pod only, and
on later attempts only. So a new sandbox brings back containers that the other
way leaves alone, and it is made for a pod without containers
(`actionsSafe_iff`).
-/
import Webernetes.Kubelet.StatusManager

namespace Webernetes.Kuberuntime

open Js Api
open Kubelet (ContainerID)

variable {T : Type}

/-! ## The pod, and what the runtime reports of it -/

/-- A `V1Container`, with its image. -/
structure V1Container extends Container where
  image : Option JsString := none
  deriving DecidableEq

structure V1PodSpec where
  restartPolicy : Option JsString := none
  hostNetwork : Option Bool := none
  containers : Option (List V1Container) := none

/-- The spec for those who ask for its restart policy. -/
def V1PodSpec.toPodSpec (spec : V1PodSpec) : PodSpec where
  restartPolicy := spec.restartPolicy
  containers := spec.containers.map fun containers => containers.map V1Container.toContainer

/-- A `V1Pod`, with the field of its `metadata` in front. -/
structure V1Pod (T : Type) where
  deletionTimestamp : Option (Stamp T) := none
  spec : Option V1PodSpec := none

/-- `pod.spec?.containers ?? []`. -/
def V1Pod.containers (pod : V1Pod T) : List V1Container := (pod.spec.bind V1PodSpec.containers).getD []

inductive State where
  | created
  | running
  | exited
  | unknown
  deriving DecidableEq

def State.text : State → JsString
  | .created => js "Created"
  | .running => js "Running"
  | .exited => js "Exited"
  | .unknown => js "Unknown"

/-- An instance of a container. -/
structure Status where
  id : ContainerID
  name : JsString
  state : State
  exitCode : Option Int := none
  hash : Nat

inductive SandboxState where
  | ready
  | notReady
  deriving DecidableEq

/-- `attempt` is that of its `metadata`, `network` is the `ip` there. -/
structure PodSandboxStatus where
  id : JsString
  state : SandboxState
  attempt : Nat
  network : Option JsString := none

/-- The instances by time, the newest first; the runtime keeps each under its id. -/
structure PodRuntimeStatus where
  containerStatuses : List Status
  sandboxStatuses : List PodSandboxStatus
  nodup_ids : (containerStatuses.map fun status => status.id.toString).Nodup

def findContainerStatusByName (podStatus : PodRuntimeStatus) (containerName : JsString) : Option Status :=
  podStatus.containerStatuses.find? fun containerStatus => containerStatus.name = containerName

theorem findContainerStatusByName_name {podStatus : PodRuntimeStatus} {name : JsString} {status : Status}
    (h : findContainerStatusByName podStatus name = some status) : status.name = name := by
  simpa using List.find?_some h

theorem findContainerStatusByName_mem {podStatus : PodRuntimeStatus} {name : JsString} {status : Status}
    (h : findContainerStatusByName podStatus name = some status) :
    status ∈ podStatus.containerStatuses :=
  List.mem_of_find?_eq_some h

/-- An instance is known by its id. -/
theorem PodRuntimeStatus.eq_of_id {podStatus : PodRuntimeStatus} {s t : Status}
    (hs : s ∈ podStatus.containerStatuses) (ht : t ∈ podStatus.containerStatuses)
    (h : s.id.toString = t.id.toString) : s = t :=
  List.inj_on_of_nodup_map podStatus.nodup_ids hs ht h

/-! ## Restarts -/

def isHostNetworkPod (pod : V1Pod T) : Bool := pod.spec.bind V1PodSpec.hostNetwork = some true

def podSandboxChanged (pod : V1Pod T) (podStatus : PodRuntimeStatus) : Bool × Nat × JsString :=
  match podStatus.sandboxStatuses with
  | [] => (true, 0, js "")
  | sandboxStatus :: older =>
    let readySandboxCount := (sandboxStatus :: older).countP fun sandbox => sandbox.state = .ready
    if readySandboxCount > 1 then (true, sandboxStatus.attempt + 1, sandboxStatus.id)
    else if sandboxStatus.state ≠ .ready then (true, sandboxStatus.attempt + 1, sandboxStatus.id)
    else if !isHostNetworkPod pod && sandboxStatus.network = some (js "") then
      (true, sandboxStatus.attempt + 1, sandboxStatus.id)
    else (false, sandboxStatus.attempt, sandboxStatus.id)

def shouldRestartOnFailure (pod : V1Pod T) : Bool :=
  pod.spec.bind V1PodSpec.restartPolicy ≠ some (js "Never")

def containerSucceeded (container : V1Container) (podStatus : PodRuntimeStatus) : Bool :=
  match findContainerStatusByName podStatus container.name with
  | none => false
  | some containerStatus => containerStatus.state = .exited && containerStatus.exitCode.getD 0 = 0

def hasAnyRegularContainerCreated (pod : V1Pod T) (podStatus : PodRuntimeStatus) : Bool :=
  pod.containers.any fun container =>
    match findContainerStatusByName podStatus container.name with
    | none => false
    | some status => status.state ≠ .unknown

def shouldContainerBeRestarted (container : V1Container) (pod : V1Pod T)
    (podStatus : PodRuntimeStatus) : Bool :=
  if pod.deletionTimestamp ≠ none then false
  else
    match findContainerStatusByName podStatus container.name with
    | none => true
    | some status =>
      match status.state with
      | .running => false
      | .unknown => true
      | .created => true
      | .exited =>
        containerShouldRestart container.toContainer (pod.spec.map V1PodSpec.toPodSpec)
          (status.exitCode.getD 0)

/-- `sum32` is the checksum of the JSON of the picked fields. -/
def hashContainer (sum32 : JsString → JsString → Nat) (container : V1Container) : Nat :=
  sum32 (container.image.getD (js "")) container.name

def containerChanged (sum32 : JsString → JsString → Nat) (container : V1Container)
    (containerStatus : Status) : Bool :=
  containerStatus.hash ≠ hashContainer sum32 container

/-! ## The actions -/

inductive ProberResult where
  | success
  | failure
  | unknown
  deriving DecidableEq

/-- The results of the probes, each under the text of its container's id. -/
structure ResultsManager where
  cache : JsMap JsString ProberResult

def ResultsManager.get (results : ResultsManager) (containerId : ContainerID) : Option ProberResult :=
  results.cache.get containerId.toString

inductive ContainerKillReason where
  | startupProbe
  | livenessProbe
  | failedPostStartHook
  | restartAllContainers
  | unknown
  deriving DecidableEq

structure ContainerToKillInfo where
  name : JsString
  container : V1Container
  message : JsString
  reason : Option ContainerKillReason := none
  deriving DecidableEq

structure ContainerToRemoveInfo where
  containerID : ContainerID
  container : V1Container
  kill : Bool

/-- The containers to start by their places in the spec, those to kill under the texts of their ids. -/
structure PodActions where
  createSandbox : Bool
  killPod : Bool
  sandboxID : JsString
  attempt : Nat
  containersToStart : List Nat := []
  containersToKill : JsMap JsString (ContainerID × ContainerToKillInfo) := JsMap.empty
  containersToReset : List ContainerToRemoveInfo := []

structure KubeGenericRuntimeManager where
  livenessManager : ResultsManager
  startupManager : ResultsManager

section Actions

variable (sum32 : JsString → JsString → Nat) (m : KubeGenericRuntimeManager)

def getContainersToReset (containers : List V1Container) (podStatus : PodRuntimeStatus) :
    List ContainerToRemoveInfo × List ContainerToRemoveInfo :=
  let instances := containers.flatMap fun c =>
    (podStatus.containerStatuses.filter fun containerStatus => containerStatus.name = c.name).map
      fun containerStatus => (c, containerStatus)
  let isSource (c : V1Container) (containerStatus : Status) : Bool :=
    containerStatus.state = .exited &&
      ((findMatchingContainerRestartRule c.toContainer (containerStatus.exitCode.getD 0)).map
        ContainerRestartRule.action) = some (js "RestartAllContainers")
  let info (c : V1Container) (containerStatus : Status) : ContainerToRemoveInfo :=
    { containerID := containerStatus.id, container := c, kill := containerStatus.state ≠ .exited }
  ((instances.filter fun (c, s) => isSource c s).map fun (c, s) => info c s,
    (instances.filter fun (c, s) => !isSource c s).map fun (c, s) => info c s)

/-- The policy of the container says that it runs once. -/
def runOnce (restartPolicy : JsString) (c : V1Container) : Bool :=
  match c.restartPolicy with
  | none => restartPolicy = js "OnFailure"
  | some policy => policy = js "OnFailure"

/-- The container is passed over when a sandbox is made. -/
def staysDown (restartPolicy : JsString) (podStatus : PodRuntimeStatus) (c : V1Container) : Bool :=
  runOnce restartPolicy c && containerSucceeded c podStatus ||
    c.restartPolicy = some (js "OnFailure") && containerSucceeded c podStatus

/-- The places of the containers that a new sandbox starts with. -/
def newSandboxStart (pod : V1Pod T) (podStatus : PodRuntimeStatus) : List Nat :=
  let restartPolicy := (pod.spec.bind V1PodSpec.restartPolicy).getD (js "Always")
  (pod.containers.zipIdx.filter fun (c, _) => !staysDown restartPolicy podStatus c).map Prod.snd

/-- What one turn of the loop over the containers adds. -/
structure ContainerChange where
  start : Bool := false
  kill : Option (ContainerID × ContainerToKillInfo) := none
  keep : Bool := false

/-- The kill of a running container, and the start that goes with it. -/
def replaceContainer (container : V1Container) (containerStatus : Status) (message : JsString)
    (reason : Option ContainerKillReason) (restart : Bool) : ContainerChange where
  start := restart
  kill := some (containerStatus.id,
    { name := containerStatus.name
      container := container
      message := if restart then message ++ js ", will be restarted" else message
      reason := reason })

def containerChange (pod : V1Pod T) (podStatus : PodRuntimeStatus) (container : V1Container) :
    ContainerChange :=
  match findContainerStatusByName podStatus container.name with
  | none => { start := shouldContainerBeRestarted container pod podStatus }
  | some containerStatus =>
    if containerStatus.state ≠ .running then
      if shouldContainerBeRestarted container pod podStatus then
        { start := true
          kill :=
            if containerStatus.state = .unknown then
              some (containerStatus.id,
                { name := containerStatus.name
                  container := container
                  message := js "Container is in \"" ++ containerStatus.state.text ++
                    js "\" state, try killing it before restart"
                  reason := some .unknown })
            else none }
      else {}
    else
      let restart :=
        match container.restartPolicy with
        | none => shouldRestartOnFailure pod
        | some policy => policy ≠ js "Never"
      if containerChanged sum32 container containerStatus then
        replaceContainer container containerStatus
          (js "Container " ++ container.name ++ js " definition changed") none true
      else if m.livenessManager.get containerStatus.id = some .failure then
        replaceContainer container containerStatus
          (js "Container " ++ container.name ++ js " failed liveness probe") (some .livenessProbe) restart
      else if m.startupManager.get containerStatus.id = some .failure then
        replaceContainer container containerStatus
          (js "Container " ++ container.name ++ js " failed startup probe") (some .startupProbe) restart
      else { keep := true }

/-- A turn of the loop, with `keepCount`. -/
def syncContainer (pod : V1Pod T) (podStatus : PodRuntimeStatus) (acc : PodActions × Nat)
    (entry : V1Container × Nat) : PodActions × Nat :=
  let change := containerChange sum32 m pod podStatus entry.1
  let changes := acc.1
  ({ changes with
      containersToStart :=
        if change.start then changes.containersToStart ++ [entry.2] else changes.containersToStart
      containersToKill :=
        match change.kill with
        | none => changes.containersToKill
        | some (id, info) => changes.containersToKill.set id.toString (id, info) },
    if change.keep then acc.2 + 1 else acc.2)

def computePodActions (pod : V1Pod T) (podStatus : PodRuntimeStatus) (restartAllContainers : Bool) :
    PodActions :=
  let containers := pod.containers
  let (createPodSandbox, attempt, sandboxID) := podSandboxChanged pod podStatus
  let changes : PodActions :=
    { createSandbox := createPodSandbox
      killPod := createPodSandbox
      sandboxID := sandboxID
      attempt := attempt }
  if restartAllContainers then
    let (sourceContainers, targetContainers) := getContainersToReset containers podStatus
    { changes with containersToReset := targetContainers ++ sourceContainers }
  else if createPodSandbox then
    if !shouldRestartOnFailure pod && attempt ≠ 0 && !podStatus.containerStatuses.isEmpty then
      { changes with createSandbox := false }
    else
      let containersToStart := newSandboxStart pod podStatus
      if containersToStart.isEmpty && hasAnyRegularContainerCreated pod podStatus then
        { changes with createSandbox := false }
      else { changes with containersToStart := containersToStart }
  else
    let (changes, keepCount) := containers.zipIdx.foldl (syncContainer sum32 m pod podStatus) (changes, 0)
    if keepCount = 0 ∧ changes.containersToStart.isEmpty then { changes with killPod := true }
    else changes

/-! ## The loop over the containers -/

variable {sum32 m} {pod : V1Pod T} {podStatus : PodRuntimeStatus}

@[simp] theorem syncContainers_createSandbox (entries : List (V1Container × Nat)) (acc : PodActions × Nat) :
    (entries.foldl (syncContainer sum32 m pod podStatus) acc).1.createSandbox = acc.1.createSandbox := by
  induction entries generalizing acc with
  | nil => rfl
  | cons entry entries ih => simp [ih, syncContainer]

@[simp] theorem syncContainers_killPod (entries : List (V1Container × Nat)) (acc : PodActions × Nat) :
    (entries.foldl (syncContainer sum32 m pod podStatus) acc).1.killPod = acc.1.killPod := by
  induction entries generalizing acc with
  | nil => rfl
  | cons entry entries ih => simp [ih, syncContainer]

theorem syncContainers_start (entries : List (V1Container × Nat)) (acc : PodActions × Nat) :
    (entries.foldl (syncContainer sum32 m pod podStatus) acc).1.containersToStart =
      acc.1.containersToStart ++
        (entries.filter fun (c, _) => (containerChange sum32 m pod podStatus c).start).map Prod.snd := by
  induction entries generalizing acc with
  | nil => simp
  | cons entry entries ih =>
    rw [List.foldl_cons, ih]
    by_cases hstart : (containerChange sum32 m pod podStatus entry.1).start = true
    · simp [syncContainer, hstart]
    · simp [syncContainer, hstart]

theorem syncContainers_keep (entries : List (V1Container × Nat)) (acc : PodActions × Nat) :
    (entries.foldl (syncContainer sum32 m pod podStatus) acc).2 = 0 ↔
      acc.2 = 0 ∧ ∀ entry ∈ entries, (containerChange sum32 m pod podStatus entry.1).keep = false := by
  induction entries generalizing acc with
  | nil => simp
  | cons entry entries ih =>
    rw [List.foldl_cons, ih]
    by_cases hkeep : (containerChange sum32 m pod podStatus entry.1).keep = true
    · simp [syncContainer, hkeep]
    · simp [syncContainer, hkeep]

theorem syncContainer_kill (acc : PodActions × Nat) (entry : V1Container × Nat) (key : JsString) :
    (syncContainer sum32 m pod podStatus acc entry).1.containersToKill.contains key = true ↔
      acc.1.containersToKill.contains key = true ∨
        ∃ kill, (containerChange sum32 m pod podStatus entry.1).kill = some kill ∧
          kill.1.toString = key := by
  cases hkill : (containerChange sum32 m pod podStatus entry.1).kill with
  | none => simp [syncContainer, hkill]
  | some kill =>
    have hset : (syncContainer sum32 m pod podStatus acc entry).1.containersToKill =
        acc.1.containersToKill.set kill.1.toString kill := by
      simp [syncContainer, hkill]
    rw [hset, JsMap.contains_iff, JsMap.get_set]
    by_cases hkey : kill.1.toString = key
    · simp [hkey]
    · have hother : ¬ ∃ other, some kill = some other ∧ other.1.toString = key := by
        simpa using hkey
      rw [if_neg (Ne.symm hkey), or_iff_left hother, JsMap.contains_iff]

/-- Later turns put other entries in, and take none out. -/
theorem syncContainers_kill (entries : List (V1Container × Nat)) (acc : PodActions × Nat) (key : JsString) :
    (entries.foldl (syncContainer sum32 m pod podStatus) acc).1.containersToKill.contains key = true ↔
      acc.1.containersToKill.contains key = true ∨
        ∃ entry ∈ entries, ∃ kill, (containerChange sum32 m pod podStatus entry.1).kill = some kill ∧
          kill.1.toString = key := by
  induction entries generalizing acc with
  | nil => simp
  | cons entry entries ih =>
    rw [List.foldl_cons, ih, syncContainer_kill, or_assoc, List.exists_mem_cons_iff]

/-! ## One container -/

/-- The definition is as it was, and no probe failed. -/
structure Healthy (sum32 : JsString → JsString → Nat) (m : KubeGenericRuntimeManager)
    (container : V1Container) (status : Status) : Prop where
  unchanged : containerChanged sum32 container status = false
  live : m.livenessManager.get status.id ≠ some .failure
  started : m.startupManager.get status.id ≠ some .failure

variable {container : V1Container} {status : Status}

variable (sum32 m pod) in
/-- A running container is kept as long as it is healthy, and killed else. -/
theorem containerChange_running (hfind : findContainerStatusByName podStatus container.name = some status)
    (hrunning : status.state = .running) :
    (Healthy sum32 m container status ∧
      containerChange sum32 m pod podStatus container = { keep := true }) ∨
    (¬ Healthy sum32 m container status ∧
      (containerChange sum32 m pod podStatus container).keep = false ∧
      ∃ info, (containerChange sum32 m pod podStatus container).kill = some (status.id, info)) := by
  simp only [containerChange, hfind, hrunning, ne_eq, not_true_eq_false, if_false]
  split
  · rename_i hchanged
    refine .inr ⟨fun h => ?_, rfl, _, rfl⟩
    rw [h.unchanged] at hchanged
    exact Bool.false_ne_true hchanged
  · split
    · rename_i hlive
      exact .inr ⟨fun h => h.live hlive, rfl, _, rfl⟩
    · split
      · rename_i hstarted
        exact .inr ⟨fun h => h.started hstarted, rfl, _, rfl⟩
      · rename_i hunchanged hlive hstarted
        exact .inl ⟨⟨Bool.eq_false_iff.mpr hunchanged, hlive, hstarted⟩, rfl⟩

theorem containerChange_stopped (hfind : findContainerStatusByName podStatus container.name = some status)
    (hstopped : status.state ≠ .running) :
    (containerChange sum32 m pod podStatus container).keep = false ∧
      (containerChange sum32 m pod podStatus container).start =
        shouldContainerBeRestarted container pod podStatus ∧
      ∀ kill, (containerChange sum32 m pod podStatus container).kill = some kill → kill.1 = status.id := by
  simp only [containerChange, hfind, if_pos hstopped]
  split
  · rename_i hrestart
    refine ⟨rfl, hrestart.symm, ?_⟩
    intro kill hkill
    by_cases hunknown : status.state = .unknown
    · simp only [if_pos hunknown, Option.some.injEq] at hkill
      rw [← hkill]
    · simp only [if_neg hunknown] at hkill
      exact absurd hkill (Option.some_ne_none kill).symm
  · rename_i hrestart
    refine ⟨rfl, (Bool.eq_false_iff.mpr hrestart).symm, ?_⟩
    intro kill hkill
    exact absurd hkill (Option.some_ne_none kill).symm

theorem containerChange_absent (hfind : findContainerStatusByName podStatus container.name = none) :
    containerChange sum32 m pod podStatus container =
      { start := shouldContainerBeRestarted container pod podStatus } := by
  simp only [containerChange, hfind]

/-- Who is kept runs, and is healthy. -/
theorem running_of_keep (h : (containerChange sum32 m pod podStatus container).keep = true) :
    ∃ status, findContainerStatusByName podStatus container.name = some status ∧
      status.state = .running ∧ Healthy sum32 m container status := by
  cases hfind : findContainerStatusByName podStatus container.name with
  | none =>
    rw [containerChange_absent hfind] at h
    exact absurd h Bool.false_ne_true
  | some status =>
    by_cases hrunning : status.state = .running
    · rcases containerChange_running sum32 m pod hfind hrunning with
        ⟨hhealthy, -⟩ | ⟨-, hkeep, -⟩
      · exact ⟨status, rfl, hrunning, hhealthy⟩
      · rw [hkeep] at h
        exact absurd h Bool.false_ne_true
    · rw [(containerChange_stopped hfind hrunning).1] at h
      exact absurd h Bool.false_ne_true

/-- A kill is for the newest instance of the name, and not for a healthy one that runs. -/
theorem newest_of_kill {kill : ContainerID × ContainerToKillInfo}
    (h : (containerChange sum32 m pod podStatus container).kill = some kill) :
    ∃ status, findContainerStatusByName podStatus container.name = some status ∧ kill.1 = status.id ∧
      (status.state = .running → ¬ Healthy sum32 m container status) := by
  cases hfind : findContainerStatusByName podStatus container.name with
  | none =>
    rw [containerChange_absent hfind] at h
    exact absurd h (Option.some_ne_none kill).symm
  | some status =>
    by_cases hrunning : status.state = .running
    · rcases containerChange_running sum32 m pod hfind hrunning with
        ⟨-, hkeep⟩ | ⟨hnot, -, info, hkill⟩
      · rw [hkeep] at h
        exact absurd h (Option.some_ne_none kill).symm
      · rw [hkill, Option.some.injEq] at h
        exact ⟨status, rfl, by rw [← h], fun _ => hnot⟩
    · exact ⟨status, rfl, (containerChange_stopped hfind hrunning).2.2 kill h,
        fun hrun => absurd hrun hrunning⟩

/-! ## Safety -/

/-- An instance that runs is the newest of its name, so the only one that does. -/
def PodRuntimeStatus.NewestRuns (podStatus : PodRuntimeStatus) : Prop :=
  ∀ status ∈ podStatus.containerStatuses, status.state = .running →
    findContainerStatusByName podStatus status.name = some status

def V1Pod.DistinctNames (pod : V1Pod T) : Prop := (pod.containers.map fun c => c.name).Nodup

/-- The instance is killed with the pod, or by itself. -/
def PodActions.Kills (changes : PodActions) (status : Status) : Prop :=
  changes.killPod = true ∨ changes.containersToKill.contains status.id.toString = true

variable (sum32 m pod podStatus) in
/-- The actions on a pod are safe. -/
structure ActionsSafe (changes : PodActions) : Prop where
  /-- A healthy running container is killed for the sake of the sandbox only. -/
  spares : ∀ c ∈ pod.containers, ∀ status ∈ podStatus.containerStatuses, status.name = c.name →
    status.state = .running → Healthy sum32 m c status → changes.Kills status →
      (podSandboxChanged pod podStatus).1 = true
  /-- A container that is started has no instance that goes on running. -/
  replaces : ∀ i ∈ changes.containersToStart, ∃ c, pod.containers[i]? = some c ∧
    ∀ status ∈ podStatus.containerStatuses, status.name = c.name → status.state = .running →
      changes.Kills status
  /-- A container that exited is started as `containerShouldRestart` has it. -/
  obeys : ∀ i ∈ changes.containersToStart, ∀ c, pod.containers[i]? = some c →
    ∀ status, findContainerStatusByName podStatus c.name = some status → status.state = .exited →
      containerShouldRestart c.toContainer (pod.spec.map V1PodSpec.toPodSpec)
        (status.exitCode.getD 0) = true
  /-- The pod is killed for good where nothing is kept and nothing started. -/
  ends : changes.killPod = true ∧ changes.createSandbox = false ↔
    (∀ c ∈ pod.containers, ∀ status, findContainerStatusByName podStatus c.name = some status →
      status.state = .running → changes.Kills status) ∧ changes.containersToStart = []

/-- The policy of the pod is `Never`, and it has been tried before. -/
def GivesUp (pod : V1Pod T) (podStatus : PodRuntimeStatus) : Prop :=
  shouldRestartOnFailure pod = false ∧ (podSandboxChanged pod podStatus).2.1 ≠ 0 ∧
    podStatus.containerStatuses ≠ []

/-- The container exited, `containerShouldRestart` is against it, and it is not one that ran once
and succeeded. -/
def BroughtBack (pod : V1Pod T) (podStatus : PodRuntimeStatus) (c : V1Container) : Prop :=
  ∃ status, findContainerStatusByName podStatus c.name = some status ∧ status.state = .exited ∧
    containerShouldRestart c.toContainer (pod.spec.map V1PodSpec.toPodSpec)
      (status.exitCode.getD 0) = false ∧
    staysDown ((pod.spec.bind V1PodSpec.restartPolicy).getD (js "Always")) podStatus c = false

/-- Where a sandbox is made, there are containers, and none of them is brought back. -/
def NewSandboxObeys (pod : V1Pod T) (podStatus : PodRuntimeStatus) : Prop :=
  (podSandboxChanged pod podStatus).1 = true → ¬ GivesUp pod podStatus →
    pod.containers ≠ [] ∧ ∀ c ∈ pod.containers, ¬ BroughtBack pod podStatus c

theorem eq_of_name (hnames : pod.DistinctNames) {c d : V1Container} (hc : c ∈ pod.containers)
    (hd : d ∈ pod.containers) (h : c.name = d.name) : c = d :=
  List.inj_on_of_nodup_map hnames hc hd h

/-! ### A sandbox that stays -/

variable (sum32 m pod podStatus) in
/-- What the loop over the containers comes to, from nothing. -/
def syncContainers : PodActions × Nat :=
  pod.containers.zipIdx.foldl (syncContainer sum32 m pod podStatus)
    ({ createSandbox := (podSandboxChanged pod podStatus).1
       killPod := (podSandboxChanged pod podStatus).1
       sandboxID := (podSandboxChanged pod podStatus).2.2
       attempt := (podSandboxChanged pod podStatus).2.1 }, 0)

theorem computePodActions_of_stays (hstays : (podSandboxChanged pod podStatus).1 = false) :
    (computePodActions sum32 m pod podStatus false).createSandbox = false ∧
      (computePodActions sum32 m pod podStatus false).containersToStart =
        (syncContainers sum32 m pod podStatus).1.containersToStart ∧
      (computePodActions sum32 m pod podStatus false).containersToKill =
        (syncContainers sum32 m pod podStatus).1.containersToKill ∧
      ((computePodActions sum32 m pod podStatus false).killPod = true ↔
        (syncContainers sum32 m pod podStatus).2 = 0 ∧
          (syncContainers sum32 m pod podStatus).1.containersToStart = []) := by
  unfold computePodActions syncContainers
  obtain ⟨⟨created, attempt, sandboxID⟩, hchanged⟩ : ∃ changed, podSandboxChanged pod podStatus = changed :=
    ⟨_, rfl⟩
  rw [hchanged] at hstays ⊢
  obtain rfl : created = false := hstays
  simp only [Bool.false_eq_true, if_false, List.isEmpty_iff]
  split
  · rename_i hnone
    exact ⟨syncContainers_createSandbox _ _, rfl, rfl, iff_of_true rfl hnone⟩
  · rename_i hsome
    refine ⟨syncContainers_createSandbox _ _, rfl, rfl, iff_of_false ?_ hsome⟩
    rw [syncContainers_killPod]
    exact Bool.false_ne_true

/-- The places that are started are those of the containers that the loop starts. -/
theorem mem_start_of_stays (hstays : (podSandboxChanged pod podStatus).1 = false) {i : Nat} :
    i ∈ (computePodActions sum32 m pod podStatus false).containersToStart ↔
      ∃ c, pod.containers[i]? = some c ∧ (containerChange sum32 m pod podStatus c).start = true := by
  rw [(computePodActions_of_stays hstays).2.1, syncContainers, syncContainers_start, List.nil_append,
    List.mem_map]
  constructor
  · rintro ⟨⟨c, j⟩, hmem, rfl⟩
    rw [List.mem_filter, List.mk_mem_zipIdx_iff_getElem?] at hmem
    exact ⟨c, hmem⟩
  · rintro ⟨c, hget, hstart⟩
    exact ⟨(c, i), List.mem_filter.mpr ⟨List.mk_mem_zipIdx_iff_getElem?.mpr hget, hstart⟩, rfl⟩

theorem mem_containers_of_zipIdx {c : V1Container} {i : Nat} (h : (c, i) ∈ pod.containers.zipIdx) :
    c ∈ pod.containers :=
  List.mem_of_getElem? (List.mk_mem_zipIdx_iff_getElem?.mp h)

/-- Nothing is kept where the loop counts none. -/
theorem keepCount_eq_zero_iff : (syncContainers sum32 m pod podStatus).2 = 0 ↔
    ∀ c ∈ pod.containers, (containerChange sum32 m pod podStatus c).keep = false := by
  rw [syncContainers, syncContainers_keep]
  constructor
  · intro h c hc
    obtain ⟨i, hi⟩ := List.mem_iff_getElem?.mp hc
    exact h.2 (c, i) (List.mk_mem_zipIdx_iff_getElem?.mpr hi)
  · intro h
    exact ⟨rfl, fun entry hentry => h entry.1 (mem_containers_of_zipIdx hentry)⟩

theorem kill_of_stays (hstays : (podSandboxChanged pod podStatus).1 = false) {key : JsString} :
    (computePodActions sum32 m pod podStatus false).containersToKill.contains key = true ↔
      ∃ c ∈ pod.containers, ∃ kill, (containerChange sum32 m pod podStatus c).kill = some kill ∧
        kill.1.toString = key := by
  rw [(computePodActions_of_stays hstays).2.2.1, syncContainers, syncContainers_kill]
  constructor
  · rintro (hempty | ⟨⟨c, i⟩, hmem, hkill⟩)
    · exact absurd hempty (by simp [JsMap.contains, JsMap.keys, JsMap.empty])
    · exact ⟨c, mem_containers_of_zipIdx hmem, hkill⟩
  · rintro ⟨c, hc, hkill⟩
    obtain ⟨i, hi⟩ := List.mem_iff_getElem?.mp hc
    exact .inr ⟨(c, i), List.mk_mem_zipIdx_iff_getElem?.mpr hi, hkill⟩

/-- A running container is killed by itself unless it is kept. -/
theorem kills_of_not_keep (hstays : (podSandboxChanged pod podStatus).1 = false) {c : V1Container}
    (hc : c ∈ pod.containers) (hfind : findContainerStatusByName podStatus c.name = some status)
    (hrunning : status.state = .running)
    (hkeep : (containerChange sum32 m pod podStatus c).keep = false) :
    (computePodActions sum32 m pod podStatus false).containersToKill.contains status.id.toString = true := by
  rcases containerChange_running sum32 m pod hfind hrunning with ⟨-, hkept⟩ | ⟨-, -, info, hkill⟩
  · rw [hkept] at hkeep
    exact absurd hkeep.symm Bool.false_ne_true
  · exact (kill_of_stays hstays).mpr ⟨c, hc, _, hkill, rfl⟩

theorem not_kills_of_healthy (hstays : (podSandboxChanged pod podStatus).1 = false)
    (hnames : pod.DistinctNames) (hnewest : podStatus.NewestRuns) {c : V1Container}
    (hc : c ∈ pod.containers) (hmem : status ∈ podStatus.containerStatuses) (hname : status.name = c.name)
    (hrunning : status.state = .running) (hhealthy : Healthy sum32 m c status) :
    ¬ (computePodActions sum32 m pod podStatus false).Kills status := by
  have hfind : findContainerStatusByName podStatus c.name = some status := by
    rw [← hname]
    exact hnewest status hmem hrunning
  rintro (hpod | hkill)
  · -- the pod goes only where nothing is kept
    have hkeep := keepCount_eq_zero_iff.mp ((computePodActions_of_stays hstays).2.2.2.mp hpod).1 c hc
    rcases containerChange_running sum32 m pod hfind hrunning with ⟨-, hkept⟩ | ⟨hnot, -⟩
    · rw [hkept] at hkeep
      exact absurd hkeep.symm Bool.false_ne_true
    · exact hnot hhealthy
  · -- an entry under its id is its own, and would be for want of health
    obtain ⟨d, hd, kill, hkilled, hkey⟩ := (kill_of_stays hstays).mp hkill
    obtain ⟨other, hother, hid, hunhealthy⟩ := newest_of_kill hkilled
    rw [hid] at hkey
    have hsame : other = status := podStatus.eq_of_id (findContainerStatusByName_mem hother) hmem hkey
    subst hsame
    have hdc : d = c := by
      refine eq_of_name hnames hd hc ?_
      rw [← findContainerStatusByName_name hother, hname]
    subst hdc
    exact hunhealthy hrunning hhealthy

theorem actionsSafe_of_stays (hstays : (podSandboxChanged pod podStatus).1 = false)
    (hnames : pod.DistinctNames) (hnewest : podStatus.NewestRuns) :
    ActionsSafe sum32 m pod podStatus (computePodActions sum32 m pod podStatus false) where
  spares := by
    intro c hc status hmem hname hrunning hhealthy hkills
    exact absurd hkills (not_kills_of_healthy hstays hnames hnewest hc hmem hname hrunning hhealthy)
  replaces := by
    intro i hi
    obtain ⟨c, hget, hstart⟩ := (mem_start_of_stays hstays).mp hi
    refine ⟨c, hget, ?_⟩
    intro status hmem hname hrunning
    have hfind : findContainerStatusByName podStatus c.name = some status := by
      rw [← hname]
      exact hnewest status hmem hrunning
    refine .inr (kills_of_not_keep hstays (List.mem_of_getElem? hget) hfind hrunning ?_)
    rcases containerChange_running sum32 m pod hfind hrunning with ⟨-, hkept⟩ | ⟨-, hkeep, -⟩
    · rw [hkept] at hstart
      exact absurd hstart Bool.false_ne_true
    · exact hkeep
  obeys := by
    intro i hi c hget status hfind hexited
    obtain ⟨d, hd, hstart⟩ := (mem_start_of_stays hstays).mp hi
    have hdc : d = c := Option.some.inj (hd.symm.trans hget)
    subst hdc
    have hnot : status.state ≠ .running := by
      rw [hexited]
      exact State.noConfusion
    rw [(containerChange_stopped hfind hnot).2.1, shouldContainerBeRestarted] at hstart
    split at hstart
    · exact absurd hstart Bool.false_ne_true
    · simpa only [hfind, hexited] using hstart
  ends := by
    rw [(computePodActions_of_stays hstays).1, (computePodActions_of_stays hstays).2.2.2,
      keepCount_eq_zero_iff, ← (computePodActions_of_stays hstays).2.1]
    constructor
    · rintro ⟨⟨hkeep, hstart⟩, -⟩
      refine ⟨?_, hstart⟩
      intro c hc status hfind hrunning
      exact .inr (kills_of_not_keep hstays hc hfind hrunning (hkeep c hc))
    · rintro ⟨hkills, hstart⟩
      refine ⟨⟨?_, hstart⟩, rfl⟩
      intro c hc
      by_contra hkeep
      obtain ⟨status, hfind, hrunning, hhealthy⟩ := running_of_keep (Bool.not_eq_false _ ▸ hkeep)
      exact not_kills_of_healthy hstays hnames hnewest hc (findContainerStatusByName_mem hfind)
        (findContainerStatusByName_name hfind) hrunning hhealthy (hkills c hc status hfind hrunning)

/-! ### A sandbox that is made anew -/

theorem mem_newSandboxStart {i : Nat} : i ∈ newSandboxStart pod podStatus ↔
    ∃ c, pod.containers[i]? = some c ∧
      staysDown ((pod.spec.bind V1PodSpec.restartPolicy).getD (js "Always")) podStatus c = false := by
  rw [newSandboxStart, List.mem_map]
  constructor
  · rintro ⟨⟨c, j⟩, hmem, rfl⟩
    rw [List.mem_filter, List.mk_mem_zipIdx_iff_getElem?] at hmem
    exact ⟨c, hmem.1, by simpa using hmem.2⟩
  · rintro ⟨c, hget, hup⟩
    refine ⟨(c, i), List.mem_filter.mpr ⟨List.mk_mem_zipIdx_iff_getElem?.mpr hget, ?_⟩, rfl⟩
    simp [hup]

variable (sum32 m) in
theorem computePodActions_of_givesUp (hchanged : (podSandboxChanged pod podStatus).1 = true)
    (hgives : GivesUp pod podStatus) :
    (computePodActions sum32 m pod podStatus false).killPod = true ∧
      (computePodActions sum32 m pod podStatus false).createSandbox = false ∧
      (computePodActions sum32 m pod podStatus false).containersToStart = [] := by
  obtain ⟨hnever, hattempt, hstatuses⟩ := hgives
  unfold computePodActions
  obtain ⟨⟨created, attempt, sandboxID⟩, hsandbox⟩ : ∃ changed, podSandboxChanged pod podStatus = changed :=
    ⟨_, rfl⟩
  rw [hsandbox] at hchanged hattempt ⊢
  obtain rfl : created = true := hchanged
  simp [hnever, hattempt, hstatuses]

variable (sum32 m) in
theorem computePodActions_of_changed (hchanged : (podSandboxChanged pod podStatus).1 = true)
    (hgives : ¬ GivesUp pod podStatus) :
    (computePodActions sum32 m pod podStatus false).killPod = true ∧
      (computePodActions sum32 m pod podStatus false).containersToStart = newSandboxStart pod podStatus ∧
      ((computePodActions sum32 m pod podStatus false).createSandbox = false ↔
        newSandboxStart pod podStatus = [] ∧ hasAnyRegularContainerCreated pod podStatus = true) := by
  unfold computePodActions
  rw [GivesUp] at hgives
  obtain ⟨⟨created, attempt, sandboxID⟩, hsandbox⟩ : ∃ changed, podSandboxChanged pod podStatus = changed :=
    ⟨_, rfl⟩
  rw [hsandbox] at hchanged hgives ⊢
  obtain rfl : created = true := hchanged
  have hgoes : (!shouldRestartOnFailure pod && decide (attempt ≠ 0) &&
      !podStatus.containerStatuses.isEmpty) = false := by
    rw [Bool.eq_false_iff]
    intro h
    exact hgives (by simpa [and_assoc] using h)
  simp only [Bool.false_eq_true, if_false, if_true, hgoes]
  split
  · rename_i hnone
    simp only [Bool.and_eq_true, List.isEmpty_iff] at hnone
    exact ⟨rfl, hnone.1.symm, iff_of_true rfl hnone⟩
  · rename_i hsome
    simp only [Bool.and_eq_true, List.isEmpty_iff] at hsome
    exact ⟨rfl, rfl, iff_of_false (Bool.true_eq_false.mp ·) hsome⟩

/-- Where none is left to start, each container has succeeded, so was created. -/
theorem hasAny_of_start_nil (hsome : pod.containers ≠ []) (hstart : newSandboxStart pod podStatus = []) :
    hasAnyRegularContainerCreated pod podStatus = true := by
  obtain ⟨c, hc⟩ := List.exists_mem_of_ne_nil _ hsome
  obtain ⟨i, hi⟩ := List.mem_iff_getElem?.mp hc
  have hdown : staysDown ((pod.spec.bind V1PodSpec.restartPolicy).getD (js "Always")) podStatus c = true := by
    by_contra hup
    have hmem := mem_newSandboxStart.mpr ⟨c, hi, Bool.eq_false_iff.mpr hup⟩
    rw [hstart] at hmem
    exact absurd hmem List.not_mem_nil
  have hsucceeded : containerSucceeded c podStatus = true := by
    rw [staysDown, Bool.or_eq_true, Bool.and_eq_true, Bool.and_eq_true] at hdown
    exact hdown.elim And.right And.right
  rw [hasAnyRegularContainerCreated, List.any_eq_true]
  refine ⟨c, hc, ?_⟩
  cases hfind : findContainerStatusByName podStatus c.name with
  | none => simp [containerSucceeded, hfind] at hsucceeded
  | some status =>
    simp only [containerSucceeded, hfind, Bool.and_eq_true, decide_eq_true_eq] at hsucceeded
    simp [hsucceeded.1]

theorem actionsSafe_of_givesUp (hchanged : (podSandboxChanged pod podStatus).1 = true)
    (hgives : GivesUp pod podStatus) :
    ActionsSafe sum32 m pod podStatus (computePodActions sum32 m pod podStatus false) := by
  obtain ⟨hkill, hcreate, hstart⟩ := computePodActions_of_givesUp sum32 m hchanged hgives
  have hnone : ∀ i, i ∉ (computePodActions sum32 m pod podStatus false).containersToStart := by
    simp [hstart]
  exact {
    spares := fun _ _ _ _ _ _ _ _ => hchanged
    replaces := fun i hi => absurd hi (hnone i)
    obeys := fun i hi => absurd hi (hnone i)
    ends := iff_of_true ⟨hkill, hcreate⟩ ⟨fun _ _ _ _ _ => .inl hkill, hstart⟩ }

theorem actionsSafe_iff_of_changed (hchanged : (podSandboxChanged pod podStatus).1 = true)
    (hgives : ¬ GivesUp pod podStatus) :
    ActionsSafe sum32 m pod podStatus (computePodActions sum32 m pod podStatus false) ↔
      pod.containers ≠ [] ∧ ∀ c ∈ pod.containers, ¬ BroughtBack pod podStatus c := by
  obtain ⟨hkill, hstart, hcreate⟩ := computePodActions_of_changed sum32 m hchanged hgives
  constructor
  · intro hsafe
    constructor
    · -- without containers nothing is started, and yet a sandbox is made
      intro hempty
      have hnil : newSandboxStart pod podStatus = [] := by
        simp [newSandboxStart, hempty]
      have hends := hsafe.ends.mpr ⟨fun _ _ _ _ _ => .inl hkill, hstart.trans hnil⟩
      have hany := (hcreate.mp hends.2).2
      simp [hasAnyRegularContainerCreated, hempty] at hany
    · intro c hc hback
      obtain ⟨status, hfind, hexited, hforbids, hup⟩ := hback
      obtain ⟨i, hi⟩ := List.mem_iff_getElem?.mp hc
      have hmem : i ∈ (computePodActions sum32 m pod podStatus false).containersToStart := by
        rw [hstart]
        exact mem_newSandboxStart.mpr ⟨c, hi, hup⟩
      have hallows := hsafe.obeys i hmem c hi status hfind hexited
      rw [hforbids] at hallows
      exact Bool.false_ne_true hallows
  · rintro ⟨hsome, hobeys⟩
    exact {
      spares := fun _ _ _ _ _ _ _ _ => hchanged
      replaces := by
        intro i hi
        rw [hstart] at hi
        obtain ⟨c, hget, -⟩ := mem_newSandboxStart.mp hi
        exact ⟨c, hget, fun _ _ _ _ => .inl hkill⟩
      obeys := by
        intro i hi c hget status hfind hexited
        rw [hstart] at hi
        obtain ⟨d, hd, hup⟩ := mem_newSandboxStart.mp hi
        obtain rfl : d = c := Option.some.inj (hd.symm.trans hget)
        by_contra hforbids
        exact hobeys d (List.mem_of_getElem? hget)
          ⟨status, hfind, hexited, Bool.eq_false_iff.mpr hforbids, hup⟩
      ends := by
        constructor
        · rintro ⟨-, hnone⟩
          exact ⟨fun _ _ _ _ _ => .inl hkill, hstart.trans (hcreate.mp hnone).1⟩
        · rintro ⟨-, hnil⟩
          have hnil := hstart.symm.trans hnil
          exact ⟨hkill, hcreate.mpr ⟨hnil, hasAny_of_start_nil hsome hnil⟩⟩ }

/-- The actions are safe exactly where a sandbox is not made for a pod without containers, and does
not bring back a container that `containerShouldRestart` is against. -/
theorem actionsSafe_iff (hnames : pod.DistinctNames) (hnewest : podStatus.NewestRuns) :
    ActionsSafe sum32 m pod podStatus (computePodActions sum32 m pod podStatus false) ↔
      NewSandboxObeys pod podStatus := by
  cases hchanged : (podSandboxChanged pod podStatus).1 with
  | false =>
    refine iff_of_true (actionsSafe_of_stays hchanged hnames hnewest) ?_
    intro h
    rw [hchanged] at h
    exact absurd h Bool.false_ne_true
  | true =>
    by_cases hgives : GivesUp pod podStatus
    · exact iff_of_true (actionsSafe_of_givesUp hchanged hgives) fun _ hnot => absurd hgives hnot
    · rw [actionsSafe_iff_of_changed hchanged hgives]
      exact ⟨fun h _ _ => h, fun h => h hchanged hgives⟩

/-! ### A container that never restarts -/

section NeverRestarts

def neverContainer : V1Container := { name := js "app", restartPolicy := some (js "Never") }

def neverPod : V1Pod Nat :=
  { spec := some { restartPolicy := some (js "Always"), containers := some [neverContainer] } }

/-- It has exited, and its sandbox is gone. -/
def neverStatus : PodRuntimeStatus where
  containerStatuses := [{ id := ⟨js "c", js "1"⟩, name := js "app", state := .exited, hash := 0 }]
  sandboxStatuses := [{ id := js "s", state := .notReady, attempt := 0 }]
  nodup_ids := by decide

def quietManager : KubeGenericRuntimeManager := ⟨⟨JsMap.empty⟩, ⟨JsMap.empty⟩⟩

theorem actionsSafe_iff_never :
    ActionsSafe (fun _ _ => 0) quietManager neverPod neverStatus
      (computePodActions (fun _ _ => 0) quietManager neverPod neverStatus false) ↔
      NewSandboxObeys neverPod neverStatus :=
  actionsSafe_iff (by simp [V1Pod.DistinctNames, neverPod, V1Pod.containers])
    (by simp [PodRuntimeStatus.NewestRuns, neverStatus])

/-- In the new sandbox it runs again. -/
theorem never_started_again :
    neverPod.DistinctNames ∧ neverStatus.NewestRuns ∧
      ¬ ActionsSafe (fun _ _ => 0) quietManager neverPod neverStatus
        (computePodActions (fun _ _ => 0) quietManager neverPod neverStatus false) := by
  refine ⟨by simp [V1Pod.DistinctNames, neverPod, V1Pod.containers],
    by simp [PodRuntimeStatus.NewestRuns, neverStatus], ?_⟩
  intro hsafe
  have hstarted : 0 ∈ (computePodActions (fun _ _ => 0) quietManager neverPod neverStatus
      false).containersToStart := by decide
  have hallows := hsafe.obeys 0 hstarted neverContainer rfl _ rfl rfl
  exact absurd hallows (by decide)

end NeverRestarts

end Actions

end Webernetes.Kuberuntime
