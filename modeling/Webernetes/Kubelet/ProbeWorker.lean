/-
Webernetes.Kubelet.ProbeWorker — the worker that probes one container:
`doProbe`, the results it publishes, and the runs of a worker.

`log` lists what a worker did to the results and what its probes told. A
container instance begins with `initialised`; `outcomes` are those of the
instance, the newest first. What a step reads is an `Observation`.
-/
import Webernetes.Base.History
import Webernetes.Base.Transition
import Webernetes.Kuberuntime.PodActions

/-! ## The results -/

namespace Webernetes.Kuberuntime.ResultsManager

open Js
open Kubelet (ContainerID)

def set (results : ResultsManager) (containerId : ContainerID) (result : ProberResult) : ResultsManager :=
  if results.get containerId = some result then results
  else ⟨results.cache.set containerId.toString result⟩

def remove (results : ResultsManager) (containerId : ContainerID) : ResultsManager :=
  ⟨results.cache.delete containerId.toString⟩

theorem get_set (results : ResultsManager) (id id' : ContainerID) (result : ProberResult) :
    (results.set id result).get id' =
      if id'.toString = id.toString then some result else results.get id' := by
  unfold set
  split
  · rename_i hsame
    split
    · rename_i heq
      rw [get, heq, ← get, hsame]
    · rfl
  · exact JsMap.get_set _ _ _ _

theorem get_remove (results : ResultsManager) (id id' : ContainerID) :
    (results.remove id).get id' = if id'.toString = id.toString then none else results.get id' :=
  JsMap.get_delete _ _ _

end Webernetes.Kuberuntime.ResultsManager

namespace Webernetes.Kubelet.Prober

open Js Base Api
open Kubelet (ContainerID parseContainerID)
open Kuberuntime (ProberResult ResultsManager)

variable {T O : Type}

/-! ## The worker -/

inductive ProbeType where
  | readiness
  | liveness
  | startup
  deriving DecidableEq

structure ProbeSpec where
  initialDelaySeconds : Option Int := none
  successThreshold : Option Int := none
  failureThreshold : Option Int := none
  deriving DecidableEq

/-- What a worker is made for. -/
structure ProbeConfig where
  probeType : ProbeType
  spec : ProbeSpec
  container : Api.Container
  podSpec : Option PodSpec := none
  deriving DecidableEq

namespace ProbeConfig

variable (config : ProbeConfig)

def initialValue : ProberResult :=
  match config.probeType with
  | .readiness => .failure
  | .liveness => .success
  | .startup => .unknown

/-- How many outcomes in a row it takes; of `"unknown"` none is waited for. -/
def threshold : ProberResult → Option Int
  | .failure => some (config.spec.failureThreshold.getD 3)
  | .success => some (config.spec.successThreshold.getD 1)
  | .unknown => none

/-- The result puts the worker on hold. -/
def holds (result : ProberResult) : Bool :=
  (config.probeType = .liveness && result = .failure) || config.probeType = .startup

end ProbeConfig

inductive ProbeEvent where
  /-- `remove`. -/
  | removed (id : ContainerID)
  /-- The initial value is set for a new container id. -/
  | initialised (id : ContainerID) (result : ProberResult)
  /-- A failure is set for a container that does not run. -/
  | stopped (id : ContainerID)
  /-- A success is set for a pod that is being deleted. -/
  | deleted (id : ContainerID)
  /-- A probe had an outcome. -/
  | probed (id : ContainerID) (result : ProberResult)
  /-- The outcome is set. -/
  | published (id : ContainerID) (result : ProberResult)
  deriving DecidableEq

structure ProbeRun where
  containerId : Option ContainerID := none
  lastResult : Option ProberResult := none
  resultRun : Nat := 0
  onHold : Bool := false
  results : ResultsManager := ⟨.empty⟩
  log : List ProbeEvent := []
  finished : Bool := false

/-! ## What a step reads -/

/-- `outcome` is that of the probe if it is run and does not err. -/
structure Observation (T O : Type) where
  cancelled : Bool := false
  status : Option (PodStatus T O) := none
  deleting : Bool := false
  nowMs : Int := 0
  outcome : Option ProberResult := none

/-- The status of the container, with its id. -/
def Observation.container (config : ProbeConfig) (obs : Observation T O) :
    Option (ContainerStatus T O × JsString) :=
  obs.status.bind fun status =>
    ((getContainerStatus status.containerStatuses config.container.name).or
      (getContainerStatus status.initContainerStatuses config.container.name)).bind fun c =>
        (c.containerID.filter (!·.isEmpty)).map fun containerID => (c, containerID)

/-- `shouldAllContainersRestart` without a runtime status. -/
def shouldAllContainersRestart (podSpec : Option PodSpec) (status : PodStatus T O) : Bool :=
  let nameToAPIStatus := JsMap.ofList (((status.initContainerStatuses.getD []) ++
    status.containerStatuses.getD []).map fun status => (status.name, status))
  ((status.conditions.getD []).any fun condition =>
    condition.type = js "AllContainersRestarting" && condition.status = js "True") ||
  (((podSpec.bind PodSpec.initContainers).getD []) ++ (podSpec.bind PodSpec.containers).getD []).any
    fun c =>
      match (nameToAPIStatus.get c.name).bind ContainerStatus.terminated with
      | none => false
      | some terminated =>
        ((findMatchingContainerRestartRule c terminated.exitCode).map ContainerRestartRule.action) =
          some (js "RestartAllContainers")

/-! ## `doProbe` -/

/-- What `doProbe` returns, or that it throws. -/
inductive Ending where
  | goOn
  | stop
  | threw
  deriving DecidableEq

namespace ProbeRun

def remove (s : ProbeRun) (id : ContainerID) : ProbeRun :=
  { s with results := s.results.remove id, log := s.log ++ [.removed id] }

def write (s : ProbeRun) (id : ContainerID) (result : ProberResult) (event : ProbeEvent) : ProbeRun :=
  { s with results := s.results.set id result, log := s.log ++ [event] }

/-- A container id that the worker has not got yet. -/
def meet (config : ProbeConfig) (s : ProbeRun) (containerID : JsString) : ProbeRun :=
  if s.containerId.map ContainerID.toString = some containerID then s
  else
    let s := match s.containerId with
      | some old => s.remove old
      | none => s
    let id := parseContainerID (some containerID)
    { s.write id config.initialValue (.initialised id config.initialValue) with
      containerId := some id
      onHold := false }

/-- `doProbe` from the outcome of the probe on. -/
def judge (config : ProbeConfig) (s : ProbeRun) (id : ContainerID) (result : ProberResult) : ProbeRun :=
  let s := { s with
    lastResult := some result
    resultRun := if s.lastResult = some result then s.resultRun + 1 else 1
    log := s.log ++ [.probed id result] }
  if (config.threshold result).any fun threshold => s.resultRun < threshold then s
  else
    let s := s.write id result (.published id result)
    if config.holds result then { s with onHold := true, resultRun := 0 } else s

/-- The initial delay is not over; `none` where a text is asked for its time. -/
def delayed (getTime : T → Int) (config : ProbeConfig) (nowMs : Int) (startedAt : Option (Stamp T)) :
    Option Bool :=
  match startedAt with
  | none => some false
  | some (.text _) => none
  | some (.date startedAt) =>
    some (Int.tdiv (nowMs - getTime startedAt) 1000 < config.spec.initialDelaySeconds.getD 0)

/-- `doProbe` of a container that runs. -/
def observe (getTime : T → Int) (config : ProbeConfig) (s : ProbeRun) (id : ContainerID)
    (obs : Observation T O) (c : ContainerStatus T O) (running : ContainerStateRunning T) :
    ProbeRun × Ending :=
  if obs.deleting && (config.probeType = .liveness || config.probeType = .startup) then
    (s.write id .success (.deleted id), .stop)
  else
    match delayed getTime config obs.nowMs running.startedAt with
    | none => (s, .threw)
    | some true => (s, .goOn)
    | some false =>
      if c.started.getD false = decide (config.probeType = .startup) then (s, .goOn)
      else
        match obs.outcome with
        | none => (s, .goOn)
        | some result => (s.judge config id result, .goOn)

/-- `doProbe` of a container that does not run. -/
def rest (config : ProbeConfig) (s : ProbeRun) (id : ContainerID) (status : PodStatus T O)
    (c : ContainerStatus T O) : ProbeRun × Ending :=
  let s := s.write id .failure (.stopped id)
  match c.terminated with
  | none => (s, .goOn)
  | some terminated =>
    if shouldAllContainersRestart config.podSpec status ||
        containerShouldRestart config.container config.podSpec terminated.exitCode then (s, .goOn)
    else (s, .stop)

def doProbe (getTime : T → Int) (config : ProbeConfig) (s : ProbeRun) (obs : Observation T O) :
    ProbeRun × Ending :=
  if obs.cancelled then (s, .stop)
  else
    match obs.status with
    | none => (s, .goOn)
    | some status =>
      if status.phase = some (js "Failed") ∨ status.phase = some (js "Succeeded") then (s, .stop)
      else
        match obs.container config with
        | none => (s, .goOn)
        | some (c, containerID) =>
          let s := s.meet config containerID
          let id := s.containerId.getD ⟨[], []⟩
          if s.onHold then (s, .goOn)
          else
            match c.state.bind ContainerState.running with
            | none => s.rest config id status c
            | some running => s.observe getTime config id obs c running

/-- The `finally` of `run`. -/
def finish (s : ProbeRun) : ProbeRun :=
  let s := match s.containerId with
    | some id => s.remove id
    | none => s
  { s with finished := true }

end ProbeRun

/-! ## Runs -/

/-- A step of the loop of `run`, the end of it from outside, and what the workers
of other containers do to the results. -/
inductive ProbeAct (T O : Type) where
  | doProbe (obs : Observation T O)
  | stop
  | elsewhere (results : ResultsManager)

def ProbeEvent.id : ProbeEvent → ContainerID
  | .removed id => id
  | .initialised id _ => id
  | .stopped id => id
  | .deleted id => id
  | .probed id _ => id
  | .published id _ => id

namespace ProbeRun

def exec (getTime : T → Int) (config : ProbeConfig) (s : ProbeRun) : ProbeAct T O → ProbeRun
  | .doProbe obs =>
    match s.doProbe getTime config obs with
    | (s, .goOn) => s
    | (s, _) => s.finish
  | .stop => s.finish
  | .elsewhere results => { s with results }

/-- The other workers have other containers. -/
def Allowed (s : ProbeRun) : ProbeAct T O → Prop
  | .doProbe _ => s.finished = false
  | .stop => s.finished = false
  | .elsewhere results => ∀ event ∈ s.log, results.get event.id = s.results.get event.id

end ProbeRun

def probeSystem (getTime : T → Int) (config : ProbeConfig) : System ProbeRun (ProbeAct T O) where
  init s := ∃ results, s = { results }
  step s act s' := s' = s.exec getTime config act ∧ s.Allowed act

/-! ## What the log tells -/

/-- The instance that is probed. -/
def current : List ProbeEvent → Option ContainerID :=
  List.foldl (fun id event =>
    match event with
    | .initialised id _ => some id
    | _ => id) none

/-- The outcomes of the instance, the newest first. -/
def outcomes : List ProbeEvent → List ProberResult :=
  List.foldl (fun outcomes event =>
    match event with
    | .initialised _ _ => []
    | .probed _ result => result :: outcomes
    | _ => outcomes) []

/-- How many of the last outcomes of the instance are the result. -/
def streak (result : ProberResult) (log : List ProbeEvent) : Nat :=
  ((outcomes log).takeWhile fun outcome => outcome = result).length

/-- The instance had a liveness failure or a startup result. -/
def held (config : ProbeConfig) : List ProbeEvent → Bool :=
  List.foldl (fun held event =>
    match event with
    | .initialised _ _ => false
    | .published _ result => held || config.holds result
    | _ => held) false

/-- What the log leaves of a key of the results. -/
def resultOf (key : JsString) : List ProbeEvent → Option ProberResult :=
  List.foldl (fun result event =>
    if event.id.toString = key then
      match event with
      | .removed _ => none
      | .initialised _ result => some result
      | .stopped _ => some .failure
      | .deleted _ => some .success
      | .probed _ _ => result
      | .published _ result => some result
    else result) none

/-- What is to be so of an event after the events before it. -/
def Proper (config : ProbeConfig) (before : List ProbeEvent) : ProbeEvent → Prop
  | .removed id => current before = some id
  | .initialised id result => result = config.initialValue ∧ current before ≠ some id ∧
    ∀ old, current before = some old → before.getLast? = some (.removed old)
  | .stopped id => current before = some id
  | .deleted id => current before = some id
  | .probed id _ => current before = some id ∧ held config before = false
  | .published id result => before.getLast? = some (.probed id result) ∧
    ∀ threshold, config.threshold result = some threshold → threshold ≤ streak result before

/-- The ids that are observed are as `toString` writes them, and the first
outcome of an instance does not go on with a run that another one left, unless
one outcome is enough. -/
structure Fresh (config : ProbeConfig) (s : ProbeRun) (obs : Observation T O) : Prop where
  canonical : ∀ c containerID, obs.container config = some (c, containerID) →
    (parseContainerID (some containerID)).toString = containerID
  run : ∀ result, obs.outcome = some result → s.lastResult = some result → s.resultRun ≠ 0 →
    (s.containerId.map ContainerID.toString = (obs.container config).map Prod.snd ∧ outcomes s.log ≠ []) ∨
      ∀ threshold, config.threshold result = some threshold → threshold ≤ 1

def FreshAct (config : ProbeConfig) (s : ProbeRun) : ProbeAct T O → Prop
  | .doProbe obs => Fresh config s obs
  | _ => True

end Webernetes.Kubelet.Prober
