/-
Webernetes.Cri.Runtime — the container runtime of `cri/runtime.ts`:
sandboxes, containers, their processes and the listeners of those, and
the calls of the runtime service.

Sandboxes, containers and processes are numbers, their places in lists
that only grow; the tables hold the ones the runtime knows. Image code is
arbitrary: it settles with any code, calls `exit`, listens, closes what it
listens on, executes more processes and handles signals, or does none of
it, before and after its process exits. An `await` ends a step: a call of
`kill` stands at the signal handler, a call of `stop` at one of its
phases, a call of the service between two containers; the callback by
which a container hears of its main process's exit is a step of its own
(`note`).

The log, which no function of the source reads, holds the starts and the
exits of processes and the ends of stops.
-/
import Webernetes.Base.Transition
import Webernetes.Cni.Sandboxes

namespace Webernetes.Cri

open Js Base Cni

/-! ## Instances -/

inductive Signal where
  | SIGTERM
  | SIGKILL
  deriving DecidableEq

def Signal.exitCode : Signal → Int
  | .SIGKILL => 137
  | .SIGTERM => 143

inductive ProcessState where
  | Created
  | Running
  | Exited
  deriving DecidableEq

inductive ContainerState where
  | Created
  | Running
  | Exited
  deriving DecidableEq

inductive PodSandboxState where
  | Ready
  | NotReady
  deriving DecidableEq

inductive ListenerKind where
  | http
  | dns
  deriving DecidableEq

/-- `ProcessInstance`. Its code has `settled` once the promise of `run`
is, and its exit is `noted` once the callbacks of `wait()` ran. -/
structure ProcessInstance where
  container : Nat
  signalHandler : Bool
  processState : ProcessState
  startedAt : Nat
  finishedAtMs : Option Nat := none
  processExitCode : Option Int := none
  killedExitCode : Option Int := none
  canceled : Bool := false
  listeners : List (ListenerKind × Listener) := []
  settled : Bool := false
  noted : Bool := false
  deriving DecidableEq

structure ContainerInstance where
  sandbox : Nat
  signalHandler : Bool
  stopSignal : Option Signal
  state : ContainerState := .Created
  mainProcess : Option Nat := none
  startedAtMs : Option Nat := none
  finishedAtMs : Option Nat := none
  lastExitCode : Option Int := none
  deriving DecidableEq

structure PodSandboxInstance where
  registration : Option NetworkRegistration := none
  state : PodSandboxState := .NotReady
  containers : List Nat := []
  deriving DecidableEq

/-! ## Calls -/

inductive KillStatus where
  | atHandler
  | returned
  | threw
  deriving DecidableEq

/-- A call of `kill`. -/
structure Kill where
  process : Nat
  signal : Signal
  status : KillStatus
  deriving DecidableEq

/-- Where a call of `stop` stands. `killing` awaits a kill and goes on to
the grace period it is given, or to the exit. -/
inductive StopPhase where
  | latency (timeoutMs latencyMs : Nat)
  | killing (kill : Nat) (graceMs : Option Nat)
  | grace
  | exiting
  | done
  | threw
  deriving DecidableEq

/-- A call of `stop`, with the main process it found. -/
structure Stop where
  container : Nat
  process : Option Nat
  phase : StopPhase
  deriving DecidableEq

/-- How a removal of a sandbox goes on. -/
inductive Removal where
  | stopping
  | stopped
  | removing (rest : List Nat)
  deriving DecidableEq

inductive Job where
  | stopContainer (container : Nat)
  | removeContainer (container : Nat)
  | stopPodSandbox (sandbox : Nat)
  | removePodSandbox (sandbox : Nat) (removal : Removal)
  deriving DecidableEq

/-- A call of the service, the stop it awaits, and whether it succeeded
once it has returned. -/
structure Call where
  job : Job
  stop : Option Stop
  succeeded : Option Bool := none
  deriving DecidableEq

inductive Event where
  | started (container process : Nat)
  /-- `byKill` where it was `SIGKILL` that ended the process. -/
  | finished (process : Nat) (code : Int) (finishedAtMs : Nat) (byKill : Bool)
  /-- With the main process that the stop found. -/
  | stopped (container : Nat) (process : Option Nat)
  deriving DecidableEq

/-- `InProcessRuntimeService`, with the network, the instances that were
made and the calls. -/
structure RuntimeService where
  idPrefix : JsString
  nowMs : Nat
  network : ClusterNetwork
  sandboxes : List PodSandboxInstance
  containers : List ContainerInstance
  processes : List ProcessInstance
  sandboxTable : List Nat
  containerTable : List Nat
  kills : List Kill
  calls : List Call
  log : List Event

namespace RuntimeService

def initial (idPrefix : JsString) (network : ClusterNetwork) : RuntimeService where
  idPrefix := idPrefix
  nowMs := 0
  network := network
  sandboxes := []
  containers := []
  processes := []
  sandboxTable := []
  containerTable := []
  kills := []
  calls := []
  log := []

def setProcess (m : RuntimeService) (p : Nat) (process : ProcessInstance) : RuntimeService :=
  { m with processes := m.processes.set p process }

def setContainer (m : RuntimeService) (c : Nat) (container : ContainerInstance) : RuntimeService :=
  { m with containers := m.containers.set c container }

def setSandbox (m : RuntimeService) (s : Nat) (sandbox : PodSandboxInstance) : RuntimeService :=
  { m with sandboxes := m.sandboxes.set s sandbox }

/-! ## Processes -/

def closeListener (network : ClusterNetwork) : ListenerKind × Listener → ClusterNetwork
  | (.http, listener) => network.closeHttp listener
  | (.dns, listener) => network.closeDns listener

/-- `ProcessInstance.finish`. -/
def finish (m : RuntimeService) (p : Nat) (code : Int) (byKill : Bool) : RuntimeService :=
  match m.processes[p]? with
  | none => m
  | some process =>
    if process.processState = .Exited then m
    else
      let m := m.setProcess p { process with
        processState := .Exited
        finishedAtMs := some m.nowMs
        processExitCode := some code
        canceled := true
        listeners := [] }
      { m with
        network := process.listeners.foldl closeListener m.network
        log := m.log ++ [.finished p code m.nowMs byKill] }

/-- The end of `kill`: the context is canceled, and `SIGKILL` ends the
process. -/
def force (m : RuntimeService) (p : Nat) (signal : Signal) : RuntimeService :=
  match m.processes[p]? with
  | none => m
  | some process =>
    let m := m.setProcess p { process with canceled := true }
    if signal = .SIGKILL then m.finish p signal.exitCode true else m

/-- A call of `kill`, up to the signal handler if there is one. -/
def kill (m : RuntimeService) (p : Nat) (signal : Signal) : RuntimeService :=
  match m.processes[p]? with
  | none => m
  | some process =>
    if process.processState = .Exited then { m with kills := m.kills ++ [⟨p, signal, .returned⟩] }
    else
      let m := m.setProcess p { process with killedExitCode := some signal.exitCode }
      if process.signalHandler && decide (process.processState ≠ .Created) then
        { m with kills := m.kills ++ [⟨p, signal, .atHandler⟩] }
      else
        let m := m.force p signal
        { m with kills := m.kills ++ [⟨p, signal, .returned⟩] }

/-- The signal handler returns, or it throws. -/
def handled (m : RuntimeService) (k : Nat) (threw : Bool) : RuntimeService :=
  match m.kills[k]? with
  | some ⟨p, signal, .atHandler⟩ =>
    if threw then { m with kills := m.kills.set k ⟨p, signal, .threw⟩ }
    else if signal = .SIGTERM then { m with kills := m.kills.set k ⟨p, signal, .returned⟩ }
    else
      let m := m.force p signal
      { m with kills := m.kills.set k ⟨p, signal, .returned⟩ }
  | _ => m

/-- The promise of `run` is settled, with the code it gives or the one of
what it throws. -/
def settle (m : RuntimeService) (p : Nat) (code : Int) : RuntimeService :=
  match m.processes[p]? with
  | none => m
  | some process =>
    if process.settled then m
    else (m.setProcess p { process with settled := true }).finish p code false

/-- `ProcessContext.exit`. -/
def exit (m : RuntimeService) (p : Nat) (code : Int) : RuntimeService := m.finish p code false

/-- `listenHttp` and `listenDns` of a process. -/
def listen (m : RuntimeService) (p : Nat) (kind : ListenerKind) (port : Nat) (handler : Handler) :
    RuntimeService :=
  match m.processes[p]? with
  | none => m
  | some process =>
    let sandbox := (m.containers[process.container]?).bind fun container =>
      m.sandboxes[container.sandbox]?
    match sandbox.bind (·.registration) with
    | none => m
    | some registration =>
      let bound := match kind with
        | .http => m.network.bindHttp registration.podSandboxId registration.ip port handler
        | .dns => m.network.bindDns registration.podSandboxId registration.ip port handler
      match bound with
      | .error _ => m
      | .ok (network, listener) =>
        { m.setProcess p { process with listeners := process.listeners ++ [(kind, listener)] } with
          network }

/-! ## Containers -/

def newProcess (m : RuntimeService) (c : Nat) (signalHandler settled : Bool) : ProcessInstance where
  container := c
  signalHandler := signalHandler
  processState := .Running
  startedAt := m.nowMs
  settled := settled

/-- `ContainerInstance.start`. Where `run` throws instead of giving a
promise the process is left running. -/
def start (m : RuntimeService) (c : Nat) (threw : Bool) : RuntimeService :=
  match m.containers[c]? with
  | none => m
  | some container =>
    if container.state = .Running then m
    else
      let p := m.processes.length
      let m := m.setContainer c { container with
        state := .Running
        startedAtMs := some m.nowMs
        finishedAtMs := none
        lastExitCode := none
        mainProcess := some p }
      { m with
        processes := m.processes ++ [m.newProcess c container.signalHandler threw]
        log := m.log ++ [.started c p] }

/-- `ContainerInstance.exec`. -/
def exec (m : RuntimeService) (c : Nat) (threw : Bool) : RuntimeService :=
  match m.containers[c]? with
  | none => m
  | some _ => { m with processes := m.processes ++ [m.newProcess c false threw] }

/-- The callback of `wait()` on the main process. -/
def note (m : RuntimeService) (p : Nat) : RuntimeService :=
  match m.processes[p]? with
  | none => m
  | some process =>
    if process.processState ≠ .Exited ∨ process.noted = true then m
    else
      let m := m.setProcess p { process with noted := true }
      match m.containers[process.container]? with
      | none => m
      | some container =>
        if container.mainProcess ≠ some p then m
        else m.setContainer process.container { container with
          state := .Exited
          finishedAtMs := process.finishedAtMs
          lastExitCode := process.processExitCode }

/-- The end of `stop`. -/
def stopEnd (m : RuntimeService) (c : Nat) (process : Option Nat) : RuntimeService :=
  match m.containers[c]? with
  | none => m
  | some container =>
    let m := m.setContainer c { container with state := .Exited, finishedAtMs := some m.nowMs }
    { m with log := m.log ++ [.stopped c process] }

def isExited (m : RuntimeService) (p : Nat) : Bool :=
  match m.processes[p]? with
  | none => true
  | some process => decide (process.processState = .Exited)

/-- `stop` after its latency. -/
def stopKill (m : RuntimeService) (c p : Nat) (stopSignal : Option Signal)
    (timeoutMs latencyMs : Nat) : RuntimeService × Stop :=
  let signal := if timeoutMs ≤ latencyMs then .SIGKILL else stopSignal.getD .SIGTERM
  (m.kill p signal, ⟨c, some p, .killing m.kills.length (some (timeoutMs - latencyMs))⟩)

/-- A call of `stop` up to its first `await`, or to its end where no main
process runs. -/
def beginStop (m : RuntimeService) (c timeoutMs latencyMs : Nat) : RuntimeService × Stop :=
  match m.containers[c]? with
  | none => (m, ⟨c, none, .done⟩)
  | some container =>
    match container.mainProcess with
    | none => (m.stopEnd c none, ⟨c, none, .done⟩)
    | some p =>
      if m.isExited p then (m.stopEnd c (some p), ⟨c, some p, .done⟩)
      else if timeoutMs = 0 then
        (m.kill p .SIGKILL, ⟨c, some p, .killing m.kills.length none⟩)
      else
        let latencyMs := min latencyMs timeoutMs
        if 0 < latencyMs then (m, ⟨c, some p, .latency timeoutMs latencyMs⟩)
        else m.stopKill c p container.stopSignal timeoutMs latencyMs

/-- What a call of `stop` waits for comes. -/
inductive Outcome where
  | ready
  | timedOut
  | canceled
  deriving DecidableEq

/-- A call of `stop` goes on to its next `await`, or to its end. -/
def stopMove (m : RuntimeService) (stop : Stop) (outcome : Outcome) : RuntimeService × Stop :=
  match stop.process with
  | none => (m, stop)
  | some p =>
    match stop.phase, outcome with
    | .latency timeoutMs latencyMs, .ready =>
      m.stopKill stop.container p ((m.containers[stop.container]?).bind (·.stopSignal)) timeoutMs
        latencyMs
    | .latency _ _, .canceled => (m, { stop with phase := .threw })
    | .killing k graceMs, .ready =>
      match m.kills[k]? with
      | some ⟨_, _, .returned⟩ =>
        (m, { stop with phase := if graceMs.isSome then .grace else .exiting })
      | some ⟨_, _, .threw⟩ => (m, { stop with phase := .threw })
      | _ => (m, stop)
    | .grace, .ready => if m.isExited p then (m, { stop with phase := .exiting }) else (m, stop)
    | .grace, .timedOut => (m.kill p .SIGKILL, { stop with phase := .killing m.kills.length none })
    | .grace, .canceled => (m, { stop with phase := .threw })
    | .exiting, .ready =>
      if m.isExited p then (m.stopEnd stop.container (some p), { stop with phase := .done }) else (m, stop)
    | _, _ => (m, stop)

/-! ## The service -/

/-- The id of a sandbox on the network. -/
def sandboxId (m : RuntimeService) (s : Nat) : JsString :=
  m.idPrefix ++ js "sandbox-" ++ Js.decimal (s + 1)

def runPodSandbox (other : JsString → Option Int) (m : RuntimeService) (uid : JsString)
    (dnsConfig : Option DnsConfig) (podCIDR : JsString) : RuntimeService :=
  let s := m.sandboxes.length
  match m.network.setupPodSandbox other { id := m.sandboxId s, uid, dnsConfig } podCIDR with
  | (network, .error _) => { m with network, sandboxes := m.sandboxes ++ [{}] }
  | (network, .ok ip) =>
    { m with
      network
      sandboxes := m.sandboxes ++ [
        { registration := some { podSandboxId := m.sandboxId s, podUid := uid, ip }, state := .Ready }]
      sandboxTable := m.sandboxTable ++ [s] }

/-- `createContainer`, of an image that is there. -/
def createContainer (m : RuntimeService) (s : Nat) (signalHandler : Bool)
    (stopSignal : Option Signal) : RuntimeService :=
  match m.sandboxes[s]? with
  | none => m
  | some sandbox =>
    if s ∈ m.sandboxTable then
      let c := m.containers.length
      let m := m.setSandbox s { sandbox with containers := sandbox.containers ++ [c] }
      { m with
        containers := m.containers ++ [{ sandbox := s, signalHandler, stopSignal }]
        containerTable := m.containerTable ++ [c] }
    else m

/-- `startContainer`. -/
def startContainer (m : RuntimeService) (c : Nat) (threw : Bool) : RuntimeService :=
  if c ∈ m.containerTable then m.start c threw else m

/-- `unregisterNetwork` of a sandbox. -/
def unregisterNetwork (m : RuntimeService) (s : Nat) : RuntimeService :=
  match m.sandboxes[s]? with
  | none => m
  | some sandbox =>
    let network := match sandbox.registration with
      | none => m.network
      | some registration => m.network.unregisterPod registration.podSandboxId
    { m.setSandbox s { sandbox with registration := none, state := .NotReady } with network }

/-- What `removeContainer` does to the tables. -/
def dropContainer (m : RuntimeService) (c : Nat) : RuntimeService :=
  match m.containers[c]? with
  | none => m
  | some container =>
    let m := match m.sandboxes[container.sandbox]? with
      | none => m
      | some sandbox =>
        m.setSandbox container.sandbox
          { sandbox with containers := sandbox.containers.filter (· ≠ c) }
    { m with containerTable := m.containerTable.filter (· ≠ c) }

/-- The container a sandbox's iterator comes to after another: the map
grows at its end only, in the order of the ids. -/
def nextContainer (m : RuntimeService) (s : Nat) (after : Option Nat) : Option Nat :=
  match m.sandboxes[s]? with
  | none => none
  | some sandbox => sandbox.containers.find? fun c => after.all (· < c)

/-- A call that is done. -/
def Call.done (job : Job) (succeeded : Bool) : Call := ⟨job, none, some succeeded⟩

/-- The loop of `stopPodSandbox`, from the container after the one it
stopped last; `next` is what the call does after the loop. -/
def stopLoop (m : RuntimeService) (s : Nat) (after : Option Nat) (job : Job) (next : Call) :
    RuntimeService × Call :=
  match m.nextContainer s after with
  | some c =>
    let (m, stop) := m.beginStop c 0 0
    (m, ⟨job, some stop, none⟩)
  | none => (m.unregisterNetwork s, next)

inductive Request where
  | stopContainer (container timeoutMs latencyMs : Nat)
  | removeContainer (container : Nat)
  | stopPodSandbox (sandbox : Nat)
  | removePodSandbox (sandbox : Nat)
  deriving DecidableEq

/-- A call of the service up to its first `await`, or to its end. -/
def request (m : RuntimeService) : Request → RuntimeService × Call
  | .stopContainer c timeoutMs latencyMs =>
    if c ∈ m.containerTable then
      let (m, stop) := m.beginStop c timeoutMs latencyMs
      (m, ⟨.stopContainer c, some stop, none⟩)
    else (m, Call.done (.stopContainer c) false)
  | .removeContainer c =>
    if c ∈ m.containerTable then
      let (m, stop) := m.beginStop c 0 0
      (m, ⟨.removeContainer c, some stop, none⟩)
    else (m, Call.done (.removeContainer c) true)
  | .stopPodSandbox s =>
    if s ∈ m.sandboxTable then
      m.stopLoop s none (.stopPodSandbox s) (Call.done (.stopPodSandbox s) true)
    else (m, Call.done (.stopPodSandbox s) true)
  | .removePodSandbox s =>
    if s ∈ m.sandboxTable then
      m.stopLoop s none (.removePodSandbox s .stopping) ⟨.removePodSandbox s .stopped, none, none⟩
    else (m, Call.done (.removePodSandbox s .stopped) true)

/-- A call that awaits nothing, or whose stop is over, goes on. -/
def resume (m : RuntimeService) (call : Call) : RuntimeService × Call :=
  match call.stop with
  | some stop =>
    match stop.phase with
    | .threw => (m, Call.done call.job false)
    | .done =>
      match call.job with
      | .stopContainer c => (m, Call.done (.stopContainer c) true)
      | .removeContainer c => (m.dropContainer c, Call.done (.removeContainer c) true)
      | .stopPodSandbox s =>
        m.stopLoop s (some stop.container) (.stopPodSandbox s) (Call.done (.stopPodSandbox s) true)
      | .removePodSandbox s .stopping =>
        m.stopLoop s (some stop.container) (.removePodSandbox s .stopping)
          ⟨.removePodSandbox s .stopped, none, none⟩
      | .removePodSandbox s removal =>
        (m.dropContainer stop.container, ⟨.removePodSandbox s removal, none, none⟩)
    | _ => (m, call)
  | none =>
    match call.succeeded, call.job with
    | none, .removePodSandbox s .stopped =>
      let rest := ((m.sandboxes[s]?).map (·.containers)).getD []
      (m, ⟨.removePodSandbox s (.removing rest), none, none⟩)
    | none, .removePodSandbox s (.removing (c :: rest)) =>
      if c ∈ m.containerTable then
        let (m, stop) := m.beginStop c 0 0
        (m, ⟨.removePodSandbox s (.removing rest), some stop, none⟩)
      else (m, ⟨.removePodSandbox s (.removing rest), none, none⟩)
    | none, .removePodSandbox s (.removing []) =>
      ({ m with sandboxTable := m.sandboxTable.filter (· ≠ s) },
        Call.done (.removePodSandbox s (.removing [])) true)
    | _, _ => (m, call)

end RuntimeService

/-! ## Runs -/

inductive Step where
  | tick
  | runPodSandbox (uid : JsString) (dnsConfig : Option DnsConfig) (podCIDR : JsString)
  | createContainer (sandbox : Nat) (signalHandler : Bool) (stopSignal : Option Signal)
  | startContainer (container : Nat) (threw : Bool)
  | exec (container : Nat) (threw : Bool)
  | settle (process : Nat) (code : Int)
  | exit (process : Nat) (code : Int)
  | listen (process : Nat) (kind : ListenerKind) (port : Nat) (handler : Handler)
  | close (kind : ListenerKind) (listener : Listener)
  | kill (process : Nat) (signal : Signal)
  | handled (kill : Nat) (threw : Bool)
  | note (process : Nat)
  | request (request : RuntimeService.Request)
  | move (call : Nat) (outcome : RuntimeService.Outcome)
  | resume (call : Nat)
  deriving DecidableEq

namespace RuntimeService

/-- The stop a call awaits goes on. -/
def move (m : RuntimeService) (i : Nat) (outcome : Outcome) : RuntimeService :=
  match m.calls[i]? with
  | some ⟨job, some stop, succeeded⟩ =>
    let (m, stop) := m.stopMove stop outcome
    { m with calls := m.calls.set i ⟨job, some stop, succeeded⟩ }
  | _ => m

def step (other : JsString → Option Int) (m : RuntimeService) : Step → RuntimeService
  | .tick => { m with nowMs := m.nowMs + 1 }
  | .runPodSandbox uid dnsConfig podCIDR => m.runPodSandbox other uid dnsConfig podCIDR
  | .createContainer s signalHandler stopSignal => m.createContainer s signalHandler stopSignal
  | .startContainer c threw => m.startContainer c threw
  | .exec c threw => m.exec c threw
  | .settle p code => m.settle p code
  | .exit p code => m.exit p code
  | .listen p kind port handler => m.listen p kind port handler
  | .close kind listener => { m with network := closeListener m.network (kind, listener) }
  | .kill p signal => m.kill p signal
  | .handled k threw => m.handled k threw
  | .note p => m.note p
  | .request request =>
    let (m, call) := m.request request
    { m with calls := m.calls ++ [call] }
  | .move i outcome => m.move i outcome
  | .resume i =>
    match m.calls[i]? with
    | none => m
    | some call =>
      let (m, call) := m.resume call
      { m with calls := m.calls.set i call }

end RuntimeService

/-- The runs of a runtime on a network that has no pods: any calls of the
service and any image code, in any order. -/
def runtimeSystem (other : JsString → Option Int) (idPrefix : JsString) :
    System RuntimeService Step where
  init m := ∃ network, Podless network ∧ m = .initial idPrefix network
  step m act m' := m' = m.step other act

end Webernetes.Cri
