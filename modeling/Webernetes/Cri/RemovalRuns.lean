/-
Webernetes.Cri.RemovalRuns — removals over the runs of the runtime.

`CallKept` is what a call of the service knows while it waits, and
`Moves` what it does when it goes on. `Allowed` is the condition on a step
under which a removal leaves nothing behind, and `removed_of_reach` says
what holds in the runs that meet it.
-/
import Webernetes.Cri.RemovalSteps

namespace Webernetes.Cri

open Js Base Cni

def Job.sandbox : Job → Option Nat
  | .stopContainer _ => none
  | .removeContainer _ => none
  | .stopPodSandbox s => some s
  | .removePodSandbox s _ => some s

/-- The container that a call drops when it goes on, and the process that
its stop found. -/
def Call.drops : Call → Option (Nat × Option Nat)
  | ⟨.removeContainer c, some ⟨_, found, .done⟩, _⟩ => some (c, found)
  | ⟨.removePodSandbox _ .stopping, _, _⟩ => none
  | ⟨.removePodSandbox _ _, some ⟨c, found, .done⟩, _⟩ => some (c, found)
  | _ => none

namespace RuntimeService

variable {m : RuntimeService}

/-! ### Calls that wait -/

/-- What a call that goes on knows: its sandbox is there, it is off the
network once the call has stopped it, and what is in it is yet to be
removed. -/
structure CallKept (m : RuntimeService) (call : Call) : Prop where
  waits : ∀ stop, call.stop = some stop → call.succeeded = none
  known : call.succeeded = none → ∀ s, call.job.sandbox = some s → s < m.sandboxes.length
  stopped : call.succeeded = none → ∀ s, call.job = .removePodSandbox s .stopped →
    m.Unregistered s
  removing : call.succeeded = none → ∀ s rest, call.job = .removePodSandbox s (.removing rest) →
    m.Unregistered s ∧ ∀ (sandbox : PodSandboxInstance), m.sandboxes[s]? = some sandbox →
      ∀ c ∈ sandbox.containers, c ∈ rest ∨ ∃ stop, call.stop = some stop ∧ stop.container = c

/-- A call stays what it is where no container is made. -/
theorem CallKept.mono {m' : RuntimeService} {call : Call} (h : m.CallKept call)
    (hlength : m.sandboxes.length ≤ m'.sandboxes.length)
    (hunregistered : ∀ s, m.Unregistered s → m'.Unregistered s)
    (hshrinks : call.succeeded = none → ∀ s rest, call.job = .removePodSandbox s (.removing rest) →
      ∀ (sandbox' : PodSandboxInstance) (c : Nat),
        m'.sandboxes[s]? = some sandbox' → c ∈ sandbox'.containers →
          ∃ sandbox : PodSandboxInstance, m.sandboxes[s]? = some sandbox ∧ c ∈ sandbox.containers) :
    m'.CallKept call where
  waits := h.waits
  known hnone s hs := Nat.lt_of_lt_of_le (h.known hnone s hs) hlength
  stopped hnone s hs := hunregistered s (h.stopped hnone s hs)
  removing hnone s rest hs := by
    obtain ⟨hoff, hleft⟩ := h.removing hnone s rest hs
    refine ⟨hunregistered s hoff, ?_⟩
    intro sandbox' hsandbox' c hc
    obtain ⟨sandbox, hsandbox, hc⟩ := hshrinks hnone s rest hs sandbox' c hsandbox' hc
    exact hleft sandbox hsandbox c hc

theorem Shift.callKept {m' : RuntimeService} {call : Call} (h : Shift m m')
    (hcall : m.CallKept call) : m'.CallKept call :=
  hcall.mono h.stays.sandboxes h.unregistered fun _ s _ _ => h.shrinks s

theorem callKept_done (job : Job) (succeeded : Bool) : m.CallKept (Call.done job succeeded) where
  waits stop hstop := by cases hstop
  known hnone := by cases hnone
  stopped hnone := by cases hnone
  removing hnone := by cases hnone

/-- A call of the service goes on: what it does, what it is then, and what
it has done where it has succeeded. -/
structure Moves (m : RuntimeService) (next : RuntimeService × Call) : Prop where
  shift : Shift m next.1
  kept : next.1.CallKept next.2
  stopPodSandbox : ∀ s, next.2.succeeded = some true → next.2.job = .stopPodSandbox s →
    Frees m next.1 s
  removeContainer : ∀ c, next.2.succeeded = some true → next.2.job = .removeContainer c →
    c ∉ next.1.containerTable
  removePodSandbox : ∀ s removal, next.2.succeeded = some true →
    next.2.job = .removePodSandbox s removal → s ∉ next.1.sandboxTable

/-- A call that has not returned. -/
theorem moves_of_none {m' : RuntimeService} {call : Call} (h : Shift m m')
    (hkept : m'.CallKept call) (hnone : call.succeeded = none) : m.Moves (m', call) where
  shift := h
  kept := hkept
  stopPodSandbox s hsome := by
    have hsome : call.succeeded = some true := hsome
    rw [hnone] at hsome
    cases hsome
  removeContainer c hsome := by
    have hsome : call.succeeded = some true := hsome
    rw [hnone] at hsome
    cases hsome
  removePodSandbox s removal hsome := by
    have hsome : call.succeeded = some true := hsome
    rw [hnone] at hsome
    cases hsome

theorem moves_failed (job : Job) : m.Moves (m, Call.done job false) where
  shift := Shift.refl m
  kept := callKept_done job false
  stopPodSandbox s hsome := by cases hsome
  removeContainer c hsome := by cases hsome
  removePodSandbox s removal hsome := by cases hsome

theorem moves_stopContainer {m' : RuntimeService} (h : Shift m m') (c : Nat) :
    m.Moves (m', Call.done (.stopContainer c) true) where
  shift := h
  kept := callKept_done _ true
  stopPodSandbox s _ hjob := by cases hjob
  removeContainer d _ hjob := by cases hjob
  removePodSandbox s removal _ hjob := by cases hjob

theorem moves_removeContainer {m' : RuntimeService} (h : Shift m m') {c : Nat}
    (hc : c ∉ m'.containerTable) : m.Moves (m', Call.done (.removeContainer c) true) where
  shift := h
  kept := callKept_done _ true
  stopPodSandbox s _ hjob := by cases hjob
  removeContainer d _ hjob := by
    cases hjob
    exact hc
  removePodSandbox s removal _ hjob := by cases hjob

theorem moves_stopPodSandbox {m' : RuntimeService} (h : Shift m m') {s : Nat}
    (hfrees : Frees m m' s) : m.Moves (m', Call.done (.stopPodSandbox s) true) where
  shift := h
  kept := callKept_done _ true
  stopPodSandbox t _ hjob := by
    cases hjob
    exact hfrees
  removeContainer d _ hjob := by cases hjob
  removePodSandbox s removal _ hjob := by cases hjob

theorem moves_removePodSandbox {m' : RuntimeService} (h : Shift m m') {s : Nat}
    (hs : s ∉ m'.sandboxTable) (removal : Removal) :
    m.Moves (m', Call.done (.removePodSandbox s removal) true) where
  shift := h
  kept := callKept_done _ true
  stopPodSandbox t _ hjob := by cases hjob
  removeContainer d _ hjob := by cases hjob
  removePodSandbox t removal' _ hjob := by
    cases hjob
    exact hs

/-- A call that stops a sandbox has nothing to know but the sandbox. -/
theorem callKept_of_stopping {job : Job} {s : Nat}
    (hjob : job = .stopPodSandbox s ∨ job = .removePodSandbox s .stopping)
    (hs : s < m.sandboxes.length) (stop : Option Stop) : m.CallKept ⟨job, stop, none⟩ where
  waits _ _ := rfl
  known _ t ht := by
    rcases hjob with rfl | rfl
    · cases ht
      exact hs
    · cases ht
      exact hs
  stopped _ t ht := by
    rcases hjob with rfl | rfl
    · cases ht
    · cases ht
  removing _ t rest ht := by
    rcases hjob with rfl | rfl
    · cases ht
    · cases ht

theorem lt_of_unregistered {s : Nat} (h : m.Unregistered s) : s < m.sandboxes.length := by
  obtain ⟨sandbox, hget, -⟩ := h
  exact (List.getElem?_eq_some_iff.mp hget).1

theorem callKept_stopped {s : Nat} (hs : m.Unregistered s) :
    m.CallKept ⟨.removePodSandbox s .stopped, none, none⟩ where
  waits _ _ := rfl
  known _ t ht := by
    cases ht
    exact lt_of_unregistered hs
  stopped _ t ht := by
    cases ht
    exact hs
  removing _ t rest ht := by cases ht

theorem callKept_removing {s : Nat} {rest : List Nat} {stop : Option Stop} (hs : m.Unregistered s)
    (hrest : ∀ (sandbox : PodSandboxInstance), m.sandboxes[s]? = some sandbox →
      ∀ c ∈ sandbox.containers, c ∈ rest ∨ ∃ stop', stop = some stop' ∧ stop'.container = c) :
    m.CallKept ⟨.removePodSandbox s (.removing rest), stop, none⟩ where
  waits _ _ := rfl
  known _ t ht := by
    cases ht
    exact lt_of_unregistered hs
  stopped _ t ht := by cases ht
  removing _ t rest' ht := by
    cases ht
    exact ⟨hs, hrest⟩

theorem callKept_stopContainer (c : Nat) (stop : Option Stop) :
    m.CallKept ⟨.stopContainer c, stop, none⟩ where
  waits _ _ := rfl
  known _ t ht := by cases ht
  stopped _ t ht := by cases ht
  removing _ t rest ht := by cases ht

theorem callKept_removeContainer (c : Nat) (stop : Option Stop) :
    m.CallKept ⟨.removeContainer c, stop, none⟩ where
  waits _ _ := rfl
  known _ t ht := by cases ht
  stopped _ t ht := by cases ht
  removing _ t rest ht := by cases ht

theorem beginStop_shift (m : RuntimeService) (c timeoutMs latencyMs : Nat) :
    Shift m (m.beginStop c timeoutMs latencyMs).1 :=
  (m.beginStop_leaves c timeoutMs latencyMs).1.shift

theorem stopLoop_moves {s : Nat} (hs : s < m.sandboxes.length) (after : Option Nat) {job : Job}
    (hjob : job = .stopPodSandbox s ∨ job = .removePodSandbox s .stopping) {next : Call}
    (hnext : m.Moves (m.unregisterNetwork s, next)) : m.Moves (m.stopLoop s after job next) := by
  unfold stopLoop
  split
  · rename_i c _
    have hshift := m.beginStop_shift c 0 0
    refine moves_of_none hshift ?_ rfl
    exact callKept_of_stopping hjob (Nat.lt_of_lt_of_le hs hshift.stays.sandboxes) _
  · exact hnext

/-- The end of the loop of `stopPodSandbox`. -/
theorem moves_stopped (h : m.Clean) {s : Nat} (hs : s < m.sandboxes.length) :
    m.Moves (m.unregisterNetwork s, Call.done (.stopPodSandbox s) true) :=
  moves_stopPodSandbox (m.unregisterNetwork_shift s) (unregisterNetwork_frees h hs)

/-- The same, in `removePodSandbox`. -/
theorem moves_stopping {s : Nat} (hs : s < m.sandboxes.length) :
    m.Moves (m.unregisterNetwork s, ⟨.removePodSandbox s .stopped, none, none⟩) :=
  moves_of_none (m.unregisterNetwork_shift s)
    (callKept_stopped (unregisterNetwork_unregistered hs)) rfl

theorem request_moves (h : m.Clean) (request : Request) : m.Moves (m.request request) := by
  cases request with
  | stopContainer c timeoutMs latencyMs =>
    unfold RuntimeService.request
    dsimp only
    split
    · exact moves_of_none (m.beginStop_shift _ _ _) (callKept_stopContainer _ _) rfl
    · exact moves_failed _
  | removeContainer c =>
    unfold RuntimeService.request
    dsimp only
    split
    · exact moves_of_none (m.beginStop_shift _ _ _) (callKept_removeContainer _ _) rfl
    · rename_i hc
      exact moves_removeContainer (Shift.refl m) hc
  | stopPodSandbox s =>
    unfold RuntimeService.request
    dsimp only
    split
    · rename_i hs
      have hlt := h.tables.known s hs
      exact stopLoop_moves hlt none (Or.inl rfl) (moves_stopped h hlt)
    · -- a sandbox that is in no table has no address
      rename_i hs
      refine moves_stopPodSandbox (Shift.refl m) ⟨?_, ?_⟩
      · intro sandbox hsandbox
        exact (h.tables.removed s sandbox hsandbox hs).1
      · intro sandbox registration hsandbox hregistration
        rw [(h.tables.removed s sandbox hsandbox hs).1] at hregistration
        cases hregistration
  | removePodSandbox s =>
    unfold RuntimeService.request
    dsimp only
    split
    · rename_i hs
      have hlt := h.tables.known s hs
      exact stopLoop_moves hlt none (Or.inr rfl) (moves_stopping hlt)
    · rename_i hs
      exact moves_removePodSandbox (Shift.refl m) hs _

/-- A removal drops the container that it has stopped. -/
theorem moves_drop (h : m.Clean) {s : Nat} {removal : Removal} {stop : Stop}
    (hcall : m.CallKept ⟨.removePodSandbox s removal, some stop, none⟩)
    (hremoval : removal ≠ .stopping)
    (hexited : ∀ (p : Nat) (process : ProcessInstance), m.processes[p]? = some process →
      process.container = stop.container → process.processState = .Exited) :
    m.Moves (m.dropContainer stop.container, ⟨.removePodSandbox s removal, none, none⟩) := by
  have hshift := dropContainer_shift hexited
  refine moves_of_none hshift ?_ rfl
  cases removal with
  | stopping => exact absurd rfl hremoval
  | stopped => exact callKept_stopped (hshift.unregistered s (hcall.stopped rfl s rfl))
  | removing rest =>
    obtain ⟨hoff, hleft⟩ := hcall.removing rfl s rest rfl
    refine callKept_removing (hshift.unregistered s hoff) ?_
    intro sandbox' hsandbox' c hc
    obtain ⟨sandbox, hsandbox, hmem⟩ := hshift.shrinks s sandbox' c hsandbox' hc
    rcases hleft sandbox hsandbox c hmem with hrest | ⟨stop', hstop', rfl⟩
    · exact Or.inl hrest
    · cases hstop'
      exact absurd hc (not_mem_of_drop h hsandbox')

theorem resume_moves (h : m.Clean) {call : Call} (hcall : m.CallKept call)
    (hunfinished : call.succeeded = none)
    (hexited : ∀ c found, call.drops = some (c, found) → ∀ (p : Nat) (process : ProcessInstance),
      m.processes[p]? = some process → process.container = c → process.processState = .Exited) :
    m.Moves (m.resume call) := by
  obtain ⟨job, stop, succeeded⟩ := call
  cases hunfinished
  have hsame : m.Moves (m, ⟨job, stop, none⟩) := moves_of_none (Shift.refl m) hcall rfl
  cases stop with
  | some stop =>
    obtain ⟨c, found, phase⟩ := stop
    cases phase with
    | latency timeoutMs latencyMs => exact hsame
    | killing k graceMs => exact hsame
    | grace => exact hsame
    | exiting => exact hsame
    | threw => exact moves_failed job
    | done =>
      cases job with
      | stopContainer d => exact moves_stopContainer (Shift.refl m) d
      | removeContainer d =>
        exact moves_removeContainer (dropContainer_shift (hexited d found rfl))
          (not_mem_dropContainer h d)
      | stopPodSandbox s =>
        have hlt := hcall.known rfl s rfl
        exact stopLoop_moves hlt _ (Or.inl rfl) (moves_stopped h hlt)
      | removePodSandbox s removal =>
        have hlt := hcall.known rfl s rfl
        cases removal with
        | stopping => exact stopLoop_moves hlt _ (Or.inr rfl) (moves_stopping hlt)
        | stopped => exact moves_drop h hcall (by simp) (hexited c found rfl)
        | removing rest => exact moves_drop h hcall (by simp) (hexited c found rfl)
  | none =>
    cases job with
    | stopContainer d => exact hsame
    | removeContainer d => exact hsame
    | stopPodSandbox s => exact hsame
    | removePodSandbox s removal =>
      cases removal with
      | stopping => exact hsame
      | stopped =>
        -- the removal takes the containers that there are
        refine moves_of_none (Shift.refl m) ?_ rfl
        refine callKept_removing (hcall.stopped rfl s rfl) ?_
        intro sandbox hsandbox c hc
        left
        rw [hsandbox]
        exact hc
      | removing rest =>
        obtain ⟨hoff, hleft⟩ := hcall.removing rfl s rest rfl
        cases rest with
        | nil =>
          have hempty : ∀ sandbox, m.sandboxes[s]? = some sandbox → sandbox.containers = [] := by
            intro sandbox hsandbox
            rw [List.eq_nil_iff_forall_not_mem]
            intro c hc
            rcases hleft sandbox hsandbox c hc with hmem | ⟨stop, hstop, -⟩
            · cases hmem
            · cases hstop
          refine moves_removePodSandbox (forget_shift hoff hempty) ?_ _
          intro hs
          exact of_decide_eq_true (List.mem_filter.mp hs).2 rfl
        | cons c rest =>
          unfold resume
          dsimp only
          split
          · obtain ⟨hleaves, hcontainer⟩ := m.beginStop_leaves c 0 0
            have hshift := hleaves.shift
            refine moves_of_none hshift ?_ rfl
            refine callKept_removing (hshift.unregistered s hoff) ?_
            intro sandbox' hsandbox' d hd
            obtain ⟨sandbox, hsandbox, hd⟩ := hshift.shrinks s sandbox' d hsandbox' hd
            rcases hleft sandbox hsandbox d hd with hmem | ⟨stop, hstop, -⟩
            · rcases List.mem_cons.mp hmem with rfl | hmem
              · exact Or.inr ⟨_, rfl, hcontainer⟩
              · exact Or.inl hmem
            · cases hstop
          · -- a container that is in no table is in no sandbox
            rename_i hc
            refine moves_of_none (Shift.refl m) ?_ rfl
            refine callKept_removing hoff ?_
            intro sandbox hsandbox d hd
            rcases hleft sandbox hsandbox d hd with hmem | ⟨stop, hstop, -⟩
            · rcases List.mem_cons.mp hmem with rfl | hmem
              · exact absurd (h.tables.placed s sandbox hsandbox d hd).1 hc
              · exact Or.inl hmem
            · cases hstop

/-- A call that has returned. -/
theorem resume_returned {call : Call} (hcall : m.CallKept call) (hreturned : call.succeeded ≠ none) :
    m.resume call = (m, call) := by
  obtain ⟨job, stop, succeeded⟩ := call
  cases stop with
  | some stop => exact absurd (hcall.waits stop rfl) hreturned
  | none =>
    cases succeeded with
    | none => exact absurd rfl hreturned
    | some b => rfl

/-! ### Sandboxes and containers -/

theorem allocatePodIp_same (other : JsString → Option Int) (network : ClusterNetwork)
    (podCIDR : JsString) :
    (network.allocatePodIp other podCIDR).1.podsBySandboxId = network.podsBySandboxId
      ∧ ∀ kind, boundOf (network.allocatePodIp other podCIDR).1 kind = boundOf network kind := by
  unfold ClusterNetwork.allocatePodIp
  split
  · exact ⟨rfl, fun kind => rfl⟩
  · dsimp only
    split
    · exact ⟨rfl, fun kind => by cases kind <;> rfl⟩
    · exact ⟨rfl, fun kind => by cases kind <;> rfl⟩

/-- What `setupPodSandbox` does to the pods; listeners stay. -/
theorem setupPodSandbox_pods (other : JsString → Option Int) (network : ClusterNetwork)
    (pod : PodSandbox) (podCIDR : JsString) :
    (∀ kind, boundOf (network.setupPodSandbox other pod podCIDR).1 kind = boundOf network kind)
      ∧ match (network.setupPodSandbox other pod podCIDR).2 with
        | .error _ => (network.setupPodSandbox other pod podCIDR).1.podsBySandboxId
            = network.podsBySandboxId
        | .ok ip => (network.setupPodSandbox other pod podCIDR).1.podsBySandboxId
            = network.podsBySandboxId.set pod.id { pod with ip } := by
  unfold ClusterNetwork.setupPodSandbox
  split
  · exact ⟨fun kind => rfl, rfl⟩
  · obtain ⟨hpods, hbound⟩ := allocatePodIp_same other network podCIDR
    split
    · rename_i network' e hallocate
      rw [hallocate] at hpods hbound
      exact ⟨hbound, hpods⟩
    · rename_i network' ip hallocate
      rw [hallocate] at hpods hbound
      refine ⟨?_, ?_⟩
      · intro kind
        rw [← hbound kind]
        cases kind <;> rfl
      · show network'.podsBySandboxId.set _ _ = _
        rw [show network'.podsBySandboxId = network.podsBySandboxId from hpods]

theorem unregistered_append {s : Nat} (hs : m.Unregistered s) (sandbox : PodSandboxInstance) :
    ∃ sandbox', (m.sandboxes ++ [sandbox])[s]? = some sandbox' ∧ sandbox'.registration = none := by
  obtain ⟨sandbox', hget, hnone⟩ := hs
  refine ⟨sandbox', ?_, hnone⟩
  rw [List.getElem?_append_left (List.getElem?_eq_some_iff.mp hget).1]
  exact hget

theorem shrinks_append {sandbox : PodSandboxInstance} (hempty : sandbox.containers = []) (s : Nat)
    (sandbox' : PodSandboxInstance) (c : Nat)
    (hs : (m.sandboxes ++ [sandbox])[s]? = some sandbox') (hc : c ∈ sandbox'.containers) :
    ∃ sandbox'' : PodSandboxInstance, m.sandboxes[s]? = some sandbox'' ∧ c ∈ sandbox''.containers := by
  rcases Tables.get_snoc hs with ⟨-, rfl⟩ | ⟨-, hs⟩
  · rw [hempty] at hc
    cases hc
  · exact ⟨sandbox', hs, hc⟩

theorem runPodSandbox_shift (other : JsString → Option Int) (m : RuntimeService) (uid : JsString)
    (dnsConfig : Option DnsConfig) (podCIDR : JsString) :
    Shift m (m.runPodSandbox other uid dnsConfig podCIDR) := by
  obtain ⟨hbound, hpods⟩ := setupPodSandbox_pods other m.network
    { id := m.sandboxId m.sandboxes.length, uid, dnsConfig } podCIDR
  have hlength : ∀ sandbox : PodSandboxInstance,
      m.sandboxes.length ≤ (m.sandboxes ++ [sandbox]).length := by
    intro sandbox
    rw [List.length_append]
    exact Nat.le_add_right _ _
  unfold runPodSandbox
  dsimp only
  split
  · rename_i network e hsetup
    rw [hsetup] at hbound hpods
    exact
      { clean := fun hm =>
          { covered := hm.covered.unbind fun kind key handler hget => by
              rw [hbound kind] at hget
              exact hget
            tables := by
              have htables := hm.tables.addNothing
              rw [← show network.podsBySandboxId = m.network.podsBySandboxId from hpods] at htables
              exact htables }
        calls := rfl
        unregistered := fun s hs => unregistered_append hs _
        shrinks := shrinks_append rfl
        stays :=
          { places := Nat.le_refl _
            sandboxes := hlength _
            containerTable := fun c _ hc => hc
            sandboxTable := fun s _ hs => hs } }
  · rename_i network ip hsetup
    rw [hsetup] at hbound hpods
    exact
      { clean := fun hm =>
          { covered := hm.covered.unbind fun kind key handler hget => by
              rw [hbound kind] at hget
              exact hget
            tables := by
              have htables := hm.tables.addSandbox
                { id := m.sandboxId m.sandboxes.length, uid, dnsConfig, ip } rfl uid
              have hpods : network.podsBySandboxId = m.network.podsBySandboxId.set _ _ := hpods
              show Tables m.idPrefix m.places _ m.containerTable _ network.podsBySandboxId
              rw [hpods]
              exact htables }
        calls := rfl
        unregistered := fun s hs => unregistered_append hs _
        shrinks := shrinks_append rfl
        stays :=
          { places := Nat.le_refl _
            sandboxes := hlength _
            containerTable := fun c _ hc => hc
            sandboxTable := fun s hs hmem => by
              rcases List.mem_append.mp hmem with hmem | hmem
              · exact hmem
              · rw [List.mem_singleton.mp hmem] at hs
                exact absurd hs (Nat.lt_irrefl _) } }

/-! ### Runs -/

structure Tended (m : RuntimeService) : Prop where
  clean : m.Clean
  calls : ∀ call ∈ m.calls, m.CallKept call

/-- A container is made while no removal of its sandbox goes through the
containers. -/
theorem createContainer_tended (h : m.Tended) {s : Nat}
    (hallowed : ∀ call ∈ m.calls, call.succeeded = none →
      ∀ rest, call.job ≠ .removePodSandbox s (.removing rest))
    (signalHandler : Bool) (stopSignal : Option Signal) :
    (m.createContainer s signalHandler stopSignal).Tended
      ∧ Stays m (m.createContainer s signalHandler stopSignal)
      ∧ (m.createContainer s signalHandler stopSignal).calls = m.calls := by
  unfold createContainer
  split
  · exact ⟨h, Stays.refl m, rfl⟩
  · rename_i sandbox hsandbox
    split
    · rename_i hs
      have hlength : m.places.length = m.containers.length := List.length_map _
      have htables := h.clean.tables.addContainer hsandbox hs
      rw [hlength] at htables
      refine ⟨⟨⟨?_, ?_⟩, ?_⟩, ⟨?_, ?_, ?_, ?_⟩, rfl⟩
      · exact h.clean.covered.retable fun p process _ hmem => Or.inl (List.mem_append_left _ hmem)
      · have hplaces : List.map ContainerInstance.sandbox (m.containers ++
            [{ sandbox := s, signalHandler, stopSignal }]) = m.places ++ [s] := List.map_append
        show Tables m.idPrefix (List.map _ (m.containers ++ [_])) _ _ _ _
        rw [hplaces]
        exact htables
      · intro call hcall
        refine (h.calls call hcall).mono ?_ ?_ ?_
        · show _ ≤ (m.sandboxes.set s _).length
          rw [List.length_set]
        · intro t ht
          exact unregistered_set hsandbox
            { sandbox with containers := sandbox.containers ++ [m.containers.length] }
            (fun hnone => hnone) ht
        · intro hnone t rest hjob sandbox' c ht hc
          rcases Tables.get_set ht with ⟨rfl, -⟩ | ⟨-, ht⟩
          · exact absurd hjob (hallowed call hcall hnone rest)
          · exact ⟨sandbox', ht, hc⟩
      · show _ ≤ (List.map _ (m.containers ++ [_])).length
        rw [hlength, List.length_map, List.length_append]
        exact Nat.le_add_right _ _
      · show _ ≤ (m.sandboxes.set s _).length
        rw [List.length_set]
      · intro c hc hmem
        rcases List.mem_append.mp hmem with hmem | hmem
        · exact hmem
        · rw [List.mem_singleton.mp hmem, hlength] at hc
          exact absurd hc (Nat.lt_irrefl _)
      · exact fun t _ ht => ht
    · exact ⟨h, Stays.refl m, rfl⟩

/-- A call of the job has succeeded in the step. -/
def Succeeds (m m' : RuntimeService) (job : Job) : Prop :=
  ∃ (i : Nat) (call : Call), m'.calls[i]? = some call ∧ m.calls[i]? ≠ some call
    ∧ call.job = job ∧ call.succeeded = some true

/-- What the calls that succeed in a step have done. -/
structure Removed (m m' : RuntimeService) : Prop where
  stays : Stays m m'
  stopPodSandbox : ∀ s, Succeeds m m' (.stopPodSandbox s) → Frees m m' s
  removeContainer : ∀ c, Succeeds m m' (.removeContainer c) → c ∉ m'.containerTable
  removePodSandbox : ∀ s removal, Succeeds m m' (.removePodSandbox s removal) →
    s ∉ m'.sandboxTable

theorem not_succeeds {m' : RuntimeService} (h : m'.calls = m.calls) (job : Job) :
    ¬ Succeeds m m' job := by
  rintro ⟨i, call, hcall, hnew, -⟩
  rw [h] at hcall
  exact hnew hcall

theorem removed_of_calls {m' : RuntimeService} (hstays : Stays m m') (h : m'.calls = m.calls) :
    Removed m m' where
  stays := hstays
  stopPodSandbox _ hs := absurd hs (not_succeeds h _)
  removeContainer _ hc := absurd hc (not_succeeds h _)
  removePodSandbox _ _ hs := absurd hs (not_succeeds h _)

theorem Shift.tended {m' : RuntimeService} (h : Shift m m') (hm : m.Tended) :
    m'.Tended ∧ Removed m m' := by
  refine ⟨⟨h.clean hm.clean, ?_⟩, removed_of_calls h.stays h.calls⟩
  intro call hcall
  rw [h.calls] at hcall
  exact h.callKept (hm.calls call hcall)

theorem CallKept.withCalls {call : Call} (h : m.CallKept call) (calls : List Call) :
    ({ m with calls := calls } : RuntimeService).CallKept call :=
  h.mono (Nat.le_refl _) (fun _ hs => hs) fun _ _ _ _ sandbox' _ hs hc => ⟨sandbox', hs, hc⟩

/-- A call goes on, and the others stay. -/
theorem Moves.tended {next : RuntimeService × Call} (h : m.Moves next) (hm : m.Tended)
    {calls : List Call} (hcalls : ∀ (i : Nat) (call : Call), calls[i]? = some call →
      m.calls[i]? = some call ∨ call = next.2) :
    ({ next.1 with calls := calls } : RuntimeService).Tended
      ∧ Removed m { next.1 with calls := calls } := by
  have hclean := h.shift.clean hm.clean
  have hnext : ∀ job, Succeeds m { next.1 with calls := calls } job →
      next.2.job = job ∧ next.2.succeeded = some true := by
    rintro job ⟨i, call, hcall, hnew, hdone⟩
    rcases hcalls i call hcall with hold | rfl
    · exact absurd hold hnew
    · exact hdone
  refine ⟨⟨⟨hclean.covered, hclean.tables⟩, ?_⟩, ⟨?_, ?_, ?_, ?_⟩⟩
  · intro call hcall
    obtain ⟨i, hi⟩ := List.mem_iff_getElem?.mp hcall
    rcases hcalls i call hi with hold | rfl
    · exact (h.shift.callKept (hm.calls call (List.mem_of_getElem? hold))).withCalls calls
    · exact h.kept.withCalls calls
  · have hstays := h.shift.stays
    exact ⟨hstays.places, hstays.sandboxes, hstays.containerTable, hstays.sandboxTable⟩
  · intro s hs
    obtain ⟨hjob, hdone⟩ := hnext _ hs
    have hfrees := h.stopPodSandbox s hdone hjob
    exact ⟨hfrees.none, hfrees.freed⟩
  · intro c hc
    obtain ⟨hjob, hdone⟩ := hnext _ hc
    exact h.removeContainer c hdone hjob
  · intro s removal hs
    obtain ⟨hjob, hdone⟩ := hnext _ hs
    exact h.removePodSandbox s removal hdone hjob

/-- The steps after which nothing is left behind: what listens runs; what
is executed is in a container of the table; no container is made in a
sandbox whose removal goes through its containers; and where a removal
drops a container, it has no running process but the one that its stop
found. -/
def Allowed (m : RuntimeService) : Step → Prop
  | .listen p _ _ _ => ∀ process, m.processes[p]? = some process → process.processState ≠ .Exited
  | .exec c _ => c ∈ m.containerTable
  | .createContainer s _ _ => ∀ call ∈ m.calls, call.succeeded = none →
      ∀ rest, call.job ≠ .removePodSandbox s (.removing rest)
  | .resume i => ∀ call c found, m.calls[i]? = some call → call.drops = some (c, found) →
      ∀ (p : Nat) (process : ProcessInstance), m.processes[p]? = some process →
        process.container = c → found ≠ some p → process.processState = .Exited
  | _ => True

/-- The process that a stop found has exited where the call drops its
container. -/
theorem ended_of_drops {call : Call} (h : m.CallKnown call) {c p : Nat}
    (hdrops : call.drops = some (c, some p)) : m.Ended p := by
  obtain ⟨job, stop, succeeded⟩ := call
  cases stop with
  | none =>
    cases job with
    | removePodSandbox s removal => cases removal <;> cases hdrops
    | stopContainer d => cases hdrops
    | removeContainer d => cases hdrops
    | stopPodSandbox s => cases hdrops
  | some stop =>
    obtain ⟨d, found, phase⟩ := stop
    have hstop := h _ rfl
    suffices hlast : phase = .done ∧ found = some p by
      exact hstop.done hlast.1 p hlast.2
    cases phase with
    | done =>
      cases job with
      | removePodSandbox s removal =>
        cases removal with
        | stopping => cases hdrops
        | stopped =>
          cases hdrops
          exact ⟨rfl, rfl⟩
        | removing rest =>
          cases hdrops
          exact ⟨rfl, rfl⟩
      | removeContainer e =>
        cases hdrops
        exact ⟨rfl, rfl⟩
      | stopContainer e => cases hdrops
      | stopPodSandbox s => cases hdrops
    | _ =>
      cases job with
      | removePodSandbox s removal => cases removal <;> cases hdrops
      | stopContainer d => cases hdrops
      | removeContainer d => cases hdrops
      | stopPodSandbox s => cases hdrops

theorem exited_of_ended {p : Nat} (h : m.Ended p) {process : ProcessInstance}
    (hp : m.processes[p]? = some process) : process.processState = .Exited := by
  obtain ⟨process', hget, hexited⟩ := h.get
  rw [hp] at hget
  cases hget
  exact hexited

theorem step_tended (other : JsString → Option Int) (hm : m.Tended) (hsound : m.Sound) {act : Step}
    (hallowed : m.Allowed act) : (m.step other act).Tended ∧ Removed m (m.step other act) := by
  cases act with
  | tick =>
    have hleaves : Leaves m (m.step other .tick) := ⟨rfl, rfl, rfl, rfl, rfl, rfl, rfl, fun h => h⟩
    exact hleaves.shift.tended hm
  | runPodSandbox uid dnsConfig podCIDR =>
    exact (m.runPodSandbox_shift other uid dnsConfig podCIDR).tended hm
  | createContainer s signalHandler stopSignal =>
    obtain ⟨htended, hstays, hcalls⟩ := createContainer_tended hm hallowed signalHandler stopSignal
    exact ⟨htended, removed_of_calls hstays hcalls⟩
  | startContainer c threw => exact (m.startContainer_leaves c threw).shift.tended hm
  | exec c threw => exact (exec_leaves hallowed threw).shift.tended hm
  | settle p code => exact (m.settle_leaves p code).shift.tended hm
  | exit p code => exact (m.finish_leaves p code false).shift.tended hm
  | listen p kind port handler =>
    exact (listen_leaves hallowed kind port handler).shift.tended hm
  | close kind listener =>
    have hleaves : Leaves m (m.step other (.close kind listener)) :=
      ⟨rfl, rfl, rfl, rfl, rfl, pods_closeListener _ _, rfl, fun h =>
        h.unbind fun _ _ _ hget => (get_closeListener hget).1⟩
    exact hleaves.shift.tended hm
  | kill p signal => exact (m.kill_leaves p signal).shift.tended hm
  | handled k threw => exact (m.handled_leaves k threw).shift.tended hm
  | note p => exact (m.note_leaves p).shift.tended hm
  | request request =>
    have hmoves := request_moves hm.clean request
    refine hmoves.tended hm ?_
    intro i call hcall
    have hcall : ((m.request request).1.calls ++ [(m.request request).2])[i]? = some call := hcall
    rw [hmoves.shift.calls, List.getElem?_append] at hcall
    split at hcall
    · exact Or.inl hcall
    · exact Or.inr (List.mem_singleton.mp (List.mem_of_getElem? hcall))
  | move i outcome =>
    show (m.move i outcome).Tended ∧ Removed m (m.move i outcome)
    unfold move
    split
    · rename_i job stop succeeded hcall
      have hkept := hm.calls _ (List.mem_of_getElem? hcall)
      cases hkept.waits stop rfl
      obtain ⟨hleaves, hcontainer⟩ := m.stopMove_leaves stop outcome
      have hshift := hleaves.shift
      have hnext := hshift.callKept hkept
      have hmoves : m.Moves ((m.stopMove stop outcome).1,
          ⟨job, some (m.stopMove stop outcome).2, none⟩) := by
        refine moves_of_none hshift ?_ rfl
        exact
          { waits := fun _ _ => rfl
            known := hnext.known
            stopped := hnext.stopped
            removing := fun hnone s rest hjob => by
              obtain ⟨hoff, hleft⟩ := hnext.removing hnone s rest hjob
              refine ⟨hoff, ?_⟩
              intro sandbox hsandbox c hc
              rcases hleft sandbox hsandbox c hc with hrest | ⟨stop', hstop', rfl⟩
              · exact Or.inl hrest
              · cases hstop'
                exact Or.inr ⟨_, rfl, hcontainer⟩ }
      refine hmoves.tended hm ?_
      intro j call hj
      have hj : ((m.stopMove stop outcome).1.calls.set i _)[j]? = some call := hj
      rw [hleaves.calls, List.getElem?_set] at hj
      split at hj
      · split at hj
        · cases hj
          exact Or.inr rfl
        · cases hj
      · exact Or.inl hj
    · exact (Shift.refl m).tended hm
  | resume i =>
    cases hcall : m.calls[i]? with
    | none =>
      rw [step_resume_none other hcall]
      exact (Shift.refl m).tended hm
    | some call =>
      rw [step_resume other hcall]
      have hmem := List.mem_of_getElem? hcall
      have hkept := hm.calls call hmem
      by_cases hreturned : call.succeeded = none
      · have hmoves := resume_moves hm.clean hkept hreturned (by
          intro c found hdrops p process hp hcontainer
          by_cases hfound : found = some p
          · subst hfound
            exact exited_of_ended (ended_of_drops (hsound.calls call hmem) hdrops) hp
          · exact hallowed call c found hcall hdrops p process hp hcontainer hfound)
        refine hmoves.tended hm ?_
        intro j call' hj
        rw [hmoves.shift.calls, List.getElem?_set] at hj
        split at hj
        · split at hj
          · cases hj
            exact Or.inr rfl
          · cases hj
        · exact Or.inl hj
      · rw [resume_returned hkept hreturned]
        have hsame : m.calls.set i call = m.calls := by
          apply List.ext_getElem?
          intro j
          rw [List.getElem?_set]
          split
          · rename_i hij
            subst hij
            rw [if_pos (List.getElem?_eq_some_iff.mp hcall).1, hcall]
          · rfl
        dsimp only
        rw [hsame]
        exact (Shift.refl m).tended hm

/-- What is not in the tables is gone. -/
structure Cleaned (m : RuntimeService) : Prop where
  exited : ∀ (p : Nat) (process : ProcessInstance), m.processes[p]? = some process →
    process.processState = .Exited → process.listeners = []
  /-- What is bound, a process holds that runs in a container of the table. -/
  bound : ∀ kind key handler, (boundOf m.network kind).get key = some handler →
    ∃ (p : Nat) (process : ProcessInstance), m.processes[p]? = some process
      ∧ process.Holds kind key handler ∧ process.container ∈ m.containerTable
  containers : ∀ c, c ∉ m.containerTable → ∀ (p : Nat) (process : ProcessInstance),
    m.processes[p]? = some process → process.container = c → process.processState = .Exited
  sandboxes : ∀ s, s ∉ m.sandboxTable → ∀ (c : Nat) (container : ContainerInstance),
    m.containers[c]? = some container → container.sandbox = s → c ∉ m.containerTable
  addresses : ∀ s, s ∉ m.sandboxTable → ∀ (sandbox : PodSandboxInstance),
    m.sandboxes[s]? = some sandbox → sandbox.registration = none

theorem Clean.cleaned (h : m.Clean) : m.Cleaned where
  exited := h.covered.exited
  bound kind key handler hget := by
    obtain ⟨p, process, hp, hholds⟩ := h.covered.bound kind key handler hget
    exact ⟨p, process, hp, hholds, (h.covered.container p process hp).resolve_right hholds.runs⟩
  containers c hc p process hp hcontainer := by
    rcases h.covered.container p process hp with hmem | hexited
    · rw [hcontainer] at hmem
      exact absurd hmem hc
    · exact hexited
  sandboxes s hs c container hcontainer hsandbox hc := by
    obtain ⟨t, sandbox, hplace, ht, hmem⟩ := h.tables.listed c hc
    rw [places_of_get hcontainer, hsandbox] at hplace
    cases hplace
    rw [(h.tables.removed s sandbox ht hs).2] at hmem
    cases hmem
  addresses s hs sandbox hsandbox := (h.tables.removed s sandbox hsandbox hs).1

theorem initial_tended (idPrefix : JsString) {network : ClusterNetwork} (h : Podless network) :
    (RuntimeService.initial idPrefix network).Tended where
  clean :=
    { covered :=
        { exited := fun p process hp => by cases hp
          bound := fun kind key handler hget => by
            have hnone : (boundOf network kind).get key = none := by
              cases kind with
              | http =>
                show network.httpListeners.get key = none
                rw [h.http, JsMap.get_empty]
              | dns =>
                show network.dnsListeners.get key = none
                rw [h.dns, JsMap.get_empty]
            have hget : (boundOf network kind).get key = some handler := hget
            rw [hnone] at hget
            cases hget
          container := fun p process hp => by cases hp }
      tables :=
        { listed := fun c hc => by cases hc
          placed := fun s sandbox hs => by cases hs
          removed := fun s sandbox hs => by cases hs
          registered := fun s sandbox registration hs => by cases hs
          known := fun s hs => by cases hs } }
  calls _ hcall := by cases hcall

/-- In every run whose steps are allowed nothing is left of what was
removed, and the calls that succeed have removed what they are for. -/
theorem removed_of_reach {other : JsString → Option Int} {idPrefix : JsString}
    (h : ((runtimeSystem other idPrefix).guarded RuntimeService.Allowed).Reach m) :
    m.Cleaned ∧ ∀ act, m.Allowed act → Removed m (m.step other act) := by
  have htended : m.Tended := by
    refine h.invariant ?_ ?_
    · rintro _ ⟨network, hpodless, rfl⟩
      exact initial_tended idPrefix hpodless
    · rintro m act _ hreach hm ⟨rfl, hallowed⟩
      exact (step_tended other hm (sound_of_reach hreach.of_guarded) hallowed).1
  refine ⟨htended.clean.cleaned, ?_⟩
  intro act hallowed
  exact (step_tended other htended (sound_of_reach h.of_guarded) hallowed).2

end RuntimeService

/-! ## What removals leave behind -/

/-- A container is removed whose process is all it has. -/
def removeSteps : List Step :=
  startSteps false ++ [Step.request (.removeContainer 0), .move 0 .ready, .move 0 .ready]

theorem reach_allowed {m : RuntimeService}
    (h : ((runtimeSystem (fun _ => none) []).guarded RuntimeService.Allowed).Reach m) (act : Step)
    (hallowed : m.Allowed act) :
    ((runtimeSystem (fun _ => none) []).guarded RuntimeService.Allowed).Reach
      (m.step (fun _ => none) act) :=
  h.step ⟨rfl, hallowed⟩

theorem allowed_removeSteps :
    ((runtimeSystem (fun _ => none) []).guarded RuntimeService.Allowed).Reach
      (runSteps removeSteps) := by
  have hstart : ((runtimeSystem (fun _ => none) []).guarded RuntimeService.Allowed).Reach
      (.initial [] {}) := .start ⟨{}, ⟨rfl, rfl, rfl, rfl, rfl⟩, rfl⟩
  have hsandbox := reach_allowed hstart (.runPodSandbox (js "uid") none (js "10.0.0.0/24")) trivial
  have hcreated := reach_allowed hsandbox (.createContainer 0 false none)
    fun call hcall => absurd hcall List.not_mem_nil
  have hstarted := reach_allowed hcreated (.startContainer 0 false) trivial
  have hrequested := reach_allowed hstarted (.request (.removeContainer 0)) trivial
  have hkilled := reach_allowed hrequested (.move 0 .ready) trivial
  exact reach_allowed hkilled (.move 0 .ready) trivial

theorem removed_process : (runSteps removeSteps).Cleaned
    ∧ RuntimeService.Removed (runSteps removeSteps)
        ((runSteps removeSteps).step (fun _ => none) (.resume 0)) := by
  obtain ⟨hcleaned, hremoved⟩ := RuntimeService.removed_of_reach allowed_removeSteps
  refine ⟨hcleaned, hremoved (.resume 0) ?_⟩
  intro call c found hcall hdrops p process hp _ hfound
  have hstopped : (runSteps removeSteps).calls[0]?
      = some ⟨.removeContainer 0, some ⟨0, some 0, .done⟩, none⟩ := by decide +kernel
  rw [hstopped] at hcall
  cases hcall
  cases hdrops
  have hlength : (runSteps removeSteps).processes.length = 1 := by decide +kernel
  have hlt := (List.getElem?_eq_some_iff.mp hp).1
  rw [hlength] at hlt
  obtain rfl : p = 0 := by omega
  exact absurd rfl hfound

/-- A process is executed in a container, and the container is removed. -/
def execSteps : List Step :=
  startSteps false ++ [Step.exec 0 false, .request (.removeContainer 0), .note 0, .move 0 .ready,
    .move 0 .ready, .resume 0]

/-- The code of a process goes on after its exit. -/
def lateSteps : List Step := startSteps false ++ [Step.exit 0 0, .listen 0 .http 80 7]

/-- A container is made while its sandbox is removed. -/
def createSteps : List Step :=
  startSteps false ++ [Step.request (.removePodSandbox 0), .move 0 .ready, .move 0 .ready, .resume 0,
    .resume 0, .createContainer 0 false none, .resume 0, .resume 0, .resume 0]

theorem left_behind :
    (∃ m, (runtimeSystem (fun _ => none) []).Reach m
      ∧ m.calls[0]? = some (RuntimeService.Call.done (.removeContainer 0) true)
      ∧ ∃ process, m.processes[1]? = some process ∧ process.container = 0
        ∧ process.processState = .Running) ∧
    (∃ m, (runtimeSystem (fun _ => none) []).Reach m
      ∧ ∃ process, m.processes[0]? = some process ∧ process.processState = .Exited
        ∧ process.listeners.length = 1) ∧
    ∃ m, (runtimeSystem (fun _ => none) []).Reach m
      ∧ m.calls[0]? = some (RuntimeService.Call.done (.removePodSandbox 0 (.removing [])) true)
      ∧ 1 ∈ m.containerTable
      ∧ ∃ container, m.containers[1]? = some container ∧ container.sandbox = 0 := by
  refine ⟨⟨_, reach_runSteps execSteps, ?_, ?_⟩, ⟨_, reach_runSteps lateSteps, ?_⟩,
    ⟨_, reach_runSteps createSteps, ?_, ?_, ?_⟩⟩
  · decide +kernel
  · exact ⟨_, rfl, rfl, rfl⟩
  · exact ⟨_, rfl, rfl, rfl⟩
  · decide +kernel
  · decide +kernel
  · exact ⟨_, rfl, rfl⟩

end Webernetes.Cri
