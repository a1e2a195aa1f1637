/-
Webernetes.Cri.RemovalSteps — what the functions of the runtime do to
what `Covered` and `Tables` are about.

`Leaves` is what the functions do that leave the tables alone, and
`Shift` what the others do that make no container; both compose.
-/
import Webernetes.Cri.Removals

namespace Webernetes.Cri

open Js Base Cni

namespace RuntimeService

variable {m : RuntimeService}

def places (m : RuntimeService) : List Nat := m.containers.map (·.sandbox)

/-! ## Functions that leave the tables -/

/-- Processes, listeners and what containers record may change. -/
structure Leaves (m m' : RuntimeService) : Prop where
  idPrefix : m'.idPrefix = m.idPrefix
  places : m'.places = m.places
  sandboxes : m'.sandboxes = m.sandboxes
  containerTable : m'.containerTable = m.containerTable
  sandboxTable : m'.sandboxTable = m.sandboxTable
  pods : m'.network.podsBySandboxId = m.network.podsBySandboxId
  calls : m'.calls = m.calls
  covered : Covered m.processes m.network m.containerTable →
    Covered m'.processes m'.network m'.containerTable

theorem Leaves.refl (m : RuntimeService) : Leaves m m :=
  ⟨rfl, rfl, rfl, rfl, rfl, rfl, rfl, fun h => h⟩

theorem Leaves.trans {m' m'' : RuntimeService} (h : Leaves m m') (h' : Leaves m' m'') :
    Leaves m m'' where
  idPrefix := h'.idPrefix.trans h.idPrefix
  places := h'.places.trans h.places
  sandboxes := h'.sandboxes.trans h.sandboxes
  containerTable := h'.containerTable.trans h.containerTable
  sandboxTable := h'.sandboxTable.trans h.sandboxTable
  pods := h'.pods.trans h.pods
  calls := h'.calls.trans h.calls
  covered hm := h'.covered (h.covered hm)

/-- A process changes, and not what it holds. -/
theorem leaves_setProcess {p : Nat} {old : ProcessInstance} (h : m.processes[p]? = some old)
    (process : ProcessInstance) (hcontainer : process.container = old.container)
    (hstate : process.processState = old.processState)
    (hlisteners : process.listeners = old.listeners) : Leaves m (m.setProcess p process) where
  idPrefix := rfl
  places := rfl
  sandboxes := rfl
  containerTable := rfl
  sandboxTable := rfl
  pods := rfl
  calls := rfl
  covered hm := by
    refine hm.set h process hcontainer (fun hexited => hstate.trans hexited) ?_ ?_
    · intro hexited
      rw [hlisteners]
      exact hm.exited p old h (hstate.symm.trans hexited)
    · intro kind key handler hkey
      by_cases hholds : old.Holds kind key handler
      · left
        exact
          { runs := by
              rw [hstate]
              exact hholds.runs
            holds := by
              rw [hlisteners]
              exact hholds.holds }
      · exact Or.inr ⟨hkey, hholds⟩

theorem pods_closeListener (network : ClusterNetwork) (entry : ListenerKind × Listener) :
    (closeListener network entry).podsBySandboxId = network.podsBySandboxId := by
  obtain ⟨kind, listener⟩ := entry
  cases kind <;> rfl

theorem pods_foldl_closeListener (entries : List (ListenerKind × Listener))
    (network : ClusterNetwork) :
    (entries.foldl closeListener network).podsBySandboxId = network.podsBySandboxId := by
  induction entries generalizing network with
  | nil => rfl
  | cons entry entries ih => exact (ih _).trans (pods_closeListener network entry)

theorem finish_leaves (m : RuntimeService) (p : Nat) (code : Int) (byKill : Bool) :
    Leaves m (m.finish p code byKill) := by
  unfold finish
  split
  · exact Leaves.refl m
  · rename_i process hprocess
    split
    · exact Leaves.refl m
    · exact
        { idPrefix := rfl
          places := rfl
          sandboxes := rfl
          containerTable := rfl
          sandboxTable := rfl
          pods := pods_foldl_closeListener _ _
          calls := rfl
          covered := fun hm => by
            refine Covered.set hm hprocess { process with
              processState := .Exited
              finishedAtMs := some m.nowMs
              processExitCode := some code
              canceled := true
              listeners := [] } rfl (fun _ => rfl) (fun _ => rfl) ?_
            intro kind key handler hkey
            obtain ⟨hkey, hclosed⟩ := get_foldl_closeListener hkey
            refine Or.inr ⟨hkey, ?_⟩
            intro hholds
            obtain ⟨listener, hmem, heq⟩ := hholds.holds
            exact hclosed listener hmem heq }

theorem force_leaves (m : RuntimeService) (p : Nat) (signal : Signal) :
    Leaves m (m.force p signal) := by
  unfold force
  split
  · exact Leaves.refl m
  · rename_i process hprocess
    have hset := leaves_setProcess hprocess { process with canceled := true } rfl rfl rfl
    dsimp only
    split
    · exact hset.trans (finish_leaves _ p _ true)
    · exact hset

/-- The record of the kills changes. -/
theorem Leaves.setKills {m' : RuntimeService} (h : Leaves m m') (kills : List Kill) :
    Leaves m { m' with kills := kills } :=
  h.trans ⟨rfl, rfl, rfl, rfl, rfl, rfl, rfl, fun hm => hm⟩

theorem kill_leaves (m : RuntimeService) (p : Nat) (signal : Signal) : Leaves m (m.kill p signal) := by
  unfold kill
  split
  · exact Leaves.refl m
  · rename_i process hprocess
    split
    · exact (Leaves.refl m).setKills _
    · have hset := leaves_setProcess hprocess
        { process with killedExitCode := some signal.exitCode } rfl rfl rfl
      dsimp only
      split
      · exact hset.setKills _
      · exact (hset.trans (force_leaves _ p signal)).setKills _

theorem handled_leaves (m : RuntimeService) (k : Nat) (threw : Bool) :
    Leaves m (m.handled k threw) := by
  unfold handled
  split
  · rename_i p signal hk
    split
    · exact (Leaves.refl m).setKills _
    · split
      · exact (Leaves.refl m).setKills _
      · exact (m.force_leaves p signal).setKills _
  · exact Leaves.refl m

theorem settle_leaves (m : RuntimeService) (p : Nat) (code : Int) : Leaves m (m.settle p code) := by
  unfold settle
  split
  · exact Leaves.refl m
  · rename_i process hprocess
    split
    · exact Leaves.refl m
    · exact (leaves_setProcess hprocess { process with settled := true } rfl rfl rfl).trans
        (finish_leaves _ p code false)

/-- A process that runs listens. -/
theorem listen_leaves {p : Nat}
    (hruns : ∀ process, m.processes[p]? = some process → process.processState ≠ .Exited)
    (kind : ListenerKind) (port : Nat) (handler : Handler) :
    Leaves m (m.listen p kind port handler) := by
  unfold listen
  split
  · exact Leaves.refl m
  · rename_i process hprocess
    have hrunning := hruns process hprocess
    dsimp only
    split
    · exact Leaves.refl m
    · split
      · exact Leaves.refl m
      · rename_i network listener hbound
        have hbound : bindOf m.network kind _ _ port handler = .ok (network, listener) := hbound
        obtain ⟨hpods, hget⟩ := get_bindOf hbound
        exact
          { idPrefix := rfl
            places := rfl
            sandboxes := rfl
            containerTable := rfl
            sandboxTable := rfl
            pods := hpods
            calls := rfl
            covered := fun hm => by
              refine Covered.set hm hprocess
                { process with listeners := process.listeners ++ [(kind, listener)] } rfl
                (fun hexited => hexited) (fun hexited => absurd hexited hrunning) ?_
              intro kind' key handler' hkey
              rcases hget kind' key handler' hkey with hold | ⟨rfl, heq⟩
              · by_cases hholds : process.Holds kind' key handler'
                · obtain ⟨held, hmem, heq⟩ := hholds.holds
                  exact Or.inl ⟨hrunning, held, List.mem_append_left _ hmem, heq⟩
                · exact Or.inr ⟨hold, hholds⟩
              · exact Or.inl ⟨hrunning, listener,
                  List.mem_append_right _ (List.mem_singleton_self _), heq⟩ }

theorem spawn_leaves {c : Nat} (hc : c ∈ m.containerTable) (signalHandler settled : Bool) :
    Leaves m { m with processes := m.processes ++ [m.newProcess c signalHandler settled] } where
  idPrefix := rfl
  places := rfl
  sandboxes := rfl
  containerTable := rfl
  sandboxTable := rfl
  pods := rfl
  calls := rfl
  covered hm := hm.spawn hc rfl

theorem exec_leaves {c : Nat} (hc : c ∈ m.containerTable) (threw : Bool) :
    Leaves m (m.exec c threw) := by
  unfold exec
  split
  · exact Leaves.refl m
  · exact spawn_leaves hc false threw

/-- A container changes in what it records, and the log may grow. -/
theorem leaves_setContainer {c : Nat} {old : ContainerInstance} (h : m.containers[c]? = some old)
    (container : ContainerInstance) (hsandbox : container.sandbox = old.sandbox)
    (log : List Event) : Leaves m { m.setContainer c container with log := log } where
  idPrefix := rfl
  places := by
    show (m.containers.set c container).map _ = m.containers.map _
    rw [List.map_set, hsandbox]
    apply List.ext_getElem?
    intro d
    by_cases hdc : c = d
    · subst hdc
      have hlt := (List.getElem?_eq_some_iff.mp h).1
      rw [List.getElem?_set_self (by rw [List.length_map]; exact hlt), List.getElem?_map, h]
      rfl
    · rw [List.getElem?_set_ne hdc]
  sandboxes := rfl
  containerTable := rfl
  sandboxTable := rfl
  pods := rfl
  calls := rfl
  covered hm := hm

theorem start_leaves {c : Nat} (hc : c ∈ m.containerTable) (threw : Bool) :
    Leaves m (m.start c threw) := by
  unfold start
  split
  · exact Leaves.refl m
  · rename_i container hcontainer
    split
    · exact Leaves.refl m
    · have hset := leaves_setContainer hcontainer { container with
        state := .Running
        startedAtMs := some m.nowMs
        finishedAtMs := none
        lastExitCode := none
        mainProcess := some m.processes.length } rfl (m.log ++ [.started c m.processes.length])
      refine hset.trans (spawn_leaves ?_ container.signalHandler threw)
      exact hc

theorem startContainer_leaves (m : RuntimeService) (c : Nat) (threw : Bool) :
    Leaves m (m.startContainer c threw) := by
  unfold startContainer
  split
  · rename_i hc
    exact start_leaves hc threw
  · exact Leaves.refl m

theorem note_leaves (m : RuntimeService) (p : Nat) : Leaves m (m.note p) := by
  unfold note
  split
  · exact Leaves.refl m
  · rename_i process hprocess
    split
    · exact Leaves.refl m
    · have hset := leaves_setProcess hprocess { process with noted := true } rfl rfl rfl
      dsimp only
      split
      · exact hset
      · rename_i container hcontainer
        split
        · exact hset
        · exact hset.trans (leaves_setContainer hcontainer { container with
            state := .Exited
            finishedAtMs := process.finishedAtMs
            lastExitCode := process.processExitCode } rfl m.log)

theorem stopEnd_leaves (m : RuntimeService) (c : Nat) (process : Option Nat) :
    Leaves m (m.stopEnd c process) := by
  unfold stopEnd
  split
  · exact Leaves.refl m
  · rename_i container hcontainer
    exact leaves_setContainer hcontainer
      { container with state := .Exited, finishedAtMs := some m.nowMs } rfl _

/-- A call of `stop` stays with its container. -/
theorem beginStop_leaves (m : RuntimeService) (c timeoutMs latencyMs : Nat) :
    Leaves m (m.beginStop c timeoutMs latencyMs).1
      ∧ (m.beginStop c timeoutMs latencyMs).2.container = c := by
  unfold beginStop
  split
  · exact ⟨Leaves.refl m, rfl⟩
  · split
    · exact ⟨m.stopEnd_leaves c none, rfl⟩
    · rename_i p hmain
      split
      · exact ⟨m.stopEnd_leaves c (some p), rfl⟩
      · split
        · exact ⟨m.kill_leaves p .SIGKILL, rfl⟩
        · dsimp only
          split
          · exact ⟨Leaves.refl m, rfl⟩
          · exact ⟨m.kill_leaves p _, rfl⟩

theorem stopMove_leaves (m : RuntimeService) (stop : Stop) (outcome : Outcome) :
    Leaves m (m.stopMove stop outcome).1
      ∧ (m.stopMove stop outcome).2.container = stop.container := by
  unfold stopMove
  split
  · exact ⟨Leaves.refl m, rfl⟩
  · rename_i p hp
    split
    · exact ⟨m.kill_leaves p _, rfl⟩
    · exact ⟨Leaves.refl m, rfl⟩
    · split
      · exact ⟨Leaves.refl m, rfl⟩
      · exact ⟨Leaves.refl m, rfl⟩
      · exact ⟨Leaves.refl m, rfl⟩
    · split
      · exact ⟨Leaves.refl m, rfl⟩
      · exact ⟨Leaves.refl m, rfl⟩
    · exact ⟨m.kill_leaves p .SIGKILL, rfl⟩
    · exact ⟨Leaves.refl m, rfl⟩
    · split
      · exact ⟨m.stopEnd_leaves _ _, rfl⟩
      · exact ⟨Leaves.refl m, rfl⟩
    · exact ⟨Leaves.refl m, rfl⟩

/-! ## Functions that change the tables -/

structure Clean (m : RuntimeService) : Prop where
  covered : Covered m.processes m.network m.containerTable
  tables : Tables m.idPrefix m.places m.sandboxes m.containerTable m.sandboxTable
    m.network.podsBySandboxId

/-- The sandbox is off the network. -/
def Unregistered (m : RuntimeService) (s : Nat) : Prop :=
  ∃ sandbox, m.sandboxes[s]? = some sandbox ∧ sandbox.registration = none

/-- What is in no table does not come back. -/
structure Stays (m m' : RuntimeService) : Prop where
  places : m.places.length ≤ m'.places.length
  sandboxes : m.sandboxes.length ≤ m'.sandboxes.length
  containerTable : ∀ c < m.places.length, c ∈ m'.containerTable → c ∈ m.containerTable
  sandboxTable : ∀ s < m.sandboxes.length, s ∈ m'.sandboxTable → s ∈ m.sandboxTable

theorem Stays.refl (m : RuntimeService) : Stays m m :=
  ⟨Nat.le_refl _, Nat.le_refl _, fun _ _ h => h, fun _ _ h => h⟩

/-- What a function does that makes no container and no sandbox. -/
structure Shift (m m' : RuntimeService) : Prop where
  clean : m.Clean → m'.Clean
  calls : m'.calls = m.calls
  unregistered : ∀ s, m.Unregistered s → m'.Unregistered s
  shrinks : ∀ (s : Nat) (sandbox' : PodSandboxInstance) (c : Nat),
    m'.sandboxes[s]? = some sandbox' → c ∈ sandbox'.containers →
      ∃ sandbox : PodSandboxInstance, m.sandboxes[s]? = some sandbox ∧ c ∈ sandbox.containers
  stays : Stays m m'

theorem Leaves.shift {m' : RuntimeService} (h : Leaves m m') : Shift m m' where
  clean hm :=
    { covered := h.covered hm.covered
      tables := by
        rw [h.idPrefix, h.places, h.sandboxes, h.containerTable, h.sandboxTable, h.pods]
        exact hm.tables }
  calls := h.calls
  unregistered s hs := by
    rw [Unregistered, h.sandboxes]
    exact hs
  shrinks s sandbox' c hs hc := ⟨sandbox', h.sandboxes ▸ hs, hc⟩
  stays :=
    { places := by rw [h.places]
      sandboxes := by rw [h.sandboxes]
      containerTable := fun c _ hc => h.containerTable ▸ hc
      sandboxTable := fun s _ hs => h.sandboxTable ▸ hs }

theorem Shift.refl (m : RuntimeService) : Shift m m := (Leaves.refl m).shift

/-- A sandbox changes, and gets no container. -/
theorem unregistered_set {s : Nat} {old : PodSandboxInstance} (h : m.sandboxes[s]? = some old)
    (sandbox : PodSandboxInstance) (hnone : old.registration = none → sandbox.registration = none)
    {t : Nat} (ht : m.Unregistered t) : ∃ sandbox', (m.sandboxes.set s sandbox)[t]? = some sandbox'
      ∧ sandbox'.registration = none := by
  obtain ⟨sandbox', hget, hregistration⟩ := ht
  by_cases hts : t = s
  · subst hts
    rw [h] at hget
    cases hget
    exact ⟨_, List.getElem?_set_self (List.getElem?_eq_some_iff.mp h).1, hnone hregistration⟩
  · refine ⟨sandbox', ?_, hregistration⟩
    rw [List.getElem?_set_ne (Ne.symm hts)]
    exact hget

theorem shrinks_set {s : Nat} {old sandbox : PodSandboxInstance} (h : m.sandboxes[s]? = some old)
    (hsub : ∀ c ∈ sandbox.containers, c ∈ old.containers) (t : Nat) (sandbox' : PodSandboxInstance)
    (c : Nat) (ht : (m.sandboxes.set s sandbox)[t]? = some sandbox') (hc : c ∈ sandbox'.containers) :
    ∃ sandbox'' : PodSandboxInstance, m.sandboxes[t]? = some sandbox'' ∧ c ∈ sandbox''.containers := by
  rcases Tables.get_set ht with ⟨rfl, rfl⟩ | ⟨-, ht⟩
  · exact ⟨old, h, hsub c hc⟩
  · exact ⟨sandbox', ht, hc⟩

/-! ### The network of a sandbox -/

theorem bound_unregisterPod {network : ClusterNetwork} {id : JsString} {kind : ListenerKind}
    {key : JsString} {handler : Handler}
    (h : (boundOf (network.unregisterPod id) kind).get key = some handler) :
    (boundOf network kind).get key = some handler := by
  unfold ClusterNetwork.unregisterPod at h
  split at h
  · exact h
  · rename_i pod hpod
    have hdropped : ∀ listeners : JsMap JsString Handler,
        (ClusterNetwork.dropListeners listeners pod.ip).get key = some handler →
        listeners.get key = some handler := by
      intro listeners hget
      rw [ClusterNetwork.get_dropListeners] at hget
      split at hget
      · cases hget
      · exact hget
    cases kind with
    | http => exact hdropped _ h
    | dns => exact hdropped _ h

theorem pods_unregisterPod (network : ClusterNetwork) {id id' : JsString} (h : id' ≠ id) :
    (network.unregisterPod id).podsBySandboxId.get id' = network.podsBySandboxId.get id' := by
  unfold ClusterNetwork.unregisterPod
  split
  · rfl
  · exact (JsMap.get_delete _ _ _).trans (if_neg h)

/-- The address of a pod is free, and no listener is bound at it. -/
def Freed (network : ClusterNetwork) (ip : JsString) : Prop :=
  network.podsByIp.get ip = none ∧ ∀ port, ¬ BoundAt network ip port

theorem freed_unregisterPod {network : ClusterNetwork} {id : JsString}
    {pod : Cni.PodSandboxInstance} (h : network.podsBySandboxId.get id = some pod) :
    Freed (network.unregisterPod id) pod.ip := by
  have hdropped : ∀ (listeners : JsMap JsString Handler) (port : Nat),
      (ClusterNetwork.dropListeners listeners pod.ip).contains (listenerKey pod.ip port) ≠ true := by
    intro listeners port hcontains
    obtain ⟨handler, hget⟩ := JsMap.contains_iff.mp hcontains
    rw [ClusterNetwork.get_dropListeners,
      if_pos (ClusterNetwork.isPrefixOf_listenerKey.mpr (Or.inl rfl))] at hget
    cases hget
  unfold ClusterNetwork.unregisterPod
  rw [h]
  refine ⟨(JsMap.get_delete _ _ _).trans (if_pos rfl), ?_⟩
  intro port hbound
  rcases hbound with hbound | hbound
  · exact hdropped _ port hbound
  · exact hdropped _ port hbound

theorem unregisterNetwork_shift (m : RuntimeService) (s : Nat) :
    Shift m (m.unregisterNetwork s) := by
  unfold unregisterNetwork
  split
  · exact Shift.refl m
  · rename_i sandbox hs
    exact
      { clean := fun hm =>
          { covered := hm.covered.unbind fun kind key handler hget => by
              cases hregistration : sandbox.registration with
              | none =>
                simp only [hregistration] at hget
                exact hget
              | some registration =>
                simp only [hregistration] at hget
                exact bound_unregisterPod hget
            tables := hm.tables.unregister hs fun id hid => by
              cases hregistration : sandbox.registration with
              | none => rfl
              | some registration =>
                refine pods_unregisterPod m.network ?_
                rw [(hm.tables.registered s sandbox registration hs hregistration).1]
                exact hid }
        calls := rfl
        unregistered := fun t ht => unregistered_set hs _ (fun _ => rfl) ht
        shrinks := shrinks_set hs fun c hc => hc
        stays :=
          { places := Nat.le_refl _
            sandboxes := by
              show _ ≤ (m.sandboxes.set s _).length
              rw [List.length_set]
            containerTable := fun c _ hc => hc
            sandboxTable := fun t _ ht => ht } }

theorem unregisterNetwork_unregistered {s : Nat} (h : s < m.sandboxes.length) :
    (m.unregisterNetwork s).Unregistered s := by
  unfold unregisterNetwork
  rw [List.getElem?_eq_getElem h]
  exact ⟨_, List.getElem?_set_self h, rfl⟩

/-- The sandbox has no address after, and the one it had is free. -/
structure Frees (m m' : RuntimeService) (s : Nat) : Prop where
  none : ∀ sandbox, m'.sandboxes[s]? = some sandbox → sandbox.registration = none
  freed : ∀ sandbox registration, m.sandboxes[s]? = some sandbox →
    sandbox.registration = some registration → Freed m'.network registration.ip

theorem unregisterNetwork_frees (h : m.Clean) {s : Nat} (hs : s < m.sandboxes.length) :
    Frees m (m.unregisterNetwork s) s where
  none sandbox hsandbox := by
    obtain ⟨sandbox', hget, hnone⟩ := unregisterNetwork_unregistered hs
    rw [hget] at hsandbox
    cases hsandbox
    exact hnone
  freed sandbox registration hsandbox hregistration := by
    obtain ⟨-, pod, hpod, hip⟩ := h.tables.registered s sandbox registration hsandbox hregistration
    have hfreed := freed_unregisterPod hpod
    unfold unregisterNetwork
    rw [hsandbox]
    dsimp only
    rw [hregistration, ← hip]
    exact hfreed

/-! ### Containers and sandboxes -/

theorem places_of_get {c : Nat} {container : ContainerInstance}
    (h : m.containers[c]? = some container) : m.places[c]? = some container.sandbox := by
  rw [places, List.getElem?_map, h]
  rfl

/-- A container is dropped whose processes have exited. -/
theorem dropContainer_shift {c : Nat}
    (hexited : ∀ (p : Nat) (process : ProcessInstance), m.processes[p]? = some process →
      process.container = c → process.processState = .Exited) : Shift m (m.dropContainer c) := by
  have htable : ∀ (p : Nat) (process : ProcessInstance), m.processes[p]? = some process →
      process.container ∈ m.containerTable →
        process.container ∈ m.containerTable.filter (· ≠ c) ∨ process.processState = .Exited := by
    intro p process hp hmem
    by_cases hc : process.container = c
    · exact Or.inr (hexited p process hp hc)
    · exact Or.inl (List.mem_filter.mpr ⟨hmem, decide_eq_true hc⟩)
  unfold dropContainer
  split
  · exact Shift.refl m
  · rename_i container hcontainer
    have hplace := places_of_get hcontainer
    dsimp only
    split
    · -- no sandbox, so the container is in no table either
      rename_i hnone
      exact
        { clean := fun hm =>
            { covered := hm.covered.retable htable
              tables := by
                have hsame : m.containerTable.filter (· ≠ c) = m.containerTable := by
                  rw [List.filter_eq_self]
                  intro d hd
                  refine decide_eq_true ?_
                  rintro rfl
                  obtain ⟨s, sandbox, hplace', hsandbox, -⟩ := hm.tables.listed d hd
                  rw [hplace] at hplace'
                  cases hplace'
                  rw [hnone] at hsandbox
                  cases hsandbox
                show Tables m.idPrefix m.places m.sandboxes (m.containerTable.filter (· ≠ c)) _ _
                rw [hsame]
                exact hm.tables }
          calls := rfl
          unregistered := fun t ht => ht
          shrinks := fun t sandbox' d ht hd => ⟨sandbox', ht, hd⟩
          stays :=
            { places := Nat.le_refl _
              sandboxes := Nat.le_refl _
              containerTable := fun d _ hd => List.mem_of_mem_filter hd
              sandboxTable := fun t _ ht => ht } }
    · rename_i sandbox hsandbox
      exact
        { clean := fun hm =>
            { covered := hm.covered.retable htable
              tables := hm.tables.drop hplace hsandbox }
          calls := rfl
          unregistered := fun t ht => unregistered_set hsandbox
            { sandbox with containers := sandbox.containers.filter (· ≠ c) } (fun hnone => hnone) ht
          shrinks := shrinks_set hsandbox fun d hd => List.mem_of_mem_filter hd
          stays :=
            { places := Nat.le_refl _
              sandboxes := by
                show _ ≤ (m.sandboxes.set container.sandbox _).length
                rw [List.length_set]
              containerTable := fun d _ hd => List.mem_of_mem_filter hd
              sandboxTable := fun t _ ht => ht } }

theorem not_mem_dropContainer (h : m.Clean) (c : Nat) : c ∉ (m.dropContainer c).containerTable := by
  unfold dropContainer
  split
  · rename_i hnone
    intro hc
    obtain ⟨s, sandbox, hplace, -⟩ := h.tables.listed c hc
    rw [places, List.getElem?_map, hnone] at hplace
    cases hplace
  · dsimp only
    split
    · simp
    · simp

/-- A container that is dropped is in its sandbox no more. -/
theorem not_mem_of_drop (h : m.Clean) {c s : Nat} {sandbox : PodSandboxInstance}
    (hs : (m.dropContainer c).sandboxes[s]? = some sandbox) : c ∉ sandbox.containers := by
  unfold dropContainer at hs
  split at hs
  · rename_i hnone
    intro hc
    have hplace := (h.tables.placed s sandbox hs c hc).2
    rw [places, List.getElem?_map, hnone] at hplace
    cases hplace
  · rename_i container hcontainer
    have hplace := places_of_get hcontainer
    dsimp only at hs
    intro hc
    split at hs
    · rename_i hnone
      have hplace' := (h.tables.placed s sandbox hs c hc).2
      rw [hplace] at hplace'
      cases hplace'
      have hs : m.sandboxes[container.sandbox]? = some sandbox := hs
      rw [hnone] at hs
      cases hs
    · rename_i old hold
      rcases Tables.get_set hs with ⟨rfl, rfl⟩ | ⟨hne, hs⟩
      · have hdc := (List.mem_filter.mp hc).2
        exact of_decide_eq_true hdc rfl
      · have hplace' := (h.tables.placed s sandbox hs c hc).2
        rw [hplace] at hplace'
        cases hplace'
        exact hne rfl

theorem forget_shift {s : Nat} (hs : m.Unregistered s)
    (hempty : ∀ sandbox, m.sandboxes[s]? = some sandbox → sandbox.containers = []) :
    Shift m { m with sandboxTable := m.sandboxTable.filter (· ≠ s) } where
  clean hm :=
    { covered := hm.covered
      tables := hm.tables.forget fun sandbox hsandbox => by
        obtain ⟨sandbox', hget, hnone⟩ := hs
        rw [hsandbox] at hget
        cases hget
        exact ⟨hnone, hempty sandbox hsandbox⟩ }
  calls := rfl
  unregistered t ht := ht
  shrinks t sandbox' c ht hc := ⟨sandbox', ht, hc⟩
  stays :=
    { places := Nat.le_refl _
      sandboxes := Nat.le_refl _
      containerTable := fun c _ hc => hc
      sandboxTable := fun t _ ht => List.mem_of_mem_filter ht }

end RuntimeService

end Webernetes.Cri
