/-
Webernetes.Cri.Removals — what is left of a container or a sandbox that
was removed.

Two invariants, each about the parts of the state it needs: `Covered`
about processes and listeners, `Tables` about the tables and the
registrations of sandboxes. `Shift` composes what the functions of the
runtime do to both.
-/
import Webernetes.Cri.ContainerRuns

namespace Webernetes.Cri

open Js Base Cni

/-! ## Listeners -/

def boundOf (network : ClusterNetwork) : ListenerKind → JsMap JsString Handler
  | .http => network.httpListeners
  | .dns => network.dnsListeners

/-- A process that runs holds the listener. -/
structure ProcessInstance.Holds (process : ProcessInstance) (kind : ListenerKind) (key : JsString)
    (handler : Handler) : Prop where
  runs : process.processState ≠ .Exited
  holds : ∃ listener, (kind, listener) ∈ process.listeners
    ∧ listenerKey listener.ip listener.port = key ∧ listener.handler = handler

theorem get_close {listeners : JsMap JsString Handler} {listener : Listener} {key : JsString}
    {handler : Handler} (h : (ClusterNetwork.close listeners listener).get key = some handler) :
    listeners.get key = some handler
      ∧ ¬ (listenerKey listener.ip listener.port = key ∧ listener.handler = handler) := by
  unfold ClusterNetwork.close at h
  dsimp only at h
  split at h
  · rename_i hbound
    rw [JsMap.get_delete] at h
    split at h
    · cases h
    · rename_i hne
      exact ⟨h, fun heq => hne heq.1.symm⟩
  · rename_i hbound
    refine ⟨h, ?_⟩
    rintro ⟨rfl, rfl⟩
    exact hbound h

theorem get_closeListener {network : ClusterNetwork} {entry : ListenerKind × Listener}
    {kind : ListenerKind} {key : JsString} {handler : Handler}
    (h : (boundOf (RuntimeService.closeListener network entry) kind).get key = some handler) :
    (boundOf network kind).get key = some handler
      ∧ ¬ (entry.1 = kind ∧ listenerKey entry.2.ip entry.2.port = key
        ∧ entry.2.handler = handler) := by
  obtain ⟨kind', listener⟩ := entry
  cases kind' <;> cases kind
  · obtain ⟨hget, hne⟩ := get_close h
    exact ⟨hget, fun heq => hne heq.2⟩
  · exact ⟨h, fun heq => by cases heq.1⟩
  · exact ⟨h, fun heq => by cases heq.1⟩
  · obtain ⟨hget, hne⟩ := get_close h
    exact ⟨hget, fun heq => hne heq.2⟩

/-- What is bound after some listeners were closed was bound before, and
is none of them. -/
theorem get_foldl_closeListener {entries : List (ListenerKind × Listener)}
    {network : ClusterNetwork} {kind : ListenerKind} {key : JsString} {handler : Handler}
    (h : (boundOf (entries.foldl RuntimeService.closeListener network) kind).get key
      = some handler) :
    (boundOf network kind).get key = some handler
      ∧ ∀ listener, (kind, listener) ∈ entries →
        ¬ (listenerKey listener.ip listener.port = key ∧ listener.handler = handler) := by
  induction entries generalizing network with
  | nil => exact ⟨h, fun listener hmem => by cases hmem⟩
  | cons entry entries ih =>
    obtain ⟨hget, hrest⟩ := ih h
    obtain ⟨hget, hfirst⟩ := get_closeListener hget
    refine ⟨hget, ?_⟩
    intro listener hmem heq
    rcases List.mem_cons.mp hmem with rfl | hmem
    · exact hfirst ⟨rfl, heq⟩
    · exact hrest listener hmem heq

theorem get_bind {kind : JsString} {network : ClusterNetwork} {listeners listeners' : JsMap JsString Handler}
    {id ip : JsString} {port : Nat} {handler : Handler} {listener : Listener}
    (h : network.bind kind listeners id ip port handler = .ok (listeners', listener))
    {key : JsString} {handler' : Handler} (hget : listeners'.get key = some handler') :
    listeners.get key = some handler'
      ∨ listenerKey listener.ip listener.port = key ∧ listener.handler = handler' := by
  unfold ClusterNetwork.bind at h
  dsimp only at h
  split at h
  · cases h
  · split at h
    · cases h
    · cases h
      rw [JsMap.get_set] at hget
      split at hget
      · rename_i hkey
        cases hget
        exact Or.inr ⟨hkey.symm, rfl⟩
      · exact Or.inl hget

def bindOf (network : ClusterNetwork) (kind : ListenerKind) (id ip : JsString) (port : Nat)
    (handler : Handler) : Except NetworkError (ClusterNetwork × Listener) :=
  match kind with
  | .http => network.bindHttp id ip port handler
  | .dns => network.bindDns id ip port handler

/-- What is bound after a listener was bound was bound before, or is it. -/
theorem get_bindOf {network network' : ClusterNetwork} {kind : ListenerKind} {id ip : JsString}
    {port : Nat} {handler : Handler} {listener : Listener}
    (h : bindOf network kind id ip port handler = .ok (network', listener)) :
    network'.podsBySandboxId = network.podsBySandboxId
      ∧ ∀ kind' key handler', (boundOf network' kind').get key = some handler' →
        (boundOf network kind').get key = some handler'
          ∨ kind' = kind ∧ listenerKey listener.ip listener.port = key
            ∧ listener.handler = handler' := by
  cases kind with
  | http =>
    unfold bindOf ClusterNetwork.bindHttp at h
    dsimp only at h
    cases hbind : network.bind (js "HTTP") network.httpListeners id ip port handler with
    | error e =>
      rw [hbind] at h
      cases h
    | ok bound =>
      rw [hbind] at h
      cases h
      refine ⟨rfl, ?_⟩
      intro kind' key handler' hget
      cases kind' with
      | http =>
        rcases get_bind hbind hget with hold | hnew
        · exact Or.inl hold
        · exact Or.inr ⟨rfl, hnew⟩
      | dns => exact Or.inl hget
  | dns =>
    unfold bindOf ClusterNetwork.bindDns at h
    dsimp only at h
    cases hbind : network.bind (js "DNS") network.dnsListeners id ip port handler with
    | error e =>
      rw [hbind] at h
      cases h
    | ok bound =>
      rw [hbind] at h
      cases h
      refine ⟨rfl, ?_⟩
      intro kind' key handler' hget
      cases kind' with
      | http => exact Or.inl hget
      | dns =>
        rcases get_bind hbind hget with hold | hnew
        · exact Or.inl hold
        · exact Or.inr ⟨rfl, hnew⟩

/-- What is bound is held by a process that runs, which is in a container
that the runtime knows. -/
structure Covered (processes : List ProcessInstance) (network : ClusterNetwork)
    (containerTable : List Nat) : Prop where
  exited : ∀ (p : Nat) (process : ProcessInstance), processes[p]? = some process →
    process.processState = .Exited → process.listeners = []
  bound : ∀ kind key handler, (boundOf network kind).get key = some handler →
    ∃ (p : Nat) (process : ProcessInstance), processes[p]? = some process
      ∧ process.Holds kind key handler
  container : ∀ (p : Nat) (process : ProcessInstance), processes[p]? = some process →
    process.container ∈ containerTable ∨ process.processState = .Exited

namespace Covered

variable {processes : List ProcessInstance} {network : ClusterNetwork} {containerTable : List Nat}

/-- One process changes, and the network with it. -/
theorem set (h : Covered processes network containerTable) {p : Nat} {old : ProcessInstance}
    (hold : processes[p]? = some old) (process : ProcessInstance) (hcontainer : process.container = old.container)
    (hstate : old.processState = .Exited → process.processState = .Exited)
    (hlisteners : process.processState = .Exited → process.listeners = [])
    {network' : ClusterNetwork}
    (hbound : ∀ kind key handler, (boundOf network' kind).get key = some handler →
      process.Holds kind key handler
        ∨ (boundOf network kind).get key = some handler ∧ ¬ old.Holds kind key handler) :
    Covered (processes.set p process) network' containerTable := by
  have hlt := (List.getElem?_eq_some_iff.mp hold).1
  have hself : (processes.set p process)[p]? = some process := List.getElem?_set_self hlt
  have hget : ∀ (q : Nat) (process' : ProcessInstance),
      (processes.set p process)[q]? = some process' →
      q = p ∧ process' = process ∨ processes[q]? = some process' := by
    intro q process' hq
    by_cases hqp : q = p
    · subst hqp
      rw [hself] at hq
      cases hq
      exact Or.inl ⟨rfl, rfl⟩
    · rw [List.getElem?_set_ne (Ne.symm hqp)] at hq
      exact Or.inr hq
  exact
    { exited := fun q process' hq hexited => by
        rcases hget q process' hq with ⟨rfl, rfl⟩ | hq
        · exact hlisteners hexited
        · exact h.exited q process' hq hexited
      bound := fun kind key handler hkey => by
        rcases hbound kind key handler hkey with hholds | ⟨hkey, hnot⟩
        · exact ⟨p, process, hself, hholds⟩
        · obtain ⟨q, process', hq, hholds⟩ := h.bound kind key handler hkey
          have hqp : q ≠ p := by
            rintro rfl
            rw [hold] at hq
            cases hq
            exact hnot hholds
          exact ⟨q, process', by rw [List.getElem?_set_ne (Ne.symm hqp)]; exact hq, hholds⟩
      container := fun q process' hq => by
        rcases hget q process' hq with ⟨rfl, rfl⟩ | hq
        · rw [hcontainer]
          rcases h.container q old hold with hmem | hexited
          · exact Or.inl hmem
          · exact Or.inr (hstate hexited)
        · exact h.container q process' hq }

/-- A process is made in a container of the table. -/
theorem spawn (h : Covered processes network containerTable) {process : ProcessInstance}
    (hcontainer : process.container ∈ containerTable) (hlisteners : process.listeners = []) :
    Covered (processes ++ [process]) network containerTable := by
  have hget : ∀ (q : Nat) (process' : ProcessInstance),
      (processes ++ [process])[q]? = some process' →
      process' = process ∨ processes[q]? = some process' := by
    intro q process' hq
    rw [List.getElem?_append] at hq
    split at hq
    · exact Or.inr hq
    · exact Or.inl (List.mem_singleton.mp (List.mem_of_getElem? hq))
  exact
    { exited := fun q process' hq hexited => by
        rcases hget q process' hq with rfl | hq
        · exact hlisteners
        · exact h.exited q process' hq hexited
      bound := fun kind key handler hkey => by
        obtain ⟨q, process', hq, hholds⟩ := h.bound kind key handler hkey
        have hlt := (List.getElem?_eq_some_iff.mp hq).1
        exact ⟨q, process', by rw [List.getElem?_append_left hlt]; exact hq, hholds⟩
      container := fun q process' hq => by
        rcases hget q process' hq with rfl | hq
        · exact Or.inl hcontainer
        · exact h.container q process' hq }

/-- Listeners are closed, or dropped with their address. -/
theorem unbind (h : Covered processes network containerTable) {network' : ClusterNetwork}
    (hbound : ∀ kind key handler, (boundOf network' kind).get key = some handler →
      (boundOf network kind).get key = some handler) :
    Covered processes network' containerTable where
  exited := h.exited
  bound kind key handler hkey := h.bound kind key handler (hbound kind key handler hkey)
  container := h.container

/-- The table changes, but for containers whose processes exited. -/
theorem retable (h : Covered processes network containerTable) {containerTable' : List Nat}
    (htable : ∀ (p : Nat) (process : ProcessInstance), processes[p]? = some process →
      process.container ∈ containerTable →
        process.container ∈ containerTable' ∨ process.processState = .Exited) :
    Covered processes network containerTable' where
  exited := h.exited
  bound := h.bound
  container p process hp := by
    rcases h.container p process hp with hmem | hexited
    · exact htable p process hp hmem
    · exact Or.inr hexited

end Covered

/-! ## Tables -/

def sandboxIdOf (idPrefix : JsString) (s : Nat) : JsString :=
  idPrefix ++ js "sandbox-" ++ Js.decimal (s + 1)

theorem sandboxIdOf_inj {idPrefix : JsString} {s s' : Nat}
    (h : sandboxIdOf idPrefix s = sandboxIdOf idPrefix s') : s = s' := by
  have hdecimal : Js.decimal (s + 1) = Js.decimal (s' + 1) := List.append_cancel_left h
  have hsucc := decimal_inj hdecimal
  omega

/-- The containers of the table are those of the sandboxes, a sandbox that
is in no table is empty, and one that is registered has its address on the
network. `places` are the sandboxes of the containers. -/
structure Tables (idPrefix : JsString) (places : List Nat) (sandboxes : List PodSandboxInstance)
    (containerTable sandboxTable : List Nat) (pods : JsMap JsString Cni.PodSandboxInstance) :
    Prop where
  listed : ∀ c ∈ containerTable, ∃ (s : Nat) (sandbox : PodSandboxInstance),
    places[c]? = some s ∧ sandboxes[s]? = some sandbox ∧ c ∈ sandbox.containers
  placed : ∀ (s : Nat) (sandbox : PodSandboxInstance), sandboxes[s]? = some sandbox →
    ∀ c ∈ sandbox.containers, c ∈ containerTable ∧ places[c]? = some s
  removed : ∀ (s : Nat) (sandbox : PodSandboxInstance), sandboxes[s]? = some sandbox →
    s ∉ sandboxTable → sandbox.registration = none ∧ sandbox.containers = []
  registered : ∀ (s : Nat) (sandbox : PodSandboxInstance) (registration : NetworkRegistration),
    sandboxes[s]? = some sandbox → sandbox.registration = some registration →
      registration.podSandboxId = sandboxIdOf idPrefix s
        ∧ ∃ pod, pods.get registration.podSandboxId = some pod ∧ pod.ip = registration.ip
  known : ∀ s ∈ sandboxTable, s < sandboxes.length

namespace Tables

variable {idPrefix : JsString} {places : List Nat} {sandboxes : List PodSandboxInstance}
  {containerTable sandboxTable : List Nat} {pods : JsMap JsString Cni.PodSandboxInstance}

theorem get_set {s t : Nat} {sandbox sandbox' : PodSandboxInstance}
    (h : (sandboxes.set s sandbox)[t]? = some sandbox') :
    t = s ∧ sandbox' = sandbox ∨ t ≠ s ∧ sandboxes[t]? = some sandbox' := by
  rw [List.getElem?_set] at h
  split at h
  · rename_i hst
    split at h
    · cases h
      exact Or.inl ⟨hst.symm, rfl⟩
    · cases h
  · rename_i hst
    exact Or.inr ⟨Ne.symm hst, h⟩

theorem get_snoc {t : Nat} {sandbox sandbox' : PodSandboxInstance}
    (h : (sandboxes ++ [sandbox])[t]? = some sandbox') :
    t = sandboxes.length ∧ sandbox' = sandbox ∨ t < sandboxes.length ∧ sandboxes[t]? = some sandbox' := by
  rw [List.getElem?_append] at h
  split at h
  · rename_i hlt
    exact Or.inr ⟨hlt, h⟩
  · rename_i hge
    have hlt := (List.getElem?_eq_some_iff.mp h).1
    have hmem := List.mem_singleton.mp (List.mem_of_getElem? h)
    rw [List.length_singleton] at hlt
    exact Or.inl ⟨by omega, hmem⟩

/-- A sandbox is made, and is registered where there is a table entry. -/
theorem addSandbox (h : Tables idPrefix places sandboxes containerTable sandboxTable pods)
    (pod : Cni.PodSandboxInstance) {ip : JsString} (hip : pod.ip = ip) (uid : JsString) :
    Tables idPrefix places
      (sandboxes ++ [{
        registration := some {
          podSandboxId := sandboxIdOf idPrefix sandboxes.length, podUid := uid, ip }
        state := .Ready }])
      containerTable (sandboxTable ++ [sandboxes.length])
      (pods.set (sandboxIdOf idPrefix sandboxes.length) pod) where
  listed c hc := by
    obtain ⟨s, sandbox, hplace, hsandbox, hmem⟩ := h.listed c hc
    have hlt := (List.getElem?_eq_some_iff.mp hsandbox).1
    exact ⟨s, sandbox, hplace, by rw [List.getElem?_append_left hlt]; exact hsandbox, hmem⟩
  placed s sandbox hs c hc := by
    rcases get_snoc hs with ⟨rfl, rfl⟩ | ⟨-, hs⟩
    · cases hc
    · exact h.placed s sandbox hs c hc
  removed s sandbox hs hnot := by
    rcases get_snoc hs with ⟨rfl, rfl⟩ | ⟨-, hs⟩
    · exact absurd (List.mem_append_right _ (List.mem_singleton_self _)) hnot
    · exact h.removed s sandbox hs fun hmem => hnot (List.mem_append_left _ hmem)
  registered s sandbox registration hs hregistration := by
    rcases get_snoc hs with ⟨rfl, rfl⟩ | ⟨hlt, hs⟩
    · cases hregistration
      exact ⟨rfl, pod, JsMap.get_set_self .., hip⟩
    · obtain ⟨hid, pod', hget, hip'⟩ := h.registered s sandbox registration hs hregistration
      refine ⟨hid, pod', ?_, hip'⟩
      rw [JsMap.get_set_of_ne _ _ ?_]
      · exact hget
      · rw [hid]
        intro heq
        exact absurd (sandboxIdOf_inj heq) (Nat.ne_of_lt hlt)
  known s hs := by
    rw [List.length_append, List.length_singleton]
    rcases List.mem_append.mp hs with hs | hs
    · have hlt := h.known s hs
      omega
    · rw [List.mem_singleton.mp hs]
      omega

/-- A sandbox that got no address. -/
theorem addNothing (h : Tables idPrefix places sandboxes containerTable sandboxTable pods) :
    Tables idPrefix places (sandboxes ++ [({} : PodSandboxInstance)]) containerTable sandboxTable pods where
  listed c hc := by
    obtain ⟨s, sandbox, hplace, hsandbox, hmem⟩ := h.listed c hc
    have hlt := (List.getElem?_eq_some_iff.mp hsandbox).1
    exact ⟨s, sandbox, hplace, by rw [List.getElem?_append_left hlt]; exact hsandbox, hmem⟩
  placed s sandbox hs c hc := by
    rcases get_snoc hs with ⟨rfl, rfl⟩ | ⟨-, hs⟩
    · cases hc
    · exact h.placed s sandbox hs c hc
  removed s sandbox hs hnot := by
    rcases get_snoc hs with ⟨rfl, rfl⟩ | ⟨-, hs⟩
    · exact ⟨rfl, rfl⟩
    · exact h.removed s sandbox hs hnot
  registered s sandbox registration hs hregistration := by
    rcases get_snoc hs with ⟨rfl, rfl⟩ | ⟨-, hs⟩
    · cases hregistration
    · exact h.registered s sandbox registration hs hregistration
  known s hs := by
    rw [List.length_append, List.length_singleton]
    have hlt := h.known s hs
    omega

/-- A container is made in a sandbox of the table. -/
theorem addContainer (h : Tables idPrefix places sandboxes containerTable sandboxTable pods)
    {s : Nat} {sandbox : PodSandboxInstance} (hs : sandboxes[s]? = some sandbox)
    (htable : s ∈ sandboxTable) :
    Tables idPrefix (places ++ [s])
      (sandboxes.set s { sandbox with containers := sandbox.containers ++ [places.length] })
      (containerTable ++ [places.length]) sandboxTable pods := by
  have hslt := (List.getElem?_eq_some_iff.mp hs).1
  have hplaces : ∀ {c t : Nat}, places[c]? = some t → (places ++ [s])[c]? = some t := by
    intro c t hc
    rw [List.getElem?_append_left (List.getElem?_eq_some_iff.mp hc).1]
    exact hc
  have hnew : (places ++ [s])[places.length]? = some s := by simp
  exact
    { listed := fun c hc => by
        rcases List.mem_append.mp hc with hc | hc
        · obtain ⟨t, sandbox', hplace, hsandbox, hmem⟩ := h.listed c hc
          by_cases hts : t = s
          · subst hts
            rw [hs] at hsandbox
            cases hsandbox
            exact ⟨t, _, hplaces hplace, List.getElem?_set_self hslt,
              List.mem_append_left _ hmem⟩
          · refine ⟨t, sandbox', hplaces hplace, ?_, hmem⟩
            rw [List.getElem?_set_ne (Ne.symm hts)]
            exact hsandbox
        · rw [List.mem_singleton.mp hc]
          exact ⟨s, _, hnew, List.getElem?_set_self hslt,
            List.mem_append_right _ (List.mem_singleton_self _)⟩
      placed := fun t sandbox' ht c hc => by
        have hold : ∀ sandbox'', sandboxes[t]? = some sandbox'' → c ∈ sandbox''.containers →
            c ∈ containerTable ++ [places.length] ∧ (places ++ [s])[c]? = some t := by
          intro sandbox'' ht hc
          obtain ⟨hmem, hplace⟩ := h.placed t sandbox'' ht c hc
          exact ⟨List.mem_append_left _ hmem, hplaces hplace⟩
        rcases get_set ht with ⟨rfl, rfl⟩ | ⟨-, ht⟩
        · rcases List.mem_append.mp hc with hc | hc
          · exact hold sandbox hs hc
          · rw [List.mem_singleton.mp hc]
            exact ⟨List.mem_append_right _ (List.mem_singleton_self _), hnew⟩
        · exact hold sandbox' ht hc
      removed := fun t sandbox' ht hnot => by
        rcases get_set ht with ⟨rfl, rfl⟩ | ⟨-, ht⟩
        · exact absurd htable hnot
        · exact h.removed t sandbox' ht hnot
      registered := fun t sandbox' registration ht hregistration => by
        rcases get_set ht with ⟨rfl, rfl⟩ | ⟨-, ht⟩
        · exact h.registered t sandbox registration hs hregistration
        · exact h.registered t sandbox' registration ht hregistration
      known := fun t ht => by
        rw [List.length_set]
        exact h.known t ht }

/-- A sandbox leaves the network. -/
theorem unregister (h : Tables idPrefix places sandboxes containerTable sandboxTable pods)
    {s : Nat} {sandbox : PodSandboxInstance} (hs : sandboxes[s]? = some sandbox)
    {pods' : JsMap JsString Cni.PodSandboxInstance}
    (hpods : ∀ id, id ≠ sandboxIdOf idPrefix s → pods'.get id = pods.get id) :
    Tables idPrefix places
      (sandboxes.set s { sandbox with registration := none, state := .NotReady })
      containerTable sandboxTable pods' where
  listed c hc := by
    obtain ⟨t, sandbox', hplace, hsandbox, hmem⟩ := h.listed c hc
    by_cases hts : t = s
    · subst hts
      rw [hs] at hsandbox
      cases hsandbox
      exact ⟨t, _, hplace, List.getElem?_set_self (List.getElem?_eq_some_iff.mp hs).1, hmem⟩
    · refine ⟨t, sandbox', hplace, ?_, hmem⟩
      rw [List.getElem?_set_ne (Ne.symm hts)]
      exact hsandbox
  placed t sandbox' ht c hc := by
    rcases get_set ht with ⟨rfl, rfl⟩ | ⟨-, ht⟩
    · exact h.placed t sandbox hs c hc
    · exact h.placed t sandbox' ht c hc
  removed t sandbox' ht hnot := by
    rcases get_set ht with ⟨rfl, rfl⟩ | ⟨-, ht⟩
    · exact ⟨rfl, (h.removed t sandbox hs hnot).2⟩
    · exact h.removed t sandbox' ht hnot
  registered t sandbox' registration ht hregistration := by
    rcases get_set ht with ⟨rfl, rfl⟩ | ⟨hne, ht⟩
    · cases hregistration
    · obtain ⟨hid, pod, hget, hip⟩ := h.registered t sandbox' registration ht hregistration
      refine ⟨hid, pod, ?_, hip⟩
      rw [hpods]
      · exact hget
      · rw [hid]
        exact fun heq => hne (sandboxIdOf_inj heq)
  known t ht := by
    rw [List.length_set]
    exact h.known t ht

/-- A container is dropped. -/
theorem drop (h : Tables idPrefix places sandboxes containerTable sandboxTable pods) {c s : Nat}
    (hplace : places[c]? = some s) {sandbox : PodSandboxInstance}
    (hs : sandboxes[s]? = some sandbox) :
    Tables idPrefix places
      (sandboxes.set s { sandbox with containers := sandbox.containers.filter (· ≠ c) })
      (containerTable.filter (· ≠ c)) sandboxTable pods where
  listed d hd := by
    obtain ⟨hd, hdc⟩ := List.mem_filter.mp hd
    obtain ⟨t, sandbox', hplace', hsandbox, hmem⟩ := h.listed d hd
    by_cases hts : t = s
    · subst hts
      rw [hs] at hsandbox
      cases hsandbox
      exact ⟨t, _, hplace', List.getElem?_set_self (List.getElem?_eq_some_iff.mp hs).1,
        List.mem_filter.mpr ⟨hmem, hdc⟩⟩
    · refine ⟨t, sandbox', hplace', ?_, hmem⟩
      rw [List.getElem?_set_ne (Ne.symm hts)]
      exact hsandbox
  placed t sandbox' ht d hd := by
    rcases get_set ht with ⟨rfl, rfl⟩ | ⟨hne, ht⟩
    · obtain ⟨hd, hdc⟩ := List.mem_filter.mp hd
      obtain ⟨hmem, hplace'⟩ := h.placed t sandbox hs d hd
      exact ⟨List.mem_filter.mpr ⟨hmem, hdc⟩, hplace'⟩
    · obtain ⟨hmem, hplace'⟩ := h.placed t sandbox' ht d hd
      refine ⟨List.mem_filter.mpr ⟨hmem, decide_eq_true ?_⟩, hplace'⟩
      rintro rfl
      rw [hplace] at hplace'
      cases hplace'
      exact hne rfl
  removed t sandbox' ht hnot := by
    rcases get_set ht with ⟨rfl, rfl⟩ | ⟨-, ht⟩
    · obtain ⟨hregistration, hnone⟩ := h.removed t sandbox hs hnot
      refine ⟨hregistration, ?_⟩
      show sandbox.containers.filter _ = []
      rw [hnone]
      rfl
    · exact h.removed t sandbox' ht hnot
  registered t sandbox' registration ht hregistration := by
    rcases get_set ht with ⟨rfl, rfl⟩ | ⟨-, ht⟩
    · exact h.registered t sandbox registration hs hregistration
    · exact h.registered t sandbox' registration ht hregistration
  known t ht := by
    rw [List.length_set]
    exact h.known t ht

/-- A sandbox that is empty and off the network leaves the table. -/
theorem forget (h : Tables idPrefix places sandboxes containerTable sandboxTable pods) {s : Nat}
    (hempty : ∀ sandbox : PodSandboxInstance, sandboxes[s]? = some sandbox →
      sandbox.registration = none ∧ sandbox.containers = []) :
    Tables idPrefix places sandboxes containerTable (sandboxTable.filter (· ≠ s)) pods where
  listed := h.listed
  placed := h.placed
  removed t sandbox ht hnot := by
    by_cases hts : t = s
    · subst hts
      exact hempty sandbox ht
    · refine h.removed t sandbox ht fun hmem => hnot (List.mem_filter.mpr ⟨hmem, ?_⟩)
      exact decide_eq_true hts
  registered := h.registered
  known t ht := h.known t (List.mem_of_mem_filter ht)

end Tables

end Webernetes.Cri
