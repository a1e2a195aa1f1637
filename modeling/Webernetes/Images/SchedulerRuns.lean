/-
Webernetes.Images.SchedulerRuns — which pods the scheduler leaves waiting.

A pod that waits for a node is one of three things: there is no node, the
informer is yet to tell of it, or a bind of its name is in flight that has
not come to its end (`Attended`). Three steps can break that, and
`Heeded` is the condition on them: a pod is told of while a bind of its
name is past its write, the last attempt of a bind meets a conflict, and
the first node is made after the bind has looked for one.
-/
import Webernetes.Images.Scheduler

namespace Webernetes.Images

open Js Base Storage

/-! ## Binds -/

/-- The bind may still bind what is stored under its key. -/
def Bind.Open : Bind → Prop
  | .bound => False
  | .ended => False
  | _ => True

/-- The revision that the last attempt of a bind has read. -/
def Bind.lastRead : Bind → Option Nat
  | .updating _ attempt read => if attempt + 1 < attempts then none else some read.resourceVersion
  | .committing _ attempt read =>
    if attempt + 1 < attempts then none else some read.resourceVersion
  | _ => none

/-- The node that a bind has chosen has a name, and the pod that it has
read is the one of its key. -/
def Bind.Sound (key : JsString) : Bind → Prop
  | .reading server _ => server ≠ []
  | .binding server _ => server ≠ []
  | .updating server _ read => server ≠ [] ∧ podKey read.pod = key
  | .committing server _ read => server ≠ [] ∧ podKey read.pod = key
  | _ => True

theorem Bind.conflict_sound {key server : JsString} (h : server ≠ []) (attempt : Nat) :
    (Bind.conflict server attempt).Sound key := by
  unfold Bind.conflict
  split
  · exact h
  · trivial

theorem Bind.conflict_open {server : JsString} {attempt : Nat} (h : attempt + 1 < attempts) :
    (Bind.conflict server attempt).Open := by
  unfold Bind.conflict
  rw [if_pos h]
  trivial

/-! ## The condition -/

namespace Scheduler

/-- The steps after which every pod that waits is seen to. -/
def Heeded (s : Scheduler) : SchedulerStep → Prop
  | .deliver => ∀ stored events bind, s.events = stored :: events → stored.pod.waits = true →
      s.pods.get (podKey stored.pod) = some stored →
      s.pending.get (podKey stored.pod) = some bind → bind ≠ .bound ∧ bind ≠ .ended
  | .move key => ∀ bind revision stored, s.pending.get key = some bind →
      bind.lastRead = some revision → s.pods.get key = some stored → stored.pod.waits = true →
      stored.resourceVersion ≠ revision → stored ∈ s.events
  | .createNode _ _ => s.nodes = [] → ∀ key stored, s.pods.get key = some stored →
      stored.pod.waits = true → stored ∈ s.events ∨ s.pending.get key = some .listing
  | _ => True

/-- What sees to a pod that waits. -/
def Attended (s : Scheduler) (key : JsString) (stored : StoredPod) : Prop :=
  s.nodes = [] ∨ stored ∈ s.events ∨ ∃ bind, s.pending.get key = some bind ∧ bind.Open

structure Attentive (s : Scheduler) : Prop where
  key : ∀ key stored, s.pods.get key = some stored → podKey stored.pod = key
  nodes : ∀ name ∈ s.nodes, name ≠ []
  binds : ∀ key bind, s.pending.get key = some bind → bind.Sound key
  waiting : ∀ key stored, s.pods.get key = some stored → stored.pod.waits = true →
    s.Attended key stored

variable {s : Scheduler}

/-! ## Steps -/

/-- A write tells of the pod, and leaves the others. -/
theorem put_attentive (h : s.Attentive) (pod : SchedulablePod) : (s.put pod).Attentive where
  key key stored hget := by
    have hget : (s.pods.set (podKey pod) _).get key = some stored := hget
    rw [JsMap.get_set] at hget
    split at hget
    · rename_i hkey
      cases hget
      exact hkey.symm
    · exact h.key key stored hget
  nodes := h.nodes
  binds := h.binds
  waiting key stored hget hwaits := by
    have hget : (s.pods.set (podKey pod) _).get key = some stored := hget
    rw [JsMap.get_set] at hget
    split at hget
    · cases hget
      exact Or.inr (Or.inl (List.mem_append_right _ (List.mem_singleton_self _)))
    · rcases h.waiting key stored hget hwaits with hnone | htold | hbind
      · exact Or.inl hnone
      · exact Or.inr (Or.inl (List.mem_append_left _ htold))
      · exact Or.inr (Or.inr hbind)

/-- A bind comes to a place where it may still bind, or where the pod is
seen to otherwise. -/
theorem setBind_attentive (h : s.Attentive) {key : JsString} {bind : Bind}
    (hsound : bind.Sound key)
    (hwaiting : ∀ stored, s.pods.get key = some stored → stored.pod.waits = true →
      s.nodes = [] ∨ stored ∈ s.events ∨ bind.Open) : (s.setBind key bind).Attentive where
  key := h.key
  nodes := h.nodes
  binds key' bind' hget := by
    have hget : (s.pending.set key bind).get key' = some bind' := hget
    rw [JsMap.get_set] at hget
    split at hget
    · rename_i hkey
      cases hget
      rw [hkey]
      exact hsound
    · exact h.binds key' bind' hget
  waiting key' stored hget hwaits := by
    by_cases hkey : key' = key
    · subst hkey
      rcases hwaiting stored hget hwaits with hnone | htold | hopen
      · exact Or.inl hnone
      · exact Or.inr (Or.inl htold)
      · exact Or.inr (Or.inr ⟨bind, JsMap.get_set_self .., hopen⟩)
    · rcases h.waiting key' stored hget hwaits with hnone | htold | ⟨bind', hbind, hopen⟩
      · exact Or.inl hnone
      · exact Or.inr (Or.inl htold)
      · refine Or.inr (Or.inr ⟨bind', ?_, hopen⟩)
        exact (JsMap.get_set_of_ne _ _ hkey).trans hbind

/-- The same, where the bind may go on. -/
theorem setBind_open (h : s.Attentive) {key : JsString} {bind : Bind} (hsound : bind.Sound key)
    (hopen : bind.Open) : (s.setBind key bind).Attentive :=
  setBind_attentive h hsound fun _ _ _ => Or.inr (Or.inr hopen)

theorem not_waits_of_nodeName {pod : SchedulablePod} (h : truthy pod.nodeName = true) :
    pod.waits = false := by
  simp [SchedulablePod.waits, h]

theorem deliver_attentive (h : s.Attentive) (hheeded : s.Heeded .deliver) : s.deliver.Attentive := by
  unfold deliver
  split
  · exact h
  · rename_i told events hevents
    -- what the informer is yet to tell of afterwards
    have hrest : ∀ key stored, s.pods.get key = some stored → stored.pod.waits = true →
        stored = told ∨ ({ s with events } : Scheduler).Attended key stored := by
      intro key stored hget hwaits
      rcases h.waiting key stored hget hwaits with hnone | htold | hbind
      · exact Or.inr (Or.inl hnone)
      · rw [hevents] at htold
        rcases List.mem_cons.mp htold with rfl | htold
        · exact Or.inl rfl
        · exact Or.inr (Or.inr (Or.inl htold))
      · exact Or.inr (Or.inr (Or.inr hbind))
    unfold schedulePod
    split
    · rename_i hnot
      exact
        { key := h.key
          nodes := h.nodes
          binds := h.binds
          waiting := fun key stored hget hwaits => by
            rcases hrest key stored hget hwaits with rfl | hattended
            · rw [hwaits] at hnot
              cases hnot
            · exact hattended }
    · rename_i hwaits
      have hwaits : told.pod.waits = true := by simpa using hwaits
      dsimp only
      split
      · -- the bind in flight is to see to it
        rename_i hpending
        obtain ⟨bind, hbind⟩ := JsMap.contains_iff.mp hpending
        have hbind : s.pending.get (podKey told.pod) = some bind := hbind
        exact
          { key := h.key
            nodes := h.nodes
            binds := h.binds
            waiting := fun key stored hget hwaits' => by
              rcases hrest key stored hget hwaits' with rfl | hattended
              · have hkey := h.key key stored hget
                subst hkey
                obtain ⟨hbound, hended⟩ := hheeded stored events bind hevents hwaits hget hbind
                refine Or.inr (Or.inr ⟨bind, hbind, ?_⟩)
                cases bind with
                | bound => exact absurd rfl hbound
                | ended => exact absurd rfl hended
                | _ => trivial
              · exact hattended }
      · exact
          { key := h.key
            nodes := h.nodes
            binds := fun key bind hget => by
              have hget : (s.pending.set (podKey told.pod) .listing).get key = some bind := hget
              rw [JsMap.get_set] at hget
              split at hget
              · cases hget
                trivial
              · exact h.binds key bind hget
            waiting := fun key stored hget hwaits' => by
              by_cases hkey : key = podKey told.pod
              · subst hkey
                exact Or.inr (Or.inr ⟨.listing, JsMap.get_set_self .., trivial⟩)
              · rcases hrest key stored hget hwaits' with rfl | hattended
                · exact absurd (h.key key stored hget).symm hkey
                · rcases hattended with hnone | htold | ⟨bind, hbind, hopen⟩
                  · exact Or.inl hnone
                  · exact Or.inr (Or.inl htold)
                  · refine Or.inr (Or.inr ⟨bind, ?_, hopen⟩)
                    exact (JsMap.get_set_of_ne _ _ hkey).trans hbind }

/-- A conflict leaves the pod to the next attempt, or to what the informer
is yet to tell of. -/
theorem conflict_attentive (h : s.Attentive) {key server : JsString} {attempt : Nat} {bind : Bind}
    {read : StoredPod} (hbind : s.pending.get key = some bind) (hserver : server ≠ [])
    (hread : attempt + 1 < attempts ∨ bind.lastRead = some read.resourceVersion)
    (hheeded : s.Heeded (.move key))
    (hconflict : ∀ existing, s.pods.get key = some existing →
      existing.resourceVersion ≠ read.resourceVersion) :
    (s.setBind key (.conflict server attempt)).Attentive := by
  refine setBind_attentive h (Bind.conflict_sound hserver attempt) ?_
  intro stored hget hwaits
  rcases hread with hlt | hlast
  · exact Or.inr (Or.inr (Bind.conflict_open hlt))
  · exact Or.inr (Or.inl (hheeded bind _ stored hbind hlast hget hwaits (hconflict stored hget)))

/-- No pod waits under the key. -/
theorem ended_attentive (h : s.Attentive) {key : JsString}
    (hnone : ∀ stored, s.pods.get key = some stored → stored.pod.waits = false) :
    (s.setBind key .ended).Attentive := by
  refine setBind_attentive h trivial ?_
  intro stored hget hwaits
  rw [hnone stored hget] at hwaits
  cases hwaits

/-- The pod under the key has a node. -/
theorem ended_of_nodeName (h : s.Attentive) {key : JsString} {current : StoredPod}
    (hget : s.pods.get key = some current) (hnode : truthy current.pod.nodeName = true) :
    (s.setBind key .ended).Attentive := by
  refine ended_attentive h ?_
  intro stored hstored
  rw [hget] at hstored
  cases hstored
  exact not_waits_of_nodeName hnode

theorem ended_of_none (h : s.Attentive) {key : JsString} (hnone : s.pods.get key = none) :
    (s.setBind key .ended).Attentive := by
  refine ended_attentive h ?_
  intro stored hstored
  rw [hnone] at hstored
  cases hstored

/-- A node that is chosen is one of the nodes. -/
theorem nextServer_mem {server : JsString} (h : s.nextServer = some server) : server ∈ s.nodes :=
  List.mem_of_getElem? h

theorem nodes_of_nextServer (h : s.nextServer = none) : s.nodes = [] := by
  by_contra hne
  have hlength := List.length_pos_iff.mpr hne
  have hlt := Nat.mod_lt s.nextServerIndex hlength
  rw [nextServer, List.getElem?_eq_getElem hlt] at h
  cases h

/-- The write of a binding. -/
theorem commit_attentive (h : s.Attentive) {key server : JsString} {read : StoredPod}
    (hserver : server ≠ []) (hkey : podKey read.pod = key) :
    ((s.put { read.pod with nodeName := some server }).setBind key .bound).Attentive := by
  refine setBind_attentive (put_attentive h _) trivial ?_
  intro stored hget hwaits
  have hget : (s.pods.set (podKey read.pod) _).get key = some stored := hget
  rw [hkey, JsMap.get_set_self] at hget
  cases hget
  have hnode : truthy (some server) = true := truthy_iff.mpr ⟨server, rfl, hserver⟩
  rw [not_waits_of_nodeName hnode] at hwaits
  cases hwaits

theorem lastRead_updating (server : JsString) (attempt : Nat) (read : StoredPod) :
    attempt + 1 < attempts
      ∨ (Bind.updating server attempt read).lastRead = some read.resourceVersion := by
  by_cases hlt : attempt + 1 < attempts
  · exact Or.inl hlt
  · exact Or.inr (if_neg hlt)

theorem lastRead_committing (server : JsString) (attempt : Nat) (read : StoredPod) :
    attempt + 1 < attempts
      ∨ (Bind.committing server attempt read).lastRead = some read.resourceVersion := by
  by_cases hlt : attempt + 1 < attempts
  · exact Or.inl hlt
  · exact Or.inr (if_neg hlt)

theorem move_attentive (h : s.Attentive) {key : JsString} (hheeded : s.Heeded (.move key)) :
    (s.move key).Attentive := by
  unfold move
  cases hbind : s.pending.get key with
  | none => exact h
  | some bind =>
    have hsound := h.binds key bind hbind
    cases bind with
    | listing =>
      dsimp only
      split
      · rename_i hnext
        refine setBind_attentive h trivial ?_
        intro stored _ _
        exact Or.inl (nodes_of_nextServer hnext)
      · rename_i server hnext
        have hserver := h.nodes server (nextServer_mem hnext)
        have hset : (s.setBind key (.reading server 0)).Attentive :=
          setBind_open h hserver trivial
        exact ⟨hset.key, hset.nodes, hset.binds, hset.waiting⟩
    | reading server attempt =>
      dsimp only
      split
      · rename_i hnone
        exact ended_of_none h hnone
      · rename_i current hcurrent
        split
        · rename_i hnode
          exact ended_of_nodeName h hcurrent hnode
        · exact setBind_open h hsound trivial
    | binding server attempt =>
      dsimp only
      split
      · rename_i hnone
        exact ended_of_none h hnone
      · rename_i current hcurrent
        split
        · rename_i hempty
          exact absurd (List.isEmpty_iff.mp hempty) hsound
        · split
          · rename_i hnode
            exact ended_of_nodeName h hcurrent hnode
          · exact setBind_open h ⟨hsound, h.key key current hcurrent⟩ trivial
    | updating server attempt read =>
      obtain ⟨hserver, hkey⟩ := hsound
      dsimp only
      split
      · rename_i hnone
        exact ended_of_none h hnone
      · rename_i existing hexisting
        split
        · rename_i hne
          refine conflict_attentive h hbind hserver (lastRead_updating server attempt read) hheeded ?_
          intro existing' hexisting'
          rw [hexisting] at hexisting'
          cases hexisting'
          exact hne
        · exact setBind_open h ⟨hserver, hkey⟩ trivial
    | committing server attempt read =>
      obtain ⟨hserver, hkey⟩ := hsound
      have hlast := lastRead_committing server attempt read
      dsimp only
      split
      · rename_i hnone
        refine conflict_attentive h hbind hserver hlast hheeded ?_
        intro existing hexisting
        rw [hnone] at hexisting
        cases hexisting
      · rename_i existing hexisting
        split
        · rename_i hne
          refine conflict_attentive h hbind hserver hlast hheeded ?_
          intro existing' hexisting'
          rw [hexisting] at hexisting'
          cases hexisting'
          exact hne
        · exact commit_attentive h hserver hkey
    | bound =>
      -- the pod was written, or another write of it is yet to be told of
      refine setBind_attentive h trivial ?_
      intro stored hget hwaits
      rcases h.waiting key stored hget hwaits with hnone | htold | ⟨bind, hbind', hopen⟩
      · exact Or.inl hnone
      · exact Or.inr (Or.inl htold)
      · rw [hbind] at hbind'
        cases hbind'
        exact absurd hopen id
    | ended =>
      exact
        { key := h.key
          nodes := h.nodes
          binds := fun key' bind hget => by
            have hget : (s.pending.delete key).get key' = some bind := hget
            rw [JsMap.get_delete] at hget
            split at hget
            · cases hget
            · exact h.binds key' bind hget
          waiting := fun key' stored hget hwaits => by
            rcases h.waiting key' stored hget hwaits with hnone | htold | ⟨bind, hbind', hopen⟩
            · exact Or.inl hnone
            · exact Or.inr (Or.inl htold)
            · by_cases hkey : key' = key
              · subst hkey
                rw [hbind] at hbind'
                cases hbind'
                exact absurd hopen id
              · refine Or.inr (Or.inr ⟨bind, ?_, hopen⟩)
                exact (JsMap.get_delete _ _ _).trans ((if_neg hkey).trans hbind') }

theorem deletePod_attentive (h : s.Attentive) (key : JsString) : (s.deletePod key).Attentive := by
  unfold deletePod
  split
  · have hold : ∀ key' stored, (s.pods.delete key).get key' = some stored →
        s.pods.get key' = some stored := by
      intro key' stored hget
      rw [JsMap.get_delete] at hget
      split at hget
      · cases hget
      · exact hget
    exact
      { key := fun key' stored hget => h.key key' stored (hold key' stored hget)
        nodes := h.nodes
        binds := h.binds
        waiting := fun key' stored hget => h.waiting key' stored (hold key' stored hget) }
  · exact h

theorem createNode_attentive (h : s.Attentive) (index : Nat) (name : JsString)
    (hheeded : s.Heeded (.createNode index name)) : (s.createNode index name).Attentive := by
  unfold createNode
  split
  · exact h
  · rename_i hname
    rw [Bool.or_eq_true, not_or] at hname
    exact
      { key := h.key
        nodes := fun node hnode => by
          have hnode : node ∈ s.nodes.take index ++ name :: s.nodes.drop index := hnode
          rcases List.mem_append.mp hnode with hnode | hnode
          · exact h.nodes node (List.mem_of_mem_take hnode)
          · rcases List.mem_cons.mp hnode with rfl | hnode
            · intro hempty
              exact hname.1 (List.isEmpty_iff.mpr hempty)
            · exact h.nodes node (List.mem_of_mem_drop hnode)
        binds := h.binds
        waiting := fun key stored hget hwaits => by
          rcases h.waiting key stored hget hwaits with hnone | htold | hbind
          · rcases hheeded hnone key stored hget hwaits with htold | hlisting
            · exact Or.inr (Or.inl htold)
            · exact Or.inr (Or.inr ⟨.listing, hlisting, trivial⟩)
          · exact Or.inr (Or.inl htold)
          · exact Or.inr (Or.inr hbind) }

theorem step_attentive (h : s.Attentive) {act : SchedulerStep} (hheeded : s.Heeded act) :
    (s.step act).Attentive := by
  cases act with
  | createPod pod =>
    show (s.createPod pod).Attentive
    unfold createPod
    split
    · exact h
    · split
      · exact h
      · exact put_attentive h pod
  | updatePod key change =>
    show (s.updatePod key change).Attentive
    unfold updatePod
    split
    · exact h
    · exact put_attentive h _
  | deletePod key => exact deletePod_attentive h key
  | createNode index name => exact createNode_attentive h index name hheeded
  | deliver => exact deliver_attentive h hheeded
  | move key => exact move_attentive h hheeded

/-- In every run whose steps meet the condition, once the informer has told
of everything and no bind is in flight, a pod waits only while there is no
node. -/
theorem scheduled_of_reach (h : (schedulerSystem.guarded Scheduler.Heeded).Reach s)
    (hevents : s.events = []) (hpending : s.pending = .empty) {key : JsString} {stored : StoredPod}
    (hget : s.pods.get key = some stored) (hwaits : stored.pod.waits = true) : s.nodes = [] := by
  have hattentive : s.Attentive := by
    refine h.invariant ?_ ?_
    · rintro s ⟨hstore, hevents, hpending⟩
      exact
        { key := hstore.key
          nodes := hstore.nodes
          binds := fun key bind hbind => by
            rw [hpending, JsMap.get_empty] at hbind
            cases hbind
          waiting := fun key stored hget _ => by
            refine Or.inr (Or.inl ?_)
            rw [hevents]
            exact List.mem_map_of_mem (JsMap.get_eq_some_iff.mp hget) }
    · rintro s act _ - hs ⟨rfl, hheeded⟩
      exact step_attentive hs hheeded
  rcases hattentive.waiting key stored hget hwaits with hnone | htold | ⟨bind, hbind, -⟩
  · exact hnone
  · rw [hevents] at htold
    cases htold
  · rw [hpending, JsMap.get_empty] at hbind
    cases hbind

end Scheduler

/-! ## Pods that stay waiting -/

def waitingPod : SchedulablePod := { name := some (js "a") }

def runScheduler (steps : List SchedulerStep) : Scheduler := steps.foldl Scheduler.step {}

theorem schedulerStore_empty : SchedulerStore {} where
  key key stored hget := by cases hget
  nodes name hname := by cases hname

theorem reach_runScheduler (steps : List SchedulerStep) :
    schedulerSystem.Reach (runScheduler steps) := by
  have hstart : schedulerSystem.Reach {} := .start ⟨schedulerStore_empty, rfl, rfl⟩
  exact hstart.foldl (fun _ _ => rfl) steps

/-- The pod is told of, its bind finds no node and ends. -/
def earlySteps : List SchedulerStep :=
  [.createPod waitingPod, .deliver, .move (podKey waitingPod), .move (podKey waitingPod)]

theorem reach_heeded {s : Scheduler} (h : (schedulerSystem.guarded Scheduler.Heeded).Reach s)
    (act : SchedulerStep) (hheeded : s.Heeded act) :
    (schedulerSystem.guarded Scheduler.Heeded).Reach (s.step act) :=
  h.step ⟨rfl, hheeded⟩

theorem heeded_earlySteps :
    (schedulerSystem.guarded Scheduler.Heeded).Reach (runScheduler earlySteps) := by
  have hstart : (schedulerSystem.guarded Scheduler.Heeded).Reach {} :=
    .start ⟨schedulerStore_empty, rfl, rfl⟩
  have hcreated := reach_heeded hstart (.createPod waitingPod) trivial
  have hdelivered := reach_heeded hcreated .deliver
    fun stored events bind _ _ _ hbind => by cases hbind
  have hlisted := reach_heeded hdelivered (.move (podKey waitingPod))
    fun bind revision stored hbind hread => by
      cases hbind
      cases hread
  exact reach_heeded hlisted (.move (podKey waitingPod))
    fun bind revision stored hbind hread => by
      cases hbind
      cases hread

theorem scheduled_early : (runScheduler earlySteps).nodes = [] :=
  Scheduler.scheduled_of_reach heeded_earlySteps rfl rfl
    (show (runScheduler earlySteps).pods.get (podKey waitingPod) = some ⟨waitingPod, 1⟩ from rfl) rfl

/-- The pod is bound, deleted and made again before its bind ends. -/
def remadeSteps : List SchedulerStep :=
  [SchedulerStep.createNode 0 (js "n"), .createPod waitingPod, .deliver]
    ++ List.replicate 5 (SchedulerStep.move (podKey waitingPod))
    ++ [SchedulerStep.deletePod (podKey waitingPod), .createPod waitingPod, .deliver, .deliver,
      .move (podKey waitingPod), .move (podKey waitingPod)]

theorem left_waiting :
    (∃ s, schedulerSystem.Reach s ∧ s.events = [] ∧ s.pending = .empty ∧ s.nodes = [js "n"]
      ∧ ∃ stored, s.pods.get (podKey waitingPod) = some stored ∧ stored.pod.waits = true) ∧
    ∃ s, schedulerSystem.Reach s ∧ s.events = [] ∧ s.pending = .empty ∧ s.nodes = [js "n"]
      ∧ ∃ stored, s.pods.get (podKey waitingPod) = some stored ∧ stored.pod.waits = true := by
  refine ⟨⟨_, reach_runScheduler (earlySteps ++ [SchedulerStep.createNode 0 (js "n")]), rfl, rfl,
      rfl, ?_⟩,
    ⟨_, reach_runScheduler remadeSteps, rfl, rfl, rfl, ?_⟩⟩
  · exact ⟨_, rfl, rfl⟩
  · exact ⟨_, rfl, rfl⟩

end Webernetes.Images
