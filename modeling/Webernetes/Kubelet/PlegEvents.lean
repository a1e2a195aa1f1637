/-
Webernetes.Kubelet.PlegEvents — what the events of a reconciliation tell of
each container.

Of one container the events are the `transition` from its state in the old
pod to that in the new one, though containers and sandboxes share their ids
and both pods may have it. `transitions` are those along a sequence of
states; replaying them gives the last state that is known.
-/
import Webernetes.Kubelet.Pleg

namespace Webernetes.Kubelet

open Js

/-! ## Transitions -/

/-- What is reported of a container that was in one state and is in another. -/
def transition : PlegContainerState → PlegContainerState → List PodLifeCycleEventType
  | old, .running => if old = .running then [] else [.containerStarted]
  | old, .exited => if old = .exited then [] else [.containerDied]
  | _, .unknown => []
  | .nonExistent, .nonExistent => []
  | .exited, .nonExistent => [.containerRemoved]
  | _, .nonExistent => [.containerDied, .containerRemoved]

/-- What is reported along a sequence of states. -/
def transitions : PlegContainerState → List PlegContainerState → List PodLifeCycleEventType
  | _, [] => []
  | old, new :: states => transition old new ++ transitions new states

def lastState (states : List PlegContainerState) : PlegContainerState :=
  states.getLast?.getD .nonExistent

theorem lastState_append_singleton (states : List PlegContainerState) (new : PlegContainerState) :
    lastState (states ++ [new]) = new := by
  simp [lastState]

theorem transitions_append_singleton (states : List PlegContainerState)
    (new old : PlegContainerState) : transitions old (states ++ [new])
      = transitions old states ++ transition (states.getLast?.getD old) new := by
  induction states generalizing old with
  | nil => simp [transitions]
  | cons state states ih =>
    rw [List.cons_append, transitions, transitions, ih, List.append_assoc, List.getLast?_cons]
    rfl

/-- The state that the events of a container tell, from one that is known. -/
def replayFrom (known : PlegContainerState) (events : List PodLifeCycleEventType) :
    PlegContainerState :=
  events.foldl (fun known event => match event with
    | .containerStarted => .running
    | .containerDied => .exited
    | .containerRemoved => .nonExistent
    | _ => known) known

/-- The last of the states that is known. -/
def knownFrom (known : PlegContainerState) (states : List PlegContainerState) :
    PlegContainerState :=
  states.foldl (fun known state => if state = .unknown then known else state) known

theorem replayFrom_append (known : PlegContainerState) (events events' : List PodLifeCycleEventType) :
    replayFrom known (events ++ events') = replayFrom (replayFrom known events) events' :=
  List.foldl_append

theorem replayFrom_transition {old known : PlegContainerState} (h : old ≠ .unknown → known = old)
    (new : PlegContainerState) :
    replayFrom known (transition old new) = if new = .unknown then known else new := by
  cases old <;> cases new <;> simp_all [transition, replayFrom]

/-- By induction on the states: replaying the transitions gives the last
state that is known. -/
theorem replayFrom_transitions (states : List PlegContainerState) :
    ∀ {old known : PlegContainerState}, (old ≠ .unknown → known = old) →
      replayFrom known (transitions old states) = knownFrom known states := by
  induction states with
  | nil => exact fun _ => rfl
  | cons new states ih =>
    intro old known h
    rw [transitions, replayFrom_append, replayFrom_transition h]
    refine ih fun hnew => ?_
    rw [if_neg hnew]

/-- A removal comes right after a death. -/
def DiedFirst (events : List PodLifeCycleEventType) : Prop :=
  ∀ before after, events = before ++ PodLifeCycleEventType.containerRemoved :: after →
    ∃ before', before = before' ++ [PodLifeCycleEventType.containerDied]

theorem DiedFirst.append_singleton {events : List PodLifeCycleEventType} (h : DiedFirst events)
    {event : PodLifeCycleEventType}
    (hevent : event = .containerRemoved →
      ∃ events', events = events' ++ [PodLifeCycleEventType.containerDied]) :
    DiedFirst (events ++ [event]) := by
  intro before after heq
  obtain rfl | ⟨after', last, rfl⟩ := List.eq_nil_or_concat after
  · obtain ⟨rfl, hlast⟩ := List.append_inj' heq rfl
    exact hevent (List.cons.inj hlast).1
  · rw [List.concat_eq_append, ← List.cons_append, ← List.append_assoc] at heq
    exact h before after' (List.append_inj' heq rfl).1

theorem DiedFirst.append_removed {events : List PodLifeCycleEventType} (h : DiedFirst events)
    (hdied : ∃ events', events = events' ++ [PodLifeCycleEventType.containerDied]) :
    DiedFirst (events ++ [PodLifeCycleEventType.containerRemoved]) :=
  h.append_singleton fun _ => hdied

/-- By induction on the states, from events that end in a death where the
container has exited. -/
theorem diedFirst_transitions (states : List PlegContainerState) :
    ∀ {old : PlegContainerState} {events : List PodLifeCycleEventType}, DiedFirst events →
      (old = .exited → ∃ events', events = events' ++ [PodLifeCycleEventType.containerDied]) →
      DiedFirst (events ++ transitions old states) := by
  induction states with
  | nil =>
    intro old events h _
    rw [transitions, List.append_nil]
    exact h
  | cons new states ih =>
    intro old events h hold
    rw [transitions, ← List.append_assoc]
    cases new with
    | unknown =>
      rw [transition, List.append_nil]
      exact ih h (by simp)
    | running =>
      rw [transition]
      split
      · rw [List.append_nil]
        exact ih h (by simp)
      · exact ih (h.append_singleton (by simp)) (by simp)
    | exited =>
      rw [transition]
      split
      · rename_i hexited
        rw [List.append_nil]
        exact ih h fun _ => hold hexited
      · exact ih (h.append_singleton (by simp)) fun _ => ⟨events, rfl⟩
    | nonExistent =>
      cases old with
      | nonExistent =>
        rw [transition, List.append_nil]
        exact ih h (by simp)
      | exited => exact ih (h.append_singleton fun _ => hold rfl) (by simp)
      | running | unknown =>
        have hdied : DiedFirst (events ++ [PodLifeCycleEventType.containerDied]) :=
          h.append_singleton (by simp)
        have hremoved := hdied.append_removed ⟨events, rfl⟩
        rw [List.append_assoc] at hremoved
        exact ih hremoved (by simp)

/-! ## The events of one reconciliation -/

/-- The kinds of the events of a container, in their order. -/
def kindsOf (pid cid : JsString) (events : List PodLifecycleEvent) : List PodLifeCycleEventType :=
  (events.filter fun event => event.id = pid ∧ event.data = some cid).map (·.type)

theorem kindsOf_append (pid cid : JsString) (events events' : List PodLifecycleEvent) :
    kindsOf pid cid (events ++ events') = kindsOf pid cid events ++ kindsOf pid cid events' := by
  simp [kindsOf]

theorem generateEvents_eq_nil_iff {podID cid : JsString} {old new : PlegContainerState} :
    generateEvents podID cid old new = [] ↔ new = old := by
  cases old <;> cases new <;> simp [generateEvents]

/-- The events that are sent. -/
def sent (events : List PodLifecycleEvent) : List PodLifecycleEvent :=
  events.filter fun event => event.type ≠ .containerChanged

theorem kindsOf_generateEvents (podID cid : JsString) (old new : PlegContainerState) :
    kindsOf podID cid (sent (generateEvents podID cid old new)) = transition old new := by
  cases old <;> cases new <;> simp [kindsOf, sent, generateEvents, transition]

theorem mem_generateEvents {podID cid : JsString} {old new : PlegContainerState}
    {event : PodLifecycleEvent} (h : event ∈ generateEvents podID cid old new) :
    event.id = podID ∧ event.data = some cid := by
  cases old <;> cases new <;> simp_all [generateEvents] <;> aesop

theorem ids_fillCidSet (cs : List Container) : ∀ {containers : List Container},
    (containers.map (·.id)).Nodup → ((fillCidSet containers cs).map (·.id)).Nodup
      ∧ ∀ cid, cid ∈ (fillCidSet containers cs).map (·.id)
        ↔ cid ∈ containers.map (·.id) ∨ cid ∈ cs.map (·.id) := by
  induction cs with
  | nil => exact fun h => ⟨h, by simp [fillCidSet]⟩
  | cons c cs ih =>
    intro containers h
    by_cases hmem : c.id ∈ containers.map (·.id)
    · obtain ⟨hnodup, hids⟩ := ih h
      have hstep : fillCidSet containers (c :: cs) = fillCidSet containers cs := by
        rw [fillCidSet, List.foldl_cons, if_pos (List.contains_iff_mem.mpr hmem), fillCidSet]
      rw [hstep]
      refine ⟨hnodup, fun cid => ?_⟩
      rw [hids, List.map_cons, List.mem_cons]
      constructor
      · exact fun hor => hor.imp_right .inr
      · rintro (hold | rfl | hnew)
        · exact .inl hold
        · exact .inl hmem
        · exact .inr hnew
    · have hadd : ((containers ++ [c]).map (·.id)).Nodup := by
        rw [List.map_append, List.map_singleton]
        exact List.nodup_append.mpr ⟨h, List.nodup_singleton _, by
          rintro cid hcid cid' hcid' rfl
          exact hmem (List.mem_singleton.mp hcid' ▸ hcid)⟩
      obtain ⟨hnodup, hids⟩ := ih hadd
      have hstep : fillCidSet containers (c :: cs) = fillCidSet (containers ++ [c]) cs := by
        rw [fillCidSet, List.foldl_cons,
          if_neg fun hcontains => hmem (List.contains_iff_mem.mp hcontains), fillCidSet]
      rw [hstep]
      refine ⟨hnodup, fun cid => ?_⟩
      rw [hids, List.map_append, List.mem_append, List.map_singleton, List.mem_singleton,
        List.map_cons, List.mem_cons, or_assoc]

/-- The pod has a container or a sandbox with the id. -/
def HasId (pod : Option Pod) (cid : JsString) : Prop :=
  ∃ p, pod = some p ∧ (cid ∈ p.containers.map (·.id) ∨ cid ∈ p.sandboxes.map (·.id))

theorem ids_fillPod (p : Option Pod) {containers : List Container}
    (h : (containers.map (·.id)).Nodup) : ((fillPod containers p).map (·.id)).Nodup
      ∧ ∀ cid, cid ∈ (fillPod containers p).map (·.id)
        ↔ cid ∈ containers.map (·.id) ∨ HasId p cid := by
  cases p with
  | none => exact ⟨h, by simp [fillPod, HasId]⟩
  | some p =>
    obtain ⟨hnodup, hids⟩ := ids_fillCidSet p.containers h
    obtain ⟨hnodup', hids'⟩ := ids_fillCidSet p.sandboxes hnodup
    refine ⟨hnodup', fun cid => (hids' cid).trans ?_⟩
    rw [hids, or_assoc]
    simp [HasId]

theorem ids_getContainersFromPods (oldPod pod : Option Pod) :
    ((getContainersFromPods [oldPod, pod]).map (·.id)).Nodup
      ∧ ∀ cid, cid ∈ (getContainersFromPods [oldPod, pod]).map (·.id)
        ↔ HasId oldPod cid ∨ HasId pod cid := by
  have hnil : (([] : List Container).map (·.id)).Nodup := List.nodup_nil
  obtain ⟨hnodup, hids⟩ := ids_fillPod oldPod hnil
  obtain ⟨hnodup', hids'⟩ := ids_fillPod pod hnodup
  refine ⟨hnodup', fun cid => (hids' cid).trans ?_⟩
  rw [hids]
  simp

theorem getContainerState_eq_nonExistent_iff {pod : Option Pod} {cid : JsString} :
    getContainerState pod cid = .nonExistent ↔ ¬ HasId pod cid := by
  have hconvert : ∀ state, convertState state ≠ .nonExistent := by
    intro state
    cases state <;> simp [convertState]
  have hfind : ∀ (cs : List Container), cs.find? (·.id = cid) = none ↔ cid ∉ cs.map (·.id) := by
    intro cs
    simp [List.find?_eq_none]
  cases pod with
  | none => simp [getContainerState, HasId]
  | some p =>
    simp only [getContainerState, HasId, Option.some_inj, exists_eq_left', not_or, ← hfind]
    split
    · rename_i c hc
      simp only [hconvert, false_iff]
      exact fun h => by
        rw [findContainerByID, h.1] at hc
        cases hc
    · rename_i hnone
      split
      · rename_i c hc
        simp only [hconvert, false_iff]
        exact fun h => by
          rw [findSandboxByID, h.2] at hc
          cases hc
      · rename_i hnone'
        exact ⟨fun _ => ⟨hnone, hnone'⟩, fun _ => rfl⟩

/-- The pods of a record have its id. -/
def OfPod (pid : JsString) (pod : Option Pod) : Prop := ∀ p, pod = some p → p.id = pid

theorem computeEvents_eq {pid cid : JsString} {oldPod pod : Option Pod} (hold : OfPod pid oldPod)
    (hpod : OfPod pid pod) (hsome : HasId oldPod cid ∨ HasId pod cid) :
    computeEvents oldPod pod cid
      = generateEvents pid cid (getContainerState oldPod cid) (getContainerState pod cid) := by
  have hid : ((oldPod.map (·.id)).or (pod.map (·.id))).getD [] = pid := by
    cases oldPod with
    | some p => exact hold p rfl
    | none =>
      cases pod with
      | some p => exact hpod p rfl
      | none =>
        obtain ⟨p, hp, -⟩ | ⟨p, hp, -⟩ := hsome
        · cases hp
        · cases hp
  rw [computeEvents, hid]

/-- Of one container, the events of a reconciliation are its transition. -/
theorem kindsOf_podEvents {pid : JsString} {oldPod pod : Option Pod} (hold : OfPod pid oldPod)
    (hpod : OfPod pid pod) (cid : JsString) :
    kindsOf pid cid (sent (GenericPLEG.podEvents oldPod pod))
      = transition (getContainerState oldPod cid) (getContainerState pod cid) := by
  have hother : ∀ c, c ≠ cid → (HasId oldPod c ∨ HasId pod c) →
      kindsOf pid cid (sent (computeEvents oldPod pod c)) = [] := by
    intro c hc hsome
    rw [computeEvents_eq hold hpod hsome, kindsOf, List.map_eq_nil_iff, List.filter_eq_nil_iff]
    intro event hevent
    have hdata := (mem_generateEvents (List.mem_filter.mp hevent).1).2
    simp [hdata, hc]
  have hlist : ∀ cs : List Container, (cs.map (·.id)).Nodup →
      (∀ c ∈ cs, HasId oldPod c.id ∨ HasId pod c.id) →
      kindsOf pid cid (sent (cs.flatMap fun c => computeEvents oldPod pod c.id))
        = if cid ∈ cs.map (·.id) then
            transition (getContainerState oldPod cid) (getContainerState pod cid)
          else [] := by
    intro cs
    induction cs with
    | nil => exact fun _ _ => rfl
    | cons c cs ih =>
      intro hnodup hsome
      obtain ⟨hnot, hnodup⟩ := List.nodup_cons.mp hnodup
      have ih := ih hnodup fun c' hc' => hsome c' (List.mem_cons_of_mem c hc')
      rw [List.flatMap_cons, sent, List.filter_append, kindsOf_append]
      show kindsOf pid cid (sent _) ++ kindsOf pid cid (sent _) = _
      rw [ih]
      by_cases hc : c.id = cid
      · subst hc
        rw [computeEvents_eq hold hpod (hsome c List.mem_cons_self), kindsOf_generateEvents,
          if_neg hnot, List.append_nil, List.map_cons, if_pos List.mem_cons_self]
      · rw [hother c.id hc (hsome c List.mem_cons_self), List.nil_append]
        simp [Ne.symm hc]
  obtain ⟨hnodup, hids⟩ := ids_getContainersFromPods oldPod pod
  rw [GenericPLEG.podEvents, hlist _ hnodup fun c hc => (hids c.id).mp (List.mem_map_of_mem hc)]
  split
  · rfl
  · rename_i hnot
    rw [hids, not_or] at hnot
    rw [getContainerState_eq_nonExistent_iff.mpr hnot.1, getContainerState_eq_nonExistent_iff.mpr hnot.2]
    rfl

/-- There is nothing to report where no state has changed. -/
theorem podEvents_eq_nil {oldPod pod : Option Pod}
    (h : GenericPLEG.podEvents oldPod pod = []) (cid : JsString) :
    getContainerState pod cid = getContainerState oldPod cid := by
  obtain ⟨-, hids⟩ := ids_getContainersFromPods oldPod pod
  by_cases hsome : HasId oldPod cid ∨ HasId pod cid
  · obtain ⟨c, hc, rfl⟩ := List.mem_map.mp ((hids cid).mpr hsome)
    have hevents : computeEvents oldPod pod c.id = [] := List.flatMap_eq_nil_iff.mp h c hc
    exact generateEvents_eq_nil_iff.mp hevents
  · rw [not_or] at hsome
    rw [getContainerState_eq_nonExistent_iff.mpr hsome.1,
      getContainerState_eq_nonExistent_iff.mpr hsome.2]

theorem podEvents_ne_nil_of_gone {p : Pod} (h : p.containers ≠ [] ∨ p.sandboxes ≠ []) :
    GenericPLEG.podEvents (some p) none ≠ [] := by
  intro hnil
  have hgone : ∀ cid, ¬ HasId (some p) cid := fun cid =>
    getContainerState_eq_nonExistent_iff.mp (podEvents_eq_nil hnil cid).symm
  obtain hsome | hsome := h
  · obtain ⟨c, hc⟩ := List.exists_mem_of_ne_nil _ hsome
    exact hgone c.id ⟨p, rfl, .inl (List.mem_map_of_mem hc)⟩
  · obtain ⟨c, hc⟩ := List.exists_mem_of_ne_nil _ hsome
    exact hgone c.id ⟨p, rfl, .inr (List.mem_map_of_mem hc)⟩

end Webernetes.Kubelet
