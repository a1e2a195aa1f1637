/-
Webernetes.Kubelet.PlegRuns — the events of the generator tell the states of
the snapshots that were reconciled.

A record is only advanced when its events are sent, so the transitions
telescope over the inspections that fail (`Tracked`).

A record whose pod is gone is kept where there is nothing to report of it:
the generator returns before the record is updated.
-/
import Webernetes.Base.Transition
import Webernetes.Kubelet.PlegEvents

namespace Webernetes.Kubelet

open Js Base

/-! ## Records -/

namespace PodRecords

theorem get_setCurrentPod (records : PodRecords) (id pid : JsString) (current : Option Pod) :
    (records.setCurrentPod id current).get pid =
      if pid = id then some { old := records.getOld id, current } else records.get pid := by
  simp only [setCurrentPod, getOld]
  split
  · rename_i record hrecord
    rw [JsMap.get_set, hrecord]
    rfl
  · rename_i hnone
    rw [JsMap.get_set, hnone]
    rfl

/-- The pod listed last under an id is current; a record without one has none. -/
theorem get_setCurrent (pods : List Pod) (records : PodRecords) (pid : JsString) :
    (records.setCurrent pods).get pid = match pods.reverse.find? (·.id = pid) with
      | some pod => some { old := records.getOld pid, current := some pod }
      | none => (records.get pid).map fun record => { record with current := none } := by
  induction pods using List.reverseRecOn with
  | nil => exact JsMap.get_mapValues records (fun record => { record with current := none }) pid
  | append_singleton pods pod ih =>
    have hstep : records.setCurrent (pods ++ [pod])
        = setCurrentPod (records.setCurrent pods) pod.id (some pod) := by
      rw [setCurrent, List.foldl_concat, setCurrent]
    rw [hstep, get_setCurrentPod, List.reverse_concat, List.find?_cons]
    by_cases hpid : pid = pod.id
    · subst hpid
      have holdPod : getOld (records.setCurrent pods) pod.id = records.getOld pod.id := by
        rw [getOld, ih]
        split
        · rfl
        · rw [getOld]
          cases records.get pod.id <;> rfl
      simp [holdPod]
    · rw [if_neg hpid, ih]
      simp [Ne.symm hpid]

theorem get_update (records : PodRecords) (id pid : JsString) :
    (records.update id).get pid = if pid = id then
      (records.getCurrent id).map fun current => { old := some current }
    else records.get pid := by
  simp only [update, getCurrent]
  split
  · rename_i hnone
    rw [hnone]
    split
    · rename_i heq
      rw [heq, hnone]
      rfl
    · rfl
  · rename_i record hrecord
    rw [hrecord, Option.bind_some]
    simp only [updateInternal]
    split
    · rename_i hnone
      rw [hnone, JsMap.get_delete]
      rfl
    · rename_i current hcurrent
      rw [hcurrent, JsMap.get_set]
      rfl

end PodRecords

/-! ## What is tracked of one pod -/

namespace GenericPLEG

/-- The snapshots of a pod that were reconciled. -/
def snapshots (g : GenericPLEG) (pid : JsString) : List (Option Pod) :=
  (g.reconciled.filter (·.1 = pid)).map (·.2)

/-- The states of a container in them. -/
def statesOf (g : GenericPLEG) (pid cid : JsString) : List PlegContainerState :=
  (g.snapshots pid).map (getContainerState · cid)

/-- The record of the pod is at the last snapshot that was reconciled, and
the events tell the transitions up to it. -/
structure Tracked (g : GenericPLEG) (pid : JsString) : Prop where
  ids : ∀ record, g.podRecords.get pid = some record → OfPod pid record.old ∧ OfPod pid record.current
  old : ∀ cid, getContainerState (g.podRecords.getOld pid) cid = lastState (g.statesOf pid cid)
  exact : ∀ cid, kindsOf pid cid g.events = transitions .nonExistent (g.statesOf pid cid)

/-- What is listed of the pod has been reconciled, unless it is to be
inspected again. -/
def CaughtUp (g : GenericPLEG) (pid : JsString) : Prop :=
  pid ∉ g.podsToReinspect.elems →
    ∀ cid, getContainerState (g.listed pid) cid = lastState (g.statesOf pid cid)

/-- There is something to report of the pod when it is gone, or it is to be
inspected. -/
def Reportable (g : GenericPLEG) (pid : JsString) : Prop :=
  (∃ p, g.podRecords.getOld pid = some p ∧ (p.containers ≠ [] ∨ p.sandboxes ≠ []))
    ∨ pid ∈ g.podsToReinspect.elems

variable {g g' : GenericPLEG} {pid : JsString}

theorem Tracked.ofOld (h : g.Tracked pid) : OfPod pid (g.podRecords.getOld pid) := by
  intro p hp
  obtain ⟨record, hrecord, hold⟩ := Option.bind_eq_some_iff.mp hp
  exact (h.ids record hrecord).1 p hold

theorem Tracked.ofCurrent (h : g.Tracked pid) : OfPod pid (g.podRecords.getCurrent pid) := by
  intro p hp
  obtain ⟨record, hrecord, hcurrent⟩ := Option.bind_eq_some_iff.mp hp
  exact (h.ids record hrecord).2 p hcurrent

/-- The pod's part of the state is what it was, but that it may have to be
inspected again. -/
structure Same (g g' : GenericPLEG) (pid : JsString) : Prop where
  record : g'.podRecords.get pid = g.podRecords.get pid
  events : ∀ cid, kindsOf pid cid g'.events = kindsOf pid cid g.events
  snapshots : g'.snapshots pid = g.snapshots pid
  listed : g'.listed pid = g.listed pid
  reinspect : pid ∈ g.podsToReinspect.elems → pid ∈ g'.podsToReinspect.elems

theorem Same.statesOf (h : Same g g' pid) (cid : JsString) : g'.statesOf pid cid = g.statesOf pid cid := by
  rw [GenericPLEG.statesOf, h.snapshots, GenericPLEG.statesOf]

theorem Same.getOld (h : Same g g' pid) : g'.podRecords.getOld pid = g.podRecords.getOld pid := by
  rw [PodRecords.getOld, h.record, PodRecords.getOld]

theorem Same.getCurrent (h : Same g g' pid) :
    g'.podRecords.getCurrent pid = g.podRecords.getCurrent pid := by
  rw [PodRecords.getCurrent, h.record, PodRecords.getCurrent]

theorem Same.refl (g : GenericPLEG) (pid : JsString) : Same g g pid :=
  ⟨rfl, fun _ => rfl, rfl, rfl, id⟩

theorem Same.trans {g'' : GenericPLEG} (h : Same g g' pid) (h' : Same g' g'' pid) : Same g g'' pid where
  record := h'.record.trans h.record
  events cid := (h'.events cid).trans (h.events cid)
  snapshots := h'.snapshots.trans h.snapshots
  listed := h'.listed.trans h.listed
  reinspect hmem := h'.reinspect (h.reinspect hmem)

theorem Tracked.same (h : g.Tracked pid) (hsame : Same g g' pid) : g'.Tracked pid where
  ids record hrecord := h.ids record (hsame.record ▸ hrecord)
  old cid := by rw [hsame.getOld, hsame.statesOf, h.old]
  exact cid := by rw [hsame.events, hsame.statesOf, h.exact]

theorem Same.caughtUp (hsame : Same g g' pid) (h : g.CaughtUp pid) : g'.CaughtUp pid := by
  intro hmem cid
  rw [hsame.listed, hsame.statesOf]
  exact h (fun hold => hmem (hsame.reinspect hold)) cid

theorem Same.reportable (hsame : Same g g' pid) (h : g.Reportable pid) : g'.Reportable pid := by
  rcases h with ⟨p, hp, hsome⟩ | hmem
  · exact .inl ⟨p, hsame.getOld.trans hp, hsome⟩
  · exact .inr (hsame.reinspect hmem)

/-! ## One reconciliation -/

theorem same_requestReinspect (g : GenericPLEG) (podUID pid : JsString) :
    Same g (g.requestReinspect podUID) pid where
  record := rfl
  events _ := rfl
  snapshots := rfl
  listed := rfl
  reinspect hmem := JsSet.mem_add.mpr (.inr hmem)

theorem same_requests (requests : List JsString) (pid : JsString) :
    ∀ g : GenericPLEG, Same g (requests.foldl requestReinspect g) pid := by
  induction requests with
  | nil => exact fun g => .refl g pid
  | cons podUID requests ih => exact fun g => (same_requestReinspect g podUID pid).trans (ih _)

theorem mem_computeEvents_id {oldPod pod : Option Pod} (hold : OfPod pid oldPod)
    (hpod : OfPod pid pod) {event : PodLifecycleEvent} (h : event ∈ podEvents oldPod pod) :
    event.id = pid := by
  obtain ⟨c, hc, hevent⟩ := List.mem_flatMap.mp h
  have hsome := ((ids_getContainersFromPods oldPod pod).2 c.id).mp (List.mem_map_of_mem hc)
  rw [computeEvents_eq hold hpod hsome] at hevent
  exact (mem_generateEvents hevent).1

theorem kindsOf_eq_nil {cid : JsString} {events : List PodLifecycleEvent}
    (h : ∀ event ∈ events, event.id ≠ pid) : kindsOf pid cid events = [] := by
  rw [kindsOf, List.map_eq_nil_iff, List.filter_eq_nil_iff]
  intro event hevent
  simp [h event hevent]

/-- The events that are sent for a pod, `podSync` where there are none. -/
def eventsFor (pid : JsString) (events : List PodLifecycleEvent) : List PodLifecycleEvent :=
  if events.length = 0 then [{ id := pid, type := .podSync }] else events

theorem kindsOf_eventsFor (pid cid : JsString) (events : List PodLifecycleEvent) :
    kindsOf pid cid (sent (eventsFor pid events)) = kindsOf pid cid (sent events) := by
  rw [eventsFor]
  split
  · rename_i hnil
    rw [List.eq_nil_of_length_eq_zero hnil]
    simp [kindsOf, sent]
  · rfl

theorem snapshots_reconciled (g : GenericPLEG) (pid pid' : JsString) (pod : Option Pod) :
    ({ g with reconciled := g.reconciled ++ [(pid, pod)] } : GenericPLEG).snapshots pid'
      = if pid' = pid then g.snapshots pid' ++ [pod] else g.snapshots pid' := by
  by_cases h : pid' = pid
  · subst h
    simp [snapshots]
  · have hne : pid ≠ pid' := fun heq => h heq.symm
    simp [snapshots, h, hne]

/-- The three ways of a reconciliation: nothing to do, an inspection that
fails, and one that is reported. -/
theorem reconcilePodRecord_cases (g : GenericPLEG) (fails : Bool) (pid : JsString) :
    (podEvents (g.podRecords.getOld pid) (g.podRecords.getCurrent pid) = []
        ∧ pid ∉ g.podsToReinspect.elems
        ∧ g.reconcilePodRecord fails pid = { g with
          podsToReinspect := g.podsToReinspect.delete pid
          reconciled := g.reconciled ++ [(pid, g.podRecords.getCurrent pid)] })
      ∨ ((g.podRecords.getCurrent pid).isSome
        ∧ g.reconcilePodRecord fails pid
          = { g with podsToReinspect := (g.podsToReinspect.delete pid).add pid })
      ∨ g.reconcilePodRecord fails pid = { g with
          podsToReinspect := g.podsToReinspect.delete pid
          podRecords := g.podRecords.update pid
          events := g.events ++ sent (eventsFor pid
            (podEvents (g.podRecords.getOld pid) (g.podRecords.getCurrent pid)))
          reconciled := g.reconciled ++ [(pid, g.podRecords.getCurrent pid)] } := by
  rw [reconcilePodRecord]
  split
  · rename_i hquiet
    have hnot : pid ∉ g.podsToReinspect.elems := fun hmem =>
      Bool.false_ne_true (hquiet.2.symm.trans (List.contains_iff_mem.mpr hmem))
    exact .inl ⟨List.eq_nil_of_length_eq_zero hquiet.1, hnot, rfl⟩
  · split
    · rename_i hfails
      exact .inr (.inl ⟨hfails.1, rfl⟩)
    · exact .inr (.inr rfl)

/-- The other pods are left alone. -/
theorem same_reconcilePodRecord (fails : Bool) (h : g.Tracked pid) {pid' : JsString}
    (hne : pid' ≠ pid) : Same g (g.reconcilePodRecord fails pid) pid' := by
  have hdelete : ∀ {k}, k ∈ g.podsToReinspect.elems → k ≠ pid →
      k ∈ (g.podsToReinspect.delete pid).elems := fun hmem hk => JsSet.mem_delete.mpr ⟨hk, hmem⟩
  rcases reconcilePodRecord_cases g fails pid with ⟨-, -, heq⟩ | ⟨-, heq⟩ | heq
  · rw [heq]
    exact ⟨rfl, fun _ => rfl, (snapshots_reconciled _ pid pid' _).trans (if_neg hne), rfl,
      fun hmem => hdelete hmem hne⟩
  · rw [heq]
    exact ⟨rfl, fun _ => rfl, rfl, rfl, fun hmem => JsSet.mem_add.mpr (.inr (hdelete hmem hne))⟩
  · rw [heq]
    refine ⟨?_, fun cid => ?_, (snapshots_reconciled _ pid pid' _).trans (if_neg hne), rfl,
      fun hmem => hdelete hmem hne⟩
    · show (g.podRecords.update pid).get pid' = g.podRecords.get pid'
      rw [PodRecords.get_update, if_neg hne]
    · show kindsOf pid' cid (g.events ++ _) = kindsOf pid' cid g.events
      have hnone : kindsOf pid' cid (sent (eventsFor pid
          (podEvents (g.podRecords.getOld pid) (g.podRecords.getCurrent pid)))) = [] := by
        refine kindsOf_eq_nil fun event hevent => ?_
        have hevent := (List.mem_filter.mp hevent).1
        rw [eventsFor] at hevent
        split at hevent
        · rw [List.mem_singleton.mp hevent]
          exact hne.symm
        · rw [mem_computeEvents_id h.ofOld h.ofCurrent hevent]
          exact hne.symm
      rw [kindsOf_append, hnone, List.append_nil]

/-- What is kept of a pod: it is tracked, what is listed of it has been
reconciled, and there is no record of a pod that is gone. -/
structure Kept (g : GenericPLEG) (pid : JsString) : Prop where
  tracked : g.Tracked pid
  caughtUp : g.CaughtUp pid
  gone : g.listed pid = none → g.podRecords.get pid = none

theorem Kept.same (h : g.Kept pid) (hsame : Same g g' pid) : g'.Kept pid where
  tracked := h.tracked.same hsame
  caughtUp := hsame.caughtUp h.caughtUp
  gone hlisted := hsame.record.trans (h.gone (hsame.listed.symm.trans hlisted))

/-- What is needed of a pod that is to be reconciled: its record is at what is
listed. -/
structure Pending (g : GenericPLEG) (pid : JsString) : Prop where
  tracked : g.Tracked pid
  current : g.podRecords.getCurrent pid = g.listed pid

theorem Pending.same (h : g.Pending pid) (hsame : Same g g' pid) : g'.Pending pid where
  tracked := h.tracked.same hsame
  current := by rw [hsame.getCurrent, hsame.listed, h.current]

theorem statesOf_reconciled (cid : JsString) {pod : Option Pod}
    (h : g'.snapshots pid = g.snapshots pid ++ [pod]) :
    g'.statesOf pid cid = g.statesOf pid cid ++ [getContainerState pod cid] := by
  rw [GenericPLEG.statesOf, h, List.map_append, List.map_singleton, GenericPLEG.statesOf]

theorem transitions_statesOf (cid : JsString) {pod : Option Pod} (h : g.Tracked pid)
    (hsnapshots : g'.snapshots pid = g.snapshots pid ++ [pod]) :
    transitions .nonExistent (g'.statesOf pid cid) = transitions .nonExistent (g.statesOf pid cid)
      ++ transition (getContainerState (g.podRecords.getOld pid) cid) (getContainerState pod cid) := by
  rw [statesOf_reconciled cid hsnapshots, transitions_append_singleton, h.old cid, lastState]

theorem transition_self (state : PlegContainerState) : transition state state = [] := by
  cases state <;> rfl

/-- A pending pod is kept once it has been reconciled, where there is
something to report when it is gone. -/
theorem Pending.reconcilePodRecord (h : g.Pending pid)
    (hreport : g.listed pid = none → g.Reportable pid) (fails : Bool) :
    (g.reconcilePodRecord fails pid).Kept pid := by
  have hdeleted : pid ∉ (g.podsToReinspect.delete pid).elems := fun hmem =>
    (JsSet.mem_delete.mp hmem).1 rfl
  rcases reconcilePodRecord_cases g fails pid with ⟨hnil, hnot, heq⟩ | ⟨hsome, heq⟩ | heq
  · -- nothing has changed: the last state is that of the record
    have hsnapshots : (g.reconcilePodRecord fails pid).snapshots pid
        = g.snapshots pid ++ [g.podRecords.getCurrent pid] := by
      rw [heq]
      exact (snapshots_reconciled _ pid pid _).trans (if_pos rfl)
    refine ⟨⟨?_, fun cid => ?_, fun cid => ?_⟩, fun _ cid => ?_, fun hlisted => ?_⟩
    · rw [heq]
      exact h.tracked.ids
    · rw [statesOf_reconciled cid hsnapshots, lastState_append_singleton, podEvents_eq_nil hnil, heq]
    · rw [transitions_statesOf cid h.tracked hsnapshots, podEvents_eq_nil hnil, transition_self,
        List.append_nil, ← h.tracked.exact cid, heq]
    · rw [statesOf_reconciled cid hsnapshots, lastState_append_singleton, heq, h.current]
    · rw [heq] at hlisted
      rw [h.current, hlisted] at hnil
      rcases hreport hlisted with ⟨p, hp, hevents⟩ | hmem
      · rw [hp] at hnil
        exact absurd hnil (podEvents_ne_nil_of_gone hevents)
      · exact absurd hmem hnot
  · -- the inspection has failed: the pod is to be inspected again
    have hsame : Same g (g.reconcilePodRecord fails pid) pid := by
      rw [heq]
      exact ⟨rfl, fun _ => rfl, rfl, rfl, fun _ => JsSet.mem_add.mpr (.inl rfl)⟩
    refine ⟨h.tracked.same hsame, fun hmem => ?_, fun hlisted => ?_⟩
    · rw [heq] at hmem
      exact absurd (JsSet.mem_add.mpr (.inl rfl)) hmem
    · rw [h.current, ← hsame.listed, hlisted] at hsome
      cases hsome
  · -- the record is advanced with the events
    have hsnapshots : (g.reconcilePodRecord fails pid).snapshots pid
        = g.snapshots pid ++ [g.podRecords.getCurrent pid] := by
      rw [heq]
      exact (snapshots_reconciled _ pid pid _).trans (if_pos rfl)
    have hrecord : (g.reconcilePodRecord fails pid).podRecords.get pid
        = (g.podRecords.getCurrent pid).map fun current => { old := some current } := by
      rw [heq]
      exact (PodRecords.get_update _ pid pid).trans (if_pos rfl)
    have hold : (g.reconcilePodRecord fails pid).podRecords.getOld pid
        = g.podRecords.getCurrent pid := by
      rw [PodRecords.getOld, hrecord]
      cases g.podRecords.getCurrent pid <;> rfl
    refine ⟨⟨fun record hget => ?_, fun cid => ?_, fun cid => ?_⟩, fun _ cid => ?_, fun hlisted => ?_⟩
    · obtain ⟨p, hp, rfl⟩ := Option.map_eq_some_iff.mp (hrecord.symm.trans hget)
      have hofPod := h.tracked.ofCurrent
      rw [hp] at hofPod
      exact ⟨hofPod, by simp [OfPod]⟩
    · rw [statesOf_reconciled cid hsnapshots, lastState_append_singleton, hold]
    · rw [transitions_statesOf cid h.tracked hsnapshots, ← h.tracked.exact cid, heq]
      show kindsOf pid cid (g.events ++ _) = _
      rw [kindsOf_append, kindsOf_eventsFor,
        kindsOf_podEvents h.tracked.ofOld h.tracked.ofCurrent]
    · rw [statesOf_reconciled cid hsnapshots, lastState_append_singleton, heq, h.current]
    · rw [heq] at hlisted
      rw [hrecord, h.current, hlisted]
      rfl

/-! ## All of them -/

/-- A reinspection of the pod is requested before it is reconciled as one of
these. -/
def Requested (inspections : Inspections) (pid : JsString) : List JsString → Prop
  | [] => False
  | pid' :: pids => pid ∈ inspections.requests pid' ∨ (pid' ≠ pid ∧ Requested inspections pid pids)

theorem mem_requests (requests : List JsString) :
    ∀ {g : GenericPLEG}, pid ∈ requests →
      pid ∈ (requests.foldl requestReinspect g).podsToReinspect.elems := by
  induction requests with
  | nil => exact fun hmem => absurd hmem List.not_mem_nil
  | cons podUID requests ih =>
    intro g hmem
    rcases List.mem_cons.mp hmem with rfl | hmem
    · exact (same_requests requests pid _).reinspect (JsSet.mem_add.mpr (.inl rfl))
    · exact ih hmem

/-- By induction on the pods that are to be reconciled. -/
theorem reconcileAll_kept (inspections : Inspections) (pids : List JsString) :
    ∀ {g : GenericPLEG}, pids.Nodup → (∀ pid ∈ pids, g.Pending pid) →
      (∀ pid ∈ pids, g.listed pid = none → g.Reportable pid ∨ Requested inspections pid pids) →
      (∀ pid, pid ∉ pids → g.Kept pid) → ∀ pid, (g.reconcileAll inspections pids).Kept pid := by
  induction pids with
  | nil => exact fun _ _ _ hkept pid => hkept pid List.not_mem_nil
  | cons pid pids ih =>
    intro g hnodup hpending hreport hkept
    obtain ⟨hnot, hnodup⟩ := List.nodup_cons.mp hnodup
    let requested := (inspections.requests pid).foldl requestReinspect g
    have hrequested : ∀ pid', Same g requested pid' := fun pid' => same_requests _ pid' g
    have hhead : requested.Pending pid := (hpending pid List.mem_cons_self).same (hrequested pid)
    have hheadReport : requested.listed pid = none → requested.Reportable pid := by
      intro hlisted
      have hlisted := (hrequested pid).listed.symm.trans hlisted
      rcases hreport pid List.mem_cons_self hlisted with h | h | h
      · exact (hrequested pid).reportable h
      · exact .inr (mem_requests _ h)
      · exact absurd rfl h.1
    have hother : ∀ {pid'}, pid' ≠ pid →
        Same g (requested.reconcilePodRecord (inspections.fails pid) pid) pid' := fun hne =>
      (hrequested _).trans (same_reconcilePodRecord _ hhead.tracked hne)
    have hne : ∀ pid' ∈ pids, pid' ≠ pid := fun pid' hmem heq => hnot (heq ▸ hmem)
    show ∀ pid', ((requested.reconcilePodRecord (inspections.fails pid) pid).reconcileAll
      inspections pids).Kept pid'
    refine ih hnodup (fun pid' hmem => ?_) (fun pid' hmem hlisted => ?_) fun pid' hmem => ?_
    · exact (hpending pid' (List.mem_cons_of_mem _ hmem)).same (hother (hne pid' hmem))
    · have hsame := same_reconcilePodRecord (inspections.fails pid) hhead.tracked
        (hne pid' hmem)
      have hlisted := (hother (hne pid' hmem)).listed.symm.trans hlisted
      rcases hreport pid' (List.mem_cons_of_mem _ hmem) hlisted with h | h | h
      · exact .inl ((hother (hne pid' hmem)).reportable h)
      · exact .inl (hsame.reportable (.inr (mem_requests _ h)))
      · exact .inr h.2
    · by_cases hpid : pid' = pid
      · rw [hpid]
        exact hhead.reconcilePodRecord hheadReport _
      · have hnotMem : pid' ∉ pid :: pids := by
          rw [List.mem_cons, not_or]
          exact ⟨hpid, hmem⟩
        exact (hkept pid' hnotMem).same (hother hpid)

/-! ## Runs -/

inductive Label where
  | requestReinspect (podUID : JsString)
  /-- `none` where the pods could not be listed. -/
  | relist (podList : Option (List Pod)) (inspections : Inspections)
  /-- `none` where the pod could not be looked up. -/
  | relistPod (podUID : JsString) (pod : Option (Option Pod)) (inspections : Inspections)

/-- A pod that is looked up by its id has that id. -/
def Label.Valid : Label → Prop
  | .relistPod podUID (some pod) _ => OfPod podUID pod
  | _ => True

def apply (g : GenericPLEG) : Label → GenericPLEG
  | .requestReinspect podUID => g.requestReinspect podUID
  | .relist none _ => g
  | .relist (some podList) inspections => g.relist podList inspections
  | .relistPod _ none _ => g
  | .relistPod podUID (some pod) inspections => g.relistPod podUID pod inspections

/-- The generator from its start, the relists one at a time. -/
def plegs : System GenericPLEG Label where
  init g := g = {}
  step g l g' := l.Valid ∧ g' = g.apply l

/-- Where a pod is found gone, there is something to report of it, or a
reinspection is requested in time. -/
def ReportsGone (g : GenericPLEG) : Label → Prop
  | .relist (some podList) inspections =>
    ∀ pid ∈ g.podRecords.keys, podList.reverse.find? (·.id = pid) = none →
      g.Reportable pid ∨ Requested inspections pid (g.podRecords.setCurrent podList).keys
  | .relistPod podUID (some none) inspections =>
    g.Reportable podUID ∨ Requested inspections podUID [podUID]
  | _ => True

theorem ofPod_find? (podList : List Pod) (pid : JsString) :
    OfPod pid (podList.reverse.find? (·.id = pid)) := by
  intro p hp
  have hid := List.find?_some hp
  exact of_decide_eq_true hid

/-- The records once the pods have been listed: they wait to be reconciled,
and there are none of the pods that are gone already. -/
theorem relist_kept (h : ∀ pid, g.Kept pid) (podList : List Pod) (inspections : Inspections)
    (hguard : g.ReportsGone (.relist (some podList) inspections)) (pid : JsString) :
    (g.relist podList inspections).Kept pid := by
  have hget := PodRecords.get_setCurrent podList g.podRecords
  have hold : ∀ pid, (g.podRecords.setCurrent podList).getOld pid = g.podRecords.getOld pid := by
    intro pid
    rw [PodRecords.getOld, hget, PodRecords.getOld]
    split
    · rfl
    · cases g.podRecords.get pid <;> rfl
  have hcurrent : ∀ pid, (g.podRecords.setCurrent podList).getCurrent pid
      = podList.reverse.find? (·.id = pid) := by
    intro pid
    rw [PodRecords.getCurrent, hget]
    split
    · rename_i hfind
      rw [hfind]
      rfl
    · rename_i hfind
      rw [hfind]
      cases g.podRecords.get pid <;> rfl
  have htracked : ∀ pid, GenericPLEG.Tracked { g with
      podRecords := g.podRecords.setCurrent podList
      listed := fun pid => podList.reverse.find? (·.id = pid) } pid := by
    intro pid
    refine ⟨fun record hrecord => ?_, fun cid => ?_, (h pid).tracked.exact⟩
    · have hrecordOld : record.old = g.podRecords.getOld pid := by
        rw [← hold pid, PodRecords.getOld, hrecord]
        rfl
      have hrecordCurrent : record.current = podList.reverse.find? (·.id = pid) := by
        rw [← hcurrent pid, PodRecords.getCurrent, hrecord]
        rfl
      rw [hrecordOld, hrecordCurrent]
      exact ⟨(h pid).tracked.ofOld, ofPod_find? podList pid⟩
    · exact (congrArg (getContainerState · cid) (hold pid)).trans ((h pid).tracked.old cid)
  refine reconcileAll_kept inspections _ (JsMap.nodup_keys _)
    (fun pid _ => ⟨htracked pid, hcurrent pid⟩) (fun pid hmem hlisted => ?_) (fun pid hmem => ?_) pid
  · obtain ⟨record, hrecord⟩ := JsMap.mem_keys_iff.mp hmem
    have hrecorded : pid ∈ g.podRecords.keys := by
      have hlisted : podList.reverse.find? (·.id = pid) = none := hlisted
      rw [hget, hlisted] at hrecord
      obtain ⟨record', hrecord', -⟩ := Option.map_eq_some_iff.mp hrecord
      exact JsMap.mem_keys_iff.mpr ⟨record', hrecord'⟩
    rcases hguard pid hrecorded hlisted with (⟨p, hp, hsome⟩ | hreinspect) | hrequested
    · exact .inl (.inl ⟨p, (hold pid).trans hp, hsome⟩)
    · exact .inl (.inr hreinspect)
    · exact .inr hrequested
  · have hnone : (g.podRecords.setCurrent podList).get pid = none := JsMap.get_eq_none_iff.mpr hmem
    have hgone : podList.reverse.find? (·.id = pid) = none := by
      rw [← hcurrent pid, PodRecords.getCurrent, hnone]
      rfl
    refine ⟨htracked pid, fun _ cid => ?_, fun _ => hnone⟩
    show getContainerState (podList.reverse.find? (·.id = pid)) cid = _
    rw [← (htracked pid).old cid, PodRecords.getOld, hnone, hgone]
    rfl

theorem relistPod_kept (h : ∀ pid, g.Kept pid) {podUID : JsString} {pod : Option Pod}
    (inspections : Inspections) (hpod : OfPod podUID pod)
    (hguard : pod = none → g.Reportable podUID ∨ Requested inspections podUID [podUID])
    (pid : JsString) :
    (g.relistPod podUID pod inspections).Kept pid := by
  have hget := PodRecords.get_setCurrentPod g.podRecords podUID
  have hold : (g.podRecords.setCurrentPod podUID pod).getOld podUID
      = g.podRecords.getOld podUID := by
    rw [PodRecords.getOld, hget, if_pos rfl]
    rfl
  refine reconcileAll_kept inspections [podUID] (List.nodup_singleton _) (fun pid hmem => ?_)
    (fun pid hmem hlisted => ?_) (fun pid hmem => ?_) pid
  · obtain rfl := List.mem_singleton.mp hmem
    have hrecord : (g.podRecords.setCurrentPod pid pod).get pid
        = some { old := g.podRecords.getOld pid, current := pod } := by
      rw [hget, if_pos rfl]
    refine ⟨⟨fun record hrecord' => ?_, fun cid => ?_, (h pid).tracked.exact⟩, ?_⟩
    · obtain rfl := Option.some_inj.mp (hrecord.symm.trans hrecord')
      exact ⟨(h pid).tracked.ofOld, hpod⟩
    · exact (congrArg (getContainerState · cid) hold).trans ((h pid).tracked.old cid)
    · show (g.podRecords.setCurrentPod pid pod).getCurrent pid = if pid = pid then pod else _
      rw [PodRecords.getCurrent, hrecord, if_pos rfl]
      rfl
  · obtain rfl := List.mem_singleton.mp hmem
    have hnone : pod = none := (if_pos rfl).symm.trans hlisted
    rcases hguard hnone with (⟨p, hp, hsome⟩ | hreinspect) | hrequested
    · exact .inl (.inl ⟨p, hold.trans hp, hsome⟩)
    · exact .inl (.inr hreinspect)
    · exact .inr hrequested
  · have hne : pid ≠ podUID := fun heq => hmem (heq ▸ List.mem_singleton_self _)
    have hsame : Same g { g with
        podRecords := g.podRecords.setCurrentPod podUID pod
        listed := fun pid => if pid = podUID then pod else g.listed pid } pid :=
      ⟨(hget pid pod).trans (if_neg hne), fun _ => rfl, rfl, if_neg hne, fun hmem => hmem⟩
    exact (h pid).same hsame

theorem kept_of_reach (h : (plegs.guarded ReportsGone).Reach g) : ∀ pid, g.Kept pid := by
  refine h.invariant (P := fun g => ∀ pid, g.Kept pid) ?_ ?_
  · rintro g rfl pid
    refine ⟨⟨fun record hrecord => ?_, fun _ => rfl, fun _ => rfl⟩, fun _ _ => rfl, fun _ => rfl⟩
    cases hrecord
  · intro g l g' _ hkept hstep pid
    obtain ⟨⟨hvalid, rfl⟩, hguard⟩ := hstep
    cases l with
    | requestReinspect podUID => exact (hkept pid).same (same_requestReinspect g podUID pid)
    | relist podList inspections =>
      cases podList with
      | none => exact hkept pid
      | some podList => exact relist_kept hkept podList inspections hguard pid
    | relistPod podUID pod inspections =>
      cases pod with
      | none => exact hkept pid
      | some pod =>
        refine relistPod_kept hkept inspections hvalid (fun hnone => ?_) pid
        subst hnone
        exact hguard

/-- While there is something to report of every pod that is found gone, the
events of each container are the transitions between the snapshots that were
reconciled; replaying them gives the last state that is known, a removal
comes right after a death, what was listed last has been reconciled unless
the pod is to be inspected again, and there is no record of a pod that is
gone. -/
theorem reported_of_reach (h : (plegs.guarded ReportsGone).Reach g) (pid cid : JsString) :
    kindsOf pid cid g.events = transitions .nonExistent (g.statesOf pid cid)
      ∧ replayFrom .nonExistent (kindsOf pid cid g.events)
        = knownFrom .nonExistent (g.statesOf pid cid)
      ∧ DiedFirst (kindsOf pid cid g.events)
      ∧ (pid ∉ g.podsToReinspect.elems →
        getContainerState (g.listed pid) cid = lastState (g.statesOf pid cid))
      ∧ (g.listed pid = none → g.podRecords.get pid = none) := by
  have hkept := kept_of_reach h pid
  refine ⟨hkept.tracked.exact cid, ?_, ?_, fun hmem => hkept.caughtUp hmem cid, hkept.gone⟩
  · rw [hkept.tracked.exact cid]
    exact replayFrom_transitions _ fun _ => rfl
  · rw [hkept.tracked.exact cid]
    have hnil : DiedFirst [] := by
      intro before after heq
      cases before <;> cases heq
    exact diedFirst_transitions _ hnil (by simp)

def quiet : Inspections := ⟨fun _ => [], fun _ => false⟩

/-- A pod with a container that runs. -/
def running : Pod := ⟨js "uid", [⟨js "c", .running⟩], []⟩

theorem reported_started :
    kindsOf (js "uid") (js "c") (({} : GenericPLEG).relist [running] quiet).events
      = transitions .nonExistent
        ((({} : GenericPLEG).relist [running] quiet).statesOf (js "uid") (js "c")) := by
  have hstart : (plegs.guarded ReportsGone).Reach {} := .start rfl
  have hstep : (plegs.guarded ReportsGone).step {} (.relist (some [running]) quiet)
      (({} : GenericPLEG).relist [running] quiet) :=
    ⟨⟨trivial, rfl⟩, fun pid hmem => absurd hmem List.not_mem_nil⟩
  exact (reported_of_reach (hstart.step hstep) (js "uid") (js "c")).1

/-- The container of a pod is removed, then the pod: its record is kept, for
there is nothing left to report of it. -/
theorem record_of_gone : ∃ g, plegs.Reach g ∧ g.listed (js "uid") = none
    ∧ kindsOf (js "uid") (js "c") g.events = [.containerStarted, .containerDied, .containerRemoved]
    ∧ g.podsToReinspect.elems = [] ∧ g.podRecords.get (js "uid") ≠ none := by
  have hstep : ∀ {g : GenericPLEG}, plegs.Reach g → ∀ podList, plegs.Reach (g.relist podList quiet) :=
    fun hreach podList => hreach.step (l := .relist (some podList) quiet) ⟨trivial, rfl⟩
  have hstart : plegs.Reach {} := .start rfl
  have hgone := hstep (hstep (hstep hstart [running]) [⟨js "uid", [], []⟩]) []
  exact ⟨_, hgone, by decide, by decide, by decide, by decide⟩

end GenericPLEG

end Webernetes.Kubelet
