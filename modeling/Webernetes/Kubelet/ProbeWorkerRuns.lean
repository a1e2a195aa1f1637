/-
Webernetes.Kubelet.ProbeWorkerRuns — what a probe worker publishes, in every run.

`Inv.run` compares the run that the worker counts with the outcomes of the
instance; it says nothing of an instance without outcomes, whose first one may
go on with an earlier run. Each write to the results is one event
(`inv_remove`, `inv_meet`, `inv_write`, `inv_judge`).
-/
import Webernetes.Kubelet.ProbeWorker

namespace Webernetes.Kubelet.Prober

open Js Base Api
open Kubelet (ContainerID parseContainerID)
open Kuberuntime (ProberResult ResultsManager)

variable {T O : Type}

/-! ## The log by its last event -/

section Snoc

variable (log : List ProbeEvent) (id : ContainerID) (result : ProberResult)

theorem current_snoc (event : ProbeEvent) : current (log ++ [event]) =
    match event with
    | .initialised id _ => some id
    | _ => current log := by
  cases event <;> exact List.foldl_append

theorem outcomes_snoc (event : ProbeEvent) : outcomes (log ++ [event]) =
    match event with
    | .initialised _ _ => []
    | .probed _ result => result :: outcomes log
    | _ => outcomes log := by
  cases event <;> exact List.foldl_append

theorem held_snoc (config : ProbeConfig) (event : ProbeEvent) : held config (log ++ [event]) =
    match event with
    | .initialised _ _ => false
    | .published _ result => held config log || config.holds result
    | _ => held config log := by
  cases event <;> exact List.foldl_append

theorem resultOf_snoc (key : JsString) (event : ProbeEvent) : resultOf key (log ++ [event]) =
    if event.id.toString = key then
      match event with
      | .removed _ => none
      | .initialised _ result => some result
      | .stopped _ => some .failure
      | .deleted _ => some .success
      | .probed _ _ => resultOf key log
      | .published _ result => some result
    else resultOf key log := by
  cases event <;> exact List.foldl_append

/-- The instance began with an event of the log. -/
theorem exists_of_current {log : List ProbeEvent} {id : ContainerID} (h : current log = some id) :
    ∃ event ∈ log, event.id = id := by
  induction log using List.reverseRecOn with
  | nil => cases h
  | append_singleton log event ih =>
    rw [current_snoc] at h
    have hold : current log = some id → ∃ event' ∈ log ++ [event], event'.id = id := by
      intro h
      obtain ⟨event', hmem, hid⟩ := ih h
      exact ⟨event', List.mem_append_left _ hmem, hid⟩
    cases event with
    | initialised id' result =>
      cases h
      exact ⟨_, List.mem_append_right _ (List.mem_singleton_self _), rfl⟩
    | removed _ => exact hold h
    | stopped _ => exact hold h
    | deleted _ => exact hold h
    | probed _ _ => exact hold h
    | published _ _ => exact hold h

end Snoc

/-! ## The invariant -/

variable {config : ProbeConfig} {s : ProbeRun}

/-- One outcome is enough to publish it. -/
def Prompt (config : ProbeConfig) (result : ProberResult) : Prop :=
  ∀ threshold, config.threshold result = some threshold → threshold ≤ 1

structure Inv (config : ProbeConfig) (s : ProbeRun) : Prop where
  id : current s.log = s.containerId
  run : outcomes s.log ≠ [] → ∀ result, s.lastResult = some result →
    s.resultRun ≤ streak result s.log ∨ Prompt config result
  hold : held config s.log = true → s.onHold = true
  results : ∀ event ∈ s.log, s.results.get event.id = resultOf event.id.toString s.log
  lawful : Throughout (Proper config) s.log

theorem inv_initial (results : ResultsManager) : Inv config { results } where
  id := rfl
  run h := absurd rfl h
  hold h := by cases h
  results _ h := by cases h
  lawful := Throughout.nil

/-- The results after an event, where they were as the log tells before it. -/
theorem results_snoc {results results' : ResultsManager} {log : List ProbeEvent} {event : ProbeEvent}
    (h : ∀ event ∈ log, results.get event.id = resultOf event.id.toString log)
    (hself : results'.get event.id = resultOf event.id.toString (log ++ [event]))
    (hother : ∀ id : ContainerID, id.toString ≠ event.id.toString → results'.get id = results.get id) :
    ∀ event' ∈ log ++ [event], results'.get event'.id = resultOf event'.id.toString (log ++ [event]) := by
  intro event' hmem
  by_cases hkey : event'.id.toString = event.id.toString
  · rw [ResultsManager.get, hkey, ← ResultsManager.get, hself]
  · have hold : event' ∈ log := by
      rcases List.mem_append.mp hmem with hmem | hmem
      · exact hmem
      · rw [List.mem_singleton.mp hmem] at hkey
        exact absurd rfl hkey
    rw [hother _ hkey, h event' hold, resultOf_snoc, if_neg (Ne.symm hkey)]

theorem inv_remove (h : Inv config s) {id : ContainerID} (hid : s.containerId = some id) :
    Inv config (s.remove id) where
  id := (current_snoc _ _).trans h.id
  run houtcomes result hlast := by
    have hsame : outcomes (s.remove id).log = outcomes s.log := outcomes_snoc _ _
    rw [streak, hsame]
    exact h.run (hsame ▸ houtcomes) result hlast
  hold hheld := h.hold ((held_snoc _ _ _).symm.trans hheld)
  results := results_snoc h.results
    (by rw [resultOf_snoc, if_pos rfl]; exact (ResultsManager.get_remove _ _ _).trans (if_pos rfl))
    (fun id' hne => (ResultsManager.get_remove _ _ _).trans (if_neg hne))
  lawful := h.lawful.snoc (h.id.trans hid)

/-- A result that is set without an outcome. -/
theorem inv_write (h : Inv config s) {id : ContainerID} (hid : s.containerId = some id)
    {result : ProberResult} {event : ProbeEvent}
    (hevent : event = .stopped id ∧ result = .failure ∨ event = .deleted id ∧ result = .success) :
    Inv config (s.write id result event) := by
  have hself : event.id = id := by
    rcases hevent with ⟨rfl, rfl⟩ | ⟨rfl, rfl⟩ <;> rfl
  have hcurrent : current (s.log ++ [event]) = current s.log := by
    rcases hevent with ⟨rfl, rfl⟩ | ⟨rfl, rfl⟩ <;> exact current_snoc _ _
  have houtcomes : outcomes (s.log ++ [event]) = outcomes s.log := by
    rcases hevent with ⟨rfl, rfl⟩ | ⟨rfl, rfl⟩ <;> exact outcomes_snoc _ _
  have hheld : held config (s.log ++ [event]) = held config s.log := by
    rcases hevent with ⟨rfl, rfl⟩ | ⟨rfl, rfl⟩ <;> exact held_snoc _ _ _
  constructor
  · exact hcurrent.trans h.id
  · intro hne last hlast
    show s.resultRun ≤ streak last (s.log ++ [event]) ∨ _
    rw [streak, houtcomes]
    exact h.run (houtcomes ▸ hne) last hlast
  · exact fun hheld' => h.hold (hheld.symm.trans hheld')
  · refine results_snoc h.results ?_ fun id' hne => ?_
    · rw [hself]
      refine (ResultsManager.get_set _ _ _ _).trans ((if_pos rfl).trans ?_)
      rcases hevent with ⟨rfl, rfl⟩ | ⟨rfl, rfl⟩ <;> simp [resultOf_snoc, ProbeEvent.id]
    · exact (ResultsManager.get_set _ _ _ _).trans (if_neg (hself ▸ hne))
  · refine h.lawful.snoc ?_
    rcases hevent with ⟨rfl, rfl⟩ | ⟨rfl, rfl⟩ <;> exact h.id.trans hid

/-- The remaining parts of a container that is new. -/
theorem inv_initialise (h : Inv config s) {id : ContainerID} (hnew : s.containerId ≠ some id)
    (hremoved : ∀ old, s.containerId = some old → s.log.getLast? = some (.removed old)) :
    Inv config { s.write id config.initialValue (.initialised id config.initialValue) with
      containerId := some id
      onHold := false } where
  id := current_snoc _ _
  run houtcomes := absurd (outcomes_snoc _ _) houtcomes
  hold hheld := by
    rw [show held config _ = false from held_snoc _ _ _] at hheld
    cases hheld
  results := results_snoc h.results
    (by rw [resultOf_snoc, if_pos rfl]; exact (ResultsManager.get_set _ _ _ _).trans (if_pos rfl))
    (fun id' hne => (ResultsManager.get_set _ _ _ _).trans (if_neg hne))
  lawful := by
    refine h.lawful.snoc ⟨rfl, ?_, ?_⟩
    · rw [h.id]
      exact hnew
    · rw [h.id]
      exact hremoved

theorem inv_meet (h : Inv config s) {containerID : JsString}
    (hcanonical : (parseContainerID (some containerID)).toString = containerID) :
    Inv config (s.meet config containerID) := by
  unfold ProbeRun.meet
  split
  · exact h
  · rename_i hdiffers
    have hnew : s.containerId ≠ some (parseContainerID (some containerID)) := by
      intro heq
      rw [heq, Option.map_some, hcanonical] at hdiffers
      exact hdiffers rfl
    cases hold : s.containerId with
    | none =>
      refine inv_initialise h hnew fun old hsome => ?_
      rw [hold] at hsome
      cases hsome
    | some old =>
      refine inv_initialise (inv_remove h hold) hnew fun old' hsome => ?_
      cases hold.symm.trans hsome
      exact List.getLast?_concat

/-- What `meet` leaves of the run. -/
theorem meet_spec (config : ProbeConfig) (s : ProbeRun) (containerID : JsString) :
    (s.meet config containerID).lastResult = s.lastResult ∧
      (s.meet config containerID).resultRun = s.resultRun ∧
      ((s.meet config containerID).containerId ≠ none) ∧
      (s.containerId.map ContainerID.toString = some containerID → s.meet config containerID = s) := by
  unfold ProbeRun.meet
  split
  · rename_i hsame
    refine ⟨rfl, rfl, ?_, fun _ => rfl⟩
    intro hnone
    rw [hnone] at hsame
    cases hsame
  · rename_i hdiffers
    refine ⟨?_, ?_, Option.some_ne_none _, fun hsame => absurd hsame hdiffers⟩
    · cases s.containerId <;> rfl
    · cases s.containerId <;> rfl

theorem streak_probed_self (log : List ProbeEvent) (id : ContainerID) (result : ProberResult) :
    streak result (log ++ [ProbeEvent.probed id result]) = streak result log + 1 := by
  rw [streak, outcomes_snoc, List.takeWhile_cons, if_pos (decide_eq_true rfl), List.length_cons, streak]

/-- An outcome of a worker that is not on hold. -/
theorem inv_judge (h : Inv config s) {id : ContainerID} (hid : s.containerId = some id)
    (hhold : s.onHold = false) {result : ProberResult}
    (hfresh : outcomes s.log = [] → s.lastResult = some result → s.resultRun ≠ 0 → Prompt config result) :
    Inv config (s.judge config id result) := by
  have hcurrent : current s.log = some id := h.id.trans hid
  have hheld : held config s.log = false := by
    cases hheld : held config s.log with
    | false => rfl
    | true =>
      rw [h.hold hheld] at hhold
      cases hhold
  -- The count of the worker and that of the instance, after the outcome.
  have hrun : (if s.lastResult = some result then s.resultRun + 1 else 1) ≤
      streak result (s.log ++ [ProbeEvent.probed id result]) ∨ Prompt config result := by
    rw [streak_probed_self]
    split
    · rename_i hlast
      by_cases houtcomes : outcomes s.log = []
      · by_cases hzero : s.resultRun = 0
        · exact .inl (by omega)
        · exact .inr (hfresh houtcomes hlast hzero)
      · rcases h.run houtcomes result hlast with hle | hprompt
        · exact .inl (by omega)
        · exact .inr hprompt
    · exact .inl (by omega)
  obtain ⟨event, hevent, heventId⟩ := exists_of_current hcurrent
  have hresults : ∀ event ∈ s.log ++ [ProbeEvent.probed id result],
      s.results.get event.id =
        resultOf event.id.toString (s.log ++ [ProbeEvent.probed id result]) := by
    refine results_snoc h.results ?_ fun _ _ => rfl
    rw [resultOf_snoc, if_pos rfl]
    exact heventId ▸ h.results event hevent
  have hlawful : Throughout (Proper config) (s.log ++ [ProbeEvent.probed id result]) :=
    h.lawful.snoc ⟨hcurrent, hheld⟩
  unfold ProbeRun.judge
  dsimp only
  generalize (if s.lastResult = some result then s.resultRun + 1 else 1) = count at hrun ⊢
  split
  · constructor
    · exact (current_snoc s.log (.probed id result)).trans h.id
    · intro _ last hlast
      cases hlast
      exact hrun
    · intro hheld'
      have hheld'' : held config (s.log ++ [ProbeEvent.probed id result]) = true := hheld'
      rw [held_snoc, hheld] at hheld''
      cases hheld''
    · exact hresults
    · exact hlawful
  · rename_i hthreshold
    have hpublished : Throughout (Proper config)
        ((s.log ++ [ProbeEvent.probed id result]) ++ [ProbeEvent.published id result]) := by
      refine hlawful.snoc ⟨List.getLast?_concat, fun threshold hsome => ?_⟩
      have hle : threshold ≤ count := by simpa [hsome] using hthreshold
      rcases hrun with hrun | hprompt
      · omega
      · have hone := hprompt threshold hsome
        rw [streak_probed_self]
        omega
    have hset : ∀ event ∈ (s.log ++ [ProbeEvent.probed id result]) ++ [ProbeEvent.published id result],
        (s.results.set id result).get event.id =
          resultOf event.id.toString
            ((s.log ++ [ProbeEvent.probed id result]) ++ [ProbeEvent.published id result]) :=
      results_snoc hresults
        (by rw [resultOf_snoc, if_pos rfl]; exact (ResultsManager.get_set _ _ _ _).trans (if_pos rfl))
        (fun id' hne => (ResultsManager.get_set _ _ _ _).trans (if_neg hne))
    have hcurrent' : current
        ((s.log ++ [ProbeEvent.probed id result]) ++ [ProbeEvent.published id result])
          = s.containerId :=
      (current_snoc _ _).trans ((current_snoc _ _).trans h.id)
    have houtcomes' : outcomes
        ((s.log ++ [ProbeEvent.probed id result]) ++ [ProbeEvent.published id result]) =
        outcomes (s.log ++ [ProbeEvent.probed id result]) := outcomes_snoc _ _
    have hheld' : held config
        ((s.log ++ [ProbeEvent.probed id result]) ++ [ProbeEvent.published id result]) =
        config.holds result := by
      have hprobed : held config (s.log ++ [ProbeEvent.probed id result]) = false :=
        (held_snoc _ _ _).trans hheld
      refine (held_snoc _ _ _).trans ?_
      show (held config (s.log ++ [ProbeEvent.probed id result]) || config.holds result)
        = config.holds result
      rw [hprobed, Bool.false_or]
    split
    · exact {
        id := hcurrent'
        run := fun _ _ _ => .inl (Nat.zero_le _)
        hold := fun _ => rfl
        results := hset
        lawful := hpublished }
    · rename_i hholds
      refine { id := hcurrent', run := ?_, hold := ?_, results := hset, lawful := hpublished }
      · intro _ last hlast
        cases hlast
        show _ ≤ streak result _ ∨ _
        rw [streak]
        exact houtcomes' ▸ hrun
      · intro hheld''
        exact absurd (hheld'.symm.trans hheld'') hholds

/-! ## Steps and runs -/

section Exec

variable {getTime : T → Int} {obs : Observation T O}

theorem inv_rest (h : Inv config s) {id : ContainerID} (hid : s.containerId = some id)
    (status : PodStatus T O) (c : ContainerStatus T O) : Inv config (s.rest config id status c).1 := by
  have hwritten := inv_write h hid (.inl ⟨rfl, rfl⟩)
  unfold ProbeRun.rest
  dsimp only
  split
  · exact hwritten
  · split <;> exact hwritten

theorem inv_observe (h : Inv config s) {id : ContainerID} (hid : s.containerId = some id)
    (hhold : s.onHold = false) (c : ContainerStatus T O) (running : ContainerStateRunning T)
    (hfresh : ∀ result, obs.outcome = some result → outcomes s.log = [] →
      s.lastResult = some result → s.resultRun ≠ 0 → Prompt config result) :
    Inv config (s.observe getTime config id obs c running).1 := by
  unfold ProbeRun.observe
  split
  · exact inv_write h hid (.inr ⟨rfl, rfl⟩)
  · split
    · exact h
    · exact h
    · split
      · exact h
      · split
        · exact h
        · rename_i result houtcome
          exact inv_judge h hid hhold (hfresh result houtcome)

theorem inv_doProbe (h : Inv config s) (hfresh : Fresh config s obs) :
    Inv config (s.doProbe getTime config obs).1 := by
  unfold ProbeRun.doProbe
  split
  · exact h
  · split
    · exact h
    · rename_i status hstatus
      split
      · exact h
      · split
        · exact h
        · rename_i c containerID hcontainer
          have hmet := inv_meet h (hfresh.canonical c containerID hcontainer)
          obtain ⟨hlast, hrun, hsome, hsame⟩ := meet_spec config s containerID
          obtain ⟨id, hid⟩ := Option.ne_none_iff_exists'.mp hsome
          dsimp only
          rw [hid, Option.getD_some]
          split
          · exact hmet
          · rename_i hhold
            split
            · exact inv_rest hmet hid status c
            · refine inv_observe hmet hid (Bool.eq_false_iff.mpr hhold) c _ fun result houtcome hnone hlast' hrun' => ?_
              rw [hlast] at hlast'
              rw [hrun] at hrun'
              rcases hfresh.run result houtcome hlast' hrun' with ⟨hsameId, houtcomes⟩ | hprompt
              · rw [hcontainer] at hsameId
                rw [hsame hsameId] at hnone
                exact absurd hnone houtcomes
              · exact hprompt

/-- The step gets as far as the id of the container. -/
def Reads (config : ProbeConfig) (obs : Observation T O) (containerID : JsString) : Prop :=
  obs.cancelled = false ∧
    (∀ status, obs.status = some status →
      status.phase ≠ some (js "Failed") ∧ status.phase ≠ some (js "Succeeded")) ∧
    ∃ c, obs.container config = some (c, containerID)

theorem containerId_rest (config : ProbeConfig) (s : ProbeRun) (id : ContainerID) (status : PodStatus T O)
    (c : ContainerStatus T O) : (s.rest config id status c).1.containerId = s.containerId := by
  unfold ProbeRun.rest
  dsimp only
  split
  · rfl
  · split <;> rfl

theorem containerId_observe (config : ProbeConfig) (s : ProbeRun) (id : ContainerID)
    (obs : Observation T O) (c : ContainerStatus T O) (running : ContainerStateRunning T) :
    (s.observe getTime config id obs c running).1.containerId = s.containerId := by
  unfold ProbeRun.observe
  split
  · rfl
  · split
    · rfl
    · rfl
    · split
      · rfl
      · split
        · rfl
        · unfold ProbeRun.judge
          dsimp only
          generalize (if s.lastResult = some _ then s.resultRun + 1 else 1) = count
          split
          · rfl
          · split <;> rfl

/-- The instance is then the one that was read. -/
theorem containerId_doProbe {containerID : JsString} (hreads : Reads config obs containerID)
    (hcanonical : (parseContainerID (some containerID)).toString = containerID) :
    ((s.doProbe getTime config obs).1.containerId).map ContainerID.toString = some containerID := by
  obtain ⟨hcancelled, hphase, c, hcontainer⟩ := hreads
  have hmet : ((s.meet config containerID).containerId).map ContainerID.toString = some containerID := by
    unfold ProbeRun.meet
    split
    · rename_i hsame
      exact hsame
    · exact congrArg some hcanonical
  cases hstatus : obs.status with
  | none =>
    rw [Observation.container, hstatus] at hcontainer
    cases hcontainer
  | some status =>
    obtain ⟨hfailed, hsucceeded⟩ := hphase status hstatus
    simp only [ProbeRun.doProbe, hcancelled, hstatus, hfailed, hsucceeded, hcontainer, or_self,
      Bool.false_eq_true, if_false]
    split
    · exact hmet
    · split
      · rw [containerId_rest]
        exact hmet
      · rw [containerId_observe]
        exact hmet

theorem inv_finish (h : Inv config s) : Inv config s.finish := by
  unfold ProbeRun.finish
  cases hid : s.containerId with
  | none => exact { h with }
  | some id => exact { inv_remove h hid with }

theorem inv_exec (h : Inv config s) {act : ProbeAct T O} (hallowed : s.Allowed act)
    (hfresh : FreshAct config s act) : Inv config (s.exec getTime config act) := by
  cases act with
  | doProbe obs =>
    have hprobed := @inv_doProbe _ _ _ _ getTime _ h hfresh
    simp only [ProbeRun.exec]
    split
    · rename_i s' hs
      rw [hs] at hprobed
      exact hprobed
    · rename_i s' ending hs
      rw [hs] at hprobed
      exact inv_finish hprobed
  | stop => exact inv_finish h
  | elsewhere results =>
    exact {
      id := h.id
      run := h.run
      hold := h.hold
      results := fun event hmem => (hallowed event hmem).trans (h.results event hmem)
      lawful := h.lawful }

/-- In every run whose steps are fresh, all that the worker does is proper, the
results are what its events leave of them, and an id that is read is that of the
instance from then on. -/
theorem probes_lawful
    (h : ((probeSystem (O := O) getTime config).guarded (FreshAct config)).Reach s) :
    Throughout (Proper config) s.log ∧
      (∀ event ∈ s.log, s.results.get event.id = resultOf event.id.toString s.log) ∧
      ∀ (obs : Observation T O) (containerID : JsString), Fresh config s obs →
        Reads config obs containerID → ∃ id, id.toString = containerID ∧
          current (s.doProbe getTime config obs).1.log = some id := by
  have hinv : Inv config s := by
    refine h.invariant (P := Inv config) ?_ ?_
    · rintro s ⟨results, rfl⟩
      exact inv_initial results
    · rintro s act s' - hinv ⟨⟨rfl, hallowed⟩, hfresh⟩
      exact inv_exec hinv hallowed hfresh
  refine ⟨hinv.lawful, hinv.results, fun obs containerID hfresh hreads => ?_⟩
  obtain ⟨c, hcontainer⟩ := hreads.2.2
  have hread := @containerId_doProbe _ _ config s getTime obs containerID hreads
    (hfresh.canonical c containerID hcontainer)
  obtain ⟨id, hid, hcanonical⟩ := Option.map_eq_some_iff.mp hread
  exact ⟨id, hcanonical, (inv_doProbe hinv hfresh).id.trans hid⟩

end Exec

/-! ## A run that two instances share -/

/-- A readiness probe that two failures in a row are to fail. -/
def readiness : ProbeConfig where
  probeType := .readiness
  spec := { failureThreshold := some 2 }
  container := { name := js "app" }

/-- The container runs, with the id, and has started. -/
def observation (containerID : JsString) (outcome : ProberResult) : Observation Int Unit where
  status := some {
    containerStatuses := some [{
      name := js "app"
      containerID := some containerID
      started := some true
      state := some { running := some {} } }] }
  outcome := some outcome

/-- The worker after failed probes of some container ids. -/
def failing (ids : List JsString) : ProbeRun :=
  (ids.map fun id => ProbeAct.doProbe (observation id .failure)).foldl (ProbeRun.exec id readiness) {}

theorem earlier_instance_counts : ¬ ∀ s : ProbeRun,
    (probeSystem (T := Int) (O := Unit) id readiness).Reach s → Throughout (Proper readiness) s.log := by
  intro h
  have h0 : (probeSystem (O := Unit) id readiness).Reach {} := .start ⟨⟨.empty⟩, rfl⟩
  have hunused : ({} : ProbeRun).finished = false := rfl
  have h1 : (probeSystem (O := Unit) id readiness).Reach (failing [js "docker://a"]) :=
    h0.step (l := .doProbe (observation (js "docker://a") .failure)) ⟨rfl, hunused⟩
  have halive : (failing [js "docker://a"]).finished = false := by decide
  have hlawful := h (failing [js "docker://a", js "docker://b"])
    (h1.step (l := .doProbe (observation (js "docker://b") .failure)) ⟨rfl, halive⟩)
  -- The failure of the second is published after its first probe.
  have hlog : (failing [js "docker://a", js "docker://b"]).log =
      (failing [js "docker://a", js "docker://b"]).log.dropLast ++
        [.published ⟨js "docker", js "b"⟩ .failure] := by decide
  rw [hlog] at hlawful
  have hpublished : Proper readiness (failing [js "docker://a", js "docker://b"]).log.dropLast
      (.published ⟨js "docker", js "b"⟩ .failure) := hlawful.last
  exact absurd (hpublished.2 2 rfl) (by decide)

/-- Observations of one container id, as `toString` writes it. -/
theorem fresh_observation (outcomesBefore : s.lastResult ≠ none → outcomes s.log ≠ [] ∧
    s.containerId = some ⟨js "docker", js "a"⟩) (outcome : ProberResult) :
    Fresh readiness s (observation (js "docker://a") outcome) := by
  have hcontainer : ((observation (js "docker://a") outcome).container readiness).map Prod.snd =
      some (js "docker://a") := rfl
  constructor
  · intro c containerID hsome
    rw [hsome] at hcontainer
    cases hcontainer
    decide
  · intro result _ hlast _
    obtain ⟨houtcomes, hid⟩ := outcomesBefore (by rw [hlast]; exact Option.some_ne_none _)
    refine .inl ⟨?_, houtcomes⟩
    rw [hcontainer, hid]
    rfl

/-- One instance that fails two probes. -/
theorem probes_lawful_failing :
    (failing [js "docker://a", js "docker://a"]).log.getLast? =
        some (.published ⟨js "docker", js "a"⟩ .failure) ∧
      Throughout (Proper readiness) (failing [js "docker://a", js "docker://a"]).log := by
  have h0 : ((probeSystem (T := Int) (O := Unit) id readiness).guarded (FreshAct readiness)).Reach {} :=
    .start ⟨⟨.empty⟩, rfl⟩
  have hunused : ({} : ProbeRun).finished = false := rfl
  have hfirst : Fresh readiness {} (observation (js "docker://a") .failure) :=
    fresh_observation (fun hnone => absurd rfl hnone) .failure
  have h1 : ((probeSystem (T := Int) (O := Unit) id readiness).guarded (FreshAct readiness)).Reach
      (failing [js "docker://a"]) :=
    h0.step (l := .doProbe (observation (js "docker://a") .failure)) ⟨⟨rfl, hunused⟩, hfirst⟩
  have halive : (failing [js "docker://a"]).finished = false := by decide
  have hbefore : outcomes (failing [js "docker://a"]).log ≠ [] ∧
      (failing [js "docker://a"]).containerId = some ⟨js "docker", js "a"⟩ := by decide
  have hsecond : Fresh readiness (failing [js "docker://a"]) (observation (js "docker://a") .failure) :=
    fresh_observation (fun _ => hbefore) .failure
  have h2 : ((probeSystem (T := Int) (O := Unit) id readiness).guarded (FreshAct readiness)).Reach
      (failing [js "docker://a", js "docker://a"]) :=
    h1.step (l := .doProbe (observation (js "docker://a") .failure)) ⟨⟨rfl, halive⟩, hsecond⟩
  exact ⟨by decide, (probes_lawful h2).1⟩

end Webernetes.Kubelet.Prober
