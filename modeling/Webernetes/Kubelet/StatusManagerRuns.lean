/-
Webernetes.Kubelet.StatusManagerRuns — what the updates of a cached status
keep.

Every call is one `updateStatusInternal` or none, so the laws are those of
`nextStatus` and of the check before it. A cached status is `Normal`: its
times are dates, and normalising it again changes none.
-/
import Webernetes.Base.Transition
import Webernetes.Kubelet.StatusManager

namespace Webernetes.Kubelet

open Js Api Base

variable {T O : Type} (host : Host T)

/-! ## Normal statuses -/

theorem normalizeTimeStamp_idem (time : Option (Stamp T)) :
    normalizeTimeStamp host (normalizeTimeStamp host time) = normalizeTimeStamp host time := by
  cases time with
  | none => rfl
  | some stamp =>
    cases stamp with
    | date t => rfl
    | text s => cases s <;> rfl

theorem getPodCondition_normalizeStatus (pod : Api.Pod T O) (status : PodStatus T O) (conditionType : JsString) :
    getPodCondition (normalizeStatus host pod status) conditionType
      = (getPodCondition status conditionType).map (normalizeCondition host) := by
  unfold getPodCondition getPodConditionFromList normalizeStatus
  dsimp only
  cases status.conditions with
  | none => rfl
  | some conditions =>
    show (conditions.map (normalizeCondition host)).find? _ = (conditions.find? _).map _
    rw [List.find?_map]
    rfl

/-- A container's status after it is normalised. -/
theorem mem_normalizeContainerStatuses {bytes : Nat} {statuses : List (ContainerStatus T O)}
    {status : ContainerStatus T O} (h : status ∈ normalizeContainerStatuses host bytes statuses) :
    ∃ before ∈ statuses, status.name = before.name
      ∧ status.terminated.isSome = before.terminated.isSome := by
  rw [normalizeContainerStatuses, List.mem_mergeSort] at h
  obtain ⟨before, hmem, rfl⟩ := List.mem_map.mp h
  refine ⟨before, hmem, rfl, ?_⟩
  unfold ContainerStatus.terminated normalizeContainerStatus
  cases before.state with
  | none => rfl
  | some state =>
    show (state.terminated.map (normalizeTerminated host bytes)).isSome = state.terminated.isSome
    rw [Option.isSome_map]

/-! ## Transition times -/

/-- The time that a condition is given. -/
def transitionTime (now : T) (oldStatus : PodStatus T O) (condition : PodCondition T) : Option (Stamp T) :=
  match getPodCondition oldStatus condition.type with
  | none => some (.date now)
  | some oldCondition =>
    if condition.status = oldCondition.status then oldCondition.lastTransitionTime else some (.date now)

theorem type_of_getPodCondition {status : PodStatus T O} {conditionType : JsString} {condition : PodCondition T}
    (h : getPodCondition status conditionType = some condition) : condition.type = conditionType := by
  have htype := List.find?_some h
  exact of_decide_eq_true htype

theorem getPodCondition_setCondition (lastTransitionTime : Option (Stamp T)) (status : PodStatus T O)
    (conditionType conditionType' : JsString) :
    getPodCondition { status with
        conditions := status.conditions.map (setCondition conditionType fun c => { c with lastTransitionTime }) }
        conditionType' =
      if conditionType' = conditionType then
        (getPodCondition status conditionType').map fun c => { c with lastTransitionTime }
      else getPodCondition status conditionType' := by
  unfold getPodCondition getPodConditionFromList
  cases status.conditions with
  | none =>
    show none = _
    split <;> rfl
  | some conditions =>
    exact find?_setCondition (f := fun c => { c with lastTransitionTime }) (fun _ => rfl) conditions

theorem getPodCondition_updateLastTransitionTime (now : T) (status oldStatus : PodStatus T O)
    (conditionType conditionType' : JsString) :
    getPodCondition (updateLastTransitionTime now status oldStatus conditionType) conditionType' =
      if conditionType' = conditionType then
        (getPodCondition status conditionType').map fun condition =>
          { condition with lastTransitionTime := transitionTime now oldStatus condition }
      else getPodCondition status conditionType' := by
  unfold updateLastTransitionTime
  cases hget : getPodCondition status conditionType with
  | none =>
    dsimp only
    split
    · rename_i hsame
      rw [hsame, hget]
      rfl
    · rfl
  | some condition =>
    dsimp only
    rw [getPodCondition_setCondition]
    split
    · rename_i hsame
      subst hsame
      have htype := type_of_getPodCondition hget
      subst htype
      have hmap : ∀ f : PodCondition T → PodCondition T,
          (getPodCondition status condition.type).map f = some (f condition) :=
        fun f => congrArg (Option.map f) hget
      refine (hmap _).trans (Eq.trans ?_ (hmap _).symm)
      rfl
    · rfl

/-- The conditions after the times are set, by induction on their types. -/
theorem getPodCondition_foldl (transition : JsString → T) (oldStatus : PodStatus T O)
    (conditionTypes : List JsString) (conditionType : JsString) : ∀ (status : PodStatus T O),
    getPodCondition (conditionTypes.foldl (fun status conditionType =>
      updateLastTransitionTime (transition conditionType) status oldStatus conditionType) status) conditionType =
      if conditionTypes.contains conditionType then
        (getPodCondition status conditionType).map fun condition =>
          { condition with lastTransitionTime := transitionTime (transition conditionType) oldStatus condition }
      else getPodCondition status conditionType := by
  induction conditionTypes with
  | nil => exact fun _ => rfl
  | cons first conditionTypes ih =>
    intro status
    rw [List.foldl_cons, ih, getPodCondition_updateLastTransitionTime, List.contains_cons]
    by_cases hfirst : conditionType = first
    · subst hfirst
      simp only [if_true, beq_self_eq_true, Bool.true_or]
      cases getPodCondition status conditionType with
      | none => simp
      | some condition =>
        -- a second time is the first one again
        simp [transitionTime]
    · simp [hfirst]

/-! ## The next status -/

section Next

variable (clock : Readings T) (pod : Api.Pod T O) (status oldStatus : PodStatus T O)

/-- Only the conditions are changed by the transition times. -/
theorem foldl_updateLastTransitionTime (transition : JsString → T) (conditionTypes : List JsString) :
    ∀ (status : PodStatus T O), ∃ conditions, conditionTypes.foldl (fun status conditionType =>
      updateLastTransitionTime (transition conditionType) status oldStatus conditionType) status
        = { status with conditions } := by
  induction conditionTypes with
  | nil => exact fun status => ⟨status.conditions, rfl⟩
  | cons conditionType conditionTypes ih =>
    intro status
    have hfirst : ∃ conditions, updateLastTransitionTime (transition conditionType) status oldStatus conditionType
        = { status with conditions } := by
      unfold updateLastTransitionTime
      cases getPodCondition status conditionType with
      | none => exact ⟨status.conditions, rfl⟩
      | some condition => exact ⟨_, rfl⟩
    obtain ⟨first, hfirst⟩ := hfirst
    obtain ⟨conditions, hrest⟩ := ih { status with conditions := first }
    exact ⟨conditions, by rw [List.foldl_cons, hfirst, hrest]⟩

theorem conditions_keepStartTime : (keepStartTime host clock status oldStatus).conditions = status.conditions := by
  unfold keepStartTime
  split
  · rfl
  · split <;> rfl

theorem containerStatuses_keepStartTime :
    (keepStartTime host clock status oldStatus).containerStatuses = status.containerStatuses := by
  unfold keepStartTime
  split
  · rfl
  · split <;> rfl

omit host in
theorem keepObservedGeneration_eq : ∃ observedGeneration,
    keepObservedGeneration status oldStatus = { status with observedGeneration }
      ∧ oldStatus.observedGeneration.getD 0 ≤ observedGeneration.getD 0 := by
  unfold keepObservedGeneration
  split
  · exact ⟨oldStatus.observedGeneration, rfl, le_refl _⟩
  · rename_i hle
    exact ⟨status.observedGeneration, rfl, by omega⟩

/-- The start time is a date, the old one where there is one. -/
theorem startTime_keepStartTime : Stamp.truthy (keepStartTime host clock status oldStatus).startTime = true
    ∧ ∀ t, oldStatus.startTime = some (.date t) →
      (keepStartTime host clock status oldStatus).startTime = some (.date t) := by
  unfold keepStartTime
  cases hold : oldStatus.startTime with
  | none =>
    refine ⟨?_, fun t ht => by cases ht⟩
    rw [if_neg (by simp [Stamp.truthy])]
    cases hstart : Stamp.truthy status.startTime with
    | true => simpa using hstart
    | false => rfl
  | some stamp =>
    cases stamp with
    | date t => exact ⟨rfl, fun t' ht => by cases ht; rfl⟩
    | text s =>
      refine ⟨?_, fun t ht => by cases ht⟩
      cases s with
      | cons u us => rfl
      | nil =>
        rw [if_neg (by simp [Stamp.truthy])]
        cases hstart : Stamp.truthy status.startTime with
        | true => simpa using hstart
        | false => rfl

theorem getPodCondition_nextStatus (conditionType : JsString) :
    getPodCondition (nextStatus host clock pod status oldStatus) conditionType =
      ((if transitionConditions.contains conditionType then
        (getPodCondition status conditionType).map fun condition => { condition with
          lastTransitionTime := transitionTime (clock.transition conditionType) oldStatus condition }
      else getPodCondition status conditionType).map (normalizeCondition host)) := by
  rw [← getPodCondition_foldl]
  unfold nextStatus
  dsimp only
  rw [getPodCondition_normalizeStatus]
  obtain ⟨observedGeneration, hkeep, -⟩ := keepObservedGeneration_eq (keepStartTime host clock
    (transitionConditions.foldl (fun status conditionType =>
      updateLastTransitionTime (clock.transition conditionType) status oldStatus conditionType) status)
    oldStatus) oldStatus
  rw [hkeep]
  unfold getPodCondition
  dsimp only
  rw [conditions_keepStartTime]

/-- The statuses of the containers, but for what is normalised. -/
theorem mem_nextStatus {container : ContainerStatus T O}
    (h : container ∈ (nextStatus host clock pod status oldStatus).containerStatuses.getD []) :
    ∃ before ∈ status.containerStatuses.getD [], container.name = before.name
      ∧ container.terminated.isSome = before.terminated.isSome := by
  obtain ⟨conditions, hfold⟩ := foldl_updateLastTransitionTime oldStatus clock.transition transitionConditions status
  have hstatuses : (nextStatus host clock pod status oldStatus).containerStatuses
      = status.containerStatuses.map (normalizeContainerStatuses host (bytesPerStatus pod)) := by
    unfold nextStatus
    dsimp only
    rw [hfold]
    obtain ⟨observedGeneration, hkeep, -⟩ := keepObservedGeneration_eq
      (keepStartTime host clock { status with conditions } oldStatus) oldStatus
    rw [hkeep]
    unfold normalizeStatus
    dsimp only
    rw [containerStatuses_keepStartTime]
  rw [hstatuses] at h
  cases hcontainers : status.containerStatuses with
  | none =>
    rw [hcontainers] at h
    cases h
  | some statuses =>
    rw [hcontainers] at h
    exact mem_normalizeContainerStatuses host h

theorem startTime_nextStatus : (∃ t, (nextStatus host clock pod status oldStatus).startTime = some (.date t))
    ∧ ∀ t, oldStatus.startTime = some (.date t) →
      (nextStatus host clock pod status oldStatus).startTime = some (.date t) := by
  unfold nextStatus
  dsimp only
  generalize transitionConditions.foldl _ status = moved
  obtain ⟨htruthy, hkept⟩ := startTime_keepStartTime host clock moved oldStatus
  obtain ⟨observedGeneration, hkeep, -⟩ :=
    keepObservedGeneration_eq (keepStartTime host clock moved oldStatus) oldStatus
  rw [hkeep]
  generalize keepStartTime host clock moved oldStatus = started at htruthy hkept
  have hnormal : (normalizeStatus host pod { started with observedGeneration }).startTime
      = started.startTime.map fun time => .date (toDate host time) := by
    unfold normalizeStatus
    dsimp only
    rw [normalizeIfThere, if_pos htruthy, normalizeTimeStamp, if_pos htruthy]
  rw [hnormal]
  constructor
  · cases hstart : started.startTime with
    | none =>
      rw [hstart] at htruthy
      cases htruthy
    | some stamp => exact ⟨toDate host stamp, rfl⟩
  · intro t ht
    rw [hkept t ht]
    rfl

theorem observedGeneration_nextStatus : oldStatus.observedGeneration.getD 0
    ≤ (nextStatus host clock pod status oldStatus).observedGeneration.getD 0 := by
  unfold nextStatus
  dsimp only
  generalize keepStartTime host clock _ oldStatus = started
  obtain ⟨observedGeneration, hkeep, hle⟩ := keepObservedGeneration_eq started oldStatus
  rw [hkeep]
  exact hle

end Next

/-- The times of a status are dates. -/
structure Normal (status : PodStatus T O) : Prop where
  startTime : ∃ t, status.startTime = some (.date t)
  transition : ∀ conditionType condition, getPodCondition status conditionType = some condition →
    normalizeTimeStamp host condition.lastTransitionTime = condition.lastTransitionTime

theorem normal_nextStatus (clock : Readings T) (pod : Api.Pod T O) (status oldStatus : PodStatus T O) :
    Normal host (nextStatus host clock pod status oldStatus) := by
  refine ⟨(startTime_nextStatus host clock pod status oldStatus).1, fun conditionType condition hget => ?_⟩
  rw [getPodCondition_nextStatus] at hget
  obtain ⟨before, -, rfl⟩ := Option.map_eq_some_iff.mp hget
  exact normalizeTimeStamp_idem host before.lastTransitionTime

/-- A condition of the listed types keeps its time where it keeps its status. -/
theorem lastTransitionTime_nextStatus {clock : Readings T} {pod : Api.Pod T O} {status oldStatus : PodStatus T O}
    (hold : Normal host oldStatus) {conditionType : JsString} (hlisted : conditionType ∈ transitionConditions)
    {old new : PodCondition T} (hget : getPodCondition oldStatus conditionType = some old)
    (hnew : getPodCondition (nextStatus host clock pod status oldStatus) conditionType = some new)
    (hstatus : new.status = old.status) : new.lastTransitionTime = old.lastTransitionTime := by
  rw [getPodCondition_nextStatus, if_pos (List.contains_iff_mem.mpr hlisted), Option.map_map] at hnew
  obtain ⟨before, hbefore, rfl⟩ := Option.map_eq_some_iff.mp hnew
  have htype := type_of_getPodCondition hbefore
  show normalizeTimeStamp host (transitionTime _ oldStatus before) = old.lastTransitionTime
  have hkept : before.status = old.status := hstatus
  rw [transitionTime, htype, hget]
  dsimp only
  rw [if_pos hkept]
  exact hold.transition conditionType old hget

/-! ## Terminated containers -/

/-- A container is recorded as terminated, and nothing lets it restart. -/
def restartForbidden (podSpec : Option PodSpec) (status : ContainerStatus T O) : Bool :=
  podSpec.bind PodSpec.restartPolicy ≠ some (js "Always") && !allContainersCouldRestart podSpec
    && status.terminated.any (mayNotRestart podSpec status)

theorem terminated_of_check {oldStatuses newStatuses : PodStatus T O} {podSpec : Option PodSpec}
    (h : (checkContainerStateTransition oldStatuses newStatuses podSpec).isSome = false)
    {old : ContainerStatus T O} (hold : old ∈ oldStatuses.containerStatuses.getD [])
    (hforbidden : restartForbidden podSpec old = true) {new : ContainerStatus T O}
    (hnew : new ∈ newStatuses.containerStatuses.getD []) (hname : new.name = old.name) :
    new.terminated.isSome = true := by
  unfold restartForbidden at hforbidden
  simp only [ne_eq, decide_not, Bool.and_eq_true, Bool.not_eq_true', decide_eq_false_iff_not] at hforbidden
  obtain ⟨⟨halways, hall⟩, hterminated⟩ := hforbidden
  unfold checkContainerStateTransition at h
  rw [if_neg halways, if_neg (by rw [hall]; simp), Option.isSome_map, Option.isSome_eq_false_iff,
    Option.isNone_iff_eq_none, List.findSome?_eq_none_iff] at h
  have hleaves := h old hold
  unfold leavesTerminated at hleaves
  cases hstate : old.terminated with
  | none =>
    rw [hstate] at hterminated
    cases hterminated
  | some terminated =>
    rw [hstate] at hterminated hleaves
    dsimp only at hleaves
    rw [if_pos (by simpa using hterminated), Option.map_eq_none_iff, List.find?_eq_none] at hleaves
    have hnone := hleaves new hnew
    cases hcase : new.terminated with
    | some _ => rfl
    | none =>
      rw [hname, hcase] at hnone
      simp at hnone

/-! ## One update -/

/-- What an update of a cached status keeps. -/
structure Lawful (pod : Api.Pod T O) (before after : VersionedPodStatus T O) : Prop where
  version : after.version = before.version + 1
  startTime : after.status.startTime = before.status.startTime
  observedGeneration : before.status.observedGeneration.getD 0 ≤ after.status.observedGeneration.getD 0
  podIsFinished : isStaticPod pod = false → before.podIsFinished = true → after.podIsFinished = true
  terminated : ∀ old ∈ before.status.containerStatuses.getD [], restartForbidden pod.spec old = true →
    ∀ new ∈ after.status.containerStatuses.getD [], new.name = old.name → new.terminated.isSome = true
  lastTransitionTime : ∀ conditionType ∈ transitionConditions, ∀ old new,
    getPodCondition before.status conditionType = some old →
    getPodCondition after.status conditionType = some new →
    new.status = old.status → new.lastTransitionTime = old.lastTransitionTime

/-- What a call does: nothing, or one update of its pod's status. -/
inductive Outcome (podStatuses : PodStatuses T O) (pod : Option (Api.Pod T O)) (updated : Updated T O) : Prop where
  | unchanged (hchanged : updated.changed = false) (hstatuses : updated.podStatuses = podStatuses)
  | changed (aPod : Api.Pod T O) (next : VersionedPodStatus T O) (hpod : pod = some aPod)
      (hchanged : updated.changed = true)
      (hstatuses : updated.podStatuses = podStatuses.set (podStatusKey aPod) next)
      (hnormal : Normal host next.status)
      (hgiven : ∃ given, next.status = normalizeStatus host aPod given)
      (hnew : podStatuses.get (podStatusKey aPod) = none → next.version = 1)
      (hlawful : ∀ before, podStatuses.get (podStatusKey aPod) = some before → Normal host before.status →
        Lawful aPod before next)

variable [DecidableEq T] [DecidableEq O]

theorem outcome_updateStatusInternal (manager : PodManager T O) (clock : Readings T)
    (podStatuses : PodStatuses T O) (pod : Api.Pod T O) (status : PodStatus T O) (forceUpdate podIsFinished : Bool) :
    Outcome host podStatuses (some pod)
      (updateStatusInternal host manager clock podStatuses pod status forceUpdate podIsFinished) := by
  unfold updateStatusInternal
  dsimp only
  split
  · exact .unchanged rfl rfl
  split
  · exact .unchanged rfl rfl
  rename_i hcheck
  split
  · exact .unchanged rfl rfl
  have hcheck := Bool.eq_false_iff.mpr hcheck
  refine .changed pod _ rfl rfl rfl (normal_nextStatus host clock pod status _) ⟨_, rfl⟩ ?_ ?_
  · intro hnone
    rw [hnone]
    rfl
  intro before hget hnormal
  have hold : oldStatusOf manager podStatuses pod = before.status := by
    unfold oldStatusOf
    rw [hget]
  rw [hold] at hcheck ⊢
  constructor
  case version =>
    rw [hget]
    rfl
  case startTime =>
    obtain ⟨t, ht⟩ := hnormal.startTime
    exact ((startTime_nextStatus host clock pod status before.status).2 t ht).trans ht.symm
  case observedGeneration => exact observedGeneration_nextStatus host clock pod status before.status
  case podIsFinished =>
    intro hstatic hfinished
    rw [hget]
    show nextIsFinished pod (some before) podIsFinished = true
    rw [nextIsFinished, hstatic, Option.any_some, hfinished]
    simp
  case terminated =>
    intro old hmem hforbidden new hnew hname
    obtain ⟨given, hgiven, hgivenName, hsame⟩ := mem_nextStatus host clock pod status before.status hnew
    rw [hsame]
    exact terminated_of_check hcheck hmem hforbidden hgiven (hgivenName.symm.trans hname)
  case lastTransitionTime =>
    intro conditionType hlisted old new hgetOld hgetNew hstatus
    exact lastTransitionTime_nextStatus host hnormal hlisted hgetOld hgetNew hstatus

/-! ## The calls -/

inductive Call (T O : Type) where
  | setPodStatus (pod : Api.Pod T O) (status : PodStatus T O)
  | setContainerReadiness (podUid : JsString) (containerId : ContainerID) (ready : Bool)
  | setContainerStartup (podUid : JsString) (containerId : ContainerID) (started : Bool)
  | terminatePod (pod : Api.Pod T O)

/-- A call, with what it reads. -/
structure Turn (T O : Type) where
  manager : PodManager T O
  clock : Readings T
  call : Call T O

/-- The pod that a call is for. -/
def Turn.pod (turn : Turn T O) : Option (Api.Pod T O) :=
  match turn.call with
  | .setPodStatus pod _ => some pod
  | .setContainerReadiness podUid _ _ => turn.manager.getPodByUid podUid
  | .setContainerStartup podUid _ _ => turn.manager.getPodByUid podUid
  | .terminatePod pod => some pod

def Turn.apply (turn : Turn T O) (podStatuses : PodStatuses T O) : Updated T O :=
  match turn.call with
  | .setPodStatus pod status => setPodStatus host turn.manager turn.clock podStatuses pod status
  | .setContainerReadiness podUid containerId ready =>
    setContainerReadiness host turn.manager turn.clock podStatuses podUid containerId ready
  | .setContainerStartup podUid containerId started =>
    setContainerStartup host turn.manager turn.clock podStatuses podUid containerId started
  | .terminatePod pod => terminatePod host turn.manager turn.clock podStatuses pod

theorem outcome_apply (turn : Turn T O) (podStatuses : PodStatuses T O) :
    Outcome host podStatuses turn.pod (turn.apply host podStatuses) := by
  obtain ⟨manager, clock, call⟩ := turn
  cases call with
  | setPodStatus pod status => exact outcome_updateStatusInternal host manager clock podStatuses pod _ _ _
  | terminatePod pod => exact outcome_updateStatusInternal host manager clock podStatuses pod _ _ _
  | setContainerReadiness podUid containerId ready =>
    show Outcome host podStatuses (manager.getPodByUid podUid) _
    unfold Turn.apply setContainerReadiness
    dsimp only
    split
    · exact .unchanged rfl rfl
    rename_i pod hpod
    rw [hpod]
    split
    · exact .unchanged rfl rfl
    split
    · exact .unchanged rfl rfl
    split
    · exact .unchanged rfl rfl
    exact outcome_updateStatusInternal host manager clock podStatuses pod _ _ _
  | setContainerStartup podUid containerId started =>
    show Outcome host podStatuses (manager.getPodByUid podUid) _
    unfold Turn.apply setContainerStartup
    dsimp only
    split
    · exact .unchanged rfl rfl
    rename_i pod hpod
    rw [hpod]
    split
    · exact .unchanged rfl rfl
    split
    · exact .unchanged rfl rfl
    split
    · exact .unchanged rfl rfl
    exact outcome_updateStatusInternal host manager clock podStatuses pod _ _ _

/-! ## Runs -/

/-- A call, or the removal of a cached status. -/
inductive Event (T O : Type) where
  | call (turn : Turn T O)
  | deleted (uid : JsString)
  | orphaned (podUids : List JsString)

def Event.apply (event : Event T O) (podStatuses : PodStatuses T O) : PodStatuses T O :=
  match event with
  | .call turn => (turn.apply host podStatuses).podStatuses
  | .deleted uid => deletePodStatus uid podStatuses
  | .orphaned podUids => removeOrphanedStatuses podUids podStatuses

def statuses : System (PodStatuses T O) (Event T O) where
  init podStatuses := podStatuses = .empty
  step podStatuses event after := after = event.apply host podStatuses

/-- What every update gives holds of all that is cached. -/
theorem cached_of_reach {P : JsString → VersionedPodStatus T O → Prop}
    (hnext : ∀ pod next, Normal host next.status → (∃ given, next.status = normalizeStatus host pod given) →
      P (podStatusKey pod) next)
    {podStatuses : PodStatuses T O} (h : (statuses host).Reach podStatuses) :
    ∀ key cached, podStatuses.get key = some cached → P key cached := by
  refine System.Reach.invariant (P := fun podStatuses : PodStatuses T O =>
    ∀ key cached, podStatuses.get key = some cached → P key cached) ?_ ?_ h
  · rintro podStatuses rfl key cached hget
    cases hget
  · rintro podStatuses event after - hcached rfl key cached hget
    cases event with
    | call turn =>
      cases outcome_apply host turn podStatuses with
      | unchanged _ hstatuses =>
        rw [Event.apply, hstatuses] at hget
        exact hcached key cached hget
      | changed aPod next _ _ hstatuses hnormal hgiven _ _ =>
        rw [Event.apply, hstatuses, JsMap.get_set] at hget
        split at hget
        · rename_i hkey
          cases hget
          rw [hkey]
          exact hnext aPod cached hnormal hgiven
        · exact hcached key cached hget
    | deleted uid =>
      rw [Event.apply, deletePodStatus, JsMap.get_delete] at hget
      split at hget
      · cases hget
      · exact hcached key cached hget
    | orphaned podUids =>
      exact hcached key cached (JsMap.get_foldl_delete.mp hget).2

theorem normal_of_reach {podStatuses : PodStatuses T O} (h : (statuses host).Reach podStatuses) :
    ∀ key cached, podStatuses.get key = some cached → Normal host cached.status :=
  cached_of_reach (P := fun _ cached => Normal host cached.status) host (fun _ _ hnormal _ => hnormal) h

/-- The turns, one after another. -/
def applyAll (turns : List (Turn T O)) (podStatuses : PodStatuses T O) : PodStatuses T O :=
  turns.foldl (fun podStatuses turn => (turn.apply host podStatuses).podStatuses) podStatuses

/-- How many of the turns update the status under a key. -/
def updates (key : JsString) : List (Turn T O) → PodStatuses T O → Nat
  | [], _ => 0
  | turn :: turns, podStatuses =>
    let updated := turn.apply host podStatuses
    let rest := updates key turns updated.podStatuses
    if updated.changed ∧ turn.pod.map podStatusKey = some key then rest + 1 else rest

/-- What the turns keep of a cached status. -/
structure Kept (turns : List (Turn T O)) (key : JsString) (podStatuses : PodStatuses T O)
    (before after : VersionedPodStatus T O) : Prop where
  version : after.version = before.version + updates host key turns podStatuses
  startTime : after.status.startTime = before.status.startTime
  observedGeneration : before.status.observedGeneration.getD 0 ≤ after.status.observedGeneration.getD 0
  podIsFinished : (∀ turn ∈ turns, ∀ pod, turn.pod = some pod → podStatusKey pod = key → isStaticPod pod = false) →
    before.podIsFinished = true → after.podIsFinished = true

/-- By induction on the turns, the first one first. -/
theorem kept_applyAll (turns : List (Turn T O)) (key : JsString) : ∀ (podStatuses : PodStatuses T O),
    (∀ key cached, podStatuses.get key = some cached → Normal host cached.status) →
    ∀ before, podStatuses.get key = some before → ∃ after,
      (applyAll host turns podStatuses).get key = some after ∧ Kept host turns key podStatuses before after := by
  induction turns with
  | nil => exact fun _ _ before hget => ⟨before, hget, rfl, rfl, le_refl _, fun _ h => h⟩
  | cons turn turns ih =>
    intro podStatuses hnormal before hget
    show ∃ after, (applyAll host turns (turn.apply host podStatuses).podStatuses).get key = some after ∧ _
    cases outcome_apply host turn podStatuses with
    | unchanged hchanged hstatuses =>
      obtain ⟨after, hafter, hkept⟩ := ih podStatuses hnormal before hget
      rw [hstatuses]
      refine ⟨after, hafter, ?_, hkept.startTime, hkept.observedGeneration, fun hstatic =>
        hkept.podIsFinished fun turn hmem => hstatic turn (List.mem_cons_of_mem _ hmem)⟩
      rw [updates, hchanged, hstatuses, if_neg (by simp)]
      exact hkept.version
    | changed aPod next hpod hchanged hstatuses hnext _ _ hlawful =>
      have hnormal' : ∀ key cached, (turn.apply host podStatuses).podStatuses.get key = some cached →
          Normal host cached.status := by
        intro key cached hget'
        rw [hstatuses, JsMap.get_set] at hget'
        split at hget'
        · cases hget'
          exact hnext
        · exact hnormal key cached hget'
      by_cases hkey : key = podStatusKey aPod
      · subst hkey
        have hlaw := hlawful before hget (hnormal _ before hget)
        obtain ⟨after, hafter, hkept⟩ := ih _ hnormal' next (by rw [hstatuses, JsMap.get_set_self])
        refine ⟨after, hafter, ?_, hkept.startTime.trans hlaw.startTime,
          le_trans hlaw.observedGeneration hkept.observedGeneration, fun hstatic hfinished =>
            hkept.podIsFinished (fun turn hmem => hstatic turn (List.mem_cons_of_mem _ hmem))
              (hlaw.podIsFinished (hstatic turn List.mem_cons_self aPod hpod rfl) hfinished)⟩
        rw [hkept.version, hlaw.version, updates, if_pos ⟨hchanged, by rw [hpod]; rfl⟩]
        omega
      · obtain ⟨after, hafter, hkept⟩ := ih _ hnormal' before (by rw [hstatuses, JsMap.get_set_of_ne _ _ hkey, hget])
        refine ⟨after, hafter, ?_, hkept.startTime, hkept.observedGeneration, fun hstatic =>
          hkept.podIsFinished fun turn hmem => hstatic turn (List.mem_cons_of_mem _ hmem)⟩
        rw [hkept.version, updates, if_neg ?_]
        rw [hpod]
        rintro ⟨-, hsame⟩
        exact hkey (Option.some.inj hsame).symm

/-- What a call does to the cached status of its pod, and to no other. -/
structure LawfulTurn (podStatuses : PodStatuses T O) (turn : Turn T O) : Prop where
  unchanged : (turn.apply host podStatuses).changed = false →
    (turn.apply host podStatuses).podStatuses = podStatuses
  changed : (turn.apply host podStatuses).changed = true → ∃ pod next, turn.pod = some pod
    ∧ (turn.apply host podStatuses).podStatuses = podStatuses.set (podStatusKey pod) next
    ∧ (podStatuses.get (podStatusKey pod) = none → next.version = 1)
    ∧ ∀ before, podStatuses.get (podStatusKey pod) = some before → Lawful pod before next

theorem lawfulTurn_of_normal {podStatuses : PodStatuses T O}
    (hnormal : ∀ key cached, podStatuses.get key = some cached → Normal host cached.status)
    (turn : Turn T O) : LawfulTurn host podStatuses turn := by
  cases outcome_apply host turn podStatuses with
  | unchanged hchanged hstatuses =>
    refine ⟨fun _ => hstatuses, fun h => ?_⟩
    rw [hchanged] at h
    cases h
  | changed aPod next hpod hchanged hstatuses _ _ hnew hlawful =>
    refine ⟨fun h => ?_, fun _ => ⟨aPod, next, hpod, hstatuses, hnew, fun before hget =>
      hlawful before hget (hnormal _ before hget)⟩⟩
    rw [hchanged] at h
    cases h

/-- In every reachable state each call is lawful, and a cached status keeps
what the calls up to its removal keep. -/
theorem statuses_of_reach {podStatuses : PodStatuses T O} (h : (statuses host).Reach podStatuses) :
    (∀ turn, LawfulTurn host podStatuses turn)
      ∧ ∀ turns key before, podStatuses.get key = some before → ∃ after,
        (applyAll host turns podStatuses).get key = some after
          ∧ Kept host turns key podStatuses before after := by
  have hnormal := normal_of_reach host h
  exact ⟨lawfulTurn_of_normal host hnormal, fun turns key before hget =>
    kept_applyAll host turns key podStatuses hnormal before hget⟩

omit host [DecidableEq T] [DecidableEq O]

/-! ## What the laws leave out -/

def exampleHost : Host Nat := ⟨Etcd.rootLocale, fun _ => 0⟩

/-- A pod with one container and one init container. -/
def examplePod (restartPolicy : JsString) (container : Api.Container) : Api.Pod Nat Unit where
  name := some (js "a")
  uid := some (js "1")
  deletionTimestamp := some (.date 0)
  spec := some {
    restartPolicy := some restartPolicy
    containers := some [container]
    initContainers := some [{ name := js "init" }] }

def setTurn (pod : Api.Pod Nat Unit) (status : PodStatus Nat Unit) : Turn Nat Unit where
  manager := ⟨fun _ => none, fun _ => none⟩
  clock := ⟨fun _ => 0, 0, 0⟩
  call := .setPodStatus pod status

def neverPod : Api.Pod Nat Unit := examplePod (js "Never") { name := js "c" }

/-- The pod's policy is to restart, its container's is not. -/
def alwaysPod : Api.Pod Nat Unit := examplePod (js "Always") { name := js "c", restartPolicy := some (js "Never") }

/-- The status that is cached after some calls. -/
def cachedAfter (turns : List (Turn Nat Unit)) : PodStatus Nat Unit :=
  (((applyAll exampleHost turns .empty).get (js "1")).map VersionedPodStatus.status).getD {}

/-- A first status is cached under version 1, and its start time stays. -/
theorem statuses_after_setPodStatus :
    LawfulTurn exampleHost (applyAll exampleHost [setTurn neverPod {}] .empty) (setTurn neverPod {}) := by
  have hreach : (statuses exampleHost).Reach (applyAll exampleHost [setTurn neverPod {}] .empty) :=
    (System.Reach.start rfl).step (l := .call (setTurn neverPod {})) rfl
  exact (statuses_of_reach exampleHost hreach).1 (setTurn neverPod {})

def gateStatus (time : Nat) : PodStatus Nat Unit where
  conditions := some [{ type := js "example.com/gate", status := js "True", lastTransitionTime := some (.date time) }]

def stateOf (name : JsString) (terminated : Bool) : ContainerStatus Nat Unit where
  name
  state := some (if terminated then { terminated := some { exitCode := 0 } } else { running := some {} })

def containerStatus (terminated : Bool) : PodStatus Nat Unit where
  containerStatuses := some [stateOf (js "c") terminated]

def initStatus (terminated : Bool) : PodStatus Nat Unit where
  initContainerStatuses := some [stateOf (js "init") terminated]

def terminatedStates (statuses : Option (List (ContainerStatus Nat Unit))) : List Bool :=
  (statuses.getD []).map fun status => status.terminated.isSome

/-- A condition of another type takes the time it is given. A terminated
container runs again once its status was not listed, where it is an init
container, and where only its own policy forbids a restart. -/
theorem laws_leave_out :
    ((getPodCondition (cachedAfter [setTurn neverPod (gateStatus 0)]) (js "example.com/gate")).map
        fun condition => (condition.status, condition.lastTransitionTime)) = some (js "True", some (.date 0))
      ∧ ((getPodCondition (cachedAfter [setTurn neverPod (gateStatus 0), setTurn neverPod (gateStatus 1)])
        (js "example.com/gate")).map fun condition => (condition.status, condition.lastTransitionTime))
          = some (js "True", some (.date 1))
      ∧ terminatedStates (cachedAfter [setTurn neverPod (containerStatus true)]).containerStatuses = [true]
      ∧ terminatedStates (cachedAfter [setTurn neverPod (containerStatus true), setTurn neverPod {},
        setTurn neverPod (containerStatus false)]).containerStatuses = [false]
      ∧ terminatedStates (cachedAfter [setTurn neverPod (initStatus true)]).initContainerStatuses = [true]
      ∧ terminatedStates (cachedAfter [setTurn neverPod (initStatus true),
        setTurn neverPod (initStatus false)]).initContainerStatuses = [false]
      ∧ terminatedStates (cachedAfter [setTurn alwaysPod (containerStatus true)]).containerStatuses = [true]
      ∧ terminatedStates (cachedAfter [setTurn alwaysPod (containerStatus true),
        setTurn alwaysPod (containerStatus false)]).containerStatuses = [false]
      ∧ ((alwaysPod.spec.getD {}).containers.getD []).any
        (fun container => containerShouldRestart container alwaysPod.spec 0) = false := by
  decide +kernel

end Webernetes.Kubelet
