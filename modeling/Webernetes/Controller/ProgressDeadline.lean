/-
Webernetes.Controller.ProgressDeadline — when a rollout times out, for a
deployment that was read back from the store.

Such a deployment has texts where the controller's own conditions have
dates (`Decoded`), and `getTime` of a text is a TypeError.
`syncRolloutStatus_isSome_iff` says which syncs come to no such call,
`syncRolloutStatus_timedOut_iff` when those time out, and
`timedOut_until_progress` that a deployment that has timed out stays so
along a run of syncs without progress.
-/
import Webernetes.Base.Transition
import Webernetes.Controller.RolloutProgress

namespace Webernetes.Controller.Rollouts

open Js Api Base

/-! ## What a sync should do -/

/-- Every time of a condition is a text, as in what the store gives back. -/
def DeploymentStatus.Decoded (status : DeploymentStatus) : Prop :=
  ∀ c ∈ status.conditions.getD [], ∀ t, c.lastUpdateTime ≠ some (.date t)
    ∧ c.lastTransitionTime ≠ some (.date t)

def RolloutDeployment.Decoded (d : RolloutDeployment) : Prop := (d.status.getD {}).Decoded

/-- When a condition was last updated; `parseDate` is `Date.parse`, which
gives nothing for a text that is no date. -/
def DeploymentCondition.updatedAt (parseDate : JsString → Option Int) (c : DeploymentCondition) :
    Option Int :=
  match c.lastUpdateTime with
  | some (.date t) => some t
  | some (.text s) => if s.isEmpty then none else parseDate s
  | none => none

/-- The rollout is over: every replica is new and available, or the
condition has said so before. -/
def Complete (d : RolloutDeployment) (newStatus : DeploymentStatus) (c : DeploymentCondition) :
    Prop :=
  deploymentComplete d newStatus = true ∨ c.reason = some newRSAvailableReason

/-- The deployment is due to time out, or has timed out before. -/
def Due (parseDate : JsString → Option Int) (now : Int) (d : RolloutDeployment)
    (newStatus : DeploymentStatus) : Prop :=
  ∃ c, getDeploymentCondition d.status progressing = some c
    ∧ ¬ Complete d newStatus c ∧ deploymentProgressing d newStatus = false
    ∧ (c.reason = some timedOutReason
      ∨ ∃ updated, c.updatedAt parseDate = some updated ∧ updated + deltaMs d < now)

/-- When the deployment is looked at again; `delay` is what the rate limiter
waits for. -/
def Requeue.time (delay now : Int) : Requeue → Option Int
  | .no => none
  | .rateLimited => some (now + delay)
  | .after ms => some (now + ms)

/-- A status that is written comes back as an event, which queues the
deployment at once. One that is kept is looked at again by a second after
the deadline. -/
def Rechecked (parseDate : JsString → Option Int) (delay now : Int) (d : RolloutDeployment)
    (newStatus : DeploymentStatus) : Outcome → Prop
  | .written _ => True
  | .kept requeue =>
    ∀ c updated, getDeploymentCondition d.status progressing = some c →
      c.updatedAt parseDate = some updated → ¬ Complete d newStatus c →
      ∃ time, requeue.time delay now = some time ∧ time ≤ updated + deltaMs d + 1000

/-- The sync ends, the deployment has timed out after it exactly when it is
due to, and is looked at again otherwise. -/
def Lawful (parseDate : JsString → Option Int) (delay now : Int) (allRSs : List RolloutReplicaSet)
    (newRS : Option RolloutReplicaSet) (d : RolloutDeployment) : Prop :=
  ∃ outcome, syncRolloutStatus now allRSs newRS d = some outcome
    ∧ (TimedOut (outcome.status d) ↔ Due parseDate now d (calculateStatus now allRSs newRS d))
    ∧ (¬ Due parseDate now d (calculateStatus now allRSs newRS d) →
      Rechecked parseDate delay now d (calculateStatus now allRSs newRS d) outcome)

/-- The sync comes to no `getTime` of the condition's last update: there is
none, the deployment has timed out before or is complete, or it progresses;
after a rollout that was over, any change of the status will do. -/
def NoTimeRead (now : Int) (allRSs : List RolloutReplicaSet) (newRS : Option RolloutReplicaSet)
    (d : RolloutDeployment) : Prop :=
  let newStatus := calculateStatus now allRSs newRS d
  ∀ c, getDeploymentCondition d.status progressing = some c →
    Stamp.truthy c.lastUpdateTime = true → c.reason ≠ some timedOutReason →
    deploymentComplete d newStatus = false →
    if c.reason = some newRSAvailableReason then
      statusUnchanged d.status (updateReplicaFailure allRSs newRS newStatus) = false
    else deploymentProgressing d newStatus = true

/-! ## Deployments that were read back -/

variable {now delay : Int} {allRSs : List RolloutReplicaSet} {newRS : Option RolloutReplicaSet}
  {d : RolloutDeployment} {parseDate : JsString → Option Int}

/-- A text has no `getTime`. -/
theorem RolloutDeployment.Decoded.getTime (h : d.Decoded) {c : DeploymentCondition}
    (hc : getDeploymentCondition d.status progressing = some c) :
    c.lastUpdateTime.bind getTime = none := by
  rw [← getDeploymentCondition_getD] at hc
  cases htime : c.lastUpdateTime with
  | none => rfl
  | some stamp =>
    cases stamp with
    | text s => rfl
    | date t => exact absurd htime (h c (List.mem_of_find?_eq_some hc) t).1

/-- A condition that was updated at some time has the text of it. -/
theorem updatedAt_truthy {c : DeploymentCondition} {updated : Int}
    (h : c.updatedAt parseDate = some updated) : Stamp.truthy c.lastUpdateTime = true := by
  unfold DeploymentCondition.updatedAt at h
  unfold Stamp.truthy
  split at h
  · simp [*]
  · split at h
    · simp at h
    · simp [*]
  · simp at h

/-- The timeout of a deployment that was read back. -/
theorem RolloutDeployment.Decoded.deploymentTimedOut (h : d.Decoded)
    (hdeadline : hasProgressDeadline d = true) {newStatus : DeploymentStatus}
    (hget : getDeploymentCondition (some newStatus) progressing
      = getDeploymentCondition d.status progressing) :
    deploymentTimedOut now d newStatus =
      match getDeploymentCondition d.status progressing with
      | none => some false
      | some c =>
        if c.reason = some newRSAvailableReason then some false
        else if c.reason = some timedOutReason then some true
        else if Stamp.truthy c.lastUpdateTime = false then some false else none := by
  unfold Rollouts.deploymentTimedOut
  rw [hdeadline, hget]
  cases hc : getDeploymentCondition d.status progressing with
  | none => rfl
  | some c => simp [h.getTime hc]

/-- The requeue of a deployment that was read back. -/
theorem RolloutDeployment.Decoded.requeueStuckDeployment (h : d.Decoded)
    (hdeadline : hasProgressDeadline d = true) (newStatus : DeploymentStatus) :
    requeueStuckDeployment now d newStatus =
      match getDeploymentCondition d.status progressing with
      | none => some .no
      | some c =>
        if deploymentComplete d newStatus = true ∨ c.reason = some timedOutReason then some .no
        else if Stamp.truthy c.lastUpdateTime = false then some .no else none := by
  unfold Rollouts.requeueStuckDeployment
  rw [hdeadline]
  cases hc : getDeploymentCondition d.status progressing with
  | none => rfl
  | some c => simp [h.getTime hc]

/-! ## A whole sync -/

/-- A deployment has timed out after the progress was updated exactly when
it was due to. -/
theorem Progressed.timedOut_iff (hdecoded : d.Decoded) (hdeadline : hasProgressDeadline d = true)
    {newStatus updated : DeploymentStatus} (h : Progressed now d newStatus updated)
    (hget : getDeploymentCondition (some newStatus) progressing
      = getDeploymentCondition d.status progressing) :
    TimedOut updated ↔ Due parseDate now d newStatus := by
  have hreasons : newRSAvailableReason ≠ timedOutReason
      ∧ replicaSetUpdatedReason ≠ timedOutReason := by decide
  cases h with
  | ended hover h =>
    subst h
    simp only [isCompleteDeployment, decide_eq_true_eq] at hover
    constructor
    · rintro ⟨c, hc, -, hreason⟩
      rw [← hget, hc] at hover
      exact absurd (Option.some.inj (hover.2.symm.trans hreason)) hreasons.1
    · rintro ⟨c, hc, hincomplete, -⟩
      rw [hc] at hover
      exact absurd (.inr hover.2) hincomplete
  | complete hcomplete c hc hreason =>
    constructor
    · rintro ⟨c', hc', -, hreason'⟩
      cases hc.symm.trans hc'
      exact absurd (Option.some.inj (hreason.symm.trans hreason')) hreasons.1
    · rintro ⟨c', -, hincomplete, -⟩
      exact absurd (.inl hcomplete) hincomplete
  | progressed hcomplete hprogress c hc hreason =>
    constructor
    · rintro ⟨c', hc', -, hreason'⟩
      cases hc.symm.trans hc'
      exact absurd (Option.some.inj (hreason.symm.trans hreason')) hreasons.2
    · rintro ⟨c', -, -, hstuck, -⟩
      rw [hprogress] at hstuck
      cases hstuck
  | timedOut hcomplete hprogress htimedOut h =>
    rw [hdecoded.deploymentTimedOut hdeadline hget] at htimedOut
    constructor
    · intro _
      split at htimedOut
      · cases htimedOut
      · rename_i c hc
        split at htimedOut
        · cases htimedOut
        · rename_i havailable
          split at htimedOut
          · rename_i hreason
            refine ⟨c, hc, ?_, hprogress, .inl hreason⟩
            rintro (hdone | hdone)
            · simp [hcomplete] at hdone
            · exact havailable hdone
          · split at htimedOut
            · cases htimedOut
            · cases htimedOut
    · intro _
      exact h
  | waiting hover hcomplete hprogress htimedOut h =>
    subst h
    rw [hdecoded.deploymentTimedOut hdeadline hget] at htimedOut
    constructor
    · rintro ⟨c, hc, -, hreason⟩
      rw [hget] at hc
      simp [hc, hreason, hreasons.1.symm] at htimedOut
    · rintro ⟨c, hc, hincomplete, -, hdue⟩
      have havailable : c.reason ≠ some newRSAvailableReason := by
        intro hdone
        exact hincomplete (.inr hdone)
      rw [hc] at htimedOut
      simp only [havailable, if_false] at htimedOut
      split at htimedOut
      · cases htimedOut
      · rename_i hreason
        obtain hreason' | ⟨updatedAt, hupdatedAt, -⟩ := hdue
        · exact absurd hreason' hreason
        · rw [if_neg (by simp [updatedAt_truthy hupdatedAt])] at htimedOut
          cases htimedOut

/-- **When a sync that ends times out**, of a deployment that was read back. -/
theorem syncRolloutStatus_timedOut_iff (hdecoded : d.Decoded)
    (hdeadline : hasProgressDeadline d = true) {outcome : Outcome}
    (h : syncRolloutStatus now allRSs newRS d = some outcome) :
    TimedOut (outcome.status d) ↔ Due parseDate now d (calculateStatus now allRSs newRS d) := by
  obtain ⟨updated, hupdated, hstatus, -⟩ := syncRolloutStatus_some h
  obtain ⟨hprogressed, -⟩ := updateProgressing_progressed hdeadline hupdated
  rw [← hprogressed.timedOut_iff hdecoded hdeadline (calculateStatus_get now allRSs newRS d),
    TimedOut, TimedOut, hstatus, updateReplicaFailure_get]

/-- A sync that ends has the deployment looked at again. -/
theorem syncRolloutStatus_rechecked (hdecoded : d.Decoded)
    (hdeadline : hasProgressDeadline d = true) {outcome : Outcome}
    (h : syncRolloutStatus now allRSs newRS d = some outcome)
    (hdue : ¬ Due parseDate now d (calculateStatus now allRSs newRS d)) :
    Rechecked parseDate delay now d (calculateStatus now allRSs newRS d) outcome := by
  obtain ⟨updated, hupdated, -, hkept⟩ := syncRolloutStatus_some h
  obtain ⟨-, hcounts⟩ := updateProgressing_progressed hdeadline hupdated
  cases outcome with
  | written newStatus => trivial
  | kept requeue =>
    -- the requeue would need the time of the text
    intro c updatedAt hc hupdatedAt hincomplete
    obtain ⟨hunchanged, hrequeue⟩ := hkept requeue rfl
    have hsame := (updateReplicaFailure_sameCounts allRSs newRS updated).trans hcounts
    have hstuck := statusUnchanged_progressing hunchanged
    rw [hsame.deploymentProgressing] at hstuck
    rw [hdecoded.requeueStuckDeployment hdeadline, hc, hsame.deploymentComplete] at hrequeue
    simp only [updatedAt_truthy hupdatedAt] at hrequeue
    split at hrequeue
    · rename_i hover
      obtain hcomplete | hreason := hover
      · exact absurd (.inl hcomplete) hincomplete
      · exact absurd ⟨c, hc, hincomplete, hstuck, .inl hreason⟩ hdue
    · cases hrequeue

/-- Without progress, a condition that says the rollout is over stays. -/
theorem Progressed.available (hdecoded : d.Decoded) (hdeadline : hasProgressDeadline d = true)
    {newStatus updated : DeploymentStatus} (h : Progressed now d newStatus updated)
    (hget : getDeploymentCondition (some newStatus) progressing
      = getDeploymentCondition d.status progressing)
    {c : DeploymentCondition} (hc : getDeploymentCondition d.status progressing = some c)
    (hreason : c.reason = some newRSAvailableReason)
    (hcomplete : deploymentComplete d newStatus = false)
    (hprogress : deploymentProgressing d newStatus = false) : updated = newStatus := by
  cases h with
  | ended _ h => exact h
  | complete hcomplete' => simp [hcomplete] at hcomplete'
  | progressed _ hprogress' => simp [hprogress] at hprogress'
  | timedOut _ _ htimedOut =>
    rw [hdecoded.deploymentTimedOut hdeadline hget, hc] at htimedOut
    simp [hreason] at htimedOut
  | waiting _ _ _ _ h => exact h

/-- **Which syncs end**, of a deployment that was read back: those that read
no time. -/
theorem syncRolloutStatus_isSome_iff (hdecoded : d.Decoded)
    (hdeadline : hasProgressDeadline d = true) :
    (syncRolloutStatus now allRSs newRS d).isSome = true ↔ NoTimeRead now allRSs newRS d := by
  have hget := calculateStatus_get now allRSs newRS d
  rw [syncRolloutStatus_isSome_parts]
  constructor
  · rintro ⟨updated, hupdated, hrequeue⟩ c hc htruthy hreason hincomplete
    obtain ⟨hprogressed, hcounts⟩ := updateProgressing_progressed hdeadline hupdated
    rw [hdecoded.requeueStuckDeployment hdeadline, hc] at hrequeue
    have hsame := (updateReplicaFailure_sameCounts allRSs newRS updated).trans hcounts
    split
    · rename_i havailable
      cases hunchanged : statusUnchanged d.status
        (updateReplicaFailure allRSs newRS (calculateStatus now allRSs newRS d)) with
      | false => rfl
      | true =>
        have hstuck := statusUnchanged_progressing hunchanged
        rw [(updateReplicaFailure_sameCounts _ _ _).deploymentProgressing] at hstuck
        rw [hprogressed.available hdecoded hdeadline hget hc havailable hincomplete hstuck]
          at hrequeue
        have hnone := hrequeue hunchanged
        rw [(updateReplicaFailure_sameCounts _ _ _).deploymentComplete] at hnone
        simp [hincomplete, hreason, htruthy] at hnone
    · rename_i havailable
      have htimedOut : deploymentTimedOut now d (calculateStatus now allRSs newRS d) = _ :=
        hdecoded.deploymentTimedOut hdeadline hget
      rw [hc] at htimedOut
      simp only [havailable, hreason, htruthy, if_false, Bool.true_eq_false] at htimedOut
      cases hprogressed with
      | ended hover =>
        simp only [isCompleteDeployment, decide_eq_true_eq, hc] at hover
        exact absurd hover.2 havailable
      | complete hcomplete => simp [hincomplete] at hcomplete
      | progressed _ hprogress => exact hprogress
      | timedOut _ _ h => simp [htimedOut] at h
      | waiting _ _ _ h => simp [htimedOut] at h
  · intro hread
    cases hupdated : updateProgressing now newRS d (calculateStatus now allRSs newRS d) with
    | none =>
      obtain ⟨hincomplete, hstuck, htimedOut⟩ := updateProgressing_none hupdated
      rw [hdecoded.deploymentTimedOut hdeadline hget] at htimedOut
      split at htimedOut
      · cases htimedOut
      · rename_i c hc
        split at htimedOut
        · cases htimedOut
        · rename_i havailable
          split at htimedOut
          · cases htimedOut
          · rename_i hreason
            split at htimedOut
            · cases htimedOut
            · rename_i htruthy
              have hprogress := hread c hc (Bool.not_eq_false _ ▸ htruthy) hreason hincomplete
              rw [if_neg havailable, hstuck] at hprogress
              cases hprogress
    | some updated =>
      obtain ⟨hprogressed, hcounts⟩ := updateProgressing_progressed hdeadline hupdated
      have hsame := (updateReplicaFailure_sameCounts allRSs newRS updated).trans hcounts
      refine ⟨updated, rfl, ?_⟩
      intro hunchanged
      have hstuck := statusUnchanged_progressing hunchanged
      rw [hsame.deploymentProgressing] at hstuck
      rw [hdecoded.requeueStuckDeployment hdeadline, hsame.deploymentComplete]
      split
      · rfl
      · rename_i c hc
        split
        · rfl
        · rename_i hover
          rw [not_or, Bool.not_eq_true] at hover
          split
          · rfl
          · rename_i htruthy
            have hprogress := hread c hc (Bool.not_eq_false _ ▸ htruthy) hover.2 hover.1
            split at hprogress
            · rename_i havailable
              rw [hprogressed.available hdecoded hdeadline hget hc havailable hover.1 hstuck]
                at hunchanged
              simp [hprogress] at hunchanged
            · simp [hstuck] at hprogress

/-- **The progress of a rollout**, for a deployment that was read back: a
sync does what it should exactly when it reads no time. -/
theorem progress_lawful_iff (parseDate : JsString → Option Int) (delay now : Int)
    (allRSs : List RolloutReplicaSet) (newRS : Option RolloutReplicaSet) (d : RolloutDeployment)
    (hdecoded : d.Decoded) (hdeadline : hasProgressDeadline d = true) :
    Lawful parseDate delay now allRSs newRS d ↔ NoTimeRead now allRSs newRS d := by
  rw [← syncRolloutStatus_isSome_iff hdecoded hdeadline]
  constructor
  · rintro ⟨outcome, h, -⟩
    rw [h]
    rfl
  · intro hsome
    obtain ⟨outcome, h⟩ := Option.isSome_iff_exists.mp hsome
    exact ⟨outcome, h, syncRolloutStatus_timedOut_iff hdecoded hdeadline h,
      syncRolloutStatus_rechecked hdecoded hdeadline h⟩

/-- A rollout of two replicas that made one, ten minutes before. -/
def stalled : RolloutDeployment where
  replicas := some 2
  name := some (js "web")
  generation := some 1
  progressDeadlineSeconds := some 600
  status := some
    { observedGeneration := some 1
      replicas := some 1
      updatedReplicas := some 1
      conditions := some
        [{ type := progressing
           status := js "True"
           reason := some replicaSetUpdatedReason
           lastUpdateTime := some (.text (js "1970-01-01T00:00:00.000Z")) }] }

def stalledReplicaSet : RolloutReplicaSet where
  name := some (js "web-1")
  replicas := some 2
  statusReplicas := some 1

theorem stalled_decoded : stalled.Decoded := by
  intro c hc t
  simp only [stalled, Option.getD_some, List.mem_singleton] at hc
  subst hc
  exact ⟨by simp, by simp⟩

/-- Once the deadline has passed, the sync of the stalled rollout throws. -/
theorem stalled_never_times_out :
    ¬ Lawful (fun _ => some 0) 5 600001 [stalledReplicaSet] (some stalledReplicaSet) stalled := by
  have hthrows : syncRolloutStatus 600001 [stalledReplicaSet] (some stalledReplicaSet) stalled
      = none := by decide
  rintro ⟨outcome, h, -⟩
  rw [hthrows] at h
  cases h

/-- A second replica is progress, for which no time is read. -/
theorem progress_lawful_second_replica :
    Lawful (fun _ => some 0) 5 600001 [{ stalledReplicaSet with statusReplicas := some 2 }]
      (some { stalledReplicaSet with statusReplicas := some 2 }) stalled := by
  apply (progress_lawful_iff _ 5 _ _ _ _ stalled_decoded (by decide)).mpr
  intro c hc _ _ _
  have hreason : (getDeploymentCondition stalled.status progressing).bind (·.reason)
      = some replicaSetUpdatedReason := by decide
  rw [hc, Option.bind_some] at hreason
  rw [if_neg (by rw [hreason]; decide)]
  decide

/-! ## A run of syncs -/

/-- A time as the store gives it back; `toJSON` is `Date.prototype.toJSON`. -/
def encodeStamp (toJSON : Int → JsString) : Stamp Int → Stamp Int
  | .date t => .text (toJSON t)
  | .text s => .text s

def DeploymentCondition.encoded (toJSON : Int → JsString) (c : DeploymentCondition) :
    DeploymentCondition :=
  { c with
    lastUpdateTime := c.lastUpdateTime.map (encodeStamp toJSON)
    lastTransitionTime := c.lastTransitionTime.map (encodeStamp toJSON) }

/-- A status that was written and read back. -/
def DeploymentStatus.encoded (toJSON : Int → JsString) (status : DeploymentStatus) :
    DeploymentStatus :=
  { status with
    conditions := status.conditions.map (List.map (DeploymentCondition.encoded toJSON)) }

theorem encoded_decoded (toJSON : Int → JsString) (status : DeploymentStatus) :
    (status.encoded toJSON).Decoded := by
  have hstamp : ∀ (stamp : Option (Stamp Int)) t,
      stamp.map (encodeStamp toJSON) ≠ some (.date t) := by
    intro stamp t
    cases stamp with
    | none => simp
    | some stamp => cases stamp <;> simp [encodeStamp]
  intro c hc t
  cases hconditions : status.conditions with
  | none => simp [DeploymentStatus.encoded, hconditions] at hc
  | some conditions =>
    simp only [DeploymentStatus.encoded, hconditions, Option.map_some, Option.getD_some,
      List.mem_map] at hc
    obtain ⟨c, -, rfl⟩ := hc
    exact ⟨hstamp _ t, hstamp _ t⟩

theorem encoded_get (toJSON : Int → JsString) (status : DeploymentStatus) (condType : JsString) :
    getDeploymentCondition (some (status.encoded toJSON)) condType
      = (getDeploymentCondition (some status) condType).map
        (DeploymentCondition.encoded toJSON) := by
  unfold getDeploymentCondition DeploymentStatus.encoded
  cases hconditions : status.conditions with
  | none => simp [hconditions]
  | some conditions =>
    simp only [hconditions, Option.bind_some, Option.map_some, Option.getD_some, List.find?_map]
    rfl

/-- A sync, and the deployment it finds. -/
structure Sync where
  now : Int
  allRSs : List RolloutReplicaSet
  newRS : Option RolloutReplicaSet
  d : RolloutDeployment

/-- The syncs of one deployment, whose status goes through the store between
two of them; the rest of the deployment may be changed by others. -/
def syncs (toJSON : Int → JsString) (status : DeploymentStatus) : System DeploymentStatus Sync where
  init stored := stored = status
  step stored sync stored' := sync.d.status = some stored ∧ hasProgressDeadline sync.d = true
    ∧ ∃ outcome, syncRolloutStatus sync.now sync.allRSs sync.newRS sync.d = some outcome
      ∧ stored' = (outcome.status sync.d).encoded toJSON

/-- The sync observes neither the end of the rollout nor progress. -/
def NoProgress (sync : Sync) : Prop :=
  let newStatus := calculateStatus sync.now sync.allRSs sync.newRS sync.d
  deploymentComplete sync.d newStatus = false ∧ deploymentProgressing sync.d newStatus = false

/-- A sync of a deployment that has timed out, without progress: it ends,
and the deployment has timed out after it. -/
theorem syncRolloutStatus_timedOut {sync : Sync} {stored : DeploymentStatus}
    (hstored : sync.d.status = some stored) (hdecoded : stored.Decoded)
    (hdeadline : hasProgressDeadline sync.d = true) (htimedOut : TimedOut stored)
    (hstuck : NoProgress sync) :
    ∃ outcome, syncRolloutStatus sync.now sync.allRSs sync.newRS sync.d = some outcome
      ∧ TimedOut (outcome.status sync.d) := by
  obtain ⟨c, hc, -, hreason⟩ := htimedOut
  have hdecoded' : sync.d.Decoded := by
    rw [RolloutDeployment.Decoded, hstored]
    exact hdecoded
  rw [← hstored] at hc
  have hread : NoTimeRead sync.now sync.allRSs sync.newRS sync.d := by
    intro c' hc' _ hother
    rw [hc] at hc'
    cases hc'
    exact absurd hreason hother
  obtain ⟨outcome, h⟩ := Option.isSome_iff_exists.mp
    ((syncRolloutStatus_isSome_iff hdecoded' hdeadline).mpr hread)
  refine ⟨outcome, h, ?_⟩
  have hiff : TimedOut (outcome.status sync.d) ↔ Due (fun _ => none) sync.now sync.d
      (calculateStatus sync.now sync.allRSs sync.newRS sync.d) :=
    syncRolloutStatus_timedOut_iff hdecoded' hdeadline h
  refine hiff.mpr ⟨c, hc, ?_, hstuck.2, .inl hreason⟩
  rintro (hcomplete | havailable)
  · simp [hstuck.1] at hcomplete
  · have hne : timedOutReason ≠ newRSAvailableReason := by decide
    exact hne (Option.some.inj (hreason.symm.trans havailable))

/-- **A deployment that has timed out stays so until progress is observed**,
along every run of syncs. -/
theorem timedOut_until_progress (toJSON : Int → JsString) {status stored : DeploymentStatus}
    (hdecoded : status.Decoded) (htimedOut : TimedOut status)
    (h : ((syncs toJSON status).guarded fun _ => NoProgress).Reach stored) :
    stored.Decoded ∧ TimedOut stored := by
  refine System.Reach.invariant (P := fun stored => stored.Decoded ∧ TimedOut stored) ?_ ?_ h
  · rintro stored rfl
    exact ⟨hdecoded, htimedOut⟩
  · rintro stored sync stored' - ⟨hdecoded, htimedOut⟩
      ⟨⟨hstored, hdeadline, outcome, h, rfl⟩, hstuck⟩
    obtain ⟨outcome', h', c, hc, hfalse, hreason⟩ :=
      syncRolloutStatus_timedOut hstored hdecoded hdeadline htimedOut hstuck
    rw [h] at h'
    cases h'
    refine ⟨encoded_decoded toJSON _, c.encoded toJSON, ?_, hfalse, hreason⟩
    rw [encoded_get, hc]
    rfl

/-- The stalled rollout, once it has timed out. -/
def expired : DeploymentStatus :=
  { stalled.status.getD {} with
    conditions := some
      [{ type := progressing
         status := js "False"
         reason := some timedOutReason
         lastUpdateTime := some (.text (js "1970-01-01T00:00:00.000Z")) }] }

def expiredSync : Sync :=
  ⟨600001, [stalledReplicaSet], some stalledReplicaSet, { stalled with status := some expired }⟩

theorem timedOut_until_progress_expired : ∃ outcome,
    syncRolloutStatus 600001 [stalledReplicaSet] (some stalledReplicaSet) expiredSync.d = some outcome
      ∧ TimedOut ((outcome.status expiredSync.d).encoded fun _ => []) := by
  have hsome : (syncRolloutStatus 600001 [stalledReplicaSet] (some stalledReplicaSet)
      expiredSync.d).isSome = true := by decide
  obtain ⟨outcome, h⟩ := Option.isSome_iff_exists.mp hsome
  have hstart : ((syncs (fun _ => []) expired).guarded fun _ => NoProgress).Reach expired := .start rfl
  refine ⟨outcome, h, (timedOut_until_progress (fun _ => []) ?_ ⟨_, rfl, rfl, rfl⟩
    (hstart.step (l := expiredSync) ⟨⟨rfl, rfl, outcome, h, rfl⟩, by decide, by decide⟩)).2⟩
  intro c hc t
  rw [List.mem_singleton.mp hc]
  exact ⟨by simp, by simp⟩

end Webernetes.Controller.Rollouts
