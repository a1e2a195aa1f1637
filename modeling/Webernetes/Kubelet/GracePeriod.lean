/-
Webernetes.Kubelet.GracePeriod — the grace period of a pod that terminates.

A pod worker records a grace period with every update of a pod whose
termination is requested (`calculateEffectiveGracePeriod`), from what is
recorded already. The model follows the sync status of one pod through its
updates and the steps of its worker, with the calls made on the way
(`Worker.records`).

Zero stands for a period that is not set. A deletion with a period of zero is
taken for that as well, so an override in the same update replaces it; every
other update keeps what `Kept` says (`recordsKept_iff`). What else a status
records is kept as long as it lasts (`later_of_reach`).
-/
import Mathlib.Data.List.Induction
import Webernetes.Base.Transition
import Webernetes.Js.Text

namespace Webernetes.Kubelet.PodWorkers

open Js Base

/-! ## The sync status -/

/-- What the workers read of a pod. -/
structure V1Pod where
  hasDeletionTimestamp : Bool := false
  phase : Option JsString := none
  deletionGracePeriodSeconds : Option Int := none
  terminationGracePeriodSeconds : Option Int := none

def V1Pod.isTerminalPhase (pod : V1Pod) : Bool :=
  pod.phase = some (js "Failed") || pod.phase = some (js "Succeeded")

inductive UpdateType where
  | create
  | update
  | sync
  | kill
  deriving DecidableEq

structure KillPodOptions where
  evict : Bool := false
  podTerminationGracePeriodSecondsOverride : Option Int := none

/-- `runningPod` says that the runtime's pod is given. -/
structure UpdatePodOptions where
  updateType : UpdateType
  pod : Option V1Pod := none
  runningPod : Bool := false
  killPodOptions : Option KillPodOptions := none

/-- A time is there once it has been set. -/
structure PodSyncStatus where
  startedAt : Bool := false
  terminatingAt : Bool := false
  terminatedAt : Bool := false
  finished : Bool := false
  gracePeriod : Int := 0
  deleted : Bool := false
  evicted : Bool := false
  restartRequested : Bool := false
  observedRuntime : Bool := false
  pendingUpdate : Option UpdatePodOptions := none
  activeUpdate : Option UpdatePodOptions := none

/-! ## The effective grace period -/

/-- An override takes the place of a period that is not set, or longer. -/
def takeOverride (gracePeriod : Int × Bool) : Option Int → Int × Bool
  | some override =>
    if gracePeriod.1 = 0 ∨ override < gracePeriod.1 then (override, true) else gracePeriod
  | none => gracePeriod

/-- The period, and whether it was shortened. -/
def calculateEffectiveGracePeriod (recorded : Int) (pod : Option V1Pod)
    (options : Option KillPodOptions) : Int × Bool :=
  let (gracePeriod, overridden) := takeOverride
    (takeOverride (recorded, false) (pod.bind (·.deletionGracePeriodSeconds)))
    (options.bind (·.podTerminationGracePeriodSecondsOverride))
  let gracePeriod :=
    if !overridden && gracePeriod = 0 then
      (pod.bind (·.terminationGracePeriodSeconds)).getD gracePeriod
    else gracePeriod
  let gracePeriod := if gracePeriod < 1 then 1 else gracePeriod
  (gracePeriod, recorded ≠ 0 && recorded ≠ gracePeriod)

/-- A call of `calculateEffectiveGracePeriod`. -/
structure Record where
  before : Int
  pod : Option V1Pod
  options : Option KillPodOptions
  after : Int
  shortened : Bool

def Record.call (before : Int) (pod : Option V1Pod) (options : Option KillPodOptions) : Record where
  before := before
  pod := pod
  options := options
  after := (calculateEffectiveGracePeriod before pod options).1
  shortened := (calculateEffectiveGracePeriod before pod options).2

namespace Record

variable (r : Record)

def deletion : Option Int := r.pod.bind (·.deletionGracePeriodSeconds)

def override : Option Int := r.options.bind (·.podTerminationGracePeriodSecondsOverride)

/-- The periods that the call was given to keep to. -/
def supplied : List Int := r.deletion.toList ++ r.override.toList

/-- A deletion without a grace period, and an override with one. -/
def ZeroOverridden : Prop := r.deletion = some 0 ∧ ∃ override ∈ r.override, 1 < override

/-- The call was made, and what it returned. -/
def IsCall : Prop := r = call r.before r.pod r.options

variable {r}

theorem IsCall.after_eq (h : r.IsCall) :
    r.after = (calculateEffectiveGracePeriod r.before r.pod r.options).1 := congrArg Record.after h

theorem IsCall.shortened_eq (h : r.IsCall) :
    r.shortened = (calculateEffectiveGracePeriod r.before r.pod r.options).2 :=
  congrArg Record.shortened h

theorem one_le_after (h : r.IsCall) : 1 ≤ r.after := by
  rw [h.after_eq, calculateEffectiveGracePeriod]
  dsimp only
  split <;> omega

theorem shortened_iff (h : r.IsCall) : r.shortened = true ↔ r.before ≠ 0 ∧ r.before ≠ r.after := by
  rw [h.shortened_eq, h.after_eq]
  simp [calculateEffectiveGracePeriod]

/-- What a call comes to, by what it is given. -/
theorem after_cases (h : r.IsCall) :
    r.after = max 1 (match r.deletion, r.override with
      | none, none => if r.before = 0 then (r.pod.bind (·.terminationGracePeriodSeconds)).getD 0 else r.before
      | some d, none => if r.before = 0 ∨ d < r.before then d else r.before
      | none, some o => if r.before = 0 ∨ o < r.before then o else r.before
      | some d, some o =>
        if r.before = 0 ∨ d < r.before then (if d = 0 ∨ o < d then o else d)
        else if o < r.before then o else r.before) := by
  rw [h.after_eq]
  simp only [calculateEffectiveGracePeriod]
  rw [show r.pod.bind (·.deletionGracePeriodSeconds) = r.deletion from rfl,
    show r.options.bind (·.podTerminationGracePeriodSecondsOverride) = r.override from rfl]
  cases r.deletion with
  | none =>
    cases r.override with
    | none =>
      by_cases hbefore : r.before = 0
      · simp only [takeOverride, hbefore]
        grind
      · simp [takeOverride, hbefore]
        grind
    | some o =>
      simp only [takeOverride]
      grind
  | some d =>
    cases r.override with
    | none =>
      simp only [takeOverride]
      grind
    | some o =>
      simp only [takeOverride]
      grind

/-- Without a zero that is overridden a call never goes up, and keeps to what
it is given. -/
theorem after_le (h : r.IsCall) (hbefore : 0 ≤ r.before) (hzero : ¬ r.ZeroOverridden) :
    (r.before ≠ 0 → r.after ≤ r.before) ∧ ∀ v ∈ r.supplied, r.after ≤ max v 1 := by
  have hafter := r.after_cases h
  simp only [ZeroOverridden, supplied, List.mem_append] at hzero ⊢
  cases hdeletion : r.deletion with
  | none =>
    cases hoverride : r.override with
    | none =>
      simp only [hdeletion, hoverride] at hafter
      simp
      grind
    | some o =>
      simp only [hdeletion, hoverride] at hafter
      simp
      grind
  | some d =>
    cases hoverride : r.override with
    | none =>
      simp only [hdeletion, hoverride] at hafter
      simp
      grind
    | some o =>
      simp only [hdeletion, hoverride] at hafter hzero
      simp at hzero ⊢
      grind

/-- A zero that is overridden is not kept to. -/
theorem lt_after (h : r.IsCall) (hbefore : 0 ≤ r.before) (hzero : r.ZeroOverridden) :
    (0 : Int) ∈ r.supplied ∧ max 0 1 < r.after := by
  obtain ⟨hdeletion, o, hoverride, ho⟩ := hzero
  have hafter := r.after_cases h
  rw [Option.mem_def] at hoverride
  rw [hdeletion, hoverride] at hafter
  dsimp only at hafter
  refine ⟨by simp [supplied, hdeletion], ?_⟩
  grind

end Record

/-! ## The worker -/

/-- The sync status of a pod, and the calls made for it. -/
structure Worker where
  status : Option PodSyncStatus := none
  records : List Record := []

namespace Worker

/-- A status that is recorded with a call. -/
def recordPeriod (w : Worker) (status : PodSyncStatus) (pod : Option V1Pod)
    (options : Option KillPodOptions) : PodSyncStatus × List Record :=
  let r := Record.call status.gracePeriod pod options
  ({ status with gracePeriod := r.after }, w.records ++ [r])

/-- Whether an update makes the pod terminate. -/
def becomesTerminating (status : PodSyncStatus) (isRuntimePod : Bool) (pod : Option V1Pod)
    (options : UpdatePodOptions) : PodSyncStatus :=
  if status.terminatingAt then status
  else if isRuntimePod || pod.any (·.hasDeletionTimestamp) then
    { status with deleted := true, terminatingAt := true }
  else if pod.any (·.isTerminalPhase) then { status with terminatingAt := true }
  else if options.updateType = .kill then
    { status with
      evicted := status.evicted || options.killPodOptions.any (·.evict)
      terminatingAt := true }
  else status

/-- The pod that an update is about: the runtime's pod stands for the one of
an earlier update, where there is one. A pod made from the runtime's has no
grace periods. -/
def resolvePod (status : PodSyncStatus) (options : UpdatePodOptions) : UpdatePodOptions × Option V1Pod :=
  match options.pod with
  | some pod => ({ options with runningPod := false }, some pod)
  | none =>
    match (status.pendingUpdate.bind (·.pod)).or (status.activeUpdate.bind (·.pod)) with
    | some pod => ({ options with pod := some pod, runningPod := false }, some pod)
    | none => (options, some {})

/-- A new sync status. `isCacheTerminal` says that the pod status cache has
the pod as terminal. -/
def newStatus (isCacheTerminal : Bool) (options : UpdatePodOptions) : PodSyncStatus :=
  if options.pod.any (·.isTerminalPhase) && isCacheTerminal then
    { terminatingAt := true, terminatedAt := true }
  else {}

/-- What `updatePod` does to a status. -/
def updateStatus (w : Worker) (firstTime : Bool) (status : PodSyncStatus) (options : UpdatePodOptions) :
    Worker :=
  let isRuntimePod := options.pod.isNone
  let status := if isRuntimePod then { status with observedRuntime := true } else status
  let (options, pod) := resolvePod status options
  if !firstTime && status.terminatingAt && options.updateType = .create then
    { w with status := some { status with restartRequested := true } }
  else if status.finished then { w with status := some status }
  else
    let status := becomesTerminating status isRuntimePod pod options
    if status.terminatedAt then
      if isRuntimePod then { w with status := some status }
      else
        { w with status := some { status with pendingUpdate := some { options with killPodOptions := none } } }
    else if status.terminatingAt then
      let killPodOptions := options.killPodOptions.getD {}
      let (status, records) := w.recordPeriod status pod (some killPodOptions)
      let options :=
        { options with
          killPodOptions := some
            { killPodOptions with podTerminationGracePeriodSecondsOverride := some status.gracePeriod } }
      { status := some { status with pendingUpdate := some options }, records }
    else
      { w with status := some { status with pendingUpdate := some { options with killPodOptions := none } } }

def updatePod (w : Worker) (isCacheTerminal : Bool) (options : UpdatePodOptions) : Worker :=
  if options.pod.isNone && (!options.runningPod || options.updateType ≠ .kill) then w
  else
    match w.status with
    | some status => w.updateStatus false status options
    | none => w.updateStatus true (newStatus isCacheTerminal options) options

def mergeLastUpdate (active : Option UpdatePodOptions) (other : UpdatePodOptions) : UpdatePodOptions :=
  let opts := active.getD { updateType := .sync }
  { opts with
    pod := if opts.pod.isNone || !other.runningPod then other.pod else opts.pod
    runningPod := other.runningPod
    killPodOptions := other.killPodOptions.or opts.killPodOptions }

def startPodSync (w : Worker) : Worker :=
  match w.status with
  | none => w
  | some status =>
    match status.pendingUpdate with
    | none => w
    | some update =>
      { w with
        status := some
          { status with
            pendingUpdate := none
            startedAt := status.startedAt || (update.pod.isSome && !(update.runningPod && status.terminatingAt))
            activeUpdate := some (mergeLastUpdate status.activeUpdate update) } }

def requeueLastPodUpdate (status : PodSyncStatus) : PodSyncStatus :=
  { status with pendingUpdate := status.pendingUpdate.or status.activeUpdate }

/-- The pod has come to an end by itself; no grace period is recorded. -/
def completeSync (w : Worker) : Worker :=
  { w with
    status := w.status.map fun status => requeueLastPodUpdate { status with terminatingAt := true } }

def completeTerminating (w : Worker) : Worker :=
  { w with
    status := w.status.map fun status => requeueLastPodUpdate { status with terminatedAt := true } }

def completeTerminated (w : Worker) : Worker :=
  { w with status := w.status.map fun status => { status with finished := true } }

/-- A pod that only the runtime knew is forgotten. -/
def completeTerminatingRuntimePod (_w : Worker) : Worker := {}

def removeTerminatedWorker (w : Worker) (orphaned : Bool) : Worker :=
  match w.status with
  | none => w
  | some status =>
    if status.finished then {}
    else if !orphaned then w
    else
      let status := { status with deleted := true }
      if !status.startedAt && !status.observedRuntime then {}
      else if status.terminatingAt then { w with status := some (requeueLastPodUpdate status) }
      else
        let status := { status with terminatingAt := true }
        match status.activeUpdate.bind (·.pod) with
        | some pod =>
          let (status, records) := w.recordPeriod status (some pod) none
          { status := some (requeueLastPodUpdate status), records }
        | none => { w with status := some (requeueLastPodUpdate { status with gracePeriod := 1 }) }

end Worker

inductive WorkerEvent where
  | updatePod (isCacheTerminal : Bool) (options : UpdatePodOptions)
  | startPodSync
  | completeSync
  | completeTerminating
  | completeTerminated
  | completeTerminatingRuntimePod
  | removeTerminatedWorker (orphaned : Bool)

namespace Worker

def step (w : Worker) : WorkerEvent → Worker
  | .updatePod isCacheTerminal options => w.updatePod isCacheTerminal options
  | .startPodSync => w.startPodSync
  | .completeSync => w.completeSync
  | .completeTerminating => w.completeTerminating
  | .completeTerminated => w.completeTerminated
  | .completeTerminatingRuntimePod => w.completeTerminatingRuntimePod
  | .removeTerminatedWorker orphaned => w.removeTerminatedWorker orphaned

/-- A worker after its events. -/
def run (events : List WorkerEvent) : Worker := events.foldl step {}

/-! ## What a step does to the records -/

variable {w w' : Worker}

/-- The period that is recorded. -/
def period (w : Worker) : Int := w.status.elim 0 (·.gracePeriod)

def isTerminating (w : Worker) : Bool := w.status.any (·.terminatingAt)

/-- A step leaves the period alone, records a call, sets the period of an
orphan, or forgets the pod. -/
inductive Moves (w w' : Worker) : Prop where
  | keeps (records : w'.records = w.records) (period : w'.period = w.period)
      (terminating : w.isTerminating = true → w'.isTerminating = true)
  | calls (pod : Option V1Pod) (options : Option KillPodOptions)
      (records : w'.records = w.records ++ [.call w.period pod options])
      (period : w'.period = (Record.call w.period pod options).after)
      (terminating : w'.isTerminating = true)
  | orphans (records : w'.records = w.records) (notTerminating : w.isTerminating = false)
      (period : w'.period = 1) (terminating : w'.isTerminating = true)
  | forgets (heq : w' = {})

/-- A change of the status that leaves the period alone. -/
theorem Moves.of_status {status status' : PodSyncStatus} (hstatus : w.status = some status)
    (hperiod : status'.gracePeriod = status.gracePeriod)
    (hterminating : status.terminatingAt = true → status'.terminatingAt = true) :
    Moves w { w with status := some status' } :=
  .keeps rfl (by simp [period, hstatus, hperiod]) (by simpa [isTerminating, hstatus] using hterminating)

theorem Moves.of_map {f : PodSyncStatus → PodSyncStatus}
    (hperiod : ∀ status, (f status).gracePeriod = status.gracePeriod)
    (hterminating : ∀ status, status.terminatingAt = true → (f status).terminatingAt = true) :
    Moves w { w with status := w.status.map f } := by
  cases hstatus : w.status with
  | none => exact .keeps rfl (by simp [period, hstatus]) (by simp [isTerminating, hstatus])
  | some status =>
    rw [Option.map_some]
    exact .of_status hstatus (hperiod status) (hterminating status)

theorem becomesTerminating_gracePeriod (status : PodSyncStatus) (isRuntimePod : Bool) (pod : Option V1Pod)
    (options : UpdatePodOptions) :
    (becomesTerminating status isRuntimePod pod options).gracePeriod = status.gracePeriod
      ∧ (status.terminatingAt = true →
        (becomesTerminating status isRuntimePod pod options).terminatingAt = true) := by
  simp only [becomesTerminating]
  split
  · exact ⟨rfl, id⟩
  · split
    · exact ⟨rfl, fun _ => rfl⟩
    · split
      · exact ⟨rfl, fun _ => rfl⟩
      · split
        · exact ⟨rfl, fun _ => rfl⟩
        · exact ⟨rfl, id⟩

/-- `base` is the worker before the status was created, where it is new. -/
theorem moves_updateStatus {base : Worker} {status : PodSyncStatus} (hrecords : base.records = w.records)
    (hperiod : status.gracePeriod = base.period)
    (hterminating : base.isTerminating = true → status.terminatingAt = true)
    (firstTime : Bool) (options : UpdatePodOptions) :
    Moves base (w.updateStatus firstTime status options) := by
  have hquiet : ∀ {status' : PodSyncStatus}, status'.gracePeriod = status.gracePeriod →
      (status.terminatingAt = true → status'.terminatingAt = true) →
      Moves base { w with status := some status' } := by
    intro status' heq hkeep
    refine .keeps hrecords.symm (by simp [period, heq, hperiod]) fun h => ?_
    simpa [isTerminating] using hkeep (hterminating h)
  simp only [updateStatus]
  generalize hobserved : (if options.pod.isNone then { status with observedRuntime := true } else status) = s
  have hs : s.gracePeriod = status.gracePeriod ∧ s.terminatingAt = status.terminatingAt := by
    rw [← hobserved]
    split <;> exact ⟨rfl, rfl⟩
  generalize resolvePod s options = resolved
  obtain ⟨options', pod⟩ := resolved
  have hbecomes := becomesTerminating_gracePeriod s options.pod.isNone pod options'
  dsimp only
  split
  · exact hquiet hs.1 (fun h => hs.2.trans h)
  · split
    · exact hquiet hs.1 (fun h => hs.2.trans h)
    · split
      · split
        · exact hquiet (hbecomes.1.trans hs.1) fun h => hbecomes.2 (hs.2.trans h)
        · exact hquiet (hbecomes.1.trans hs.1) fun h => hbecomes.2 (hs.2.trans h)
      · split
        · rename_i hterminates
          have hbefore : (becomesTerminating s options.pod.isNone pod options').gracePeriod = base.period :=
            hbecomes.1.trans (hs.1.trans hperiod)
          refine .calls pod (some (options'.killPodOptions.getD {})) ?_ ?_ ?_
          · simp only [recordPeriod, hbefore, hrecords]
          · simp [period, recordPeriod, hbefore]
          · simpa [isTerminating, recordPeriod] using hterminates
        · exact hquiet (hbecomes.1.trans hs.1) fun h => hbecomes.2 (hs.2.trans h)

theorem newStatus_gracePeriod (isCacheTerminal : Bool) (options : UpdatePodOptions) :
    (newStatus isCacheTerminal options).gracePeriod = 0 := by
  rw [newStatus]
  split <;> rfl

/-- **What a step does to the records.** -/
theorem moves_step (w : Worker) (e : WorkerEvent) : Moves w (w.step e) := by
  have hsame : Moves w w := .keeps rfl rfl id
  cases e with
  | updatePod isCacheTerminal options =>
    simp only [step, updatePod]
    split
    · exact hsame
    · split
      · rename_i status hstatus
        exact moves_updateStatus rfl (by simp [period, hstatus]) (by simp [isTerminating, hstatus]) _ _
      · rename_i hstatus
        exact moves_updateStatus rfl (by simp [period, hstatus, newStatus_gracePeriod])
          (by simp [isTerminating, hstatus]) _ _
  | startPodSync =>
    simp only [step, startPodSync]
    split
    · exact hsame
    · rename_i status hstatus
      split
      · exact hsame
      · exact .of_status hstatus rfl id
  | completeSync => exact .of_map (fun _ => rfl) (fun _ _ => rfl)
  | completeTerminating => exact .of_map (fun _ => rfl) (fun _ => id)
  | completeTerminated => exact .of_map (fun _ => rfl) (fun _ => id)
  | completeTerminatingRuntimePod => exact .forgets rfl
  | removeTerminatedWorker orphaned =>
    simp only [step, removeTerminatedWorker]
    split
    · exact hsame
    · rename_i status hstatus
      split
      · exact .forgets rfl
      · split
        · exact hsame
        · split
          · exact .forgets rfl
          · split
            · exact .of_status hstatus rfl id
            · rename_i hnot
              have hperiod : status.gracePeriod = w.period := by simp [period, hstatus]
              split
              · rename_i pod _
                refine .calls (some pod) none ?_ ?_ ?_
                · simp only [recordPeriod, hperiod]
                · simp [period, recordPeriod, requeueLastPodUpdate, hstatus]
                · simp [isTerminating, recordPeriod, requeueLastPodUpdate]
              · exact .orphans rfl (by simpa [isTerminating, hstatus] using hnot) rfl rfl

/-! ## Runs -/

/-- Each call was made with the period that the one before it recorded. -/
inductive Linked : List Record → Prop where
  | nil : Linked []
  | snoc {records : List Record} {r : Record} (linked : Linked records) (call : r.IsCall)
      (nonneg : 0 ≤ r.before) (fromLast : ∀ last ∈ records.getLast?, r.before = last.after) :
      Linked (records ++ [r])

/-- What every step keeps. -/
structure Sound (w : Worker) : Prop where
  nonneg : 0 ≤ w.period
  linked : Linked w.records
  last : ∀ r ∈ w.records.getLast?, w.period = r.after
  quiet : w.isTerminating = false → w.records = []

theorem Sound.moves (h : w.Sound) (hmoves : Moves w w') : w'.Sound := by
  cases hmoves with
  | keeps records period terminating =>
    refine ⟨period ▸ h.nonneg, records ▸ h.linked, records ▸ period ▸ h.last, fun hnot => ?_⟩
    rw [records]
    refine h.quiet ?_
    cases hterminating : w.isTerminating with
    | false => rfl
    | true =>
      rw [terminating hterminating] at hnot
      cases hnot
  | calls pod options records period terminating =>
    have hcall : (Record.call w.period pod options).IsCall := rfl
    refine ⟨?_, ?_, ?_, fun hnot => ?_⟩
    · rw [period]
      exact Int.le_trans (by decide) (Record.one_le_after hcall)
    · rw [records]
      exact .snoc h.linked hcall h.nonneg h.last
    · rw [records]
      rintro r hr
      rw [List.getLast?_concat, Option.mem_some_iff] at hr
      rw [period, hr]
    · rw [terminating] at hnot
      cases hnot
  | orphans records notTerminating period terminating =>
    have hnone : w'.records = [] := records.trans (h.quiet notTerminating)
    refine ⟨by rw [period]; decide, hnone ▸ .nil, by simp [hnone], fun _ => hnone⟩
  | forgets heq =>
    rw [heq]
    exact ⟨Int.le_refl 0, .nil, by simp, fun _ => rfl⟩

theorem sound_run (events : List WorkerEvent) : (run events).Sound := by
  induction events using List.reverseRecOn with
  | nil => exact ⟨Int.le_refl 0, .nil, by simp [run], fun _ => rfl⟩
  | append_singleton events e ih =>
    rw [run, List.foldl_concat]
    exact ih.moves (moves_step _ e)

end Worker

/-! ## What the records keep -/

/-- What a call returns, after the calls before it. -/
structure Kept (earlier : List Record) (r : Record) : Prop where
  fromLast : ∀ last ∈ earlier.getLast?, r.before = last.after
  atLeastOne : 1 ≤ r.after
  neverUp : r.before ≠ 0 → r.after ≤ r.before
  bounded : ∀ r' ∈ earlier ++ [r], ∀ v ∈ r'.supplied, r.after ≤ max v 1
  shortened_iff : r.shortened = true ↔ r.before ≠ 0 ∧ r.after < r.before

def RecordsKept (records : List Record) : Prop :=
  ∀ earlier r later, records = earlier ++ r :: later → Kept earlier r

namespace Worker.Linked

theorem of_append {records later : List Record} (h : Linked (records ++ later)) : Linked records := by
  induction later using List.reverseRecOn with
  | nil => rwa [List.append_nil] at h
  | append_singleton later r ih =>
    rw [← List.append_assoc] at h
    generalize hall : records ++ later ++ [r] = all at h
    cases h with
    | nil => simp at hall
    | snoc linked =>
      obtain ⟨heq, -⟩ := List.append_inj' hall rfl
      exact ih (heq ▸ linked)

theorem last_snoc {records : List Record} {r : Record} (h : Linked (records ++ [r])) :
    Linked records ∧ r.IsCall ∧ 0 ≤ r.before ∧ ∀ last ∈ records.getLast?, r.before = last.after := by
  generalize hall : records ++ [r] = all at h
  cases h with
  | nil => simp at hall
  | snoc linked call nonneg fromLast =>
    obtain ⟨rfl, heq⟩ := List.append_inj' hall rfl
    cases heq
    exact ⟨linked, call, nonneg, fromLast⟩

/-- By induction on the calls: a bound that the last call keeps to is kept to
by the next one, which does not go up. -/
theorem bounded {records : List Record} (h : Linked records) (hzero : ∀ r ∈ records, ¬ r.ZeroOverridden) :
    ∀ last ∈ records.getLast?, ∀ r' ∈ records, ∀ v ∈ r'.supplied, last.after ≤ max v 1 := by
  induction h with
  | nil => simp
  | @snoc records r linked call nonneg fromLast ih =>
    have ih := ih fun r' hr' => hzero r' (List.mem_append_left _ hr')
    obtain ⟨hup, hsupplied⟩ := Record.after_le call nonneg (hzero r (by simp))
    intro last hlast r' hr' v hv
    rw [List.getLast?_concat, Option.mem_some_iff] at hlast
    subst hlast
    rcases List.mem_append.mp hr' with hr' | hr'
    · obtain ⟨last, hlast⟩ : ∃ last, last ∈ records.getLast? := by
        cases hget : records.getLast? with
        | none =>
          rw [List.getLast?_eq_none_iff.mp hget] at hr'
          cases hr'
        | some last => exact ⟨last, rfl⟩
      have hbefore := fromLast last hlast
      have hone : 1 ≤ last.after := by
        obtain ⟨start, heq⟩ := List.getLast?_eq_some_iff.mp hlast
        exact Record.one_le_after (last_snoc (heq ▸ linked)).2.1
      have hlastBound := ih last hlast r' hr' v hv
      have hdown := hup (by omega)
      omega
    · rw [List.mem_singleton.mp hr'] at hv
      exact hsupplied v hv

end Worker.Linked

/-- **The recorded period keeps to all it was given just when no update
overrides a deletion without a grace period.** -/
theorem recordsKept_iff (events : List WorkerEvent) :
    RecordsKept (Worker.run events).records ↔ ∀ r ∈ (Worker.run events).records, ¬ r.ZeroOverridden := by
  have hlinked := (Worker.sound_run events).linked
  generalize (Worker.run events).records = records at hlinked
  constructor
  · intro hkept r hr hzero
    obtain ⟨earlier, later, rfl⟩ := List.append_of_mem hr
    have hsnoc : Worker.Linked (earlier ++ [r]) := by
      rw [List.append_cons] at hlinked
      exact hlinked.of_append
    obtain ⟨-, hcall, hnonneg, -⟩ := hsnoc.last_snoc
    obtain ⟨hsupplied, hlt⟩ := Record.lt_after hcall hnonneg hzero
    have hle := (hkept earlier r later rfl).bounded r (by simp) 0 hsupplied
    omega
  · rintro hzero earlier r later rfl
    have hsnoc : Worker.Linked (earlier ++ [r]) := by
      rw [List.append_cons] at hlinked
      exact hlinked.of_append
    obtain ⟨-, hcall, hnonneg, hfrom⟩ := hsnoc.last_snoc
    have hzero : ∀ r' ∈ earlier ++ [r], ¬ r'.ZeroOverridden := by
      intro r' hr'
      refine hzero r' ?_
      rw [List.append_cons]
      exact List.mem_append_left _ hr'
    have hup := (Record.after_le hcall hnonneg (hzero r (by simp))).1
    refine ⟨hfrom, Record.one_le_after hcall, hup, ?_, ?_⟩
    · exact hsnoc.bounded hzero r (by simp)
    · rw [Record.shortened_iff hcall]
      constructor
      · rintro ⟨hset, hne⟩
        exact ⟨hset, lt_of_le_of_ne (hup hset) (Ne.symm hne)⟩
      · rintro ⟨hset, hlt⟩
        exact ⟨hset, hlt.ne'⟩

/-- A pod that was deleted with no grace period, and its eviction with thirty
seconds. -/
def evictedWithOverride : Record :=
  .call 0 (some { hasDeletionTimestamp := true, deletionGracePeriodSeconds := some 0 })
    (some { evict := true, podTerminationGracePeriodSecondsOverride := some 30 })

theorem override_not_kept :
    (Worker.run [.updatePod false
      { updateType := .kill, pod := evictedWithOverride.pod, killPodOptions := evictedWithOverride.options }]).records
        = [evictedWithOverride]
      ∧ ¬ RecordsKept [evictedWithOverride] := by
  refine ⟨rfl, fun h => ?_⟩
  have hbound := (h [] evictedWithOverride [] rfl).bounded evictedWithOverride (by simp) 0 (by decide)
  revert hbound
  decide

/-! ## The lifetime of a status -/

inductive PodWorkerState where
  | syncPod
  | terminatingPod
  | terminatedPod

def workType (status : PodSyncStatus) : PodWorkerState :=
  if status.terminatedAt then .terminatedPod
  else if status.terminatingAt then .terminatingPod
  else .syncPod

def shouldPodContentBeRemoved (status : PodSyncStatus) : Bool :=
  status.evicted || (status.deleted && status.terminatedAt)

/-- What is set stays so. -/
def Later (status status' : PodSyncStatus) : Prop :=
  ∀ flag ∈ [PodSyncStatus.startedAt, (·.terminatingAt), (·.terminatedAt), (·.finished), (·.deleted),
      (·.evicted), (·.restartRequested), (·.observedRuntime)],
    flag status = true → flag status' = true

namespace Worker

variable {w : Worker} {status status' : PodSyncStatus}

theorem later_becomesTerminating (status : PodSyncStatus) (isRuntimePod : Bool) (pod : Option V1Pod)
    (options : UpdatePodOptions) : Later status (becomesTerminating status isRuntimePod pod options) := by
  simp only [becomesTerminating]
  repeat' split
  all_goals simp +contextual [Later]

theorem later_updateStatus {firstTime : Bool} {options : UpdatePodOptions}
    (h : (w.updateStatus firstTime status options).status = some status') :
    Later status status' := by
  simp only [updateStatus] at h
  generalize hobserved : (if options.pod.isNone then _ else status) = s at h
  have hs : Later status s := by
    rw [← hobserved]
    split <;> simp [Later]
  generalize resolvePod _ options = resolved at h
  have hbecomes := later_becomesTerminating s options.pod.isNone resolved.2 resolved.1
  generalize becomesTerminating s _ _ _ = t at h hbecomes
  repeat' split at h
  all_goals cases h
  all_goals simp_all [Later, recordPeriod]

/-- A step keeps what is set, where it keeps the status. -/
theorem later_step (e : WorkerEvent) (h : w.status = some status)
    (h' : (w.step e).status = some status') : Later status status' := by
  have hrefl : Later status status := fun _ _ hset => hset
  cases e with
  | updatePod isCacheTerminal options =>
    simp only [step, updatePod, h] at h'
    split at h'
    · simp_all
    · exact later_updateStatus h'
  | startPodSync =>
    simp only [step, startPodSync, h] at h'
    split at h'
    · simp_all
    · cases h'
      simp +contextual [Later]
  | removeTerminatedWorker orphaned =>
    simp only [step, removeTerminatedWorker, h] at h'
    repeat' split at h'
    all_goals simp_all [Later, requeueLastPodUpdate, recordPeriod]
    all_goals simp [← h']
  | completeTerminatingRuntimePod => cases h'
  | completeSync | completeTerminating | completeTerminated =>
    simp only [step, completeSync, completeTerminating, completeTerminated, h, Option.map_some,
      Option.some.injEq] at h'
    simp [Later, ← h', requeueLastPodUpdate]

/-- The steps of a worker that has a status, up to the one that forgets it. -/
def lifetime (status : PodSyncStatus) : System Worker WorkerEvent where
  init w := w.status = some status
  step w e w' := w' = w.step e ∧ w'.status.isSome = true

/-- **A lifetime**: whatever the events and their order, what is set stays
set, the type of the work does not go back, and content that should be
removed still should. -/
theorem later_of_reach (h : (lifetime status).Reach w) : ∃ status', w.status = some status'
    ∧ Later status status' ∧ (workType status).ctorIdx ≤ (workType status').ctorIdx
    ∧ (shouldPodContentBeRemoved status = true → shouldPodContentBeRemoved status' = true) := by
  obtain ⟨status', h', hlater⟩ : ∃ status', w.status = some status' ∧ Later status status' := by
    refine h.invariant (P := fun w => ∃ status', w.status = some status' ∧ Later status status') ?_ ?_
    · intro w hw
      exact ⟨status, hw, fun _ _ hset => hset⟩
    · rintro w e w' - ⟨between, hbetween, hlater⟩ ⟨rfl, hsome⟩
      obtain ⟨status', h'⟩ := Option.isSome_iff_exists.mp hsome
      exact ⟨status', h', fun flag hflag hset =>
        later_step e hbetween h' flag hflag (hlater flag hflag hset)⟩
  refine ⟨status', h', hlater, ?_⟩
  simp only [Later, List.forall_mem_cons] at hlater
  unfold workType shouldPodContentBeRemoved
  grind

theorem later_of_eviction : ∃ status',
    (step { status := some { evicted := true } } .completeTerminating).status = some status'
      ∧ shouldPodContentBeRemoved status' = true := by
  have hstart : (lifetime { evicted := true }).init { status := some { evicted := true } } := rfl
  obtain ⟨status', h', -, -, hremoved⟩ := later_of_reach
    ((System.Reach.start hstart).step (l := .completeTerminating) ⟨rfl, rfl⟩)
  exact ⟨status', h', hremoved rfl⟩

end Worker

end Webernetes.Kubelet.PodWorkers
