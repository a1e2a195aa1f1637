/-
Webernetes.Kuberuntime.CrashLoop — how long a container that exits stays down.

Under each key the log of a run tells a record: how many restarts there were
since the record began, and when the last was (`record`). The entries of the
`Backoff` are the records (`inv_of_reach`), so that `doBackOff` allows and
refuses by them (`crashLoop_lawful`). A record ends with a long run of the
container, and also with a collection long after the last restart.
-/
import Webernetes.Base.History
import Webernetes.Base.Transition
import Webernetes.ClientGo.Backoff
import Mathlib.Algebra.Order.Ring.Rat
import Mathlib.Tactic.Linarith
import Mathlib.Tactic.NormNum
import Mathlib.Tactic.Ring

namespace Webernetes.Kuberuntime.CrashLoop

open Js Base ClientGo

/-! ## `doBackOff` -/

inductive ContainerState where
  | created
  | running
  | exited
  | unknown
  deriving DecidableEq

structure ContainerStatus where
  name : JsString
  state : ContainerState
  finishedAt : Option ℚ := none

/-- The message and the `BackoffError`. -/
structure Refusal where
  backoff : ℚ
  containerName : JsString
  podName : JsString
  backoffTime : Int

/-- The exited status that is consulted, and its time. -/
def exitOf (containerName : JsString) (containerStatuses : List ContainerStatus) : Option Int :=
  (containerStatuses.find? fun status => status.name = containerName ∧ status.state = .exited).map
    fun status => wholeMs (status.finishedAt.getD 0)

/-- `key` is what `getBackoffKey` makes of the pod and the container. -/
def doBackOff (backOff : Backoff) (nowMs random : ℚ) (key podName containerName : JsString)
    (containerStatuses : List ContainerStatus) : Option Refusal × Backoff :=
  match exitOf containerName containerStatuses with
  | none => (none, backOff)
  | some finishedAt =>
    if backOff.isInBackOffSince nowMs key finishedAt then
      let backoff := backOff.get key
      (some { backoff, containerName, podName, backoffTime := wholeMs (finishedAt + backoff) }, backOff)
    else (none, backOff.next nowMs random key finishedAt)

/-! ## Runs -/

/-- What happened at which time. -/
inductive Event where
  | restarted (key : JsString) (exit : Int) (nowMs : ℚ)
  | refused (key : JsString) (exit : Int) (nowMs : ℚ)
  | collected (nowMs : ℚ)
  deriving DecidableEq

structure Machine where
  backOff : Backoff
  nowMs : ℚ
  log : List Event := []

inductive Act where
  | pass (ms : ℚ)
  | attempt (key podName containerName : JsString) (containerStatuses : List ContainerStatus)
      (random : ℚ)
  | collect

def exec (m : Machine) : Act → Machine
  | .pass ms => { m with nowMs := m.nowMs + ms }
  | .attempt key podName containerName containerStatuses random =>
    let (refusal, backOff) :=
      doBackOff m.backOff m.nowMs random key podName containerName containerStatuses
    match exitOf containerName containerStatuses with
    | none => { m with backOff }
    | some exit =>
      { m with
        backOff
        log := m.log ++ [if refusal.isSome then .refused key exit m.nowMs
          else .restarted key exit m.nowMs] }
  | .collect => { m with backOff := m.backOff.gc m.nowMs, log := m.log ++ [.collected m.nowMs] }

/-- Time does not go back, and what has exited has exited before. -/
def Timely (m : Machine) : Act → Prop
  | .pass ms => 0 ≤ ms
  | .attempt _ _ _ containerStatuses _ => ∀ status ∈ containerStatuses,
      ∀ finishedAt ∈ status.finishedAt, 0 ≤ finishedAt ∧ finishedAt ≤ m.nowMs
  | .collect => True

/-- The runs of a `Backoff` without jitter. -/
def crashLoops (initialMs maxMs : ℚ) : System Machine Act where
  init m := ∃ nowMs, 0 ≤ nowMs ∧ m = { backOff := newBackOff initialMs maxMs, nowMs }
  step m act m' := m' = exec m act ∧ Timely m act

/-! ## Records -/

section Records

variable (initialMs maxMs : ℚ)

/-- The container ran long since its last restart. -/
def LongRun (time last : Int) : Prop := maxMs * 2 < (time - last : Int)

instance (time last : Int) : Decidable (LongRun maxMs time last) :=
  inferInstanceAs (Decidable (maxMs * 2 < (time - last : Int)))

/-- The restarts of a record and the time of the last one. -/
abbrev Record := Option (Nat × Int)

def recordStep (key : JsString) (record : Record) : Event → Record
  | .restarted key' exit nowMs =>
    if key' = key then
      match record with
      | none => some (1, wholeMs nowMs)
      | some (restarts, last) =>
        if LongRun maxMs exit last then some (1, wholeMs nowMs)
        else some (restarts + 1, wholeMs nowMs)
    else record
  | .refused _ _ _ => record
  | .collected nowMs => record.filter fun r => ¬ LongRun maxMs (wholeMs nowMs) r.2

def record (key : JsString) (log : List Event) : Record := log.foldl (recordStep maxMs key) none

/-- The initial backoff, doubled with each further restart, up to the
maximum. -/
def recordedBackoff : Record → ℚ
  | none => 0
  | some (restarts, _) => min (initialMs * 2 ^ (restarts - 1)) maxMs

/-- The container has been down long enough, or had run long. -/
def Permits (record : Record) (exit : Int) (nowMs : ℚ) : Prop :=
  recordedBackoff initialMs maxMs record ≤ nowMs - exit ∨
    ∃ r ∈ record, LongRun maxMs exit r.2

/-- What an event says about the record before it. -/
def Event.Rightful (before : List Event) : Event → Prop
  | .restarted key exit nowMs => Permits initialMs maxMs (record maxMs key before) exit nowMs
  | .refused key exit nowMs => ¬ Permits initialMs maxMs (record maxMs key before) exit nowMs
  | .collected _ => True

structure Lawful (m : Machine) : Prop where
  recorded : ∀ key, m.backOff.get key = recordedBackoff initialMs maxMs (record maxMs key m.log)
  rightful : Throughout (fun before event => event.Rightful initialMs maxMs before) m.log

end Records

section Laws

variable {initialMs maxMs : ℚ}

theorem record_snoc (key : JsString) (log : List Event) (event : Event) :
    record maxMs key (log ++ [event]) = recordStep maxMs key (record maxMs key log) event := by
  rw [record, List.foldl_concat]
  rfl

/-- The entry of a record. -/
def entryOf (initialMs maxMs : ℚ) (r : Nat × Int) : BackoffEntry :=
  { backoff := min (initialMs * 2 ^ (r.1 - 1)) maxMs, lastUpdate := r.2 }

/-- The settings of a `Backoff` without jitter. -/
def Settings (initialMs maxMs : ℚ) (b : Backoff) : Prop :=
  ∃ perItemBackoff, b = { newBackOff initialMs maxMs with perItemBackoff }

theorem settings_with {b : Backoff} (h : Settings initialMs maxMs b)
    (perItemBackoff : JsMap JsString BackoffEntry) :
    Settings initialMs maxMs { b with perItemBackoff } := by
  obtain ⟨_, rfl⟩ := h
  exact ⟨perItemBackoff, rfl⟩

structure Inv (initialMs maxMs : ℚ) (m : Machine) : Prop where
  nowMs : 0 ≤ m.nowMs
  settings : Settings initialMs maxMs m.backOff
  entries : ∀ key, m.backOff.perItemBackoff.get key =
    (record maxMs key m.log).map (entryOf initialMs maxMs)
  positive : ∀ key, ∀ r ∈ record maxMs key m.log, 1 ≤ r.1
  rightful : Throughout (fun before event => event.Rightful initialMs maxMs before) m.log

/-- One more restart doubles the backoff up to the maximum. -/
theorem min_double (hmax : 0 ≤ maxMs) {restarts : Nat} (h : 1 ≤ restarts) :
    min (min (initialMs * 2 ^ (restarts - 1)) maxMs * 2) maxMs
      = min (initialMs * 2 ^ (restarts + 1 - 1)) maxMs := by
  have hpow : initialMs * 2 ^ (restarts + 1 - 1) = initialMs * 2 ^ (restarts - 1) * 2 := by
    obtain ⟨k, rfl⟩ : ∃ k, restarts = k + 1 := ⟨restarts - 1, by omega⟩
    rw [Nat.add_sub_cancel, Nat.add_sub_cancel, pow_succ, mul_assoc]
  rw [hpow]
  rcases le_total (initialMs * 2 ^ (restarts - 1)) maxMs with hle | hle
  · rw [min_eq_left hle]
  · rw [min_eq_right hle, min_eq_right (by linarith), min_eq_right (by linarith)]

section Step

variable {m : Machine}

theorem hasExpired_iff (h : Inv initialMs maxMs m) (time last : Int) :
    m.backOff.hasExpired time last m.backOff.maxDurationMs = true ↔ LongRun maxMs time last := by
  obtain ⟨perItemBackoff, hback⟩ := h.settings
  rw [hback]
  exact decide_eq_true_iff

/-- What has exited is held back just when the record does not permit it. -/
theorem isInBackOffSince_iff (h : Inv initialMs maxMs m) (key : JsString) {exit : Int}
    (hexit : (exit : ℚ) ≤ m.nowMs) : m.backOff.isInBackOffSince m.nowMs key exit = true ↔
      ¬ Permits initialMs maxMs (record maxMs key m.log) exit m.nowMs := by
  have hentry := h.entries key
  unfold Backoff.isInBackOffSince
  cases hrecord : record maxMs key m.log with
  | none =>
    rw [hrecord, Option.map_none] at hentry
    have hpermits : Permits initialMs maxMs none exit m.nowMs := .inl (by
      show (0 : ℚ) ≤ m.nowMs - exit
      linarith)
    simp [hentry, hpermits]
  | some r =>
    rw [hrecord, Option.map_some] at hentry
    rw [hentry]
    by_cases hlong : LongRun maxMs exit r.2
    · have hexpired := (hasExpired_iff h exit r.2).mpr hlong
      have hpermits : Permits initialMs maxMs (some r) exit m.nowMs := .inr ⟨r, rfl, hlong⟩
      simp [entryOf, hexpired, hpermits]
    · have hexpired : m.backOff.hasExpired exit r.2 m.backOff.maxDurationMs = false := by
        rw [← Bool.not_eq_true, hasExpired_iff h]
        exact hlong
      have hpermits : Permits initialMs maxMs (some r) exit m.nowMs ↔
          min (initialMs * 2 ^ (r.1 - 1)) maxMs ≤ m.nowMs - exit := by
        constructor
        · rintro (hle | ⟨r', hr', hlong'⟩)
          · exact hle
          · cases hr'
            exact absurd hlong' hlong
        · exact .inl
      rw [hpermits, not_le]
      simp [entryOf, hexpired]

/-- The entry that `next` leaves is that of the record after the restart. -/
theorem nextEntry_eq (h : Inv initialMs maxMs m) (hpos : 0 < initialMs) (hle : initialMs ≤ maxMs)
    (random : ℚ) (key : JsString) (exit : Int) :
    some (m.backOff.nextEntry m.nowMs random key exit) =
      (recordStep maxMs key (record maxMs key m.log) (.restarted key exit m.nowMs)).map
        (entryOf initialMs maxMs) := by
  have hentry := h.entries key
  have hexpired := hasExpired_iff h exit
  obtain ⟨perItemBackoff, hback⟩ := h.settings
  have hinitial : m.backOff.defaultDurationMs = initialMs := by rw [hback]; rfl
  have hmax : m.backOff.maxDurationMs = maxMs := by rw [hback]; rfl
  have hjitter : m.backOff.maxJitterFactor = 0 := by rw [hback]; rfl
  have hfirst : min (initialMs * 2 ^ (1 - 1)) maxMs = initialMs := by
    rw [Nat.sub_self, pow_zero, mul_one, min_eq_left hle]
  simp only [recordStep, if_true, Backoff.nextEntry, Backoff.initEntryUnsafe, Backoff.jitter, hinitial,
    hjitter, mul_zero, zero_mul, add_zero]
  cases hrecord : record maxMs key m.log with
  | none =>
    rw [hrecord, Option.map_none] at hentry
    simp only [hentry, Option.map_some, entryOf, hfirst]
  | some r =>
    rw [hrecord, Option.map_some] at hentry
    simp only [hentry, entryOf]
    by_cases hlong : LongRun maxMs exit r.2
    · rw [if_pos ((hexpired r.2).mpr hlong), if_pos hlong]
      simp only [Option.map_some, entryOf, hfirst]
    · rw [if_neg (fun hexp => hlong ((hexpired r.2).mp hexp)), if_neg hlong]
      have hdouble := @min_double initialMs maxMs (by linarith) _ (h.positive key r hrecord)
      simp only [Option.map_some, entryOf, hmax, hdouble]

theorem inv_pass (h : Inv initialMs maxMs m) {ms : ℚ} (hms : 0 ≤ ms) :
    Inv initialMs maxMs (exec m (.pass ms)) where
  nowMs := add_nonneg h.nowMs hms
  settings := h.settings
  entries := h.entries
  positive := h.positive
  rightful := h.rightful

theorem inv_collect (h : Inv initialMs maxMs m) : Inv initialMs maxMs (exec m .collect) := by
  have hrecord : ∀ key, record maxMs key (m.log ++ [Event.collected m.nowMs]) =
      (record maxMs key m.log).filter fun r => ¬ LongRun maxMs (wholeMs m.nowMs) r.2 :=
    fun key => record_snoc key m.log _
  constructor
  · exact h.nowMs
  · exact settings_with h.settings _
  · intro key
    show (m.backOff.gc m.nowMs).perItemBackoff.get key =
      (record maxMs key (m.log ++ [Event.collected m.nowMs])).map _
    rw [hrecord, Backoff.entry_gc, h.entries key]
    cases record maxMs key m.log with
    | none => rfl
    | some r =>
      have hexpired := hasExpired_iff h (wholeMs m.nowMs) r.2
      by_cases hlong : LongRun maxMs (wholeMs m.nowMs) r.2
      · simp [Option.filter, entryOf, hexpired.mpr hlong, hlong]
      · have hnot : m.backOff.hasExpired (wholeMs m.nowMs) r.2 m.backOff.maxDurationMs = false := by
          rw [← Bool.not_eq_true, hexpired]
          exact hlong
        simp [Option.filter, entryOf, hnot, hlong]
  · intro key r hr
    have hr' : r ∈ record maxMs key (m.log ++ [Event.collected m.nowMs]) := hr
    rw [hrecord] at hr'
    exact h.positive key r (Option.filter_eq_some_iff.mp hr').1
  · exact h.rightful.snoc trivial

/-- A status that is consulted is of the past. -/
theorem exitOf_le {podName containerName key : JsString} {random : ℚ} {exit : Int}
    {containerStatuses : List ContainerStatus} (h : Inv initialMs maxMs m)
    (htimely : Timely m (.attempt key podName containerName containerStatuses random))
    (hexit : exitOf containerName containerStatuses = some exit) : (exit : ℚ) ≤ m.nowMs := by
  obtain ⟨status, hfind, rfl⟩ := Option.map_eq_some_iff.mp hexit
  have hmem := List.mem_of_find?_eq_some hfind
  cases hfinished : status.finishedAt with
  | none =>
    have hzero : wholeMs 0 = 0 := by decide
    simpa [hzero] using h.nowMs
  | some finishedAt =>
    obtain ⟨hpos, hle⟩ := htimely status hmem finishedAt hfinished
    exact (wholeMs_le hpos).trans hle

theorem inv_attempt (h : Inv initialMs maxMs m) (hpos : 0 < initialMs) (hle : initialMs ≤ maxMs)
    {key podName containerName : JsString} {containerStatuses : List ContainerStatus} {random : ℚ}
    (htimely : Timely m (.attempt key podName containerName containerStatuses random)) :
    Inv initialMs maxMs (exec m (.attempt key podName containerName containerStatuses random)) := by
  cases hexit : exitOf containerName containerStatuses with
  | none =>
    have hsame : exec m (.attempt key podName containerName containerStatuses random) = m := by
      simp [exec, doBackOff, hexit]
    rw [hsame]
    exact h
  | some exit =>
    have hheld := isInBackOffSince_iff h key (exitOf_le h htimely hexit)
    cases hback : m.backOff.isInBackOffSince m.nowMs key exit with
    | true =>
      have hnext : exec m (.attempt key podName containerName containerStatuses random) =
          { m with log := m.log ++ [Event.refused key exit m.nowMs] } := by
        simp [exec, doBackOff, hexit, hback]
      have hrecord : ∀ key', record maxMs key' (m.log ++ [Event.refused key exit m.nowMs]) =
          record maxMs key' m.log := fun key' => record_snoc key' m.log _
      rw [hnext]
      refine ⟨h.nowMs, h.settings, fun key' => ?_, fun key' r hr => ?_, h.rightful.snoc (hheld.mp hback)⟩
      · show _ = (record maxMs key' (m.log ++ [Event.refused key exit m.nowMs])).map _
        rw [hrecord]
        exact h.entries key'
      · exact h.positive key' r (hrecord key' ▸ hr)
    | false =>
      have hnext : exec m (.attempt key podName containerName containerStatuses random) =
          { m with
            backOff := m.backOff.next m.nowMs random key exit
            log := m.log ++ [Event.restarted key exit m.nowMs] } := by
        simp [exec, doBackOff, hexit, hback]
      have hpermits : Permits initialMs maxMs (record maxMs key m.log) exit m.nowMs := by
        by_contra hnot
        exact absurd (hheld.mpr hnot) (by simp [hback])
      have hother : ∀ key', key' ≠ key →
          record maxMs key' (m.log ++ [Event.restarted key exit m.nowMs]) = record maxMs key' m.log := by
        intro key' hne
        simp [record_snoc, recordStep, Ne.symm hne]
      rw [hnext]
      refine ⟨h.nowMs, ?_, fun key' => ?_, fun key' r hr => ?_, h.rightful.snoc hpermits⟩
      · exact settings_with h.settings _
      · show (m.backOff.next m.nowMs random key exit).perItemBackoff.get key' =
          (record maxMs key' (m.log ++ [Event.restarted key exit m.nowMs])).map _
        rw [Backoff.entry_next]
        by_cases heq : key' = key
        · subst heq
          rw [if_pos rfl, record_snoc]
          exact nextEntry_eq h hpos hle random key' exit
        · rw [if_neg heq, hother key' heq]
          exact h.entries key'
      · by_cases heq : key' = key
        · subst heq
          have hr' : r ∈ recordStep maxMs key' (record maxMs key' m.log)
              (.restarted key' exit m.nowMs) := (record_snoc key' m.log _) ▸ hr
          simp only [recordStep, if_true] at hr'
          split at hr'
          · cases hr'
            exact Nat.le_refl 1
          · split at hr'
            · cases hr'
              exact Nat.le_refl 1
            · cases hr'
              exact Nat.le_add_left 1 _
        · exact h.positive key' r (hother key' heq ▸ hr)

end Step

/-- The entries are the records in every run. -/
theorem inv_of_reach (hpos : 0 < initialMs) (hle : initialMs ≤ maxMs) {m : Machine}
    (h : (crashLoops initialMs maxMs).Reach m) : Inv initialMs maxMs m := by
  refine h.invariant (P := Inv initialMs maxMs) ?_ ?_
  · rintro m ⟨nowMs, hnow, rfl⟩
    exact ⟨hnow, ⟨_, rfl⟩, fun _ => rfl, fun _ r hr => (by cases hr), Throughout.nil⟩
  · rintro m act m' - hinv ⟨rfl, htimely⟩
    cases act with
    | pass ms => exact inv_pass hinv htimely
    | attempt key podName containerName containerStatuses random =>
      exact inv_attempt hinv hpos hle htimely
    | collect => exact inv_collect hinv

/-- Restarts are allowed, refused and recorded as the log says. -/
theorem crashLoop_lawful (hpos : 0 < initialMs) (hle : initialMs ≤ maxMs) {m : Machine}
    (h : (crashLoops initialMs maxMs).Reach m) : Lawful initialMs maxMs m := by
  have hinv := inv_of_reach hpos hle h
  refine ⟨fun key => ?_, hinv.rightful⟩
  rw [Backoff.get, hinv.entries key]
  cases record maxMs key m.log <;> rfl

end Laws

/-! ## A collection before the restart -/

/-- A container that exited at the time. -/
def exitedAt (finishedAt : ℚ) : Act :=
  .attempt (js "k") (js "p") (js "c")
    [{ name := js "c", state := .exited, finishedAt := some finishedAt }] 0

/-- It exits one millisecond after its restart, and the next attempt is after
a collection. -/
def collectedBetween : List Act := [exitedAt 0, .pass 5, .collect, exitedAt 1]

def afterCollection : Machine :=
  collectedBetween.foldl exec { backOff := newBackOff 1 2, nowMs := 0 }

theorem reach_afterCollection : (crashLoops 1 2).Reach afterCollection := by
  have hexited : ∀ (m : Machine) (finishedAt : ℚ), 0 ≤ finishedAt → finishedAt ≤ m.nowMs →
      Timely m (exitedAt finishedAt) := by
    intro m finishedAt hpos hle status hstatus time htime
    obtain rfl := List.mem_singleton.mp hstatus
    cases htime
    exact ⟨hpos, hle⟩
  have hstart : (crashLoops 1 2).Reach { backOff := newBackOff 1 2, nowMs := 0 } :=
    .start ⟨0, by decide, rfl⟩
  have hfirst := hstart.step (l := exitedAt 0) ⟨rfl, hexited _ 0 (by decide) (by decide)⟩
  have hfive : (0 : ℚ) ≤ 5 := by decide
  have hpass := hfirst.step (l := Act.pass 5) ⟨rfl, hfive⟩
  have hcollect := hpass.step (l := Act.collect) ⟨rfl, trivial⟩
  have htime : (1 : ℚ) ≤ 0 + 5 := by norm_num
  exact hcollect.step (l := exitedAt 1) ⟨rfl, hexited _ 1 (by decide) htime⟩

theorem crashLoop_lawful_afterCollection : Lawful 1 2 afterCollection :=
  crashLoop_lawful (by decide) (by decide) reach_afterCollection

def Event.isCollection : Event → Bool
  | .collected _ => true
  | _ => false

/-- A collection starts the backoff again although the run was short. -/
theorem collection_restarts_backoff : ¬ ∀ (initialMs maxMs : ℚ), 0 < initialMs → initialMs ≤ maxMs →
    ∀ m, (crashLoops initialMs maxMs).Reach m → ∀ key, m.backOff.get key =
      recordedBackoff initialMs maxMs (record maxMs key
        (m.log.filter fun event => !event.isCollection)) := by
  intro h
  have hget := h 1 2 (by decide) (by decide) _ reach_afterCollection (js "k")
  exact absurd hget (by decide +kernel)

end Webernetes.Kuberuntime.CrashLoop
