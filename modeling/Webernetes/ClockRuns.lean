/-
Webernetes.ClockRuns — what a step of the clock runs.

`Acts` says what the callbacks and microtasks between two selections do to
the timer table, whatever their scripts are. The invariant of the loop,
`Progress`, is about the events since the step began: which timers were
armed, and for each the due times at which it has run.
-/
import Webernetes.Clock
import Mathlib.Data.Nat.Cast.Order.Ring
import Mathlib.Tactic.Linarith
import Mathlib.Tactic.Ring

namespace Webernetes

open Js

variable {κ σ : Type}

/-! ## The timer table -/

namespace Timers

theorem tasks_clearTimeout (t : Timers κ) (handle h : Nat) :
    (t.clearTimeout handle).tasks.get h = if h = handle then none else t.tasks.get h := by
  simp only [clearTimeout]
  split
  · rename_i hnone
    split
    · rename_i heq
      rw [heq, hnone]
    · rfl
  · exact JsMap.get_delete _ _ _

theorem nextHandle_clearTimeout (t : Timers κ) (handle : Nat) :
    (t.clearTimeout handle).nextHandle = t.nextHandle := by
  simp only [clearTimeout]
  split <;> rfl

/-- A timeout goes, and an interval is due one period later. -/
theorem tasks_settle (t : Timers κ) (handle h : Nat) :
    (t.settle handle).tasks.get h =
      if h = handle then
        (t.tasks.get handle).bind fun task => task.intervalMs.map fun intervalMs =>
          { task with dueAtMs := task.dueAtMs + intervalMs }
      else t.tasks.get h := by
  simp only [settle]
  split
  · rename_i hnone
    split
    · rename_i heq
      rw [heq, hnone]
      rfl
    · rfl
  · rename_i task htask
    have hbind : ((t.tasks.get handle).bind fun task => task.intervalMs.map fun intervalMs =>
        { task with dueAtMs := task.dueAtMs + intervalMs })
          = task.intervalMs.map fun intervalMs =>
            { task with dueAtMs := task.dueAtMs + intervalMs } := by
      rw [htask, Option.bind_some]
    rw [hbind]
    split
    · rename_i hinterval
      rw [hinterval]
      exact JsMap.get_delete _ _ _
    · rename_i intervalMs hinterval
      have hmap : (task.intervalMs.map fun intervalMs =>
          { task with dueAtMs := task.dueAtMs + intervalMs })
            = some { task with dueAtMs := task.dueAtMs + intervalMs } :=
        Option.map_eq_some_iff.mpr ⟨intervalMs, hinterval, rfl⟩
      rw [hmap, if_neg (t.armed handle task htask).2.2.1]
      exact JsMap.get_set _ _ _ _

theorem nextHandle_settle (t : Timers κ) (handle : Nat) :
    (t.settle handle).nextHandle = t.nextHandle := by
  simp only [settle]
  split
  · rfl
  · split
    · rfl
    · split <;> rfl

theorem earlier_spec (task : Task κ) (next : Option (Task κ)) :
    ∃ first, earlier task next = some first ∧ (first = task ∨ next = some first)
      ∧ first.key ≤ task.key ∧ ∀ other, next = some other → first.key ≤ other.key := by
  cases next with
  | none => exact ⟨task, rfl, .inl rfl, le_refl _, by simp⟩
  | some next =>
    have hkey : task.key < next.key ↔ task.dueAtMs < next.dueAtMs
        ∨ task.dueAtMs = next.dueAtMs ∧ task.handle < next.handle := Prod.Lex.toLex_lt_toLex
    simp only [earlier]
    split
    · rename_i hlt
      refine ⟨task, rfl, .inl rfl, le_refl _, fun other hother => ?_⟩
      cases hother
      exact le_of_lt (hkey.mpr hlt)
    · rename_i hnot
      refine ⟨next, rfl, .inr rfl, not_lt.mp fun hlt => hnot (hkey.mp hlt), fun other hother => ?_⟩
      cases hother
      exact le_refl _

/-- The first of those that are due, or none where none is. -/
theorem foldl_earlier (due : Task κ → Prop) [DecidablePred due] (tasks : List (Task κ)) :
    ∀ next : Option (Task κ),
      match tasks.foldl (fun next task => if due task then earlier task next else next) next with
      | none => next = none ∧ ∀ task ∈ tasks, ¬ due task
      | some first => (next = some first ∨ first ∈ tasks ∧ due first)
        ∧ (∀ other, next = some other → first.key ≤ other.key)
        ∧ ∀ task ∈ tasks, due task → first.key ≤ task.key := by
  induction tasks with
  | nil =>
    intro next
    cases next with
    | none => simp
    | some next => simp
  | cons task tasks ih =>
    intro next
    rw [List.foldl_cons]
    by_cases hdue : due task
    · rw [if_pos hdue]
      obtain ⟨first, hfirst, hwhich, hle, hleOther⟩ := earlier_spec task next
      have ih := ih (earlier task next)
      rw [hfirst] at ih ⊢
      split
      · rename_i hnone
        rw [hnone] at ih
        exact absurd ih.1 (by simp)
      · rename_i last hlast
        rw [hlast] at ih
        obtain ⟨hlastWhich, hlastLe, hall⟩ := ih
        have hlastFirst := hlastLe first rfl
        refine ⟨?_, fun other hother => hlastFirst.trans (hleOther other hother), ?_⟩
        · obtain hsame | ⟨hmem, hduelast⟩ := hlastWhich
          · cases hsame
            obtain rfl | hnext := hwhich
            · exact .inr ⟨List.mem_cons_self, hdue⟩
            · exact .inl hnext
          · exact .inr ⟨List.mem_cons_of_mem _ hmem, hduelast⟩
        · intro other hother hdueOther
          obtain rfl | hother := List.mem_cons.mp hother
          · exact hlastFirst.trans hle
          · exact hall other hother hdueOther
    · rw [if_neg hdue]
      have ih := ih next
      split
      · rename_i hnone
        rw [hnone] at ih
        refine ⟨ih.1, fun other hother => ?_⟩
        obtain rfl | hother := List.mem_cons.mp hother
        · exact hdue
        · exact ih.2 other hother
      · rename_i last hlast
        rw [hlast] at ih
        obtain ⟨hwhich, hle, hall⟩ := ih
        refine ⟨hwhich.imp_right fun ⟨hmem, hduelast⟩ => ⟨List.mem_cons_of_mem _ hmem, hduelast⟩,
          hle, fun other hother hdueOther => ?_⟩
        obtain rfl | hother := List.mem_cons.mp hother
        · exact absurd hdueOther hdue
        · exact hall other hother hdueOther

theorem mem_values {t : Timers κ} {task : Task κ} :
    task ∈ t.tasks.values ↔ t.tasks.get task.handle = some task := by
  rw [JsMap.values, List.mem_map]
  constructor
  · intro ⟨⟨handle, task'⟩, hmem, hsame⟩
    obtain rfl : task' = task := hsame
    have hget := JsMap.get_eq_some_iff.mpr hmem
    rw [(t.armed handle task' hget).1, hget]
  · intro hget
    exact ⟨(task.handle, task), JsMap.get_eq_some_iff.mp hget, rfl⟩

theorem nextDueTask_eq (t : Timers κ) (targetMs : ℚ) :
    t.nextDueTask targetMs = t.tasks.values.foldl (fun next task =>
      if ¬ (task.handle ∈ t.cancelled ∨ task.dueAtMs > targetMs) then earlier task next else next)
      none := by
  simp only [nextDueTask, ite_not]

/-- The next due timer is in the table, and no other that is due is earlier. -/
theorem nextDueTask_some {t : Timers κ} {targetMs : ℚ} {task : Task κ}
    (h : t.nextDueTask targetMs = some task) :
    t.tasks.get task.handle = some task ∧ task.dueAtMs ≤ targetMs
      ∧ ∀ handle other, t.tasks.get handle = some other → other.dueAtMs ≤ targetMs →
        task.key ≤ other.key := by
  have hfold := foldl_earlier (fun task : Task κ =>
    ¬ (task.handle ∈ t.cancelled ∨ task.dueAtMs > targetMs)) t.tasks.values none
  rw [← nextDueTask_eq, h] at hfold
  obtain ⟨hwhich, -, hall⟩ := hfold
  obtain hnone | ⟨hmem, hdue⟩ := hwhich
  · cases hnone
  · refine ⟨mem_values.mp hmem, not_lt.mp fun hlt => hdue (.inr hlt), fun handle other hget hle => ?_⟩
    obtain ⟨rfl, -, hnot, -⟩ := t.armed handle other hget
    exact hall other (mem_values.mpr hget) fun hor => hor.elim hnot (not_lt.mpr hle)

theorem nextDueTask_none {t : Timers κ} {targetMs : ℚ} (h : t.nextDueTask targetMs = none)
    {handle : Nat} {task : Task κ} (hget : t.tasks.get handle = some task) :
    targetMs < task.dueAtMs := by
  have hfold := foldl_earlier (fun task : Task κ =>
    ¬ (task.handle ∈ t.cancelled ∨ task.dueAtMs > targetMs)) t.tasks.values none
  rw [← nextDueTask_eq, h] at hfold
  obtain ⟨rfl, -, hnot, -⟩ := t.armed handle task hget
  have hlate := not_not.mp (hfold.2 task (mem_values.mpr hget))
  exact hlate.resolve_left hnot

end Timers

/-! ## What scripts do -/

/-- What happens on a paused clock while scripts run: timers are armed and
cleared, and microtasks run, all at one time. -/
structure Clock.Acts (c : Clock κ) (events : List (Event κ)) (c' : Clock κ) : Prop where
  log : c'.log = c.log ++ events
  paused : c'.paused = c.paused
  now : c'.simulatedNowMs = c.simulatedNowMs
  nextHandle : c.timers.nextHandle ≤ c'.timers.nextHandle
  armed : ∀ task, .armed task ∈ events → c.timers.nextHandle ≤ task.handle
    ∧ task.handle < c'.timers.nextHandle ∧ c.simulatedNowMs ≤ task.dueAtMs
    ∧ ∀ intervalMs, task.intervalMs = some intervalMs → 0 < intervalMs
  ordered : events.Pairwise fun e e' => ∀ task task', e = .armed task → e' = .armed task' →
    task.handle < task'.handle
  cleared : ∀ handle, .cleared handle ∈ events → handle < c'.timers.nextHandle
  microtask : ∀ nowMs, .microtask nowMs ∈ events → nowMs = c.simulatedNowMs
  ran : ∀ handle nowMs, .ran handle nowMs ∉ events
  reached : ∀ targetMs, .reached targetMs ∉ events
  tasks : ∀ handle task, c'.timers.tasks.get handle = some task ↔
    .cleared handle ∉ events
      ∧ (c.timers.tasks.get handle = some task ∨ .armed task ∈ events ∧ task.handle = handle)

namespace Clock

variable {c c' c'' : Clock κ} {events events' : List (Event κ)}

/-- Only what is queued as a microtask changes. -/
theorem Acts.refl (c : Clock κ) (microtasks : List κ) (flushingMicrotasks : Bool) :
    Acts c [] { c with microtasks, flushingMicrotasks } where
  log := by simp
  paused := rfl
  now := rfl
  nextHandle := Nat.le_refl _
  armed := by simp
  ordered := .nil
  cleared := by simp
  microtask := by simp
  ran := by simp
  reached := by simp
  tasks := by simp

theorem Acts.trans (h : c.Acts events c') (h' : c'.Acts events' c'') :
    c.Acts (events ++ events') c'' where
  log := by rw [h'.log, h.log, List.append_assoc]
  paused := h'.paused.trans h.paused
  now := h'.now.trans h.now
  nextHandle := h.nextHandle.trans h'.nextHandle
  armed task hmem := by
    obtain hmem | hmem := List.mem_append.mp hmem
    · obtain ⟨hle, hlt, hdue⟩ := h.armed task hmem
      exact ⟨hle, hlt.trans_le h'.nextHandle, hdue⟩
    · obtain ⟨hle, hlt, hdue⟩ := h'.armed task hmem
      exact ⟨h.nextHandle.trans hle, hlt, h.now ▸ hdue⟩
  ordered := by
    refine List.pairwise_append.mpr ⟨h.ordered, h'.ordered, ?_⟩
    rintro _ hmem _ hmem' task task' rfl rfl
    exact (h.armed task hmem).2.1.trans_le (h'.armed task' hmem').1
  cleared handle hmem := by
    obtain hmem | hmem := List.mem_append.mp hmem
    · exact (h.cleared handle hmem).trans_le h'.nextHandle
    · exact h'.cleared handle hmem
  microtask nowMs hmem := by
    obtain hmem | hmem := List.mem_append.mp hmem
    · exact h.microtask nowMs hmem
    · exact (h'.microtask nowMs hmem).trans h.now
  ran handle nowMs hmem := by
    obtain hmem | hmem := List.mem_append.mp hmem
    · exact h.ran handle nowMs hmem
    · exact h'.ran handle nowMs hmem
  reached targetMs hmem := by
    obtain hmem | hmem := List.mem_append.mp hmem
    · exact h.reached targetMs hmem
    · exact h'.reached targetMs hmem
  tasks handle task := by
    rw [h'.tasks, h.tasks]
    simp only [List.mem_append, not_or]
    constructor
    · rintro ⟨hnot', ⟨hnot, hfrom⟩ | ⟨harmed, hhandle⟩⟩
      · exact ⟨⟨hnot, hnot'⟩, hfrom.imp_right fun ⟨harmed, hhandle⟩ => ⟨.inl harmed, hhandle⟩⟩
      · refine ⟨⟨fun hmem => ?_, hnot'⟩, .inr ⟨.inr harmed, hhandle⟩⟩
        -- it was not armed yet when the others were cleared
        have hlt := h.cleared handle hmem
        have hle := (h'.armed task harmed).1
        omega
    · rintro ⟨⟨hnot, hnot'⟩, hfrom | ⟨harmed | harmed, hhandle⟩⟩
      · exact ⟨hnot', .inl ⟨hnot, .inl hfrom⟩⟩
      · exact ⟨hnot', .inl ⟨hnot, .inr ⟨harmed, hhandle⟩⟩⟩
      · exact ⟨hnot', .inr ⟨harmed, hhandle⟩⟩

theorem acts_arm (c : Clock κ) (task : Task κ) (hhandle : task.handle = c.timers.nextHandle)
    (hpos : ∀ intervalMs, task.intervalMs = some intervalMs → 0 < intervalMs)
    (hdue : c.simulatedNowMs ≤ task.dueAtMs) : c.Acts [.armed task] (c.arm task hhandle hpos) where
  log := rfl
  paused := rfl
  now := rfl
  nextHandle := Nat.le_succ _
  armed task' hmem := by
    cases List.mem_singleton.mp hmem
    exact ⟨hhandle.ge, by rw [hhandle]; exact Nat.lt_succ_self _, hdue, hpos⟩
  ordered := List.pairwise_singleton _ _
  cleared := by simp
  microtask := by simp
  ran := by simp
  reached := by simp
  tasks handle task' := by
    show (c.timers.tasks.set c.timers.nextHandle task).get handle = some task' ↔ _
    rw [JsMap.get_set]
    simp only [List.mem_singleton, reduceCtorEq, not_false_eq_true, true_and, Event.armed.injEq]
    split
    · rename_i hsame
      have hnone : c.timers.tasks.get handle ≠ some task' := fun hget =>
        absurd (c.timers.armed handle task' hget).2.1 (by omega)
      simp only [Option.some_inj, hnone, false_or]
      constructor
      · rintro rfl
        exact ⟨rfl, hhandle.trans hsame.symm⟩
      · exact fun h => h.1.symm
    · rename_i hne
      constructor
      · exact .inl
      · rintro (hget | ⟨rfl, hsame⟩)
        · exact hget
        · exact absurd (hsame.symm.trans hhandle) hne

theorem acts_clearTimeout (c : Clock κ) (handle : Nat) :
    ∃ events, c.Acts events (c.clearTimeout handle) := by
  simp only [clearTimeout]
  split
  · rename_i hcontains
    obtain ⟨task, htask⟩ := JsMap.contains_iff.mp hcontains
    refine ⟨[.cleared handle], ?_⟩
    constructor
    · rfl
    · rfl
    · rfl
    · exact (c.timers.nextHandle_clearTimeout handle).ge
    · simp
    · exact List.pairwise_singleton _ _
    · intro handle' hmem
      obtain rfl : handle' = handle := by simpa using hmem
      show handle' < (c.timers.clearTimeout handle').nextHandle
      rw [c.timers.nextHandle_clearTimeout]
      exact (c.timers.armed handle' task htask).2.1
    · simp
    · simp
    · simp
    · intro handle' task'
      show (c.timers.clearTimeout handle).tasks.get handle' = some task' ↔ _
      rw [c.timers.tasks_clearTimeout]
      split
      · rename_i hsame
        simp [hsame]
      · rename_i hne
        simp [hne]
  · exact ⟨[], .refl c c.microtasks c.flushingMicrotasks⟩

/-- By induction on the handles that are left. -/
theorem acts_clearTimeouts (handles : List Nat) (c : Clock κ) :
    ∃ events, c.Acts events (handles.foldl clearTimeout c) := by
  induction handles generalizing c with
  | nil => exact ⟨[], .refl c c.microtasks c.flushingMicrotasks⟩
  | cons handle handles ih =>
    obtain ⟨events, hacts⟩ := c.acts_clearTimeout handle
    obtain ⟨events', hacts'⟩ := ih (c.clearTimeout handle)
    exact ⟨events ++ events', hacts.trans hacts'⟩

theorem nowMs_of_paused {c : Clock κ} (h : c.paused = true) (dateNow : ℚ) :
    c.nowMs dateNow = c.simulatedNowMs :=
  if_pos h

/-- First what has been done already, then the script. -/
theorem Acts.exec (hacts : c.Acts events c') {dateNow : ℚ} {script : Script κ σ}
    (h : ∃ events', c'.Acts events' (c'.exec dateNow script).1) :
    ∃ events', c.Acts events' (c'.exec dateNow script).1 := by
  obtain ⟨events', hacts'⟩ := h
  exact ⟨events ++ events', hacts.trans hacts'⟩

/-- By induction on the script. -/
theorem acts_exec {dateNow : ℚ} (script : Script κ σ) (c : Clock κ) (h : c.paused = true) :
    ∃ events, c.Acts events (c.exec dateNow script).1 := by
  induction script generalizing c with
  | returns s => exact ⟨[], .refl c c.microtasks c.flushingMicrotasks⟩
  | throws s => exact ⟨[], .refl c c.microtasks c.flushingMicrotasks⟩
  | nowMs next ih => exact ih (c.nowMs dateNow) c h
  | setTimeout callback delayMs next ih =>
    refine Acts.exec (c.acts_arm _ rfl _ ?_) (ih _ _ h)
    rw [c.nowMs_of_paused h]
    exact le_add_of_nonneg_right (le_max_left 0 delayMs)
  | setInterval callback intervalMs next ih =>
    simp only [Clock.exec]
    split
    · exact ih none c h
    · rename_i hpos
      refine Acts.exec (c.acts_arm _ rfl _ ?_) (ih _ _ h)
      rw [c.nowMs_of_paused h]
      exact le_add_of_nonneg_right (le_of_lt (not_le.mp hpos))
  | clearTimeout handle next ih =>
    obtain ⟨events, hacts⟩ := c.acts_clearTimeout handle
    exact hacts.exec (ih _ (hacts.paused.trans h))
  | clear next ih =>
    obtain ⟨events, hacts⟩ := acts_clearTimeouts c.timers.tasks.keys c
    have hclear := hacts.trans (.refl _ [] (c.timers.tasks.keys.foldl clearTimeout c).flushingMicrotasks)
    exact hclear.exec (ih c.clear (hclear.paused.trans h))
  | queueMicrotask callback next ih =>
    exact (Acts.refl c (c.microtasks ++ [callback]) c.flushingMicrotasks).exec (ih _ h)

variable {body : κ → σ → Script κ σ} {dateNow : ℚ}

theorem acts_microtask (h : c.paused = true) (rest : List κ) :
    c.Acts [.microtask (c.nowMs dateNow)]
      { c with microtasks := rest, log := c.log ++ [Event.microtask (c.nowMs dateNow)] } where
  log := rfl
  paused := rfl
  now := rfl
  nextHandle := Nat.le_refl _
  armed := by simp
  ordered := List.pairwise_singleton _ _
  cleared := by simp
  microtask nowMs hmem := by
    obtain rfl : nowMs = c.nowMs dateNow := by simpa using hmem
    exact c.nowMs_of_paused h dateNow
  ran := by simp
  reached := by simp
  tasks := by simp

/-- By induction on the fuel. -/
theorem acts_drain (fuel : Nat) (h : c.paused = true) {s s' : σ} {threw : Bool}
    (hdrain : drain body dateNow fuel c s = some (c', s', threw)) :
    ∃ events, c.Acts events c' := by
  induction fuel generalizing c s with
  | zero => cases hdrain
  | succ fuel ih =>
    simp only [drain] at hdrain
    split at hdrain
    · obtain rfl : c = c' := congrArg Prod.fst (Option.some.inj hdrain)
      exact ⟨[], .refl c c.microtasks c.flushingMicrotasks⟩
    · rename_i callback rest hmicrotasks
      obtain ⟨events, hacts⟩ := (acts_microtask h rest).exec
        (acts_exec (body callback s) _ h)
      split at hdrain
      · rename_i c₁ s₁ hexec
        cases hdrain
        rw [hexec] at hacts
        exact ⟨events, hacts⟩
      · rename_i c₁ s₁ hexec
        rw [hexec] at hacts
        obtain ⟨events', hacts'⟩ := ih (hacts.paused.trans h) hdrain
        exact ⟨events ++ events', hacts.trans hacts'⟩

theorem acts_flushMicrotasks (fuel : Nat) (h : c.paused = true) {s s' : σ} {threw : Bool}
    (hflush : c.flushMicrotasks body dateNow fuel s = some (c', s', threw)) :
    ∃ events, c.Acts events c' := by
  simp only [flushMicrotasks] at hflush
  split at hflush
  · cases hflush
    exact ⟨[], .refl c c.microtasks c.flushingMicrotasks⟩
  · obtain ⟨⟨c₁, s₁, threw₁⟩, hdrain, hsame⟩ := Option.map_eq_some_iff.mp hflush
    cases hsame
    obtain ⟨events, hacts⟩ := acts_drain (c := { c with flushingMicrotasks := true }) fuel h hdrain
    have hstart := Acts.refl c c.microtasks true
    have hend := Acts.refl c₁ c₁.microtasks false
    exact ⟨_, (hstart.trans hacts).trans hend⟩

/-- The callback of a timer and the microtasks after it. -/
theorem acts_runTask {fuel : Nat} (h : c.paused = true) {s s' : σ} {task : Task κ}
    (hrun : c.runTask body dateNow fuel s task = some (c', s')) :
    ∃ events, Acts { c with log := c.log ++ [Event.ran task.handle c.simulatedNowMs] } events c' := by
  simp only [runTask, c.nowMs_of_paused h] at hrun
  obtain ⟨events, hacts⟩ := acts_exec (body task.callback s)
    { c with log := c.log ++ [Event.ran task.handle c.simulatedNowMs] } h
  split at hrun
  · rename_i c₁ s₁ hexec
    cases hrun
    rw [hexec] at hacts
    exact ⟨events, hacts⟩
  · rename_i c₁ s₁ hexec
    rw [hexec] at hacts
    obtain ⟨⟨c₂, s₂, threw⟩, hflush, hsame⟩ := Option.map_eq_some_iff.mp hrun
    cases hsame
    obtain ⟨events', hacts'⟩ := acts_flushMicrotasks fuel (hacts.paused.trans h) hflush
    exact ⟨events ++ events', hacts.trans hacts'⟩

end Clock

/-! ## What a step runs -/

/-- The times at which a timer is due, from when it was armed. -/
def Task.Due (task : Task κ) (nowMs : ℚ) : Prop :=
  nowMs = task.dueAtMs
    ∨ ∃ intervalMs, task.intervalMs = some intervalMs
      ∧ ∃ k : ℕ, nowMs = task.dueAtMs + k * intervalMs

/-- The time a callback or a microtask sees. -/
def Event.seen : Event κ → Option ℚ
  | .ran _ nowMs => some nowMs
  | .microtask nowMs => some nowMs
  | _ => none

namespace Clock

/-- What sees the clock sees the one time. -/
theorem Acts.eq_of_seen {c c' : Clock κ} {events : List (Event κ)} (h : c.Acts events c')
    {e : Event κ} (he : e ∈ events) {nowMs : ℚ} (hseen : e.seen = some nowMs) :
    nowMs = c.simulatedNowMs := by
  cases e with
  | armed task => cases hseen
  | cleared handle => cases hseen
  | reached targetMs => cases hseen
  | ran handle now => exact absurd he (h.ran handle now)
  | microtask now =>
    obtain rfl : now = nowMs := Option.some.inj hseen
    exact h.microtask now he

/-- The timer is in the table of the clock, or was armed since then. -/
def Armed (c : Clock κ) (events : List (Event κ)) (task : Task κ) : Prop :=
  c.timers.tasks.get task.handle = some task ∨ .armed task ∈ events

/-- What the events since a clock tell of a step to the target: a callback
runs at a due time of its timer, which is not cleared (`due`), and by then
every timer has run at all its earlier times (`all`). -/
structure Exact (c : Clock κ) (targetMs : ℚ) (events : List (Event κ)) : Prop where
  due : ∀ before handle nowMs after, events = before ++ Event.ran handle nowMs :: after →
    nowMs ≤ targetMs ∧ .cleared handle ∉ before
      ∧ ∃ task, c.Armed before task ∧ task.handle = handle ∧ task.Due nowMs
  all : ∀ before handle nowMs after, events = before ++ Event.ran handle nowMs :: after →
    ∀ task, c.Armed before task → .cleared task.handle ∉ before → ∀ dueAtMs, task.Due dueAtMs →
      toLex (dueAtMs, task.handle) < toLex (nowMs, handle) → .ran task.handle dueAtMs ∈ before
  ordered : events.Pairwise fun e e' => ∀ handle nowMs handle' nowMs', e = .ran handle nowMs →
    e' = .ran handle' nowMs' → toLex (nowMs, handle) < toLex (nowMs', handle')
  scheduled : events.Pairwise fun e e' => ∀ task task', e = .armed task → e' = .armed task' →
    task.handle < task'.handle
  fresh : ∀ task, .armed task ∈ events → c.timers.nextHandle ≤ task.handle
  seen : events.Pairwise fun e e' => ∀ nowMs nowMs', e.seen = some nowMs → e'.seen = some nowMs' →
    nowMs ≤ nowMs'

/-- The invariant of the loop: `m` is the clock after the events. -/
structure Progress (c : Clock κ) (targetMs : ℚ) (events : List (Event κ)) (m : Clock κ) : Prop
    extends Exact c targetMs events where
  log : m.log = c.log ++ events
  paused : m.paused = true
  nextHandle : c.timers.nextHandle ≤ m.timers.nextHandle
  handle_lt : ∀ task, .armed task ∈ events → task.handle < m.timers.nextHandle
  cleared_lt : ∀ handle, .cleared handle ∈ events → handle < m.timers.nextHandle
  tasks : ∀ handle task, m.timers.tasks.get handle = some task → .cleared handle ∉ events
    ∧ ∃ armed, c.Armed events armed ∧ armed.handle = handle ∧ armed.intervalMs = task.intervalMs
      ∧ armed.Due task.dueAtMs
      ∧ ∀ nowMs, armed.Due nowMs → nowMs < task.dueAtMs → .ran handle nowMs ∈ events
  gone : ∀ task, c.Armed events task → .cleared task.handle ∉ events →
    (∃ task', m.timers.tasks.get task.handle = some task')
      ∨ ∀ nowMs, task.Due nowMs → .ran task.handle nowMs ∈ events
  later : ∀ handle task, m.timers.tasks.get handle = some task →
    ∀ handle' nowMs, .ran handle' nowMs ∈ events → toLex (nowMs, handle') < task.key
  seen_le : ∀ e ∈ events, ∀ nowMs, e.seen = some nowMs → nowMs ≤ targetMs
    ∧ ∀ handle task, m.timers.tasks.get handle = some task → nowMs ≤ task.dueAtMs
  le_seen : ∀ startMs, (∀ handle task, c.timers.tasks.get handle = some task →
      startMs ≤ task.dueAtMs) →
    (∀ handle task, m.timers.tasks.get handle = some task → startMs ≤ task.dueAtMs)
      ∧ ∀ e ∈ events, ∀ nowMs, e.seen = some nowMs → startMs ≤ nowMs

theorem lex_lt_iff {dueAtMs dueAtMs' : ℚ} {handle handle' : Nat} :
    toLex (dueAtMs, handle) < toLex (dueAtMs', handle')
      ↔ dueAtMs < dueAtMs' ∨ dueAtMs = dueAtMs' ∧ handle < handle' :=
  Prod.Lex.toLex_lt_toLex

theorem Armed.mono {c : Clock κ} {events : List (Event κ)} {task : Task κ}
    (h : c.Armed events task) (more : List (Event κ)) : c.Armed (events ++ more) task :=
  h.imp_right (List.mem_append_left more)

/-- One timer under a handle. -/
theorem Exact.unique {c : Clock κ} {targetMs : ℚ} {events : List (Event κ)}
    (h : c.Exact targetMs events) {task task' : Task κ} (harmed : c.Armed events task)
    (harmed' : c.Armed events task') (hsame : task.handle = task'.handle) : task = task' := by
  obtain hold | hnew := harmed
  · obtain hold' | hnew' := harmed'
    · rw [hsame, hold'] at hold
      exact (Option.some.inj hold).symm
    · have hlt := (c.timers.armed _ _ hold).2.1
      have hle := h.fresh task' hnew'
      omega
  · obtain hold' | hnew' := harmed'
    · have hlt := (c.timers.armed _ _ hold').2.1
      have hle := h.fresh task hnew
      omega
    · have hall := List.Pairwise.forall_of_forall_of_flip
        (R := fun e e' : Event κ => ∀ task task', e = .armed task → e' = .armed task' →
          task.handle = task'.handle → task = task')
        (fun e _ task task' he he' _ => by
          rw [he] at he'
          exact Event.armed.inj he')
        (h.scheduled.imp fun hlt task task' he he' heq => absurd (hlt task task' he he') (by omega))
        (h.scheduled.imp fun hlt task task' he he' heq => absurd (hlt task' task he' he) (by omega))
      exact hall hnew hnew' task task' rfl rfl hsame

end Clock

/-- A period separates the times of an interval. -/
theorem Task.Due.le_of_lt_add {task : Task κ} {intervalMs nowMs dueAtMs : ℚ}
    (h : task.Due nowMs) (hdue : task.Due dueAtMs) (hinterval : task.intervalMs = some intervalMs)
    (hpos : 0 < intervalMs) (hlt : nowMs < dueAtMs + intervalMs) : nowMs ≤ dueAtMs := by
  have htimes : ∀ {x : ℚ}, task.Due x → ∃ k : ℕ, x = task.dueAtMs + k * intervalMs := by
    intro x hx
    obtain rfl | ⟨i, hi, k, rfl⟩ := hx
    · exact ⟨0, by simp⟩
    · rw [hinterval] at hi
      cases hi
      exact ⟨k, rfl⟩
  obtain ⟨j, rfl⟩ := htimes h
  obtain ⟨k, rfl⟩ := htimes hdue
  have hjk : (j : ℚ) < k + 1 := by
    refine lt_of_mul_lt_mul_right (a := intervalMs) ?_ hpos.le
    linarith
  have hle : j ≤ k := Nat.lt_succ_iff.mp (by exact_mod_cast hjk)
  have hle' : (j : ℚ) * intervalMs ≤ k * intervalMs :=
    mul_le_mul_of_nonneg_right (by exact_mod_cast hle) hpos.le
  linarith

theorem Task.Due.le {task : Task κ} {nowMs : ℚ} (h : task.Due nowMs)
    (hpos : ∀ intervalMs, task.intervalMs = some intervalMs → 0 < intervalMs) :
    task.dueAtMs ≤ nowMs := by
  obtain rfl | ⟨intervalMs, hinterval, k, rfl⟩ := h
  · exact le_refl _
  · exact le_add_of_nonneg_right (mul_nonneg (Nat.cast_nonneg k) (hpos _ hinterval).le)

/-- One interval later it is due again. -/
theorem Task.Due.add {task : Task κ} {intervalMs nowMs : ℚ} (h : task.Due nowMs)
    (hinterval : task.intervalMs = some intervalMs) : task.Due (nowMs + intervalMs) := by
  obtain rfl | ⟨i, hi, k, rfl⟩ := h
  · exact .inr ⟨intervalMs, hinterval, 1, by simp⟩
  · rw [hinterval] at hi
    cases hi
    refine .inr ⟨intervalMs, hinterval, k + 1, ?_⟩
    push_cast
    ring

namespace Clock

/-! ## One turn of the loop -/

section Turn

variable {c m m' : Clock κ} {targetMs : ℚ} {events acted : List (Event κ)} {task : Task κ}

/-- A callback that ran, with the rest of its turn: it is one of those that
ran before, or that of the turn. -/
theorem split_turn {handle : Nat} {nowMs : ℚ} {before after : List (Event κ)} {e : Event κ}
    (hquiet : ∀ handle nowMs, .ran handle nowMs ∉ acted)
    (h : events ++ e :: acted = before ++ Event.ran handle nowMs :: after) :
    (∃ after', events = before ++ Event.ran handle nowMs :: after')
      ∨ before = events ∧ e = .ran handle nowMs := by
  obtain ⟨more, hbefore, hrest⟩ | ⟨more, hevents, hrest⟩ := List.append_eq_append_iff.mp h
  · cases more with
    | nil => exact .inr ⟨by simpa using hbefore, (List.cons.inj hrest).1⟩
    | cons e' more =>
      have hmem : .ran handle nowMs ∈ acted := by
        rw [(List.cons.inj hrest).2]
        exact List.mem_append_right more List.mem_cons_self
      exact absurd hmem (hquiet handle nowMs)
  · cases more with
    | nil => exact .inr ⟨by simpa using hevents.symm, (List.cons.inj hrest).1.symm⟩
    | cons e' more =>
      obtain ⟨rfl, -⟩ := List.cons.inj hrest
      exact .inl ⟨more, hevents⟩

/-- What the timer that is selected has run at. -/
theorem Progress.ran_before (h : c.Progress targetMs events m)
    (hnext : m.timers.nextDueTask targetMs = some task) {armed : Task κ}
    (harmed : c.Armed events armed) (hcleared : .cleared armed.handle ∉ events) {nowMs : ℚ}
    (hdue : armed.Due nowMs) (hlt : toLex (nowMs, armed.handle) < task.key) :
    .ran armed.handle nowMs ∈ events := by
  obtain ⟨-, hle, hfirst⟩ := Timers.nextDueTask_some hnext
  obtain ⟨task', hget⟩ | hall := h.gone armed harmed hcleared
  · obtain ⟨-, armed', harmed', hhandle, -, -, hran⟩ := h.tasks armed.handle task' hget
    obtain rfl := h.unique harmed' harmed hhandle
    refine hran nowMs hdue ?_
    by_cases hle' : task'.dueAtMs ≤ targetMs
    · have hkey := hlt.trans_le (hfirst _ task' hget hle')
      rw [Task.key, lex_lt_iff, (m.timers.armed _ _ hget).1] at hkey
      exact hkey.resolve_right fun hsame => Nat.lt_irrefl _ hsame.2
    · rw [Task.key, lex_lt_iff] at hlt
      have hnow : nowMs ≤ task.dueAtMs := hlt.elim le_of_lt fun hsame => hsame.1.le
      exact hnow.trans_lt (hle.trans_lt (not_le.mp hle'))
  · exact hall nowMs hdue

/-- The clock in a turn, when the callback is called. -/
def started (m : Clock κ) (task : Task κ) : Clock κ :=
  { m with
    simulatedNowMs := task.dueAtMs
    log := m.log ++ [Event.ran task.handle task.dueAtMs] }

/-- The clock at the end of a turn. -/
def settled (m : Clock κ) (task : Task κ) : Clock κ :=
  { m with timers := m.timers.settle task.handle }

theorem Progress.exact_turn (h : c.Progress targetMs events m)
    (hnext : m.timers.nextDueTask targetMs = some task)
    (hacts : (m.started task).Acts acted m') :
    c.Exact targetMs (events ++ Event.ran task.handle task.dueAtMs :: acted) := by
  obtain ⟨hget, hle, -⟩ := Timers.nextDueTask_some hnext
  obtain ⟨hcleared, armed, harmed, hhandle, -, hdue, -⟩ := h.tasks task.handle task hget
  have hseen : ∀ e ∈ Event.ran task.handle task.dueAtMs :: acted, ∀ nowMs, e.seen = some nowMs →
      nowMs = task.dueAtMs := by
    intro e he nowMs hnow
    obtain rfl | he := List.mem_cons.mp he
    · exact (Option.some.inj hnow).symm
    · exact hacts.eq_of_seen he hnow
  constructor
  · intro before handle nowMs after heq
    obtain ⟨after', heq⟩ | ⟨rfl, hsame⟩ := split_turn hacts.ran heq
    · exact h.due before handle nowMs after' heq
    · cases hsame
      exact ⟨hle, hcleared, armed, harmed, hhandle, hdue⟩
  · intro before handle nowMs after heq armed' harmed' hcleared' dueAtMs hdue' hlt
    obtain ⟨after', heq⟩ | ⟨rfl, hsame⟩ := split_turn hacts.ran heq
    · exact h.all before handle nowMs after' heq armed' harmed' hcleared' dueAtMs hdue' hlt
    · cases hsame
      exact h.ran_before hnext harmed' hcleared' hdue' hlt
  · refine List.pairwise_append.mpr ⟨h.ordered, List.pairwise_cons.mpr ⟨?_, ?_⟩, ?_⟩
    · rintro e he handle nowMs handle' nowMs' - rfl
      exact absurd he (hacts.ran handle' nowMs')
    · refine List.Pairwise.imp_of_mem (R := fun _ _ => True) ?_ (List.pairwise_of_forall fun _ _ => trivial)
      rintro e e' he - - handle nowMs handle' nowMs' rfl -
      exact absurd he (hacts.ran handle nowMs)
    · rintro e he e' he' handle nowMs handle' nowMs' rfl rfl
      obtain hsame | he' := List.mem_cons.mp he'
      · cases hsame
        exact h.later _ task hget handle nowMs he
      · exact absurd he' (hacts.ran handle' nowMs')
  · refine List.pairwise_append.mpr ⟨h.scheduled, List.pairwise_cons.mpr ⟨?_, hacts.ordered⟩, ?_⟩
    · rintro e - task task' heq
      cases heq
    · rintro e he e' he' task₁ task₂ rfl rfl
      obtain hsame | he' := List.mem_cons.mp he'
      · cases hsame
      · exact (h.handle_lt task₁ he).trans_le (hacts.armed task₂ he').1
  · intro armed' hmem
    obtain hmem | hmem := List.mem_append.mp hmem
    · exact h.fresh armed' hmem
    · obtain hsame | hmem := List.mem_cons.mp hmem
      · cases hsame
      · exact h.nextHandle.trans (hacts.armed armed' hmem).1
  · refine List.pairwise_append.mpr ⟨h.seen, ?_, ?_⟩
    · refine List.Pairwise.imp_of_mem (R := fun _ _ => True) ?_ (List.pairwise_of_forall fun _ _ => trivial)
      intro e e' he he' _ nowMs nowMs' hnow hnow'
      rw [hseen e he nowMs hnow, hseen e' he' nowMs' hnow']
    · intro e he e' he' nowMs nowMs' hnow hnow'
      rw [hseen e' he' nowMs' hnow']
      exact (h.seen_le e he nowMs hnow).2 _ task hget

/-- The timers after a turn: those that were there, those that were armed,
and the one that ran, if it is an interval. -/
theorem tasks_settled (hget : m.timers.tasks.get task.handle = some task)
    (hacts : (m.started task).Acts acted m') (handle : Nat) (task' : Task κ) :
    (m'.settled task).timers.tasks.get handle = some task' ↔
      .cleared handle ∉ acted
        ∧ (handle ≠ task.handle ∧ m.timers.tasks.get handle = some task'
          ∨ .armed task' ∈ acted ∧ task'.handle = handle
          ∨ handle = task.handle ∧ ∃ intervalMs, task.intervalMs = some intervalMs
            ∧ task' = { task with dueAtMs := task.dueAtMs + intervalMs }) := by
  have hlt := (m.timers.armed _ _ hget).2.1
  show (m'.timers.settle task.handle).tasks.get handle = some task' ↔ _
  rw [Timers.tasks_settle]
  split
  · rename_i hsame
    subst hsame
    have hold : ∀ other, m'.timers.tasks.get task.handle = some other ↔
        .cleared task.handle ∉ acted ∧ other = task := fun other => by
      rw [hacts.tasks]
      show _ ∧ (m.timers.tasks.get task.handle = some other ∨ _) ↔ _
      rw [hget, Option.some_inj]
      constructor
      · rintro ⟨hnot, rfl | ⟨harmed, hhandle⟩⟩
        · exact ⟨hnot, rfl⟩
        · exact absurd (hacts.armed other harmed).1 (by rw [hhandle]; exact not_le.mpr hlt)
      · rintro ⟨hnot, rfl⟩
        exact ⟨hnot, .inl rfl⟩
    rw [Option.bind_eq_some_iff]
    constructor
    · rintro ⟨other, hother, hmap⟩
      obtain ⟨hnot, rfl⟩ := (hold other).mp hother
      obtain ⟨intervalMs, hinterval, hsame⟩ := Option.map_eq_some_iff.mp hmap
      exact ⟨hnot, .inr (.inr ⟨rfl, intervalMs, hinterval, hsame.symm⟩)⟩
    · rintro ⟨hnot, ⟨hne, -⟩ | ⟨harmed, hhandle⟩ | ⟨-, intervalMs, hinterval, rfl⟩⟩
      · exact absurd rfl hne
      · exact absurd (hacts.armed task' harmed).1 (by rw [hhandle]; exact not_le.mpr hlt)
      · exact ⟨task, (hold task).mpr ⟨hnot, rfl⟩, Option.map_eq_some_iff.mpr ⟨_, hinterval, rfl⟩⟩
  · rename_i hne
    rw [hacts.tasks]
    show _ ∧ (m.timers.tasks.get handle = some task' ∨ _) ↔ _
    simp only [hne, ne_eq, not_false_eq_true, true_and, false_and, or_false]

/-- After a turn every timer comes after the one that ran. -/
theorem key_lt_settled (hnext : m.timers.nextDueTask targetMs = some task)
    (hacts : (m.started task).Acts acted m') {handle : Nat} {task' : Task κ}
    (hget' : (m'.settled task).timers.tasks.get handle = some task') : task.key < task'.key := by
  obtain ⟨hget, hle, hfirst⟩ := Timers.nextDueTask_some hnext
  have hlt := (m.timers.armed _ _ hget).2.1
  obtain ⟨-, ⟨hne, hold⟩ | ⟨harmed, rfl⟩ | ⟨rfl, intervalMs, hinterval, rfl⟩⟩ :=
    (tasks_settled hget hacts handle task').mp hget'
  · by_cases hle' : task'.dueAtMs ≤ targetMs
    · refine lt_of_le_of_ne (hfirst handle task' hold hle') fun hsame => hne ?_
      rw [← (m.timers.armed _ _ hold).1]
      exact (Prod.mk.inj (toLex.injective hsame)).2.symm
    · exact lex_lt_iff.mpr (.inl (hle.trans_lt (not_le.mp hle')))
  · obtain ⟨hhandle, -, hdue, -⟩ := hacts.armed task' harmed
    obtain hdue | hdue := lt_or_eq_of_le hdue
    · exact lex_lt_iff.mpr (.inl hdue)
    · exact lex_lt_iff.mpr (.inr ⟨hdue, hlt.trans_le hhandle⟩)
  · have hpos := (m.timers.armed _ _ hget).2.2.2 intervalMs hinterval
    exact lex_lt_iff.mpr (.inl (lt_add_of_pos_right _ hpos))

/-- Where a timer stands after a turn. -/
theorem Progress.tasks_turn (h : c.Progress targetMs events m)
    (hnext : m.timers.nextDueTask targetMs = some task) (hacts : (m.started task).Acts acted m')
    {handle : Nat} {task' : Task κ}
    (hget' : (m'.settled task).timers.tasks.get handle = some task') :
    .cleared handle ∉ events ++ Event.ran task.handle task.dueAtMs :: acted
      ∧ ∃ armed, c.Armed (events ++ Event.ran task.handle task.dueAtMs :: acted) armed
        ∧ armed.handle = handle ∧ armed.intervalMs = task'.intervalMs ∧ armed.Due task'.dueAtMs
        ∧ ∀ nowMs, armed.Due nowMs → nowMs < task'.dueAtMs →
          .ran handle nowMs ∈ events ++ Event.ran task.handle task.dueAtMs :: acted := by
  obtain ⟨hget, -, -⟩ := Timers.nextDueTask_some hnext
  obtain ⟨hcleared', hwhich⟩ := (tasks_settled hget hacts handle task').mp hget'
  have hcleared : ∀ {handle}, .cleared handle ∉ events → .cleared handle ∉ acted →
      .cleared handle ∉ events ++ Event.ran task.handle task.dueAtMs :: acted := by
    intro handle hevents hacted hmem
    obtain hmem | hmem := List.mem_append.mp hmem
    · exact hevents hmem
    · obtain hsame | hmem := List.mem_cons.mp hmem
      · cases hsame
      · exact hacted hmem
  obtain ⟨-, hold⟩ | ⟨harmed, rfl⟩ | ⟨rfl, intervalMs, hinterval, rfl⟩ := hwhich
  · obtain ⟨hnot, armed, harmed, hhandle, hinterval, hdue, hran⟩ := h.tasks handle task' hold
    exact ⟨hcleared hnot hcleared', armed, harmed.mono _, hhandle, hinterval, hdue,
      fun nowMs hnow hlt => List.mem_append_left _ (hran nowMs hnow hlt)⟩
  · obtain ⟨hhandle, -, -, hpos⟩ := hacts.armed task' harmed
    refine ⟨hcleared (fun hmem => ?_) hcleared', task',
      .inr (List.mem_append_right _ (List.mem_cons_of_mem _ harmed)), rfl, rfl, .inl rfl,
      fun nowMs hnow hlt => absurd (hnow.le hpos) (not_le.mpr hlt)⟩
    exact absurd (h.cleared_lt _ hmem) (not_lt.mpr hhandle)
  · obtain ⟨hnot, armed, harmed, hhandle, hsame, hdue, hran⟩ := h.tasks _ task hget
    have harmedInterval := hsame.trans hinterval
    have hpos := (m.timers.armed _ _ hget).2.2.2 intervalMs hinterval
    refine ⟨hcleared hnot hcleared', armed, harmed.mono _, hhandle, hsame,
      hdue.add harmedInterval, fun nowMs hnow hlt => ?_⟩
    obtain hlt | rfl := lt_or_eq_of_le (hnow.le_of_lt_add hdue harmedInterval hpos hlt)
    · exact List.mem_append_left _ (hran nowMs hnow hlt)
    · exact List.mem_append_right _ List.mem_cons_self

/-- A timer that was armed is still there, is cleared, or has run. -/
theorem Progress.gone_turn (h : c.Progress targetMs events m)
    (hnext : m.timers.nextDueTask targetMs = some task) (hacts : (m.started task).Acts acted m')
    {armed : Task κ} (harmed : c.Armed (events ++ Event.ran task.handle task.dueAtMs :: acted) armed)
    (hcleared : .cleared armed.handle ∉ events ++ Event.ran task.handle task.dueAtMs :: acted) :
    (∃ task', (m'.settled task).timers.tasks.get armed.handle = some task')
      ∨ ∀ nowMs, armed.Due nowMs →
        .ran armed.handle nowMs ∈ events ++ Event.ran task.handle task.dueAtMs :: acted := by
  obtain ⟨hget, -, -⟩ := Timers.nextDueTask_some hnext
  have hevents : .cleared armed.handle ∉ events := fun hmem =>
    hcleared (List.mem_append_left _ hmem)
  have hacted : .cleared armed.handle ∉ acted := fun hmem =>
    hcleared (List.mem_append_right _ (List.mem_cons_of_mem _ hmem))
  have hwhen : c.Armed events armed ∨ .armed armed ∈ acted := by
    obtain hold | hmem := harmed
    · exact .inl (.inl hold)
    · obtain hmem | hmem := List.mem_append.mp hmem
      · exact .inl (.inr hmem)
      · obtain hsame | hmem := List.mem_cons.mp hmem
        · cases hsame
        · exact .inr hmem
  obtain hbefore | hnow := hwhen
  · obtain ⟨task', hget'⟩ | hall := h.gone armed hbefore hevents
    · by_cases hsame : armed.handle = task.handle
      · rw [hsame, hget] at hget'
        cases hget'
        cases hinterval : task.intervalMs with
        | none =>
          refine .inr fun nowMs hnow => ?_
          obtain ⟨-, armed', harmed', hhandle, hinterval', hdue, -⟩ := h.tasks _ task hget
          obtain rfl := h.unique harmed' hbefore (hhandle.trans hsame.symm)
          have honce : ∀ {x}, armed'.Due x → x = armed'.dueAtMs := fun hx => by
            obtain rfl | ⟨i, hi, -⟩ := hx
            · rfl
            · rw [hinterval', hinterval] at hi
              cases hi
          rw [hsame, honce hnow, ← honce hdue]
          exact List.mem_append_right _ List.mem_cons_self
        | some intervalMs =>
          exact .inl ⟨_, (tasks_settled hget hacts armed.handle _).mpr
            ⟨hacted, .inr (.inr ⟨hsame, intervalMs, hinterval, rfl⟩)⟩⟩
      · exact .inl ⟨task', (tasks_settled hget hacts armed.handle task').mpr
          ⟨hacted, .inl ⟨hsame, hget'⟩⟩⟩
    · exact .inr fun nowMs hnow => List.mem_append_left _ (hall nowMs hnow)
  · exact .inl ⟨armed, (tasks_settled hget hacts armed.handle armed).mpr
      ⟨hacted, .inr (.inl ⟨hnow, rfl⟩)⟩⟩

/-- A turn of the loop keeps the invariant. -/
theorem Progress.turn (h : c.Progress targetMs events m)
    (hnext : m.timers.nextDueTask targetMs = some task) (hacts : (m.started task).Acts acted m') :
    c.Progress targetMs (events ++ Event.ran task.handle task.dueAtMs :: acted) (m'.settled task) := by
  obtain ⟨hget, hle, -⟩ := Timers.nextDueTask_some hnext
  have hdue : ∀ handle task', (m'.settled task).timers.tasks.get handle = some task' →
      task.dueAtMs ≤ task'.dueAtMs := fun handle task' hget' =>
    (lex_lt_iff.mp (key_lt_settled hnext hacts hget')).elim le_of_lt fun hsame => hsame.1.le
  have hhandles : (m'.settled task).timers.nextHandle = m'.timers.nextHandle :=
    m'.timers.nextHandle_settle task.handle
  have hmore : m.timers.nextHandle ≤ m'.timers.nextHandle := hacts.nextHandle
  have hseen : ∀ e ∈ events ++ Event.ran task.handle task.dueAtMs :: acted, ∀ nowMs,
      e.seen = some nowMs → e ∈ events ∨ nowMs = task.dueAtMs := by
    intro e he nowMs hnow
    obtain he | he := List.mem_append.mp he
    · exact .inl he
    · obtain rfl | he := List.mem_cons.mp he
      · exact .inr (Option.some.inj hnow).symm
      · exact .inr (hacts.eq_of_seen he hnow)
  constructor
  · exact h.exact_turn hnext hacts
  · show m'.log = _
    rw [hacts.log, started, h.log]
    simp
  · exact hacts.paused.trans h.paused
  · rw [hhandles]
    exact h.nextHandle.trans hmore
  · intro armed hmem
    rw [hhandles]
    obtain hmem | hmem := List.mem_append.mp hmem
    · exact (h.handle_lt armed hmem).trans_le hmore
    · obtain hsame | hmem := List.mem_cons.mp hmem
      · cases hsame
      · exact (hacts.armed armed hmem).2.1
  · intro handle hmem
    rw [hhandles]
    obtain hmem | hmem := List.mem_append.mp hmem
    · exact (h.cleared_lt handle hmem).trans_le hmore
    · obtain hsame | hmem := List.mem_cons.mp hmem
      · cases hsame
      · exact hacts.cleared handle hmem
  · exact fun handle task' hget' => h.tasks_turn hnext hacts hget'
  · exact fun armed harmed hcleared => h.gone_turn hnext hacts harmed hcleared
  · intro handle task' hget' handle' nowMs hmem
    have hkey := key_lt_settled hnext hacts hget'
    obtain hmem | hmem := List.mem_append.mp hmem
    · exact (h.later _ task hget handle' nowMs hmem).trans hkey
    · obtain hsame | hmem := List.mem_cons.mp hmem
      · cases hsame
        exact hkey
      · exact absurd hmem (hacts.ran handle' nowMs)
  · intro e he nowMs hnow
    obtain he | rfl := hseen e he nowMs hnow
    · obtain ⟨htarget, hall⟩ := h.seen_le e he nowMs hnow
      exact ⟨htarget, fun handle task' hget' => (hall _ task hget).trans (hdue handle task' hget')⟩
    · exact ⟨hle, hdue⟩
  · intro startMs hstart
    obtain ⟨hall, hran⟩ := h.le_seen startMs hstart
    refine ⟨fun handle task' hget' => (hall _ task hget).trans (hdue handle task' hget'),
      fun e he nowMs hnow => ?_⟩
    obtain he | rfl := hseen e he nowMs hnow
    · exact hran e he nowMs hnow
    · exact hall _ task hget

end Turn

/-! ## Steps -/

variable {c c' m m' : Clock κ} {targetMs dateNow : ℚ} {events : List (Event κ)}
  {body : κ → σ → Script κ σ} {s s' : σ} {fuel : Nat} {threw : Bool}

theorem progress_start (c : Clock κ) (targetMs startMs : ℚ) :
    c.Progress targetMs [] { c with simulatedNowMs := startMs, paused := true } where
  due before handle nowMs after heq := by simp at heq
  all before handle nowMs after heq := by simp at heq
  ordered := .nil
  scheduled := .nil
  fresh := by simp
  seen := .nil
  log := by simp
  paused := rfl
  nextHandle := Nat.le_refl _
  handle_lt := by simp
  cleared_lt := by simp
  tasks handle task hget := by
    obtain ⟨rfl, -, -, hpos⟩ := c.timers.armed handle task hget
    exact ⟨by simp, task, .inl hget, rfl, rfl, .inl rfl,
      fun nowMs hnow hlt => absurd (hnow.le hpos) (not_le.mpr hlt)⟩
  gone task harmed _ := by
    obtain hget | hmem := harmed
    · exact .inl ⟨task, hget⟩
    · simp at hmem
  later := by simp
  seen_le := by simp
  le_seen startMs hstart := ⟨hstart, by simp⟩

/-- By induction on the fuel, a turn at a time. -/
theorem progress_runDue (h : c.Progress targetMs events m)
    (hrun : m.runDue body dateNow targetMs fuel s = some (m', s')) :
    ∃ events', c.Progress targetMs events' m' ∧ m'.timers.nextDueTask targetMs = none := by
  induction fuel generalizing m s events with
  | zero => cases hrun
  | succ fuel ih =>
    simp only [runDue] at hrun
    split at hrun
    · rename_i hnone
      obtain rfl : m = m' := congrArg Prod.fst (Option.some.inj hrun)
      exact ⟨events, h, hnone⟩
    · rename_i task hnext
      have hget := (Timers.nextDueTask_some hnext).1
      rw [if_neg (m.timers.armed _ _ hget).2.2.1] at hrun
      split at hrun
      · cases hrun
      · rename_i m₁ s₁ htask
        obtain ⟨acted, hacts⟩ := acts_runTask (c := { m with simulatedNowMs := task.dueAtMs })
          h.paused htask
        exact ih (h.turn hnext hacts) hrun

/-- What a step does: the events up to the target, and those of the last
flush. Every timer known by the flush has run at each of its times up to
the target, unless it was cleared, and what is left of it is later. -/
structure Outcome (c : Clock κ) (startMs targetMs : ℚ) (during flush : List (Event κ))
    (c' : Clock κ) : Prop extends Exact c targetMs during where
  log : c'.log = c.log ++ during ++ Event.reached targetMs :: flush
  complete : ∀ task, c.Armed during task → .cleared task.handle ∉ during → ∀ dueAtMs,
    task.Due dueAtMs → dueAtMs ≤ targetMs → .ran task.handle dueAtMs ∈ during
  seen_le : ∀ e ∈ during, ∀ nowMs, e.seen = some nowMs → nowMs ≤ targetMs
  le_seen : (∀ handle task, c.timers.tasks.get handle = some task → startMs ≤ task.dueAtMs) →
    ∀ e ∈ during, ∀ nowMs, e.seen = some nowMs → startMs ≤ nowMs
  flushed : ∀ e ∈ flush, (∀ handle nowMs, e ≠ .ran handle nowMs)
    ∧ ∀ nowMs, e.seen = some nowMs → nowMs = targetMs
  remaining : ∀ task, c.Armed during task → ∀ task',
    c'.timers.tasks.get task.handle = some task' → targetMs < task'.dueAtMs

theorem outcome_stepTo {startMs dateNow' : ℚ}
    (h : c.stepTo body targetMs dateNow dateNow' fuel s = some (c', s', threw)) :
    (∃ during flush, c.Outcome startMs targetMs during flush c')
      ∧ c'.nowMs dateNow' = targetMs ∧ c'.paused = c.paused := by
  simp only [stepTo] at h
  split at h
  · cases h
  · rename_i ran s₁ hrun
    obtain ⟨during, hprogress, hnone⟩ :=
      progress_runDue (c.progress_start targetMs (c.nowMs dateNow)) hrun
    obtain ⟨⟨flushed, s₂, threw₂⟩, hflush, hsame⟩ := Option.map_eq_some_iff.mp h
    obtain ⟨flush, hacts⟩ := acts_flushMicrotasks
      (c := { ran with simulatedNowMs := targetMs, log := ran.log ++ [Event.reached targetMs] })
      fuel hprogress.paused hflush
    have hpaused : flushed.paused = true := hacts.paused.trans hprogress.paused
    have hnow : flushed.simulatedNowMs = targetMs := hacts.now
    -- what is left of the step when it was not paused before
    have hc' : c'.timers = flushed.timers ∧ c'.log = flushed.log ∧ c'.nowMs dateNow' = targetMs
        ∧ c'.paused = c.paused := by
      simp only at hsame
      split at hsame
      · rename_i hwas
        cases hsame
        exact ⟨rfl, rfl, (nowMs_of_paused hpaused dateNow').trans hnow, hpaused.trans hwas.symm⟩
      · rename_i hwas
        cases hsame
        refine ⟨rfl, rfl, ?_, (Bool.eq_false_iff.mpr hwas).symm⟩
        simp [nowMs, hnow]
    obtain ⟨htimers, hlog, hnow', hpaused'⟩ := hc'
    refine ⟨⟨during, flush, hprogress.toExact, ?_, ?_, ?_, ?_, ?_, ?_⟩, hnow', hpaused'⟩
    · rw [hlog, hacts.log]
      show (ran.log ++ [Event.reached targetMs]) ++ flush = _
      rw [hprogress.log]
      simp
    · intro task harmed hcleared dueAtMs hdue hle
      obtain ⟨task', hget⟩ | hall := hprogress.gone task harmed hcleared
      · obtain ⟨-, armed, harmed', hhandle, -, -, hran⟩ := hprogress.tasks _ task' hget
        obtain rfl := hprogress.unique harmed' harmed hhandle
        exact hran dueAtMs hdue (hle.trans_lt (Timers.nextDueTask_none hnone hget))
      · exact hall dueAtMs hdue
    · exact fun e he nowMs hseen => (hprogress.seen_le e he nowMs hseen).1
    · exact fun hstart' => (hprogress.le_seen startMs hstart').2
    · intro e he
      exact ⟨fun handle nowMs heq => hacts.ran handle nowMs (heq ▸ he),
        fun nowMs hseen => hacts.eq_of_seen he hseen⟩
    · intro task harmed task' hget
      rw [htimers, hacts.tasks] at hget
      obtain ⟨-, hget | ⟨hmem, hhandle⟩⟩ := hget
      · exact Timers.nextDueTask_none hnone hget
      · have hle : ran.timers.nextHandle ≤ task'.handle := (hacts.armed task' hmem).1
        have hlt : task.handle < ran.timers.nextHandle := by
          obtain hold | hnew := harmed
          · exact (c.timers.armed _ _ hold).2.1.trans_le hprogress.nextHandle
          · exact hprogress.handle_lt task hnew
        omega

/-- The callbacks of an example: one that does nothing, and one that clears
a timer, arms one without delay and queues a microtask. -/
def clearing : Option Nat → Unit → Script (Option Nat) Unit
  | none, s => .returns s
  | some handle, s =>
    .clearTimeout handle (.setTimeout none 0 fun _ => .queueMicrotask none (.returns s))

/-- An interval of two, and a timeout after three that clears it. -/
def ticking : Clock (Option Nat) :=
  ((Clock.setInterval { wallStartedAtMs := 0, simulatedNowMs := 0, paused := true } 0 none 2
    (by decide +kernel)).setTimeout 0 (some 1) 3)

/-- The callbacks that ran, by their handles, and when. -/
def ranOf (log : List (Event κ)) : List (Nat × ℚ) :=
  log.filterMap fun e => match e with
    | .ran handle nowMs => some (handle, nowMs)
    | _ => none

end Clock

end Webernetes
