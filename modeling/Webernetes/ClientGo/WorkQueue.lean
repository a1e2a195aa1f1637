/-
Webernetes.ClientGo.WorkQueue — `Typed` of `workqueue/queue.ts`, with the
default queue, before its shutdown.

`add` and `done` run to their end; `get` awaits the mutex and, as long as
the queue is empty, the condition. A machine has one queue, any number of
`get` calls and the items their workers still process; the calls go on in
any order. The log, which no function of the source reads, holds the adds
and the hand-outs.

The invariant has two halves. `Consistent` is the one of the three sets:
a queued item is dirty and not processing, a dirty one is queued or
processing. `Woken` is the one of the calls: while a call is parked there
are as many calls awake as items queued, so that a wake-up is never lost
(`queue_of_atRest`). `workqueue_exact` reads the results off.
-/
import Webernetes.Go.Monitor
import Webernetes.Base.Transition
import Mathlib.Data.Finset.Insert
import Mathlib.Data.Finset.Erase

namespace Webernetes.ClientGo

open Js Base Go

variable {α : Type} [DecidableEq α]

/-- `Typed<T>`; its mutex, its condition and the calls that use them are
the monitor. -/
structure Typed (α : Type) where
  queue : List α
  dirty : Finset α
  processing : Finset α
  monitor : Monitor
  shuttingDownValue : Bool
  deriving DecidableEq

namespace Typed

def initial : Typed α where
  queue := []
  dirty := ∅
  processing := ∅
  monitor := {}
  shuttingDownValue := false

/-- `queue.push(item)` and `cond.signal()`. -/
def pushAndSignal (q : Typed α) (item : α) : Typed α :=
  { q with queue := q.queue ++ [item], monitor := q.monitor.signal }

/-- The default queue's `touch` does nothing. -/
def add (q : Typed α) (item : α) : Typed α :=
  if q.shuttingDownValue then q
  else if item ∈ q.dirty then q
  else if item ∈ q.processing then { q with dirty := Insert.insert item q.dirty }
  else { q with dirty := Insert.insert item q.dirty }.pushAndSignal item

def done (q : Typed α) (item : α) : Typed α :=
  let q := { q with processing := q.processing.erase item }
  if item ∈ q.dirty then q.pushAndSignal item
  else if q.processing = ∅ then { q with monitor := q.monitor.signal }
  else q

/-- What `get` does with the mutex: it parks, or takes the first item and
leaves. A throw of `unlock` leaves the monitor as it is. -/
def proceed (q : Typed α) (call : Nat) : Typed α × Option α :=
  match q.queue with
  | [] =>
    if q.shuttingDownValue then
      ({ q with monitor := (q.monitor.leave call).toOption.getD q.monitor }, none)
    else ({ q with monitor := (q.monitor.wait call).toOption.getD q.monitor }, none)
  | item :: rest =>
    ({ q with
        queue := rest
        processing := Insert.insert item q.processing
        dirty := q.dirty.erase item
        monitor := (q.monitor.leave call).toOption.getD q.monitor }, some item)

end Typed

/-! ## Runs -/

inductive QueueEvent (α : Type) where
  | added (item : α)
  | handed (call : Nat) (item : α)
  deriving DecidableEq

/-- A queue with its `get` calls, the items handed out and not done yet,
and the log. -/
structure WorkQueue (α : Type) where
  queue : Typed α
  workers : List (Nat × α)
  log : List (QueueEvent α)
  deriving DecidableEq

inductive QueueStep (α : Type) where
  | add (item : α)
  | get
  | resume (call : Nat)
  | done (call : Nat) (item : α)
  deriving DecidableEq

namespace WorkQueue

def initial : WorkQueue α where
  queue := .initial
  workers := []
  log := []

/-- A new call of `get`, up to its first await. -/
def startGet (m : WorkQueue α) : WorkQueue α :=
  { m with queue.monitor := m.queue.monitor.call.enter m.queue.monitor.calls.length }

/-- A call of `get` goes on to its next await. -/
def resume (m : WorkQueue α) (call : Nat) : WorkQueue α :=
  match m.queue.monitor.calls[call]? with
  | some .holding =>
    match m.queue.proceed call with
    | (queue, none) => { m with queue }
    | (queue, some item) =>
      { queue, workers := m.workers ++ [(call, item)], log := m.log ++ [.handed call item] }
  | some .notified => { m with queue.monitor := m.queue.monitor.enter call }
  | _ => m

def exec (m : WorkQueue α) : QueueStep α → WorkQueue α
  | .add item => { m with queue := m.queue.add item, log := m.log ++ [.added item] }
  | .get => m.startGet
  | .resume call => m.resume call
  | .done call item =>
    { m with queue := m.queue.done item, workers := m.workers.erase (call, item) }

/-- A worker calls `done` only for an item it got. -/
def Allowed (m : WorkQueue α) : QueueStep α → Prop
  | .done call item => (call, item) ∈ m.workers
  | _ => True

end WorkQueue

/-- The runs of a work queue: any clients, any workers, calls that go on
at any time. -/
def workqueue (α : Type) [DecidableEq α] : System (WorkQueue α) (QueueStep α) where
  init m := m = .initial
  step m act m' := m.Allowed act ∧ m' = m.exec act

/-! ## The invariant -/

namespace Typed

/-- The three sets fit together. -/
structure Consistent (q : Typed α) : Prop where
  nodup : q.queue.Nodup
  queued : ∀ x ∈ q.queue, x ∈ q.dirty ∧ x ∉ q.processing
  covered : ∀ x ∈ q.dirty, x ∈ q.queue ∨ x ∈ q.processing

/-- While a call is parked there is a call awake for every queued item. -/
def Woken (q : Typed α) : Prop :=
  q.monitor.cond.waiters ≠ [] → q.queue.length ≤ q.monitor.awake

variable {q : Typed α}

omit [DecidableEq α] in
/-- A signal leaves as many calls awake. -/
theorem Woken.signal (h : q.Woken) (hsound : q.monitor.Sound) :
    ({ q with monitor := q.monitor.signal } : Typed α).Woken := by
  intro hwaiters
  rcases hsound.signal.2 with ⟨hnone, hsame⟩ | ⟨hsome, hawake⟩
  · rw [hsame] at hwaiters
    exact absurd hnone hwaiters
  · have hle := h hsome
    show q.queue.length ≤ q.monitor.signal.awake
    omega

omit [DecidableEq α] in
/-- A signal for one more item wakes one more call. -/
theorem Woken.pushAndSignal (h : q.Woken) (hsound : q.monitor.Sound) (item : α) :
    (q.pushAndSignal item).Woken := by
  intro hwaiters
  rcases hsound.signal.2 with ⟨hnone, hsame⟩ | ⟨hsome, hawake⟩
  · simp only [Typed.pushAndSignal, hsame] at hwaiters
    exact absurd hnone hwaiters
  · have hle := h hsome
    show (q.queue ++ [item]).length ≤ q.monitor.signal.awake
    simp only [List.length_append, List.length_singleton]
    omega

omit [DecidableEq α] in
/-- A dirty item that is neither queued nor processing is queued. -/
theorem consistent_pushAndSignal {item : α} (hnodup : q.queue.Nodup)
    (hqueued : ∀ x ∈ q.queue, x ∈ q.dirty ∧ x ∉ q.processing)
    (hcovered : ∀ x ∈ q.dirty, x = item ∨ x ∈ q.queue ∨ x ∈ q.processing)
    (hdirty : item ∈ q.dirty) (hqueue : item ∉ q.queue) (hprocessing : item ∉ q.processing) :
    (q.pushAndSignal item).Consistent where
  nodup := by
    simp only [Typed.pushAndSignal, List.nodup_append]
    exact ⟨hnodup, by simp, fun a ha b hb hab => hqueue (List.mem_singleton.mp hb ▸ hab ▸ ha)⟩
  queued x hx := by
    rcases List.mem_append.mp hx with hx | hx
    · exact hqueued x hx
    · obtain rfl := List.mem_singleton.mp hx
      exact ⟨hdirty, hprocessing⟩
  covered x hx := by
    rcases hcovered x hx with rfl | hx | hx
    · exact .inl (List.mem_append_right _ (List.mem_singleton_self x))
    · exact .inl (List.mem_append_left _ hx)
    · exact .inr hx

/-! ### The operations -/

theorem Consistent.add (h : q.Consistent) (item : α) : (q.add item).Consistent := by
  have hmark : ∀ x ∈ Insert.insert item q.dirty, x = item ∨ x ∈ q.queue ∨ x ∈ q.processing :=
    fun x hx => (Finset.mem_insert.mp hx).imp id (h.covered x)
  have hqueued : ∀ x ∈ q.queue, x ∈ Insert.insert item q.dirty ∧ x ∉ q.processing :=
    fun x hx => ⟨Finset.mem_insert_of_mem (h.queued x hx).1, (h.queued x hx).2⟩
  unfold Typed.add
  split
  · exact h
  · split
    · exact h
    · rename_i hdirty
      split
      · rename_i hprocessing
        refine ⟨h.nodup, hqueued, fun x hx => ?_⟩
        rcases hmark x hx with rfl | hx
        · exact .inr hprocessing
        · exact hx
      · rename_i hprocessing
        exact consistent_pushAndSignal h.nodup hqueued hmark (Finset.mem_insert_self _ _)
          (fun hmem => hdirty (h.queued item hmem).1) hprocessing

theorem Woken.add (h : q.Woken) (hsound : q.monitor.Sound) (item : α) :
    (q.add item).Woken ∧ (q.add item).monitor.Sound := by
  unfold Typed.add
  split
  · exact ⟨h, hsound⟩
  · split
    · exact ⟨h, hsound⟩
    · split
      · exact ⟨h, hsound⟩
      · have hmarked : ({ q with dirty := Insert.insert item q.dirty } : Typed α).Woken := h
        exact ⟨hmarked.pushAndSignal hsound item, hsound.signal.1⟩

/-- An add marks its item. -/
theorem add_fields (q : Typed α) (hrunning : q.shuttingDownValue = false) (item : α) :
    (q.add item).processing = q.processing ∧ (q.add item).shuttingDownValue = false
      ∧ (q.add item).dirty = Insert.insert item q.dirty := by
  unfold Typed.add
  rw [hrunning]
  simp only [Bool.false_eq_true, if_false]
  split
  · exact ⟨rfl, hrunning, (Finset.insert_eq_of_mem ‹_›).symm⟩
  · split
    · exact ⟨rfl, rfl, rfl⟩
    · exact ⟨rfl, rfl, rfl⟩

theorem done_fields (q : Typed α) (item : α) :
    (q.done item).processing = q.processing.erase item
      ∧ (q.done item).shuttingDownValue = q.shuttingDownValue ∧ (q.done item).dirty = q.dirty := by
  unfold Typed.done
  dsimp only
  split
  · exact ⟨rfl, rfl, rfl⟩
  · split
    · exact ⟨rfl, rfl, rfl⟩
    · exact ⟨rfl, rfl, rfl⟩

/-- A worker is done with an item it was processing. -/
theorem Consistent.done (h : q.Consistent) {item : α} (hitem : item ∈ q.processing) :
    (q.done item).Consistent := by
  have hqueued : ∀ x ∈ q.queue, x ∈ q.dirty ∧ x ∉ q.processing.erase item :=
    fun x hx => ⟨(h.queued x hx).1, fun hmem => (h.queued x hx).2 (Finset.mem_of_mem_erase hmem)⟩
  have hcovered : ∀ x ∈ q.dirty, x = item ∨ x ∈ q.queue ∨ x ∈ q.processing.erase item := by
    intro x hx
    by_cases heq : x = item
    · exact .inl heq
    · exact .inr ((h.covered x hx).imp id (Finset.mem_erase_of_ne_of_mem heq))
  unfold Typed.done
  dsimp only
  split
  · rename_i hdirty
    exact consistent_pushAndSignal h.nodup hqueued hcovered hdirty
      (fun hmem => (h.queued item hmem).2 hitem) (Finset.notMem_erase _ _)
  · rename_i hdirty
    have hcovered' : ∀ x ∈ q.dirty, x ∈ q.queue ∨ x ∈ q.processing.erase item :=
      fun x hx => (hcovered x hx).resolve_left fun heq => hdirty (heq ▸ hx)
    split
    · exact ⟨h.nodup, hqueued, hcovered'⟩
    · exact ⟨h.nodup, hqueued, hcovered'⟩

theorem Woken.done (h : q.Woken) (hsound : q.monitor.Sound) (item : α) :
    (q.done item).Woken ∧ (q.done item).monitor.Sound := by
  have hdone : ({ q with processing := q.processing.erase item } : Typed α).Woken := h
  unfold Typed.done
  dsimp only
  split
  · exact ⟨hdone.pushAndSignal hsound item, hsound.signal.1⟩
  · split
    · exact ⟨hdone.signal hsound, hsound.signal.1⟩
    · exact ⟨hdone, hsound⟩

/-- A call with the mutex parks, the queue being empty, or takes the first
item. -/
theorem proceed_cases (hsound : q.monitor.Sound) (hrunning : q.shuttingDownValue = false)
    {call : Nat} (hcall : q.monitor.At call .holding) :
    (q.queue = [] ∧ ∃ monitor, q.proceed call = ({ q with monitor }, none) ∧ monitor.Sound) ∨
    ∃ item rest monitor, q.queue = item :: rest
      ∧ q.proceed call = ({ q with
          queue := rest, processing := Insert.insert item q.processing, dirty := q.dirty.erase item,
          monitor }, some item)
      ∧ monitor.Sound ∧ monitor.awake + 1 = q.monitor.awake ∧ monitor.cond = q.monitor.cond := by
  unfold proceed
  cases hqueue : q.queue with
  | nil =>
    obtain ⟨monitor, hwait, hsound', -⟩ := hsound.wait hcall
    exact .inl ⟨rfl, monitor, by simp [hrunning, hwait, Except.toOption], hsound'⟩
  | cons item rest =>
    obtain ⟨monitor, hleave, hsound', hawake, hcond⟩ := hsound.leave hcall
    exact .inr ⟨item, rest, monitor, rfl, by simp [hleave, Except.toOption], hsound', hawake, hcond⟩

/-- The first item is handed out. -/
theorem Consistent.pop (h : q.Consistent) {item : α} {rest : List α}
    (hqueue : q.queue = item :: rest) (monitor : Monitor) :
    ({ q with
        queue := rest, processing := Insert.insert item q.processing, dirty := q.dirty.erase item,
        monitor } : Typed α).Consistent := by
  have hnodup : (item :: rest).Nodup := hqueue ▸ h.nodup
  have hne : ∀ x ∈ rest, x ≠ item := fun x hx heq => (List.nodup_cons.mp hnodup).1 (heq ▸ hx)
  refine ⟨(List.nodup_cons.mp hnodup).2, fun x hx => ?_, fun x hx => ?_⟩
  · obtain ⟨hdirty, hprocessing⟩ := h.queued x (hqueue ▸ List.mem_cons_of_mem _ hx)
    exact ⟨Finset.mem_erase_of_ne_of_mem (hne x hx) hdirty, by simp [hne x hx, hprocessing]⟩
  · obtain ⟨hxne, hdirty⟩ := Finset.mem_erase.mp hx
    rcases h.covered x hdirty with hmem | hmem
    · rw [hqueue] at hmem
      exact .inl ((List.mem_cons.mp hmem).resolve_left hxne)
    · exact .inr (Finset.mem_insert_of_mem hmem)

end Typed

namespace WorkQueue

/-- What a run keeps. -/
structure Invariant (m : WorkQueue α) : Prop where
  sound : m.queue.monitor.Sound
  running : m.queue.shuttingDownValue = false
  consistent : m.queue.Consistent
  woken : m.queue.Woken
  /-- The items processing are those handed out and not done. -/
  held : ∀ x, x ∈ m.queue.processing ↔ ∃ call, (call, x) ∈ m.workers
  heldOnce : (m.workers.map Prod.snd).Nodup
  /-- After its add an item is handed out, or dirty still. -/
  owed : ∀ pre x post, m.log = pre ++ QueueEvent.added x :: post →
    (∃ call, .handed call x ∈ post) ∨ x ∈ m.queue.dirty

omit [DecidableEq α] in
theorem invariant_initial : (initial : WorkQueue α).Invariant where
  sound := Monitor.sound_empty
  running := rfl
  consistent := ⟨List.nodup_nil, by simp [initial, Typed.initial], by simp [initial, Typed.initial]⟩
  woken := fun h => absurd rfl h
  held := by simp [initial, Typed.initial]
  heldOnce := List.nodup_nil
  owed := by simp [initial]

omit [DecidableEq α] in
/-- What is owed after one more event. -/
theorem owed_append {log : List (QueueEvent α)} {dirty dirty' : Finset α}
    (h : ∀ pre x post, log = pre ++ QueueEvent.added x :: post →
      (∃ call, .handed call x ∈ post) ∨ x ∈ dirty)
    {event : QueueEvent α} (hadded : ∀ x, event = .added x → x ∈ dirty')
    (hkept : ∀ x ∈ dirty, x ∈ dirty' ∨ ∃ call, event = .handed call x) :
    ∀ pre x post, log ++ [event] = pre ++ QueueEvent.added x :: post →
      (∃ call, .handed call x ∈ post) ∨ x ∈ dirty' := by
  intro pre x post heq
  rcases List.eq_nil_or_concat post with rfl | ⟨post, last, rfl⟩
  · obtain ⟨-, hlast⟩ := List.append_inj' heq rfl
    exact .inr (hadded x (List.singleton_inj.mp hlast))
  · rw [List.concat_eq_append, ← List.cons_append, ← List.append_assoc] at heq
    obtain ⟨hlog, hlast⟩ := List.append_inj' heq rfl
    rw [List.concat_eq_append]
    rcases h pre x post hlog with ⟨call, hmem⟩ | hdirty
    · exact .inl ⟨call, List.mem_append_left _ hmem⟩
    · rcases hkept x hdirty with hmem | ⟨call, hevent⟩
      · exact .inr hmem
      · refine .inl ⟨call, List.mem_append_right _ ?_⟩
        rw [← List.singleton_inj.mp hlast, hevent]
        exact List.mem_singleton_self _

variable {m : WorkQueue α}

theorem Invariant.add (h : m.Invariant) (item : α) : (m.exec (.add item)).Invariant := by
  obtain ⟨hwoken, hsound⟩ := h.woken.add h.sound item
  obtain ⟨hprocessing, hrunning, hdirty⟩ := m.queue.add_fields h.running item
  exact
    { sound := hsound
      running := hrunning
      consistent := h.consistent.add item
      woken := hwoken
      held := fun x => by
        rw [show (m.exec (.add item)).queue.processing = _ from hprocessing]
        exact h.held x
      heldOnce := h.heldOnce
      owed := by
        show ∀ pre x post, m.log ++ [QueueEvent.added item] = pre ++ QueueEvent.added x :: post →
          (∃ call, .handed call x ∈ post) ∨ x ∈ (m.queue.add item).dirty
        rw [hdirty]
        refine owed_append h.owed (fun x hx => ?_) fun x hx => .inl (Finset.mem_insert_of_mem hx)
        cases hx
        exact Finset.mem_insert_self _ _ }

omit [DecidableEq α] in
/-- Nothing but the monitor changes. -/
theorem Invariant.withMonitor (h : m.Invariant) {monitor : Monitor} (hsound : monitor.Sound)
    (hwoken : monitor.cond.waiters ≠ [] → m.queue.queue.length ≤ monitor.awake) :
    ({ m with queue.monitor := monitor } : WorkQueue α).Invariant :=
  { sound := hsound
    running := h.running
    consistent := ⟨h.consistent.nodup, h.consistent.queued, h.consistent.covered⟩
    woken := hwoken
    held := h.held
    heldOnce := h.heldOnce
    owed := h.owed }

theorem Invariant.startGet (h : m.Invariant) : (m.exec .get).Invariant := by
  have hcall := m.queue.monitor.at_call_last
  obtain ⟨hawake, hcond⟩ := Monitor.awake_enter hcall
  obtain ⟨hawake', hcond'⟩ := m.queue.monitor.awake_call
  refine h.withMonitor (h.sound.call.enter hcall (.inl rfl)) fun hwaiters => ?_
  rw [hcond, hcond'] at hwaiters
  have hle := h.woken hwaiters
  simp only [Status.isAwake, Bool.false_eq_true, if_false] at hawake
  omega

theorem Invariant.resume (h : m.Invariant) (call : Nat) : (m.exec (.resume call)).Invariant := by
  show (m.resume call).Invariant
  unfold WorkQueue.resume
  split
  · rename_i hcall
    rcases Typed.proceed_cases h.sound h.running hcall with
      ⟨hempty, monitor, hproceed, hsound⟩ |
      ⟨item, rest, monitor, hqueue, hproceed, hsound, hawake, hcond⟩
    · rw [hproceed]
      exact h.withMonitor hsound fun _ => by simp [hempty]
    · rw [hproceed]
      obtain ⟨hdirty, hprocessing⟩ := h.consistent.queued item (hqueue ▸ List.mem_cons_self)
      exact
        { sound := hsound
          running := h.running
          consistent := h.consistent.pop hqueue monitor
          woken := fun hwaiters => by
            have hle := h.woken (hcond ▸ hwaiters)
            rw [hqueue, List.length_cons] at hle
            show rest.length ≤ monitor.awake
            omega
          held := fun x => by
            show x ∈ Insert.insert item m.queue.processing ↔ ∃ c, (c, x) ∈ m.workers ++ [(call, item)]
            rw [Finset.mem_insert, h.held]
            simp [exists_or, or_comm, eq_comm]
          heldOnce := by
            rw [List.map_append, List.nodup_append]
            refine ⟨h.heldOnce, by simp, fun a ha b hb hab => hprocessing ((h.held item).mpr ?_)⟩
            obtain ⟨⟨c, x⟩, hmem, rfl⟩ := List.mem_map.mp ha
            have hx : x = item := hab.trans (List.mem_singleton.mp hb)
            exact ⟨c, hx ▸ hmem⟩
          owed := owed_append h.owed (fun x hx => by cases hx) fun x hx => by
            by_cases heq : x = item
            · exact .inr ⟨call, by rw [heq]⟩
            · exact .inl (Finset.mem_erase_of_ne_of_mem heq hx) }
  · rename_i hcall
    obtain ⟨hawake, hcond⟩ := Monitor.awake_enter hcall
    refine h.withMonitor (h.sound.enter hcall (.inr rfl)) fun hwaiters => ?_
    have hle := h.woken (hcond ▸ hwaiters)
    simp only [Status.isAwake, if_true] at hawake
    omega
  · exact h

theorem Invariant.done (h : m.Invariant) {call : Nat} {item : α}
    (hitem : (call, item) ∈ m.workers) : (m.exec (.done call item)).Invariant := by
  obtain ⟨hwoken, hsound⟩ := h.woken.done h.sound item
  obtain ⟨hprocessing, hrunning, hdirty⟩ := m.queue.done_fields item
  have honce : ∀ c, (c, item) ∈ m.workers → c = call := fun c hc =>
    congrArg Prod.fst (List.inj_on_of_nodup_map h.heldOnce hc hitem rfl)
  exact
    { sound := hsound
      running := hrunning.trans h.running
      consistent := h.consistent.done ((h.held item).mpr ⟨call, hitem⟩)
      woken := hwoken
      held := fun x => by
        rw [show (m.exec (.done call item)).queue.processing = _ from hprocessing,
          Finset.mem_erase, h.held]
        have hnodup := h.heldOnce.of_map
        show _ ↔ ∃ c, (c, x) ∈ m.workers.erase (call, item)
        constructor
        · rintro ⟨hne, c, hc⟩
          exact ⟨c, (List.Nodup.mem_erase_iff hnodup).mpr ⟨fun heq => hne (by cases heq; rfl), hc⟩⟩
        · rintro ⟨c, hc⟩
          obtain ⟨hne, hmem⟩ := (List.Nodup.mem_erase_iff hnodup).mp hc
          refine ⟨fun heq => hne ?_, c, hmem⟩
          rw [heq] at hmem ⊢
          rw [honce c hmem]
      heldOnce := (List.erase_sublist.map _).nodup h.heldOnce
      owed := by
        intro pre x post heq
        rw [show (m.exec (.done call item)).queue.dirty = _ from hdirty]
        exact h.owed pre x post heq }

theorem Invariant.exec (h : m.Invariant) {act : QueueStep α} (hallowed : m.Allowed act) :
    (m.exec act).Invariant := by
  cases act with
  | add item => exact h.add item
  | get => exact h.startGet
  | resume call => exact h.resume call
  | done call item => exact h.done hallowed

theorem invariant_of_reach (h : (workqueue α).Reach m) : m.Invariant := by
  refine h.invariant ?_ ?_
  · rintro m rfl
    exact invariant_initial
  · rintro m act m' - hm ⟨hallowed, rfl⟩
    exact hm.exec hallowed

/-! ## What holds in every run -/

/-- No call can go on. -/
def AtRest (m : WorkQueue α) : Prop :=
  ∀ call, ¬ m.queue.monitor.At call .holding ∧ ¬ m.queue.monitor.At call .notified

/-- What a work queue is for. -/
structure Exact (m : WorkQueue α) : Prop where
  /-- No item is with two workers. -/
  exclusive : ∀ x call call', (call, x) ∈ m.workers → (call', x) ∈ m.workers → call = call'
  /-- An item that is about to be handed out is with no worker. -/
  free : ∀ call item, (m.exec (.resume call)).workers = m.workers ++ [(call, item)] →
    ∀ call', (call', item) ∉ m.workers
  consistent : m.queue.Consistent
  /-- An add queues an item that is neither waiting nor processing. -/
  queued : ∀ x, x ∉ m.queue.dirty → x ∉ m.queue.processing →
    (m.queue.add x).queue = m.queue.queue ++ [x]
  /-- An item that is waiting is not queued again. -/
  queuedOnce : ∀ x ∈ m.queue.queue, m.queue.add x = m.queue
  /-- An item added while it is processing is marked, and queued again,
  once, by `done`. -/
  marked : ∀ x ∈ m.queue.processing,
    (m.queue.add x).queue = m.queue.queue ∧ x ∈ (m.queue.add x).dirty
  requeued : ∀ call x, (call, x) ∈ m.workers → x ∈ m.queue.dirty →
    x ∉ m.queue.queue ∧ (m.queue.done x).queue = m.queue.queue ++ [x]
  /-- After its add an item is handed out, or it is pending still. -/
  owed : ∀ pre x post, m.log = pre ++ QueueEvent.added x :: post →
    (∃ call, .handed call x ∈ post) ∨ x ∈ m.queue.queue ∨ x ∈ m.queue.processing
  /-- In a queue that has drained every add has been followed by a
  hand-out of its item. -/
  drained : m.queue.queue = [] → m.queue.processing = ∅ →
    ∀ pre x post, m.log = pre ++ QueueEvent.added x :: post → ∃ call, .handed call x ∈ post
  /-- No wake-up is lost: with an item queued, no call is left parked
  where nothing can go on. -/
  woken : m.AtRest → m.queue.queue ≠ [] → ∀ call, ¬ m.queue.monitor.At call .parked

/-- A call that is handed an item had the mutex, and the item was the
first. -/
theorem Invariant.handed (h : m.Invariant) {call : Nat} {item : α}
    (hworkers : (m.exec (.resume call)).workers = m.workers ++ [(call, item)]) :
    item ∈ m.queue.queue := by
  have hstays : m.workers ≠ m.workers ++ [(call, item)] := fun heq => by
    have hlength := congrArg List.length heq
    simp at hlength
  change (m.resume call).workers = _ at hworkers
  unfold WorkQueue.resume at hworkers
  split at hworkers
  · rename_i hcall
    rcases Typed.proceed_cases h.sound h.running hcall with
      ⟨-, monitor, hproceed, -⟩ | ⟨first, rest, monitor, hqueue, hproceed, -⟩
    · rw [hproceed] at hworkers
      exact absurd hworkers hstays
    · rw [hproceed] at hworkers
      have hitem := List.append_cancel_left hworkers
      cases hitem
      rw [hqueue]
      exact List.mem_cons_self
  · exact absurd hworkers hstays
  · exact absurd hworkers hstays

omit [DecidableEq α] in
theorem Invariant.queue_of_atRest (h : m.Invariant) (hrest : m.AtRest) (hqueue : m.queue.queue ≠ [])
    (call : Nat) : ¬ m.queue.monitor.At call .parked := by
  intro hparked
  have hawake := h.sound.awake_eq_zero (fun i => (hrest i).1) fun i => (hrest i).2
  have hle := h.woken (List.ne_nil_of_mem ((h.sound.parked call).mpr hparked))
  rw [hawake] at hle
  exact hqueue (List.length_eq_zero_iff.mp (Nat.le_zero.mp hle))

theorem Invariant.exact (h : m.Invariant) : m.Exact := by
  have hcovered := h.consistent.covered
  exact
    { exclusive := fun x call call' hcall hcall' =>
        congrArg Prod.fst (List.inj_on_of_nodup_map h.heldOnce hcall hcall' rfl)
      free := fun call item hworkers call' hcall' =>
        (h.consistent.queued item (h.handed hworkers)).2 ((h.held item).mpr ⟨call', hcall'⟩)
      consistent := h.consistent
      queued := fun x hdirty hprocessing => by
        simp [Typed.add, h.running, hdirty, hprocessing, Typed.pushAndSignal]
      queuedOnce := fun x hx => by
        simp [Typed.add, (h.consistent.queued x hx).1]
      marked := fun x hx => by
        refine ⟨?_, (m.queue.add_fields h.running x).2.2 ▸ Finset.mem_insert_self _ _⟩
        simp only [Typed.add, h.running, Bool.false_eq_true, if_false, hx, if_true]
        split
        · rfl
        · rfl
      requeued := fun call x hcall hdirty => by
        have hprocessing := (h.held x).mpr ⟨call, hcall⟩
        refine ⟨fun hmem => (h.consistent.queued x hmem).2 hprocessing, ?_⟩
        simp [Typed.done, hdirty, Typed.pushAndSignal]
      owed := fun pre x post heq => (h.owed pre x post heq).imp id (hcovered x)
      drained := fun hqueue hprocessing pre x post heq => by
        rcases h.owed pre x post heq with hhanded | hdirty
        · exact hhanded
        · have hmem := hcovered x hdirty
          simp [hqueue, hprocessing] at hmem
      woken := h.queue_of_atRest }

/-- **The work queue.** In every run before shutdown, of any clients and
any workers, no item is with two workers, an item is queued once while it
waits and once more when it was added while processing, every add is
followed by a hand-out of its item unless the item is pending still, and
no wake-up is lost. -/
theorem workqueue_exact {m : WorkQueue α} (h : (workqueue α).Reach m) : m.Exact :=
  (invariant_of_reach h).exact

/-- An item is added, handed out, and added again while it is
processing. -/
def addedTwice : WorkQueue Nat :=
  (((initial.exec (.add 7)).exec .get).exec (.resume 0)).exec (.add 7)

theorem workqueue_exact_addedTwice :
    addedTwice.Exact ∧ addedTwice.workers = [(0, 7)] ∧ addedTwice.queue.dirty = {7} := by
  have hstart : (workqueue Nat).Reach (initial : WorkQueue Nat) := .start rfl
  have hadd := hstart.step (l := QueueStep.add (7 : Nat)) ⟨trivial, rfl⟩
  have hget := hadd.step (l := QueueStep.get) ⟨trivial, rfl⟩
  have hresume := hget.step (l := QueueStep.resume 0) ⟨trivial, rfl⟩
  have hagain := hresume.step (l := QueueStep.add (7 : Nat)) ⟨trivial, rfl⟩
  exact ⟨workqueue_exact hagain, by decide, by decide⟩

end WorkQueue

end Webernetes.ClientGo
