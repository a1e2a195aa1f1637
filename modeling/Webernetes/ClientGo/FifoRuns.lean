/-
Webernetes.ClientGo.FifoRuns — what every run of a FIFO keeps.

The FIFO refines the queue of `Base.LazyQueue`: its log is lawful and
replays to its ids and items (`Refines`), and one turn of `pop`'s loop is
one event of the log (`takeNext_taken`). So what that library says of
lawful logs is true of every run. The two other parts of the invariant
are about the calls: a call is parked only while the queue is empty
(`Calls`), and the population count is what the first batch has left
(`Counted`).
-/
import Webernetes.ClientGo.Fifo

/-! ## Broadcast -/

namespace Webernetes.Go.Monitor

theorem foldl_notified (waiters : List Nat) (m : Monitor) :
    (waiters.foldl (fun m waiter => m.setStatus waiter .notified) m).mutex = m.mutex
      ∧ (waiters.foldl (fun m waiter => m.setStatus waiter .notified) m).cond = m.cond
      ∧ ∀ i status, (waiters.foldl (fun m waiter => m.setStatus waiter .notified) m).At i status ↔
        if i ∈ waiters ∧ i < m.calls.length then status = .notified else m.At i status := by
  induction waiters generalizing m with
  | nil => simp
  | cons waiter waiters ih =>
    obtain ⟨hmutex, hcond, hat⟩ := ih (m.setStatus waiter .notified)
    refine ⟨hmutex, hcond, ?_⟩
    intro i status
    have hlength : (m.setStatus waiter .notified).calls.length = m.calls.length :=
      List.length_set
    have hset : (m.setStatus waiter .notified).At i status ↔
        if waiter = i ∧ i < m.calls.length then status = .notified else m.At i status := by
      show (m.calls.set waiter .notified)[i]? = some status ↔ _
      rw [List.getElem?_set]
      by_cases hwaiter : waiter = i
      · subst hwaiter
        by_cases hlt : waiter < m.calls.length
        · simp [hlt, eq_comm]
        · simp [hlt, At]
      · simp [hwaiter]
    rw [List.foldl_cons, hat, hlength, hset]
    by_cases hmem : i ∈ waiters ∧ i < m.calls.length
    · simp [hmem]
    · by_cases hwaiter : waiter = i
      · subst hwaiter
        by_cases hlt : waiter < m.calls.length
        · simp [hlt]
        · simp [hlt]
      · simp [hmem, hwaiter, Ne.symm hwaiter]

/-- A broadcast notifies the calls that are parked and no others. -/
theorem at_broadcast {m : Monitor} (h : m.Sound) {i : Nat} {status : Status} :
    m.broadcast.At i status ↔
      m.At i status ∧ status ≠ .parked ∨ status = .notified ∧ m.At i .parked := by
  have hat : m.broadcast.At i status ↔
      if i ∈ m.cond.waiters ∧ i < m.calls.length then status = .notified else m.At i status :=
    (foldl_notified m.cond.waiters { m with cond := {} }).2.2 i status
  have hparked := h.parked i
  rw [hat]
  by_cases hmem : i ∈ m.cond.waiters
  · have hi := hparked.mp hmem
    have hlt := (List.getElem?_eq_some_iff.mp hi).1
    rw [if_pos ⟨hmem, hlt⟩]
    constructor
    · intro hstatus
      exact Or.inr ⟨hstatus, hi⟩
    · rintro (⟨hat, hne⟩ | ⟨hstatus, -⟩)
      · rw [At, hi] at hat
        exact absurd (Option.some.inj hat).symm hne
      · exact hstatus
  · have hnot : ¬ m.At i .parked := fun hi => hmem (hparked.mpr hi)
    rw [if_neg fun hmem' => hmem hmem'.1]
    constructor
    · intro hat
      refine Or.inl ⟨hat, ?_⟩
      rintro rfl
      exact hnot hat
    · rintro (⟨hat, -⟩ | ⟨-, hi⟩)
      · exact hat
      · exact absurd hi hnot

theorem Sound.broadcast {m : Monitor} (h : m.Sound) :
    m.broadcast.Sound ∧ m.broadcast.cond.waiters = [] := by
  obtain ⟨hmutex, hcond, -⟩ := foldl_notified m.cond.waiters { m with cond := {} }
  have hmutex : m.broadcast.mutex = m.mutex := hmutex
  have hcond : m.broadcast.cond.waiters = [] := congrArg Cond.waiters hcond
  refine ⟨?_, hcond⟩
  exact
    { locking := fun i => by rw [hmutex, h.locking i, at_broadcast h]; simp
      lockingNodup := hmutex ▸ h.lockingNodup
      parked := fun i => by rw [hcond, at_broadcast h]; simp
      parkedNodup := hcond ▸ List.nodup_nil
      holder := by simp only [hmutex, h.holder, at_broadcast h]; simp
      oneHolder := fun i j hi hj => by
        simp only [at_broadcast h, reduceCtorEq, false_and, or_false, ne_eq, not_false_eq_true,
          and_true] at hi hj
        exact h.oneHolder i j hi hj
      locked := by rw [hmutex]; exact h.locked }

theorem at_enter_of_ne {m : Monitor} {i j : Nat} {status : Status} (hne : j ≠ i) :
    (m.enter i).At j status ↔ m.At j status := by
  unfold Monitor.enter
  split
  · show (m.calls.set i _)[j]? = _ ↔ _
    rw [List.getElem?_set_ne (Ne.symm hne)]
  · show (m.calls.set i _)[j]? = _ ↔ _
    rw [List.getElem?_set_ne (Ne.symm hne)]

theorem at_call_of_at {m : Monitor} {i : Nat} {status : Status} (h : m.At i status) :
    m.call.At i status := by
  have hlt := (List.getElem?_eq_some_iff.mp h).1
  show (m.calls ++ [.idle])[i]? = some status
  rw [List.getElem?_append_left hlt]
  exact h

end Webernetes.Go.Monitor

namespace Webernetes.ClientGo

open Js Base Base.LazyQueue Go

variable {ν ε : Type}

/-! ## The queue and the items -/

namespace FIFO

/-- The queue of `Base.LazyQueue` a FIFO stands for. -/
def view (f : FIFO ν) : LazyQueue.Queue JsString ν := ⟨f.queue, f.items.get⟩

theorem Queue.ext {q r : LazyQueue.Queue JsString ν} (hkeys : q.keys = r.keys)
    (hvalue : ∀ key, q.value key = r.value key) : q = r := by
  cases q
  cases r
  cases hkeys
  congr 1
  exact funext hvalue

/-- What a check for the initial sync leaves as it is. -/
theorem checkSynced_fields (f : FIFO ν) :
    f.checkSynced.items = f.items ∧ f.checkSynced.queue = f.queue
      ∧ f.checkSynced.populated = f.populated
      ∧ f.checkSynced.initialPopulationCount = f.initialPopulationCount
      ∧ f.checkSynced.closed = f.closed ∧ f.checkSynced.monitor = f.monitor := by
  unfold checkSynced
  dsimp only
  split <;> exact ⟨rfl, rfl, rfl, rfl, rfl, rfl⟩

theorem checkSynced_syncedClosed (f : FIFO ν) :
    f.checkSynced.syncedClosed = true
      ↔ f.syncedClosed = true ∨ f.populated = true ∧ f.initialPopulationCount = 0 := by
  unfold checkSynced
  dsimp only
  split
  · rename_i h
    simp only [Bool.and_eq_true, decide_eq_true_eq] at h
    simp [h.1]
  · rename_i h
    simp only [Bool.and_eq_true, decide_eq_true_eq, Bool.not_eq_true'] at h
    cases hs : f.syncedClosed with
    | true => simp
    | false => simpa [hs] using h

theorem isSome_iff_contains (items : JsMap JsString ν) (id : JsString) :
    items.contains id = (items.get id).isSome := by
  rw [Bool.eq_iff_iff, JsMap.contains_iff, Option.isSome_iff_exists]

theorem view_add (f : FIFO ν) (id : JsString) (obj : ν) :
    (f.add id obj).view = f.view.apply (.put id obj) := by
  obtain ⟨hitems, hqueue, -⟩ := checkSynced_fields ({ f with populated := true } : FIFO ν)
  refine Queue.ext ?_ ?_
  · show (add f id obj).queue = if (f.items.get id).isSome then f.queue else f.queue ++ [id]
    unfold add
    dsimp only
    rw [hitems, isSome_iff_contains]
    split
    · rw [hqueue]
    · show _ ++ [id] = _
      rw [hqueue]
  · intro key
    have hget : (add f id obj).items = f.items.set id obj := by
      unfold add
      dsimp only
      split <;> exact congrArg (JsMap.set · id obj) hitems
    show (add f id obj).items.get key = if id = key then some obj else f.items.get key
    rw [hget, JsMap.get_set]
    simp only [eq_comm]

theorem view_delete (f : FIFO ν) (id : JsString) :
    (f.delete id).view = f.view.apply (.remove id) := by
  obtain ⟨hitems, hqueue, -⟩ := checkSynced_fields ({ f with populated := true } : FIFO ν)
  refine Queue.ext hqueue ?_
  intro key
  show (JsMap.delete _ id).get key = if id = key then none else f.items.get key
  rw [hitems, JsMap.get_delete]
  simp only [eq_comm]

theorem view_replace (f : FIFO ν) (items : JsMap JsString ν) (resourceVersion : JsString) :
    (f.replace items resourceVersion).view = f.view.apply (.reset items.entries) := by
  have hfields : (f.replace items resourceVersion).queue = items.keys
      ∧ (f.replace items resourceVersion).items = items := by
    unfold replace
    dsimp only
    split <;> exact ⟨rfl, rfl⟩
  refine Queue.ext hfields.1 ?_
  intro key
  show (f.replace items resourceVersion).items.get key = valueIn items.entries key
  rw [hfields.2]
  rfl

/-- No id without a place is stored, so a resync queues nothing. -/
theorem view_resync {f : FIFO ν}
    (h : ∀ key, (f.items.get key).isSome = true → key ∈ f.queue) : f.resync.view = f.view := by
  have hnone : (f.items.keys.filter fun id => !f.queue.contains id) = [] := by
    rw [List.filter_eq_nil_iff]
    intro key hkey
    obtain ⟨value, hvalue⟩ := JsMap.mem_keys_iff.mp hkey
    have hmem := h key (by rw [hvalue]; rfl)
    simp [hmem]
  unfold resync
  rw [hnone, List.append_nil]
  dsimp only
  split <;> rfl

/-- What the loop of `pop` does before it hands out or waits. -/
structure Taken (f f' : FIFO ν) (log : List (LazyQueue.Event JsString ν))
    (popped : Option (Popped ν)) : Prop where
  lawful : ∀ l, Lawful l → replay l = f.view → Lawful (l ++ log) ∧ replay (l ++ log) = f'.view
  populated : f'.populated = f.populated
  closed : f'.closed = f.closed
  monitor : f'.monitor = f.monitor
  count : f'.initialPopulationCount = f.initialPopulationCount - shifted log
  onlyShifts : ∀ e ∈ log, e.shifts = true
  empty : popped = none → f'.queue = [] ∧ f'.items = f.items
  synced : f'.syncedClosed = true →
    f.syncedClosed = true ∨ f'.populated = true ∧ f'.initialPopulationCount = 0
  stays : f.syncedClosed = true → f'.syncedClosed = true
  due : f'.populated = true → f'.initialPopulationCount = 0 → f.initialPopulationCount ≠ 0 →
    f'.syncedClosed = true ∨ ∃ p, popped = some p ∧ p.shouldCheckSynced = true

/-- The state after one id was shifted. -/
def shift (f : FIFO ν) (rest : List JsString) : FIFO ν :=
  { f with
    queue := rest
    initialPopulationCount :=
      if decide (0 < f.initialPopulationCount) then f.initialPopulationCount - 1
      else f.initialPopulationCount }

theorem shift_count (f : FIFO ν) (rest : List JsString) :
    (f.shift rest).initialPopulationCount = f.initialPopulationCount - 1 := by
  show (if decide (0 < f.initialPopulationCount) then _ else _) = _
  split
  · rfl
  · rename_i h
    simp only [decide_eq_true_eq] at h
    omega

/-- The id is taken with its item. -/
theorem taken_item {f : FIFO ν} {id : JsString} {rest : List JsString} {item : ν}
    (hqueue : f.queue = id :: rest) (hitem : f.items.get id = some item) :
    Taken f { f.shift rest with items := f.items.delete id } [.take id item]
      (some ⟨item, !f.hasSynced, decide (0 < f.initialPopulationCount)⟩) where
  lawful l hl hreplay := by
    have hview : ({ f.shift rest with items := f.items.delete id } : FIFO ν).view
        = f.view.apply (.take id item) := by
      refine Queue.ext ?_ ?_
      · show rest = f.queue.tail
        rw [hqueue]
        rfl
      · intro key
        show (f.items.delete id).get key = if id = key then none else f.items.get key
        rw [JsMap.get_delete]
        simp only [eq_comm]
    refine ⟨hl.snoc ?_, ?_⟩
    · rw [hreplay]
      exact ⟨by rw [view, hqueue]; rfl, hitem⟩
    · rw [replay_snoc, hreplay, hview]
  populated := rfl
  closed := rfl
  monitor := rfl
  count := f.shift_count rest
  onlyShifts e he := by
    rw [List.mem_singleton.mp he]
    rfl
  empty h := by cases h
  synced h := Or.inl h
  stays h := h
  due _ _ hne := Or.inr ⟨_, rfl, by simpa [Nat.pos_iff_ne_zero] using hne⟩

/-- An id without an item is dropped before the rest of the loop. -/
theorem Taken.skip {f f' : FIFO ν} {id : JsString} {rest : List JsString}
    {log : List (LazyQueue.Event JsString ν)} {popped : Option (Popped ν)}
    (hqueue : f.queue = id :: rest) (hnone : f.items.get id = none)
    (h : Taken (if decide (0 < f.initialPopulationCount) then (f.shift rest).checkSynced
      else f.shift rest) f' log popped) : Taken f f' (.skip id :: log) popped := by
  have hpos : decide (0 < f.initialPopulationCount) = true ↔ f.initialPopulationCount ≠ 0 := by
    simp [Nat.pos_iff_ne_zero]
  have hcount := f.shift_count rest
  obtain ⟨hitems, hkeys, hpopulated, hcount', hclosed, hmonitor⟩ :=
    checkSynced_fields (f.shift rest)
  have hsynced := checkSynced_syncedClosed (f.shift rest)
  -- the state the rest of the loop starts from, and what a check adds to it
  generalize hg : (if decide (0 < f.initialPopulationCount) then (f.shift rest).checkSynced
    else f.shift rest) = g at h
  have hview : g.view = f.view.apply (.skip id) := by
    have hfields : g.queue = rest ∧ g.items = f.items := by
      rw [← hg]
      split
      · exact ⟨hkeys, hitems⟩
      · exact ⟨rfl, rfl⟩
    refine Queue.ext ?_ ?_
    · show g.queue = f.queue.tail
      rw [hfields.1, hqueue]
      rfl
    · intro key
      show g.items.get key = f.items.get key
      rw [hfields.2]
  have hsame : g.populated = f.populated ∧ g.closed = f.closed ∧ g.monitor = f.monitor
      ∧ g.initialPopulationCount = f.initialPopulationCount - 1 ∧ g.items = f.items := by
    rw [← hg]
    split
    · exact ⟨hpopulated, hclosed, hmonitor, hcount'.trans hcount, hitems⟩
    · exact ⟨rfl, rfl, rfl, hcount, rfl⟩
  obtain ⟨hgpopulated, hgclosed, hgmonitor, hgcount, hgitems⟩ := hsame
  have hshifted : shifted (.skip id :: log) = shifted log + 1 := List.countP_cons_of_pos rfl
  exact
    { lawful := fun l hl hreplay => by
        have hstep : Lawful (l ++ [.skip id]) := by
          refine hl.snoc ?_
          rw [hreplay]
          exact ⟨by rw [view, hqueue]; rfl, hnone⟩
        have hrest := h.lawful (l ++ [.skip id]) hstep (by rw [replay_snoc, hreplay, hview])
        rw [List.append_assoc] at hrest
        exact hrest
      populated := h.populated.trans hgpopulated
      closed := h.closed.trans hgclosed
      monitor := h.monitor.trans hgmonitor
      count := by
        rw [h.count, hgcount, hshifted]
        omega
      onlyShifts := fun e he => by
        rcases List.mem_cons.mp he with rfl | he
        · rfl
        · exact h.onlyShifts e he
      empty := fun hpopped => ⟨(h.empty hpopped).1, (h.empty hpopped).2.trans hgitems⟩
      synced := fun hs => by
        rcases h.synced hs with hs | hs
        · rw [← hg] at hs
          split at hs
          · rcases hsynced.mp hs with hs | ⟨hp, hc⟩
            · exact Or.inl hs
            · refine Or.inr ⟨?_, ?_⟩
              · rw [h.populated, hgpopulated]
                exact hp
              · rw [h.count, hgcount, ← hcount, hc]
                omega
          · exact Or.inl hs
        · exact Or.inr hs
      stays := fun hs => by
        refine h.stays ?_
        rw [← hg]
        split
        · exact hsynced.mpr (Or.inl hs)
        · exact hs
      due := fun hp hc hne => by
        by_cases hzero : g.initialPopulationCount = 0
        · refine Or.inl (h.stays ?_)
          rw [← hg, if_pos (hpos.mpr hne)]
          refine hsynced.mpr (Or.inr ⟨?_, ?_⟩)
          · rw [h.populated, hgpopulated] at hp
            exact hp
          · rw [hcount, ← hgcount, hzero]
        · exact h.due hp hc hzero }

theorem takeNext_taken {queue : List JsString} {f : FIFO ν} (hqueue : f.queue = queue) :
    Taken f (f.takeNext queue).1 (f.takeNext queue).2.1 (f.takeNext queue).2.2 := by
  induction queue generalizing f with
  | nil =>
    have hsame : ({ f with queue := [] } : FIFO ν) = f := by rw [← hqueue]
    show Taken f { f with queue := [] } [] none
    rw [hsame]
    exact
      { lawful := fun l hl hreplay => by rw [List.append_nil]; exact ⟨hl, hreplay⟩
        populated := rfl
        closed := rfl
        monitor := rfl
        count := rfl
        onlyShifts := fun e he => absurd he List.not_mem_nil
        empty := fun _ => ⟨hqueue, rfl⟩
        synced := fun h => Or.inl h
        stays := fun h => h
        due := fun _ hc hne => absurd hc hne }
  | cons id rest ih =>
    rw [takeNext]
    cases hitem : f.items.get id with
    | some item =>
      dsimp only
      exact taken_item hqueue hitem
    | none =>
      dsimp only
      refine Taken.skip hqueue hitem (ih ?_)
      split
      · exact (checkSynced_fields (f.shift rest)).2.1
      · rfl

end FIFO

namespace FIFO

/-- What a call that runs to its end under the lock does to the monitor. -/
def Wakes (f f' : FIFO ν) : Prop :=
  f'.monitor = f.monitor ∧ (f'.queue = f.queue ∨ f'.queue = [])
    ∨ f'.monitor = f.monitor.broadcast

theorem wakes_add (f : FIFO ν) (id : JsString) (obj : ν) : f.Wakes (f.add id obj) := by
  right
  obtain ⟨-, -, -, -, -, hmonitor⟩ := checkSynced_fields ({ f with populated := true } : FIFO ν)
  unfold add
  dsimp only
  split <;> exact congrArg Monitor.broadcast hmonitor

theorem wakes_delete (f : FIFO ν) (id : JsString) : f.Wakes (f.delete id) := by
  obtain ⟨-, hqueue, -, -, -, hmonitor⟩ :=
    checkSynced_fields ({ f with populated := true } : FIFO ν)
  exact Or.inl ⟨hmonitor, Or.inl hqueue⟩

theorem replace_monitor (f : FIFO ν) (items : JsMap JsString ν) (resourceVersion : JsString) :
    (f.replace items resourceVersion).monitor
      = if items.keys = [] then f.monitor else f.monitor.broadcast := by
  have hchecked : ∀ n, ({ f with populated := true, initialPopulationCount := n }
      : FIFO ν).checkSynced.monitor = f.monitor := fun n => (checkSynced_fields _).2.2.2.2.2
  unfold replace
  dsimp only
  split
  · split
    · rfl
    · exact hchecked _
  · split
    · rfl
    · exact congrArg Monitor.broadcast (hchecked _)

theorem wakes_replace (f : FIFO ν) (items : JsMap JsString ν) (resourceVersion : JsString) :
    f.Wakes (f.replace items resourceVersion) := by
  have hmonitor := f.replace_monitor items resourceVersion
  have hqueue : (f.replace items resourceVersion).queue = items.keys := by
    unfold replace
    dsimp only
    split <;> rfl
  by_cases hkeys : items.keys = []
  · rw [if_pos hkeys] at hmonitor
    exact Or.inl ⟨hmonitor, Or.inr (hqueue.trans hkeys)⟩
  · rw [if_neg hkeys] at hmonitor
    exact Or.inr hmonitor

theorem wakes_resync (f : FIFO ν) : f.Wakes f.resync := by
  unfold resync
  dsimp only
  split
  · rename_i hempty
    exact Or.inl ⟨rfl, Or.inr hempty⟩
  · exact Or.inr rfl

theorem wakes_close (f : FIFO ν) : f.Wakes f.close := Or.inr rfl

/-- What it does to the count and to the initial sync, `size` items being
the first the FIFO is given. -/
structure Counts (f f' : FIFO ν) (size : Nat) : Prop where
  populated : f'.populated = true
  count : f'.initialPopulationCount = if f.populated then f.initialPopulationCount else size
  synced : f'.syncedClosed = true → f.syncedClosed = true ∨ f'.initialPopulationCount = 0
  stays : f.syncedClosed = true → f'.syncedClosed = true
  due : f.populated = false → f'.initialPopulationCount = 0 → f'.syncedClosed = true

theorem counts_populated {f : FIFO ν} (hcount : f.populated = false → f.initialPopulationCount = 0) :
    Counts f ({ f with populated := true } : FIFO ν).checkSynced 0 := by
  obtain ⟨-, -, hpopulated, hcount', -⟩ := checkSynced_fields ({ f with populated := true } : FIFO ν)
  have hsynced := checkSynced_syncedClosed ({ f with populated := true } : FIFO ν)
  exact
    { populated := hpopulated
      count := by
        rw [hcount']
        split
        · rfl
        · rename_i hnot
          exact hcount (Bool.eq_false_iff.mpr hnot)
      synced := fun hs => by
        rcases hsynced.mp hs with hs | ⟨-, hc⟩
        · exact Or.inl hs
        · exact Or.inr (hcount'.trans hc)
      stays := fun hs => hsynced.mpr (Or.inl hs)
      due := fun _ hc => hsynced.mpr (Or.inr ⟨rfl, hcount'.symm.trans hc⟩) }

theorem counts_add {f : FIFO ν} (hcount : f.populated = false → f.initialPopulationCount = 0)
    (id : JsString) (obj : ν) : Counts f (f.add id obj) 0 := by
  have h := counts_populated hcount
  unfold add
  dsimp only
  split <;> exact ⟨h.populated, h.count, h.synced, h.stays, h.due⟩

theorem counts_delete {f : FIFO ν} (hcount : f.populated = false → f.initialPopulationCount = 0)
    (id : JsString) : Counts f (f.delete id) 0 := by
  have h := counts_populated hcount
  exact ⟨h.populated, h.count, h.synced, h.stays, h.due⟩

theorem counts_replace (f : FIFO ν) (items : JsMap JsString ν) (resourceVersion : JsString) :
    Counts f (f.replace items resourceVersion) items.size := by
  have hfields : ∀ g : FIFO ν, Counts f g items.size →
      Counts f (if items.keys = [] then
        { g with items, queue := items.keys, lastSyncResourceVersion := resourceVersion }
        else { g with
          items, queue := items.keys, lastSyncResourceVersion := resourceVersion
          monitor := g.monitor.broadcast }) items.size := by
    intro g h
    split <;> exact ⟨h.populated, h.count, h.synced, h.stays, h.due⟩
  cases hp : f.populated with
  | true =>
    have hreplace := hfields f
      ⟨hp, by rw [hp]; rfl, fun hs => Or.inl hs, fun hs => hs, fun hnot => by simp [hp] at hnot⟩
    unfold replace
    rw [if_pos hp]
    exact hreplace
  | false =>
    obtain ⟨-, -, hpopulated, hcount, -⟩ :=
      checkSynced_fields ({ f with populated := true, initialPopulationCount := items.size } : FIFO ν)
    have hsynced := checkSynced_syncedClosed
      ({ f with populated := true, initialPopulationCount := items.size } : FIFO ν)
    have hreplace := hfields
      ({ f with populated := true, initialPopulationCount := items.size } : FIFO ν).checkSynced
      { populated := hpopulated
        count := by rw [hcount, hp]; rfl
        synced := fun hs => by
          rcases hsynced.mp hs with hs | ⟨-, hc⟩
          · exact Or.inl hs
          · exact Or.inr (hcount.trans hc)
        stays := fun hs => hsynced.mpr (Or.inl hs)
        due := fun _ hc => hsynced.mpr (Or.inr ⟨rfl, hcount.symm.trans hc⟩) }
    unfold replace
    simp only [hp, Bool.false_eq_true, if_false]
    exact hreplace

/-- `resync` and `close` leave the count and the initial sync alone. -/
theorem resync_fields (f : FIFO ν) :
    f.resync.populated = f.populated
      ∧ f.resync.initialPopulationCount = f.initialPopulationCount
      ∧ f.resync.syncedClosed = f.syncedClosed := by
  unfold resync
  dsimp only
  split <;> exact ⟨rfl, rfl, rfl⟩

end FIFO

/-! ## The invariant -/

/-- The size of the first batch: of the one a FIFO was filled with when
nothing had been added to it or deleted from it. -/
def batch : List (LazyQueue.Event JsString ν) → Nat
  | .reset entries :: _ => entries.length
  | _ => 0

theorem batch_append {log : List (LazyQueue.Event JsString ν)} (hne : log ≠ [])
    (later : List (LazyQueue.Event JsString ν)) : batch (log ++ later) = batch log := by
  cases log with
  | nil => exact absurd rfl hne
  | cons e log => cases e <;> rfl

namespace FifoMachine

/-- A `pop` took an id of the first batch and has not checked for the
initial sync: `process` still runs, or it threw. -/
def Unchecked (m : FifoMachine ν ε) : Prop :=
  ∃ (i : Nat) (popped : Popped ν),
    (m.calls[i]? = some (.processing popped) ∨ m.calls[i]? = some (.threw popped))
      ∧ popped.shouldCheckSynced = true

structure Refines (m : FifoMachine ν ε) : Prop where
  lawful : Lawful m.log
  replays : replay m.log = m.fifo.view

structure Calls (m : FifoMachine ν ε) : Prop where
  sound : m.fifo.monitor.Sound
  processing : ∀ i popped, m.calls[i]? = some (.processing popped) →
    m.fifo.monitor.At i .holding
  parked : m.fifo.monitor.cond.waiters ≠ [] → m.fifo.queue = []

structure Counted (m : FifoMachine ν ε) : Prop where
  populated : m.fifo.populated = true ↔ m.log ≠ []
  count : m.fifo.initialPopulationCount = batch m.log - shifted m.log
  synced : m.fifo.syncedClosed = true →
    m.fifo.populated = true ∧ m.fifo.initialPopulationCount = 0
  due : m.fifo.populated = true → m.fifo.initialPopulationCount = 0 →
    m.fifo.syncedClosed = true ∨ m.Unchecked

structure Invariant (m : FifoMachine ν ε) : Prop where
  refines : m.Refines
  calls : m.Calls
  counted : m.Counted

variable {m : FifoMachine ν ε}

theorem invariant_initial : Invariant (.initial : FifoMachine ν ε) where
  refines := ⟨lawful_nil, rfl⟩
  calls :=
    { sound := Monitor.sound_empty
      processing := fun i popped h => by cases h
      parked := fun h => absurd rfl h }
  counted :=
    { populated := by simp [initial, FIFO.initial]
      count := rfl
      synced := fun h => by cases h
      due := fun h => by cases h }

/-- What is stored has a place in the queue. -/
theorem Refines.queued (h : m.Refines) {key : JsString}
    (hstored : (m.fifo.items.get key).isSome = true) : key ∈ m.fifo.queue := by
  have hmem := @mem_keys_of_stored _ _ _ _ h.lawful key
  rw [h.replays] at hmem
  exact hmem hstored

/-! ### Calls -/

/-- A call ends under the lock: nobody is at `process` afterwards. -/
theorem Calls.finish (h : m.Calls) {i : Nat} (hi : m.fifo.monitor.At i .holding) {f : FIFO ν}
    (hwakes : m.fifo.Wakes f) {log : List (LazyQueue.Event JsString ν)} {call : FifoCall ν ε}
    (hcall : ∀ popped, call ≠ .processing popped) : (m.finish i f log call).Calls := by
  have hlock : f.monitor.Sound ∧ f.monitor.At i .holding
      ∧ (f.monitor.cond.waiters ≠ [] → f.queue = []) := by
    rcases hwakes with ⟨hmonitor, hqueue⟩ | hmonitor
    · rw [hmonitor]
      refine ⟨h.sound, hi, ?_⟩
      intro hwaiters
      rcases hqueue with hqueue | hqueue
      · exact hqueue.trans (h.parked hwaiters)
      · exact hqueue
    · rw [hmonitor]
      obtain ⟨hsound, hnone⟩ := h.sound.broadcast
      refine ⟨hsound, (Monitor.at_broadcast h.sound).mpr (Or.inl ⟨hi, by simp⟩), ?_⟩
      intro hwaiters
      exact absurd hnone hwaiters
  obtain ⟨hsound, hholding, hparked⟩ := hlock
  obtain ⟨monitor, hleave, hsound', -, hcond⟩ := hsound.leave hholding
  have hmonitor : (m.finish i f log call).fifo.monitor = monitor := by
    show (f.monitor.leave i).toOption.getD f.monitor = monitor
    rw [hleave]
    rfl
  exact
    { sound := hmonitor ▸ hsound'
      processing := fun j popped hj => by
        have hj : (m.calls.set i call)[j]? = some (.processing popped) := hj
        by_cases hij : i = j
        · subst hij
          rw [List.getElem?_set_self'] at hj
          cases hold : m.calls[i]? with
          | none => simp [hold] at hj
          | some old =>
            rw [hold] at hj
            exact absurd (Option.some.inj hj) (hcall popped)
        · -- a second call at `process` would have the lock as well
          rw [List.getElem?_set_ne hij] at hj
          exact absurd (h.sound.oneHolder i j hi (h.processing j popped hj)) hij
      parked := fun hwaiters => by
        rw [hmonitor, hcond] at hwaiters
        exact hparked hwaiters }

theorem Calls.startCall (h : m.Calls) (keyFunc : ν → Except ε JsString) (request : FifoRequest ν) :
    (m.startCall keyFunc request).Calls := by
  have hprocessing : ∀ (call : FifoCall ν ε), (∀ popped, call ≠ .processing popped) →
      ∀ i popped, (m.calls ++ [call])[i]? = some (.processing popped) →
        m.fifo.monitor.At i .holding := by
    intro call hcall i popped hi
    rw [List.getElem?_append] at hi
    split at hi
    · exact h.processing i popped hi
    · have hmem : FifoCall.processing popped ∈ [call] := List.mem_of_getElem? hi
      exact absurd (List.mem_singleton.mp hmem).symm (hcall popped)
  unfold FifoMachine.startCall
  split
  · exact
      { sound := h.sound.call
        processing := fun i popped hi =>
          Monitor.at_call_of_at (hprocessing _ (fun _ => by simp) i popped hi)
        parked := h.parked }
  · rename_i call hprepare
    have hcall : ∀ popped, call ≠ .processing popped := by
      rintro popped rfl
      unfold FifoRequest.prepare at hprepare
      split at hprepare
      all_goals first
        | (split at hprepare <;> cases hprepare)
        | cases hprepare
    have hlast := m.fifo.monitor.at_call_last
    exact
      { sound := h.sound.call.enter hlast (Or.inl rfl)
        processing := fun i popped hi => by
          have hat := hprocessing call hcall i popped hi
          have hne : i ≠ m.fifo.monitor.calls.length :=
            Nat.ne_of_lt (List.getElem?_eq_some_iff.mp hat).1
          exact (Monitor.at_enter_of_ne hne).mpr (Monitor.at_call_of_at hat)
        parked := fun hwaiters => by
          have hcond := (Monitor.awake_enter hlast).2
          exact h.parked (by rw [← (Monitor.awake_call m.fifo.monitor).2, ← hcond]; exact hwaiters) }

/-- A call that was notified asks for the lock again. -/
theorem Calls.enter (h : m.Calls) {i : Nat} (hi : m.fifo.monitor.At i .notified) :
    ({ m with fifo.monitor := m.fifo.monitor.enter i } : FifoMachine ν ε).Calls where
  sound := h.sound.enter hi (Or.inr rfl)
  processing j popped hj := by
    have hat := h.processing j popped hj
    have hne : j ≠ i := by
      rintro rfl
      rw [Monitor.At, hat] at hi
      cases hi
    exact (Monitor.at_enter_of_ne hne).mpr hat
  parked hwaiters := by
    refine h.parked ?_
    rw [← (Monitor.awake_enter hi).2]
    exact hwaiters

/-- A `pop` that has the lock goes to `process`, to its end or to wait. -/
theorem Calls.resumePop (h : m.Calls) {i : Nat} (hi : m.fifo.monitor.At i .holding)
    (hpop : m.calls[i]? = some .pop) : (m.resumePop i).Calls := by
  have htaken := FIFO.takeNext_taken (f := m.fifo) rfl
  unfold FifoMachine.resumePop
  split
  · rename_i fifo log popped htake
    rw [htake] at htaken
    have hmonitor : fifo.monitor = m.fifo.monitor := htaken.monitor
    exact
      { sound := hmonitor ▸ h.sound
        processing := fun j p hj => by
          have hj : (m.calls.set i (.processing popped))[j]? = some (.processing p) := hj
          show fifo.monitor.At j .holding
          rw [hmonitor]
          by_cases hij : i = j
          · exact hij ▸ hi
          · rw [List.getElem?_set_ne hij] at hj
            exact h.processing j p hj
        parked := fun hwaiters => by
          -- something was queued, so nobody was parked
          have hwaiters : fifo.monitor.cond.waiters ≠ [] := hwaiters
          rw [hmonitor] at hwaiters
          have hempty := h.parked hwaiters
          rw [hempty] at htake
          cases htake }
  · rename_i fifo log htake
    rw [htake] at htaken
    have hmonitor : fifo.monitor = m.fifo.monitor := htaken.monitor
    have hempty : fifo.queue = [] := (htaken.empty rfl).1
    split
    · exact h.finish hi (Or.inl ⟨hmonitor, Or.inr hempty⟩) fun popped => by simp
    · obtain ⟨monitor, hwait, hsound, -, hcond⟩ := (hmonitor ▸ h.sound).wait (hmonitor ▸ hi)
      have hfifo : (fifo.wait i).monitor = monitor := by
        show (fifo.monitor.wait i).toOption.getD fifo.monitor = monitor
        rw [hwait]
        rfl
      exact
        { sound := hfifo ▸ hsound
          processing := fun j popped hj => by
            have hij := h.sound.oneHolder i j hi (h.processing j popped hj)
            rw [← hij] at hj
            rw [show m.calls[i]? = _ from hpop] at hj
            cases hj
          parked := fun _ => hempty }

/-! ### The log -/

/-- A call that ends with one event that is no shift. -/
theorem Refines.finish (h : m.Refines) (i : Nat) {f : FIFO ν} {e : LazyQueue.Event JsString ν}
    (he : (replay m.log).Allows e) (hview : f.view = m.fifo.view.apply e) (call : FifoCall ν ε) :
    (m.finish i f [e] call).Refines where
  lawful := h.lawful.snoc he
  replays := by
    show replay (m.log ++ [e]) = f.view
    rw [replay_snoc, h.replays, hview]

/-- A call that ends and leaves the queue and the items alone. -/
theorem Refines.finish_nil (h : m.Refines) (i : Nat) {f : FIFO ν} (hview : f.view = m.fifo.view)
    (call : FifoCall ν ε) : (m.finish i f [] call).Refines where
  lawful := by
    show Lawful (m.log ++ [])
    rw [List.append_nil]
    exact h.lawful
  replays := by
    show replay (m.log ++ []) = f.view
    rw [List.append_nil, h.replays, hview]

theorem Refines.resumePop (h : m.Refines) (i : Nat) : (m.resumePop i).Refines := by
  have htaken := (FIFO.takeNext_taken (f := m.fifo) rfl).lawful m.log h.lawful h.replays
  unfold FifoMachine.resumePop
  split
  · rename_i fifo log popped htake
    rw [htake] at htaken
    exact ⟨htaken.1, htaken.2⟩
  · rename_i fifo log htake
    rw [htake] at htaken
    split
    · exact ⟨htaken.1, htaken.2⟩
    · exact ⟨htaken.1, htaken.2⟩

/-! ### The count -/

/-- The calls that are not checked yet stay so when another call goes on. -/
theorem Unchecked.set (h : m.Unchecked) {i : Nat} (call : FifoCall ν ε)
    (hi : ∀ popped, m.calls[i]? = some (.processing popped) ∨ m.calls[i]? = some (.threw popped) →
      popped.shouldCheckSynced = true → call = .threw popped) :
    ∃ (j : Nat) (popped : Popped ν),
      ((m.calls.set i call)[j]? = some (.processing popped)
        ∨ (m.calls.set i call)[j]? = some (.threw popped)) ∧ popped.shouldCheckSynced = true := by
  obtain ⟨j, popped, hj, hcheck⟩ := h
  refine ⟨j, popped, ?_, hcheck⟩
  by_cases hij : i = j
  · subst hij
    have hlt : i < m.calls.length := by
      rcases hj with hj | hj
      · exact (List.getElem?_eq_some_iff.mp hj).1
      · exact (List.getElem?_eq_some_iff.mp hj).1
    rw [hi popped hj hcheck, List.getElem?_set_self hlt]
    exact Or.inr rfl
  · rw [List.getElem?_set_ne hij]
    exact hj

theorem Counted.unpopulated (h : m.Counted) (hnot : m.fifo.populated = false) :
    m.log = [] ∧ m.fifo.initialPopulationCount = 0 := by
  have hlog : m.log = [] := by
    by_contra hne
    have := h.populated.mpr hne
    rw [hnot] at this
    cases this
  refine ⟨hlog, ?_⟩
  rw [h.count, hlog]
  rfl

/-- A call that fills the queue or empties it ends, with an event that
makes the first batch `size` items long if it is the first. -/
theorem Counted.finish (h : m.Counted) {i : Nat} {f : FIFO ν} {e : LazyQueue.Event JsString ν}
    {size : Nat} (hcounts : m.fifo.Counts f size) (hshift : e.shifts = false)
    (hsize : batch [e] = size) {call : FifoCall ν ε}
    (hcall : ∀ popped, m.calls[i]? ≠ some (.processing popped) ∧ m.calls[i]? ≠ some (.threw popped)) :
    (m.finish i f [e] call).Counted := by
  have hnone : shifted [e] = 0 := by
    simp [shifted, hshift]
  exact
    { populated := by
        show f.populated = true ↔ m.log ++ [e] ≠ []
        simp [hcounts.populated]
      count := by
        show f.initialPopulationCount = batch (m.log ++ [e]) - shifted (m.log ++ [e])
        rw [hcounts.count, shifted_append, hnone]
        cases hp : m.fifo.populated with
        | true =>
          rw [batch_append (h.populated.mp hp), if_pos rfl, h.count]
          rfl
        | false =>
          rw [(h.unpopulated hp).1, List.nil_append, hsize, if_neg Bool.false_ne_true]
          rfl
      synced := fun hs => by
        refine ⟨hcounts.populated, ?_⟩
        rcases hcounts.synced hs with hs | hzero
        · obtain ⟨hp, hzero⟩ := h.synced hs
          show f.initialPopulationCount = 0
          rw [hcounts.count, if_pos hp, hzero]
        · exact hzero
      due := fun _ hzero => by
        have hzero : f.initialPopulationCount = 0 := hzero
        cases hp : m.fifo.populated with
        | false => exact Or.inl (hcounts.due hp hzero)
        | true =>
          rw [hcounts.count, if_pos hp] at hzero
          rcases h.due hp hzero with hs | hunchecked
          · exact Or.inl (hcounts.stays hs)
          · refine Or.inr (hunchecked.set call ?_)
            intro popped hi
            rcases hi with hi | hi
            · exact absurd hi (hcall popped).1
            · exact absurd hi (hcall popped).2 }

/-- A call that ends and leaves the log, the count and the initial sync
alone, or checks for it. -/
theorem Counted.finish_nil (h : m.Counted) {i : Nat} {f : FIFO ν}
    (hpopulated : f.populated = m.fifo.populated)
    (hcount : f.initialPopulationCount = m.fifo.initialPopulationCount)
    (hsynced : f.syncedClosed = true → m.fifo.syncedClosed = true
      ∨ m.fifo.populated = true ∧ m.fifo.initialPopulationCount = 0)
    (hstays : m.fifo.syncedClosed = true → f.syncedClosed = true) {call : FifoCall ν ε}
    (hcall : f.populated = true → f.initialPopulationCount = 0 → f.syncedClosed = true
      ∨ ∀ popped, m.calls[i]? = some (.processing popped) ∨ m.calls[i]? = some (.threw popped) →
        popped.shouldCheckSynced = true → call = .threw popped) :
    (m.finish i f [] call).Counted where
  populated := by
    show f.populated = true ↔ m.log ++ [] ≠ []
    rw [List.append_nil, hpopulated]
    exact h.populated
  count := by
    show f.initialPopulationCount = batch (m.log ++ []) - shifted (m.log ++ [])
    rw [List.append_nil, hcount]
    exact h.count
  synced hs := by
    show f.populated = true ∧ f.initialPopulationCount = 0
    rw [hpopulated, hcount]
    rcases hsynced hs with hs | hs
    · exact h.synced hs
    · exact hs
  due hp hzero := by
    rcases hcall hp hzero with hs | hcall
    · exact Or.inl hs
    · have hp : f.populated = true := hp
      have hzero : f.initialPopulationCount = 0 := hzero
      rw [hpopulated] at hp
      rw [hcount] at hzero
      rcases h.due hp hzero with hs | hunchecked
      · exact Or.inl (hstays hs)
      · exact Or.inr (hunchecked.set call hcall)

theorem Counted.resumePop (h : m.Counted) (hrefines : m.Refines) {i : Nat}
    (hpop : m.calls[i]? = some .pop) : (m.resumePop i).Counted := by
  have htaken := FIFO.takeNext_taken (f := m.fifo) rfl
  have hlt : i < m.calls.length := (List.getElem?_eq_some_iff.mp hpop).1
  have hother : ∀ call : FifoCall ν ε, ∀ popped,
      m.calls[i]? = some (.processing popped) ∨ m.calls[i]? = some (.threw popped) →
        popped.shouldCheckSynced = true → call = .threw popped := by
    intro call popped hi
    rw [hpop] at hi
    rcases hi with hi | hi <;> cases hi
  -- what the loop and the calls that are left make of the count
  have hloop : ∀ {fifo : FIFO ν} {log : List (LazyQueue.Event JsString ν)}
      {popped : Option (Popped ν)} {m' : FifoMachine ν ε}, m.fifo.Taken fifo log popped →
      m'.fifo.populated = fifo.populated →
      m'.fifo.initialPopulationCount = fifo.initialPopulationCount →
      m'.fifo.syncedClosed = fifo.syncedClosed → m'.log = m.log ++ log →
      (m.Unchecked → m'.Unchecked) →
      (∀ p, popped = some p → p.shouldCheckSynced = true → m'.Unchecked) → m'.Counted := by
    intro fifo log popped m' htaken hpopulated hcount hsynced hlog hkeeps hgives
    have hempty : m.log = [] → log = [] := by
      intro hnil
      have hlawful := htaken.lawful m.log hrefines.lawful hrefines.replays
      rw [hnil, List.nil_append] at hlawful
      cases log with
      | nil => rfl
      | cons e log =>
        have hallows := hlawful.1 [] e log rfl
        have hshift := htaken.onlyShifts e List.mem_cons_self
        cases e with
        | put k v => cases hshift
        | remove k => cases hshift
        | reset entries => cases hshift
        | skip k => cases hallows.1
        | take k v => cases hallows.1
    exact
      { populated := by
          rw [hpopulated, htaken.populated, h.populated, hlog]
          constructor
          · intro hne hnil
            exact hne (List.append_eq_nil_iff.mp hnil).1
          · intro hne hnil
            exact hne (by rw [hnil, hempty hnil]; rfl)
        count := by
          rw [hcount, htaken.count, h.count, hlog, shifted_append]
          by_cases hnil : m.log = []
          · rw [hnil, hempty hnil]
            rfl
          · rw [batch_append hnil]
            omega
        synced := fun hs => by
          rw [hpopulated, hcount]
          rw [hsynced] at hs
          rcases htaken.synced hs with hs | hs
          · obtain ⟨hp, hzero⟩ := h.synced hs
            refine ⟨htaken.populated.trans hp, ?_⟩
            rw [htaken.count, hzero]
            omega
          · exact hs
        due := fun hp hzero => by
          rw [hpopulated] at hp
          rw [hcount] at hzero
          rw [hsynced]
          by_cases hold : m.fifo.initialPopulationCount = 0
          · rcases h.due (htaken.populated.symm.trans hp) hold with hs | hunchecked
            · exact Or.inl (htaken.stays hs)
            · exact Or.inr (hkeeps hunchecked)
          · rcases htaken.due hp hzero hold with hs | ⟨p, hpopped, hcheck⟩
            · exact Or.inl hs
            · exact Or.inr (hgives p hpopped hcheck) }
  unfold FifoMachine.resumePop
  split
  · rename_i fifo log popped htake
    rw [htake] at htaken
    refine hloop htaken rfl rfl rfl rfl (fun hunchecked => hunchecked.set _ (hother _)) ?_
    intro p hp hcheck
    cases hp
    exact ⟨i, popped, Or.inl (List.getElem?_set_self hlt), hcheck⟩
  · rename_i fifo log htake
    rw [htake] at htaken
    split
    · refine hloop htaken rfl rfl rfl rfl (fun hunchecked => hunchecked.set _ (hother _)) ?_
      intro p hp
      cases hp
    · refine hloop htaken rfl rfl rfl rfl (fun hunchecked => hunchecked) ?_
      intro p hp
      cases hp

/-! ### Steps -/

theorem Counted.startCall (h : m.Counted) (keyFunc : ν → Except ε JsString)
    (request : FifoRequest ν) : (m.startCall keyFunc request).Counted := by
  have hkeeps : ∀ call : FifoCall ν ε, m.Unchecked →
      ∃ (i : Nat) (popped : Popped ν), ((m.calls ++ [call])[i]? = some (.processing popped)
        ∨ (m.calls ++ [call])[i]? = some (.threw popped)) ∧ popped.shouldCheckSynced = true := by
    intro call ⟨i, popped, hi, hcheck⟩
    have hlt : i < m.calls.length := by
      rcases hi with hi | hi
      · exact (List.getElem?_eq_some_iff.mp hi).1
      · exact (List.getElem?_eq_some_iff.mp hi).1
    refine ⟨i, popped, ?_, hcheck⟩
    rw [List.getElem?_append_left hlt]
    exact hi
  unfold FifoMachine.startCall
  split
  · exact ⟨h.populated, h.count, h.synced, fun hp hzero => (h.due hp hzero).imp id (hkeeps _)⟩
  · exact ⟨h.populated, h.count, h.synced, fun hp hzero => (h.due hp hzero).imp id (hkeeps _)⟩

/-- A call with the lock goes on. -/
theorem Invariant.run (h : m.Invariant) {i : Nat} (hi : m.fifo.monitor.At i .holding) :
    (m.run i).Invariant := by
  have hzero : m.fifo.populated = false → m.fifo.initialPopulationCount = 0 :=
    fun hnot => (h.counted.unpopulated hnot).2
  have hdone : ∀ popped, (.returned none none : FifoCall ν ε) ≠ .processing popped :=
    fun popped => by simp
  have hidle : ∀ call : FifoCall ν ε, m.calls[i]? = some call →
      (∀ popped, call ≠ .processing popped ∧ call ≠ .threw popped) →
      ∀ popped, m.calls[i]? ≠ some (.processing popped) ∧ m.calls[i]? ≠ some (.threw popped) := by
    intro call hcall hne popped
    rw [hcall]
    exact ⟨fun heq => (hne popped).1 (Option.some.inj heq),
      fun heq => (hne popped).2 (Option.some.inj heq)⟩
  unfold FifoMachine.run
  split
  · rename_i id obj hcall
    exact
      { refines := h.refines.finish (e := .put id obj) i trivial (FIFO.view_add m.fifo id obj) _
        calls := h.calls.finish hi (m.fifo.wakes_add id obj) hdone
        counted := h.counted.finish (FIFO.counts_add hzero id obj) rfl rfl
          (hidle _ hcall fun popped => ⟨by simp, by simp⟩) }
  · rename_i id hcall
    exact
      { refines := h.refines.finish (e := .remove id) i trivial (FIFO.view_delete m.fifo id) _
        calls := h.calls.finish hi (m.fifo.wakes_delete id) hdone
        counted := h.counted.finish (FIFO.counts_delete hzero id) rfl rfl
          (hidle _ hcall fun popped => ⟨by simp, by simp⟩) }
  · rename_i items resourceVersion hcall
    exact
      { refines := h.refines.finish (e := .reset items.entries) i trivial
          (FIFO.view_replace m.fifo items resourceVersion) _
        calls := h.calls.finish hi (m.fifo.wakes_replace items resourceVersion) hdone
        counted := h.counted.finish (FIFO.counts_replace m.fifo items resourceVersion) rfl rfl
          (hidle _ hcall fun popped => ⟨by simp, by simp⟩) }
  · rename_i hcall
    obtain ⟨hpopulated, hcount, hsynced⟩ := m.fifo.resync_fields
    have hnone := hidle _ hcall fun popped => ⟨by simp, by simp⟩
    exact
      { refines := h.refines.finish_nil i (FIFO.view_resync fun key hkey => h.refines.queued hkey) _
        calls := h.calls.finish hi m.fifo.wakes_resync hdone
        counted := h.counted.finish_nil hpopulated hcount (fun hs => Or.inl (hsynced ▸ hs))
          (fun hs => hsynced ▸ hs) fun _ _ => Or.inr fun popped hp => by
            rcases hp with hp | hp
            · exact absurd hp (hnone popped).1
            · exact absurd hp (hnone popped).2 }
  · rename_i hcall
    have hnone := hidle _ hcall fun popped => ⟨by simp, by simp⟩
    exact
      { refines := h.refines.finish_nil (f := m.fifo.close) i rfl _
        calls := h.calls.finish hi m.fifo.wakes_close hdone
        counted := h.counted.finish_nil (f := m.fifo.close) rfl rfl (fun hs => Or.inl hs) (fun hs => hs)
          fun _ _ => Or.inr fun popped hp => by
            rcases hp with hp | hp
            · exact absurd hp (hnone popped).1
            · exact absurd hp (hnone popped).2 }
  · rename_i hcall
    exact
      { refines := h.refines.resumePop i
        calls := h.calls.resumePop hi hcall
        counted := h.counted.resumePop h.refines hcall }
  · exact h

theorem Invariant.settle (h : m.Invariant) (i : Nat) (err : Option ε) :
    (m.settle i err).Invariant := by
  unfold FifoMachine.settle
  split
  · rename_i popped hcall
    obtain ⟨hitems, hqueue, hpopulated, hcount, -, hmonitor⟩ := m.fifo.checkSynced_fields
    have hsynced := m.fifo.checkSynced_syncedClosed
    have hi := h.calls.processing i popped hcall
    dsimp only
    split
    · have hview : m.fifo.checkSynced.view = m.fifo.view :=
        FIFO.Queue.ext hqueue fun key => by rw [FIFO.view, hitems]; rfl
      exact
        { refines := h.refines.finish_nil i hview _
          calls := h.calls.finish hi (Or.inl ⟨hmonitor, Or.inl hqueue⟩) fun popped => by simp
          counted := h.counted.finish_nil hpopulated hcount hsynced.mp
            (fun hs => hsynced.mpr (Or.inl hs)) fun hp hzero =>
              Or.inl (hsynced.mpr (Or.inr ⟨hpopulated.symm.trans hp, hcount.symm.trans hzero⟩)) }
    · rename_i hcheck
      exact
        { refines := h.refines.finish_nil i rfl _
          calls := h.calls.finish hi (Or.inl ⟨rfl, Or.inl rfl⟩) fun popped => by simp
          counted := h.counted.finish_nil rfl rfl (fun hs => Or.inl hs) (fun hs => hs)
            fun _ _ => Or.inr fun p hp hpcheck => by
              rw [hcall] at hp
              rcases hp with hp | hp
              · cases hp
                exact absurd hpcheck hcheck
              · cases hp }
  · exact h

theorem Invariant.throws (h : m.Invariant) (i : Nat) : (m.throws i).Invariant := by
  unfold FifoMachine.throws
  split
  · rename_i popped hcall
    have hi := h.calls.processing i popped hcall
    exact
      { refines := h.refines.finish_nil i rfl _
        calls := h.calls.finish hi (Or.inl ⟨rfl, Or.inl rfl⟩) fun popped => by simp
        counted := h.counted.finish_nil rfl rfl (fun hs => Or.inl hs) (fun hs => hs)
          fun _ _ => Or.inr fun p hp _ => by
            rw [hcall] at hp
            rcases hp with hp | hp
            · cases hp
              rfl
            · cases hp }
  · exact h

theorem Invariant.exec (h : m.Invariant) (keyFunc : ν → Except ε JsString) (act : FifoStep ν ε) :
    (m.exec keyFunc act).Invariant := by
  cases act with
  | call request =>
    have hfields : (m.startCall keyFunc request).log = m.log
        ∧ (m.startCall keyFunc request).fifo.view = m.fifo.view := by
      unfold FifoMachine.startCall
      split <;> exact ⟨rfl, rfl⟩
    exact
      { refines := ⟨hfields.1 ▸ h.refines.lawful, by
          show replay (m.startCall keyFunc request).log = (m.startCall keyFunc request).fifo.view
          rw [hfields.1, hfields.2]
          exact h.refines.replays⟩
        calls := h.calls.startCall keyFunc request
        counted := h.counted.startCall keyFunc request }
  | resume i =>
    show (m.resume i).Invariant
    unfold FifoMachine.resume
    split
    · exact h.run ‹_›
    · exact
        { refines := ⟨h.refines.lawful, h.refines.replays⟩
          calls := h.calls.enter ‹_›
          counted := ⟨h.counted.populated, h.counted.count, h.counted.synced, h.counted.due⟩ }
    · exact h
  | settle i err => exact h.settle i err
  | throws i => exact h.throws i

theorem invariant_of_reach {keyFunc : ν → Except ε JsString} {m : FifoMachine ν ε}
    (h : (fifoSystem keyFunc).Reach m) : m.Invariant := by
  refine h.invariant ?_ ?_
  · rintro m rfl
    exact invariant_initial
  · rintro m act m' - hm rfl
    exact hm.exec keyFunc act

/-! ## What a FIFO does -/

/-- A `pop` that has the lock while something is stored calls `process`. -/
theorem Invariant.handsOut (h : m.Invariant) {i : Nat} (hi : m.fifo.monitor.At i .holding)
    (hpop : m.calls[i]? = some .pop) {key : JsString}
    (hstored : (m.fifo.items.get key).isSome = true) :
    ∃ popped, (m.resume i).calls[i]? = some (.processing popped) := by
  have htaken := FIFO.takeNext_taken (f := m.fifo) rfl
  have hlt : i < m.calls.length := (List.getElem?_eq_some_iff.mp hpop).1
  have hresume : m.resume i = m.resumePop i := by
    unfold FifoMachine.resume
    rw [show m.fifo.monitor.calls[i]? = some .holding from hi]
    show m.run i = _
    unfold FifoMachine.run
    rw [hpop]
  have hrefines := h.refines.resumePop i
  rw [hresume]
  unfold FifoMachine.resumePop at hrefines ⊢
  cases htake : m.fifo.takeNext m.fifo.queue with
  | mk fifo rest =>
    obtain ⟨log, popped⟩ := rest
    rw [htake] at htaken hrefines
    cases popped with
    | some popped => exact ⟨popped, List.getElem?_set_self hlt⟩
    | none =>
      -- the loop would have dropped every id and left the item without one
      obtain ⟨hempty, hitems⟩ := htaken.empty rfl
      have hlawful := htaken.lawful m.log h.refines.lawful h.refines.replays
      have hmem := @mem_keys_of_stored _ _ _ _ hlawful.1 key
      rw [hlawful.2] at hmem
      have hmem : key ∈ fifo.queue := hmem (by rw [FIFO.view, hitems]; exact hstored)
      rw [hempty] at hmem
      cases hmem

/-- What holds of a FIFO in every state. `before`, `now` and `after` are
parts of what happened to it; `place` is where a key stands in the queue
for the first time. -/
structure Kept (m : FifoMachine ν ε) : Prop where
  /-- Every key with a stored item is queued, -/
  queued : ∀ key, (m.fifo.items.get key).isSome = true → key ∈ m.fifo.queue
  /-- no `pop` sleeps while an id is queued, -/
  awake : ∀ i, m.fifo.monitor.At i .parked → m.fifo.queue = []
  /-- one that goes on while an item is stored hands one out, -/
  handsOut : ∀ i key, m.fifo.monitor.At i .holding → m.calls[i]? = some .pop →
    (m.fifo.items.get key).isSome = true →
    ∃ popped, (m.resume i).calls[i]? = some (.processing popped)
  /-- and no more ids are taken before a stored item than stand before it. -/
  soon : ∀ before now key, m.log = before ++ now → Stays before now key →
    shifted now ≤ (replay before).place key
  /-- What is handed out was stored last and not deleted, replaced or
  handed out since. -/
  handed : ∀ before after key value, m.log = before ++ .take key value :: after →
    ∃ earlier e since, before = earlier ++ e :: since ∧ e.Stores key value
      ∧ ∀ f ∈ since, f.Keeps key
  /-- One `process` runs at a time. -/
  alone : ∀ (i j : Nat) (popped popped' : Popped ν), m.calls[i]? = some (.processing popped) →
    m.calls[j]? = some (.processing popped') → i = j
  /-- A key is not handed out before one that stands before it. -/
  order : ∀ before now after key other value,
    m.log = before ++ now ++ .take other value :: after →
    (replay before).place key < (replay before).place other → ¬ Stays before now key
  /-- The initial sync comes when the FIFO was populated and as many ids
  were taken as the first batch has, -/
  synced : m.fifo.hasSynced = true → m.log ≠ [] ∧ batch m.log ≤ shifted m.log
  /-- and no later than the end of the `pop`s that took them. -/
  syncs : m.log ≠ [] → batch m.log ≤ shifted m.log → m.fifo.hasSynced = true ∨ m.Unchecked

end FifoMachine

/-! ## A place that is kept too long -/

/-- The object of every ten numbers, keyed by the tens. -/
def tensKey (obj : Nat) : Except Unit JsString := .ok [Fin.ofNat 65536 (obj / 10)]

theorem reach_fifo (acts : List (FifoStep Nat Unit)) :
    (fifoSystem tensKey).Reach (acts.foldl (fun m act => m.exec tensKey act) .initial) :=
  System.Reach.foldl (fun _ _ => rfl) (.start rfl) acts

/-- An object is added again after its deletion, and another one before. -/
def readded : FifoMachine Nat Unit :=
  [.call (.add 11), .resume 0, .call (.add 21), .resume 1, .call (.delete 11), .resume 2,
    .call (.add 12), .resume 3, .call .pop, .resume 4].foldl (fun m act => m.exec tensKey act)
    .initial

/-- The only object of the first batch is deleted. -/
def emptied : FifoMachine Nat Unit :=
  [.call (.replace [11] []), .resume 0, .call (.delete 11), .resume 1].foldl
    (fun m act => m.exec tensKey act) .initial

end Webernetes.ClientGo
