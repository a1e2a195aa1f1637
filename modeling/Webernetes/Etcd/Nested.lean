/-
Webernetes.Etcd.Nested — handlers that write.

`publish` hands the records of a request to one watcher after the other,
and a watcher hands them to its handlers: the response first, then its
events one by one. A handler may write, and its write publishes to every
watcher before the call returns. The state of a `Machine` is therefore
the store, what every watcher has handed to its handlers, and the call
stack with what is still to be delivered on it, down to the replay loop
of a microtask, which runs over the live event history by index.

The step lemma is that advancing the stack does not change what a watcher
has received followed by what is pending for it (`advance_total`). So a
watcher receives everything in order as long as no handler publishes to a
watcher that has something pending (`Idle`, `nested_in_order`).
-/
import Webernetes.Etcd.Watch
import Mathlib.Data.List.Nodup

namespace Webernetes.Etcd

open Js Base

variable {locale : Locale}

/-! ## Deliveries -/

/-- What a handler is called with: a response, or one event. -/
inductive Content where
  | data (response : WatchResponse)
  | event (event : WatchEvent)
  deriving DecidableEq

/-- A call of a watcher's handlers. The response of a request is at index
0 of its revision, its events follow. -/
structure Delivery where
  revision : Nat
  index : Nat
  content : Content
  deriving DecidableEq

/-- Earlier in revision, or in the same response earlier. -/
def Delivery.Before (a b : Delivery) : Prop :=
  a.revision < b.revision ∨ a.revision = b.revision ∧ a.index < b.index

instance (a b : Delivery) : Decidable (a.Before b) :=
  inferInstanceAs (Decidable (_ ∨ _))

/-- The response of a delivery. -/
def Delivery.response (d : Delivery) : Option WatchResponse :=
  match d.content with
  | .data response => some response
  | .event _ => none

/-- The calls `handleMany` makes, in order. -/
def Watcher.deliveries (w : Watcher) (records : List RevisionEvent) : List Delivery :=
  if !w.connected || w.ended then []
  else
    match (w.matchedRecords records).getLast? with
    | none => []
    | some last =>
      ⟨last.revision, 0, .data (w.dataResponse last.revision
        ((w.matchedRecords records).map fun record => w.shownEvent record.event))⟩
        :: (w.matchedRecords records).mapIdx fun i record =>
          ⟨record.revision, i + 1, .event (w.shownEvent record.event)⟩

/-- A call is at the revision of a record it is for. -/
theorem Watcher.deliveries_revision {w : Watcher} {records : List RevisionEvent} {d : Delivery}
    (h : d ∈ w.deliveries records) : ∃ record ∈ records, d.revision = record.revision := by
  unfold deliveries at h
  split at h
  · cases h
  · split at h
    · cases h
    · rename_i last hlast
      rcases List.mem_cons.mp h with rfl | h
      · exact ⟨last, (List.mem_filter.mp (List.mem_of_getLast? hlast)).1, rfl⟩
      · obtain ⟨i, hi, rfl⟩ := List.mem_mapIdx.mp h
        exact ⟨_, (List.mem_filter.mp (List.getElem_mem hi)).1, rfl⟩

/-- The calls for records of one revision are in order. -/
theorem Watcher.deliveries_pairwise (w : Watcher) {records : List RevisionEvent} {revision : Nat}
    (h : ∀ r ∈ records, r.revision = revision) :
    (w.deliveries records).Pairwise Delivery.Before := by
  have hmatched : ∀ r ∈ w.matchedRecords records, r.revision = revision :=
    fun r hr => h r (List.mem_filter.mp hr).1
  unfold deliveries
  split
  · exact List.Pairwise.nil
  · split
    · exact List.Pairwise.nil
    · rename_i last hlast
      have hrev : last.revision = revision := hmatched last (List.mem_of_getLast? hlast)
      refine List.pairwise_cons.mpr ⟨fun d hd => ?_, ?_⟩
      · obtain ⟨i, hi, rfl⟩ := List.mem_mapIdx.mp hd
        refine .inr ⟨?_, Nat.succ_pos i⟩
        exact hrev.trans (hmatched _ (List.getElem_mem hi)).symm
      · rw [List.pairwise_iff_getElem]
        intro i j hi hj hij
        simp only [List.getElem_mapIdx]
        refine .inr ⟨?_, Nat.succ_lt_succ hij⟩
        exact (hmatched _ (List.getElem_mem _)).trans (hmatched _ (List.getElem_mem _)).symm

@[simp] theorem Watcher.deliveries_nil (w : Watcher) : w.deliveries [] = [] := by
  simp [deliveries, matchedRecords]

/-! ## The machine -/

/-- A watcher and the calls its handlers got. -/
structure Subscriber where
  watcher : Watcher
  trace : List Delivery

/-- A call in progress: `publish` with the watchers it has not come to,
`handleMany` with the calls it has not made, or a handler. -/
inductive Frame where
  | publish (records : List RevisionEvent) (rest : List Nat)
  | emit (watchId : Nat) (rest : List Delivery)
  | handler (watchId : Nat)

/-- The store, its watchers, the call stack from the innermost call out,
and the replay loop below it: its watcher and its index. -/
structure Machine (locale : Locale) where
  store : FakeState locale
  subscribers : List Subscriber
  nextWatchId : Nat
  stack : List Frame
  replay : Option (Nat × Nat)

inductive Act where
  | request (request : StoreRequest)
  | watch (ns : JsString) (options : WatchOptions)
  | connect (watchId : Nat)
  | advance
  | write (request : WriteRequest)
  | handlerReturns

namespace Machine

def initial (locale : Locale) (retainedRevisions : Nat) : Machine locale where
  store := FakeState.initial locale retainedRevisions
  subscribers := []
  nextWatchId := 0
  stack := []
  replay := none

/-- No call is in progress. -/
def atRest (m : Machine locale) : Bool := m.stack.isEmpty && m.replay.isNone

def watchIds (m : Machine locale) : List Nat := m.subscribers.map (·.watcher.watchId)

/-- The calls a watcher makes for records. -/
def deliveriesTo (m : Machine locale) (watchId : Nat) (records : List RevisionEvent) :
    List Delivery :=
  ((m.subscribers.find? fun sub => sub.watcher.watchId = watchId).map fun sub =>
    sub.watcher.deliveries records).getD []

/-- A write, from the outside or from a handler: the store changes, and
the call of `publish` is on the stack. -/
def perform (m : Machine locale) (request : WriteRequest) : Machine locale :=
  { m with
    store := (m.store.execWrite request).state
    stack := (m.store.execWrite request).published.map (fun batch => .publish batch m.watchIds)
      ++ m.stack }

def record (m : Machine locale) (watchId : Nat) (d : Delivery) : List Subscriber :=
  m.subscribers.map fun sub =>
    if sub.watcher.watchId = watchId then { sub with trace := sub.trace ++ [d] } else sub

/-- The machine with one more watcher, not connected yet. -/
def addWatcher (m : Machine locale) (ns : JsString) (options : WatchOptions) : Machine locale :=
  { m with
    subscribers := m.subscribers ++ [⟨{ watchId := m.nextWatchId, ns, options }, []⟩]
    nextWatchId := m.nextWatchId + 1 }

/-- The machine with a watcher changed and a replay loop started. -/
def setWatcher (m : Machine locale) (watchId : Nat) (f : Watcher → Watcher)
    (replay : Option (Nat × Nat)) : Machine locale :=
  { m with
    subscribers := m.subscribers.map fun sub =>
      if sub.watcher.watchId = watchId then { sub with watcher := f sub.watcher } else sub
    replay := replay }

/-- The microtask of `watch`, up to its replay loop. -/
def connectSubscriber (m : Machine locale) (watchId : Nat) : Machine locale :=
  match m.subscribers.find? fun sub => sub.watcher.watchId = watchId ∧ sub.watcher.connecting with
  | none => m
  | some sub =>
    match sub.watcher.options.start with
    | none => m.setWatcher watchId (fun w => w.connect 0) none
    | some start =>
      match m.store.compactedRevisionForRange start with
      | some compactRevision =>
        m.setWatcher watchId (fun w => { w.connect 0 with compacted := some compactRevision }) none
      | none =>
        m.setWatcher watchId (fun w => w.connect 0)
          (some (watchId, lowerBound compare m.store.history.items start))

/-- One move of the innermost call, a handler apart. -/
def advance (m : Machine locale) : Option (Machine locale) :=
  match m.stack with
  | .publish records (watchId :: rest) :: stack =>
    some { m with
      stack := .emit watchId (m.deliveriesTo watchId records) :: .publish records rest :: stack }
  | .publish _ [] :: stack => some { m with stack := stack }
  | .emit watchId (d :: rest) :: stack =>
    some { m with
      subscribers := m.record watchId d
      stack := .handler watchId :: .emit watchId rest :: stack }
  | .emit _ [] :: stack => some { m with stack := stack }
  | .handler _ :: _ => none
  | [] =>
    match m.replay with
    | none => none
    | some (watchId, index) =>
      match m.store.history.items[index]? with
      | none => some { m with replay := none }
      | some (_, records) =>
        some { m with
          stack := [.emit watchId (m.deliveriesTo watchId records)]
          replay := some (watchId, index + 1) }

def step (m : Machine locale) : Act → Option (Machine locale)
  | .request (.write request) => if m.atRest then some (m.perform request) else none
  | .request (.compact revision) =>
    if m.atRest then some { m with store := (m.store.compact revision).state } else none
  | .watch ns options =>
    if m.atRest ∧ FakeState.RangeValid options.key options.rangeEnd then
      some (m.addWatcher ns options)
    else none
  | .connect watchId => if m.atRest then some (m.connectSubscriber watchId) else none
  | .advance => m.advance
  | .write request =>
    match m.stack with
    | .handler _ :: _ => some (m.perform request)
    | _ => none
  | .handlerReturns =>
    match m.stack with
    | .handler _ :: stack => some { m with stack := stack }
    | _ => none

end Machine

/-- The runs of a store whose handlers may write. -/
def nesting (locale : Locale) : System (Machine locale) Act where
  init m := ∃ retainedRevisions, m = Machine.initial locale retainedRevisions
  step m act m' := m.step act = some m'

/-! ## What is pending -/

/-- What a frame has still to deliver to a watcher. -/
def Frame.pending (w : Watcher) : Frame → List Delivery
  | .publish records rest => if w.watchId ∈ rest then w.deliveries records else []
  | .emit watchId rest => if watchId = w.watchId then rest else []
  | .handler _ => []

namespace Machine

/-- What the replay loop has still to deliver to a watcher. -/
def pendingReplay (m : Machine locale) (w : Watcher) : List Delivery :=
  match m.replay with
  | none => []
  | some (watchId, index) =>
    if watchId = w.watchId then
      (m.store.history.items.drop index).flatMap fun e => w.deliveries e.2
    else []

def pending (m : Machine locale) (w : Watcher) : List Delivery :=
  m.stack.flatMap (Frame.pending w) ++ m.pendingReplay w

/-- The watcher has nothing left to receive from a call in progress, and
no replay. -/
def Quiescent (m : Machine locale) (w : Watcher) : Prop :=
  m.stack.flatMap (Frame.pending w) = [] ∧ ∀ replay ∈ m.replay, replay.1 ≠ w.watchId

/-- What a handler writes is published to no watcher that has something
left to receive. -/
def Idle (m : Machine locale) : Act → Prop
  | .write request => ∀ batch ∈ (m.store.execWrite request).published, ∀ sub ∈ m.subscribers,
      sub.watcher.deliveries batch ≠ [] → m.Quiescent sub.watcher
  | _ => True

/-- What a watcher has received, followed by what is pending for it. -/
def total (m : Machine locale) (sub : Subscriber) : List Delivery :=
  sub.trace ++ m.pending sub.watcher

/-- What holds of a machine in every run. -/
structure Inv (m : Machine locale) : Prop where
  bounded : ∀ e ∈ m.store.history.items, e.1 ≤ m.store.revision
  uniform : ∀ e ∈ m.store.history.items, ∀ r ∈ e.2, r.revision = e.1
  ids : m.watchIds.Nodup
  fresh : ∀ watchId ∈ m.watchIds, watchId < m.nextWatchId
  visits : ∀ records rest, Frame.publish records rest ∈ m.stack → rest.Nodup
  index : ∀ replay ∈ m.replay, replay.2 ≤ m.store.history.items.length
  waiting : ∀ sub ∈ m.subscribers, sub.watcher.connecting = true →
    sub.watcher.connected = false ∧ m.total sub = []
  ordered : ∀ sub ∈ m.subscribers, (m.total sub).Pairwise Delivery.Before
  reached : ∀ sub ∈ m.subscribers, ∀ d ∈ m.total sub, d.revision ≤ m.store.revision

/-! ## Moves of the stack -/

/-- Watchers are told apart by their ids. -/
theorem eq_of_watchId {m : Machine locale} (hids : m.watchIds.Nodup) {sub sub' : Subscriber}
    (hsub : sub ∈ m.subscribers) (hsub' : sub' ∈ m.subscribers)
    (h : sub.watcher.watchId = sub'.watcher.watchId) : sub = sub' :=
  List.inj_on_of_nodup_map hids hsub hsub' h

theorem deliveriesTo_of_mem {m : Machine locale} (hids : m.watchIds.Nodup) {sub : Subscriber}
    (hsub : sub ∈ m.subscribers) (records : List RevisionEvent) :
    m.deliveriesTo sub.watcher.watchId records = sub.watcher.deliveries records := by
  unfold deliveriesTo
  cases hfind : m.subscribers.find? fun s => s.watcher.watchId = sub.watcher.watchId with
  | none => exact absurd (decide_eq_true rfl) (List.find?_eq_none.mp hfind sub hsub)
  | some found =>
    have hid := List.find?_some hfind
    have heq := eq_of_watchId hids (List.mem_of_find?_eq_some hfind) hsub (by simpa using hid)
    rw [heq]
    rfl

/-- The move leaves the store and the watchers, and what each has received
followed by what is pending for it. -/
structure Same (m m' : Machine locale) : Prop where
  store : m'.store = m.store
  watchIds : m'.watchIds = m.watchIds
  nextWatchId : m'.nextWatchId = m.nextWatchId
  visits : ∀ records rest, Frame.publish records rest ∈ m'.stack → rest.Nodup
  index : ∀ replay ∈ m'.replay, replay.2 ≤ m.store.history.items.length
  total : ∀ sub' ∈ m'.subscribers, ∃ sub ∈ m.subscribers, sub'.watcher = sub.watcher
    ∧ m'.total sub' = m.total sub

theorem Inv.of_same {m m' : Machine locale} (h : m.Inv) (hsame : Same m m') : m'.Inv := by
  obtain ⟨hstore, hids, hnext, hvisits, hindex, htotal⟩ := hsame
  constructor
  · rw [hstore]; exact h.bounded
  · rw [hstore]; exact h.uniform
  · rw [hids]; exact h.ids
  · rw [hids, hnext]; exact h.fresh
  · exact hvisits
  · rw [hstore]; exact hindex
  · intro sub' hsub' hconnecting
    obtain ⟨sub, hsub, hwatcher, heq⟩ := htotal sub' hsub'
    rw [hwatcher, heq]
    exact h.waiting sub hsub (hwatcher ▸ hconnecting)
  · intro sub' hsub'
    obtain ⟨sub, hsub, -, heq⟩ := htotal sub' hsub'
    exact heq ▸ h.ordered sub hsub
  · intro sub' hsub'
    obtain ⟨sub, hsub, -, heq⟩ := htotal sub' hsub'
    rw [heq, hstore]
    exact h.reached sub hsub

/-- A move that leaves the watchers as they are. -/
theorem same_of_pending {m m' : Machine locale} (hstore : m'.store = m.store)
    (hsubs : m'.subscribers = m.subscribers) (hnext : m'.nextWatchId = m.nextWatchId)
    (hvisits : ∀ records rest, Frame.publish records rest ∈ m'.stack → rest.Nodup)
    (hindex : ∀ replay ∈ m'.replay, replay.2 ≤ m.store.history.items.length)
    (hpending : ∀ sub ∈ m.subscribers, m'.pending sub.watcher = m.pending sub.watcher) :
    Same m m' where
  store := hstore
  watchIds := by rw [watchIds, hsubs, watchIds]
  nextWatchId := hnext
  visits := hvisits
  index := hindex
  total sub' hsub' := by
    rw [hsubs] at hsub'
    exact ⟨sub', hsub', rfl, by rw [total, total, hpending sub' hsub']⟩

/-- A frame with nothing to deliver is left. -/
theorem Inv.same_pop {m : Machine locale} (h : m.Inv) {frame : Frame} {stack : List Frame}
    (hstack : m.stack = frame :: stack) (hframe : ∀ w, frame.pending w = []) :
    Same m { m with stack := stack } := by
  refine same_of_pending rfl rfl rfl ?_ h.index ?_
  · exact fun records rest hmem =>
      h.visits records rest (by rw [hstack]; exact List.mem_cons_of_mem _ hmem)
  · intro sub _
    simp [pending, pendingReplay, hstack, hframe]

theorem watchIds_record (m : Machine locale) (watchId : Nat) (d : Delivery) :
    (m.record watchId d).map (·.watcher.watchId) = m.watchIds := by
  unfold record watchIds
  rw [List.map_map]
  refine List.map_congr_left fun sub _ => ?_
  simp only [Function.comp]
  split <;> rfl

/-- **Advancing the stack.** -/
theorem advance_same {m m' : Machine locale} (h : m.Inv) (hstep : m.advance = some m') :
    Same m m' := by
  unfold advance at hstep
  split at hstep
  · -- `publish` comes to the next watcher
    rename_i records watchId rest stack hstack
    cases hstep
    have hvisit := h.visits records (watchId :: rest) (by rw [hstack]; exact List.mem_cons_self)
    refine same_of_pending rfl rfl rfl ?_ h.index ?_
    · intro records' rest' hmem
      rcases List.mem_cons.mp hmem with hmem | hmem
      · cases hmem
      · rcases List.mem_cons.mp hmem with hmem | hmem
        · cases hmem
          exact (List.nodup_cons.mp hvisit).2
        · exact h.visits records' rest' (by rw [hstack]; exact List.mem_cons_of_mem _ hmem)
    · intro sub hsub
      have hnot := (List.nodup_cons.mp hvisit).1
      simp only [pending, pendingReplay, hstack, List.flatMap_cons, Frame.pending]
      by_cases hid : watchId = sub.watcher.watchId
      · subst hid
        rw [if_pos rfl, if_neg hnot, if_pos List.mem_cons_self, deliveriesTo_of_mem h.ids hsub]
        simp
      · have hmem : sub.watcher.watchId ∈ watchId :: rest ↔ sub.watcher.watchId ∈ rest := by
          rw [List.mem_cons]
          exact or_iff_right fun heq => hid heq.symm
        simp [hid, hmem]
  · -- `publish` returns
    rename_i records stack hstack
    cases hstep
    exact h.same_pop hstack fun _ => by simp [Frame.pending]
  · -- a handler is called
    rename_i watchId d rest stack hstack
    cases hstep
    refine ⟨rfl, watchIds_record m watchId d, rfl, ?_, h.index, ?_⟩
    · intro records' rest' hmem
      rcases List.mem_cons.mp hmem with hmem | hmem
      · cases hmem
      · rcases List.mem_cons.mp hmem with hmem | hmem
        · cases hmem
        · exact h.visits records' rest' (by rw [hstack]; exact List.mem_cons_of_mem _ hmem)
    · intro sub' hsub'
      obtain ⟨sub, hsub, rfl⟩ := List.mem_map.mp hsub'
      refine ⟨sub, hsub, by split <;> rfl, ?_⟩
      by_cases hid : sub.watcher.watchId = watchId
      · subst hid
        simp [total, pending, pendingReplay, hstack, Frame.pending]
      · have hid' : ¬ watchId = sub.watcher.watchId := fun heq => hid heq.symm
        simp [total, pending, pendingReplay, hstack, Frame.pending, hid, hid']
  · -- `handleMany` returns
    rename_i watchId stack hstack
    cases hstep
    exact h.same_pop hstack fun _ => by simp [Frame.pending]
  · cases hstep
  · rename_i hstack
    split at hstep
    · cases hstep
    · rename_i watchId index hreplay
      split at hstep
      · -- the replay loop ends
        rename_i hget
        cases hstep
        refine same_of_pending rfl rfl rfl (by simp [hstack]) (by simp) ?_
        intro sub _
        have hdone : m.store.history.items.drop index = [] :=
          List.drop_eq_nil_of_le (List.getElem?_eq_none_iff.mp hget)
        simp [pending, pendingReplay, hstack, hreplay, hdone]
      · -- the replay loop comes to the next entry
        rename_i revision records hget
        cases hstep
        obtain ⟨hlt, hitem⟩ := List.getElem?_eq_some_iff.mp hget
        have hdrop : m.store.history.items.drop index
            = (revision, records) :: m.store.history.items.drop (index + 1) := by
          rw [List.drop_eq_getElem_cons hlt, hitem]
        refine same_of_pending rfl rfl rfl (by simp) ?_ ?_
        · intro replay hmem
          obtain rfl : (watchId, index + 1) = replay := by simpa using hmem
          exact hlt
        · intro sub hsub
          by_cases hid : watchId = sub.watcher.watchId
          · subst hid
            simp [pending, pendingReplay, hstack, hreplay, hdrop, Frame.pending,
              deliveriesTo_of_mem h.ids hsub]
          · simp [pending, pendingReplay, hstack, hreplay, Frame.pending, hid]

/-- A handler returns. -/
theorem return_same {m : Machine locale} (h : m.Inv) {watchId : Nat} {stack : List Frame}
    (hstack : m.stack = .handler watchId :: stack) : Same m { m with stack := stack } :=
  h.same_pop hstack fun _ => rfl

/-! ## Writes -/

/-- What a write adds for a watcher: at most the calls for its records, on
top of the stack when they are published, at the end of the replay loop
when they are not. -/
theorem perform_pending {m : Machine locale} (h : m.Inv) (request : WriteRequest)
    {sub : Subscriber} (hsub : sub ∈ m.subscribers)
    (hidle : ∀ batch ∈ (m.store.execWrite request).published,
      sub.watcher.deliveries batch ≠ [] → m.Quiescent sub.watcher) :
    ∃ added, (added = [] ∨ added = sub.watcher.deliveries (m.store.execWrite request).records)
      ∧ (m.perform request).pending sub.watcher = m.pending sub.watcher ++ added := by
  have hid : sub.watcher.watchId ∈ m.watchIds := List.mem_map_of_mem hsub
  have hreplay : (m.perform request).pendingReplay sub.watcher = m.pendingReplay sub.watcher
      ∨ ((∃ replay ∈ m.replay, replay.1 = sub.watcher.watchId) ∧
        (m.perform request).pendingReplay sub.watcher = m.pendingReplay sub.watcher
          ++ sub.watcher.deliveries (m.store.execWrite request).records) := by
    unfold pendingReplay
    simp only [perform]
    cases hr : m.replay with
    | none => exact .inl rfl
    | some replay =>
      obtain ⟨watchId, index⟩ := replay
      by_cases hwatch : watchId = sub.watcher.watchId
      · refine .inr ⟨⟨_, rfl, hwatch⟩, ?_⟩
        have hindex := h.index (watchId, index) (by simp [hr])
        simp only [if_pos hwatch]
        rw [execWrite_history h.bounded, List.drop_append_of_le_length hindex, List.flatMap_append]
        congr 1
        cases hrecords : (m.store.execWrite request).records with
        | nil => simp [entryOf]
        | cons record records => simp [entryOf]
      · exact .inl (by simp [hwatch])
  have hstack : (m.perform request).stack.flatMap (Frame.pending sub.watcher)
      = (m.store.execWrite request).published.flatMap sub.watcher.deliveries
        ++ m.stack.flatMap (Frame.pending sub.watcher) := by
    simp only [perform, List.flatMap_append, List.flatMap_map, Frame.pending, if_pos hid]
  rcases m.store.published_cases request with hpublished | hpublished
  · rw [hpublished, List.flatMap_nil, List.nil_append] at hstack
    rcases hreplay with hreplay | ⟨-, hreplay⟩
    · exact ⟨[], .inl rfl, by rw [pending, pending, hstack, hreplay, List.append_nil]⟩
    · exact ⟨_, .inr rfl, by rw [pending, pending, hstack, hreplay, List.append_assoc]⟩
  · rw [hpublished, List.flatMap_singleton] at hstack
    by_cases hnone : sub.watcher.deliveries (m.store.execWrite request).records = []
    · refine ⟨[], .inl rfl, ?_⟩
      have hreplay : (m.perform request).pendingReplay sub.watcher
          = m.pendingReplay sub.watcher := by
        rcases hreplay with hreplay | ⟨-, hreplay⟩
        · exact hreplay
        · rw [hreplay, hnone, List.append_nil]
      rw [pending, pending, hstack, hreplay, hnone, List.nil_append, List.append_nil]
    · obtain ⟨hquiet, hnoreplay⟩ := hidle _ (by rw [hpublished]; exact List.mem_cons_self) hnone
      have hsame : (m.perform request).pendingReplay sub.watcher
          = m.pendingReplay sub.watcher := by
        rcases hreplay with hreplay | ⟨⟨replay, hmem, hwatch⟩, -⟩
        · exact hreplay
        · exact absurd hwatch (hnoreplay replay hmem)
      have hempty : m.pendingReplay sub.watcher = [] := by
        unfold pendingReplay
        cases hr : m.replay with
        | none => rfl
        | some replay => simp [hnoreplay replay (by simp [hr])]
      exact ⟨_, .inr rfl, by rw [pending, pending, hstack, hsame, hempty, hquiet]; simp⟩

theorem perform_inv {m : Machine locale} (h : m.Inv) {request : WriteRequest}
    (hidle : ∀ batch ∈ (m.store.execWrite request).published, ∀ sub ∈ m.subscribers,
      sub.watcher.deliveries batch ≠ [] → m.Quiescent sub.watcher) : (m.perform request).Inv := by
  have hle := execWrite_revision_le m.store request
  have htotal : ∀ sub ∈ m.subscribers, ∃ added,
      (added = [] ∨ added = sub.watcher.deliveries (m.store.execWrite request).records)
        ∧ (m.perform request).total sub = m.total sub ++ added := by
    intro sub hsub
    obtain ⟨added, hadded, hpending⟩ :=
      perform_pending h request hsub fun batch hbatch => hidle batch hbatch sub hsub
    exact ⟨added, hadded, by rw [total, total, hpending, List.append_assoc]⟩
  obtain ⟨base, -, -, hrevision⟩ := m.store.execWrite_effect request
  constructor
  · exact execWrite_history_le h.bounded request
  · intro e he
    simp only [perform] at he
    rw [execWrite_history h.bounded, List.mem_append] at he
    rcases he with he | he
    · exact h.uniform e he
    · obtain ⟨record, hrecord, rfl⟩ := Option.map_eq_some_iff.mp (Option.mem_toList.mp he)
      exact fun r hr => (hrevision r hr).trans (hrevision record (List.mem_of_head? hrecord)).symm
  · exact h.ids
  · exact h.fresh
  · intro records rest hmem
    rcases List.mem_append.mp hmem with hmem | hmem
    · obtain ⟨batch, -, hframe⟩ := List.mem_map.mp hmem
      cases hframe
      exact h.ids
    · exact h.visits records rest hmem
  · intro replay hreplay
    have hindex := h.index replay hreplay
    simp only [perform]
    rw [execWrite_history h.bounded, List.length_append]
    omega
  · intro sub hsub hconnecting
    obtain ⟨hconnected, hnone⟩ := h.waiting sub hsub hconnecting
    refine ⟨hconnected, ?_⟩
    obtain ⟨added, hadded, heq⟩ := htotal sub hsub
    have hnothing : sub.watcher.deliveries (m.store.execWrite request).records = [] := by
      simp [Watcher.deliveries, hconnected]
    rw [hnothing, or_self] at hadded
    rw [heq, hnone, hadded, List.append_nil]
  · intro sub hsub
    obtain ⟨added, hadded, heq⟩ := htotal sub hsub
    rw [heq]
    rcases hadded with rfl | rfl
    · rw [List.append_nil]; exact h.ordered sub hsub
    · refine List.pairwise_append.mpr ⟨h.ordered sub hsub,
        sub.watcher.deliveries_pairwise hrevision, fun a ha b hb => .inl ?_⟩
      have hold := h.reached sub hsub a ha
      obtain ⟨record, hrecord, hb⟩ := Watcher.deliveries_revision hb
      have hnew := (execWrite_records_revision hrecord).1
      omega
  · intro sub hsub d hd
    obtain ⟨added, hadded, heq⟩ := htotal sub hsub
    rw [heq, List.mem_append] at hd
    rcases hd with hd | hd
    · exact Nat.le_trans (h.reached sub hsub d hd) hle
    · rcases hadded with rfl | rfl
      · cases hd
      · obtain ⟨record, hrecord, hd⟩ := Watcher.deliveries_revision hd
        exact hd ▸ (execWrite_records_revision hrecord).2

/-! ## Steps from rest -/

theorem atRest_iff {m : Machine locale} : m.atRest = true ↔ m.stack = [] ∧ m.replay = none := by
  simp [atRest]

/-- At rest nothing is pending. -/
theorem total_atRest {m : Machine locale} (h : m.atRest = true) (sub : Subscriber) :
    m.total sub = sub.trace := by
  obtain ⟨hstack, hreplay⟩ := atRest_iff.mp h
  simp [total, pending, pendingReplay, hstack, hreplay]

theorem quiescent_atRest {m : Machine locale} (h : m.atRest = true) (w : Watcher) :
    m.Quiescent w := by
  obtain ⟨hstack, hreplay⟩ := atRest_iff.mp h
  exact ⟨by simp [hstack], by simp [hreplay]⟩

theorem compact_inv {m : Machine locale} (h : m.Inv) (hrest : m.atRest = true) (requested : Int) :
    Inv { m with store := (m.store.compact requested).state } := by
  have hsub : (m.store.compact requested).state.history.items.Sublist m.store.history.items := by
    rcases m.store.compact_effect requested with hstate | ⟨revision, -, -, hstate⟩
    · rw [hstate]
    · rw [hstate]
      exact (FakeState.compactLoop_spec revision _ 0 m.store.history).1
  have hrevision := m.store.compact_revision requested
  have htotal : ∀ sub, total { m with store := (m.store.compact requested).state } sub
      = m.total sub := fun sub =>
    (total_atRest (m := { m with store := (m.store.compact requested).state }) hrest sub).trans
      (total_atRest hrest sub).symm
  constructor
  · exact fun e he => hrevision.symm ▸ h.bounded e (hsub.mem he)
  · exact fun e he => h.uniform e (hsub.mem he)
  · exact h.ids
  · exact h.fresh
  · exact h.visits
  · intro replay hmem
    simp [(atRest_iff.mp hrest).2] at hmem
  · intro sub hsub' hconnecting
    rw [htotal]
    exact h.waiting sub hsub' hconnecting
  · exact fun sub hsub' => htotal sub ▸ h.ordered sub hsub'
  · intro sub hsub' d hd
    rw [htotal] at hd
    exact hrevision.symm ▸ h.reached sub hsub' d hd

theorem addWatcher_inv {m : Machine locale} (h : m.Inv) (hrest : m.atRest = true) (ns : JsString)
    (options : WatchOptions) : (m.addWatcher ns options).Inv := by
  have hnew : ∀ sub ∈ (m.addWatcher ns options).subscribers,
      sub ∈ m.subscribers ∨ (sub.trace = [] ∧ sub.watcher.connected = false) := by
    intro sub hsub
    rcases List.mem_append.mp hsub with hsub | hsub
    · exact .inl hsub
    · rw [List.mem_singleton.mp hsub]
      exact .inr ⟨rfl, rfl⟩
  have hids : (m.addWatcher ns options).watchIds = m.watchIds ++ [m.nextWatchId] := by
    simp [watchIds, addWatcher]
  have htotal : ∀ sub, (m.addWatcher ns options).total sub = m.total sub := fun sub =>
    (total_atRest (m := m.addWatcher ns options) hrest sub).trans (total_atRest hrest sub).symm
  refine { h with ids := ?_, fresh := ?_, waiting := ?_, ordered := ?_, reached := ?_ }
  · rw [hids]
    refine List.nodup_append.mpr ⟨h.ids, List.nodup_singleton _, fun a ha b hb => ?_⟩
    rw [List.mem_singleton.mp hb]
    exact Nat.ne_of_lt (h.fresh a ha)
  · intro watchId hmem
    rw [hids, List.mem_append] at hmem
    rcases hmem with hmem | hmem
    · exact Nat.lt_succ_of_lt (h.fresh watchId hmem)
    · rw [List.mem_singleton.mp hmem]
      exact Nat.lt_succ_self _
  · intro sub hsub hconnecting
    rcases hnew sub hsub with hold | ⟨htrace, hconnected⟩
    · exact htotal sub ▸ h.waiting sub hold hconnecting
    · exact ⟨hconnected, by rw [htotal, total_atRest hrest, htrace]⟩
  · intro sub hsub
    rcases hnew sub hsub with hold | ⟨htrace, -⟩
    · exact htotal sub ▸ h.ordered sub hold
    · rw [htotal, total_atRest hrest, htrace]
      exact List.Pairwise.nil
  · intro sub hsub d hd
    rcases hnew sub hsub with hold | ⟨htrace, -⟩
    · exact h.reached sub hold d (htotal sub ▸ hd)
    · rw [htotal, total_atRest hrest, htrace] at hd
      cases hd

/-- The calls of a replay from some index on are in order. -/
theorem replay_pairwise {m : Machine locale} (h : m.Inv) (w : Watcher) (index : Nat) :
    ((m.store.history.items.drop index).flatMap fun e => w.deliveries e.2).Pairwise
      Delivery.Before := by
  have hsub : (m.store.history.items.drop index).Sublist m.store.history.items :=
    List.drop_sublist _ _
  refine List.pairwise_flatMap.mpr ⟨fun e he => ?_, ?_⟩
  · exact w.deliveries_pairwise (h.uniform e (hsub.mem he))
  · refine (m.store.history.ascending.sublist hsub).imp_of_mem fun {a b} ha hb hab x hx y hy => ?_
    obtain ⟨r, hr, hx⟩ := Watcher.deliveries_revision hx
    obtain ⟨r', hr', hy⟩ := Watcher.deliveries_revision hy
    refine .inl ?_
    rw [hx, hy, h.uniform a (hsub.mem ha) r hr, h.uniform b (hsub.mem hb) r' hr']
    exact Nat.compare_eq_lt.mp hab

theorem replay_reached {m : Machine locale} (h : m.Inv) (w : Watcher) (index : Nat) :
    ∀ d ∈ (m.store.history.items.drop index).flatMap fun e => w.deliveries e.2,
      d.revision ≤ m.store.revision := by
  intro d hd
  obtain ⟨e, he, hd⟩ := List.mem_flatMap.mp hd
  obtain ⟨r, hr, hd⟩ := Watcher.deliveries_revision hd
  have hmem := List.drop_subset _ _ he
  rw [hd, h.uniform e hmem r hr]
  exact h.bounded e hmem

/-- After the change of a watcher the others are as they were, and the
watcher itself has received nothing. -/
theorem mem_setWatcher {m : Machine locale} (h : m.Inv) (hrest : m.atRest = true)
    (f : Watcher → Watcher) {sub : Subscriber} (hsub : sub ∈ m.subscribers)
    (hconnecting : sub.watcher.connecting = true) (replay : Option (Nat × Nat)) :
    ∀ sub' ∈ (m.setWatcher sub.watcher.watchId f replay).subscribers,
      (sub' ∈ m.subscribers ∧ sub'.watcher.watchId ≠ sub.watcher.watchId) ∨
      sub' = ⟨f sub.watcher, []⟩ := by
  have htrace : sub.trace = [] := by
    rw [← total_atRest hrest]
    exact (h.waiting sub hsub hconnecting).2
  intro sub' hsub'
  obtain ⟨s, hs, rfl⟩ := List.mem_map.mp hsub'
  by_cases hw : s.watcher.watchId = sub.watcher.watchId
  · rw [if_pos hw, eq_of_watchId h.ids hs hsub hw, htrace]
    exact .inr rfl
  · rw [if_neg hw]
    exact .inl ⟨hs, hw⟩

/-- The microtask: the watcher that connects has at most its replay
pending. -/
theorem setWatcher_inv {m : Machine locale} (h : m.Inv) (hrest : m.atRest = true)
    {f : Watcher → Watcher} (hid : ∀ w, (f w).watchId = w.watchId)
    (hf : ∀ w, (f w).connecting = false) {sub : Subscriber} (hsub : sub ∈ m.subscribers)
    (hconnecting : sub.watcher.connecting = true) {replay : Option (Nat × Nat)}
    (hreplay : ∀ r ∈ replay, r.1 = sub.watcher.watchId ∧ r.2 ≤ m.store.history.items.length) :
    (m.setWatcher sub.watcher.watchId f replay).Inv := by
  obtain ⟨hstack, -⟩ := atRest_iff.mp hrest
  have hmem := mem_setWatcher h hrest f hsub hconnecting replay
  have hids : (m.setWatcher sub.watcher.watchId f replay).watchIds = m.watchIds := by
    rw [watchIds, setWatcher, List.map_map]
    refine List.map_congr_left fun s _ => ?_
    simp only [Function.comp]
    split
    · exact hid _
    · rfl
  have hother : ∀ sub' : Subscriber, sub'.watcher.watchId ≠ sub.watcher.watchId →
      (m.setWatcher sub.watcher.watchId f replay).total sub' = m.total sub' := by
    intro sub' hne
    have hno : ∀ r ∈ replay, r.1 ≠ sub'.watcher.watchId := fun r hr heq =>
      hne (heq.symm.trans (hreplay r hr).1)
    rw [total_atRest hrest]
    cases hr : replay with
    | none => simp [total, pending, pendingReplay, setWatcher, hstack]
    | some r =>
      simp [total, pending, pendingReplay, setWatcher, hstack, hno r (by simp [hr])]
  have hown : (m.setWatcher sub.watcher.watchId f replay).total ⟨f sub.watcher, []⟩ = []
      ∨ ∃ index, (m.setWatcher sub.watcher.watchId f replay).total ⟨f sub.watcher, []⟩
        = (m.store.history.items.drop index).flatMap fun e => (f sub.watcher).deliveries e.2 := by
    cases hr : replay with
    | none => exact .inl (by simp [total, pending, pendingReplay, setWatcher, hstack])
    | some r =>
      refine .inr ⟨r.2, ?_⟩
      have hr1 := (hreplay r (by simp [hr])).1
      simp [total, pending, pendingReplay, setWatcher, hstack, hr1, hid]
  refine { h with ids := ?_, fresh := ?_, index := ?_, waiting := ?_, ordered := ?_, reached := ?_ }
  · rw [hids]; exact h.ids
  · rw [hids]; exact h.fresh
  · exact fun r hr => (hreplay r hr).2
  · intro sub' hsub' hconn
    rcases hmem sub' hsub' with ⟨hold, hne⟩ | rfl
    · rw [hother sub' hne]
      exact h.waiting sub' hold hconn
    · rw [hf] at hconn
      cases hconn
  · intro sub' hsub'
    rcases hmem sub' hsub' with ⟨hold, hne⟩ | rfl
    · rw [hother sub' hne]
      exact h.ordered sub' hold
    · rcases hown with hnil | ⟨index, heq⟩
      · rw [hnil]; exact List.Pairwise.nil
      · rw [heq]; exact replay_pairwise h _ _
  · intro sub' hsub' d hd
    rcases hmem sub' hsub' with ⟨hold, hne⟩ | rfl
    · rw [hother sub' hne] at hd
      exact h.reached sub' hold d hd
    · rcases hown with hnil | ⟨index, heq⟩
      · rw [hnil] at hd; cases hd
      · rw [heq] at hd; exact replay_reached h _ _ d hd

theorem connectSubscriber_inv {m : Machine locale} (h : m.Inv) (hrest : m.atRest = true)
    (watchId : Nat) : (m.connectSubscriber watchId).Inv := by
  unfold connectSubscriber
  cases hfind : m.subscribers.find? fun sub =>
      sub.watcher.watchId = watchId ∧ sub.watcher.connecting with
  | none => exact h
  | some sub =>
    have hsub := List.mem_of_find?_eq_some hfind
    have hfound := List.find?_some hfind
    simp only [decide_eq_true_eq] at hfound
    obtain ⟨rfl, hconnecting⟩ := hfound
    dsimp only
    split
    · refine setWatcher_inv h hrest ?_ ?_ hsub hconnecting ?_
      · exact fun _ => rfl
      · exact fun _ => rfl
      · simp
    · split
      · refine setWatcher_inv h hrest ?_ ?_ hsub hconnecting ?_
        · exact fun _ => rfl
        · exact fun _ => rfl
        · simp
      · refine setWatcher_inv h hrest ?_ ?_ hsub hconnecting ?_
        · exact fun _ => rfl
        · exact fun _ => rfl
        · rintro _ ⟨rfl⟩
          refine ⟨rfl, ?_⟩
          rw [lowerBound_eq m.store.history.ascending]
          exact (List.takeWhile_prefix _).length_le

/-! ## Runs -/

theorem inv_initial (locale : Locale) (retainedRevisions : Nat) :
    (Machine.initial locale retainedRevisions).Inv where
  bounded := by simp [Machine.initial, FakeState.initial, SortedMap.empty]
  uniform := by simp [Machine.initial, FakeState.initial, SortedMap.empty]
  ids := List.nodup_nil
  fresh := by simp [watchIds, Machine.initial]
  visits := by simp [Machine.initial]
  index := by simp [Machine.initial]
  waiting := by simp [Machine.initial]
  ordered := by simp [Machine.initial]
  reached := by simp [Machine.initial]

theorem step_inv {m m' : Machine locale} (h : m.Inv) {act : Act} (hstep : m.step act = some m')
    (hidle : m.Idle act) : m'.Inv := by
  cases act with
  | request request =>
    cases request with
    | write request =>
      simp only [step, Option.ite_none_right_eq_some, Option.some.injEq] at hstep
      obtain ⟨hrest, rfl⟩ := hstep
      exact perform_inv h fun _ _ _ _ _ => quiescent_atRest hrest _
    | compact requested =>
      simp only [step, Option.ite_none_right_eq_some, Option.some.injEq] at hstep
      obtain ⟨hrest, rfl⟩ := hstep
      exact compact_inv h hrest requested
  | watch ns options =>
    simp only [step, Option.ite_none_right_eq_some, Option.some.injEq] at hstep
    obtain ⟨hrest, rfl⟩ := hstep
    exact addWatcher_inv h hrest.1 ns options
  | connect watchId =>
    simp only [step, Option.ite_none_right_eq_some, Option.some.injEq] at hstep
    obtain ⟨hrest, rfl⟩ := hstep
    exact connectSubscriber_inv h hrest watchId
  | advance => exact h.of_same (advance_same h hstep)
  | write request =>
    simp only [step] at hstep
    split at hstep
    · cases hstep
      exact perform_inv h hidle
    · cases hstep
  | handlerReturns =>
    simp only [step] at hstep
    split at hstep
    · rename_i hstack
      cases hstep
      exact h.of_same (return_same h hstack)
    · cases hstep

/-- **Deliveries come in order.** In every run whose handlers publish only
to watchers that have nothing left to receive, the handlers of each
watcher are called in strictly ascending order of revision and, within a
response, of its events; in particular never twice for one event. -/
theorem nested_in_order {m : Machine locale}
    (h : ((nesting locale).guarded Machine.Idle).Reach m) :
    ∀ sub ∈ m.subscribers, sub.trace.Pairwise Delivery.Before := by
  have hinv : m.Inv := by
    refine h.invariant (P := Inv) ?_ ?_
    · rintro _ ⟨retainedRevisions, rfl⟩
      exact inv_initial locale retainedRevisions
    · rintro m act m' - hinv ⟨hstep, hidle⟩
      exact step_inv hinv hstep hidle
  exact fun sub hsub => (List.pairwise_append.mp (hinv.ordered sub hsub)).1

/-- The machine after a list of acts. -/
def run (m : Machine locale) (acts : List Act) : Option (Machine locale) :=
  acts.foldlM step m

/-- A list of acts is a run, when its writes are idle. -/
theorem reach_run {ok : Machine locale → Act → Prop} : ∀ {acts : List Act} {m m' : Machine locale},
    ((nesting locale).guarded ok).Reach m → (∀ m, ∀ act ∈ acts, ok m act) →
    m.run acts = some m' → ((nesting locale).guarded ok).Reach m'
  | [], m, m', h, _, hrun => by
      cases hrun
      exact h
  | act :: rest, m, m', h, hok, hrun => by
      obtain ⟨next, hstep, hrest⟩ := Option.bind_eq_some_iff.mp hrun
      exact reach_run (h.step ⟨hstep, hok m act List.mem_cons_self⟩)
        (fun m act hact => hok m act (List.mem_cons_of_mem _ hact)) hrest

/-- A watcher of "a" is connected and its handler is called for a put. -/
def handlerOfA : List Act :=
  [.watch [] { key := js "a", rangeEnd := [] }, .connect 0,
    .request (FakeState.putText "a" "1"), .advance, .advance]

def putB : WriteRequest := .put [] { key := js "b" }

/-- The handler may write "b", which its watcher does not watch. -/
theorem nested_in_order_after_write :
    ∃ m, ((nesting rootLocale).guarded Machine.Idle).Reach m
      ∧ (∃ sub ∈ m.subscribers, sub.trace ≠ [])
      ∧ ∀ sub ∈ m.subscribers, sub.trace.Pairwise Delivery.Before := by
  have hrun : (((Machine.initial rootLocale 3).run handlerOfA).bind fun m =>
      m.step (.write putB)).isSome = true := by decide
  obtain ⟨m', hm'⟩ := Option.isSome_iff_exists.mp hrun
  obtain ⟨m, hm, hstep⟩ := Option.bind_eq_some_iff.mp hm'
  have hidle : ((Machine.initial rootLocale 3).run handlerOfA).all (fun m =>
      decide (∀ batch ∈ (m.store.execWrite putB).published, ∀ sub ∈ m.subscribers,
        sub.watcher.deliveries batch = [])) = true := by decide
  have hcalled : (((Machine.initial rootLocale 3).run handlerOfA).bind fun m =>
      m.step (.write putB)).all (fun m => decide (∃ sub ∈ m.subscribers, sub.trace ≠ []))
        = true := by decide
  rw [hm] at hidle
  rw [hm'] at hcalled
  have hreach : ((nesting rootLocale).guarded Machine.Idle).Reach m := by
    refine reach_run (.start ⟨3, rfl⟩) (fun m act hact => ?_) hm
    simp only [handlerOfA, List.mem_cons, List.not_mem_nil, or_false] at hact
    rcases hact with rfl | rfl | rfl | rfl | rfl <;> trivial
  have hnext := hreach.step (l := Act.write putB) ⟨hstep, fun batch hbatch sub hsub hne =>
    absurd (of_decide_eq_true hidle batch hbatch sub hsub) hne⟩
  exact ⟨m', hnext, of_decide_eq_true hcalled, nested_in_order hnext⟩

/-- Two watchers; the first writes "b" from its handler for "a", and the
second, which watches both keys, has its turn after that. -/
def nestedWrite : List Act :=
  [.watch [] { key := js "a", rangeEnd := [] }, .watch [] { key := js "a", rangeEnd := js "c" },
    .connect 0, .connect 1, .request (FakeState.putText "a" "1"), .advance, .advance,
    .write putB, .advance, .advance, .advance, .advance, .handlerReturns, .advance,
    .handlerReturns, .advance, .advance, .handlerReturns, .advance, .handlerReturns, .advance,
    .advance, .advance]

/-- The second watcher is told of revision 2 before it is told of
revision 1. -/
theorem nestedWrite_not_in_order :
    ∃ m, (nesting rootLocale).Reach m
      ∧ ∃ sub ∈ m.subscribers, ¬ sub.trace.Pairwise Delivery.Before := by
  have hrun : ((Machine.initial rootLocale 3).run nestedWrite).isSome = true := by decide
  obtain ⟨m, hm⟩ := Option.isSome_iff_exists.mp hrun
  have hbad : ((Machine.initial rootLocale 3).run nestedWrite).all (fun m =>
      decide (∃ sub ∈ m.subscribers, ¬ sub.trace.Pairwise Delivery.Before)) = true := by decide
  rw [hm] at hbad
  refine ⟨m, ?_, of_decide_eq_true hbad⟩
  have hstart : ((nesting rootLocale).guarded fun _ _ => True).Reach (Machine.initial rootLocale 3) :=
    .start ⟨3, rfl⟩
  exact (reach_run hstart (fun _ _ _ => trivial) hm).of_guarded

end Machine

end Webernetes.Etcd
