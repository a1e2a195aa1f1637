/-
Webernetes.Etcd.Watcher — `WatcherImpl` of `cluster/etcd.ts` and the
event history it replays.

A watcher handles the records of one request at a time: it picks those
in its range whose type it does not filter, and emits one response for
them (`handleMany`). It reads a record's key from the key buffer of the
event. Where every recorded key is well formed that is the key the record
was made for, and a watcher then receives what `responseTo` says of it.

The event history of the store has one entry a revision, the records of
the request that took it. `EventsKept` compares it with the batches of a
run: above the watermark it has lost nothing.
-/
import Webernetes.Etcd.Versions

namespace Webernetes.Etcd

open Js Base
open FakeState (recordRevision)

variable {locale : Locale}

/-! ## Watchers -/

structure WatchOptions where
  key : JsString
  rangeEnd : JsString
  prevKv : Bool := false
  filters : List WatchEventType := []
  startRevision : Option Int := none
  deriving DecidableEq

/-- The start revision, when there is a positive one. -/
def WatchOptions.start (options : WatchOptions) : Option Nat :=
  options.startRevision.bind fun s => if s ≤ 0 then none else some s.toNat

structure WatchResponse where
  header : ResponseHeader
  watchId : Nat
  created : Bool
  canceled : Bool
  compactRevision : Nat
  cancelReason : String
  events : List WatchEvent
  deriving DecidableEq

/-- `WatcherImpl`. The timer that cancels a watcher whose start has been
compacted is the field `compacted`, with the revision it reports; the
microtask that connects it is `connecting`. Two ghosts: the responses
with events it emitted, and how many requests had run when it connected. -/
structure Watcher where
  watchId : Nat
  ns : JsString
  options : WatchOptions
  connecting : Bool := true
  connected : Bool := false
  ended : Bool := false
  compacted : Option Nat := none
  received : List WatchResponse := []
  connectedAt : Nat := 0

namespace Watcher

def rangeKey (w : Watcher) : JsString := namespacedKey w.ns w.options.key

def rangeEnd (w : Watcher) : JsString := namespacedRangeEnd w.ns w.options.rangeEnd

/-- The records `handleMany` picks. -/
def matchedRecords (w : Watcher) (records : List RevisionEvent) : List RevisionEvent :=
  records.filter fun record =>
    isKeyInRange (Buffer.toString record.event.kv.key) w.rangeKey w.rangeEnd
      && !w.options.filters.contains record.event.type

/-- The key value pair of an event as the watcher shows it. -/
def shown (w : Watcher) (kv : KeyValue) : KeyValue :=
  { kv with key := Buffer.fromString (unprefixKey (Buffer.toString kv.key) w.ns) }

def shownEvent (w : Watcher) (event : WatchEvent) : WatchEvent where
  type := event.type
  kv := w.shown event.kv
  prevKv := if w.options.prevKv then event.prevKv.map w.shown else none

/-- The response for events, at the revision of the last of them. -/
def dataResponse (w : Watcher) (revision : Nat) (events : List WatchEvent) : WatchResponse where
  header := ⟨revision⟩
  watchId := w.watchId
  created := false
  canceled := false
  compactRevision := 0
  cancelReason := ""
  events := events

/-- `WatcherImpl.connect`, after so many requests. -/
def connect (w : Watcher) (requests : Nat) : Watcher :=
  { w with connecting := false, connected := true, connectedAt := requests }

/-- The watcher after it emitted responses. -/
def receive (w : Watcher) (responses : List WatchResponse) : Watcher :=
  { w with received := w.received ++ responses }

def handleMany (w : Watcher) (records : List RevisionEvent) : Watcher :=
  if !w.connected || w.ended then w
  else
    match (w.matchedRecords records).getLast? with
    | none => w
    | some last =>
      w.receive [w.dataResponse last.revision
        ((w.matchedRecords records).map fun record => w.shownEvent record.event)]

/-! ## What a watcher should receive -/

/-- The record is of a key of the watcher's range and of a type it does not
filter. -/
def wants (w : Watcher) (record : RevisionEvent) : Bool :=
  isKeyInRange record.key w.rangeKey w.rangeEnd && !w.options.filters.contains record.event.type

/-- The event of a record as the watcher should show it: under the
record's own key. -/
def view (w : Watcher) (record : RevisionEvent) : WatchEvent where
  type := record.event.type
  kv := { record.event.kv with key := Buffer.fromString (unprefixKey record.key w.ns) }
  prevKv := if w.options.prevKv then record.event.prevKv.map w.shown else none

/-- One response for all the records of a batch the watcher wants, none
when there is none. -/
def responseTo (w : Watcher) (batch : List RevisionEvent) : Option WatchResponse :=
  (batch.filter w.wants).getLast?.map fun last =>
    w.dataResponse last.revision ((batch.filter w.wants).map w.view)

@[simp] theorem connect_connected (w : Watcher) (requests : Nat) :
    (w.connect requests).connected = true := rfl

@[simp] theorem connect_connectedAt (w : Watcher) (requests : Nat) :
    (w.connect requests).connectedAt = requests := rfl

@[simp] theorem connect_received (w : Watcher) (requests : Nat) :
    (w.connect requests).received = w.received := rfl

@[simp] theorem connect_options (w : Watcher) (requests : Nat) :
    (w.connect requests).options = w.options := rfl

@[simp] theorem connect_responseTo (w : Watcher) (requests : Nat) :
    (w.connect requests).responseTo = w.responseTo := rfl

@[simp] theorem receive_nil (w : Watcher) : w.receive [] = w := by simp [receive]

theorem receive_receive (w : Watcher) (first second : List WatchResponse) :
    (w.receive first).receive second = w.receive (first ++ second) := by simp [receive]

@[simp] theorem receive_connected (w : Watcher) (responses : List WatchResponse) :
    (w.receive responses).connected = w.connected := rfl

@[simp] theorem receive_ended (w : Watcher) (responses : List WatchResponse) :
    (w.receive responses).ended = w.ended := rfl

@[simp] theorem receive_connectedAt (w : Watcher) (responses : List WatchResponse) :
    (w.receive responses).connectedAt = w.connectedAt := rfl

@[simp] theorem receive_compacted (w : Watcher) (responses : List WatchResponse) :
    (w.receive responses).compacted = w.compacted := rfl

@[simp] theorem receive_received (w : Watcher) (responses : List WatchResponse) :
    (w.receive responses).received = w.received ++ responses := rfl

@[simp] theorem receive_options (w : Watcher) (responses : List WatchResponse) :
    (w.receive responses).options = w.options := rfl

@[simp] theorem receive_responseTo (w : Watcher) (responses : List WatchResponse) :
    (w.receive responses).responseTo = w.responseTo := rfl

@[simp] theorem responseTo_nil (w : Watcher) : w.responseTo [] = none := rfl

theorem responseTo_isSome_iff (w : Watcher) (batch : List RevisionEvent) :
    (w.responseTo batch).isSome = true ↔ ∃ record ∈ batch, w.wants record = true := by
  simp [responseTo]

/-- The record's event carries the buffer of a key without a lone
surrogate. -/
def Spelled (record : RevisionEvent) : Prop :=
  record.event.kv.key = Buffer.fromString record.key ∧ IsWellFormed record.key

theorem Spelled.decode {record : RevisionEvent} (h : Spelled record) :
    Buffer.toString record.event.kv.key = record.key := by
  rw [h.1]
  exact toString_fromString_of_isWellFormed h.2

/-- A connected watcher answers spelled records with the response it
should. -/
theorem handleMany_of_spelled {w : Watcher} (hconnected : w.connected = true)
    (hended : w.ended = false) {records : List RevisionEvent} (h : ∀ r ∈ records, Spelled r) :
    w.handleMany records = w.receive (w.responseTo records).toList := by
  have hmatched : w.matchedRecords records = records.filter w.wants := by
    refine List.filter_congr fun record hrecord => ?_
    rw [(h record hrecord).decode]
    rfl
  have hview : (records.filter w.wants).map (fun record => w.shownEvent record.event)
      = (records.filter w.wants).map w.view := by
    refine List.map_congr_left fun record hrecord => ?_
    have hspelled := h record (List.mem_filter.mp hrecord).1
    simp only [shownEvent, view, shown, hspelled.decode]
  unfold handleMany responseTo
  rw [if_neg (by simp [hconnected, hended]), hmatched, hview]
  cases (records.filter w.wants).getLast? with
  | none => simp
  | some last => rfl

end Watcher

/-! ## The event history -/

/-- The entry of the event history a batch leaves. -/
def entryOf (batch : List RevisionEvent) : Option (Nat × List RevisionEvent) :=
  batch.head?.map fun record => (record.revision, batch)

/-- The entries above a revision. -/
def above {α : Type} (revision : Nat) (entries : List (Nat × α)) : List (Nat × α) :=
  entries.filter fun e => decide (revision < e.1)

/-- The event history is within the revisions taken, and above the
watermark it is the batches of the run. -/
structure EventsKept (s : FakeState locale) (batches : List (List RevisionEvent)) : Prop where
  bounded : ∀ e ∈ s.history.items, e.1 ≤ s.revision
  kept : above s.compactedRevision s.history.items
    = above s.compactedRevision (batches.filterMap entryOf)

section EventHistory

variable {m : SortedMap (compare : Nat → Nat → Ordering) (List RevisionEvent)}
  {earlier : List (Nat × List RevisionEvent)} {revision : Nat} {records : List RevisionEvent}

/-- Setting a revision above all others adds an entry at the end. -/
theorem items_set_above (h : ∀ e ∈ m.items, e.1 < revision) (records : List RevisionEvent) :
    (m.set revision records).items = m.items ++ [(revision, records)] := by
  rw [SortedMap.items_set]
  have hbefore : m.items.filter (before compare revision) = m.items :=
    List.filter_eq_self.mpr fun e he => by simp [before, Nat.compare_eq_lt.mpr (h e he)]
  have hafter : m.items.filter (after compare revision) = [] :=
    List.filter_eq_nil_iff.mpr fun e he => by simp [after, Nat.compare_eq_lt.mpr (h e he)]
  rw [hbefore, hafter]

theorem get_above (h : ∀ e ∈ m.items, e.1 < revision) : m.get revision = none :=
  SortedMap.get_eq_none_iff.mpr fun e he => by simp [Nat.compare_eq_lt.mpr (h e he)]

/-- Setting the last revision again replaces its entry. -/
theorem items_set_last (hitems : m.items = earlier ++ [(revision, records)])
    (h : ∀ e ∈ earlier, e.1 < revision) (records' : List RevisionEvent) :
    (m.set revision records').items = earlier ++ [(revision, records')] := by
  rw [SortedMap.items_set, hitems, List.filter_append, List.filter_append]
  have hbefore : earlier.filter (before compare revision) = earlier :=
    List.filter_eq_self.mpr fun e he => by simp [before, Nat.compare_eq_lt.mpr (h e he)]
  have hafter : earlier.filter (after compare revision) = [] :=
    List.filter_eq_nil_iff.mpr fun e he => by simp [after, Nat.compare_eq_lt.mpr (h e he)]
  rw [hbefore, hafter]
  simp [before, after]

theorem get_last (hitems : m.items = earlier ++ [(revision, records)]) :
    m.get revision = some records :=
  SortedMap.get_of_mem (by rw [hitems]; simp)

end EventHistory

namespace FakeState

theorem appendRecord_history (s : FakeState locale) (record : RevisionEvent) :
    (s.appendRecord record).history
      = s.history.set record.revision ((s.history.get record.revision).getD [] ++ [record]) :=
  rfl

theorem appendRecord_watermark (s : FakeState locale) (record : RevisionEvent) :
    s.compactedRevision ≤ (s.appendRecord record).compactedRevision := by
  obtain ⟨-, -, hmark, -, -⟩ := trimRevisions_spec s.retainedRevisions s.retained_pos
    (s.revisionsOf record.key ++ [recordRevision record]) s.compactedRevision
  exact hmark

theorem appendRecords_watermark (records : List RevisionEvent) (s : FakeState locale) :
    s.compactedRevision ≤ (s.appendRecords records).compactedRevision := by
  induction records generalizing s with
  | nil => exact Nat.le_refl _
  | cons record records ih => exact Nat.le_trans (appendRecord_watermark s record) (ih _)

/-- Further records of a revision join the last entry. -/
theorem appendRecords_history_last {revision : Nat} {earlier : List (Nat × List RevisionEvent)}
    (hearlier : ∀ e ∈ earlier, e.1 < revision) (records : List RevisionEvent)
    (hrecords : ∀ r ∈ records, r.revision = revision) :
    ∀ (s : FakeState locale) (done : List RevisionEvent),
      s.history.items = earlier ++ [(revision, done)] →
      (s.appendRecords records).history.items = earlier ++ [(revision, done ++ records)] := by
  induction records with
  | nil => intro s done hs; simpa using hs
  | cons record records ih =>
    intro s done hs
    have hrev : record.revision = revision := hrecords record List.mem_cons_self
    have hnext : (s.appendRecord record).history.items = earlier ++ [(revision, done ++ [record])] := by
      rw [appendRecord_history, hrev, get_last hs]
      exact items_set_last hs hearlier _
    have hrun := ih (fun r hr => hrecords r (List.mem_cons_of_mem _ hr)) _ _ hnext
    simpa using hrun

/-- The records of a request are one new entry of the event history. -/
theorem appendRecords_history {s : FakeState locale} {revision : Nat}
    (hold : ∀ e ∈ s.history.items, e.1 < revision) {records : List RevisionEvent}
    (hrecords : ∀ r ∈ records, r.revision = revision) :
    (s.appendRecords records).history.items = s.history.items ++ (entryOf records).toList := by
  cases records with
  | nil => simp [entryOf]
  | cons record records =>
    have hrev : record.revision = revision := hrecords record List.mem_cons_self
    have hnext : (s.appendRecord record).history.items = s.history.items ++ [(revision, [record])] := by
      rw [appendRecord_history, hrev, get_above hold]
      exact items_set_above hold _
    have hrun := appendRecords_history_last hold records
      (fun r hr => hrecords r (List.mem_cons_of_mem _ hr)) _ _ hnext
    simpa [entryOf, hrev] using hrun

/-- Compaction only deletes entries, and none above the revision. -/
theorem compactLoop_spec (revision : Nat) : ∀ (fuel index : Nat)
    (history : SortedMap (compare : Nat → Nat → Ordering) (List RevisionEvent)),
    (compactLoop revision fuel index history).items.Sublist history.items
      ∧ above revision (compactLoop revision fuel index history).items
        = above revision history.items
  | 0, _, _ => ⟨List.Sublist.refl _, rfl⟩
  | fuel + 1, index, history => by
      rw [compactLoop]
      split
      · exact ⟨List.Sublist.refl _, rfl⟩
      · rename_i historyRevision records hget
        split
        · exact ⟨List.Sublist.refl _, rfl⟩
        · rename_i hle
          obtain ⟨hsub, hfilter⟩ :=
            compactLoop_spec revision fuel (index + 1) (history.delete historyRevision)
          rw [SortedMap.items_delete] at hsub hfilter
          refine ⟨hsub.trans List.filter_sublist, hfilter.trans ?_⟩
          rw [above, above, List.filter_filter]
          refine List.filter_congr fun e _ => ?_
          by_cases hlt : revision < e.1
          · have hne : compare e.1 historyRevision = .gt := by
              rw [Nat.compare_eq_gt]; omega
            simp [hlt, same, hne]
          · simp [hlt]

end FakeState

theorem above_of_le {α : Type} {entries entries' : List (Nat × α)} {low high : Nat}
    (h : above low entries = above low entries') (hle : low ≤ high) :
    above high entries = above high entries' := by
  have hsplit : ∀ l : List (Nat × α), above high l = above high (above low l) := by
    intro l
    rw [above, above, above, List.filter_filter]
    refine List.filter_congr fun e _ => ?_
    by_cases hlt : high < e.1
    · have hlow : low < e.1 := by omega
      simp [hlt, hlow]
    · simp [hlt]
  rw [hsplit, hsplit entries', h]

/-- A write request adds its records to the event history as one entry. -/
theorem execWrite_history {s : FakeState locale} (hbound : ∀ e ∈ s.history.items, e.1 ≤ s.revision)
    (request : WriteRequest) : (s.execWrite request).state.history.items
      = s.history.items ++ (entryOf (s.execWrite request).records).toList := by
  obtain ⟨base, hbase, hstate, hrevision⟩ := s.execWrite_effect request
  rw [hstate]
  rcases hbase with rfl | ⟨rfl, hnil⟩
  · exact FakeState.appendRecords_history (s := s.bumpRevision)
      (fun e he => Nat.lt_succ_of_le (hbound e he)) hrevision
  · simp [hnil, entryOf]

/-- The entry a write request adds is at or below the revision it leaves. -/
theorem execWrite_history_le {s : FakeState locale} (hbound : ∀ e ∈ s.history.items, e.1 ≤ s.revision)
    (request : WriteRequest) : ∀ e ∈ (s.execWrite request).state.history.items,
      e.1 ≤ (s.execWrite request).state.revision := by
  intro e he
  rw [execWrite_history hbound, List.mem_append] at he
  rcases he with he | he
  · exact Nat.le_trans (hbound e he) (execWrite_revision_le s request)
  · obtain ⟨record, hrecord, rfl⟩ := Option.map_eq_some_iff.mp (Option.mem_toList.mp he)
    exact (execWrite_records_revision (List.mem_of_head? hrecord)).2

theorem eventsKept_execWrite {s : FakeState locale} {batches : List (List RevisionEvent)}
    (h : EventsKept s batches) (request : WriteRequest) :
    EventsKept (s.execWrite request).state (batches ++ [(s.execWrite request).records]) := by
  have hmark : s.compactedRevision ≤ (s.execWrite request).state.compactedRevision := by
    obtain ⟨base, hbase, hstate, -⟩ := s.execWrite_effect request
    rw [hstate]
    refine Nat.le_trans (Nat.le_of_eq ?_) (FakeState.appendRecords_watermark _ base)
    rcases hbase with rfl | ⟨rfl, -⟩ <;> rfl
  refine ⟨execWrite_history_le h.bounded request, ?_⟩
  rw [execWrite_history h.bounded, List.filterMap_append, above, above, List.filter_append,
    List.filter_append]
  refine congrArg₂ _ (above_of_le h.kept hmark) ?_
  cases hentry : entryOf (s.execWrite request).records <;> simp [hentry]

theorem eventsKept_compact {s : FakeState locale} {batches : List (List RevisionEvent)}
    (h : EventsKept s batches) (requested : Int) :
    EventsKept (s.compact requested).state (batches ++ [[]]) := by
  have hbatches : (batches ++ [[]]).filterMap entryOf = batches.filterMap entryOf := by
    simp [entryOf]
  rcases s.compact_effect requested with hstate | ⟨revision, -, -, hstate⟩
  · rw [hstate]
    exact ⟨h.bounded, hbatches ▸ h.kept⟩
  · obtain ⟨hsub, hfilter⟩ := FakeState.compactLoop_spec revision
      (s.history.items.length + 1) 0 s.history
    rw [hstate]
    refine ⟨fun e he => h.bounded e (hsub.mem he), ?_⟩
    rw [hbatches]
    exact (above_of_le hfilter (Nat.le_max_right _ _)).trans
      (above_of_le h.kept (Nat.le_max_left _ _))

end Webernetes.Etcd
