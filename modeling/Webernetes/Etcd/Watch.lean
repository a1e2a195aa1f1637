/-
Webernetes.Etcd.Watch — watchers over whole runs.

A `Hub` is a store with its attached watchers. Its steps are the requests,
which publish to every watcher before they return, and what happens to one
watcher: it is made, its microtask connects it and replays the history,
its timer cancels it when its start revision was compacted, or it is
cancelled. The handlers of a watcher are outside the store, so a delivery
is one step with the request (`Etcd.Nested` lets them call back).

What a watcher receives after it connected is what was published since.
Where that falls short of the events that were recorded is said by the
conditions of a step, `Faithful`: a transaction that throws after it wrote
has recorded events it never publishes, and a key with a lone surrogate
does not survive the key buffer of its event. Besides, publication does
not look at a watcher's start revision, so a watcher whose start is still
to come receives what is published before (`watchers_exact`).
-/
import Webernetes.Etcd.Watcher

namespace Webernetes.Etcd

open Js Base

variable {locale : Locale}

/-! ## The system -/

/-- A store and its watchers, in the order they were made. -/
structure Hub (locale : Locale) where
  traced : Traced locale
  watchers : List Watcher
  nextWatchId : Nat

inductive HubStep where
  | request (request : StoreRequest)
  | watch (ns : JsString) (options : WatchOptions)
  | connect (watchId : Nat)
  | expire (watchId : Nat)
  | cancel (watchId : Nat)

namespace Hub

/-- The batches a request publishes. -/
def published (h : Hub locale) : StoreRequest → List (List RevisionEvent)
  | .write request => (h.traced.store.execWrite request).published
  | .compact _ => []

/-- The microtask of `watch`. -/
def connectWatcher (h : Hub locale) (w : Watcher) : Watcher :=
  let connected := w.connect h.traced.batches.length
  match w.options.start with
  | none => connected
  | some start =>
    match h.traced.store.compactedRevisionForRange start with
    | some compactRevision => { connected with compacted := some compactRevision }
    | none => (h.traced.store.history.entriesFrom start).foldl (fun w e => w.handleMany e.2) connected

def exec (h : Hub locale) : HubStep → Hub locale
  | .request request =>
    { h with
      traced := h.traced.exec request
      watchers := h.watchers.map fun w => (h.published request).foldl Watcher.handleMany w }
  | .watch ns options =>
    if FakeState.RangeValid options.key options.rangeEnd then
      { h with
        watchers := h.watchers ++ [{ watchId := h.nextWatchId, ns, options }]
        nextWatchId := h.nextWatchId + 1 }
    else h
  | .connect watchId =>
    { h with watchers := h.watchers.map fun w =>
        if w.watchId = watchId ∧ w.connecting = true then h.connectWatcher w else w }
  | .expire watchId =>
    { h with watchers := h.watchers.filter fun w => !(w.watchId == watchId && w.compacted.isSome) }
  | .cancel watchId =>
    { h with watchers := h.watchers.filter fun w => w.watchId != watchId }

end Hub

/-- The runs of a store with watchers. -/
def watching (locale : Locale) : System (Hub locale) HubStep where
  init h := ∃ retainedRevisions,
    h = { traced := Traced.initial locale retainedRevisions, watchers := [], nextWatchId := 0 }
  step h l h' := h' = h.exec l

/-! ## The conditions -/

namespace FakeState

/-- When an operation of a transaction is refused, those before it have
written nothing. -/
def Quiet (s : FakeState locale) : WriteRequest → Prop
  | .put _ _ => True
  | .delete _ _ => True
  | .txn request =>
    assertTxnWriteRangesValid (s.chosenOperations request) = .ok () →
    ∀ done bad rest, s.chosenOperations request = done ++ bad :: rest →
      OpsValid (s.txnStart (s.chosenOperations request)).revision
        (s.txnStart (s.chosenOperations request)) done →
      ¬ ((s.txnStart (s.chosenOperations request)).appendRecords
        (branchRecords (s.txnStart (s.chosenOperations request)).revision
          (s.txnStart (s.chosenOperations request)) done)).OpValid bad →
      branchRecords (s.txnStart (s.chosenOperations request)).revision
        (s.txnStart (s.chosenOperations request)) done = []

/-- The keys a request puts have no lone surrogate. -/
def WellSpelled (s : FakeState locale) : WriteRequest → Prop
  | .put ns options => s.PutValid ns options → IsWellFormed (namespacedKey ns options.key)
  | .delete _ _ => True
  | .txn request =>
    OpsValid (s.txnStart (s.chosenOperations request)).revision
      (s.txnStart (s.chosenOperations request)) (s.chosenOperations request) →
    ∀ op ∈ s.chosenOperations request, op.requestRange = none →
      ∀ options ∈ op.requestPut, IsWellFormed options.key

end FakeState

/-- A write records no event that it does not publish, and puts no key
with a lone surrogate. -/
def Hub.Faithful (h : Hub locale) : HubStep → Prop
  | .request (.write request) =>
    h.traced.store.Quiet request ∧ h.traced.store.WellSpelled request
  | _ => True

/-! ## What is recorded is published -/

namespace FakeState

/-- What a quiet transaction does: it throws and writes nothing, or all
its operations are valid. -/
theorem txn_of_quiet {s : FakeState locale} {request : TxnRequest} (h : s.Quiet (.txn request)) :
    ((s.txn request).records = [] ∧ (s.txn request).published = []) ∨
    (OpsValid (s.txnStart (s.chosenOperations request)).revision
        (s.txnStart (s.chosenOperations request)) (s.chosenOperations request)
      ∧ (s.txn request).records
        = branchRecords (s.txnStart (s.chosenOperations request)).revision
          (s.txnStart (s.chosenOperations request)) (s.chosenOperations request)
      ∧ (s.txn request).published = batches (s.txn request).records) := by
  cases hcheck : assertTxnWriteRangesValid (s.chosenOperations request) with
  | error e => exact .inl (by simp [txn_of_overlap s request hcheck])
  | ok u =>
    by_cases hops : OpsValid (s.txnStart (s.chosenOperations request)).revision
      (s.txnStart (s.chosenOperations request)) (s.chosenOperations request)
    · exact .inr ⟨hops, by simp [txn_of_valid s request hcheck hops]⟩
    · obtain ⟨e, done, bad, rest, hsplit, hdone, hbad, htxn⟩ :=
        txn_of_not_valid s request hcheck hops
      have hnone := h hcheck done bad rest hsplit hdone hbad
      exact .inl (by simp [htxn, hnone])

theorem published_of_quiet {s : FakeState locale} {request : WriteRequest} (h : s.Quiet request) :
    (s.execWrite request).published = batches (s.execWrite request).records := by
  cases request with
  | put ns options =>
    by_cases hput : s.PutValid ns options
    · simp [execWrite, Outcome.map, put_of_valid s ns options hput, batches]
    · simp [execWrite, Outcome.map, put_of_not_valid s ns options hput, batches]
  | delete ns options =>
    by_cases hvalid : RangeValid options.key options.rangeEnd
    · by_cases hmatch : s.matched ns options = []
      · simp [execWrite, Outcome.map, delete_of_valid s ns options hvalid, batches, hmatch]
      · simp [execWrite, Outcome.map, delete_of_valid s ns options hvalid, batches, hmatch]
    · simp [execWrite, Outcome.map, delete_of_not_valid s ns options hvalid, batches]
  | txn request =>
    rcases txn_of_quiet h with ⟨hrecords, hpublished⟩ | ⟨-, -, hpublished⟩
    · simp [execWrite, Outcome.map, hrecords, hpublished, batches]
    · exact hpublished

/-- A request publishes its records as one batch, or nothing. -/
theorem published_cases (s : FakeState locale) (request : WriteRequest) :
    (s.execWrite request).published = []
      ∨ (s.execWrite request).published = [(s.execWrite request).records] := by
  cases request with
  | put ns options =>
    by_cases hput : s.PutValid ns options
    · exact .inr (by simp [execWrite, Outcome.map, put_of_valid s ns options hput])
    · exact .inl (by simp [execWrite, Outcome.map, put_of_not_valid s ns options hput])
  | delete ns options =>
    by_cases hvalid : RangeValid options.key options.rangeEnd
    · simp only [execWrite, Outcome.map, delete_of_valid s ns options hvalid]
      split
      · exact .inl rfl
      · exact .inr rfl
    · exact .inl (by simp [execWrite, Outcome.map, delete_of_not_valid s ns options hvalid])
  | txn request =>
    simp only [execWrite, Outcome.map]
    cases hcheck : assertTxnWriteRangesValid (s.chosenOperations request) with
    | error e => exact .inl (by simp [txn_of_overlap s request hcheck])
    | ok u =>
      by_cases hops : OpsValid (s.txnStart (s.chosenOperations request)).revision
        (s.txnStart (s.chosenOperations request)) (s.chosenOperations request)
      · simp only [txn_of_valid s request hcheck hops, batches]
        split
        · exact .inl rfl
        · exact .inr rfl
      · obtain ⟨_, _, _, _, -, -, -, htxn⟩ := txn_of_not_valid s request hcheck hops
        exact .inl (by simp [htxn])

/-! ## Keys and their buffers -/

/-- No key of a history has a lone surrogate. -/
def KeysWellFormed (s : FakeState locale) : Prop :=
  ∀ item ∈ s.histories.items, ∀ r ∈ item.2, IsWellFormed r.key

theorem keysWellFormed_appendRecord {s : FakeState locale} (h : s.KeysWellFormed)
    {record : RevisionEvent} (hrecord : IsWellFormed record.key) :
    (s.appendRecord record).KeysWellFormed := by
  intro item hitem r hr
  rcases SortedMap.mem_set_iff.mp hitem with rfl | ⟨hitem, -⟩
  · obtain ⟨dropped, hsplit, -⟩ := trimRevisions_spec s.retainedRevisions s.retained_pos
      (s.revisionsOf record.key ++ [recordRevision record]) s.compactedRevision
    have hmem : r ∈ s.revisionsOf record.key ++ [recordRevision record] := by
      rw [← hsplit]; exact List.mem_append_right _ hr
    rcases List.mem_append.mp hmem with hmem | hmem
    · cases hget : s.histories.get record.key with
      | none => simp [revisionsOf, hget] at hmem
      | some revisions =>
        obtain ⟨k, hk, -⟩ := SortedMap.get_eq_some_iff.mp hget
        exact h (k, revisions) hk r (by simpa [revisionsOf, hget] using hmem)
    · rw [List.mem_singleton.mp hmem]
      exact hrecord
  · exact h item hitem r hr

theorem keysWellFormed_appendRecords (records : List RevisionEvent) {s : FakeState locale}
    (h : s.KeysWellFormed) (hrecords : ∀ r ∈ records, IsWellFormed r.key) :
    (s.appendRecords records).KeysWellFormed := by
  induction records generalizing s with
  | nil => exact h
  | cons record records ih =>
    exact ih (keysWellFormed_appendRecord h (hrecords record List.mem_cons_self))
      fun r hr => hrecords r (List.mem_cons_of_mem _ hr)

theorem currentValue_key {revisions : List StoredRevision} {value : StoredValue}
    (h : currentValue revisions = some value) : ∃ r ∈ revisions, value.key = r.key := by
  unfold currentValue at h
  split at h
  · cases h
  · rename_i last hlast
    split at h
    · cases h
    · cases h
      exact ⟨last, List.mem_of_getLast? hlast, rfl⟩

theorem spelled_putRecord (existing : Option StoredValue) (options : PutOptions) {key : JsString}
    (revision : Nat) (h : IsWellFormed key) :
    Watcher.Spelled (putRecord existing (putValue existing options key revision)) :=
  ⟨rfl, h⟩

theorem spelled_deleteRecords {s : FakeState locale} (h : s.KeysWellFormed) (ns : JsString)
    (options : DeleteOptions) (revision : Nat) :
    ∀ r ∈ (s.matched ns options).map fun value => deleteRecord value revision,
      Watcher.Spelled r := by
  intro r hr
  obtain ⟨value, hvalue, rfl⟩ := List.mem_map.mp hr
  obtain ⟨item, hitem, hcur⟩ := List.mem_filterMap.mp hvalue
  obtain ⟨stored, hstored, hkey⟩ := currentValue_key hcur
  refine ⟨rfl, ?_⟩
  rw [deleteRecord_key, hkey]
  exact h item (mem_iterateRange hitem).1 stored hstored

theorem spelled_opRecords {s : FakeState locale} (h : s.KeysWellFormed) (revision : Nat)
    {op : RequestOp} (hop : op.requestRange = none → ∀ options ∈ op.requestPut,
      IsWellFormed options.key) : ∀ r ∈ s.opRecords revision op, Watcher.Spelled r := by
  intro r hr
  unfold opRecords at hr
  split at hr
  · cases hr
  · rename_i options hrange hput
    rw [List.mem_singleton.mp hr]
    exact spelled_putRecord _ _ _ (hop hrange options (by simp [hput]))
  · exact spelled_deleteRecords h _ _ _ r hr
  · cases hr

theorem spelled_branchRecords (revision : Nat) : ∀ {ops : List RequestOp} {s : FakeState locale},
    s.KeysWellFormed → (∀ op ∈ ops, op.requestRange = none → ∀ options ∈ op.requestPut,
      IsWellFormed options.key) → ∀ r ∈ branchRecords revision s ops, Watcher.Spelled r
  | [], _, _, _, _, hr => by cases hr
  | op :: rest, s, h, hops, r, hr => by
      have hop := spelled_opRecords h revision (hops op List.mem_cons_self)
      rcases List.mem_append.mp hr with hr | hr
      · exact hop r hr
      · exact spelled_branchRecords revision
          (keysWellFormed_appendRecords _ h fun r hr => (hop r hr).2)
          (fun op' hop' => hops op' (List.mem_cons_of_mem _ hop')) r hr

theorem spelled_execWrite {s : FakeState locale} (h : s.KeysWellFormed) {request : WriteRequest}
    (hquiet : s.Quiet request) (hspelled : s.WellSpelled request) :
    ∀ r ∈ (s.execWrite request).records, Watcher.Spelled r := by
  cases request with
  | put ns options =>
    by_cases hput : s.PutValid ns options
    · intro r hr
      simp only [execWrite, Outcome.map, put_of_valid s ns options hput,
        List.mem_singleton] at hr
      exact hr ▸ spelled_putRecord _ _ _ (hspelled hput)
    · simp [execWrite, Outcome.map, put_of_not_valid s ns options hput]
  | delete ns options =>
    by_cases hvalid : RangeValid options.key options.rangeEnd
    · simp only [execWrite, Outcome.map, delete_of_valid s ns options hvalid]
      split
      · simp
      · exact spelled_deleteRecords h ns options _
    · simp [execWrite, Outcome.map, delete_of_not_valid s ns options hvalid]
  | txn request =>
    simp only [execWrite, Outcome.map]
    rcases txn_of_quiet hquiet with ⟨hrecords, -⟩ | ⟨hops, hrecords, -⟩
    · simp [hrecords]
    · rw [hrecords]
      refine spelled_branchRecords _ ?_ (hspelled hops)
      unfold txnStart
      split <;> exact h

theorem keysWellFormed_execWrite {s : FakeState locale} (h : s.KeysWellFormed)
    {request : WriteRequest} (hspelled : ∀ r ∈ (s.execWrite request).records, Watcher.Spelled r) :
    (s.execWrite request).state.KeysWellFormed := by
  obtain ⟨base, hbase, hstate, -⟩ := s.execWrite_effect request
  rw [hstate]
  refine keysWellFormed_appendRecords _ ?_ fun r hr => (hspelled r hr).2
  rcases hbase with rfl | ⟨rfl, -⟩ <;> exact h

end FakeState

/-! ## What a watcher receives -/

namespace Watcher

/-- The response to the records of a batch from a revision on. -/
def responseFrom (w : Watcher) (start : Nat) (batch : List RevisionEvent) : Option WatchResponse :=
  w.responseTo (batch.filter fun record => decide (start ≤ record.revision))

/-- What a watcher receives when it connects, of the batches before. -/
def replayed (w : Watcher) (batches : List (List RevisionEvent)) : List WatchResponse :=
  match w.options.start with
  | none => []
  | some start => (batches.take w.connectedAt).filterMap (w.responseFrom start)

@[simp] theorem connect_responseFrom (w : Watcher) (requests : Nat) :
    (w.connect requests).responseFrom = w.responseFrom := rfl

@[simp] theorem receive_responseFrom (w : Watcher) (responses : List WatchResponse) :
    (w.receive responses).responseFrom = w.responseFrom := rfl

@[simp] theorem receive_replayed (w : Watcher) (responses : List WatchResponse)
    (batches : List (List RevisionEvent)) :
    (w.receive responses).replayed batches = w.replayed batches := rfl

theorem replayed_append (w : Watcher) {batches : List (List RevisionEvent)}
    (h : w.connectedAt ≤ batches.length) (later : List (List RevisionEvent)) :
    w.replayed (batches ++ later) = w.replayed batches := by
  unfold replayed
  rw [List.take_append_of_le_length h]

/-- All records of a batch have one revision. -/
def Uniform (batch : List RevisionEvent) : Prop :=
  ∀ x ∈ batch, ∀ y ∈ batch, x.revision = y.revision

theorem responseFrom_of_le (w : Watcher) {start : Nat} {batch : List RevisionEvent}
    (h : ∀ r ∈ batch, start ≤ r.revision) : w.responseFrom start batch = w.responseTo batch := by
  rw [responseFrom, List.filter_eq_self.mpr fun r hr => decide_eq_true (h r hr)]

theorem responseFrom_of_lt (w : Watcher) {start : Nat} {batch : List RevisionEvent}
    (h : ∀ r ∈ batch, r.revision < start) : w.responseFrom start batch = none := by
  rw [responseFrom, List.filter_eq_nil_iff.mpr fun r hr => by simpa using h r hr]
  rfl

theorem Uniform.cases {batch : List RevisionEvent} (h : Uniform batch) (start : Nat) :
    (∀ r ∈ batch, start ≤ r.revision) ∨ (batch ≠ [] ∧ ∀ r ∈ batch, r.revision < start) := by
  cases batch with
  | nil => exact .inl (by simp)
  | cons record rest =>
    by_cases hle : start ≤ record.revision
    · exact .inl fun r hr => h record List.mem_cons_self r hr ▸ hle
    · refine .inr ⟨by simp, fun r hr => ?_⟩
      have heq := h record List.mem_cons_self r hr
      omega

/-- Replay of the kept entries gives what the batches hold from the start
on. -/
theorem filterMap_entries (w : Watcher) {start : Nat} (hstart : 0 < start) :
    ∀ {batches : List (List RevisionEvent)}, (∀ b ∈ batches, Uniform b) →
      (above (start - 1) (batches.filterMap entryOf)).filterMap (fun e => w.responseTo e.2)
        = batches.filterMap (w.responseFrom start)
  | [], _ => rfl
  | batch :: rest, h => by
      have ih := filterMap_entries w hstart fun b hb => h b (List.mem_cons_of_mem _ hb)
      rcases (h batch List.mem_cons_self).cases start with hle | ⟨hne, hlt⟩
      · rw [List.filterMap_cons (f := w.responseFrom start), w.responseFrom_of_le hle, ← ih]
        cases batch with
        | nil => rfl
        | cons record records =>
          have hrev : start - 1 < record.revision := by
            have := hle record List.mem_cons_self
            omega
          simp [entryOf, above, hrev, List.filterMap_cons]
      · rw [List.filterMap_cons_none (w.responseFrom_of_lt hlt), ← ih]
        cases batch with
        | nil => exact absurd rfl hne
        | cons record records =>
          have hrev : ¬ start - 1 < record.revision := by
            have := hlt record List.mem_cons_self
            omega
          simp [entryOf, above, hrev]

/-- Live delivery agrees with the start revision when nothing wanted is
below it, and only then. -/
theorem filterMap_responseFrom_iff (w : Watcher) (start : Nat) :
    ∀ {batches : List (List RevisionEvent)}, (∀ b ∈ batches, Uniform b) →
      (batches.filterMap w.responseTo = batches.filterMap (w.responseFrom start) ↔
        ∀ record ∈ batches.flatten, w.wants record = true → start ≤ record.revision)
  | [], _ => by simp
  | batch :: rest, h => by
      have hrest : ∀ b ∈ rest, Uniform b := fun b hb => h b (List.mem_cons_of_mem _ hb)
      have ih := filterMap_responseFrom_iff w start hrest
      rw [List.flatten_cons]
      simp only [List.forall_mem_append]
      rcases (h batch List.mem_cons_self).cases start with hle | ⟨-, hlt⟩
      · rw [List.filterMap_cons, List.filterMap_cons, w.responseFrom_of_le hle]
        have hbatch : ∀ r ∈ batch, w.wants r = true → start ≤ r.revision := fun r hr _ => hle r hr
        cases w.responseTo batch with
        | none => exact ih.trans ⟨fun hr => ⟨hbatch, hr⟩, fun hr => hr.2⟩
        | some response =>
          simp only [List.cons.injEq, true_and]
          exact ih.trans ⟨fun hr => ⟨hbatch, hr⟩, fun hr => hr.2⟩
      · rw [List.filterMap_cons_none (w.responseFrom_of_lt hlt)]
        cases hresponse : w.responseTo batch with
        | none =>
          rw [List.filterMap_cons_none hresponse]
          refine ih.trans ⟨fun hr => ⟨fun r hr hwants => ?_, hr⟩, fun hr => hr.2⟩
          have hsome := (w.responseTo_isSome_iff batch).mpr ⟨r, hr, hwants⟩
          rw [hresponse] at hsome
          cases hsome
        | some response =>
          rw [List.filterMap_cons_some hresponse]
          refine iff_of_false (fun heq => ?_) fun hr => ?_
          · -- The live responses are one more than there should be.
            have hlen : ∀ l : List (List RevisionEvent), (∀ b ∈ l, Uniform b) →
                (l.filterMap (w.responseFrom start)).length ≤ (l.filterMap w.responseTo).length := by
              intro l hl
              induction l with
              | nil => simp
              | cons b l ihl =>
                have ihl := ihl fun b hb => hl b (List.mem_cons_of_mem _ hb)
                rcases (hl b List.mem_cons_self).cases start with hle' | ⟨-, hlt'⟩
                · rw [List.filterMap_cons, List.filterMap_cons, w.responseFrom_of_le hle']
                  cases w.responseTo b <;> simp [ihl]
                · rw [List.filterMap_cons_none (w.responseFrom_of_lt hlt'), List.filterMap_cons]
                  cases w.responseTo b with
                  | none => exact ihl
                  | some _ => exact Nat.le_succ_of_le ihl
            have hcount := congrArg List.length heq
            have hle := hlen rest hrest
            simp only [List.length_cons] at hcount
            omega
          · obtain ⟨record, hrecord, hwants⟩ := (w.responseTo_isSome_iff batch).mp
              (by simp [hresponse])
            have hge := hr.1 record hrecord hwants
            have hless := hlt record hrecord
            omega

/-- Where a watcher stands after the batches of a run. -/
structure Delivered (batches : List (List RevisionEvent)) (w : Watcher) : Prop where
  attached : w.ended = false
  waiting : w.connecting = !w.connected
  silent : w.connected = false → w.received = []
  within : w.connected = true → w.connectedAt ≤ batches.length
  received : w.connected = true → w.compacted = none →
    w.received = w.replayed batches ++ (batches.drop w.connectedAt).filterMap w.responseTo

/-- A publication reaches the connected watchers. -/
theorem Delivered.publish {batches : List (List RevisionEvent)} {w : Watcher}
    (h : w.Delivered batches) {records : List RevisionEvent} (hspelled : ∀ r ∈ records, Spelled r) :
    ((FakeState.batches records).foldl handleMany w).Delivered (batches ++ [records]) := by
  cases hconnected : w.connected with
  | false =>
    have hsame : (FakeState.batches records).foldl handleMany w = w := by
      unfold FakeState.batches
      split
      · rfl
      · simp [handleMany, hconnected]
    rw [hsame]
    exact ⟨h.attached, h.waiting, h.silent, by simp [hconnected], by simp [hconnected]⟩
  | true =>
    have hstep : (FakeState.batches records).foldl handleMany w
        = w.receive (w.responseTo records).toList := by
      unfold FakeState.batches
      split
      · rename_i hnil
        simp [hnil]
      · simp only [List.foldl_cons, List.foldl_nil]
        exact handleMany_of_spelled hconnected h.attached hspelled
    have hwithin := h.within hconnected
    rw [hstep]
    refine ⟨h.attached, h.waiting, by simp [hconnected], fun _ => ?_, fun _ hlive => ?_⟩
    · simp only [receive_connectedAt, List.length_append]
      exact Nat.le_add_right_of_le hwithin
    · rw [receive_received, h.received hconnected hlive, receive_replayed, receive_responseTo,
        receive_connectedAt, w.replayed_append hwithin, List.drop_append_of_le_length hwithin,
        List.filterMap_append, List.append_assoc]
      congr 2

/-- A request that publishes nothing leaves the watchers where they
stood. -/
theorem Delivered.quiet {batches : List (List RevisionEvent)} {w : Watcher}
    (h : w.Delivered batches) : w.Delivered (batches ++ [[]]) :=
  h.publish (show ∀ r ∈ ([] : List RevisionEvent), Spelled r by simp)

/-- A run of replayed entries. -/
theorem foldl_handleMany : ∀ {w : Watcher} (entries : List (Nat × List RevisionEvent)),
    w.connected = true → w.ended = false → (∀ e ∈ entries, ∀ r ∈ e.2, Spelled r) →
    entries.foldl (fun w e => w.handleMany e.2) w
      = w.receive (entries.filterMap fun e => w.responseTo e.2)
  | w, [], _, _, _ => by simp
  | w, e :: rest, hconnected, hended, h => by
      rw [List.foldl_cons, handleMany_of_spelled hconnected hended (h e List.mem_cons_self),
        foldl_handleMany rest (by simpa using hconnected) (by simpa using hended)
          fun e' he' => h e' (List.mem_cons_of_mem _ he'),
        receive_receive, receive_responseTo, List.filterMap_cons]
      cases w.responseTo e.2 <;> simp

end Watcher

/-! ## Every reachable hub -/

/-- What holds of a hub in every run. -/
structure HubInv (h : Hub locale) : Prop where
  events : EventsKept h.traced.store h.traced.batches
  keys : h.traced.store.KeysWellFormed
  spelled : ∀ batch ∈ h.traced.batches, ∀ r ∈ batch, Watcher.Spelled r
  uniform : ∀ batch ∈ h.traced.batches, Watcher.Uniform batch
  delivered : ∀ w ∈ h.watchers, w.Delivered h.traced.batches

theorem hubInv_initial (locale : Locale) (retainedRevisions : Nat) :
    HubInv { traced := Traced.initial locale retainedRevisions, watchers := [], nextWatchId := 0 } where
  events := ⟨by simp [Traced.initial, FakeState.initial, SortedMap.empty], rfl⟩
  keys := by simp [FakeState.KeysWellFormed, Traced.initial, FakeState.initial, SortedMap.empty]
  spelled := by simp [Traced.initial]
  uniform := by simp [Traced.initial]
  delivered := by simp

theorem hubInv_write {h : Hub locale} (hinv : HubInv h) {request : WriteRequest}
    (hquiet : h.traced.store.Quiet request) (hwell : h.traced.store.WellSpelled request) :
    HubInv (h.exec (.request (.write request))) := by
  have hspelled := FakeState.spelled_execWrite hinv.keys hquiet hwell
  constructor
  · exact eventsKept_execWrite hinv.events request
  · exact FakeState.keysWellFormed_execWrite hinv.keys hspelled
  · intro batch hbatch
    rcases List.mem_append.mp hbatch with hbatch | hbatch
    · exact hinv.spelled batch hbatch
    · rw [List.mem_singleton.mp hbatch]
      exact hspelled
  · intro batch hbatch
    rcases List.mem_append.mp hbatch with hbatch | hbatch
    · exact hinv.uniform batch hbatch
    · obtain ⟨base, -, -, hrevision⟩ := h.traced.store.execWrite_effect request
      rw [List.mem_singleton.mp hbatch]
      exact fun x hx y hy => (hrevision x hx).trans (hrevision y hy).symm
  · intro w hw
    obtain ⟨before, hbefore, rfl⟩ := List.mem_map.mp hw
    rw [Hub.published, FakeState.published_of_quiet hquiet]
    exact (hinv.delivered before hbefore).publish hspelled

theorem hubInv_compact {h : Hub locale} (hinv : HubInv h) (requested : Int) :
    HubInv (h.exec (.request (.compact requested))) := by
  constructor
  · exact eventsKept_compact hinv.events requested
  · have hkeys := hinv.keys
    unfold FakeState.KeysWellFormed at hkeys ⊢
    simp only [Hub.exec, Traced.exec]
    rwa [FakeState.compact_histories]
  · intro batch hbatch
    rcases List.mem_append.mp hbatch with hbatch | hbatch
    · exact hinv.spelled batch hbatch
    · simp [List.mem_singleton.mp hbatch]
  · intro batch hbatch
    rcases List.mem_append.mp hbatch with hbatch | hbatch
    · exact hinv.uniform batch hbatch
    · simp [Watcher.Uniform, List.mem_singleton.mp hbatch]
  · intro w hw
    obtain ⟨before, hbefore, rfl⟩ := List.mem_map.mp hw
    exact (hinv.delivered before hbefore).quiet

/-- The entries replay starts with. -/
theorem entriesFrom_eq_above (m : SortedMap (compare : Nat → Nat → Ordering) (List RevisionEvent))
    {start : Nat} (hstart : 0 < start) : m.entriesFrom start = above (start - 1) m.items := by
  rw [SortedMap.entriesFrom_eq, above]
  refine List.filter_congr fun e _ => ?_
  by_cases hlt : e.1 < start
  · have hnot : ¬ start - 1 < e.1 := by omega
    simp [before, Nat.compare_eq_lt.mpr hlt, hnot]
  · have hgt : start - 1 < e.1 := by omega
    have hne : compare e.1 start ≠ .lt := fun hc => hlt (Nat.compare_eq_lt.mp hc)
    simp [before, hne, hgt]

/-- The microtask delivers what has been recorded from the start revision
on. -/
theorem delivered_connectWatcher {h : Hub locale} (hinv : HubInv h) {w : Watcher}
    (hw : w ∈ h.watchers) (hconnecting : w.connecting = true) :
    (h.connectWatcher w).Delivered h.traced.batches := by
  have hdelivered := hinv.delivered w hw
  have hsilent : w.received = [] := by
    refine hdelivered.silent ?_
    have hwaiting := hdelivered.waiting
    rw [hconnecting] at hwaiting
    simpa using hwaiting.symm
  unfold Hub.connectWatcher
  cases hstart : w.options.start with
  | none =>
    refine ⟨hdelivered.attached, rfl, by simp, fun _ => Nat.le_refl _, fun _ _ => ?_⟩
    simp [Watcher.replayed, hstart, hsilent]
  | some start =>
    have hpos : 0 < start := by
      simp only [WatchOptions.start, Option.bind_eq_some_iff] at hstart
      obtain ⟨s, -, hs⟩ := hstart
      split at hs
      · cases hs
      · cases hs; omega
    cases hcompacted : h.traced.store.compactedRevisionForRange start with
    | some compactRevision =>
      simp only [hcompacted]
      exact ⟨hdelivered.attached, rfl, by simp, fun _ => Nat.le_refl _, by simp⟩
    | none =>
      have hmark : h.traced.store.compactedRevision ≤ start - 1 := by
        unfold FakeState.compactedRevisionForRange at hcompacted
        split at hcompacted
        · omega
        · split at hcompacted
          · cases hcompacted
          · omega
      have hentries : h.traced.store.history.entriesFrom start
          = above (start - 1) (h.traced.batches.filterMap entryOf) := by
        rw [entriesFrom_eq_above _ hpos]
        exact above_of_le hinv.events.kept hmark
      simp only [hcompacted, hentries]
      rw [Watcher.foldl_handleMany (w := w.connect h.traced.batches.length) _ rfl
        hdelivered.attached]
      · refine ⟨hdelivered.attached, rfl, by simp, fun _ => Nat.le_refl _, fun _ _ => ?_⟩
        rw [Watcher.filterMap_entries _ hpos hinv.uniform]
        simp [Watcher.replayed, hstart, hsilent]
      · intro e he r hr
        obtain ⟨batch, hbatch, hentry⟩ := List.mem_filterMap.mp (List.mem_filter.mp he).1
        obtain ⟨record, -, rfl⟩ := Option.map_eq_some_iff.mp hentry
        exact hinv.spelled batch hbatch r hr

theorem hubInv_exec {h : Hub locale} (hinv : HubInv h) {l : HubStep} (hok : h.Faithful l) :
    HubInv (h.exec l) := by
  cases l with
  | request request =>
    cases request with
    | write request => exact hubInv_write hinv hok.1 hok.2
    | compact requested => exact hubInv_compact hinv requested
  | watch ns options =>
    simp only [Hub.exec]
    split
    · refine { hinv with delivered := fun w hw => ?_ }
      rcases List.mem_append.mp hw with hw | hw
      · exact hinv.delivered w hw
      · rw [List.mem_singleton.mp hw]
        exact ⟨rfl, rfl, fun _ => rfl, by simp, by simp⟩
    · exact hinv
  | connect watchId =>
    refine { hinv with delivered := fun w hw => ?_ }
    obtain ⟨before, hbefore, rfl⟩ := List.mem_map.mp hw
    split
    · rename_i hid
      exact delivered_connectWatcher hinv hbefore hid.2
    · exact hinv.delivered before hbefore
  | expire watchId =>
    exact { hinv with delivered := fun w hw => hinv.delivered w (List.mem_filter.mp hw).1 }
  | cancel watchId =>
    exact { hinv with delivered := fun w hw => hinv.delivered w (List.mem_filter.mp hw).1 }

theorem hubInv_of_reach {h : Hub locale} (hreach : ((watching locale).guarded Hub.Faithful).Reach h) :
    HubInv h := by
  refine hreach.invariant (P := HubInv) ?_ ?_
  · rintro _ ⟨retainedRevisions, rfl⟩
    exact hubInv_initial locale retainedRevisions
  · rintro h l _ - hinv ⟨rfl, hok⟩
    exact hubInv_exec hinv hok

/-- What a watcher should have received: the events from its start
revision on, or those since it connected, a response a request. -/
def Hub.expected (h : Hub locale) (w : Watcher) : List WatchResponse :=
  match w.options.start with
  | none => (h.traced.batches.drop w.connectedAt).filterMap w.responseTo
  | some start => h.traced.batches.filterMap (w.responseFrom start)

theorem traced_reach {h : Hub locale} (hreach : (watching locale).Reach h) :
    (requests locale).Reach h.traced := by
  refine hreach.invariant (P := fun h => (requests locale).Reach h.traced) ?_ ?_
  · rintro _ ⟨retainedRevisions, rfl⟩
    exact .start ⟨retainedRevisions, rfl⟩
  · rintro h l _ - htraced rfl
    cases l with
    | request request => exact htraced.step (l := request) rfl
    | watch ns options =>
      simp only [Hub.exec]
      split <;> exact htraced
    | connect _ => exact htraced
    | expire _ => exact htraced
    | cancel _ => exact htraced

/-- **What a watcher receives.** In every run of faithful steps the
requests ascend in revision, and a connected watcher whose start was not
compacted has received exactly what it should, when nothing it wants was
published below its start revision since it connected, and only then. -/
theorem watchers_exact {h : Hub locale}
    (hreach : ((watching locale).guarded Hub.Faithful).Reach h) {w : Watcher}
    (hw : w ∈ h.watchers) (hconnected : w.connected = true) (hlive : w.compacted = none) :
    h.traced.batches.Pairwise (fun a b => ∀ x ∈ a, ∀ y ∈ b, x.revision < y.revision)
      ∧ (w.received = h.expected w ↔
        ∀ start ∈ w.options.start, ∀ record ∈ (h.traced.batches.drop w.connectedAt).flatten,
          w.wants record = true → start ≤ record.revision) := by
  have hinv := hubInv_of_reach hreach
  refine ⟨(batches_ascend (traced_reach hreach.of_guarded)).2, ?_⟩
  rw [(hinv.delivered w hw).received hconnected hlive]
  unfold Hub.expected Watcher.replayed
  cases hstart : w.options.start with
  | none => simp
  | some start =>
    have huniform : ∀ b ∈ h.traced.batches.drop w.connectedAt, Watcher.Uniform b :=
      fun b hb => hinv.uniform b (List.drop_subset _ _ hb)
    have hsplit : h.traced.batches.filterMap (w.responseFrom start)
        = (h.traced.batches.take w.connectedAt).filterMap (w.responseFrom start)
          ++ (h.traced.batches.drop w.connectedAt).filterMap (w.responseFrom start) := by
      rw [← List.filterMap_append, List.take_append_drop]
    simp only [hsplit, List.append_right_inj, w.filterMap_responseFrom_iff start huniform]
    simp

/-- A watcher of "a" from revision 1 connects, then "a" is put. -/
def watchedPut (start : Int) : List HubStep :=
  [.watch [] { key := js "a", rangeEnd := [], startRevision := some start }, .connect 0,
    .request (FakeState.putText "a" "1")]

/-- The hub after steps from a new store. -/
def hubAfter (steps : List HubStep) : Hub rootLocale :=
  steps.foldl Hub.exec
    { traced := Traced.initial rootLocale 3, watchers := [], nextWatchId := 0 }

/-- Watched from revision 1, the put is received. -/
theorem watchers_exact_after_put :
    ((hubAfter (watchedPut 1)).watchers.head (by decide)).received
      = (hubAfter (watchedPut 1)).expected ((hubAfter (watchedPut 1)).watchers.head (by decide)) := by
  have h0 : ((watching rootLocale).guarded Hub.Faithful).Reach (hubAfter []) := .start ⟨3, rfl⟩
  have h1 := h0.step (l := HubStep.watch [] { key := js "a", rangeEnd := [], startRevision := some 1 })
    ⟨rfl, trivial⟩
  have h2 := h1.step (l := HubStep.connect 0) ⟨rfl, trivial⟩
  have h3 := h2.step (l := HubStep.request (FakeState.putText "a" "1")) ⟨rfl, trivial, fun _ => by decide⟩
  exact (watchers_exact (h := hubAfter (watchedPut 1)) h3 (List.head_mem _) (by decide)
    (by decide)).2.mpr (by decide)

/-- A watcher that starts at revision 5 receives the event of revision
1. -/
theorem watchedPut_not_expected :
    (watching rootLocale).Reach (hubAfter (watchedPut 5)) ∧
      ∃ w ∈ (hubAfter (watchedPut 5)).watchers, w.connected = true ∧ w.ended = false
        ∧ w.compacted = none ∧ w.received ≠ (hubAfter (watchedPut 5)).expected w := by
  refine ⟨?_, by decide⟩
  have h0 : (watching rootLocale).Reach (hubAfter []) := .start ⟨3, rfl⟩
  have h1 := h0.step (l := HubStep.watch [] { key := js "a", rangeEnd := [], startRevision := some 5 }) rfl
  have h2 := h1.step (l := HubStep.connect 0) rfl
  exact h2.step (l := HubStep.request (FakeState.putText "a" "1")) rfl

end Webernetes.Etcd
