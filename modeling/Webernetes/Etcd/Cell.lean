/-
Webernetes.Etcd.Cell — one key of the store at a time.

The locks and the object store use the etcd one key at a time: a read of
the key, a put or a delete of it, and transactions that compare the key
first. This module says what each of these does to the key, in every
reachable store and whatever the collation takes for the same key, so
that the protocols on top never open a history.

`current s key` is what the store finds under a key: the value in force
in the history of the key's collation class, which `live s key` narrows
to values put under this very string. `WellKept` is what every reachable
store keeps of its histories. On it a read answers with `live`, a delete
matches `live`, and a request changes `current` only through its records
(`current_appendRecord`).
-/
import Webernetes.Etcd.Versions

namespace Webernetes.Etcd

open Js Base
open FakeState (recordRevision)

variable {locale : Locale}

namespace FakeState

/-! ## What is found under a key -/

/-- The value in force under a key, as comparisons and puts find it. -/
def current (s : FakeState locale) (key : JsString) : Option StoredValue :=
  currentValue (s.revisionsOf key)

theorem live_eq (s : FakeState locale) (key : JsString) :
    s.live key = (s.current key).filter fun value => value.key = key := rfl

theorem current_congr (s : FakeState locale) {key key' : JsString} (h : locale.Same key key') :
    s.current key = s.current key' := by
  have hget : s.histories.get key = s.histories.get key' := by
    refine Option.ext fun revisions => ?_
    rw [SortedMap.get_eq_some_iff, SortedMap.get_eq_some_iff]
    exact ⟨fun ⟨k, hk, hc⟩ => ⟨k, hk, Locale.Same.trans hc h⟩,
      fun ⟨k, hk, hc⟩ => ⟨k, hk, Locale.Same.trans hc h.symm⟩⟩
  rw [current, current, revisionsOf, revisionsOf, hget]

@[simp] theorem current_bumpRevision (s : FakeState locale) (key : JsString) :
    s.bumpRevision.current key = s.current key := rfl

@[simp] theorem current_compact (s : FakeState locale) (requested : Int) (key : JsString) :
    (s.compact requested).state.current key = s.current key := by
  rw [current, current, revisionsOf, revisionsOf, compact_histories]

/-- What a record leaves under its key. -/
def recordValue (record : RevisionEvent) : Option StoredValue :=
  if record.event.type = .put then some (recordRevision record).stored else none

/-- A record replaces what is found under the keys the collation takes
for its own, and nothing else. -/
theorem current_appendRecord (s : FakeState locale) (record : RevisionEvent) (key : JsString) :
    (s.appendRecord record).current key
      = if locale.Same record.key key then recordValue record else s.current key := by
  unfold current revisionsOf appendRecord appendRevision
  rw [SortedMap.get_set]
  by_cases hsame : locale.Same record.key key
  · rw [if_pos hsame, if_pos (show locale.localeCompare record.key key = .eq from hsame),
      Option.getD_some, currentValue, SameCurrent.getLast?_trimmed]
    unfold recordValue recordRevision
    cases record.event.type <;> simp
  · rw [if_neg hsame, if_neg (show ¬ locale.localeCompare record.key key = .eq from hsame)]

theorem current_appendRecords_of_other (s : FakeState locale) {records : List RevisionEvent}
    {key : JsString} (h : ∀ record ∈ records, ¬ locale.Same record.key key) :
    (s.appendRecords records).current key = s.current key := by
  induction records generalizing s with
  | nil => rfl
  | cons record records ih =>
    rw [appendRecords_cons, ih _ fun r hr => h r (List.mem_cons_of_mem _ hr),
      current_appendRecord, if_neg (h record List.mem_cons_self)]

/-- A request that appends nothing under the key leaves it as it is. -/
theorem current_execWrite_of_other (s : FakeState locale) {request : WriteRequest} {key : JsString}
    (h : ∀ record ∈ (s.execWrite request).records, ¬ locale.Same record.key key) :
    (s.execWrite request).state.current key = s.current key := by
  obtain ⟨base, hbase, hstate, -⟩ := execWrite_effect s request
  rw [hstate, current_appendRecords_of_other base h]
  rcases hbase with rfl | ⟨rfl, -⟩
  · exact current_bumpRevision s key
  · rfl

/-- What is found of an older revision than the records was there before. -/
theorem current_appendRecords_of_old {records : List RevisionEvent} {bound : Nat}
    (hrecords : ∀ record ∈ records, bound < record.revision) {key : JsString} {value : StoredValue} :
    ∀ {s : FakeState locale}, (s.appendRecords records).current key = some value →
      value.modRevision ≤ bound → s.current key = some value := by
  induction records with
  | nil => exact fun h _ => h
  | cons record records ih =>
    intro s h hle
    have hold := ih (fun r hr => hrecords r (List.mem_cons_of_mem _ hr)) h hle
    rw [current_appendRecord] at hold
    split at hold
    · unfold recordValue at hold
      split at hold
      · cases hold
        exact absurd hle (Nat.not_le_of_lt (hrecords record List.mem_cons_self))
      · cases hold
    · exact hold

/-- A request leaves under every key what was there, or something new. -/
theorem current_execWrite_of_old (s : FakeState locale) {request : WriteRequest} {key : JsString}
    {value : StoredValue} (h : (s.execWrite request).state.current key = some value)
    (hle : value.modRevision ≤ s.revision) : s.current key = some value := by
  obtain ⟨base, hbase, hstate, hrevision⟩ := execWrite_effect s request
  rw [hstate] at h
  rcases hbase with rfl | ⟨rfl, hnone⟩
  · have hnew : ∀ record ∈ (s.execWrite request).records, s.revision < record.revision := by
      intro record hrecord
      rw [hrevision record hrecord]
      exact Nat.lt_succ_self _
    exact (current_bumpRevision s key).symm.trans (current_appendRecords_of_old hnew h hle)
  · rw [hnone] at h
    exact h

/-! ## Histories in every reachable store -/

/-- A record with counters, as every put and every delete of a live value
has them. -/
def Counted (record : RevisionEvent) : Prop :=
  0 < record.event.kv.createRevision ∧ 0 < record.event.kv.version

/-- Every history is of the past, and its last revision is the key's own
and has its counters. -/
structure WellKept (s : FakeState locale) : Prop where
  past : ∀ key revisions, (key, revisions) ∈ s.histories.items →
    ∀ r ∈ revisions, 0 < r.modRevision ∧ r.modRevision ≤ s.revision
  last : ∀ key revisions, (key, revisions) ∈ s.histories.items →
    ∀ r, revisions.getLast? = some r → r.key = key ∧ 0 < r.createRevision ∧ 0 < r.version

/-- What holds of a value found in a well-kept store. -/
structure Found (s : FakeState locale) (key : JsString) (value : StoredValue) : Prop where
  same : locale.Same value.key key
  createRevision_pos : 0 < value.createRevision
  modRevision_pos : 0 < value.modRevision
  modRevision_le : value.modRevision ≤ s.revision
  version_pos : 0 < value.version

theorem wellKept_initial (locale : Locale) (retainedRevisions : Nat) :
    (FakeState.initial locale retainedRevisions).WellKept where
  past := by simp [FakeState.initial, SortedMap.empty]
  last := by simp [FakeState.initial, SortedMap.empty]

namespace WellKept

variable {s : FakeState locale}

theorem currentValue_key (h : s.WellKept) {key : JsString} {revisions : List StoredRevision}
    (hitem : (key, revisions) ∈ s.histories.items) {value : StoredValue}
    (hvalue : currentValue revisions = some value) : value.key = key := by
  unfold currentValue at hvalue
  split at hvalue
  · cases hvalue
  · rename_i last hlast
    split at hvalue
    · cases hvalue
    · cases hvalue
      exact (h.last key revisions hitem last hlast).1

theorem found (h : s.WellKept) {key : JsString} {value : StoredValue}
    (hvalue : s.current key = some value) : s.Found key value := by
  unfold current revisionsOf at hvalue
  cases hget : s.histories.get key with
  | none => simp [hget, currentValue] at hvalue
  | some revisions =>
    rw [hget, Option.getD_some] at hvalue
    obtain ⟨k, hitem, hsame⟩ := SortedMap.get_eq_some_iff.mp hget
    unfold currentValue at hvalue
    split at hvalue
    · cases hvalue
    · rename_i last hlast
      split at hvalue
      · cases hvalue
      · cases hvalue
        obtain ⟨hkey, hcreate, hversion⟩ := h.last k revisions hitem last hlast
        obtain ⟨hpos, hle⟩ := h.past k revisions hitem last (List.mem_of_getLast? hlast)
        exact ⟨show locale.Same last.key key from hkey ▸ hsame, hcreate, hpos, hle, hversion⟩

theorem live_eq_some_iff {key : JsString} {value : StoredValue} :
    s.live key = some value ↔ s.current key = some value ∧ value.key = key := by
  rw [live_eq, Option.filter_eq_some_iff]
  simp

theorem live_of_mem (h : s.WellKept) {key : JsString} {revisions : List StoredRevision}
    (hitem : (key, revisions) ∈ s.histories.items) : s.live key = currentValue revisions := by
  rw [live_eq, current, revisionsOf_of_mem hitem]
  cases hvalue : currentValue revisions with
  | none => rfl
  | some value => simp [h.currentValue_key hitem hvalue]

theorem live_of_not_mem (h : s.WellKept) {key : JsString} (hkey : key ∉ s.histories.keys) :
    s.live key = none := by
  rw [Option.eq_none_iff_forall_not_mem]
  intro value hvalue
  obtain ⟨hcurrent, hvaluekey⟩ := live_eq_some_iff.mp hvalue
  unfold current revisionsOf at hcurrent
  cases hget : s.histories.get key with
  | none => simp [hget, currentValue] at hcurrent
  | some revisions =>
    rw [hget, Option.getD_some] at hcurrent
    obtain ⟨k, hitem, -⟩ := SortedMap.get_eq_some_iff.mp hget
    have hk : k = key := (h.currentValue_key hitem hcurrent).symm.trans hvaluekey
    exact hkey (mem_keys.mpr ⟨revisions, hk ▸ hitem⟩)

/-- A scan for one key meets what is live under it. -/
theorem filterMap_single (h : s.WellKept) (key : JsString)
    {f : List StoredRevision → Option StoredValue}
    (hf : ∀ item ∈ s.histories.items, f item.2 = currentValue item.2) :
    (iterateRange s.histories key []).filterMap (fun entry => f entry.2)
      = (s.live key).toList := by
  have hmem : ∀ item, item ∈ s.histories.items.filter (fun entry => entry.1 = key) ↔
      item ∈ s.histories.items ∧ item.1 = key := fun item => by simp
  rw [iterateRange_single,
    List.filterMap_congr fun item hitem => hf item ((hmem item).mp hitem).1]
  have hlength := length_filter_key_le_one s.histories key
  cases hscan : s.histories.items.filter fun entry => entry.1 = key with
  | nil =>
    rw [h.live_of_not_mem]
    · rfl
    · intro hkey
      obtain ⟨revisions, hitem⟩ := mem_keys.mp hkey
      have hfound := (hmem _).mpr ⟨hitem, rfl⟩
      rw [hscan] at hfound
      cases hfound
  | cons item rest =>
    rw [hscan] at hlength
    obtain rfl : rest = [] := List.eq_nil_of_length_eq_zero (by simpa using hlength)
    obtain ⟨hitem, rfl⟩ := (hmem item).mp (by rw [hscan]; exact List.mem_cons_self)
    rw [h.live_of_mem hitem, List.filterMap_cons]
    cases currentValue item.2 <;> rfl

/-- A delete of one key matches what is live under it. -/
theorem matched_single (h : s.WellKept) (ns : JsString) {options : DeleteOptions}
    (hend : options.rangeEnd = []) :
    s.matched ns options = (s.live (namespacedKey ns options.key)).toList := by
  unfold matched
  rw [hend, namespacedRangeEnd_nil]
  exact h.filterMap_single _ fun _ _ => rfl

/-- The values a read of one key finds. -/
theorem rangeValues_single (h : s.WellKept) (ns : JsString) {options : RangeOptions}
    (hend : options.rangeEnd = []) (hpass : ∀ value, passesRangeFilters value options = true) :
    s.rangeValues ns options s.revision = (s.live (namespacedKey ns options.key)).toList := by
  have hscan := h.filterMap_single (namespacedKey ns options.key)
    (f := fun revisions => resolveStoredValueAt revisions s.revision)
    fun item hitem => resolveStoredValueAt_of_le fun r hr => (h.past item.1 item.2 hitem r hr).2
  simp only [rangeValues, hend, namespacedRangeEnd_nil, hscan]
  cases s.live (namespacedKey ns options.key) with
  | none => rfl
  | some value => simp [hpass, SortedMap.items_set, SortedMap.empty]

/-- `get(key)` asks for one value at most, and there is no more than one. -/
theorem range_get (h : s.WellKept) {key : JsString} (hkey : key ≠ []) :
    ∃ response, s.range [] { key, rangeEnd := [], limit := 1 } = .ok response
      ∧ response.header.revision = s.revision
      ∧ response.kvs = (s.live key).toList.map fun value => toPublicKv value [] false := by
  refine ⟨_, range_current (.inl hkey) (by simp [Current]) [], rfl, ?_⟩
  have hvalues : s.rangeValues [] { key, rangeEnd := [], limit := 1 } s.revision
      = (s.live (namespacedKey [] key)).toList :=
    h.rangeValues_single [] rfl fun value => by simp [passesRangeFilters]
  rw [namespacedKey_nil] at hvalues
  cases hlive : s.live key <;> simp [rangeResponse, hvalues, hlive]

/-! ### Every request keeps it -/

theorem bumpRevision (h : s.WellKept) : s.bumpRevision.WellKept where
  past := fun key revisions hitem r hr =>
    ⟨(h.past key revisions hitem r hr).1, Nat.le_succ_of_le (h.past key revisions hitem r hr).2⟩
  last := h.last

theorem appendRecord (h : s.WellKept) {record : RevisionEvent} (hcounted : Counted record)
    (hpos : 0 < record.revision) (hle : record.revision ≤ s.revision) :
    (s.appendRecord record).WellKept := by
  have hlast := SameCurrent.getLast?_trimmed s record.key (recordRevision record)
  obtain ⟨dropped, hsplit, -⟩ := trimRevisions_spec s.retainedRevisions s.retained_pos
    (s.revisionsOf record.key ++ [recordRevision record]) s.compactedRevision
  have hold : ∀ r ∈ s.revisionsOf record.key, 0 < r.modRevision ∧ r.modRevision ≤ s.revision := by
    unfold revisionsOf
    cases hget : s.histories.get record.key with
    | none => simp
    | some revisions =>
      obtain ⟨k, hitem, -⟩ := SortedMap.get_eq_some_iff.mp hget
      exact h.past k revisions hitem
  constructor
  · intro key revisions hitem r hr
    rcases SortedMap.mem_set_iff.mp hitem with hnew | ⟨hitem, -⟩
    · cases hnew
      have hmem : r ∈ s.revisionsOf record.key ++ [recordRevision record] := by
        rw [← hsplit]
        exact List.mem_append_right _ hr
      rcases List.mem_append.mp hmem with hmem | hmem
      · exact hold r hmem
      · obtain rfl := List.mem_singleton.mp hmem
        exact ⟨hpos, hle⟩
    · exact h.past key revisions hitem r hr
  · intro key revisions hitem r hr
    rcases SortedMap.mem_set_iff.mp hitem with hnew | ⟨hitem, -⟩
    · cases hnew
      rw [hlast] at hr
      cases hr
      exact ⟨rfl, hcounted⟩
    · exact h.last key revisions hitem r hr

theorem appendRecords {records : List RevisionEvent} : ∀ {s : FakeState locale}, s.WellKept →
    (∀ record ∈ records, Counted record ∧ 0 < record.revision ∧ record.revision ≤ s.revision) →
    (s.appendRecords records).WellKept := by
  induction records with
  | nil => exact fun h _ => h
  | cons record records ih =>
    intro s h hrecords
    obtain ⟨hcounted, hpos, hle⟩ := hrecords record List.mem_cons_self
    exact ih (h.appendRecord hcounted hpos hle) fun r hr => hrecords r (List.mem_cons_of_mem _ hr)

theorem counted_put (h : s.WellKept) (options : PutOptions) (key : JsString) {revision : Nat}
    (hpos : 0 < revision) :
    Counted (putRecord (s.current key) (putValue (s.current key) options key revision)) := by
  refine ⟨?_, Nat.succ_pos _⟩
  cases hcurrent : s.current key with
  | none => exact hpos
  | some value => exact (h.found hcurrent).createRevision_pos

theorem counted_delete (h : s.WellKept) {ns : JsString} {options : DeleteOptions}
    {value : StoredValue} (hvalue : value ∈ s.matched ns options) (revision : Nat) :
    Counted (deleteRecord value revision) := by
  obtain ⟨⟨key, revisions⟩, hitem, hcurrent⟩ := List.mem_filterMap.mp hvalue
  have hfound : s.Found key value := h.found (by
    rw [current, revisionsOf_of_mem (mem_iterateRange hitem).1, hcurrent])
  exact ⟨hfound.createRevision_pos, hfound.version_pos⟩

theorem counted_opRecords (h : s.WellKept) {revision : Nat} (hpos : 0 < revision)
    (op : RequestOp) : ∀ record ∈ s.opRecords revision op, Counted record := by
  intro record hrecord
  unfold opRecords at hrecord
  split at hrecord
  · cases hrecord
  · rw [List.mem_singleton.mp hrecord]
    exact h.counted_put _ _ hpos
  · obtain ⟨value, hvalue, rfl⟩ := List.mem_map.mp hrecord
    exact h.counted_delete hvalue revision
  · cases hrecord

theorem counted_branchRecords {revision : Nat} (hpos : 0 < revision) : ∀ (ops : List RequestOp)
    {s : FakeState locale}, s.WellKept → revision ≤ s.revision →
    ∀ record ∈ branchRecords revision s ops, Counted record
  | [], _, _, _, _, hrecord => by simp [branchRecords] at hrecord
  | op :: rest, s, h, hle, record, hrecord => by
      rw [branchRecords, List.mem_append] at hrecord
      have hop := h.counted_opRecords hpos op
      rcases hrecord with hrecord | hrecord
      · exact hop record hrecord
      · refine counted_branchRecords hpos rest (h.appendRecords fun r hr => ?_) (by simpa) record
          hrecord
        have hrev := opRecords_revision s revision op r hr
        exact ⟨hop r hr, by omega, by omega⟩

theorem counted_execWrite (h : s.WellKept) (request : WriteRequest) :
    ∀ record ∈ (s.execWrite request).records, Counted record := by
  intro record hrecord
  cases request with
  | put ns options =>
    by_cases hvalid : s.PutValid ns options
    · simp only [execWrite, Outcome.map, put_of_valid s ns options hvalid,
        List.mem_singleton] at hrecord
      rw [hrecord]
      exact h.counted_put _ _ (Nat.succ_pos _)
    · simp [execWrite, Outcome.map, put_of_not_valid s ns options hvalid] at hrecord
  | delete ns options =>
    by_cases hvalid : RangeValid options.key options.rangeEnd
    · by_cases hmatch : s.matched ns options = []
      · simp [execWrite, Outcome.map, delete_of_valid s ns options hvalid, hmatch] at hrecord
      · simp only [execWrite, Outcome.map, delete_of_valid s ns options hvalid, if_neg hmatch,
          List.mem_map] at hrecord
        obtain ⟨value, hvalue, rfl⟩ := hrecord
        exact h.counted_delete hvalue _
    · simp [execWrite, Outcome.map, delete_of_not_valid s ns options hvalid] at hrecord
  | txn request =>
    simp only [execWrite, Outcome.map] at hrecord
    rcases txn_effect s request with ⟨-, hnone⟩ | ⟨-, done, hdone, -, hrecords, -⟩
    · simp [hnone] at hrecord
    · rw [hrecords] at hrecord
      by_cases hwrite : (s.chosenOperations request).any isWrite = true
      · rw [txnStart_revision_of_write s hwrite] at hrecord
        exact counted_branchRecords (Nat.succ_pos _) done h.bumpRevision (Nat.le_refl _) record hrecord
      · have hnone := any_isWrite_of_prefix hdone (by simpa using hwrite)
        rw [branchRecords_of_not_write _ _ _ hnone] at hrecord
        cases hrecord

theorem execWrite (h : s.WellKept) (request : WriteRequest) :
    (s.execWrite request).state.WellKept := by
  obtain ⟨base, hbase, hstate, hrevision⟩ := execWrite_effect s request
  have hcounted := h.counted_execWrite request
  rw [hstate]
  rcases hbase with rfl | ⟨rfl, hnone⟩
  · refine h.bumpRevision.appendRecords fun record hrecord => ?_
    have hrev := hrevision record hrecord
    exact ⟨hcounted record hrecord, by simp [hrev], by simp [hrev]⟩
  · simpa [hnone] using h

theorem compact (h : s.WellKept) (requested : Int) : (s.compact requested).state.WellKept := by
  constructor
  · intro key revisions hitem
    rw [compact_histories] at hitem
    rw [compact_revision]
    exact h.past key revisions hitem
  · intro key revisions hitem
    rw [compact_histories] at hitem
    exact h.last key revisions hitem

end WellKept

/-! ## Transactions that compare one key first -/

theorem assertTxnWriteRangesValid_singleton (op : RequestOp) :
    assertTxnWriteRangesValid [op] = .ok () := by
  unfold assertTxnWriteRangesValid assertWriteRangesLoop
  cases writeRange op <;> rfl

variable (s : FakeState locale) {clause : Compare}

/-- The comparison fails: nothing happens. -/
theorem txn_refused (h : s.evaluateCompare clause = false) (op : RequestOp) :
    s.txn { compare := [clause], success := [op] } =
      { result := .ok { header := s.header s.revision, succeeded := false, responses := [] }
        state := s, records := [], published := [] } := by
  simp [txn, chosenOperations, h, assertTxnWriteRangesValid, assertWriteRangesLoop, txnStart,
    txnLoop, header]

/-- The comparison holds: the put is made at the next revision. -/
theorem txn_put (h : s.evaluateCompare clause = true) {options : PutOptions}
    (hvalid : s.PutValid [] options) :
    let record := putRecord (s.current options.key)
      (putValue (s.current options.key) options options.key (s.revision + 1))
    ∃ responses, s.txn { compare := [clause], success := [{ requestPut := some options }] } =
      { result := .ok { header := s.header (s.revision + 1), succeeded := true, responses }
        state := s.bumpRevision.appendRecord record
        records := [record]
        published := [[record]] } := by
  have hchosen : s.chosenOperations { compare := [clause], success := [{ requestPut := some options }] }
      = [{ requestPut := some options }] := by simp [chosenOperations, h]
  have hwrite : s.txnStart [{ requestPut := some options }] = s.bumpRevision :=
    txnStart_revision_of_write s rfl
  have hops : OpsValid s.bumpRevision.revision s.bumpRevision [{ requestPut := some options }] :=
    ⟨hvalid, trivial⟩
  have htxn := txn_of_valid s _ (hchosen ▸ assertTxnWriteRangesValid_singleton _)
    (by rwa [hchosen, hwrite])
  simp only [hchosen, hwrite] at htxn
  exact ⟨branchResponses (s.revision + 1) s.bumpRevision [{ requestPut := some options }],
    htxn.trans (by simp [h, branchRecords, opRecords, header, current, batches])⟩

/-- The comparison holds, the put does not pass its checks: it throws
after the revision is taken. -/
theorem txn_put_of_not_valid (h : s.evaluateCompare clause = true) {options : PutOptions}
    (hvalid : ¬ s.PutValid [] options) :
    ∃ e, s.txn { compare := [clause], success := [{ requestPut := some options }] } =
      { result := .error e, state := s.bumpRevision, records := [], published := [] } := by
  have hput := applyPut_of_not_valid s.bumpRevision [] options (s.revision + 1) hvalid
  exact ⟨putError options, by
    simp [txn, chosenOperations, h, assertTxnWriteRangesValid_singleton, txnStart, isWrite, txnLoop,
      applyOp, hput]⟩

/-- The comparison holds: what is live under the key is deleted at the
next revision. -/
theorem txn_delete (hkept : s.WellKept) (h : s.evaluateCompare clause = true) {key : JsString}
    (hkey : key ≠ []) (prevKv : Bool) :
    let records := (s.live key).toList.map fun value => deleteRecord value (s.revision + 1)
    let options : DeleteOptions := { key, rangeEnd := [], prevKv }
    ∃ responses, s.txn { compare := [clause], success := [{ requestDeleteRange := some options }] } =
      { result := .ok { header := s.header (s.revision + 1), succeeded := true, responses }
        state := s.bumpRevision.appendRecords records
        records
        published := batches records } := by
  intro records options
  generalize hop : ({ requestDeleteRange := some options } : RequestOp) = op
  have hchosen : s.chosenOperations { compare := [clause], success := [op] } = [op] := by
    simp [chosenOperations, h]
  have hwrite : s.txnStart [op] = s.bumpRevision :=
    txnStart_revision_of_write s (by simp [isWrite, ← hop])
  have hops : OpsValid s.bumpRevision.revision s.bumpRevision [op] := by
    refine ⟨?_, trivial⟩
    rw [← hop]
    exact .inl hkey
  have hrecords : branchRecords (s.revision + 1) s.bumpRevision [op] = records := by
    have hmatched := hkept.bumpRevision.matched_single [] (show options.rangeEnd = [] from rfl)
    simp only [branchRecords, opRecords, ← hop, hmatched, List.append_nil]
    rfl
  have htxn := txn_of_valid s _ (hchosen ▸ assertTxnWriteRangesValid_singleton _)
    (by rwa [hchosen, hwrite])
  simp only [hchosen, hwrite] at htxn
  exact ⟨branchResponses (s.revision + 1) s.bumpRevision [op],
    htxn.trans (by simp [h, hrecords, header])⟩

end FakeState

/-- A comparison of the key looks at the key: what a buffer keeps of it is
the same key to the collation. -/
def Locale.Comparable (locale : Locale) (key : JsString) : Prop :=
  locale.Same (toWellFormed key) key

instance (locale : Locale) (key : JsString) : Decidable (locale.Comparable key) :=
  inferInstanceAs (Decidable (locale.Same _ _))

/-- A key without lone surrogates is comparable, whatever the collation. -/
theorem Locale.comparable_of_isWellFormed {locale : Locale} {key : JsString}
    (h : IsWellFormed key) : locale.Comparable key := by
  rw [Locale.Comparable, show toWellFormed key = key from h]
  exact locale.same_refl key

namespace FakeState

/-- What a comparison of a comparable key looks at. -/
theorem current_toString {s : FakeState locale} {key : JsString} (h : locale.Comparable key) :
    currentValue (s.revisionsOf (Buffer.toString (Buffer.fromString key))) = s.current key := by
  rw [toString_fromString]
  exact s.current_congr h

/-- `Create == 0` holds of a key exactly when nothing is found under it. -/
theorem WellKept.create_eq_zero {s : FakeState locale} (h : s.WellKept) {key : JsString}
    (hkey : locale.Comparable key) :
    s.evaluateCompare { result := some .equal, target := some .create
                        key := some (Buffer.fromString key), createRevision := some 0 } = true
      ↔ s.current key = none := by
  simp only [evaluateCompare, Option.map_some, Option.getD_some, current_toString hkey, compareHolds,
    decide_eq_true_eq]
  cases hcurrent : s.current key with
  | none => simp
  | some value =>
    have hpos := (h.found hcurrent).createRevision_pos
    simp
    omega

/-- So does `Version == 0`. -/
theorem WellKept.version_eq_zero {s : FakeState locale} (h : s.WellKept) {key : JsString}
    (hkey : locale.Comparable key) :
    s.evaluateCompare { result := some .equal, target := some .version
                        key := some (Buffer.fromString key), version := some 0 } = true
      ↔ s.current key = none := by
  simp only [evaluateCompare, Option.map_some, Option.getD_some, current_toString hkey, compareHolds,
    decide_eq_true_eq]
  cases hcurrent : s.current key with
  | none => simp
  | some value =>
    have hpos := (h.found hcurrent).version_pos
    simp
    omega

/-- `Mod == r` holds of a key exactly when what is found under it was
written at `r`. -/
theorem mod_eq_iff {s : FakeState locale} {key : JsString} (hkey : locale.Comparable key)
    {revision : Nat} (hpos : 0 < revision) :
    s.evaluateCompare { result := some .equal, target := some .mod
                        key := some (Buffer.fromString key)
                        modRevision := some (revision : Int) } = true
      ↔ ∃ value, s.current key = some value ∧ value.modRevision = revision := by
  simp only [evaluateCompare, Option.map_some, Option.getD_some, current_toString hkey, compareHolds,
    decide_eq_true_eq]
  cases hcurrent : s.current key with
  | none => simp; omega
  | some value =>
    constructor
    · intro h
      exact ⟨value, rfl, Int.natCast_inj.mp h⟩
    · rintro ⟨v, hv, h⟩
      cases hv
      exact Int.natCast_inj.mpr h

end FakeState

end Webernetes.Etcd
