/-
Webernetes.Etcd.Reads — range reads, deletes and puts against the log.

`RangeResponse.Lists` is what a read should return: every key of the
range that a log has alive, each once, with the key's entry. At the
current revision a read does return that, in a run whose puts are clear,
exactly when the scan comes to every live key of the range (`ScanClear`,
`reads_exact`). A delete removes the keys of its range on the same
condition, and a clear put leaves what other keys read as.

At an earlier revision a key must also have kept a revision that old
(`HistoryKept`, `reads_at_revision`). Trimming raises the watermark only
to the revision it drops, which can be long before the next one of the
same key: the key is then missing from reads in between.
-/
import Webernetes.Etcd.Scan
import Mathlib.Data.List.Nodup
import Mathlib.Data.List.Perm.Subperm

namespace Webernetes.Etcd

open Js Base Base.Mvcc
open FakeState (recordRevision)

variable {locale : Locale}

/-- The response lists exactly the keys of a range that the log has alive,
each once and as the log has it. -/
def RangeResponse.Lists (response : RangeResponse) (log : List (Write JsString Buffer))
    (ns start rangeEnd : JsString) : Prop :=
  ∃ values : List StoredValue, (values.map (·.key)).Nodup
    ∧ (∀ value, value ∈ values ↔ isKeyInRange value.key start rangeEnd = true
        ∧ ∃ e, entry log value.key = some e ∧ value = toStored value.key e)
    ∧ response.kvs = values.map (fun value => toPublicKv value ns false)
    ∧ response.count = values.length
    ∧ response.more = false

namespace FakeState

/-- The value the store holds under exactly this key. -/
def live (s : FakeState locale) (key : JsString) : Option StoredValue :=
  (currentValue (s.revisionsOf key)).filter fun value => value.key = key

/-- The scan comes to every live key of the range. -/
def ScanClear (s : FakeState locale) (start rangeEnd : JsString) : Prop :=
  ∀ key, (s.live key).isSome → isKeyInRange key start rangeEnd = true →
    Reached s.histories start rangeEnd key

/-- The read is of the current revision. -/
def Current (options : RangeOptions) : Prop := ∀ r ∈ options.revision, r ≤ 0

/-- The delete leaves no key of its range alive and every other key as it
was. -/
def DeleteExact (s : FakeState locale) (ns : JsString) (options : DeleteOptions) : Prop :=
  (s.delete ns options).result.isOk = true ∧
    ∀ key, (s.delete ns options).state.live key =
      if isKeyInRange key (namespacedKey ns options.key)
        (namespacedRangeEnd ns options.rangeEnd) = true then none else s.live key

/-- What a response says about the range, its header apart. -/
def content (response : RangeResponse) : List KeyValue × Nat × Bool :=
  (response.kvs, response.count, response.more)

/-- No read of another key sees the put. -/
def PutIsolated (s : FakeState locale) (ns : JsString) (options : PutOptions) : Prop :=
  ∀ (ns' : JsString) (read : RangeOptions), read.rangeEnd = [] → Current read →
    namespacedKey ns' read.key ≠ namespacedKey ns options.key →
    ((s.put ns options).state.range ns' read).map content = (s.range ns' read).map content

/-! ## Live keys and the log -/

theorem Refines.live {s : FakeState locale} {log : List RevisionEvent} (h : s.Refines log)
    (key : JsString) : s.live key = (entry (writes log) key).map (toStored key) := by
  unfold FakeState.live
  by_cases hkey : key ∈ s.histories.keys
  · rw [h.currentValue (clear_of_mem hkey)]
    cases entry (writes log) key with
    | none => rfl
    | some e => simp [toStored]
  · rw [h.entry_eq_none hkey, Option.map_none, Option.filter_eq_none_iff]
    intro value hvalue hk
    refine hkey ?_
    have hsome : s.revisionsOf key ≠ [] := by
      intro hnil
      rw [hnil] at hvalue
      cases hvalue
    cases hget : s.histories.get key with
    | none => exact absurd (by simp [FakeState.revisionsOf, hget]) hsome
    | some revisions =>
      obtain ⟨k, hitem, -⟩ := SortedMap.get_eq_some_iff.mp hget
      have hcur : Etcd.currentValue revisions = some value := by
        simpa [FakeState.revisionsOf, hget] using hvalue
      rw [h.currentValue_of_mem hitem] at hcur
      obtain ⟨e, -, rfl⟩ := Option.map_eq_some_iff.mp hcur
      have hk : k = key := of_decide_eq_true hk
      exact hk ▸ mem_keys.mpr ⟨revisions, hitem⟩

theorem Refines.scanClear_iff {s : FakeState locale} {log : List RevisionEvent}
    (h : s.Refines log) (start rangeEnd : JsString) :
    s.ScanClear start rangeEnd ↔ ∀ key e, entry (writes log) key = some e →
      isKeyInRange key start rangeEnd = true → Reached s.histories start rangeEnd key := by
  unfold ScanClear
  refine forall_congr' fun key => ?_
  rw [h.live]
  cases entry (writes log) key <;> simp

/-- The scan for a single key comes to it. -/
theorem reached_single {V : Type} (m : SortedMap locale.localeCompare V) {key : JsString}
    (hkey : key ∈ m.keys) : Reached m key [] key := by
  refine ⟨by simp [show locale.localeCompare key key = .eq from locale.same_refl key], ?_⟩
  intro stored hstored hlow hhigh
  have hsame : locale.Same stored key := by
    unfold Locale.Same
    cases hc : locale.localeCompare stored key <;> simp_all
  obtain ⟨a, ha, rfl⟩ := List.mem_map.mp hstored
  obtain ⟨b, hb, rfl⟩ := List.mem_map.mp hkey
  simp [SortedMap.eq_of_mem_of_cmp_eq ha hb hsame]

/-- A read of a single key always finds it. -/
theorem scanClear_single {s : FakeState locale} {log : List RevisionEvent} (h : s.Refines log)
    (key : JsString) : s.ScanClear key [] := by
  rw [h.scanClear_iff]
  intro k e he hk
  obtain rfl : k = key := by simpa using hk
  refine reached_single _ ?_
  by_contra hstored
  rw [h.entry_eq_none hstored] at he
  cases he

/-! ## Reads -/

/-- Every key of the range that is alive at the revision is reached by
the scan and has kept a revision that old. -/
def HistoryKept (s : FakeState locale) (log : List RevisionEvent) (start rangeEnd : JsString)
    (revision : Nat) : Prop :=
  ∀ key e, entry (upTo (writes log) revision) key = some e →
    isKeyInRange key start rangeEnd = true →
    Reached s.histories start rangeEnd key
      ∧ ∃ kept ∈ s.revisionsOf key, kept.modRevision ≤ revision

theorem Refines.mem_keys_of_upTo {s : FakeState locale} {log : List RevisionEvent}
    (h : s.Refines log) {key : JsString} {revision : Nat} {e : Entry Buffer}
    (he : entry (upTo (writes log) revision) key = some e) : key ∈ s.histories.keys := by
  obtain ⟨w, hw, hkey, -⟩ := entry_mem he
  obtain ⟨record, hrecord, rfl⟩ := List.mem_map.mp (List.mem_filter.mp hw).1
  exact hkey ▸ h.complete record hrecord

/-- **Reads against the log.** A plain read at a revision lists what the
log has at that revision exactly when the history is kept. -/
theorem Refines.lists_iff {s : FakeState locale} {log : List RevisionEvent} (h : s.Refines log)
    (ns : JsString) {options : RangeOptions} (hplain : Plain options) (revision : Nat) :
    (s.rangeResponse ns options revision).Lists (upTo (writes log) revision) ns
        (namespacedKey ns options.key) (namespacedRangeEnd ns options.rangeEnd)
      ↔ s.HistoryKept log (namespacedKey ns options.key)
          (namespacedRangeEnd ns options.rangeEnd) revision := by
  have hperm := h.rangeValues_perm ns hplain revision
  have hlimit : ¬ 0 < options.limit := not_lt.mpr hplain.1
  have hkvs : (s.rangeResponse ns options revision).kvs
      = (s.rangeValues ns options revision).map fun value => toPublicKv value ns false := by
    simp [rangeResponse, hlimit, hplain.2.1, hplain.2.2.1]
  have hcount : (s.rangeResponse ns options revision).count
      = (s.rangeValues ns options revision).length := rfl
  have hmore : (s.rangeResponse ns options revision).more = false := by
    simp [rangeResponse, hlimit]
  generalize hstart : namespacedKey ns options.key = start at hperm ⊢
  generalize hend : namespacedRangeEnd ns options.rangeEnd = rangeEnd at hperm ⊢
  have hmem : ∀ value, value ∈ s.rangeValues ns options revision ↔
      value ∈ s.found start rangeEnd revision := fun value => hperm.mem_iff
  have hsound : ∀ value, value ∈ s.rangeValues ns options revision →
      isKeyInRange value.key start rangeEnd = true
        ∧ ∃ e, entry (upTo (writes log) revision) value.key = some e
          ∧ value = toStored value.key e := by
    intro value hvalue
    obtain ⟨hkey, hreach, -, hentry⟩ := h.mem_found_iff.mp ((hmem value).mp hvalue)
    exact ⟨hreach.inRange hkey, hentry⟩
  have hnodup : ((s.rangeValues ns options revision).map (·.key)).Nodup :=
    (hperm.map _).nodup_iff.mpr (h.found_nodup start rangeEnd revision)
  constructor
  · rintro ⟨values, hvnodup, hvalues, hvkvs, hvcount, -⟩ key e he hin
    -- The values found are among those to be listed, and as many.
    have hsub : s.rangeValues ns options revision ⊆ values :=
      fun value hvalue => (hvalues value).mpr (hsound value hvalue)
    have hlen : values.length ≤ (s.rangeValues ns options revision).length := by
      rw [← hvcount, hcount]
    have hperm' := ((List.Nodup.of_map _ hnodup).subperm hsub).perm_of_length_le hlen
    have hin' : toStored key e ∈ s.rangeValues ns options revision :=
      hperm'.mem_iff.mpr ((hvalues _).mpr ⟨hin, e, he, rfl⟩)
    obtain ⟨-, hreach, hkept, -⟩ := h.mem_found_iff.mp ((hmem _).mp hin')
    exact ⟨hreach, hkept⟩
  · intro hkept
    refine ⟨_, hnodup, fun value => ⟨hsound value, ?_⟩, hkvs, hcount, hmore⟩
    rintro ⟨hin, e, he, hvalue⟩
    obtain ⟨hreach, hold⟩ := hkept value.key e he hin
    exact (hmem value).mpr
      (h.mem_found_iff.mpr ⟨h.mem_keys_of_upTo he, hreach, hold, e, he, hvalue⟩)

theorem Refines.upTo_current {s : FakeState locale} {log : List RevisionEvent}
    (h : s.Refines log) : upTo (writes log) s.revision = writes log := by
  refine upTo_eq_self fun w hw => ?_
  obtain ⟨record, hrecord, rfl⟩ := List.mem_map.mp hw
  exact (h.bounded record hrecord).2

/-- At the current revision every history is kept. -/
theorem Refines.historyKept_current {s : FakeState locale} {log : List RevisionEvent}
    (h : s.Refines log) (start rangeEnd : JsString) :
    s.HistoryKept log start rangeEnd s.revision ↔ s.ScanClear start rangeEnd := by
  have hlog := h.upTo_current
  rw [h.scanClear_iff]
  unfold HistoryKept
  rw [hlog]
  refine forall₄_congr fun key e he hin => ⟨fun hkept => hkept.1, fun hreach => ⟨hreach, ?_⟩⟩
  obtain ⟨revisions, hitem⟩ := mem_keys.mp (h.mem_keys_of_upTo (hlog.symm ▸ he))
  obtain ⟨kept, hkept⟩ := List.exists_mem_of_ne_nil _ (h.stored key revisions hitem).1
  exact ⟨kept, (revisionsOf_of_mem hitem).symm ▸ hkept, h.modRevision_le hitem hkept⟩

theorem range_current {s : FakeState locale} {options : RangeOptions}
    (hvalid : RangeValid options.key options.rangeEnd) (hcur : Current options) (ns : JsString) :
    s.range ns options = .ok (s.rangeResponse ns options s.revision) := by
  have hreadable : s.RangeReadable options :=
    ⟨hvalid, fun r hr hpos => absurd (hcur r hr) (by omega)⟩
  rw [range_of_readable s ns options hreadable, rangeAnswer]
  unfold resolveRevision
  split
  · rfl
  · rename_i r hr
    rw [if_pos (hcur r (by simp [hr]))]
    rfl

/-! ## Deletes -/

/-- Deleting values leaves their keys absent and no other key touched. -/
theorem entry_append_deleteRecords (log : List RevisionEvent) (values : List StoredValue)
    (revision : Nat) (key : JsString) :
    entry (writes (log ++ values.map fun value => deleteRecord value revision)) key
      = if key ∈ values.map (·.key) then none else entry (writes log) key := by
  induction values using List.reverseRecOn with
  | nil => simp
  | append_singleton values value ih =>
    rw [List.map_append, ← List.append_assoc, writes_append, List.map_singleton, writes_singleton,
      entry_append_singleton, ih, RevisionEvent.write_key, deleteRecord_key]
    by_cases hkey : value.key = key
    · simp [hkey, next, RevisionEvent.write, deleteRecord]
    · have hkey' : ¬ key = value.key := fun heq => hkey heq.symm
      simp [hkey, hkey']

theorem mem_matched_keys_iff {s : FakeState locale} {log : List RevisionEvent}
    (h : s.Refines log) (ns : JsString) (options : DeleteOptions) (key : JsString) :
    key ∈ (s.matched ns options).map (·.key) ↔ (s.live key).isSome
      ∧ Reached s.histories (namespacedKey ns options.key)
          (namespacedRangeEnd ns options.rangeEnd) key := by
  rw [List.mem_map]
  constructor
  · rintro ⟨value, hvalue, rfl⟩
    obtain ⟨⟨k, revisions⟩, hitem, hcur⟩ := List.mem_filterMap.mp hvalue
    obtain ⟨-, -, e, he, -⟩ := mem_matched h hvalue
    obtain ⟨hmem, hreach⟩ := mem_iterateRange_iff.mp hitem
    rw [h.currentValue_of_mem hmem] at hcur
    obtain ⟨e', -, rfl⟩ := Option.map_eq_some_iff.mp hcur
    exact ⟨by simp [h.live, he], hreach⟩
  · rintro ⟨hlive, hreach⟩
    rw [h.live, Option.isSome_map] at hlive
    obtain ⟨e, he⟩ := Option.isSome_iff_exists.mp hlive
    have hkey : key ∈ s.histories.keys := by
      by_contra hkey
      rw [h.entry_eq_none hkey] at he
      cases he
    obtain ⟨revisions, hitem⟩ := mem_keys.mp hkey
    refine ⟨toStored key e, List.mem_filterMap.mpr ⟨(key, revisions),
      mem_iterateRange_iff.mpr ⟨hitem, hreach⟩, ?_⟩, rfl⟩
    rw [h.currentValue_of_mem hitem, he]
    rfl

/-- The store after a valid delete. -/
theorem live_delete {s : FakeState locale} {log : List RevisionEvent} (h : s.Refines log)
    (ns : JsString) {options : DeleteOptions} (hvalid : RangeValid options.key options.rangeEnd)
    (key : JsString) :
    (s.delete ns options).state.live key
      = if key ∈ (s.matched ns options).map (·.key) then none else s.live key := by
  have hnext := refines_execWrite h (show s.KeyClear (.delete ns options) from trivial)
  rw [show (s.execWrite (.delete ns options)).state = (s.delete ns options).state from rfl,
    show (s.execWrite (.delete ns options)).records = (s.delete ns options).records from rfl]
    at hnext
  rw [hnext.live, h.live]
  have hrecords : (s.delete ns options).records
      = (s.matched ns options).map fun value => deleteRecord value (s.revision + 1) := by
    rw [delete_of_valid s ns options hvalid]
    split
    · rename_i hnil; simp [hnil]
    · rfl
  rw [hrecords, entry_append_deleteRecords]
  split <;> rfl

theorem deleteExact_iff {s : FakeState locale} {log : List RevisionEvent} (h : s.Refines log)
    (ns : JsString) {options : DeleteOptions} (hvalid : RangeValid options.key options.rangeEnd) :
    s.DeleteExact ns options ↔ s.ScanClear (namespacedKey ns options.key)
      (namespacedRangeEnd ns options.rangeEnd) := by
  have hok : (s.delete ns options).result.isOk = true := by
    rw [delete_of_valid s ns options hvalid]
    split <;> rfl
  unfold DeleteExact ScanClear
  rw [and_iff_right hok]
  refine forall_congr' fun key => ?_
  have hmem := mem_matched_keys_iff h ns options key
  rw [live_delete h ns hvalid key]
  generalize namespacedKey ns options.key = start at hmem ⊢
  generalize namespacedRangeEnd ns options.rangeEnd = rangeEnd at hmem ⊢
  constructor
  · intro hexact hlive hin
    by_contra hreach
    rw [if_neg (fun hmatch => hreach (hmem.mp hmatch).2), if_pos hin] at hexact
    rw [hexact] at hlive
    cases hlive
  · intro hclear
    by_cases hlive : (s.live key).isSome
    · by_cases hin : isKeyInRange key start rangeEnd = true
      · rw [if_pos (hmem.mpr ⟨hlive, hclear hlive hin⟩), if_pos hin]
      · rw [if_neg hin, if_neg]
        intro hmatch
        refine hin ((hmem.mp hmatch).2.inRange ?_)
        by_contra hkey
        rw [h.live, h.entry_eq_none hkey] at hlive
        cases hlive
    · rw [if_neg (fun hmatch => hlive (hmem.mp hmatch).1)]
      rw [Option.not_isSome_iff_eq_none] at hlive
      simp [hlive]

/-! ## Puts -/

theorem eq_of_length_le_one {α : Type} {l l' : List α} (hl : l.length ≤ 1) (hl' : l'.length ≤ 1)
    (hmem : ∀ a, a ∈ l ↔ a ∈ l') : l = l' := by
  cases l with
  | nil => exact (List.eq_nil_iff_forall_not_mem.mpr fun a ha => by simpa using (hmem a).mpr ha).symm
  | cons a rest =>
    obtain rfl : rest = [] := by simpa using hl
    cases l' with
    | nil => simpa using (hmem a).mp (List.mem_singleton_self a)
    | cons b rest' =>
      obtain rfl : rest' = [] := by simpa using hl'
      rw [List.mem_singleton.mp ((hmem a).mp (List.mem_singleton_self a))]

/-- A sorted map has at most one entry under a key. -/
theorem length_le_one_of_key {V : Type} {items : List (JsString × V)} {key : JsString}
    (h : KeysAscend locale.localeCompare items) (hkey : ∀ item ∈ items, item.1 = key) :
    items.length ≤ 1 := by
  match items, h with
  | [], _ => simp
  | [_], _ => simp
  | a :: b :: rest, h =>
    have hab := (List.pairwise_cons.mp h).1 b List.mem_cons_self
    rw [hkey a List.mem_cons_self, hkey b (by simp),
      show locale.localeCompare key key = .eq from locale.same_refl key] at hab
    cases hab

theorem length_filter_key_le_one {V : Type} (m : SortedMap locale.localeCompare V)
    (key : JsString) : (m.items.filter fun entry => entry.1 = key).length ≤ 1 :=
  length_le_one_of_key (m.ascending.sublist List.filter_sublist)
    fun item hitem => by simpa using (List.mem_filter.mp hitem).2

/-- The scan for a single key finds its entry and nothing else. -/
theorem iterateRange_single {V : Type} (m : SortedMap locale.localeCompare V) (key : JsString) :
    iterateRange m key [] = m.items.filter fun entry => entry.1 = key := by
  have hscan : (iterateRange m key []).length ≤ 1 := by
    have hkeys : ∀ item ∈ iterateRange m key [], item.1 = key :=
      fun item hitem => by simpa using (mem_iterateRange hitem).2
    exact length_le_one_of_key
      (m.ascending.sublist ((List.takeWhile_sublist _).trans (List.drop_sublist _ _))) hkeys
  refine eq_of_length_le_one hscan (length_filter_key_le_one m key) fun item => ?_
  rw [mem_iterateRange_iff, List.mem_filter]
  refine and_congr_right fun hitem => ⟨fun hreach => ?_, fun hkey => ?_⟩
  · simpa using hreach.inRange (List.mem_map_of_mem hitem)
  · obtain rfl : item.1 = key := by simpa using hkey
    exact reached_single m (List.mem_map_of_mem hitem)

/-- Setting a clear key leaves the entries of every other key. -/
theorem filter_set {s : FakeState locale} {written key : JsString} (hclear : s.Clear written)
    (hne : key ≠ written) (revisions : List StoredRevision) :
    (s.histories.set written revisions).items.filter (fun entry => entry.1 = key)
      = s.histories.items.filter fun entry => entry.1 = key := by
  refine eq_of_length_le_one (length_filter_key_le_one _ key) (length_filter_key_le_one _ key)
    fun item => ?_
  rw [List.mem_filter, List.mem_filter, SortedMap.mem_set_iff]
  simp only [decide_eq_true_eq]
  constructor
  · rintro ⟨rfl | ⟨hitem, -⟩, hkey⟩
    · exact absurd hkey.symm hne
    · exact ⟨hitem, hkey⟩
  · rintro ⟨hitem, rfl⟩
    exact ⟨.inr ⟨hitem, fun hsame => hne (hclear item.1 (List.mem_map_of_mem hitem) hsame)⟩, rfl⟩

/-- From the store's revision on a stored history resolves to the value in
force. -/
theorem Refines.resolve_current {s : FakeState locale} {log : List RevisionEvent}
    (h : s.Refines log) {key : JsString} {revisions : List StoredRevision}
    (hitem : (key, revisions) ∈ s.histories.items) {revision : Nat} (hle : s.revision ≤ revision) :
    resolveStoredValueAt revisions revision = Etcd.currentValue revisions := by
  rw [resolveStoredValueAt_eq (h.revisions_increasing hitem), List.filter_eq_self.mpr]
  exact fun r hr => decide_eq_true (Nat.le_trans (h.modRevision_le hitem hr) hle)

/-- A clear put leaves what the scan for another key finds. -/
theorem iterateRange_put {s : FakeState locale} {ns : JsString} {options : PutOptions}
    (hclear : s.PutClear ns options) {key : JsString} (hne : key ≠ namespacedKey ns options.key) :
    iterateRange (s.put ns options).state.histories key [] = iterateRange s.histories key [] := by
  by_cases hput : s.PutValid ns options
  · rw [put_of_valid s ns options hput, iterateRange_single, iterateRange_single]
    exact filter_set (hclear hput) hne _
  · rw [put_of_not_valid s ns options hput]
    rfl

theorem put_revision (s : FakeState locale) (ns : JsString) (options : PutOptions) :
    (s.put ns options).state.revision = s.revision + 1 := by
  by_cases hput : s.PutValid ns options
  · rw [put_of_valid s ns options hput]; rfl
  · rw [put_of_not_valid s ns options hput]; rfl

theorem putIsolated {s : FakeState locale} {log : List RevisionEvent} (h : s.Refines log)
    {ns : JsString} {options : PutOptions} (hclear : s.PutClear ns options) :
    s.PutIsolated ns options := by
  intro ns' read hend hcur hother
  by_cases hvalid : RangeValid read.key read.rangeEnd
  · rw [range_current hvalid hcur, range_current hvalid hcur]
    have hvalues : (s.put ns options).state.rangeValues ns' read
          (s.put ns options).state.revision
        = s.rangeValues ns' read s.revision := by
      have hresolve : (iterateRange s.histories (namespacedKey ns' read.key) []).filterMap
            (fun entry => resolveStoredValueAt entry.2 (s.revision + 1))
          = (iterateRange s.histories (namespacedKey ns' read.key) []).filterMap
            (fun entry => resolveStoredValueAt entry.2 s.revision) := by
        refine List.filterMap_congr fun item hitem => ?_
        have hmem : (item.1, item.2) ∈ s.histories.items := (mem_iterateRange hitem).1
        rw [h.resolve_current hmem (Nat.le_succ _), h.resolve_current hmem (Nat.le_refl _)]
      simp only [rangeValues, hend, namespacedRangeEnd_nil, iterateRange_put hclear hother,
        put_revision, hresolve]
    simp only [Except.map, content, rangeResponse, hvalues]
  · simp only [range, assertValidRange_of_not_valid hvalid]
    rfl

/-! ## Every reachable store -/

/-- A plain read returns exactly what the log has in its range. -/
def RangeExact (s : FakeState locale) (log : List RevisionEvent) (ns : JsString)
    (options : RangeOptions) : Prop :=
  ∃ response, s.range ns options = .ok response ∧
    response.Lists (writes log) ns (namespacedKey ns options.key)
      (namespacedRangeEnd ns options.rangeEnd)

theorem rangeExact_iff {s : FakeState locale} {log : List RevisionEvent} (h : s.Refines log)
    (ns : JsString) {options : RangeOptions} (hvalid : RangeValid options.key options.rangeEnd)
    (hplain : Plain options) (hcur : Current options) :
    s.RangeExact log ns options ↔ s.ScanClear (namespacedKey ns options.key)
      (namespacedRangeEnd ns options.rangeEnd) := by
  have hlog := h.upTo_current
  rw [← h.historyKept_current, ← h.lists_iff ns hplain, hlog]
  unfold RangeExact
  rw [range_current hvalid hcur]
  simp

/-- **Reads, deletes and puts at the current revision.** In every run of
requests whose puts are clear, a plain read returns every live key of its
range once with its last value, and a delete removes exactly those keys,
when the scan comes to each of them and only then; and a clear put
changes no read of another key. -/
theorem reads_exact {t : Traced locale}
    (h : ((requests locale).guarded Traced.PutsClear).Reach t) :
    (∀ (ns : JsString) (options : RangeOptions), RangeValid options.key options.rangeEnd →
      Plain options → Current options →
      (t.store.RangeExact t.log ns options ↔ t.store.ScanClear (namespacedKey ns options.key)
        (namespacedRangeEnd ns options.rangeEnd)))
    ∧ (∀ (ns : JsString) (options : DeleteOptions), RangeValid options.key options.rangeEnd →
      (t.store.DeleteExact ns options ↔ t.store.ScanClear (namespacedKey ns options.key)
        (namespacedRangeEnd ns options.rangeEnd)))
    ∧ (∀ (ns : JsString) (options : PutOptions), t.store.PutClear ns options →
      t.store.PutIsolated ns options) := by
  have href := refines_of_reach h
  refine ⟨fun ns options hvalid hplain hcur => rangeExact_iff href ns hvalid hplain hcur,
    fun ns options hvalid => deleteExact_iff href ns hvalid,
    fun ns options hclear => putIsolated href hclear⟩

/-- The put of a text value under a key, without a namespace. -/
def putText (key value : String) : StoreRequest :=
  .write (.put [] { key := js key, value := some (Buffer.fromString (js value)) })

theorem reach_initial (locale : Locale) (retainedRevisions : Nat) :
    ((requests locale).guarded Traced.PutsClear).Reach
      (Traced.initial locale retainedRevisions) :=
  .start ⟨retainedRevisions, rfl⟩

theorem reach_putText (key value : String) :
    ((requests rootLocale).guarded Traced.PutsClear).Reach
      ((Traced.initial rootLocale 3).exec (putText key value)) :=
  (reach_initial rootLocale 3).step (l := putText key value)
    ⟨rfl, fun _ stored hstored => by simp [Traced.initial, FakeState.initial, SortedMap.keys,
      SortedMap.empty] at hstored⟩

/-- After one put the key reads as it was written. -/
theorem reads_exact_after_put :
    ((Traced.initial rootLocale 3).exec (putText "a" "1")).store.RangeExact
      ((Traced.initial rootLocale 3).exec (putText "a" "1")).log []
      { key := js "a", rangeEnd := [] } := by
  have h := reach_putText "a" "1"
  refine ((reads_exact h).1 [] _ (by decide) (by decide) (by simp [Current])).mpr ?_
  exact scanClear_single (refines_of_reach h) (js "a")

/-- The store that holds "a", "B" and "c". -/
def mixedCase : Traced rootLocale :=
  (((Traced.initial rootLocale 3).exec (putText "a" "1")).exec (putText "B" "2")).exec
    (putText "c" "3")

/-- The read from "a" to "d" stops at "B" and misses "c". -/
theorem mixedCase_not_rangeExact :
    (requests rootLocale).Reach mixedCase ∧
      ¬ mixedCase.store.RangeExact mixedCase.log [] { key := js "a", rangeEnd := js "d" } := by
  refine ⟨?_, ?_⟩
  · have h0 : (requests rootLocale).Reach (Traced.initial rootLocale 3) := .start ⟨3, rfl⟩
    exact ((h0.step (l := putText "a" "1") rfl).step (l := putText "B" "2") rfl).step
      (l := putText "c" "3") rfl
  · rintro ⟨response, hrange, values, -, hvalues, hkvs, -, -⟩
    have hlength : (mixedCase.store.range [] { key := js "a", rangeEnd := js "d" }).map
        (fun response => response.kvs.length) = .ok 1 := by decide
    rw [hrange] at hlength
    have hone : values.length = 1 := by
      simpa [Except.map, hkvs] using hlength
    obtain ⟨value, rfl⟩ := List.length_eq_one_iff.mp hone
    have hin : ∀ key, isKeyInRange key (js "a") (js "d") = true →
        (entry (writes mixedCase.log) key).isSome = true → value.key = key := by
      intro key hkey hlive
      obtain ⟨e, he⟩ := Option.isSome_iff_exists.mp hlive
      have hmem := (hvalues (toStored key e)).mpr ⟨hkey, e, he, rfl⟩
      rw [← List.mem_singleton.mp hmem]
      rfl
    have ha := hin (js "a") (by decide) (by decide)
    have hc := hin (js "c") (by decide) (by decide)
    rw [ha] at hc
    exact absurd hc (by decide)

/-! ## Earlier revisions -/

/-- What a plain read at a requested revision should answer: an error for
a revision that has not happened or is at or below the watermark, and
what was live at the revision otherwise. -/
def AnswersAt (s : FakeState locale) (log : List RevisionEvent) (ns : JsString)
    (options : RangeOptions) (requested : Int) : Prop :=
  if (s.revision : Int) < requested then s.range ns options = .error futureRevError
  else if requested ≤ s.compactedRevision then s.range ns options = .error compactedError
  else ∃ response, s.range ns options = .ok response ∧
    response.Lists (upTo (writes log) requested.toNat) ns (namespacedKey ns options.key)
      (namespacedRangeEnd ns options.rangeEnd)

theorem range_future {s : FakeState locale} (ns : JsString) {options : RangeOptions}
    (hvalid : RangeValid options.key options.rangeEnd) {requested : Int}
    (hrev : options.revision = some requested) (hpos : 0 < requested)
    (hfuture : (s.revision : Int) < requested) :
    s.range ns options = .error futureRevError := by
  have h1 : ¬ requested ≤ 0 := by omega
  simp [range, assertValidRange_of_valid hvalid, hrev, resolveRevision, h1, hfuture]

theorem range_compacted {s : FakeState locale} (ns : JsString) {options : RangeOptions}
    (hvalid : RangeValid options.key options.rangeEnd) {requested : Int}
    (hrev : options.revision = some requested) (hpos : 0 < requested)
    (hfuture : ¬ (s.revision : Int) < requested) (hlow : requested ≤ s.compactedRevision) :
    s.range ns options = .error compactedError := by
  have h1 : ¬ requested ≤ 0 := by omega
  have h2 : ¬ requested.toNat = 0 := by omega
  have h3 : requested.toNat ≤ s.compactedRevision := by omega
  simp [range, assertValidRange_of_valid hvalid, hrev, resolveRevision, h1, hfuture, hpos,
    assertRangeRevisionAvailable, compactedRevisionForRange, h2, h3]

theorem range_readable {s : FakeState locale} (ns : JsString) {options : RangeOptions}
    (hvalid : RangeValid options.key options.rangeEnd) {requested : Int}
    (hrev : options.revision = some requested) (hpos : 0 < requested)
    (hfuture : ¬ (s.revision : Int) < requested) (hlow : ¬ requested ≤ s.compactedRevision) :
    s.range ns options = .ok (s.rangeResponse ns options requested.toNat) := by
  have hreadable : s.RangeReadable options := by
    refine ⟨hvalid, fun r hr _ => ?_⟩
    obtain rfl : requested = r := by simpa [hrev] using hr
    omega
  have h1 : ¬ requested ≤ 0 := by omega
  simp [range_of_readable s ns options hreadable, rangeAnswer, hrev, resolveRevision, h1, hfuture]

/-- **Reads at a revision.** In every run of requests whose puts are
clear, a plain read at a revision answers as it should exactly when the
revision is not readable or the history it needs has been kept. -/
theorem reads_at_revision {t : Traced locale}
    (h : ((requests locale).guarded Traced.PutsClear).Reach t) (ns : JsString)
    {options : RangeOptions} (hvalid : RangeValid options.key options.rangeEnd)
    (hplain : Plain options) {requested : Int} (hrev : options.revision = some requested)
    (hpos : 0 < requested) :
    t.store.AnswersAt t.log ns options requested ↔
      ((t.store.compactedRevision : Int) < requested → requested ≤ t.store.revision →
        t.store.HistoryKept t.log (namespacedKey ns options.key)
          (namespacedRangeEnd ns options.rangeEnd) requested.toNat) := by
  have href := refines_of_reach h
  unfold AnswersAt
  split
  · rename_i hfuture
    exact iff_of_true (range_future ns hvalid hrev hpos hfuture) fun _ hle => by omega
  · rename_i hfuture
    split
    · rename_i hlow
      exact iff_of_true (range_compacted ns hvalid hrev hpos hfuture hlow) fun hgt _ => by omega
    · rename_i hlow
      rw [range_readable ns hvalid hrev hpos hfuture hlow, ← href.lists_iff ns hplain]
      have hgt : (t.store.compactedRevision : Int) < requested := by omega
      have hle : requested ≤ t.store.revision := by omega
      simp [hgt, hle]

/-- After one put of "a" a read of revision 1 finds it. -/
theorem reads_at_revision_after_put :
    ((Traced.initial rootLocale 3).exec (putText "a" "1")).store.AnswersAt
      ((Traced.initial rootLocale 3).exec (putText "a" "1")).log []
      { key := js "a", rangeEnd := [], revision := some 1 } 1 := by
  have h := reach_putText "a" "1"
  refine (reads_at_revision h [] (by decide) (by decide) rfl (by decide)).mpr fun _ _ => ?_
  exact ((refines_of_reach h).historyKept_current _ _).mpr
    (scanClear_single (refines_of_reach h) (js "a"))

/-- The store that keeps one revision a key, after writes to "a", "b" and
"a" again. -/
def trimmedGap : Traced rootLocale :=
  (((Traced.initial rootLocale 1).exec (putText "a" "1")).exec (putText "b" "2")).exec
    (putText "a" "3")

/-- The watermark is 1, so revision 2 is readable, and "a" is missing
from it. -/
theorem trimmedGap_not_answersAt :
    (requests rootLocale).Reach trimmedGap ∧
      ¬ trimmedGap.store.AnswersAt trimmedGap.log []
        { key := js "a", rangeEnd := [], revision := some 2 } 2 := by
  refine ⟨?_, ?_⟩
  · have h0 : (requests rootLocale).Reach (Traced.initial rootLocale 1) := .start ⟨1, rfl⟩
    exact ((h0.step (l := putText "a" "1") rfl).step (l := putText "b" "2") rfl).step
      (l := putText "a" "3") rfl
  · unfold AnswersAt
    rw [if_neg (by decide), if_neg (by decide)]
    rintro ⟨response, hrange, values, -, hvalues, hkvs, -, -⟩
    have hempty : (trimmedGap.store.range []
        { key := js "a", rangeEnd := [], revision := some 2 }).map
        (fun response => response.kvs) = .ok [] := by decide
    rw [hrange] at hempty
    have hnone : values = [] := by simpa [Except.map, hkvs] using hempty
    have hlive : (entry (upTo (writes trimmedGap.log) 2) (js "a")).isSome = true := by decide
    obtain ⟨e, he⟩ := Option.isSome_iff_exists.mp hlive
    have hin : isKeyInRange (js "a") (js "a") [] = true := by decide
    have hmem := (hvalues (toStored (js "a") e)).mpr ⟨hin, e, he, rfl⟩
    rw [hnone] at hmem
    cases hmem

end FakeState

end Webernetes.Etcd
