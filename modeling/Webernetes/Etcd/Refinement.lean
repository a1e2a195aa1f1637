/-
Webernetes.Etcd.Refinement — the store against the log of its writes.

`Refines s log` says what the store `s` keeps of a log: under every key a
non-empty suffix of the key's records, what was dropped being at or below
the watermark, and no key of the log missing. Apart from what is kept,
the log itself is in order (`ordered`, `fresh`), and every record stores
what the log before it says of its key (`sound`), so that the counters of
a history are those of `Base.Mvcc.entry`.

The store keeps one history for keys the collation takes for the same, so
a request keeps `Refines` when no put of it hits a stored key that is
another string but the same key to the collation (`KeyClear`). The step
lemma is `Refines.appendRecord`. `Fits` lists what the records of a
request must meet one by one, `opRecords_fits` and `branchRecords_fits`
show that they do, and `refines_of_reach` is the run.
-/
import Webernetes.Etcd.Runs

namespace Webernetes.Etcd

open Js Base Base.Mvcc
open FakeState (recordRevision)

variable {locale : Locale}

/-! ## Logs of records -/

/-- The entry of a key as the store holds it. -/
def toStored (key : JsString) (e : Entry Buffer) : StoredValue where
  key := key
  value := e.value
  createRevision := e.createRevision
  modRevision := e.modRevision
  version := e.version

/-- The revision a write appends to a history whose key holds `current`. -/
def storedOf (current : Option (Entry Buffer)) (w : Write JsString Buffer) : StoredRevision where
  key := w.key
  value := w.value
  createRevision := current.elim w.revision (·.createRevision)
  modRevision := w.revision
  version := current.elim 0 (·.version) + if w.value.isSome then 1 else 0
  deleted := w.value.isNone
  historyRevision := w.revision

/-- The records of a log under one key. -/
def recordsTo (log : List RevisionEvent) (key : JsString) : List RevisionEvent :=
  log.filter fun record => record.key = key

theorem recordsTo_append (log log' : List RevisionEvent) (key : JsString) :
    recordsTo (log ++ log') key = recordsTo log key ++ recordsTo log' key := by
  simp [recordsTo]

theorem mem_recordsTo {log : List RevisionEvent} {key : JsString} {record : RevisionEvent} :
    record ∈ recordsTo log key ↔ record ∈ log ∧ record.key = key := by
  simp [recordsTo]

theorem recordsTo_singleton (record : RevisionEvent) (key : JsString) :
    recordsTo [record] key = if record.key = key then [record] else [] := by
  by_cases h : record.key = key <;> simp [recordsTo, h]

/-- Every record stores what the log before it says of its key. -/
def Sound (log : List RevisionEvent) : Prop :=
  ∀ earlier record later, log = earlier ++ record :: later →
    recordRevision record = storedOf (entry (writes earlier) record.key) record.write

theorem sound_nil : Sound [] := fun earlier record later h => by simp at h

theorem Sound.append_singleton {log : List RevisionEvent} {record : RevisionEvent}
    (h : Sound log)
    (hrecord : recordRevision record = storedOf (entry (writes log) record.key) record.write) :
    Sound (log ++ [record]) := by
  intro earlier r later hsplit
  rcases List.append_eq_append_iff.mp hsplit with ⟨mid, hmid, hrest⟩ | ⟨mid, hmid, hrest⟩
  · cases mid with
    | nil =>
      simp only [List.nil_append, List.cons.injEq] at hrest
      obtain ⟨rfl, -⟩ := hrest
      simpa [hmid] using hrecord
    | cons a mid => simp at hrest
  · cases mid with
    | nil =>
      simp only [List.nil_append, List.cons.injEq] at hrest
      obtain ⟨rfl, -⟩ := hrest
      simpa [hmid] using hrecord
    | cons a mid =>
      rw [List.cons_append, List.cons.injEq] at hrest
      obtain ⟨rfl, -⟩ := hrest
      exact h earlier r mid hmid

theorem Sound.of_append {log log' : List RevisionEvent} (h : Sound (log ++ log')) : Sound log :=
  fun earlier record later hsplit => h earlier record (later ++ log') (by simp [hsplit])

theorem Sound.last {log : List RevisionEvent} {record : RevisionEvent}
    (h : Sound (log ++ [record])) :
    recordRevision record = storedOf (entry (writes log) record.key) record.write :=
  h log record [] rfl

/-- The value in force after a write is the entry the write leads to. -/
theorem currentValue_storedOf (revisions : List StoredRevision) (current : Option (Entry Buffer))
    (w : Write JsString Buffer) :
    currentValue (revisions ++ [storedOf current w]) = (next current w).map (toStored w.key) := by
  unfold currentValue
  cases hw : w.value with
  | none => simp [storedOf, next, hw]
  | some v => simp [storedOf, next, hw, StoredRevision.stored, toStored]

/-- In a sound log the value in force under a key is the key's entry. -/
theorem Sound.currentValue {log : List RevisionEvent} (h : Sound log) (key : JsString) :
    currentValue ((recordsTo log key).map recordRevision)
      = (entry (writes log) key).map (toStored key) := by
  induction log using List.reverseRecOn with
  | nil => rfl
  | append_singleton log record ih =>
    rw [writes_append, writes_singleton, entry_append_singleton, recordsTo_append,
      recordsTo_singleton, RevisionEvent.write_key]
    split
    · rename_i hkey
      rw [List.map_append, List.map_singleton, h.last, currentValue_storedOf,
        RevisionEvent.write_key, hkey]
    · simpa using ih h.of_append

theorem currentValue_append {dropped revisions : List StoredRevision} (h : revisions ≠ []) :
    currentValue (dropped ++ revisions) = currentValue revisions := by
  simp only [Etcd.currentValue, List.getLast?_append_of_ne_nil _ h]

/-! ## Trimming -/

namespace FakeState

/-- Trimming drops from the front, never all, and the watermark covers
what it drops. -/
theorem trimRevisions_spec (retained : Nat) (hretained : 1 ≤ retained) :
    ∀ (revisions : List StoredRevision) (watermark : Nat),
      ∃ dropped, dropped ++ (trimRevisions retained revisions watermark).1 = revisions
        ∧ watermark ≤ (trimRevisions retained revisions watermark).2
        ∧ (∀ d ∈ dropped, d.historyRevision ≤ (trimRevisions retained revisions watermark).2)
        ∧ (revisions ≠ [] → (trimRevisions retained revisions watermark).1 ≠ [])
  | [], watermark => ⟨[], rfl, Nat.le_refl _, by simp, fun h => absurd rfl h⟩
  | removed :: rest, watermark => by
      rw [trimRevisions]
      split
      · rename_i hlong
        obtain ⟨dropped, hsplit, hmark, hcover, hne⟩ :=
          trimRevisions_spec retained hretained rest (max watermark removed.historyRevision)
        refine ⟨removed :: dropped, by simp [hsplit], by omega, ?_, fun _ => hne ?_⟩
        · intro d hd
          rcases List.mem_cons.mp hd with rfl | hd
          · omega
          · exact hcover d hd
        · rintro rfl
          simp only [List.length_cons, List.length_nil] at hlong
          omega
      · exact ⟨[], rfl, Nat.le_refl _, by simp, by simp⟩

/-! ## The refinement -/

/-- No stored key is another string that the collation takes for `key`. -/
def Clear (s : FakeState locale) (key : JsString) : Prop :=
  ∀ stored ∈ s.histories.keys, locale.Same stored key → stored = key

instance (s : FakeState locale) (key : JsString) : Decidable (s.Clear key) :=
  List.decidableBAll _ _

/-- What the store keeps of a log. -/
structure Refines (s : FakeState locale) (log : List RevisionEvent) : Prop where
  bounded : ∀ record ∈ log, 0 < record.revision ∧ record.revision ≤ s.revision
  ordered : log.Pairwise fun a b => a.revision ≤ b.revision
  fresh : log.Pairwise fun a b => a.key = b.key → a.revision < b.revision
  sound : Sound log
  stored : ∀ key revisions, (key, revisions) ∈ s.histories.items → revisions ≠ [] ∧
    ∃ dropped, dropped ++ revisions = (recordsTo log key).map recordRevision
      ∧ ∀ d ∈ dropped, d.modRevision ≤ s.compactedRevision
  complete : ∀ record ∈ log, record.key ∈ s.histories.keys

theorem refines_initial (locale : Locale) (retainedRevisions : Nat) :
    (FakeState.initial locale retainedRevisions).Refines [] where
  bounded := by simp
  ordered := List.Pairwise.nil
  fresh := List.Pairwise.nil
  sound := sound_nil
  stored := by simp [FakeState.initial, SortedMap.empty]
  complete := by simp

theorem mem_keys {m : SortedMap locale.localeCompare (List StoredRevision)} {key : JsString} :
    key ∈ m.keys ↔ ∃ revisions, (key, revisions) ∈ m.items := by
  simp [SortedMap.keys]

/-- A stored key is clear: the entries of the map are never the same key
to the collation. -/
theorem clear_of_mem {s : FakeState locale} {key : JsString} (h : key ∈ s.histories.keys) :
    s.Clear key := by
  intro stored hstored hsame
  obtain ⟨revisions, hkey⟩ := mem_keys.mp h
  obtain ⟨revisions', hstored⟩ := mem_keys.mp hstored
  exact congrArg Prod.fst (SortedMap.eq_of_mem_of_cmp_eq hstored hkey hsame)

/-- The history found under a clear key. -/
theorem revisionsOf_cases {s : FakeState locale} {key : JsString} (hclear : s.Clear key) :
    (key, s.revisionsOf key) ∈ s.histories.items ∨
      (key ∉ s.histories.keys ∧ s.revisionsOf key = []) := by
  unfold revisionsOf
  cases hget : s.histories.get key with
  | none =>
    refine .inr ⟨fun hmem => ?_, rfl⟩
    obtain ⟨revisions, hitem⟩ := mem_keys.mp hmem
    rw [SortedMap.get_of_mem hitem] at hget
    cases hget
  | some revisions =>
    obtain ⟨k, hitem, hsame⟩ := SortedMap.get_eq_some_iff.mp hget
    have hk : k = key := hclear k (mem_keys.mpr ⟨revisions, hitem⟩) hsame
    subst hk
    exact .inl hitem

theorem revisionsOf_of_mem {s : FakeState locale} {key : JsString}
    {revisions : List StoredRevision} (h : (key, revisions) ∈ s.histories.items) :
    s.revisionsOf key = revisions := by
  simp [revisionsOf, SortedMap.get_of_mem h]

namespace Refines

variable {s : FakeState locale} {log : List RevisionEvent}

theorem recordsTo_eq_nil (h : s.Refines log) {key : JsString} (hkey : key ∉ s.histories.keys) :
    recordsTo log key = [] := by
  rw [recordsTo, List.filter_eq_nil_iff]
  intro record hrecord hk
  have hk : record.key = key := by simpa using hk
  exact hkey (hk ▸ h.complete record hrecord)

/-- The history found under a clear key is what is left of its records. -/
theorem revisionsOf (h : s.Refines log) {key : JsString} (hclear : s.Clear key) :
    ∃ dropped, dropped ++ s.revisionsOf key = (recordsTo log key).map recordRevision
      ∧ ∀ d ∈ dropped, d.modRevision ≤ s.compactedRevision := by
  rcases revisionsOf_cases hclear with hitem | ⟨hkey, hnil⟩
  · exact (h.stored key _ hitem).2
  · exact ⟨[], by simp [hnil, h.recordsTo_eq_nil hkey], by simp⟩

/-- The value in force in a stored history is the entry of its key. -/
theorem currentValue_of_mem (h : s.Refines log) {key : JsString}
    {revisions : List StoredRevision} (hitem : (key, revisions) ∈ s.histories.items) :
    currentValue revisions = (entry (writes log) key).map (toStored key) := by
  obtain ⟨hne, dropped, hsplit, -⟩ := h.stored key revisions hitem
  rw [← h.sound.currentValue, ← hsplit, currentValue_append hne]

theorem entry_eq_none (h : s.Refines log) {key : JsString} (hkey : key ∉ s.histories.keys) :
    entry (writes log) key = none := by
  refine entry_eq_none_of_forall_ne fun w hw hk => hkey ?_
  obtain ⟨record, hrecord, rfl⟩ := List.mem_map.mp hw
  exact hk ▸ h.complete record hrecord

/-- What the store finds under a clear key is the key's entry. -/
theorem currentValue (h : s.Refines log) {key : JsString} (hclear : s.Clear key) :
    currentValue (s.revisionsOf key) = (entry (writes log) key).map (toStored key) := by
  rcases revisionsOf_cases hclear with hitem | ⟨hkey, hnil⟩
  · exact h.currentValue_of_mem hitem
  · rw [hnil, h.entry_eq_none hkey]
    rfl

/-- **The step.** Appending a record keeps the refinement, when its key is
clear, its revision new to the key, and its counters those of the log. -/
theorem appendRecord (h : s.Refines log) (record : RevisionEvent) (hclear : s.Clear record.key)
    (hpos : 0 < s.revision) (hrev : record.revision = s.revision)
    (hfresh : ∀ r ∈ log, r.key = record.key → r.revision < record.revision)
    (hsound : recordRevision record = storedOf (entry (writes log) record.key) record.write) :
    (s.appendRecord record).Refines (log ++ [record]) := by
  obtain ⟨dropped, hsplit, hcover⟩ := h.revisionsOf hclear
  obtain ⟨trimmed, htrim, hmark, hcover', hne⟩ := trimRevisions_spec s.retainedRevisions
    s.retained_pos (s.revisionsOf record.key ++ [recordRevision record]) s.compactedRevision
  constructor
  · intro r hr
    rcases List.mem_append.mp hr with hr | hr
    · exact h.bounded r hr
    · obtain rfl := List.mem_singleton.mp hr
      exact ⟨hrev ▸ hpos, Nat.le_of_eq hrev⟩
  · refine List.pairwise_append.mpr ⟨h.ordered, List.pairwise_singleton _ _, ?_⟩
    intro a ha b hb
    obtain rfl := List.mem_singleton.mp hb
    exact hrev ▸ (h.bounded a ha).2
  · refine List.pairwise_append.mpr ⟨h.fresh, List.pairwise_singleton _ _, ?_⟩
    intro a ha b hb
    obtain rfl := List.mem_singleton.mp hb
    exact hfresh a ha
  · exact h.sound.append_singleton hsound
  · intro key revisions hitem
    rcases SortedMap.mem_set_iff.mp hitem with hnew | ⟨hold, hother⟩
    · cases hnew
      refine ⟨hne (by simp), dropped ++ trimmed, ?_, ?_⟩
      · rw [recordsTo_append, recordsTo_singleton, if_pos rfl, List.map_append, ← hsplit,
          List.append_assoc, htrim]
        simp
      · intro d hd
        rcases List.mem_append.mp hd with hd | hd
        · exact Nat.le_trans (hcover d hd) hmark
        · have hmem : d ∈ s.revisionsOf record.key ++ [recordRevision record] := by
            rw [← htrim]; exact List.mem_append_left _ hd
          have hhist : d.modRevision = d.historyRevision := by
            rcases List.mem_append.mp hmem with hmem | hmem
            · have hfull : d ∈ (recordsTo log record.key).map recordRevision := by
                rw [← hsplit]; exact List.mem_append_right _ hmem
              obtain ⟨r, -, rfl⟩ := List.mem_map.mp hfull
              rfl
            · rw [List.mem_singleton.mp hmem]; rfl
          rw [hhist]
          exact hcover' d hd
    · have hkey : record.key ≠ key := by
        rintro rfl
        exact hother (locale.same_refl _)
      obtain ⟨hne', dropped', hsplit', hcover''⟩ := h.stored key revisions hold
      refine ⟨hne', dropped', ?_, fun d hd => Nat.le_trans (hcover'' d hd) hmark⟩
      rw [recordsTo_append, recordsTo_singleton, if_neg hkey, List.append_nil, hsplit']
  · intro r hr
    by_cases hsame : locale.Same r.key record.key
    · rcases List.mem_append.mp hr with hr | hr
      · have hk := hclear r.key (h.complete r hr) hsame
        rw [hk]
        exact mem_keys.mpr ⟨_, SortedMap.mem_set_iff.mpr (.inl rfl)⟩
      · obtain rfl := List.mem_singleton.mp hr
        exact mem_keys.mpr ⟨_, SortedMap.mem_set_iff.mpr (.inl rfl)⟩
    · rcases List.mem_append.mp hr with hr | hr
      · obtain ⟨revisions, hitem⟩ := mem_keys.mp (h.complete r hr)
        exact mem_keys.mpr ⟨_, SortedMap.mem_set_iff.mpr (.inr ⟨hitem, hsame⟩)⟩
      · obtain rfl := List.mem_singleton.mp hr
        exact absurd (locale.same_refl _) hsame

theorem bumpRevision (h : s.Refines log) : s.bumpRevision.Refines log :=
  { h with bounded := fun r hr => ⟨(h.bounded r hr).1, Nat.le_succ_of_le (h.bounded r hr).2⟩ }

theorem compact (h : s.Refines log) (requested : Int) :
    (s.compact requested).state.Refines log := by
  rcases s.compact_effect requested with hstate | ⟨revision, -, -, hstate⟩
  · rwa [hstate]
  · rw [hstate]
    refine { h with stored := fun key revisions hitem => ?_ }
    obtain ⟨hne, dropped, hsplit, hcover⟩ := h.stored key revisions hitem
    exact ⟨hne, dropped, hsplit, fun d hd => Nat.le_trans (hcover d hd) (Nat.le_max_left _ _)⟩

end Refines

/-! ## The records of a request -/

/-- What records must meet, each at its turn, to be appended to a store
that refines `log`. -/
def Fits : FakeState locale → List RevisionEvent → List RevisionEvent → Prop
  | _, _, [] => True
  | s, log, record :: rest =>
    s.Clear record.key
      ∧ record.revision = s.revision
      ∧ (∀ r ∈ log, r.key = record.key → r.revision < record.revision)
      ∧ recordRevision record = storedOf (entry (writes log) record.key) record.write
      ∧ Fits (s.appendRecord record) (log ++ [record]) rest

theorem Refines.appendRecords : ∀ {records : List RevisionEvent} {s : FakeState locale}
    {log : List RevisionEvent}, s.Refines log → 0 < s.revision → Fits s log records →
    (s.appendRecords records).Refines (log ++ records)
  | [], _, _, h, _, _ => by simpa using h
  | record :: rest, s, log, h, hpos, ⟨hclear, hrev, hfresh, hsound, hrest⟩ => by
      have hstep := h.appendRecord record hclear hpos hrev hfresh hsound
      have hrun := Refines.appendRecords hstep hpos hrest
      rwa [List.append_assoc] at hrun

theorem fits_append {records records' : List RevisionEvent} : ∀ {s : FakeState locale}
    {log : List RevisionEvent}, Fits s log records →
    Fits (s.appendRecords records) (log ++ records) records' → Fits s log (records ++ records') := by
  induction records with
  | nil => intro s log _ h'; simpa using h'
  | cons record rest ih =>
    rintro s log ⟨hclear, hrev, hfresh, hsound, hrest⟩ h'
    exact ⟨hclear, hrev, hfresh, hsound, ih hrest (by simpa using h')⟩

/-! ### Puts -/

/-- The put, if it is valid, does not hit a stored key that is another
string but the same key to the collation. -/
def PutClear (s : FakeState locale) (ns : JsString) (options : PutOptions) : Prop :=
  s.PutValid ns options → s.Clear (namespacedKey ns options.key)

/-- The record of a put stores the next entry of its key. -/
theorem recordRevision_put {s : FakeState locale} {log : List RevisionEvent} {key : JsString}
    (hcur : currentValue (s.revisionsOf key) = (entry (writes log) key).map (toStored key))
    (options : PutOptions) (revision : Nat) :
    let record := putRecord (currentValue (s.revisionsOf key))
      (putValue (currentValue (s.revisionsOf key)) options key revision)
    recordRevision record = storedOf (entry (writes log) key) record.write := by
  simp only [recordRevision_putRecord, hcur]
  cases entry (writes log) key with
  | none => simp [StoredValue.revisionOf, storedOf, putValue, putRecord, RevisionEvent.write,
      toPublicKv]
  | some e => simp [StoredValue.revisionOf, storedOf, putValue, putRecord, RevisionEvent.write,
      toPublicKv, toStored]

theorem put_fits {s : FakeState locale} {log : List RevisionEvent} (h : s.Refines log)
    (options : PutOptions) {key : JsString} (hclear : s.Clear key)
    (hfresh : ∀ r ∈ log, r.key = key → r.revision < s.revision) :
    Fits s log [putRecord (currentValue (s.revisionsOf key))
      (putValue (currentValue (s.revisionsOf key)) options key s.revision)] :=
  ⟨hclear, rfl, hfresh, recordRevision_put (h.currentValue hclear) options s.revision, trivial⟩

/-! ### Deletes -/

theorem keys_appendRecord_of_mem {s : FakeState locale} {record : RevisionEvent} {key : JsString}
    (h : key ∈ s.histories.keys) (hclear : s.Clear record.key) :
    key ∈ (s.appendRecord record).histories.keys := by
  obtain ⟨revisions, hitem⟩ := mem_keys.mp h
  by_cases hsame : locale.Same key record.key
  · rw [hclear key h hsame]
    exact mem_keys.mpr ⟨_, SortedMap.mem_set_iff.mpr (.inl rfl)⟩
  · exact mem_keys.mpr ⟨_, SortedMap.mem_set_iff.mpr (.inr ⟨hitem, hsame⟩)⟩

/-- The tombstone of a live value stores what the deletion leads to. -/
theorem recordRevision_delete {log : List RevisionEvent} {value : StoredValue} {e : Entry Buffer}
    (he : entry (writes log) value.key = some e) (hvalue : value = toStored value.key e)
    (revision : Nat) :
    recordRevision (deleteRecord value revision)
      = storedOf (entry (writes log) value.key) (deleteRecord value revision).write := by
  rw [he, recordRevision_deleteRecord, hvalue]
  simp [tombstone, storedOf, deleteRecord, RevisionEvent.write, toStored]

/-- The records of a delete fit: its values are live entries of different
stored keys. -/
theorem delete_fits : ∀ (values : List StoredValue) (s : FakeState locale)
    (log : List RevisionEvent), (values.map (·.key)).Nodup →
    (∀ value ∈ values, value.key ∈ s.histories.keys
      ∧ (∃ e, entry (writes log) value.key = some e ∧ value = toStored value.key e)
      ∧ ∀ r ∈ log, r.key = value.key → r.revision < s.revision) →
    Fits s log (values.map fun value => deleteRecord value s.revision)
  | [], _, _, _, _ => trivial
  | value :: rest, s, log, hnodup, hlive => by
      rw [List.map_cons, List.nodup_cons] at hnodup
      obtain ⟨hother, hnodup⟩ := hnodup
      obtain ⟨hstored, ⟨e, he, hvalue⟩, hfresh⟩ := hlive value List.mem_cons_self
      have hclear : s.Clear value.key := clear_of_mem hstored
      refine ⟨hclear, rfl, hfresh, recordRevision_delete he hvalue _, ?_⟩
      refine delete_fits rest _ _ hnodup fun v hv => ?_
      have hne : value.key ≠ v.key := fun heq => hother (heq ▸ List.mem_map_of_mem hv)
      obtain ⟨hstored', hlive', hfresh'⟩ := hlive v (List.mem_cons_of_mem _ hv)
      refine ⟨keys_appendRecord_of_mem hstored' hclear, ?_, ?_⟩
      · rwa [writes_append, writes_singleton, entry_append_singleton, RevisionEvent.write_key,
          deleteRecord_key, if_neg hne]
      · intro r hr hk
        rcases List.mem_append.mp hr with hr | hr
        · exact hfresh' r hr hk
        · obtain rfl := List.mem_singleton.mp hr
          exact absurd hk hne

theorem mem_iterateRange {V : Type} {m : SortedMap locale.localeCompare V}
    {start rangeEnd : JsString} {item : JsString × V} (h : item ∈ iterateRange m start rangeEnd) :
    item ∈ m.items ∧ isKeyInRange item.1 start rangeEnd = true := by
  have hin : isKeyInRange item.1 start rangeEnd = true :=
    List.mem_takeWhile_imp (p := fun entry : JsString × V => isKeyInRange entry.1 start rangeEnd) h
  exact ⟨(SortedMap.mem_entriesFrom_iff.mp ((List.takeWhile_sublist _).mem h)).1, hin⟩

/-- What a delete matches: live entries of stored keys in its range. -/
theorem mem_matched {s : FakeState locale} {log : List RevisionEvent} (h : s.Refines log)
    {ns : JsString} {options : DeleteOptions} {value : StoredValue}
    (hvalue : value ∈ s.matched ns options) :
    value.key ∈ s.histories.keys
      ∧ isKeyInRange value.key (namespacedKey ns options.key)
          (namespacedRangeEnd ns options.rangeEnd) = true
      ∧ ∃ e, entry (writes log) value.key = some e ∧ value = toStored value.key e := by
  obtain ⟨⟨key, revisions⟩, hitem, hcur⟩ := List.mem_filterMap.mp hvalue
  obtain ⟨hmem, hrange⟩ := mem_iterateRange hitem
  rw [h.currentValue_of_mem hmem] at hcur
  obtain ⟨e, he, rfl⟩ := Option.map_eq_some_iff.mp hcur
  exact ⟨mem_keys.mpr ⟨revisions, hmem⟩, hrange, e, he, rfl⟩

/-- The entries a range scan gives have different keys. -/
theorem iterateRange_nodup {V : Type} (m : SortedMap locale.localeCompare V)
    (start rangeEnd : JsString) :
    (iterateRange m start rangeEnd).Pairwise fun a b => a.1 ≠ b.1 := by
  have hsub : (iterateRange m start rangeEnd).Sublist m.items :=
    (List.takeWhile_sublist _).trans (List.drop_sublist _ _)
  refine (m.ascending.sublist hsub).imp fun {a b} hab heq => ?_
  rw [heq, show locale.localeCompare b.1 b.1 = .eq from locale.same_refl b.1] at hab
  cases hab

theorem matched_nodup {s : FakeState locale} {log : List RevisionEvent} (h : s.Refines log)
    (ns : JsString) (options : DeleteOptions) :
    ((s.matched ns options).map (·.key)).Nodup := by
  unfold matched
  rw [List.Nodup, List.pairwise_map, List.pairwise_filterMap]
  refine (iterateRange_nodup s.histories _ _).imp_of_mem fun {a b} ha hb hab v hv w hw => ?_
  have hkey : ∀ {item : JsString × List StoredRevision} {u : StoredValue},
      item ∈ s.histories.items → currentValue item.2 = some u → u.key = item.1 := by
    rintro ⟨key, revisions⟩ u hitem hu
    rw [h.currentValue_of_mem hitem] at hu
    obtain ⟨e, -, rfl⟩ := Option.map_eq_some_iff.mp hu
    rfl
  rw [hkey (mem_iterateRange ha).1 hv, hkey (mem_iterateRange hb).1 hw]
  exact hab

theorem matched_fits {s : FakeState locale} {log : List RevisionEvent} (h : s.Refines log)
    (ns : JsString) (options : DeleteOptions)
    (hfresh : ∀ r ∈ log, isKeyInRange r.key (namespacedKey ns options.key)
      (namespacedRangeEnd ns options.rangeEnd) = true → r.revision < s.revision) :
    Fits s log ((s.matched ns options).map fun value => deleteRecord value s.revision) := by
  refine delete_fits _ s log (matched_nodup h ns options) fun value hvalue => ?_
  obtain ⟨hstored, hrange, hlive⟩ := mem_matched h hvalue
  exact ⟨hstored, hlive, fun r hr hk => hfresh r hr (hk ▸ hrange)⟩

/-! ### Transactions -/

/-- The operation, if it is a valid put, does not hit a stored key that is
another string but the same key to the collation. -/
def OpClear (s : FakeState locale) (op : RequestOp) : Prop :=
  match op.requestRange, op.requestPut with
  | none, some options => s.PutClear [] options
  | _, _ => True

/-- Every operation is clear at its turn, as far as the valid ones go. -/
def OpsClear (revision : Nat) : FakeState locale → List RequestOp → Prop
  | _, [] => True
  | s, op :: rest =>
    s.OpClear op ∧ (s.OpValid op → OpsClear revision (s.appendRecords (s.opRecords revision op)) rest)

/-- No put of the request hits a stored key that is another string but
the same key to the collation. -/
def KeyClear (s : FakeState locale) : WriteRequest → Prop
  | .put ns options => s.PutClear ns options
  | .delete _ _ => True
  | .txn request => OpsClear (s.txnStart (s.chosenOperations request)).revision
      (s.txnStart (s.chosenOperations request)) (s.chosenOperations request)

/-- Two ranges with a key in common overlap. -/
theorem rangesOverlap_of_mem {key : JsString} {left right : KeyRange}
    (hleft : isKeyInRange key left.start left.rangeEnd = true)
    (hright : isKeyInRange key right.start right.rangeEnd = true) :
    rangesOverlap left right = true := by
  have hstart : ∀ {k start rangeEnd : JsString}, isKeyInRange k start rangeEnd = true →
      rangeEnd ≠ [] → start ≤ k := by
    intro k start rangeEnd h hne
    unfold isKeyInRange at h
    rw [if_neg hne] at h
    split at h <;> simp_all
  have hwiden : ∀ {k k' start rangeEnd : JsString}, isKeyInRange k start rangeEnd = true →
      rangeEnd ≠ [] → start ≤ k' → k' ≤ k → isKeyInRange k' start rangeEnd = true := by
    intro k k' start rangeEnd h hne hlow hhigh
    unfold isKeyInRange at h ⊢
    rw [if_neg hne] at h ⊢
    split at h
    · rename_i hz; simp [hz, hlow]
    · rename_i hz
      simp only [if_neg hz, Bool.and_eq_true, decide_eq_true_eq] at h ⊢
      exact ⟨hlow, lt_of_le_of_lt hhigh h.2⟩
  unfold rangesOverlap
  rw [Bool.or_eq_true]
  by_cases hl : left.rangeEnd = []
  · rw [hl, isKeyInRange_single, decide_eq_true_eq] at hleft
    exact .inl (hleft ▸ hright)
  · by_cases hr : right.rangeEnd = []
    · rw [hr, isKeyInRange_single, decide_eq_true_eq] at hright
      exact .inr (hright ▸ hleft)
    · rcases le_total left.start right.start with hle | hle
      · exact .inr (hwiden hleft hl hle (hstart hright hr))
      · exact .inl (hwiden hright hr hle (hstart hleft hl))

/-- The overlap check, passed: the write ranges are disjoint from each
other and from those seen before. -/
theorem assertWriteRangesLoop_ok : ∀ {ops : List RequestOp} {ranges : List KeyRange},
    assertWriteRangesLoop ops ranges = .ok () →
    (ops.filterMap writeRange).Pairwise (fun a b => rangesOverlap a b = false)
      ∧ ∀ a ∈ ranges, ∀ b ∈ ops.filterMap writeRange, rangesOverlap a b = false
  | [], ranges, _ => ⟨List.Pairwise.nil, by simp⟩
  | op :: rest, ranges, h => by
      rw [assertWriteRangesLoop] at h
      cases hop : writeRange op with
      | none =>
        rw [hop] at h
        rw [List.filterMap_cons_none hop]
        exact assertWriteRangesLoop_ok h
      | some range =>
        simp only [hop] at h
        split at h
        · cases h
        · rename_i hany
          obtain ⟨hpair, hseen⟩ := assertWriteRangesLoop_ok h
          have hnone : ∀ a ∈ ranges, rangesOverlap a range = false := by simpa using hany
          rw [List.filterMap_cons_some hop]
          refine ⟨List.pairwise_cons.mpr ⟨fun b hb => ?_, hpair⟩, fun a ha b hb => ?_⟩
          · exact hseen range (by simp) b hb
          · rcases List.mem_cons.mp hb with rfl | hb
            · exact hnone a ha
            · exact hseen a (List.mem_append_left _ ha) b hb

/-- The records of an operation are in its write range. -/
theorem opRecords_mem_range {s : FakeState locale} {log : List RevisionEvent}
    (h : s.Refines log) {revision : Nat} {op : RequestOp} {record : RevisionEvent}
    (hrecord : record ∈ s.opRecords revision op) :
    ∃ range, writeRange op = some range
      ∧ isKeyInRange record.key range.start range.rangeEnd = true := by
  unfold opRecords at hrecord
  unfold writeRange
  split at hrecord
  · cases hrecord
  · rename_i o _ hput
    rw [List.mem_singleton.mp hrecord, hput]
    exact ⟨_, rfl, by simp⟩
  · rename_i o _ hput hdelete
    obtain ⟨value, hvalue, rfl⟩ := List.mem_map.mp hrecord
    obtain ⟨-, hrange, -⟩ := mem_matched h hvalue
    rw [hput, hdelete]
    refine ⟨_, rfl, ?_⟩
    simpa using hrange
  · cases hrecord

/-- The records of a valid and clear operation fit, when none of the log
is in its write range at this revision. -/
theorem opRecords_fits {s : FakeState locale} {log : List RevisionEvent} (h : s.Refines log)
    {op : RequestOp} (hvalid : s.OpValid op) (hclear : s.OpClear op)
    (hfresh : ∀ range, writeRange op = some range → ∀ r ∈ log,
      isKeyInRange r.key range.start range.rangeEnd = true → r.revision < s.revision) :
    Fits s log (s.opRecords s.revision op) := by
  unfold opRecords
  unfold OpValid at hvalid
  unfold OpClear at hclear
  split
  · trivial
  · rename_i o hrange hput
    simp only [hrange, hput] at hvalid hclear
    refine put_fits h o (hclear hvalid) fun r hr hk => ?_
    exact hfresh { start := o.key, rangeEnd := [] } (by simp [writeRange, hput]) r hr (by simp [hk])
  · rename_i o hrange hput hdelete
    refine matched_fits h [] o fun r hr hin => ?_
    refine hfresh { start := o.key, rangeEnd := o.rangeEnd } (by simp [writeRange, hput, hdelete])
      r hr ?_
    simpa using hin
  · trivial

/-- The records of the operations of a transaction fit, when their write
ranges are disjoint and none of the log is in them at this revision. -/
theorem branchRecords_fits : ∀ {ops : List RequestOp} {s : FakeState locale}
    {log : List RevisionEvent}, s.Refines log → 0 < s.revision → OpsValid s.revision s ops →
    OpsClear s.revision s ops →
    (ops.filterMap writeRange).Pairwise (fun a b => rangesOverlap a b = false) →
    (∀ range ∈ ops.filterMap writeRange, ∀ r ∈ log,
      isKeyInRange r.key range.start range.rangeEnd = true → r.revision < s.revision) →
    Fits s log (branchRecords s.revision s ops)
  | [], _, _, _, _, _, _, _, _ => trivial
  | op :: rest, s, log, h, hpos, ⟨hvalid, hvalids⟩, ⟨hclear, hclears⟩, hpair, hfresh => by
      have hop : Fits s log (s.opRecords s.revision op) :=
        opRecords_fits h hvalid hclear fun range hrange =>
          hfresh range (List.mem_filterMap.mpr ⟨op, List.mem_cons_self, hrange⟩)
      have hnext := Refines.appendRecords h hpos hop
      refine fits_append hop ?_
      have hrevision : (s.appendRecords (s.opRecords s.revision op)).revision = s.revision := by
        simp
      have hrest := @branchRecords_fits rest _ _ hnext (by rwa [hrevision])
      rw [hrevision] at hrest
      refine hrest hvalids (hclears hvalid) ?_ fun range hrange r hr hin => ?_
      · exact hpair.sublist (List.Sublist.filterMap _ (List.sublist_cons_self _ _))
      · rcases List.mem_append.mp hr with hr | hr
        · refine hfresh range ?_ r hr hin
          exact (List.Sublist.filterMap _ (List.sublist_cons_self op rest)).mem hrange
        · obtain ⟨range', hrange', hin'⟩ := opRecords_mem_range h hr
          rw [List.filterMap_cons_some hrange'] at hpair
          have hdisjoint := (List.pairwise_cons.mp hpair).1 range hrange
          rw [rangesOverlap_of_mem hin' hin] at hdisjoint
          cases hdisjoint

theorem opsClear_of_prefix {revision : Nat} : ∀ {done ops : List RequestOp}
    {s : FakeState locale}, done <+: ops → OpsClear revision s ops → OpsClear revision s done
  | [], _, _, _, _ => trivial
  | op :: done, _, s, ⟨rest, hsplit⟩, h => by
      subst hsplit
      exact ⟨h.1, fun hvalid => opsClear_of_prefix ⟨rest, rfl⟩ (h.2 hvalid)⟩

/-! ## Requests -/

theorem refines_execWrite {s : FakeState locale} {log : List RevisionEvent} (h : s.Refines log)
    {request : WriteRequest} (hclear : s.KeyClear request) :
    (s.execWrite request).state.Refines (log ++ (s.execWrite request).records) := by
  have hbump := h.bumpRevision
  have hlt : ∀ r ∈ log, r.revision < s.bumpRevision.revision :=
    fun r hr => Nat.lt_succ_of_le (h.bounded r hr).2
  cases request with
  | put ns options =>
    by_cases hvalid : s.PutValid ns options
    · simp only [execWrite, Outcome.map, put_of_valid s ns options hvalid]
      exact Refines.appendRecords hbump (Nat.succ_pos _)
        (put_fits hbump options (hclear hvalid) fun r hr _ => hlt r hr)
    · simpa [execWrite, Outcome.map, put_of_not_valid s ns options hvalid] using hbump
  | delete ns options =>
    by_cases hvalid : RangeValid options.key options.rangeEnd
    · simp only [execWrite, Outcome.map, delete_of_valid s ns options hvalid]
      split
      · simpa using h
      · exact Refines.appendRecords hbump (Nat.succ_pos _)
          (matched_fits hbump ns options fun r hr _ => hlt r hr)
    · simpa [execWrite, Outcome.map, delete_of_not_valid s ns options hvalid] using h
  | txn request =>
    simp only [execWrite, Outcome.map]
    rcases txn_effect s request with ⟨hstate, hrecords⟩ |
      ⟨hcheck, done, hdone, hvalid, hrecords, hstate⟩
    · simpa [hstate, hrecords] using h
    · rw [hstate]
      by_cases hwrite : (s.chosenOperations request).any isWrite = true
      · have hpair := (assertWriteRangesLoop_ok hcheck).1
        have hclear' := opsClear_of_prefix hdone hclear
        rw [txnStart_revision_of_write s hwrite] at hvalid hrecords hclear' ⊢
        rw [hrecords]
        refine Refines.appendRecords hbump (Nat.succ_pos _)
          (branchRecords_fits hbump (Nat.succ_pos _) hvalid hclear' ?_ fun _ _ r hr _ => hlt r hr)
        exact hpair.sublist (hdone.sublist.filterMap _)
      · have hnone := any_isWrite_of_prefix hdone (by simpa using hwrite)
        rw [hrecords, branchRecords_of_not_write _ _ _ hnone,
          txnStart_of_not_write s (by simpa using hwrite)]
        simpa using h

end FakeState

/-! ## Runs -/

/-- The puts of the request are clear. -/
def Traced.PutsClear (t : Traced locale) : StoreRequest → Prop
  | .write request => t.store.KeyClear request
  | .compact _ => True

theorem refines_exec {t : Traced locale} (h : t.store.Refines t.log) {request : StoreRequest}
    (hclear : t.PutsClear request) : (t.exec request).store.Refines (t.exec request).log := by
  cases request with
  | write request =>
    rw [Traced.log_exec_write]
    exact FakeState.refines_execWrite h hclear
  | compact revision =>
    rw [Traced.log_exec_compact]
    exact h.compact revision

/-- **The run.** In every run of requests whose puts are clear the store
refines the log of what has been written. -/
theorem refines_of_reach {t : Traced locale}
    (h : ((requests locale).guarded Traced.PutsClear).Reach t) : t.store.Refines t.log := by
  refine h.invariant (P := fun t => t.store.Refines t.log) ?_ ?_
  · rintro _ ⟨retainedRevisions, rfl⟩
    exact FakeState.refines_initial locale retainedRevisions
  · rintro t request _ - ht ⟨rfl, hclear⟩
    exact refines_exec ht hclear

end Webernetes.Etcd
