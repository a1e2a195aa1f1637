/-
Webernetes.Etcd.Versions — the counters of a key and what trimming does
to them.

`Counters` is what the histories of a store should count: mod revisions
ascend under every key, a live entry's version is the number of puts
since its key was last absent and its create revision that of the first
of them, and every request that writes has revisions of its own. It
holds in every run whose puts are clear, since the store then refines
its log and `Base.Mvcc` has counted there.

What a later request computes depends on the last revision of a history
alone (`SameCurrent`), so two stores that trim differently go through the
same requests with the same records (`SameCurrent.execWrite`).
-/
import Webernetes.Etcd.Reads

namespace Webernetes

/-! ## Maps that agree on an image of their values -/

namespace SortedMap

variable {K V W : Type} {cmp : K → K → Ordering} [Std.TransCmp cmp]

/-- The entries of a map, each value under `f`. -/
def image (f : V → W) (m : SortedMap cmp V) : List (K × W) :=
  m.items.map fun entry => (entry.1, f entry.2)

theorem map_get_eq_some_iff (f : V → W) {m : SortedMap cmp V} {key : K} {w : W} :
    (m.get key).map f = some w ↔ ∃ k, (k, w) ∈ m.image f ∧ cmp k key = .eq := by
  rw [Option.map_eq_some_iff]
  constructor
  · rintro ⟨v, hget, rfl⟩
    obtain ⟨k, hitem, hsame⟩ := get_eq_some_iff.mp hget
    exact ⟨k, List.mem_map.mpr ⟨(k, v), hitem, rfl⟩, hsame⟩
  · rintro ⟨k, hitem, hsame⟩
    obtain ⟨⟨k', v⟩, hmem, heq⟩ := List.mem_map.mp hitem
    obtain ⟨rfl, rfl⟩ := Prod.mk.inj heq
    exact ⟨v, get_eq_some_iff.mpr ⟨k', hmem, hsame⟩, rfl⟩

theorem map_get_congr (f : V → W) {m m' : SortedMap cmp V} (h : m.image f = m'.image f)
    (key : K) : (m.get key).map f = (m'.get key).map f :=
  Option.ext fun w => by rw [map_get_eq_some_iff, map_get_eq_some_iff, h]

theorem image_set (f : V → W) (m : SortedMap cmp V) (key : K) (value : V) :
    (m.set key value).image f
      = (m.image f).filter (before cmp key) ++ (key, f value) :: (m.image f).filter (after cmp key) := by
  simp only [image, items_set, List.map_append, List.map_cons, List.filter_map]
  rfl

theorem image_set_congr (f : V → W) {m m' : SortedMap cmp V} (h : m.image f = m'.image f)
    (key : K) {value value' : V} (hvalue : f value = f value') :
    (m.set key value).image f = (m'.set key value').image f := by
  rw [image_set, image_set, h, hvalue]

end SortedMap

namespace Etcd

open Js Base Base.Mvcc
open FakeState (recordRevision)

variable {locale : Locale}

/-! ## The counters -/

/-- The puts to a key since it was last absent. -/
def putsSinceAbsent (log : List RevisionEvent) (key : JsString) : List (Write JsString Buffer) :=
  streak (writesTo (writes log) key)

/-- What the histories of a store count. -/
structure Counters (t : Traced locale) : Prop where
  histories : ∀ key revisions, (key, revisions) ∈ t.store.histories.items →
    revisions ≠ [] ∧ revisions.Pairwise (fun a b => a.modRevision < b.modRevision)
      ∧ ∀ r ∈ revisions, r.modRevision ≤ t.store.revision
  entries : ∀ key revisions value, (key, revisions) ∈ t.store.histories.items →
    currentValue revisions = some value →
      value.createRevision ≤ value.modRevision
      ∧ value.version = (putsSinceAbsent t.log key).length
      ∧ (putsSinceAbsent t.log key).head?.map (·.revision) = some value.createRevision
      ∧ (putsSinceAbsent t.log key).getLast?.map (·.revision) = some value.modRevision
      ∧ (putsSinceAbsent t.log key).getLast?.bind (·.value) = some value.value
  restarts : ∀ ns options, t.store.PutValid ns options → t.store.PutClear ns options →
    t.store.live (namespacedKey ns options.key) = none →
      ∃ record, (t.store.put ns options).records = [record] ∧ record.event.kv.version = 1
        ∧ record.event.kv.createRevision = record.event.kv.modRevision
  requests : t.batches.Pairwise fun a b => ∀ x ∈ a, ∀ y ∈ b, x.revision < y.revision

theorem streak_revisions {ws : List (Write JsString Buffer)}
    (h : ws.Pairwise fun a b => a.revision < b.revision) {c m : Nat}
    (hcreate : (streak ws).head?.map (·.revision) = some c)
    (hmod : (streak ws).getLast?.map (·.revision) = some m) : c ≤ m := by
  have hsub : (streak ws).Sublist ws := by
    have hrev : (ws.reverse.takeWhile (·.value.isSome)).Sublist ws.reverse :=
      List.takeWhile_sublist _
    simpa [streak] using hrev.reverse
  obtain ⟨first, hfirst, rfl⟩ := Option.map_eq_some_iff.mp hcreate
  obtain ⟨last, hlast, rfl⟩ := Option.map_eq_some_iff.mp hmod
  have hpair := h.sublist hsub
  cases hs : streak ws with
  | nil => simp [hs] at hfirst
  | cons a rest =>
    rw [hs] at hfirst hlast hpair
    simp only [List.head?_cons, Option.some.injEq] at hfirst
    subst hfirst
    rcases List.mem_cons.mp (List.mem_of_getLast? hlast) with rfl | hmem
    · exact Nat.le_refl _
    · exact Nat.le_of_lt ((List.pairwise_cons.mp hpair).1 last hmem)

namespace FakeState

theorem Refines.writesTo_increasing {s : FakeState locale} {log : List RevisionEvent}
    (h : s.Refines log) (key : JsString) :
    (writesTo (writes log) key).Pairwise fun a b => a.revision < b.revision := by
  have hto : writesTo (writes log) key = writes (recordsTo log key) := by
    simp only [writesTo, writes, recordsTo, List.filter_map]
    rfl
  rw [hto, writes, List.pairwise_map]
  refine (h.fresh.sublist List.filter_sublist).imp_of_mem fun {a b} ha hb hab => ?_
  exact hab ((mem_recordsTo.mp ha).2.trans (mem_recordsTo.mp hb).2.symm)

theorem Refines.counters_entries {s : FakeState locale} {log : List RevisionEvent}
    (h : s.Refines log) {key : JsString} {revisions : List StoredRevision} {value : StoredValue}
    (hitem : (key, revisions) ∈ s.histories.items) (hcur : Etcd.currentValue revisions = some value) :
    value.createRevision ≤ value.modRevision
      ∧ value.version = (putsSinceAbsent log key).length
      ∧ (putsSinceAbsent log key).head?.map (·.revision) = some value.createRevision
      ∧ (putsSinceAbsent log key).getLast?.map (·.revision) = some value.modRevision
      ∧ (putsSinceAbsent log key).getLast?.bind (·.value) = some value.value := by
  rw [h.currentValue_of_mem hitem] at hcur
  obtain ⟨e, he, rfl⟩ := Option.map_eq_some_iff.mp hcur
  obtain ⟨hversion, hcreate, hmod, hvalue⟩ := entry_counts he
  exact ⟨streak_revisions (h.writesTo_increasing key) hcreate hmod, hversion, hcreate, hmod, hvalue⟩

theorem Refines.counters_restarts {s : FakeState locale} {log : List RevisionEvent}
    (h : s.Refines log) {ns : JsString} {options : PutOptions} (hvalid : s.PutValid ns options)
    (hclear : s.PutClear ns options) (habsent : s.live (namespacedKey ns options.key) = none) :
    ∃ record, (s.put ns options).records = [record] ∧ record.event.kv.version = 1
      ∧ record.event.kv.createRevision = record.event.kv.modRevision := by
  rw [h.live, Option.map_eq_none_iff] at habsent
  have hcur := h.currentValue (hclear hvalid)
  rw [habsent, Option.map_none] at hcur
  rw [put_of_valid s ns options hvalid]
  refine ⟨_, rfl, ?_, ?_⟩
  · simp [putRecord, putValue, toPublicKv, hcur]
  · simp [putRecord, putValue, toPublicKv, hcur]

theorem Refines.counters_histories {s : FakeState locale} {log : List RevisionEvent}
    (h : s.Refines log) {key : JsString} {revisions : List StoredRevision}
    (hitem : (key, revisions) ∈ s.histories.items) :
    revisions ≠ [] ∧ revisions.Pairwise (fun a b => a.modRevision < b.modRevision)
      ∧ ∀ r ∈ revisions, r.modRevision ≤ s.revision :=
  ⟨(h.stored key revisions hitem).1, h.revisions_increasing hitem, fun _ => h.modRevision_le hitem⟩

end FakeState

/-! ## The revisions of a request -/

theorem execWrite_revision_le (s : FakeState locale) (request : WriteRequest) :
    s.revision ≤ (s.execWrite request).state.revision := by
  obtain ⟨base, hbase, hstate, -⟩ := s.execWrite_effect request
  rw [hstate, FakeState.appendRecords_revision]
  rcases hbase with rfl | ⟨rfl, -⟩
  · exact Nat.le_succ _
  · exact Nat.le_refl _

/-- The records of a request are above every revision before it and at or
below the one after it. -/
theorem execWrite_records_revision {s : FakeState locale} {request : WriteRequest}
    {record : RevisionEvent} (h : record ∈ (s.execWrite request).records) :
    s.revision < record.revision ∧ record.revision ≤ (s.execWrite request).state.revision := by
  obtain ⟨base, hbase, hstate, hrev⟩ := s.execWrite_effect request
  rw [hrev record h, hstate, FakeState.appendRecords_revision]
  rcases hbase with rfl | ⟨rfl, hnil⟩
  · exact ⟨Nat.lt_succ_self _, Nat.le_refl _⟩
  · rw [hnil] at h
    cases h

/-- In every run the batches ascend in revision, and none is ahead of the
store. -/
theorem batches_ascend {t : Traced locale} (h : (requests locale).Reach t) :
    (∀ record ∈ t.log, record.revision ≤ t.store.revision)
      ∧ t.batches.Pairwise fun a b => ∀ x ∈ a, ∀ y ∈ b, x.revision < y.revision := by
  refine h.invariant (P := fun t => (∀ record ∈ t.log, record.revision ≤ t.store.revision)
    ∧ t.batches.Pairwise fun a b => ∀ x ∈ a, ∀ y ∈ b, x.revision < y.revision) ?_ ?_
  · rintro _ ⟨retainedRevisions, rfl⟩
    exact ⟨by simp, List.Pairwise.nil⟩
  · rintro t request _ - ⟨hbound, hpair⟩ rfl
    cases request with
    | write request =>
      have hle := execWrite_revision_le t.store request
      refine ⟨fun record hrecord => ?_, ?_⟩
      · rw [Traced.log_exec_write, List.mem_append] at hrecord
        rcases hrecord with hrecord | hrecord
        · exact Nat.le_trans (hbound record hrecord) hle
        · exact (execWrite_records_revision hrecord).2
      · refine List.pairwise_append.mpr ⟨hpair, List.pairwise_singleton _ _, ?_⟩
        intro a ha b hb x hx y hy
        obtain rfl := List.mem_singleton.mp hb
        have hold := hbound x (List.mem_flatten.mpr ⟨a, ha, hx⟩)
        have hnew := (execWrite_records_revision hy).1
        omega
    | compact requested =>
      refine ⟨fun record hrecord => ?_, ?_⟩
      · rw [Traced.log_exec_compact] at hrecord
        exact (t.store.compact_revision requested).symm ▸ hbound record hrecord
      · refine List.pairwise_append.mpr ⟨hpair, List.pairwise_singleton _ _, ?_⟩
        intro a _ b hb x _ y hy
        obtain rfl := List.mem_singleton.mp hb
        cases hy

theorem counters_of_refines {t : Traced locale} (h : t.store.Refines t.log)
    (hbatches : t.batches.Pairwise fun a b => ∀ x ∈ a, ∀ y ∈ b, x.revision < y.revision) :
    Counters t where
  histories _ _ hitem := h.counters_histories hitem
  entries _ _ _ hitem hcur := h.counters_entries hitem hcur
  restarts _ _ hvalid hclear habsent := h.counters_restarts hvalid hclear habsent
  requests := hbatches

/-! ## Trimming -/

namespace FakeState

/-- The two stores are at one revision and have the same keys with the
same last revision. -/
structure SameCurrent (s s' : FakeState locale) : Prop where
  revision : s.revision = s'.revision
  last : s.histories.image List.getLast? = s'.histories.image List.getLast?

namespace SameCurrent

variable {s s' : FakeState locale}

theorem currentValue (h : SameCurrent s s') (key : JsString) :
    Etcd.currentValue (s.revisionsOf key) = Etcd.currentValue (s'.revisionsOf key) := by
  have hget := SortedMap.map_get_congr List.getLast? h.last key
  unfold Etcd.currentValue revisionsOf
  cases hs : s.histories.get key <;> cases hs' : s'.histories.get key <;>
    simp_all

theorem bumpRevision (h : SameCurrent s s') : SameCurrent s.bumpRevision s'.bumpRevision :=
  ⟨congrArg (· + 1) h.revision, h.last⟩

/-- Appending a record leaves it last under its key, whatever is trimmed. -/
theorem getLast?_trimmed (s : FakeState locale) (key : JsString) (revision : StoredRevision) :
    (trimRevisions s.retainedRevisions (s.revisionsOf key ++ [revision])
      s.compactedRevision).1.getLast? = some revision := by
  obtain ⟨dropped, hsplit, -, -, hne⟩ := trimRevisions_spec s.retainedRevisions s.retained_pos
    (s.revisionsOf key ++ [revision]) s.compactedRevision
  have hlast := congrArg List.getLast? hsplit
  rwa [List.getLast?_append_of_ne_nil _ (hne (by simp)), List.getLast?_concat] at hlast

theorem appendRecord (h : SameCurrent s s') (record : RevisionEvent) :
    SameCurrent (s.appendRecord record) (s'.appendRecord record) :=
  ⟨h.revision, SortedMap.image_set_congr _ h.last _
    ((getLast?_trimmed s _ _).trans (getLast?_trimmed s' _ _).symm)⟩

theorem appendRecords (h : SameCurrent s s') (records : List RevisionEvent) :
    SameCurrent (s.appendRecords records) (s'.appendRecords records) := by
  induction records generalizing s s' with
  | nil => exact h
  | cons record records ih => exact ih (h.appendRecord record)

/-- A scan meets the same keys with the same last revisions. -/
theorem iterateRange (h : SameCurrent s s') (start rangeEnd : JsString) :
    (Etcd.iterateRange s.histories start rangeEnd).map (fun entry => (entry.1, entry.2.getLast?))
      = (Etcd.iterateRange s'.histories start rangeEnd).map
          fun entry => (entry.1, entry.2.getLast?) := by
  have himage : ∀ m : SortedMap locale.localeCompare (List StoredRevision),
      (Etcd.iterateRange m start rangeEnd).map (fun entry => (entry.1, entry.2.getLast?))
        = ((m.image List.getLast?).filter fun entry =>
            !before locale.localeCompare start entry).takeWhile
              fun entry => isKeyInRange entry.1 start rangeEnd := by
    intro m
    rw [Etcd.iterateRange, SortedMap.entriesFrom_eq, SortedMap.image, List.filter_map,
      List.takeWhile_map]
    rfl
  rw [himage, himage, h.last]

theorem matched (h : SameCurrent s s') (ns : JsString) (options : DeleteOptions) :
    s.matched ns options = s'.matched ns options := by
  have hlast : ∀ entries : List (JsString × List StoredRevision),
      entries.filterMap (fun entry => Etcd.currentValue entry.2)
        = (entries.map fun entry => (entry.1, entry.2.getLast?)).filterMap fun entry =>
            entry.2.bind fun last => if last.deleted then none else some last.stored := by
    intro entries
    rw [List.filterMap_map]
    refine List.filterMap_congr fun entry _ => ?_
    unfold Etcd.currentValue
    cases hl : entry.2.getLast? <;> simp [hl]
  unfold FakeState.matched
  rw [hlast, hlast, h.iterateRange]

theorem opRecords (h : SameCurrent s s') (revision : Nat) (op : RequestOp) :
    s.opRecords revision op = s'.opRecords revision op := by
  unfold FakeState.opRecords
  split
  · rfl
  · rw [h.currentValue]
  · rw [h.matched]
  · rfl

theorem branchRecords (revision : Nat) : ∀ (ops : List RequestOp) {s s' : FakeState locale},
    SameCurrent s s' → branchRecords revision s ops = branchRecords revision s' ops
  | [], _, _, _ => rfl
  | op :: rest, s, s', h => by
      rw [FakeState.branchRecords, FakeState.branchRecords, h.opRecords,
        SameCurrent.branchRecords revision rest (h.appendRecords _)]

theorem evaluateCompare (h : SameCurrent s s') (clause : Compare) :
    s.evaluateCompare clause = s'.evaluateCompare clause := by
  simp only [FakeState.evaluateCompare, h.currentValue]

theorem chosenOperations (h : SameCurrent s s') (request : TxnRequest) :
    s.chosenOperations request = s'.chosenOperations request := by
  have hall : request.compare.all s.evaluateCompare = request.compare.all s'.evaluateCompare :=
    congrArg request.compare.all (funext h.evaluateCompare)
  rw [FakeState.chosenOperations, FakeState.chosenOperations, hall]

theorem txnStart (h : SameCurrent s s') (ops : List RequestOp) :
    SameCurrent (s.txnStart ops) (s'.txnStart ops) := by
  unfold FakeState.txnStart
  split
  · exact h.bumpRevision
  · exact h

end SameCurrent

/-- A transaction that returns has applied all its operations. -/
theorem txn_of_isOk {s : FakeState locale} {request : TxnRequest}
    (hok : (s.txn request).result.isOk = true) :
    (s.txn request).records = branchRecords (s.txnStart (s.chosenOperations request)).revision
        (s.txnStart (s.chosenOperations request)) (s.chosenOperations request)
      ∧ (s.txn request).state
        = (s.txnStart (s.chosenOperations request)).appendRecords (s.txn request).records := by
  cases hcheck : assertTxnWriteRangesValid (s.chosenOperations request) with
  | error e => rw [txn_of_overlap s request hcheck] at hok; cases hok
  | ok u =>
    by_cases hops : OpsValid (s.txnStart (s.chosenOperations request)).revision
      (s.txnStart (s.chosenOperations request)) (s.chosenOperations request)
    · simp [txn_of_valid s request hcheck hops]
    · obtain ⟨e, _, _, _, -, -, -, htxn⟩ := txn_of_not_valid s request hcheck hops
      rw [htxn] at hok
      cases hok

/-- **Trimming is invisible.** Two stores that agree on the last revisions
answer a request that returns with the same records, and agree again. -/
theorem SameCurrent.execWrite {s s' : FakeState locale} (h : SameCurrent s s')
    {request : WriteRequest} (hok : (s.execWrite request).result.isOk = true)
    (hok' : (s'.execWrite request).result.isOk = true) :
    (s.execWrite request).records = (s'.execWrite request).records
      ∧ SameCurrent (s.execWrite request).state (s'.execWrite request).state := by
  have hresult : ∀ {ρ : Type} {f : ρ → Response} {result : Except EtcdError ρ},
      (result.map f).isOk = true → result.isOk = true := by
    rintro ρ f (e | a) hr
    · cases hr
    · rfl
  cases request with
  | put ns options =>
    by_cases hput : s.PutValid ns options
    · have hput' : s'.PutValid ns options := by
        unfold PutValid at hput ⊢
        rwa [← h.currentValue]
      simp only [FakeState.execWrite, Outcome.map, put_of_valid s ns options hput,
        put_of_valid s' ns options hput', h.currentValue, h.revision, true_and]
      exact h.bumpRevision.appendRecord _
    · simp only [FakeState.execWrite, Outcome.map, put_of_not_valid s ns options hput] at hok
      cases hok
  | delete ns options =>
    by_cases hvalid : RangeValid options.key options.rangeEnd
    · simp only [FakeState.execWrite, Outcome.map, delete_of_valid s ns options hvalid,
        delete_of_valid s' ns options hvalid, h.matched, h.revision]
      split
      · exact ⟨rfl, h⟩
      · exact ⟨rfl, h.bumpRevision.appendRecords _⟩
    · simp only [FakeState.execWrite, Outcome.map, delete_of_not_valid s ns options hvalid] at hok
      cases hok
  | txn request =>
    simp only [FakeState.execWrite, Outcome.map] at hok hok' ⊢
    obtain ⟨hrecords, hstate⟩ := txn_of_isOk (hresult hok)
    obtain ⟨hrecords', hstate'⟩ := txn_of_isOk (hresult hok')
    have hstart := h.txnStart (s.chosenOperations request)
    rw [← h.chosenOperations] at hrecords' hstate'
    have hsame : (s.txn request).records = (s'.txn request).records := by
      rw [hrecords, hrecords', hstart.revision, hstart.branchRecords]
    rw [hstate, hstate', hsame]
    exact ⟨rfl, hstart.appendRecords _⟩

theorem SameCurrent.compact {s s' : FakeState locale} (h : SameCurrent s s') (requested : Int) :
    SameCurrent (s.compact requested).state (s'.compact requested).state := by
  refine ⟨?_, ?_⟩
  · rw [compact_revision, compact_revision, h.revision]
  · rw [compact_histories, compact_histories, h.last]

end FakeState

/-- The same requests, all of which return, append the same records to
stores that retain different numbers of revisions. -/
theorem batches_eq_of_run {ls : List StoreRequest} {t t' : Traced locale}
    (h : ((requests locale).guarded Traced.Succeeds).Run ls t)
    (h' : ((requests locale).guarded Traced.Succeeds).Run ls t') :
    t.batches = t'.batches ∧ FakeState.SameCurrent t.store t'.store := by
  induction h generalizing t' with
  | start hinit =>
    obtain ⟨n, rfl⟩ := hinit
    obtain ⟨n', rfl⟩ := h'.nil_inv
    exact ⟨rfl, rfl, rfl⟩
  | snoc run hstep ih =>
    obtain ⟨u', run', rfl, hok'⟩ := h'.snoc_inv
    obtain ⟨rfl, hok⟩ := hstep
    obtain ⟨hbatches, hsame⟩ := ih run'
    rename_i request
    cases request with
    | write request =>
      obtain ⟨hrecords, hnext⟩ := hsame.execWrite hok hok'
      exact ⟨by simp only [Traced.exec, hbatches, hrecords], hnext⟩
    | compact requested => exact ⟨by simp only [Traced.exec, hbatches], hsame.compact requested⟩

/-- **The counters of every reachable store.** In every run of requests
that return and whose puts are clear, the histories count what
`Counters` says, and a store that trims differently appends the same
records. -/
theorem versions_count {ls : List StoreRequest} {t : Traced locale}
    (h : ((requests locale).guarded fun t request =>
      t.Succeeds request ∧ t.PutsClear request).Run ls t) :
    Counters t ∧ ∀ t', ((requests locale).guarded Traced.Succeeds).Run ls t' →
      t'.batches = t.batches := by
  have hreach : ((requests locale).guarded Traced.PutsClear).Reach t :=
    System.Reach.guarded_mono (fun _ _ hok => hok.2) ⟨ls, h⟩
  refine ⟨counters_of_refines (refines_of_reach hreach) (batches_ascend hreach.of_guarded).2, ?_⟩
  intro t' h'
  exact (batches_eq_of_run h' (h.guarded_mono fun _ _ hok => hok.1)).1

/-- Two puts of "a": version 2, created at revision 1. -/
theorem versions_count_after_puts :
    Counters (((Traced.initial rootLocale 1).exec (FakeState.putText "a" "1")).exec
      (FakeState.putText "a" "2")) := by
  have h0 : ((requests rootLocale).guarded fun t request =>
      t.Succeeds request ∧ t.PutsClear request).Run [] (Traced.initial rootLocale 1) :=
    .start ⟨1, rfl⟩
  have h1 := h0.snoc (l := FakeState.putText "a" "1") ⟨rfl, by decide, fun _ => by decide⟩
  have h2 := h1.snoc (l := FakeState.putText "a" "2") ⟨rfl, by decide, fun _ => by decide⟩
  exact (versions_count h2).1

/-- é as one code unit, and as e with a combining accent. -/
def composedAndDecomposed : List StoreRequest :=
  [.write (.put [] { key := [0xE9] }), .write (.put [] { key := [0x65, 0x301] })]

/-- The second key of the two takes over the history of the first: its
only put has version 2. -/
theorem composedAndDecomposed_not_counters :
    ∃ t, ((requests rootLocale).guarded Traced.Succeeds).Run composedAndDecomposed t
      ∧ ¬ Counters t := by
  have h0 : ((requests rootLocale).guarded Traced.Succeeds).Run []
      (Traced.initial rootLocale 3) := .start ⟨3, rfl⟩
  have h1 := h0.snoc (l := .write (.put [] { key := [0xE9] })) ⟨rfl, by decide⟩
  have h2 := h1.snoc (l := .write (.put [] { key := [0x65, 0x301] })) ⟨rfl, by decide⟩
  refine ⟨_, h2, fun hcounters => ?_⟩
  have hentry := hcounters.entries [0x65, 0x301]
    [⟨[0xE9], some [], 1, 1, 1, false, 1⟩, ⟨[0x65, 0x301], some [], 1, 2, 2, false, 2⟩]
    ⟨[0x65, 0x301], [], 1, 2, 2⟩ (by decide) (by decide)
  exact absurd hentry.2.1 (by decide)

end Etcd

end Webernetes
