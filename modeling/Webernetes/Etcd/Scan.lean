/-
Webernetes.Etcd.Scan — what a range read finds.

A scan seeks its start in the collation's order and stops at the first
key that is out of range in code-unit order. So it finds the keys that
are `Reached`: not before the start, and every stored key from the start
up to them in range (`mem_iterateRange_iff`). Under each it picks the
last retained revision at or below the one asked for
(`resolveStoredValueAt_eq`). The sort map of the response then loses
nothing, because stored keys are never the same key to the collation
(`rangeValues_perm`).
-/
import Webernetes.Etcd.Refinement

namespace Webernetes

/-! ## Sorted maps -/

namespace SortedMap

variable {K V : Type} {cmp : K → K → Ordering} [Std.TransCmp cmp]

/-- An entry is in a prefix taken by a predicate when the predicate holds
of all entries up to it. -/
theorem mem_takeWhile_iff {items : List (K × V)} (h : KeysAscend cmp items)
    {p : K × V → Bool} {item : K × V} :
    item ∈ items.takeWhile p ↔
      item ∈ items ∧ ∀ other ∈ items, cmp other.1 item.1 ≠ .gt → p other = true := by
  induction items with
  | nil => simp
  | cons a rest ih =>
    have hrest : KeysAscend cmp rest := (List.pairwise_cons.mp h).2
    have ha : ∀ b ∈ rest, cmp a.1 b.1 = .lt := (List.pairwise_cons.mp h).1
    cases hpa : p a with
    | false =>
      simp only [List.takeWhile_cons, hpa, Bool.false_eq_true, if_false, List.not_mem_nil,
        false_iff, not_and]
      rintro hitem hall
      have hnot : cmp a.1 item.1 ≠ .gt := by
        rcases List.mem_cons.mp hitem with rfl | hitem
        · rw [show cmp item.1 item.1 = .eq from Std.ReflCmp.compare_self]
          simp
        · simp [ha item hitem]
      rw [hall a List.mem_cons_self hnot] at hpa
      cases hpa
    | true =>
      simp only [List.takeWhile_cons, hpa, if_true, List.mem_cons, ih hrest]
      constructor
      · rintro (rfl | ⟨hitem, hall⟩)
        · refine ⟨.inl rfl, fun other hother hle => ?_⟩
          rcases hother with rfl | hother
          · exact hpa
          · exact absurd (Std.OrientedCmp.gt_of_lt (ha other hother)) hle
        · refine ⟨.inr hitem, fun other hother hle => ?_⟩
          rcases hother with rfl | hother
          · exact hpa
          · exact hall other hother hle
      · rintro ⟨hitem, hall⟩
        rcases hitem with rfl | hitem
        · exact .inl rfl
        · exact .inr ⟨hitem, fun other hother hle => hall other (.inr hother) hle⟩

/-- Setting a key the map has no entry for adds one entry. -/
theorem items_set_perm {m : SortedMap cmp V} {key : K} (h : ∀ item ∈ m.items, cmp item.1 key ≠ .eq)
    (value : V) : (m.set key value).items.Perm ((key, value) :: m.items) := by
  rw [items_set]
  have hsplit : (m.items.filter (before cmp key) ++ m.items.filter (after cmp key)).Perm m.items := by
    have hafter : m.items.filter (after cmp key) = m.items.filter fun a => !before cmp key a := by
      refine List.filter_congr fun item hitem => ?_
      have hne := h item hitem
      cases hc : cmp item.1 key <;> simp_all [before, after]
    rw [hafter]
    exact List.filter_append_perm _ _
  exact List.perm_middle.trans (hsplit.cons _)

/-- Filling a map from values whose keys are all different. -/
theorem items_foldl_set_perm {α : Type} (key : α → K) : ∀ (values : List α) (m : SortedMap cmp α),
    values.Pairwise (fun a b => cmp (key a) (key b) ≠ .eq) →
    (∀ item ∈ m.items, ∀ value ∈ values, cmp item.1 (key value) ≠ .eq) →
    (values.foldl (fun m value => m.set (key value) value) m).items.Perm
      (m.items ++ values.map fun value => (key value, value))
  | [], m, _, _ => by simp
  | value :: rest, m, hpair, hother => by
      obtain ⟨hhead, hpair⟩ := List.pairwise_cons.mp hpair
      have hset := items_set_perm (fun item hitem => hother item hitem value List.mem_cons_self) value
      have hrun := items_foldl_set_perm key rest (m.set (key value) value) hpair ?_
      · refine hrun.trans ((hset.append_right _).trans ?_)
        simpa using List.perm_middle.symm
      · intro item hitem v hv
        rcases mem_set_iff.mp hitem with rfl | ⟨hitem, -⟩
        · exact hhead v hv
        · exact hother item hitem v (List.mem_cons_of_mem _ hv)

end SortedMap

namespace Etcd

open Js Base Base.Mvcc
open FakeState (recordRevision)

variable {locale : Locale}

/-! ## The scan -/

/-- The scan from `start` comes to `key`: it is not before the start, and
nothing stored between the two is out of range. -/
def Reached {V : Type} (m : SortedMap locale.localeCompare V) (start rangeEnd key : JsString) :
    Prop :=
  locale.localeCompare key start ≠ .lt ∧
    ∀ stored ∈ m.keys, locale.localeCompare stored start ≠ .lt →
      locale.localeCompare stored key ≠ .gt → isKeyInRange stored start rangeEnd = true

theorem mem_iterateRange_iff {V : Type} {m : SortedMap locale.localeCompare V}
    {start rangeEnd : JsString} {item : JsString × V} :
    item ∈ iterateRange m start rangeEnd ↔ item ∈ m.items ∧ Reached m start rangeEnd item.1 := by
  have hascend : KeysAscend locale.localeCompare (m.entriesFrom start) :=
    m.ascending.sublist (List.drop_sublist _ _)
  unfold iterateRange Reached
  rw [SortedMap.mem_takeWhile_iff hascend]
  simp only [SortedMap.mem_entriesFrom_iff, SortedMap.keys, List.mem_map]
  constructor
  · rintro ⟨⟨hitem, hstart⟩, hall⟩
    refine ⟨hitem, hstart, ?_⟩
    rintro _ ⟨other, hother, rfl⟩ hs hk
    exact hall other ⟨hother, hs⟩ hk
  · rintro ⟨hitem, hstart, hall⟩
    exact ⟨⟨hitem, hstart⟩, fun other hother hk => hall other.1 ⟨other, hother.1, rfl⟩ hother.2 hk⟩

/-- A key the scan comes to is in range, when it is stored. -/
theorem Reached.inRange {V : Type} {m : SortedMap locale.localeCompare V}
    {start rangeEnd key : JsString} (h : Reached m start rangeEnd key) (hkey : key ∈ m.keys) :
    isKeyInRange key start rangeEnd = true :=
  h.2 key hkey h.1 (by simp [show locale.localeCompare key key = .eq from locale.same_refl key])

/-! ## One key's history -/

/-- `findRevisionAtOrBefore` finds the last revision at or below the one
asked for. `kept` revisions are below it and `low` runs up to them. -/
theorem findRevisionLoop_eq {revisions : List StoredRevision} {revision : Nat}
    (hfall : Falling (fun r : StoredRevision => decide (r.modRevision ≤ revision)) revisions) :
    ∀ (fuel : Nat) (low high : Int) (result : Option StoredRevision),
      0 ≤ low →
      low ≤ (revisions.takeWhile fun r => decide (r.modRevision ≤ revision)).length →
      (revisions.takeWhile fun r => decide (r.modRevision ≤ revision)).length ≤ high + 1 →
      high + 1 ≤ revisions.length → high + 1 - low ≤ fuel →
      result = (revisions.take low.toNat).getLast? →
      findRevisionLoop revisions revision fuel low high result
        = (revisions.takeWhile fun r => decide (r.modRevision ≤ revision)).getLast?
  | fuel, low, high, result, h0, hlow, hhigh, hlen, hfuel, hresult => by
      have hdone : high < low → result =
          (revisions.takeWhile fun r => decide (r.modRevision ≤ revision)).getLast? := by
        intro hlt
        rw [hresult]
        have hn : low.toNat
            = (revisions.takeWhile fun r => decide (r.modRevision ≤ revision)).length := by omega
        rw [hn, ← List.prefix_iff_eq_take.mp (List.takeWhile_prefix _)]
      cases fuel with
      | zero => exact hdone (by omega)
      | succ fuel =>
        rw [findRevisionLoop]
        split
        · rename_i hle
          generalize hmid : (low + high) / 2 = mid
          have hmid0 : 0 ≤ mid := by omega
          have hmidlow : low ≤ mid := by omega
          have hmidhigh : mid ≤ high := by omega
          have hlt : mid.toNat < revisions.length := by omega
          have hget : revisions[mid.toNat]? = some revisions[mid.toNat] :=
            List.getElem?_eq_getElem hlt
          rw [hget]
          simp only
          split
          · rename_i hcand
            have hbelow : mid.toNat
                < (revisions.takeWhile fun r => decide (r.modRevision ≤ revision)).length := by
              by_contra hge
              have hfalse := hfall.getElem?_false (Nat.le_of_not_lt hge) hget
              simp only [decide_eq_false_iff_not] at hfalse
              exact hfalse hcand
            refine findRevisionLoop_eq hfall fuel _ _ _ (by omega) (by omega) hhigh hlen (by omega) ?_
            have hnat : (mid + 1).toNat = mid.toNat + 1 := by omega
            rw [hnat, List.take_add_one, hget, Option.toList_some, List.getLast?_concat]
          · rename_i hcand
            have habove : (revisions.takeWhile fun r => decide (r.modRevision ≤ revision)).length
                ≤ mid.toNat := by
              by_contra hlt'
              obtain ⟨x, hx, hpx⟩ := getElem?_takeWhile_true
                (p := fun r : StoredRevision => decide (r.modRevision ≤ revision)) revisions
                mid.toNat (by omega)
              rw [hget, Option.some.injEq] at hx
              subst hx
              exact hcand (by simpa using hpx)
            exact findRevisionLoop_eq hfall fuel _ _ _ h0 hlow (by omega) (by omega) (by omega) hresult
        · exact hdone (by omega)

/-- A read at a revision sees the value in force after the retained
revisions up to it, when these come first. -/
theorem resolveStoredValueAt_of_falling {revisions : List StoredRevision} {revision : Nat}
    (hfall : Falling (fun r : StoredRevision => decide (r.modRevision ≤ revision)) revisions) :
    resolveStoredValueAt revisions revision
      = currentValue (revisions.filter fun r => decide (r.modRevision ≤ revision)) := by
  have hle := (List.takeWhile_prefix (p := fun r : StoredRevision =>
    decide (r.modRevision ≤ revision)) (l := revisions)).length_le
  unfold resolveStoredValueAt findRevisionAtOrBefore
  rw [findRevisionLoop_eq hfall _ _ _ _ (Int.le_refl 0) (by omega) (by omega) (by omega) (by omega)
    (by simp), hfall.takeWhile_eq_filter]
  rfl

theorem resolveStoredValueAt_eq {revisions : List StoredRevision}
    (h : revisions.Pairwise fun a b => a.modRevision < b.modRevision) (revision : Nat) :
    resolveStoredValueAt revisions revision
      = currentValue (revisions.filter fun r => decide (r.modRevision ≤ revision)) :=
  resolveStoredValueAt_of_falling <| h.imp fun {a b} hab hb => by
    simp only [decide_eq_true_eq] at hb ⊢
    omega

/-- At a revision no retained one is above, a read sees the value in force. -/
theorem resolveStoredValueAt_of_le {revisions : List StoredRevision} {revision : Nat}
    (h : ∀ r ∈ revisions, r.modRevision ≤ revision) :
    resolveStoredValueAt revisions revision = currentValue revisions := by
  have hall : ∀ r ∈ revisions, decide (r.modRevision ≤ revision) = true :=
    fun r hr => decide_eq_true (h r hr)
  rw [resolveStoredValueAt_of_falling, List.filter_eq_self.mpr hall]
  exact List.pairwise_iff_forall_sublist.mpr fun {a b} hab _ =>
    hall a (hab.subset List.mem_cons_self)

/-! ## Histories at a revision -/

namespace FakeState

/-- The value in force under each key a scan finds, at a revision. -/
def found (s : FakeState locale) (start rangeEnd : JsString) (revision : Nat) :
    List StoredValue :=
  (iterateRange s.histories start rangeEnd).filterMap fun entry =>
    currentValue (entry.2.filter fun r => decide (r.modRevision ≤ revision))

/-- The read takes whole entries, and all of them. -/
def Plain (options : RangeOptions) : Prop :=
  options.limit ≤ 0 ∧ options.keysOnly = false ∧ options.countOnly = false
    ∧ options.minModRevision = none ∧ options.maxModRevision = none
    ∧ options.minCreateRevision = none ∧ options.maxCreateRevision = none

instance (options : RangeOptions) : Decidable (Plain options) :=
  inferInstanceAs (Decidable (_ ∧ _))

namespace Refines

variable {s : FakeState locale} {log : List RevisionEvent}

theorem recordsTo_increasing (h : s.Refines log) (key : JsString) :
    ((recordsTo log key).map recordRevision).Pairwise fun a b => a.modRevision < b.modRevision := by
  rw [List.pairwise_map]
  refine (h.fresh.sublist List.filter_sublist).imp_of_mem fun {a b} ha hb hab => ?_
  exact hab ((mem_recordsTo.mp ha).2.trans (mem_recordsTo.mp hb).2.symm)

theorem revisions_increasing (h : s.Refines log) {key : JsString}
    {revisions : List StoredRevision} (hitem : (key, revisions) ∈ s.histories.items) :
    revisions.Pairwise fun a b => a.modRevision < b.modRevision := by
  obtain ⟨-, dropped, hsplit, -⟩ := h.stored key revisions hitem
  exact (hsplit ▸ h.recordsTo_increasing key).sublist (List.sublist_append_right _ _)

theorem modRevision_le (h : s.Refines log) {key : JsString} {revisions : List StoredRevision}
    (hitem : (key, revisions) ∈ s.histories.items) {r : StoredRevision} (hr : r ∈ revisions) :
    r.modRevision ≤ s.revision := by
  obtain ⟨-, dropped, hsplit, -⟩ := h.stored key revisions hitem
  have hfull : r ∈ (recordsTo log key).map recordRevision := by
    rw [← hsplit]; exact List.mem_append_right _ hr
  obtain ⟨record, hrecord, rfl⟩ := List.mem_map.mp hfull
  exact (h.bounded record (mem_recordsTo.mp hrecord).1).2

/-- The log up to a revision is a prefix of the log, so it is sound. -/
theorem sound_upTo (h : s.Refines log) (revision : Nat) :
    Sound (log.filter fun r => r.revision ≤ revision) := by
  have hfall : Falling (fun r : RevisionEvent => decide (r.revision ≤ revision)) log :=
    h.ordered.imp fun {a b} hab hb => by
      simp only [decide_eq_true_eq] at hb ⊢
      omega
  have hsplit := List.takeWhile_append_dropWhile
    (p := fun r : RevisionEvent => decide (r.revision ≤ revision)) (l := log)
  rw [← hfall.takeWhile_eq_filter]
  exact (hsplit ▸ h.sound).of_append

/-- The value in force under a stored key at a revision: the key's entry
then, as long as some retained revision is old enough. -/
theorem currentValue_at (h : s.Refines log) {key : JsString} {revisions : List StoredRevision}
    (hitem : (key, revisions) ∈ s.histories.items) (revision : Nat) :
    Etcd.currentValue (revisions.filter fun r => decide (r.modRevision ≤ revision))
      = if ∃ kept ∈ revisions, kept.modRevision ≤ revision then
          (entry (upTo (writes log) revision) key).map (toStored key)
        else none := by
  split
  · rename_i hkept
    obtain ⟨-, dropped, hsplit, -⟩ := h.stored key revisions hitem
    have hne : revisions.filter (fun r => decide (r.modRevision ≤ revision)) ≠ [] := by
      obtain ⟨kept, hkept, hle⟩ := hkept
      exact List.ne_nil_of_mem (List.mem_filter.mpr ⟨hkept, by simpa using hle⟩)
    have hlog : upTo (writes log) revision = writes (log.filter fun r => r.revision ≤ revision) := by
      simp only [upTo, writes, List.filter_map]
      rfl
    rw [hlog, ← (h.sound_upTo revision).currentValue, ← currentValue_append hne]
    congr 1
    rw [← List.filter_append (dropped), hsplit, List.filter_map]
    congr 1
    simp only [recordsTo, List.filter_filter]
    exact List.filter_congr fun r _ => Bool.and_comm _ _
  · rename_i hkept
    have hnil : revisions.filter (fun r => decide (r.modRevision ≤ revision)) = [] := by
      rw [List.filter_eq_nil_iff]
      intro r hr hle
      exact hkept ⟨r, hr, by simpa using hle⟩
    rw [hnil]
    rfl

/-- What a scan finds at a revision. -/
theorem mem_found_iff (h : s.Refines log) {start rangeEnd : JsString} {revision : Nat}
    {value : StoredValue} :
    value ∈ s.found start rangeEnd revision ↔
      value.key ∈ s.histories.keys ∧ Reached s.histories start rangeEnd value.key
        ∧ (∃ kept ∈ s.revisionsOf value.key, kept.modRevision ≤ revision)
        ∧ ∃ e, entry (upTo (writes log) revision) value.key = some e
          ∧ value = toStored value.key e := by
  unfold found
  rw [List.mem_filterMap]
  constructor
  · rintro ⟨⟨key, revisions⟩, hmem, hcur⟩
    obtain ⟨hitem, hreach⟩ := mem_iterateRange_iff.mp hmem
    rw [h.currentValue_at hitem] at hcur
    split at hcur
    · rename_i hkept
      obtain ⟨e, he, rfl⟩ := Option.map_eq_some_iff.mp hcur
      exact ⟨mem_keys.mpr ⟨_, hitem⟩, hreach, (revisionsOf_of_mem hitem).symm ▸ hkept, e, he, rfl⟩
    · cases hcur
  · rintro ⟨hkey, hreach, hkept, e, he, hvalue⟩
    obtain ⟨revisions, hitem⟩ := mem_keys.mp hkey
    rw [revisionsOf_of_mem hitem] at hkept
    refine ⟨(value.key, revisions), mem_iterateRange_iff.mpr ⟨hitem, hreach⟩, ?_⟩
    rw [h.currentValue_at hitem, if_pos hkept, he, hvalue]
    rfl

/-- The values a scan finds are of keys that are different to the
collation too. -/
theorem found_pairwise (h : s.Refines log) (start rangeEnd : JsString) (revision : Nat) :
    (s.found start rangeEnd revision).Pairwise fun a b => ¬ locale.Same a.key b.key := by
  unfold found
  rw [List.pairwise_filterMap]
  have hsub : (iterateRange s.histories start rangeEnd).Sublist s.histories.items :=
    (List.takeWhile_sublist _).trans (List.drop_sublist _ _)
  refine (s.histories.ascending.sublist hsub).imp_of_mem fun {a b} ha hb hab v hv w hw => ?_
  have hkey : ∀ {item : JsString × List StoredRevision} {u : StoredValue},
      item ∈ s.histories.items → Etcd.currentValue
        (item.2.filter fun r => decide (r.modRevision ≤ revision)) = some u → u.key = item.1 := by
    rintro ⟨key, revisions⟩ u hitem hu
    rw [h.currentValue_at hitem] at hu
    split at hu
    · obtain ⟨e, -, rfl⟩ := Option.map_eq_some_iff.mp hu
      rfl
    · cases hu
  rw [hkey (hsub.mem ha) hv, hkey (hsub.mem hb) hw]
  intro hsame
  rw [show locale.localeCompare a.1 b.1 = .eq from hsame] at hab
  cases hab

theorem found_nodup (h : s.Refines log) (start rangeEnd : JsString) (revision : Nat) :
    ((s.found start rangeEnd revision).map (·.key)).Nodup := by
  rw [List.Nodup, List.pairwise_map]
  refine (h.found_pairwise start rangeEnd revision).imp fun {a b} hab heq => hab ?_
  rw [heq]
  exact locale.same_refl _

/-- Sorting loses nothing: a plain read returns what the scan finds. -/
theorem rangeValues_perm (h : s.Refines log) (ns : JsString) {options : RangeOptions}
    (hplain : Plain options) (revision : Nat) :
    (s.rangeValues ns options revision).Perm
      (s.found (namespacedKey ns options.key) (namespacedRangeEnd ns options.rangeEnd)
        revision) := by
  obtain ⟨-, -, -, hmin, hmax, hmin', hmax'⟩ := hplain
  have hvalues : ((iterateRange s.histories (namespacedKey ns options.key)
        (namespacedRangeEnd ns options.rangeEnd)).filterMap fun entry =>
          resolveStoredValueAt entry.2 revision).filter
            (fun value => passesRangeFilters value options)
      = s.found (namespacedKey ns options.key) (namespacedRangeEnd ns options.rangeEnd)
        revision := by
    rw [List.filter_eq_self.mpr fun value _ => by
      simp [passesRangeFilters, hmin, hmax, hmin', hmax']]
    refine List.filterMap_congr fun item hitem => ?_
    obtain ⟨key, revisions⟩ := item
    exact resolveStoredValueAt_eq (h.revisions_increasing (mem_iterateRange_iff.mp hitem).1) revision
  unfold rangeValues
  simp only [hvalues]
  let sorted : SortedMap (compareSortKeys locale options.sortOrder) StoredValue := SortedMap.empty
  have hsort := SortedMap.items_foldl_set_perm
    (fun value => makeSortKey value options.sortTarget)
    (s.found (namespacedKey ns options.key) (namespacedRangeEnd ns options.rangeEnd) revision)
    sorted ?_ (by simp [sorted, SortedMap.empty])
  · have hmap := hsort.map Prod.snd
    simpa [sorted, SortedMap.empty, Function.comp_def] using hmap
  · refine (h.found_pairwise _ _ revision).imp fun {a b} hab heq => hab ?_
    have hkey : ∀ (value : StoredValue) (target : SortTarget),
        (makeSortKey value target).key = value.key := fun value target => by
      cases target <;> rfl
    have hties := (Ordering.then_eq_eq.mp heq).2
    rwa [hkey, hkey] at hties

end Refines

end FakeState

end Etcd

end Webernetes
