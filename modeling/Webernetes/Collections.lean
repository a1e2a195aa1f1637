/-
Webernetes.Collections — `SortedMap` of `collections.ts`.

The map keeps its entries in one list ordered by a comparator and finds
its place in it by binary search. Only the sign of a comparator's answer
is read, so a comparator is a function to `Ordering`; all that is asked
of it is that it is a total preorder (`Std.TransCmp`). In particular two
different keys may compare equal, and then they are one key to the map.

The structure carries the order of its entries (`ascending`), so every
operation proves that it keeps it. The theorems read each operation as a
filter of the entry list: `lowerBound_eq`, `items_set`, `items_delete`,
`entriesFrom_eq`, and lookups as membership: `get_eq_some_iff`.
-/
import Webernetes.Base.BinarySearch
import Mathlib.Order.Defs.LinearOrder
import Mathlib.Data.List.Pairwise

namespace Webernetes

open Base

variable {K V : Type} {cmp : K → K → Ordering}

/-! ## The binary search -/

/-- The loop of `SortedMap.lowerBound`. -/
def lowerBoundLoop (cmp : K → K → Ordering) (items : List (K × V)) (key : K) :
    Nat → Nat → Nat → Nat
  | 0, low, _ => low
  | fuel + 1, low, high =>
    if low < high then
      match items[(low + high) / 2]? with
      | none => low
      | some item =>
        if cmp item.1 key = .lt then
          lowerBoundLoop cmp items key fuel ((low + high) / 2 + 1) high
        else lowerBoundLoop cmp items key fuel low ((low + high) / 2)
    else low

/-- `SortedMap.lowerBound`; the interval halves at every step, so the
length is fuel enough. -/
def lowerBound (cmp : K → K → Ordering) (items : List (K × V)) (key : K) : Nat :=
  lowerBoundLoop cmp items key items.length 0 items.length

/-- The entries are in strictly ascending key order. -/
def KeysAscend (cmp : K → K → Ordering) (items : List (K × V)) : Prop :=
  items.Pairwise fun a b => cmp a.1 b.1 = .lt

/-- The entry's key is before `key`. -/
def before (cmp : K → K → Ordering) (key : K) (item : K × V) : Bool :=
  cmp item.1 key == .lt

/-- The entry's key is after `key`. -/
def after (cmp : K → K → Ordering) (key : K) (item : K × V) : Bool :=
  cmp item.1 key == .gt

/-- The entry's key compares equal to `key`. -/
def same (cmp : K → K → Ordering) (key : K) (item : K × V) : Bool :=
  cmp item.1 key == .eq

theorem lowerBoundLoop_eq_searchLoop (items : List (K × V)) (key : K) :
    ∀ (fuel low high : Nat), high ≤ items.length →
      lowerBoundLoop cmp items key fuel low high
        = searchLoop (fun i => (items[i]?.map (before cmp key)).getD false) fuel low high
  | 0, _, _, _ => rfl
  | fuel + 1, low, high, hhigh => by
      rw [lowerBoundLoop, searchLoop]
      split
      · rename_i hlt
        have hmid : (low + high) / 2 < items.length := by omega
        rw [List.getElem?_eq_getElem hmid]
        simp only [before, Option.map_some, Option.getD_some, beq_iff_eq]
        split
        · exact lowerBoundLoop_eq_searchLoop items key fuel _ high hhigh
        · exact lowerBoundLoop_eq_searchLoop items key fuel low _ (by omega)
      · rfl

section Order

variable [Std.TransCmp cmp]

theorem KeysAscend.falling {items : List (K × V)} (h : KeysAscend cmp items) (key : K) :
    Falling (before cmp key) items := by
  refine List.Pairwise.imp ?_ h
  intro a b hab hb
  simp only [before, beq_iff_eq] at hb ⊢
  exact Std.TransCmp.lt_trans hab hb

/-- The lower bound is the number of entries before the key. -/
theorem lowerBound_eq {items : List (K × V)} (h : KeysAscend cmp items) (key : K) :
    lowerBound cmp items key = (items.takeWhile (before cmp key)).length := by
  rw [lowerBound, lowerBoundLoop_eq_searchLoop _ _ _ _ _ (Nat.le_refl _)]
  exact searchLoop_falling (h.falling key) _ fun _ => rfl

theorem drop_lowerBound {items : List (K × V)} (h : KeysAscend cmp items) (key : K) :
    items.drop (lowerBound cmp items key) = items.filter fun a => !before cmp key a := by
  rw [lowerBound_eq h, drop_takeWhile_length, (h.falling key).dropWhile_eq_filter]

theorem take_lowerBound {items : List (K × V)} (h : KeysAscend cmp items) (key : K) :
    items.take (lowerBound cmp items key) = items.filter (before cmp key) := by
  rw [lowerBound_eq h, ← (h.falling key).takeWhile_eq_filter]
  exact List.prefix_iff_eq_take.mp (List.takeWhile_prefix _) |>.symm

/-- What follows the entries before the key: at most one entry with an
equal key, then the entries after it. -/
theorem filter_not_before_cases {items : List (K × V)} (h : KeysAscend cmp items) (key : K) :
    (items.filter (fun a => !before cmp key a) = items.filter (after cmp key)
      ∧ items.filter (same cmp key) = []) ∨
    ∃ item, cmp item.1 key = .eq
      ∧ items.filter (fun a => !before cmp key a) = item :: items.filter (after cmp key)
      ∧ items.filter (same cmp key) = [item] := by
  induction items with
  | nil => exact .inl ⟨rfl, rfl⟩
  | cons a rest ih =>
    have hrest : KeysAscend cmp rest := (List.pairwise_cons.mp h).2
    have ha : ∀ b ∈ rest, cmp a.1 b.1 = .lt := (List.pairwise_cons.mp h).1
    cases hak : cmp a.1 key with
    | lt => simpa [before, after, same, hak] using ih hrest
    | eq =>
      have hafter : ∀ b ∈ rest, cmp b.1 key = .gt := by
        intro b hb
        have hkb : cmp key b.1 = .lt :=
          Std.TransCmp.lt_of_eq_of_lt (Std.OrientedCmp.eq_symm hak) (ha b hb)
        exact Std.OrientedCmp.gt_iff_lt.mpr hkb
      refine .inr ⟨a, hak, ?_, ?_⟩
      · have hnb : rest.filter (fun b => !before cmp key b) = rest :=
          List.filter_eq_self.mpr fun b hb => by simp [before, hafter b hb]
        have haf : rest.filter (after cmp key) = rest :=
          List.filter_eq_self.mpr fun b hb => by simp [after, hafter b hb]
        have hab : before cmp key a = false := by simp [before, hak]
        have haa : after cmp key a = false := by simp [after, hak]
        simp [hab, haa, hnb, haf]
      · have hnil : rest.filter (same cmp key) = [] :=
          List.filter_eq_nil_iff.mpr fun b hb => by simp [same, hafter b hb]
        simp [same, hak] at hnil ⊢
        exact hnil
    | gt =>
      have hafter : ∀ b ∈ rest, cmp b.1 key = .gt := by
        intro b hb
        have hka : cmp key a.1 = .lt := Std.OrientedCmp.gt_iff_lt.mp hak
        exact Std.OrientedCmp.gt_iff_lt.mpr (Std.TransCmp.lt_trans hka (ha b hb))
      refine .inl ⟨?_, ?_⟩
      · refine List.filter_congr fun b hb => ?_
        rcases List.mem_cons.mp hb with rfl | hb
        · simp [before, after, hak]
        · simp [before, after, hafter b hb]
      · rw [List.filter_eq_nil_iff]
        intro b hb
        rcases List.mem_cons.mp hb with rfl | hb
        · simp [same, hak]
        · simp [same, hafter b hb]

end Order

theorem insertIdx_length_append {α : Type} (l r : List α) (a : α) :
    (l ++ r).insertIdx l.length a = l ++ a :: r := by
  induction l with
  | nil => simp
  | cons b l ih => simpa using ih

/-! ## The map -/

/-- `SortedMap`: its entries, in ascending key order. -/
structure SortedMap (cmp : K → K → Ordering) (V : Type) where
  items : List (K × V)
  ascending : KeysAscend cmp items

namespace SortedMap

/-- `new SortedMap(compareKeys)`. -/
def empty : SortedMap cmp V where
  items := []
  ascending := List.Pairwise.nil

instance : Inhabited (SortedMap cmp V) := ⟨empty⟩

def size (m : SortedMap cmp V) : Nat := m.items.length

/-- `SortedMap.get`. -/
def get (m : SortedMap cmp V) (key : K) : Option V :=
  match m.items[lowerBound cmp m.items key]? with
  | some existing => if cmp existing.1 key = .eq then some existing.2 else none
  | none => none

/-- The entry list `SortedMap.set` leaves. -/
def setItems (cmp : K → K → Ordering) (items : List (K × V)) (key : K) (value : V) :
    List (K × V) :=
  match items[lowerBound cmp items key]? with
  | some existing =>
    if cmp existing.1 key = .eq then items.set (lowerBound cmp items key) (key, value)
    else items.insertIdx (lowerBound cmp items key) (key, value)
  | none => items.insertIdx (lowerBound cmp items key) (key, value)

/-- The entry list `SortedMap.delete` leaves. -/
def deleteItems (cmp : K → K → Ordering) (items : List (K × V)) (key : K) : List (K × V) :=
  match items[lowerBound cmp items key]? with
  | some existing =>
    if cmp existing.1 key = .eq then items.eraseIdx (lowerBound cmp items key) else items
  | none => items

/-- The keys of the entries, in order. -/
def keys (m : SortedMap cmp V) : List K := m.items.map Prod.fst

variable [Std.TransCmp cmp]

omit [Std.TransCmp cmp] in
/-- What stands after a key does not compare equal to it. -/
theorem ne_of_head_after {items rest : List (K × V)} {key : K} {b : K × V}
    (h : items.filter (after cmp key) = b :: rest) : cmp b.1 key ≠ .eq := by
  have hmem : b ∈ items.filter (after cmp key) := by rw [h]; exact List.mem_cons_self
  have hb : cmp b.1 key = .gt := by simpa [after] using (List.mem_filter.mp hmem).2
  simp [hb]

/-- The list around the lower bound of a key. -/
theorem items_split {items : List (K × V)} (h : KeysAscend cmp items) (key : K) :
    items = items.filter (before cmp key) ++ items.filter (fun a => !before cmp key a)
      ∧ lowerBound cmp items key = (items.filter (before cmp key)).length
      ∧ items[lowerBound cmp items key]?
          = (items.filter fun a => !before cmp key a).head? := by
  refine ⟨?_, ?_, ?_⟩
  · rw [← take_lowerBound h, ← drop_lowerBound h, List.take_append_drop]
  · rw [lowerBound_eq h, (h.falling key).takeWhile_eq_filter]
  · rw [← drop_lowerBound h, List.head?_drop]

theorem setItems_eq {items : List (K × V)} (h : KeysAscend cmp items) (key : K) (value : V) :
    setItems cmp items key value
      = items.filter (before cmp key) ++ (key, value) :: items.filter (after cmp key) := by
  obtain ⟨hsplit, hidx, hhead⟩ := items_split h key
  have hinsert : ∀ rest : List (K × V),
      items = items.filter (before cmp key) ++ rest →
      items.insertIdx (lowerBound cmp items key) (key, value)
        = items.filter (before cmp key) ++ (key, value) :: rest := by
    intro rest hrest
    generalize hl : items.filter (before cmp key) = l at hrest hidx ⊢
    rw [hidx, hrest]
    exact insertIdx_length_append _ _ _
  unfold setItems
  rw [hhead]
  rcases filter_not_before_cases h key with ⟨hnot, -⟩ | ⟨item, hitem, hnot, -⟩
  · rw [hnot] at hsplit ⊢
    cases hafter : items.filter (after cmp key) with
    | nil => rw [hafter] at hsplit; exact hinsert [] hsplit
    | cons b rest =>
      rw [hafter] at hsplit
      simp only [List.head?_cons]
      rw [if_neg (ne_of_head_after hafter)]
      exact hinsert _ hsplit
  · rw [hnot] at hsplit ⊢
    simp only [List.head?_cons]
    rw [if_pos hitem]
    generalize hl : items.filter (before cmp key) = l at hsplit hidx ⊢
    generalize hr : items.filter (after cmp key) = r at hsplit ⊢
    rw [hidx, hsplit]
    simp

theorem deleteItems_eq {items : List (K × V)} (h : KeysAscend cmp items) (key : K) :
    deleteItems cmp items key = items.filter fun a => !same cmp key a := by
  obtain ⟨hsplit, hidx, hhead⟩ := items_split h key
  have hfilter : items.filter (fun a => !same cmp key a)
      = items.filter (before cmp key) ++ items.filter (after cmp key) := by
    conv_lhs => rw [hsplit]
    rw [List.filter_append, List.filter_filter, List.filter_filter]
    congr 1 <;> refine List.filter_congr fun a _ => ?_
    · cases hc : cmp a.1 key <;> simp [before, same, hc]
    · cases hc : cmp a.1 key <;> simp [before, same, after, hc]
  unfold deleteItems
  rw [hhead, hfilter]
  rcases filter_not_before_cases h key with ⟨hnot, -⟩ | ⟨item, hitem, hnot, -⟩
  · rw [hnot] at hsplit ⊢
    cases hafter : items.filter (after cmp key) with
    | nil => rw [hafter] at hsplit; exact hsplit
    | cons b rest =>
      rw [hafter] at hsplit
      simp only [List.head?_cons]
      rw [if_neg (ne_of_head_after hafter)]
      exact hsplit
  · rw [hnot] at hsplit ⊢
    simp only [List.head?_cons]
    rw [if_pos hitem]
    generalize hl : items.filter (before cmp key) = l at hsplit hidx ⊢
    generalize hr : items.filter (after cmp key) = r at hsplit ⊢
    rw [hidx, hsplit, List.eraseIdx_append_of_length_le (Nat.le_refl _)]
    simp

/-- Replacing or inserting an entry keeps the order. -/
theorem setItems_ascend {items : List (K × V)} (h : KeysAscend cmp items) (key : K) (value : V) :
    KeysAscend cmp (setItems cmp items key value) := by
  rw [setItems_eq h]
  have hbefore : ∀ a ∈ items.filter (before cmp key), cmp a.1 key = .lt := by
    intro a ha
    simpa [before] using (List.mem_filter.mp ha).2
  have hafter : ∀ b ∈ items.filter (after cmp key), cmp key b.1 = .lt := by
    intro b hb
    exact Std.OrientedCmp.gt_iff_lt.mp (by simpa [after] using (List.mem_filter.mp hb).2)
  refine List.pairwise_append.mpr
    ⟨h.sublist List.filter_sublist,
      List.pairwise_cons.mpr ⟨hafter, h.sublist List.filter_sublist⟩, ?_⟩
  intro a ha b hb
  rcases List.mem_cons.mp hb with rfl | hb
  · exact hbefore a ha
  · exact Std.TransCmp.lt_trans (hbefore a ha) (hafter b hb)

/-- `SortedMap.set`; the value it returns, the one replaced, is `get`
before the call. -/
def set (m : SortedMap cmp V) (key : K) (value : V) : SortedMap cmp V where
  items := setItems cmp m.items key value
  ascending := setItems_ascend m.ascending key value

/-- `SortedMap.delete`; the value it returns, the one removed, is `get`
before the call. -/
def delete (m : SortedMap cmp V) (key : K) : SortedMap cmp V where
  items := deleteItems cmp m.items key
  ascending := by
    rw [deleteItems_eq m.ascending]
    exact m.ascending.sublist List.filter_sublist

/-- `SortedMap.entriesFrom`. -/
def entriesFrom (m : SortedMap cmp V) (key : K) : List (K × V) :=
  m.items.drop (lowerBound cmp m.items key)

/-! ## What the operations do to the entries -/

theorem items_set (m : SortedMap cmp V) (key : K) (value : V) :
    (m.set key value).items
      = m.items.filter (before cmp key) ++ (key, value) :: m.items.filter (after cmp key) :=
  setItems_eq m.ascending key value

theorem items_delete (m : SortedMap cmp V) (key : K) :
    (m.delete key).items = m.items.filter fun a => !same cmp key a :=
  deleteItems_eq m.ascending key

theorem entriesFrom_eq (m : SortedMap cmp V) (key : K) :
    m.entriesFrom key = m.items.filter fun a => !before cmp key a :=
  drop_lowerBound m.ascending key

theorem mem_set_iff {m : SortedMap cmp V} {key : K} {value : V} {item : K × V} :
    item ∈ (m.set key value).items
      ↔ item = (key, value) ∨ (item ∈ m.items ∧ cmp item.1 key ≠ .eq) := by
  rw [items_set]
  simp only [List.mem_append, List.mem_cons, List.mem_filter, before, after, beq_iff_eq]
  cases hc : cmp item.1 key <;> simp [or_comm]

theorem mem_entriesFrom_iff {m : SortedMap cmp V} {key : K} {item : K × V} :
    item ∈ m.entriesFrom key ↔ item ∈ m.items ∧ cmp item.1 key ≠ .lt := by
  rw [entriesFrom_eq]
  simp [before]

/-- Two entries whose keys compare equal are one entry. -/
theorem eq_of_mem_of_cmp_eq {m : SortedMap cmp V} {a b : K × V} (ha : a ∈ m.items)
    (hb : b ∈ m.items) (hab : cmp a.1 b.1 = .eq) : a = b := by
  have hlt : m.items.Pairwise fun a b => cmp a.1 b.1 = .eq → a = b :=
    m.ascending.imp fun {x y} hxy hc => by rw [hxy] at hc; cases hc
  have hgt : m.items.Pairwise (flip fun a b => cmp a.1 b.1 = .eq → a = b) :=
    m.ascending.imp fun {x y} hxy hc => by
      rw [Std.OrientedCmp.gt_of_lt hxy] at hc; cases hc
  exact hlt.forall_of_forall_of_flip (fun _ _ _ => rfl) hgt ha hb hab

/-- Lookup is membership up to the comparator. -/
theorem get_eq_some_iff {m : SortedMap cmp V} {key : K} {value : V} :
    m.get key = some value ↔ ∃ k, (k, value) ∈ m.items ∧ cmp k key = .eq := by
  obtain ⟨-, -, hhead⟩ := items_split m.ascending key
  unfold get
  rw [hhead]
  rcases filter_not_before_cases m.ascending key with ⟨hnot, hsame⟩ | ⟨item, hitem, hnot, hsame⟩
  · have hnone : ∀ k, (k, value) ∈ m.items → cmp k key ≠ .eq := by
      intro k hk hc
      have hmem : (k, value) ∈ m.items.filter (same cmp key) :=
        List.mem_filter.mpr ⟨hk, by simp [same, hc]⟩
      rw [hsame] at hmem
      cases hmem
    rw [hnot]
    constructor
    · intro hget
      cases hafter : m.items.filter (after cmp key) with
      | nil => simp [hafter] at hget
      | cons b rest =>
        have hb : cmp b.1 key = .gt := by
          have hmem : b ∈ m.items.filter (after cmp key) := by
            rw [hafter]; exact List.mem_cons_self
          simpa [after] using (List.mem_filter.mp hmem).2
        simp [hafter, hb] at hget
    · rintro ⟨k, hk, hc⟩
      exact absurd hc (hnone k hk)
  · have hmem : ∀ x, x ∈ m.items → cmp x.1 key = .eq → x = item := by
      intro x hx hc
      have hfil : x ∈ m.items.filter (same cmp key) :=
        List.mem_filter.mpr ⟨hx, by simp [same, hc]⟩
      rw [hsame] at hfil
      exact List.mem_singleton.mp hfil
    have hin : item ∈ m.items := by
      have hfil : item ∈ m.items.filter (same cmp key) := by
        rw [hsame]; exact List.mem_singleton_self _
      exact (List.mem_filter.mp hfil).1
    simp only [hnot, List.head?_cons, hitem, if_true, Option.some.injEq]
    constructor
    · rintro rfl
      exact ⟨item.1, hin, hitem⟩
    · rintro ⟨k, hk, hc⟩
      rw [← hmem _ hk hc]

theorem get_eq_none_iff {m : SortedMap cmp V} {key : K} :
    m.get key = none ↔ ∀ item ∈ m.items, cmp item.1 key ≠ .eq := by
  constructor
  · intro hnone item hitem hc
    have hsome : m.get key = some item.2 := get_eq_some_iff.mpr ⟨item.1, hitem, hc⟩
    rw [hnone] at hsome
    cases hsome
  · intro hall
    cases hget : m.get key with
    | none => rfl
    | some v =>
      obtain ⟨k, hk, hc⟩ := get_eq_some_iff.mp hget
      exact absurd hc (hall _ hk)

/-- A lookup after a `set`: the written value for every key that compares
equal to the written one, the old answer for every other. -/
theorem get_set (m : SortedMap cmp V) (key key' : K) (value : V) :
    (m.set key value).get key' = if cmp key key' = .eq then some value else m.get key' := by
  split
  · rename_i hc
    exact get_eq_some_iff.mpr ⟨key, mem_set_iff.mpr (.inl rfl), hc⟩
  · rename_i hc
    have hiff : ∀ v, (m.set key value).get key' = some v ↔ m.get key' = some v := by
      intro v
      rw [get_eq_some_iff, get_eq_some_iff]
      constructor
      · rintro ⟨k, hk, hkc⟩
        rcases mem_set_iff.mp hk with heq | ⟨hk, -⟩
        · cases heq; exact absurd hkc hc
        · exact ⟨k, hk, hkc⟩
      · rintro ⟨k, hk, hkc⟩
        refine ⟨k, mem_set_iff.mpr (.inr ⟨hk, fun hkk => hc ?_⟩), hkc⟩
        exact Std.TransCmp.eq_trans (Std.OrientedCmp.eq_symm hkk) hkc
    exact Option.ext hiff

theorem get_of_mem {m : SortedMap cmp V} {k : K} {v : V} (h : (k, v) ∈ m.items) :
    m.get k = some v :=
  get_eq_some_iff.mpr ⟨k, h, Std.ReflCmp.compare_self⟩

end SortedMap

end Webernetes
