/-
Webernetes.Js.OrderedMap — `Map` and `Set`.

Both keep the order in which their keys came first: setting a key that is
there keeps its place. The structures carry that no key is there twice, so
an entry is what a look-up of its key finds (`mem_entries_iff`).
-/
import Mathlib.Data.List.Induction
import Mathlib.Data.List.Nodup

namespace Webernetes.Js

universe u v

variable {κ : Type u} {ν : Type v}

/-! ## Map -/

structure JsMap (κ : Type u) (ν : Type v) where
  entries : List (κ × ν)
  nodup : (entries.map Prod.fst).Nodup

namespace JsMap

def empty : JsMap κ ν := ⟨[], List.nodup_nil⟩

instance : Inhabited (JsMap κ ν) := ⟨empty⟩

def keys (m : JsMap κ ν) : List κ := m.entries.map Prod.fst

def values (m : JsMap κ ν) : List ν := m.entries.map Prod.snd

def size (m : JsMap κ ν) : Nat := m.entries.length

theorem ext {m n : JsMap κ ν} (h : m.entries = n.entries) : m = n := by
  cases m
  cases n
  cases h
  rfl

theorem nodup_keys (m : JsMap κ ν) : m.keys.Nodup := m.nodup

variable [DecidableEq κ]

def get (m : JsMap κ ν) (key : κ) : Option ν := (m.entries.find? (·.1 = key)).map Prod.snd

def contains (m : JsMap κ ν) (key : κ) : Bool := m.keys.contains key

/-- Each value under its key. -/
theorem get_eq_some_iff {m : JsMap κ ν} {key : κ} {value : ν} :
    m.get key = some value ↔ (key, value) ∈ m.entries := by
  obtain ⟨entries, hnodup⟩ := m
  simp only [get]
  induction entries with
  | nil => simp
  | cons entry entries ih =>
    obtain ⟨k, v⟩ := entry
    simp only [List.map_cons, List.nodup_cons] at hnodup
    by_cases hk : k = key
    · subst hk
      have hnot : ∀ v', (k, v') ∉ entries := fun v' hv' =>
        hnodup.1 (List.mem_map.mpr ⟨(k, v'), hv', rfl⟩)
      simp [hnot, eq_comm]
    · rw [List.find?_cons_of_neg (by simpa using hk), ih hnodup.2]
      simp [Ne.symm hk]

theorem mem_keys_iff {m : JsMap κ ν} {key : κ} : key ∈ m.keys ↔ ∃ value, m.get key = some value := by
  simp only [get_eq_some_iff, keys, List.mem_map]
  constructor
  · rintro ⟨⟨k, v⟩, hmem, rfl⟩
    exact ⟨v, hmem⟩
  · rintro ⟨v, hmem⟩
    exact ⟨(key, v), hmem, rfl⟩

theorem get_eq_none_iff {m : JsMap κ ν} {key : κ} : m.get key = none ↔ key ∉ m.keys := by
  rw [mem_keys_iff, Option.eq_none_iff_forall_ne_some]
  simp

@[simp] theorem contains_iff {m : JsMap κ ν} {key : κ} :
    m.contains key = true ↔ ∃ value, m.get key = some value := by
  rw [← mem_keys_iff]
  simp [contains]

/-- The entries with the key's value changed, or the key added. -/
def setEntries (key : κ) (value : ν) : List (κ × ν) → List (κ × ν)
  | [] => [(key, value)]
  | (k, v) :: entries =>
    if k = key then (k, value) :: entries else (k, v) :: setEntries key value entries

theorem map_fst_setEntries (key : κ) (value : ν) (entries : List (κ × ν)) :
    (setEntries key value entries).map Prod.fst
      = if key ∈ entries.map Prod.fst then entries.map Prod.fst
        else entries.map Prod.fst ++ [key] := by
  induction entries with
  | nil => rfl
  | cons entry entries ih =>
    obtain ⟨k, v⟩ := entry
    rw [setEntries]
    by_cases hk : k = key
    · simp [hk]
    · simp only [if_neg hk, List.map_cons, ih, List.mem_cons, Ne.symm hk, false_or]
      split <;> rfl

def set (m : JsMap κ ν) (key : κ) (value : ν) : JsMap κ ν where
  entries := setEntries key value m.entries
  nodup := by
    rw [map_fst_setEntries]
    split
    · exact m.nodup
    · rename_i hkey
      exact List.nodup_append.mpr ⟨m.nodup, List.nodup_singleton key, by
        rintro k hk k' hk' rfl
        rw [List.mem_singleton.mp hk'] at hk
        exact hkey hk⟩

def delete (m : JsMap κ ν) (key : κ) : JsMap κ ν where
  entries := m.entries.filter fun entry => entry.1 ≠ key
  nodup := (m.nodup_keys).sublist (List.Sublist.map _ List.filter_sublist)

theorem mem_setEntries {key : κ} {value : ν} {entries : List (κ × ν)}
    (hnodup : (entries.map Prod.fst).Nodup) {k : κ} {v : ν} :
    (k, v) ∈ setEntries key value entries
      ↔ k = key ∧ v = value ∨ k ≠ key ∧ (k, v) ∈ entries := by
  induction entries with
  | nil => simp [setEntries]
  | cons entry entries ih =>
    obtain ⟨k', v'⟩ := entry
    simp only [List.map_cons, List.nodup_cons] at hnodup
    have ih := ih hnodup.2
    have hfirst : ∀ v, (k', v) ∉ entries := fun v hv =>
      hnodup.1 (List.mem_map.mpr ⟨(k', v), hv, rfl⟩)
    rw [setEntries]
    split <;> grind

@[simp] theorem get_set_self (m : JsMap κ ν) (key : κ) (value : ν) :
    (m.set key value).get key = some value :=
  get_eq_some_iff.mpr ((mem_setEntries m.nodup).mpr (.inl ⟨rfl, rfl⟩))

theorem get_set_of_ne (m : JsMap κ ν) {key k : κ} (value : ν) (h : k ≠ key) :
    (m.set key value).get k = m.get k := by
  refine Option.ext fun v => ?_
  rw [get_eq_some_iff, get_eq_some_iff]
  exact (mem_setEntries m.nodup).trans (by simp [h])

theorem get_set (m : JsMap κ ν) (key k : κ) (value : ν) :
    (m.set key value).get k = if k = key then some value else m.get k := by
  split
  · rename_i h
    rw [h, get_set_self]
  · rename_i h
    exact m.get_set_of_ne value h

theorem get_delete (m : JsMap κ ν) (key k : κ) :
    (m.delete key).get k = if k = key then none else m.get k := by
  refine Option.ext fun v => ?_
  rw [get_eq_some_iff]
  split
  · rename_i h
    simp [delete, h]
  · rename_i h
    rw [get_eq_some_iff]
    simp [delete, h]

theorem delete_of_not_contains {m : JsMap κ ν} {key : κ} (h : m.contains key = false) :
    m.delete key = m := by
  refine ext (List.filter_eq_self.mpr fun entry hentry => ?_)
  simp only [contains, List.contains_eq_mem, decide_eq_false_iff_not] at h
  simp only [decide_not, Bool.not_eq_eq_eq_not, Bool.not_true, decide_eq_false_iff_not]
  rintro rfl
  exact h (List.mem_map_of_mem hentry)

theorem setEntries_of_not_mem {key : κ} {value : ν} {entries : List (κ × ν)}
    (h : key ∉ entries.map Prod.fst) : setEntries key value entries = entries ++ [(key, value)] := by
  induction entries with
  | nil => rfl
  | cons entry entries ih =>
    obtain ⟨k, v⟩ := entry
    simp only [List.map_cons, List.mem_cons, not_or] at h
    rw [setEntries, if_neg (Ne.symm h.1), ih h.2, List.cons_append]

/-- A key that is set anew goes to the end. -/
theorem entries_set_delete (m : JsMap κ ν) (key : κ) (value : ν) :
    ((m.delete key).set key value).entries
      = (m.entries.filter fun entry => entry.1 ≠ key) ++ [(key, value)] := by
  refine setEntries_of_not_mem ?_
  simp [delete]

theorem entries_delete_first {m : JsMap κ ν} {entry : κ × ν} {entries : List (κ × ν)}
    (h : m.entries = entry :: entries) : (m.delete entry.1).entries = entries := by
  have hnodup := m.nodup
  rw [h, List.map_cons, List.nodup_cons] at hnodup
  simp only [delete, h]
  rw [List.filter_cons_of_neg (by simp), List.filter_eq_self]
  intro other hother
  simp only [decide_eq_true_eq]
  intro heq
  exact hnodup.1 (heq ▸ List.mem_map_of_mem hother)

theorem get_foldl_delete {keys : List κ} {m : JsMap κ ν} {key : κ} {value : ν} :
    (keys.foldl delete m).get key = some value ↔ key ∉ keys ∧ m.get key = some value := by
  induction keys generalizing m with
  | nil => simp
  | cons k keys ih =>
    rw [List.foldl_cons, ih, get_delete]
    by_cases hk : key = k <;> simp [hk]

def mapValues {μ : Type v} (m : JsMap κ ν) (f : ν → μ) : JsMap κ μ where
  entries := m.entries.map fun entry => (entry.1, f entry.2)
  nodup := by
    rw [List.map_map]
    exact m.nodup

theorem get_mapValues {μ : Type v} (m : JsMap κ ν) (f : ν → μ) (key : κ) :
    (m.mapValues f).get key = (m.get key).map f := by
  simp only [get, mapValues, List.find?_map, Option.map_map]
  rfl

@[simp] theorem get_empty (key : κ) : (empty : JsMap κ ν).get key = none := rfl

/-- `Object.assign(m, n)`. -/
def assign (m n : JsMap κ ν) : JsMap κ ν :=
  n.entries.foldl (fun m entry => m.set entry.1 entry.2) m

theorem get_foldl_set (entries : List (κ × ν)) (hnodup : (entries.map Prod.fst).Nodup) (m : JsMap κ ν)
    (key : κ) : (entries.foldl (fun m entry => m.set entry.1 entry.2) m).get key
      = ((entries.find? (·.1 = key)).map Prod.snd).or (m.get key) := by
  induction entries generalizing m with
  | nil => rfl
  | cons entry entries ih =>
    obtain ⟨k, v⟩ := entry
    simp only [List.map_cons, List.nodup_cons] at hnodup
    rw [List.foldl_cons, ih hnodup.2, get_set]
    by_cases hk : k = key
    · subst hk
      have hnone : entries.find? (·.1 = k) = none := by
        rw [List.find?_eq_none]
        intro entry hentry
        simp only [decide_eq_true_eq]
        rintro rfl
        exact hnodup.1 (List.mem_map_of_mem hentry)
      simp [hnone]
    · rw [if_neg (Ne.symm hk), List.find?_cons_of_neg (by simpa using hk)]

theorem get_assign (m n : JsMap κ ν) (key : κ) : (m.assign n).get key = (n.get key).or (m.get key) :=
  get_foldl_set n.entries n.nodup m key

/-- `new Map(entries)`: a later entry of a key changes the value only. -/
def ofList (entries : List (κ × ν)) : JsMap κ ν :=
  entries.foldl (fun m entry => m.set entry.1 entry.2) empty

/-- The last entry of a key counts. -/
theorem get_ofList (entries : List (κ × ν)) (key : κ) :
    (ofList entries).get key = (entries.reverse.find? (·.1 = key)).map Prod.snd := by
  induction entries using List.reverseRecOn with
  | nil => rfl
  | append_singleton entries entry ih =>
    rw [ofList] at ih
    rw [ofList, List.foldl_concat, get_set, ih, List.reverse_concat, List.find?_cons]
    by_cases hkey : key = entry.1
    · simp [hkey]
    · simp [hkey, Ne.symm hkey]

theorem mem_of_get_ofList {entries : List (κ × ν)} {key : κ} {value : ν}
    (h : (ofList entries).get key = some value) : (key, value) ∈ entries := by
  rw [get_ofList, Option.map_eq_some_iff] at h
  obtain ⟨⟨k, v⟩, hfind, rfl⟩ := h
  have hkey := List.find?_some hfind
  simp only [decide_eq_true_eq] at hkey
  subst hkey
  exact List.mem_reverse.mp (List.mem_of_find?_eq_some hfind)

theorem get_ofList_eq_none_iff {entries : List (κ × ν)} {key : κ} :
    (ofList entries).get key = none ↔ ∀ entry ∈ entries, entry.1 ≠ key := by
  rw [get_ofList, Option.map_eq_none_iff, List.find?_eq_none]
  simp

end JsMap

/-! ## Set -/

structure JsSet (κ : Type u) where
  elems : List κ
  nodup : elems.Nodup

namespace JsSet

def empty : JsSet κ := ⟨[], List.nodup_nil⟩

@[simp] theorem elems_empty : (empty : JsSet κ).elems = [] := rfl

def size (s : JsSet κ) : Nat := s.elems.length

variable [DecidableEq κ]

def add (s : JsSet κ) (key : κ) : JsSet κ where
  elems := if key ∈ s.elems then s.elems else s.elems ++ [key]
  nodup := by
    split
    · exact s.nodup
    · rename_i hkey
      refine List.nodup_append.mpr ⟨s.nodup, List.nodup_singleton key, ?_⟩
      rintro k hk k' hk' rfl
      exact hkey (List.mem_singleton.mp hk' ▸ hk)

def delete (s : JsSet κ) (key : κ) : JsSet κ where
  elems := s.elems.filter (· ≠ key)
  nodup := s.nodup.sublist List.filter_sublist

@[simp] theorem mem_add {s : JsSet κ} {key k : κ} : k ∈ (s.add key).elems ↔ k = key ∨ k ∈ s.elems := by
  simp only [add]
  split <;> grind

@[simp] theorem mem_delete {s : JsSet κ} {key k : κ} :
    k ∈ (s.delete key).elems ↔ k ≠ key ∧ k ∈ s.elems := by
  simp [delete, and_comm]

end JsSet

end Webernetes.Js
