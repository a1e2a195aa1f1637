/-
Webernetes.Js.MapOfSets — maps that have a set under each key, read as a
relation of keys and values.

A value is added under a key, and values are dropped from under a key together
with a set that becomes empty. `Holds` says what the relation is after each, one
key at a time and for a list of keys.
-/
import Webernetes.Js.OrderedMap

namespace Webernetes.Js.JsMap

universe u v

variable {κ : Type u} {ν : Type v} [DecidableEq κ]

/-- The set under a key, the empty one where there is none. -/
def setAt (m : JsMap κ (JsSet ν)) (key : κ) : JsSet ν := (m.get key).getD .empty

def Holds (m : JsMap κ (JsSet ν)) (key : κ) (value : ν) : Prop := value ∈ (m.setAt key).elems

/-- No key is there without a value. -/
def NoEmptySet (m : JsMap κ (JsSet ν)) : Prop := ∀ key set, m.get key = some set → set.elems ≠ []

theorem not_holds_empty (key : κ) (value : ν) : ¬ (empty : JsMap κ (JsSet ν)).Holds key value := by
  simp [Holds, setAt]

theorem noEmptySet_empty : (empty : JsMap κ (JsSet ν)).NoEmptySet := by
  intro key set h
  cases h

theorem holds_of_get {m : JsMap κ (JsSet ν)} {key : κ} {set : JsSet ν} (h : m.get key = some set)
    (value : ν) : m.Holds key value ↔ value ∈ set.elems := by
  simp [Holds, setAt, h]

/-- A key that is there has a first value. -/
theorem NoEmptySet.contains_iff {m : JsMap κ (JsSet ν)} (h : m.NoEmptySet) (key : κ) :
    m.contains key = true ↔ ∃ value, m.Holds key value ∧ (m.get key).bind (·.elems.head?) = some value := by
  rw [JsMap.contains_iff]
  constructor
  · rintro ⟨set, hset⟩
    obtain ⟨value, rest, helems⟩ := List.exists_cons_of_ne_nil (h key set hset)
    refine ⟨value, (holds_of_get hset value).mpr (helems ▸ List.mem_cons_self), ?_⟩
    rw [hset, Option.bind_some, helems, List.head?_cons]
  · rintro ⟨value, -, hfirst⟩
    obtain ⟨set, hset, -⟩ := Option.bind_eq_some_iff.mp hfirst
    exact ⟨set, hset⟩

theorem contains_of_holds {m : JsMap κ (JsSet ν)} {key : κ} {value : ν}
    (hholds : m.Holds key value) : m.contains key = true := by
  rw [JsMap.contains_iff]
  cases hget : m.get key with
  | none => simp [Holds, setAt, hget] at hholds
  | some set => exact ⟨set, rfl⟩

theorem holds_delete (m : JsMap κ (JsSet ν)) (key k : κ) (v : ν) :
    (m.delete key).Holds k v ↔ k ≠ key ∧ m.Holds k v := by
  by_cases hk : k = key <;> simp [Holds, setAt, get_delete, hk]

theorem holds_set (m : JsMap κ (JsSet ν)) (key : κ) (set : JsSet ν) (k : κ) (v : ν) :
    (m.set key set).Holds k v ↔ k = key ∧ v ∈ set.elems ∨ k ≠ key ∧ m.Holds k v := by
  by_cases hk : k = key <;> simp [Holds, setAt, get_set, hk]

/-- What one key keeps, a list of keys keeps. -/
theorem NoEmptySet.foldl {step : JsMap κ (JsSet ν) → κ → JsMap κ (JsSet ν)}
    (hstep : ∀ m key, m.NoEmptySet → (step m key).NoEmptySet) (keys : List κ)
    {m : JsMap κ (JsSet ν)} (h : m.NoEmptySet) : (keys.foldl step m).NoEmptySet := by
  induction keys generalizing m with
  | nil => exact h
  | cons key keys ih => exact ih (hstep m key h)

variable [DecidableEq ν]

def addUnder (value : ν) (m : JsMap κ (JsSet ν)) (key : κ) : JsMap κ (JsSet ν) :=
  m.set key ((m.setAt key).add value)

def dropUnder (values : List ν) (m : JsMap κ (JsSet ν)) (key : κ) : JsMap κ (JsSet ν) :=
  match m.get key with
  | none => m
  | some set =>
    let set := values.foldl JsSet.delete set
    if set.size = 0 then m.delete key else m.set key set

theorem mem_foldl_delete (values : List ν) (set : JsSet ν) (v : ν) :
    v ∈ (values.foldl JsSet.delete set).elems ↔ v ∈ set.elems ∧ v ∉ values := by
  induction values generalizing set with
  | nil => simp
  | cons value values ih =>
    rw [List.foldl_cons, ih, JsSet.mem_delete, List.mem_cons]
    grind

theorem holds_addUnder (value : ν) (m : JsMap κ (JsSet ν)) (key k : κ) (v : ν) :
    (addUnder value m key).Holds k v ↔ m.Holds k v ∨ k = key ∧ v = value := by
  unfold addUnder
  by_cases hk : k = key
  · subst hk
    rw [holds_of_get (get_set_self _ _ _), JsSet.mem_add]
    simp [Holds, or_comm]
  · simp [Holds, setAt, get_set, hk]

theorem holds_dropUnder (values : List ν) (m : JsMap κ (JsSet ν)) (key k : κ) (v : ν) :
    (dropUnder values m key).Holds k v ↔ m.Holds k v ∧ ¬ (k = key ∧ v ∈ values) := by
  unfold dropUnder
  split
  · rename_i hnone
    have hnot : ¬ m.Holds key v := by simp [Holds, setAt, hnone]
    refine ⟨fun h => ⟨h, ?_⟩, And.left⟩
    rintro ⟨rfl, -⟩
    exact hnot h
  · rename_i set hset
    have hdelete : v ∈ (values.foldl JsSet.delete set).elems ↔ m.Holds key v ∧ v ∉ values := by
      rw [mem_foldl_delete, holds_of_get hset]
    dsimp only
    by_cases hk : k = key
    · subst hk
      split
      · rename_i hempty
        rw [List.length_eq_zero_iff.mp hempty] at hdelete
        simp only [Holds, setAt, get_delete, if_pos, Option.getD_none, JsSet.elems_empty] at hdelete ⊢
        grind
      · rw [holds_of_get (get_set_self _ _ _), hdelete]
        grind
    · split
      · simp [Holds, setAt, get_delete, hk]
      · simp [Holds, setAt, get_set, hk]

theorem NoEmptySet.addUnder {m : JsMap κ (JsSet ν)} (h : m.NoEmptySet) (value : ν) (key : κ) :
    (addUnder value m key).NoEmptySet := by
  intro k set hset
  rw [JsMap.addUnder, get_set] at hset
  split at hset
  · cases hset
    exact List.ne_nil_of_mem (JsSet.mem_add.mpr (.inl rfl))
  · exact h k set hset

theorem NoEmptySet.dropUnder {m : JsMap κ (JsSet ν)} (h : m.NoEmptySet) (values : List ν) (key : κ) :
    (dropUnder values m key).NoEmptySet := by
  unfold JsMap.dropUnder
  split
  · exact h
  · dsimp only
    split
    · intro k set hset
      rw [get_delete] at hset
      split at hset
      · cases hset
      · exact h k set hset
    · rename_i hsize
      intro k set hset
      rw [get_set] at hset
      split at hset
      · cases hset
        exact fun hnil => hsize (List.length_eq_zero_iff.mpr hnil)
      · exact h k set hset

/-! ## A list of keys -/

theorem holds_foldl_addUnder (value : ν) (keys : List κ) (m : JsMap κ (JsSet ν)) (k : κ) (v : ν) :
    (keys.foldl (addUnder value) m).Holds k v ↔ m.Holds k v ∨ k ∈ keys ∧ v = value := by
  induction keys generalizing m with
  | nil => simp
  | cons key keys ih =>
    rw [List.foldl_cons, ih, holds_addUnder, List.mem_cons]
    grind

theorem holds_foldl_dropUnder (values : List ν) (keys : List κ) (m : JsMap κ (JsSet ν)) (k : κ) (v : ν) :
    (keys.foldl (dropUnder values) m).Holds k v ↔ m.Holds k v ∧ ¬ (k ∈ keys ∧ v ∈ values) := by
  induction keys generalizing m with
  | nil => simp
  | cons key keys ih =>
    rw [List.foldl_cons, ih, holds_dropUnder, List.mem_cons]
    grind

end Webernetes.Js.JsMap
