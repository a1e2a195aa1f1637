/-
Webernetes.Apimachinery.Labels — requirements on labels and the selectors
made of them.

A selector is the list of its requirements. What `newRequirement` makes is
answered with the errors it collected, which the source folds into one
aggregate: no errors means the requirement is accepted. A label set is the
lookup it offers.
-/
import Webernetes.Apimachinery.Validation
import Webernetes.Etcd.Keys
import Mathlib.Data.List.Sort

namespace Webernetes.Apimachinery

open Js Go Etcd

/-! ## Sorting and sets of strings -/

/-- `sort()` without a comparison: by code units. -/
def sortStrings (strings : List JsString) : List JsString := strings.insertionSort (· ≤ ·)

/-- A `StringSet` in the order of insertion. -/
abbrev StringSet := List JsString

def StringSet.insert (s : StringSet) (item : JsString) : StringSet :=
  if item ∈ s then s else s ++ [item]

def StringSet.insertAll (s : StringSet) (items : List JsString) : StringSet :=
  items.foldl StringSet.insert s

def newString (items : List JsString) : StringSet := StringSet.insertAll [] items

def StringSet.list (s : StringSet) : List JsString := sortStrings s

theorem sortStrings_perm (strings : List JsString) : (sortStrings strings).Perm strings :=
  List.perm_insertionSort _ _

theorem sortStrings_sorted (strings : List JsString) :
    (sortStrings strings).Pairwise (· ≤ ·) :=
  List.pairwise_insertionSort _ _

/-- Sorted lists that are permutations of each other are one list. -/
theorem sortStrings_congr {as bs : List JsString} (h : as.Perm bs) :
    sortStrings as = sortStrings bs :=
  (((sortStrings_perm as).trans h).trans (sortStrings_perm bs).symm).eq_of_pairwise
    (fun _ _ _ _ => le_antisymm) (sortStrings_sorted as) (sortStrings_sorted bs)

@[simp] theorem sortStrings_singleton (s : JsString) : sortStrings [s] = [s] := rfl

namespace StringSet

theorem mem_insert {s : StringSet} {item x : JsString} : x ∈ s.insert item ↔ x ∈ s ∨ x = item := by
  unfold insert
  split <;> simp
  rintro rfl
  assumption

theorem nodup_insert {s : StringSet} {item : JsString} (h : s.Nodup) : (s.insert item).Nodup := by
  unfold insert
  split
  · exact h
  · exact List.nodup_append.2 ⟨h, by simp, by grind⟩

theorem insert_of_mem {s : StringSet} {item : JsString} (h : item ∈ s) : s.insert item = s :=
  if_pos h

theorem insert_ne_nil (s : StringSet) (item : JsString) : s.insert item ≠ [] :=
  List.ne_nil_of_mem (mem_insert.2 (.inr rfl))

theorem mem_insertAll {items : List JsString} {s : StringSet} {x : JsString} :
    x ∈ s.insertAll items ↔ x ∈ s ∨ x ∈ items := by
  induction items generalizing s with
  | nil => simp [insertAll]
  | cons item items ih =>
      have hstep : s.insertAll (item :: items) = (s.insert item).insertAll items := rfl
      rw [hstep, ih, mem_insert, List.mem_cons, or_assoc]

theorem nodup_insertAll {items : List JsString} {s : StringSet} (h : s.Nodup) :
    (s.insertAll items).Nodup := by
  induction items generalizing s with
  | nil => exact h
  | cons item items ih => exact ih (nodup_insert h)

end StringSet

theorem mem_newString {items : List JsString} {x : JsString} : x ∈ newString items ↔ x ∈ items := by
  simp [newString, StringSet.mem_insertAll]

theorem nodup_newString (items : List JsString) : (newString items).Nodup :=
  StringSet.nodup_insertAll List.nodup_nil

/-- The list of a set depends on its members only. -/
theorem list_newString_congr {as bs : List JsString} (h : ∀ x, x ∈ as ↔ x ∈ bs) :
    (newString as).list = (newString bs).list :=
  sortStrings_congr <| (List.perm_ext_iff_of_nodup (nodup_newString as) (nodup_newString bs)).2
    fun x => by rw [mem_newString, mem_newString, h x]

theorem mem_list_newString {items : List JsString} {x : JsString} :
    x ∈ (newString items).list ↔ x ∈ items := by
  rw [StringSet.list, (sortStrings_perm _).mem_iff, mem_newString]

@[simp] theorem list_newString_singleton (v : JsString) : (newString [v]).list = [v] := rfl

/-! ## Requirements -/

inductive Operator where
  | doesNotExist | equals | doubleEquals | inOperator | notEquals | notIn
  | exists_ | greaterThan | lessThan
  deriving DecidableEq

/-- The text of an operator. -/
def Operator.text : Operator → JsString
  | .doesNotExist => js "!"
  | .equals => js "="
  | .doubleEquals => js "=="
  | .inOperator => js "in"
  | .notEquals => js "!="
  | .notIn => js "notin"
  | .exists_ => js "exists"
  | .greaterThan => js "gt"
  | .lessThan => js "lt"

def binaryOperators : List Operator :=
  [.inOperator, .notIn, .equals, .doubleEquals, .notEquals, .greaterThan, .lessThan]

structure Requirement where
  key : JsString
  operator : Operator
  strValues : List JsString
  deriving DecidableEq

/-- What a label set answers to a lookup. -/
abbrev Labels := JsString → Option JsString

def Requirement.hasValue (r : Requirement) (value : JsString) : Bool := decide (value ∈ r.strValues)

/-- The comparison of `greaterThan` and `lessThan`; it fails on what is no integer. -/
def Requirement.compares (r : Requirement) (val : JsString) : Bool :=
  match parseInt val 10 64, r.strValues with
  | (labelValue, none), [strValue] =>
    match parseInt strValue 10 64 with
    | (requirementValue, none) =>
      if r.operator = .greaterThan then decide (labelValue > requirementValue)
      else decide (labelValue < requirementValue)
    | _ => false
  | _, _ => false

def Requirement.matches (r : Requirement) (ls : Labels) : Bool :=
  match r.operator with
  | .inOperator | .equals | .doubleEquals => (ls r.key).any r.hasValue
  | .notIn | .notEquals => (ls r.key).all fun val => !r.hasValue val
  | .exists_ => (ls r.key).isSome
  | .doesNotExist => !(ls r.key).isSome
  | .greaterThan | .lessThan => (ls r.key).any r.compares

def Requirement.firstValue (r : Requirement) : JsString := r.strValues.head?.getD []

def Requirement.string (r : Requirement) : JsString :=
  match r.operator with
  | .doesNotExist => js "!" ++ r.key
  | .exists_ => r.key
  | .equals => r.key ++ js "=" ++ r.firstValue
  | .doubleEquals => r.key ++ js "==" ++ r.firstValue
  | .notEquals => r.key ++ js "!=" ++ r.firstValue
  | .inOperator | .notIn =>
    r.key ++ js " " ++ r.operator.text ++ js " (" ++ (js ",").intercalate (sortStrings r.strValues)
      ++ js ")"
  | .greaterThan => r.key ++ js ">" ++ r.firstValue
  | .lessThan => r.key ++ js "<" ++ r.firstValue

/-! ## newRequirement -/

def validateLabelKey (k : JsString) (path : Path) : Option FieldError :=
  let errs := isLabelKey k
  if errs.length ≠ 0 then some (invalid path k ((js "; ").intercalate errs)) else none

def validateLabelValue (k v : JsString) (path : Path) : Option FieldError :=
  let errs := isLabelValue v
  if errs.length ≠ 0 then
    some (invalid (if path ≠ [] then path.key k else [.index k]) v ((js "; ").intercalate errs))
  else none

/-- The checks of the number and the form of the values an operator takes. -/
def operatorErrors (op : Operator) (vals : List JsString) (valuePath : Path) : List FieldError :=
  match op with
  | .inOperator | .notIn =>
    if vals.length = 0 then
      [invalidValues valuePath vals (js "for 'in', 'notin' operators, values set can't be empty")]
    else []
  | .equals | .doubleEquals | .notEquals =>
    if vals.length ≠ 1 then
      [invalidValues valuePath vals (js "exact-match compatibility requires one single value")]
    else []
  | .exists_ | .doesNotExist =>
    if vals.length ≠ 0 then
      [invalidValues valuePath vals (js "values set must be empty for exists and does not exist")]
    else []
  | .greaterThan | .lessThan =>
    (if vals.length ≠ 1 then
      [invalidValues valuePath vals (js "for 'Gt', 'Lt' operators, exactly one value is required")]
    else [])
      ++ vals.zipIdx.filterMap fun (val, i) =>
        if (parseInt val 10 64).2.isSome then
          some (invalid (valuePath.index i) val
            (js "for 'Gt', 'Lt' operators, the value must be an integer"))
        else none

def newRequirement (key : JsString) (op : Operator) (vals : List JsString) (path : Path) :
    Requirement × List FieldError :=
  let valuePath := path.child (js "values")
  (⟨key, op, vals⟩,
    (validateLabelKey key (path.child (js "key"))).toList
      ++ operatorErrors op vals valuePath
      ++ vals.zipIdx.filterMap fun (val, i) => validateLabelValue key val (valuePath.index i))

/-! ## What newRequirement accepts -/

/-- The number of values an operator takes, and integers where it compares. -/
def Operator.Takes (op : Operator) (vals : List JsString) : Prop :=
  match op with
  | .inOperator | .notIn => vals ≠ []
  | .equals | .doubleEquals | .notEquals => vals.length = 1
  | .exists_ | .doesNotExist => vals = []
  | .greaterThan | .lessThan => vals.length = 1 ∧ ∀ v ∈ vals, (parseInt v 10 64).2 = none

structure Requirement.Valid (r : Requirement) : Prop where
  key : isLabelKey r.key = []
  takes : r.operator.Takes r.strValues
  values : ∀ v ∈ r.strValues, isLabelValue v = []

theorem validateLabelKey_eq_none {k : JsString} {path : Path} :
    validateLabelKey k path = none ↔ isLabelKey k = [] := by
  simp [validateLabelKey]

theorem validateLabelValue_eq_none {k v : JsString} {path : Path} :
    validateLabelValue k v path = none ↔ isLabelValue v = [] := by
  simp [validateLabelValue]

/-- A check of every value complains of none exactly when it passes them all. -/
theorem filterMap_zipIdx_eq_nil {vals : List JsString} {check : JsString × Nat → Option FieldError}
    {P : JsString → Prop} (hcheck : ∀ v i, check (v, i) = none ↔ P v) :
    vals.zipIdx.filterMap check = [] ↔ ∀ v ∈ vals, P v := by
  rw [List.filterMap_eq_nil_iff]
  constructor
  · intro h v hv
    obtain ⟨i, hi, rfl⟩ := List.getElem_of_mem hv
    exact (hcheck _ i).1 (h (vals[i], i) (List.mem_zipIdx_iff_getElem?.2 (by simp [hi])))
  · rintro h ⟨v, i⟩ hmem
    exact (hcheck v i).2 (h v (List.fst_mem_of_mem_zipIdx hmem))

theorem operatorErrors_eq_nil {op : Operator} {vals : List JsString} {path : Path} :
    operatorErrors op vals path = [] ↔ op.Takes vals := by
  cases op with
  | greaterThan | lessThan =>
      simp only [operatorErrors, Operator.Takes, List.append_eq_nil_iff]
      rw [filterMap_zipIdx_eq_nil (P := fun v => (parseInt v 10 64).2 = none) (by simp)]
      simp
  | _ => simp [operatorErrors, Operator.Takes]

theorem newRequirement_eq_nil {key : JsString} {op : Operator} {vals : List JsString}
    {path : Path} : (newRequirement key op vals path).2 = [] ↔ Requirement.Valid ⟨key, op, vals⟩ := by
  simp only [newRequirement, List.append_eq_nil_iff, Option.toList_eq_nil_iff,
    validateLabelKey_eq_none, operatorErrors_eq_nil]
  rw [filterMap_zipIdx_eq_nil (P := fun v => isLabelValue v = [])
    fun _ _ => validateLabelValue_eq_none]
  exact ⟨fun ⟨⟨hkey, htakes⟩, hvalues⟩ => ⟨hkey, htakes, hvalues⟩,
    fun h => ⟨⟨h.key, h.takes⟩, h.values⟩⟩

/-! ## Values as a set -/

/-- The requirement with each of its values once, in order. -/
def Requirement.normal (r : Requirement) : Requirement :=
  { r with strValues := (newString r.strValues).list }

theorem mem_strValues_normal {r : Requirement} {v : JsString} :
    v ∈ r.normal.strValues ↔ v ∈ r.strValues :=
  mem_list_newString

theorem strValues_normal_of_length {r : Requirement} (h : r.strValues.length = 1) :
    r.normal.strValues = r.strValues := by
  obtain ⟨v, hv⟩ := List.length_eq_one_iff.1 h
  simp [Requirement.normal, hv]

theorem Requirement.Valid.normal {r : Requirement} (h : r.Valid) : r.normal.Valid := by
  refine ⟨h.key, ?_, fun v hv => h.values v (mem_strValues_normal.1 hv)⟩
  have htakes := h.takes
  show r.operator.Takes r.normal.strValues
  cases hop : r.operator with
  | inOperator | notIn =>
      rw [hop] at htakes
      obtain ⟨v, hv⟩ := List.exists_mem_of_ne_nil _ htakes
      exact List.ne_nil_of_mem (mem_strValues_normal.2 hv)
  | exists_ | doesNotExist =>
      rw [hop] at htakes
      simp only [Operator.Takes] at htakes
      simp [Operator.Takes, Requirement.normal, htakes]
      rfl
  | equals | doubleEquals | notEquals =>
      rw [hop] at htakes
      rwa [strValues_normal_of_length htakes]
  | greaterThan | lessThan =>
      rw [hop] at htakes
      rwa [strValues_normal_of_length htakes.1]

/-- Order and repetition of the values make no difference to a label set. -/
theorem matches_normal {r : Requirement} (h : r.Valid) (labels : Labels) :
    r.normal.matches labels = r.matches labels := by
  have hvalue : r.normal.hasValue = r.hasValue := by
    funext v
    simp only [Requirement.hasValue, mem_strValues_normal]
  have hother : r.operator = .greaterThan ∨ r.operator = .lessThan →
      r.normal.compares = r.compares := by
    intro hop
    have hlength : r.strValues.length = 1 := by
      have htakes := h.takes
      rcases hop with hop | hop <;> rw [hop] at htakes <;> exact htakes.1
    funext v
    simp only [Requirement.compares, strValues_normal_of_length hlength]
    rfl
  have hkey : r.normal.key = r.key := rfl
  have hop : r.normal.operator = r.operator := rfl
  unfold Requirement.matches
  rw [hop, hkey, hvalue]
  split <;> simp_all

/-! ## Selectors -/

/-- An `InternalSelector`. -/
abbrev Selector := List Requirement

/-- The order of `byKey`. -/
def byKey (locale : Etcd.Locale) (left right : Requirement) : Prop :=
  (locale.localeCompare left.key right.key).isLE = true

instance (locale : Etcd.Locale) : DecidableRel (byKey locale) :=
  fun _ _ => inferInstanceAs (Decidable (_ = _))

instance (locale : Etcd.Locale) : Std.Total (byKey locale) where
  total left right := by
    have hswap : locale.localeCompare right.key left.key
        = (locale.localeCompare left.key right.key).swap := Std.OrientedCmp.eq_swap
    simp only [byKey, hswap]
    cases locale.localeCompare left.key right.key <;> simp

instance (locale : Etcd.Locale) : IsTrans Requirement (byKey locale) where
  trans _ _ _ := Std.TransCmp.isLE_trans

def Selector.matches (selector : Selector) (labels : Labels) : Bool :=
  selector.all fun requirement => requirement.matches labels

def Selector.string (selector : Selector) : JsString :=
  (js ",").intercalate (selector.map Requirement.string)

namespace Selector

/-- The stable sort by key. -/
def sortByKey (locale : Etcd.Locale) (selector : Selector) : Selector :=
  selector.insertionSort (byKey locale)

def add (locale : Etcd.Locale) (selector requirements : Selector) : Selector :=
  sortByKey locale (selector ++ requirements)

theorem sortByKey_perm (locale : Etcd.Locale) (selector : Selector) :
    (selector.sortByKey locale).Perm selector :=
  List.perm_insertionSort _ _

/-- Sorting a second time changes nothing. -/
theorem sortByKey_sortByKey (locale : Etcd.Locale) (selector : Selector) :
    (selector.sortByKey locale).sortByKey locale = selector.sortByKey locale :=
  (List.pairwise_insertionSort (byKey locale) selector).insertionSort_eq

theorem matches_perm {left right : Selector} (h : left.Perm right) (labels : Labels) :
    left.matches labels = right.matches labels := by
  rw [Selector.matches, Selector.matches, Bool.eq_iff_iff, List.all_eq_true, List.all_eq_true]
  exact ⟨fun hall r hr => hall r (h.mem_iff.2 hr), fun hall r hr => hall r (h.mem_iff.1 hr)⟩

end Selector

end Webernetes.Apimachinery
