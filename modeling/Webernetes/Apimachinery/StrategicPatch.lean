/-
Webernetes.Apimachinery.StrategicPatch — `strategicMergePatch` of the
`strategicpatch` package.

The entries of a patch go into the object one after the other. Directives are
read where both sides are lists: `$patch` in the items of the list at
`metadata.ownerReferences`, the only one whose items are merged by a key, and
`$deleteFromPrimitiveList` beside the list it names. Anything else replaces
what is there.

A patch has no key twice.
-/
import Webernetes.Js.Json

namespace Webernetes.Apimachinery

open Js

variable {N : Type} [DecidableEq N]

def directiveMarker : JsString := js "$patch"

def deleteDirective : JsString := js "delete"

def deleteFromPrimitiveListDirectivePrefix : JsString := js "$deleteFromPrimitiveList"

/-- `===`; lists and objects of a patch are no part of the object. -/
def strictEqual : Json N → Json N → Bool
  | .null, .null => true
  | .bool b, .bool b' => decide (b = b')
  | .number n, .number n' => decide (n = n')
  | .string s, .string s' => decide (s = s')
  | _, _ => false

def deleteFromSlice (original patch : List (Json N)) : List (Json N) :=
  original.filter fun item => !patch.any (strictEqual item)

/-- The key that a directive names, after the slash. -/
def extractKey (s stem : JsString) : Except JsString JsString :=
  match s.splitOn 47 with
  | actualPrefix :: key :: _ =>
    if actualPrefix = stem then .ok key
    else .error (js "failed to find prefix " ++ stem ++ js " in " ++ s)
  | _ => .error (js "failed to find prefix " ++ stem ++ js " in " ++ s)

def patchMergeKeyForPath (path : List JsString) : Option JsString :=
  if [46].intercalate path = js "metadata.ownerReferences" then some (js "uid") else none

/-- The items of a list of objects. -/
def mapSlice : List (Json N) → Option (List (Fields N))
  | [] => some []
  | .object item :: rest => (mapSlice rest).map (item :: ·)
  | _ :: _ => none

/-- The item has the value at its key. -/
def hasMergeValue (mergeKey : JsString) (mergeValue : Json N) (item : Fields N) : Bool :=
  (item.get mergeKey).any fun value => strictEqual value mergeValue

/-- One after the other, until none is left. -/
def deleteMatchingEntries (original : List (Fields N)) (mergeKey : JsString) (mergeValue : Json N) :
    List (Fields N) :=
  original.filter fun item => !hasMergeValue mergeKey mergeValue item

/-- What the deletions of a patch leave of the list. -/
def mergeSliceWithSpecialElements (mergeKey : JsString) (original patch : List (Fields N)) :
    List (Fields N) :=
  patch.foldl (fun original v =>
    match v.get directiveMarker with
    | some (.string patchType) =>
      if patchType = deleteDirective then
        match v.get mergeKey with
        | some mergeValue => deleteMatchingEntries original mergeKey mergeValue
        | none => original
      else original
    | _ => original) original

mutual

def mergeMap (path : List JsString) (original : Fields N) : Fields N → Except JsString (Fields N)
  | [] => .ok original
  | entry :: patch => do mergeMap path (← mergeEntry path original entry) patch

def mergeEntry (path : List JsString) (original : Fields N) :
    JsString × Json N → Except JsString (Fields N)
  | (key, patchV) =>
    if deleteFromPrimitiveListDirectivePrefix.isPrefixOf key then do
      let originalKey ← extractKey key deleteFromPrimitiveListDirectivePrefix
      match original.get originalKey, patchV with
      | some (.array originalV), .array patchV =>
        return original.set originalKey (.array (deleteFromSlice originalV patchV))
      | _, _ => return original
    else mergeValue path original key patchV

def mergeValue (path : List JsString) (original : Fields N) (key : JsString) :
    Json N → Except JsString (Fields N)
  | .null => return original.delete key
  | .object patchV => do
    match original.get key with
    | some (.object originalV) =>
      return original.set key (.object (← mergeMap (path ++ [key]) originalV patchV))
    | _ => return original.set key (.object patchV)
  | .array patchV => do
    match original.get key with
    | some (.array originalV) =>
      match patchMergeKeyForPath (path ++ [key]), mapSlice originalV, mapSlice patchV with
      | some mergeKey, some originalItems, some patchItems =>
        let items := mergeSliceWithSpecialElements mergeKey originalItems patchItems
        let items ← mergeSliceWithoutSpecialElements (path ++ [key]) mergeKey items patchV
        return original.set key (.array (items.map .object))
      | _, _, _ => return original.set key (.array patchV)
    | _ => return original.set key (.array patchV)
  | patchV => return original.set key patchV

def mergeSliceWithoutSpecialElements (path : List JsString) (mergeKey : JsString)
    (original : List (Fields N)) : List (Json N) → Except JsString (List (Fields N))
  | [] => .ok original
  | item :: patch => do
    mergeSliceWithoutSpecialElements path mergeKey (← mergeItem path mergeKey original item) patch

/-- An item of the patch goes into the first with its key, or to the end. -/
def mergeItem (path : List JsString) (mergeKey : JsString) (original : List (Fields N)) :
    Json N → Except JsString (List (Fields N))
  | .object v => do
    if (Fields.get v directiveMarker).isSome then return original
    else
      match Fields.get v mergeKey with
      | none => return original
      | some mergeValue =>
        match original.findIdx? (hasMergeValue mergeKey mergeValue) with
        | some originalKey =>
          return original.set originalKey (← mergeMap path (original[originalKey]?.getD []) v)
        | none => return original ++ [v]
  | _ => return original

end

def strategicMergePatch (original patch : Fields N) : Except JsString (Fields N) :=
  mergeMap [] original patch

/-! ## Entries -/

theorem mergeMap_cons (path : List JsString) (original : Fields N) (entry : JsString × Json N)
    (patch : Fields N) :
    mergeMap path original (entry :: patch)
      = (mergeEntry path original entry).bind fun original => mergeMap path original patch := by
  rw [mergeMap]
  rfl

theorem mergeMap_append (path : List JsString) (first second : Fields N) : ∀ original : Fields N,
    mergeMap path original (first ++ second)
      = (mergeMap path original first).bind fun original => mergeMap path original second := by
  induction first with
  | nil =>
    intro original
    rw [List.nil_append, mergeMap]
    rfl
  | cons entry first ih =>
    intro original
    rw [List.cons_append, mergeMap_cons, mergeMap_cons]
    cases mergeEntry path original entry with
    | error e => rfl
    | ok original => exact ih original

theorem mergeEntry_of_key {key : JsString}
    (h : deleteFromPrimitiveListDirectivePrefix.isPrefixOf key = false) (path : List JsString)
    (original : Fields N) (value : Json N) :
    mergeEntry path original (key, value) = mergeValue path original key value := by
  rw [mergeEntry, h]
  rfl

/-- A value that is no list, no object and not null. -/
def isScalar : Json N → Bool
  | .bool _ => true
  | .number _ => true
  | .string _ => true
  | _ => false

theorem mergeValue_scalar {value : Json N} (h : isScalar value = true) (path : List JsString)
    (original : Fields N) (key : JsString) :
    mergeValue path original key value = .ok (original.set key value) := by
  cases value with
  | bool b =>
    simp only [mergeValue]
    rfl
  | number n =>
    simp only [mergeValue]
    rfl
  | string s =>
    simp only [mergeValue]
    rfl
  | _ => cases h

/-- Scalars replace what is there, one after the other. -/
theorem mergeMap_scalars {patch : Fields N} (path : List JsString)
    (hkeys : ∀ entry ∈ patch, deleteFromPrimitiveListDirectivePrefix.isPrefixOf entry.1 = false)
    (hscalar : ∀ entry ∈ patch, isScalar entry.2 = true) : ∀ original : Fields N,
    mergeMap path original patch
      = .ok (patch.foldl (fun original entry => original.set entry.1 entry.2) original) := by
  induction patch with
  | nil =>
    intro original
    rw [mergeMap]
    rfl
  | cons entry patch ih =>
    intro original
    obtain ⟨key, value⟩ := entry
    rw [mergeMap_cons, mergeEntry_of_key (hkeys _ List.mem_cons_self),
      mergeValue_scalar (hscalar _ List.mem_cons_self)]
    exact ih (fun entry h => hkeys entry (List.mem_cons_of_mem _ h))
      (fun entry h => hscalar entry (List.mem_cons_of_mem _ h)) _

/-! ## Lists of objects -/

omit [DecidableEq N] in
@[simp] theorem mapSlice_map_object (items : List (Fields N)) :
    mapSlice (items.map Json.object) = some items := by
  induction items with
  | nil => rfl
  | cons item items ih => simp [mapSlice, ih]

@[simp] theorem strictEqual_string (v : Json N) (s : JsString) :
    strictEqual v (.string s) = true ↔ v = .string s := by
  cases v <;> simp [strictEqual]

@[simp] theorem hasMergeValue_string (mergeKey uid : JsString) (item : Fields N) :
    hasMergeValue mergeKey (.string uid) item = true ↔ item.get mergeKey = some (.string uid) := by
  cases h : item.get mergeKey with
  | none => simp [hasMergeValue, h]
  | some v => simp [hasMergeValue, h]

end Webernetes.Apimachinery
