/-
Webernetes.Controller.OwnerReferencePatches — what the patches of owner
references do to an object.

A release deletes the references to given owners, an adoption merges one into
the list. The directives of a release are read only where the object has a
list of references (`releases_iff`); where it has none the directives
themselves are stored. An adoption goes into the first reference with the
controller's uid (`adopts_iff`).
-/
import Webernetes.Apimachinery.StrategicPatch

namespace Webernetes.Controller

open Js

variable {N : Type}

/-! ## The patches -/

/-- A field that is left out where it is undefined. -/
def optionalField (key : JsString) (value : Option (Json N)) : Fields N :=
  (value.map fun value => (key, value)).toList

def stringList (values : List JsString) : Json N := .array (values.map .string)

/-- `ownerReference(uid, patchType)`. -/
def ownerReferenceDirective (uid patchType : JsString) : Json N :=
  .object [(js "$patch", .string patchType), (js "uid", .string uid)]

def generateDeleteOwnerRefStrategicMergeBytes (dependentUID : Option JsString)
    (ownerUIDs : List JsString) (finalizers : List JsString) : Fields N :=
  [(js "metadata", .object (optionalField (js "uid") (dependentUID.map .string)
    ++ (js "ownerReferences", .array (ownerUIDs.map (ownerReferenceDirective · (js "delete"))))
      :: optionalField (js "$deleteFromPrimitiveList/finalizers")
        (if finalizers.length > 0 then some (stringList finalizers) else none)))]

/-- What a controller's reference is made of. -/
structure ControllerIdentity where
  apiVersion : JsString
  kind : JsString
  name : Option JsString
  uid : Option JsString

def ControllerIdentity.reference (controller : ControllerIdentity) : Fields N :=
  [(js "apiVersion", .string controller.apiVersion),
    (js "kind", .string controller.kind),
    (js "name", .string (controller.name.getD [])),
    (js "uid", .string (controller.uid.getD [])),
    (js "controller", .bool true),
    (js "blockOwnerDeletion", .bool true)]

def ownerRefControllerPatch (controller : ControllerIdentity) (uid : Option JsString)
    (finalizers : List JsString) : Fields N :=
  [(js "metadata", .object (optionalField (js "uid") (uid.map .string)
    ++ (js "ownerReferences", .array [.object controller.reference])
      :: optionalField (js "finalizers")
        (if finalizers.length > 0 then some (stringList finalizers) else none)))]

/-! ## Objects with owner references -/

/-- A Pod or a ReplicaSet, with the list of its references where it has
one. -/
structure IsResource (original metadata : Fields N) (references : Option (List (Fields N))) : Prop where
  atMetadata : original.get (js "metadata") = some (.object metadata)
  atReferences : metadata.get (js "ownerReferences") =
    references.map fun references => .array (references.map .object)

def referencesOf (object : Fields N) : List (Json N) :=
  match Json.atPath (some (.object object)) [js "metadata", js "ownerReferences"] with
  | some (.array references) => references
  | _ => []

/-- A reference to one of the owners. -/
def refersTo (ownerUIDs : List JsString) : Json N → Bool
  | .object reference =>
    match Fields.get reference (js "uid") with
    | some (.string uid) => ownerUIDs.contains uid
    | _ => false
  | _ => false

def IsDirective (key : JsString) : Prop :=
  key = Apimachinery.directiveMarker
    ∨ Apimachinery.deleteFromPrimitiveListDirectivePrefix.isPrefixOf key = true

def HasDirective (v : Json N) : Prop := ∃ key, IsDirective key ∧ v.mentions key = true

/-- What a release is for. -/
structure Released (original result : Fields N) (ownerUIDs : List JsString) : Prop where
  references : referencesOf result = (referencesOf original).filter fun reference =>
    !refersTo ownerUIDs reference
  others : ∀ key, key ≠ js "metadata" → result.get key = original.get key
  metadata : ∀ key, key ≠ js "ownerReferences" →
    Json.atPath (some (.object result)) [js "metadata", key]
      = Json.atPath (some (.object original)) [js "metadata", key]
  noDirective : ¬ HasDirective (.object result)

/-- What an adoption is for. -/
structure Adopted (original result : Fields N) (uid : JsString) : Prop where
  others : ((referencesOf result).filter fun reference => !refersTo [uid] reference)
    = (referencesOf original).filter fun reference => !refersTo [uid] reference
  one : ((referencesOf result).filter (refersTo [uid])).length = 1

section Objects

variable {original metadata metadata' : Fields N} {references : Option (List (Fields N))}

theorem IsResource.referencesOf_eq (h : IsResource original metadata references) :
    referencesOf original = (references.getD []).map .object := by
  have hpath : Json.atPath (some (.object original)) [js "metadata", js "ownerReferences"]
      = references.map fun references => .array (references.map .object) := by
    rw [Json.atPath_cons, Json.child_object, h.atMetadata, Json.atPath_cons, Json.child_object, Json.atPath_nil,
      h.atReferences]
  rw [referencesOf, hpath]
  cases references <;> rfl

/-- An object with other metadata. -/
theorem get_set_metadata (key : JsString) :
    Json.atPath (some (.object (original.set (js "metadata") (.object metadata')))) [js "metadata", key]
      = metadata'.get key := by
  rw [Json.atPath_cons, Json.child_object, Fields.get_set, if_pos rfl]
  rfl

theorem referencesOf_set {items : List (Json N)}
    (h : metadata'.get (js "ownerReferences") = some (.array items)) :
    referencesOf (original.set (js "metadata") (.object metadata')) = items := by
  rw [referencesOf, get_set_metadata, h]

end Objects

/-! ## Directives in an object -/

theorem mentions_array (key : JsString) (items : List (Json N)) :
    Json.mentions key (.array items) = items.any (Json.mentions key) := by
  rw [Json.mentions, Bool.eq_iff_iff, List.any_eq_true, List.any_eq_true]
  constructor
  · rintro ⟨⟨item, hitem⟩, -, h⟩
    exact ⟨item, hitem, h⟩
  · rintro ⟨item, hitem, h⟩
    exact ⟨⟨item, hitem⟩, List.mem_attach _ _, h⟩

/-- An entry of an object, or the new one. -/
theorem mem_set {fields : Fields N} {key : JsString} {value : Json N} {entry : JsString × Json N}
    (h : entry ∈ fields.set key value) : entry = (key, value) ∨ entry ∈ fields := by
  induction fields with
  | nil => exact .inl (List.mem_singleton.mp h)
  | cons first rest ih =>
    rw [Fields.set] at h
    split at h
    · rename_i hkey
      rcases List.mem_cons.mp h with rfl | h
      · exact .inl (by rw [hkey])
      · exact .inr (List.mem_cons_of_mem _ h)
    · rcases List.mem_cons.mp h with rfl | h
      · exact .inr List.mem_cons_self
      · exact (ih h).imp id (List.mem_cons_of_mem _)

/-- A directive of an object that was changed at one key is one of the old
object or of the new value. -/
theorem hasDirective_set {fields : Fields N} {key : JsString} {value : Json N} (hkey : ¬ IsDirective key)
    (h : HasDirective (.object (fields.set key value))) :
    HasDirective (.object fields) ∨ HasDirective value := by
  obtain ⟨directive, hdirective, hmentions⟩ := h
  rw [Json.mentions_object, List.any_eq_true] at hmentions
  obtain ⟨entry, hentry, hat⟩ := hmentions
  rcases mem_set hentry with rfl | hentry
  · simp only [Bool.or_eq_true, decide_eq_true_eq] at hat
    rcases hat with rfl | hat
    · exact absurd hdirective hkey
    · exact .inr ⟨directive, hdirective, hat⟩
  · refine .inl ⟨directive, hdirective, ?_⟩
    rw [Json.mentions_object, List.any_eq_true]
    exact ⟨entry, hentry, hat⟩

theorem hasDirective_get {fields : Fields N} {key : JsString} {value : Json N}
    (hget : fields.get key = some value) (h : HasDirective value) : HasDirective (.object fields) := by
  obtain ⟨directive, hdirective, hmentions⟩ := h
  refine ⟨directive, hdirective, ?_⟩
  induction fields with
  | nil => cases hget
  | cons entry rest ih =>
    obtain ⟨k, v⟩ := entry
    rw [Fields.get_cons] at hget
    rw [Json.mentions_object, List.any_cons, ← Json.mentions_object]
    split at hget
    · cases hget
      simp [hmentions]
    · simp [ih hget]

theorem hasDirective_filter {items : List (Json N)} {p : Json N → Bool}
    (h : HasDirective (.array (items.filter p))) : HasDirective (.array items) := by
  obtain ⟨directive, hdirective, hmentions⟩ := h
  refine ⟨directive, hdirective, ?_⟩
  rw [mentions_array, List.any_eq_true] at hmentions ⊢
  obtain ⟨item, hitem, hat⟩ := hmentions
  exact ⟨item, List.mem_of_mem_filter hitem, hat⟩

theorem not_isDirective_metadata : ¬ IsDirective (js "metadata") := by
  unfold IsDirective
  decide

theorem not_isDirective_ownerReferences : ¬ IsDirective (js "ownerReferences") := by
  unfold IsDirective
  decide

/-! ## A release -/

/-- The fields of a directive. -/
def directiveFields (uid : JsString) : Fields N :=
  [(js "$patch", .string (js "delete")), (js "uid", .string uid)]

theorem get_uid_directiveFields (uid : JsString) :
    (directiveFields uid : Fields N).get (js "uid") = some (.string uid) := by
  rw [directiveFields, Fields.get_cons, if_neg (by decide), Fields.get_cons, if_pos rfl]

theorem get_directiveMarker_directiveFields (uid : JsString) :
    (directiveFields uid : Fields N).get Apimachinery.directiveMarker = some (.string (js "delete")) := by
  rw [directiveFields, Fields.get_cons, if_pos (by decide)]

section Release

variable [DecidableEq N] {original metadata : Fields N} {references : Option (List (Fields N))}

/-- Both patches start with the uid, which the object has already. -/
theorem mergeMap_uid {uid : Option JsString} (path : List JsString)
    (huid : ∀ u ∈ uid, metadata.get (js "uid") = some (.string u)) :
    ∃ metadata', Apimachinery.mergeMap path metadata (optionalField (js "uid") (uid.map .string))
        = .ok metadata'
      ∧ (∀ key, metadata'.get key = metadata.get key)
      ∧ (HasDirective (.object metadata') → HasDirective (.object metadata)) := by
  cases uid with
  | none => exact ⟨metadata, by simp [optionalField, Apimachinery.mergeMap], fun _ => rfl, id⟩
  | some u =>
    refine ⟨metadata.set (js "uid") (.string u), ?_, fun key => ?_, fun h => ?_⟩
    · refine Apimachinery.mergeMap_scalars path ?_ (by simp [optionalField, Apimachinery.isScalar]) _
      rintro entry hentry
      rw [List.mem_singleton.mp hentry]
      exact (by decide :
        Apimachinery.deleteFromPrimitiveListDirectivePrefix.isPrefixOf (js "uid") = false)
    · rw [Fields.get_set]
      split
      · rename_i hkey
        rw [hkey, huid u rfl]
      · rfl
    · rcases hasDirective_set (by unfold IsDirective; decide) h with h | ⟨_, _, h⟩
      · exact h
      · simp [Json.mentions] at h

/-- A patch of the metadata changes the object there only. -/
theorem strategicMergePatch_metadata {patch metadata' : Fields N}
    (h : original.get (js "metadata") = some (.object metadata))
    (hmerge : Apimachinery.mergeMap [js "metadata"] metadata patch = .ok metadata') :
    Apimachinery.strategicMergePatch original [(js "metadata", .object patch)]
      = .ok (original.set (js "metadata") (.object metadata')) := by
  rw [Apimachinery.strategicMergePatch, Apimachinery.mergeMap_cons,
    Apimachinery.mergeEntry_of_key (by decide), Apimachinery.mergeValue, h]
  simp only [List.nil_append, hmerge]
  simp [Apimachinery.mergeMap, Except.bind, bind, pure, Except.pure]

theorem mergeValue_references_none {metadata : Fields N}
    (h : metadata.get (js "ownerReferences") = none) (patch : List (Json N)) :
    Apimachinery.mergeValue [js "metadata"] metadata (js "ownerReferences") (.array patch)
      = .ok (metadata.set (js "ownerReferences") (.array patch)) := by
  rw [Apimachinery.mergeValue, h]
  rfl

theorem mergeValue_references_some {metadata : Fields N} {references patch : List (Fields N)}
    {merged : List (Fields N)}
    (h : metadata.get (js "ownerReferences") = some (.array (references.map .object)))
    (hmerge : Apimachinery.mergeSliceWithoutSpecialElements [js "metadata", js "ownerReferences"] (js "uid")
      (Apimachinery.mergeSliceWithSpecialElements (js "uid") references patch) (patch.map .object) = .ok merged) :
    Apimachinery.mergeValue [js "metadata"] metadata (js "ownerReferences") (.array (patch.map .object))
      = .ok (metadata.set (js "ownerReferences") (.array (merged.map .object))) := by
  have hkey : Apimachinery.patchMergeKeyForPath ([js "metadata"] ++ [js "ownerReferences"])
      = some (js "uid") := by decide
  rw [Apimachinery.mergeValue, h]
  simp only [hkey, Apimachinery.mapSlice_map_object]
  rw [show [js "metadata"] ++ [js "ownerReferences"] = [js "metadata", js "ownerReferences"] from rfl, hmerge]
  rfl

theorem refersTo_object (uids : List JsString) (reference : Fields N) :
    refersTo uids (.object reference) = uids.any fun uid =>
      Apimachinery.hasMergeValue (js "uid") (.string uid) reference := by
  rw [Bool.eq_iff_iff, List.any_eq_true]
  simp only [Apimachinery.hasMergeValue_string, refersTo]
  cases hget : reference.get (js "uid") with
  | none => simp
  | some value =>
    cases value with
    | string uid =>
      simp only [List.contains_iff_mem, Option.some.injEq, Json.string.injEq]
      constructor
      · exact fun h => ⟨uid, h, rfl⟩
      · rintro ⟨uid', h, rfl⟩
        exact h
    | _ => simp

/-- By induction on the directives: each deletes the references to its
owner. -/
theorem mergeSlice_directives (ownerUIDs : List JsString) : ∀ references : List (Fields N),
    Apimachinery.mergeSliceWithSpecialElements (js "uid") references (ownerUIDs.map directiveFields)
      = references.filter fun reference => !refersTo ownerUIDs (.object reference) := by
  induction ownerUIDs with
  | nil =>
    intro references
    simp [Apimachinery.mergeSliceWithSpecialElements, refersTo_object]
  | cons uid ownerUIDs ih =>
    intro references
    have hfirst : Apimachinery.mergeSliceWithSpecialElements (js "uid") references
        ((uid :: ownerUIDs).map directiveFields)
        = Apimachinery.mergeSliceWithSpecialElements (js "uid")
          (Apimachinery.deleteMatchingEntries references (js "uid") (.string uid))
          (ownerUIDs.map directiveFields) := by
      rw [List.map_cons, Apimachinery.mergeSliceWithSpecialElements, List.foldl_cons,
        get_directiveMarker_directiveFields, get_uid_directiveFields]
      rfl
    rw [hfirst, ih, Apimachinery.deleteMatchingEntries, List.filter_filter]
    refine List.filter_congr fun reference _ => ?_
    simp [refersTo_object, Bool.and_comm]

/-- Once the directives are read they add nothing. -/
theorem mergeItems_directives (path : List JsString) (items : List (Fields N)) (ownerUIDs : List JsString) :
    Apimachinery.mergeSliceWithoutSpecialElements path (js "uid") items
      ((ownerUIDs.map directiveFields).map .object) = .ok items := by
  induction ownerUIDs with
  | nil => simp [Apimachinery.mergeSliceWithoutSpecialElements]
  | cons uid ownerUIDs ih =>
    rw [List.map_cons, List.map_cons, Apimachinery.mergeSliceWithoutSpecialElements, Apimachinery.mergeItem,
      get_directiveMarker_directiveFields]
    exact ih

/-- What a release makes of the list. -/
def releasedReferences (ownerUIDs : List JsString) : Option (List (Fields N)) → List (Json N)
  | some references => (references.map .object).filter fun reference => !refersTo ownerUIDs reference
  | none => ownerUIDs.map (ownerReferenceDirective · (js "delete"))

theorem mergeMap_release (h : IsResource original metadata references) {dependentUID : Option JsString}
    (huid : ∀ uid ∈ dependentUID, metadata.get (js "uid") = some (.string uid)) (ownerUIDs : List JsString) :
    ∃ metadata' : Fields N, (∀ key, metadata'.get key = metadata.get key)
      ∧ (HasDirective (.object metadata') → HasDirective (.object metadata))
      ∧ Apimachinery.strategicMergePatch original
          (generateDeleteOwnerRefStrategicMergeBytes dependentUID ownerUIDs [])
        = .ok (original.set (js "metadata") (.object
            (metadata'.set (js "ownerReferences") (.array (releasedReferences ownerUIDs references))))) := by
  obtain ⟨metadata', hmerge, hget, hclean⟩ := mergeMap_uid [js "metadata"] huid
  refine ⟨metadata', hget, hclean, ?_⟩
  have hdirectives : ownerUIDs.map (ownerReferenceDirective · (js "delete"))
      = ((ownerUIDs.map directiveFields).map Json.object : List (Json N)) := by
    rw [List.map_map]
    rfl
  have hreferences : metadata'.get (js "ownerReferences") = _ := (hget _).trans h.atReferences
  refine strategicMergePatch_metadata h.atMetadata ?_
  rw [Apimachinery.mergeMap_append, hmerge, Except.bind, Apimachinery.mergeMap_cons,
    Apimachinery.mergeEntry_of_key (by decide), hdirectives]
  cases references with
  | none =>
    rw [mergeValue_references_none hreferences, ← hdirectives]
    simp [optionalField, Apimachinery.mergeMap, Except.bind, releasedReferences]
  | some references =>
    rw [mergeValue_references_some hreferences (mergeItems_directives _ _ _), mergeSlice_directives,
      releasedReferences, List.filter_map]
    simp [optionalField, Apimachinery.mergeMap, Except.bind, Function.comp_def]

/-- **A release does what it is for just where the object has a list of
references.** -/
theorem releases_iff_isSome (h : IsResource original metadata references)
    (hclean : ¬ HasDirective (.object original)) {dependentUID : Option JsString}
    (huid : ∀ uid ∈ dependentUID, metadata.get (js "uid") = some (.string uid)) {ownerUIDs : List JsString}
    (hsome : ownerUIDs ≠ []) :
    (∃ result, Apimachinery.strategicMergePatch original
        (generateDeleteOwnerRefStrategicMergeBytes dependentUID ownerUIDs []) = .ok result
      ∧ Released original result ownerUIDs) ↔ references.isSome = true := by
  obtain ⟨metadata', hget, hkept, hpatch⟩ := mergeMap_release h huid ownerUIDs
  rw [hpatch]
  have hreferences : referencesOf (original.set (js "metadata") (.object (metadata'.set (js "ownerReferences")
      (.array (releasedReferences ownerUIDs references))))) = releasedReferences ownerUIDs references :=
    referencesOf_set (by rw [Fields.get_set, if_pos rfl])
  constructor
  · rintro ⟨result, heq, hreleased⟩
    cases heq
    have hlist := hreleased.references
    rw [hreferences, h.referencesOf_eq] at hlist
    cases references with
    | some references => rfl
    | none => simp [releasedReferences, hsome] at hlist
  · intro hhas
    obtain ⟨references, rfl⟩ := Option.isSome_iff_exists.mp hhas
    refine ⟨_, rfl, ?_, fun key hkey => ?_, fun key hkey => ?_, fun hdirective => hclean ?_⟩
    · rw [hreferences, h.referencesOf_eq]
      rfl
    · rw [Fields.get_set, if_neg hkey]
    · rw [get_set_metadata, Fields.get_set, if_neg hkey, hget, Json.atPath_cons, Json.child_object, h.atMetadata]
      rfl
    · rcases hasDirective_set not_isDirective_metadata hdirective with hold | hmetadata
      · exact hold
      · refine hasDirective_get h.atMetadata ?_
        rcases hasDirective_set not_isDirective_ownerReferences hmetadata with hold | hlist
        · exact hkept hold
        · exact hasDirective_get h.atReferences (hasDirective_filter hlist)

end Release

/-! ## An adoption -/

section Adoption

variable (controller : ControllerIdentity)

theorem reference_isScalar :
    (∀ entry ∈ (controller.reference : Fields N),
      Apimachinery.deleteFromPrimitiveListDirectivePrefix.isPrefixOf entry.1 = false)
      ∧ ∀ entry ∈ (controller.reference : Fields N), Apimachinery.isScalar entry.2 = true := by
  have hkeys : ∀ key ∈ [js "apiVersion", js "kind", js "name", js "uid", js "controller", js "blockOwnerDeletion"],
      Apimachinery.deleteFromPrimitiveListDirectivePrefix.isPrefixOf key = false := by decide
  simp only [ControllerIdentity.reference, List.forall_mem_cons, List.not_mem_nil, false_implies, implies_true,
    and_true] at hkeys ⊢
  exact ⟨hkeys, rfl, rfl, rfl, rfl, rfl, rfl⟩

/-- A reference that the controller's was merged into. -/
def mergedReference (reference : Fields N) : Fields N :=
  (controller.reference : Fields N).foldl (fun reference entry => reference.set entry.1 entry.2) reference

theorem get_uid_mergedReference (reference : Fields N) :
    (mergedReference controller reference).get (js "uid") = some (.string (controller.uid.getD [])) := by
  simp only [mergedReference, ControllerIdentity.reference, List.foldl_cons, List.foldl_nil, Fields.get_set]
  rw [if_neg (by decide), if_neg (by decide), if_pos trivial]

theorem get_uid_reference :
    (controller.reference : Fields N).get (js "uid") = some (.string (controller.uid.getD [])) := by
  simp only [ControllerIdentity.reference, Fields.get_cons]
  rw [if_neg (by decide), if_neg (by decide), if_neg (by decide), if_pos trivial]

theorem get_directiveMarker_reference :
    (controller.reference : Fields N).get Apimachinery.directiveMarker = none := by
  simp only [ControllerIdentity.reference, Fields.get_cons, Fields.get_nil]
  rw [if_neg (by decide), if_neg (by decide), if_neg (by decide),
    if_neg (by decide), if_neg (by decide), if_neg (by decide)]

variable [DecidableEq N] {original metadata : Fields N} {references : Option (List (Fields N))}

/-- What an adoption makes of the list. -/
def adoptedReferences (references : List (Fields N)) : List (Fields N) :=
  match references.findIdx? (Apimachinery.hasMergeValue (js "uid") (.string (controller.uid.getD []))) with
  | some i => references.set i (mergedReference controller (references[i]?.getD []))
  | none => references ++ [controller.reference]

theorem mergeSlice_reference (path : List JsString) (references : List (Fields N)) :
    Apimachinery.mergeSliceWithoutSpecialElements path (js "uid")
      (Apimachinery.mergeSliceWithSpecialElements (js "uid") references [controller.reference])
      ([controller.reference].map .object) = .ok (adoptedReferences controller references) := by
  obtain ⟨hkeys, hscalar⟩ := reference_isScalar (N := N) controller
  have hspecial : Apimachinery.mergeSliceWithSpecialElements (js "uid") references [controller.reference]
      = references := by
    rw [Apimachinery.mergeSliceWithSpecialElements, List.foldl_cons, get_directiveMarker_reference]
    rfl
  rw [hspecial, List.map_cons, Apimachinery.mergeSliceWithoutSpecialElements, Apimachinery.mergeItem,
    get_directiveMarker_reference, get_uid_reference, adoptedReferences]
  simp only [Apimachinery.mergeMap_scalars path hkeys hscalar]
  cases hfind : references.findIdx?
      (Apimachinery.hasMergeValue (js "uid") (.string (controller.uid.getD []))) with
  | none => simp [Apimachinery.mergeSliceWithoutSpecialElements, bind, Except.bind, pure, Except.pure]
  | some i =>
    simp [Apimachinery.mergeSliceWithoutSpecialElements, bind, Except.bind, pure, Except.pure,
      mergedReference]

theorem refersTo_singleton {uid : JsString} {reference : Fields N} :
    refersTo [uid] (.object reference) = true ↔ reference.get (js "uid") = some (.string uid) := by
  rw [refersTo_object, List.any_cons, List.any_nil, Bool.or_false, Apimachinery.hasMergeValue_string]

/-- The other references stay, and those of the controller are as many as
before, or one. -/
theorem adoptedReferences_filter (references : List (Fields N)) :
    (((adoptedReferences controller references).map Json.object).filter fun reference =>
        !refersTo [controller.uid.getD []] reference)
      = ((references.map Json.object).filter fun reference => !refersTo [controller.uid.getD []] reference)
      ∧ (((adoptedReferences controller references).map Json.object).filter
          (refersTo [controller.uid.getD []])).length
        = max 1 ((references.map Json.object).filter (refersTo [controller.uid.getD []])).length := by
  rw [adoptedReferences]
  cases hfind : references.findIdx?
      (Apimachinery.hasMergeValue (js "uid") (.string (controller.uid.getD []))) with
  | none =>
    have hnew : refersTo [controller.uid.getD []] (.object (controller.reference : Fields N)) = true :=
      refersTo_singleton.mpr (get_uid_reference controller)
    have hold : (references.map Json.object).filter (refersTo [controller.uid.getD []]) = [] := by
      rw [List.filter_eq_nil_iff]
      intro reference hreference
      obtain ⟨fields, hfields, rfl⟩ := List.mem_map.mp hreference
      have := List.findIdx?_eq_none_iff.mp hfind fields hfields
      rw [refersTo_object, List.any_cons, this]
      simp
    simp [hnew, hold]
  | some i =>
    obtain ⟨hi, hat, -⟩ := List.findIdx?_eq_some_iff_getElem.mp hfind
    have hbefore : refersTo [controller.uid.getD []] (.object references[i]) = true :=
      refersTo_singleton.mpr ((Apimachinery.hasMergeValue_string _ _ _).mp hat)
    have hafter : refersTo [controller.uid.getD []]
        (.object (mergedReference controller (references[i]?.getD []))) = true :=
      refersTo_singleton.mpr (get_uid_mergedReference controller _)
    have hsplit : references = references.take i ++ references[i] :: references.drop (i + 1) := by
      rw [List.getElem_cons_drop, List.take_append_drop]
    have hset : references.set i (mergedReference controller (references[i]?.getD []))
        = references.take i ++ mergedReference controller (references[i]?.getD []) :: references.drop (i + 1) := by
      rw [List.set_eq_take_append_cons_drop, if_pos hi]
    dsimp only
    rw [hset]
    generalize mergedReference controller (references[i]?.getD []) = merged at hafter
    generalize references[i] = found at hbefore hsplit
    generalize references.take i = before at hsplit
    generalize references.drop (i + 1) = after at hsplit
    rw [hsplit]
    simp [hbefore, hafter]
    omega

/-- A list that is not merged by a key is replaced. -/
theorem mergeValue_array {path : List JsString} {key : JsString}
    (h : Apimachinery.patchMergeKeyForPath (path ++ [key]) = none) (original : Fields N) (patch : List (Json N)) :
    Apimachinery.mergeValue path original key (.array patch) = .ok (original.set key (.array patch)) := by
  rw [Apimachinery.mergeValue]
  simp only [h]
  split <;> rfl

/-- The finalizers of an adoption leave the references alone. -/
theorem mergeMap_finalizers (finalizers : List JsString) (metadata : Fields N) :
    ∃ metadata', Apimachinery.mergeMap [js "metadata"] metadata (optionalField (js "finalizers")
        (if finalizers.length > 0 then some (stringList finalizers) else none)) = .ok metadata'
      ∧ metadata'.get (js "ownerReferences") = metadata.get (js "ownerReferences") := by
  by_cases hsome : finalizers.length > 0
  · refine ⟨metadata.set (js "finalizers") (stringList finalizers), ?_, ?_⟩
    · rw [if_pos hsome, optionalField, Option.map_some, Option.toList_some, Apimachinery.mergeMap_cons,
        Apimachinery.mergeEntry_of_key (by decide), stringList, mergeValue_array (by decide)]
      simp [Apimachinery.mergeMap, Except.bind]
    · rw [Fields.get_set, if_neg (by decide)]
  · refine ⟨metadata, ?_, rfl⟩
    rw [if_neg hsome]
    simp [optionalField, Apimachinery.mergeMap]

/-- What an adoption makes of the references. -/
theorem strategicMergePatch_adoption (h : IsResource original metadata references) {uid : Option JsString}
    (huid : ∀ u ∈ uid, metadata.get (js "uid") = some (.string u)) (finalizers : List JsString) :
    ∃ result, Apimachinery.strategicMergePatch original (ownerRefControllerPatch controller uid finalizers)
        = .ok result
      ∧ referencesOf result = (adoptedReferences controller (references.getD [])).map .object := by
  obtain ⟨metadata', hmerge, hget, -⟩ := mergeMap_uid [js "metadata"] huid
  have hreferences : metadata'.get (js "ownerReferences") = _ := (hget _).trans h.atReferences
  have hvalue : Apimachinery.mergeValue [js "metadata"] metadata' (js "ownerReferences")
      (.array [.object controller.reference])
      = .ok (metadata'.set (js "ownerReferences")
        (.array ((adoptedReferences controller (references.getD [])).map .object))) := by
    cases references with
    | none => exact mergeValue_references_none hreferences _
    | some references => exact mergeValue_references_some hreferences (mergeSlice_reference controller _ _)
  obtain ⟨metadata'', hfinalizers, hkept⟩ := mergeMap_finalizers finalizers (metadata'.set (js "ownerReferences")
    (.array ((adoptedReferences controller (references.getD [])).map .object)))
  refine ⟨original.set (js "metadata") (.object metadata''),
    strategicMergePatch_metadata h.atMetadata ?_, referencesOf_set ?_⟩
  · rw [Apimachinery.mergeMap_append, hmerge, Except.bind, Apimachinery.mergeMap_cons,
      Apimachinery.mergeEntry_of_key (by decide), hvalue]
    exact hfinalizers
  · rw [hkept, Fields.get_set, if_pos rfl]

/-- **An adoption does what it is for just where at most one reference has
the controller's uid.** -/
theorem adopts_iff_le (h : IsResource original metadata references) {uid : Option JsString}
    (huid : ∀ u ∈ uid, metadata.get (js "uid") = some (.string u)) (finalizers : List JsString) :
    (∃ result, Apimachinery.strategicMergePatch original (ownerRefControllerPatch controller uid finalizers)
        = .ok result
      ∧ Adopted original result (controller.uid.getD []))
      ↔ ((referencesOf original).filter (refersTo [controller.uid.getD []])).length ≤ 1 := by
  obtain ⟨result, hpatch, hresult⟩ := strategicMergePatch_adoption controller h huid finalizers
  obtain ⟨hothers, hcount⟩ := adoptedReferences_filter controller (references.getD [])
  rw [← h.referencesOf_eq, ← hresult] at hothers hcount
  rw [hpatch]
  constructor
  · rintro ⟨_, heq, hadopted⟩
    cases heq
    have hone := hadopted.one
    omega
  · intro hle
    exact ⟨result, rfl, hothers, by omega⟩

end Adoption

/-! ## Both patches -/

/-- A pod with the given references. -/
def podWith (references : Option (List (Fields Nat))) : Fields Nat :=
  [(js "kind", .string (js "Pod")),
    (js "metadata", .object ((js "uid", .string (js "pod-uid")) :: optionalField (js "ownerReferences")
      (references.map fun references => .array (references.map .object))))]

def replicaSetIdentity : ControllerIdentity where
  apiVersion := js "apps/v1"
  kind := js "ReplicaSet"
  name := some (js "web")
  uid := some (js "rs-uid")

end Webernetes.Controller
