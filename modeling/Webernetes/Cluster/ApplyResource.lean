/-
Webernetes.Cluster.ApplyResource — applying a configuration that is
recorded in an annotation.

`createApplyPatch` puts the annotation into the three-way patch, at three
nested fields: it makes objects of `metadata` and of its `annotations`
where the patch has none, also where the patch was to remove them. One
lemma about a field put into a patch serves all three levels.
-/
import Webernetes.Cluster.ApplyMerge

namespace Webernetes.Cluster

open Js Json

variable {N : Type} [DecidableEq N]

/-! ## What is gone -/

/-- Nothing is left but on the way to the spared path. -/
def Gone (spared : Option FieldPath) (field : Option (Json N)) : Prop :=
  ∀ path, ¬ Leads path spared → atPath field path = none

omit [DecidableEq N] in
theorem leads_nil (target : FieldPath) : Leads [] (some target) :=
  ⟨target, rfl, List.nil_prefix⟩

omit [DecidableEq N] in
theorem gone_cons {key : JsString} {target : FieldPath} {field : Option (Json N)} :
    Gone (some (key :: target)) field
      ↔ ∀ k, Gone (under (some (key :: target)) k) (child field k) := by
  constructor
  · intro h k path hleads
    exact h (k :: path) fun hl => hleads (leads_cons.1 hl)
  · intro h path hleads
    cases path with
    | nil => exact absurd (leads_nil _) hleads
    | cons k path => exact h k path fun hl => hleads (leads_cons.2 hl)

theorem applied_gone {spared : Option FieldPath} {existing previous result : Option (Json N)}
    (h : previous ≠ none) : Applied spared existing previous none result ↔ Gone spared result := by
  constructor
  · intro happlied path hleads
    exact happlied.pruned [] ⟨h, rfl⟩ path List.nil_prefix hleads
  · intro hgone
    refine ⟨?_, fun _ _ below _ hleads => hgone below hleads, ?_⟩
    · intro path v hv
      simp [atPath_none] at hv
    · intro path huntouched
      exact absurd ⟨h, rfl⟩ (huntouched.2 [] List.nil_prefix).1

theorem restored_gone {target : FieldPath} {existing previous : Option (Json N)}
    (h : previous ≠ none) :
    Restored (some target) existing previous none ↔ Gone (some target) existing := by
  constructor
  · intro hrestored path hleads
    exact hrestored.bare [] (leads_nil target) ⟨h, rfl⟩ path List.nil_prefix hleads
  · intro hgone
    refine ⟨?_, ?_, fun _ _ _ below _ hleads => hgone below hleads⟩
    · intro path v w hv
      simp [atPath_none] at hv
    · intro path key hobj
      simp [isObj, atPath_none] at hobj

theorem restored_untouched (spared : Option FieldPath) (existing : Option (Json N)) :
    Restored spared existing none none where
  undrifted path v w hv := by simp [atPath_none] at hv
  removable path key hobj := by simp [isObj, atPath_none] at hobj
  bare path _ hremoved := absurd (atPath_none path) hremoved.1

/-- Where neither configuration says anything, the fields are right one by one. -/
theorem applied_untouched_cons {key : JsString} {target : FieldPath}
    {existing result : Option (Json N)}
    (h : ∀ k, Applied (under (some (key :: target)) k) (child existing k) none none
      (child result k)) :
    Applied (some (key :: target)) existing none none result where
  agrees path v hv := by simp [atPath_none] at hv
  pruned path hremoved := absurd (atPath_none path) hremoved.1
  kept path huntouched hleads := by
    cases path with
    | nil => exact absurd (leads_nil _) hleads
    | cons k path =>
        refine (h k).kept path ⟨atPath_none path, fun above _ => ?_⟩ fun hl =>
          hleads (leads_cons.2 hl)
        exact ⟨fun hremoved => hremoved.1 (atPath_none above), by simp [atPath_none]⟩

/-! ## A field put into the patch -/

/-- The fields of a value, none of what is no object. -/
def fieldsOf : Option (Json N) → Fields N
  | some (.object fields) => fields
  | _ => []

/-- The patch for a field with one more field in it. -/
def put (value : Option (Json N)) (key : JsString) (w : Json N) : Json N :=
  .object ((fieldsOf value).set key w)

omit [DecidableEq N] in
theorem get_fieldsOf (value : Option (Json N)) (key : JsString) :
    (fieldsOf value).get key = child value key := by
  rcases value with _ | v
  · rfl
  · cases v <;> rfl

omit [DecidableEq N] in
theorem under_self (key : JsString) (target : FieldPath) :
    under (some (key :: target)) key = some target := by
  simp [under]

omit [DecidableEq N] in
theorem under_other {key k : JsString} (target : FieldPath) (h : k ≠ key) :
    under (some (key :: target)) k = none := by
  simp [under, Ne.symm h]

omit [DecidableEq N] in
theorem child_put_self (existing value : Option (Json N)) {key : JsString} {w : Json N}
    (hw : w ≠ .null) :
    child (patched existing (some (put value key w))) key
      = patched (child existing key) (some w) := by
  have hget : Fields.get ((fieldsOf value).set key w) key = some w := by
    rw [Fields.get_set, if_pos rfl]
  rw [put, child_patched (.inr (by rw [hget]; simpa using hw)), hget]

omit [DecidableEq N] in
theorem child_put_other {existing value : Option (Json N)} {key k : JsString} {w : Json N}
    (hk : k ≠ key) (h : isObj existing ∨ child value k ≠ some .null) :
    child (patched existing (some (put value key w))) k
      = patched (child existing k) (child value k) := by
  have hget : Fields.get ((fieldsOf value).set key w) k = child value k := by
    rw [Fields.get_set, if_neg hk, get_fieldsOf]
  rw [put, child_patched (by rwa [hget]), hget]

omit [DecidableEq N] in
/-- Putting a field into an empty patch leaves the other fields. -/
theorem gone_put {existing value : Option (Json N)} {key : JsString} {target : FieldPath}
    {w : Json N} (hempty : ∀ k, child value k = none) (hw : w ≠ .null)
    (hkey : Gone (some target) (patched (child existing key) (some w))
      ↔ Gone (some target) (child existing key)) :
    Gone (some (key :: target)) (patched existing (some (put value key w)))
      ↔ Gone (some (key :: target)) existing := by
  rw [gone_cons, gone_cons]
  refine forall_congr' fun k => ?_
  by_cases hk : k = key
  · subst hk
    rw [under_self, child_put_self existing value hw, hkey]
  · rw [child_put_other hk (.inr (by simp [hempty])), hempty]
    rfl

theorem applied_iff_achieves {existing previous desired value : Option (Json N)}
    (h : patchEntry existing previous desired = .ok value) :
    Applied none existing previous desired (patched existing value)
      ↔ Achieves existing previous desired := by
  constructor
  · exact fun happlied => ⟨value, h, happlied⟩
  · rintro ⟨value', hvalue', happlied⟩
    rw [h] at hvalue'
    obtain rfl := Except.ok.inj hvalue'
    exact happlied

theorem achieves_iff (existing previous desired : Option (Json N))
    (hnull : ∀ path, atPath desired path ≠ some .null) :
    Achieves existing previous desired ↔ Restored none existing previous desired := by
  cases desired with
  | none => exact iff_of_true (achieves_absent _ _) (restored_absent _ _)
  | some v => exact achieves_iff_restored v existing previous hnull

/-- One level of the annotation: the patch for a field, with the next level
put into it. What happens at the next level is given. -/
theorem applied_put {key : JsString} {target : FieldPath} {w : Json N}
    {existing previous desired value : Option (Json N)}
    (hvalue : patchEntry existing previous desired = .ok value)
    (hdesired : desired = none ∨ isObj desired) (hexisting : previous ≠ none → isObj existing)
    (hnull : ∀ path, atPath desired path ≠ some .null) (hw : w ≠ .null)
    (hnext : patchEntry (child existing key) (child previous key) (child desired key)
        = .ok (child value key) →
      (Applied (some target) (child existing key) (child previous key) (child desired key)
          (patched (child existing key) (some w))
        ↔ Restored (some target) (child existing key) (child previous key) (child desired key)))
    (hgone : (∀ k, child value k = none) →
      (Gone (some target) (patched (child existing key) (some w))
        ↔ Gone (some target) (child existing key))) :
    Applied (some (key :: target)) existing previous desired (patched existing (some (put value key w)))
      ↔ Restored (some (key :: target)) existing previous desired := by
  rcases hdesired with rfl | hobj
  · cases previous with
    | none =>
        obtain rfl := Except.ok.inj hvalue
        refine iff_of_true (applied_untouched_cons fun k => ?_) (restored_untouched _ _)
        by_cases hk : k = key
        · subst hk
          rw [under_self, child_put_self existing none hw]
          exact (hnext rfl).2 (restored_untouched _ _)
        · rw [child_put_other hk (.inr (by simp))]
          exact applied_untouched _ _
    | some p =>
        obtain rfl := Except.ok.inj hvalue
        rw [applied_gone (by simp), restored_gone (by simp)]
        have hempty : ∀ k, child (some (.null : Json N)) k = none := fun _ => rfl
        exact gone_put hempty hw (hgone hempty)
  · obtain ⟨fields, rfl⟩ : ∃ fields, desired = some (.object fields) := by
      rcases desired with _ | v
      · simp [isObj] at hobj
      · cases v <;> simp_all [isObj, Json.isObject]
    obtain ⟨patch, hpatch⟩ := exists_objectPatch hvalue
    have hfields : ∀ k, child value k = Fields.get patch k := by
      intro k
      by_cases hnone : value = none
      · rw [hnone, (hpatch.nothing hnone).1]
        rfl
      · rw [hpatch.something hnone]
        rfl
    have hkeys : ∀ k, Applied (under (some (key :: target)) k) (child existing k)
          (child previous k) (Fields.get fields k) (child (patched existing (some (put value key w))) k)
        ↔ Restored (under (some (key :: target)) k) (child existing k) (child previous k)
          (Fields.get fields k) := by
      intro k
      by_cases hk : k = key
      · subst hk
        rw [under_self, child_put_self existing value hw]
        refine hnext ?_
        rw [hfields]
        exact hpatch.entry k
      · have hother : isObj existing ∨ child value k ≠ some .null := by
          by_cases hentry : child value k = some .null
          · rw [hfields] at hentry
            have hremoved := removed_of_entry_null (hentry ▸ hpatch.entry k) (hnull [k])
            refine .inl (hexisting ?_)
            rintro rfl
            exact hremoved.2 rfl
          · exact .inr hentry
        rw [under_other target hk, child_put_other hk hother, hfields,
          applied_iff_achieves (hpatch.entry k)]
        exact achieves_iff _ _ _ fun path => hnull (k :: path)
    rw [applied_object, restored_object]
    constructor
    · rintro ⟨-, happlied⟩
      refine ⟨?_, ?_, fun k => (hkeys k).1 (happlied k)⟩
      · rintro p rfl - -
        exact hexisting (by simp)
      · intro k hprevious hnone
        refine ⟨hexisting ?_, hpatch.removable k hprevious hnone⟩
        rintro rfl
        exact hprevious rfl
    · rintro ⟨-, -, hrestored⟩
      exact ⟨fun _ => isObj_patched _ _, fun k => (hkeys k).2 (hrestored k)⟩

/-! ## The annotation of a resource -/

def lastAppliedPath : FieldPath := [js "metadata", js "annotations", lastAppliedAnnotation]

/-- A Kubernetes object: `metadata` and `annotations`, where they are there,
are objects, and the annotation is a string. -/
structure IsResource (resource : Fields N) : Prop where
  metadata : ∀ v, atPath (some (.object resource)) [js "metadata"] = some v → v.isObject = true
  annotations : ∀ v, atPath (some (.object resource)) [js "metadata", js "annotations"] = some v →
    v.isObject = true
  annotation : ∀ v, atPath (some (.object resource)) lastAppliedPath = some v →
    ∃ s, v = .string s

omit [DecidableEq N] in
theorem none_or_isObj {field : Option (Json N)} (h : ∀ v, field = some v → v.isObject = true) :
    field = none ∨ isObj field := by
  cases field with
  | none => exact .inl rfl
  | some v => exact .inr (h v rfl)

omit [DecidableEq N] in
theorem atPath_string {field : Option (Json N)} (h : ∀ v, field = some v → ∃ s, v = .string s)
    (key : JsString) (path : FieldPath) : atPath field (key :: path) = none := by
  cases field with
  | none => exact atPath_none _
  | some v =>
      obtain ⟨s, rfl⟩ := h v rfl
      exact atPath_none path

/-- At the annotation itself nothing is asked. -/
theorem applied_annotation {existing previous desired : Option (Json N)} (text : JsString)
    (hexisting : ∀ v, existing = some v → ∃ s, v = .string s)
    (hdesired : ∀ v, desired = some v → ∃ s, v = .string s) :
    Applied (some []) existing previous desired (patched existing (some (.string text)))
      ↔ Restored (some []) existing previous desired := by
  have hresult : ∀ key path,
      atPath (patched existing (some (.string text))) (key :: path) = none := fun key path =>
    atPath_string (fun v hv => ⟨text, (Option.some.inj hv).symm⟩) key path
  refine iff_of_true ⟨?_, ?_, ?_⟩ ⟨?_, ?_, ?_⟩
  · intro path v hv hspared
    cases path with
    | nil => contradiction
    | cons key path => simp [atPath_string hdesired] at hv
  · intro path _ below _ hleads
    cases below with
    | nil => exact absurd (leads_nil []) hleads
    | cons key below => exact hresult key below
  · intro path _ hleads
    cases path with
    | nil => exact absurd (leads_nil []) hleads
    | cons key path => rw [hresult, atPath_string hexisting]; rfl
  · intro path v w hv _ _ hspared
    cases path with
    | nil => contradiction
    | cons key path => simp [atPath_string hdesired] at hv
  · intro path key hobj _
    cases path with
    | nil =>
        cases desired with
        | none => simp [isObj] at hobj
        | some v =>
            obtain ⟨s, rfl⟩ := hdesired v rfl
            simp [isObj, Json.isObject] at hobj
    | cons k path => simp [isObj, atPath_string hdesired] at hobj
  · intro path _ _ below _ hleads
    cases below with
    | nil => exact absurd (leads_nil []) hleads
    | cons key below => exact atPath_string hexisting key below

omit [DecidableEq N] in
theorem gone_annotation {existing : Option (Json N)} (text : JsString)
    (hexisting : ∀ v, existing = some v → ∃ s, v = .string s) :
    Gone (some []) (patched existing (some (.string text))) ↔ Gone (some []) existing := by
  refine iff_of_true ?_ ?_ <;> intro path hleads <;> cases path with
  | nil => exact absurd (leads_nil []) hleads
  | cons key path =>
      first
      | exact atPath_string hexisting key path
      | exact atPath_string (fun v hv => ⟨text, (Option.some.inj hv).symm⟩) key path

/-- The configuration recorded in the annotation, an empty one without it. -/
def recorded (codec : JsonCodec N) (existing : Fields N) : Fields N :=
  (previousLastApplied codec existing).getD []

omit [DecidableEq N] in
theorem isObj_of_child {field : Option (Json N)} (key : JsString) (h : child field key ≠ none) :
    isObj field := by
  cases field with
  | none => exact absurd rfl h
  | some v => cases v <;> first | rfl | exact absurd rfl h

omit [DecidableEq N] in
/-- Where something is recorded, the objects around the annotation are there. -/
theorem isObj_of_recorded {codec : JsonCodec N} {existing : Fields N}
    (h : recorded codec existing ≠ []) :
    isObj (atPath (some (.object existing)) [js "metadata"])
      ∧ isObj (atPath (some (.object existing)) [js "metadata", js "annotations"]) := by
  unfold recorded previousLastApplied at h
  split at h
  · rename_i encoded hencoded
    have hannotations : isObj (atPath (some (.object existing))
        [js "metadata", js "annotations"]) :=
      isObj_of_child lastAppliedAnnotation (by
        show atPath (some (.object existing)) lastAppliedPath ≠ none
        rw [show atPath _ lastAppliedPath = _ from hencoded]
        simp)
    refine ⟨isObj_of_child (js "annotations") ?_, hannotations⟩
    intro hnone
    have hnone' : atPath (some (.object existing)) [js "metadata", js "annotations"] = none := hnone
    simp [isObj, hnone'] at hannotations
  · simp at h

/-- With nothing to remove that every object inherits, there is a patch. -/
theorem exists_entry_of_removable (desired : Json N) (existing previous : Option (Json N))
    (h : ∀ path key, isObj (atPath (some desired) path) →
      Removed previous (some desired) (path ++ [key]) → key ∉ inheritedNames) :
    ∃ value, patchEntry existing previous (some desired) = .ok value := by
  match desired with
  | .object fields =>
      refine exists_patchEntry (fun key hprevious hnone => h [] key rfl ⟨hprevious, hnone⟩)
        fun key hkey => ?_
      match hfield : Fields.get fields key with
      | none => exact absurd hfield hkey
      | some v =>
          have hlt := Fields.sizeOf_get hfield
          refine exists_entry_of_removable v _ _ fun path k hobj hremoved => ?_
          refine h (key :: path) k ?_ ?_
          · rwa [atPath_cons, child_object, hfield]
          · rw [List.cons_append, removed_cons, hfield]
            exact hremoved
  | .null | .bool _ | .number _ | .string _ | .array _ => exact ⟨_, patchEntry_replaced (.inl rfl)⟩
termination_by sizeOf desired
decreasing_by
  simp only [Json.object.sizeOf_spec]
  omega

theorem exists_entry_of_patch {existing : Option (Json N)} {previous desired patch : Fields N}
    (h : createThreeWayMergePatch existing previous desired = .ok patch) :
    ∃ value, patchEntry existing (some (.object previous)) (some (.object desired)) = .ok value
      ∧ fieldsOf value = patch := by
  rw [patchEntry_objects, h]
  refine ⟨_, rfl, ?_⟩
  cases patch <;> rfl

/-- The three-way patch `value`, with the annotation put into it. -/
def annotated (codec : JsonCodec N) (desired : Fields N) (value : Option (Json N)) : Json N :=
  put value (js "metadata")
    (put (child value (js "metadata")) (js "annotations")
      (put (child (child value (js "metadata")) (js "annotations")) lastAppliedAnnotation
        (.string (lastAppliedValue codec desired))))

omit [DecidableEq N] in
theorem ensurePlainObject_eq (parent : Fields N) (key : JsString) :
    ensurePlainObject parent key = fieldsOf (parent.get key) := by
  unfold ensurePlainObject fieldsOf
  rfl

theorem createApplyPatch_of_entry {codec : JsonCodec N} {existing desired : Fields N}
    {value : Option (Json N)}
    (h : patchEntry (some (.object existing)) (some (.object (recorded codec existing)))
      (some (.object desired)) = .ok value) :
    ∃ patch, createApplyPatch codec existing desired = .ok patch
      ∧ .object patch = annotated codec desired value := by
  rw [patchEntry_objects] at h
  cases hpatch : createThreeWayMergePatch (some (.object existing)) (recorded codec existing)
      desired with
  | error err => simp [hpatch, Except.map] at h
  | ok patch =>
      rw [hpatch] at h
      obtain rfl := Except.ok.inj h
      have hpatch' : createThreeWayMergePatch (some (.object existing))
          ((previousLastApplied codec existing).getD []) desired = .ok patch := hpatch
      refine ⟨_, by rw [createApplyPatch, hpatch']; rfl, ?_⟩
      simp only [annotated, put, ensurePlainObject_eq, get_fieldsOf]
      cases patch <;> rfl

/-- With the annotation put into it, the patch of a resource makes what the
apply is for exactly when the live object is as it has to be. -/
theorem applied_annotated_iff {codec : JsonCodec N} {existing desired : Fields N}
    {value : Option (Json N)} (hexisting : IsResource existing) (hdesired : IsResource desired)
    (hnull : ∀ path, atPath (some (.object desired)) path ≠ some .null)
    (hvalue : patchEntry (some (.object existing)) (some (.object (recorded codec existing)))
      (some (.object desired)) = .ok value) :
    Applied (some lastAppliedPath) (some (.object existing))
        (some (.object (recorded codec existing))) (some (.object desired))
        (patched (some (.object existing)) (some (annotated codec desired value)))
      ↔ Restored (some lastAppliedPath) (some (.object existing))
        (some (.object (recorded codec existing))) (some (.object desired)) := by
  have hrecorded : ∀ path, path ≠ [] →
      atPath (some (.object (recorded codec existing))) path ≠ none →
        recorded codec existing ≠ [] := by
    rintro (_ | ⟨key, path⟩) hne hpath hnil
    · contradiction
    · rw [hnil, atPath_cons, child_object, Fields.get_nil, atPath_none] at hpath
      contradiction
  refine applied_put hvalue (.inr rfl) (fun _ => rfl) hnull (by simp [put])
    (fun hmetadata => ?_) (fun hempty => ?_)
  · refine applied_put hmetadata (none_or_isObj hdesired.metadata)
      (fun hne => (isObj_of_recorded (hrecorded [js "metadata"] (by simp) hne)).1)
      (fun path => hnull (js "metadata" :: path)) (by simp [put])
      (fun hannotations => ?_) (fun hempty => ?_)
    · refine applied_put hannotations (none_or_isObj hdesired.annotations)
        (fun hne => (isObj_of_recorded
          (hrecorded [js "metadata", js "annotations"] (by simp) hne)).2)
        (fun path => hnull (js "metadata" :: js "annotations" :: path)) (by simp)
        (fun _ => ?_) (fun _ => ?_)
      · exact applied_annotation _ hexisting.annotation hdesired.annotation
      · exact gone_annotation _ hexisting.annotation
    · refine gone_put (fun k => by rw [hempty]; rfl) (by simp) ?_
      exact gone_annotation _ hexisting.annotation
  · refine gone_put (fun k => by rw [hempty]; rfl) (by simp [put]) ?_
    refine gone_put (fun k => by rw [hempty]; rfl) (by simp) ?_
    exact gone_annotation _ hexisting.annotation

/-- The whole patch makes what the apply is for exactly when the live object
is as it has to be. -/
theorem createApplyPatch_applied_iff (codec : JsonCodec N) {existing desired : Fields N}
    (hexisting : IsResource existing) (hdesired : IsResource desired)
    (hnull : ∀ path, atPath (some (.object desired)) path ≠ some .null) :
    (∃ patch, createApplyPatch codec existing desired = .ok patch
        ∧ Applied (some lastAppliedPath) (some (.object existing))
          (some (.object (recorded codec existing))) (some (.object desired))
          (some (.object (applyPatchObject existing patch))))
      ↔ Restored (some lastAppliedPath) (some (.object existing))
          (some (.object (recorded codec existing))) (some (.object desired)) := by
  constructor
  · rintro ⟨patch, hpatch, happlied⟩
    cases hthree : createThreeWayMergePatch (some (.object existing)) (recorded codec existing)
        desired with
    | error err =>
        have hthree' : createThreeWayMergePatch (some (.object existing))
          ((previousLastApplied codec existing).getD []) desired = .error err := hthree
        simp [createApplyPatch, hthree', Except.map] at hpatch
    | ok three =>
        obtain ⟨value, hvalue, -⟩ := exists_entry_of_patch hthree
        obtain ⟨patch', hpatch', hobject⟩ := createApplyPatch_of_entry hvalue
        rw [hpatch] at hpatch'
        obtain rfl := Except.ok.inj hpatch'
        refine (applied_annotated_iff hexisting hdesired hnull hvalue).1 ?_
        rw [← hobject]
        exact happlied
  · intro hrestored
    obtain ⟨value, hvalue⟩ := exists_entry_of_removable (.object desired)
      (some (.object existing)) (some (.object (recorded codec existing)))
      fun path key hobj hremoved => (hrestored.removable path key hobj hremoved).2
    obtain ⟨patch, hpatch, hobject⟩ := createApplyPatch_of_entry hvalue
    refine ⟨patch, hpatch, ?_⟩
    have happlied := (applied_annotated_iff hexisting hdesired hnull hvalue).2 hrestored
    rwa [← hobject] at happlied

/-- For objects without a key `__proto__`: applying a configuration without
nulls gives the object it is to give exactly when the live object still has
what the last configuration shares with the new one, and can lose the rest. -/
theorem apply_merges_iff (codec : JsonCodec N) (existing desired : Fields N)
    (hexisting : IsResource existing) (hdesired : IsResource desired)
    (hnull : ∀ path, atPath (some (.object desired)) path ≠ some .null)
    (_hproto : ∀ fields ∈ [existing, recorded codec existing, desired],
      mentions (js "__proto__") (.object fields) = false) :
    (∃ patch result, createApplyPatch codec existing desired = .ok patch
        ∧ mergePatch existing (.object patch) = .ok result
        ∧ Applied (some lastAppliedPath) (some (.object existing))
          (some (.object (recorded codec existing))) (some (.object desired))
          (some (.object result)))
      ↔ Restored (some lastAppliedPath) (some (.object existing))
          (some (.object (recorded codec existing))) (some (.object desired)) := by
  rw [← createApplyPatch_applied_iff codec hexisting hdesired hnull]
  constructor
  · rintro ⟨patch, result, hpatch, hmerge, happlied⟩
    obtain rfl := Except.ok.inj hmerge
    exact ⟨patch, hpatch, happlied⟩
  · rintro ⟨patch, hpatch, happlied⟩
    exact ⟨patch, _, hpatch, rfl, happlied⟩

/-- `spec` with a number of replicas. -/
def replicasSpec (n : Int) : Fields Int := [(js "spec", .object [(js "replicas", .number n)])]

theorem isResource_replicasSpec (n : Int) : IsResource (replicasSpec n) where
  metadata v hv := by contradiction
  annotations v hv := by contradiction
  annotation v hv := by contradiction

theorem replicasSpec_no_null (n : Int) (path : FieldPath) :
    atPath (some (.object (replicasSpec n))) path ≠ some .null := by
  rcases path with _ | ⟨key, path⟩
  · simp
  · rw [atPath_cons, child_object, replicasSpec, Fields.get_cons]
    split
    · rcases path with _ | ⟨key', path⟩
      · simp
      · rw [atPath_cons, child_object, Fields.get_cons]
        split
        · rcases path with _ | ⟨key'', path⟩
          · simp
          · rw [atPath_cons, child_of_not_object rfl, atPath_none]
            simp
        · simp [atPath_none]
    · simp [atPath_none]

/-- The text of a configuration of three replicas, and back. -/
def threeReplicas : JsonCodec Int where
  parse text :=
    if text = js "\x7b\"spec\":\x7b\"replicas\":3\x7d\x7d" then
      some (.object (replicasSpec 3))
    else none
  stringify _ := js "\x7b\"spec\":\x7b\"replicas\":3\x7d\x7d"

/-- A live object with the replicas given, last applied with three. -/
def scaled (n : Int) : Fields Int :=
  (js "metadata", .object [(js "annotations", .object [( lastAppliedAnnotation,
    .string (js "\x7b\"spec\":\x7b\"replicas\":3\x7d\x7d"))])]) :: replicasSpec n

theorem isResource_scaled (n : Int) : IsResource (scaled n) where
  metadata v hv := by
    obtain rfl := Option.some.inj hv
    rfl
  annotations v hv := by
    obtain rfl := Option.some.inj hv
    rfl
  annotation v hv := ⟨_, (Option.some.inj hv).symm⟩

theorem recorded_scaled (n : Int) : recorded threeReplicas (scaled n) = replicasSpec 3 := by
  rfl

theorem scaled_no_proto (n : Int) : ∀ fields ∈ [scaled n, recorded threeReplicas (scaled n),
    replicasSpec 3], mentions (js "__proto__") (.object fields) = false := by
  have hkeys : ∀ key ∈ [js "metadata", js "annotations", lastAppliedAnnotation, js "spec",
      js "replicas"], key ≠ js "__proto__" := by decide
  simp only [List.forall_mem_cons] at hkeys
  have hspec : ∀ n, mentions (js "__proto__") (.object (replicasSpec n)) = false := fun n => by
    simp [mentions_object, replicasSpec, mentions, hkeys]
  have hscaled : mentions (js "__proto__") (.object (scaled n)) = false := by
    have hrest := hspec n
    rw [mentions_object] at hrest ⊢
    rw [scaled, List.any_cons, hrest]
    simp [mentions_object, mentions, hkeys]
  rw [recorded_scaled]
  simp [hspec, hscaled]

theorem restored_unchanged :
    Restored (some lastAppliedPath) (some (.object (scaled 3)))
      (some (.object (recorded threeReplicas (scaled 3)))) (some (.object (replicasSpec 3))) where
  undrifted path v w hv _ _ _ := by
    rcases path with _ | ⟨key, path⟩
    · obtain rfl := Option.some.inj hv
      exact like_object.2 rfl
    · have hchild : child (some (.object (scaled 3))) key
          = child (some (.object (replicasSpec 3))) key := by
        rw [child_object, scaled, Fields.get_cons, if_neg]
        · rfl
        · rintro rfl
          simp [replicasSpec, Fields.get_cons, atPath_none,
            show js "metadata" ≠ js "spec" by decide] at hv
      rw [atPath_cons] at hv ⊢
      rw [hchild, hv]
      exact like_refl v
  removable path key _ hremoved := absurd hremoved.2 (by
    rw [recorded_scaled] at hremoved
    exact hremoved.1)
  bare path _ hremoved := absurd hremoved.2 (by
    rw [recorded_scaled] at hremoved
    exact hremoved.1)

/-- An unchanged configuration, applied to an object that has not changed. -/
theorem apply_merges_iff_unchanged :
    ∃ patch result, createApplyPatch threeReplicas (scaled 3) (replicasSpec 3) = .ok patch
      ∧ mergePatch (scaled 3) (.object patch) = .ok result
      ∧ Applied (some lastAppliedPath) (some (.object (scaled 3)))
        (some (.object (recorded threeReplicas (scaled 3)))) (some (.object (replicasSpec 3)))
        (some (.object result)) :=
  (apply_merges_iff threeReplicas (scaled 3) (replicasSpec 3) (isResource_scaled 3)
    (isResource_replicasSpec 3) (replicasSpec_no_null 3) (scaled_no_proto 3)).2 restored_unchanged

/-- Scaled to five by someone else, the object is not brought back to the
three replicas that are applied again. -/
theorem drifted_replicas_stay :
    recorded threeReplicas (scaled 5) = replicasSpec 3
      ∧ ¬ ∃ patch result, createApplyPatch threeReplicas (scaled 5) (replicasSpec 3) = .ok patch
        ∧ mergePatch (scaled 5) (.object patch) = .ok result
        ∧ Applied (some lastAppliedPath) (some (.object (scaled 5)))
          (some (.object (recorded threeReplicas (scaled 5)))) (some (.object (replicasSpec 3)))
          (some (.object result)) := by
  refine ⟨recorded_scaled 5, ?_⟩
  rintro ⟨patch, result, hpatch, hmerge, happlied⟩
  obtain rfl := Except.ok.inj hmerge
  have hrestored := (createApplyPatch_applied_iff threeReplicas (isResource_scaled 5)
    (isResource_replicasSpec 3) (replicasSpec_no_null 3)).1 ⟨patch, hpatch, happlied⟩
  have hlike : Like (some (.number 5)) (.number (3 : Int)) :=
    hrestored.undrifted [js "spec", js "replicas"] (.number 3) (.number 3) rfl rfl
      (deepEqual_refl _) (by decide)
  simp [Like, Json.isObject, deepEqual] at hlike

end Webernetes.Cluster
