/-
Webernetes.Cluster.ApplyMerge — what applying a configuration does to the
live object.

`Applied` says what an apply is for, path by path: the new configuration
holds, what the last one had and the new one lacks is gone, and the rest is
as it was. `Restored` says when the patch achieves it. Both can spare one
path, the annotation the apply itself writes, and both go down one key at a
time, which carries the proof.
-/
import Webernetes.Cluster.Apply

namespace Webernetes.Cluster

open Js Json

variable {N : Type} [DecidableEq N]

/-- Keys from the root of a resource on. -/
abbrev FieldPath := List JsString

/-! ## The purpose of an apply -/

def isObj (v : Option (Json N)) : Prop := v.any Json.isObject = true

/-- The field is there with the value; of an object only that it is one. -/
def Like (field : Option (Json N)) (v : Json N) : Prop :=
  match field with
  | none => False
  | some w => if v.isObject then w.isObject = true else deepEqual w v = true

/-- Both fields are absent, or the first is like the second. -/
def Alike (left right : Option (Json N)) : Prop :=
  match right with
  | none => left = none
  | some v => Like left v

/-- The path is the spared one or leads to it. -/
def Leads (path : FieldPath) (spared : Option FieldPath) : Prop :=
  ∃ target, spared = some target ∧ path <+: target

/-- The last configuration has the path and the new one does not. -/
def Removed (previous desired : Option (Json N)) (path : FieldPath) : Prop :=
  atPath previous path ≠ none ∧ atPath desired path = none

/-- Neither configuration says anything at the path or above it, but that
there are objects above. -/
def Untouched (previous desired : Option (Json N)) (path : FieldPath) : Prop :=
  atPath desired path = none
    ∧ ∀ above, above <+: path → ¬ Removed previous desired above
      ∧ ∀ v, atPath desired above = some v → v.isObject = true

/-- The result has what the new configuration has, lacks what only the last
one had, and elsewhere is the live object. -/
structure Applied (spared : Option FieldPath) (existing previous desired result : Option (Json N)) :
    Prop where
  agrees : ∀ path v, atPath desired path = some v → spared ≠ some path →
    Like (atPath result path) v
  pruned : ∀ path, Removed previous desired path → ∀ below, path <+: below →
    ¬ Leads below spared → atPath result below = none
  kept : ∀ path, Untouched previous desired path → ¬ Leads path spared →
    Alike (atPath result path) (atPath existing path)

/-- The live object still has what both configurations have; it has an
object, with no key that every object inherits, where a field is to be
removed; and where the object around the spared path is to be removed, it
has nothing else in it. -/
structure Restored (spared : Option FieldPath) (existing previous desired : Option (Json N)) :
    Prop where
  undrifted : ∀ path v w, atPath desired path = some v → atPath previous path = some w →
    deepEqual v w = true → spared ≠ some path → Like (atPath existing path) v
  removable : ∀ path key, isObj (atPath desired path) →
    Removed previous desired (path ++ [key]) →
    isObj (atPath existing path) ∧ key ∉ inheritedNames
  bare : ∀ path, Leads path spared → Removed previous desired path → ∀ below, path <+: below →
    ¬ Leads below spared → atPath existing below = none

/-! ## One key down -/

/-- The spared path as seen from under a key. -/
def under (spared : Option FieldPath) (key : JsString) : Option FieldPath :=
  match spared with
  | some (k :: path) => if k = key then some path else none
  | _ => none

@[simp] theorem under_none (key : JsString) : under none key = none := rfl

theorem spared_cons {spared : Option FieldPath} {key : JsString} {path : FieldPath} :
    spared = some (key :: path) ↔ under spared key = some path := by
  unfold under
  split
  · grind
  · simp_all

theorem leads_cons {spared : Option FieldPath} {key : JsString} {path : FieldPath} :
    Leads (key :: path) spared ↔ Leads path (under spared key) := by
  constructor
  · rintro ⟨target, rfl, hinitial⟩
    obtain ⟨rest, rfl⟩ := hinitial
    exact ⟨path ++ rest, by simp [under], List.prefix_append _ _⟩
  · rintro ⟨target, htarget, hinitial⟩
    exact ⟨key :: target, spared_cons.2 htarget, List.cons_prefix_cons.2 ⟨rfl, hinitial⟩⟩

@[simp] theorem not_leads_none (path : FieldPath) : ¬ Leads path none := by
  rintro ⟨_, h, _⟩
  contradiction

omit [DecidableEq N] in
theorem removed_cons {previous : Option (Json N)} {desired : Fields N} {key : JsString}
    {path : FieldPath} :
    Removed previous (some (.object desired)) (key :: path)
      ↔ Removed (child previous key) (desired.get key) path :=
  Iff.rfl

omit [DecidableEq N] in
theorem untouched_cons {previous : Option (Json N)} {desired : Fields N} {key : JsString}
    {path : FieldPath} :
    Untouched previous (some (.object desired)) (key :: path)
      ↔ Untouched (child previous key) (desired.get key) path := by
  constructor
  · rintro ⟨hnone, habove⟩
    exact ⟨hnone, fun above hinitial =>
      habove (key :: above) (List.cons_prefix_cons.2 ⟨rfl, hinitial⟩)⟩
  · rintro ⟨hnone, habove⟩
    refine ⟨hnone, fun above hinitial => ?_⟩
    cases above with
    | nil => exact ⟨fun hremoved => by simp [Removed] at hremoved, by rintro v ⟨⟩; rfl⟩
    | cons k above =>
        obtain ⟨rfl, hrest⟩ := List.cons_prefix_cons.1 hinitial
        exact habove above hrest

theorem like_object {field : Option (Json N)} {fields : Fields N} :
    Like field (.object fields) ↔ isObj field := by
  cases field <;> simp [Like, isObj, Json.isObject]

theorem applied_object {spared : Option FieldPath} {existing previous result : Option (Json N)}
    {desired : Fields N} :
    Applied spared existing previous (some (.object desired)) result
      ↔ (spared ≠ some [] → isObj result)
        ∧ ∀ key, Applied (under spared key) (child existing key) (child previous key)
            (desired.get key) (child result key) := by
  constructor
  · intro h
    refine ⟨fun hspared => like_object.1 (h.agrees [] _ rfl hspared), fun key => ⟨?_, ?_, ?_⟩⟩
    · intro path v hv hspared
      exact h.agrees (key :: path) v hv fun heq => hspared (spared_cons.1 heq)
    · intro path hremoved below hinitial hleads
      exact h.pruned (key :: path) hremoved (key :: below)
        (List.cons_prefix_cons.2 ⟨rfl, hinitial⟩) fun hl => hleads (leads_cons.1 hl)
    · intro path huntouched hleads
      exact h.kept (key :: path) (untouched_cons.2 huntouched) fun hl => hleads (leads_cons.1 hl)
  · rintro ⟨hroot, hkeys⟩
    refine ⟨?_, ?_, ?_⟩
    · intro path v hv hspared
      cases path with
      | nil =>
          obtain rfl := Option.some.inj hv
          exact like_object.2 (hroot hspared)
      | cons key path =>
          exact (hkeys key).agrees path v hv fun heq => hspared (spared_cons.2 heq)
    · intro path hremoved below hinitial hleads
      cases path with
      | nil => simp [Removed] at hremoved
      | cons key path =>
          obtain ⟨rest, rfl⟩ := hinitial
          exact (hkeys key).pruned path hremoved (path ++ rest) (List.prefix_append _ _)
            fun hl => hleads (leads_cons.2 hl)
    · intro path huntouched hleads
      cases path with
      | nil => simp [Untouched] at huntouched
      | cons key path =>
          exact (hkeys key).kept path (untouched_cons.1 huntouched)
            fun hl => hleads (leads_cons.2 hl)

theorem restored_object {spared : Option FieldPath} {existing previous : Option (Json N)}
    {desired : Fields N} :
    Restored spared existing previous (some (.object desired))
      ↔ (∀ w, previous = some w → deepEqual (.object desired) w = true → spared ≠ some [] →
          isObj existing)
        ∧ (∀ key, child previous key ≠ none → desired.get key = none →
          isObj existing ∧ key ∉ inheritedNames)
        ∧ ∀ key, Restored (under spared key) (child existing key) (child previous key)
            (desired.get key) := by
  constructor
  · intro h
    refine ⟨fun w hw heq hspared => like_object.1 (h.undrifted [] _ w rfl hw heq hspared),
      fun key hprevious hdesired => h.removable [] key rfl ⟨hprevious, hdesired⟩,
      fun key => ⟨?_, ?_, ?_⟩⟩
    · intro path v w hv hw heq hspared
      exact h.undrifted (key :: path) v w hv hw heq fun heq => hspared (spared_cons.1 heq)
    · intro path k hobj hremoved
      exact h.removable (key :: path) k hobj hremoved
    · intro path hleads hremoved below hinitial hbelow
      exact h.bare (key :: path) (leads_cons.2 hleads) hremoved (key :: below)
        (List.cons_prefix_cons.2 ⟨rfl, hinitial⟩) fun hl => hbelow (leads_cons.1 hl)
  · rintro ⟨hroot, hremovable, hkeys⟩
    refine ⟨?_, ?_, ?_⟩
    · intro path v w hv hw heq hspared
      cases path with
      | nil =>
          obtain rfl := Option.some.inj hv
          exact like_object.2 (hroot w hw heq hspared)
      | cons key path =>
          exact (hkeys key).undrifted path v w hv hw heq fun heq => hspared (spared_cons.2 heq)
    · intro path key hobj hremoved
      cases path with
      | nil => exact hremovable key hremoved.1 hremoved.2
      | cons k path => exact (hkeys k).removable path key hobj hremoved
    · intro path hleads hremoved below hinitial hbelow
      cases path with
      | nil => simp [Removed] at hremoved
      | cons key path =>
          obtain ⟨rest, rfl⟩ := hinitial
          exact (hkeys key).bare path (leads_cons.1 hleads) hremoved (path ++ rest)
            (List.prefix_append _ _) fun hl => hbelow (leads_cons.2 hl)

/-! ## Leaves -/

theorem like_refl (v : Json N) : Like (some v) v := by
  simp only [Like]
  split
  · assumption
  · exact deepEqual_refl v

theorem alike_refl (field : Option (Json N)) : Alike field field := by
  cases field with
  | none => rfl
  | some v => exact like_refl v

/-- Under what is like a leaf there is nothing. -/
theorem atPath_of_like_leaf {field : Option (Json N)} {v : Json N} (hleaf : v.isObject = false)
    (h : Like field v) (key : JsString) (path : FieldPath) : atPath field (key :: path) = none := by
  cases field with
  | none => exact atPath_none _
  | some w =>
      have hw : w.isObject = false := by
        simp only [Like, hleaf, Bool.false_eq_true, if_false] at h
        rw [isObject_of_deepEqual h, hleaf]
      rw [atPath_cons, child_of_not_object hw, atPath_none]

/-- Where neither configuration says anything, the live field is right. -/
theorem applied_untouched (spared : Option FieldPath) (existing : Option (Json N)) :
    Applied spared existing none none existing where
  agrees path v hv := by simp [atPath_none] at hv
  pruned path hremoved := absurd (atPath_none path) hremoved.1
  kept _ _ _ := alike_refl _

theorem applied_removed {existing previous : Option (Json N)} (h : previous ≠ none) :
    Applied none existing previous none none where
  agrees path v hv := by simp [atPath_none] at hv
  pruned _ _ below _ _ := atPath_none below
  kept path huntouched := absurd ⟨h, rfl⟩ (huntouched.2 [] List.nil_prefix).1

theorem applied_leaf {existing previous result : Option (Json N)} {v : Json N}
    (hleaf : v.isObject = false) :
    Applied none existing previous (some v) result ↔ Like result v := by
  constructor
  · intro h
    exact h.agrees [] v rfl (by simp)
  · intro h
    refine ⟨?_, ?_, ?_⟩
    · intro path w hw _
      cases path with
      | nil =>
          obtain rfl := Option.some.inj hw
          exact h
      | cons key path => simp [child_of_not_object hleaf, atPath_none] at hw
    · rintro path hremoved below hinitial -
      cases path with
      | nil => simp [Removed] at hremoved
      | cons key path =>
          obtain ⟨rest, rfl⟩ := hinitial
          exact atPath_of_like_leaf hleaf h key (path ++ rest)
    · intro path huntouched _
      have hobj := (huntouched.2 [] List.nil_prefix).2 v rfl
      simp [hleaf] at hobj

theorem restored_absent (existing previous : Option (Json N)) :
    Restored none existing previous none where
  undrifted path v w hv := by simp [atPath_none] at hv
  removable path key hobj := by simp [isObj, atPath_none] at hobj
  bare path hleads := absurd hleads (not_leads_none path)

theorem restored_leaf {existing previous : Option (Json N)} {v : Json N}
    (hleaf : v.isObject = false) :
    Restored none existing previous (some v)
      ↔ ∀ w, previous = some w → deepEqual v w = true → Like existing v := by
  have hbelow : ∀ key path, atPath (some v) (key :: path) = none := fun key path => by
    rw [atPath_cons, child_of_not_object hleaf, atPath_none]
  constructor
  · intro h w hw heq
    exact h.undrifted [] v w rfl hw heq (by simp)
  · intro h
    refine ⟨?_, ?_, fun path hleads => absurd hleads (not_leads_none path)⟩
    · intro path v' w hv' hw heq _
      cases path with
      | nil =>
          obtain rfl := Option.some.inj hv'
          exact h w hw heq
      | cons key path => simp [hbelow] at hv'
    · intro path key hobj _
      cases path with
      | nil => simp [isObj, hleaf] at hobj
      | cons k path => simp [isObj, hbelow] at hobj

/-! ## The patch of an object -/

theorem patchEntry_objects {existing : Option (Json N)} {previous desired : Fields N} :
    patchEntry existing (some (.object previous)) (some (.object desired))
      = (createThreeWayMergePatch existing previous desired).map
          fun childPatch => if childPatch.isEmpty then none else some (.object childPatch) :=
  rfl

theorem patchEntry_replaced {existing previous : Option (Json N)} {v : Json N}
    (h : v.isObject = false ∨ ¬ isObj previous) :
    patchEntry existing previous (some v)
      = .ok (if previous.any (deepEqual v) then none else some v) := by
  unfold patchEntry
  split <;> simp_all [isObj, Json.isObject]

omit [DecidableEq N] in
theorem objects_cases (v : Json N) (previous : Option (Json N)) :
    (∃ d p, v = .object d ∧ previous = some (.object p))
      ∨ (v.isObject = false ∨ ¬ isObj previous) := by
  cases v with
  | object d =>
      rcases previous with _ | w
      · simp [isObj]
      · cases w <;> simp [isObj, Json.isObject]
  | _ => simp [Json.isObject]

/-- The three-way patch is empty exactly when the configurations are equal. -/
theorem patch_eq_nil_iff {existing : Option (Json N)} {previous desired patch : Fields N}
    (h : createThreeWayMergePatch existing previous desired = .ok patch) :
    patch = [] ↔ deepEqual (.object desired) (.object previous) = true := by
  have hentry := patchEntry_get h
  have hfield : ∀ key, patch.get key = none
      ↔ sameField (desired.get key) (previous.get key) := by
    intro key
    have hkey := hentry key
    match hdesired : desired.get key with
    | none =>
        rw [hdesired] at hkey
        cases hprevious : previous.get key with
        | none =>
            rw [hprevious] at hkey
            simp [← Except.ok.inj hkey, sameField]
        | some w =>
            rw [hprevious] at hkey
            simp [← Except.ok.inj hkey, sameField]
    | some v =>
        rw [hdesired] at hkey
        rcases objects_cases v (previous.get key) with ⟨d, p, rfl, hp⟩ | hleaf
        · have hlt := Fields.sizeOf_get hdesired
          rw [hp, patchEntry_objects] at hkey
          cases hchild : createThreeWayMergePatch (child existing key) p d with
          | error err => simp [hchild, Except.map] at hkey
          | ok childPatch =>
              have ih := patch_eq_nil_iff hchild
              rw [hchild] at hkey
              rw [hp, ← Except.ok.inj hkey, sameField, ← ih]
              cases childPatch <;> simp
        · rw [patchEntry_replaced hleaf] at hkey
          rw [← Except.ok.inj hkey]
          cases previous.get key <;> simp [sameField]
  rw [deepEqual_object]
  constructor
  · rintro rfl key
    exact (hfield key).1 rfl
  · intro hsame
    exact Fields.eq_nil_of_get fun key => (hfield key).2 (hsame key)
termination_by sizeOf desired
decreasing_by
  simp only [Json.object.sizeOf_spec] at hlt
  omega

/-- The patch for a field that is an object in the new configuration: its
fields `patch`, or nothing, and then the configurations are equal there. -/
structure ObjectPatch (existing previous : Option (Json N)) (desired : Fields N)
    (value : Option (Json N)) (patch : Fields N) : Prop where
  entry : ∀ key, patchEntry (child existing key) (child previous key) (desired.get key)
    = .ok (patch.get key)
  removable : ∀ key, child previous key ≠ none → desired.get key = none → key ∉ inheritedNames
  nothing : value = none → patch = [] ∧ ∃ w, previous = some w
    ∧ deepEqual (.object desired) w = true
  something : value ≠ none → value = some (.object patch)
  changed : ∀ w, previous = some w → deepEqual (.object desired) w = true → value = none

theorem exists_objectPatch {existing previous value : Option (Json N)} {desired : Fields N}
    (h : patchEntry existing previous (some (.object desired)) = .ok value) :
    ∃ patch, ObjectPatch existing previous desired value patch := by
  rcases objects_cases (.object desired) previous with ⟨d, p, hd, rfl⟩ | hleaf
  · obtain rfl := Json.object.inj hd
    rw [patchEntry_objects] at h
    cases hpatch : createThreeWayMergePatch existing p desired with
    | error err => simp [hpatch, Except.map] at h
    | ok patch =>
        rw [hpatch] at h
        obtain rfl := Except.ok.inj h
        have hnil := patch_eq_nil_iff hpatch
        refine ⟨patch, patchEntry_get hpatch, fun key => not_inherited hpatch, ?_, ?_, ?_⟩
        · intro hnone
          have hempty : patch = [] := by
            cases patch <;> simp_all
          exact ⟨hempty, _, rfl, hnil.1 hempty⟩
        · intro hsome
          cases patch <;> simp_all
        · rintro w ⟨⟩ heq
          simp [hnil.2 heq]
  · have hprevious : ¬ isObj previous := by
      rcases hleaf with hleaf | hprevious
      · simp [Json.isObject] at hleaf
      · exact hprevious
    have hnot : ∀ w, previous = some w → deepEqual (.object desired) w = false := by
      rintro w rfl
      by_contra heq
      have hobj := isObject_of_deepEqual (by simpa using heq)
      exact hprevious (show isObj (some w) from hobj.symm)
    have hchild : ∀ key, child previous key = none := by
      intro key
      cases previous with
      | none => rfl
      | some w => exact child_of_not_object (by simpa [isObj] using hprevious) key
    have hany : previous.any (deepEqual (.object desired)) = false := by
      cases previous with
      | none => rfl
      | some w => exact hnot w rfl
    rw [patchEntry_replaced hleaf, hany] at h
    obtain rfl := Except.ok.inj h
    refine ⟨desired, ?_, ?_, by simp, by simp, ?_⟩
    · intro key
      rw [hchild]
      cases hkey : desired.get key with
      | none => rfl
      | some v =>
          rw [patchEntry_replaced (.inr (by simp [isObj]))]
          rfl
    · intro key hkey
      exact absurd (hchild key) hkey
    · intro w hw heq
      simp [hnot w hw] at heq

theorem exists_patchEntry {existing previous : Option (Json N)} {desired : Fields N}
    (hremovable : ∀ key, child previous key ≠ none → desired.get key = none →
      key ∉ inheritedNames)
    (hentry : ∀ key, desired.get key ≠ none →
      ∃ value, patchEntry (child existing key) (child previous key) (desired.get key)
        = .ok value) :
    ∃ value, patchEntry existing previous (some (.object desired)) = .ok value := by
  rcases objects_cases (.object desired) previous with ⟨d, p, hd, rfl⟩ | hleaf
  · obtain rfl := Json.object.inj hd
    obtain ⟨patch, hpatch⟩ := exists_createThreeWayMergePatch hremovable hentry
    rw [patchEntry_objects, hpatch]
    exact ⟨_, rfl⟩
  · rw [patchEntry_replaced hleaf]
    exact ⟨_, rfl⟩

/-- Only a field to be removed is null in the patch. -/
theorem removed_of_entry_null {existing previous desired : Option (Json N)}
    (h : patchEntry existing previous desired = .ok (some .null)) (hnull : desired ≠ some .null) :
    desired = none ∧ previous ≠ none := by
  cases desired with
  | none => cases previous <;> simp_all [patchEntry]
  | some v =>
      rcases objects_cases v previous with ⟨d, p, rfl, rfl⟩ | hleaf
      · rw [patchEntry_objects] at h
        cases hpatch : createThreeWayMergePatch existing p d with
        | error err => simp [hpatch, Except.map] at h
        | ok patch =>
            rw [hpatch] at h
            have hvalue := Except.ok.inj h
            cases patch <;> simp at hvalue
      · rw [patchEntry_replaced hleaf] at h
        have hvalue := Except.ok.inj h
        split at hvalue <;> simp_all

omit [DecidableEq N] in
theorem patched_of_not_isObj {existing : Option (Json N)} (h : ¬ isObj existing)
    (patch : Fields N) : patched existing (some (.object patch)) = some (.object patch) := by
  simp only [patched]
  split
  · exact absurd rfl h
  · rfl

omit [DecidableEq N] in
/-- A field of what an object patch makes. -/
theorem child_patched {existing : Option (Json N)} {patch : Fields N} {key : JsString}
    (h : isObj existing ∨ patch.get key ≠ some .null) :
    child (patched existing (some (.object patch))) key
      = patched (child existing key) (patch.get key) := by
  by_cases hobj : isObj existing
  · obtain ⟨fields, rfl⟩ : ∃ fields, existing = some (.object fields) := by
      rcases existing with _ | v
      · simp [isObj] at hobj
      · cases v <;> simp_all [isObj, Json.isObject]
    simp only [patched, child_object, get_applyPatchObject]
  · have hchild : child existing key = none := by
      rcases existing with _ | v
      · rfl
      · exact child_of_not_object (by simpa [isObj] using hobj) key
    have hnull := h.resolve_left hobj
    rw [patched_of_not_isObj hobj, child_object, hchild]
    unfold patched
    split <;> simp_all

omit [DecidableEq N] in
theorem isObj_patched (existing : Option (Json N)) (patch : Fields N) :
    isObj (patched existing (some (.object patch))) := by
  simp only [patched]
  split <;> rfl

/-- The patch of a field makes what the apply is for. -/
def Achieves (existing previous desired : Option (Json N)) : Prop :=
  ∃ value, patchEntry existing previous desired = .ok value
    ∧ Applied none existing previous desired (patched existing value)

theorem achieves_absent (existing previous : Option (Json N)) : Achieves existing previous none := by
  cases previous with
  | none => exact ⟨none, rfl, applied_untouched none existing⟩
  | some w => exact ⟨some .null, rfl, applied_removed (by simp)⟩

theorem achieves_leaf {existing previous : Option (Json N)} {v : Json N}
    (hleaf : v.isObject = false) (hnull : v ≠ .null) :
    Achieves existing previous (some v) ↔ Restored none existing previous (some v) := by
  have hpatched : patched existing (some v) = some v := by
    cases v <;> simp_all [patched, Json.isObject]
  rw [restored_leaf hleaf]
  unfold Achieves
  rw [patchEntry_replaced (.inl hleaf)]
  constructor
  · rintro ⟨value, hvalue, happlied⟩ w rfl heq
    obtain rfl := Except.ok.inj hvalue
    rw [applied_leaf hleaf] at happlied
    simpa [heq, patched] using happlied
  · intro h
    refine ⟨_, rfl, (applied_leaf hleaf).2 ?_⟩
    split
    · rename_i hany
      obtain ⟨w, hw, heq⟩ := (Option.any_eq_true _ _).1 hany
      exact h w hw heq
    · rw [hpatched]
      exact like_refl v

/-- A field of the patched object, as the patch of that field makes it. It
differs only where `null` is stored, in an object that was not there. -/
theorem child_of_objectPatch {existing previous value : Option (Json N)}
    {desired patch : Fields N} (h : ObjectPatch existing previous desired value patch)
    (hnull : ∀ key, desired.get key ≠ some .null) {key : JsString}
    (hobj : child previous key ≠ none → desired.get key = none → isObj existing) :
    child (patched existing value) key = patched (child existing key) (patch.get key) := by
  cases hvalue : value with
  | none =>
      obtain ⟨rfl, -⟩ := h.nothing hvalue
      rfl
  | some v =>
      have hsome := h.something (by simp [hvalue])
      rw [← hvalue, hsome]
      refine child_patched ?_
      by_cases hentry : patch.get key = some .null
      · have hremoved := removed_of_entry_null (hentry ▸ h.entry key) (hnull key)
        exact .inl (hobj hremoved.2 hremoved.1)
      · exact .inr hentry

/-- One object, given that its fields come out right exactly when they have to. -/
theorem achieves_object {existing previous : Option (Json N)} {desired : Fields N}
    (hnull : ∀ key, desired.get key ≠ some .null)
    (hkeys : ∀ key, Achieves (child existing key) (child previous key) (desired.get key)
      ↔ Restored none (child existing key) (child previous key) (desired.get key)) :
    Achieves existing previous (some (.object desired))
      ↔ Restored none existing previous (some (.object desired)) := by
  rw [restored_object]
  constructor
  · rintro ⟨value, hvalue, happlied⟩
    obtain ⟨patch, hpatch⟩ := exists_objectPatch hvalue
    obtain ⟨hobj, hfields⟩ := applied_object.1 happlied
    have hexisting : ∀ key, child previous key ≠ none → desired.get key = none →
        isObj existing := by
      intro key hprevious hdesired
      by_contra hno
      -- the field to be removed is stored as null
      have hentry : patch.get key = some .null := by
        have hentry := hpatch.entry key
        rw [hdesired] at hentry
        cases hw : child previous key with
        | none => contradiction
        | some w =>
            rw [hw] at hentry
            exact (Except.ok.inj hentry).symm
      have hsome : value = some (.object patch) := by
        refine hpatch.something fun hnone => ?_
        rw [(hpatch.nothing hnone).1] at hentry
        contradiction
      have hgone := (hfields key).pruned [] ⟨hprevious, hdesired⟩ [] List.nil_prefix
        (not_leads_none _)
      rw [hsome, patched_of_not_isObj hno, child_object, hentry] at hgone
      contradiction
    refine ⟨?_, fun key hprevious hdesired =>
      ⟨hexisting key hprevious hdesired, hpatch.removable key hprevious hdesired⟩, fun key => ?_⟩
    · intro w hw heq _
      have hnone := hpatch.changed w hw heq
      rw [hnone] at hobj
      exact hobj (by simp)
    · refine (hkeys key).1 ⟨patch.get key, hpatch.entry key, ?_⟩
      rw [← child_of_objectPatch hpatch hnull (hexisting key)]
      exact hfields key
  · rintro ⟨hroot, hremovable, hfields⟩
    have hentry : ∀ key, desired.get key ≠ none → ∃ value,
        patchEntry (child existing key) (child previous key) (desired.get key) = .ok value := by
      intro key _
      obtain ⟨value, hvalue, -⟩ := (hkeys key).2 (hfields key)
      exact ⟨value, hvalue⟩
    obtain ⟨value, hvalue⟩ := exists_patchEntry
      (fun key hprevious hdesired => (hremovable key hprevious hdesired).2) hentry
    obtain ⟨patch, hpatch⟩ := exists_objectPatch hvalue
    refine ⟨value, hvalue, applied_object.2 ⟨fun _ => ?_, fun key => ?_⟩⟩
    · by_cases hnone : value = none
      · obtain ⟨-, w, hw, heq⟩ := hpatch.nothing hnone
        rw [hnone]
        exact hroot w hw heq (by simp)
      · rw [hpatch.something hnone]
        exact isObj_patched existing patch
    · rw [child_of_objectPatch hpatch hnull fun hprevious hdesired =>
        (hremovable key hprevious hdesired).1]
      obtain ⟨value', hvalue', happlied⟩ := (hkeys key).2 (hfields key)
      rw [hpatch.entry key] at hvalue'
      obtain rfl := Except.ok.inj hvalue'
      exact happlied

/-- A field comes out right exactly when the live one is as it has to be.
The induction is on the new configuration. -/
theorem achieves_iff_restored (desired : Json N) (existing previous : Option (Json N))
    (hnull : ∀ path, atPath (some desired) path ≠ some .null) :
    Achieves existing previous (some desired) ↔ Restored none existing previous (some desired) := by
  match desired with
  | .object fields =>
      refine achieves_object (fun key => hnull [key]) fun key => ?_
      match hfield : Fields.get fields key with
      | none => exact iff_of_true (achieves_absent _ _) (restored_absent _ _)
      | some v =>
          have hlt := Fields.sizeOf_get hfield
          refine achieves_iff_restored v _ _ fun path => ?_
          have hpath := hnull (key :: path)
          rwa [atPath_cons, child_object, hfield] at hpath
  | .null => exact absurd rfl (hnull [])
  | .bool _ | .number _ | .string _ | .array _ => exact achieves_leaf rfl (by simp)
termination_by sizeOf desired
decreasing_by
  simp only [Json.object.sizeOf_spec]
  omega

end Webernetes.Cluster
