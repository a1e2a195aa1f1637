/-
Webernetes.GarbageCollector.Alternates — where an absent owner is looked for
next.

The references of the dependents imply identities of their owner. Once one of
them is verified absent, `getAlternateOwnerIdentity` gives another one, in a
single pass over the references. The loop is a fold over the implied
identities (`getAlternateOwnerIdentity_eq`); it considers the first of each
key (`firsts`), so it goes round all of them just when no two have the same
key (`alternates_visit_iff`).
-/
import Mathlib.Data.List.SplitBy
import Webernetes.Base.Cyclic
import Webernetes.GarbageCollector.Graph

namespace Webernetes.GarbageCollector

open Js Base
open Storage (OwnerReference)

/-! ## The order of references -/

namespace ObjectReference

/-- The fields in the order in which they are compared. -/
def sortFields (r : ObjectReference) : List JsString :=
  [r.kind, r.apiVersion, r.namespace, r.name, r.uid]

theorem sortFields_injective : Function.Injective sortFields := by
  intro a b h
  cases a
  cases b
  simp only [sortFields, List.cons.injEq, and_true] at h
  obtain ⟨rfl, rfl, rfl, rfl, rfl⟩ := h
  rfl

instance : LinearOrder ObjectReference := LinearOrder.lift' sortFields sortFields_injective

theorem lt_iff {a b : ObjectReference} : a < b ↔ sortFields a < sortFields b := Iff.rfl

end ObjectReference

theorem referenceLessThan_iff {a b : ObjectReference} : referenceLessThan a b = true ↔ a < b := by
  rw [ObjectReference.lt_iff, ObjectReference.sortFields, ObjectReference.sortFields]
  simp only [List.cons_lt_cons_iff, referenceLessThan]
  have hnil : ¬ ([] : List JsString) < [] := lt_irrefl _
  by_cases hkind : a.kind = b.kind
  · by_cases hversion : a.apiVersion = b.apiVersion
    · by_cases hnamespace : a.namespace = b.namespace
      · by_cases hname : a.name = b.name
        · by_cases huid : a.uid = b.uid
          · simp [hkind, hversion, hnamespace, hname, huid]
          · simp [hkind, hversion, hnamespace, hname, huid]
        · simp [hkind, hversion, hnamespace, hname]
      · simp [hkind, hversion, hnamespace]
    · simp [hkind, hversion]
  · simp [hkind]

theorem not_referenceLessThan_iff {a b : ObjectReference} : ¬ referenceLessThan a b = true ↔ b ≤ a := by
  rw [referenceLessThan_iff, not_lt]

/-! ## Implied identities -/

/-- A reference's coordinates, in the namespace of the dependent. -/
def impliedIdentity (dep : Node) (ownerRef : OwnerReference) : ObjectReference where
  apiVersion := ownerRef.apiVersion
  kind := ownerRef.kind
  name := ownerRef.name
  uid := ownerRef.uid
  «namespace» := dep.identity.namespace

/-- The identities that the references of the dependents imply for a uid. -/
def impliedIdentities (g : GraphBuilder) (deps : List NodeId) (uid : JsString) : List ObjectReference :=
  deps.flatMap fun dep =>
    ((g.heap dep).owners.filter (·.uid = uid)).map (impliedIdentity (g.heap dep))

/-- The dependents are in a namespace. -/
def Namespaced (g : GraphBuilder) (deps : List NodeId) : Prop :=
  ∀ dep ∈ deps, (g.heap dep).identity.namespace ≠ []

theorem mem_impliedIdentities {g : GraphBuilder} {deps : List NodeId} {uid : JsString}
    {r : ObjectReference} (h : r ∈ impliedIdentities g deps uid) :
    r.uid = uid ∧ (Namespaced g deps → r.namespace ≠ []) := by
  simp only [impliedIdentities, List.mem_flatMap, List.mem_map, List.mem_filter, decide_eq_true_eq] at h
  obtain ⟨dep, hdep, ownerRef, ⟨-, huid⟩, rfl⟩ := h
  exact ⟨huid, fun hnamespaced => hnamespaced dep hdep⟩

/-- No two identities have one key. -/
def KeysDistinct (refs : List ObjectReference) : Prop :=
  ∀ r ∈ refs, ∀ r' ∈ refs, objectReferenceKey r = objectReferenceKey r' → r = r'

/-- A reference without `"\0"` in its fields. -/
def ObjectReference.Plain (r : ObjectReference) : Prop :=
  ∀ field ∈ [r.apiVersion, r.kind, r.namespace, r.name, r.uid], (0 : CodeUnit) ∉ field

/-- Keys are only ever shared where a field has a `"\0"` in it. -/
theorem keysDistinct_of_plain {refs : List ObjectReference} (h : ∀ r ∈ refs, r.Plain) :
    KeysDistinct refs := by
  intro r hr r' hr' hkey
  have hsplit := congrArg (List.splitOn (0 : CodeUnit)) hkey
  rw [objectReferenceKey, objectReferenceKey, List.splitOn_intercalate _ (h r hr) (by simp),
    List.splitOn_intercalate _ (h r' hr') (by simp)] at hsplit
  cases r
  cases r'
  simp only [List.cons.injEq, and_true] at hsplit
  obtain ⟨rfl, rfl, rfl, rfl, rfl⟩ := hsplit
  rfl

/-! ## The loop -/

/-- What an implied identity changes. -/
def Alternates.see (absent : ObjectReference) (a : Alternates) (ref : ObjectReference) : Alternates :=
  if a.seen.contains (objectReferenceKey ref) then a
  else
    { seen := objectReferenceKey ref :: a.seen
      first := lesser ref a.first
      firstFollowing :=
        if referenceLessThan absent ref then lesser ref a.firstFollowing else a.firstFollowing }

theorem Alternates.mem_seen_see {absent ref : ObjectReference} {a : Alternates} {key : JsString}
    (h : key ∈ a.seen) : key ∈ (a.see absent ref).seen := by
  rw [see]
  split
  · exact h
  · exact List.mem_cons_of_mem _ h

/-- The absent identity itself is skipped, by its coordinates as by its key. -/
theorem Alternates.consider_eq {absent : ObjectReference} {dep : Node} {a : Alternates}
    (hnamespaced : absent.namespace ≠ []) (hseen : objectReferenceKey absent ∈ a.seen)
    (ownerRef : OwnerReference) :
    a.consider absent dep ownerRef =
      if ownerRef.uid = absent.uid then a.see absent (impliedIdentity dep ownerRef) else a := by
  have hscope : ¬ absent.namespace.length = 0 := by simpa using hnamespaced
  have href : alternateRef absent dep ownerRef = impliedIdentity dep ownerRef := by
    simp [alternateRef, impliedIdentity, hscope]
  simp only [consider, href]
  by_cases huid : ownerRef.uid = absent.uid
  · rw [if_neg (not_not.mpr huid), if_pos huid]
    split
    · rename_i hmatches
      simp only [ownerReferenceMatchesCoordinates, Bool.and_eq_true, beq_iff_eq, hscope, false_or] at hmatches
      obtain ⟨⟨⟨⟨-, hname⟩, hkind⟩, hversion⟩, hnamespace⟩ := hmatches
      have hsame : impliedIdentity dep ownerRef = absent := by
        cases absent
        simp_all [impliedIdentity]
      rw [see, hsame, if_pos (List.contains_iff_mem.mpr hseen)]
    · rfl
  · rw [if_pos huid, if_neg huid]

theorem Alternates.foldl_consider {absent : ObjectReference} {dep : Node}
    (hnamespaced : absent.namespace ≠ []) (owners : List OwnerReference) :
    ∀ a : Alternates, objectReferenceKey absent ∈ a.seen →
      owners.foldl (Alternates.consider absent dep) a
        = ((owners.filter (·.uid = absent.uid)).map (impliedIdentity dep)).foldl (Alternates.see absent) a
      ∧ objectReferenceKey absent ∈ (owners.foldl (Alternates.consider absent dep) a).seen := by
  induction owners with
  | nil => exact fun a hseen => ⟨rfl, hseen⟩
  | cons ownerRef owners ih =>
    intro a hseen
    rw [List.foldl_cons, consider_eq hnamespaced hseen]
    by_cases huid : ownerRef.uid = absent.uid
    · rw [if_pos huid, List.filter_cons_of_pos (by simpa using huid), List.map_cons, List.foldl_cons]
      exact ih _ (mem_seen_see hseen)
    · rw [if_neg huid, List.filter_cons_of_neg (by simpa using huid)]
      exact ih a hseen

theorem Alternates.foldl_deps {g : GraphBuilder} {absent : ObjectReference}
    (hnamespaced : absent.namespace ≠ []) (deps : List NodeId) :
    ∀ a : Alternates, objectReferenceKey absent ∈ a.seen →
      deps.foldl (fun a dep => (g.heap dep).owners.foldl (Alternates.consider absent (g.heap dep)) a) a
        = (impliedIdentities g deps absent.uid).foldl (Alternates.see absent) a := by
  induction deps with
  | nil => exact fun a _ => rfl
  | cons dep deps ih =>
    intro a hseen
    obtain ⟨hfold, hseen'⟩ := foldl_consider hnamespaced (g.heap dep).owners a hseen
    rw [List.foldl_cons, ih _ hseen', hfold, ← List.foldl_append]
    rfl

/-! ## What is considered -/

/-- The first identity of each key that was not seen before. -/
def firsts : List JsString → List ObjectReference → List ObjectReference
  | _, [] => []
  | seen, r :: refs =>
    if seen.contains (objectReferenceKey r) then firsts seen refs
    else r :: firsts (objectReferenceKey r :: seen) refs

/-- The least of the references and of the one before. -/
def least (refs : List ObjectReference) (current : Option ObjectReference) : Option ObjectReference :=
  refs.foldl (fun current ref => lesser ref current) current

theorem foldl_see (absent : ObjectReference) (refs : List ObjectReference) : ∀ a : Alternates,
    (refs.foldl (Alternates.see absent) a).first = least (firsts a.seen refs) a.first
      ∧ (refs.foldl (Alternates.see absent) a).firstFollowing
        = least ((firsts a.seen refs).filter (referenceLessThan absent)) a.firstFollowing := by
  induction refs with
  | nil => exact fun a => ⟨rfl, rfl⟩
  | cons r refs ih =>
    intro a
    rw [List.foldl_cons, firsts, Alternates.see]
    split
    · exact ih a
    · obtain ⟨hfirst, hfollowing⟩ := ih
        { seen := objectReferenceKey r :: a.seen
          first := lesser r a.first
          firstFollowing :=
            if referenceLessThan absent r then lesser r a.firstFollowing else a.firstFollowing }
      refine ⟨hfirst, hfollowing.trans ?_⟩
      by_cases hless : referenceLessThan absent r = true
      · rw [List.filter_cons_of_pos hless, if_pos hless]
        rfl
      · rw [List.filter_cons_of_neg hless, if_neg hless]

/-- **The answer is the least identity considered that follows the absent
one, or the least of all.** -/
theorem getAlternateOwnerIdentity_eq {g : GraphBuilder} {deps : List NodeId} {absent : ObjectReference}
    (hnamespaced : absent.namespace ≠ []) :
    getAlternateOwnerIdentity g deps absent =
      (least ((firsts [objectReferenceKey absent] (impliedIdentities g deps absent.uid)).filter
          (referenceLessThan absent)) none).or
        (least (firsts [objectReferenceKey absent] (impliedIdentities g deps absent.uid)) none) := by
  obtain ⟨hfirst, hfollowing⟩ := foldl_see absent (impliedIdentities g deps absent.uid)
    { seen := [objectReferenceKey absent] }
  rw [getAlternateOwnerIdentity, Alternates.foldl_deps hnamespaced deps _ (List.mem_singleton.mpr rfl), hfirst, hfollowing]

theorem mem_firsts {refs : List ObjectReference} {r : ObjectReference} : ∀ {seen : List JsString},
    r ∈ firsts seen refs → r ∈ refs ∧ objectReferenceKey r ∉ seen
      ∧ refs.find? (fun r' => objectReferenceKey r' = objectReferenceKey r) = some r := by
  induction refs with
  | nil => intro seen h; cases h
  | cons s refs ih =>
    intro seen h
    rw [firsts] at h
    split at h
    · rename_i hseen
      obtain ⟨hmem, hnew, hfind⟩ := ih h
      have hne : objectReferenceKey s ≠ objectReferenceKey r := by
        intro heq
        exact hnew (heq ▸ List.contains_iff_mem.mp hseen)
      exact ⟨List.mem_cons_of_mem _ hmem, hnew, by rw [List.find?_cons_of_neg (by simpa using hne), hfind]⟩
    · rename_i hseen
      rcases List.mem_cons.mp h with rfl | h
      · exact ⟨List.mem_cons_self, fun hmem => hseen (List.contains_iff_mem.mpr hmem), by
          rw [List.find?_cons_of_pos (by simp)]⟩
      · obtain ⟨hmem, hnew, hfind⟩ := ih h
        obtain ⟨hne, hnew⟩ := not_or.mp (mt List.mem_cons.mpr hnew)
        exact ⟨List.mem_cons_of_mem _ hmem, hnew, by
          rw [List.find?_cons_of_neg (by simpa using Ne.symm hne), hfind]⟩

theorem exists_mem_firsts {refs : List ObjectReference} {r : ObjectReference} :
    ∀ {seen : List JsString}, r ∈ refs → objectReferenceKey r ∉ seen →
      ∃ r' ∈ firsts seen refs, objectReferenceKey r' = objectReferenceKey r := by
  induction refs with
  | nil => intro seen h; cases h
  | cons s refs ih =>
    intro seen hmem hnew
    rw [firsts]
    by_cases hkey : objectReferenceKey s = objectReferenceKey r
    · rw [if_neg fun hseen => hnew (hkey ▸ List.contains_iff_mem.mp hseen)]
      exact ⟨s, List.mem_cons_self, hkey⟩
    · have hmem : r ∈ refs := by
        rcases List.mem_cons.mp hmem with rfl | hmem
        · exact absurd rfl hkey
        · exact hmem
      split
      · exact ih hmem hnew
      · obtain ⟨r', hr', heq⟩ := @ih (objectReferenceKey s :: seen) hmem
          (mt List.mem_cons.mp (not_or.mpr ⟨Ne.symm hkey, hnew⟩))
        exact ⟨r', List.mem_cons_of_mem _ hr', heq⟩

theorem lesser_eq_some {r x : ObjectReference} {current : Option ObjectReference}
    (h : lesser r current = some x) :
    (x = r ∨ current = some x) ∧ x ≤ r ∧ ∀ y ∈ current, x ≤ y := by
  cases current with
  | none =>
    cases h
    exact ⟨.inl rfl, le_refl _, by simp⟩
  | some y =>
    rw [lesser] at h
    split at h
    · rename_i hless
      cases h
      refine ⟨.inl rfl, le_refl _, ?_⟩
      rintro y' ⟨⟩
      exact (referenceLessThan_iff.mp hless).le
    · rename_i hless
      cases h
      refine ⟨.inr rfl, not_referenceLessThan_iff.mp hless, ?_⟩
      rintro y' ⟨⟩
      exact le_refl _

theorem least_eq_some {refs : List ObjectReference} {x : ObjectReference} :
    ∀ {current : Option ObjectReference}, least refs current = some x →
      (x ∈ refs ∨ current = some x) ∧ (∀ r ∈ refs, x ≤ r) ∧ ∀ y ∈ current, x ≤ y := by
  induction refs with
  | nil =>
    rintro current rfl
    refine ⟨.inr rfl, by simp, ?_⟩
    rintro y ⟨⟩
    exact le_refl _
  | cons r refs ih =>
    intro current h
    obtain ⟨hfrom, hle, hcurrent⟩ := @ih (lesser r current) h
    cases hlesser : lesser r current with
    | none =>
      cases current with
      | none => cases hlesser
      | some y =>
        rw [lesser] at hlesser
        split at hlesser <;> cases hlesser
    | some m =>
      obtain ⟨hm, hmr, hmcurrent⟩ := lesser_eq_some hlesser
      have hxm : x ≤ m := hcurrent m hlesser
      refine ⟨?_, ?_, fun y hy => hxm.trans (hmcurrent y hy)⟩
      · rcases hfrom with hmem | heq
        · exact .inl (List.mem_cons_of_mem _ hmem)
        · rw [hlesser] at heq
          cases heq
          rcases hm with rfl | hm
          · exact .inl List.mem_cons_self
          · exact .inr hm
      · intro r' hr'
        rcases List.mem_cons.mp hr' with rfl | hr'
        · exact hxm.trans hmr
        · exact hle r' hr'

theorem least_eq_none {refs : List ObjectReference} (h : least refs none = none) : refs = [] := by
  have hsome : ∀ (refs : List ObjectReference) (m : ObjectReference), (least refs (some m)).isSome = true := by
    intro refs
    induction refs with
    | nil => exact fun _ => rfl
    | cons r refs ih =>
      intro m
      rw [least, List.foldl_cons, lesser]
      split
      · exact ih r
      · exact ih m
  cases refs with
  | nil => rfl
  | cons r refs =>
    have := hsome refs r
    rw [show least refs (some r) = least (r :: refs) none from rfl, h] at this
    cases this

/-! ## Going round -/

section Walk

variable {g : GraphBuilder} {deps : List NodeId} {uid : JsString}

/-- What is found is implied, and the first of its key. -/
theorem getAlternateOwnerIdentity_mem (hnamespaced : Namespaced g deps) {start r : ObjectReference}
    (hstart : start ∈ impliedIdentities g deps uid)
    (h : getAlternateOwnerIdentity g deps start = some r) :
    r ∈ impliedIdentities g deps uid
      ∧ (impliedIdentities g deps uid).find? (fun r' => objectReferenceKey r' = objectReferenceKey r) = some r
      ∧ objectReferenceKey r ≠ objectReferenceKey start := by
  obtain ⟨rfl, hnamespace⟩ := mem_impliedIdentities hstart
  rw [getAlternateOwnerIdentity_eq (hnamespace hnamespaced)] at h
  have hfirsts : r ∈ firsts [objectReferenceKey start] (impliedIdentities g deps start.uid) := by
    rcases Option.or_eq_some_iff.mp h with h | ⟨-, h⟩
    · obtain ⟨hmem, -⟩ := (least_eq_some h).1.resolve_right (by simp) |> List.mem_filter.mp
      exact hmem
    · exact (least_eq_some h).1.resolve_right (by simp)
  obtain ⟨hmem, hnew, hfind⟩ := mem_firsts hfirsts
  exact ⟨hmem, hfind, fun heq => hnew (List.mem_singleton.mpr heq)⟩

/-- With a key of its own each implied identity but the start is considered. -/
theorem mem_firsts_of_distinct {refs : List ObjectReference} (hdistinct : KeysDistinct refs)
    {start r : ObjectReference} (hstart : start ∈ refs) (hr : r ∈ refs) (hne : r ≠ start) :
    r ∈ firsts [objectReferenceKey start] refs := by
  have hnew : objectReferenceKey r ∉ [objectReferenceKey start] := by
    intro hmem
    exact hne (hdistinct r hr start hstart (List.mem_singleton.mp hmem))
  obtain ⟨r', hr', hkey⟩ := exists_mem_firsts hr hnew
  rwa [← hdistinct r' (mem_firsts hr').1 r hr hkey]

theorem cycles_of_distinct (hnamespaced : Namespaced g deps)
    (hdistinct : KeysDistinct (impliedIdentities g deps uid)) :
    Cycles (getAlternateOwnerIdentity g deps) (impliedIdentities g deps uid).toFinset where
  none start hstart hnone r hr := by
    rw [List.mem_toFinset] at hstart hr
    by_contra hne
    have hmem := mem_firsts_of_distinct hdistinct hstart hr hne
    obtain ⟨rfl, hnamespace⟩ := mem_impliedIdentities hstart
    rw [getAlternateOwnerIdentity_eq (hnamespace hnamespaced), Option.or_eq_none_iff] at hnone
    rw [least_eq_none hnone.2] at hmem
    cases hmem
  some start hstart r hsome := by
    rw [List.mem_toFinset] at hstart
    obtain ⟨hmem, -, hkey⟩ := getAlternateOwnerIdentity_mem hnamespaced hstart hsome
    refine ⟨List.mem_toFinset.mpr hmem, fun heq => hkey (by rw [heq]), ?_⟩
    have hconsidered : ∀ {r' : ObjectReference}, r' ∈ impliedIdentities g deps uid → r' ≠ start →
        r' ∈ firsts [objectReferenceKey start] (impliedIdentities g deps uid) :=
      fun hr' hne => mem_firsts_of_distinct hdistinct hstart hr' hne
    obtain ⟨rfl, hnamespace⟩ := mem_impliedIdentities hstart
    rw [getAlternateOwnerIdentity_eq (hnamespace hnamespaced)] at hsome
    rcases Option.or_eq_some_iff.mp hsome with hfollowing | ⟨hnone, hfirst⟩
    · -- one that follows the start
      obtain ⟨hfrom, hleast, -⟩ := least_eq_some hfollowing
      have hr := (List.mem_filter.mp (hfrom.resolve_right (by simp))).2
      refine .inl ⟨referenceLessThan_iff.mp hr, fun r' hr' hlt => hleast r' (List.mem_filter.mpr ⟨?_, ?_⟩)⟩
      · exact hconsidered (List.mem_toFinset.mp hr') hlt.ne'
      · exact referenceLessThan_iff.mpr hlt
    · -- none follows: the first of all
      obtain ⟨-, hleast, -⟩ := least_eq_some hfirst
      have hgreatest : ∀ r' ∈ impliedIdentities g deps start.uid, r' ≤ start := by
        intro r' hr'
        by_contra hlt
        have hin : r' ∈ (firsts [objectReferenceKey start] (impliedIdentities g deps start.uid)).filter
            (referenceLessThan start) :=
          List.mem_filter.mpr ⟨hconsidered hr' (not_le.mp hlt).ne', referenceLessThan_iff.mpr (not_le.mp hlt)⟩
        rw [least_eq_none hnone] at hin
        cases hin
      refine .inr ⟨fun r' hr' => hgreatest r' (List.mem_toFinset.mp hr'), fun r' hr' => ?_⟩
      rw [List.mem_toFinset] at hr'
      by_cases hne : r' = start
      · exact hne ▸ hgreatest r hmem
      · exact hleast r' (hconsidered hr' hne)

theorem walk_mem (hnamespaced : Namespaced g deps) (n : Nat) : ∀ {start r : ObjectReference},
    start ∈ impliedIdentities g deps uid → walk (getAlternateOwnerIdentity g deps) n start = some r →
    r ∈ impliedIdentities g deps uid := by
  induction n with
  | zero =>
    intro start r hstart hwalk
    cases hwalk
    exact hstart
  | succ n ih =>
    intro start r hstart hwalk
    obtain ⟨next, hnext, hrest⟩ := Option.bind_eq_some_iff.mp hwalk
    exact ih (getAlternateOwnerIdentity_mem hnamespaced hstart hnext).1 hrest

/-- Of one key only the first is ever found, so a walk from there to another
one has no last step. -/
theorem distinct_of_visits (hnamespaced : Namespaced g deps)
    (hvisits : ∀ start ∈ impliedIdentities g deps uid, ∀ r ∈ impliedIdentities g deps uid,
      ∃ n, walk (getAlternateOwnerIdentity g deps) n start = some r) :
    KeysDistinct (impliedIdentities g deps uid) := by
  have hfirst : ∀ r ∈ impliedIdentities g deps uid, (impliedIdentities g deps uid).find?
      (fun r' => objectReferenceKey r' = objectReferenceKey r) = some r := by
    intro r hr
    cases hfind : (impliedIdentities g deps uid).find?
        (fun r' => objectReferenceKey r' = objectReferenceKey r) with
    | none =>
      have := List.find?_eq_none.mp hfind r hr
      simp at this
    | some first =>
      obtain ⟨n, hwalk⟩ := hvisits first (List.mem_of_find?_eq_some hfind) r hr
      cases n with
      | zero => exact hwalk
      | succ n =>
        rw [walk_add _ n 1] at hwalk
        obtain ⟨last, hlast, hstep⟩ := Option.bind_eq_some_iff.mp hwalk
        have hmem := walk_mem hnamespaced n (List.mem_of_find?_eq_some hfind) hlast
        have hnext : getAlternateOwnerIdentity g deps last = some r := by
          obtain ⟨r', hr', heq⟩ := Option.bind_eq_some_iff.mp hstep
          cases heq
          exact hr'
        rw [← hfind]
        exact (getAlternateOwnerIdentity_mem hnamespaced hmem hnext).2.1
  intro r hr r' hr' hkey
  have heq := hfirst r hr
  rw [hkey, hfirst r' hr'] at heq
  cases heq
  rfl

/-- From each implied identity the alternates go round the others, in
order. -/
structure VisitsImplied (g : GraphBuilder) (deps : List NodeId) (uid : JsString) : Prop where
  other : ∀ start ∈ impliedIdentities g deps uid, getAlternateOwnerIdentity g deps start ≠ some start
  undefined_iff : ∀ start ∈ impliedIdentities g deps uid,
    (getAlternateOwnerIdentity g deps start = none ↔ ∀ r ∈ impliedIdentities g deps uid, r = start)
  inOrder : ∀ start ∈ impliedIdentities g deps uid, ∀ r, getAlternateOwnerIdentity g deps start = some r →
    r ∈ impliedIdentities g deps uid
      ∧ ((referenceLessThan start r = true ∧ ∀ r' ∈ impliedIdentities g deps uid,
          referenceLessThan start r' = true → ¬ referenceLessThan r' r = true)
        ∨ ((∀ r' ∈ impliedIdentities g deps uid, ¬ referenceLessThan start r' = true)
          ∧ ∀ r' ∈ impliedIdentities g deps uid, ¬ referenceLessThan r' r = true))
  visits : ∀ start ∈ impliedIdentities g deps uid, ∀ r ∈ impliedIdentities g deps uid,
    ∃ n, walk (getAlternateOwnerIdentity g deps) n start = some r

/-- **The alternates go round all implied identities just when each has a
key of its own.** -/
theorem alternates_visit_iff (hnamespaced : Namespaced g deps) :
    VisitsImplied g deps uid ↔ KeysDistinct (impliedIdentities g deps uid) := by
  constructor
  · exact fun h => distinct_of_visits hnamespaced h.visits
  · intro hdistinct
    have hcycles := cycles_of_distinct hnamespaced hdistinct
    constructor
    · intro start hstart hsame
      exact (getAlternateOwnerIdentity_mem hnamespaced hstart hsame).2.2 rfl
    · intro start hstart
      constructor
      · intro hnone r hr
        exact hcycles.none start (List.mem_toFinset.mpr hstart) hnone r (List.mem_toFinset.mpr hr)
      · intro hall
        cases hnext : getAlternateOwnerIdentity g deps start with
        | none => rfl
        | some r =>
          obtain ⟨hr, -, hkey⟩ := getAlternateOwnerIdentity_mem hnamespaced hstart hnext
          exact absurd (congrArg objectReferenceKey (hall r hr)) hkey
    · intro start hstart r hnext
      obtain ⟨hr, -, hisNext⟩ := hcycles.some start (List.mem_toFinset.mpr hstart) r hnext
      simpa only [IsNext, List.mem_toFinset, ← referenceLessThan_iff, ← not_referenceLessThan_iff] using
        And.intro (List.mem_toFinset.mp hr) hisNext
    · intro start hstart r hr
      exact hcycles.visits (List.mem_toFinset.mpr hstart) (List.mem_toFinset.mpr hr)

end Walk

/-- One dependent, with references to one owner in several versions. -/
def graphOf (references : List (JsString × JsString)) : GraphBuilder where
  heap _ :=
    { identity :=
        { apiVersion := js "v1", kind := js "Pod", name := js "pod", uid := js "pod-uid", «namespace» := js "ns" }
      owners := references.map fun (apiVersion, kind) =>
        { apiVersion, kind, name := js "owner", uid := js "uid" } }

/-- Three versions, not in order and one of them twice. -/
theorem alternates_visit_versions :
    VisitsImplied (graphOf [(js "v2", js "Kind"), (js "v3", js "Kind"), (js "v1", js "Kind"), (js "v3", js "Kind")])
      [0] (js "uid") :=
  (alternates_visit_iff (by unfold Namespaced; decide)).mpr
    (keysDistinct_of_plain (by unfold ObjectReference.Plain; decide))

/-- Two references whose fields differ in where the `"\0"` stands: each is
taken for the other. -/
theorem alternates_skip :
    Namespaced (graphOf [([97, 0, 98], js "c"), (js "a", [98, 0, 99])]) [0]
      ∧ ¬ VisitsImplied (graphOf [([97, 0, 98], js "c"), (js "a", [98, 0, 99])]) [0] (js "uid") := by
  refine ⟨by unfold Namespaced; decide, fun h => ?_⟩
  have hfirst : impliedIdentity ((graphOf [([97, 0, 98], js "c"), (js "a", [98, 0, 99])]).heap 0)
      { apiVersion := js "a", kind := [98, 0, 99], name := js "owner", uid := js "uid" }
        ∈ impliedIdentities (graphOf [([97, 0, 98], js "c"), (js "a", [98, 0, 99])]) [0] (js "uid") := by
    decide
  have hsecond : impliedIdentity ((graphOf [([97, 0, 98], js "c"), (js "a", [98, 0, 99])]).heap 0)
      { apiVersion := [97, 0, 98], kind := js "c", name := js "owner", uid := js "uid" }
        ∈ impliedIdentities (graphOf [([97, 0, 98], js "c"), (js "a", [98, 0, 99])]) [0] (js "uid") := by
    decide
  have hnone := (h.undefined_iff _ hfirst).mp (by decide) _ hsecond
  revert hnone
  decide

end Webernetes.GarbageCollector
