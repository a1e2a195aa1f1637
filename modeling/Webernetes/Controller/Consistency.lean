/-
Webernetes.Controller.Consistency — the versions a controller wrote at,
and the check that its caches have read them.

For each owner there is a record: the uid it was made for and, for each
resource, the newest version written. `ensureReady` compares each of them
with the version the cache of the resource last stored, and drops the
record when none is newer. A cache that has no version yet is passed over.
-/
import Webernetes.Apimachinery.ResourceVersion
import Webernetes.Js.OrderedMap

namespace Webernetes.Controller

open Js Apimachinery

/-! ## Names -/

structure GroupResource where
  group : JsString
  resource : JsString
  deriving DecidableEq

def GroupResource.toString (gr : GroupResource) : JsString :=
  if gr.group.length = 0 then gr.resource else gr.resource ++ js "." ++ gr.group

/-- The dot. -/
def dot : CodeUnit := 46

/-- Cut at the first dot. -/
def parseGroupResource (gr : JsString) : GroupResource :=
  match gr.dropWhile (· != dot) with
  | [] => { group := [], resource := gr }
  | _ :: group => { group, resource := gr.takeWhile (· != dot) }

structure NamespacedName where
  «namespace» : JsString
  name : JsString
  deriving DecidableEq

def namespacedNameString (n : NamespacedName) : JsString := n.namespace ++ js "/" ++ n.name

/-! ## Records -/

structure OwnerRecord where
  ownerUID : JsString
  versions : JsMap JsString JsString := .empty

/-- The versions are of resources of this group. -/
structure ConsistencyError where
  readRV : JsString
  wroteRV : JsString
  groupResource : GroupResource
  deriving DecidableEq

def ConsistencyError.message (e : ConsistencyError) : JsString :=
  js "read version: " ++ e.readRV ++ js " is not as new as written version: " ++ e.wroteRV
    ++ js " for group resource " ++ e.groupResource.toString

namespace OwnerRecord

/-- A version that is there stays when it is no older. -/
def wroteAt (r : OwnerRecord) (resource : GroupResource) (rv : JsString) : OwnerRecord :=
  let key := resource.toString
  match r.versions.get key with
  | none => { r with versions := r.versions.set key rv }
  | some current =>
    match compareResourceVersion current rv with
    | .error _ => { r with versions := r.versions.set key rv }
    | .ok cmp => if cmp.isGE then r else { r with versions := r.versions.set key rv }

/-- One round of `ensureReady`; `lastStoreSync` answers the version of the
cache of a resource, where there is a cache. -/
def checkVersion (lastStoreSync : JsString → Option JsString) (gr wroteRV : JsString) :
    Option ConsistencyError :=
  let resource := parseGroupResource gr
  match lastStoreSync resource.toString with
  | none => none
  | some readRV =>
    if readRV = [] then none
    else
      match compareResourceVersion wroteRV readRV with
      | .error _ => none
      | .ok i => if i = .gt then some { readRV, wroteRV, groupResource := resource } else none

/-- The first version that has not been read. -/
def ensureReady (r : OwnerRecord) (lastStoreSync : JsString → Option JsString) :
    Option ConsistencyError :=
  r.versions.entries.findSome? fun entry => checkVersion lastStoreSync entry.1 entry.2

end OwnerRecord

/-! ## The store -/

structure RealConsistencyStore where
  writes : JsMap JsString OwnerRecord := .empty

namespace RealConsistencyStore

variable (c : RealConsistencyStore)

def getWrittenRecord (owner : NamespacedName) : Option OwnerRecord :=
  c.writes.get (namespacedNameString owner)

/-- The record of the uid; another uid's is replaced by an empty one. -/
def ensureWrittenRecord (owner : NamespacedName) (ownerUID : JsString) : OwnerRecord :=
  match c.getWrittenRecord owner with
  | some existing => if existing.ownerUID = ownerUID then existing else { ownerUID }
  | none => { ownerUID }

def wroteAt (owner : NamespacedName) (ownerUID : JsString) (resource : GroupResource)
    (rv : JsString) : RealConsistencyStore :=
  { c with
    writes := c.writes.set (namespacedNameString owner)
      ((c.ensureWrittenRecord owner ownerUID).wroteAt resource rv) }

def clear (owner : NamespacedName) (ownerUID : JsString) : RealConsistencyStore :=
  match c.getWrittenRecord owner with
  | some record =>
    if ownerUID.length = 0 ∨ record.ownerUID = ownerUID then
      { c with writes := c.writes.delete (namespacedNameString owner) }
    else c
  | none => c

def ensureReady (owner : NamespacedName) (lastStoreSync : JsString → Option JsString) :
    Option ConsistencyError × RealConsistencyStore :=
  match c.getWrittenRecord owner with
  | none => (none, c)
  | some record =>
    match record.ensureReady lastStoreSync with
    | none => (none, c.clear owner record.ownerUID)
    | some err => (some err, c)

end RealConsistencyStore

/-! ## Keys of resources -/

/-- A resource without a dot is printed and parsed back. -/
theorem parseGroupResource_toString {gr : GroupResource} (h : dot ∉ gr.resource) :
    parseGroupResource gr.toString = gr := by
  have hkeep : ∀ u ∈ gr.resource, (u != dot) = true := fun u hu => by
    simp only [bne_iff_ne, ne_eq]
    rintro rfl
    exact h hu
  obtain ⟨group, resource⟩ := gr
  by_cases hgroup : group.length = 0
  · obtain rfl := List.length_eq_zero_iff.mp hgroup
    have hdrop : resource.dropWhile (· != dot) = [] := by
      have hnil : (resource ++ []).dropWhile (· != dot) = [].dropWhile (· != dot) :=
        List.dropWhile_append_of_pos hkeep
      simpa using hnil
    simp only [GroupResource.toString, parseGroupResource, List.length_nil, if_pos, hdrop]
  · have htail : ∀ rest, (js "." ++ rest : JsString) = dot :: rest := fun _ => rfl
    have hdrop : (resource ++ js "." ++ group).dropWhile (· != dot) = dot :: group := by
      rw [List.append_assoc, List.dropWhile_append_of_pos hkeep, htail, List.dropWhile_cons_of_neg (by simp)]
    have htake : (resource ++ js "." ++ group).takeWhile (· != dot) = resource := by
      rw [List.append_assoc, List.takeWhile_append_of_pos hkeep, htail, List.takeWhile_cons_of_neg (by simp)]
      simp
    simp only [GroupResource.toString, parseGroupResource, if_neg hgroup, hdrop, htake]

end Webernetes.Controller
