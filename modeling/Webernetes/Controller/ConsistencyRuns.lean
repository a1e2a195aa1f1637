/-
Webernetes.Controller.ConsistencyRuns — the consistency store of the
ReplicaSet controller over whole runs.

A run interleaves the writes of everybody at the server, the initial lists
of pods and ReplicaSets, the delivery of later events to the two indexers,
and the calls of the consistency store: after a write of the controller
returned, when a ReplicaSet is deleted, and at the start of a sync. What is
delivered is in the order of the revisions.

Beside the code's state a run keeps, for each owner, the writes recorded
since the last clear, and for each indexer what it was given. The record of
an owner holds, for each resource, the newest write recorded since the uid
last changed (`Recorded`), and versions never go back. An indexer's version
is that of the last object it was given, which tells what it has processed
once an event was delivered. After the initial list alone it is the version
of the last object listed, or none: then a recorded write that was not
processed passes, or one that was processed does not (`stale_or_blocked`).
-/
import Webernetes.Base.Events
import Webernetes.ClientGo.Cache
import Webernetes.Controller.Consistency

namespace Webernetes.Controller

open Js Base Mvcc ClientGo Apimachinery

/-! ## Objects and their server -/

inductive Resource where
  | pods
  | replicaSets
  deriving DecidableEq

def podGroupResource : GroupResource := { group := [], resource := js "pods" }

def replicaSetGroupResource : GroupResource := { group := js "apps", resource := js "replicasets" }

def Resource.groupResource : Resource → GroupResource
  | .pods => podGroupResource
  | .replicaSets => replicaSetGroupResource

structure OwnerReference where
  name : Option JsString
  uid : Option JsString
  deriving DecidableEq

/-- What the controller reads of the metadata of a pod or a ReplicaSet. -/
structure ApiObject where
  «namespace» : Option JsString
  name : Option JsString
  uid : Option JsString := none
  resourceVersion : Option JsString := none
  controllerRef : Option OwnerReference := none
  deriving DecidableEq

def apiObjects : Objects ApiObject where
  truthy _ := true
  resourceVersion := ApiObject.resourceVersion

/-- `metaNamespaceKeyFunc`, of an object with metadata. -/
def metaNamespaceKey (obj : ApiObject) : JsString :=
  let ns := obj.namespace.getD []
  let name := obj.name.getD []
  if ns.length > 0 then ns ++ js "/" ++ name else name

/-- An object as the server returns it. -/
def versioned (obj : ApiObject) (revision : Nat) : ApiObject :=
  { obj with resourceVersion := some (decimal revision) }

abbrev ObjectWrite := Write JsString ApiObject

/-- The object a write stored, as its response has it. -/
def written (w : ObjectWrite) : Option ApiObject := w.value.map fun obj => versioned obj w.revision

/-! ## Indexers -/

/-- An initial list: its revision, and the objects in the order listed. -/
structure Listing where
  revision : Nat
  items : List (Entry ApiObject)

/-- An indexer, and what its informer has given it. -/
structure Informer where
  indexer : Cache ApiObject
  listing : Option Listing := none
  delivered : List ObjectWrite := []

namespace Informer

/-- The `add` handler for every object of the initial list. -/
def handleList (i : Informer) (listing : Listing) : Informer :=
  { i with
    indexer := listing.items.foldl (fun indexer e =>
      (indexer.add apiObjects (versioned e.value e.modRevision)).2) i.indexer
    listing := some listing }

/-- The handler of an event, given what was there before. -/
def handleEvent (i : Informer) (previous : Option (Entry ApiObject)) (w : ObjectWrite) : Informer :=
  { i with
    indexer :=
      match w.value, previous with
      | some obj, none => (i.indexer.add apiObjects (versioned obj w.revision)).2
      | some obj, some _ => (i.indexer.update apiObjects (versioned obj w.revision)).2
      | none, some old => (i.indexer.delete apiObjects (versioned old.value w.revision)).2
      | none, none => i.indexer
    delivered := i.delivered ++ [w] }

/-- The revision up to which the indexer has processed all there was. -/
def processed (i : Informer) : Option Nat :=
  match i.delivered.getLast? with
  | some w => some w.revision
  | none => i.listing.map (·.revision)

/-- The write at the revision has been processed. -/
def HasProcessed (i : Informer) (revision : Nat) : Prop :=
  ∃ upTo, i.processed = some upTo ∧ revision ≤ upTo

/-- The indexer's version tells whether the write at the revision has been
processed: an event was delivered, or the last object listed is as new as
the write, or the write is newer than the list. -/
def Tells (i : Informer) (revision : Nat) : Prop :=
  i.delivered ≠ [] ∨ ∃ listing last, i.listing = some listing ∧ listing.items.getLast? = some last
    ∧ (revision ≤ last.modRevision ∨ listing.revision < revision)

end Informer

/-! ## Recorded writes -/

/-- A write of the controller that was recorded. -/
structure Wrote where
  uid : JsString
  resource : Resource
  revision : Nat
  deriving DecidableEq

/-- The uid recorded last. -/
def lastUid (ws : List Wrote) : Option JsString := ws.getLast?.map (·.uid)

/-- The writes recorded for the uid recorded last. -/
def ofLastUid (ws : List Wrote) : List Wrote := ws.filter fun w => some w.uid = lastUid ws

/-- Those since the uid last changed. -/
def standing (ws : List Wrote) : List Wrote :=
  (ws.reverse.takeWhile fun w => some w.uid = lastUid ws).reverse

/-- The newest of them of a resource. -/
def newest (ws : List Wrote) (resource : Resource) : Option Nat :=
  (((standing ws).filter fun w => w.resource = resource).map (·.revision)).max?

/-! ## The controller -/

structure ReplicaSetController where
  log : Resource → List ObjectWrite := fun _ => []
  revision : Nat
  informer : Resource → Informer
  consistencyStore : RealConsistencyStore := {}
  /-- The writes recorded for an owner since the last clear. -/
  recorded : JsString → List Wrote := fun _ => []

inductive Label where
  /-- Anybody's write of an object at the server, the controller's or not. -/
  | put (resource : Resource) (obj : ApiObject)
  | remove (resource : Resource) (key : JsString)
  | list (resource : Resource) (items : List (Entry ApiObject))
  | deliver (resource : Resource)
  /-- A pod the controller created or patched was returned. -/
  | podWritten (w : ObjectWrite) (controllerRef : Option OwnerReference)
  /-- The status of a ReplicaSet was updated, or needed no update: either way
  what comes back is a ReplicaSet as the server stored it once. -/
  | statusUpdated (rs : ApiObject) (w : ObjectWrite)
  | deleteRS (rs : ApiObject)
  | syncReplicaSet (key : NamespacedName)

namespace ReplicaSetController

variable (s : ReplicaSetController)

/-- The version of the cache of a resource; the stores by their keys. -/
def lastStoreSync (key : JsString) : Option JsString :=
  if key = podGroupResource.toString then
    some (s.informer .pods).indexer.lastStoreSyncResourceVersion
  else if key = replicaSetGroupResource.toString then
    some (s.informer .replicaSets).indexer.lastStoreSyncResourceVersion
  else none

def setLog (resource : Resource) (log : List ObjectWrite) : ReplicaSetController :=
  { s with log := fun r => if r = resource then log else s.log r, revision := s.revision + 1 }

def setInformer (resource : Resource) (i : Informer) : ReplicaSetController :=
  { s with informer := fun r => if r = resource then i else s.informer r }

/-- `wroteAt`, and the write it records. -/
def wroteAt (owner : NamespacedName) (wrote : Wrote) (rv : JsString) : ReplicaSetController :=
  { s with
    consistencyStore := s.consistencyStore.wroteAt owner wrote.uid wrote.resource.groupResource rv
    recorded := fun key =>
      if key = namespacedNameString owner then s.recorded key ++ [wrote] else s.recorded key }

/-- The callback of the pod control. -/
def onWrite (pod : ApiObject) (revision : Nat) (controllerRef : Option OwnerReference) :
    ReplicaSetController :=
  match controllerRef with
  | none => s
  | some controllerRef =>
    s.wroteAt
      { «namespace» := pod.namespace.getD (js "default"), name := controllerRef.name.getD [] }
      { uid := controllerRef.uid.getD [], resource := .pods, revision }
      (pod.resourceVersion.getD [])

/-- The end of a sync of `rs`. -/
def statusUpdated (rs updatedRS : ApiObject) (revision : Nat) : ReplicaSetController :=
  s.wroteAt { «namespace» := rs.namespace.getD (js "default"), name := rs.name.getD [] }
    { uid := rs.uid.getD [], resource := .replicaSets, revision }
    (updatedRS.resourceVersion.getD [])

/-- `clear`, which forgets what was recorded for the uid. -/
def clear (owner : NamespacedName) (ownerUID : JsString) : ReplicaSetController :=
  { s with
    consistencyStore := s.consistencyStore.clear owner ownerUID
    recorded := fun key =>
      if key = namespacedNameString owner
          ∧ (ownerUID.length = 0 ∨ lastUid (s.recorded key) = some ownerUID) then []
      else s.recorded key }

def ensureReady (owner : NamespacedName) : Option ConsistencyError × ReplicaSetController :=
  let (err, consistencyStore) := s.consistencyStore.ensureReady owner s.lastStoreSync
  (err, { s with
    consistencyStore
    recorded := fun key =>
      if key = namespacedNameString owner ∧ err = none then [] else s.recorded key })

/-- `rsLister.replicaSets(namespace).get(name)`. -/
def getReplicaSet (key : NamespacedName) : Option ApiObject :=
  (s.informer .replicaSets).indexer.getByKey
    (if key.namespace.length > 0 then key.namespace ++ js "/" ++ key.name else key.name)

/-- The start of a sync. -/
def syncReplicaSet (key : NamespacedName) : ReplicaSetController :=
  let (err, s) := s.ensureReady key
  match err with
  | some _ => s
  | none =>
    match s.getReplicaSet key with
    | none => s.clear key []
    | some _ => s

/-- The objects of the list are those that are there. -/
def Lists (resource : Resource) (items : List (Entry ApiObject)) : Prop :=
  ∀ e, e ∈ items ↔ ∃ key, entry (s.log resource) key = some e

/-- One step. -/
inductive Step : ReplicaSetController → Label → ReplicaSetController → Prop where
  | put {s : ReplicaSetController} (resource : Resource) (obj : ApiObject) :
    Step s (.put resource obj) (s.setLog resource (s.log resource
      ++ [{ revision := s.revision + 1, key := metaNamespaceKey obj, value := some obj }]))
  | remove {s : ReplicaSetController} (resource : Resource) (key : JsString)
    (hpresent : (entry (s.log resource) key).isSome = true) :
    Step s (.remove resource key) (s.setLog resource (s.log resource
      ++ [{ revision := s.revision + 1, key, value := none }]))
  | list {s : ReplicaSetController} (resource : Resource) (items : List (Entry ApiObject))
    (hfirst : (s.informer resource).listing = none) (hitems : s.Lists resource items) :
    Step s (.list resource items) (s.setInformer resource
      ((s.informer resource).handleList { revision := s.revision, items }))
  | deliver {s : ReplicaSetController} (resource : Resource) (upTo : Nat) (w : ObjectWrite)
    (hprocessed : (s.informer resource).processed = some upTo)
    (hnext : nextEvent (s.log resource) upTo = some w) :
    Step s (.deliver resource) (s.setInformer resource
      ((s.informer resource).handleEvent (Mvcc.before (s.log resource) w) w))
  | podWritten {s : ReplicaSetController} (w : ObjectWrite) (pod : ApiObject)
    (controllerRef : Option OwnerReference) (hw : w ∈ s.log .pods) (hpod : written w = some pod) :
    Step s (.podWritten w controllerRef) (s.onWrite pod w.revision controllerRef)
  | statusUpdated {s : ReplicaSetController} (rs : ApiObject) (w : ObjectWrite)
    (updatedRS : ApiObject) (hw : w ∈ s.log .replicaSets) (hupdated : written w = some updatedRS) :
    Step s (.statusUpdated rs w) (s.statusUpdated rs updatedRS w.revision)
  | deleteRS {s : ReplicaSetController} (rs : ApiObject) :
    Step s (.deleteRS rs)
      (s.clear { «namespace» := rs.namespace.getD (js "default"), name := rs.name.getD [] }
        (rs.uid.getD []))
  | syncReplicaSet {s : ReplicaSetController} (key : NamespacedName) :
    Step s (.syncReplicaSet key) (s.syncReplicaSet key)

/-- An indexer as the controller makes it; its index functions do not fail. -/
def FreshInformer (i : Informer) : Prop :=
  ∃ indexers, NeverFails indexers ∧ i = { indexer := .newIndexer (fun obj => .ok (metaNamespaceKey obj)) indexers }

/-- A new controller beside a server at any revision. -/
def controllerRuns : System ReplicaSetController Label where
  init s := ∃ revision informer, (∀ resource, FreshInformer (informer resource))
    ∧ s = { revision, informer }
  step := Step

/-! ## What is claimed -/

/-- Every write recorded for the owner's last uid since the last clear has
been processed by the indexer of its resource. -/
def Processed (owner : NamespacedName) : Prop :=
  ∀ w ∈ ofLastUid (s.recorded (namespacedNameString owner)),
    (s.informer w.resource).HasProcessed w.revision

/-- No write of the owner's last uid is newer than what has been recorded
since the uid last changed, and each indexer's version tells whether the
newest has been processed. -/
def Tracked (owner : NamespacedName) : Prop :=
  ∀ w ∈ ofLastUid (s.recorded (namespacedNameString owner)),
    ∃ revision, newest (s.recorded (namespacedNameString owner)) w.resource = some revision
      ∧ w.revision ≤ revision ∧ (s.informer w.resource).Tells revision

/-- A version that was recorded is there with no smaller number while the
record is that of the same uid. -/
def NeverBackwards (s s' : ReplicaSetController) : Prop :=
  ∀ owner record record', s.consistencyStore.getWrittenRecord owner = some record →
    s'.consistencyStore.getWrittenRecord owner = some record' → record'.ownerUID = record.ownerUID →
    ∀ gr rv, record.versions.get gr = some rv →
      ∃ m n, rv = decimal m ∧ record'.versions.get gr = some (decimal n) ∧ m ≤ n

end ReplicaSetController

/-! ## Records and what was recorded -/

section Recorded

variable {ws : List Wrote} {w : Wrote} {record : OwnerRecord}

theorem lastUid_append (ws : List Wrote) (w : Wrote) : lastUid (ws ++ [w]) = some w.uid := by
  simp [lastUid]

/-- Another write for the uid. -/
theorem standing_append_of_eq (h : lastUid ws = some w.uid) : standing (ws ++ [w]) = standing ws ++ [w] := by
  simp [standing, lastUid_append, h]

/-- A write for another uid starts over. -/
theorem standing_append_of_ne (h : lastUid ws ≠ some w.uid) : standing (ws ++ [w]) = [w] := by
  have hnone : ws.reverse.takeWhile (fun a => decide (a.uid = w.uid)) = [] := by
    cases hws : ws.reverse with
    | nil => rfl
    | cons a rest =>
      have hlast : lastUid ws = some a.uid := by
        rw [lastUid, ← List.head?_reverse, hws]
        rfl
      rw [hlast] at h
      exact List.takeWhile_cons_of_neg (by simpa using h)
  simp [standing, lastUid_append, hnone]

/-- The larger of a number and one that may be there. -/
def raise (current : Option Nat) (revision : Nat) : Nat := current.elim revision (max · revision)

theorem newest_append_of_eq (h : lastUid ws = some w.uid) (resource : Resource) :
    newest (ws ++ [w]) resource
      = if w.resource = resource then some (raise (newest ws resource) w.revision)
        else newest ws resource := by
  have hmax : ∀ (revisions : List Nat) (r : Nat),
      (revisions ++ [r]).max? = some (raise revisions.max? r) := fun revisions r => by
    induction revisions with
    | nil => rfl
    | cons a revisions ih =>
      rw [List.cons_append, List.max?_cons, ih, List.max?_cons]
      cases hrest : revisions.max? with
      | none => rfl
      | some b => simp [raise, Nat.max_assoc]
  rw [newest, standing_append_of_eq h]
  by_cases hresource : w.resource = resource
  · simp [hresource, hmax, newest]
  · simp [hresource, newest]

theorem newest_append_of_ne (h : lastUid ws ≠ some w.uid) (resource : Resource) :
    newest (ws ++ [w]) resource = if w.resource = resource then some w.revision else none := by
  rw [newest, standing_append_of_ne h]
  by_cases hresource : w.resource = resource
  · simp [hresource]
  · simp [hresource]

/-- The newest write is one of those for the last uid. -/
theorem mem_of_newest {resource : Resource} {r : Nat} (h : newest ws resource = some r) :
    ∃ w ∈ ofLastUid ws, w.resource = resource ∧ w.revision = r := by
  obtain ⟨w, hw, rfl⟩ := List.mem_map.mp (List.max?_mem h)
  obtain ⟨hstanding, hresource⟩ := List.mem_filter.mp hw
  have hmem := List.mem_reverse.mp hstanding
  have huid : (decide (some w.uid = lastUid ws)) = true := List.all_eq_true.mp List.all_takeWhile w hmem
  refine ⟨w, List.mem_filter.mpr ⟨?_, huid⟩, by simpa using hresource, rfl⟩
  exact List.mem_reverse.mp ((List.takeWhile_sublist _).mem hmem)

theorem mem_of_mem_ofLastUid (h : w ∈ ofLastUid ws) : w ∈ ws := (List.mem_filter.mp h).1

/-- A record holds the newest version of each resource. -/
structure RecordFor (record : OwnerRecord) (ws : List Wrote) : Prop where
  uid : lastUid ws = some record.ownerUID
  versions : ∀ resource : Resource,
    record.versions.get resource.groupResource.toString = (newest ws resource).map decimal
  keys : ∀ gr rv, record.versions.get gr = some rv →
    ∃ resource : Resource, gr = resource.groupResource.toString

theorem groupResource_inj {a b : Resource} (h : a.groupResource.toString = b.groupResource.toString) :
    a = b := by
  revert h
  cases a <;> cases b <;> decide

/-- What `wroteAt` leaves of the versions: the larger number. -/
theorem versions_wroteAt {resource : Resource} {m : Option Nat} {r : Nat}
    (hcurrent : record.versions.get resource.groupResource.toString = m.map decimal)
    (hm : ∀ n ∈ m, 0 < n) (hr : 0 < r) (gr : JsString) :
    (record.wroteAt resource.groupResource (decimal r)).versions.get gr
      = if gr = resource.groupResource.toString then some (decimal (raise m r))
        else record.versions.get gr := by
  unfold OwnerRecord.wroteAt
  cases m with
  | none =>
    simp only [Option.map_none] at hcurrent
    simp only [hcurrent, JsMap.get_set, raise, Option.elim_none]
  | some m =>
    simp only [Option.map_some] at hcurrent
    simp only [hcurrent, compareResourceVersion_decimal (hm m rfl) hr, raise, Option.elim_some]
    split
    · rename_i hge
      rw [Nat.max_eq_left (Nat.isGE_compare.mp hge)]
      split
      · rename_i hgr
        rw [hgr, hcurrent]
      · rfl
    · rename_i hlt
      rw [JsMap.get_set, Nat.max_eq_right]
      exact Nat.le_of_lt (Nat.not_le.mp fun hle => hlt (Nat.isGE_compare.mpr hle))

theorem ownerUID_wroteAt (record : OwnerRecord) (resource : GroupResource) (rv : JsString) :
    (record.wroteAt resource rv).ownerUID = record.ownerUID := by
  unfold OwnerRecord.wroteAt
  dsimp only
  repeat' split
  all_goals rfl

/-- A write recorded for the uid the record is for. -/
theorem RecordFor.wroteAt (h : RecordFor record ws) (huid : record.ownerUID = w.uid)
    (hpos : ∀ a ∈ ws, 0 < a.revision) (hw : 0 < w.revision) :
    RecordFor (record.wroteAt w.resource.groupResource (decimal w.revision)) (ws ++ [w]) := by
  have hlast : lastUid ws = some w.uid := huid ▸ h.uid
  have hnewest : ∀ n ∈ newest ws w.resource, 0 < n := fun n hn => by
    obtain ⟨a, ha, -, rfl⟩ := mem_of_newest hn
    exact hpos a (mem_of_mem_ofLastUid ha)
  have hversions := versions_wroteAt (h.versions w.resource) hnewest hw
  constructor
  · rw [lastUid_append, ownerUID_wroteAt, huid]
  · intro resource
    rw [hversions, newest_append_of_eq hlast]
    by_cases hresource : w.resource = resource
    · rw [if_pos (by rw [hresource]), if_pos hresource, hresource]
      rfl
    · rw [if_neg fun heq => hresource (groupResource_inj heq).symm, if_neg hresource]
      exact h.versions resource
  · intro gr rv hgr
    rw [hversions] at hgr
    split at hgr
    · rename_i heq
      exact ⟨w.resource, heq⟩
    · exact h.keys gr rv hgr

/-- A write recorded for another uid, or the first one. -/
theorem RecordFor.start (h : lastUid ws ≠ some w.uid) (hw : 0 < w.revision) :
    RecordFor (OwnerRecord.wroteAt { ownerUID := w.uid } w.resource.groupResource (decimal w.revision))
      (ws ++ [w]) := by
  have hempty : OwnerRecord.versions { ownerUID := w.uid } = .empty := rfl
  have hcurrent : (OwnerRecord.versions { ownerUID := w.uid }).get w.resource.groupResource.toString
      = (none : Option Nat).map decimal := by rw [hempty]; rfl
  have hversions := versions_wroteAt hcurrent (by simp) hw
  constructor
  · rw [lastUid_append, ownerUID_wroteAt]
  · intro resource
    rw [hversions, newest_append_of_ne h]
    by_cases hresource : w.resource = resource
    · rw [if_pos (by rw [hresource]), if_pos hresource]
      rfl
    · rw [if_neg fun heq => hresource (groupResource_inj heq).symm, if_neg hresource]
      rfl
  · intro gr rv hgr
    rw [hversions] at hgr
    split at hgr
    · rename_i heq
      exact ⟨w.resource, heq⟩
    · cases hgr

/-- Every version of a record is the newest of a resource. -/
theorem RecordFor.newest_of_get (h : RecordFor record ws)
    {gr rv : JsString} (hget : record.versions.get gr = some rv) :
    ∃ resource m, gr = resource.groupResource.toString ∧ newest ws resource = some m
      ∧ rv = decimal m := by
  obtain ⟨resource, rfl⟩ := h.keys gr rv hget
  rw [h.versions, Option.map_eq_some_iff] at hget
  obtain ⟨m, hm, rfl⟩ := hget
  exact ⟨resource, m, rfl, hm, rfl⟩

end Recorded

/-! ## What an indexer's version is -/

namespace Informer

/-- The version of the last object the indexer was given. -/
def version (i : Informer) : JsString :=
  match i.delivered.getLast? with
  | some w => decimal w.revision
  | none =>
    match i.listing.bind (·.items.getLast?) with
    | some e => decimal e.modRevision
    | none => []

/-- What holds of an indexer and what it was given. -/
structure Kept (i : Informer) : Prop where
  keyFunc : i.indexer.keyFunc = fun obj => .ok (metaNamespaceKey obj)
  transformer : i.indexer.transformer = none
  holds : ∃ items, Holds apiObjects i.indexer.cacheStorage items i.version
  listed : ∀ listing, i.listing = some listing →
    ∀ e ∈ listing.items, 0 < e.modRevision ∧ e.modRevision ≤ listing.revision
  delivered : ∀ w ∈ i.delivered, 0 < w.revision
  unlisted : i.listing = none → i.delivered = []

variable {i : Informer}

theorem kept_of_fresh (h : ReplicaSetController.FreshInformer i) : i.Kept := by
  obtain ⟨indexers, hnever, rfl⟩ := h
  constructor
  · rfl
  · rfl
  · exact ⟨_, holds_new hnever⟩
  · intro listing hlisting
    cases hlisting
  · intro w hw
    cases hw
  · exact fun _ => rfl

/-- Adding objects one after the other leaves the version of the last. -/
theorem holds_addAll (listed : List (Entry ApiObject)) {indexer : Cache ApiObject}
    (hkey : indexer.keyFunc = fun obj => .ok (metaNamespaceKey obj))
    (htransformer : indexer.transformer = none) {items : JsString → Option ApiObject} {rv : JsString}
    (h : Holds apiObjects indexer.cacheStorage items rv) :
    ∃ m, listed.foldl (fun indexer e => (indexer.add apiObjects (versioned e.value e.modRevision)).2)
        indexer = { indexer with cacheStorage := m }
      ∧ ∃ items', Holds apiObjects m items' (listed.getLast?.elim rv fun e => decimal e.modRevision) := by
  induction listed generalizing indexer items rv with
  | nil => exact ⟨indexer.cacheStorage, rfl, items, h⟩
  | cons e listed ih =>
    have hfirstKey : indexer.keyFunc (versioned e.value e.modRevision)
        = .ok (metaNamespaceKey (versioned e.value e.modRevision)) := by rw [hkey]
    obtain ⟨m, hadd, hm⟩ := Cache.update_ok h hfirstKey htransformer
    have hfirst : (indexer.add apiObjects (versioned e.value e.modRevision)).2
        = { indexer with cacheStorage := m } := by
      rw [Cache.add_eq_update, hadd]
    have hnextKey : Cache.keyFunc { indexer with cacheStorage := m }
        = fun obj => .ok (metaNamespaceKey obj) := hkey
    obtain ⟨m', hm', items', hitems'⟩ := ih hnextKey htransformer hm
    refine ⟨m', by rw [List.foldl_cons, hfirst, hm'], items', ?_⟩
    rw [List.getLast?_cons]
    cases hlast : listed.getLast? with
    | none =>
      rw [hlast] at hitems'
      exact hitems'
    | some last =>
      rw [hlast] at hitems'
      exact hitems'

theorem Kept.handleList (h : i.Kept) (hfirst : i.listing = none) {listing : Listing}
    (hlisted : ∀ e ∈ listing.items, 0 < e.modRevision ∧ e.modRevision ≤ listing.revision) :
    (i.handleList listing).Kept := by
  obtain ⟨items, hitems⟩ := h.holds
  obtain ⟨m, hm, items', hitems'⟩ := holds_addAll listing.items h.keyFunc h.transformer hitems
  have hdelivered := h.unlisted hfirst
  have hversion : (i.handleList listing).version
      = listing.items.getLast?.elim i.version fun e => decimal e.modRevision := by
    have hempty : i.version = [] := by
      rw [Informer.version, hdelivered, hfirst]
      rfl
    rw [Informer.version, Informer.handleList, hdelivered, hempty]
    simp only [List.getLast?_nil, Option.bind_some]
    cases listing.items.getLast? <;> rfl
  constructor
  · simpa only [Informer.handleList, hm] using h.keyFunc
  · simpa only [Informer.handleList, hm] using h.transformer
  · rw [hversion]
    simp only [Informer.handleList, hm]
    exact ⟨items', hitems'⟩
  · intro listing' hlisting'
    obtain rfl := Option.some.inj hlisting'
    exact hlisted
  · exact h.delivered
  · intro hnone
    cases hnone

theorem Kept.handleEvent (h : i.Kept) (hlisted : i.listing ≠ none) {w : ObjectWrite}
    {previous : Option (Entry ApiObject)} (hw : 0 < w.revision)
    (hpresent : w.value = none → previous.isSome = true) : (i.handleEvent previous w).Kept := by
  obtain ⟨items, hitems⟩ := h.holds
  have hindexer : ∃ m, (i.handleEvent previous w).indexer = { i.indexer with cacheStorage := m }
      ∧ ∃ items', Holds apiObjects m items' (decimal w.revision) := by
    have hkey : ∀ obj, i.indexer.keyFunc obj = .ok (metaNamespaceKey obj) := fun obj => by
      rw [h.keyFunc]
    cases hvalue : w.value with
    | some obj =>
      obtain ⟨m, hm, hholds⟩ := Cache.update_ok hitems (hkey (versioned obj w.revision)) h.transformer
      refine ⟨m, ?_, _, hholds⟩
      cases previous with
      | none => simp only [Informer.handleEvent, hvalue, Cache.add_eq_update, hm]
      | some old => simp only [Informer.handleEvent, hvalue, hm]
    | none =>
      obtain ⟨old, rfl⟩ := Option.isSome_iff_exists.mp (hpresent hvalue)
      obtain ⟨m, hm, hholds⟩ := Cache.delete_ok hitems (hkey (versioned old.value w.revision))
        fun _ => rfl
      exact ⟨m, by simp only [Informer.handleEvent, hvalue, hm], _, hholds⟩
  obtain ⟨m, hm, items', hitems'⟩ := hindexer
  have hversion : (i.handleEvent previous w).version = decimal w.revision := by
    simp [Informer.version, Informer.handleEvent]
  constructor
  · rw [hm]
    exact h.keyFunc
  · rw [hm]
    exact h.transformer
  · rw [hversion, hm]
    exact ⟨items', hitems'⟩
  · exact h.listed
  · intro a ha
    obtain ha | ha := List.mem_append.mp ha
    · exact h.delivered a ha
    · obtain rfl := List.mem_singleton.mp ha
      exact hw
  · exact fun hnone => absurd hnone hlisted

/-- The version an indexer answers. -/
theorem Kept.lastStoreSync (h : i.Kept) : i.indexer.lastStoreSyncResourceVersion = i.version := by
  obtain ⟨items, hitems⟩ := h.holds
  exact hitems.rv

/-- The check of one version, where the indexer's version tells. -/
theorem Kept.checkVersion_iff (h : i.Kept) {resource : Resource} {r : Nat} (hr : 0 < r)
    (htells : i.Tells r) {lastStoreSync : JsString → Option JsString}
    (hsync : lastStoreSync resource.groupResource.toString = some i.version) :
    OwnerRecord.checkVersion lastStoreSync resource.groupResource.toString (decimal r) = none
      ↔ i.HasProcessed r := by
  have hparse : parseGroupResource resource.groupResource.toString = resource.groupResource :=
    parseGroupResource_toString (by cases resource <;> decide)
  have hcheck : ∀ n, 0 < n → i.version = decimal n →
      (OwnerRecord.checkVersion lastStoreSync resource.groupResource.toString (decimal r) = none
        ↔ r ≤ n) := fun n hn hversion => by
    simp only [OwnerRecord.checkVersion, hparse, hsync, hversion, if_neg (decimal_ne_nil n),
      compareResourceVersion_decimal hr hn]
    by_cases hle : r ≤ n
    · simp [Nat.compare_eq_gt, Nat.not_lt.mpr hle, hle]
    · simp [Nat.compare_eq_gt, Nat.not_le.mp hle, hle]
  cases hlast : i.delivered.getLast? with
  | some w =>
    have hw := h.delivered w (List.mem_of_getLast? hlast)
    have hprocessed : i.processed = some w.revision := by
      simp only [Informer.processed, hlast]
    rw [hcheck w.revision hw (by simp only [Informer.version, hlast]), HasProcessed, hprocessed]
    simp
  | none =>
    have hempty : i.delivered = [] := List.getLast?_eq_none_iff.mp hlast
    obtain hne | ⟨listing, last, hlisting, hitem, htells⟩ := htells
    · exact absurd hempty hne
    · obtain ⟨hpos, hle⟩ := h.listed listing hlisting last (List.mem_of_getLast? hitem)
      have hversion : i.version = decimal last.modRevision := by
        simp only [Informer.version, hlast, hlisting, Option.bind_some, hitem]
      have hprocessed : i.processed = some listing.revision := by
        simp only [Informer.processed, hlast, hlisting, Option.map_some]
      rw [hcheck last.modRevision hpos hversion, HasProcessed, hprocessed]
      simp only [Option.some.injEq, exists_eq_left']
      omega

end Informer

/-! ## Runs -/

namespace ReplicaSetController

/-- The invariant. -/
structure Kept (s : ReplicaSetController) : Prop where
  logged : ∀ resource, Logged (s.log resource) s.revision
  informers : ∀ resource, (s.informer resource).Kept
  positive : ∀ key, ∀ w ∈ s.recorded key, 0 < w.revision
  records : ∀ key, (s.consistencyStore.writes.get key = none ∧ s.recorded key = [])
    ∨ ∃ record, s.consistencyStore.writes.get key = some record ∧ RecordFor record (s.recorded key)

variable {s : ReplicaSetController}

theorem Kept.setLog (h : s.Kept) {resource : Resource} {log : List ObjectWrite}
    (hlog : Logged log (s.revision + 1)) : (s.setLog resource log).Kept := by
  constructor
  · intro r
    simp only [ReplicaSetController.setLog]
    split
    · exact hlog
    · exact (h.logged r).mono (Nat.le_succ _)
  · exact h.informers
  · exact h.positive
  · exact h.records

theorem Kept.setInformer (h : s.Kept) {resource : Resource} {i : Informer} (hi : i.Kept) :
    (s.setInformer resource i).Kept := by
  constructor
  · exact h.logged
  · intro r
    simp only [ReplicaSetController.setInformer]
    split
    · exact hi
    · exact h.informers r
  · exact h.positive
  · exact h.records

theorem Kept.wroteAt (h : s.Kept) (owner : NamespacedName) {wrote : Wrote} (hpos : 0 < wrote.revision) :
    (s.wroteAt owner wrote (decimal wrote.revision)).Kept := by
  constructor
  · exact h.logged
  · exact h.informers
  · intro key w hw
    simp only [ReplicaSetController.wroteAt] at hw
    split at hw
    · obtain hw | hw := List.mem_append.mp hw
      · exact h.positive key w hw
      · obtain rfl := List.mem_singleton.mp hw
        exact hpos
    · exact h.positive key w hw
  · intro key
    simp only [ReplicaSetController.wroteAt, RealConsistencyStore.wroteAt, JsMap.get_set]
    by_cases hkey : key = namespacedNameString owner
    · subst hkey
      simp only [if_pos]
      refine .inr ⟨_, rfl, ?_⟩
      obtain ⟨hnone, hempty⟩ | ⟨record, hrecord, hfor⟩ := h.records (namespacedNameString owner)
      · simp only [RealConsistencyStore.ensureWrittenRecord, RealConsistencyStore.getWrittenRecord, hnone]
        exact RecordFor.start (by simp [hempty, lastUid]) hpos
      · simp only [RealConsistencyStore.ensureWrittenRecord, RealConsistencyStore.getWrittenRecord,
          hrecord]
        split
        · rename_i huid
          exact hfor.wroteAt huid (h.positive _) hpos
        · rename_i huid
          refine RecordFor.start (fun hlast => huid ?_) hpos
          rw [hfor.uid] at hlast
          exact Option.some.inj hlast
    · simp only [if_neg hkey]
      exact h.records key

/-- What is forgotten is forgotten on both sides. -/
theorem Kept.forget (h : s.Kept) {writes : JsMap JsString OwnerRecord} {recorded : JsString → List Wrote}
    (hboth : ∀ key, writes.get key = none ∧ recorded key = []
      ∨ writes.get key = s.consistencyStore.writes.get key ∧ recorded key = s.recorded key) :
    Kept { s with consistencyStore := { writes }, recorded } := by
  constructor
  · exact h.logged
  · exact h.informers
  · intro key w hw
    have hw : w ∈ recorded key := hw
    obtain ⟨-, hempty⟩ | ⟨-, hsame⟩ := hboth key
    · rw [hempty] at hw
      cases hw
    · rw [hsame] at hw
      exact h.positive key w hw
  · intro key
    obtain hnone | ⟨hwrites, hsame⟩ := hboth key
    · exact .inl hnone
    · simp only [hwrites, hsame]
      exact h.records key

theorem Kept.clear (h : s.Kept) (owner : NamespacedName) (ownerUID : JsString) :
    (s.clear owner ownerUID).Kept := by
  refine h.forget fun key => ?_
  obtain ⟨hnone, hempty⟩ | ⟨record, hrecord, hfor⟩ := h.records (namespacedNameString owner)
  · simp only [RealConsistencyStore.getWrittenRecord, hnone]
    by_cases hkey : key = namespacedNameString owner
    · subst hkey
      exact .inl ⟨hnone, by simp [hempty]⟩
    · exact .inr ⟨trivial, by simp [hkey]⟩
  · simp only [RealConsistencyStore.getWrittenRecord, hrecord]
    by_cases hkey : key = namespacedNameString owner
    · subst hkey
      by_cases hclear : ownerUID.length = 0 ∨ record.ownerUID = ownerUID
      · rw [if_pos hclear, if_pos ⟨rfl, by simpa [hfor.uid] using hclear⟩]
        exact .inl ⟨by simp [JsMap.get_delete], rfl⟩
      · rw [if_neg hclear, if_neg fun hboth => hclear (by simpa [hfor.uid] using hboth.2)]
        exact .inr ⟨rfl, rfl⟩
    · refine .inr ⟨?_, if_neg fun hboth => hkey hboth.1⟩
      split
      · simp [JsMap.get_delete, hkey]
      · rfl

/-- A check that finds nothing drops the record. -/
theorem Kept.ensureReady (h : s.Kept) (owner : NamespacedName) : (s.ensureReady owner).2.Kept := by
  refine h.forget fun key => ?_
  obtain ⟨hnone, hempty⟩ | ⟨record, hrecord, hfor⟩ := h.records (namespacedNameString owner)
  · simp only [RealConsistencyStore.getWrittenRecord, hnone]
    by_cases hkey : key = namespacedNameString owner
    · subst hkey
      exact .inl ⟨hnone, by simp⟩
    · exact .inr ⟨trivial, by simp [hkey]⟩
  · simp only [RealConsistencyStore.getWrittenRecord, hrecord]
    cases hcheck : record.ensureReady s.lastStoreSync with
    | some err => exact .inr ⟨rfl, by simp⟩
    | none =>
      simp only [RealConsistencyStore.clear, RealConsistencyStore.getWrittenRecord, hrecord, or_true,
        if_true, JsMap.get_delete]
      by_cases hkey : key = namespacedNameString owner
      · exact .inl ⟨by simp [hkey], by simp [hkey]⟩
      · exact .inr ⟨by simp [hkey], by simp [hkey]⟩

/-- The version of the object a write stored. -/
theorem resourceVersion_of_written {w : ObjectWrite} {obj : ApiObject} (h : written w = some obj) :
    obj.resourceVersion = some (decimal w.revision) := by
  obtain ⟨value, -, rfl⟩ := Option.map_eq_some_iff.mp h
  rfl

theorem Kept.syncReplicaSet (h : s.Kept) (key : NamespacedName) : (s.syncReplicaSet key).Kept := by
  unfold ReplicaSetController.syncReplicaSet
  dsimp only
  split
  · exact h.ensureReady key
  · split
    · exact (h.ensureReady key).clear key []
    · exact h.ensureReady key

theorem Kept.step (h : s.Kept) {l : Label} {s' : ReplicaSetController} (hs : Step s l s') : s'.Kept := by
  cases hs with
  | put resource obj => exact h.setLog ((h.logged resource).write _ _ (fun hnone => by cases hnone))
  | remove resource key hpresent => exact h.setLog ((h.logged resource).write _ _ fun _ => hpresent)
  | list resource items hfirst hitems =>
    refine h.setInformer ((h.informers resource).handleList hfirst fun e he => ?_)
    obtain ⟨key, hentry⟩ := (hitems e).mp he
    obtain ⟨w, hw, -, hrevision, -⟩ := entry_mem hentry
    exact hrevision ▸ ⟨(h.logged resource).positive w hw, (h.logged resource).bounded w hw⟩
  | deliver resource upTo w hprocessed hnext =>
    have hw := mem_of_next hnext
    refine h.setInformer ((h.informers resource).handleEvent ?_ ((h.logged resource).positive w hw)
      ((h.logged resource).present w hw))
    intro hnone
    simp [Informer.processed, (h.informers resource).unlisted hnone, hnone] at hprocessed
  | podWritten w pod controllerRef hw hpod =>
    cases controllerRef with
    | none => exact h
    | some controllerRef =>
      simp only [onWrite, resourceVersion_of_written hpod, Option.getD_some]
      exact h.wroteAt _ ((h.logged .pods).positive w hw)
  | statusUpdated rs w updatedRS hw hupdated =>
    simp only [ReplicaSetController.statusUpdated, resourceVersion_of_written hupdated, Option.getD_some]
    exact h.wroteAt _ ((h.logged .replicaSets).positive w hw)
  | deleteRS rs => exact h.clear _ _
  | syncReplicaSet key => exact h.syncReplicaSet key

theorem kept_of_reach (h : controllerRuns.Reach s) : s.Kept := by
  refine h.invariant (P := Kept) ?_ fun _ _ _ _ hs hstep => hs.step hstep
  rintro s ⟨revision, informer, hfresh, rfl⟩
  constructor
  · exact fun _ => logged_nil revision
  · exact fun resource => Informer.kept_of_fresh (hfresh resource)
  · intro key w hw
    cases hw
  · exact fun key => .inl ⟨rfl, rfl⟩

/-! ## Versions do not go back -/

theorem Kept.recordFor (h : s.Kept) {owner : NamespacedName} {record : OwnerRecord}
    (hrecord : s.consistencyStore.getWrittenRecord owner = some record) :
    RecordFor record (s.recorded (namespacedNameString owner)) := by
  obtain ⟨hnone, -⟩ | ⟨record', hrecord', hfor⟩ := h.records (namespacedNameString owner)
  · rw [RealConsistencyStore.getWrittenRecord, hnone] at hrecord
    cases hrecord
  · rw [RealConsistencyStore.getWrittenRecord, hrecord'] at hrecord
    cases hrecord
    exact hfor

/-- A step that only drops records. -/
theorem Kept.neverBackwards_of_drops (h : s.Kept) {s' : ReplicaSetController}
    (hdrops : ∀ key, s'.consistencyStore.writes.get key = none
      ∨ s'.consistencyStore.writes.get key = s.consistencyStore.writes.get key) :
    NeverBackwards s s' := by
  intro owner record record' hrecord hrecord' _ gr rv hget
  obtain ⟨-, m, -, -, rfl⟩ := (h.recordFor hrecord).newest_of_get hget
  obtain hnone | hsame := hdrops (namespacedNameString owner)
  · rw [RealConsistencyStore.getWrittenRecord, hnone] at hrecord'
    cases hrecord'
  · rw [RealConsistencyStore.getWrittenRecord, hsame] at hrecord'
    rw [RealConsistencyStore.getWrittenRecord, hrecord'] at hrecord
    cases hrecord
    exact ⟨m, m, rfl, hget, Nat.le_refl m⟩

theorem Kept.neverBackwards_wroteAt (h : s.Kept) (written : NamespacedName) {wrote : Wrote}
    (hpos : 0 < wrote.revision) :
    NeverBackwards s (s.wroteAt written wrote (decimal wrote.revision)) := by
  intro owner record record' hrecord hrecord' huid gr rv hget
  have hfor := h.recordFor hrecord
  obtain ⟨resource, m, hgr, hm, rfl⟩ := hfor.newest_of_get hget
  simp only [ReplicaSetController.wroteAt, RealConsistencyStore.getWrittenRecord,
    RealConsistencyStore.wroteAt, JsMap.get_set] at hrecord'
  split at hrecord'
  · rename_i hkey
    have hwritten : s.consistencyStore.getWrittenRecord written = some record := by
      rw [RealConsistencyStore.getWrittenRecord, ← hkey]
      exact hrecord
    cases hrecord'
    have hsame : record.ownerUID = wrote.uid := by
      rw [ownerUID_wroteAt, RealConsistencyStore.ensureWrittenRecord, hwritten] at huid
      dsimp only at huid
      split at huid
      · rename_i hsame
        exact hsame
      · exact huid.symm
    have hensure : s.consistencyStore.ensureWrittenRecord written wrote.uid = record := by
      simp only [RealConsistencyStore.ensureWrittenRecord, hwritten, if_pos hsame]
    have hnewest : ∀ n ∈ newest (s.recorded (namespacedNameString owner)) wrote.resource, 0 < n := by
      intro n hn
      obtain ⟨a, ha, -, rfl⟩ := mem_of_newest hn
      exact h.positive _ a (mem_of_mem_ofLastUid ha)
    rw [hensure, versions_wroteAt (hfor.versions wrote.resource) hnewest hpos]
    split
    · rename_i heq
      obtain rfl : resource = wrote.resource := groupResource_inj (hgr ▸ heq)
      refine ⟨m, _, rfl, rfl, ?_⟩
      rw [hm]
      exact Nat.le_max_left m wrote.revision
    · exact ⟨m, m, rfl, hget, Nat.le_refl m⟩
  · rw [RealConsistencyStore.getWrittenRecord] at hrecord
    rw [hrecord] at hrecord'
    cases hrecord'
    exact ⟨m, m, rfl, hget, Nat.le_refl m⟩

theorem clear_drops (c : RealConsistencyStore) (owner : NamespacedName) (ownerUID key : JsString) :
    (c.clear owner ownerUID).writes.get key = none
      ∨ (c.clear owner ownerUID).writes.get key = c.writes.get key := by
  unfold RealConsistencyStore.clear
  split
  · split
    · by_cases hkey : key = namespacedNameString owner
      · exact .inl (by simp [JsMap.get_delete, hkey])
      · exact .inr (by simp [JsMap.get_delete, hkey])
    · exact .inr rfl
  · exact .inr rfl

theorem ensureReady_drops (c : RealConsistencyStore) (owner : NamespacedName)
    (lastStoreSync : JsString → Option JsString) (key : JsString) :
    (c.ensureReady owner lastStoreSync).2.writes.get key = none
      ∨ (c.ensureReady owner lastStoreSync).2.writes.get key = c.writes.get key := by
  unfold RealConsistencyStore.ensureReady
  split
  · exact .inr rfl
  · split
    · exact clear_drops c owner _ key
    · exact .inr rfl

theorem syncReplicaSet_drops (s : ReplicaSetController) (name : NamespacedName) (key : JsString) :
    (s.syncReplicaSet name).consistencyStore.writes.get key = none
      ∨ (s.syncReplicaSet name).consistencyStore.writes.get key
        = s.consistencyStore.writes.get key := by
  have hready := ensureReady_drops s.consistencyStore name s.lastStoreSync key
  unfold ReplicaSetController.syncReplicaSet
  dsimp only
  split
  · exact hready
  · split
    · obtain hnone | hsame := clear_drops (s.ensureReady name).2.consistencyStore name [] key
      · exact .inl hnone
      · obtain hnone | hready := hready
        · exact .inl (hsame.trans hnone)
        · exact .inr (hsame.trans hready)
    · exact hready

theorem Kept.neverBackwards (h : s.Kept) {l : Label} {s' : ReplicaSetController} (hs : Step s l s') :
    NeverBackwards s s' := by
  cases hs with
  | put resource obj => exact h.neverBackwards_of_drops fun _ => .inr rfl
  | remove resource key hpresent => exact h.neverBackwards_of_drops fun _ => .inr rfl
  | list resource items hfirst hitems => exact h.neverBackwards_of_drops fun _ => .inr rfl
  | deliver resource upTo w hprocessed hnext => exact h.neverBackwards_of_drops fun _ => .inr rfl
  | podWritten w pod controllerRef hw hpod =>
    cases controllerRef with
    | none => exact h.neverBackwards_of_drops fun _ => .inr rfl
    | some controllerRef =>
      simp only [onWrite, resourceVersion_of_written hpod, Option.getD_some]
      exact h.neverBackwards_wroteAt _ ((h.logged .pods).positive w hw)
  | statusUpdated rs w updatedRS hw hupdated =>
    simp only [ReplicaSetController.statusUpdated, resourceVersion_of_written hupdated, Option.getD_some]
    exact h.neverBackwards_wroteAt _ ((h.logged .replicaSets).positive w hw)
  | deleteRS rs => exact h.neverBackwards_of_drops fun key => clear_drops _ _ _ key
  | syncReplicaSet key => exact h.neverBackwards_of_drops fun k => syncReplicaSet_drops s key k

/-! ## Ready and processed -/

/-- The check passes when each resource's newest version does. -/
theorem ensureReady_eq_none_iff {record : OwnerRecord} {ws : List Wrote} (h : RecordFor record ws)
    (lastStoreSync : JsString → Option JsString) :
    record.ensureReady lastStoreSync = none ↔ ∀ resource m, newest ws resource = some m →
      OwnerRecord.checkVersion lastStoreSync resource.groupResource.toString (decimal m) = none := by
  rw [OwnerRecord.ensureReady, List.findSome?_eq_none_iff]
  constructor
  · intro hall resource m hm
    have hget := h.versions resource
    rw [hm, Option.map_some] at hget
    exact hall _ (JsMap.get_eq_some_iff.mp hget)
  · rintro hall ⟨gr, rv⟩ hentry
    obtain ⟨resource, m, rfl, hm, rfl⟩ := h.newest_of_get (JsMap.get_eq_some_iff.mpr hentry)
    exact hall resource m hm

/-- The stores are found by the keys of their resources. -/
theorem Kept.lastStoreSync (h : s.Kept) (resource : Resource) :
    s.lastStoreSync resource.groupResource.toString = some (s.informer resource).version := by
  have hpods : podGroupResource.toString ≠ replicaSetGroupResource.toString := by decide
  cases resource with
  | pods =>
    simp only [ReplicaSetController.lastStoreSync, Resource.groupResource, if_pos,
      (h.informers .pods).lastStoreSync]
  | replicaSets =>
    simp only [ReplicaSetController.lastStoreSync, Resource.groupResource, if_neg hpods.symm, if_pos,
      (h.informers .replicaSets).lastStoreSync]

theorem Kept.ready_iff (h : s.Kept) {owner : NamespacedName} (htracked : s.Tracked owner) :
    (s.ensureReady owner).1 = none ↔ s.Processed owner := by
  show (s.consistencyStore.ensureReady owner s.lastStoreSync).1 = none ↔ _
  obtain ⟨hnone, hempty⟩ | ⟨record, hrecord, hfor⟩ := h.records (namespacedNameString owner)
  · simp [RealConsistencyStore.ensureReady, RealConsistencyStore.getWrittenRecord, hnone, Processed,
      hempty, ofLastUid]
  · have hready : (s.consistencyStore.ensureReady owner s.lastStoreSync).1 = none
        ↔ record.ensureReady s.lastStoreSync = none := by
      simp only [RealConsistencyStore.ensureReady, RealConsistencyStore.getWrittenRecord, hrecord]
      split
      · rename_i hcheck
        simp [hcheck]
      · rename_i err hcheck
        simp [hcheck]
    have hcheck : ∀ resource m, newest (s.recorded (namespacedNameString owner)) resource = some m →
        (OwnerRecord.checkVersion s.lastStoreSync resource.groupResource.toString (decimal m) = none
          ↔ (s.informer resource).HasProcessed m) := fun resource m hm => by
      obtain ⟨w, hw, rfl, rfl⟩ := mem_of_newest hm
      obtain ⟨m, hm', -, htells⟩ := htracked w hw
      rw [hm] at hm'
      cases hm'
      exact (h.informers w.resource).checkVersion_iff (h.positive _ w (mem_of_mem_ofLastUid hw)) htells
        (h.lastStoreSync w.resource)
    rw [hready, ensureReady_eq_none_iff hfor]
    constructor
    · intro hall w hw
      obtain ⟨m, hm, hle, -⟩ := htracked w hw
      obtain ⟨upTo, hupTo, hupTo'⟩ := (hcheck w.resource m hm).mp (hall w.resource m hm)
      exact ⟨upTo, hupTo, Nat.le_trans hle hupTo'⟩
    · intro hprocessed resource m hm
      obtain ⟨w, hw, rfl, rfl⟩ := mem_of_newest hm
      exact (hcheck w.resource w.revision hm).mpr (hprocessed w hw)

/-- In every state of every run: where the indexers' versions tell and the
record holds all, a sync goes on exactly when the caches have processed all
the writes recorded for its owner; and no step takes a version back. -/
theorem ready_iff_processed_of_reach (h : controllerRuns.Reach s) {owner : NamespacedName}
    (htracked : s.Tracked owner) :
    ((s.ensureReady owner).1 = none ↔ s.Processed owner)
      ∧ ∀ l s', controllerRuns.step s l s' → NeverBackwards s s' :=
  ⟨(kept_of_reach h).ready_iff htracked, fun _ _ hstep => (kept_of_reach h).neverBackwards hstep⟩

/-! ## Runs that show it -/

instance (i : Informer) (revision : Nat) : Decidable (i.HasProcessed revision) :=
  decidable_of_iff (i.processed.any (revision ≤ ·) = true) (by
    simp [Informer.HasProcessed, Option.any_eq_true_iff_get, Option.eq_some_iff_get_eq])

instance (s : ReplicaSetController) (owner : NamespacedName) : Decidable (s.Processed owner) :=
  inferInstanceAs (Decidable (∀ w ∈ ofLastUid (s.recorded (namespacedNameString owner)),
    (s.informer w.resource).HasProcessed w.revision))

def newController : ReplicaSetController where
  revision := 0
  informer _ := { indexer := .newIndexer (fun obj => .ok (metaNamespaceKey obj)) .empty }

theorem reach_newController : controllerRuns.Reach newController := by
  refine .start ⟨0, _, fun _ => ⟨.empty, ?_, rfl⟩, rfl⟩
  intro name indexFunc hget
  cases hget

def object (name : String) : ApiObject :=
  { «namespace» := some (js "default"), name := some (js name), uid := some (js name) }

def ownerNamed (name : String) : NamespacedName := { «namespace» := js "default", name := js name }

/-- A write of the object. -/
def writeOf (revision : Nat) (name : String) : ObjectWrite :=
  { revision, key := metaNamespaceKey (object name), value := some (object name) }

/-- The ReplicaSets `b` and then `a` are made. -/
def twoReplicaSets : ReplicaSetController :=
  (newController.setLog .replicaSets [writeOf 1 "b"]).setLog .replicaSets [writeOf 1 "b", writeOf 2 "a"]

theorem reach_twoReplicaSets : controllerRuns.Reach twoReplicaSets :=
  (reach_newController.step (Step.put .replicaSets (object "b"))).step (Step.put .replicaSets (object "a"))

/-- What is there, by name. -/
def twoItems : List (Entry ApiObject) :=
  [{ value := object "a", createRevision := 2, modRevision := 2, version := 1 },
    { value := object "b", createRevision := 1, modRevision := 1, version := 1 }]

theorem lists_twoReplicaSets : twoReplicaSets.Lists .replicaSets twoItems := by
  have hlog : twoReplicaSets.log .replicaSets = [] ++ [writeOf 1 "b"] ++ [writeOf 2 "a"] := rfl
  have hne : (writeOf 1 "b").key ≠ (writeOf 2 "a").key := by decide
  intro e
  rw [hlog]
  constructor
  · intro he
    obtain rfl | he := List.mem_cons.mp he
    · exact ⟨(writeOf 2 "a").key, by
        rw [entry_append_singleton, if_pos rfl, entry_append_singleton, if_neg hne]
        rfl⟩
    · obtain rfl := List.mem_singleton.mp he
      exact ⟨(writeOf 1 "b").key, by
        rw [entry_append_singleton, if_neg hne.symm, entry_append_singleton, if_pos rfl]
        rfl⟩
  · rintro ⟨key, hentry⟩
    rw [entry_append_singleton, entry_append_singleton] at hentry
    split at hentry
    · rename_i hkey
      rw [if_neg fun hkey' => hne (hkey'.trans hkey.symm)] at hentry
      cases hentry
      exact List.mem_cons_self
    · split at hentry
      · cases hentry
        exact List.mem_cons_of_mem _ List.mem_cons_self
      · cases hentry

/-- The controller lists them, and finds that the status of `a` is up to
date. -/
def blockedController : ReplicaSetController :=
  (twoReplicaSets.setInformer .replicaSets
      ((twoReplicaSets.informer .replicaSets).handleList { revision := 2, items := twoItems })).statusUpdated
    (object "a") (versioned (object "a") 2) 2

theorem reach_blockedController : controllerRuns.Reach blockedController :=
  (reach_twoReplicaSets.step (Step.list .replicaSets twoItems rfl lists_twoReplicaSets)).step
    (Step.statusUpdated (object "a") (writeOf 2 "a") _
      (show writeOf 2 "a" ∈ [writeOf 1 "b", writeOf 2 "a"] from by simp) rfl)

/-- The controller lists that there are no pods, creates one, and is told. -/
def staleController : ReplicaSetController :=
  ((newController.setInformer .pods
      ((newController.informer .pods).handleList { revision := 0, items := [] })).setLog
    .pods [writeOf 1 "p"]).onWrite (versioned (object "p") 1) 1
      (some { name := some (js "a"), uid := some (js "a") })

theorem reach_staleController : controllerRuns.Reach staleController := by
  have hlists : newController.Lists .pods [] := fun e => by simp [newController]
  exact ((reach_newController.step (Step.list .pods [] rfl hlists)).step (Step.put .pods (object "p"))).step
    (Step.podWritten (writeOf 1 "p") _ (some { name := some (js "a"), uid := some (js "a") })
      (show writeOf 1 "p" ∈ [writeOf 1 "p"] from List.mem_singleton_self _) rfl)

/-- After an empty list the check passes though the pod was not processed;
after a list that does not end with the newest object it fails though the
ReplicaSet was. -/
theorem stale_and_blocked :
    (∃ s owner, controllerRuns.Reach s ∧ (s.ensureReady owner).1 = none ∧ ¬ s.Processed owner)
      ∧ ∃ s owner, controllerRuns.Reach s ∧ (s.ensureReady owner).1 ≠ none ∧ s.Processed owner :=
  ⟨⟨staleController, ownerNamed "a", reach_staleController, by decide +kernel, by decide +kernel⟩,
    ⟨blockedController, ownerNamed "a", reach_blockedController, by decide +kernel, by decide +kernel⟩⟩

/-- Once the pod is delivered the indexer's version tells. -/
def deliveredController : ReplicaSetController :=
  staleController.setInformer .pods
    ((staleController.informer .pods).handleEvent none (writeOf 1 "p"))

theorem reach_deliveredController : controllerRuns.Reach deliveredController := by
  have hnext : nextEvent (staleController.log .pods) 0 = some (writeOf 1 "p") := rfl
  exact reach_staleController.step (Step.deliver .pods 0 (writeOf 1 "p") rfl hnext)

theorem ready_iff_processed_delivered :
    deliveredController.Tracked (ownerNamed "a") ∧ ((deliveredController.ensureReady (ownerNamed "a")).1
      = none ↔ deliveredController.Processed (ownerNamed "a")) := by
  have htracked : deliveredController.Tracked (ownerNamed "a") := by
    intro w hw
    have hw : w ∈ [{ uid := js "a", resource := .pods, revision := 1 }] := hw
    obtain rfl := List.mem_singleton.mp hw
    exact ⟨1, by decide, Nat.le_refl 1, .inl (by decide)⟩
  exact ⟨htracked, (ready_iff_processed_of_reach reach_deliveredController htracked).1⟩

end ReplicaSetController

end Webernetes.Controller
