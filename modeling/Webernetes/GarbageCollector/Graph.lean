/-
Webernetes.GarbageCollector.Graph — the graph of owners and dependents, and
what a graph event does to it.

Nodes are objects with an identity of their own: `uidToNode` says which node
stands for a uid, and a node that was replaced may still be held elsewhere.
A node for an owner that has not been observed is virtual.

The queues are written down as the calls made on them, in order, together
with the references that were recorded and the nodes that were removed; a
report of an invalid reference is one more such call.
-/
import Webernetes.Js.OrderedMap
import Webernetes.Storage.Object

namespace Webernetes.GarbageCollector

open Js
open Storage (OwnerReference)

/-! ## Objects -/

/-- An owner reference's coordinates, and where they are. -/
structure ObjectReference where
  apiVersion : JsString
  kind : JsString
  name : JsString
  uid : JsString
  «namespace» : JsString
  deriving DecidableEq

/-- What the graph reads of an object. -/
structure ModeledObject where
  apiVersion : Option JsString
  kind : Option JsString
  name : Option JsString
  uid : Option JsString
  «namespace» : Option JsString
  ownerReferences : Option (List OwnerReference) := none
  deletionTimestamp : Option JsString := none
  finalizers : Option (List JsString) := none
  deriving DecidableEq

inductive EventType where
  | add
  | update
  | delete
  deriving DecidableEq

structure GraphEvent where
  eventType : EventType
  obj : ModeledObject
  oldObj : Option ModeledObject := none
  isVirtual : Bool := false
  deriving DecidableEq

/-- A text that is there and not empty. -/
def present (s : Option JsString) : Option JsString := s.filter fun s => s ≠ []

def identityFromEvent (obj : ModeledObject) : Option ObjectReference := do
  let apiVersion ← present obj.apiVersion
  let kind ← present obj.kind
  let name ← present obj.name
  let uid ← present obj.uid
  return { apiVersion, kind, name, uid, «namespace» := obj.namespace.getD [] }

def beingDeleted (obj : ModeledObject) : Bool := obj.deletionTimestamp.isSome

def hasFinalizer (obj : ModeledObject) (matchingFinalizer : JsString) : Bool :=
  (obj.finalizers.getD []).contains matchingFinalizer

def finalizerDeleteDependents : JsString := js "foregroundDeletion"

def finalizerOrphanDependents : JsString := js "orphan"

def hasDeleteDependentsFinalizer (obj : ModeledObject) : Bool :=
  hasFinalizer obj finalizerDeleteDependents

def hasOrphanFinalizer (obj : ModeledObject) : Bool := hasFinalizer obj finalizerOrphanDependents

def deletionStartsWithFinalizer (oldObj : Option ModeledObject) (newObj : ModeledObject)
    (matchingFinalizer : JsString) : Bool :=
  if !beingDeleted newObj || !hasFinalizer newObj matchingFinalizer then false
  else
    match oldObj with
    | none => true
    | some oldObj => !beingDeleted oldObj || !hasFinalizer oldObj matchingFinalizer

/-- The coordinates are those of the identity. -/
def ownerReferenceMatchesCoordinates (a : OwnerReference) (b : ObjectReference) : Bool :=
  a.uid == b.uid && a.name == b.name && a.kind == b.kind && a.apiVersion == b.apiVersion

/-! ## Nodes -/

abbrev NodeId := Nat

structure Node where
  identity : ObjectReference
  dependents : JsSet NodeId := .empty
  deletingDependents : Bool := false
  beingDeleted : Bool := false
  isVirtual : Bool := false
  owners : List OwnerReference := []

def Node.isObserved (n : Node) : Bool := !n.isVirtual

/-- What is done on the queues and for the event recorder, and to the
graph: a reference that was recorded, a node that was removed. -/
inductive Action where
  | attemptToDelete (n : NodeId)
  | attemptToDeleteRateLimited (n : NodeId)
  | attemptToOrphan (n : NodeId)
  | reportInvalidNamespaceOwnerRef (n : NodeId) (invalidOwnerUID : JsString)
  | absentOwner (reference : ObjectReference)
  | record (owner : JsString) (n : NodeId)
  | remove (owner : JsString) (n : NodeId)
  deriving DecidableEq

structure GraphBuilder where
  heap : NodeId → Node
  nextNode : NodeId := 0
  uidToNode : JsMap JsString NodeId := .empty
  actions : List Action := []

namespace GraphBuilder

variable (g : GraphBuilder)

def setNode (n : NodeId) (node : Node) : GraphBuilder :=
  { g with heap := fun m => if m = n then node else g.heap m }

/-- `new Node(...)`. -/
def newNode (node : Node) : NodeId × GraphBuilder :=
  (g.nextNode, { g.setNode g.nextNode node with nextNode := g.nextNode + 1 })

def act (actions : List Action) : GraphBuilder := { g with actions := g.actions ++ actions }

def setUid (uid : JsString) (n : NodeId) : GraphBuilder :=
  { g with uidToNode := g.uidToNode.set uid n }

def addDependent (owner dependent : NodeId) : GraphBuilder :=
  g.setNode owner { g.heap owner with dependents := (g.heap owner).dependents.add dependent }

def deleteDependent (owner dependent : NodeId) : GraphBuilder :=
  g.setNode owner { g.heap owner with dependents := (g.heap owner).dependents.delete dependent }

/-- The dependents of a node. -/
def dependents (n : NodeId) : List NodeId := (g.heap n).dependents.elems

end GraphBuilder

/-! ## Comparisons -/

section Compare

variable (g : GraphBuilder)

/-- Whether the references of a dependent match the identity, and whether
some do not. -/
def matchOwner (dep : Node) (identity : ObjectReference) : Bool × Bool :=
  if identity.namespace.length > 0 ∧ identity.namespace ≠ dep.identity.namespace then (false, true)
  else
    ((dep.owners.filter fun ownerRef => ownerRef.uid = identity.uid).any fun ownerRef =>
        ownerReferenceMatchesCoordinates ownerRef identity,
      (dep.owners.filter fun ownerRef => ownerRef.uid = identity.uid).any fun ownerRef =>
        !ownerReferenceMatchesCoordinates ownerRef identity)

def partitionDependents (dependents : List NodeId) (matchOwnerIdentity : ObjectReference) :
    List NodeId × List NodeId :=
  (dependents.filter fun dep => (matchOwner (g.heap dep) matchOwnerIdentity).1,
    dependents.filter fun dep => (matchOwner (g.heap dep) matchOwnerIdentity).2)

/-- The references by their uids; the last one of a uid counts. -/
def refsByUid (refs : List OwnerReference) : JsMap JsString OwnerReference :=
  .ofList (refs.map fun ref => (ref.uid, ref))

structure ReferencesDiffs where
  added : List OwnerReference
  removed : List OwnerReference
  changed : List (OwnerReference × OwnerReference)

def referencesDiffs (oldRefs newRefs : List OwnerReference) : ReferencesDiffs where
  added := newRefs.filter fun value => ((refsByUid oldRefs).get value.uid).isNone
  removed := (refsByUid oldRefs).entries.filterMap fun entry =>
    if newRefs.any (·.uid = entry.1) then none else some entry.2
  changed := newRefs.filterMap fun value =>
    match (refsByUid oldRefs).get value.uid with
    | some oldValue => if oldValue = value then none else some (oldValue, value)
    | none => none

def referenceLessThan (a b : ObjectReference) : Bool :=
  if a.kind ≠ b.kind then a.kind < b.kind
  else if a.apiVersion ≠ b.apiVersion then a.apiVersion < b.apiVersion
  else if a.namespace ≠ b.namespace then a.namespace < b.namespace
  else if a.name ≠ b.name then a.name < b.name
  else if a.uid ≠ b.uid then a.uid < b.uid
  else false

/-- The fields, with `"\0"` between them. -/
def objectReferenceKey (reference : ObjectReference) : JsString :=
  [(0 : CodeUnit)].intercalate [reference.apiVersion, reference.kind, reference.namespace,
    reference.name, reference.uid]

/-- The loop of `getAlternateOwnerIdentity`: the keys seen, the first
alternate, and the first that follows the absent identity. -/
structure Alternates where
  seen : List JsString
  first : Option ObjectReference := none
  firstFollowing : Option ObjectReference := none

/-- The identity a reference names, seen from its dependent. -/
def alternateRef (verifiedAbsentIdentity : ObjectReference) (dep : Node) (ownerRef : OwnerReference) :
    ObjectReference where
  apiVersion := ownerRef.apiVersion
  kind := ownerRef.kind
  name := ownerRef.name
  uid := ownerRef.uid
  «namespace» :=
    if verifiedAbsentIdentity.namespace.length = 0
        ∧ ownerRef.apiVersion = verifiedAbsentIdentity.apiVersion
        ∧ ownerRef.kind = verifiedAbsentIdentity.kind then []
    else dep.identity.namespace

/-- The smaller one, where there are two. -/
def lesser (ref : ObjectReference) : Option ObjectReference → Option ObjectReference
  | none => some ref
  | some current => if referenceLessThan ref current then some ref else some current

def Alternates.consider (verifiedAbsentIdentity : ObjectReference) (dep : Node) (a : Alternates)
    (ownerRef : OwnerReference) : Alternates :=
  if ownerRef.uid ≠ verifiedAbsentIdentity.uid then a
  else if ownerReferenceMatchesCoordinates ownerRef verifiedAbsentIdentity
      ∧ (verifiedAbsentIdentity.namespace.length = 0
        ∨ verifiedAbsentIdentity.namespace = dep.identity.namespace) then a
  else
    let ref := alternateRef verifiedAbsentIdentity dep ownerRef
    let key := objectReferenceKey ref
    if a.seen.contains key then a
    else
      { seen := key :: a.seen
        first := lesser ref a.first
        firstFollowing :=
          if referenceLessThan verifiedAbsentIdentity ref then lesser ref a.firstFollowing
          else a.firstFollowing }

def getAlternateOwnerIdentity (deps : List NodeId) (verifiedAbsentIdentity : ObjectReference) :
    Option ObjectReference :=
  let a := deps.foldl (fun a dep =>
    (g.heap dep).owners.foldl (Alternates.consider verifiedAbsentIdentity (g.heap dep)) a)
    { seen := [objectReferenceKey verifiedAbsentIdentity] }
  a.firstFollowing.or a.first

end Compare

/-! ## Graph changes -/

namespace GraphBuilder

variable (g : GraphBuilder)

/-- The node for an owner that has none, seen from its dependent. -/
def virtualOwner (node : Node) (owner : OwnerReference) : Node where
  identity :=
    { apiVersion := owner.apiVersion
      kind := owner.kind
      name := owner.name
      uid := owner.uid
      «namespace» := node.identity.namespace }
  isVirtual := true

/-- One owner of `addDependentToOwners`: the graph, and whether the
reference is potentially invalid. -/
def addDependentToOwner (n : NodeId) (owner : OwnerReference) (potentiallyInvalid : Bool) :
    GraphBuilder × Bool :=
  let node := g.heap n
  match g.uidToNode.get owner.uid with
  | none =>
    let (ownerNode, g) := g.newNode (virtualOwner node owner)
    let g := (g.setUid owner.uid ownerNode).addDependent ownerNode n
    (g.act [.record owner.uid n, .attemptToDelete ownerNode], potentiallyInvalid)
  | some ownerNode =>
    let g := (g.addDependent ownerNode n).act [.record owner.uid n]
    let identity := (g.heap ownerNode).identity
    if potentiallyInvalid then (g, true)
    else if identity.namespace.length > 0 ∧ identity.namespace ≠ node.identity.namespace then
      if (g.heap ownerNode).isObserved then
        (g.act [.reportInvalidNamespaceOwnerRef n owner.uid], true)
      else (g, true)
    else if !ownerReferenceMatchesCoordinates owner identity then (g, true)
    else if identity.namespace.length = 0 ∧ identity.namespace ≠ node.identity.namespace
        ∧ (g.heap ownerNode).isObserved = false then (g, true)
    else (g, false)

/-- The owners one after the other. -/
def addDependentToEach (n : NodeId) : List OwnerReference → GraphBuilder × Bool → GraphBuilder × Bool
  | [], result => result
  | owner :: owners, (g, potentiallyInvalid) =>
    addDependentToEach n owners (g.addDependentToOwner n owner potentiallyInvalid)

def addDependentToOwners (n : NodeId) (owners : List OwnerReference) : GraphBuilder :=
  let (g, potentiallyInvalid) := addDependentToEach n owners (g, false)
  if potentiallyInvalid then g.act [.attemptToDelete n] else g

def insertNode (uid : JsString) (n : NodeId) : GraphBuilder :=
  (g.setUid uid n).addDependentToOwners n (g.heap n).owners

/-- `removeDependentFromOwners`, of one owner. -/
def removeDependentFromOwner (n : NodeId) (uid : JsString) : GraphBuilder :=
  match g.uidToNode.get uid with
  | none => g
  | some ownerNode => g.deleteDependent ownerNode n

def removeDependentFromOwners (n : NodeId) (owners : List OwnerReference) : GraphBuilder :=
  owners.foldl (fun g owner => g.removeDependentFromOwner n owner.uid) g

def removeNode (n : NodeId) : GraphBuilder :=
  let uid := (g.heap n).identity.uid
  { g with uidToNode := g.uidToNode.delete uid }.removeDependentFromOwners n (g.heap n).owners

/-- The nodes of owners, where they are there. -/
def nodesOf (uids : List JsString) : List NodeId := uids.filterMap g.uidToNode.get

def addUnblockedOwnersToDeleteQueue (removed : List OwnerReference)
    (changed : List (OwnerReference × OwnerReference)) : GraphBuilder :=
  let unblocked := (removed.filter fun ref => ref.blockOwnerDeletion = some true).map (·.uid)
  let unblocking := (changed.filter fun change => change.1.blockOwnerDeletion = some true
    ∧ change.2.blockOwnerDeletion ≠ some true).map (·.2.uid)
  g.act ((g.nodesOf unblocked ++ g.nodesOf unblocking).map .attemptToDelete)

def processTransitions (oldObj : Option ModeledObject) (newObj : ModeledObject) (n : NodeId) :
    GraphBuilder :=
  if deletionStartsWithFinalizer oldObj newObj finalizerOrphanDependents then
    g.act [.attemptToOrphan n]
  else if deletionStartsWithFinalizer oldObj newObj finalizerDeleteDependents then
    (g.setNode n { g.heap n with deletingDependents := true }).act
      ((g.dependents n).map .attemptToDelete ++ [.attemptToDelete n])
  else g

/-- An event for a virtual node that is no virtual event: the node is
observed, as a clone when it was made for another identity. -/
def observe (n : NodeId) (observedIdentity : ObjectReference) : NodeId × GraphBuilder :=
  if observedIdentity = (g.heap n).identity then
    (n, g.setNode n { g.heap n with isVirtual := false })
  else
    let invalid := (partitionDependents g (g.dependents n) observedIdentity).2
    let g := g.act (invalid.flatMap fun dep =>
      (if observedIdentity.namespace.length > 0
          ∧ (g.heap dep).identity.namespace ≠ observedIdentity.namespace then
        [.reportInvalidNamespaceOwnerRef dep observedIdentity.uid] else [])
      ++ [.attemptToDelete dep])
    let (clone, g) := g.newNode { g.heap n with identity := observedIdentity }
    let g := g.setUid observedIdentity.uid clone
    (clone, g.setNode clone { g.heap clone with isVirtual := false })

/-- The node for an object that has none. -/
def observedNode (obj : ModeledObject) (identity : ObjectReference) : Node where
  identity
  owners := obj.ownerReferences.getD []
  deletingDependents := beingDeleted obj && hasDeleteDependentsFinalizer obj
  beingDeleted := beingDeleted obj

/-- An `add` or `update` of an object without a node. -/
def insertObject (event : GraphEvent) (identity : ObjectReference) : GraphBuilder :=
  let (n, g) := g.newNode (observedNode event.obj identity)
  (g.insertNode identity.uid n).processTransitions event.oldObj event.obj n

/-- The references of a node become those of its object. -/
def updateOwners (n : NodeId) (refs : List OwnerReference) : GraphBuilder :=
  let diffs := referencesDiffs (g.heap n).owners refs
  if diffs.added.length > 0 ∨ diffs.removed.length > 0 ∨ diffs.changed.length > 0 then
    let g := g.addUnblockedOwnersToDeleteQueue diffs.removed diffs.changed
    let g := g.setNode n { g.heap n with owners := refs }
    (g.addDependentToOwners n diffs.added).removeDependentFromOwners n diffs.removed
  else g

/-- An `add` or `update` of an object with a node. -/
def updateObject (event : GraphEvent) (n : NodeId) : GraphBuilder :=
  let g := g.updateOwners n (event.obj.ownerReferences.getD [])
  let g := if beingDeleted event.obj then g.setNode n { g.heap n with beingDeleted := true } else g
  g.processTransitions event.oldObj event.obj n

/-- The end of a `delete` whose node goes. -/
def removeObject (n : NodeId) (identity : ObjectReference) : GraphBuilder :=
  let owners := (g.heap n).owners
  let g := (g.removeNode n).act [.remove (g.heap n).identity.uid n]
  let g := if (g.dependents n).length > 0 then g.act [.absentOwner identity] else g
  let g := g.act ((g.dependents n).map .attemptToDelete)
  g.act (((g.nodesOf (owners.map (·.uid))).filter fun owner =>
    (g.heap owner).deletingDependents).map .attemptToDelete)

/-- A virtual `delete` of a node that has been observed under another
identity: the dependents that mean the deleted one are queued. -/
def queueMatching (matching : List NodeId) (deletedIdentity : ObjectReference) : GraphBuilder :=
  if matching.length > 0 then
    g.act (.absentOwner deletedIdentity :: matching.map .attemptToDelete)
  else g

/-- A virtual `delete` of a virtual node some dependents of which mean
another identity: the node stays, for such an identity. -/
def replaceVirtual (n : NodeId) (nonmatching : List NodeId) (deletedIdentity : ObjectReference) :
    GraphBuilder :=
  if (g.heap n).identity = deletedIdentity then
    match getAlternateOwnerIdentity g nonmatching deletedIdentity with
    | none => g
    | some replacementIdentity =>
      let (replacement, g) := g.newNode { g.heap n with identity := replacementIdentity }
      (g.setUid replacementIdentity.uid replacement).act [.attemptToDeleteRateLimited replacement]
  else g

def deleteObject (event : GraphEvent) (n : NodeId) (identity : ObjectReference) : GraphBuilder :=
  let (matching, nonmatching) := partitionDependents g (g.dependents n) identity
  if event.isVirtual then
    if (g.heap n).isVirtual then
      if nonmatching.length > 0 then
        (g.queueMatching matching identity).replaceVirtual n nonmatching identity
      else g.removeObject n identity
    else if (g.heap n).identity ≠ identity then g.queueMatching matching identity
    else g.removeObject n identity
  else g.removeObject n identity

/-- The node of the event's object, once it has been observed. -/
def existingNode (event : GraphEvent) (identity : ObjectReference) : Option NodeId × GraphBuilder :=
  match g.uidToNode.get identity.uid with
  | none => (none, g)
  | some n =>
    if event.isVirtual = false ∧ (g.heap n).isObserved = false then
      let (n, g) := g.observe n identity
      (some n, g)
    else (some n, g)

def processGraphChanges (event : GraphEvent) : GraphBuilder :=
  match identityFromEvent event.obj with
  | none => g
  | some identity =>
    match g.existingNode event identity, event.eventType with
    | (none, g), .delete => g
    | (none, g), _ => g.insertObject event identity
    | (some n, g), .delete => g.deleteObject event n identity
    | (some n, g), _ => g.updateObject event n

end GraphBuilder

end Webernetes.GarbageCollector
