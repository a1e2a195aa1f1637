/-
Webernetes.Kubelet.PodConfig — merging the pod lists of a config source.

A pod is what the merge reads of it; its events and what the SLI observer is
told are left out. The merge updates the stored pods in place, so a stored pod
that is on an update list is looked up at the end of the loop. The times that
are recorded are given, by the uids of the pods.

`k in candidateMap` also finds what every object inherits.
-/
import Webernetes.Cluster.Apply
import Webernetes.Js.OrderedMap
import Webernetes.Js.Value

namespace Webernetes.Kubelet.PodConfig

open Js

variable {N : Type}

abbrev Annotations := JsMap JsString JsString

/-- A `V1Pod`, with the fields of its `metadata` in front. -/
structure Pod (N : Type) where
  name : Option JsString := none
  «namespace» : Option JsString := none
  uid : Option JsString := none
  annotations : Option Annotations := none
  labels : Value N := .undefined
  deletionTimestamp : Value N := .undefined
  deletionGracePeriodSeconds : Value N := .undefined
  generation : Value N := .undefined
  spec : Value N := .undefined
  status : Value N := .undefined

/-- `metadata.uid ?? ""`. -/
def Pod.key (pod : Pod N) : JsString := pod.uid.getD []

/-- `metadata.annotations ?? {}`. -/
def Pod.annotationMap (pod : Pod N) : Annotations := pod.annotations.getD .empty

inductive PodOperation where
  | add
  | delete
  | remove
  | update
  | reconcile
  deriving DecidableEq

structure PodUpdate (N : Type) where
  op : PodOperation
  pods : List (Pod N)
  source : JsString

/-! ## Annotations -/

def configSourceAnnotationKey : JsString := js "kubernetes.io/config.source"

def configMirrorAnnotationKey : JsString := js "kubernetes.io/config.mirror"

def configFirstSeenAnnotationKey : JsString := js "kubernetes.io/config.seen"

def localAnnotations : List JsString :=
  [configSourceAnnotationKey, configMirrorAnnotationKey, configFirstSeenAnnotationKey]

def isLocalAnnotationKey (key : JsString) : Bool := localAnnotations.contains key

/-- `k in map`. -/
def keyIn (key : JsString) (map : Annotations) : Bool :=
  map.contains key || Cluster.inheritedNames.contains key

def isAnnotationMapEqual (existingMap : Annotations) (candidateMap : Option Annotations) : Bool :=
  let candidateMap := candidateMap.getD .empty
  (candidateMap.entries.all fun (k, v) => isLocalAnnotationKey k || existingMap.get k = some v)
    && existingMap.keys.all fun k => isLocalAnnotationKey k || keyIn k candidateMap

def recordFirstSeenTime (now : JsString) (pod : Pod N) : Pod N :=
  { pod with annotations := some (pod.annotationMap.set configFirstSeenAnnotationKey now) }

/-- The annotations of the listed pod, with the local ones of the stored pod. -/
def updateAnnotations (existing ref : Pod N) : Annotations :=
  localAnnotations.foldl (fun annotations key =>
    match existing.annotationMap.get key with
    | some value => annotations.set key value
    | none => annotations) ref.annotationMap

/-! ## The comparison -/

section Compare

variable [DecidableEq N]

def podsDifferSemantically (existing ref : Pod N) : Bool :=
  !(Value.deepEqual existing.spec ref.spec
    && Value.deepEqual existing.labels ref.labels
    && Value.deepEqual existing.deletionTimestamp ref.deletionTimestamp
    && Value.deepEqual existing.deletionGracePeriodSeconds ref.deletionGracePeriodSeconds
    && isAnnotationMapEqual existing.annotationMap ref.annotations)

def isUndefined : Value N → Bool
  | .undefined => true
  | _ => false

/-- The stored pod after the check, and what is to be told of it. -/
structure Checked (N : Type) where
  pod : Pod N
  op : Option PodOperation

def checkAndUpdatePod (existing ref : Pod N) : Checked N :=
  if !podsDifferSemantically existing ref then
    if !Value.deepEqual existing.status ref.status then
      { pod := { existing with status := ref.status }, op := some .reconcile }
    else { pod := existing, op := none }
  else
    let firstSeen := (existing.annotationMap.get configFirstSeenAnnotationKey).getD []
    let ref := { ref with annotations := some (ref.annotationMap.set configFirstSeenAnnotationKey firstSeen) }
    let annotations := updateAnnotations existing ref
    { pod := { existing with
        spec := ref.spec
        labels := ref.labels
        deletionTimestamp := ref.deletionTimestamp
        deletionGracePeriodSeconds := ref.deletionGracePeriodSeconds
        generation := ref.generation
        status := ref.status
        annotations := some annotations }
      op := some (if !isUndefined ref.deletionTimestamp then .delete else .update) }

end Compare

/-! ## The merge -/

def getPodFullName (pod : Pod N) : JsString := pod.name.getD [] ++ js "_" ++ pod.namespace.getD []

/-- The loop over the pods: the names that there were, and the pods left. -/
def filterFrom : List JsString → List (Pod N) → List (Pod N)
  | _, [] => []
  | names, pod :: pods =>
    if names.contains (getPodFullName pod) then filterFrom names pods
    else pod :: filterFrom (getPodFullName pod :: names) pods

/-- Of pods of one name the first is left. -/
def filterInvalidPods (pods : List (Pod N)) : List (Pod N) := filterFrom [] pods

/-- The variables of the loop. The lists have the keys of stored pods. -/
structure Merging (N : Type) where
  oldPods : JsMap JsString (Pod N)
  pods : JsMap JsString (Pod N) := .empty
  addPods : List (Pod N) := []
  updatePods : List JsString := []
  deletePods : List JsString := []
  reconcilePods : List JsString := []

/-- The listed pod, with its source. -/
def withSource (source : JsString) (ref : Pod N) : Pod N :=
  { ref with annotations := some (ref.annotationMap.set configSourceAnnotationKey source) }

/-- The body of the loop. -/
def mergePod [DecidableEq N] (source : JsString) (now : JsString → JsString) (m : Merging N) (ref : Pod N) :
    Merging N :=
  let ref := withSource source ref
  let key := ref.key
  match m.oldPods.get key with
  | some existing =>
    let checked := checkAndUpdatePod existing ref
    let m := { m with oldPods := m.oldPods.set key checked.pod, pods := m.pods.set key checked.pod }
    match checked.op with
    | some .update => { m with updatePods := m.updatePods ++ [key] }
    | some .reconcile => { m with reconcilePods := m.reconcilePods ++ [key] }
    | some .delete => { m with deletePods := m.deletePods ++ [key] }
    | _ => m
  | none =>
    let ref := recordFirstSeenTime (now key) ref
    { m with pods := m.pods.set key ref, addPods := m.addPods ++ [ref] }

structure PodStorage (N : Type) where
  pods : JsMap JsString (JsMap JsString (Pod N)) := .empty
  sourcesSeen : JsSet JsString := .empty

def PodStorage.podsOf (storage : PodStorage N) (source : JsString) : JsMap JsString (Pod N) :=
  (storage.pods.get source).getD .empty

/-- `updateChannel.send(update)`, where there are pods. -/
def sendUnlessEmpty (update : PodUpdate N) : List (PodUpdate N) :=
  if update.pods.isEmpty then [] else [update]

/-- The loop over the listed pods. -/
def mergePods [DecidableEq N] (oldPods : JsMap JsString (Pod N)) (source : JsString)
    (now : JsString → JsString) (pods : List (Pod N)) : Merging N :=
  (filterInvalidPods pods).foldl (mergePod source now) { oldPods }

/-- The stored pods that are not listed. -/
def removedPods (m : Merging N) : List (Pod N) :=
  (m.oldPods.entries.filter fun entry => !m.pods.contains entry.1).map Prod.snd

/-- What `merge` sends on, in order; of the first list of a source something
is sent also where it is empty. -/
def send (seenBefore : Bool) (adds updates deletes removes reconciles : PodUpdate N) : List (PodUpdate N) :=
  let firstSet := !seenBefore && adds.pods.isEmpty && updates.pods.isEmpty && deletes.pods.isEmpty
  sendUnlessEmpty removes ++ sendUnlessEmpty adds ++ sendUnlessEmpty updates ++ sendUnlessEmpty deletes
    ++ (if firstSet then [adds] else []) ++ sendUnlessEmpty reconciles

/-- `merge`: what is stored, and what is sent on. -/
def PodStorage.merge [DecidableEq N] (storage : PodStorage N) (source : JsString) (now : JsString → JsString)
    (pods : List (Pod N)) : PodStorage N × List (PodUpdate N) :=
  let seenBefore := storage.sourcesSeen.elems.contains source
  let m := mergePods (storage.podsOf source) source now pods
  let adds : PodUpdate N := { op := .add, pods := m.addPods, source }
  let updates : PodUpdate N := { op := .update, pods := m.updatePods.filterMap m.oldPods.get, source }
  let deletes : PodUpdate N := { op := .delete, pods := m.deletePods.filterMap m.oldPods.get, source }
  let removes : PodUpdate N := { op := .remove, pods := removedPods m, source }
  let reconciles : PodUpdate N :=
    { op := .reconcile, pods := m.reconcilePods.filterMap m.oldPods.get, source }
  ({ pods := storage.pods.set source m.pods, sourcesSeen := storage.sourcesSeen.add source },
    send seenBefore adds updates deletes removes reconciles)

end Webernetes.Kubelet.PodConfig
