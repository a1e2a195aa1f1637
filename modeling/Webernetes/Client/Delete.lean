/-
Webernetes.Client.Delete — deleting an object through the API.

`deleteResource` reads the object, checks the preconditions of the request
and then removes the object, or updates it so that it waits for its
finalizers and its grace period. The removal is that of the store, which
reads the object again. What the clock shows is an argument, and so are
the times of the attempts of `retryConflicts`.
-/
import Webernetes.Storage.Store

namespace Webernetes.Client

open Js Base Etcd Storage
open Store (Request)

/-! ## Errors and retries -/

/-- What an operation of the API throws, with its text. -/
inductive ApiError (ε : Type) where
  | store (e : StoreError ε)
  | badRequest (message : JsString)
  | notFound (message : JsString)
  | conflict (message : JsString)
  | invalid (message : JsString)
  deriving DecidableEq

def isConflictError {ε : Type} : ApiError ε → Bool
  | .store (.conflict _) => true
  | .conflict _ => true
  | _ => false

abbrev ApiRequest (locale : Etcd.Locale) (β E ε : Type) (ρ : Type) :=
  Prog (StoreState locale β E) (ApiError ε) ρ

variable {locale : Etcd.Locale} {β E ε ρ : Type}

/-- A request of the store, within an operation. -/
def ofStore (p : Request locale β E ε ρ) : ApiRequest locale β E ε ρ :=
  p.zoom id (fun _ s => s) .store

/-- The attempts of `retry`, each with its number, until one does not end in
a conflict. -/
def retryFrom (operation : Nat → ApiRequest locale β E ε ρ) (attempt : Nat) :
    Nat → ApiRequest locale β E ε ρ
  | 0 => operation attempt
  | retries + 1 => do
    match ← (operation attempt).attempt with
    | .ok value => return value
    | .error e => if isConflictError e then retryFrom operation (attempt + 1) retries else .throw e

/-- `retryConflicts`, with its five attempts. -/
def retryConflicts (operation : Nat → ApiRequest locale β E ε ρ) : ApiRequest locale β E ε ρ :=
  retryFrom operation 0 4

/-! ## Options -/

def finalizerDeleteDependents : JsString := js "foregroundDeletion"

def finalizerOrphanDependents : JsString := js "orphan"

inductive DeletePropagationPolicy where
  | background
  | foreground
  | orphan
  deriving DecidableEq

structure Preconditions where
  uid : Option JsString := none
  resourceVersion : Option JsString := none
  deriving DecidableEq

/-- `V1DeleteOptions`. -/
structure DeleteOptions where
  preconditions : Option Preconditions := none
  gracePeriodSeconds : Option Int := none
  orphanDependents : Option Bool := none
  propagationPolicy : Option JsString := none
  deriving DecidableEq

structure DeleteRequest where
  body : Option DeleteOptions := none
  gracePeriodSeconds : Option Int := none
  orphanDependents : Option Bool := none
  propagationPolicy : Option JsString := none
  deriving DecidableEq

structure DeleteResourceOptions where
  defaultGracePeriodSeconds : Option Int := none
  defaultPropagationPolicy : Option DeletePropagationPolicy := none
  orphanDependentsFalsePolicy : Option DeletePropagationPolicy := none
  deriving DecidableEq

/-- `Operation cannot be fulfilled on ${kind} "${name}": the ${field} in the
precondition (…) does not match the ${field} in record (…)…`. -/
def preconditionFailed (kind name field wanted current : JsString) : ApiError ε :=
  .conflict (js "Operation cannot be fulfilled on " ++ kind ++ js " \"" ++ name ++ js "\": the "
    ++ field ++ js " in the precondition (" ++ wanted ++ js ") does not match the " ++ field
    ++ js " in record (" ++ current ++ js "). The object might have been modified")

def validateDeletePreconditions (kind name : JsString) (body : Option DeleteOptions)
    (obj : Storable β) : Except (ApiError ε) Unit := do
  match body.bind (·.preconditions) with
  | none => return
  | some preconditions =>
    let kind := obj.kind.getD kind
    let currentResourceVersion := obj.objectMeta.resourceVersion.getD []
    if truthy preconditions.resourceVersion
        && preconditions.resourceVersion != some currentResourceVersion then
      throw (preconditionFailed kind name (js "ResourceVersion")
        (preconditions.resourceVersion.getD []) currentResourceVersion)
    let currentUid := obj.objectMeta.uid.getD []
    if truthy preconditions.uid && preconditions.uid != some currentUid then
      throw (preconditionFailed kind name (js "UID") (preconditions.uid.getD []) currentUid)

def invalidPropagationPolicy (detail : JsString) : ApiError ε :=
  .invalid (js "DeleteOptions.meta.k8s.io \"\" is invalid: propagationPolicy: " ++ detail)

def normalizeDeleteOptions (request : DeleteRequest) (options : DeleteResourceOptions)
    (existingFinalizers : List JsString) : Except (ApiError ε) DeletePropagationPolicy :=
  let orphanDependents := request.orphanDependents <|> request.body.bind (·.orphanDependents)
  let propagationPolicy := request.propagationPolicy <|> request.body.bind (·.propagationPolicy)
  let default := options.defaultPropagationPolicy.getD .background
  match orphanDependents, propagationPolicy with
  | some _, some policy => .error (invalidPropagationPolicy (js "Invalid value: \"" ++ policy
      ++ js "\": orphanDependents and deletionPropagation cannot be both set"))
  | some true, none => .ok .orphan
  | some false, none => .ok (options.orphanDependentsFalsePolicy.getD default)
  | none, some policy =>
    if policy = js "Background" then .ok .background
    else if policy = js "Foreground" then .ok .foreground
    else if policy = js "Orphan" then .ok .orphan
    else .error (invalidPropagationPolicy (js "Unsupported value: \"" ++ policy
      ++ js "\": supported values: \"Foreground\", \"Background\", \"Orphan\", \"nil\""))
  | none, none =>
    if existingFinalizers.contains finalizerOrphanDependents then .ok .orphan
    else if existingFinalizers.contains finalizerDeleteDependents then .ok .foreground
    else .ok default

/-! ## Finalizers and grace periods -/

def deletionFinalizers (existing : List JsString) (policy : DeletePropagationPolicy) :
    List JsString :=
  let finalizers := existing.filter fun finalizer =>
    finalizer ≠ finalizerDeleteDependents ∧ finalizer ≠ finalizerOrphanDependents
  match policy with
  | .background => finalizers
  | .foreground => finalizers ++ [finalizerDeleteDependents]
  | .orphan => finalizers ++ [finalizerOrphanDependents]

def effectiveGracePeriod (resource : Storable β) (gracePeriodSeconds : Option Int) : Int :=
  match resource.objectMeta.deletionGracePeriodSeconds, gracePeriodSeconds with
  | some current, some gracePeriodSeconds => min current gracePeriodSeconds
  | current, gracePeriodSeconds => (current <|> gracePeriodSeconds).getD 0

def gracePeriodExpired (now : Int) (resource : Storable β) (gracePeriodSeconds : Option Int) : Bool :=
  let grace := effectiveGracePeriod resource gracePeriodSeconds
  decide (grace ≤ 0)
    || resource.objectMeta.deletionTimestamp.any fun deletedAt => decide (grace * 1000 ≤ now - deletedAt)

def shortenedGracePeriod (resource : Storable β) (gracePeriodSeconds : Option Int) : Option Int :=
  match resource.objectMeta.deletionGracePeriodSeconds, gracePeriodSeconds with
  | some current, some gracePeriodSeconds =>
    if current ≤ gracePeriodSeconds then none else some gracePeriodSeconds
  | _, _ => none

def stringSetsEqual (left right : List JsString) : Bool :=
  left.length = right.length && left.all right.contains

/-- `nextFinalizers.length > 0 ? nextFinalizers : undefined`. -/
def finalizersField (finalizers : List JsString) : Option (List JsString) :=
  if finalizers.isEmpty then none else some finalizers

/-! ## deleteResource -/

variable (store : Store β E ε)

/-- The rest of `deleteResource` for an object that is being deleted. -/
def deleteAgain (call rounds : Nat) (name : JsString) (ns : Option JsString) (now : Int)
    (existing : Storable β) (policy : DeletePropagationPolicy) (gracePeriodSeconds : Option Int) :
    ApiRequest locale β E ε (Storable β) := do
  let finalizers := existing.finalizers
  let shortened := shortenedGracePeriod existing gracePeriodSeconds
  let nextFinalizers := deletionFinalizers finalizers policy
  let finalizersChanged := !stringSetsEqual finalizers nextFinalizers
  if shortened.isSome || finalizersChanged then
    let metadata := { existing.objectMeta with
      deletionGracePeriodSeconds :=
        if shortened.isSome then shortened else existing.objectMeta.deletionGracePeriodSeconds
      finalizers :=
        if finalizersChanged then finalizersField nextFinalizers else existing.objectMeta.finalizers }
    let updated := { existing with metadata := some metadata }
    let result ← ofStore (store.update call rounds name updated true)
    if nextFinalizers.isEmpty && gracePeriodExpired now result gracePeriodSeconds then
      let _ ← ofStore (store.delete call (some existing) name ns rounds)
      return result
    else return result
  else if finalizers.isEmpty && gracePeriodExpired now existing gracePeriodSeconds then
    let _ ← ofStore (store.delete call (some existing) name ns rounds)
    return existing
  else return existing

/-- The rest of `deleteResource` for an object that is not being deleted. -/
def deleteFirst (call rounds : Nat) (name : JsString) (ns : Option JsString) (now : Int)
    (existing : Storable β) (policy : DeletePropagationPolicy) (gracePeriodSeconds : Option Int) :
    ApiRequest locale β E ε (Storable β) := do
  let nextFinalizers := deletionFinalizers existing.finalizers policy
  if nextFinalizers.isEmpty && gracePeriodSeconds.all (· = 0) then
    let _ ← ofStore (store.delete call (some existing) name ns rounds)
    return existing
  else
    let metadata := { existing.objectMeta with
      deletionTimestamp := some now
      deletionGracePeriodSeconds :=
        gracePeriodSeconds <|> existing.objectMeta.deletionGracePeriodSeconds
      finalizers := finalizersField nextFinalizers }
    ofStore (store.update call rounds name { existing with metadata := some metadata } true)

def deleteResource (call rounds : Nat) (resourceKind name : JsString) (ns : Option JsString)
    (request : DeleteRequest) (options : DeleteResourceOptions) (now : Int) :
    ApiRequest locale β E ε (Storable β) := do
  match ← ofStore (store.readStored name ns) with
  | none => .throw (.notFound (resourceKind ++ js " \"" ++ name ++ js "\" not found"))
  | some stored =>
    let existing := stored.obj
    Prog.ofExcept (validateDeletePreconditions resourceKind name request.body existing)
    let policy ← Prog.ofExcept (normalizeDeleteOptions request options existing.finalizers)
    let gracePeriodSeconds := request.gracePeriodSeconds
      <|> request.body.bind (·.gracePeriodSeconds) <|> options.defaultGracePeriodSeconds
    if existing.hasDeletionTimestamp then
      deleteAgain store call rounds name ns now existing policy gracePeriodSeconds
    else deleteFirst store call rounds name ns now existing policy gracePeriodSeconds

end Webernetes.Client
