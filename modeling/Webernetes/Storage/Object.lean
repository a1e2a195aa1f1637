/-
Webernetes.Storage.Object — objects as the store sees them.

A `Storable` has its type, its metadata, and a body the store looks at
nowhere (spec, status and the metadata that is not listed here). A field
that is absent is `none`; timestamps are in milliseconds.
-/
import Webernetes.Js.Codec
import Webernetes.Js.Decimal

namespace Webernetes.Storage

open Js

structure ObjectMeta where
  name : Option JsString := none
  «namespace» : Option JsString := none
  generateName : Option JsString := none
  uid : Option JsString := none
  resourceVersion : Option JsString := none
  labels : Option (List (JsString × JsString)) := none
  finalizers : Option (List JsString) := none
  deletionTimestamp : Option Int := none
  deletionGracePeriodSeconds : Option Int := none
  deriving DecidableEq

structure Storable (β : Type) where
  apiVersion : Option JsString := none
  kind : Option JsString := none
  metadata : Option ObjectMeta := none
  body : β
  deriving DecidableEq

/-- `V1OwnerReference`. -/
structure OwnerReference where
  apiVersion : JsString
  kind : JsString
  name : JsString
  uid : JsString
  controller : Option Bool := none
  blockOwnerDeletion : Option Bool := none
  deriving DecidableEq

/-- A string that is there and not empty. -/
def truthy : Option JsString → Bool
  | some (_ :: _) => true
  | _ => false

@[simp] theorem truthy_none : truthy none = false := rfl

@[simp] theorem truthy_nil : truthy (some []) = false := rfl

theorem truthy_iff {text : Option JsString} : truthy text = true ↔ ∃ s, text = some s ∧ s ≠ [] := by
  rcases text with _ | _ | ⟨u, rest⟩ <;> simp [truthy]

/-- A revision as `mod_revision` and `resourceVersion` spell it. -/
def revisionText (revision : Nat) : JsString := js (toString revision)

theorem revisionText_inj {m n : Nat} (h : revisionText m = revisionText n) : m = n :=
  decimal_inj h

theorem truthy_revisionText (revision : Nat) : truthy (some (revisionText revision)) = true :=
  truthy_iff.mpr ⟨_, rfl, decimal_ne_nil revision⟩

namespace Storable

variable {β : Type} (obj : Storable β)

/-- `obj.metadata ??= {}`, as a reader finds it. -/
def objectMeta : ObjectMeta := obj.metadata.getD {}

def withResourceVersion (resourceVersion : JsString) : Storable β :=
  { obj with metadata := some { obj.objectMeta with resourceVersion := some resourceVersion } }

def hasDeletionTimestamp : Bool := obj.objectMeta.deletionTimestamp.isSome

def finalizers : List JsString := obj.objectMeta.finalizers.getD []

/-- Only the finalizers and the grace period kept the object. -/
def finalizedPendingDeletion : Bool :=
  obj.kind != some (js "Namespace") && obj.objectMeta.deletionTimestamp.isSome && obj.finalizers.isEmpty
    && decide (obj.objectMeta.deletionGracePeriodSeconds.getD 0 ≤ 0)

@[simp] theorem withResourceVersion_body (resourceVersion : JsString) :
    (obj.withResourceVersion resourceVersion).body = obj.body := rfl

@[simp] theorem withResourceVersion_kind (resourceVersion : JsString) :
    (obj.withResourceVersion resourceVersion).kind = obj.kind := rfl

@[simp] theorem objectMeta_withResourceVersion (resourceVersion : JsString) :
    (obj.withResourceVersion resourceVersion).objectMeta
      = { obj.objectMeta with resourceVersion := some resourceVersion } := rfl

@[simp] theorem finalizers_withResourceVersion (resourceVersion : JsString) :
    (obj.withResourceVersion resourceVersion).finalizers = obj.finalizers := rfl

end Storable

/-! ## Objects as text -/

/-- The fields of the metadata, in order. -/
abbrev MetaFields :=
  Option JsString × Option JsString × Option JsString × Option JsString × Option JsString
    × Option (List (JsString × JsString)) × Option (List JsString) × Option Int × Option Int

instance ObjectMeta.spelling : Spelling ObjectMeta :=
  .via (β := MetaFields)
    (fun m => (m.name, m.namespace, m.generateName, m.uid, m.resourceVersion, m.labels, m.finalizers,
      m.deletionTimestamp, m.deletionGracePeriodSeconds))
    (fun (name, ns, generateName, uid, resourceVersion, labels, finalizers, deletionTimestamp,
        deletionGracePeriodSeconds) =>
      ⟨name, ns, generateName, uid, resourceVersion, labels, finalizers, deletionTimestamp,
        deletionGracePeriodSeconds⟩)
    fun _ => rfl

instance OwnerReference.spelling : Spelling OwnerReference :=
  .via (β := JsString × JsString × JsString × JsString × Option Bool × Option Bool)
    (fun ref => (ref.apiVersion, ref.kind, ref.name, ref.uid, ref.controller, ref.blockOwnerDeletion))
    (fun (apiVersion, kind, name, uid, controller, blockOwnerDeletion) =>
      ⟨apiVersion, kind, name, uid, controller, blockOwnerDeletion⟩) fun _ => rfl

instance Storable.spelling {β : Type} [Spelling β] : Spelling (Storable β) :=
  .via (β := Option JsString × Option JsString × Option ObjectMeta × β)
    (fun obj => (obj.apiVersion, obj.kind, obj.metadata, obj.body))
    (fun (apiVersion, kind, metadata, body) => ⟨apiVersion, kind, metadata, body⟩) fun _ => rfl

end Webernetes.Storage
