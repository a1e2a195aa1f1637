/-
Webernetes.Client.DeleteRuns — what deletes remove.

`deleteResource` checks the version of an object that it has read, and
`Store.update` the one that it stores. The removal is by name: `Store.delete`
takes whatever it reads itself. `Untouched` is the condition under which that
comes to the same.
-/
import Webernetes.Client.ApiRuns

namespace Webernetes.Client

open Js Base Etcd Storage
open Store (Owes)
open Discipline (OnOk)

/-! ## Calls -/

/-- The arguments of `deleteResource`. -/
structure ObjectDelete where
  rounds : Nat
  resourceKind : JsString
  name : JsString
  «namespace» : Option JsString
  request : DeleteRequest
  options : DeleteResourceOptions
  now : Int

inductive ObjectCall (β : Type) where
  | create (draws : Draws) (obj : Storable β)
  | update (rounds : Nat) (name : JsString) (obj : Storable β) (skipValidateUpdate : Bool)
  | delete (d : ObjectDelete)

variable {locale : Etcd.Locale} {β E ε : Type} (store : Store β E ε)

/-- Creates, updates and deletes of objects, interleaved at every await. -/
def objectCalls (locale : Etcd.Locale) : Interleaving (StoreState locale β E) (ApiError ε)
    (Storable β) (ObjectCall β) StoreRequest where
  body i
    | .create draws obj => ofStore (store.create i draws obj)
    | .update rounds name obj skipValidateUpdate =>
      ofStore (store.update i rounds name obj skipValidateUpdate)
    | .delete d =>
      deleteResource store i d.rounds d.resourceKind d.name d.namespace d.request d.options d.now
  disturb := StoreState.request

abbrev ObjectPool (locale : Etcd.Locale) (β E ε : Type) :=
  Base.Pool (StoreState locale β E) (ApiError ε) (Storable β) (ObjectCall β)

/-! ## Removals -/

/-- The object that is found, as a read gives it. -/
def foundIn (value : Option StoredValue) : Option (Storable β) :=
  value.bind fun value => (store.json.parse value.value.toString).map
    (·.withResourceVersion (revisionText value.modRevision))

/-- Where the preconditions ask for a field, the object has it so. -/
def ObjectDelete.Asks (d : ObjectDelete) (wanted : Preconditions → Option JsString)
    (field : Option JsString) : Prop :=
  ∀ preconditions ∈ d.request.body.bind (·.preconditions),
    truthy (wanted preconditions) = true → field = wanted preconditions

/-- An object has what the preconditions ask for. -/
structure ObjectDelete.Met (d : ObjectDelete) (obj : Storable β) : Prop where
  resourceVersion : d.Asks (·.resourceVersion) obj.objectMeta.resourceVersion
  uid : d.Asks (·.uid) obj.objectMeta.uid

/-- A removal takes away what it is for, and what may be taken away. -/
structure Removes (calls : Nat → Option (ObjectCall β)) (c : Commit β) (found : Storable β) :
    Prop where
  finalizers : OnlyPropagation found
  /-- The object has not been created again, and no finalizer has been added. -/
  same : ∃ acted, c.acted = some acted ∧ found.objectMeta.uid = acted.objectMeta.uid
    ∧ ∀ finalizer ∈ found.finalizers, finalizer ∈ acted.finalizers
  preconditions : ∀ d, calls c.call = some (.delete d) → d.Met found

/-- So does every removal under a key. -/
def RemovesRightly (key : JsString) (m : ObjectPool locale β E ε) : Prop :=
  ∀ c ∈ m.store.commitsOf key, c.kind = .delete →
    ∃ found, foundIn store c.before = some found ∧ Removes m.callAt c found

/-! ## The condition -/

/-- What is found is the object itself, as it has been changed since: it has
not been created again and has got no finalizer. -/
def SameObject (acted found : Storable β) : Prop :=
  found.objectMeta = { acted.objectMeta with
    resourceVersion := found.objectMeta.resourceVersion
    labels := found.objectMeta.labels
    deletionTimestamp := found.objectMeta.deletionTimestamp
    deletionGracePeriodSeconds := found.objectMeta.deletionGracePeriodSeconds
    finalizers := found.objectMeta.finalizers }
  ∧ ∀ finalizer ∈ found.finalizers, finalizer ∈ acted.finalizers

/-- The object is at the resourceVersion of the preconditions. -/
def ObjectCall.AtVersion (obj : Storable β) : ObjectCall β → Prop
  | .delete d => d.Asks (·.resourceVersion) obj.objectMeta.resourceVersion
  | _ => True

/-- What is found when the step commits a removal is still what the removal
is for. -/
def Untouched (key : JsString) (m : ObjectPool locale β E ε)
    (act : PoolStep (ObjectCall β) StoreRequest) : Prop :=
  ∀ c ∈ ((objectCalls store locale).exec m act).store.commits.drop m.store.commits.length,
    c.kind = .delete → locale.Same c.key key →
      ∃ acted ∈ c.acted, ∃ found ∈ foundIn store (m.store.etcd.current key),
        SameObject acted found ∧ ∃ call ∈ m.callAt c.call, call.AtVersion found

instance (d : ObjectDelete) (wanted : Preconditions → Option JsString) (field : Option JsString) :
    Decidable (d.Asks wanted field) :=
  inferInstanceAs (Decidable (∀ preconditions ∈ d.request.body.bind (·.preconditions),
    truthy (wanted preconditions) = true → field = wanted preconditions))

instance (obj : Storable β) : (call : ObjectCall β) → Decidable (call.AtVersion obj)
  | .create _ _ => isTrue trivial
  | .update _ _ _ _ => isTrue trivial
  | .delete d =>
    inferInstanceAs (Decidable (d.Asks (·.resourceVersion) obj.objectMeta.resourceVersion))

instance (acted found : Storable β) : Decidable (SameObject acted found) :=
  inferInstanceAs (Decidable (_ ∧ _))

instance (key : JsString) (m : ObjectPool locale β E ε)
    (act : PoolStep (ObjectCall β) StoreRequest) : Decidable (Untouched store key m act) :=
  inferInstanceAs (Decidable (∀ c ∈
    ((objectCalls store locale).exec m act).store.commits.drop m.store.commits.length,
      c.kind = .delete → locale.Same c.key key → ∃ acted ∈ c.acted,
        ∃ found ∈ foundIn store (m.store.etcd.current key), SameObject acted found
          ∧ ∃ call ∈ m.callAt c.call, call.AtVersion found))

/-! ## Runs -/

variable {store} {key : JsString} {m : ObjectPool locale β E ε}

theorem met_of_validate {d : ObjectDelete} {obj : Storable β}
    (h : (validateDeletePreconditions d.resourceKind d.name d.request.body obj :
      Except (ApiError ε) Unit) = .ok ()) : d.Met obj := by
  have hfield : ∀ {wanted field : Option JsString}, truthy wanted = true →
      ¬(truthy wanted && wanted != some (field.getD [])) = true → field = wanted := by
    intro wanted field htruthy hsame
    obtain ⟨text, rfl, hne⟩ := truthy_iff.mp htruthy
    cases field <;> simp_all
  unfold validateDeletePreconditions at h
  cases hbody : d.request.body.bind (·.preconditions) with
  | none =>
    constructor <;> intro _ hmem <;> rw [hbody] at hmem <;> cases hmem
  | some preconditions =>
    rw [hbody] at h
    dsimp only at h
    split at h
    · cases h
    · rename_i hversion
      split at h
      · cases h
      · rename_i huid
        constructor <;> intro p hmem htruthy <;> rw [hbody] at hmem <;> cases hmem
        · exact hfield htruthy hversion
        · exact hfield htruthy huid

/-- The object that a removal is for has been checked. -/
def ActsChecked (calls : Nat → Option (ObjectCall β)) (c : Commit β) : Prop :=
  c.kind = .delete → ∃ acted, c.acted = some acted ∧ OnlyPropagation acted
    ∧ ∀ d, calls c.call = some (.delete d) →
      ∃ checked : Storable β, d.Met checked ∧ acted.objectMeta.uid = checked.objectMeta.uid

theorem sound_objectCalls (hcomparable : ∀ k, locale.Same k key → locale.Comparable k)
    (h : (((objectCalls store locale).machine StoreState.IsInitial).guarded
      (WrittenByStore key)).Reach m) :
    Interleaving.Sound (store.discipline key (ActsChecked m.callAt)) (fun _ _ _ _ => True) m := by
  have hforeseen := Interleaving.reach_foreseen h
  generalize m.callAt = calls at hforeseen ⊢
  refine Interleaving.sound (fun s hs => Store.inv_initial _ key hs) ?_ ?_ hforeseen
  · rintro m call ⟨-, hcall⟩ hinv
    have hcall := hcall call rfl
    cases call with
    | create draws obj =>
      refine (wp_ofStore (Store.wp_create draws obj (fun _ _ hsame => hcomparable _ hsame)
        (fun c _ hkind hdelete => ?_) hinv)).mono fun _ _ _ _ => trivial
      rw [hkind] at hdelete
      cases hdelete
    | update rounds name obj skipValidateUpdate =>
      refine (wp_ofStore (wp_replace hcomparable rounds name obj skipValidateUpdate
        (fun c _ wanted hkind _ hdelete => ?_) (fun c hmade _ hfor _ => ?_) hinv)).mono
        fun _ _ _ _ => trivial
      · rw [hkind] at hdelete
        cases hdelete
      · obtain ⟨acted, hacted, honly, -⟩ := hfor
        refine ⟨acted, hacted, honly, fun d hd => ?_⟩
        rw [hmade.call, hcall] at hd
        cases hd
    | delete d =>
      refine (wp_deleteResource hcomparable _ _ _ _ _ _ _ (fun c _ wanted hkind _ _ _ _ hdelete => ?_)
        (fun c hc _ checked hchecked hfor _ => ?_) hinv).mono fun _ _ _ _ => trivial
      · rw [hkind] at hdelete
        cases hdelete
      · obtain ⟨acted, hacted, honly, huid⟩ := hfor
        refine ⟨acted, hacted, honly, fun d' hd' => ⟨checked, ?_, huid⟩⟩
        rw [hc, hcall] at hd'
        cases hd'
        exact met_of_validate hchecked
  · rintro m request ⟨hother, -⟩ hinv
    refine Store.inv_request hinv ?_
    rintro write rfl
    exact hother

/-- What a removal has found was what it was for. -/
def Found (store : Store β E ε) (m : ObjectPool locale β E ε) (c : Commit β) : Prop :=
  ∃ acted, c.acted = some acted ∧ ∃ found, foundIn store c.before = some found
    ∧ SameObject acted found ∧ ∃ call, m.callAt c.call = some call ∧ call.AtVersion found

theorem Found.exec {c : Commit β} (h : Found store m c)
    (act : PoolStep (ObjectCall β) StoreRequest) :
    Found store ((objectCalls store locale).exec m act) c := by
  obtain ⟨acted, hacted, found, hfound, hsame, call, hcall, hversion⟩ := h
  obtain ⟨⟨call, p⟩, hmoved, rfl⟩ := Option.map_eq_some_iff.mp hcall
  obtain ⟨p', hmoved'⟩ : ∃ p', ((objectCalls store locale).exec m act).calls[c.call]?
      = some (call, p') := Interleaving.calls_exec hmoved
  exact ⟨acted, hacted, found, hfound, hsame, call, Pool.callAt_of hmoved', hversion⟩

/-- The removals of a run have. -/
def Spared (store : Store β E ε) (key : JsString) (m : ObjectPool locale β E ε) : Prop :=
  ∀ c ∈ m.store.commitsOf key, c.kind = .delete → Found store m c

theorem spared_exec (h : Spared store key m)
    (hsound : Interleaving.Sound (store.discipline key (ActsChecked m.callAt))
      (fun _ _ _ _ => True) m)
    {act : PoolStep (ObjectCall β) StoreRequest} (hok : Untouched store key m act) :
    Spared store key ((objectCalls store locale).exec m act) := by
  intro c hc hkind
  rw [StoreState.commitsOf, List.mem_filter, decide_eq_true_eq] at hc
  obtain ⟨hc, hsame⟩ := hc
  -- a commit of the step, or one from before it
  have hold (hc : c ∈ m.store.commits) : Found store ((objectCalls store locale).exec m act) c :=
    (h c (List.mem_filter.mpr ⟨hc, decide_eq_true hsame⟩) hkind).exec act
  cases act with
  | start call => exact hold hc
  | disturb request => cases request <;> exact hold hc
  | advance i =>
    have hadvance := @Interleaving.Sound.advance _ _ _ _ _ (objectCalls store locale) _ _ _ hsound i
    rcases hadvance with hstore | ⟨-, -, howes⟩
    · exact hold (hstore ▸ hc)
    · cases howes with
      | nothing hcommits _ => exact hold (hcommits ▸ hc)
      | commit c' _ hcommits hat _ =>
        rw [hcommits, List.mem_append, List.mem_singleton] at hc
        rcases hc with hc | rfl
        · exact hold hc
        · rw [Untouched, hcommits, List.drop_left] at hok
          obtain ⟨acted, hacted, found, hfound, hobject, call, hcall, hversion⟩ :=
            hok c (List.mem_singleton_self c) hkind hsame
          rw [← (hat hsame).1] at hfound
          exact Found.exec ⟨acted, hacted, found, hfound, hobject, call, hcall, hversion⟩ _

def nodePoolAfter (steps : List (PoolStep (ObjectCall Unit) StoreRequest)) :
    ObjectPool rootLocale Unit Unit Unit :=
  steps.foldl (objectCalls Store.nodes rootLocale).exec
    { store := { etcd := FakeState.initial rootLocale 3, ext := () } }

def createNode (uid : JsString) : PoolStep (ObjectCall Unit) StoreRequest :=
  .start (.create { uid } (Store.node (js "a")))

/-- A delete of the node that has the uid `u1`. -/
def deleteNode : PoolStep (ObjectCall Unit) StoreRequest :=
  .start (.delete ⟨1, js "nodes", js "a", none,
    { body := some { preconditions := some { uid := some (js "u1") } } }, {}, 0⟩)

def deletedSteps : List (PoolStep (ObjectCall Unit) StoreRequest) :=
  [createNode (js "u1"), .advance 0, .advance 0, deleteNode, .advance 1, .advance 1, .advance 1]

/-- Between the read of a delete and its removal the node is deleted and
created again. -/
def recreatedSteps : List (PoolStep (ObjectCall Unit) StoreRequest) :=
  [createNode (js "u1"), .advance 0, .advance 0, deleteNode, .advance 1, deleteNode, .advance 2,
    .advance 2, .advance 2, createNode (js "u2"), .advance 3, .advance 3, .advance 1, .advance 1]

end Webernetes.Client
