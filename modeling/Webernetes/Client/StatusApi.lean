/-
Webernetes.Client.StatusApi — replacing the status of an object.

`replaceStatus` reads the object, gives it the status of the body and
updates it. What is checked is the version it has read itself: neither the
resourceVersion nor the uid of the body is looked at. `StatusCurrent` is
the condition under which that is the same: what a call finds when it
reads is what its body is a version of.
-/
import Webernetes.Storage.Pod
import Webernetes.Storage.StoreRuns

namespace Webernetes.Client

open Js Base Etcd Storage
open Store (Request CallPool)

/-- Where a body has its status. -/
structure StatusField (β S : Type) where
  status : β → S
  withStatus : β → S → β

structure StatusRequest (β : Type) where
  name : JsString
  «namespace» : JsString
  body : Storable β
  deriving DecidableEq

/-- The operations that replace a status. -/
inductive StatusOperation where
  | replaceNamespacedPodStatus
  | replaceNamespacedDeploymentStatus
  | replaceNamespacedReplicaSetStatus
  deriving DecidableEq

inductive StatusCall (β : Type) where
  /-- A create, update or delete of the store, for whatever operation. -/
  | store (call : StoreCall β)
  | replaceStatus (operation : StatusOperation) (rounds : Nat) (request : StatusRequest β)

def StatusCall.request {β : Type} : StatusCall β → Option (StatusRequest β)
  | .store _ => none
  | .replaceStatus _ _ request => some request

variable {locale : Etcd.Locale} {β S E ε : Type} (store : Store β E ε) (field : StatusField β S)

/-- What the replacements share. -/
def replaceStatusWith (notFound : JsString) (skipValidateUpdate : Bool) (call rounds : Nat)
    (request : StatusRequest β) : Request locale β E ε (Storable β) := do
  match ← store.readStored request.name (some request.namespace) with
  | none => .throw (.notFound (notFound ++ js " \"" ++ request.name ++ js "\" not found"))
  | some current =>
    let status := field.status request.body.body
    store.update call rounds request.name
      { current.obj with body := field.withStatus current.obj.body status } skipValidateUpdate

def replaceNamespacedPodStatus (call rounds : Nat) (request : StatusRequest β) :
    Request locale β E ε (Storable β) :=
  replaceStatusWith store field (js "Pod") false call rounds request

/-- `AppsV1Api.replaceStatus`. -/
def replaceStatus (call rounds : Nat) (request : StatusRequest β) :
    Request locale β E ε (Storable β) :=
  replaceStatusWith store field (request.body.kind.getD (js "Resource")) true call rounds request

def replaceNamespacedDeploymentStatus (call rounds : Nat) (request : StatusRequest β) :
    Request locale β E ε (Storable β) :=
  replaceStatus store field call rounds request

def replaceNamespacedReplicaSetStatus (call rounds : Nat) (request : StatusRequest β) :
    Request locale β E ε (Storable β) :=
  replaceStatus store field call rounds request

def statusOperation (operation : StatusOperation) (call rounds : Nat) (request : StatusRequest β) :
    Request locale β E ε (Storable β) :=
  match operation with
  | .replaceNamespacedPodStatus => replaceNamespacedPodStatus store field call rounds request
  | .replaceNamespacedDeploymentStatus =>
    replaceNamespacedDeploymentStatus store field call rounds request
  | .replaceNamespacedReplicaSetStatus =>
    replaceNamespacedReplicaSetStatus store field call rounds request

/-- Each of them reads first, and differs from the others in a message and in
whether its update is validated. -/
theorem statusOperation_eq (operation : StatusOperation) (call rounds : Nat)
    (request : StatusRequest β) : ∃ notFound skipValidateUpdate,
      (statusOperation store field operation call rounds request :
          Request locale β E ε (Storable β))
        = replaceStatusWith store field notFound skipValidateUpdate call rounds request := by
  cases operation <;> exact ⟨_, _, rfl⟩

/-! ## Runs -/

/-- Status replacements and calls of the store, interleaved at every
await. -/
def statusCalls (locale : Etcd.Locale) : Interleaving (StoreState locale β E) (StoreError ε)
    (StoreAnswer β) (StatusCall β) StoreRequest where
  body i
    | .store call => (store.calls locale).body i call
    | .replaceStatus operation rounds request => do
      return .object (← statusOperation store field operation i rounds request)
  disturb := StoreState.request

abbrev StatusPool (locale : Etcd.Locale) (β E ε : Type) :=
  Base.Pool (StoreState locale β E) (StoreError ε) (StoreAnswer β) (StatusCall β)

/-- No request but those of the store writes the key, and it is one key to
the collation and to the comparisons of the calls. -/
def StatusProper (key : JsString) (m : StatusPool locale β E ε) :
    PoolStep (StatusCall β) StoreRequest → Prop
  | .disturb (.write write) => ∀ record ∈ (m.store.etcd.execWrite write).records,
      ¬ locale.Same record.key key
  | .start (.store call) => ∀ name ∈ store.keysOf call, locale.Same name key → locale.Comparable name
  | .start (.replaceStatus _ _ request) =>
    locale.Same (store.key request.name (some request.namespace)) key →
      locale.Comparable (store.key request.name (some request.namespace))
  | _ => True

instance (key : JsString) (m : StatusPool locale β E ε)
    (step : PoolStep (StatusCall β) StoreRequest) : Decidable (StatusProper store key m step) :=
  match step with
  | .disturb (.write write) => inferInstanceAs (Decidable (∀ record ∈
      (m.store.etcd.execWrite write).records, ¬ locale.Same record.key key))
  | .disturb (.compact _) => isTrue trivial
  | .start (.store call) => inferInstanceAs (Decidable (∀ name ∈ store.keysOf call,
      locale.Same name key → locale.Comparable name))
  | .start (.replaceStatus _ _ request) =>
    inferInstanceAs (Decidable (locale.Same (store.key request.name (some request.namespace)) key →
      locale.Comparable (store.key request.name (some request.namespace))))
  | .advance _ => isTrue trivial

/-- The body names a version of an object. -/
structure Names (body : Storable β) (resourceVersion uid : JsString) : Prop where
  resourceVersion : body.objectMeta.resourceVersion = some resourceVersion
  uid : body.objectMeta.uid = some uid

/-- The first request of a replacement is its read. -/
theorem unstarted_eq (operation : StatusOperation) (i rounds : Nat) (request : StatusRequest β) :
    ∃ next, (statusCalls store field locale).body i (.replaceStatus operation rounds request)
      = .request id next := by
  cases operation <;> exact ⟨_, rfl⟩

/-- What is found is an object with the resourceVersion and the uid. -/
def IsVersion (value : StoredValue) (resourceVersion uid : JsString) : Prop :=
  revisionText value.modRevision = resourceVersion
    ∧ ∃ obj, store.json.parse value.value.toString = some obj ∧ obj.objectMeta.uid = some uid

/-- A call that has made no request yet. -/
def Unstarted (m : StatusPool locale β E ε) (i : Nat) (call : StatusCall β) : Prop :=
  m.calls[i]? = some (call, (statusCalls store field locale).body i call)

/-- A replacement that is about to read finds the version that its body
names, or nothing; and an object is kept under its own name and
namespace. -/
def StatusCurrent (m : StatusPool locale β E ε) : PoolStep (StatusCall β) StoreRequest → Prop
  | .advance i => ∀ operation rounds request,
      Unstarted store field m i (.replaceStatus operation rounds request) →
      let key := store.key request.name (some request.namespace)
      ∀ value obj, m.store.etcd.live key = some value →
        store.json.parse value.value.toString = some obj →
        (∀ name, name = request.name ∨ name = obj.objectMeta.name.getD [] →
            store.key name (store.namespaceOf obj.objectMeta) = key)
          ∧ ∀ resourceVersion uid, Names request.body resourceVersion uid →
            IsVersion store value resourceVersion uid
  | _ => True

/-- What replacing a status under a key comes to. -/
structure StatusGuarded (key : JsString) (m : StatusPool locale β E ε) : Prop where
  /-- It writes over the version that the body names. -/
  onto : ∀ c ∈ m.store.commitsOf key, ∀ wanted, c.kind = .update wanted →
    ∀ operation rounds request p,
      m.calls[c.call]? = some (.replaceStatus operation rounds request, p) →
      ∀ resourceVersion uid, Names request.body resourceVersion uid →
        ∃ value, c.before = some value ∧ IsVersion store value resourceVersion uid
  /-- It does not succeed without writing. -/
  wrote : ∀ i operation rounds request answer,
    m.calls[i]? = some (.replaceStatus operation rounds request, .done (.ok answer)) →
    ∃ c ∈ m.store.commits, c.call = i ∧ ∃ wanted, c.kind = .update wanted
  /-- A call that has made no commit has changed nothing. -/
  unchanged : ∀ i,
    (∀ c ∈ ((statusCalls store field locale).exec m (.advance i)).store.commits, c.call ≠ i) →
    ((statusCalls store field locale).exec m (.advance i)).store.etcd.current key
      = m.store.etcd.current key

/-! ## A replacement after its read -/

section Replacement

variable {store field} {key : JsString} {s : StoreState locale β E} {promise : Commit β → Prop}
  {i : Nat} {m : StatusPool locale β E ε}

/-- A version, in terms of what reading it gives. -/
theorem isVersion_iff {stored : Stored β} {value : StoredValue} (h : store.Reads stored value)
    {resourceVersion uid : JsString} : IsVersion store value resourceVersion uid ↔
      stored.resourceVersion = resourceVersion ∧ stored.obj.objectMeta.uid = some uid := by
  obtain ⟨hmod, obj, hparse, hobj⟩ := h
  simp [IsVersion, hparse, hmod, hobj, Stored.resourceVersion]

/-- An update with the resourceVersion that was read writes over what was
read. -/
theorem before_of_wanted {name : JsString} {stored : Stored β} {c : Commit β}
    (hknows : store.Knows key name stored s) (hmade : store.MadeFrom key i s c)
    (hname : locale.Same name key) (hkind : c.kind = .update (some stored.resourceVersion)) :
    ∃ value, c.before = some value ∧ store.Reads stored value := by
  have hmeets := hmade.meets
  rw [Store.Meets, hkind] at hmeets
  obtain ⟨⟨read, value, -, hbefore, -, hreads, hwanted⟩, -⟩ := hmeets
  have hsame : stored.modRevision = read.modRevision :=
    revisionText_inj (Option.some.inj (hwanted (truthy_revisionText _)))
  obtain ⟨t, hst, hfound⟩ := hmade.before
  obtain ⟨known, hknown, -, -, -, hone⟩ := hknows.grows hst hname
  have heq : value = known := by
    refine hone value (hfound ▸ hbefore) ?_
    rw [hreads.modRevision, hknown.modRevision, hsame]
  exact ⟨value, hbefore, heq ▸ hknown⟩

/-- The update of a replacement, when it has found an object kept under
its own name. -/
theorem wp_restatus {current : Stored β} {k name : JsString} {body : β} {rounds : Nat}
    {skipValidateUpdate : Bool} (hknows : store.Knows key k current s)
    (hresourceVersion : current.obj.objectMeta.resourceVersion = some current.resourceVersion)
    (hkeys : ∀ n, n = name ∨ n = current.obj.objectMeta.name.getD [] →
      store.key n (store.namespaceOf current.obj.objectMeta) = k)
    (hcomparable : locale.Same k key → locale.Comparable k)
    (hpromise : ∀ c, c.call = i → (∀ wanted, c.kind = .update wanted →
      ∃ value, c.before = some value ∧ store.Reads current value) → promise c)
    (hs : (store.discipline key promise).inv s) :
    (store.discipline key promise).Wp i
      (store.update i rounds name { current.obj with body } skipValidateUpdate)
      (Discipline.OnOk fun _ t => ∃ c ∈ t.commits, c.call = i ∧ ∃ wanted, c.kind = .update wanted)
      s := by
  refine (Store.wp_update rounds name { current.obj with body } skipValidateUpdate ?_ ?_ ?_ hs).mono
    fun outcome t _ h result heq => ?_
  · intro n hn hsame
    have hk := hkeys n hn
    exact hk ▸ hcomparable (hk ▸ hsame)
  · intro c hmade hkind hckey _
    refine hpromise c hmade.call fun wanted _ => ?_
    have hk : c.key = k := hckey.trans (hkeys name (.inl rfl))
    exact before_of_wanted hknows hmade (hk ▸ hmade.same) (hresourceVersion ▸ hkind)
  · intro c _ _ hmade hkind _ _ _
    exact hpromise c hmade.call fun wanted hupdate => by rw [hkind] at hupdate; cases hupdate
  · obtain ⟨_, _, _, _, c, hc, hcall, hkind, -⟩ := h result heq
    exact ⟨c, hc, hcall, _, hkind⟩

/-- A replacement that reads what its body names. -/
theorem now_replaceStatus (field : StatusField β S) (operation : StatusOperation) (rounds : Nat) {request : StatusRequest β}
    (hcomparable : locale.Same (store.key request.name (some request.namespace)) key →
      locale.Comparable (store.key request.name (some request.namespace)))
    (hcurrent : ∀ value obj,
      s.etcd.live (store.key request.name (some request.namespace)) = some value →
      store.json.parse value.value.toString = some obj →
      (∀ name, name = request.name ∨ name = obj.objectMeta.name.getD [] →
          store.key name (store.namespaceOf obj.objectMeta)
            = store.key request.name (some request.namespace))
        ∧ ∀ resourceVersion uid, Names request.body resourceVersion uid →
          IsVersion store value resourceVersion uid)
    (hpromise : ∀ c, c.call = i → (∀ wanted, c.kind = .update wanted →
      ∀ resourceVersion uid, Names request.body resourceVersion uid →
        ∃ value, c.before = some value ∧ IsVersion store value resourceVersion uid) → promise c)
    (hs : (store.discipline key promise).inv s) :
    (store.discipline key promise).Now i
      ((statusCalls store field locale).body i (.replaceStatus operation rounds request))
      (Discipline.OnOk fun _ t => ∃ c ∈ t.commits, c.call = i ∧ ∃ wanted, c.kind = .update wanted)
      s := by
  obtain ⟨notFound, skipValidateUpdate, heq⟩ :=
    @statusOperation_eq locale _ _ _ _ store field operation i rounds request
  show (store.discipline key promise).Now i (statusOperation store field operation i rounds request
    >>= fun result => pure (StoreAnswer.object result)) _ s
  rw [heq]
  refine Discipline.now_bind hs (Discipline.now_bind hs (Store.now_readStored hs _ _ ?_))
  intro outcome t hst ht hread
  cases outcome with
  | error e => exact Discipline.onOk_error
  | ok found =>
    cases found with
    | none => exact Discipline.wp_throw fun _ _ _ => Discipline.onOk_error
    | some current =>
      obtain ⟨hknows, value, hlive, hreads⟩ := hread current rfl
      obtain ⟨obj, hparse, hobj⟩ := hreads.obj
      obtain ⟨hkeys, hversion⟩ := hcurrent value obj hlive hparse
      have hmeta : current.obj.objectMeta
          = { obj.objectMeta with resourceVersion := some current.resourceVersion } := by
        rw [hobj, Storable.objectMeta_withResourceVersion]
      refine (wp_restatus hknows.knows (by rw [hmeta]) ?_ hcomparable ?_ ht).mono fun outcome u hu h => ?_
      · rw [hmeta]
        exact hkeys
      · intro c hcall hbefore
        refine hpromise c hcall fun wanted hkind resourceVersion uid hnames => ?_
        obtain ⟨found, hfound, hfoundReads⟩ := hbefore wanted hkind
        refine ⟨found, hfound, (isVersion_iff hfoundReads).mpr ?_⟩
        exact (isVersion_iff hreads).mp (hversion resourceVersion uid hnames)
      · cases outcome with
        | error e => exact Discipline.onOk_error
        | ok result =>
          obtain ⟨c, hc, hmade⟩ := h result rfl
          refine Discipline.wp_pure fun v huv _ => Discipline.onOk_ok ?_
          exact ⟨c, huv.commits.subset hc, hmade⟩

/-- What is promised of the commits, when it is known which calls there
are. -/
def StatusPromise (store : Store β E ε) (calls : Nat → Option (StatusCall β)) (c : Commit β) : Prop :=
  ∀ wanted, c.kind = .update wanted → ∀ operation rounds request,
    calls c.call = some (.replaceStatus operation rounds request) →
    ∀ resourceVersion uid, Names request.body resourceVersion uid →
      ∃ value, c.before = some value ∧ IsVersion store value resourceVersion uid

/-- What an answered call has done. -/
def StatusPost (i : Nat) (call : StatusCall β) (_ : StoreAnswer β) (s : StoreState locale β E) : Prop :=
  match call with
  | .store _ => True
  | .replaceStatus _ _ _ => ∃ c ∈ s.commits, c.call = i ∧ ∃ wanted, c.kind = .update wanted

/-- What is kept of a call: it goes on under the discipline, or it is a
replacement that has not read yet. -/
def StatusKeeps (store : Store β E ε) (field : StatusField β S) (key : JsString)
    (calls : Nat → Option (StatusCall β)) (i : Nat) (call : StatusCall β)
    (p : Prog (StoreState locale β E) (StoreError ε) (StoreAnswer β)) (s : StoreState locale β E) :
    Prop :=
  calls i = some call
    ∧ ((store.discipline key (StatusPromise store calls)).Wp i p (Discipline.OnOk (StatusPost i call)) s
      ∨ ∃ operation rounds request, call = .replaceStatus operation rounds request
        ∧ p = (statusCalls store field locale).body i call
        ∧ (locale.Same (store.key request.name (some request.namespace)) key →
          locale.Comparable (store.key request.name (some request.namespace))))

theorem holding_status
    (h : (((statusCalls store field locale).machine StoreState.IsInitial).guarded fun m act =>
      StatusProper store key m act ∧ StatusCurrent store field m act).Reach m) :
    Interleaving.Holding
      (store.discipline key (StatusPromise store m.callAt)) (StatusKeeps store field key m.callAt)
      m := by
  have hforeseen := Interleaving.reach_foreseen h
  generalize m.callAt = calls at hforeseen ⊢
  refine Interleaving.holding (fun s hs => Store.inv_initial store key hs) ?_ ?_ ?_ ?_ hforeseen
  · rintro i call p s t hst ⟨hcall, hwp | hunstarted⟩
    · exact ⟨hcall, .inl (hwp.stable hst)⟩
    · exact ⟨hcall, .inr hunstarted⟩
  · rintro m call ⟨⟨hproper, -⟩, hcall⟩ hinv
    refine ⟨hcall call rfl, ?_⟩
    cases call with
    | store call =>
      refine .inl ((Store.wp_call call _ hproper (fun c hc => ?_) hinv).mono
        fun _ _ _ _ _ _ => trivial)
      intro wanted _ operation rounds request hnot
      rw [hc, hcall _ rfl] at hnot
      cases hnot
    | replaceStatus operation rounds request => exact .inr ⟨_, _, _, rfl, rfl, hproper⟩
  · rintro m i call effect next ⟨⟨-, hcurrent⟩, -⟩ hinv hmoved ⟨hcall, hwp | hunstarted⟩
    · obtain ⟨hinv', hguar, hnext⟩ := hwp m.store (Store.Grows.refl key m.store) hinv
      exact ⟨hinv', hguar, hcall, .inl hnext⟩
    · obtain ⟨operation, rounds, request, rfl, hbody, hcomparable⟩ := hunstarted
      have hpromise : ∀ c : Commit β, c.call = i → (∀ wanted, c.kind = .update wanted →
          ∀ resourceVersion uid, Names request.body resourceVersion uid →
            ∃ value, c.before = some value ∧ IsVersion store value resourceVersion uid) →
          StatusPromise store calls c := by
        intro c hc hversion wanted hkind operation' rounds' request' hcall'
        rw [hc, hcall] at hcall'
        cases hcall'
        exact hversion wanted hkind
      rw [hbody] at hmoved
      have hnow := now_replaceStatus field operation rounds hcomparable
        (hcurrent operation rounds request hmoved) hpromise hinv
      rw [← hbody] at hnow
      obtain ⟨hinv', hguar, hnext⟩ := hnow
      exact ⟨hinv', hguar, hcall, .inl hnext⟩
  · rintro m request ⟨⟨hother, -⟩, -⟩ hinv
    refine Store.inv_request hinv ?_
    rintro write rfl
    exact hother

end Replacement

variable {store field} {key : JsString} {m : StatusPool locale β E ε}

/-- **A status is replaced in the version its body names**, in every run
in which each replacement finds that version when it reads. -/
theorem replaceStatus_guarded
    (h : (((statusCalls store field locale).machine StoreState.IsInitial).guarded fun m act =>
      StatusProper store key m act ∧ StatusCurrent store field m act).Reach m) :
    StatusGuarded store field key m := by
  have hholding := holding_status h
  obtain ⟨-, hlog⟩ := hholding.inv
  refine ⟨?_, ?_, ?_⟩
  · intro c hc wanted hkind operation rounds request p hcall
    exact hlog.promised c hc wanted hkind operation rounds request (Base.Pool.callAt_of hcall)
  · intro i operation rounds request answer hcall
    obtain ⟨-, hwp | ⟨operation', rounds', request', heq, hbody, -⟩⟩ := hholding.calls i _ _ hcall
    · exact hwp.ended hholding.inv answer rfl
    · obtain ⟨next, hnext⟩ :=
        @unstarted_eq locale _ _ _ _ store field operation' i rounds' request'
      rw [heq, hnext] at hbody
      cases hbody
  · intro i hnone
    dsimp only [Interleaving.exec] at hnone ⊢
    split
    · rename_i call effect next hcall
      obtain ⟨-, hwp | ⟨operation, rounds, request, rfl, hbody, -⟩⟩ := hholding.calls i _ _ hcall
      · obtain ⟨-, ⟨-, howes⟩, -⟩ := hwp m.store (Store.Grows.refl key m.store) hholding.inv
        cases howes with
        | nothing _ hcurrent => exact hcurrent
        | commit c hi hcommits _ _ =>
          rw [hcall] at hnone
          refine absurd hi (hnone c ?_)
          exact hcommits ▸ List.mem_append_right _ (List.mem_singleton_self c)
      · obtain ⟨next', hnext'⟩ := @unstarted_eq locale _ _ _ _ store field operation i rounds request
        rw [hnext'] at hbody
        cases hbody
        rfl
    · rfl

/-! ### Pods -/

/-- Where pods have their status. -/
def podStatus : StatusField PodBody (Option JsString) where
  status body := body.status
  withStatus body status := { body with status }

/-- The pods, in a fixed JSON. -/
def pods : Store PodBody Unit PodError :=
  podStore (.ofSpelling _) fun text => ((JsonCodec.ofSpelling (Storable Unit)).parse text).map some

def pod (resourceVersion : Option JsString) (status : String) : Pod where
  metadata := some { name := some (js "a"), «namespace» := some (js "default"), uid := some (js "u1"),
                     resourceVersion }
  body := { spec := some { containers := some [js "c"] }, status := some (js status) }

def podKey : JsString := js "/registry/pods/default/a"

/-- A namespace, a pod, and what comes later. -/
def podSteps (later : List (PoolStep (StatusCall PodBody) StoreRequest)) :
    List (PoolStep (StatusCall PodBody) StoreRequest) :=
  [.disturb (.write (.put [] {
      key := js "/registry/namespaces/default"
      value := some (Buffer.fromString ((JsonCodec.ofSpelling (Storable Unit)).stringify
        { body := (), metadata := some { name := some (js "default") } })) })),
    .start (.store (.create {} (pod none "Pending"))), .advance 0, .advance 0, .advance 0] ++ later

/-- What the steps come to, from a new etcd. -/
def podsAfter (steps : List (PoolStep (StatusCall PodBody) StoreRequest)) :
    StatusPool rootLocale PodBody Unit PodError :=
  steps.foldl (statusCalls pods podStatus rootLocale).exec
    { store := { etcd := FakeState.initial rootLocale 3, ext := () } }

/-- The status of the first version is replaced. -/
def replaceFirst : StatusCall PodBody :=
  .replaceStatus .replaceNamespacedPodStatus 1
    { name := js "a", «namespace» := js "default", body := pod (some (js "2")) "Running" }

/-- Whatever the replacements look for is the version they name. -/
def AllCurrent (m : StatusPool rootLocale PodBody Unit PodError) : Prop :=
  ∀ c ∈ m.calls, ∀ request ∈ c.1.request,
    ∀ value ∈ m.store.etcd.live (pods.key request.name (some request.namespace)),
    ∀ obj ∈ pods.json.parse value.value.toString,
      obj.objectMeta.name = some request.name ∧ obj.objectMeta.namespace = some request.namespace
        ∧ request.namespace ≠ [] ∧ obj.objectMeta.uid = request.body.objectMeta.uid
        ∧ request.body.objectMeta.resourceVersion = some (revisionText value.modRevision)

instance (m : StatusPool rootLocale PodBody Unit PodError) : Decidable (AllCurrent m) :=
  inferInstanceAs (Decidable (∀ c ∈ m.calls, _))

theorem statusCurrent_of_all {m : StatusPool rootLocale PodBody Unit PodError} (h : AllCurrent m)
    (step : PoolStep (StatusCall PodBody) StoreRequest) : StatusCurrent pods podStatus m step := by
  cases step with
  | advance i =>
    intro operation rounds request hunstarted key value obj hlive hparse
    obtain ⟨hname, hns, hne, huid, hversion⟩ := h _ (List.mem_of_getElem? hunstarted) request rfl value
      hlive obj hparse
    have hspace : pods.namespaceOf obj.objectMeta = some request.namespace := by
      rw [Store.namespaceOf, hns, truthy_iff.mpr ⟨_, rfl, hne⟩]
      rfl
    refine ⟨?_, fun resourceVersion uid hnames => ⟨?_, obj, hparse, ?_⟩⟩
    · rintro name (rfl | rfl)
      · rw [hspace]
      · rw [hspace, hname]
        rfl
    · exact Option.some.inj (hversion.symm.trans hnames.resourceVersion)
    · exact huid.trans hnames.uid
  | start call => trivial
  | disturb request => trivial

theorem reach_podsAfter {ok : StatusPool rootLocale PodBody Unit PodError →
      PoolStep (StatusCall PodBody) StoreRequest → Prop}
    {steps : List (PoolStep (StatusCall PodBody) StoreRequest)}
    (hok : (statusCalls pods podStatus rootLocale).Along ok (podsAfter []) steps) :
    (((statusCalls pods podStatus rootLocale).machine StoreState.IsInitial).guarded ok).Reach
      (podsAfter steps) := by
  have hstart : (((statusCalls pods podStatus rootLocale).machine StoreState.IsInitial).guarded
      ok).Reach (podsAfter []) := .start ⟨⟨⟨3, rfl⟩, rfl⟩, rfl⟩
  exact Interleaving.reach_foldl hstart hok

/-- The first version is still there. -/
theorem replaceStatus_guarded_first :
    ((podsAfter (podSteps [.start replaceFirst, .advance 1, .advance 1, .advance 1])).store.commits.map
        fun c => (c.call, c.before.map (·.modRevision))) = [(0, none), (1, some 2)]
      ∧ StatusGuarded pods podStatus podKey
        (podsAfter (podSteps [.start replaceFirst, .advance 1, .advance 1, .advance 1])) := by
  -- what the run comes to, evaluated once
  obtain ⟨hcommits, hsteps⟩ :
      (podsAfter (podSteps [.start replaceFirst, .advance 1, .advance 1, .advance 1])).store.commits.map
          (fun c => (c.call, c.before.map (·.modRevision))) = [(0, none), (1, some 2)]
        ∧ (statusCalls pods podStatus rootLocale).Along
          (fun m step => StatusProper pods podKey m step ∧ AllCurrent m) (podsAfter [])
          (podSteps [.start replaceFirst, .advance 1, .advance 1, .advance 1]) := by
    decide +kernel
  refine ⟨hcommits, replaceStatus_guarded ?_⟩
  exact (reach_podsAfter hsteps).guarded_mono fun m step ⟨hproper, hall⟩ =>
    ⟨hproper, statusCurrent_of_all hall step⟩

/-- The pod is updated before its status is replaced: the replacement
writes over the second version. -/
def staleSteps : List (PoolStep (StatusCall PodBody) StoreRequest) :=
  podSteps [.start (.store (.update 1 (js "a") (pod none "Succeeded") false)), .advance 1, .advance 1,
    .start replaceFirst, .advance 2, .advance 2, .advance 2]

theorem staleStatus_not_guarded :
    (((statusCalls pods podStatus rootLocale).machine StoreState.IsInitial).guarded
        (StatusProper pods podKey)).Reach (podsAfter staleSteps)
      ∧ ¬ StatusGuarded pods podStatus podKey (podsAfter staleSteps) := by
  -- what the run comes to, evaluated once
  obtain ⟨hproper, hcommits, hcalled⟩ : (statusCalls pods podStatus rootLocale).Along
        (StatusProper pods podKey) (podsAfter []) staleSteps
      ∧ ((podsAfter staleSteps).store.commitsOf podKey).getLast?.map
        (fun c => (c.call, c.kind, c.before.map (·.modRevision)))
          = some (2, .update (some (js "3")), some 3)
      ∧ ((podsAfter staleSteps).callAt 2).bind StatusCall.request
          = some ⟨js "a", js "default", pod (some (js "2")) "Running"⟩ := by decide +kernel
  refine ⟨reach_podsAfter hproper, fun h => ?_⟩
  obtain ⟨c, hlast, hc⟩ := Option.map_eq_some_iff.mp hcommits
  simp only [Prod.mk.injEq] at hc
  obtain ⟨hcall, hkind, hbefore⟩ := hc
  obtain ⟨call, hat, hrequest⟩ := Option.bind_eq_some_iff.mp hcalled
  obtain ⟨⟨call, p⟩, hmoved, rfl⟩ := Option.map_eq_some_iff.mp hat
  cases call with
  | store call => cases hrequest
  | replaceStatus operation rounds request =>
    cases hrequest
    obtain ⟨value, hvalue, hversion, -⟩ := h.onto c (List.mem_of_getLast? hlast) _ hkind _ _ _ p
      (hcall ▸ hmoved) _ _ ⟨rfl, rfl⟩
    rw [hvalue, Option.map_some] at hbefore
    rw [Option.some.inj hbefore] at hversion
    revert hversion
    decide

end Webernetes.Client
