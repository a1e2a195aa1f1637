/-
Webernetes.Client.PodRuns — the node of a pod, whatever creates, replaces,
patches, status writes, deletes and binds of it are interleaved.

An update that is validated keeps the node of the version it writes over,
for the store compares the two. The others, a delete and a bind, write over
the version they have read: a delete keeps its body, and a bind has found no
node in it.
-/
import Webernetes.Client.ApiRuns
import Webernetes.Client.PodApi

namespace Webernetes.Client

open Js Base Etcd Storage
open Store (Grows MadeFrom HasRead)
open Discipline (OnOk)

/-! ## The node of a version -/

def nodeName (pod : Pod) : Option JsString := pod.body.spec.bind (·.nodeName)

/-- An update that is validated keeps the node. -/
theorem nodeName_of_validateUpdate {pod existing : Pod} {body : PodBody}
    (h : PodStore.validateUpdate pod existing = .ok body) :
    body.spec.bind (·.nodeName) = nodeName existing := by
  unfold PodStore.validateUpdate at h
  cases hcreate : PodStore.validateCreate pod with
  | error e =>
    rw [hcreate] at h
    cases h
  | ok created =>
    rw [hcreate] at h
    change (if _ then _ else _) = _ at h
    split at h
    · cases h
    · rename_i hsame
      cases h
      exact not_not.mp hsame

section

variable {locale : Etcd.Locale} {json : JsonCodec Pod}
  {parseNamespace : JsString → Option (Option (Storable Unit))} {obj existing : Pod} {body : PodBody}

theorem nodeName_of_mayUpdate (h : (podStore json parseNamespace).MayUpdate false obj existing body) :
    body.spec.bind (·.nodeName) = nodeName existing := by
  obtain ⟨begun, finishUpdate, -, hvalidated⟩ := h
  have hvalidated : PodStore.validateUpdate { obj with body := begun } existing = .ok body := hvalidated
  exact nodeName_of_validateUpdate hvalidated

/-- What is not validated is stored as it is. -/
theorem body_of_mayUpdate (h : (podStore json parseNamespace).MayUpdate true obj existing body) :
    body = obj.body := by
  obtain ⟨begun, finishUpdate, hbegin, hskip⟩ := h
  have hbegin : (Except.ok (obj.body, finishNothing) : Except PodError _) = .ok (begun, finishUpdate) :=
    hbegin
  cases hbegin
  exact hskip

end

section Nodes

variable {locale : Etcd.Locale} {E : Type} (pods : Store PodBody E PodError)

/-- The node of the pod that a value holds. -/
def nodeOf (value : Option StoredValue) : Option JsString :=
  value.bind fun value => (pods.json.parse value.value.toString).bind nodeName

variable {pods}

theorem nodeOf_before {c : Commit PodBody} {wanted : Option JsString} {stored : Stored PodBody}
    (h : pods.Replaces c wanted) (hread : c.read = some stored) :
    nodeOf pods c.before = nodeName stored.obj := by
  obtain ⟨read, value, hread', hbefore, -, ⟨-, obj, hparse, hobj⟩, -⟩ := h
  rw [hread] at hread'
  cases hread'
  rw [hbefore, nodeOf, Option.bind_some, hparse, Option.bind_some, hobj]
  rfl

theorem nodeOf_after {c : Commit PodBody} {pod : Pod} (h : pods.Stores c)
    (hstored : c.stored = some pod) : nodeOf pods c.after = nodeName pod := by
  obtain ⟨obj, value, hobj, hafter, hholds⟩ := h
  rw [hstored] at hobj
  cases hobj
  rw [hafter, nodeOf, Option.bind_some, hholds.value, JsonCodec.parse_buffer, Option.bind_some]

/-! ## What a commit does to the node -/

variable (pods) in
/-- An update leaves the node as it was. -/
def KeepsNode (c : Commit PodBody) : Prop :=
  ∀ wanted, c.kind = .update wanted → nodeOf pods c.after = nodeOf pods c.before

variable (pods) in
/-- A pod without a node gets one. -/
structure Binds (request : BindPodRequest) (c : Commit PodBody) : Prop where
  unassigned : truthy (nodeOf pods c.before) = false
  target : truthy request.target = true
  assigned : nodeOf pods c.after = request.target

section

variable {json : JsonCodec Pod} {parseNamespace : JsString → Option (Option (Storable Unit))}
  {c : Commit PodBody} {stored : Stored PodBody} {input : Pod}

theorem Replaced.keepsNode (h : Replaced (podStore json parseNamespace) false input c) :
    KeepsNode (podStore json parseNamespace) c := by
  intro _ _
  obtain ⟨existing, body, hread, hstored, hmay⟩ := h.updated
  obtain ⟨wanted, hreplaces⟩ := h.replaces
  rw [nodeOf_before hreplaces hread, nodeOf_after h.stores hstored]
  exact nodeName_of_mayUpdate hmay

/-- What is stored of a rewrite that is not validated. -/
theorem Rewrites.nodes (h : Rewrites (podStore json parseNamespace) true stored input c) :
    nodeOf (podStore json parseNamespace) c.before = nodeName stored.obj
      ∧ nodeOf (podStore json parseNamespace) c.after = nodeName input := by
  obtain ⟨existing, body, -, hstored, hmay⟩ := h.updated
  obtain ⟨wanted, hreplaces⟩ := h.replaces
  refine ⟨nodeOf_before hreplaces h.read, ?_⟩
  rw [nodeOf_after h.stores hstored, body_of_mayUpdate hmay]
  rfl

theorem Rewrites.keepsNode (h : Rewrites (podStore json parseNamespace) true stored input c)
    (hmarks : Marks stored.obj input) : KeepsNode (podStore json parseNamespace) c := by
  intro _ _
  obtain ⟨hbefore, hafter⟩ := h.nodes
  rw [hbefore, hafter, nodeName, hmarks.body, nodeName]

end

/-! ## The operations under the discipline -/

section Operations

variable {json : JsonCodec Pod} {parseNamespace : JsString → Option (Option (Storable Unit))}
  {key : JsString} {promise : Commit PodBody → Prop} {i : Nat} {s : StoreState locale PodBody Unit}
  (hcomparable : ∀ k, locale.Same k key → locale.Comparable k)
include hcomparable

theorem wp_bindPod (rounds : Nat) (request : BindPodRequest)
    (hpromise : ∀ c, c.call = i → (∀ wanted, c.kind = .update wanted →
      Binds (podStore json parseNamespace) request c) → promise c)
    (hs : ((podStore json parseNamespace).discipline key promise).inv s) :
    ((podStore json parseNamespace).discipline key promise).Wp i
      (bind (podStore json parseNamespace) i rounds request) (OnOk fun _ t => HasUpdated i t) s := by
  refine Discipline.wp_bind_ok hs (Store.wp_readStored_ok _ _) fun existing t ht ⟨_, hread⟩ => ?_
  cases existing with
  | none => exact Discipline.wp_throw_ok
  | some stored =>
    have hread := hread stored rfl
    dsimp only
    split
    · exact Discipline.wp_throw_ok
    · rename_i htarget
      split
      · exact Discipline.wp_throw_ok
      · rename_i hunassigned
        refine (wp_rewrite hcomparable hread rounds request.name true
          (by rw [← hread.resourceVersion]; rfl)
          (fun c hc wanted hkind hrewrites => hpromise c hc fun _ _ => ?_)
          (fun c hmade hkind _ => hpromise c hmade.call fun wanted hupdate => ?_) ht).mono
          fun _ _ _ h result heq => (h result heq).hasUpdated
        · obtain ⟨hbefore, hafter⟩ := hrewrites.nodes
          refine ⟨?_, by simpa using htarget, ?_⟩
          · rw [hbefore, nodeName]
            simpa using hunassigned
          · rw [hafter]
            rfl
        · rw [hkind] at hupdate
          cases hupdate

theorem wp_patchPod (rounds : Nat) (kind : JsString) (request : PatchRequest PodBody)
    (hpromise : ∀ c, c.call = i → KeepsNode (podStore json parseNamespace) c → promise c)
    (hs : ((podStore json parseNamespace).discipline key promise).inv s) :
    ((podStore json parseNamespace).discipline key promise).Wp i
      (patchOnce (podStore json parseNamespace) i rounds kind request)
      (OnOk fun _ t => HasUpdated i t) s := by
  refine (wp_patchOnce hcomparable rounds kind request (fun c hc _ _ _ _ _ hreplaced _ =>
    hpromise c hc hreplaced.keepsNode) (fun c hc hkind => hpromise c hc fun wanted hupdate => ?_)
    hs).mono fun _ _ _ h result heq => ?_
  · rw [hkind] at hupdate
    cases hupdate
  · obtain ⟨_, _, -, hstored⟩ := h result heq
    exact hstored.hasUpdated

/-- What an operation on pods keeps: it leaves the nodes as they were, or it
is a bind. -/
theorem wp_podOperation (rounds : Nat) (call : PodCall)
    (hpromise : ∀ c, c.call = i →
      (∀ request, call = .createNamespacedPodBinding request → ∀ wanted, c.kind = .update wanted →
        Binds (podStore json parseNamespace) request c) →
      ((∀ request, call ≠ .createNamespacedPodBinding request) →
        KeepsNode (podStore json parseNamespace) c) → promise c)
    (hs : ((podStore json parseNamespace).discipline key promise).inv s) :
    ((podStore json parseNamespace).discipline key promise).Wp i
      (podOperation (podStore json parseNamespace) rounds i call)
      (OnOk fun _ t => ∀ request, call = .createNamespacedPodBinding request → HasUpdated i t) s := by
  have hno : ∀ {c : Commit PodBody}, c.kind = .create ∨ c.kind = .delete →
      KeepsNode (podStore json parseNamespace) c := by
    intro c hkind wanted hupdate
    rw [hupdate] at hkind
    rcases hkind with hkind | hkind <;> cases hkind
  cases call with
  | createNamespacedPod draws request =>
    have hkeeps : ∀ c, c.call = i → KeepsNode (podStore json parseNamespace) c → promise c :=
      fun c hc hkeeps => hpromise c hc (fun _ heq => by cases heq) fun _ => hkeeps
    refine (wp_ofStore (Store.wp_create draws _ (fun _ _ hsame => hcomparable _ hsame)
      (fun c hmade hkind => hkeeps c hmade.call (hno (.inl hkind))) hs)).mono ?_
    exact fun _ _ _ _ _ _ _ heq => by cases heq
  | createNamespacedPodBinding request =>
    refine (wp_ofStore (wp_bindPod hcomparable rounds request (fun c hc hbinds => ?_) hs)).mono
      fun _ _ _ h result heq _ _ => h result heq
    refine hpromise c hc (fun request' heq => ?_) fun hnot => absurd rfl (hnot request)
    cases heq
    exact hbinds
  | replaceNamespacedPod request =>
    have hkeeps : ∀ c, c.call = i → KeepsNode (podStore json parseNamespace) c → promise c :=
      fun c hc hkeeps => hpromise c hc (fun _ heq => by cases heq) fun _ => hkeeps
    have hreplace : ∀ t, ((podStore json parseNamespace).discipline key promise).inv t →
        ((podStore json parseNamespace).discipline key promise).Wp i
          (ofStore ((podStore json parseNamespace).update i rounds request.name
            (named request.body request.name request.namespace) false))
          (OnOk fun _ _ => True) t :=
      fun t ht => wp_ofStore ((wp_replace hcomparable rounds request.name _ false
        (fun c hc _ _ hreplaced => hkeeps c hc hreplaced.keepsNode)
        (fun c hmade hkind _ => hkeeps c hmade.call (hno (.inr hkind))) ht).mono
        fun _ _ _ _ _ _ => trivial)
    unfold podOperation replaceNamespacedPod replaceResource
    dsimp only
    split
    · exact (hreplace s hs).mono fun _ _ _ _ _ _ _ heq => by cases heq
    · refine (wp_retryConflicts (fun _ t ht => hreplace t ht) hs).mono ?_
      exact fun _ _ _ _ _ _ _ heq => by cases heq
  | patchNamespacedPod request | patchNamespacedPodStatus request =>
    have hkeeps : ∀ c, c.call = i → KeepsNode (podStore json parseNamespace) c → promise c :=
      fun c hc hkeeps => hpromise c hc (fun _ heq => by cases heq) fun _ => hkeeps
    refine (wp_retryConflicts (fun _ t ht => wp_patchPod hcomparable rounds _ request hkeeps ht)
      hs).mono ?_
    exact fun _ _ _ _ _ _ _ heq => by cases heq
  | replaceNamespacedPodStatus request =>
    have hkeeps : ∀ c, c.call = i → KeepsNode (podStore json parseNamespace) c → promise c :=
      fun c hc hkeeps => hpromise c hc (fun _ heq => by cases heq) fun _ => hkeeps
    refine wp_ofStore (Discipline.wp_bind_ok hs (Store.wp_readStored_ok _ _) fun existing t ht _ => ?_)
    cases existing with
    | none => exact Discipline.wp_throw_ok
    | some stored =>
      refine (wp_replace hcomparable rounds request.name _ false
        (fun c hc _ _ hreplaced => hkeeps c hc hreplaced.keepsNode)
        (fun c hmade hkind _ => hkeeps c hmade.call (hno (.inr hkind))) ht).mono ?_
      exact fun _ _ _ _ _ _ _ heq => by cases heq
  | deleteNamespacedPod name ns request now =>
    have hkeeps : ∀ c, c.call = i → KeepsNode (podStore json parseNamespace) c → promise c :=
      fun c hc hkeeps => hpromise c hc (fun _ heq => by cases heq) fun _ => hkeeps
    refine Discipline.wp_bind_ok hs (wp_ofStore (Store.wp_readStored_ok _ _)) fun pod t ht _ => ?_
    refine (wp_retryConflicts (fun attempt u hu => wp_deleteResource hcomparable rounds _ name _
      request _ (now attempt) (fun c hc _ _ _ _ hmarks hrewrites =>
        hkeeps c hc (hrewrites.keepsNode hmarks))
      (fun c hc hkind _ _ _ => hkeeps c hc (hno (.inr hkind))) hu) ht).mono ?_
    exact fun _ _ _ _ _ _ _ heq => by cases heq

end Operations

/-! ## Runs -/

abbrev PodPool (locale : Etcd.Locale) :=
  Base.Pool (StoreState locale PodBody Unit) (ApiError PodError) Pod (Nat × PodCall)

/-- Operations on pods, each with a bound on the rounds of the store's loops,
interleaved at every await. -/
def podCalls (pods : Store PodBody Unit PodError) (locale : Etcd.Locale) :
    Interleaving (StoreState locale PodBody Unit) (ApiError PodError) Pod (Nat × PodCall)
      StoreRequest where
  body i call := podOperation pods call.1 i call.2
  disturb := StoreState.request

/-- The call binds. -/
def Binding (calls : Nat → Option (Nat × PodCall)) (i : Nat) (request : BindPodRequest) : Prop :=
  ∃ rounds, calls i = some (rounds, .createNamespacedPodBinding request)

/-- What becomes of the node of the pods under a key. -/
structure NodeNames (pods : Store PodBody Unit PodError) (key : JsString) (m : PodPool locale) :
    Prop where
  /-- What is found is what the last commit has left. -/
  found : m.store.etcd.current key = leftBy (m.store.commitsOf key)
  /-- A node that is set is kept until the pod is removed. -/
  kept : ∀ front mid rest : List (Commit PodBody), m.store.commitsOf key = front ++ mid ++ rest →
    truthy (nodeOf pods (leftBy front)) = true → (∀ d ∈ mid, d.kind ≠ .delete) →
    nodeOf pods (leftBy (front ++ mid)) = nodeOf pods (leftBy front)
  /-- Only a create and a bind set one. -/
  assigned : ∀ c ∈ m.store.commitsOf key, ∀ wanted, c.kind = .update wanted →
    nodeOf pods c.after ≠ nodeOf pods c.before → ∃ request, Binding m.callAt c.call request
  /-- What a bind commits sets the node that it names. -/
  binds : ∀ c ∈ m.store.commitsOf key, ∀ wanted, c.kind = .update wanted → ∀ request,
    Binding m.callAt c.call request → Binds pods request c
  /-- Between two binds the pod is removed. -/
  oneBind : ∀ (front : List (Commit PodBody)) (c : Commit PodBody) (mid : List (Commit PodBody))
    (c' : Commit PodBody) (rest : List (Commit PodBody)),
    m.store.commitsOf key = front ++ c :: (mid ++ c' :: rest) →
    ∀ wanted wanted' request request', c.kind = .update wanted → c'.kind = .update wanted' →
      Binding m.callAt c.call request → Binding m.callAt c'.call request' →
      ∃ d ∈ mid, d.kind = .delete
  /-- A bind that has succeeded has made its commit. -/
  bound : ∀ i rounds request pod,
    m.calls[i]? = some ((rounds, .createNamespacedPodBinding request), .done (.ok pod)) →
    HasUpdated i m.store

/-- What is promised of the commits, when it is known which calls there
are. -/
def NodePromise (pods : Store PodBody Unit PodError) (calls : Nat → Option (Nat × PodCall))
    (c : Commit PodBody) : Prop :=
  (∀ request, Binding calls c.call request → ∀ wanted, c.kind = .update wanted →
      Binds pods request c)
    ∧ ((∀ request, ¬ Binding calls c.call request) → KeepsNode pods c)

section Runs

variable {json : JsonCodec Pod} {parseNamespace : JsString → Option (Option (Storable Unit))}
  {key : JsString} {m : PodPool locale}

theorem sound_podCalls (hcomparable : ∀ k, locale.Same k key → locale.Comparable k)
    (h : (((podCalls (podStore json parseNamespace) locale).machine StoreState.IsInitial).guarded
      (WrittenByStore key)).Reach m) :
    Interleaving.Sound ((podStore json parseNamespace).discipline key
        (NodePromise (podStore json parseNamespace) m.callAt))
      (fun i call => OnOk fun _ t => ∀ request, call.2 = .createNamespacedPodBinding request →
        HasUpdated i t) m := by
  have hforeseen := Interleaving.reach_foreseen h
  generalize m.callAt = calls at hforeseen ⊢
  refine Interleaving.sound (fun s hs => Store.inv_initial _ key hs) ?_ ?_ hforeseen
  · rintro m ⟨rounds, call⟩ ⟨-, hcall⟩ hinv
    have hcall := hcall _ rfl
    refine wp_podOperation hcomparable rounds call (fun c hc hbinds hkeeps => ?_) hinv
    refine ⟨?_, fun hnot => hkeeps fun request heq => hnot request ⟨rounds, ?_⟩⟩
    · rintro request ⟨rounds', hbinding⟩ wanted hkind
      rw [hc, hcall] at hbinding
      cases hbinding
      exact hbinds request rfl wanted hkind
    · rw [hc, hcall, heq]
  · rintro m request ⟨hother, -⟩ hinv
    refine Store.inv_request hinv ?_
    rintro write rfl
    exact hother

variable {s : StoreState locale PodBody Unit} {calls : Nat → Option (Nat × PodCall)}

/-- By induction on the commits after the first: none of them removes the
pod, so each finds the node that the one before it left. -/
theorem node_kept (h : (podStore json parseNamespace).Promised
      (NodePromise (podStore json parseNamespace) calls) key s) {front : List (Commit PodBody)}
    (htruthy : truthy (nodeOf (podStore json parseNamespace) (leftBy front)) = true)
    (mid : List (Commit PodBody)) : ∀ rest, s.commitsOf key = front ++ mid ++ rest →
      (∀ d ∈ mid, d.kind ≠ .delete) →
      nodeOf (podStore json parseNamespace) (leftBy (front ++ mid))
        = nodeOf (podStore json parseNamespace) (leftBy front) := by
  induction mid using List.reverseRecOn with
  | nil =>
    intro rest _ _
    rw [List.append_nil]
  | append_singleton mid d ih =>
    intro rest hsplit hnone
    have hsplit' : s.commitsOf key = front ++ mid ++ d :: rest := by simp [hsplit]
    have hleft := ih (d :: rest) hsplit' fun e he => hnone e (List.mem_append_left _ he)
    have hbefore : d.before = leftBy (front ++ mid) := h.chained (front ++ mid) d rest hsplit'
    have hmem : d ∈ s.commitsOf key := by simp [hsplit']
    rw [← List.append_assoc, leftBy_concat]
    have hset : truthy (nodeOf (podStore json parseNamespace) d.before) = true := by
      rw [hbefore, hleft, htruthy]
    have hmeets := h.meets d hmem
    obtain ⟨hbinds, hkeeps⟩ := h.promised d hmem
    cases hkind : d.kind with
    | delete => exact absurd hkind (hnone d (by simp))
    | create =>
      rw [Store.Meets, hkind] at hmeets
      rw [hmeets.1] at hset
      cases hset
    | update wanted =>
      rw [hkeeps ?_ wanted hkind, hbefore, hleft]
      intro request hbinding
      rw [(hbinds request hbinding wanted hkind).unassigned] at hset
      cases hset

end Runs

end Nodes

/-! ### Two runs -/

/-- A namespace, and what comes later. -/
def namespaceSteps (later : List (PoolStep (Nat × PodCall) StoreRequest)) :
    List (PoolStep (Nat × PodCall) StoreRequest) :=
  .disturb (.write (.put [] {
    key := js "/registry/namespaces/default"
    value := some (Buffer.fromString ((JsonCodec.ofSpelling (Storable Unit)).stringify
      { body := (), metadata := some { name := some (js "default") } })) })) :: later

/-- What the steps come to, from a new etcd. -/
def podPoolAfter (steps : List (PoolStep (Nat × PodCall) StoreRequest)) : PodPool rootLocale :=
  steps.foldl (podCalls pods rootLocale).exec
    { store := { etcd := FakeState.initial rootLocale 3, ext := () } }

theorem reach_podPoolAfter {key : JsString} {steps : List (PoolStep (Nat × PodCall) StoreRequest)}
    (hok : (podCalls pods rootLocale).Along (WrittenByStore key) (podPoolAfter []) steps) :
    (((podCalls pods rootLocale).machine StoreState.IsInitial).guarded (WrittenByStore key)).Reach
      (podPoolAfter steps) := by
  have hstart : (((podCalls pods rootLocale).machine StoreState.IsInitial).guarded
      (WrittenByStore key)).Reach (podPoolAfter []) := .start ⟨⟨⟨3, rfl⟩, rfl⟩, rfl⟩
  exact Interleaving.reach_foldl hstart hok

/-- A pod on a node, or on none. -/
def podOn (name : JsString) (nodeName : Option JsString) : Pod where
  metadata := some { name := some name, uid := some (js "u1") }
  body := { spec := some { containers := some [js "c"], nodeName } }

def createPod (name : JsString) (nodeName : Option JsString) : Nat × PodCall :=
  (1, .createNamespacedPod {} ⟨js "default", podOn name nodeName⟩)

/-- A pod is created without a node, and bound to one. -/
def boundSteps : List (PoolStep (Nat × PodCall) StoreRequest) :=
  namespaceSteps [.start (createPod (js "a") none), .advance 0, .advance 0, .advance 0,
    .start (1, .createNamespacedPodBinding ⟨js "a", js "default", some (js "n1")⟩), .advance 1,
    .advance 1, .advance 1]

/-- Two creates of a pod whose name is one lone surrogate: each reads before
the other commits. -/
def surrogateSteps : List (PoolStep (Nat × PodCall) StoreRequest) :=
  namespaceSteps [.start (createPod [0xD800] (some (js "n1"))),
    .start (createPod [0xD800] (some (js "n2"))), .advance 0, .advance 0, .advance 1, .advance 1,
    .advance 0, .advance 1]

end Webernetes.Client
