/-
Webernetes.Client.ApiRuns — rules for the operations of the API under the
discipline of the store.

An operation that reads an object and updates it with the resourceVersion it
has read writes over what it has read (`Rewrites`), whatever the others do
in between and under whichever name it reads. Strings that the collation
takes for the key are taken to be comparable throughout.
-/
import Webernetes.Client.PodApi

namespace Webernetes.Client

open Js Base Etcd Storage
open Store (Grows MadeFrom HasRead)
open Discipline (OnOk)

variable {locale : Etcd.Locale} {β E ε ρ : Type} {store : Store β E ε} {key : JsString}
  {promise : Commit β → Prop} {s : StoreState locale β E} {i : Nat}

theorem wp_ofStore {p : Store.Request locale β E ε ρ} {R : ρ → StoreState locale β E → Prop}
    (h : (store.discipline key promise).Wp i p (OnOk R) s) :
    (store.discipline key promise).Wp i (ofStore p) (OnOk R) s := by
  refine Discipline.wp_lift (h.mono fun outcome t _ hok value heq => ?_)
  cases outcome with
  | ok value' =>
    cases heq
    exact hok value rfl
  | error e => cases heq

/-- By induction on the retries. -/
theorem wp_retryFrom {operation : Nat → ApiRequest locale β E ε ρ}
    {R : ρ → StoreState locale β E → Prop}
    (h : ∀ attempt t, (store.discipline key promise).inv t →
      (store.discipline key promise).Wp i (operation attempt) (OnOk R) t) (retries : Nat) :
    ∀ {attempt s}, (store.discipline key promise).inv s →
      (store.discipline key promise).Wp i (retryFrom operation attempt retries) (OnOk R) s := by
  induction retries with
  | zero => exact fun hs => h _ _ hs
  | succ retries ih =>
    intro attempt s hs
    refine Discipline.wp_bind hs (Discipline.wp_attempt ?_)
    refine (h attempt s hs).lasting.mono fun outcome t ht hlast => ?_
    cases outcome with
    | ok value => exact Discipline.wp_pure hlast
    | error e =>
      dsimp only
      split
      · exact ih ht
      · exact Discipline.wp_throw_ok

theorem wp_retryConflicts {operation : Nat → ApiRequest locale β E ε ρ}
    {R : ρ → StoreState locale β E → Prop}
    (h : ∀ attempt t, (store.discipline key promise).inv t →
      (store.discipline key promise).Wp i (operation attempt) (OnOk R) t)
    (hs : (store.discipline key promise).inv s) :
    (store.discipline key promise).Wp i (retryConflicts operation) (OnOk R) s :=
  wp_retryFrom h 4 hs

/-- No request but those of the calls writes the key. -/
def WrittenByStore {ε' κ : Type} (key : JsString) (m : Base.Pool (StoreState locale β E) ε' ρ κ) :
    PoolStep κ StoreRequest → Prop
  | .disturb (.write write) =>
    ∀ record ∈ (m.store.etcd.execWrite write).records, ¬ locale.Same record.key key
  | _ => True

instance {ε' κ : Type} (key : JsString) (m : Base.Pool (StoreState locale β E) ε' ρ κ)
    (step : PoolStep κ StoreRequest) : Decidable (WrittenByStore key m step) :=
  match step with
  | .disturb (.write write) => inferInstanceAs (Decidable (∀ record ∈
      (m.store.etcd.execWrite write).records, ¬ locale.Same record.key key))
  | .disturb (.compact _) => isTrue trivial
  | .start _ => isTrue trivial
  | .advance _ => isTrue trivial

/-! ## Updates -/

/-- The call has made an update. -/
def HasUpdated (i : Nat) (s : StoreState locale β E) : Prop :=
  ∃ c ∈ s.commits, c.call = i ∧ ∃ wanted, c.kind = .update wanted

/-- The call has stored an object for the input. -/
def HasStored (store : Store β E ε) (skipValidateUpdate : Bool) (input : Storable β) (i : Nat)
    (s : StoreState locale β E) : Prop :=
  ∃ c ∈ s.commits, c.call = i ∧ (∃ wanted, c.kind = .update wanted)
    ∧ ∃ stored, c.stored = some stored
      ∧ store.MayStore skipValidateUpdate (store.updateObject input) stored

theorem HasStored.hasUpdated {skipValidateUpdate : Bool} {input : Storable β}
    (h : HasStored store skipValidateUpdate input i s) : HasUpdated i s := by
  obtain ⟨c, hc, hcall, hkind, -⟩ := h
  exact ⟨c, hc, hcall, hkind⟩

/-- A commit that updates what it has read to an object with the metadata of
the input. -/
structure Replaced (store : Store β E ε) (skipValidateUpdate : Bool) (input : Storable β)
    (c : Commit β) : Prop where
  updated : store.Updated skipValidateUpdate (store.updateObject input) c
  replaces : ∃ wanted, store.Replaces c wanted
  stores : store.Stores c

theorem Replaced.of_made {skipValidateUpdate : Bool} {input : Storable β} {wanted : Option JsString}
    {c : Commit β} (hmade : store.MadeFrom key i s c) (hkind : c.kind = .update wanted)
    (hupdated : store.Updated skipValidateUpdate (store.updateObject input) c) :
    Replaced store skipValidateUpdate input c := by
  have hmeets := hmade.meets
  rw [Store.Meets, hkind] at hmeets
  exact ⟨hupdated, ⟨wanted, hmeets.1⟩, hmeets.2⟩

/-- A commit that writes over the version that was read. -/
structure Rewrites (store : Store β E ε) (skipValidateUpdate : Bool) (stored : Stored β)
    (input : Storable β) (c : Commit β) : Prop
    extends Replaced store skipValidateUpdate input c where
  read : c.read = some stored

/-- No finalizers are left but those of the propagation. -/
def OnlyPropagation (obj : Storable β) : Prop :=
  ∀ finalizer ∈ obj.finalizers,
    finalizer = finalizerDeleteDependents ∨ finalizer = finalizerOrphanDependents

theorem onlyPropagation_of_isEmpty {obj : Storable β} {policy : DeletePropagationPolicy}
    (h : (deletionFinalizers obj.finalizers policy).isEmpty = true) : OnlyPropagation obj := by
  intro finalizer hmem
  by_contra hother
  have hkept : finalizer ∈ deletionFinalizers obj.finalizers policy := by
    cases policy <;> simp_all [deletionFinalizers]
  rw [List.isEmpty_iff.mp h] at hkept
  cases hkept

/-- A removal for a version of an object, once its finalizers are gone. -/
def RemovesFor (obj : Storable β) (c : Commit β) : Prop :=
  ∃ acted, c.acted = some acted ∧ OnlyPropagation acted
    ∧ acted.objectMeta.uid = obj.objectMeta.uid

variable (hcomparable : ∀ k, locale.Same k key → locale.Comparable k)
include hcomparable

/-- An update, with what is known of its commit. -/
theorem wp_updateMade (rounds : Nat) (name : JsString) (input : Storable β)
    (skipValidateUpdate : Bool)
    (hpromise : ∀ c, store.MadeFrom key i s c → c.kind = .update input.objectMeta.resourceVersion →
      Replaced store skipValidateUpdate input c → promise c)
    (hremoval : ∀ c, store.MadeFrom key i s c → c.kind = .delete → RemovesFor input c → promise c)
    (hs : (store.discipline key promise).inv s) :
    (store.discipline key promise).Wp i (store.update i rounds name input skipValidateUpdate)
      (OnOk fun _ t => HasStored store skipValidateUpdate input i t) s := by
  refine (Store.wp_update rounds name input skipValidateUpdate (fun n _ hsame => hcomparable _ hsame)
    (fun c hmade hkind _ hupdated => ?_)
    (fun c stored _ hmade hkind hacted hmeta hfinal => ?_) hs).mono fun outcome t _ h result heq => ?_
  · exact hpromise c hmade hkind (.of_made hmade hkind hupdated)
  · refine hremoval c hmade hkind ⟨_, hacted, fun finalizer hmem => ?_, ?_⟩
    · simp only [Storable.finalizedPendingDeletion, Bool.and_eq_true, List.isEmpty_iff] at hfinal
      rw [Storable.finalizers_withResourceVersion, hfinal.1.2] at hmem
      cases hmem
    · rw [Storable.objectMeta_withResourceVersion, hmeta]
  · obtain ⟨stored, _, _, hstore, c, hc, hcall, hkind, -, hstored, -⟩ := h result heq
    exact ⟨c, hc, hcall, ⟨_, hkind⟩, stored, hstored, hstore⟩

/-- An update of whatever is there. -/
theorem wp_replace (rounds : Nat) (name : JsString) (input : Storable β) (skipValidateUpdate : Bool)
    (hpromise : ∀ c, c.call = i → ∀ wanted, c.kind = .update wanted →
      Replaced store skipValidateUpdate input c → promise c)
    (hremoval : ∀ c, store.MadeFrom key i s c → c.kind = .delete → RemovesFor input c → promise c)
    (hs : (store.discipline key promise).inv s) :
    (store.discipline key promise).Wp i (store.update i rounds name input skipValidateUpdate)
      (OnOk fun _ t => HasStored store skipValidateUpdate input i t) s :=
  wp_updateMade hcomparable rounds name input skipValidateUpdate
    (fun c hmade hkind hreplaced => hpromise c hmade.call _ hkind hreplaced) hremoval hs

/-- An update of what the call has read. -/
theorem wp_rewrite {k : JsString} {stored : Stored β} (hread : store.HasRead key k stored s)
    (rounds : Nat) (name : JsString) {input : Storable β} (skipValidateUpdate : Bool)
    (hversion : input.objectMeta.resourceVersion = some stored.resourceVersion)
    (hpromise : ∀ c, c.call = i → ∀ wanted, c.kind = .update wanted →
      Rewrites store skipValidateUpdate stored input c → promise c)
    (hremoval : ∀ c, store.MadeFrom key i s c → c.kind = .delete → RemovesFor input c → promise c)
    (hs : (store.discipline key promise).inv s) :
    (store.discipline key promise).Wp i (store.update i rounds name input skipValidateUpdate)
      (OnOk fun _ t => HasStored store skipValidateUpdate input i t) s := by
  refine wp_updateMade hcomparable rounds name input skipValidateUpdate
    (fun c hmade hkind hreplaced => ?_) hremoval hs
  rw [hversion] at hkind
  obtain ⟨-, hstored, -⟩ := hread.before hmade hkind
  exact hpromise c hmade.call _ hkind ⟨hreplaced, hstored⟩

/-! ## Patches -/

/-- The patch has been applied to a version that was read. -/
structure Patched (request : PatchRequest β) (stored : Stored β) (input : Storable β) : Prop where
  uid : request.patchedUid.isSome = true → stored.obj.objectMeta.uid.map .string = request.patchedUid
  input : ∃ patched, request.patch stored.obj = .ok patched
    ∧ input = named patched request.name request.namespace

/-- One attempt to patch: it replaces what is there, and what it has read
where the patch keeps the resourceVersion. -/
theorem wp_patchOnce (rounds : Nat) (kind : JsString) (request : PatchRequest β)
    (hpromise : ∀ c, c.call = i → ∀ wanted, c.kind = .update wanted → ∀ stored input,
      Patched request stored input → Replaced store false input c →
      (input.objectMeta.resourceVersion = some stored.resourceVersion → c.read = some stored) →
      promise c)
    (hremoval : ∀ c, c.call = i → c.kind = .delete → promise c)
    (hs : (store.discipline key promise).inv s) :
    (store.discipline key promise).Wp i (patchOnce store i rounds kind request)
      (OnOk fun _ t => ∃ stored input, Patched request stored input
        ∧ HasStored store false input i t) s := by
  refine Discipline.wp_bind_ok hs (wp_ofStore (Store.wp_readStored_ok _ _))
    fun existing t ht ⟨_, hread⟩ => ?_
  cases existing with
  | none => exact Discipline.wp_throw_ok
  | some stored =>
    have hread := hread stored rfl
    generalize store.key request.name (some request.namespace) = k at hread
    dsimp only
    refine Discipline.wp_bind_ok (R := fun _ u => store.HasRead key k stored u) ht
      (Discipline.wp_ofExcept fun u htu _ _ _ => hread.grows htu) fun _ u hu hread => ?_
    refine Discipline.wp_bind_ok (R := fun _ v => store.HasRead key k stored v
      ∧ (request.patchedUid.isSome = true →
        stored.obj.objectMeta.uid.map .string = request.patchedUid)) hu
      (Discipline.wp_ofExcept fun v huv _ _ heq => ⟨hread.grows huv, fun hsome => ?_⟩)
      fun _ v hv ⟨hread, huid⟩ => ?_
    · obtain ⟨patchedUid, hpatched⟩ := Option.isSome_iff_exists.mp hsome
      rw [validatePatchUid, hpatched] at heq
      dsimp only at heq
      split at heq
      · rename_i hsame
        exact hpatched ▸ hsame
      · cases heq
    · refine Discipline.wp_bind_ok (R := fun patched w => store.HasRead key k stored w
        ∧ request.patch stored.obj = .ok patched) hv
        (Discipline.wp_ofExcept fun w hvw _ patched heq => ⟨hread.grows hvw, ?_⟩)
        fun patched w hw ⟨hread, hpatch⟩ => ?_
      · cases hpatch : request.patch stored.obj with
        | error e =>
          rw [hpatch] at heq
          cases heq
        | ok patched' =>
          rw [hpatch] at heq
          cases heq
          rfl
      · have hinput : Patched request stored (named patched request.name request.namespace) :=
          ⟨huid, patched, hpatch, rfl⟩
        refine (wp_ofStore (p := store.update i rounds request.name
          (named patched request.name request.namespace) false) (R := fun _ t => HasStored store false
          (named patched request.name request.namespace) i t) ?_).mono
          fun _ x _ h result heq => ⟨stored, _, hinput, h result heq⟩
        by_cases hversion : (named patched request.name request.namespace).objectMeta.resourceVersion
            = some stored.resourceVersion
        · exact wp_rewrite hcomparable hread rounds request.name false hversion
            (fun c hc wanted hkind hrewrites => hpromise c hc wanted hkind stored _ hinput
              hrewrites.toReplaced fun _ => hrewrites.read)
            (fun c hmade hkind _ => hremoval c hmade.call hkind) hw
        · exact wp_replace hcomparable rounds request.name _ false
            (fun c hc wanted hkind hreplaced => hpromise c hc wanted hkind stored _ hinput hreplaced
              fun heq => absurd heq hversion)
            (fun c hmade hkind _ => hremoval c hmade.call hkind) hw

/-! ## Deletes -/

omit hcomparable in
/-- The object that a delete stores instead of removing: what it has read,
but for the times of its deletion and the finalizers. -/
structure Marks (existing updated : Storable β) : Prop where
  eq : ∃ deletionTimestamp deletionGracePeriodSeconds finalizers,
    updated = { existing with metadata := some { existing.objectMeta with
      deletionTimestamp, deletionGracePeriodSeconds, finalizers } }
  deletionTimestamp : existing.objectMeta.deletionTimestamp.isSome = true →
    updated.objectMeta.deletionTimestamp = existing.objectMeta.deletionTimestamp

omit hcomparable in
theorem Marks.body {existing updated : Storable β} (h : Marks existing updated) :
    updated.body = existing.body := by
  obtain ⟨_, _, _, rfl⟩ := h.eq
  rfl

/-- A removal for what the call has read. -/
theorem wp_removal {acted result : Storable β} (hacted : OnlyPropagation acted) (name : JsString)
    (ns : Option JsString) (rounds : Nat)
    (hremoval : ∀ c, c.call = i → c.kind = .delete → RemovesFor acted c → promise c)
    (hs : (store.discipline key promise).inv s) :
    (store.discipline key promise).Wp i
      (ofStore (store.delete i (some acted) name ns rounds) >>= fun _ => return result)
      (OnOk fun _ _ => True) s := by
  refine Discipline.wp_bind_ok hs (wp_ofStore (Store.wp_delete (some acted) name ns
    (fun hsame => hcomparable _ hsame) (fun c hmade hkind heq => ?_) rounds hs)) fun _ _ _ _ => ?_
  · exact hremoval c hmade.call hkind ⟨acted, heq, hacted, rfl⟩
  · exact Discipline.wp_pure fun _ _ _ => Discipline.onOk_ok trivial

theorem wp_deleteAgain {k : JsString} {stored : Stored β} (hread : store.HasRead key k stored s)
    (rounds : Nat) (name : JsString) (ns : Option JsString) (now : Int)
    (policy : DeletePropagationPolicy) (gracePeriodSeconds : Option Int)
    (hpromise : ∀ c, c.call = i → ∀ wanted, c.kind = .update wanted → ∀ input,
      Marks stored.obj input → Rewrites store true stored input c → promise c)
    (hremoval : ∀ c, c.call = i → c.kind = .delete → RemovesFor stored.obj c → promise c)
    (hs : (store.discipline key promise).inv s) :
    (store.discipline key promise).Wp i
      (deleteAgain store i rounds name ns now stored.obj policy gracePeriodSeconds)
      (OnOk fun _ _ => True) s := by
  unfold deleteAgain
  dsimp only
  split
  · refine Discipline.wp_bind_ok hs (wp_ofStore (wp_rewrite hcomparable hread rounds name true
      (by rw [← hread.resourceVersion]; rfl) (fun c hc wanted hkind hrewrites => ?_)
      (fun c hmade hkind hfor => hremoval c hmade.call hkind hfor) hs)) fun result t ht _ => ?_
    · refine hpromise c hc wanted hkind _ ?_ hrewrites
      exact ⟨⟨_, _, _, rfl⟩, fun _ => rfl⟩
    · split
      · rename_i hempty
        rw [Bool.and_eq_true] at hempty
        exact wp_removal hcomparable (onlyPropagation_of_isEmpty hempty.1) name ns rounds hremoval ht
      · exact Discipline.wp_pure fun _ _ _ => Discipline.onOk_ok trivial
  · split
    · rename_i hempty
      rw [Bool.and_eq_true, List.isEmpty_iff] at hempty
      refine wp_removal hcomparable (fun finalizer hmem => ?_) name ns rounds hremoval hs
      rw [hempty.1] at hmem
      cases hmem
    · exact Discipline.wp_pure fun _ _ _ => Discipline.onOk_ok trivial

theorem wp_deleteFirst {k : JsString} {stored : Stored β} (hread : store.HasRead key k stored s)
    (rounds : Nat) (name : JsString) (ns : Option JsString) (now : Int)
    (policy : DeletePropagationPolicy) (gracePeriodSeconds : Option Int)
    (hfirst : stored.obj.hasDeletionTimestamp = false)
    (hpromise : ∀ c, c.call = i → ∀ wanted, c.kind = .update wanted → ∀ input,
      Marks stored.obj input → Rewrites store true stored input c → promise c)
    (hremoval : ∀ c, c.call = i → c.kind = .delete → RemovesFor stored.obj c → promise c)
    (hs : (store.discipline key promise).inv s) :
    (store.discipline key promise).Wp i
      (deleteFirst store i rounds name ns now stored.obj policy gracePeriodSeconds)
      (OnOk fun _ _ => True) s := by
  unfold deleteFirst
  dsimp only
  split
  · rename_i hempty
    rw [Bool.and_eq_true] at hempty
    exact wp_removal hcomparable (onlyPropagation_of_isEmpty hempty.1) name ns rounds hremoval hs
  · refine (wp_ofStore (wp_rewrite hcomparable hread rounds name true
      (by rw [← hread.resourceVersion]; rfl) (fun c hc wanted hkind hrewrites => ?_)
      (fun c hmade hkind hfor => by exact hremoval c hmade.call hkind hfor) hs)).mono
      fun _ _ _ _ _ _ => trivial
    refine hpromise c hc wanted hkind _ ?_ hrewrites
    refine ⟨⟨_, _, _, rfl⟩, fun hsome => ?_⟩
    rw [Storable.hasDeletionTimestamp, hsome] at hfirst
    cases hfirst

/-- What `deleteResource` commits is a removal, or it marks what the call
has read and checked. -/
theorem wp_deleteResource (rounds : Nat) (resourceKind name : JsString) (ns : Option JsString)
    (request : DeleteRequest) (options : DeleteResourceOptions) (now : Int)
    (hpromise : ∀ c, c.call = i → ∀ wanted, c.kind = .update wanted → ∀ stored input,
      Marks stored.obj input → Rewrites store true stored input c → promise c)
    (hremoval : ∀ c, c.call = i → c.kind = .delete → ∀ checked : Storable β,
      (validateDeletePreconditions resourceKind name request.body checked :
        Except (ApiError ε) Unit) = .ok () → RemovesFor checked c → promise c)
    (hs : (store.discipline key promise).inv s) :
    (store.discipline key promise).Wp i
      (deleteResource store i rounds resourceKind name ns request options now)
      (OnOk fun _ _ => True) s := by
  refine Discipline.wp_bind_ok hs (wp_ofStore (Store.wp_readStored_ok name ns))
    fun existing t ht ⟨_, hread⟩ => ?_
  cases existing with
  | none => exact Discipline.wp_throw_ok
  | some stored =>
    have hread := hread stored rfl
    dsimp only
    refine Discipline.wp_bind_ok (R := fun _ t => store.HasRead key (store.key name ns) stored t
        ∧ (validateDeletePreconditions resourceKind name request.body stored.obj :
          Except (ApiError ε) Unit) = .ok ()) ht
      (Discipline.wp_ofExcept fun u htu _ _ heq => ⟨hread.grows htu, heq⟩)
      fun _ u hu ⟨hread, hchecked⟩ => ?_
    have hremoval := fun c hc hkind hfor => hremoval c hc hkind stored.obj hchecked hfor
    refine Discipline.wp_bind_ok (R := fun _ t => store.HasRead key (store.key name ns) stored t) hu
      (Discipline.wp_ofExcept fun v huv _ _ _ => hread.grows huv) fun policy v hv hread => ?_
    split
    · exact wp_deleteAgain hcomparable hread rounds name ns now policy _
        (fun c hc wanted hkind => hpromise c hc wanted hkind stored) hremoval hv
    · rename_i hfirst
      exact wp_deleteFirst hcomparable hread rounds name ns now policy _ (by simpa using hfirst)
        (fun c hc wanted hkind => hpromise c hc wanted hkind stored) hremoval hv

end Webernetes.Client
