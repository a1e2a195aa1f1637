/-
Webernetes.Kubelet.StatusSettles — what a full batch leaves to do, where no
update arrives and the API answers.

The status that a pod was patched with has the conditions of the kubelet that
were merged into it, so that a pod that shows it has nothing to reconcile
(`reconciled_of_settles`). The loop of a calm batch keeps two facts: what is
not yet pending has been sent, and the versions of the others are as the
batch left them (`Settling`).
-/
import Webernetes.Kubelet.StatusSyncRuns

namespace Webernetes.Kubelet

open Js Api Base

variable {T O : Type}

/-! ## The conditions of a merged status -/

/-- The last condition of a type that the kubelet owns or shares. -/
theorem get_kubeletConditions (status : PodStatus T O) (conditionType : JsString) :
    (kubeletConditions status).get conditionType =
      if podConditionByKubelet conditionType || podConditionSharedByKubelet conditionType then
        (status.conditions.getD []).reverse.find? fun c => c.type = conditionType
      else none := by
  rw [kubeletConditions, JsMap.get_ofList, ← List.map_reverse, List.find?_map, Option.map_map,
    ← List.filter_reverse, List.find?_filter]
  have hsnd : (Prod.snd ∘ fun c : PodCondition T => (c.type, c)) = id := rfl
  rw [hsnd, Option.map_id_fun, id]
  split
  · rename_i howned
    refine congrArg (fun p => List.find? p _) (funext fun c => ?_)
    by_cases htype : c.type = conditionType
    · simp [htype, howned]
    · simp [htype]
  · rename_i hnot
    rw [List.find?_eq_none]
    intro c _ hc
    simp only [Function.comp_apply, decide_eq_true_eq] at hc
    obtain ⟨howned, rfl⟩ := hc
    exact hnot howned

theorem type_of_get_kubeletConditions {status : PodStatus T O} {conditionType : JsString}
    {condition : PodCondition T} (h : (kubeletConditions status).get conditionType = some condition) :
    condition.type = conditionType := by
  rw [get_kubeletConditions] at h
  split at h
  · simpa using List.find?_some h
  · cases h

/-- Two conditions that the kubelet finds equal, or none. -/
def SameCondition (oldCondition newCondition : Option (PodCondition T)) : Prop :=
  Option.Rel (fun old new => sameCondition old new = true) oldCondition newCondition

theorem sameCondition_refl (condition : PodCondition T) : sameCondition condition condition = true := by
  simp [sameCondition]

/-- Two maps with the same keys are of one size. -/
theorem size_eq_of_keys {κ μ ν : Type} [DecidableEq κ] {m : JsMap κ μ} {n : JsMap κ ν}
    (h : ∀ key, (m.get key).isSome = (n.get key).isSome) : m.size = n.size := by
  have hkeys : m.keys.Perm n.keys := by
    refine (List.perm_ext_iff_of_nodup m.nodup_keys n.nodup_keys).mpr fun key => ?_
    rw [JsMap.mem_keys_iff, JsMap.mem_keys_iff, ← Option.isSome_iff_exists, ← Option.isSome_iff_exists, h]
  have hlength := hkeys.length_eq
  rw [JsMap.keys, JsMap.keys, List.length_map, List.length_map] at hlength
  exact hlength

/-- What the comparison of two statuses asks. -/
theorem isPodStatusByKubeletEqual_of_same [DecidableEq T] [DecidableEq O] {oldStatus status : PodStatus T O}
    (hconditions : ∀ conditionType, SameCondition ((kubeletConditions oldStatus).get conditionType)
      ((kubeletConditions status).get conditionType))
    (hrest : { oldStatus with
        conditions := status.conditions
        resourceClaimStatuses := status.resourceClaimStatuses
        extendedResourceClaimStatus := status.extendedResourceClaimStatus
        nodeAllocatableResourceClaimStatuses := status.nodeAllocatableResourceClaimStatuses
        observedGeneration := status.observedGeneration } = status)
    (hgeneration : oldStatus.observedGeneration = status.observedGeneration) :
    isPodStatusByKubeletEqual oldStatus status = true := by
  have hsize : (kubeletConditions status).size = (kubeletConditions oldStatus).size := by
    refine (size_eq_of_keys fun conditionType => ?_).symm
    have hsame := hconditions conditionType
    cases hold : (kubeletConditions oldStatus).get conditionType with
    | none =>
      rw [hold] at hsame
      generalize (kubeletConditions status).get conditionType = new at hsame
      cases hsame
      rfl
    | some old =>
      rw [hold] at hsame
      generalize (kubeletConditions status).get conditionType = new at hsame
      cases hsame
      rfl
  have hvalues : (kubeletConditions status).values.any (fun newCondition =>
      !((kubeletConditions oldStatus).get newCondition.type).any fun oldCondition =>
        sameCondition oldCondition newCondition) = false := by
    rw [Bool.eq_false_iff, Ne, List.any_eq_true]
    rintro ⟨newCondition, hmem, hdiffers⟩
    obtain ⟨⟨conditionType, newCondition⟩, hentry, rfl⟩ := List.mem_map.mp hmem
    dsimp only at hdiffers
    have hget := JsMap.get_eq_some_iff.mpr hentry
    have hsame := hconditions conditionType
    rw [hget] at hsame
    rw [show newCondition.type = conditionType from type_of_get_kubeletConditions hget] at hdiffers
    generalize (kubeletConditions oldStatus).get conditionType = old at hsame hdiffers
    cases hsame with
    | some hsame =>
      rw [Option.any_some, hsame] at hdiffers
      cases hdiffers
  unfold isPodStatusByKubeletEqual
  dsimp only
  rw [if_neg (by simpa using hsize), hvalues, if_neg Bool.false_ne_true, decide_eq_true_eq, hgeneration]
  conv_rhs => rw [← hrest]

/-- An assignment to an element that is left out, to one that is. -/
theorem filter_setFirst {α : Type} {p q : α → Bool} {f : α → α} (hp : ∀ x, p x = true → q x = false)
    (hf : ∀ x, q (f x) = false) (xs : List α) : (setFirst p f xs).filter q = xs.filter q := by
  induction xs with
  | nil => rfl
  | cons x xs ih =>
    rw [setFirst]
    split
    · rename_i hx
      rw [List.filter_cons_of_neg (by simp [hf]), List.filter_cons_of_neg (by simp [hp x hx])]
    · rw [List.filter_cons, List.filter_cons, ih]

theorem filter_replaceOrAppend {condition : PodCondition T} (hnot : podConditionByKubelet condition.type = false)
    (conditions : List (PodCondition T)) :
    (replaceOrAppendPodCondition conditions condition).filter (fun c => podConditionByKubelet c.type)
      = conditions.filter fun c => podConditionByKubelet c.type := by
  unfold replaceOrAppendPodCondition setCondition
  split
  · refine filter_setFirst (q := fun c : PodCondition T => podConditionByKubelet c.type) (fun c hc => ?_)
      (fun _ => hnot) conditions
    rw [of_decide_eq_true hc, hnot]
  · rw [List.filter_append, List.filter_cons_of_neg (by simp [hnot]), List.filter_nil, List.append_nil]

theorem filter_mergeCondition (now : T) (oldPodStatus : PodStatus T O) (ends : Bool) (m : MergingConditions T O)
    (c : PodCondition T) :
    (mergeCondition now oldPodStatus ends m c).podConditions.filter (fun c => podConditionByKubelet c.type)
      = m.podConditions.filter (fun c => podConditionByKubelet c.type)
        ++ [c].filter fun c => podConditionByKubelet c.type := by
  unfold mergeCondition
  split
  · rw [List.filter_append]
  · rename_i hnot
    have hnot : podConditionByKubelet c.type = false := Bool.eq_false_iff.mpr hnot
    rw [List.filter_cons_of_neg (by simp [hnot]), List.filter_nil, List.append_nil]
    split
    · dsimp only
      split
      · rfl
      · rename_i updatedCondition hget
        refine filter_replaceOrAppend ?_ m.podConditions
        rw [type_of_getPodCondition hget, hnot]
    · rfl

/-- The conditions that the kubelet owns are those of the new status. -/
theorem filter_mergedConditions (now : T) (oldPodStatus newPodStatus : PodStatus T O)
    (couldHaveRunningContainers : Bool) :
    (mergedConditions now oldPodStatus newPodStatus couldHaveRunningContainers).filter
        (fun c => podConditionByKubelet c.type)
      = (newPodStatus.conditions.getD []).filter fun c => podConditionByKubelet c.type := by
  have hfoldl : ∀ (ends : Bool) (conditions : List (PodCondition T)) (m : MergingConditions T O),
      (conditions.foldl (mergeCondition now oldPodStatus ends) m).podConditions.filter
          (fun c => podConditionByKubelet c.type)
        = m.podConditions.filter (fun c => podConditionByKubelet c.type)
          ++ conditions.filter fun c => podConditionByKubelet c.type := by
    intro ends conditions
    induction conditions with
    | nil =>
      intro m
      rw [List.filter_nil, List.append_nil]
      rfl
    | cons c conditions ih =>
      intro m
      rw [List.foldl_cons, ih, filter_mergeCondition, List.append_assoc, ← List.filter_append]
      rfl
  unfold mergedConditions
  dsimp only
  rw [hfoldl, List.filter_filter]
  simp

/-- What is found of a condition that the kubelet owns. -/
theorem get_kubeletConditions_of_filter {status status' : PodStatus T O}
    (h : (status.conditions.getD []).filter (fun c => podConditionByKubelet c.type)
      = (status'.conditions.getD []).filter fun c => podConditionByKubelet c.type)
    {conditionType : JsString} (howned : podConditionByKubelet conditionType = true) :
    (kubeletConditions status).get conditionType = (kubeletConditions status').get conditionType := by
  have hfind : ∀ conditions : List (PodCondition T),
      conditions.reverse.find? (fun c => c.type = conditionType)
        = (conditions.filter fun c => podConditionByKubelet c.type).reverse.find? fun c =>
          c.type = conditionType := by
    intro conditions
    rw [← List.filter_reverse, List.find?_filter]
    refine congrArg (fun p => List.find? p _) (funext fun c => ?_)
    by_cases htype : c.type = conditionType
    · simp [htype, howned]
    · simp [htype]
  rw [get_kubeletConditions, get_kubeletConditions, hfind, hfind (status'.conditions.getD []), h]

theorem get_kubeletConditions_normalizeStatus (host : Host T) (pod : Api.Pod T O) (status : PodStatus T O)
    (conditionType : JsString) : (kubeletConditions (normalizeStatus host pod status)).get conditionType
      = ((kubeletConditions status).get conditionType).map (normalizeCondition host) := by
  rw [get_kubeletConditions, get_kubeletConditions]
  split
  · show ((status.conditions.map (List.map (normalizeCondition host))).getD []).reverse.find? _ = _
    cases status.conditions with
    | none => rfl
    | some conditions =>
      show ((conditions.map (normalizeCondition host)).reverse.find? _) = _
      rw [← List.map_reverse, List.find?_map]
      rfl
  · rfl

/-! ## Nothing to reconcile -/

/-- The merge keeps what the kubelet reports: the pod does not end while its
containers may run, is not ready when it has ended, and shares the condition
that it shares. -/
structure Settles (sent : Sent T O) : Prop where
  ends : transitionsToTerminal (sent.pod.status.getD {}) sent.status.status = true →
    sent.couldHaveRunningContainers = false
  ready : isPodPhaseTerminal sent.status.status.phase = true →
    ∀ c ∈ sent.status.status.conditions.getD [], c.type = js "Ready" ∨ c.type = js "ContainersReady" →
      c.status ≠ js "True"
  shared : SameCondition ((kubeletConditions sent.merged).get (js "DisruptionTarget"))
    ((kubeletConditions sent.status.status).get (js "DisruptionTarget"))

/-- The status that such a merge gives. -/
theorem Settles.merged_eq {sent : Sent T O} (h : Settles sent) : sent.merged = { sent.status.status with
    conditions := some (mergedConditions sent.now (sent.pod.status.getD {}) sent.status.status
      sent.couldHaveRunningContainers)
    resourceClaimStatuses := (sent.pod.status.getD {}).resourceClaimStatuses
    extendedResourceClaimStatus := (sent.pod.status.getD {}).extendedResourceClaimStatus
    nodeAllocatableResourceClaimStatuses := (sent.pod.status.getD {}).nodeAllocatableResourceClaimStatuses } := by
  have hfalse : ∀ conditionType, conditionType = js "Ready" ∨ conditionType = js "ContainersReady" →
      isPodPhaseTerminal sent.status.status.phase = true → ∀ condition,
      getPodConditionFromList (some (mergedConditions sent.now (sent.pod.status.getD {}) sent.status.status
        sent.couldHaveRunningContainers)) conditionType = some condition → condition.status ≠ js "True" := by
    intro conditionType hlisted hterminal condition hget
    have htype : condition.type = conditionType := of_decide_eq_true
      (List.find?_some (p := fun c : PodCondition T => decide (c.type = conditionType)) hget)
    have howned : podConditionByKubelet condition.type = true := by
      rw [htype]
      rcases hlisted with rfl | rfl <;> decide
    have hmem : condition ∈ (mergedConditions sent.now (sent.pod.status.getD {}) sent.status.status
        sent.couldHaveRunningContainers).filter fun c => podConditionByKubelet c.type :=
      List.mem_filter.mpr ⟨List.mem_of_find?_eq_some hget, howned⟩
    rw [filter_mergedConditions] at hmem
    refine h.ready hterminal condition (List.mem_filter.mp hmem).1 ?_
    rw [htype]
    exact hlisted
  have hnotTrue : ∀ conditionType, conditionType = js "Ready" ∨ conditionType = js "ContainersReady" →
      isPodPhaseTerminal sent.status.status.phase = true → ∀ status : PodStatus T O,
      status.conditions = some (mergedConditions sent.now (sent.pod.status.getD {}) sent.status.status
        sent.couldHaveRunningContainers) → conditionTrue status conditionType = false := by
    intro conditionType hlisted hterminal status hconditions
    rw [conditionTrue, getPodCondition, hconditions]
    cases hget : getPodConditionFromList (some (mergedConditions sent.now (sent.pod.status.getD {})
        sent.status.status sent.couldHaveRunningContainers)) conditionType with
    | none => rfl
    | some condition => exact decide_eq_false (hfalse conditionType hlisted hterminal condition hget)
  have hheld : (transitionsToTerminal (sent.pod.status.getD {}) sent.status.status
      && sent.couldHaveRunningContainers) = false := by
    cases hends : transitionsToTerminal (sent.pod.status.getD {}) sent.status.status with
    | false => rfl
    | true => exact h.ends hends
  unfold Sent.merged mergePodStatus
  dsimp only
  rw [hheld, if_neg Bool.false_ne_true]
  unfold endReadiness
  split
  · rename_i hnot
    simp only [Bool.and_eq_true, Bool.or_eq_true] at hnot
    obtain ⟨hterminal, hready⟩ := hnot
    rcases hready with hready | hready
    · rw [hnotTrue (js "Ready") (.inl rfl) hterminal _ rfl] at hready
      cases hready
    · rw [hnotTrue (js "ContainersReady") (.inr rfl) hterminal _ rfl] at hready
      cases hready
  · rfl

/-! ## Normal statuses -/

section Normalized

variable (host : Host T)

theorem normalizeIfThere_idem (time : Option (Stamp T)) :
    normalizeIfThere host (normalizeIfThere host time) = normalizeIfThere host time := by
  cases time with
  | none => rfl
  | some stamp =>
    cases stamp with
    | date t => rfl
    | text s => cases s <;> rfl

theorem normalizeCondition_idem (condition : PodCondition T) :
    normalizeCondition host (normalizeCondition host condition) = normalizeCondition host condition := by
  simp only [normalizeCondition, normalizeTimeStamp_idem]

theorem normalizeTerminated_idem (bytes : Nat) (terminated : ContainerStateTerminated T O) :
    normalizeTerminated host bytes (normalizeTerminated host bytes terminated)
      = normalizeTerminated host bytes terminated := by
  have hcut : ∀ message : JsString,
      (if (if message.length > bytes then message.take bytes else message).length > bytes then
        (if message.length > bytes then message.take bytes else message).take bytes
      else if message.length > bytes then message.take bytes else message)
        = if message.length > bytes then message.take bytes else message := by
    intro message
    by_cases hlong : message.length > bytes
    · have hshort : ¬ (message.take bytes).length > bytes := by
        rw [List.length_take]
        omega
      rw [if_pos hlong, if_neg hshort]
    · rw [if_neg hlong, if_neg hlong]
  unfold normalizeTerminated
  simp only [normalizeIfThere_idem, Option.map_map, Function.comp_def, hcut]

theorem normalizeRunning_idem (running : ContainerStateRunning T) :
    normalizeRunning host (normalizeRunning host running) = normalizeRunning host running := by
  simp only [normalizeRunning, normalizeIfThere_idem]

theorem normalizeContainerState_idem (bytes : Nat) (state : ContainerState T O) :
    normalizeContainerState host bytes (normalizeContainerState host bytes state)
      = normalizeContainerState host bytes state := by
  simp only [normalizeContainerState, Option.map_map, Function.comp_def, normalizeRunning_idem,
    normalizeTerminated_idem]

theorem normalizeContainerStatus_idem (bytes : Nat) (status : ContainerStatus T O) :
    normalizeContainerStatus host bytes (normalizeContainerStatus host bytes status)
      = normalizeContainerStatus host bytes status := by
  simp only [normalizeContainerStatus, Option.map_map, Function.comp_def, normalizeContainerState_idem]

/-- The statuses are in order already, and each is normal. -/
theorem normalizeContainerStatuses_idem (bytes : Nat) (statuses : List (ContainerStatus T O)) :
    normalizeContainerStatuses host bytes (normalizeContainerStatuses host bytes statuses)
      = normalizeContainerStatuses host bytes statuses := by
  let le (left right : ContainerStatus T O) : Bool := (host.locale.localeCompare left.name right.name).isLE
  let sorted := (statuses.map (normalizeContainerStatus host bytes)).mergeSort le
  have hsorted : sorted.Pairwise fun left right => le left right = true := by
    refine List.pairwise_mergeSort (fun a b c => ?_) (fun a b => ?_) _
    · exact Std.TransCmp.isLE_trans
    · show ((host.locale.localeCompare a.name b.name).isLE || (host.locale.localeCompare b.name a.name).isLE)
        = true
      rw [← Std.OrientedCmp.isGE_eq_isLE]
      cases host.locale.localeCompare b.name a.name <;> rfl
  have hmap : sorted.map (normalizeContainerStatus host bytes) = sorted := by
    refine (List.map_congr_left fun status hmem => ?_).trans (List.map_id sorted)
    obtain ⟨before, -, rfl⟩ := List.mem_map.mp (List.mem_mergeSort.mp hmem)
    exact normalizeContainerStatus_idem host bytes before
  show (sorted.map (normalizeContainerStatus host bytes)).mergeSort le = sorted
  rw [hmap, List.mergeSort_of_pairwise hsorted]

/-- A normal status is normal for every pod with as many containers. -/
theorem normalizeStatus_idem {pod pod' : Api.Pod T O} (hbytes : bytesPerStatus pod' = bytesPerStatus pod)
    (status : PodStatus T O) :
    normalizeStatus host pod' (normalizeStatus host pod status) = normalizeStatus host pod status := by
  unfold normalizeStatus
  simp only [hbytes, normalizeIfThere_idem, Option.map_map, Function.comp_def, List.map_map,
    normalizeCondition_idem, normalizeContainerStatuses_idem]

/-- The fields that are compared are those of the new status. -/
theorem normalizeStatus_with (pod : Api.Pod T O) (status oldStatus : PodStatus T O)
    (conditions : Option (List (PodCondition T))) :
    { normalizeStatus host pod { status with
        conditions
        resourceClaimStatuses := oldStatus.resourceClaimStatuses
        extendedResourceClaimStatus := oldStatus.extendedResourceClaimStatus
        nodeAllocatableResourceClaimStatuses := oldStatus.nodeAllocatableResourceClaimStatuses } with
      conditions := (normalizeStatus host pod status).conditions
      resourceClaimStatuses := (normalizeStatus host pod status).resourceClaimStatuses
      extendedResourceClaimStatus := (normalizeStatus host pod status).extendedResourceClaimStatus
      nodeAllocatableResourceClaimStatuses :=
        (normalizeStatus host pod status).nodeAllocatableResourceClaimStatuses
      observedGeneration := (normalizeStatus host pod status).observedGeneration }
      = normalizeStatus host pod status := rfl

/-- A pod that shows the patched status has nothing to reconcile. -/
theorem reconciled_of_settles [DecidableEq T] [DecidableEq O] {sent : Sent T O} (h : Settles sent)
    {pod : Api.Pod T O} (hshown : normalizeStatus host pod (pod.status.getD {}) = normalizeStatus host pod sent.merged)
    (hnormal : normalizeStatus host pod sent.status.status = sent.status.status) :
    isPodStatusByKubeletEqual (normalizeStatus host pod (pod.status.getD {})) sent.status.status = true := by
  have hsame : ∀ condition, SameCondition (Option.map (normalizeCondition host) condition) condition := by
    intro condition
    cases condition with
    | none => exact .none
    | some condition => exact .some (sameCondition_refl condition)
  rw [hshown]
  refine isPodStatusByKubeletEqual_of_same (fun conditionType => ?_) ?_ ?_
  · rw [get_kubeletConditions_normalizeStatus]
    cases howned : podConditionByKubelet conditionType with
    | true =>
      have hfilter : (sent.merged.conditions.getD []).filter (fun c => podConditionByKubelet c.type)
          = (sent.status.status.conditions.getD []).filter fun c => podConditionByKubelet c.type := by
        rw [h.merged_eq]
        exact filter_mergedConditions _ _ _ _
      rw [get_kubeletConditions_of_filter hfilter howned]
      exact hsame _
    | false =>
      cases hshared : podConditionSharedByKubelet conditionType with
      | true =>
        have htype : conditionType = js "DisruptionTarget" := of_decide_eq_true hshared
        have hkept := h.shared
        rw [← htype] at hkept
        generalize (kubeletConditions sent.merged).get conditionType = old at hkept ⊢
        generalize (kubeletConditions sent.status.status).get conditionType = new at hkept ⊢
        cases hkept with
        | none => exact .none
        | some hkept => exact .some hkept
      | false =>
        rw [get_kubeletConditions, get_kubeletConditions, howned, hshared]
        exact .none
  · have hfields := normalizeStatus_with host pod sent.status.status (sent.pod.status.getD {})
      (some (mergedConditions sent.now (sent.pod.status.getD {}) sent.status.status
        sent.couldHaveRunningContainers))
    rw [hnormal] at hfields
    rw [h.merged_eq]
    exact hfields
  · rw [h.merged_eq]
    rfl

end Normalized

/-! ## Calm batches -/

/-- The pod manager knows the pod that is read, by the uid that the batch has. -/
def Known (directory : PodDirectory T O) (update : PendingUpdate T O) (pod : Api.Pod T O) : Prop :=
  directory.translatePodUid (pod.uid.getD []) ≠ []
    ∧ (directory.translatePodUid (pod.uid.getD []) = update.podUid → podStatusKey pod = update.statusUid)

/-- The loop over a batch goes on, and no call fails. -/
def Calm (s : Syncing T O) (event : SyncEvent T O) : Prop :=
  event.fails = false ∧
    match event with
    | .statuses _ => False
    | .startBatch _ _ => False
    | .read (some pod) _ directory _ _ => ∀ update, s.phase = .reading update → Known directory update pod
    | _ => True

/-- No two pods that have a status share the uid that it is kept under. -/
def Separate (directory : PodDirectory T O) (podStatuses : PodStatuses T O) : Prop :=
  ∀ uid uid' statusUid, (podStatuses.get uid).isSome = true → (podStatuses.get uid').isSome = true →
    uidOfStatus directory uid = some statusUid → uidOfStatus directory uid' = some statusUid → uid = uid'

/-- The synced statuses from a state on. -/
def syncingFrom (host : Host T) [DecidableEq T] [DecidableEq O] (start : Syncing T O) :
    System (Syncing T O) (SyncEvent T O) where
  init s := s = start
  step := (syncing host).step

/-- The pod that `needsReconcile` looks at. -/
def comparedPod (directory : PodDirectory T O) (uid : JsString) : Option (Api.Pod T O) :=
  (directory.getPodByUid uid).bind fun pod =>
    if isStaticPod pod then directory.getMirrorPodByPod pod else some pod

/-- The pod is shown with the status that was sent, and with as many containers. -/
def Shows (host : Host T) (directory : PodDirectory T O) (uid : JsString) (sent : Sent T O) (pod : Api.Pod T O) :
    Prop :=
  ∀ shown, comparedPod directory uid = some shown → bytesPerStatus shown = bytesPerStatus pod
    ∧ normalizeStatus host shown (shown.status.getD {}) = normalizeStatus host shown sent.merged

section Calm

variable (host : Host T) [DecidableEq T] [DecidableEq O]

theorem needsReconcile_eq (directory : PodDirectory T O) (uid : JsString) (status : PodStatus T O) :
    needsReconcile host directory uid status = (comparedPod directory uid).any fun pod =>
      !isPodStatusByKubeletEqual (normalizeStatus host pod (pod.status.getD {})) status := by
  unfold needsReconcile comparedPod
  cases directory.getPodByUid uid with
  | none => rfl
  | some pod =>
    dsimp only [Option.bind_some]
    generalize (if isStaticPod pod then directory.getMirrorPodByPod pod else some pod) = compared
    cases compared with
    | none => rfl
    | some pod => rfl

theorem needsReconcile_of_shows {directory : PodDirectory T O} {uid : JsString} {sent : Sent T O}
    {pod : Api.Pod T O} {given : PodStatus T O} (hgiven : sent.status.status = normalizeStatus host pod given)
    (hshows : Shows host directory uid sent pod) (hsettles : Settles sent) :
    needsReconcile host directory uid sent.status.status = false := by
  rw [needsReconcile_eq]
  cases hcompared : comparedPod directory uid with
  | none => rfl
  | some shown =>
    obtain ⟨hbytes, hshown⟩ := hshows shown hcompared
    have hnormal : normalizeStatus host shown sent.status.status = sent.status.status := by
      rw [hgiven]
      exact normalizeStatus_idem host hbytes given
    rw [Option.any_some, reconciled_of_settles host hsettles hshown hnormal]
    rfl

/-- What the loop over a batch has done, and what it leaves as it was. -/
structure Settling (batch : List (PendingUpdate T O)) (before : Manager T O) (s : Syncing T O) : Prop where
  cached : ∀ uid status, s.manager.podStatuses.get uid = some status → before.podStatuses.get uid = some status
  pending : ∀ update ∈ s.pending, update ∈ batch
  sending : ∀ update sending, s.phase = .patching update sending → sending.podUid = update.podUid
    ∧ sending.status = update.status ∧ podStatusKey sending.pod = update.statusUid
  others : ∀ uid, (∀ update ∈ batch, update.statusUid ≠ uid) →
    s.manager.apiStatusVersions.get uid = before.apiStatusVersions.get uid
  synced : ∀ update ∈ batch, s.manager.podStatuses.get update.podUid = some update.status →
    update ∈ s.pending ∨ ∃ sent, s.sent.get update.statusUid = some sent ∧ sent.podUid = update.podUid
      ∧ sent.status = update.status

variable {host} {batch : List (PendingUpdate T O)} {before : Manager T O} {s : Syncing T O}

omit [DecidableEq T] [DecidableEq O] in
/-- The status of an update is removed, where the update is the next one. -/
theorem Settling.removed (h : Settling batch before s) {update : PendingUpdate T O}
    (hphase : s.phase.update = [update]) : Settling batch before { s with
      phase := .ready
      manager := { s.manager with podStatuses := deletePodStatus update.podUid s.manager.podStatuses } } := by
  have hget : ∀ uid status, (deletePodStatus update.podUid s.manager.podStatuses).get uid = some status →
      uid ≠ update.podUid ∧ s.manager.podStatuses.get uid = some status := by
    intro uid status hget
    rw [deletePodStatus, JsMap.get_delete] at hget
    split at hget
    · cases hget
    · rename_i hne
      exact ⟨hne, hget⟩
  constructor
  case cached => exact fun uid status hcached => h.cached uid status (hget uid status hcached).2
  case pending => exact fun u hmem => h.pending u (List.mem_append_right _ hmem)
  case sending => exact fun _ _ heq => by cases heq
  case others => exact h.others
  case synced =>
    intro u hmem hcached
    obtain ⟨hne, hcached⟩ := hget _ _ hcached
    rcases h.synced u hmem hcached with hpending | hsent
    · rw [Syncing.pending, hphase] at hpending
      rcases List.mem_cons.mp hpending with rfl | hpending
      · exact absurd rfl hne
      · exact .inl (List.mem_append_right _ hpending)
    · exact .inr hsent

omit [DecidableEq T] [DecidableEq O] in
theorem Settling.patched (h : Settling batch before s)
    (hseparate : ∀ u ∈ batch, ∀ u' ∈ batch, u.statusUid = u'.statusUid → u = u')
    {update : PendingUpdate T O} {sending : Sent T O} (hphase : s.phase = .patching update sending)
    {answer : Option (Api.Pod T O)}
    (hanswer : answer.all (fun current => podStatusKey current = podStatusKey sending.pod) = true) :
    Settling batch before (s.patched update sending answer) := by
  obtain ⟨huid, hstatus, hkey⟩ := h.sending update sending hphase
  have hcurrent : podStatusKey (answer.getD sending.pod) = update.statusUid := by
    rw [← hkey]
    cases answer with
    | none => rfl
    | some current => simpa using hanswer
  have hupdate : update ∈ batch := by
    refine h.pending update ?_
    rw [Syncing.pending, hphase]
    exact List.mem_cons_self
  have hpending : ∀ u ∈ (s.patched update sending answer).pending, u ∈ s.pending := by
    intro u hmem
    have hmem : u ∈ (if canBeDeleted (answer.getD sending.pod) update.status.podIsFinished then
        Phase.deleting update else .ready).update ++ s.batch.getD [] := hmem
    rw [Syncing.pending, hphase]
    rcases List.mem_append.mp hmem with hmem | hmem
    · split at hmem
      · exact List.mem_append_left _ hmem
      · cases hmem
    · exact List.mem_append_right _ hmem
  constructor
  case cached => exact h.cached
  case pending => exact fun u hmem => h.pending u (hpending u hmem)
  case sending =>
    intro u sent heq
    have heq : (if canBeDeleted (answer.getD sending.pod) update.status.podIsFinished then
        Phase.deleting update else .ready) = .patching u sent := heq
    split at heq
    · cases heq
    · cases heq
  case others =>
    intro uid hnot
    show (s.manager.apiStatusVersions.set (podStatusKey (answer.getD sending.pod)) update.status.version).get uid
      = before.apiStatusVersions.get uid
    rw [hcurrent, JsMap.get_set_of_ne _ _ (Ne.symm (hnot update hupdate))]
    exact h.others uid hnot
  case synced =>
    intro u hmem hcached
    show u ∈ _ ∨ ∃ sent, (s.sent.set (podStatusKey (answer.getD sending.pod)) sending).get u.statusUid = some sent
      ∧ _
    by_cases hsame : u.statusUid = update.statusUid
    · obtain rfl := hseparate u hmem update hupdate hsame
      refine .inr ⟨sending, ?_, huid, hstatus⟩
      rw [hcurrent, JsMap.get_set_self]
    · rw [hcurrent, JsMap.get_set_of_ne _ _ hsame]
      rcases h.synced u hmem hcached with hpending | hsent
      · rw [Syncing.pending, hphase] at hpending
        rcases List.mem_cons.mp hpending with rfl | hpending
        · exact absurd rfl hsame
        · exact .inl (List.mem_append_right _ hpending)
      · exact .inr hsent

theorem Settling.exec (h : Settling batch before s)
    (hseparate : ∀ u ∈ batch, ∀ u' ∈ batch, u.statusUid = u'.statusUid → u = u')
    {s' : Syncing T O} {event : SyncEvent T O} (hcalm : Calm s event) (hexec : s.exec host event = some s') :
    Settling batch before s' := by
  cases executed_of_exec hexec with
  | updated event => exact hcalm.2.elim
  | started directory all hphase => exact hcalm.2.elim
  | @next update updates hphase hbatch =>
    have hpending : s.pending = update :: updates := by
      rw [Syncing.pending, hphase, hbatch]
      rfl
    have hsame : Syncing.pending { s with phase := .reading update, batch := some updates } = s.pending :=
      hpending.symm
    refine ⟨h.cached, ?_, ?_, h.others, ?_⟩
    · rw [hsame]
      exact h.pending
    · intro _ _ heq
      cases heq
    · rw [hsame]
      exact h.synced
  | ended hbatch =>
    have hpending : Syncing.pending { s with batch := none } = s.pending := by
      rw [Syncing.pending, Syncing.pending, hbatch]
      rfl
    refine ⟨h.cached, ?_, h.sending, h.others, ?_⟩
    · rw [hpending]
      exact h.pending
    · rw [hpending]
      exact h.synced
  | dropped hfails =>
    rw [hcalm.1] at hfails
    cases hfails
  | @read update pod directory couldHaveRunningContainers now hphase =>
    obtain ⟨hthere, hknown⟩ := hcalm.2 update hphase
    unfold Syncing.read
    dsimp only
    split
    · exact h.removed (by rw [hphase]; rfl)
    · rename_i htranslated
      have hnonempty : (directory.translatePodUid (pod.uid.getD [])).isEmpty = false := by
        simpa using hthere
      rw [hnonempty, Bool.not_false, Bool.true_and, decide_eq_true_eq, not_not] at htranslated
      have hpending : ∀ sending, Syncing.pending { s with phase := .patching update sending } = s.pending := by
        intro sending
        rw [Syncing.pending, Syncing.pending, hphase]
        rfl
      refine ⟨h.cached, ?_, ?_, h.others, ?_⟩
      · rw [hpending]
        exact h.pending
      · intro update' sending heq
        cases heq
        exact ⟨rfl, rfl, hknown htranslated⟩
      · rw [hpending]
        exact h.synced
  | patched hphase hanswers => exact h.patched hseparate hphase hanswers
  | deleted hphase => exact h.removed (by rw [hphase]; rfl)

/-- The batch as it is captured. -/
theorem settling_startBatch (hphase : s.phase = .ready) (directory : PodDirectory T O) (all : Bool) :
    Settling (capture host directory all s.manager).updatedStatuses
      { s.manager with apiStatusVersions := (capture host directory all s.manager).apiStatusVersions }
      (s.startBatch host directory all) := by
  have hpending : (s.startBatch host directory all).pending
      = (capture host directory all s.manager).updatedStatuses := by
    show s.phase.update ++ _ = _
    rw [hphase]
    rfl
  refine ⟨fun _ _ h => h, ?_, ?_, fun _ _ => rfl, ?_⟩
  · intro update hmem
    rwa [hpending] at hmem
  · intro update sending heq
    rw [show (s.startBatch host directory all).phase = s.phase from rfl, hphase] at heq
    cases heq
  · intro update hmem _
    rw [hpending]
    exact .inl hmem

theorem Calm.renews {event : SyncEvent T O} (h : Calm s event) : Renews host s event := by
  cases event with
  | statuses event => exact h.2.elim
  | _ => trivial

variable (host) (s) in
/-- What the versions of a state stand for, and what the batches from there on do. -/
structure VersionsStand : Prop where
  /-- A version is of a status that was merged and sent, and that is the cached
  one where the cached version is not above it. -/
  sent : ∀ statusUid version, s.manager.apiStatusVersions.get statusUid = some version →
    ∃ sent, s.sent.get statusUid = some sent ∧ sent.status.version = version ∧ Merges statusUid sent
      ∧ ∀ cached, s.manager.podStatuses.get sent.podUid = some cached → cached.version ≤ version →
        sent.status = cached
  /-- Whenever a status was cached, the next batch has it, or its version is there. -/
  captured : ∀ directory all uid cached statusUid, s.manager.podStatuses.get uid = some cached →
    uidOfStatus directory uid = some statusUid →
    { podUid := uid, statusUid, status := cached } ∈ (capture host directory all s.manager).updatedStatuses
      ∨ ∃ version, s.manager.apiStatusVersions.get statusUid = some version ∧ cached.version ≤ version
  /-- A batch that no update and no failure interrupts leaves nothing to update but
  deletions, and a full one nothing to reconcile but what the merge leaves. -/
  settled : s.phase = .ready → s.batch = none → ∀ directory all s', Separate directory s.manager.podStatuses →
    ((syncingFrom host (s.startBatch host directory all)).guarded Calm).Reach s' →
    s'.phase = .ready → s'.batch = none →
    ∀ uid cached statusUid, s'.manager.podStatuses.get uid = some cached →
      uidOfStatus directory uid = some statusUid →
      (∀ directory', needsUpdate directory' s'.manager.apiStatusVersions statusUid cached = true →
        ∃ pod, directory'.getPodByUid statusUid = some pod ∧ canBeDeleted pod cached.podIsFinished = true)
      ∧ (all = true → needsReconcile host directory uid cached.status = false
        ∨ ∃ sent pod, s'.sent.get statusUid = some sent ∧ sent.podUid = uid ∧ sent.status = cached
          ∧ podStatusKey pod = uid ∧ ∀ directory', Shows host directory' uid sent pod → Settles sent →
            needsReconcile host directory' uid cached.status = false)

omit [DecidableEq T] [DecidableEq O] in
theorem needsUpdate_of_version {directory : PodDirectory T O} {versions : JsMap JsString Nat}
    {statusUid : JsString} {version : Nat} {status : VersionedPodStatus T O}
    (hget : versions.get statusUid = some version) (hle : status.version ≤ version)
    (hneeds : needsUpdate directory versions statusUid status = true) :
    ∃ pod, directory.getPodByUid statusUid = some pod ∧ canBeDeleted pod status.podIsFinished = true := by
  unfold needsUpdate at hneeds
  rw [hget] at hneeds
  dsimp only at hneeds
  rw [if_neg (by omega)] at hneeds
  cases hpod : directory.getPodByUid statusUid with
  | none =>
    rw [hpod] at hneeds
    cases hneeds
  | some pod =>
    rw [hpod] at hneeds
    exact ⟨pod, rfl, hneeds⟩

theorem Synced.settled (h : Synced s) (hstatuses : (statuses host).Reach s.manager.podStatuses)
    (hphase : s.phase = .ready) {directory : PodDirectory T O} {all : Bool} {s' : Syncing T O}
    (hseparate : Separate directory s.manager.podStatuses)
    (hreach : ((syncingFrom host (s.startBatch host directory all)).guarded Calm).Reach s')
    (hphase' : s'.phase = .ready) (hbatch' : s'.batch = none) {uid statusUid : JsString}
    {cached : VersionedPodStatus T O} (hcached : s'.manager.podStatuses.get uid = some cached)
    (huid : uidOfStatus directory uid = some statusUid) :
    (∃ version, s'.manager.apiStatusVersions.get statusUid = some version ∧ cached.version ≤ version)
      ∧ (all = true → needsReconcile host directory uid cached.status = false
        ∨ ∃ sent, s'.sent.get statusUid = some sent ∧ sent.podUid = uid ∧ sent.status = cached) := by
  have hcaptured := captured_capture host directory all s.manager
  have hseparates : ∀ u ∈ (capture host directory all s.manager).updatedStatuses,
      ∀ u' ∈ (capture host directory all s.manager).updatedStatuses, u.statusUid = u'.statusUid → u = u' := by
    intro u hu u' hu' hsame
    rcases hcaptured.updates u hu with hnone | ⟨hentry, hof⟩
    · cases hnone
    rcases hcaptured.updates u' hu' with hnone | ⟨hentry', hof'⟩
    · cases hnone
    have hget := JsMap.get_eq_some_iff.mpr hentry
    have hget' := JsMap.get_eq_some_iff.mpr hentry'
    have hpod : u.podUid = u'.podUid := by
      refine hseparate u.podUid u'.podUid u.statusUid (Option.isSome_iff_exists.mpr ⟨_, hget⟩)
        (Option.isSome_iff_exists.mpr ⟨_, hget'⟩) hof ?_
      rw [hsame]
      exact hof'
    rw [hpod, hget'] at hget
    cases u
    cases u'
    simp_all
  have hboth : Settling (capture host directory all s.manager).updatedStatuses
      { s.manager with apiStatusVersions := (capture host directory all s.manager).apiStatusVersions } s'
      ∧ Synced s' ∧ (statuses host).Reach s'.manager.podStatuses := by
    refine hreach.invariant (P := fun s' : Syncing T O =>
      Settling (capture host directory all s.manager).updatedStatuses
        { s.manager with apiStatusVersions := (capture host directory all s.manager).apiStatusVersions } s'
      ∧ Synced s' ∧ (statuses host).Reach s'.manager.podStatuses) ?_ ?_
    · rintro s' rfl
      exact ⟨settling_startBatch hphase directory all, h.startBatch hphase directory all, hstatuses⟩
    · rintro s' event s'' - ⟨hsettling, hsynced, hstatuses⟩ ⟨hexec, hcalm⟩
      exact ⟨hsettling.exec hseparates hcalm hexec, hsynced.exec hstatuses hcalm.renews hexec,
        statuses_of_exec hstatuses hexec⟩
  obtain ⟨hsettling, hsynced, -⟩ := hboth
  have hbefore := hsettling.cached uid cached hcached
  rcases hcaptured.covers uid cached statusUid (JsMap.get_eq_some_iff.mp hbefore) huid
    (h.positive uid cached hbefore) with hmem | ⟨⟨version, hget, hle⟩, hfound⟩
  · have hnone : s'.pending = [] := by
      rw [Syncing.pending, hphase', hbatch']
      rfl
    rcases hsettling.synced _ hmem hcached with hpending | ⟨sent, hsent, hpod, hstatus⟩
    · rw [hnone] at hpending
      cases hpending
    · refine ⟨⟨cached.version, ?_, le_refl _⟩, fun _ => .inr ⟨sent, hsent, hpod, hstatus⟩⟩
      rw [hsynced.versions, hsent]
      exact congrArg (fun status => some status.version) hstatus
  · by_cases hother : ∃ u ∈ (capture host directory all s.manager).updatedStatuses, u.statusUid = statusUid
    · obtain ⟨u, hu, rfl⟩ := hother
      rcases hcaptured.updates u hu with hnone | ⟨hentry, hof⟩
      · cases hnone
      have hget' := JsMap.get_eq_some_iff.mpr hentry
      obtain rfl : u.podUid = uid := hseparate u.podUid uid u.statusUid
        (Option.isSome_iff_exists.mpr ⟨_, hget'⟩) (Option.isSome_iff_exists.mpr ⟨_, hbefore⟩) hof huid
      rw [hget'] at hbefore
      cases hbefore
      rcases hsettling.synced u hu hcached with hpending | ⟨sent, hsent, hpod, hstatus⟩
      · rw [Syncing.pending, hphase', hbatch'] at hpending
        cases hpending
      · refine ⟨⟨u.status.version, ?_, le_refl _⟩, fun _ => .inr ⟨sent, hsent, hpod, hstatus⟩⟩
        rw [hsynced.versions, hsent]
        exact congrArg (fun status => some status.version) hstatus
    · have hnot : ∀ u ∈ (capture host directory all s.manager).updatedStatuses, u.statusUid ≠ statusUid :=
        fun u hu heq => hother ⟨u, hu, heq⟩
      refine ⟨⟨version, ?_, hle⟩, fun hall => .inl (hfound hall)⟩
      rw [hsettling.others statusUid hnot]
      exact hcaptured.stays statusUid version hget hnot

/-- Every cached status is normal for a pod that it was cached for. -/
theorem normalized_of_reach {podStatuses : PodStatuses T O} (h : (statuses host).Reach podStatuses) :
    ∀ key cached, podStatuses.get key = some cached →
      ∃ pod given, podStatusKey pod = key ∧ cached.status = normalizeStatus host pod given :=
  cached_of_reach (P := fun key cached => ∃ pod given, podStatusKey pod = key
    ∧ cached.status = normalizeStatus host pod given) host
    (fun pod _ _ ⟨given, hgiven⟩ => ⟨pod, given, rfl, hgiven⟩) h

theorem versionsStand_of_reach (h : ((syncing host).guarded (Renews host)).Reach s) : VersionsStand host s := by
  obtain ⟨hsynced, hstatuses⟩ := synced_of_reach h
  constructor
  case sent =>
    intro statusUid version hversion
    rw [hsynced.versions] at hversion
    obtain ⟨sent, hsent, rfl⟩ := Option.map_eq_some_iff.mp hversion
    refine ⟨sent, hsent, rfl, hsynced.merges statusUid sent hsent, fun cached hcached hle => ?_⟩
    obtain ⟨hbelow, hsame⟩ := hsynced.sent statusUid sent hsent cached hcached
    exact hsame (by omega)
  case captured =>
    intro directory all uid cached statusUid hcached huid
    have hcaptured := captured_capture host directory all s.manager
    rcases hcaptured.covers uid cached statusUid (JsMap.get_eq_some_iff.mp hcached) huid
      (hsynced.positive uid cached hcached) with hmem | ⟨⟨version, hget, hle⟩, -⟩
    · exact .inl hmem
    · refine .inr ⟨version, ?_, hle⟩
      cases all with
      | true => exact shrinks_forgetVersions directory s.manager hget
      | false => exact hget
  case settled =>
    intro hphase _ directory all s' hseparate hreach hphase' hbatch' uid cached statusUid hcached huid
    obtain ⟨⟨version, hget, hle⟩, hfound⟩ :=
      hsynced.settled hstatuses hphase hseparate hreach hphase' hbatch' hcached huid
    refine ⟨fun directory' hneeds => needsUpdate_of_version hget hle hneeds, fun hall => ?_⟩
    rcases hfound hall with hfound | ⟨sent, hsent, hpod, hstatus⟩
    · exact .inl hfound
    · have hreach' : (statuses host).Reach s'.manager.podStatuses := by
        refine hreach.invariant (P := fun s' : Syncing T O => (statuses host).Reach s'.manager.podStatuses) ?_ ?_
        · rintro s' rfl
          exact hstatuses
        · rintro s' event s'' - hstatuses ⟨hexec, -⟩
          exact statuses_of_exec hstatuses hexec
      obtain ⟨pod, given, hkey, hgiven⟩ := normalized_of_reach hreach' uid cached hcached
      refine .inr ⟨sent, pod, hsent, hpod, hstatus, hkey, fun directory' hshows hsettles => ?_⟩
      rw [← hstatus]
      rw [← hstatus] at hgiven
      exact needsReconcile_of_shows host hgiven hshows hsettles

/-- Events that may happen one after another. -/
theorem reach_of_foldlM {ok : Syncing T O → SyncEvent T O → Prop} {events : List (SyncEvent T O)}
    (hok : ∀ event ∈ events, ∀ s, ok s event) {s' : Syncing T O}
    (h : ((syncing host).guarded ok).Reach s) (hexec : events.foldlM (Syncing.exec host) s = some s') :
    ((syncing host).guarded ok).Reach s' := by
  induction events generalizing s with
  | nil =>
    cases hexec
    exact h
  | cons event events ih =>
    rw [List.foldlM_cons] at hexec
    obtain ⟨middle, hmiddle, hrest⟩ := Option.bind_eq_some_iff.mp hexec
    have hstep : ((syncing host).guarded ok).step s event middle := ⟨hmiddle, hok event (by simp) s⟩
    exact ih (fun event hmem => hok event (List.mem_cons_of_mem _ hmem)) (h.step hstep) hrest

end Calm

/-! ## What is left -/

/-- A pod manager that shows one pod. -/
def showing (pod : Api.Pod Nat Unit) : PodDirectory Nat Unit where
  getPodByUid _ := some pod
  getMirrorPodByPod _ := none
  translatePodUid uid := uid
  podToMirror _ := none
  mirrorToPod _ := false

/-- A pod of the API. -/
def apiPod (status : PodStatus Nat Unit) (deleted : Bool) : Api.Pod Nat Unit where
  name := some (js "a")
  uid := some (js "1")
  deletionTimestamp := if deleted then some (.date 0) else none
  status := some status

def setStatus (status : PodStatus Nat Unit) : SyncEvent Nat Unit := .statuses (.call (setTurn (apiPod {} false) status))

/-- A batch for one pod, to its end. -/
def batchOf (all : Bool) (pod : Api.Pod Nat Unit) (couldHaveRunningContainers : Bool) (answer : Api.Pod Nat Unit) :
    List (SyncEvent Nat Unit) :=
  [.startBatch (showing pod) all, .next, .read (some pod) false (showing pod) couldHaveRunningContainers 0,
    .patch (some (some answer)), .next]

def syncAll (events : List (SyncEvent Nat Unit)) : Option (Syncing Nat Unit) :=
  events.foldlM (Syncing.exec exampleHost) {}

def running (message : JsString) : PodStatus Nat Unit := { phase := some (js "Running"), message := some message }

/-- The pod is patched with the first status, which is the cached one then. -/
def firstEvents : List (SyncEvent Nat Unit) :=
  setStatus (running (js "first"))
    :: batchOf false (apiPod {} false) false (apiPod (running (js "first")) false)

theorem versionsStand_of_batch : ∃ s, syncAll firstEvents = some s ∧ VersionsStand exampleHost s
    ∧ s.manager.apiStatusVersions.get (js "1") = some 1 := by
  have hversion : ((syncAll firstEvents).any fun s =>
      decide (s.manager.apiStatusVersions.get (js "1") = some 1)) = true := by
    decide +kernel
  cases hrun : syncAll firstEvents with
  | none =>
    rw [hrun] at hversion
    cases hversion
  | some s =>
    rw [hrun] at hversion
    have hexec := hrun
    rw [syncAll, firstEvents, List.foldlM_cons] at hexec
    obtain ⟨middle, hfirst, hrest⟩ := Option.bind_eq_some_iff.mp hexec
    have hstep : ((syncing exampleHost).guarded (Renews exampleHost)).step {}
        (setStatus (running (js "first"))) middle := by
      refine ⟨hfirst, fun _ _ _ _ => ⟨fun _ _ hget => ?_, fun _ hmem => ?_⟩⟩
      · cases hget
      · cases hmem
    have hreach : ((syncing exampleHost).guarded (Renews exampleHost)).Reach s := by
      refine reach_of_foldlM (fun event hmem s => ?_) ((System.Reach.start rfl).step hstep) hrest
      simp only [batchOf, List.mem_cons, List.not_mem_nil, or_false] at hmem
      rcases hmem with rfl | rfl | rfl | rfl | rfl <;> trivial
    exact ⟨s, rfl, versionsStand_of_reach hreach, of_decide_eq_true hversion⟩

/-- A second status is sent, removed, and another one is cached. -/
def anewEvents : List (SyncEvent Nat Unit) :=
  firstEvents ++ setStatus (running (js "second"))
    :: batchOf false (apiPod {} false) false (apiPod (running (js "second")) false)
    ++ [.statuses (.deleted (js "1")), setStatus (running (js "third"))]

/-- A full batch for one pod whose status is cached, up to its end; then the pod
is shown with the status that was sent. -/
def leftover (pod : Api.Pod Nat Unit) (status : PodStatus Nat Unit) (couldHaveRunningContainers : Bool) :
    Option Bool := do
  let s ← syncAll (setStatus status :: batchOf true pod couldHaveRunningContainers pod)
  let cached ← s.manager.podStatuses.get (js "1")
  let sent ← s.sent.get (js "1")
  some (needsReconcile exampleHost (showing { pod with status := some sent.merged }) (js "1") cached.status)

/-- The same for a pod that is finished, and that the pod manager shows as one
that is being deleted. -/
def leftToDelete : Option Bool := do
  let ended := apiPod { phase := some (js "Succeeded") }
  let finish : Turn Nat Unit := { setTurn (ended false) {} with call := .terminatePod (ended false) }
  let s ← syncAll (.statuses (.call finish) :: batchOf true (ended false) false (ended false))
  let cached ← s.manager.podStatuses.get (js "1")
  some (needsUpdate (showing (ended true)) s.manager.apiStatusVersions (js "1") cached)

def conditionOf (type : JsString) : PodCondition Nat := { type, status := js "True" }

/-- A status that was cached anew is not captured, though it was never sent.
After a full batch a pod is still to be reconciled where it has ended and its
status is ready, where it may not end yet, and where another client has set the
condition that is shared; and it is to be updated where it may be deleted. -/
theorem full_batch_leaves :
    (∃ s cached, (syncing exampleHost).Reach s ∧ s.manager.apiStatusVersions.get (js "1") = some 2
      ∧ s.manager.podStatuses.get (js "1") = some cached ∧ cached.version = 1
      ∧ (∀ uid sent, s.sent.get uid = some sent → sent.status.status ≠ cached.status)
      ∧ (capture exampleHost (showing (apiPod (running (js "second")) false)) false s.manager).updatedStatuses.length
        = 0)
    ∧ leftover (apiPod (running (js "old")) false)
        { phase := some (js "Succeeded"), conditions := some [conditionOf (js "Ready")] } false = some true
    ∧ leftover (apiPod (running (js "old")) false) { phase := some (js "Succeeded") } true = some true
    ∧ leftover (apiPod { phase := some (js "Running"), conditions := some [conditionOf (js "DisruptionTarget")] } false)
        (running (js "new")) false = some true
    ∧ leftToDelete = some true := by
  refine ⟨?_, by decide +kernel⟩
  have hchecked : ((syncAll anewEvents).any fun s =>
      ((s.manager.podStatuses.get (js "1")).any fun cached =>
        decide (s.manager.apiStatusVersions.get (js "1") = some 2) && decide (cached.version = 1)
          && s.sent.values.all (fun sent => decide (sent.status.status ≠ cached.status))
          && decide ((capture exampleHost (showing (apiPod (running (js "second")) false)) false
            s.manager).updatedStatuses.length = 0))) = true := by
    decide +kernel
  cases hrun : syncAll anewEvents with
  | none =>
    rw [hrun] at hchecked
    cases hchecked
  | some s =>
    rw [hrun, Option.any_some] at hchecked
    cases hcached : s.manager.podStatuses.get (js "1") with
    | none =>
      rw [hcached] at hchecked
      cases hchecked
    | some cached =>
      rw [hcached, Option.any_some] at hchecked
      simp only [Bool.and_eq_true, decide_eq_true_eq, List.all_eq_true] at hchecked
      obtain ⟨⟨⟨htwo, hone⟩, hnever⟩, hnone⟩ := hchecked
      have hreach : ((syncing exampleHost).guarded fun _ _ => True).Reach s :=
        reach_of_foldlM (fun _ _ _ => trivial) (.start rfl) hrun
      refine ⟨s, cached, hreach.of_guarded, htwo, hcached, hone, fun uid sent hsent => ?_, hnone⟩
      exact hnever sent (List.mem_map.mpr ⟨(uid, sent), JsMap.get_eq_some_iff.mp hsent, rfl⟩)

end Webernetes.Kubelet
