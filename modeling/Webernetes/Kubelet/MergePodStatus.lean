/-
Webernetes.Kubelet.MergePodStatus — what `mergePodStatus` makes of the status
at the API and of the one the kubelet generated.

The merged conditions are a list in two parts: the ones of the old status that
are not the kubelet's own, where `DisruptionTarget` may be replaced, and behind
them what each condition of the new status gives (`mergedConditions_eq`). The
last step of the merge only touches the second part, so that merging the result
again finds each part as it is (`mergePodStatus_right`).
-/
import Webernetes.Kubelet.StatusSync

namespace Webernetes.Kubelet

open Js Api

variable {T O : Type}

/-! ## The first element of a kind -/

section SetFirst

variable {α : Type} {p : α → Bool} {f : α → α}

theorem setFirst_of_none {xs : List α} (h : ∀ x ∈ xs, p x = false) : setFirst p f xs = xs := by
  induction xs with
  | nil => rfl
  | cons x xs ih =>
    have hx : p x = false := h x List.mem_cons_self
    rw [setFirst, if_neg (by simp [hx]), ih fun y hy => h y (List.mem_cons_of_mem _ hy)]

theorem setFirst_append_left {xs ys : List α} (h : ∃ x ∈ xs, p x = true) :
    setFirst p f (xs ++ ys) = setFirst p f xs ++ ys := by
  induction xs with
  | nil =>
    obtain ⟨x, hx, _⟩ := h
    exact absurd hx List.not_mem_nil
  | cons x xs ih =>
    rw [List.cons_append, setFirst, setFirst]
    by_cases hx : p x = true
    · rw [if_pos hx, if_pos hx, List.cons_append]
    · rw [if_neg hx, if_neg hx, List.cons_append, ih]
      obtain ⟨y, hy, hpy⟩ := h
      rcases List.mem_cons.mp hy with rfl | hy
      · exact absurd hpy hx
      · exact ⟨y, hy, hpy⟩

theorem setFirst_append_right {xs ys : List α} (h : ∀ x ∈ xs, p x = false) :
    setFirst p f (xs ++ ys) = xs ++ setFirst p f ys := by
  induction xs with
  | nil => rfl
  | cons x xs ih =>
    have hx : p x = false := h x List.mem_cons_self
    rw [List.cons_append, setFirst, if_neg (by simp [hx]),
      ih fun y hy => h y (List.mem_cons_of_mem _ hy), List.cons_append]

theorem mem_setFirst {xs : List α} {y : α} (h : y ∈ setFirst p f xs) :
    y ∈ xs ∨ ∃ x ∈ xs, y = f x := by
  induction xs with
  | nil => exact absurd h List.not_mem_nil
  | cons x xs ih =>
    rw [setFirst] at h
    split at h
    · rcases List.mem_cons.mp h with rfl | h
      · exact .inr ⟨x, List.mem_cons_self, rfl⟩
      · exact .inl (List.mem_cons_of_mem _ h)
    · rcases List.mem_cons.mp h with rfl | h
      · exact .inl List.mem_cons_self
      · rcases ih h with hmem | ⟨z, hz, heq⟩
        · exact .inl (List.mem_cons_of_mem _ hmem)
        · exact .inr ⟨z, List.mem_cons_of_mem _ hz, heq⟩

/-- Setting the element that is there changes nothing. -/
theorem setFirst_of_find {xs : List α} {d : α} (h : xs.find? p = some d) :
    setFirst p (fun _ => d) xs = xs := by
  induction xs with
  | nil => rfl
  | cons x xs ih =>
    rw [setFirst]
    rw [List.find?_cons] at h
    by_cases hx : p x = true
    · rw [hx] at h
      rw [if_pos hx, Option.some.inj h]
    · rw [if_neg hx, ih]
      simpa [hx] using h

theorem find?_setFirst_const {xs : List α} {d : α} (hd : p d = true) :
    (setFirst p (fun _ => d) xs).find? p = (xs.find? p).map fun _ => d := by
  induction xs with
  | nil => rfl
  | cons x xs ih =>
    rw [setFirst]
    by_cases hx : p x = true
    · simp [hx, hd]
    · simp [hx, ih]

theorem find?_setFirst_of_ne {q : α → Bool} {xs : List α} {d : α}
    (h : ∀ x, p x = true → q x = false) (hd : q d = false) :
    (setFirst p (fun _ => d) xs).find? q = xs.find? q := by
  induction xs with
  | nil => rfl
  | cons x xs ih =>
    rw [setFirst]
    by_cases hx : p x = true
    · simp [hx, hd, h x hx]
    · simp [hx, List.find?_cons, ih]

end SetFirst

theorem find?_type_of_mem {conditions : List (PodCondition T)} {c : PodCondition T} (hmem : c ∈ conditions)
    (honce : (conditions.map PodCondition.type).Nodup) :
    conditions.find? (fun d => d.type = c.type) = some c := by
  induction conditions with
  | nil => exact absurd hmem List.not_mem_nil
  | cons d conditions ih =>
    rw [List.map_cons, List.nodup_cons] at honce
    rcases List.mem_cons.mp hmem with rfl | hmem
    · simp
    · have hne : d.type ≠ c.type := by
        intro h
        exact honce.1 (h ▸ List.mem_map_of_mem hmem)
      rw [List.find?_cons_of_neg (by simpa using hne)]
      exact ih hmem honce.2

theorem map_type_setCondition {conditionType : JsString} {condition : PodCondition T}
    (h : condition.type = conditionType) (conditions : List (PodCondition T)) :
    (setCondition conditionType (fun _ => condition) conditions).map PodCondition.type
      = conditions.map PodCondition.type := by
  unfold setCondition
  induction conditions with
  | nil => rfl
  | cons c conditions ih =>
    rw [setFirst]
    by_cases hc : c.type = conditionType
    · rw [if_pos (by simpa using hc), List.map_cons, List.map_cons, h, hc]
    · rw [if_neg (by simpa using hc), List.map_cons, List.map_cons, ih]

/-! ## The merged conditions -/

def disruptionTarget : JsString := js "DisruptionTarget"

theorem not_byKubelet_of_target : podConditionByKubelet disruptionTarget = false := by decide

theorem shared_iff (conditionType : JsString) :
    podConditionSharedByKubelet conditionType = true ↔ conditionType = disruptionTarget := by
  simp [podConditionSharedByKubelet, disruptionTarget]

/-- The conditions of the old status that are not the kubelet's own. -/
def keptConditions (oldPodStatus : PodStatus T O) : List (PodCondition T) :=
  (oldPodStatus.conditions.getD []).filter fun c => !podConditionByKubelet c.type

/-- The phase becomes terminal, and no container can be running. -/
def completes (oldPodStatus newPodStatus : PodStatus T O) (couldHaveRunningContainers : Bool) : Bool :=
  transitionsToTerminal oldPodStatus newPodStatus && !couldHaveRunningContainers

/-- A condition with the transition time that it is given. -/
def transitioned (now : T) (oldPodStatus : PodStatus T O) (c : PodCondition T) : PodCondition T :=
  { c with lastTransitionTime := transitionTime now oldPodStatus c }

def hasTarget (conditions : List (PodCondition T)) : Bool :=
  conditions.any fun c => c.type = disruptionTarget

/-- The kept conditions, with the `DisruptionTarget` of the new status in the place of theirs. -/
def keptWithTarget (now : T) (oldPodStatus : PodStatus T O) (newConditions : List (PodCondition T))
    (ends : Bool) : List (PodCondition T) :=
  match newConditions.find? fun c => c.type = disruptionTarget with
  | none => keptConditions oldPodStatus
  | some c =>
    if ends then
      setCondition disruptionTarget (fun _ => transitioned now oldPodStatus c)
        (keptConditions oldPodStatus)
    else keptConditions oldPodStatus

/-- What a condition of the new status adds behind the kept ones. -/
def placed (now : T) (oldPodStatus : PodStatus T O) (ends : Bool) (c : PodCondition T) :
    List (PodCondition T) :=
  if podConditionByKubelet c.type then [c]
  else if c.type = disruptionTarget ∧ ends ∧ !hasTarget (keptConditions oldPodStatus) then
    [transitioned now oldPodStatus c]
  else []

section Loop

variable (now : T) (oldPodStatus : PodStatus T O)

/-- Without a `DisruptionTarget` to set the loop collects the kubelet's own conditions. -/
theorem foldl_mergeCondition_of_not {ends : Bool} {conditions : List (PodCondition T)}
    (h : ∀ c ∈ conditions, c.type = disruptionTarget → ends = false) (m : MergingConditions T O) :
    conditions.foldl (mergeCondition now oldPodStatus ends) m =
        { m with podConditions := m.podConditions ++ conditions.flatMap (placed now oldPodStatus ends) } := by
  induction conditions generalizing m with
  | nil => simp
  | cons c conditions ih =>
    have hc := h c List.mem_cons_self
    have hstep : mergeCondition now oldPodStatus ends m c =
        { m with podConditions := m.podConditions ++ placed now oldPodStatus ends c } := by
      unfold mergeCondition placed
      by_cases howned : podConditionByKubelet c.type = true
      · rw [if_pos howned, if_pos howned]
      · rw [if_neg howned, if_neg howned]
        by_cases htarget : c.type = disruptionTarget
        · simp [hc htarget]
        · have hshared : podConditionSharedByKubelet c.type = false :=
            Bool.eq_false_iff.mpr fun hs => htarget ((shared_iff c.type).mp hs)
          simp [hshared, htarget]
    rw [List.foldl_cons, hstep, ih fun d hd => h d (List.mem_cons_of_mem _ hd), List.flatMap_cons,
      List.append_assoc]

theorem placed_of_byKubelet {ends : Bool} {c : PodCondition T}
    (h : podConditionByKubelet c.type = true) : placed now oldPodStatus ends c = [c] := by
  rw [placed, if_pos h]

theorem not_target_of_mem_flatMap {ends : Bool} {conditions : List (PodCondition T)}
    (h : ∀ c ∈ conditions, c.type ≠ disruptionTarget) :
    ∀ c ∈ conditions.flatMap (placed now oldPodStatus ends), c.type ≠ disruptionTarget := by
  intro c hc
  obtain ⟨d, hd, hmem⟩ := List.mem_flatMap.mp hc
  unfold placed at hmem
  split at hmem
  · rw [List.mem_singleton.mp hmem]
    exact h d hd
  · split at hmem
    · rename_i htarget
      exact absurd htarget.1 (h d hd)
    · exact absurd hmem List.not_mem_nil

theorem mergeCondition_target {status : PodStatus T O} {d : PodCondition T}
    (htype : d.type = disruptionTarget) (hget : getPodCondition status disruptionTarget = some d)
    (conditions : List (PodCondition T)) :
    (mergeCondition now oldPodStatus true { newPodStatus := status, podConditions := conditions } d) =
      { newPodStatus := updateLastTransitionTime now status oldPodStatus d.type
        podConditions := replaceOrAppendPodCondition conditions (transitioned now oldPodStatus d) } := by
  have hshared : podConditionSharedByKubelet d.type = true := (shared_iff d.type).mpr htype
  have hfound : getPodCondition (updateLastTransitionTime now status oldPodStatus d.type) d.type
      = some (transitioned now oldPodStatus d) := by
    rw [getPodCondition_updateLastTransitionTime, if_pos rfl, htype, hget]
    rfl
  unfold mergeCondition
  rw [if_neg (by simp [htype, not_byKubelet_of_target]), if_pos (by simp [hshared])]
  simp only [hfound]

/-- The kept conditions and what was collected so far, with the `DisruptionTarget`. -/
theorem replaceOrAppend_target {kept collected : List (PodCondition T)} {d : PodCondition T}
    (htype : d.type = disruptionTarget)
    (hcollected : ∀ c ∈ collected, c.type ≠ disruptionTarget) :
    replaceOrAppendPodCondition (kept ++ collected) d =
      setCondition disruptionTarget (fun _ => d) kept ++
        (collected ++ if hasTarget kept then [] else [d]) := by
  have hany : (kept ++ collected).any (fun c => c.type = d.type) = hasTarget kept := by
    rw [htype, List.any_append, hasTarget]
    have : collected.any (fun c => c.type = disruptionTarget) = false := by
      simpa using hcollected
    rw [this, Bool.or_false]
  unfold replaceOrAppendPodCondition setCondition
  rw [hany, htype]
  by_cases hkept : hasTarget kept = true
  · obtain ⟨c, hc, hctype⟩ := List.any_eq_true.mp hkept
    rw [if_pos hkept, if_pos hkept, setFirst_append_left ⟨c, hc, hctype⟩, List.append_nil]
  · have hnone : ∀ c ∈ kept, decide (c.type = disruptionTarget) = false := by
      intro c hc
      by_contra hctype
      exact hkept (List.any_eq_true.mpr ⟨c, hc, by simpa using hctype⟩)
    rw [if_neg hkept, if_neg hkept, setFirst_of_none hnone, List.append_assoc]

/-- The loop, where each type is there once. -/
theorem mergedConditions_eq {newPodStatus : PodStatus T O} {couldHaveRunningContainers : Bool}
    (hnew : ((newPodStatus.conditions.getD []).map PodCondition.type).Nodup) :
    mergedConditions now oldPodStatus newPodStatus couldHaveRunningContainers =
      keptWithTarget now oldPodStatus (newPodStatus.conditions.getD [])
          (completes oldPodStatus newPodStatus couldHaveRunningContainers) ++
        (newPodStatus.conditions.getD []).flatMap
          (placed now oldPodStatus (completes oldPodStatus newPodStatus couldHaveRunningContainers)) := by
  show ((newPodStatus.conditions.getD []).foldl (mergeCondition now oldPodStatus
    (completes oldPodStatus newPodStatus couldHaveRunningContainers))
    { newPodStatus, podConditions := keptConditions oldPodStatus }).podConditions = _
  generalize hends : completes oldPodStatus newPodStatus couldHaveRunningContainers = ends
  cases hfind : (newPodStatus.conditions.getD []).find? fun c => c.type = disruptionTarget with
  | none =>
    have hnone : ∀ c ∈ newPodStatus.conditions.getD [], c.type = disruptionTarget → ends = false := by
      intro c hc htarget
      exact absurd htarget (by simpa using List.find?_eq_none.mp hfind c hc)
    rw [foldl_mergeCondition_of_not now oldPodStatus hnone, keptWithTarget, hfind]
  | some d =>
    cases ends with
    | false =>
      rw [foldl_mergeCondition_of_not now oldPodStatus fun _ _ _ => rfl, keptWithTarget, hfind]
      rfl
    | true =>
      obtain ⟨hd, before, after, hsplit, hbefore⟩ := List.find?_eq_some_iff_append.mp hfind
      have htarget : d.type = disruptionTarget := by simpa using hd
      have hbefore : ∀ c ∈ before, c.type ≠ disruptionTarget := by
        intro c hc
        simpa using hbefore c hc
      have hafter : ∀ c ∈ after, c.type ≠ disruptionTarget := by
        intro c hc heq
        rw [hsplit, List.map_append, List.map_cons] at hnew
        have := (List.nodup_append.mp hnew).2.1
        exact (List.nodup_cons.mp this).1 (List.mem_map.mpr ⟨c, hc, heq.trans htarget.symm⟩)
      have hplaced : placed now oldPodStatus true d =
          if hasTarget (keptConditions oldPodStatus) then [] else [transitioned now oldPodStatus d] := by
        unfold placed
        rw [if_neg (by simp [htarget, not_byKubelet_of_target])]
        cases hasTarget (keptConditions oldPodStatus) <;> simp [htarget]
      rw [keptWithTarget, hfind, hsplit, List.foldl_append, List.foldl_cons,
        foldl_mergeCondition_of_not now oldPodStatus fun c hc h => absurd h (hbefore c hc)]
      dsimp only
      rw [mergeCondition_target now oldPodStatus htarget hfind,
        replaceOrAppend_target (by exact htarget)
          (not_target_of_mem_flatMap now oldPodStatus hbefore),
        foldl_mergeCondition_of_not now oldPodStatus fun c hc h => absurd h (hafter c hc)]
      dsimp only
      rw [if_pos rfl, List.flatMap_append, List.flatMap_cons, hplaced]
      simp only [List.append_assoc]

end Loop

/-! ## The end of the merge -/

section Update

variable (now : T) {status : PodStatus T O} (condition : PodCondition T)

theorem updatePodCondition_of_none (h : getPodCondition status condition.type = none) :
    updatePodCondition now status condition =
      { status with
        conditions := some (status.conditions.getD [] ++ [transitioned now status condition]) } := by
  unfold updatePodCondition transitioned transitionTime
  rw [h]

theorem updatePodCondition_of_some {oldCondition : PodCondition T}
    (h : getPodCondition status condition.type = some oldCondition) :
    updatePodCondition now status condition =
      { status with
        conditions := status.conditions.map
          (setCondition condition.type fun _ => transitioned now status condition) } := by
  unfold updatePodCondition transitioned transitionTime
  rw [h]

theorem phase_updatePodCondition (status : PodStatus T O) :
    (updatePodCondition now status condition).phase = status.phase := by
  unfold updatePodCondition
  split <;> rfl

theorem getPodCondition_updatePodCondition (conditionType : JsString) :
    getPodCondition (updatePodCondition now status condition) conditionType =
      if conditionType = condition.type then some (transitioned now status condition)
      else getPodCondition status conditionType := by
  cases hget : getPodCondition status condition.type with
  | none =>
    rw [updatePodCondition_of_none now condition hget]
    unfold getPodCondition getPodConditionFromList at *
    rw [Option.getD_some, List.find?_append]
    by_cases htype : conditionType = condition.type
    · rw [if_pos htype, htype, hget]
      simp [transitioned]
    · have hne : ¬ condition.type = conditionType := fun h => htype h.symm
      rw [if_neg htype]
      simp [transitioned, hne]
  | some oldCondition =>
    rw [updatePodCondition_of_some now condition hget]
    unfold getPodCondition getPodConditionFromList at *
    cases hconditions : status.conditions with
    | none =>
      rw [hconditions] at hget
      exact absurd hget (by simp)
    | some conditions =>
      rw [hconditions, Option.getD_some] at hget
      rw [Option.map_some, Option.getD_some, Option.getD_some]
      unfold setCondition
      by_cases htype : conditionType = condition.type
      · subst htype
        rw [if_pos rfl, find?_setFirst_const (by simp [transitioned]), hget]
        rfl
      · rw [if_neg htype]
        refine find?_setFirst_of_ne ?_ ?_
        · intro c hc
          rw [of_decide_eq_true hc]
          exact decide_eq_false fun h => htype h.symm
        · exact decide_eq_false fun h => htype h.symm

/-- The condition stands in the second part of the list, or behind it. -/
theorem updatePodCondition_append {kept rest : List (PodCondition T)}
    (h : status.conditions = some (kept ++ rest)) (hkept : ∀ c ∈ kept, c.type ≠ condition.type) :
    ∃ rest', updatePodCondition now status condition =
        { status with conditions := some (kept ++ rest') } ∧
      (∀ c ∈ rest', c ∈ rest ∨ c.type = condition.type) ∧
      ((rest.map PodCondition.type).Nodup → (rest'.map PodCondition.type).Nodup) := by
  have hnone : ∀ c ∈ kept, decide (c.type = condition.type) = false := by simpa using hkept
  cases hget : getPodCondition status condition.type with
  | none =>
    rw [updatePodCondition_of_none now condition hget]
    refine ⟨rest ++ [transitioned now status condition], ?_, ?_, ?_⟩
    · rw [h, Option.getD_some, List.append_assoc]
    · intro c hc
      rcases List.mem_append.mp hc with hc | hc
      · exact .inl hc
      · rw [List.mem_singleton.mp hc]
        exact .inr rfl
    · intro hnodup
      have hnew : ∀ c ∈ rest, c.type ≠ condition.type := by
        intro c hc htype
        unfold getPodCondition getPodConditionFromList at hget
        rw [h, Option.getD_some] at hget
        exact List.find?_eq_none.mp hget c (List.mem_append_right _ hc) (by simpa using htype)
      rw [List.map_append, List.nodup_append]
      refine ⟨hnodup, List.nodup_singleton _, ?_⟩
      intro type htype type' hlast
      obtain ⟨c, hc, rfl⟩ := List.mem_map.mp htype
      rw [List.mem_singleton.mp hlast]
      exact hnew c hc
  | some oldCondition =>
    rw [updatePodCondition_of_some now condition hget]
    refine ⟨setCondition condition.type (fun _ => transitioned now status condition) rest, ?_, ?_, ?_⟩
    · rw [h, Option.map_some]
      unfold setCondition
      rw [setFirst_append_right hnone]
    · intro c hc
      rcases mem_setFirst hc with hc | ⟨_, _, rfl⟩
      · exact .inl hc
      · exact .inr rfl
    · intro hnodup
      rw [map_type_setCondition (by rfl)]
      exact hnodup

end Update

/-- The pod has ended, and a condition still says that it is ready. -/
def reportsReady (status : PodStatus T O) : Bool :=
  isPodPhaseTerminal status.phase &&
    (conditionTrue status (js "Ready") || conditionTrue status (js "ContainersReady"))

theorem endReadiness_of_not {now : T} {pod : Api.Pod T O} {status : PodStatus T O}
    (h : reportsReady status = false) : endReadiness now pod status = status := by
  unfold reportsReady at h
  rw [endReadiness, if_neg (by simp [h])]

theorem endReadiness_of {now : T} {pod : Api.Pod T O} {status : PodStatus T O}
    (h : reportsReady status = true) : endReadiness now pod status =
      updatePodCondition now (updatePodCondition now status
        (generateContainersReadyConditionForTerminalPhase pod status.phase))
        (generatePodReadyConditionForTerminalPhase pod status.phase) := by
  unfold reportsReady at h
  rw [endReadiness, if_pos h]
  dsimp only
  rw [phase_updatePodCondition]

theorem endReadiness_append (now : T) (pod : Api.Pod T O) {status : PodStatus T O}
    {kept rest : List (PodCondition T)} (h : status.conditions = some (kept ++ rest))
    (hkept : ∀ c ∈ kept, podConditionByKubelet c.type = false) :
    ∃ rest', endReadiness now pod status = { status with conditions := some (kept ++ rest') } ∧
      (∀ c ∈ rest', c ∈ rest ∨ podConditionByKubelet c.type = true) ∧
      ((rest.map PodCondition.type).Nodup → (rest'.map PodCondition.type).Nodup) := by
  have hready : podConditionByKubelet (js "Ready") = true := by decide
  have hcontainers : podConditionByKubelet (js "ContainersReady") = true := by decide
  have hother : ∀ {conditionType}, podConditionByKubelet conditionType = true →
      ∀ c ∈ kept, c.type ≠ conditionType := by
    rintro _ howned c hc rfl
    rw [hkept c hc] at howned
    exact absurd howned Bool.false_ne_true
  cases hreports : reportsReady status with
  | false =>
    exact ⟨rest, by rw [endReadiness_of_not hreports, ← h], fun c hc => .inl hc, fun hnodup => hnodup⟩
  | true =>
    obtain ⟨middle, heq, hmem, hnodup⟩ := updatePodCondition_append now
      (generateContainersReadyConditionForTerminalPhase pod status.phase) h (hother hcontainers)
    have hmiddle : ({ status with conditions := some (kept ++ middle) } : PodStatus T O).conditions
        = some (kept ++ middle) := rfl
    obtain ⟨rest', heq', hmem', hnodup'⟩ := updatePodCondition_append now
      (generatePodReadyConditionForTerminalPhase pod status.phase) hmiddle (hother hready)
    refine ⟨rest', ?_, ?_, fun h => hnodup' (hnodup h)⟩
    · rw [endReadiness_of hreports, heq, heq']
    · intro c hc
      rcases hmem' c hc with hc | htype
      · rcases hmem c hc with hc | htype
        · exact .inl hc
        · exact .inr (by rw [htype]; exact hcontainers)
      · exact .inr (by rw [htype]; exact hready)

/-! ## The merged conditions, by their types -/

section ByType

variable (now : T) (oldPodStatus : PodStatus T O) {ends : Bool} {conditions : List (PodCondition T)}

theorem map_type_keptWithTarget :
    (keptWithTarget now oldPodStatus conditions ends).map PodCondition.type
      = (keptConditions oldPodStatus).map PodCondition.type := by
  unfold keptWithTarget
  split
  · rfl
  · rename_i c hfind
    split
    · have htype : c.type = disruptionTarget := by simpa using List.find?_some hfind
      rw [map_type_setCondition (by exact htype)]
    · rfl

theorem keptWithTarget_of_none
    (h : conditions.find? (fun c => c.type = disruptionTarget) = none) :
    keptWithTarget now oldPodStatus conditions ends = keptConditions oldPodStatus := by
  rw [keptWithTarget, h]

theorem keptWithTarget_of_find (hends : ends = true) {c : PodCondition T}
    (h : conditions.find? (fun c => c.type = disruptionTarget) = some c) :
    keptWithTarget now oldPodStatus conditions ends =
      setCondition disruptionTarget (fun _ => transitioned now oldPodStatus c)
        (keptConditions oldPodStatus) := by
  rw [keptWithTarget, h]
  exact if_pos hends

theorem keptWithTarget_of_not (h : ends = false ∨ hasTarget (keptConditions oldPodStatus) = false) :
    keptWithTarget now oldPodStatus conditions ends = keptConditions oldPodStatus := by
  unfold keptWithTarget
  split
  · rfl
  · split
    · rename_i hends
      have hnone : hasTarget (keptConditions oldPodStatus) = false :=
        h.resolve_left (by simp [hends])
      refine setFirst_of_none ?_
      intro c hc
      by_contra htype
      have hthere : hasTarget (keptConditions oldPodStatus) = true :=
        List.any_eq_true.mpr ⟨c, hc, by simpa using htype⟩
      rw [hthere] at hnone
      exact absurd hnone Bool.true_eq_false.mp
    · rfl

theorem exists_mem_kept {c : PodCondition T}
    (h : c ∈ keptWithTarget now oldPodStatus conditions ends) :
    ∃ d ∈ keptConditions oldPodStatus, d.type = c.type := by
  have htype : c.type ∈ (keptConditions oldPodStatus).map PodCondition.type := by
    rw [← map_type_keptWithTarget now oldPodStatus]
    exact List.mem_map_of_mem h
  exact List.mem_map.mp htype

theorem not_byKubelet_of_mem_kept {c : PodCondition T}
    (h : c ∈ keptWithTarget now oldPodStatus conditions ends) :
    podConditionByKubelet c.type = false := by
  obtain ⟨d, hd, htype⟩ := exists_mem_kept now oldPodStatus h
  rw [← htype]
  simpa using (List.mem_filter.mp hd).2

theorem placed_of_mem_kept {c : PodCondition T} (now' : T)
    (h : c ∈ keptWithTarget now oldPodStatus conditions ends) :
    placed now' oldPodStatus ends c = [] := by
  have hnot := not_byKubelet_of_mem_kept now oldPodStatus h
  obtain ⟨d, hd, htype⟩ := exists_mem_kept now oldPodStatus h
  unfold placed
  rw [if_neg (by simp [hnot]), if_neg]
  rintro ⟨htarget, _, hnone⟩
  have hthere : hasTarget (keptConditions oldPodStatus) = true :=
    List.any_eq_true.mpr ⟨d, hd, by simpa using htype.trans htarget⟩
  rw [hthere] at hnone
  exact absurd hnone (by simp)

theorem find?_kept {conditionType : JsString} (h : podConditionByKubelet conditionType = false) :
    (keptConditions oldPodStatus).find? (fun c => c.type = conditionType)
      = getPodCondition oldPodStatus conditionType := by
  unfold keptConditions getPodCondition getPodConditionFromList
  rw [List.find?_filter]
  refine congrArg (fun p => List.find? p _) (funext fun c => ?_)
  by_cases htype : c.type = conditionType
  · simp [htype, h]
  · simp [htype]

theorem hasTarget_kept :
    hasTarget (keptConditions oldPodStatus) = (getPodCondition oldPodStatus disruptionTarget).isSome := by
  rw [← find?_kept oldPodStatus not_byKubelet_of_target, Bool.eq_iff_iff, List.find?_isSome, hasTarget,
    List.any_eq_true]

theorem find?_keptWithTarget {conditionType : JsString} :
    (keptWithTarget now oldPodStatus conditions ends).find? (fun c => c.type = conditionType) =
      if podConditionByKubelet conditionType then none
      else if conditionType = disruptionTarget ∧ ends ∧ hasTarget (keptConditions oldPodStatus) then
        ((conditions.find? fun c => c.type = disruptionTarget).map (transitioned now oldPodStatus)).or
          (getPodCondition oldPodStatus disruptionTarget)
      else getPodCondition oldPodStatus conditionType := by
  split
  · rename_i howned
    refine List.find?_eq_none.mpr ?_
    intro c hc htype
    rw [← of_decide_eq_true htype, not_byKubelet_of_mem_kept now oldPodStatus hc] at howned
    exact absurd howned Bool.false_ne_true
  · rename_i hnot
    have hnot : podConditionByKubelet conditionType = false := Bool.eq_false_iff.mpr hnot
    unfold keptWithTarget
    cases hfind : conditions.find? fun c => c.type = disruptionTarget with
    | none =>
      dsimp only
      rw [find?_kept oldPodStatus hnot]
      split
      · rename_i h
        rw [h.1]
        rfl
      · rfl
    | some c =>
      have htype : c.type = disruptionTarget := by simpa using List.find?_some hfind
      dsimp only
      cases ends with
      | false => simp [find?_kept oldPodStatus hnot]
      | true =>
        simp only [if_true, true_and]
        unfold setCondition
        by_cases htarget : conditionType = disruptionTarget
        · subst htarget
          rw [find?_setFirst_const (by exact decide_eq_true htype),
            find?_kept oldPodStatus not_byKubelet_of_target, hasTarget_kept]
          cases getPodCondition oldPodStatus disruptionTarget <;> simp
        · rw [find?_setFirst_of_ne, find?_kept oldPodStatus hnot, if_neg (fun h => htarget h.1)]
          · intro d hd
            rw [of_decide_eq_true hd]
            exact decide_eq_false fun h => htarget h.symm
          · exact decide_eq_false fun h => htarget (h.symm.trans htype)

theorem find?_placed {conditionType : JsString} :
    (conditions.flatMap (placed now oldPodStatus ends)).find? (fun c => c.type = conditionType) =
      if podConditionByKubelet conditionType then conditions.find? fun c => c.type = conditionType
      else if conditionType = disruptionTarget ∧ ends ∧ !hasTarget (keptConditions oldPodStatus) then
        (conditions.find? fun c => c.type = disruptionTarget).map (transitioned now oldPodStatus)
      else none := by
  induction conditions with
  | nil => simp
  | cons c conditions ih =>
    rw [List.flatMap_cons, List.find?_append, ih]
    by_cases htype : c.type = conditionType
    · subst htype
      by_cases howned : podConditionByKubelet c.type = true
      · simp [placed, howned]
      · by_cases hplace : c.type = disruptionTarget ∧ ends ∧ !hasTarget (keptConditions oldPodStatus)
        · simp only [placed, if_neg howned, if_pos hplace]
          simp [hplace.1, transitioned]
        · simp only [placed, if_neg howned, if_neg hplace]
          simp
    · have hnone : (placed now oldPodStatus ends c).find? (fun c => c.type = conditionType) = none := by
        refine List.find?_eq_none.mpr ?_
        intro d hd
        unfold placed at hd
        split at hd
        · rw [List.mem_singleton.mp hd]
          simpa using htype
        · split at hd
          · rw [List.mem_singleton.mp hd]
            exact Bool.not_eq_true _ |>.mpr (decide_eq_false htype)
          · exact absurd hd List.not_mem_nil
      rw [hnone, Option.none_or]
      by_cases howned : podConditionByKubelet conditionType = true
      · simp [howned, htype]
      · by_cases htarget : conditionType = disruptionTarget
        · subst htarget
          simp [htype]
        · simp [howned, htarget]

/-- What stands behind the kept conditions is the kubelet's, or the `DisruptionTarget` that none of
them is. -/
theorem mem_placed {c d : PodCondition T} (h : d ∈ placed now oldPodStatus ends c) :
    d = c ∧ podConditionByKubelet c.type = true ∨
      d = transitioned now oldPodStatus c ∧ c.type = disruptionTarget ∧ ends = true ∧
        hasTarget (keptConditions oldPodStatus) = false := by
  unfold placed at h
  split at h
  · rename_i howned
    exact .inl ⟨List.mem_singleton.mp h, howned⟩
  · split at h
    · rename_i htarget
      exact .inr ⟨List.mem_singleton.mp h, htarget.1, htarget.2.1, by simpa using htarget.2.2⟩
    · exact absurd h List.not_mem_nil

theorem map_type_placed_sublist :
    ((conditions.flatMap (placed now oldPodStatus ends)).map PodCondition.type).Sublist
      (conditions.map PodCondition.type) := by
  induction conditions with
  | nil => exact .slnil
  | cons c conditions ih =>
    have hc : ((placed now oldPodStatus ends c).map PodCondition.type).Sublist [c.type] := by
      unfold placed
      split
      · exact .refl _
      · split
        · exact .refl _
        · exact List.nil_sublist _
    rw [List.flatMap_cons, List.map_append, List.map_cons]
    exact hc.append ih

/-- The merged conditions before the end of the merge. -/
theorem find?_merged {conditionType : JsString} :
    (keptWithTarget now oldPodStatus conditions ends ++
        conditions.flatMap (placed now oldPodStatus ends)).find? (fun c => c.type = conditionType) =
      if podConditionByKubelet conditionType then conditions.find? fun c => c.type = conditionType
      else if conditionType = disruptionTarget ∧ ends then
        ((conditions.find? fun c => c.type = disruptionTarget).map (transitioned now oldPodStatus)).or
          (getPodCondition oldPodStatus disruptionTarget)
      else getPodCondition oldPodStatus conditionType := by
  rw [List.find?_append, find?_keptWithTarget, find?_placed]
  by_cases howned : podConditionByKubelet conditionType = true
  · simp [howned]
  · by_cases htarget : conditionType = disruptionTarget ∧ ends
    · obtain ⟨rfl, rfl⟩ := htarget
      rw [hasTarget_kept]
      cases hold : getPodCondition oldPodStatus disruptionTarget with
      | none => simp [not_byKubelet_of_target]
      | some d =>
        simp only [not_byKubelet_of_target, Bool.false_eq_true, if_false]
        cases conditions.find? fun c => c.type = disruptionTarget <;> simp
    · have hnot : ¬ (conditionType = disruptionTarget ∧ ends ∧
          hasTarget (keptConditions oldPodStatus) = true) := fun h => htarget ⟨h.1, h.2.1⟩
      have hnot' : ¬ (conditionType = disruptionTarget ∧ ends ∧
          !hasTarget (keptConditions oldPodStatus)) := fun h => htarget ⟨h.1, h.2.1⟩
      rw [if_neg howned, if_neg howned, if_neg howned, if_neg hnot, if_neg hnot', if_neg htarget,
        Option.or_none]

end ByType

/-! ## The whole merge -/

section Merge

variable (now : T) (pod : Api.Pod T O) (oldPodStatus newPodStatus : PodStatus T O)
  (couldHaveRunningContainers : Bool)

/-- The fields that are merged as wholes. -/
def mergedFields (conditions : List (PodCondition T)) : PodStatus T O :=
  let delayed := transitionsToTerminal oldPodStatus newPodStatus && couldHaveRunningContainers
  { newPodStatus with
    conditions := some conditions
    resourceClaimStatuses := oldPodStatus.resourceClaimStatuses
    extendedResourceClaimStatus := oldPodStatus.extendedResourceClaimStatus
    nodeAllocatableResourceClaimStatuses := oldPodStatus.nodeAllocatableResourceClaimStatuses
    phase := if delayed then oldPodStatus.phase else newPodStatus.phase
    reason := if delayed then oldPodStatus.reason else newPodStatus.reason
    message := if delayed then oldPodStatus.message else newPodStatus.message }

theorem mergePodStatus_eq :
    mergePodStatus now pod oldPodStatus newPodStatus couldHaveRunningContainers =
      endReadiness now pod (mergedFields oldPodStatus newPodStatus couldHaveRunningContainers
        (mergedConditions now oldPodStatus newPodStatus couldHaveRunningContainers)) := by
  unfold mergePodStatus mergedFields
  cases transitionsToTerminal oldPodStatus newPodStatus && couldHaveRunningContainers <;> rfl

/-- A delayed phase is delayed no more, and another one is as it was. -/
theorem mergedFields_again (conditions conditions' : List (PodCondition T)) :
    mergedFields oldPodStatus
        (mergedFields oldPodStatus newPodStatus couldHaveRunningContainers conditions)
        couldHaveRunningContainers conditions' =
      mergedFields oldPodStatus newPodStatus couldHaveRunningContainers conditions' := by
  unfold mergedFields transitionsToTerminal
  cases hold : isPodPhaseTerminal oldPodStatus.phase with
  | true => simp
  | false =>
    cases couldHaveRunningContainers with
    | false => simp
    | true =>
      cases hnew : isPodPhaseTerminal newPodStatus.phase with
      | false => simp [hnew]
      | true => simp [hold]

theorem completes_again (conditions : List (PodCondition T)) :
    completes oldPodStatus
        (mergedFields oldPodStatus newPodStatus couldHaveRunningContainers conditions)
        couldHaveRunningContainers =
      completes oldPodStatus newPodStatus couldHaveRunningContainers := by
  unfold completes mergedFields transitionsToTerminal
  cases couldHaveRunningContainers <;> simp

/-- At most one condition of each type. -/
def OncePerType (status : PodStatus T O) : Prop :=
  ((status.conditions.getD []).map PodCondition.type).Nodup

instance decidableOncePerType (status : PodStatus T O) : Decidable (OncePerType status) :=
  inferInstanceAs (Decidable (List.Nodup _))

/-- The two parts of the result. -/
theorem mergePodStatus_parts (hnew : OncePerType newPodStatus) : ∃ rest,
    mergePodStatus now pod oldPodStatus newPodStatus couldHaveRunningContainers =
        mergedFields oldPodStatus newPodStatus couldHaveRunningContainers
          (keptWithTarget now oldPodStatus (newPodStatus.conditions.getD [])
            (completes oldPodStatus newPodStatus couldHaveRunningContainers) ++ rest) ∧
      (∀ c ∈ rest, c ∈ (newPodStatus.conditions.getD []).flatMap (placed now oldPodStatus
          (completes oldPodStatus newPodStatus couldHaveRunningContainers)) ∨
        podConditionByKubelet c.type = true) ∧
      ((((newPodStatus.conditions.getD []).flatMap (placed now oldPodStatus
          (completes oldPodStatus newPodStatus couldHaveRunningContainers))).map
            PodCondition.type).Nodup → (rest.map PodCondition.type).Nodup) := by
  have hconditions : (mergedFields oldPodStatus newPodStatus couldHaveRunningContainers
      (mergedConditions now oldPodStatus newPodStatus couldHaveRunningContainers)).conditions = some _ :=
    congrArg some (mergedConditions_eq now oldPodStatus hnew)
  obtain ⟨rest, heq, hmem, hnodup⟩ := endReadiness_append now pod hconditions
    fun c hc => not_byKubelet_of_mem_kept now oldPodStatus hc
  refine ⟨rest, ?_, hmem, hnodup⟩
  rw [mergePodStatus_eq, heq]
  rfl

/-- The new status reports a pod as ready whose merged phase is terminal. -/
def overwrites : Bool :=
  isPodPhaseTerminal
      (mergedFields oldPodStatus newPodStatus couldHaveRunningContainers ([] : List (PodCondition T))).phase
    && (conditionTrue newPodStatus (js "Ready") || conditionTrue newPodStatus (js "ContainersReady"))

theorem getPodCondition_endReadiness (status : PodStatus T O) (conditionType : JsString) :
    getPodCondition (endReadiness now pod status) conditionType =
      if reportsReady status = true ∧ conditionType = js "Ready" then
        some (transitioned now status (generatePodReadyConditionForTerminalPhase pod status.phase))
      else if reportsReady status = true ∧ conditionType = js "ContainersReady" then
        some (transitioned now status (generateContainersReadyConditionForTerminalPhase pod status.phase))
      else getPodCondition status conditionType := by
  cases hreports : reportsReady status with
  | false =>
    rw [endReadiness_of_not hreports]
    simp
  | true =>
    have hne : js "Ready" ≠ js "ContainersReady" := by decide
    rw [endReadiness_of hreports, getPodCondition_updatePodCondition,
      getPodCondition_updatePodCondition]
    simp only [true_and]
    by_cases htype : conditionType = js "Ready"
    · subst htype
      rw [if_pos (by rfl), if_pos rfl]
      -- the time of the one condition does not go by the other one
      have hother : getPodCondition (updatePodCondition now status
            (generateContainersReadyConditionForTerminalPhase pod status.phase)) (js "Ready")
          = getPodCondition status (js "Ready") := by
        rw [getPodCondition_updatePodCondition, if_neg (by exact hne)]
      rw [transitioned, transitionTime, transitioned, transitionTime]
      exact congrArg some (by rw [show (generatePodReadyConditionForTerminalPhase pod
        status.phase).type = js "Ready" from rfl, hother])
    · rw [if_neg (by exact htype), if_neg htype]
      rfl

theorem getPodCondition_mergedFields (hnew : OncePerType newPodStatus) (conditionType : JsString) :
    getPodCondition (mergedFields oldPodStatus newPodStatus couldHaveRunningContainers
        (mergedConditions now oldPodStatus newPodStatus couldHaveRunningContainers)) conditionType =
      if podConditionByKubelet conditionType then getPodCondition newPodStatus conditionType
      else if conditionType = disruptionTarget ∧
          completes oldPodStatus newPodStatus couldHaveRunningContainers then
        ((getPodCondition newPodStatus disruptionTarget).map (transitioned now oldPodStatus)).or
          (getPodCondition oldPodStatus disruptionTarget)
      else getPodCondition oldPodStatus conditionType := by
  rw [mergedConditions_eq now oldPodStatus hnew]
  exact find?_merged now oldPodStatus

theorem reportsReady_mergedFields (hnew : OncePerType newPodStatus) :
    reportsReady (mergedFields oldPodStatus newPodStatus couldHaveRunningContainers
        (mergedConditions now oldPodStatus newPodStatus couldHaveRunningContainers)) =
      overwrites oldPodStatus newPodStatus couldHaveRunningContainers := by
  have hready : podConditionByKubelet (js "Ready") = true := by decide
  have hcontainers : podConditionByKubelet (js "ContainersReady") = true := by decide
  unfold reportsReady overwrites conditionTrue
  rw [getPodCondition_mergedFields now oldPodStatus newPodStatus couldHaveRunningContainers hnew,
    getPodCondition_mergedFields now oldPodStatus newPodStatus couldHaveRunningContainers hnew,
    if_pos hready, if_pos hcontainers]
  rfl

/-- Every condition of the result, by its type. -/
theorem getPodCondition_mergePodStatus (hnew : OncePerType newPodStatus) (conditionType : JsString) :
    getPodCondition (mergePodStatus now pod oldPodStatus newPodStatus couldHaveRunningContainers)
        conditionType =
      let phase := (mergedFields oldPodStatus newPodStatus couldHaveRunningContainers
        ([] : List (PodCondition T))).phase
      if overwrites oldPodStatus newPodStatus couldHaveRunningContainers = true ∧
          conditionType = js "Ready" then
        some (transitioned now newPodStatus (generatePodReadyConditionForTerminalPhase pod phase))
      else if overwrites oldPodStatus newPodStatus couldHaveRunningContainers = true ∧
          conditionType = js "ContainersReady" then
        some (transitioned now newPodStatus (generateContainersReadyConditionForTerminalPhase pod phase))
      else if podConditionByKubelet conditionType then getPodCondition newPodStatus conditionType
      else if conditionType = disruptionTarget ∧
          completes oldPodStatus newPodStatus couldHaveRunningContainers then
        ((getPodCondition newPodStatus disruptionTarget).map (transitioned now oldPodStatus)).or
          (getPodCondition oldPodStatus disruptionTarget)
      else getPodCondition oldPodStatus conditionType := by
  have hready : podConditionByKubelet (js "Ready") = true := by decide
  have hcontainers : podConditionByKubelet (js "ContainersReady") = true := by decide
  have htime : ∀ condition : PodCondition T, podConditionByKubelet condition.type = true →
      transitioned now (mergedFields oldPodStatus newPodStatus couldHaveRunningContainers
        (mergedConditions now oldPodStatus newPodStatus couldHaveRunningContainers)) condition
        = transitioned now newPodStatus condition := by
    intro condition howned
    rw [transitioned, transitionTime, transitioned, transitionTime,
      getPodCondition_mergedFields now oldPodStatus newPodStatus couldHaveRunningContainers hnew,
      if_pos howned]
  rw [mergePodStatus_eq, getPodCondition_endReadiness,
    reportsReady_mergedFields now oldPodStatus newPodStatus couldHaveRunningContainers hnew,
    htime _ (by exact hready), htime _ (by exact hcontainers),
    getPodCondition_mergedFields now oldPodStatus newPodStatus couldHaveRunningContainers hnew]
  rfl

/-- A pod that has ended is not reported as ready. -/
theorem unready_mergePodStatus (hnew : OncePerType newPodStatus) :
    reportsReady (mergePodStatus now pod oldPodStatus newPodStatus couldHaveRunningContainers)
      = false := by
  have hphase : (mergePodStatus now pod oldPodStatus newPodStatus couldHaveRunningContainers).phase
      = (mergedFields oldPodStatus newPodStatus couldHaveRunningContainers
        ([] : List (PodCondition T))).phase := by
    obtain ⟨rest, heq, _⟩ :=
      mergePodStatus_parts now pod oldPodStatus newPodStatus couldHaveRunningContainers hnew
    rw [heq]
    rfl
  have hready : podConditionByKubelet (js "Ready") = true := by decide
  have hcontainers : podConditionByKubelet (js "ContainersReady") = true := by decide
  have hne : js "ContainersReady" ≠ js "Ready" := by decide
  have hfalse : js "False" ≠ js "True" := by decide
  unfold reportsReady conditionTrue
  rw [hphase, getPodCondition_mergePodStatus now pod oldPodStatus newPodStatus
      couldHaveRunningContainers hnew, getPodCondition_mergePodStatus now pod oldPodStatus
      newPodStatus couldHaveRunningContainers hnew]
  cases hover : overwrites oldPodStatus newPodStatus couldHaveRunningContainers with
  | true =>
    simp [hne, transitioned, generatePodReadyConditionForTerminalPhase,
      generateContainersReadyConditionForTerminalPhase, hfalse]
  | false =>
    unfold overwrites conditionTrue at hover
    simpa [hready, hcontainers] using hover

theorem conditions_of_parts {conditions : List (PodCondition T)} {status : PodStatus T O}
    (h : status = mergedFields oldPodStatus newPodStatus couldHaveRunningContainers conditions) :
    status.conditions.getD [] = conditions := by
  rw [h]
  rfl

/-- A type is in one part only, and once. -/
theorem once_mergePodStatus (hold : OncePerType oldPodStatus) (hnew : OncePerType newPodStatus) :
    OncePerType (mergePodStatus now pod oldPodStatus newPodStatus couldHaveRunningContainers) := by
  obtain ⟨rest, heq, hmem, hnodup⟩ :=
    mergePodStatus_parts now pod oldPodStatus newPodStatus couldHaveRunningContainers hnew
  rw [OncePerType, conditions_of_parts oldPodStatus newPodStatus couldHaveRunningContainers heq,
    List.map_append, List.nodup_append]
  refine ⟨?_, hnodup (hnew.sublist (map_type_placed_sublist now oldPodStatus)), ?_⟩
  · rw [map_type_keptWithTarget]
    exact hold.sublist (List.filter_sublist.map _)
  · intro type hkept type' hrest htype
    obtain ⟨c, hc, rfl⟩ := List.mem_map.mp hkept
    obtain ⟨d, hd, rfl⟩ := List.mem_map.mp hrest
    have hnot := not_byKubelet_of_mem_kept now oldPodStatus hc
    rcases hmem d hd with hd | howned
    · obtain ⟨b, _, hb⟩ := List.mem_flatMap.mp hd
      rcases mem_placed now oldPodStatus hb with ⟨rfl, howned⟩ | ⟨rfl, htarget, _, hnone⟩
      · rw [htype, howned] at hnot
        exact absurd hnot Bool.true_eq_false.mp
      · obtain ⟨e, he, heq⟩ := exists_mem_kept now oldPodStatus hc
        have hthere : hasTarget (keptConditions oldPodStatus) = true :=
          List.any_eq_true.mpr ⟨e, he, decide_eq_true (heq.trans (htype.trans htarget))⟩
        rw [hthere] at hnone
        exact absurd hnone Bool.true_eq_false.mp
    · rw [htype, howned] at hnot
      exact absurd hnot Bool.true_eq_false.mp

/-- The transition time of a `DisruptionTarget` that is set does not go by the clock, or the clock
reads the same. -/
def SameTarget (now' : T) : Prop :=
  now' = now ∨ (completes oldPodStatus newPodStatus couldHaveRunningContainers = true →
    ∀ c, getPodCondition newPodStatus disruptionTarget = some c →
      (getPodCondition oldPodStatus disruptionTarget).any (fun d => c.status = d.status) = true)

variable {now oldPodStatus newPodStatus couldHaveRunningContainers}

/-- The condition of the old status has its transition time already. -/
theorem transitioned_of_old {now' : T} {d : PodCondition T}
    (h : getPodCondition oldPodStatus d.type = some d) : transitioned now' oldPodStatus d = d := by
  rw [transitioned, transitionTime, h]
  simp

theorem SameTarget.transitioned_eq {now' : T}
    (h : SameTarget now oldPodStatus newPodStatus couldHaveRunningContainers now')
    (hends : completes oldPodStatus newPodStatus couldHaveRunningContainers = true)
    {c : PodCondition T} (hc : getPodCondition newPodStatus disruptionTarget = some c) :
    transitioned now' oldPodStatus (transitioned now oldPodStatus c)
      = transitioned now oldPodStatus c := by
  rcases h with rfl | h
  · rfl
  · have htype : c.type = disruptionTarget := type_of_getPodCondition hc
    have hany := h hends c hc
    cases hd : getPodCondition oldPodStatus disruptionTarget with
    | none =>
      rw [hd] at hany
      exact absurd hany Bool.false_ne_true
    | some d =>
      rw [hd] at hany
      have hstatus : c.status = d.status := of_decide_eq_true hany
      simp [transitioned, transitionTime, htype, hd, hstatus]

/-- Merging the result again finds both of its parts as they are. -/
theorem mergedConditions_again {now' : T} {rest : List (PodCondition T)}
    (hsame : SameTarget now oldPodStatus newPodStatus couldHaveRunningContainers now')
    (hrest : ∀ c ∈ rest, c ∈ (newPodStatus.conditions.getD []).flatMap (placed now oldPodStatus
        (completes oldPodStatus newPodStatus couldHaveRunningContainers)) ∨
      podConditionByKubelet c.type = true)
    (hnew : OncePerType newPodStatus) :
    let ends := completes oldPodStatus newPodStatus couldHaveRunningContainers
    let conditions := keptWithTarget now oldPodStatus (newPodStatus.conditions.getD []) ends ++ rest
    keptWithTarget now' oldPodStatus conditions ends
        ++ conditions.flatMap (placed now' oldPodStatus ends) = conditions := by
  intro ends conditions
  have hfound : ∀ c ∈ newPodStatus.conditions.getD [], c.type = disruptionTarget →
      getPodCondition newPodStatus disruptionTarget = some c := by
    intro c hc htype
    rw [← htype]
    exact find?_type_of_mem hc hnew
  have hplaced : conditions.flatMap (placed now' oldPodStatus ends) = rest := by
    have hkept : (keptWithTarget now oldPodStatus (newPodStatus.conditions.getD []) ends).flatMap
        (placed now' oldPodStatus ends) = [] :=
      List.flatMap_eq_nil_iff.mpr fun c hc => placed_of_mem_kept now oldPodStatus now' hc
    have hsingle : ∀ c ∈ rest, placed now' oldPodStatus ends c = [c] := by
      intro c hc
      rcases hrest c hc with hc | howned
      · obtain ⟨b, hb, hplace⟩ := List.mem_flatMap.mp hc
        rcases mem_placed now oldPodStatus hplace with ⟨rfl, howned⟩ | ⟨rfl, htarget, hends, hnone⟩
        · exact placed_of_byKubelet now' oldPodStatus howned
        · have htime := hsame.transitioned_eq hends (hfound b hb htarget)
          have htype : (transitioned now oldPodStatus b).type = disruptionTarget := htarget
          unfold placed
          rw [if_neg (by rw [htype]; simp [not_byKubelet_of_target]),
            if_pos ⟨htype, hends, by simp [hnone]⟩, htime]
      · exact placed_of_byKubelet now' oldPodStatus howned
    rw [List.flatMap_append, hkept, List.nil_append, List.flatMap_congr hsingle,
      List.flatMap_singleton']
  have hkept : keptWithTarget now' oldPodStatus conditions ends
      = keptWithTarget now oldPodStatus (newPodStatus.conditions.getD []) ends := by
    cases hthere : hasTarget (keptConditions oldPodStatus) with
    | false =>
      rw [keptWithTarget_of_not now' oldPodStatus (.inr hthere),
        keptWithTarget_of_not now oldPodStatus (.inr hthere)]
    | true =>
      by_cases hends : ends = true
      · have hsome : (getPodCondition oldPodStatus disruptionTarget).isSome = true := by
          rw [← hasTarget_kept]
          exact hthere
        obtain ⟨d, hd⟩ := Option.isSome_iff_exists.mp hsome
        have hfirst : conditions.find? (fun c => c.type = disruptionTarget) =
            (((getPodCondition newPodStatus disruptionTarget).map (transitioned now oldPodStatus)).or
              (some d)) := by
          rw [List.find?_append, find?_keptWithTarget, if_neg (by simp [not_byKubelet_of_target]),
            if_pos ⟨rfl, hends, hthere⟩, hd, Option.or_assoc, Option.some_or]
          rfl
        cases hget : getPodCondition newPodStatus disruptionTarget with
        | none =>
          rw [hget, Option.map_none, Option.none_or] at hfirst
          have htype : d.type = disruptionTarget := type_of_getPodCondition hd
          have htime : transitioned now' oldPodStatus d = d :=
            transitioned_of_old (by rw [htype]; exact hd)
          have hkeep : setCondition disruptionTarget (fun _ => d) (keptConditions oldPodStatus)
              = keptConditions oldPodStatus :=
            setFirst_of_find ((find?_kept oldPodStatus not_byKubelet_of_target).trans hd)
          rw [keptWithTarget_of_find now' oldPodStatus hends hfirst, htime, hkeep,
            keptWithTarget_of_none now oldPodStatus hget]
        | some c =>
          rw [hget, Option.map_some, Option.some_or] at hfirst
          rw [keptWithTarget_of_find now' oldPodStatus hends hfirst,
            keptWithTarget_of_find now oldPodStatus hends hget, hsame.transitioned_eq hends hget]
      · rw [keptWithTarget_of_not now' oldPodStatus (.inl (by simpa using hends)),
          keptWithTarget_of_not now oldPodStatus (.inl (by simpa using hends))]
  rw [hplaced, hkept]

/-- Merging the result again gives the result. -/
theorem mergePodStatus_again {now' : T} (hold : OncePerType oldPodStatus)
    (hnew : OncePerType newPodStatus)
    (hsame : SameTarget now oldPodStatus newPodStatus couldHaveRunningContainers now') :
    mergePodStatus now' pod oldPodStatus
        (mergePodStatus now pod oldPodStatus newPodStatus couldHaveRunningContainers)
        couldHaveRunningContainers =
      mergePodStatus now pod oldPodStatus newPodStatus couldHaveRunningContainers := by
  have honce := once_mergePodStatus now pod oldPodStatus newPodStatus couldHaveRunningContainers hold hnew
  have hunready := unready_mergePodStatus now pod oldPodStatus newPodStatus couldHaveRunningContainers hnew
  obtain ⟨rest, heq, hrest, _⟩ :=
    mergePodStatus_parts now pod oldPodStatus newPodStatus couldHaveRunningContainers hnew
  rw [heq] at honce hunready ⊢
  rw [mergePodStatus_eq, mergedConditions_eq now' oldPodStatus honce, completes_again,
    mergedFields_again]
  have hconditions := congrArg
    (mergedFields oldPodStatus newPodStatus couldHaveRunningContainers)
    (mergedConditions_again hsame hrest hnew)
  exact (congrArg (endReadiness now' pod) hconditions).trans (endReadiness_of_not hunready)

/-- Merging the new status into the result gives the result, but for the order of its conditions. -/
theorem mergePodStatus_into (hnew : OncePerType newPodStatus) :
    let merged := mergePodStatus now pod oldPodStatus newPodStatus couldHaveRunningContainers
    let again := mergePodStatus now pod merged newPodStatus couldHaveRunningContainers
    (∀ conditionType, getPodCondition again conditionType = getPodCondition merged conditionType) ∧
      again = { merged with conditions := again.conditions } := by
  intro merged again
  have hparts := mergePodStatus_parts now pod oldPodStatus newPodStatus couldHaveRunningContainers hnew
  obtain ⟨rest, heq, _⟩ := hparts
  have hfields : ∀ conditions, mergedFields merged newPodStatus couldHaveRunningContainers conditions =
      mergedFields oldPodStatus newPodStatus couldHaveRunningContainers conditions := by
    intro conditions
    show mergedFields (mergePodStatus _ _ _ _ _) _ _ _ = _
    rw [heq]
    unfold mergedFields transitionsToTerminal
    cases hterminal : isPodPhaseTerminal newPodStatus.phase with
    | false => simp
    | true =>
      cases hold : isPodPhaseTerminal oldPodStatus.phase with
      | true => simp [hterminal]
      | false =>
        cases couldHaveRunningContainers with
        | false => simp
        | true => simp [hold]
  have hends : completes merged newPodStatus couldHaveRunningContainers = false := by
    show completes (mergePodStatus _ _ _ _ _) _ _ = false
    rw [heq]
    unfold completes mergedFields transitionsToTerminal
    cases couldHaveRunningContainers with
    | true => simp
    | false =>
      cases hterminal : isPodPhaseTerminal newPodStatus.phase <;> simp [hterminal]
  refine ⟨?_, ?_⟩
  · intro conditionType
    have hover : overwrites merged newPodStatus couldHaveRunningContainers =
        overwrites oldPodStatus newPodStatus couldHaveRunningContainers := by
      unfold overwrites
      rw [hfields]
    show getPodCondition (mergePodStatus now pod merged newPodStatus _) _ = _
    rw [getPodCondition_mergePodStatus now pod merged newPodStatus couldHaveRunningContainers hnew,
      hover, hends, hfields]
    show _ = getPodCondition (mergePodStatus now pod oldPodStatus newPodStatus _) _
    have hmerged := getPodCondition_mergePodStatus now pod oldPodStatus newPodStatus
      couldHaveRunningContainers hnew conditionType
    dsimp only at hmerged ⊢
    split
    · rename_i h
      rw [hmerged, if_pos h]
    · rename_i h
      split
      · rename_i h'
        rw [hmerged, if_neg h, if_pos h']
      · rename_i h'
        split
        · rename_i howned
          rw [hmerged, if_neg h, if_neg h', if_pos howned]
        · rw [if_neg (by simp)]
  · obtain ⟨rest', heq', _⟩ := mergePodStatus_parts now pod merged newPodStatus
      couldHaveRunningContainers hnew
    have hagain : again = mergedFields oldPodStatus newPodStatus couldHaveRunningContainers _ :=
      heq'.trans (hfields _)
    have hmerged : merged = mergedFields oldPodStatus newPodStatus couldHaveRunningContainers _ := heq
    rw [hagain, hmerged]
    rfl

end Merge

/-! ## What the merge is for -/

section Right

variable (now : T) (pod : Api.Pod T O) (oldPodStatus newPodStatus : PodStatus T O)
  (couldHaveRunningContainers : Bool)

/-- What the result of a merge says of each class of conditions, and of merging it again. -/
structure MergesRight : Prop where
  kept : ∀ conditionType, podConditionByKubelet conditionType = false →
    (conditionType = disruptionTarget →
      completes oldPodStatus newPodStatus couldHaveRunningContainers = false) →
    getPodCondition (mergePodStatus now pod oldPodStatus newPodStatus couldHaveRunningContainers)
      conditionType = getPodCondition oldPodStatus conditionType
  target : completes oldPodStatus newPodStatus couldHaveRunningContainers = true →
    getPodCondition (mergePodStatus now pod oldPodStatus newPodStatus couldHaveRunningContainers)
      disruptionTarget =
        ((getPodCondition newPodStatus disruptionTarget).map (transitioned now oldPodStatus)).or
          (getPodCondition oldPodStatus disruptionTarget)
  owned : ∀ conditionType, podConditionByKubelet conditionType = true →
    (conditionType = js "Ready" ∨ conditionType = js "ContainersReady" →
      overwrites oldPodStatus newPodStatus couldHaveRunningContainers = false) →
    getPodCondition (mergePodStatus now pod oldPodStatus newPodStatus couldHaveRunningContainers)
      conditionType = getPodCondition newPodStatus conditionType
  overwritten : overwrites oldPodStatus newPodStatus couldHaveRunningContainers = true →
    ∀ conditionType, conditionType = js "Ready" ∨ conditionType = js "ContainersReady" →
    ∃ condition, getPodCondition (mergePodStatus now pod oldPodStatus newPodStatus
        couldHaveRunningContainers) conditionType = some condition ∧ condition.status = js "False"
  once : OncePerType (mergePodStatus now pod oldPodStatus newPodStatus couldHaveRunningContainers)
  delayed : isPodPhaseTerminal oldPodStatus.phase = false → couldHaveRunningContainers = true →
    isPodPhaseTerminal
      (mergePodStatus now pod oldPodStatus newPodStatus couldHaveRunningContainers).phase = false
  unready : isPodPhaseTerminal
      (mergePodStatus now pod oldPodStatus newPodStatus couldHaveRunningContainers).phase = true →
    conditionTrue (mergePodStatus now pod oldPodStatus newPodStatus couldHaveRunningContainers)
        (js "Ready") = false ∧
      conditionTrue (mergePodStatus now pod oldPodStatus newPodStatus couldHaveRunningContainers)
        (js "ContainersReady") = false
  again : ∀ now', SameTarget now oldPodStatus newPodStatus couldHaveRunningContainers now' →
    mergePodStatus now' pod oldPodStatus
        (mergePodStatus now pod oldPodStatus newPodStatus couldHaveRunningContainers)
        couldHaveRunningContainers =
      mergePodStatus now pod oldPodStatus newPodStatus couldHaveRunningContainers
  into :
    let merged := mergePodStatus now pod oldPodStatus newPodStatus couldHaveRunningContainers
    let again := mergePodStatus now pod merged newPodStatus couldHaveRunningContainers
    (∀ conditionType, getPodCondition again conditionType = getPodCondition merged conditionType) ∧
      again = { merged with conditions := again.conditions }

/-- The merge does what it is for, but that a pod that has ended does not take its readiness from a
new status that reports it as ready. -/
theorem mergePodStatus_right (hold : OncePerType oldPodStatus) (hnew : OncePerType newPodStatus) :
    MergesRight now pod oldPodStatus newPodStatus couldHaveRunningContainers := by
  have hget := getPodCondition_mergePodStatus now pod oldPodStatus newPodStatus
    couldHaveRunningContainers hnew
  have hready : podConditionByKubelet (js "Ready") = true := by decide
  have hcontainers : podConditionByKubelet (js "ContainersReady") = true := by decide
  have hne : js "ContainersReady" ≠ js "Ready" := by decide
  have hother : ∀ {conditionType}, podConditionByKubelet conditionType = false →
      conditionType ≠ js "Ready" ∧ conditionType ≠ js "ContainersReady" := by
    intro conditionType hnot
    constructor
    · rintro rfl
      rw [hready] at hnot
      exact absurd hnot Bool.true_eq_false.mp
    · rintro rfl
      rw [hcontainers] at hnot
      exact absurd hnot Bool.true_eq_false.mp
  constructor
  · intro conditionType hnot htarget
    obtain ⟨hr, hc⟩ := hother hnot
    have hnot' : ¬ (conditionType = disruptionTarget ∧
        completes oldPodStatus newPodStatus couldHaveRunningContainers = true) := by
      rintro ⟨htype, hends⟩
      rw [htarget htype] at hends
      exact absurd hends Bool.false_ne_true
    rw [hget]
    dsimp only
    rw [if_neg (fun h => hr h.2), if_neg (fun h => hc h.2), if_neg (by simp [hnot]), if_neg hnot']
  · intro hends
    obtain ⟨hr, hc⟩ := hother not_byKubelet_of_target
    rw [hget]
    dsimp only
    rw [if_neg (fun h => hr h.2), if_neg (fun h => hc h.2),
      if_neg (by simp [not_byKubelet_of_target]), if_pos ⟨rfl, hends⟩]
  · intro conditionType howned hover
    rw [hget]
    dsimp only
    rw [if_neg, if_neg, if_pos howned]
    · rintro ⟨h, htype⟩
      rw [hover (.inr htype)] at h
      exact absurd h Bool.false_ne_true
    · rintro ⟨h, htype⟩
      rw [hover (.inl htype)] at h
      exact absurd h Bool.false_ne_true
  · rintro hover conditionType (rfl | rfl)
    · rw [hget]
      dsimp only
      rw [if_pos ⟨hover, rfl⟩]
      exact ⟨_, rfl, rfl⟩
    · rw [hget]
      dsimp only
      rw [if_neg (fun h => hne h.2), if_pos ⟨hover, rfl⟩]
      exact ⟨_, rfl, rfl⟩
  · exact once_mergePodStatus now pod oldPodStatus newPodStatus couldHaveRunningContainers hold hnew
  · intro hphase hrunning
    obtain ⟨rest, heq, _⟩ :=
      mergePodStatus_parts now pod oldPodStatus newPodStatus couldHaveRunningContainers hnew
    rw [heq]
    unfold mergedFields transitionsToTerminal
    cases hterminal : isPodPhaseTerminal newPodStatus.phase <;> simp [hphase, hrunning, hterminal]
  · intro hphase
    have hunready := unready_mergePodStatus now pod oldPodStatus newPodStatus
      couldHaveRunningContainers hnew
    unfold reportsReady at hunready
    rw [hphase, Bool.true_and, Bool.or_eq_false_iff] at hunready
    exact hunready
  · intro now' hsame
    exact mergePodStatus_again pod hold hnew hsame
  · exact mergePodStatus_into pod hnew

end Right

/-! ### A pod that has succeeded -/

/-- A pod that runs at the API. -/
def runningStatus : PodStatus Nat Unit := { phase := some (js "Running") }

/-- The status of a pod that has succeeded, ready still and with a condition that it shares. -/
def succeededStatus : PodStatus Nat Unit where
  phase := some (js "Succeeded")
  conditions := some [{ type := js "PodScheduled", status := js "True" },
    { type := js "DisruptionTarget", status := js "True" }, { type := js "Ready", status := js "True" }]

/-- The readiness is not the one of the new status; and at a later reading of the clock the shared
condition is merged with another time. -/
theorem readiness_overwritten :
    OncePerType runningStatus ∧ OncePerType succeededStatus ∧
    (getPodCondition (mergePodStatus 1 {} runningStatus succeededStatus false) (js "Ready")).map
        PodCondition.status = some (js "False") ∧
      (getPodCondition succeededStatus (js "Ready")).map PodCondition.status = some (js "True") ∧
    mergePodStatus 2 {} runningStatus (mergePodStatus 1 {} runningStatus succeededStatus false) false
      ≠ mergePodStatus 1 {} runningStatus succeededStatus false := by
  decide +kernel

theorem mergePodStatus_right_succeeded :
    MergesRight 1 {} runningStatus succeededStatus false :=
  mergePodStatus_right 1 {} runningStatus succeededStatus false
    (by decide +kernel) (by decide +kernel)

end Webernetes.Kubelet
