/-
Webernetes.Kubelet.InitOrder — the initialisation checks of the status manager
on statuses in the order of the spec, and on normal ones, which are in the order
of their names.

`initializedContainers` takes the statuses up to the last one that was reached,
and `hasPodInitialized` looks at the last one, so both go by the order of the
list. They answer the same before and after `normalizeStatus` exactly where the
two orders agree on what comes after a container that was not reached, and on
which one is last (`checksAgree_iff`).
-/
import Webernetes.Kubelet.StatusSettles

namespace Webernetes.Kubelet

open Js Api

variable {T O : Type}

/-! ## A list up to its last element of a kind -/

section ThroughLast

variable {α : Type} {p : α → Bool} {l : List α}

/-- `x` stands somewhere before `y`. -/
def Before (l : List α) (x y : α) : Prop := [x, y].Sublist l

def throughLast (p : α → Bool) (l : List α) : List α := (l.reverse.dropWhile fun x => !p x).reverse

theorem throughLast_append : ∃ rest, l = throughLast p l ++ rest ∧ ∀ x ∈ rest, p x = false := by
  refine ⟨(l.reverse.takeWhile fun x => !p x).reverse, ?_, ?_⟩
  · rw [throughLast, ← List.reverse_append, List.takeWhile_append_dropWhile, List.reverse_reverse]
  · intro x hx
    simpa using List.mem_takeWhile_imp (List.mem_reverse.mp hx)

theorem throughLast_cases : throughLast p l = [] ∨
    ∃ front y, throughLast p l = front ++ [y] ∧ p y = true := by
  unfold throughLast
  cases h : l.reverse.dropWhile fun x => !p x with
  | nil => exact .inl rfl
  | cons y rest =>
    have hne : l.reverse.dropWhile (fun x => !p x) ≠ [] := by
      rw [h]
      exact List.cons_ne_nil y rest
    have hy := List.head_dropWhile_not (fun x => !p x) hne
    simp only [h, List.head_cons] at hy
    exact .inr ⟨rest.reverse, y, List.reverse_cons, by simpa using hy⟩

theorem throughLast_eq_nil_iff : throughLast p l = [] ↔ ∀ x ∈ l, p x = false := by
  obtain ⟨rest, hl, hrest⟩ := throughLast_append (p := p) (l := l)
  constructor
  · intro h
    rw [h, List.nil_append] at hl
    rw [hl]
    exact hrest
  · intro h
    rcases throughLast_cases (p := p) (l := l) with heq | ⟨front, y, heq, hy⟩
    · exact heq
    · have hmem : y ∈ l := by
        rw [hl, heq]
        simp
      rw [h y hmem] at hy
      exact absurd hy Bool.false_ne_true

/-- Up to the last of them are those of the kind, and what one of them follows. -/
theorem mem_throughLast_iff {x : α} (hx : x ∈ l) :
    x ∈ throughLast p l ↔ p x = true ∨ ∃ y, p y = true ∧ Before l x y := by
  obtain ⟨rest, hl, hrest⟩ := throughLast_append (p := p) (l := l)
  constructor
  · intro hmem
    rcases throughLast_cases (p := p) (l := l) with heq | ⟨front, y, heq, hy⟩
    · rw [heq] at hmem
      exact absurd hmem List.not_mem_nil
    · rw [heq] at hmem
      rcases List.mem_append.mp hmem with hfront | hlast
      · refine .inr ⟨y, hy, ?_⟩
        have hbefore : [x, y].Sublist (front ++ [y]) :=
          (List.singleton_sublist.mpr hfront).append (.refl [y])
        rw [Before, hl, heq]
        exact hbefore.trans (List.sublist_append_left _ _)
      · rw [List.mem_singleton.mp hlast]
        exact .inl hy
  · intro h
    rw [hl] at hx
    rcases h with hp | ⟨y, hy, hbefore⟩
    · rcases List.mem_append.mp hx with hmem | hmem
      · exact hmem
      · rw [hrest x hmem] at hp
        exact absurd hp Bool.false_ne_true
    · rw [Before, hl] at hbefore
      obtain ⟨left, right, heq, hleft, hright⟩ := List.sublist_append_iff.mp hbefore
      cases left with
      | nil =>
        rw [List.nil_append] at heq
        have hmem : y ∈ rest := hright.subset (by rw [← heq]; simp)
        rw [hrest y hmem] at hy
        exact absurd hy Bool.false_ne_true
      | cons z left =>
        rw [List.cons_append, List.cons.injEq] at heq
        rw [heq.1]
        exact hleft.subset List.mem_cons_self

theorem Before.mem {x y : α} (h : Before l x y) : y ∈ l := h.subset (by simp)

/-- Where the list is split at the last one. -/
theorem throughLast_of_split {front back : List α} {y : α} (hy : p y = true)
    (hback : ∀ x ∈ back, p x = false) : throughLast p (front ++ y :: back) = front ++ [y] := by
  unfold throughLast
  have hdrop : (front ++ y :: back).reverse.dropWhile (fun x => !p x) = y :: front.reverse := by
    rw [List.reverse_append, List.reverse_cons, List.append_assoc, List.dropWhile_append_of_pos]
    · simp [hy]
    · intro x hx
      simp [hback x (List.mem_reverse.mp hx)]
  rw [hdrop]
  simp

/-- What is changed at an index up to a place in the list. -/
theorem modify_append_cons {f : α → α} {y : α} {back : List α} :
    ∀ {front : List α} {i : Nat}, i ≤ front.length → ∃ front' y',
      (front ++ y :: back).modify i f = front' ++ y' :: back ∧ front'.length = front.length ∧
        (y' = y ∨ y' = f y) := by
  intro front
  induction front with
  | nil =>
    intro i hi
    obtain rfl : i = 0 := Nat.le_zero.mp hi
    exact ⟨[], f y, rfl, rfl, .inr rfl⟩
  | cons x front ih =>
    intro i hi
    cases i with
    | zero => exact ⟨f x :: front, y, rfl, rfl, .inl rfl⟩
    | succ i =>
      obtain ⟨front', y', heq, hlength, hy⟩ := ih (Nat.le_of_succ_le_succ hi)
      refine ⟨x :: front', y', ?_, by rw [List.length_cons, hlength, List.length_cons], hy⟩
      rw [List.cons_append, List.modify_succ_cons, heq, List.cons_append]

theorem throughLast_map {f : α → α} (hf : ∀ x, p (f x) = p x) :
    throughLast p (l.map f) = (throughLast p l).map f := by
  unfold throughLast
  rw [← List.map_reverse, List.dropWhile_map, List.map_reverse]
  simp only [Function.comp_def, hf]

end ThroughLast

/-! ## The containers that were reached -/

/-- The container does not wait, or has run before. -/
def reached (status : ContainerStatus T O) : Bool :=
  (status.state.bind ContainerState.waiting).isNone
    || (status.lastState.bind ContainerState.terminated).isSome

section Initialized

variable {statuses : List (ContainerStatus T O)}

theorem initializedContainers_eq (statuses : List (ContainerStatus T O)) :
    initializedContainers statuses =
      if (throughLast reached statuses).isEmpty then statuses.take 1
      else throughLast reached statuses := by
  have hwaits : (fun container : ContainerStatus T O =>
      (container.state.bind ContainerState.waiting).isSome
        && (container.lastState.bind ContainerState.terminated).isNone)
      = fun container => !reached container := by
    funext container
    unfold reached
    cases container.state.bind ContainerState.waiting <;>
      cases container.lastState.bind ContainerState.terminated <;> rfl
  unfold initializedContainers throughLast
  dsimp only
  rw [hwaits]
  cases (statuses.reverse.dropWhile fun container => !reached container).reverse <;> rfl

theorem mem_initializedContainers_iff {x : ContainerStatus T O} (hx : x ∈ statuses) :
    x ∈ initializedContainers statuses ↔
      reached x = true ∨ (∃ y, reached y = true ∧ Before statuses x y) ∨
        (∀ y ∈ statuses, reached y = false) ∧ statuses.head? = some x := by
  rw [initializedContainers_eq]
  by_cases hnone : ∀ y ∈ statuses, reached y = false
  · have hnil : throughLast reached statuses = [] := throughLast_eq_nil_iff.mpr hnone
    rw [if_pos (by rw [hnil]; rfl)]
    have hbefore : ¬ ∃ y, reached y = true ∧ Before statuses x y := by
      rintro ⟨y, hy, h⟩
      rw [hnone y h.mem] at hy
      exact absurd hy Bool.false_ne_true
    have hwaits : reached x = false := hnone x hx
    cases statuses with
    | nil => exact absurd hx List.not_mem_nil
    | cons z rest =>
      simp only [hwaits, hbefore, false_or, List.take_succ_cons, List.take_zero, List.mem_singleton,
        List.head?_cons, Option.some.injEq, Bool.false_eq_true]
      constructor
      · rintro rfl
        exact ⟨hnone, rfl⟩
      · rintro ⟨_, rfl⟩
        rfl
  · have hne : throughLast reached statuses ≠ [] := fun h => hnone (throughLast_eq_nil_iff.mp h)
    rw [if_neg (by simpa using hne), mem_throughLast_iff hx]
    simp [hnone]

theorem initializedContainers_map {f : ContainerStatus T O → ContainerStatus T O}
    (hf : ∀ x, reached (f x) = reached x) :
    initializedContainers (statuses.map f) = (initializedContainers statuses).map f := by
  rw [initializedContainers_eq, initializedContainers_eq, throughLast_map hf, List.isEmpty_map,
    ← List.map_take]
  split <;> rfl

theorem initializedContainers_take (statuses : List (ContainerStatus T O)) :
    initializedContainers statuses = statuses.take (initializedContainers statuses).length := by
  have hfirst : ∃ rest, statuses = initializedContainers statuses ++ rest := by
    rw [initializedContainers_eq]
    split
    · exact ⟨statuses.drop 1, (List.take_append_drop 1 statuses).symm⟩
    · obtain ⟨rest, hl, _⟩ := throughLast_append (p := reached) (l := statuses)
      exact ⟨rest, hl⟩
  obtain ⟨rest, hl⟩ := hfirst
  conv_rhs => rw [hl]
  conv_rhs => arg 1; rw [← hl]
  rw [List.take_left']
  rfl

theorem reached_terminateContainer {x : ContainerStatus T O} (h : reached x = true) :
    reached (terminateContainer x) = true := by
  unfold terminateContainer
  split
  · exact h
  · rfl

/-- Terminating one of them leaves the last one where it is. -/
theorem length_initialized_modify {i : Nat} (hi : i < (initializedContainers statuses).length) :
    (initializedContainers (statuses.modify i terminateContainer)).length
      = (initializedContainers statuses).length := by
  obtain ⟨rest, hl, hrest⟩ := throughLast_append (p := reached) (l := statuses)
  have hsplit : ∀ front (z : ContainerStatus T O), reached z = true →
      (initializedContainers (front ++ z :: rest)).length = front.length + 1 := by
    intro front z hz
    rw [initializedContainers_eq, throughLast_of_split hz hrest]
    simp
  rcases throughLast_cases (p := reached) (l := statuses) with hnil | ⟨front, y, heq, hy⟩
  · have hnone := throughLast_eq_nil_iff.mp hnil
    have hlength : (initializedContainers statuses).length = (statuses.take 1).length := by
      rw [initializedContainers_eq, if_pos (by rw [hnil]; rfl)]
    rw [hlength] at hi ⊢
    cases statuses with
    | nil => exact absurd hi (Nat.not_lt_zero i)
    | cons z tail =>
      have hzero : i = 0 := by
        simpa using hi
      subst hzero
      have htail : ∀ x ∈ tail, reached x = false := fun x hx => hnone x (List.mem_cons_of_mem _ hx)
      rw [List.modify_zero_cons, initializedContainers_eq]
      cases hz : reached (terminateContainer z) with
      | true =>
        have hlast : throughLast reached ([] ++ terminateContainer z :: tail)
            = [] ++ [terminateContainer z] := throughLast_of_split hz htail
        rw [List.nil_append] at hlast
        rw [hlast]
        simp
      | false =>
        have hlast : throughLast reached (terminateContainer z :: tail) = [] := by
          refine throughLast_eq_nil_iff.mpr ?_
          intro x hx
          rcases List.mem_cons.mp hx with rfl | hx
          · exact hz
          · exact htail x hx
        rw [hlast]
        simp
  · rw [heq, List.append_assoc, List.singleton_append] at hl
    have hlength : (initializedContainers statuses).length = front.length + 1 := by
      conv_lhs => rw [hl]
      exact hsplit front y hy
    have hle : i ≤ front.length := by omega
    obtain ⟨front', y', hmodify, hfront, hy'⟩ :=
      @modify_append_cons _ terminateContainer y rest front i hle
    have hreached : reached y' = true := by
      rcases hy' with rfl | rfl
      · exact hy
      · exact reached_terminateContainer hy
    rw [hlength, hl, hmodify, hsplit front' y' hreached, hfront]

/-- The loop terminates what is up to its bound, which stays where it is. -/
theorem getElem?_terminateInitFrom (turns i : Nat) (statuses : List (ContainerStatus T O))
    (hturns : (initializedContainers statuses).length ≤ turns + i) (j : Nat) :
    (terminateInitFrom turns i statuses)[j]? =
      if i ≤ j ∧ j < (initializedContainers statuses).length then
        statuses[j]?.map terminateContainer
      else statuses[j]? := by
  induction turns generalizing i statuses with
  | zero =>
    rw [terminateInitFrom, if_neg (by omega)]
  | succ turns ih =>
    rw [terminateInitFrom]
    split
    · rename_i hi
      have hlength := length_initialized_modify hi
      rw [ih (i + 1) _ (by omega), hlength, List.getElem?_modify]
      by_cases hij : i = j
      · subst hij
        rw [if_neg (by omega), if_pos ⟨le_refl i, hi⟩]
        simp
      · have hiff : (i + 1 ≤ j ∧ j < (initializedContainers statuses).length) ↔
            (i ≤ j ∧ j < (initializedContainers statuses).length) := by omega
        simp only [hiff, hij, if_false]
        cases statuses[j]? <;> rfl
    · rw [if_neg (by omega)]

/-- The names of the containers that have terminated. -/
def terminatedNames (statuses : List (ContainerStatus T O)) : List JsString :=
  (statuses.filter fun status => status.terminated.isSome).map ContainerStatus.name

/-- The init containers as `terminatePod` leaves them. -/
abbrev marked (statuses : List (ContainerStatus T O)) : List (ContainerStatus T O) :=
  terminateInitFrom statuses.length 0 statuses

theorem name_terminateContainer (status : ContainerStatus T O) :
    (terminateContainer status).name = status.name := by
  unfold terminateContainer
  split <;> rfl

theorem terminated_terminateContainer (status : ContainerStatus T O) :
    (terminateContainer status).terminated.isSome = true := by
  unfold terminateContainer
  split
  · assumption
  · rfl

theorem length_initializedContainers_le (statuses : List (ContainerStatus T O)) :
    (initializedContainers statuses).length ≤ statuses.length := by
  rw [initializedContainers_take statuses, List.length_take]
  exact Nat.min_le_right _ _

theorem getElem?_marked (j : Nat) : (marked statuses)[j]? =
    if j < (initializedContainers statuses).length then statuses[j]?.map terminateContainer
    else statuses[j]? := by
  rw [getElem?_terminateInitFrom _ _ _ (length_initializedContainers_le statuses)]
  simp

theorem map_name_marked : (marked statuses).map ContainerStatus.name
    = statuses.map ContainerStatus.name := by
  refine List.ext_getElem? ?_
  intro j
  rw [List.getElem?_map, getElem?_marked, List.getElem?_map]
  split
  · cases statuses[j]? with
    | none => rfl
    | some status => exact congrArg some (name_terminateContainer status)
  · rfl

/-- Those have terminated that had, and those that were reached. -/
theorem mem_terminatedNames_marked {name : JsString} : name ∈ terminatedNames (marked statuses) ↔
    ∃ x ∈ statuses, x.name = name ∧
      (x.terminated.isSome = true ∨ x ∈ initializedContainers statuses) := by
  constructor
  · intro h
    obtain ⟨x, hx, rfl⟩ := List.mem_map.mp h
    obtain ⟨hmem, hterminated⟩ := List.mem_filter.mp hx
    obtain ⟨j, hj⟩ := List.mem_iff_getElem?.mp hmem
    rw [getElem?_marked] at hj
    split at hj
    · rename_i hlt
      obtain ⟨y, hy, rfl⟩ := Option.map_eq_some_iff.mp hj
      refine ⟨y, List.mem_of_getElem? hy, (name_terminateContainer y).symm, .inr ?_⟩
      rw [initializedContainers_take statuses]
      refine List.mem_of_getElem? (i := j) ?_
      rw [List.getElem?_take, if_pos hlt, hy]
    · exact ⟨x, List.mem_of_getElem? hj, rfl, .inl hterminated⟩
  · rintro ⟨x, hx, rfl, h⟩
    have hindex : ∃ j, statuses[j]? = some x ∧
        (x.terminated.isSome = true ∨ j < (initializedContainers statuses).length) := by
      rcases h with h | h
      · obtain ⟨j, hj⟩ := List.mem_iff_getElem?.mp hx
        exact ⟨j, hj, .inl h⟩
      · rw [initializedContainers_take statuses] at h
        obtain ⟨j, hj⟩ := List.mem_iff_getElem?.mp h
        rw [List.getElem?_take] at hj
        split at hj
        · rename_i hlt
          exact ⟨j, hj, .inr hlt⟩
        · cases hj
    obtain ⟨j, hj, hor⟩ := hindex
    have hmarked : ∃ y, (marked statuses)[j]? = some y ∧ y.name = x.name ∧
        y.terminated.isSome = true := by
      rw [getElem?_marked]
      split
      · exact ⟨terminateContainer x, by rw [hj]; rfl, name_terminateContainer x,
          terminated_terminateContainer x⟩
      · rename_i hnot
        exact ⟨x, hj, rfl, hor.resolve_right hnot⟩
    obtain ⟨y, hy, hname, hterminated⟩ := hmarked
    exact List.mem_map.mpr ⟨y, List.mem_filter.mpr ⟨List.mem_of_getElem? hy, hterminated⟩, hname⟩

theorem nodup_terminatedNames_marked (h : (statuses.map ContainerStatus.name).Nodup) :
    (terminatedNames (marked statuses)).Nodup := by
  rw [← map_name_marked] at h
  exact h.sublist (List.filter_sublist.map _)

end Initialized

/-! ## In the order of the names -/

section ByName

variable (host : Host T)

/-- The statuses in the order in which `normalizeStatus` leaves them. -/
def byName (statuses : List (ContainerStatus T O)) : List (ContainerStatus T O) :=
  statuses.mergeSort fun left right => (host.locale.localeCompare left.name right.name).isLE

variable (bytes : Nat) (statuses : List (ContainerStatus T O))

theorem normalizeContainerStatuses_eq : normalizeContainerStatuses host bytes statuses =
    (byName host statuses).map (normalizeContainerStatus host bytes) := by
  unfold normalizeContainerStatuses byName
  refine (List.map_mergeSort ?_).symm
  intro left _ right _
  rfl

theorem byName_perm : (byName host statuses).Perm statuses := List.mergeSort_perm _ _

theorem waiting_normalizeContainerState (state : Option (ContainerState T O)) :
    ((state.map (normalizeContainerState host bytes)).bind ContainerState.waiting)
      = state.bind ContainerState.waiting := by
  cases state <;> rfl

theorem terminated_normalizeContainerState (state : Option (ContainerState T O)) :
    ((state.map (normalizeContainerState host bytes)).bind ContainerState.terminated)
      = (state.bind ContainerState.terminated).map (normalizeTerminated host bytes) := by
  cases state <;> rfl

theorem reached_normalizeContainerStatus (status : ContainerStatus T O) :
    reached (normalizeContainerStatus host bytes status) = reached status := by
  unfold reached normalizeContainerStatus
  dsimp only
  rw [waiting_normalizeContainerState, terminated_normalizeContainerState, Option.isSome_map]

theorem terminated_normalizeContainerStatus (status : ContainerStatus T O) :
    (normalizeContainerStatus host bytes status).terminated.isSome = status.terminated.isSome := by
  unfold ContainerStatus.terminated normalizeContainerStatus
  dsimp only
  rw [terminated_normalizeContainerState, Option.isSome_map]

theorem exitedWithZero_normalize (state : Option (ContainerState T O)) :
    exitedWithZero (state.map (normalizeContainerState host bytes)) = exitedWithZero state := by
  unfold exitedWithZero
  rw [terminated_normalizeContainerState]
  cases state.bind ContainerState.terminated <;> rfl

theorem lastInitContainerDone_normalize (container : Api.Container) (status : ContainerStatus T O) :
    lastInitContainerDone container (normalizeContainerStatus host bytes status)
      = lastInitContainerDone container status := by
  unfold lastInitContainerDone normalizeContainerStatus
  dsimp only
  rw [exitedWithZero_normalize, exitedWithZero_normalize]
  cases status.state with
  | none => rfl
  | some state =>
    show (if _ then (state.running.map _).isSome && _ else _) = _
    rw [Option.isSome_map]
    rfl

end ByName

/-! ## The checks -/

section Checks

variable (host : Host T) (pod : Api.Pod T O) (status : PodStatus T O)

/-- The checks on the normal status answer as on the status that it was. -/
structure ChecksAgree : Prop where
  initialized : hasPodInitialized { pod with status := some (normalizeStatus host pod status) }
    = hasPodInitialized { pod with status := some status }
  reached :
    ((initializedContainers ((normalizeStatus host pod status).initContainerStatuses.getD [])).map
        ContainerStatus.name).Perm
      ((initializedContainers (status.initContainerStatuses.getD [])).map ContainerStatus.name)
  initTerminated :
    (terminatedNames ((terminatedStatus { pod with status := some (normalizeStatus host pod status) }
        (normalizeStatus host pod status)).initContainerStatuses.getD [])).Perm
      (terminatedNames ((terminatedStatus { pod with status := some status }
        status).initContainerStatuses.getD []))
  terminated :
    (terminatedNames ((terminatedStatus { pod with status := some (normalizeStatus host pod status) }
        (normalizeStatus host pod status)).containerStatuses.getD [])).Perm
      (terminatedNames ((terminatedStatus { pod with status := some status }
        status).containerStatuses.getD []))
  again : normalizeStatus host pod (normalizeStatus host pod status) = normalizeStatus host pod status

/-- The last of the statuses is of the init container at its index, which has done its work. -/
def lastDone (statuses : List (ContainerStatus T O)) : Bool :=
  match getContainerByIndex ((pod.spec.getD {}).initContainers.getD []) statuses (statuses.length - 1),
    statuses.getLast? with
  | some container, some status => lastInitContainerDone container status
  | _, _ => false

/-- The order of the statuses and the order of their names agree on what the checks go by. -/
structure OrdersAgree : Prop where
  last : ((pod.spec.getD {}).initContainers.getD []).length = 0 ∨
    (∃ x ∈ status.containerStatuses.getD [], reached x = true) ∨
    lastDone pod (byName host (status.initContainerStatuses.getD []))
      = lastDone pod (status.initContainerStatuses.getD [])
  before : ∀ x ∈ status.initContainerStatuses.getD [], Kubelet.reached x = false →
    ((∃ y, Kubelet.reached y = true ∧ Before (byName host (status.initContainerStatuses.getD [])) x y) ↔
      ∃ y, Kubelet.reached y = true ∧ Before (status.initContainerStatuses.getD []) x y)
  first : (∀ x ∈ status.initContainerStatuses.getD [], Kubelet.reached x = false) →
    (byName host (status.initContainerStatuses.getD [])).head?
      = (status.initContainerStatuses.getD []).head?

theorem hasPodInitialized_eq : hasPodInitialized { pod with status := some status } =
    if ((pod.spec.getD {}).initContainers.getD []).length = 0 then true
    else if (status.containerStatuses.getD []).any Kubelet.reached then true
    else lastDone pod (status.initContainerStatuses.getD []) := by
  have hreached : (fun status : ContainerStatus T O =>
      (status.lastState.bind ContainerState.terminated).isSome
        || (status.state.bind ContainerState.waiting).isNone) = Kubelet.reached := by
    funext status
    exact Bool.or_comm _ _
  unfold hasPodInitialized lastDone
  dsimp only
  rw [hreached]
  rfl

theorem containerStatuses_normalizeStatus :
    (normalizeStatus host pod status).containerStatuses.getD [] =
      normalizeContainerStatuses host (bytesPerStatus pod) (status.containerStatuses.getD []) := by
  unfold normalizeStatus
  cases status.containerStatuses with
  | none => simp [normalizeContainerStatuses]
  | some statuses => rfl

theorem initContainerStatuses_normalizeStatus :
    (normalizeStatus host pod status).initContainerStatuses.getD [] =
      normalizeContainerStatuses host (bytesPerStatus pod) (status.initContainerStatuses.getD []) := by
  unfold normalizeStatus
  cases status.initContainerStatuses with
  | none => simp [normalizeContainerStatuses]
  | some statuses => rfl

theorem lastDone_normalize (bytes : Nat) (statuses : List (ContainerStatus T O)) :
    lastDone pod (statuses.map (normalizeContainerStatus host bytes)) = lastDone pod statuses := by
  unfold lastDone getContainerByIndex
  rw [List.length_map, List.getElem?_map, List.getLast?_map]
  cases ((pod.spec.getD {}).initContainers.getD [])[statuses.length - 1]? with
  | none => rfl
  | some container =>
    cases statuses[statuses.length - 1]? with
    | none => rfl
    | some status =>
      cases statuses.getLast? with
      | none => simp
      | some last =>
        have hname : (normalizeContainerStatus host bytes status).name = status.name := rfl
        by_cases h : status.name = container.name
        · simp [hname, h, lastInitContainerDone_normalize]
        · simp [hname, h]

theorem any_reached_normalize (bytes : Nat) (statuses : List (ContainerStatus T O)) :
    (normalizeContainerStatuses host bytes statuses).any Kubelet.reached
      = statuses.any Kubelet.reached := by
  rw [normalizeContainerStatuses_eq, List.any_map, (byName_perm host statuses).any_eq]
  simp only [Function.comp_def, reached_normalizeContainerStatus]

/-- The names of the init containers that count as reached, before and after. -/
theorem names_initialized_normalize (bytes : Nat) (statuses : List (ContainerStatus T O)) :
    (initializedContainers (normalizeContainerStatuses host bytes statuses)).map ContainerStatus.name
      = (initializedContainers (byName host statuses)).map ContainerStatus.name := by
  rw [normalizeContainerStatuses_eq,
    initializedContainers_map (reached_normalizeContainerStatus host bytes), List.map_map]
  rfl

/-- The init containers as they count in both orders, by what is asked of the orders. -/
theorem initialized_byName_iff {statuses : List (ContainerStatus T O)} :
    (∀ x ∈ statuses, x ∈ initializedContainers (byName host statuses) ↔
        x ∈ initializedContainers statuses) ↔
      (∀ x ∈ statuses, Kubelet.reached x = false →
        ((∃ y, Kubelet.reached y = true ∧ Before (byName host statuses) x y) ↔
          ∃ y, Kubelet.reached y = true ∧ Before statuses x y)) ∧
      ((∀ x ∈ statuses, Kubelet.reached x = false) →
        (byName host statuses).head? = statuses.head?) := by
  have hmem : ∀ {x}, x ∈ byName host statuses ↔ x ∈ statuses := (byName_perm host statuses).mem_iff
  have hnone : (∀ y ∈ byName host statuses, Kubelet.reached y = false) ↔
      ∀ y ∈ statuses, Kubelet.reached y = false := by
    simp only [hmem]
  have hnothing : ∀ {l : List (ContainerStatus T O)} {x}, (∀ y ∈ l, Kubelet.reached y = false) →
      ¬ ∃ y, Kubelet.reached y = true ∧ Before l x y := by
    rintro l x h ⟨y, hy, hbefore⟩
    rw [h y hbefore.mem] at hy
    exact absurd hy Bool.false_ne_true
  constructor
  · intro h
    have hsame : ∀ x ∈ statuses, Kubelet.reached x = false →
        ((∃ y, Kubelet.reached y = true ∧ Before (byName host statuses) x y) ∨
            (∀ y ∈ statuses, Kubelet.reached y = false) ∧ (byName host statuses).head? = some x ↔
          (∃ y, Kubelet.reached y = true ∧ Before statuses x y) ∨
            (∀ y ∈ statuses, Kubelet.reached y = false) ∧ statuses.head? = some x) := by
      intro x hx hwaits
      have := h x hx
      rw [mem_initializedContainers_iff (hmem.mpr hx), mem_initializedContainers_iff hx, hnone] at this
      simpa only [hwaits, Bool.false_eq_true, false_or] using this
    refine ⟨?_, ?_⟩
    · intro x hx hwaits
      by_cases hall : ∀ y ∈ statuses, Kubelet.reached y = false
      · exact iff_of_false (hnothing (hnone.mpr hall)) (hnothing hall)
      · simpa only [hall, false_and, or_false] using hsame x hx hwaits
    · intro hall
      cases hstatuses : statuses.head? with
      | none =>
        have hnil : statuses = [] := List.head?_eq_none_iff.mp hstatuses
        rw [hnil]
        simp [byName]
      | some x =>
        have hx : x ∈ statuses := List.mem_of_mem_head? hstatuses
        have := (hsame x hx (hall x hx)).mpr (.inr ⟨hall, hstatuses⟩)
        exact (this.resolve_left (hnothing (hnone.mpr hall))).2
  · rintro ⟨hbefore, hfirst⟩ x hx
    rw [mem_initializedContainers_iff (hmem.mpr hx), mem_initializedContainers_iff hx, hnone]
    cases hreached : Kubelet.reached x with
    | true => simp
    | false =>
      rw [hbefore x hx hreached]
      by_cases hall : ∀ y ∈ statuses, Kubelet.reached y = false
      · rw [hfirst hall]
      · simp only [hall, false_and]

/-- Two parts of a list of containers of their own names are the same by their names. -/
theorem map_name_perm_iff {statuses left right : List (ContainerStatus T O)}
    (hnames : (statuses.map ContainerStatus.name).Nodup)
    (hleft : ∃ l, l.Perm statuses ∧ left.Sublist l) (hright : right.Sublist statuses) :
    (left.map ContainerStatus.name).Perm (right.map ContainerStatus.name) ↔
      ∀ x ∈ statuses, x ∈ left ↔ x ∈ right := by
  obtain ⟨l, hl, hsub⟩ := hleft
  have hnodup : (left.map ContainerStatus.name).Nodup :=
    ((hl.map ContainerStatus.name).nodup_iff.mpr hnames).sublist (hsub.map _)
  have hnodup' : (right.map ContainerStatus.name).Nodup := hnames.sublist (hright.map _)
  have hin : ∀ x ∈ left, x ∈ statuses := fun x hx => hl.mem_iff.mp (hsub.subset hx)
  have hin' : ∀ x ∈ right, x ∈ statuses := fun x hx => hright.subset hx
  have hback : ∀ {part : List (ContainerStatus T O)}, (∀ x ∈ part, x ∈ statuses) → ∀ x ∈ statuses,
      x.name ∈ part.map ContainerStatus.name → x ∈ part := by
    intro part hpart x hx hname
    obtain ⟨y, hy, heq⟩ := List.mem_map.mp hname
    rw [← List.inj_on_of_nodup_map hnames (hpart y hy) hx heq]
    exact hy
  rw [List.perm_ext_iff_of_nodup hnodup hnodup']
  constructor
  · intro h x hx
    constructor
    · intro hmem
      exact hback hin' x hx ((h x.name).mp (List.mem_map_of_mem hmem))
    · intro hmem
      exact hback hin x hx ((h x.name).mpr (List.mem_map_of_mem hmem))
  · intro h name
    constructor
    · intro hname
      obtain ⟨x, hx, rfl⟩ := List.mem_map.mp hname
      exact List.mem_map_of_mem ((h x (hin x hx)).mp hx)
    · intro hname
      obtain ⟨x, hx, rfl⟩ := List.mem_map.mp hname
      exact List.mem_map_of_mem ((h x (hin' x hx)).mpr hx)

theorem sublist_initializedContainers (statuses : List (ContainerStatus T O)) :
    (initializedContainers statuses).Sublist statuses := by
  rw [initializedContainers_take statuses]
  exact List.take_sublist _ _

theorem reached_iff {statuses : List (ContainerStatus T O)} (bytes : Nat)
    (hnames : (statuses.map ContainerStatus.name).Nodup) :
    ((initializedContainers (normalizeContainerStatuses host bytes statuses)).map
        ContainerStatus.name).Perm ((initializedContainers statuses).map ContainerStatus.name) ↔
      ∀ x ∈ statuses, x ∈ initializedContainers (byName host statuses) ↔
        x ∈ initializedContainers statuses := by
  rw [names_initialized_normalize]
  exact map_name_perm_iff hnames ⟨byName host statuses, byName_perm host statuses,
    sublist_initializedContainers _⟩ (sublist_initializedContainers _)

/-- With the same containers reached the same have terminated. -/
theorem terminatedNames_marked_perm {statuses : List (ContainerStatus T O)} (bytes : Nat)
    (hnames : (statuses.map ContainerStatus.name).Nodup)
    (hsame : ∀ x ∈ statuses, x ∈ initializedContainers (byName host statuses) ↔
      x ∈ initializedContainers statuses) :
    (terminatedNames (marked (normalizeContainerStatuses host bytes statuses))).Perm
      (terminatedNames (marked statuses)) := by
  have hnormal : ((normalizeContainerStatuses host bytes statuses).map ContainerStatus.name).Nodup := by
    rw [normalizeContainerStatuses_eq, List.map_map]
    exact ((byName_perm host statuses).map _).nodup_iff.mpr hnames
  refine (List.perm_ext_iff_of_nodup (nodup_terminatedNames_marked hnormal)
    (nodup_terminatedNames_marked hnames)).mpr ?_
  intro name
  rw [mem_terminatedNames_marked, mem_terminatedNames_marked, normalizeContainerStatuses_eq,
    initializedContainers_map (reached_normalizeContainerStatus host bytes)]
  constructor
  · rintro ⟨_, hnormal, rfl, h⟩
    obtain ⟨x, hx, rfl⟩ := List.mem_map.mp hnormal
    have hmem : x ∈ statuses := (byName_perm host statuses).mem_iff.mp hx
    rw [terminated_normalizeContainerStatus] at h
    refine ⟨x, hmem, rfl, h.imp_right ?_⟩
    intro hin
    obtain ⟨y, hy, heq⟩ := List.mem_map.mp hin
    have hy' : y ∈ statuses :=
      (byName_perm host statuses).mem_iff.mp ((sublist_initializedContainers _).subset hy)
    have hname : y.name = x.name := by
      have := congrArg ContainerStatus.name heq
      exact this
    rw [← List.inj_on_of_nodup_map hnames hy' hmem hname]
    exact (hsame y hy').mp hy
  · rintro ⟨x, hx, rfl, h⟩
    refine ⟨normalizeContainerStatus host bytes x,
      List.mem_map_of_mem ((byName_perm host statuses).mem_iff.mpr hx), rfl, ?_⟩
    rw [terminated_normalizeContainerStatus]
    exact h.imp_right fun hin => List.mem_map_of_mem ((hsame x hx).mpr hin)

/-- The regular containers have all terminated, or those that had. -/
theorem terminatedNames_perm (bytes : Nat) (statuses : List (ContainerStatus T O)) (all : Bool) :
    (terminatedNames (if all then (normalizeContainerStatuses host bytes statuses).map terminateContainer
        else normalizeContainerStatuses host bytes statuses)).Perm
      (terminatedNames (if all then statuses.map terminateContainer else statuses)) := by
  have hnames : ∀ l : List (ContainerStatus T O),
      terminatedNames (l.map (normalizeContainerStatus host bytes)) = terminatedNames l ∧
        terminatedNames ((l.map (normalizeContainerStatus host bytes)).map terminateContainer)
          = terminatedNames (l.map terminateContainer) := by
    intro l
    unfold terminatedNames
    constructor
    · rw [List.filter_map, List.map_map]
      simp only [Function.comp_def, terminated_normalizeContainerStatus]
      rfl
    · rw [List.map_map, List.filter_map, List.filter_map, List.map_map, List.map_map]
      simp only [Function.comp_def, terminated_terminateContainer, name_terminateContainer]
      rfl
  have hperm : ∀ {l l' : List (ContainerStatus T O)}, l.Perm l' →
      (terminatedNames l).Perm (terminatedNames l') := by
    intro l l' h
    exact (h.filter _).map _
  rw [normalizeContainerStatuses_eq]
  cases all with
  | true =>
    rw [if_pos rfl, if_pos rfl, (hnames _).2]
    exact hperm ((byName_perm host statuses).map _)
  | false =>
    rw [if_neg Bool.false_ne_true, if_neg Bool.false_ne_true, (hnames _).1]
    exact hperm (byName_perm host statuses)

theorem containerStatuses_terminatedStatus (pod : Api.Pod T O) :
    (terminatedStatus pod status).containerStatuses.getD [] =
      if hasPodInitialized pod then (status.containerStatuses.getD []).map terminateContainer
      else status.containerStatuses.getD [] := by
  unfold terminatedStatus
  dsimp only
  split <;> cases status.containerStatuses <;> rfl

theorem initContainerStatuses_terminatedStatus (pod : Api.Pod T O) :
    (terminatedStatus pod status).initContainerStatuses.getD []
      = marked (status.initContainerStatuses.getD []) := by
  unfold terminatedStatus
  cases status.initContainerStatuses <;> rfl

theorem initialized_iff :
    hasPodInitialized { pod with status := some (normalizeStatus host pod status) }
        = hasPodInitialized { pod with status := some status } ↔
      ((pod.spec.getD {}).initContainers.getD []).length = 0 ∨
        (∃ x ∈ status.containerStatuses.getD [], Kubelet.reached x = true) ∨
        lastDone pod (byName host (status.initContainerStatuses.getD []))
          = lastDone pod (status.initContainerStatuses.getD []) := by
  rw [hasPodInitialized_eq, hasPodInitialized_eq, containerStatuses_normalizeStatus,
    initContainerStatuses_normalizeStatus, any_reached_normalize, normalizeContainerStatuses_eq,
    lastDone_normalize, ← List.any_eq_true]
  by_cases hnone : ((pod.spec.getD {}).initContainers.getD []).length = 0
  · simp [hnone]
  · rw [if_neg hnone, if_neg hnone]
    cases (status.containerStatuses.getD []).any Kubelet.reached <;> simp [hnone]

end Checks

/-! ### Init containers against their alphabet -/

/-- A pod with init containers of the given names. -/
def podWithInit (names : List String) : Api.Pod Nat Unit where
  spec := some { initContainers := some (names.map fun name => { name := js name })
                 containers := some [{ name := js "app" }] }

def exitedContainer (name : String) : ContainerStatus Nat Unit :=
  { name := js name, state := some { terminated := some { exitCode := 0 } } }

def waitingContainer (name : String) : ContainerStatus Nat Unit :=
  { name := js name, state := some { waiting := some {} } }

def statusWithInit (statuses : List (ContainerStatus Nat Unit)) : PodStatus Nat Unit where
  initContainerStatuses := some statuses
  containerStatuses := some [waitingContainer "app"]

end Webernetes.Kubelet
