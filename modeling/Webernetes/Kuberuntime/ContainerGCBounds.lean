/-
Webernetes.Kuberuntime.ContainerGCBounds — what a collection leaves behind,
when the calls to the runtime go well.

§1 says of each loop which containers go and what the units are after it,
§2 follows the units through the rounds, §3 reads the bounds off them, and §4
is about the sandboxes.
-/
import Webernetes.Kuberuntime.ContainerGC
import Mathlib.Data.List.Dedup
import Mathlib.Data.List.Perm.Subperm

namespace Webernetes.Kuberuntime.GC

open Js Base

/-- Every call to the runtime goes well. -/
structure Host.Succeeds (host : Host) : Prop where
  listContainers : host.listContainers = true
  listPodSandbox : host.listPodSandbox = true
  killContainer : ∀ id, host.killContainer id = true
  removeContainer : ∀ id, host.removeContainer id = true
  stopPodSandbox : ∀ id, host.stopPodSandbox id = true
  removePodSandbox : ∀ id, host.removePodSandbox id = true

/-! ## §1 Removals -/

/-- Of the containers those with these ids are gone, and nothing else is. -/
structure Removed (rt rt' : Runtime) (ids : List JsString) : Prop where
  containers : rt'.containers = rt.containers.filter fun c => c.id ∉ ids
  sandboxes : rt'.sandboxes = rt.sandboxes

theorem Removed.refl (rt : Runtime) : Removed rt rt [] where
  containers := by simp
  sandboxes := rfl

theorem Removed.trans {rt rt' rt'' : Runtime} {ids ids' : List JsString} (h : Removed rt rt' ids)
    (h' : Removed rt' rt'' ids') : Removed rt rt'' (ids ++ ids') where
  containers := by
    rw [h'.containers, h.containers, List.filter_filter]
    refine List.filter_congr fun c _ => ?_
    simp [Bool.and_comm]
  sandboxes := h'.sandboxes.trans h.sandboxes

theorem Removed.congr {rt rt' : Runtime} {ids ids' : List JsString} (h : Removed rt rt' ids)
    (hids : ∀ id, id ∈ ids ↔ id ∈ ids') : Removed rt rt' ids' where
  containers := by
    rw [h.containers]
    refine List.filter_congr fun c _ => ?_
    simp [hids]
  sandboxes := h.sandboxes

section Loops

variable {host : Host} (hhost : host.Succeeds)

include hhost

theorem removed_evict (rt : Runtime) (container : ContainerGCInfo) :
    Removed rt (evict host rt container) [container.id] where
  containers := by
    simp [evict, hhost.killContainer, hhost.removeContainer, Runtime.removeContainer]
  sandboxes := by
    simp [evict, hhost.killContainer, hhost.removeContainer, Runtime.removeContainer]

theorem removed_evictAll (containers : List ContainerGCInfo) (rt : Runtime) :
    Removed rt (containers.foldl (evict host) rt) (containers.map ContainerGCInfo.id) := by
  induction containers generalizing rt with
  | nil => exact .refl rt
  | cons container containers ih => exact (removed_evict hhost rt container).trans (ih _)

end Loops

/-- The containers newest first, when some of them stay. -/
def inOrder (numToKeep : Nat) (containers : List ContainerGCInfo) : List ContainerGCInfo :=
  if numToKeep > 0 then containers.insertionSort fun left right => byCreated left right ≤ 0
  else containers

theorem perm_inOrder (n : Nat) (containers : List ContainerGCInfo) :
    (inOrder n containers).Perm containers := by
  rw [inOrder]
  split
  · exact List.perm_insertionSort _ _
  · exact .refl _

/-- In the order of `byCreated`: no older than the other one. -/
abbrev Newer (left right : ContainerGCInfo) : Prop := byCreated left right ≤ 0

instance : Std.Total Newer where
  total a b := by
    simp only [Newer, byCreated]
    omega

instance : IsTrans ContainerGCInfo Newer where
  trans a b c := by
    simp only [Newer, byCreated]
    omega

/-! ### The oldest of a list -/

theorem foremost_inOrder (n : Nat) (containers : List ContainerGCInfo) :
    Foremost Newer ((inOrder n containers).take n) containers := by
  rw [inOrder]
  split
  · exact foremost_take n containers
  · rename_i hn
    rw [Nat.eq_zero_of_not_pos hn, List.take_zero]
    exact .nil containers

theorem perm_drop_take (n : Nat) (containers : List ContainerGCInfo) :
    ((inOrder n containers).drop n ++ (inOrder n containers).take n).Perm containers := by
  refine List.perm_append_comm.trans ?_
  rw [List.take_append_drop]
  exact perm_inOrder n containers

theorem removed_removeOldestN {host : Host} (hhost : host.Succeeds) (rt : Runtime)
    (containers : List ContainerGCInfo) {n toRemove : Nat} (hn : containers.length - toRemove = n) :
    Removed rt (removeOldestN host rt containers toRemove).2
      (((inOrder n containers).drop n).map ContainerGCInfo.id) := by
  subst hn
  refine (removed_evictAll hhost _ rt).congr fun id => ?_
  simp [inOrder]

theorem removeOldestN_fst (host : Host) (rt : Runtime) (containers : List ContainerGCInfo)
    {n toRemove : Nat} (hn : containers.length - toRemove = n) :
    (removeOldestN host rt containers toRemove).1 = (inOrder n containers).take n := by
  subst hn
  rfl

/-- What stays of a unit that may have `n` containers. -/
def keepNewest (n : Nat) (containers : List ContainerGCInfo) : List ContainerGCInfo :=
  if containers.length > n then (inOrder n containers).take n else containers

/-- What goes of it. -/
def dropOldest (n : Nat) (containers : List ContainerGCInfo) : List ContainerGCInfo :=
  if containers.length > n then (inOrder n containers).drop n else []

theorem length_keepNewest (n : Nat) (containers : List ContainerGCInfo) :
    (keepNewest n containers).length = min n containers.length := by
  rw [keepNewest]
  split
  · rw [List.length_take, (perm_inOrder n containers).length_eq]
  · omega

theorem perm_dropOldest (n : Nat) (containers : List ContainerGCInfo) :
    (dropOldest n containers ++ keepNewest n containers).Perm containers := by
  rw [dropOldest, keepNewest]
  split
  · exact perm_drop_take n containers
  · exact .refl _

theorem foremost_keepNewest (n : Nat) (containers : List ContainerGCInfo) :
    Foremost Newer (keepNewest n containers) containers := by
  rw [keepNewest]
  split
  · exact foremost_inOrder n containers
  · exact .refl containers

/-! ### Loops over the units -/

/-- Each unit is under its own text. -/
def Keyed (evictUnits : ContainersByEvictUnit) : Prop :=
  ∀ entry ∈ evictUnits.entries, evictUnitKey entry.2.1 = entry.1

/-- The containers of all units. -/
def contents (evictUnits : ContainersByEvictUnit) : List ContainerGCInfo :=
  evictUnits.entries.flatMap fun entry => entry.2.2

/-- The units with their containers changed, and some left out. -/
def changeUnits (f : EvictUnit → List ContainerGCInfo → Option (List ContainerGCInfo))
    (evictUnits : ContainersByEvictUnit) : ContainersByEvictUnit :=
  evictUnits.filterMap fun entry => (f entry.2.1 entry.2.2).map fun containers => (entry.2.1, containers)

theorem Keyed.changeUnits {evictUnits : ContainersByEvictUnit} (h : Keyed evictUnits)
    (f : EvictUnit → List ContainerGCInfo → Option (List ContainerGCInfo)) :
    Keyed (changeUnits f evictUnits) := by
  intro entry hentry
  obtain ⟨old, hmem, hold⟩ := JsMap.mem_filterMap.mp hentry
  obtain ⟨containers, -, heq⟩ := Option.map_eq_some_iff.mp hold
  rw [← heq]
  exact h _ hmem

theorem perm_contents {f : EvictUnit → List ContainerGCInfo → Option (List ContainerGCInfo)}
    {gone : EvictUnit → List ContainerGCInfo → List ContainerGCInfo}
    (h : ∀ u containers, (gone u containers ++ (f u containers).getD []).Perm containers)
    (evictUnits : ContainersByEvictUnit) :
    ((evictUnits.entries.flatMap fun entry => gone entry.2.1 entry.2.2) ++
      contents (changeUnits f evictUnits)).Perm (contents evictUnits) := by
  have hkept : contents (changeUnits f evictUnits) =
      evictUnits.entries.flatMap fun entry => (f entry.2.1 entry.2.2).getD [] := by
    show (List.filterMap _ evictUnits.entries).flatMap _ = _
    induction evictUnits.entries with
    | nil => rfl
    | cons entry entries ih =>
      cases hf : f entry.2.1 entry.2.2 with
      | none =>
        rw [List.filterMap_cons_none (by simp [hf]), ih, List.flatMap_cons, hf]
        rfl
      | some containers =>
        rw [List.filterMap_cons_some (b := (entry.1, entry.2.1, containers)) (by simp [hf]),
          List.flatMap_cons, ih, List.flatMap_cons, hf]
        rfl
  rw [hkept]
  refine (List.flatMap_append_perm _ _ _).trans ?_
  exact List.Perm.flatMap_left _ fun entry _ => h entry.2.1 entry.2.2

theorem removed_foldl {g : Runtime → JsString × EvictUnit × List ContainerGCInfo → Runtime}
    {gone : EvictUnit → List ContainerGCInfo → List ContainerGCInfo}
    (hg : ∀ rt entry, Removed rt (g rt entry) ((gone entry.2.1 entry.2.2).map ContainerGCInfo.id))
    (entries : List (JsString × EvictUnit × List ContainerGCInfo)) (rt : Runtime) :
    Removed rt (entries.foldl g rt)
      ((entries.flatMap fun entry => gone entry.2.1 entry.2.2).map ContainerGCInfo.id) := by
  induction entries generalizing rt with
  | nil => exact .refl rt
  | cons entry entries ih =>
    rw [List.foldl_cons, List.flatMap_cons, List.map_append]
    exact (hg rt entry).trans (ih _)

/-- A round: the units change so, and what they no longer hold is removed. -/
structure Round (f : EvictUnit → List ContainerGCInfo → Option (List ContainerGCInfo))
    (before after : ContainersByEvictUnit × Runtime) : Prop where
  units : after.1 = changeUnits f before.1
  gone : ∃ gone, Removed before.2 after.2 (gone.map ContainerGCInfo.id) ∧
    (gone ++ contents after.1).Perm (contents before.1)

/-- A loop over the units of which each turn changes its own. -/
theorem round_of_step {step : ContainersByEvictUnit × Runtime → EvictUnit → ContainersByEvictUnit × Runtime}
    {f : EvictUnit → List ContainerGCInfo → Option (List ContainerGCInfo)}
    (gone : EvictUnit → List ContainerGCInfo → List ContainerGCInfo)
    (g : Runtime → JsString × EvictUnit × List ContainerGCInfo → Runtime)
    {evictUnits : ContainersByEvictUnit} (hkeyed : Keyed evictUnits)
    (hperm : ∀ u containers, (gone u containers ++ (f u containers).getD []).Perm containers)
    (hg : ∀ rt entry, Removed rt (g rt entry) ((gone entry.2.1 entry.2.2).map ContainerGCInfo.id))
    (hstep : ∀ (m : ContainersByEvictUnit) rt u containers,
      JsMap.get m (evictUnitKey u) = some (u, containers) →
      step (m, rt) u = (m.put (evictUnitKey u) ((f u containers).map fun kept => (u, kept)),
        g rt (evictUnitKey u, u, containers)))
    (rt : Runtime) :
    Round f (evictUnits, rt) (evictUnits.keys.foldl step (evictUnits, rt)) := by
  have hloop : evictUnits.keys.foldl step (evictUnits, rt) =
      (changeUnits f evictUnits, evictUnits.entries.foldl g rt) := by
    refine JsMap.foldl_entries evictUnits ?_ rt
    intro m s entry hentry hget
    obtain ⟨key, u, containers⟩ := entry
    obtain rfl : evictUnitKey u = key := hkeyed _ hentry
    exact hstep m s u containers hget
  rw [hloop]
  exact ⟨rfl, _, removed_foldl hg _ rt, perm_contents hperm evictUnits⟩

theorem enforceMax_round {host : Host} (hhost : host.Succeeds) {evictUnits : ContainersByEvictUnit}
    (hkeyed : Keyed evictUnits) (rt : Runtime) (n : Nat) :
    Round (fun _ containers => some (keepNewest n containers)) (evictUnits, rt)
      (enforceMaxContainersPerEvictUnit host evictUnits rt n) := by
  refine round_of_step (fun _ containers => dropOldest n containers)
    (fun rt entry => if entry.2.2.length > n then
      (removeOldestN host rt entry.2.2 (entry.2.2.length - n)).2 else rt) hkeyed ?_ ?_ ?_ rt
  · exact fun _ containers => perm_dropOldest n containers
  · intro rt entry
    simp only [dropOldest]
    split
    · exact removed_removeOldestN hhost rt _ (by omega)
    · exact .refl rt
  · intro m rt u containers hget
    simp only [ContainersByEvictUnit.get, hget, Option.map_some, Option.getD_some, keepNewest]
    split
    · rw [removeOldestN_fst host rt containers (n := n) (by omega)]
      rfl
    · rw [JsMap.put, JsMap.set_of_get hget]

theorem evictDeletedPods_round {host : Host} (hhost : host.Succeeds) (podStateProvider : PodStateProvider)
    (evictNonDeletedPods : Bool) {evictUnits : ContainersByEvictUnit} (hkeyed : Keyed evictUnits)
    (rt : Runtime) :
    Round (fun u containers =>
        if toBeRemoved podStateProvider evictNonDeletedPods u.uid then none else some containers)
      (evictUnits, rt) (evictDeletedPods host podStateProvider evictNonDeletedPods evictUnits rt) := by
  refine round_of_step
    (fun u containers => if toBeRemoved podStateProvider evictNonDeletedPods u.uid then containers else [])
    (fun rt entry => if toBeRemoved podStateProvider evictNonDeletedPods entry.2.1.uid then
      (removeOldestN host rt entry.2.2 entry.2.2.length).2 else rt) hkeyed ?_ ?_ ?_ rt
  · intro u containers
    split
    · simp
    · simp
  · intro rt entry
    split
    · simpa [inOrder] using removed_removeOldestN hhost rt entry.2.2 (Nat.sub_self _)
    · exact .refl rt
  · intro m rt u containers hget
    simp only [ContainersByEvictUnit.get, hget, Option.map_some, Option.getD_some]
    split
    · rfl
    · rw [Option.map_some, JsMap.put, JsMap.set_of_get hget]

/-! ## §2 The rounds -/

theorem mem_changeUnits {f : EvictUnit → List ContainerGCInfo → Option (List ContainerGCInfo)}
    {evictUnits : ContainersByEvictUnit} {key : JsString} {u : EvictUnit} {containers : List ContainerGCInfo} :
    (key, u, containers) ∈ (changeUnits f evictUnits).entries ↔
      ∃ all, (key, u, all) ∈ evictUnits.entries ∧ f u all = some containers := by
  rw [changeUnits, JsMap.mem_filterMap]
  constructor
  · rintro ⟨⟨u', all⟩, hmem, hf⟩
    simp only [Option.map_eq_some_iff, Prod.mk.injEq] at hmem hf
    obtain ⟨containers', hcontainers, rfl, rfl⟩ := hf
    exact ⟨all, hmem, hcontainers⟩
  · rintro ⟨all, hmem, hf⟩
    exact ⟨(u, all), hmem, by simp [hf]⟩

theorem mem_contents {evictUnits : ContainersByEvictUnit} {info : ContainerGCInfo} :
    info ∈ contents evictUnits ↔ ∃ key u containers, (key, u, containers) ∈ evictUnits.entries ∧
      info ∈ containers := by
  rw [contents, List.mem_flatMap]
  constructor
  · rintro ⟨⟨key, u, containers⟩, hmem, hinfo⟩
    exact ⟨key, u, containers, hmem, hinfo⟩
  · rintro ⟨key, u, containers, hmem, hinfo⟩
    exact ⟨(key, u, containers), hmem, hinfo⟩

theorem length_contents (evictUnits : ContainersByEvictUnit) :
    (contents evictUnits).length = evictUnits.numContainers := by
  rw [contents, List.length_flatMap]
  rfl

theorem changeUnits_some (evictUnits : ContainersByEvictUnit) :
    changeUnits (fun _ containers => some containers) evictUnits = evictUnits := by
  apply JsMap.ext
  show List.filterMap (fun entry => some entry) evictUnits.entries = evictUnits.entries
  exact List.filterMap_some

/-- Each unit with its equal share at most. -/
def sharedUnits (maxContainers : Nat) (evictUnits : ContainersByEvictUnit) : ContainersByEvictUnit :=
  changeUnits (fun _ containers =>
    some (keepNewest (max 1 (maxContainers / evictUnits.numEvictUnits)) containers)) evictUnits

/-- What the rounds for `maxContainers` keep. -/
inductive Capped (maxContainers : Nat) (evictUnits : ContainersByEvictUnit) :
    List ContainerGCInfo → Prop where
  | fits (h : (contents evictUnits).length ≤ maxContainers) : Capped maxContainers evictUnits (contents evictUnits)
  | shared (h : maxContainers < (contents evictUnits).length)
      (hshared : (contents (sharedUnits maxContainers evictUnits)).length ≤ maxContainers) :
      Capped maxContainers evictUnits (contents (sharedUnits maxContainers evictUnits))
  | newest (h : maxContainers < (contents evictUnits).length) {kept : List ContainerGCInfo}
      (hlength : kept.length = maxContainers)
      (hfirst : Foremost Newer kept (contents (sharedUnits maxContainers evictUnits))) :
      Capped maxContainers evictUnits kept

theorem flatMap_keys {evictUnits : ContainersByEvictUnit} (hkeyed : Keyed evictUnits) :
    (evictUnits.keys.flatMap fun key => (evictUnits.get key).getD []) = contents evictUnits := by
  rw [ContainersByEvictUnit.keys, List.flatMap_map, contents]
  refine List.flatMap_congr fun entry hentry => ?_
  have hget : JsMap.get evictUnits (evictUnitKey entry.2.1) = some entry.2 := by
    rw [hkeyed entry hentry]
    exact JsMap.get_eq_some_iff.mpr hentry
  rw [ContainersByEvictUnit.get, hget]
  rfl

theorem enforceMaxContainers_spec {host : Host} (hhost : host.Succeeds) {evictUnits : ContainersByEvictUnit}
    (hkeyed : Keyed evictUnits) (rt : Runtime) (maxContainers : Nat) :
    ∃ gone kept, Removed rt (enforceMaxContainers host evictUnits rt maxContainers)
        (gone.map ContainerGCInfo.id) ∧
      (gone ++ kept).Perm (contents evictUnits) ∧ Capped maxContainers evictUnits kept := by
  rw [enforceMaxContainers]
  split
  · rename_i hmore
    rw [← length_contents] at hmore
    have hround := enforceMax_round hhost hkeyed rt (max 1 (maxContainers / evictUnits.numEvictUnits))
    have hkeyed' : Keyed (sharedUnits maxContainers evictUnits) := hkeyed.changeUnits _
    obtain ⟨⟨units, rt'⟩, hshared⟩ : ∃ shared, enforceMaxContainersPerEvictUnit host evictUnits rt
        (max 1 (maxContainers / evictUnits.numEvictUnits)) = shared := ⟨_, rfl⟩
    rw [hshared] at hround
    dsimp only
    rw [hshared]
    obtain ⟨gone, hgone, hperm⟩ := hround.gone
    obtain rfl : units = sharedUnits maxContainers evictUnits := hround.units
    dsimp only at hgone hperm ⊢
    split
    · -- a last round over all units at once
      rename_i hstill
      rw [flatMap_keys hkeyed']
      obtain ⟨sorted, hsorted⟩ : ∃ sorted, (contents (sharedUnits maxContainers evictUnits)).insertionSort
          (fun left right => byCreated left right ≤ 0) = sorted := ⟨_, rfl⟩
      have hperms : sorted.Perm (contents (sharedUnits maxContainers evictUnits)) := by
        rw [← hsorted]
        exact List.perm_insertionSort _ _
      have hlength : sorted.length - ((sharedUnits maxContainers evictUnits).numContainers - maxContainers) =
          maxContainers := by
        rw [hperms.length_eq, length_contents]
        omega
      rw [hsorted]
      refine ⟨gone ++ (inOrder maxContainers sorted).drop maxContainers,
        (inOrder maxContainers sorted).take maxContainers, ?_, ?_, .newest hmore ?_ ?_⟩
      · rw [List.map_append]
        exact hgone.trans (removed_removeOldestN hhost rt' sorted hlength)
      · rw [List.append_assoc]
        exact (((perm_drop_take maxContainers sorted).trans hperms).append_left gone).trans hperm
      · rw [List.length_take, (perm_inOrder maxContainers sorted).length_eq, hperms.length_eq,
          length_contents]
        omega
      · exact (foremost_inOrder maxContainers sorted).congr (fun _ => Iff.rfl) fun _ => hperms.mem_iff.symm
    · rename_i hfew
      rw [← length_contents] at hfew
      exact ⟨gone, _, hgone, hperm, .shared hmore (Nat.le_of_not_lt hfew)⟩
  · rename_i hfits
    rw [← length_contents] at hfits
    exact ⟨[], _, .refl rt, .refl _, .fits (Nat.le_of_not_lt hfits)⟩

/-! ### The units at first -/

/-- The units of some containers. -/
def unitsOf (containers : List Container) : ContainersByEvictUnit :=
  containers.foldl (fun (evictUnits : ContainersByEvictUnit) container =>
    evictUnits.append (unitOf container) (infoOf container)) JsMap.empty

def addInfo (existing : Option (EvictUnit × List ContainerGCInfo)) (container : Container) :
    EvictUnit × List ContainerGCInfo :=
  (unitOf container, (existing.map Prod.snd).getD [] ++ [infoOf container])

theorem unitsOf_eq (containers : List Container) :
    unitsOf containers =
      containers.foldl (JsMap.addTo (fun container => evictUnitKey (unitOf container)) addInfo)
        JsMap.empty := rfl

theorem foldl_addInfo (containers : List Container) :
    containers.foldl (fun o container => some (addInfo o container)) none =
      containers.getLast?.map fun last => (unitOf last, containers.map infoOf) := by
  induction containers using List.reverseRecOn with
  | nil => rfl
  | append_singleton containers container ih =>
    rw [List.foldl_concat, ih, List.getLast?_concat, List.map_append]
    cases hlast : containers.getLast? with
    | none => simp [addInfo, List.getLast?_eq_none_iff.mp hlast]
    | some last => simp [addInfo]

/-- A unit holds its containers in the order of the list. -/
theorem mem_unitsOf {containers : List Container} {key : JsString} {u : EvictUnit}
    {infos : List ContainerGCInfo} (h : (key, u, infos) ∈ (unitsOf containers).entries) :
    infos = (containers.filter fun c => evictUnitKey (unitOf c) = key).map infoOf ∧
      ∃ c ∈ containers, unitOf c = u ∧ evictUnitKey u = key := by
  have hget := JsMap.get_eq_some_iff.mpr h
  rw [unitsOf_eq, JsMap.get_foldl_addTo, JsMap.get_empty, foldl_addInfo] at hget
  obtain ⟨last, hlast, heq⟩ := Option.map_eq_some_iff.mp hget
  have hmem := List.mem_filter.mp (List.mem_of_getLast? hlast)
  simp only [Prod.mk.injEq] at heq
  obtain ⟨rfl, rfl⟩ := heq
  exact ⟨rfl, last, hmem.1, rfl, by simpa using hmem.2⟩

theorem keyed_unitsOf (containers : List Container) : Keyed (unitsOf containers) := by
  intro ⟨key, u, infos⟩ hentry
  obtain ⟨-, c, -, -, hkey⟩ := mem_unitsOf hentry
  exact hkey

/-- Every container is in a unit. -/
theorem exists_mem_unitsOf {containers : List Container} {c : Container} (hc : c ∈ containers) :
    ∃ u infos, (evictUnitKey (unitOf c), u, infos) ∈ (unitsOf containers).entries := by
  have hget : JsMap.get (unitsOf containers) (evictUnitKey (unitOf c)) ≠ none := by
    rw [unitsOf_eq, JsMap.get_foldl_addTo, JsMap.get_empty, foldl_addInfo, ne_eq, Option.map_eq_none_iff,
      List.getLast?_eq_none_iff, List.filter_eq_nil_iff]
    intro h
    exact h c hc (by simp)
  obtain ⟨⟨u, infos⟩, hsome⟩ := Option.ne_none_iff_exists'.mp hget
  exact ⟨u, infos, JsMap.get_eq_some_iff.mp hsome⟩

theorem perm_unitsOf (containers : List Container) :
    (contents (unitsOf containers)).Perm (containers.map infoOf) := by
  induction containers using List.reverseRecOn with
  | nil => exact .refl _
  | append_singleton containers container ih =>
    rw [List.map_append, unitsOf_eq, List.foldl_concat, ← unitsOf_eq]
    refine List.Perm.trans ?_ (ih.append_right _)
    refine JsMap.flatMap_setEntries (unitsOf containers).nodup ?_ ?_
    · intro old hold
      simp [addInfo, JsMap.get_eq_some_iff.mpr hold]
    · intro hnone
      have hget : JsMap.get (unitsOf containers) (evictUnitKey (unitOf container)) = none := by
        rw [Option.eq_none_iff_forall_ne_some]
        intro old hold
        exact hnone old (JsMap.get_eq_some_iff.mp hold)
      simp [addInfo, hget]

/-! ### All rounds -/

section Rounds

variable (now : Int) (podStateProvider : PodStateProvider) (gcPolicy : GCPolicy)
  (allSourcesReady evictNonDeletedPods : Bool)

/-- The containers that may be collected. -/
def evictables (rt : Runtime) : List Container :=
  rt.containers.filter (evictable now (gcPolicy.minAgeMs.getD 0))

/-- The containers of the pod all go. -/
def gonePod (uid : JsString) : Bool :=
  allSourcesReady && toBeRemoved podStateProvider evictNonDeletedPods uid

/-- The units of the pods that stay. -/
def standingUnits (rt : Runtime) : ContainersByEvictUnit :=
  changeUnits (fun u infos =>
    if gonePod podStateProvider allSourcesReady evictNonDeletedPods u.uid then none else some infos)
    (unitsOf (evictables now gcPolicy rt))

/-- None of them beyond `maxPerPodContainer`. -/
def limitedUnits (rt : Runtime) : ContainersByEvictUnit :=
  changeUnits (fun _ infos => some (keepNewest (gcPolicy.maxPerPodContainer.getD 0).toNat infos))
    (standingUnits now podStateProvider gcPolicy allSourcesReady evictNonDeletedPods rt)

theorem evictContainers_spec {host : Host} (hhost : host.Succeeds)
    (hmaxPerPod : 0 ≤ gcPolicy.maxPerPodContainer.getD 0) (hmax : 0 ≤ gcPolicy.maxContainers.getD 0)
    (rt : Runtime) :
    ∃ gone kept,
      Removed rt (evictContainers host now podStateProvider gcPolicy allSourcesReady evictNonDeletedPods rt)
        (gone.map ContainerGCInfo.id) ∧
      (gone ++ kept).Perm ((evictables now gcPolicy rt).map infoOf) ∧
      Capped (gcPolicy.maxContainers.getD 0).toNat
        (limitedUnits now podStateProvider gcPolicy allSourcesReady evictNonDeletedPods rt) kept := by
  have hunits : evictableContainers host now rt (gcPolicy.minAgeMs.getD 0) =
      some (unitsOf (evictables now gcPolicy rt)) := by
    rw [evictableContainers, if_pos hhost.listContainers]
    rfl
  rw [evictContainers, hunits]
  -- the round of the removed pods
  have hkeyed := keyed_unitsOf (evictables now gcPolicy rt)
  obtain ⟨⟨left, rt₁⟩, hleft⟩ : ∃ left, (if allSourcesReady then
      evictDeletedPods host podStateProvider evictNonDeletedPods (unitsOf (evictables now gcPolicy rt)) rt
      else (unitsOf (evictables now gcPolicy rt), rt)) = left := ⟨_, rfl⟩
  have hround₁ : Round (fun u infos =>
      if gonePod podStateProvider allSourcesReady evictNonDeletedPods u.uid then none else some infos)
      (unitsOf (evictables now gcPolicy rt), rt) (left, rt₁) := by
    rw [← hleft]
    cases allSourcesReady with
    | true => exact evictDeletedPods_round hhost podStateProvider evictNonDeletedPods hkeyed rt
    | false => exact ⟨(changeUnits_some _).symm, [], .refl rt, .refl _⟩
  obtain ⟨gone₁, hgone₁, hperm₁⟩ := hround₁.gone
  obtain rfl : left = standingUnits now podStateProvider gcPolicy allSourcesReady evictNonDeletedPods rt :=
    hround₁.units
  have hkeyed₁ : Keyed (standingUnits now podStateProvider gcPolicy allSourcesReady evictNonDeletedPods rt) :=
    hkeyed.changeUnits _
  -- the round of `maxPerPodContainer`
  have hround₂ := enforceMax_round hhost hkeyed₁ rt₁ (gcPolicy.maxPerPodContainer.getD 0).toNat
  obtain ⟨⟨limited, rt₂⟩, hlimited⟩ : ∃ limited, enforceMaxContainersPerEvictUnit host
      (standingUnits now podStateProvider gcPolicy allSourcesReady evictNonDeletedPods rt) rt₁
      (gcPolicy.maxPerPodContainer.getD 0).toNat = limited := ⟨_, rfl⟩
  rw [hlimited] at hround₂
  obtain ⟨gone₂, hgone₂, hperm₂⟩ := hround₂.gone
  obtain rfl : limited = limitedUnits now podStateProvider gcPolicy allSourcesReady evictNonDeletedPods rt :=
    hround₂.units
  -- the rounds of `maxContainers`
  obtain ⟨gone₃, kept, hgone₃, hperm₃, hcapped⟩ := enforceMaxContainers_spec hhost
    (hkeyed₁.changeUnits _) rt₂ (gcPolicy.maxContainers.getD 0).toNat
  refine ⟨gone₁ ++ gone₂ ++ gone₃, kept, ?_, ?_, hcapped⟩
  · dsimp only
    rw [hleft]
    dsimp only
    rw [if_pos hmaxPerPod, hlimited, List.map_append, List.map_append]
    dsimp only
    rw [if_pos hmax]
    exact (hgone₁.trans hgone₂).trans hgone₃
  · refine List.Perm.trans ?_ (perm_unitsOf _)
    rw [List.append_assoc, List.append_assoc]
    exact (((hperm₃.append_left gone₂).trans hperm₂).append_left gone₁).trans hperm₁

/-! ## §3 What is left of a unit -/

theorem append_cons_inj {α : Type} {z : α} {a a' b b' : List α} (ha : z ∉ a) (ha' : z ∉ a')
    (h : a ++ z :: b = a' ++ z :: b') : a = a' ∧ b = b' := by
  induction a generalizing a' with
  | nil =>
    cases a' with
    | nil => exact ⟨rfl, (List.cons.inj h).2⟩
    | cons y a' =>
      obtain ⟨rfl, -⟩ := List.cons.inj h
      exact absurd List.mem_cons_self ha'
  | cons x a ih =>
    cases a' with
    | nil =>
      obtain ⟨rfl, -⟩ := List.cons.inj h
      exact absurd List.mem_cons_self ha
    | cons y a' =>
      obtain ⟨rfl, htail⟩ := List.cons.inj h
      obtain ⟨rfl, rfl⟩ := ih (fun hz => ha (List.mem_cons_of_mem _ hz))
        (fun hz => ha' (List.mem_cons_of_mem _ hz)) htail
      exact ⟨rfl, rfl⟩

theorem evictUnitKey_inj {u v : EvictUnit} (hu : (0 : CodeUnit) ∉ u.uid) (hv : (0 : CodeUnit) ∉ v.uid)
    (h : evictUnitKey u = evictUnitKey v) : u = v := by
  obtain ⟨uid, name⟩ := u
  obtain ⟨uid', name'⟩ := v
  simp only [evictUnitKey, List.append_assoc, List.singleton_append] at h
  obtain ⟨rfl, rfl⟩ := append_cons_inj hu hv h
  rfl

/-- The uids of the pods have no NUL. -/
def PlainUids (rt : Runtime) : Prop := ∀ c ∈ rt.containers, (0 : CodeUnit) ∉ podUID c.labels

/-- The containers of a unit that may be collected. -/
def held (rt : Runtime) (u : EvictUnit) : List Container :=
  (evictables now gcPolicy rt).filter fun c => unitOf c = u

variable {now podStateProvider gcPolicy allSourcesReady evictNonDeletedPods} {rt : Runtime}

theorem infoOf_inj {c d : Container} (hc : c ∈ evictables now gcPolicy rt) (hd : d ∈ evictables now gcPolicy rt)
    (h : infoOf c = infoOf d) : c = d :=
  List.inj_on_of_nodup_map rt.nodup_containers (List.mem_filter.mp hc).1 (List.mem_filter.mp hd).1
    (congrArg ContainerGCInfo.id h)

theorem nodup_infos : ((evictables now gcPolicy rt).map infoOf).Nodup := by
  refine List.Nodup.of_map ContainerGCInfo.id ?_
  rw [List.map_map]
  exact rt.nodup_containers.sublist (List.filter_sublist.map _)

theorem mem_held {u : EvictUnit} {c : Container} :
    c ∈ held now gcPolicy rt u ↔ c ∈ evictables now gcPolicy rt ∧ unitOf c = u := by
  rw [held, List.mem_filter, decide_eq_true_eq]

theorem nodup_held (u : EvictUnit) : ((held now gcPolicy rt u).map infoOf).Nodup :=
  nodup_infos.sublist (List.filter_sublist.map _)

theorem mem_standingUnits (hplain : PlainUids rt) {key : JsString} {u : EvictUnit}
    {infos : List ContainerGCInfo} :
    (key, u, infos) ∈
        (standingUnits now podStateProvider gcPolicy allSourcesReady evictNonDeletedPods rt).entries ↔
      key = evictUnitKey u ∧ infos = (held now gcPolicy rt u).map infoOf ∧ held now gcPolicy rt u ≠ [] ∧
        gonePod podStateProvider allSourcesReady evictNonDeletedPods u.uid = false := by
  have hunit : ∀ c ∈ evictables now gcPolicy rt, ∀ d ∈ evictables now gcPolicy rt,
      evictUnitKey (unitOf c) = evictUnitKey (unitOf d) → unitOf c = unitOf d := by
    intro c hc d hd
    exact evictUnitKey_inj (hplain c (List.mem_filter.mp hc).1) (hplain d (List.mem_filter.mp hd).1)
  have hentry : ∀ {key u infos}, (key, u, infos) ∈ (unitsOf (evictables now gcPolicy rt)).entries →
      key = evictUnitKey u ∧ infos = (held now gcPolicy rt u).map infoOf ∧ held now gcPolicy rt u ≠ [] := by
    intro key u infos hmem
    obtain ⟨hinfos, c, hc, rfl, rfl⟩ := mem_unitsOf hmem
    refine ⟨rfl, ?_, List.ne_nil_of_mem (mem_held.mpr ⟨hc, rfl⟩)⟩
    rw [hinfos, held]
    congr 1
    refine List.filter_congr fun d hd => ?_
    rw [decide_eq_decide]
    exact ⟨hunit d hd c hc, congrArg evictUnitKey⟩
  rw [standingUnits, mem_changeUnits]
  constructor
  · rintro ⟨all, hmem, hall⟩
    obtain ⟨hkey, hinfos, hsome⟩ := hentry hmem
    by_cases hgone : gonePod podStateProvider allSourcesReady evictNonDeletedPods u.uid = true
    · rw [if_pos hgone] at hall
      exact absurd hall (Option.some_ne_none _).symm
    · rw [if_neg hgone, Option.some.injEq] at hall
      exact ⟨hkey, hall ▸ hinfos, hsome, Bool.eq_false_iff.mpr hgone⟩
  · rintro ⟨rfl, rfl, hsome, hgone⟩
    obtain ⟨c, hheld⟩ := List.exists_mem_of_ne_nil _ hsome
    obtain ⟨hc, rfl⟩ := mem_held.mp hheld
    obtain ⟨u, infos, hmem⟩ := exists_mem_unitsOf hc
    obtain ⟨hkey, hinfos, -⟩ := hentry hmem
    obtain ⟨-, d, hd, rfl, -⟩ := mem_unitsOf hmem
    have hsame := hunit c hc d hd hkey
    rw [← hsame] at hmem hinfos
    exact ⟨infos, hmem, by rw [hgone, hinfos]; rfl⟩

variable (now podStateProvider gcPolicy allSourcesReady evictNonDeletedPods rt) in
/-- What is kept comes from the units of the pods that stay, each of them cut. -/
structure Leaves (keep : List ContainerGCInfo → List ContainerGCInfo) (evictUnits : ContainersByEvictUnit)
    (kept : List ContainerGCInfo) : Prop where
  units : ∀ key u infos, (key, u, infos) ∈ evictUnits.entries ↔ ∃ all, (key, u, all) ∈
    (standingUnits now podStateProvider gcPolicy allSourcesReady evictNonDeletedPods rt).entries ∧
      keep all = infos
  newest : ∀ all, Foremost Newer (keep all) all
  nodup : ∀ all, all.Nodup → (keep all).Nodup
  first : Foremost Newer kept (contents evictUnits)

section Leaves

variable {keep : List ContainerGCInfo → List ContainerGCInfo} {evictUnits : ContainersByEvictUnit}
  {kept : List ContainerGCInfo}

/-- What is kept of a unit is among what the cut of the unit leaves. -/
theorem Leaves.mem_keep (hplain : PlainUids rt)
    (h : Leaves now podStateProvider gcPolicy allSourcesReady evictNonDeletedPods rt keep evictUnits kept)
    {u : EvictUnit} {info : ContainerGCInfo} (hinfo : info ∈ (held now gcPolicy rt u).map infoOf)
    (hkept : info ∈ kept) :
    gonePod podStateProvider allSourcesReady evictNonDeletedPods u.uid = false ∧
      info ∈ keep ((held now gcPolicy rt u).map infoOf) := by
  obtain ⟨key, u', infos, hentry, hmem⟩ := mem_contents.mp (h.first.subset info hkept)
  obtain ⟨all, hstanding, rfl⟩ := (h.units key u' infos).mp hentry
  obtain ⟨-, rfl, -, hstay⟩ := (mem_standingUnits hplain).mp hstanding
  -- the unit that holds it is the one it belongs to
  obtain ⟨c, hheld, rfl⟩ := List.mem_map.mp hinfo
  obtain ⟨d, hheld', heq⟩ := List.mem_map.mp ((h.newest _).subset _ hmem)
  obtain rfl := infoOf_inj (mem_held.mp hheld').1 (mem_held.mp hheld).1 heq
  obtain rfl : u = u' := (mem_held.mp hheld).2.symm.trans (mem_held.mp hheld').2
  exact ⟨hstay, hmem⟩

theorem Leaves.keep_subset (hplain : PlainUids rt)
    (h : Leaves now podStateProvider gcPolicy allSourcesReady evictNonDeletedPods rt keep evictUnits kept)
    {u : EvictUnit} (hsome : held now gcPolicy rt u ≠ [])
    (hstay : gonePod podStateProvider allSourcesReady evictNonDeletedPods u.uid = false) :
    ∀ info ∈ keep ((held now gcPolicy rt u).map infoOf), info ∈ contents evictUnits := by
  intro info hinfo
  have hstanding : (evictUnitKey u, u, (held now gcPolicy rt u).map infoOf) ∈
      (standingUnits now podStateProvider gcPolicy allSourcesReady evictNonDeletedPods rt).entries :=
    (mem_standingUnits hplain).mpr ⟨rfl, rfl, hsome, hstay⟩
  exact mem_contents.mpr ⟨_, _, _, (h.units _ _ _).mpr ⟨_, hstanding, rfl⟩, hinfo⟩

/-- The newest of the unit are kept. -/
theorem Leaves.foremost (hplain : PlainUids rt)
    (h : Leaves now podStateProvider gcPolicy allSourcesReady evictNonDeletedPods rt keep evictUnits kept)
    {u : EvictUnit} (hsome : held now gcPolicy rt u ≠ [])
    (hstay : gonePod podStateProvider allSourcesReady evictNonDeletedPods u.uid = false) :
    Foremost Newer (((held now gcPolicy rt u).map infoOf).filter (· ∈ kept))
      ((held now gcPolicy rt u).map infoOf) := by
  have hcut := (h.first.restrict (h.keep_subset hplain hsome hstay)).trans (h.newest _)
  refine hcut.congr (fun info => ?_) fun _ => Iff.rfl
  rw [List.mem_filter, List.mem_filter, decide_eq_true_eq]
  constructor
  · rintro ⟨hinfo, hkept⟩
    exact ⟨(h.mem_keep hplain hinfo hkept).2, hkept⟩
  · rintro ⟨hinfo, hkept⟩
    exact ⟨(h.newest _).subset info hinfo, hkept⟩

theorem Leaves.length_le (hplain : PlainUids rt)
    (h : Leaves now podStateProvider gcPolicy allSourcesReady evictNonDeletedPods rt keep evictUnits kept)
    (u : EvictUnit) :
    (((held now gcPolicy rt u).map infoOf).filter (· ∈ kept)).length ≤
      (keep ((held now gcPolicy rt u).map infoOf)).length := by
  refine (List.Nodup.subperm ((nodup_held u).filter _) fun info hinfo => ?_).length_le
  rw [List.mem_filter, decide_eq_true_eq] at hinfo
  exact (h.mem_keep hplain hinfo.1 hinfo.2).2

/-- All that the cut leaves is kept where nothing is cut after it. -/
theorem Leaves.length_eq (hplain : PlainUids rt)
    (h : Leaves now podStateProvider gcPolicy allSourcesReady evictNonDeletedPods rt keep evictUnits
      (contents evictUnits))
    {u : EvictUnit} (hsome : held now gcPolicy rt u ≠ [])
    (hstay : gonePod podStateProvider allSourcesReady evictNonDeletedPods u.uid = false) :
    (((held now gcPolicy rt u).map infoOf).filter (· ∈ contents evictUnits)).length =
      (keep ((held now gcPolicy rt u).map infoOf)).length := by
  refine le_antisymm (h.length_le hplain u) ?_
  refine (List.Nodup.subperm (h.nodup _ (nodup_held u)) fun info hinfo => ?_).length_le
  rw [List.mem_filter, decide_eq_true_eq]
  exact ⟨(h.newest _).subset info hinfo, h.keep_subset hplain hsome hstay info hinfo⟩

end Leaves

/-! ### The cuts -/

theorem nodup_keepNewest {n : Nat} {infos : List ContainerGCInfo} (h : infos.Nodup) :
    (keepNewest n infos).Nodup :=
  (List.nodup_append.mp ((perm_dropOldest n infos).nodup_iff.mpr h)).2.1

variable (gcPolicy) in
/-- `maxPerPodContainer`, where it is not negative. -/
def maxPerPod : Nat := (gcPolicy.maxPerPodContainer.getD 0).toNat

variable (gcPolicy) in
def maxTotal : Nat := (gcPolicy.maxContainers.getD 0).toNat

theorem leaves_limited : Leaves now podStateProvider gcPolicy allSourcesReady evictNonDeletedPods rt
    (keepNewest (maxPerPod gcPolicy))
    (limitedUnits now podStateProvider gcPolicy allSourcesReady evictNonDeletedPods rt)
    (contents (limitedUnits now podStateProvider gcPolicy allSourcesReady evictNonDeletedPods rt)) where
  units := by
    intro key u infos
    rw [limitedUnits, mem_changeUnits]
    simp only [Option.some.injEq, maxPerPod]
  newest := foremost_keepNewest _
  nodup := fun _ => nodup_keepNewest
  first := .refl _

variable (now podStateProvider gcPolicy allSourcesReady evictNonDeletedPods rt) in
/-- The equal share of a unit, one at least. -/
def share : Nat :=
  max 1 (maxTotal gcPolicy /
    (limitedUnits now podStateProvider gcPolicy allSourcesReady evictNonDeletedPods rt).numEvictUnits)

theorem leaves_shared {kept : List ContainerGCInfo}
    (hfirst : Foremost Newer kept (contents (sharedUnits (maxTotal gcPolicy)
      (limitedUnits now podStateProvider gcPolicy allSourcesReady evictNonDeletedPods rt)))) :
    Leaves now podStateProvider gcPolicy allSourcesReady evictNonDeletedPods rt
      (fun all => keepNewest (share now podStateProvider gcPolicy allSourcesReady evictNonDeletedPods rt)
        (keepNewest (maxPerPod gcPolicy) all))
      (sharedUnits (maxTotal gcPolicy)
        (limitedUnits now podStateProvider gcPolicy allSourcesReady evictNonDeletedPods rt)) kept where
  units := by
    intro key u infos
    rw [sharedUnits, mem_changeUnits]
    simp only [limitedUnits, mem_changeUnits, Option.some.injEq]
    constructor
    · rintro ⟨_, ⟨all, hmem, rfl⟩, rfl⟩
      exact ⟨all, hmem, rfl⟩
    · rintro ⟨all, hmem, rfl⟩
      exact ⟨_, ⟨all, hmem, rfl⟩, rfl⟩
  newest := fun all => (foremost_keepNewest _ _).trans (foremost_keepNewest _ all)
  nodup := fun _ h => nodup_keepNewest (nodup_keepNewest h)
  first := hfirst

/-! ### Counting the units -/

variable (now podStateProvider gcPolicy allSourcesReady evictNonDeletedPods) in
/-- The units of the pods that stay. -/
def liveUnits (rt : Runtime) : List EvictUnit :=
  ((evictables now gcPolicy rt).map unitOf).dedup.filter fun u =>
    !gonePod podStateProvider allSourcesReady evictNonDeletedPods u.uid

variable (now podStateProvider gcPolicy allSourcesReady evictNonDeletedPods) in
/-- How many containers `maxPerPodContainer` leaves to these units. -/
def limitedTotal (rt : Runtime) : Nat :=
  ((liveUnits now podStateProvider gcPolicy allSourcesReady evictNonDeletedPods rt).map fun u =>
    min (maxPerPod gcPolicy) (held now gcPolicy rt u).length).sum

variable (now podStateProvider gcPolicy allSourcesReady evictNonDeletedPods) in
/-- An equal share of `maxContainers` for each of them, one at least. -/
def equalShare (rt : Runtime) : Nat :=
  max 1 (maxTotal gcPolicy /
    (liveUnits now podStateProvider gcPolicy allSourcesReady evictNonDeletedPods rt).length)

theorem mem_liveUnits {u : EvictUnit} :
    u ∈ liveUnits now podStateProvider gcPolicy allSourcesReady evictNonDeletedPods rt ↔
      held now gcPolicy rt u ≠ [] ∧
        gonePod podStateProvider allSourcesReady evictNonDeletedPods u.uid = false := by
  rw [liveUnits, List.mem_filter, List.mem_dedup, List.mem_map, Bool.not_eq_true']
  refine and_congr_left fun _ => ?_
  constructor
  · rintro ⟨c, hc, rfl⟩
    exact List.ne_nil_of_mem (mem_held.mpr ⟨hc, rfl⟩)
  · intro hsome
    obtain ⟨c, hc⟩ := List.exists_mem_of_ne_nil _ hsome
    exact ⟨c, mem_held.mp hc⟩

theorem perm_liveUnits (hplain : PlainUids rt) :
    ((standingUnits now podStateProvider gcPolicy allSourcesReady evictNonDeletedPods rt).entries.map
      fun entry => entry.2.1).Perm
      (liveUnits now podStateProvider gcPolicy allSourcesReady evictNonDeletedPods rt) := by
  have hkeyed : Keyed (standingUnits now podStateProvider gcPolicy allSourcesReady evictNonDeletedPods rt) :=
    (keyed_unitsOf _).changeUnits _
  have hnodup : ((standingUnits now podStateProvider gcPolicy allSourcesReady evictNonDeletedPods
      rt).entries.map fun entry => entry.2.1).Nodup := by
    refine List.Nodup.of_map evictUnitKey ?_
    have hkeys : ((standingUnits now podStateProvider gcPolicy allSourcesReady evictNonDeletedPods
        rt).entries.map fun entry => entry.2.1).map evictUnitKey = JsMap.keys
        (standingUnits now podStateProvider gcPolicy allSourcesReady evictNonDeletedPods rt) := by
      rw [List.map_map]
      exact List.map_congr_left hkeyed
    rw [hkeys]
    exact JsMap.nodup_keys _
  refine (List.perm_ext_iff_of_nodup hnodup ((List.nodup_dedup _).filter _)).mpr fun u => ?_
  rw [← liveUnits, mem_liveUnits, List.mem_map]
  constructor
  · rintro ⟨⟨key, u', infos⟩, hentry, rfl⟩
    exact ((mem_standingUnits hplain).mp hentry).2.2
  · intro h
    exact ⟨(_, u, _), (mem_standingUnits hplain).mpr ⟨rfl, rfl, h⟩, rfl⟩

theorem entries_limitedUnits :
    (limitedUnits now podStateProvider gcPolicy allSourcesReady evictNonDeletedPods rt).entries =
      (standingUnits now podStateProvider gcPolicy allSourcesReady evictNonDeletedPods rt).entries.map
        fun entry => (entry.1, entry.2.1, keepNewest (maxPerPod gcPolicy) entry.2.2) :=
  congrFun List.filterMap_eq_map' _

theorem share_eq (hplain : PlainUids rt) :
    share now podStateProvider gcPolicy allSourcesReady evictNonDeletedPods rt =
      equalShare now podStateProvider gcPolicy allSourcesReady evictNonDeletedPods rt := by
  rw [share, equalShare, ContainersByEvictUnit.numEvictUnits, JsMap.size, entries_limitedUnits,
    List.length_map, ← (perm_liveUnits hplain).length_eq, List.length_map]

theorem length_limitedUnits (hplain : PlainUids rt) :
    (contents (limitedUnits now podStateProvider gcPolicy allSourcesReady evictNonDeletedPods rt)).length =
      limitedTotal now podStateProvider gcPolicy allSourcesReady evictNonDeletedPods rt := by
  rw [length_contents, ContainersByEvictUnit.numContainers, entries_limitedUnits, List.map_map, limitedTotal,
    ← ((perm_liveUnits hplain).map _).sum_nat, List.map_map]
  congr 1
  refine List.map_congr_left fun entry hentry => ?_
  obtain ⟨key, u, infos⟩ := entry
  obtain ⟨-, rfl, -⟩ := (mem_standingUnits hplain).mp hentry
  show (keepNewest (maxPerPod gcPolicy) ((held now gcPolicy rt u).map infoOf)).length = _
  rw [length_keepNewest, List.length_map]
  rfl

/-! ## §4 The bounds -/

variable {rt' : Runtime} {gone kept : List ContainerGCInfo}

/-- A container goes where it is one of those that may be collected, and is not kept. -/
theorem mem_containers_iff (hgone : Removed rt rt' (gone.map ContainerGCInfo.id))
    (hperm : (gone ++ kept).Perm ((evictables now gcPolicy rt).map infoOf)) {c : Container} :
    c ∈ rt'.containers ↔
      c ∈ rt.containers ∧ (c ∈ evictables now gcPolicy rt → infoOf c ∈ kept) := by
  rw [hgone.containers, List.mem_filter, decide_eq_true_eq]
  refine and_congr_right fun hc => ?_
  have hdisjoint := (List.nodup_append.mp (hperm.nodup_iff.mpr nodup_infos)).2.2
  constructor
  · intro hnot hevict
    rcases List.mem_append.mp (hperm.mem_iff.mpr (List.mem_map_of_mem hevict)) with hmem | hmem
    · exact absurd (List.mem_map_of_mem hmem) hnot
    · exact hmem
  · intro hkept hmem
    obtain ⟨info, hinfo, hid⟩ := List.mem_map.mp hmem
    obtain ⟨d, hd, rfl⟩ := List.mem_map.mp (hperm.mem_iff.mp (List.mem_append_left _ hinfo))
    obtain rfl : d = c := List.inj_on_of_nodup_map rt.nodup_containers (List.mem_filter.mp hd).1 hc hid
    exact hdisjoint _ hinfo _ (hkept hd) rfl

theorem evictables_eq (hgone : Removed rt rt' (gone.map ContainerGCInfo.id))
    (hperm : (gone ++ kept).Perm ((evictables now gcPolicy rt).map infoOf)) :
    evictables now gcPolicy rt' = (evictables now gcPolicy rt).filter fun c => infoOf c ∈ kept := by
  rw [evictables, hgone.containers, List.filter_filter, evictables, List.filter_filter]
  refine List.filter_congr fun c hc => ?_
  by_cases hevict : evictable now (gcPolicy.minAgeMs.getD 0) c = true
  · have hiff := mem_containers_iff hgone hperm (c := c)
    rw [hgone.containers, List.mem_filter, and_congr_right_iff] at hiff
    have hmem : c ∈ evictables now gcPolicy rt := List.mem_filter.mpr ⟨hc, hevict⟩
    rw [hevict, Bool.true_and, Bool.and_true, Bool.eq_iff_iff, decide_eq_true_eq (p := infoOf c ∈ kept),
      hiff hc]
    exact ⟨fun h => h hmem, fun h _ => h⟩
  · simp [hevict]

theorem held_eq (hgone : Removed rt rt' (gone.map ContainerGCInfo.id))
    (hperm : (gone ++ kept).Perm ((evictables now gcPolicy rt).map infoOf)) (u : EvictUnit) :
    held now gcPolicy rt' u = (held now gcPolicy rt u).filter fun c => infoOf c ∈ kept := by
  rw [held, evictables_eq hgone hperm, held, List.filter_comm]

theorem length_held (hgone : Removed rt rt' (gone.map ContainerGCInfo.id))
    (hperm : (gone ++ kept).Perm ((evictables now gcPolicy rt).map infoOf)) (u : EvictUnit) :
    (held now gcPolicy rt' u).length =
      (((held now gcPolicy rt u).map infoOf).filter (· ∈ kept)).length := by
  rw [held_eq hgone hperm, List.filter_map, List.length_map]
  rfl

theorem length_evictables (hgone : Removed rt rt' (gone.map ContainerGCInfo.id))
    (hperm : (gone ++ kept).Perm ((evictables now gcPolicy rt).map infoOf)) :
    (evictables now gcPolicy rt').length = kept.length := by
  have hkept : kept.Nodup := (List.nodup_append.mp (hperm.nodup_iff.mpr nodup_infos)).2.1
  have hfilter : (((evictables now gcPolicy rt).map infoOf).filter (· ∈ kept)).Perm kept := by
    refine (List.perm_ext_iff_of_nodup (nodup_infos.filter _) hkept).mpr fun info => ?_
    rw [List.mem_filter, decide_eq_true_eq, and_iff_right_iff_imp]
    exact fun hinfo => hperm.mem_iff.mp (List.mem_append_right _ hinfo)
  rw [evictables_eq hgone hperm, ← hfilter.length_eq, List.filter_map, List.length_map]
  rfl

variable (now podStateProvider gcPolicy allSourcesReady evictNonDeletedPods) in
/-- What becomes of the containers. -/
structure ContainersBounded (rt rt' : Runtime) : Prop where
  running : ∀ c ∈ rt.containers, c.state = .running → c ∈ rt'.containers
  young : ∀ c ∈ rt.containers, now - c.createdAt < gcPolicy.minAgeMs.getD 0 → c ∈ rt'.containers
  perUnit : ∀ u, (held now gcPolicy rt' u).length ≤ maxPerPod gcPolicy
  total : (evictables now gcPolicy rt').length ≤ maxTotal gcPolicy
  newest : ∀ u, ∀ c ∈ held now gcPolicy rt u, c ∉ rt'.containers → ∀ d ∈ held now gcPolicy rt' u,
    c.createdAt ≤ d.createdAt
  /-- A unit of a pod that stays gives up containers down to `maxPerPodContainer`; and where the
  units together would have more than `maxContainers` then, to its equal share, or until they have
  `maxContainers` together. -/
  noMore : ∀ u, gonePod podStateProvider allSourcesReady evictNonDeletedPods u.uid = false →
    (held now gcPolicy rt' u).length < (held now gcPolicy rt u).length →
      (held now gcPolicy rt' u).length = maxPerPod gcPolicy ∨
      maxTotal gcPolicy < limitedTotal now podStateProvider gcPolicy allSourcesReady evictNonDeletedPods rt ∧
        ((held now gcPolicy rt' u).length =
            equalShare now podStateProvider gcPolicy allSourcesReady evictNonDeletedPods rt ∨
          (evictables now gcPolicy rt').length = maxTotal gcPolicy)

/-- The bounds, from a cut that leaves no unit more than `maxPerPodContainer`. -/
theorem bounded_of_leaves (hplain : PlainUids rt) {keep : List ContainerGCInfo → List ContainerGCInfo}
    {evictUnits : ContainersByEvictUnit}
    (hleaves : Leaves now podStateProvider gcPolicy allSourcesReady evictNonDeletedPods rt keep evictUnits kept)
    (hkeep : ∀ all, (keep all).length ≤ maxPerPod gcPolicy)
    (hgone : Removed rt rt' (gone.map ContainerGCInfo.id))
    (hperm : (gone ++ kept).Perm ((evictables now gcPolicy rt).map infoOf))
    (htotal : kept.length ≤ maxTotal gcPolicy)
    (hnoMore : ∀ u, held now gcPolicy rt u ≠ [] →
      gonePod podStateProvider allSourcesReady evictNonDeletedPods u.uid = false →
      (((held now gcPolicy rt u).map infoOf).filter (· ∈ kept)).length < (held now gcPolicy rt u).length →
      (((held now gcPolicy rt u).map infoOf).filter (· ∈ kept)).length = maxPerPod gcPolicy ∨
      maxTotal gcPolicy < limitedTotal now podStateProvider gcPolicy allSourcesReady evictNonDeletedPods rt ∧
        ((((held now gcPolicy rt u).map infoOf).filter (· ∈ kept)).length =
            equalShare now podStateProvider gcPolicy allSourcesReady evictNonDeletedPods rt ∨
          kept.length = maxTotal gcPolicy)) :
    ContainersBounded now podStateProvider gcPolicy allSourcesReady evictNonDeletedPods rt rt' where
  running := by
    intro c hc hrunning
    refine (mem_containers_iff hgone hperm).mpr ⟨hc, fun hevict => ?_⟩
    simp [evictables, evictable, hrunning] at hevict
  young := by
    intro c hc hyoung
    refine (mem_containers_iff hgone hperm).mpr ⟨hc, fun hevict => ?_⟩
    simp only [evictables, evictable, List.mem_filter, Bool.and_eq_true, decide_eq_true_eq] at hevict
    omega
  perUnit := by
    intro u
    rw [length_held hgone hperm]
    exact (hleaves.length_le hplain u).trans (hkeep _)
  total := by
    rw [length_evictables hgone hperm]
    exact htotal
  newest := by
    intro u c hc hnot d hd
    rw [held_eq hgone hperm, List.mem_filter, decide_eq_true_eq] at hd
    obtain ⟨hd, hkept⟩ := hd
    have hstay := (hleaves.mem_keep hplain (List.mem_map_of_mem hd) hkept).1
    have hfirst := hleaves.foremost hplain (List.ne_nil_of_mem hc) hstay
    have hout : infoOf c ∉ ((held now gcPolicy rt u).map infoOf).filter (· ∈ kept) := by
      rw [List.mem_filter, decide_eq_true_eq]
      intro h
      exact hnot ((mem_containers_iff hgone hperm).mpr
        ⟨(List.mem_filter.mp (mem_held.mp hc).1).1, fun _ => h.2⟩)
    have hin : infoOf d ∈ ((held now gcPolicy rt u).map infoOf).filter (· ∈ kept) := by
      rw [List.mem_filter, decide_eq_true_eq]
      exact ⟨List.mem_map_of_mem hd, hkept⟩
    have hnewer := hfirst.first _ (List.mem_map_of_mem hc) hout _ hin
    simp only [Newer, byCreated, infoOf] at hnewer
    omega
  noMore := by
    intro u hstay hless
    rw [length_held hgone hperm, length_evictables hgone hperm] at *
    refine hnoMore u ?_ hstay hless
    intro hnone
    rw [hnone] at hless
    exact Nat.not_lt_zero _ hless

theorem evictContainers_bounded {host : Host} (hhost : host.Succeeds) (hplain : PlainUids rt)
    (hmaxPerPod : 0 ≤ gcPolicy.maxPerPodContainer.getD 0) (hmax : 0 ≤ gcPolicy.maxContainers.getD 0) :
    ContainersBounded now podStateProvider gcPolicy allSourcesReady evictNonDeletedPods rt
      (evictContainers host now podStateProvider gcPolicy allSourcesReady evictNonDeletedPods rt) := by
  obtain ⟨gone, kept, hgone, hperm, hcapped⟩ := evictContainers_spec now podStateProvider gcPolicy
    allSourcesReady evictNonDeletedPods hhost hmaxPerPod hmax rt
  have hlimit : ∀ all, (keepNewest (maxPerPod gcPolicy) all).length ≤ maxPerPod gcPolicy := by
    intro all
    rw [length_keepNewest]
    exact Nat.min_le_left _ _
  have hshare : ∀ all, (keepNewest (share now podStateProvider gcPolicy allSourcesReady
      evictNonDeletedPods rt) (keepNewest (maxPerPod gcPolicy) all)).length ≤ maxPerPod gcPolicy := by
    intro all
    rw [length_keepNewest]
    exact (Nat.min_le_right _ _).trans (hlimit all)
  cases hcapped with
  | fits hfits =>
    refine bounded_of_leaves hplain leaves_limited hlimit hgone hperm hfits ?_
    intro u hsome hstay hless
    have hlength := leaves_limited.length_eq hplain hsome hstay
    rw [length_keepNewest, List.length_map] at hlength
    omega
  | shared hmore hfits =>
    have hleaves := @leaves_shared now podStateProvider gcPolicy allSourcesReady evictNonDeletedPods rt _
      (Foremost.refl _)
    refine bounded_of_leaves hplain hleaves hshare hgone hperm hfits ?_
    intro u hsome hstay hless
    have hlength := hleaves.length_eq hplain hsome hstay
    rw [length_keepNewest, length_keepNewest, List.length_map, share_eq hplain] at hlength
    rw [length_limitedUnits hplain] at hmore
    have hmore : maxTotal gcPolicy <
      limitedTotal now podStateProvider gcPolicy allSourcesReady evictNonDeletedPods rt := hmore
    omega
  | newest hmore hlength hfirst =>
    refine bounded_of_leaves hplain (leaves_shared hfirst) hshare hgone hperm hlength.le ?_
    intro u hsome hstay hless
    rw [length_limitedUnits hplain] at hmore
    exact .inr ⟨hmore, .inr hlength⟩

end Rounds

end Webernetes.Kuberuntime.GC
