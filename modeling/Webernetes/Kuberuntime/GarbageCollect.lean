/-
Webernetes.Kuberuntime.GarbageCollect — a whole collection, the containers
first and the sandboxes after them.

The bounds on the containers are those of `ContainersBounded`. Of the sandboxes
none goes that is ready or still holds a container, and a pod that stays keeps
its newest (`garbageCollect_collects`). What the bounds alone would ask for is
less than what goes: the equal shares are rounded down, and what a small unit
does not use of its share is not given to another one
(`gives_up_more_than_required`).
-/
import Webernetes.Kuberuntime.ContainerGCBounds

namespace Webernetes.Kuberuntime.GC

open Js Base

/-! ## Sandboxes -/

/-- Of the sandboxes those with these ids are gone, and nothing else is. -/
structure SandboxesRemoved (rt rt' : Runtime) (ids : List JsString) : Prop where
  sandboxes : rt'.sandboxes = rt.sandboxes.filter fun s => s.id ∉ ids
  containers : rt'.containers = rt.containers

theorem SandboxesRemoved.refl (rt : Runtime) : SandboxesRemoved rt rt [] where
  sandboxes := by simp
  containers := rfl

theorem SandboxesRemoved.trans {rt rt' rt'' : Runtime} {ids ids' : List JsString}
    (h : SandboxesRemoved rt rt' ids) (h' : SandboxesRemoved rt' rt'' ids') :
    SandboxesRemoved rt rt'' (ids ++ ids') where
  sandboxes := by
    rw [h'.sandboxes, h.sandboxes, List.filter_filter]
    refine List.filter_congr fun s _ => ?_
    simp [Bool.and_comm]
  containers := h'.containers.trans h.containers

/-- The sandboxes newest first, when some of them stay. -/
def sandboxesInOrder (numToKeep : Nat) (sandboxes : List SandboxGCInfo) : List SandboxGCInfo :=
  if numToKeep > 0 then sandboxes.insertionSort fun left right => sandboxByCreated left right ≤ 0
  else sandboxes

/-- Those beyond the newest that are not in use. -/
def goneSandboxes (numToKeep : Nat) (sandboxes : List SandboxGCInfo) : List SandboxGCInfo :=
  ((sandboxesInOrder numToKeep sandboxes).drop numToKeep).filter fun sandbox => !sandbox.active

abbrev NewerSandbox (left right : SandboxGCInfo) : Prop := sandboxByCreated left right ≤ 0

instance : Std.Total NewerSandbox where
  total a b := by
    simp only [NewerSandbox, sandboxByCreated]
    omega

instance : IsTrans SandboxGCInfo NewerSandbox where
  trans a b c := by
    simp only [NewerSandbox, sandboxByCreated]
    omega

theorem perm_sandboxesInOrder (n : Nat) (sandboxes : List SandboxGCInfo) :
    (sandboxesInOrder n sandboxes).Perm sandboxes := by
  rw [sandboxesInOrder]
  split
  · exact List.perm_insertionSort _ _
  · exact .refl _

theorem mem_of_goneSandboxes {n : Nat} {sandboxes : List SandboxGCInfo} {info : SandboxGCInfo}
    (h : info ∈ goneSandboxes n sandboxes) : info ∈ sandboxes ∧ info.active = false := by
  rw [goneSandboxes, List.mem_filter, Bool.not_eq_true'] at h
  exact ⟨(perm_sandboxesInOrder n sandboxes).mem_iff.mp (List.mem_of_mem_drop h.1), h.2⟩

section Loops

variable {host : Host} (hhost : host.Succeeds)

include hhost

theorem removed_sandboxes (sandboxes : List SandboxGCInfo) (rt : Runtime) :
    SandboxesRemoved rt (sandboxes.foldl
      (fun rt sandbox => if sandbox.active then rt else removeSandbox host rt sandbox.id) rt)
      ((sandboxes.filter fun sandbox => !sandbox.active).map SandboxGCInfo.id) := by
  induction sandboxes generalizing rt with
  | nil => exact .refl rt
  | cons sandbox sandboxes ih =>
    rw [List.foldl_cons]
    cases hactive : sandbox.active with
    | true =>
      rw [List.filter_cons_of_neg (by simp [hactive])]
      exact ih rt
    | false =>
      rw [List.filter_cons_of_pos (by simp [hactive]), List.map_cons, ← List.singleton_append]
      refine SandboxesRemoved.trans ⟨?_, ?_⟩ (ih _)
      · simp [removeSandbox, hhost.stopPodSandbox, hhost.removePodSandbox, Runtime.removePodSandbox]
      · simp [removeSandbox, hhost.stopPodSandbox, hhost.removePodSandbox, Runtime.removePodSandbox]

theorem removed_removeOldestNSandboxes (rt : Runtime) (sandboxes : List SandboxGCInfo) {n toRemove : Nat}
    (hn : sandboxes.length - toRemove = n) :
    SandboxesRemoved rt (removeOldestNSandboxes host rt sandboxes toRemove)
      ((goneSandboxes n sandboxes).map SandboxGCInfo.id) := by
  subst hn
  obtain ⟨hsandboxes, hcontainers⟩ := removed_sandboxes hhost
    ((sandboxesInOrder (sandboxes.length - toRemove) sandboxes).drop
      (sandboxes.length - toRemove)).reverse rt
  refine ⟨hsandboxes.trans ?_, hcontainers⟩
  refine List.filter_congr fun s _ => ?_
  simp [goneSandboxes]

end Loops

/-- A sandbox, with whether it is in use. -/
def sandboxInfo (rt : Runtime) (sandbox : PodSandbox) : SandboxGCInfo where
  id := sandbox.id
  createTime := sandbox.createdAt
  active := sandbox.state = .ready || (rt.containers.map Container.podSandboxId).contains sandbox.id

theorem foldl_sandboxInfo (rt : Runtime) (sandboxes : List PodSandbox) :
    sandboxes.foldl (fun o sandbox => some (o.getD [] ++ [sandboxInfo rt sandbox])) none =
      if sandboxes = [] then none else some (sandboxes.map (sandboxInfo rt)) := by
  induction sandboxes using List.reverseRecOn with
  | nil => rfl
  | append_singleton sandboxes sandbox ih =>
    rw [List.foldl_concat, ih]
    by_cases hnil : sandboxes = []
    · simp [hnil]
    · simp [hnil]

theorem get_sandboxesByPod (rt : Runtime) (uid : JsString) :
    (sandboxesByPod rt).get uid =
      if rt.sandboxes.filter (fun s => s.uid = uid) = [] then none
      else some ((rt.sandboxes.filter fun s => s.uid = uid).map (sandboxInfo rt)) := by
  rw [sandboxesByPod, JsMap.get_foldl_addTo, JsMap.get_empty]
  exact foldl_sandboxInfo rt _

section Sandboxes

variable {host : Host} {podStateProvider : PodStateProvider} {evictNonDeletedPods : Bool} {rt : Runtime}

theorem mem_sandboxesByPod {uid : JsString} {infos : List SandboxGCInfo}
    (h : (uid, infos) ∈ (sandboxesByPod rt).entries) :
    infos = (rt.sandboxes.filter fun s => s.uid = uid).map (sandboxInfo rt) ∧ infos ≠ [] := by
  have hget := JsMap.get_eq_some_iff.mpr h
  rw [get_sandboxesByPod] at hget
  split at hget
  · exact absurd hget (Option.some_ne_none _).symm
  · rename_i hne
    obtain rfl := Option.some.inj hget
    exact ⟨rfl, by simpa using hne⟩

variable (podStateProvider evictNonDeletedPods) in
/-- Those of the pods that go. -/
def goneOf (entries : List (JsString × List SandboxGCInfo)) : List SandboxGCInfo :=
  entries.flatMap fun entry =>
    goneSandboxes (if toBeRemoved podStateProvider evictNonDeletedPods entry.1 then 0 else 1) entry.2

variable (podStateProvider evictNonDeletedPods rt) in
/-- The sandboxes that go. -/
def goneOfPods : List SandboxGCInfo :=
  goneOf podStateProvider evictNonDeletedPods (sandboxesByPod rt).entries

theorem removed_entries (hhost : host.Succeeds) (entries : List (JsString × List SandboxGCInfo))
    (hsome : ∀ entry ∈ entries, entry.2 ≠ []) (rt : Runtime) :
    SandboxesRemoved rt (entries.foldl (fun rt entry =>
      let (podUID, sandboxes) := entry
      if toBeRemoved podStateProvider evictNonDeletedPods podUID then
        removeOldestNSandboxes host rt sandboxes sandboxes.length
      else removeOldestNSandboxes host rt sandboxes (sandboxes.length - 1)) rt)
      ((goneOf podStateProvider evictNonDeletedPods entries).map SandboxGCInfo.id) := by
  induction entries generalizing rt with
  | nil => exact .refl rt
  | cons entry entries ih =>
    rw [List.foldl_cons, goneOf, List.flatMap_cons, List.map_append]
    refine SandboxesRemoved.trans ?_ (ih (fun entry hentry => hsome entry (List.mem_cons_of_mem _ hentry)) _)
    have hlength : 0 < entry.2.length := List.length_pos_of_ne_nil (hsome entry List.mem_cons_self)
    dsimp only
    split
    · exact removed_removeOldestNSandboxes hhost rt entry.2 (Nat.sub_self _)
    · exact removed_removeOldestNSandboxes hhost rt entry.2 (by omega)

theorem removed_evictSandboxes (hhost : host.Succeeds) :
    SandboxesRemoved rt (evictSandboxes host podStateProvider evictNonDeletedPods rt)
      ((goneOfPods podStateProvider evictNonDeletedPods rt).map SandboxGCInfo.id) := by
  rw [evictSandboxes, hhost.listContainers, hhost.listPodSandbox]
  exact removed_entries hhost _ (fun _ hentry => (mem_sandboxesByPod hentry).2) rt

/-- Who goes is a sandbox of the runtime that is not in use. -/
theorem of_goneOfPods {info : SandboxGCInfo} (h : info ∈ goneOfPods podStateProvider evictNonDeletedPods rt) :
    ∃ s ∈ rt.sandboxes, info = sandboxInfo rt s ∧ info.active = false ∧
      info ∈ goneSandboxes (if toBeRemoved podStateProvider evictNonDeletedPods s.uid then 0 else 1)
        ((rt.sandboxes.filter fun other => other.uid = s.uid).map (sandboxInfo rt)) := by
  obtain ⟨⟨uid, infos⟩, hentry, hgone⟩ := List.mem_flatMap.mp h
  obtain ⟨rfl, -⟩ := mem_sandboxesByPod hentry
  obtain ⟨hmem, hactive⟩ := mem_of_goneSandboxes hgone
  obtain ⟨s, hs, rfl⟩ := List.mem_map.mp hmem
  obtain ⟨hsandbox, huid⟩ := List.mem_filter.mp hs
  obtain rfl : s.uid = uid := by simpa using huid
  exact ⟨s, hsandbox, rfl, hactive, hgone⟩

/-- A sandbox stays unless it goes itself. -/
theorem mem_sandboxes (hhost : host.Succeeds) {s : PodSandbox} (hs : s ∈ rt.sandboxes)
    (hstays : sandboxInfo rt s ∉ goneOfPods podStateProvider evictNonDeletedPods rt) :
    s ∈ (evictSandboxes host podStateProvider evictNonDeletedPods rt).sandboxes := by
  rw [(removed_evictSandboxes hhost).sandboxes, List.mem_filter, decide_eq_true_eq]
  refine ⟨hs, fun hid => ?_⟩
  obtain ⟨info, hinfo, heq⟩ := List.mem_map.mp hid
  obtain ⟨other, hother, rfl, -⟩ := of_goneOfPods hinfo
  obtain rfl : other = s := List.inj_on_of_nodup_map rt.nodup_sandboxes hother hs heq
  exact hstays hinfo

theorem mem_sandboxes_of_active (hhost : host.Succeeds) {s : PodSandbox} (hs : s ∈ rt.sandboxes)
    (hactive : (sandboxInfo rt s).active = true) :
    s ∈ (evictSandboxes host podStateProvider evictNonDeletedPods rt).sandboxes := by
  refine mem_sandboxes hhost hs fun hgone => ?_
  obtain ⟨_, -, -, hidle, -⟩ := of_goneOfPods hgone
  rw [hactive] at hidle
  exact absurd hidle.symm Bool.false_ne_true

/-- The newest sandbox of a pod that stays is kept. -/
theorem exists_newest_sandbox (hhost : host.Succeeds) {s : PodSandbox} (hs : s ∈ rt.sandboxes)
    (hstays : toBeRemoved podStateProvider evictNonDeletedPods s.uid = false) :
    ∃ t ∈ (evictSandboxes host podStateProvider evictNonDeletedPods rt).sandboxes, t.uid = s.uid ∧
      ∀ other ∈ rt.sandboxes, other.uid = s.uid → other.createdAt ≤ t.createdAt := by
  obtain ⟨infos, hinfos⟩ : ∃ infos, (rt.sandboxes.filter fun other => other.uid = s.uid).map
      (sandboxInfo rt) = infos := ⟨_, rfl⟩
  have hperm := perm_sandboxesInOrder 1 infos
  have hnodup : infos.Nodup := by
    rw [← hinfos]
    refine List.Nodup.of_map SandboxGCInfo.id ?_
    rw [List.map_map]
    exact rt.nodup_sandboxes.sublist (List.filter_sublist.map _)
  have hmem : sandboxInfo rt s ∈ sandboxesInOrder 1 infos := by
    rw [hperm.mem_iff, ← hinfos]
    exact List.mem_map_of_mem (List.mem_filter.mpr ⟨hs, by simp⟩)
  cases horder : sandboxesInOrder 1 infos with
  | nil =>
    rw [horder] at hmem
    exact absurd hmem List.not_mem_nil
  | cons first rest =>
    have hfirst : first ∈ infos := hperm.mem_iff.mp (horder ▸ List.mem_cons_self)
    rw [← hinfos] at hfirst
    obtain ⟨t, ht, rfl⟩ := List.mem_map.mp hfirst
    obtain ⟨ht, huid⟩ := List.mem_filter.mp ht
    rw [decide_eq_true_eq] at huid
    refine ⟨t, mem_sandboxes hhost ht ?_, huid, ?_⟩
    · intro hgone
      obtain ⟨other, hother, heq, -, hdropped⟩ := of_goneOfPods hgone
      obtain rfl : t = other :=
        List.inj_on_of_nodup_map rt.nodup_sandboxes ht hother (congrArg SandboxGCInfo.id heq)
      rw [huid, hstays, hinfos, goneSandboxes, List.mem_filter] at hdropped
      have hrest : sandboxInfo rt t ∈ rest := by
        have := hdropped.1
        simpa [horder] using this
      have hcons := hperm.nodup_iff.mpr hnodup
      rw [horder, List.nodup_cons] at hcons
      exact hcons.1 hrest
    · intro other hother hsame
      have hin : sandboxInfo rt other ∈ infos := by
        rw [← hinfos]
        exact List.mem_map_of_mem (List.mem_filter.mpr ⟨hother, by simpa using hsame⟩)
      have hsorted : (sandboxesInOrder 1 infos).Pairwise NewerSandbox := List.pairwise_insertionSort _ infos
      rw [horder, List.pairwise_cons] at hsorted
      rcases List.mem_cons.mp (horder ▸ hperm.mem_iff.mpr hin) with heq | hrest
      · exact le_of_eq (congrArg SandboxGCInfo.createTime heq)
      · have hnewer := hsorted.1 _ hrest
        simp only [NewerSandbox, sandboxByCreated, sandboxInfo] at hnewer
        omega

end Sandboxes

/-! ## The collection -/

section Collection

variable (host : Host) (now : Int) (podStateProvider : PodStateProvider) (gcPolicy : GCPolicy)
  (allSourcesReady evictNonDeletedPods : Bool)

/-- What a collection does to the runtime. -/
structure Collects (rt rt' : Runtime) : Prop where
  containers : rt'.containers.Sublist rt.containers
  sandboxes : rt'.sandboxes.Sublist rt.sandboxes
  bounded : ContainersBounded now podStateProvider gcPolicy allSourcesReady evictNonDeletedPods rt rt'
  ready : ∀ s ∈ rt.sandboxes, s.state = .ready → s ∈ rt'.sandboxes
  occupied : ∀ s ∈ rt.sandboxes, ∀ c ∈ rt'.containers, c.podSandboxId = s.id → s ∈ rt'.sandboxes
  newestSandbox : ∀ s ∈ rt.sandboxes, toBeRemoved podStateProvider evictNonDeletedPods s.uid = false →
    ∃ t ∈ rt'.sandboxes, t.uid = s.uid ∧
      ∀ other ∈ rt.sandboxes, other.uid = s.uid → other.createdAt ≤ t.createdAt

/-- A unit of a pod that stays gives up nothing below `maxPerPodContainer` while all units together
have less than `maxContainers`. -/
def RequiredOnly (rt rt' : Runtime) : Prop :=
  ∀ u, gonePod podStateProvider allSourcesReady evictNonDeletedPods u.uid = false →
    (held now gcPolicy rt' u).length < (held now gcPolicy rt u).length →
      (held now gcPolicy rt' u).length = maxPerPod gcPolicy ∨
        (evictables now gcPolicy rt').length = maxTotal gcPolicy

variable {host now podStateProvider gcPolicy allSourcesReady evictNonDeletedPods}

theorem ContainersBounded.congr {rt rt' rt'' : Runtime}
    (h : ContainersBounded now podStateProvider gcPolicy allSourcesReady evictNonDeletedPods rt rt')
    (hsame : rt''.containers = rt'.containers) :
    ContainersBounded now podStateProvider gcPolicy allSourcesReady evictNonDeletedPods rt rt'' := by
  have hevictables : evictables now gcPolicy rt'' = evictables now gcPolicy rt' := by
    rw [evictables, hsame, evictables]
  have hheld : held now gcPolicy rt'' = held now gcPolicy rt' := by
    funext u
    rw [held, hevictables, held]
  obtain ⟨hrunning, hyoung, hunit, htotal, hnewest, hnoMore⟩ := h
  exact ⟨by rwa [hsame], by rwa [hsame], by rwa [hheld], by rwa [hevictables], by rwa [hsame, hheld],
    by rwa [hheld, hevictables]⟩

theorem garbageCollect_collects {rt : Runtime} (hhost : host.Succeeds) (hplain : PlainUids rt)
    (hmaxPerPod : 0 ≤ gcPolicy.maxPerPodContainer.getD 0) (hmax : 0 ≤ gcPolicy.maxContainers.getD 0) :
    Collects now podStateProvider gcPolicy allSourcesReady evictNonDeletedPods rt
      (garbageCollect host now podStateProvider gcPolicy allSourcesReady evictNonDeletedPods rt) := by
  obtain ⟨gone, kept, hgone, -⟩ := evictContainers_spec now podStateProvider gcPolicy allSourcesReady
    evictNonDeletedPods hhost hmaxPerPod hmax rt
  have hbounded : ContainersBounded now podStateProvider gcPolicy allSourcesReady evictNonDeletedPods rt
      (evictContainers host now podStateProvider gcPolicy allSourcesReady evictNonDeletedPods rt) :=
    evictContainers_bounded hhost hplain hmaxPerPod hmax
  rw [garbageCollect]
  obtain ⟨mid, hmid⟩ : ∃ mid, evictContainers host now podStateProvider gcPolicy allSourcesReady
      evictNonDeletedPods rt = mid := ⟨_, rfl⟩
  rw [hmid] at hgone hbounded ⊢
  have hremoved : SandboxesRemoved mid (evictSandboxes host podStateProvider evictNonDeletedPods mid)
      ((goneOfPods podStateProvider evictNonDeletedPods mid).map SandboxGCInfo.id) :=
    removed_evictSandboxes hhost
  exact {
    containers := by
      rw [hremoved.containers, hgone.containers]
      exact List.filter_sublist
    sandboxes := by
      rw [hremoved.sandboxes, ← hgone.sandboxes]
      exact List.filter_sublist
    bounded := hbounded.congr hremoved.containers
    ready := by
      intro s hs hready
      refine mem_sandboxes_of_active hhost (hgone.sandboxes ▸ hs) ?_
      simp [sandboxInfo, hready]
    occupied := by
      intro s hs c hc hid
      rw [hremoved.containers] at hc
      refine mem_sandboxes_of_active hhost (hgone.sandboxes ▸ hs) ?_
      rw [sandboxInfo, Bool.or_eq_true]
      right
      rw [List.contains_iff_mem]
      exact List.mem_map.mpr ⟨c, hc, hid⟩
    newestSandbox := by
      intro s hs hstays
      rw [← hgone.sandboxes] at hs ⊢
      exact exists_newest_sandbox hhost hs hstays }

end Collection

/-! ## Two units of different sizes -/

section Unequal

def goodHost : Host := ⟨true, true, fun _ => true, fun _ => true, fun _ => true, fun _ => true⟩

theorem goodHost_succeeds : goodHost.Succeeds :=
  ⟨rfl, rfl, fun _ => rfl, fun _ => rfl, fun _ => rfl, fun _ => rfl⟩

/-- A container that exited, of the pod. -/
def exitedOf (uid name : JsString) (id : JsString) (createdAt : Int) : Container where
  id := id
  podSandboxId := js "s"
  name := name
  state := .exited
  createdAt := createdAt
  labels := JsMap.ofList [(kubernetesPodUIDLabel, uid)]

/-- Three containers of one pod and one of another. -/
def unequalRuntime : Runtime where
  containers := [exitedOf (js "a") (js "x") (js "1") 3, exitedOf (js "a") (js "x") (js "2") 2,
    exitedOf (js "a") (js "x") (js "3") 1, exitedOf (js "b") (js "x") (js "4") 1]
  sandboxes := []
  nodup_containers := by decide
  nodup_sandboxes := by decide

/-- Each unit may have ten containers, and all of them three. -/
def threePolicy : GCPolicy where
  maxPerPodContainer := some 10
  maxContainers := some 3

/-- Every pod stays. -/
def allStay : PodStateProvider := ⟨fun _ => false, fun _ => false⟩

theorem garbageCollect_collects_unequal :
    Collects 9 allStay threePolicy true false unequalRuntime
      (garbageCollect goodHost 9 allStay threePolicy true false unequalRuntime) :=
  garbageCollect_collects goodHost_succeeds (by unfold PlainUids; decide) (by decide) (by decide)

/-- Two pods whose units have one text, as the uid of the first one has a NUL. -/
def nulRuntime : Runtime where
  containers := [exitedOf (js "a" ++ [0] ++ js "b") (js "c") (js "1") 1,
    exitedOf (js "a") (js "b" ++ [0] ++ js "c") (js "2") 1]
  sandboxes := []
  nodup_containers := by decide
  nodup_sandboxes := by decide

/-- The second of them goes. -/
def secondGoes : PodStateProvider := ⟨fun uid => uid = js "a", fun _ => false⟩

/-- The first pod gives up two of its three containers, where the bounds ask for one; and a pod that
stays loses its container with one that goes, where their units have one text. -/
theorem gives_up_more_than_required :
    ¬ RequiredOnly 9 allStay threePolicy true false unequalRuntime
        (garbageCollect goodHost 9 allStay threePolicy true false unequalRuntime) ∧
      ¬ RequiredOnly 9 secondGoes threePolicy true false nulRuntime
        (garbageCollect goodHost 9 secondGoes threePolicy true false nulRuntime) := by
  constructor
  · intro h
    have hunit := h ⟨js "a", js "x"⟩ rfl (by decide)
    exact absurd hunit (by decide)
  · intro h
    have hunit := h ⟨js "a" ++ [0] ++ js "b", js "c"⟩ rfl (by decide)
    exact absurd hunit (by decide)

end Unequal

end Webernetes.Kuberuntime.GC
