/-
Webernetes.Controller.Rolling — one reconcile step of a rolling rollout,
`rolloutRolling` of `deployment-controller.ts`, with its two halves
`reconcileNewReplicaSet` and `reconcileOldReplicaSets`.

A step is a function from the ReplicaSets of a deployment to the
ReplicaSets the API holds afterwards. The API may refuse any single
update; `refuses` is the error it throws for a body. What a step does
when an update is refused halfway is in the model, and the updates made
before it stay.

Two loops scale ReplicaSets down, one after the other:
`cleanupUnhealthyReplicas` and `scaleDownOldReplicaSetsForRollingUpdate`.
Both are `scaleDownLoop`, with their own limit and their own room in each
ReplicaSet, and `scaleDownLoop_spec` is what a pass can do.

`rolloutRolling_safe` is the safety of a step, `rolloutRolling_progress`
and `rolloutRolling_finishes` that a rollout gets on and ends.
-/
import Webernetes.Controller.DeploymentUtil

namespace Webernetes.Controller

open Js

variable (locale : Etcd.Locale) (refuses : ReplicaSet → Option JsString)

/-! ## Scaling one ReplicaSet -/

/-- What `scaleReplicaSet` returns. The ReplicaSet is the one the API
holds afterwards, also where the source returns none. -/
structure Scaled where
  scaled : Bool
  replicaSet : ReplicaSet
  err : Option JsString
  deriving DecidableEq

/-- `scaleReplicaSet`, never forced. -/
def scaleReplicaSet (rs : ReplicaSet) (newScale : Int) : Scaled :=
  if rs.name.getD [] = [] then { scaled := false, replicaSet := rs, err := none }
  else if rs.size = newScale then { scaled := false, replicaSet := rs, err := none }
  else
    let rsCopy := { rs with replicas := some newScale }
    match refuses rsCopy with
    | some e => { scaled := false, replicaSet := rs, err := some e }
    | none => { scaled := true, replicaSet := rsCopy, err := none }

/-- Scaling changes the size only, and to the size asked for. -/
theorem scaleReplicaSet_cases (rs : ReplicaSet) (newScale : Int) :
    ((scaleReplicaSet refuses rs newScale).replicaSet = rs
      ∧ (scaleReplicaSet refuses rs newScale).scaled = false) ∨
    ((scaleReplicaSet refuses rs newScale).replicaSet = { rs with replicas := some newScale }
      ∧ (scaleReplicaSet refuses rs newScale).scaled = true
      ∧ (scaleReplicaSet refuses rs newScale).err = none) := by
  unfold scaleReplicaSet
  split
  · exact .inl ⟨rfl, rfl⟩
  · split
    · exact .inl ⟨rfl, rfl⟩
    · dsimp only
      split
      · exact .inl ⟨rfl, rfl⟩
      · exact .inr ⟨rfl, rfl, rfl⟩

/-- A ReplicaSet with a name is scaled by an API that refuses nothing. -/
theorem scaleReplicaSet_of_named {rs : ReplicaSet} (hname : rs.name.getD [] ≠ [])
    {newScale : Int} (hsize : rs.size ≠ newScale) :
    scaleReplicaSet (fun _ => none) rs newScale
      = { scaled := true, replicaSet := { rs with replicas := some newScale }, err := none } := by
  simp [scaleReplicaSet, hname, hsize]

/-! ## Scaling down a list of them -/

/-- What a pass over a list of ReplicaSets comes to: the ReplicaSets the
API holds, how many replicas were taken off, and the error it stopped
with. -/
structure Pass where
  replicaSets : List ReplicaSet
  totalScaledDown : Int
  err : Option JsString
  deriving DecidableEq

/-- A pass that kept `rs` as its first ReplicaSet. -/
def Pass.cons (rs : ReplicaSet) (pass : Pass) : Pass :=
  { pass with replicaSets := rs :: pass.replicaSets }

/-- The text of an error about a request to scale down. -/
def invalidScaleDown (complaint : JsString) (rs : ReplicaSet) (newReplicasCount : Int) : JsString :=
  complaint ++ js ", got invalid request to scale down " ++ rs.ns.getD (js "default") ++ js "/"
    ++ rs.name.getD [] ++ js " " ++ js (toString rs.size) ++ js " -> "
    ++ js (toString newReplicasCount)

/-- The loop of both passes: up to `limit` replicas are taken off, from
each ReplicaSet at most its `room`. -/
def scaleDownLoop (complaint : JsString) (skip : ReplicaSet → Bool) (room : ReplicaSet → Int)
    (limit : Int) : List ReplicaSet → Int → Pass
  | [], total => { replicaSets := [], totalScaledDown := total, err := none }
  | rs :: rest, total =>
    if limit ≤ total then { replicaSets := rs :: rest, totalScaledDown := total, err := none }
    else if skip rs then (scaleDownLoop complaint skip room limit rest total).cons rs
    else
      let scaledDownCount := min (limit - total) (room rs)
      let newReplicasCount := rs.size - scaledDownCount
      if rs.size < newReplicasCount then
        { replicaSets := rs :: rest
          totalScaledDown := 0
          err := some (invalidScaleDown complaint rs newReplicasCount) }
      else
        let result := scaleReplicaSet refuses rs newReplicasCount
        match result.err with
        | some e => { replicaSets := rs :: rest, totalScaledDown := total, err := some e }
        | none =>
          (scaleDownLoop complaint skip room limit rest (total + scaledDownCount)).cons
            result.replicaSet

def cleanupUnhealthyReplicas (oldReplicaSets : List ReplicaSet) (maxCleanupCount : Int) : Pass :=
  scaleDownLoop refuses (js "when cleaning up unhealthy replicas")
    (fun rs => decide (rs.size = 0 ∨ rs.size = rs.available))
    (fun rs => rs.size - rs.available) maxCleanupCount
    (sortByCreationTimestamp locale oldReplicaSets) 0

def scaleDownOldReplicaSetsForRollingUpdate (allReplicaSets oldReplicaSets : List ReplicaSet)
    (deployment : Deployment) : Pass :=
  let minAvailable := deployment.desired - maxUnavailable deployment
  let availablePodCount := getAvailableReplicaCountForReplicaSets allReplicaSets
  if availablePodCount ≤ minAvailable then
    { replicaSets := oldReplicaSets, totalScaledDown := 0, err := none }
  else
    scaleDownLoop refuses (js "when scaling down old RS") (fun rs => decide (rs.size = 0))
      (fun rs => rs.size) (availablePodCount - minAvailable)
      (sortByCreationTimestamp locale oldReplicaSets) 0

/-! ## The step -/

/-- The ReplicaSets of a deployment. -/
structure Rollout where
  newRS : ReplicaSet
  oldRSs : List ReplicaSet
  deriving DecidableEq

/-- `[...oldRSs, newRS]`. -/
def Rollout.allRSs (r : Rollout) : List ReplicaSet := r.oldRSs ++ [r.newRS]

def reconcileNewReplicaSet (allReplicaSets : List ReplicaSet) (newReplicaSet : ReplicaSet)
    (deployment : Deployment) : Scaled :=
  let desired := deployment.desired
  let current := newReplicaSet.size
  if current = desired then { scaled := false, replicaSet := newReplicaSet, err := none }
  else if desired < current then scaleReplicaSet refuses newReplicaSet desired
  else
    match newRSNewReplicas deployment allReplicaSets newReplicaSet with
    | .error e => { scaled := false, replicaSet := newReplicaSet, err := some e }
    | .ok newReplicasCount => scaleReplicaSet refuses newReplicaSet newReplicasCount

/-- Whether a ReplicaSet was scaled down, and the old ReplicaSets the API
holds afterwards. -/
def reconcileOldReplicaSets (allReplicaSets oldReplicaSets : List ReplicaSet)
    (newReplicaSet : ReplicaSet) (deployment : Deployment) : Bool × List ReplicaSet :=
  let oldPodsCount := getReplicaCountForReplicaSets oldReplicaSets
  if oldPodsCount = 0 then (false, oldReplicaSets)
  else
    let allPodsCount := getReplicaCountForReplicaSets allReplicaSets
    let minAvailable := deployment.desired - maxUnavailable deployment
    let newReplicaSetUnavailablePodCount := newReplicaSet.size - newReplicaSet.available
    let maxScaledDown := allPodsCount - minAvailable - newReplicaSetUnavailablePodCount
    if maxScaledDown ≤ 0 then (false, oldReplicaSets)
    else
      let cleanup := cleanupUnhealthyReplicas locale refuses oldReplicaSets maxScaledDown
      if cleanup.err.isSome then (false, cleanup.replicaSets)
      else
        let scaleDown := scaleDownOldReplicaSetsForRollingUpdate locale refuses
          (cleanup.replicaSets ++ [newReplicaSet]) cleanup.replicaSets deployment
        if scaleDown.err.isSome then (false, scaleDown.replicaSets)
        else (decide (0 < cleanup.totalScaledDown + scaleDown.totalScaledDown),
          scaleDown.replicaSets)

/-- The reconcile step of `rolloutRolling`: the ReplicaSets afterwards. -/
def rolloutRolling (deployment : Deployment) (r : Rollout) : Rollout :=
  let scaledUp := reconcileNewReplicaSet refuses r.allRSs r.newRS deployment
  if scaledUp.err.isSome || scaledUp.scaled then { r with newRS := scaledUp.replicaSet }
  else
    let activeOldReplicaSets := filterActiveReplicaSets r.oldRSs
    let inactive := r.oldRSs.filter fun rs => !decide (0 < rs.replicas.getD 0)
    { r with oldRSs := inactive ++ (reconcileOldReplicaSets locale refuses r.allRSs
        activeOldReplicaSets r.newRS deployment).2 }

/-! ## What a pass can do -/

/-- `after` is `before`, perhaps with another size. -/
def Resized (before after : ReplicaSet) : Prop :=
  after = before ∨ after = { before with replicas := some after.size }

theorem Resized.refl (rs : ReplicaSet) : Resized rs rs := .inl rfl

theorem Resized.available {before after : ReplicaSet} (h : Resized before after) :
    after.available = before.available := by
  rcases h with h | h
  · rw [h]
  · rw [h]
    rfl

theorem Resized.trans {a b c : ReplicaSet} (hab : Resized a b) (hbc : Resized b c) :
    Resized a c := by
  rcases hbc with rfl | hbc
  · exact hab
  · rcases hab with rfl | hab
    · exact .inr hbc
    · refine .inr ?_
      rw [hbc, hab]
      rfl

/-- `after` is `before` scaled down, at most to the floor. -/
structure Shrunk (floor : ReplicaSet → Int) (before after : ReplicaSet) : Prop where
  resized : Resized before after
  floor_le : floor before ≤ after.size
  le : after.size ≤ before.size

theorem Shrunk.refl {floor : ReplicaSet → Int} {rs : ReplicaSet} (h : floor rs ≤ rs.size) :
    Shrunk floor rs rs :=
  ⟨.refl rs, h, Int.le_refl _⟩

theorem forall₂_shrunk_refl {floor : ReplicaSet → Int} : ∀ {replicaSets : List ReplicaSet},
    (∀ rs ∈ replicaSets, floor rs ≤ rs.size) →
    List.Forall₂ (Shrunk floor) replicaSets replicaSets
  | [], _ => .nil
  | rs :: rest, h => by
      have hrest := forall₂_shrunk_refl fun r hr => h r (List.mem_cons_of_mem _ hr)
      exact .cons (.refl (h rs List.mem_cons_self)) hrest

@[simp] theorem getReplicaCountForReplicaSets_cons (rs : ReplicaSet) (rest : List ReplicaSet) :
    getReplicaCountForReplicaSets (rs :: rest) = rs.size + getReplicaCountForReplicaSets rest := by
  simp [getReplicaCountForReplicaSets]

@[simp] theorem getAvailableReplicaCountForReplicaSets_cons (rs : ReplicaSet)
    (rest : List ReplicaSet) :
    getAvailableReplicaCountForReplicaSets (rs :: rest)
      = rs.available + getAvailableReplicaCountForReplicaSets rest := by
  simp [getAvailableReplicaCountForReplicaSets]

@[simp] theorem getReplicaCountForReplicaSets_append (left right : List ReplicaSet) :
    getReplicaCountForReplicaSets (left ++ right)
      = getReplicaCountForReplicaSets left + getReplicaCountForReplicaSets right := by
  simp [getReplicaCountForReplicaSets]

@[simp] theorem getAvailableReplicaCountForReplicaSets_append (left right : List ReplicaSet) :
    getAvailableReplicaCountForReplicaSets (left ++ right)
      = getAvailableReplicaCountForReplicaSets left
        + getAvailableReplicaCountForReplicaSets right := by
  simp [getAvailableReplicaCountForReplicaSets]

@[simp] theorem getReplicaCountForReplicaSets_nil : getReplicaCountForReplicaSets [] = 0 := rfl

@[simp] theorem getAvailableReplicaCountForReplicaSets_nil :
    getAvailableReplicaCountForReplicaSets [] = 0 := rfl

theorem getReplicaCountForReplicaSets_perm {left right : List ReplicaSet} (h : left.Perm right) :
    getReplicaCountForReplicaSets left = getReplicaCountForReplicaSets right :=
  (h.map _).sum_eq

theorem getAvailableReplicaCountForReplicaSets_perm {left right : List ReplicaSet}
    (h : left.Perm right) :
    getAvailableReplicaCountForReplicaSets left = getAvailableReplicaCountForReplicaSets right :=
  (h.map _).sum_eq

section Loop

variable {refuses} {complaint : JsString} {skip : ReplicaSet → Bool} {room floor : ReplicaSet → Int}
  {limit : Int}

/-- **A pass.** It scales each ReplicaSet down to its floor at most, and
takes off no more than what is left of the limit. -/
theorem scaleDownLoop_spec {replicaSets : List ReplicaSet}
    (hfloor : ∀ rs ∈ replicaSets, floor rs ≤ rs.size)
    (hroom : ∀ rs ∈ replicaSets, 0 ≤ room rs ∧ floor rs ≤ rs.size - room rs) (total : Int) :
    List.Forall₂ (Shrunk floor) replicaSets
        (scaleDownLoop refuses complaint skip room limit replicaSets total).replicaSets
      ∧ getReplicaCountForReplicaSets replicaSets - getReplicaCountForReplicaSets
          (scaleDownLoop refuses complaint skip room limit replicaSets total).replicaSets
        ≤ max 0 (limit - total) := by
  -- Where the loop stops, the rest stays as it is.
  have stays : ∀ (rss : List ReplicaSet) (total : Int), (∀ rs ∈ rss, floor rs ≤ rs.size) →
      List.Forall₂ (Shrunk floor) rss rss
        ∧ getReplicaCountForReplicaSets rss - getReplicaCountForReplicaSets rss
          ≤ max 0 (limit - total) :=
    fun rss total h => ⟨forall₂_shrunk_refl h, by omega⟩
  induction replicaSets generalizing total with
  | nil => exact stays [] total hfloor
  | cons rs rest ih =>
    have hrs : Shrunk floor rs rs := .refl (hfloor rs List.mem_cons_self)
    have hrest := ih (fun r hr => hfloor r (List.mem_cons_of_mem _ hr))
      fun r hr => hroom r (List.mem_cons_of_mem _ hr)
    obtain ⟨hroom0, hroomfloor⟩ := hroom rs List.mem_cons_self
    rw [scaleDownLoop]
    split
    · exact stays _ total hfloor
    · rename_i hlimit
      split
      · obtain ⟨hshrunk, hcount⟩ := hrest total
        refine ⟨.cons hrs hshrunk, ?_⟩
        simp only [Pass.cons, getReplicaCountForReplicaSets_cons]
        omega
      · dsimp only
        split
        · exact stays _ total hfloor
        · split
          · exact stays _ total hfloor
          · obtain ⟨hshrunk, hcount⟩ := hrest (total + min (limit - total) (room rs))
            rcases scaleReplicaSet_cases refuses rs (rs.size - min (limit - total) (room rs)) with
              ⟨hsame, -⟩ | ⟨hscaled, -⟩
            · rw [hsame]
              refine ⟨.cons hrs hshrunk, ?_⟩
              simp only [Pass.cons, getReplicaCountForReplicaSets_cons]
              omega
            · rw [hscaled]
              have hsize : ({ rs with replicas := some (rs.size - min (limit - total) (room rs)) }
                  : ReplicaSet).size = rs.size - min (limit - total) (room rs) := rfl
              refine ⟨.cons ⟨.inr rfl, ?_, ?_⟩ hshrunk, ?_⟩
              · rw [hsize]
                omega
              · rw [hsize]
                omega
              · simp only [Pass.cons, getReplicaCountForReplicaSets_cons, hsize]
                omega

end Loop

/-- What a ReplicaSet keeps available at its size. -/
def ReplicaSet.kept (rs : ReplicaSet) : Int := min rs.available rs.size

/-- Scaling down by so many replicas costs at most as many available
ones. -/
theorem kept_of_shrunk {floor : ReplicaSet → Int} {before after : List ReplicaSet}
    (h : List.Forall₂ (Shrunk floor) before after)
    (havailable : ∀ rs ∈ before, rs.available ≤ rs.size) :
    getAvailableReplicaCountForReplicaSets before
        - (getReplicaCountForReplicaSets before - getReplicaCountForReplicaSets after)
      ≤ (after.map ReplicaSet.kept).sum := by
  induction h with
  | nil => simp
  | @cons a b before after hab _ ih =>
    have hrest := ih fun rs hrs => havailable rs (List.mem_cons_of_mem _ hrs)
    have ha := havailable a List.mem_cons_self
    have hkept : b.kept = min a.available b.size := by rw [ReplicaSet.kept, hab.resized.available]
    have hle := hab.le
    simp only [getAvailableReplicaCountForReplicaSets_cons, getReplicaCountForReplicaSets_cons,
      List.map_cons, List.sum_cons, hkept]
    omega

/-! ## What a step can do -/

variable {locale} {refuses} {deployment : Deployment}

/-- The new ReplicaSet stays, or is scaled down to the desired size, or up
within the surge. -/
theorem reconcileNewReplicaSet_cases (h : deployment.Rolling) (allReplicaSets : List ReplicaSet)
    (newRS : ReplicaSet) :
    ((reconcileNewReplicaSet refuses allReplicaSets newRS deployment).replicaSet = newRS
      ∧ (reconcileNewReplicaSet refuses allReplicaSets newRS deployment).scaled = false) ∨
    ((reconcileNewReplicaSet refuses allReplicaSets newRS deployment).scaled = true ∧
      ∃ size, (reconcileNewReplicaSet refuses allReplicaSets newRS deployment).replicaSet
          = { newRS with replicas := some size }
        ∧ ((size = deployment.desired ∧ deployment.desired < newRS.size) ∨
          (newRS.size < size ∧ size ≤ deployment.desired
            ∧ getReplicaCountForReplicaSets allReplicaSets + (size - newRS.size)
              ≤ deployment.desired + maxSurge deployment))) := by
  unfold reconcileNewReplicaSet
  dsimp only
  split
  · exact .inl ⟨rfl, rfl⟩
  · split
    · rename_i hdown
      rcases scaleReplicaSet_cases refuses newRS deployment.desired with hsame | ⟨hset, hscaled, -⟩
      · exact .inl hsame
      · exact .inr ⟨hscaled, deployment.desired, hset, .inl ⟨rfl, hdown⟩⟩
    · rename_i hne hup
      rw [h.newRSNewReplicas_eq]
      dsimp only
      split
      · rw [Int.add_zero]
        rcases scaleReplicaSet_cases refuses newRS newRS.size with hsame | ⟨-, hscaled, -⟩
        · exact .inl hsame
        · -- To its own size a ReplicaSet is not scaled.
          exact absurd hscaled (by unfold scaleReplicaSet; simp)
      · rename_i hroom
        rcases scaleReplicaSet_cases refuses newRS (newRS.size
            + min (deployment.desired + maxSurge deployment
                - getReplicaCountForReplicaSets allReplicaSets)
              (deployment.desired - newRS.size)) with hsame | ⟨hset, hscaled, -⟩
        · exact .inl hsame
        · exact .inr ⟨hscaled, _, hset, .inr (by omega)⟩

/-- Available replicas are counted, and there are no more of them than
replicas. -/
def Counted (rs : ReplicaSet) : Prop := 0 ≤ rs.available ∧ rs.available ≤ rs.size

theorem getAvailableReplicaCountForReplicaSets_nonneg {replicaSets : List ReplicaSet}
    (h : ∀ rs ∈ replicaSets, Counted rs) :
    0 ≤ getAvailableReplicaCountForReplicaSets replicaSets := by
  refine List.sum_nonneg fun n hn => ?_
  obtain ⟨rs, hrs, rfl⟩ := List.mem_map.mp hn
  exact (h rs hrs).1

theorem forall₂_comp {R S T : ReplicaSet → ReplicaSet → Prop}
    (htrans : ∀ a b c, R a b → S b c → T a c) : ∀ {xs ys zs : List ReplicaSet},
    List.Forall₂ R xs ys → List.Forall₂ S ys zs → List.Forall₂ T xs zs
  | [], [], [], .nil, .nil => .nil
  | _ :: _, _ :: _, _ :: _, .cons hxy hxys, .cons hyz hyzs =>
      .cons (htrans _ _ _ hxy hyz) (forall₂_comp htrans hxys hyzs)

/-- A pass, taken in another order. -/
theorem forall₂_perm {R : ReplicaSet → ReplicaSet → Prop} {before after after' : List ReplicaSet}
    (h : List.Forall₂ R before after) (hperm : after.Perm after') :
    ∃ sets, sets.Perm before ∧ List.Forall₂ R sets after' := by
  have hcomp : Relation.Comp (List.Forall₂ R) List.Perm before after' := ⟨after, h, hperm⟩
  rw [List.forall₂_comp_perm_eq_perm_comp_forall₂] at hcomp
  obtain ⟨sets, hsets, hforall⟩ := hcomp
  exact ⟨sets, hsets.symm, hforall⟩

/-- What a step on the old ReplicaSets comes to. -/
structure OldScaled (deployment : Deployment) (newRS : ReplicaSet)
    (before after : List ReplicaSet) : Prop where
  shrunk : ∃ sets, sets.Perm before ∧ List.Forall₂ (Shrunk fun _ => 0) sets after
  available : min (deployment.desired - maxUnavailable deployment)
      (getAvailableReplicaCountForReplicaSets before + newRS.available)
    ≤ (after.map ReplicaSet.kept).sum + newRS.available

theorem Shrunk.weaken {floor : ReplicaSet → Int} {a b : ReplicaSet} (h : Shrunk floor a b)
    (hfloor : 0 ≤ floor a) : Shrunk (fun _ => 0) a b :=
  ⟨h.resized, Int.le_trans hfloor h.floor_le, h.le⟩

theorem forall₂_mem {R : ReplicaSet → ReplicaSet → Prop} {before after : List ReplicaSet}
    (h : List.Forall₂ R before after) : ∀ b ∈ after, ∃ a ∈ before, R a b := by
  induction h with
  | nil => simp
  | cons hab _ ih =>
    intro b hb
    rcases List.mem_cons.mp hb with rfl | hb
    · exact ⟨_, List.mem_cons_self, hab⟩
    · obtain ⟨a, ha, hrel⟩ := ih b hb
      exact ⟨a, List.mem_cons_of_mem _ ha, hrel⟩

/-- The cleanup of unhealthy replicas costs no available one. -/
theorem cleanupUnhealthyReplicas_spec {oldReplicaSets : List ReplicaSet}
    (hcounted : ∀ rs ∈ oldReplicaSets, Counted rs) (maxCleanupCount : Int) :
    List.Forall₂ (Shrunk ReplicaSet.available) (sortByCreationTimestamp locale oldReplicaSets)
      (cleanupUnhealthyReplicas locale refuses oldReplicaSets maxCleanupCount).replicaSets := by
  have hsorted : ∀ rs ∈ sortByCreationTimestamp locale oldReplicaSets, Counted rs :=
    fun rs hrs => hcounted rs ((sortByCreationTimestamp_perm locale _).mem_iff.mp hrs)
  refine (scaleDownLoop_spec (fun rs hrs => (hsorted rs hrs).2) (fun rs hrs => ?_) 0).1
  have := hsorted rs hrs
  unfold Counted at this
  omega

theorem kept_of_shrunk_available {before after : List ReplicaSet}
    (h : List.Forall₂ (Shrunk ReplicaSet.available) before after) :
    getAvailableReplicaCountForReplicaSets after
      = getAvailableReplicaCountForReplicaSets before := by
  induction h with
  | nil => rfl
  | cons hab _ ih =>
    rw [getAvailableReplicaCountForReplicaSets_cons, getAvailableReplicaCountForReplicaSets_cons,
      hab.resized.available, ih]

theorem count_le_of_shrunk {floor : ReplicaSet → Int} {before after : List ReplicaSet}
    (h : List.Forall₂ (Shrunk floor) before after) :
    getReplicaCountForReplicaSets after ≤ getReplicaCountForReplicaSets before := by
  induction h with
  | nil => simp
  | cons hab _ ih =>
    have hle := hab.le
    rw [getReplicaCountForReplicaSets_cons, getReplicaCountForReplicaSets_cons]
    omega

theorem kept_sum_of_counted {replicaSets : List ReplicaSet}
    (h : ∀ rs ∈ replicaSets, rs.available ≤ rs.size) :
    (replicaSets.map ReplicaSet.kept).sum = getAvailableReplicaCountForReplicaSets replicaSets := by
  refine congrArg List.sum (List.map_congr_left fun rs hrs => ?_)
  exact min_eq_left (h rs hrs)

/-- The scale-down leaves the pods that must stay available. -/
theorem scaleDownOldReplicaSets_spec {newRS : ReplicaSet} {oldReplicaSets : List ReplicaSet}
    (hcounted : ∀ rs ∈ oldReplicaSets, Counted rs) :
    OldScaled deployment newRS oldReplicaSets
      (scaleDownOldReplicaSetsForRollingUpdate locale refuses (oldReplicaSets ++ [newRS])
        oldReplicaSets deployment).replicaSets := by
  have hcount : getAvailableReplicaCountForReplicaSets (oldReplicaSets ++ [newRS])
      = getAvailableReplicaCountForReplicaSets oldReplicaSets + newRS.available := by simp
  unfold scaleDownOldReplicaSetsForRollingUpdate
  rw [hcount]
  dsimp only
  split
  · refine ⟨⟨oldReplicaSets, .refl _, forall₂_shrunk_refl fun rs hrs => ?_⟩, ?_⟩
    · have := hcounted rs hrs
      unfold Counted at this
      omega
    · rw [kept_sum_of_counted fun rs hrs => (hcounted rs hrs).2]
      omega
  · have hperm := sortByCreationTimestamp_perm locale oldReplicaSets
    have hsorted : ∀ rs ∈ sortByCreationTimestamp locale oldReplicaSets, Counted rs :=
      fun rs hrs => hcounted rs (hperm.mem_iff.mp hrs)
    have hsize : ∀ rs ∈ sortByCreationTimestamp locale oldReplicaSets, 0 ≤ rs.size :=
      fun rs hrs => Int.le_trans (hsorted rs hrs).1 (hsorted rs hrs).2
    obtain ⟨hshrunk, htotal⟩ := @scaleDownLoop_spec refuses (js "when scaling down old RS")
      (fun rs => decide (rs.size = 0)) (fun rs => rs.size) (fun _ => 0)
      (getAvailableReplicaCountForReplicaSets oldReplicaSets + newRS.available
        - (deployment.desired - maxUnavailable deployment))
      _ hsize (fun rs hrs => ⟨hsize rs hrs, by omega⟩) 0
    refine ⟨⟨_, hperm, hshrunk⟩, ?_⟩
    have hkept := kept_of_shrunk hshrunk fun rs hrs => (hsorted rs hrs).2
    rw [getAvailableReplicaCountForReplicaSets_perm hperm] at hkept
    omega

theorem OldScaled.refl {newRS : ReplicaSet} {oldReplicaSets : List ReplicaSet}
    (hcounted : ∀ rs ∈ oldReplicaSets, Counted rs) :
    OldScaled deployment newRS oldReplicaSets oldReplicaSets where
  shrunk := ⟨oldReplicaSets, .refl _,
    forall₂_shrunk_refl fun rs hrs => Int.le_trans (hcounted rs hrs).1 (hcounted rs hrs).2⟩
  available := by
    rw [kept_sum_of_counted fun rs hrs => (hcounted rs hrs).2]
    omega

/-- **The old ReplicaSets.** A step scales them down only, and leaves the
pods that must stay available. -/
theorem reconcileOldReplicaSets_spec {newRS : ReplicaSet}
    {allReplicaSets oldReplicaSets : List ReplicaSet}
    (hcounted : ∀ rs ∈ oldReplicaSets, Counted rs) :
    OldScaled deployment newRS oldReplicaSets
      (reconcileOldReplicaSets locale refuses allReplicaSets oldReplicaSets newRS deployment).2 := by
  unfold reconcileOldReplicaSets
  dsimp only
  split
  · exact .refl hcounted
  · split
    · exact .refl hcounted
    · generalize getReplicaCountForReplicaSets allReplicaSets
        - (deployment.desired - maxUnavailable deployment) - (newRS.size - newRS.available)
        = maxScaledDown
      have hperm := sortByCreationTimestamp_perm locale oldReplicaSets
      have hsorted : ∀ rs ∈ sortByCreationTimestamp locale oldReplicaSets, Counted rs :=
        fun rs hrs => hcounted rs (hperm.mem_iff.mp hrs)
      have hclean : List.Forall₂ (Shrunk ReplicaSet.available)
          (sortByCreationTimestamp locale oldReplicaSets)
          (cleanupUnhealthyReplicas locale refuses oldReplicaSets maxScaledDown).replicaSets :=
        cleanupUnhealthyReplicas_spec hcounted maxScaledDown
      generalize cleanupUnhealthyReplicas locale refuses oldReplicaSets maxScaledDown = cleanup
        at hclean
      have havailable : getAvailableReplicaCountForReplicaSets cleanup.replicaSets
          = getAvailableReplicaCountForReplicaSets oldReplicaSets := by
        rw [kept_of_shrunk_available hclean, getAvailableReplicaCountForReplicaSets_perm hperm]
      have hcounted' : ∀ rs ∈ cleanup.replicaSets, Counted rs := by
        intro rs hrs
        obtain ⟨a, ha, hrel⟩ := forall₂_mem hclean rs hrs
        unfold Counted
        rw [hrel.resized.available]
        exact ⟨(hsorted a ha).1, hrel.floor_le⟩
      have hweak : List.Forall₂ (Shrunk fun _ => 0) (sortByCreationTimestamp locale oldReplicaSets)
          cleanup.replicaSets :=
        ((List.forall₂_and_left _ _).mpr ⟨hsorted, hclean⟩).imp fun a b h => h.2.weaken h.1.1
      split
      · refine ⟨⟨_, hperm, hweak⟩, ?_⟩
        rw [kept_sum_of_counted fun rs hrs => (hcounted' rs hrs).2, havailable]
        omega
      · have hdown : OldScaled deployment newRS cleanup.replicaSets
            (scaleDownOldReplicaSetsForRollingUpdate locale refuses
              (cleanup.replicaSets ++ [newRS]) cleanup.replicaSets deployment).replicaSets :=
          scaleDownOldReplicaSets_spec hcounted'
        have hout : OldScaled deployment newRS oldReplicaSets
            (scaleDownOldReplicaSetsForRollingUpdate locale refuses
              (cleanup.replicaSets ++ [newRS]) cleanup.replicaSets deployment).replicaSets := by
          obtain ⟨⟨sets, hsets, hshrunk⟩, hkept⟩ := hdown
          obtain ⟨sets', hsets', hshrunk'⟩ := forall₂_perm hweak hsets.symm
          refine ⟨⟨sets', hsets'.trans hperm, ?_⟩, by rwa [havailable] at hkept⟩
          refine forall₂_comp (fun a b c hab hbc => ?_) hshrunk' hshrunk
          exact ⟨hab.resized.trans hbc.resized, hbc.floor_le, Int.le_trans hbc.le hab.le⟩
        split
        · exact hout
        · exact hout

/-- What a rolling rollout must keep to in a step. -/
structure Safe (deployment : Deployment) (before after : Rollout) : Prop where
  /-- The ReplicaSets are the same but for their sizes. -/
  resized : ∃ sets, sets.Perm before.allRSs ∧ List.Forall₂ Resized sets after.allRSs
  total : getReplicaCountForReplicaSets after.allRSs
    ≤ max (getReplicaCountForReplicaSets before.allRSs) (deployment.desired + maxSurge deployment)
  newRS : after.newRS = before.newRS ∨ after.newRS.size ≤ deployment.desired
  nonneg : ∀ rs ∈ after.allRSs, 0 ≤ rs.size
  available : min (deployment.desired - maxUnavailable deployment)
      (getAvailableReplicaCountForReplicaSets before.allRSs)
    ≤ (after.allRSs.map ReplicaSet.kept).sum

theorem forall₂_resized_refl : ∀ replicaSets : List ReplicaSet,
    List.Forall₂ Resized replicaSets replicaSets
  | [] => .nil
  | rs :: rest => .cons (.refl rs) (forall₂_resized_refl rest)

/-- The new ReplicaSet is scaled, the old ones stay. -/
theorem safe_newRS {r : Rollout} (h : deployment.Rolling) (hcounted : ∀ rs ∈ r.allRSs, Counted rs)
    {size : Int} (hsize : (size = deployment.desired ∧ deployment.desired < r.newRS.size) ∨
      (r.newRS.size < size ∧ size ≤ deployment.desired
        ∧ getReplicaCountForReplicaSets r.allRSs + (size - r.newRS.size)
          ≤ deployment.desired + maxSurge deployment)) :
    Safe deployment r { r with newRS := { r.newRS with replicas := some size } } := by
  obtain ⟨surge, -, -, -, hunavailable, -⟩ := h.bounds
  have hnew : Counted r.newRS := hcounted r.newRS (by simp [Rollout.allRSs])
  have hold : ∀ rs ∈ r.oldRSs, Counted rs := fun rs hrs => hcounted rs (by simp [Rollout.allRSs, hrs])
  have hdesired := h.desired_nonneg
  have hnewsize : ({ r.newRS with replicas := some size } : ReplicaSet).size = size := rfl
  have hnewavailable : ({ r.newRS with replicas := some size } : ReplicaSet).available
      = r.newRS.available := rfl
  have hkept := kept_sum_of_counted fun rs hrs => (hold rs hrs).2
  have holdavailable := getAvailableReplicaCountForReplicaSets_nonneg hold
  unfold Counted at hnew
  refine ⟨⟨r.allRSs, .refl _, ?_⟩, ?_, .inr (by rw [hnewsize]; omega), fun rs hrs => ?_, ?_⟩
  · exact List.rel_append (forall₂_resized_refl _) (.cons (.inr rfl) .nil)
  · simp only [Rollout.allRSs, getReplicaCountForReplicaSets_append,
      getReplicaCountForReplicaSets_cons, getReplicaCountForReplicaSets_nil, hnewsize] at hsize ⊢
    omega
  · simp only [Rollout.allRSs, List.mem_append, List.mem_singleton] at hrs
    rcases hrs with hrs | rfl
    · exact Int.le_trans (hold rs hrs).1 (hold rs hrs).2
    · rw [hnewsize]
      omega
  · simp only [Rollout.allRSs, getAvailableReplicaCountForReplicaSets_append,
      getAvailableReplicaCountForReplicaSets_cons, getAvailableReplicaCountForReplicaSets_nil,
      List.map_append, List.sum_append, List.map_cons, List.map_nil, List.sum_cons, List.sum_nil,
      hkept, ReplicaSet.kept, hnewsize, hnewavailable]
    omega

/-- The old ReplicaSets that are active are scaled down, the others
stay. -/
theorem safe_oldRSs {r : Rollout} (hcounted : ∀ rs ∈ r.allRSs, Counted rs)
    {active inactive after : List ReplicaSet} (hsplit : (inactive ++ active).Perm r.oldRSs)
    (hafter : OldScaled deployment r.newRS active after) :
    Safe deployment r { r with oldRSs := inactive ++ after } := by
  have hnew : Counted r.newRS := hcounted r.newRS (by simp [Rollout.allRSs])
  have hold : ∀ rs ∈ inactive ++ active, Counted rs := by
    intro rs hrs
    exact hcounted rs (List.mem_append_left _ (hsplit.mem_iff.mp hrs))
  have hinactive : ∀ rs ∈ inactive, Counted rs := fun rs hrs => hold rs (List.mem_append_left _ hrs)
  obtain ⟨⟨sets, hsets, hshrunk⟩, hkept⟩ := hafter
  have hcount : getReplicaCountForReplicaSets after ≤ getReplicaCountForReplicaSets active := by
    rw [← getReplicaCountForReplicaSets_perm hsets]
    exact count_le_of_shrunk hshrunk
  have hold' := getAvailableReplicaCountForReplicaSets_perm hsplit
  have hcount' := getReplicaCountForReplicaSets_perm hsplit
  have hkept' := kept_sum_of_counted fun rs hrs => (hinactive rs hrs).2
  have hnewkept : r.newRS.kept = r.newRS.available := min_eq_left hnew.2
  refine ⟨⟨inactive ++ sets ++ [r.newRS], ?_, ?_⟩, ?_, .inl rfl, fun rs hrs => ?_, ?_⟩
  · exact ((hsets.append_left inactive).trans hsplit).append_right _
  · exact List.rel_append (List.rel_append (forall₂_resized_refl _)
      (hshrunk.imp fun _ _ h => h.resized)) (forall₂_resized_refl _)
  · simp only [Rollout.allRSs, getReplicaCountForReplicaSets_append] at hcount' ⊢
    omega
  · simp only [Rollout.allRSs, List.mem_append, List.mem_singleton] at hrs
    rcases hrs with (hrs | hrs) | rfl
    · exact Int.le_trans (hinactive rs hrs).1 (hinactive rs hrs).2
    · obtain ⟨a, -, hrel⟩ := forall₂_mem hshrunk rs hrs
      exact hrel.floor_le
    · exact Int.le_trans hnew.1 hnew.2
  · simp only [Rollout.allRSs, getAvailableReplicaCountForReplicaSets_append,
      getAvailableReplicaCountForReplicaSets_cons, getAvailableReplicaCountForReplicaSets_nil,
      List.map_append, List.sum_append, List.map_cons, List.map_nil, List.sum_cons, List.sum_nil,
      hkept', hnewkept] at hold' ⊢
    have hnonneg := getAvailableReplicaCountForReplicaSets_nonneg hinactive
    omega

theorem safe_rolloutRolling (h : deployment.Rolling) {r : Rollout}
    (hcounted : ∀ rs ∈ r.allRSs, Counted rs) :
    Safe deployment r (rolloutRolling locale refuses deployment r) := by
  have hsplit : (r.oldRSs.filter (fun rs => !decide (0 < rs.replicas.getD 0))
      ++ filterActiveReplicaSets r.oldRSs).Perm r.oldRSs :=
    List.perm_append_comm.trans (List.filter_append_perm _ _)
  have hactive : ∀ rs ∈ filterActiveReplicaSets r.oldRSs, Counted rs := fun rs hrs =>
    hcounted rs (List.mem_append_left _ (List.mem_filter.mp hrs).1)
  unfold rolloutRolling
  dsimp only
  rcases reconcileNewReplicaSet_cases h r.allRSs r.newRS with ⟨hsame, hscaled⟩ |
    ⟨hscaled, size, hset, hsize⟩
  · rw [hsame, hscaled, Bool.or_false]
    split
    · have hstay : Safe deployment r { r with oldRSs := r.oldRSs ++ [] } :=
        safe_oldRSs hcounted (by simp) (.refl (by simp))
      simpa using hstay
    · exact safe_oldRSs hcounted hsplit (reconcileOldReplicaSets_spec hactive)
  · rw [hscaled, hset, Bool.or_true, if_pos rfl]
    exact safe_newRS h hcounted hsize

/-- **A rolling step is safe.** Whatever updates the API refuses, a
reconcile step of a rolling rollout does not raise the total above the
surge, does not scale the new ReplicaSet above the desired size, makes no
size negative, and leaves the pods available that must stay so. -/
theorem rolloutRolling_safe (locale : Etcd.Locale) (refuses : ReplicaSet → Option JsString)
    {deployment : Deployment} (h : deployment.Rolling) {r : Rollout}
    (hcounted : ∀ rs ∈ r.allRSs, Counted rs) :
    Safe deployment r (rolloutRolling locale refuses deployment r) :=
  safe_rolloutRolling h hcounted

/-- Four replicas, a quarter of them as surge, none unavailable. -/
def quarterSurge : Deployment where
  replicas := some 4
  strategyType := some .rollingUpdate
  rollingUpdate := some { maxSurge := some (.string (js "25%")), maxUnavailable := some (.number 0) }

theorem quarterSurge_rolling : quarterSurge.Rolling where
  rolling := rfl
  desired_nonneg := by decide
  maxSurge_nonneg := by
    rintro v ⟨⟩
    exact ⟨25, true, by decide, by decide⟩
  maxUnavailable_nonneg := by
    rintro v ⟨⟩
    exact ⟨0, false, rfl, by decide⟩

/-- A rollout just begun: four old replicas, one of them not available. -/
def justBegun : Rollout where
  newRS := { name := some (js "new"), replicas := some 0 }
  oldRSs := [{ name := some (js "old"), replicas := some 4, availableReplicas := some 3 }]

theorem rolloutRolling_safe_justBegun : Safe quarterSurge justBegun
    (rolloutRolling Etcd.rootLocale (fun _ => none) quarterSurge justBegun) :=
  rolloutRolling_safe Etcd.rootLocale (fun _ => none) quarterSurge_rolling (by
    unfold Counted
    decide)

/-! ## Progress -/

/-- A ReplicaSet as the API stores it, with a name and a size, all of its
replicas available. -/
structure Settled (rs : ReplicaSet) : Prop where
  named : rs.name.getD [] ≠ []
  sized : rs.replicas.isSome
  nonneg : 0 ≤ rs.size
  available : rs.available = rs.size

/-- The rollout is finished: all replicas are the new ReplicaSet's. -/
def Rollout.Finished (deployment : Deployment) (r : Rollout) : Prop :=
  r.newRS.size = deployment.desired ∧ ∀ rs ∈ r.oldRSs, rs.size = 0

/-- What is left to do in a rollout. -/
def Rollout.remaining (deployment : Deployment) (r : Rollout) : Nat :=
  (getReplicaCountForReplicaSets r.oldRSs).toNat + (deployment.desired - r.newRS.size).natAbs

theorem Settled.counted {rs : ReplicaSet} (h : Settled rs) : Counted rs :=
  ⟨h.available ▸ h.nonneg, Int.le_of_eq h.available⟩

theorem available_of_settled {replicaSets : List ReplicaSet} (h : ∀ rs ∈ replicaSets, Settled rs) :
    getAvailableReplicaCountForReplicaSets replicaSets
      = getReplicaCountForReplicaSets replicaSets :=
  congrArg List.sum (List.map_congr_left fun rs hrs => (h rs hrs).available)

theorem count_nonneg {replicaSets : List ReplicaSet} (h : ∀ rs ∈ replicaSets, Settled rs) :
    0 ≤ getReplicaCountForReplicaSets replicaSets :=
  available_of_settled h ▸
    getAvailableReplicaCountForReplicaSets_nonneg fun rs hrs => (h rs hrs).counted

/-- Empty ReplicaSets count for nothing, and only they do. -/
theorem count_eq_zero_iff {replicaSets : List ReplicaSet} (h : ∀ rs ∈ replicaSets, Settled rs) :
    getReplicaCountForReplicaSets replicaSets = 0 ↔ ∀ rs ∈ replicaSets, rs.size = 0 := by
  induction replicaSets with
  | nil => simp
  | cons rs rest ih =>
    have hrest := fun r hr => h r (List.mem_cons_of_mem rs hr)
    have hrs := (h rs List.mem_cons_self).nonneg
    have hcount := count_nonneg hrest
    rw [getReplicaCountForReplicaSets_cons, List.forall_mem_cons, ← ih hrest]
    omega

/-- Among stored ReplicaSets, those that are not active are empty. -/
theorem count_filterActive {replicaSets : List ReplicaSet} (h : ∀ rs ∈ replicaSets, Settled rs) :
    getReplicaCountForReplicaSets (filterActiveReplicaSets replicaSets)
      = getReplicaCountForReplicaSets replicaSets := by
  induction replicaSets with
  | nil => rfl
  | cons rs rest ih =>
    have hrest := ih fun r hr => h r (List.mem_cons_of_mem _ hr)
    obtain ⟨-, hsized, hnonneg, -⟩ := h rs List.mem_cons_self
    obtain ⟨size, hsize⟩ := Option.isSome_iff_exists.mp hsized
    have hrs : rs.size = rs.replicas.getD 0 := by simp [ReplicaSet.size, hsize]
    unfold filterActiveReplicaSets at hrest ⊢
    rw [List.filter_cons, getReplicaCountForReplicaSets_cons]
    split
    · rw [getReplicaCountForReplicaSets_cons, hrest]
    · rename_i hinactive
      rw [decide_eq_true_eq, ← hrs] at hinactive
      omega

/-- A pass that skips every ReplicaSet does nothing. -/
theorem scaleDownLoop_of_skip {complaint : JsString} {skip : ReplicaSet → Bool}
    {room : ReplicaSet → Int} {limit : Int} {replicaSets : List ReplicaSet}
    (h : ∀ rs ∈ replicaSets, skip rs = true) (total : Int) :
    scaleDownLoop refuses complaint skip room limit replicaSets total
      = { replicaSets, totalScaledDown := total, err := none } := by
  induction replicaSets with
  | nil => rfl
  | cons rs rest ih =>
    rw [scaleDownLoop, ih fun r hr => h r (List.mem_cons_of_mem _ hr), h rs List.mem_cons_self]
    split
    · rfl
    · rfl

/-- With something left of its limit, the second pass takes something off
when there is something. -/
theorem scaleDownLoop_lt (complaint : JsString) {limit : Int} {replicaSets : List ReplicaSet}
    (h : ∀ rs ∈ replicaSets, Settled rs) {total : Int} (hlimit : total < limit)
    (hcount : getReplicaCountForReplicaSets replicaSets ≠ 0) :
    getReplicaCountForReplicaSets (scaleDownLoop (fun _ => none) complaint
        (fun rs => decide (rs.size = 0)) (fun rs => rs.size) limit replicaSets total).replicaSets
      < getReplicaCountForReplicaSets replicaSets := by
  induction replicaSets with
  | nil => simp at hcount
  | cons rs rest ih =>
    have hrest := fun r hr => h r (List.mem_cons_of_mem rs hr)
    obtain ⟨hnamed, -, hnonneg, -⟩ := h rs List.mem_cons_self
    rw [scaleDownLoop, if_neg (by omega)]
    by_cases hempty : rs.size = 0
    · rw [getReplicaCountForReplicaSets_cons, hempty, Int.zero_add] at hcount
      have hlt := ih hrest hcount
      simp only [hempty, decide_true, if_true, Pass.cons, getReplicaCountForReplicaSets_cons]
      omega
    · have hscale := scaleReplicaSet_of_named hnamed
        (show rs.size ≠ rs.size - min (limit - total) rs.size by omega)
      have hpass := @scaleDownLoop_spec (fun _ => none) complaint (fun rs => decide (rs.size = 0))
        (fun rs => rs.size) (fun _ => 0) limit rest (fun r hr => (hrest r hr).nonneg)
        (fun r hr => ⟨(hrest r hr).nonneg, by omega⟩) (total + min (limit - total) rs.size)
      have hle := count_le_of_shrunk hpass.1
      have hsize : ({ rs with replicas := some (rs.size - min (limit - total) rs.size) }
          : ReplicaSet).size = rs.size - min (limit - total) rs.size := rfl
      rw [if_neg (by simpa using hempty)]
      dsimp only
      rw [if_neg (by omega), hscale]
      simp only [Pass.cons, getReplicaCountForReplicaSets_cons, hsize]
      omega

/-- The old ReplicaSets of a settled rollout are scaled down when there
are more pods than must stay available. -/
theorem reconcileOldReplicaSets_lt {allReplicaSets oldReplicaSets : List ReplicaSet}
    {newRS : ReplicaSet} (hold : ∀ rs ∈ oldReplicaSets, Settled rs) (hnew : Settled newRS)
    (hall : getReplicaCountForReplicaSets allReplicaSets
      = getReplicaCountForReplicaSets oldReplicaSets + newRS.size)
    (hcount : getReplicaCountForReplicaSets oldReplicaSets ≠ 0)
    (hroom : deployment.desired - maxUnavailable deployment
      < getReplicaCountForReplicaSets allReplicaSets) :
    getReplicaCountForReplicaSets (reconcileOldReplicaSets locale (fun _ => none) allReplicaSets
        oldReplicaSets newRS deployment).2
      < getReplicaCountForReplicaSets oldReplicaSets := by
  have hperm := sortByCreationTimestamp_perm locale oldReplicaSets
  have hsorted : ∀ rs ∈ sortByCreationTimestamp locale oldReplicaSets, Settled rs :=
    fun rs hrs => hold rs (hperm.mem_iff.mp hrs)
  have hperm' := (sortByCreationTimestamp_perm locale
    (sortByCreationTimestamp locale oldReplicaSets)).trans hperm
  have hclean : ∀ maxCleanupCount, cleanupUnhealthyReplicas locale (fun _ => none) oldReplicaSets
      maxCleanupCount = { replicaSets := sortByCreationTimestamp locale oldReplicaSets
                          totalScaledDown := 0, err := none } :=
    fun _ => scaleDownLoop_of_skip (fun rs hrs => by simp [(hsorted rs hrs).available]) 0
  have havailable : getAvailableReplicaCountForReplicaSets
        (sortByCreationTimestamp locale oldReplicaSets ++ [newRS])
      = getReplicaCountForReplicaSets allReplicaSets := by
    rw [getAvailableReplicaCountForReplicaSets_append, available_of_settled hsorted,
      getReplicaCountForReplicaSets_perm hperm, hall]
    simp [hnew.available]
  have hlt := scaleDownLoop_lt (js "when scaling down old RS")
    (fun rs hrs => hold rs (hperm'.mem_iff.mp hrs))
    (show 0 < getReplicaCountForReplicaSets allReplicaSets
      - (deployment.desired - maxUnavailable deployment) by omega)
    (by rwa [getReplicaCountForReplicaSets_perm hperm'])
  rw [getReplicaCountForReplicaSets_perm hperm'] at hlt
  have hdown : scaleDownOldReplicaSetsForRollingUpdate locale (fun _ => none)
        (sortByCreationTimestamp locale oldReplicaSets ++ [newRS])
        (sortByCreationTimestamp locale oldReplicaSets) deployment
      = scaleDownLoop (fun _ => none) (js "when scaling down old RS")
          (fun rs => decide (rs.size = 0)) (fun rs => rs.size)
          (getReplicaCountForReplicaSets allReplicaSets
            - (deployment.desired - maxUnavailable deployment))
          (sortByCreationTimestamp locale (sortByCreationTimestamp locale oldReplicaSets)) 0 := by
    unfold scaleDownOldReplicaSetsForRollingUpdate
    dsimp only
    rw [havailable, if_neg (by omega)]
  have hnewavailable := hnew.available
  simp only [reconcileOldReplicaSets, if_neg hcount, hclean, hdown, Option.isSome_none,
    Bool.false_eq_true, if_false]
  rw [if_neg (by omega)]
  split
  · exact hlt
  · exact hlt

/-- What a step on the new ReplicaSet comes to when the API refuses
nothing. -/
theorem reconcileNewReplicaSet_of_named (h : deployment.Rolling)
    (allReplicaSets : List ReplicaSet) {newRS : ReplicaSet} (hname : newRS.name.getD [] ≠ []) :
    (reconcileNewReplicaSet (fun _ => none) allReplicaSets newRS deployment
        = { scaled := false, replicaSet := newRS, err := none }
      ∧ (newRS.size = deployment.desired ∨ (newRS.size < deployment.desired
        ∧ deployment.desired + maxSurge deployment
          ≤ getReplicaCountForReplicaSets allReplicaSets))) ∨
    ∃ size, reconcileNewReplicaSet (fun _ => none) allReplicaSets newRS deployment
        = { scaled := true, replicaSet := { newRS with replicas := some size }, err := none }
      ∧ (size = deployment.desired ∧ deployment.desired < newRS.size ∨
        newRS.size < size ∧ size ≤ deployment.desired) := by
  unfold reconcileNewReplicaSet
  dsimp only
  split
  · exact .inl ⟨rfl, .inl ‹_›⟩
  · split
    · exact .inr ⟨_, scaleReplicaSet_of_named hname ‹_›, .inl ⟨rfl, ‹_›⟩⟩
    · rw [h.newRSNewReplicas_eq]
      dsimp only
      split
      · refine .inl ⟨?_, .inr ⟨by omega, ‹_›⟩⟩
        simp [scaleReplicaSet]
      · exact .inr ⟨_, scaleReplicaSet_of_named hname (by omega), .inr (by omega)⟩

/-- A step changes the size of the new ReplicaSet or the old ones. -/
def Rollout.Changed (before after : Rollout) : Prop :=
  after.newRS.size ≠ before.newRS.size
    ∨ getReplicaCountForReplicaSets after.oldRSs < getReplicaCountForReplicaSets before.oldRSs

/-- **A step gets on** while a rollout is not finished. -/
theorem step_progress (locale : Etcd.Locale) (h : deployment.Rolling) {r : Rollout}
    (hsettled : ∀ rs ∈ r.allRSs, Settled rs) (hunfinished : ¬ r.Finished deployment) :
    r.Changed (rolloutRolling locale (fun _ => none) deployment r)
      ∧ (rolloutRolling locale (fun _ => none) deployment r).remaining deployment
        < r.remaining deployment := by
  have hnew : Settled r.newRS := hsettled r.newRS (by simp [Rollout.allRSs])
  have hold : ∀ rs ∈ r.oldRSs, Settled rs := fun rs hrs =>
    hsettled rs (List.mem_append_left _ hrs)
  have hactive : ∀ rs ∈ filterActiveReplicaSets r.oldRSs, Settled rs := fun rs hrs =>
    hold rs (List.mem_filter.mp hrs).1
  have hinactive : ∀ rs ∈ r.oldRSs.filter (fun rs => !decide (0 < rs.replicas.getD 0)), Settled rs :=
    fun rs hrs => hold rs (List.mem_filter.mp hrs).1
  have hsplit : (r.oldRSs.filter (fun rs => !decide (0 < rs.replicas.getD 0))
      ++ filterActiveReplicaSets r.oldRSs).Perm r.oldRSs :=
    List.perm_append_comm.trans (List.filter_append_perm _ _)
  have hcount := count_nonneg hold
  have hcountsplit := getReplicaCountForReplicaSets_perm hsplit
  rw [getReplicaCountForReplicaSets_append, count_filterActive hold] at hcountsplit
  have hall : getReplicaCountForReplicaSets r.allRSs
      = getReplicaCountForReplicaSets r.oldRSs + r.newRS.size := by simp [Rollout.allRSs]
  obtain ⟨surge, -, hsurge, hsurge0, hunavailable0, hunavailable, hsome⟩ := h.bounds
  have hdesired := h.desired_nonneg
  have hnewnonneg := hnew.nonneg
  unfold rolloutRolling
  dsimp only
  rcases reconcileNewReplicaSet_of_named h r.allRSs hnew.named with
    ⟨hsame, hstays⟩ | ⟨size, hset, hsize⟩
  · -- The new ReplicaSet has its size or no room to grow, so there are old pods to take off.
    have hunfinished' : r.newRS.size = deployment.desired →
        getReplicaCountForReplicaSets r.oldRSs ≠ 0 := fun heq hzero =>
      hunfinished ⟨heq, (count_eq_zero_iff hold).mp hzero⟩
    have hroom : deployment.desired - maxUnavailable deployment
        < getReplicaCountForReplicaSets r.allRSs := by omega
    have hlt : getReplicaCountForReplicaSets (reconcileOldReplicaSets locale (fun _ => none) r.allRSs
          (filterActiveReplicaSets r.oldRSs) r.newRS deployment).2
        < getReplicaCountForReplicaSets (filterActiveReplicaSets r.oldRSs) :=
      reconcileOldReplicaSets_lt hactive hnew (by rw [count_filterActive hold, hall])
        (by rw [count_filterActive hold]; omega) hroom
    rw [count_filterActive hold] at hlt
    rw [hsame]
    simp only [Option.isSome_none, Bool.or_false, Bool.false_eq_true, if_false]
    unfold Rollout.Changed Rollout.remaining
    simp only [getReplicaCountForReplicaSets_append]
    exact ⟨.inr (by omega), by omega⟩
  · have hnewsize : ({ r.newRS with replicas := some size } : ReplicaSet).size = size := rfl
    rw [hset]
    simp only [Option.isSome_none, Bool.or_true, if_true]
    unfold Rollout.Changed Rollout.remaining
    dsimp only
    rw [hnewsize]
    exact ⟨.inl (by omega), by omega⟩

/-- All replicas of a ReplicaSet become available. -/
def ReplicaSet.becomeAvailable (rs : ReplicaSet) : ReplicaSet :=
  { rs with availableReplicas := some rs.size }

/-- A step, after which all replicas become available. -/
def round (locale : Etcd.Locale) (deployment : Deployment) (r : Rollout) : Rollout :=
  let after := rolloutRolling locale (fun _ => none) deployment r
  { newRS := after.newRS.becomeAvailable, oldRSs := after.oldRSs.map ReplicaSet.becomeAvailable }

theorem becomeAvailable_settled {a b : ReplicaSet} (ha : Settled a) (hab : Resized a b)
    (hb : 0 ≤ b.size) : Settled b.becomeAvailable := by
  have hnamed : b.name = a.name := by
    rcases hab with h | h
    · rw [h]
    · rw [h]
  have hsized : b.replicas.isSome := by
    rcases hab with h | h
    · rw [h]
      exact ha.sized
    · rw [h]
      rfl
  exact ⟨hnamed ▸ ha.named, hsized, hb, rfl⟩

theorem round_allRSs (r : Rollout) : (round locale deployment r).allRSs
    = (rolloutRolling locale (fun _ => none) deployment r).allRSs.map
        ReplicaSet.becomeAvailable := by
  simp [round, Rollout.allRSs]

theorem round_settled (locale : Etcd.Locale) (h : deployment.Rolling) {r : Rollout}
    (hsettled : ∀ rs ∈ r.allRSs, Settled rs) :
    ∀ rs ∈ (round locale deployment r).allRSs, Settled rs := by
  have hsafe : Safe deployment r (rolloutRolling locale (fun _ => none) deployment r) :=
    safe_rolloutRolling h fun rs hrs => (hsettled rs hrs).counted
  obtain ⟨sets, hsets, hresized⟩ := hsafe.resized
  rw [round_allRSs]
  intro rs hrs
  obtain ⟨b, hb, rfl⟩ := List.mem_map.mp hrs
  obtain ⟨a, ha, hab⟩ := forall₂_mem hresized b hb
  exact becomeAvailable_settled (hsettled a (hsets.mem_iff.mp ha)) hab (hsafe.nonneg b hb)

theorem round_remaining (r : Rollout) : (round locale deployment r).remaining deployment
    = (rolloutRolling locale (fun _ => none) deployment r).remaining deployment := by
  simp only [round, Rollout.remaining, getReplicaCountForReplicaSets, List.map_map]
  rfl

/-- From any settled rollout on, enough rounds finish it. -/
theorem exists_finished (h : deployment.Rolling) : ∀ (n : Nat) {r : Rollout},
    (∀ rs ∈ r.allRSs, Settled rs) → r.remaining deployment ≤ n →
    ∃ rounds, ((round locale deployment)^[rounds] r).Finished deployment := by
  intro n
  induction n with
  | zero =>
    intro r hsettled hremaining
    by_cases hfinished : r.Finished deployment
    · exact ⟨0, hfinished⟩
    · have hlt := (step_progress locale h hsettled hfinished).2
      omega
  | succ n ih =>
    intro r hsettled hremaining
    by_cases hfinished : r.Finished deployment
    · exact ⟨0, hfinished⟩
    · have hlt := (step_progress locale h hsettled hfinished).2
      rw [← round_remaining] at hlt
      obtain ⟨rounds, hrounds⟩ := ih (round_settled locale h hsettled) (by omega)
      exact ⟨rounds + 1, by rwa [Function.iterate_succ_apply]⟩

/-- **A rollout gets on and ends.** With all ReplicaSets fully available,
a step of an unfinished rolling rollout changes the size of a ReplicaSet,
and step after step, all replicas becoming available in between, the
rollout is finished. -/
theorem rolloutRolling_finishes (locale : Etcd.Locale) {deployment : Deployment}
    (h : deployment.Rolling) {r : Rollout} (hsettled : ∀ rs ∈ r.allRSs, Settled rs) :
    (¬ r.Finished deployment →
      r.Changed (rolloutRolling locale (fun _ => none) deployment r)) ∧
    ∃ rounds, ((round locale deployment)^[rounds] r).Finished deployment :=
  ⟨fun hunfinished => (step_progress locale h hsettled hunfinished).1,
    exists_finished h _ hsettled (Nat.le_refl _)⟩

/-- A rollout just begun, all old replicas available. -/
def allAvailable : Rollout where
  newRS := { name := some (js "new"), replicas := some 0 }
  oldRSs := [{ name := some (js "old"), replicas := some 4, availableReplicas := some 4 }]

theorem rolloutRolling_finishes_allAvailable :
    ¬ allAvailable.Finished quarterSurge ∧
    allAvailable.Changed
      (rolloutRolling Etcd.rootLocale (fun _ => none) quarterSurge allAvailable) ∧
    ∃ rounds, ((round Etcd.rootLocale quarterSurge)^[rounds] allAvailable).Finished
      quarterSurge := by
  have hsettled : ∀ rs ∈ allAvailable.allRSs, Settled rs := by
    intro rs hrs
    simp only [Rollout.allRSs, allAvailable, List.mem_append, List.mem_singleton] at hrs
    rcases hrs with rfl | rfl
    · exact ⟨by decide, rfl, by decide, rfl⟩
    · exact ⟨by decide, rfl, by decide, rfl⟩
  have hunfinished : ¬ allAvailable.Finished quarterSurge := fun h => absurd h.1 (by decide)
  have hrollout := rolloutRolling_finishes Etcd.rootLocale quarterSurge_rolling hsettled
  exact ⟨hunfinished, hrollout.1 hunfinished, hrollout.2⟩

end Webernetes.Controller
