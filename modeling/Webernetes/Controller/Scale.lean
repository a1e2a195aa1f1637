/-
Webernetes.Controller.Scale — the proportional branch of `scale` of
`deployment-controller.ts`: how many replicas each active ReplicaSet of a
rolling deployment is given when its size changes.

Every share is rounded by itself and cut to what is still to be added or
removed; what is left over goes to the first ReplicaSet. The quotient of a
share is a rational number, rounded to the nearest integer.

`Shared` follows the sum through the loop: what the names are given is what
they had and what was added so far. `scaledSizes_sum` is the result.
-/
import Webernetes.Go.Strconv
import Webernetes.Js.OrderedMap
import Webernetes.Controller.DeploymentUtil

namespace Webernetes.Controller

open Js

/-! ## Shares -/

/-- A ReplicaSet with its annotations. -/
structure AnnotatedReplicaSet extends ReplicaSet where
  annotations : Option (JsMap JsString JsString) := none

/-- A deployment with the replicas that its status counts. -/
structure CountedDeployment extends Deployment where
  statusReplicas : Option Int := none

def maxReplicasAnnotation : JsString := js "deployment.kubernetes.io/max-replicas"

def maxInt32 : Nat := 2147483647

/-- `parseUint`, up to the text of its error. -/
def parseUint (s : JsString) (base bitSize : Int) : Nat × Option Go.ParseError :=
  Go.parseUintInternal s base bitSize

def getNonNegativeInt32FromAnnotation (replicaSet : AnnotatedReplicaSet) (annotationKey : JsString) : Nat × Bool :=
  match (replicaSet.annotations.getD .empty).get annotationKey with
  | none => (0, false)
  | some annotationValue =>
    let (parsed, err) := parseUint annotationValue 10 32
    if err.isSome || parsed > maxInt32 then (0, false) else (parsed, true)

def getMaxReplicasAnnotation (replicaSet : AnnotatedReplicaSet) : Nat × Bool :=
  getNonNegativeInt32FromAnnotation replicaSet maxReplicasAnnotation

/-- `Math.round` of an exact quotient. -/
def mathRound (x : Rat) : Int := ⌊x + 1 / 2⌋

/-- What the ReplicaSet was scaled for before, or nothing. -/
def maxReplicasBeforeScale (rs : AnnotatedReplicaSet) (deployment : CountedDeployment) : Int :=
  let (before, ok) := getMaxReplicasAnnotation rs
  if !ok || before = 0 then deployment.statusReplicas.getD 0 else before

def getReplicaSetFraction (rs : AnnotatedReplicaSet) (deployment : CountedDeployment) : Int :=
  if deployment.desired = 0 then -rs.size
  else
    let deploymentMaxReplicas := deployment.desired + maxSurge deployment.toDeployment
    let before := maxReplicasBeforeScale rs deployment
    if before = 0 then 0
    else
      let newRSSize : Rat := (rs.size * deploymentMaxReplicas : Int) / (before : Rat)
      mathRound newRSSize - rs.size

def getReplicaSetProportion (rs : AnnotatedReplicaSet) (deployment : CountedDeployment)
    (deploymentReplicasToAdd deploymentReplicasAdded : Int) : Int :=
  if rs.size = 0 ∨ deploymentReplicasToAdd = 0 ∨ deploymentReplicasToAdd = deploymentReplicasAdded then 0
  else
    let rsFraction := getReplicaSetFraction rs deployment
    let allowed := deploymentReplicasToAdd - deploymentReplicasAdded
    if deploymentReplicasToAdd > 0 then min rsFraction allowed else max rsFraction allowed

/-! ## Sizes -/

def compareReplicaSetsBySizeNewer (locale : Etcd.Locale) (left right : AnnotatedReplicaSet) : Ordering :=
  (compare right.size left.size).then
    (compareReplicaSetsByCreationTimestamp locale left.toReplicaSet right.toReplicaSet).swap

def compareReplicaSetsBySizeOlder (locale : Etcd.Locale) (left right : AnnotatedReplicaSet) : Ordering :=
  (compare right.size left.size).then
    (compareReplicaSetsByCreationTimestamp locale left.toReplicaSet right.toReplicaSet)

/-- `metadata?.name ?? ""`. -/
def AnnotatedReplicaSet.nameOf (rs : AnnotatedReplicaSet) : JsString := rs.name.getD []

/-- The desired size with the surge. -/
def allowedSize (deployment : CountedDeployment) : Int :=
  if deployment.desired > 0 then deployment.desired + maxSurge deployment.toDeployment else 0

def totalSize (allRSs : List AnnotatedReplicaSet) : Int :=
  getReplicaCountForReplicaSets (allRSs.map AnnotatedReplicaSet.toReplicaSet)

/-- The variables of the loop over the ReplicaSets. -/
structure Scaling where
  deploymentReplicasAdded : Int := 0
  nameToSize : JsMap JsString Int := .empty

/-- The body of that loop. -/
def scaleOne (deployment : CountedDeployment) (deploymentReplicasToAdd : Int) (s : Scaling)
    (rs : AnnotatedReplicaSet) : Scaling :=
  if deploymentReplicasToAdd ≠ 0 then
    let proportion := getReplicaSetProportion rs deployment deploymentReplicasToAdd s.deploymentReplicasAdded
    { nameToSize := s.nameToSize.set rs.nameOf (rs.size + proportion)
      deploymentReplicasAdded := s.deploymentReplicasAdded + proportion }
  else { s with nameToSize := s.nameToSize.set rs.nameOf rs.size }

/-- The ReplicaSets in the order that they are scaled in. -/
def sortForScale (locale : Etcd.Locale) (deploymentReplicasToAdd : Int) (allRSs : List AnnotatedReplicaSet) :
    List AnnotatedReplicaSet :=
  if deploymentReplicasToAdd > 0 then
    allRSs.mergeSort fun left right => (compareReplicaSetsBySizeNewer locale left right).isLE
  else if deploymentReplicasToAdd < 0 then
    allRSs.mergeSort fun left right => (compareReplicaSetsBySizeOlder locale left right).isLE
  else allRSs

/-- The sizes that `scaleReplicaSet` is called with, one after another. The
first ReplicaSet is given what is left over. -/
def sizesOf (deploymentReplicasToAdd : Int) (s : Scaling) : List AnnotatedReplicaSet →
    List (AnnotatedReplicaSet × Int)
  | [] => []
  | first :: rest =>
    let nameToSize :=
      if deploymentReplicasToAdd ≠ 0 then
        let leftover := deploymentReplicasToAdd - s.deploymentReplicasAdded
        s.nameToSize.set first.nameOf (max ((s.nameToSize.get first.nameOf).getD 0 + leftover) 0)
      else s.nameToSize
    (first :: rest).map fun rs => (rs, (nameToSize.get rs.nameOf).getD 0)

/-- The proportional branch, for the active ReplicaSets. -/
def scaledSizes (locale : Etcd.Locale) (deployment : CountedDeployment) (active : List AnnotatedReplicaSet) :
    List (AnnotatedReplicaSet × Int) :=
  let deploymentReplicasToAdd := allowedSize deployment - totalSize active
  let allRSs := sortForScale locale deploymentReplicasToAdd active
  let scaling := allRSs.foldl (scaleOne deployment deploymentReplicasToAdd) {}
  sizesOf deploymentReplicasToAdd scaling allRSs

/-! ## One share -/

/-- A deployment that asks for no negative numbers, and whose status counts none. -/
structure Scalable (deployment : CountedDeployment) : Prop where
  desired_nonneg : 0 ≤ deployment.desired
  maxSurge_nonneg : 0 ≤ maxSurge deployment.toDeployment
  statusReplicas_nonneg : 0 ≤ deployment.statusReplicas.getD 0

theorem mathRound_nonneg {x : Rat} (h : 0 ≤ x) : 0 ≤ mathRound x := by
  unfold mathRound
  exact Int.floor_nonneg.mpr (by positivity)

theorem maxReplicasBeforeScale_nonneg {deployment : CountedDeployment} (h : Scalable deployment)
    (rs : AnnotatedReplicaSet) : 0 ≤ maxReplicasBeforeScale rs deployment := by
  unfold maxReplicasBeforeScale
  dsimp only
  split
  · exact h.statusReplicas_nonneg
  · exact Int.natCast_nonneg _

/-- A share takes no more than there is. -/
theorem neg_size_le_fraction {deployment : CountedDeployment} (h : Scalable deployment)
    {rs : AnnotatedReplicaSet} (hsize : 0 ≤ rs.size) : -rs.size ≤ getReplicaSetFraction rs deployment := by
  unfold getReplicaSetFraction
  split
  · exact le_refl _
  · dsimp only
    split
    · omega
    · have hproduct : 0 ≤ rs.size * (deployment.desired + maxSurge deployment.toDeployment) :=
        Int.mul_nonneg hsize (Int.add_nonneg h.desired_nonneg h.maxSurge_nonneg)
      have hbefore := maxReplicasBeforeScale_nonneg h rs
      have hround : 0 ≤ mathRound (((rs.size * (deployment.desired + maxSurge deployment.toDeployment) : Int) : Rat)
          / (maxReplicasBeforeScale rs deployment : Rat)) :=
        mathRound_nonneg (div_nonneg (by exact_mod_cast hproduct) (by exact_mod_cast hbefore))
      omega

/-- What a share may be: it leaves no negative size, and goes not beyond what
is to be added or removed. -/
theorem proportion_bounds {deployment : CountedDeployment} (h : Scalable deployment)
    {rs : AnnotatedReplicaSet} (hsize : 0 ≤ rs.size) (toAdd added : Int) :
    (0 < toAdd → added ≤ toAdd → -rs.size ≤ getReplicaSetProportion rs deployment toAdd added
        ∧ added + getReplicaSetProportion rs deployment toAdd added ≤ toAdd)
      ∧ (toAdd < 0 → toAdd ≤ added → -rs.size ≤ getReplicaSetProportion rs deployment toAdd added
        ∧ toAdd ≤ added + getReplicaSetProportion rs deployment toAdd added) := by
  have hfraction := neg_size_le_fraction h hsize
  unfold getReplicaSetProportion
  split
  · omega
  · dsimp only
    split <;> omega

/-! ## The loop -/

/-- The size of a ReplicaSet by its name. -/
def Scaling.sizeOf (s : Scaling) (rs : AnnotatedReplicaSet) : Int := (s.nameToSize.get rs.nameOf).getD 0

theorem totalSize_cons (rs : AnnotatedReplicaSet) (rest : List AnnotatedReplicaSet) :
    totalSize (rs :: rest) = rs.size + totalSize rest := by
  simp [totalSize, getReplicaCountForReplicaSets]

theorem totalSize_perm {left right : List AnnotatedReplicaSet} (h : left.Perm right) :
    totalSize left = totalSize right := by
  unfold totalSize getReplicaCountForReplicaSets
  exact ((h.map _).map _).sum_eq

/-- What the loop has done for some ReplicaSets. -/
structure Shared (toAdd : Int) (replicaSets : List AnnotatedReplicaSet) (before after : Scaling) : Prop where
  sum : (replicaSets.map after.sizeOf).sum
    = totalSize replicaSets + (after.deploymentReplicasAdded - before.deploymentReplicasAdded)
  nonneg : ∀ rs ∈ replicaSets, 0 ≤ after.sizeOf rs
  others : ∀ name, name ∉ replicaSets.map AnnotatedReplicaSet.nameOf →
    after.nameToSize.get name = before.nameToSize.get name
  added : 0 < toAdd → after.deploymentReplicasAdded ≤ toAdd
  removed : toAdd < 0 → toAdd ≤ after.deploymentReplicasAdded

/-- By induction on the ReplicaSets: a name is given its size once. -/
theorem shared_foldl {deployment : CountedDeployment} (h : Scalable deployment) {toAdd : Int}
    (hsome : toAdd ≠ 0) {replicaSets : List AnnotatedReplicaSet}
    (hnames : (replicaSets.map AnnotatedReplicaSet.nameOf).Nodup) (hsize : ∀ rs ∈ replicaSets, 0 ≤ rs.size)
    (before : Scaling) (hadded : 0 < toAdd → before.deploymentReplicasAdded ≤ toAdd)
    (hremoved : toAdd < 0 → toAdd ≤ before.deploymentReplicasAdded) :
    Shared toAdd replicaSets before (replicaSets.foldl (scaleOne deployment toAdd) before) := by
  induction replicaSets generalizing before with
  | nil =>
    refine ⟨?_, ?_, fun _ _ => rfl, hadded, hremoved⟩
    · simp [totalSize, getReplicaCountForReplicaSets]
    · intro rs hmem
      cases hmem
  | cons rs rest ih =>
    obtain ⟨hnot, hnames⟩ := List.nodup_cons.mp hnames
    have hbounds := proportion_bounds h (hsize rs List.mem_cons_self) toAdd before.deploymentReplicasAdded
    generalize hproportion : getReplicaSetProportion rs deployment toAdd before.deploymentReplicasAdded = proportion
      at hbounds
    obtain ⟨hadd, hremove⟩ := hbounds
    have hmiddle : scaleOne deployment toAdd before rs =
        { nameToSize := before.nameToSize.set rs.nameOf (rs.size + proportion)
          deploymentReplicasAdded := before.deploymentReplicasAdded + proportion } := by
      rw [scaleOne, if_pos hsome, hproportion]
    have hrest := ih hnames (fun rs' hmem => hsize rs' (List.mem_cons_of_mem _ hmem))
      (scaleOne deployment toAdd before rs)
      (by rw [hmiddle]; exact fun hpos => (hadd hpos (hadded hpos)).2)
      (by rw [hmiddle]; exact fun hneg => (hremove hneg (hremoved hneg)).2)
    rw [List.foldl_cons]
    generalize rest.foldl (scaleOne deployment toAdd) (scaleOne deployment toAdd before rs) = after at hrest
    rw [hmiddle] at hrest
    have hthis : after.sizeOf rs = rs.size + proportion := by
      rw [Scaling.sizeOf, hrest.others rs.nameOf hnot, JsMap.get_set_self]
      rfl
    refine ⟨?_, ?_, ?_, hrest.added, hrest.removed⟩
    · have hsum := hrest.sum
      rw [List.map_cons, List.sum_cons, hsum, hthis, totalSize_cons]
      dsimp only
      omega
    · intro rs' hmem
      rcases List.mem_cons.mp hmem with rfl | hmem
      · rw [hthis]
        rcases lt_or_gt_of_ne hsome with hneg | hpos
        · have hle := (hremove hneg (hremoved hneg)).1
          omega
        · have hle := (hadd hpos (hadded hpos)).1
          omega
      · exact hrest.nonneg rs' hmem
    · intro name hname
      rw [List.map_cons, List.mem_cons, not_or] at hname
      rw [hrest.others name hname.2, JsMap.get_set_of_ne _ _ hname.1]

/-- Where nothing is to be added, every name is given the size it has. -/
theorem sizeOf_foldl_zero (deployment : CountedDeployment) {replicaSets : List AnnotatedReplicaSet}
    (hnames : (replicaSets.map AnnotatedReplicaSet.nameOf).Nodup) (before : Scaling) :
    (∀ rs ∈ replicaSets, (replicaSets.foldl (scaleOne deployment 0) before).sizeOf rs = rs.size)
      ∧ ∀ name, name ∉ replicaSets.map AnnotatedReplicaSet.nameOf →
        (replicaSets.foldl (scaleOne deployment 0) before).nameToSize.get name = before.nameToSize.get name := by
  induction replicaSets generalizing before with
  | nil =>
    refine ⟨?_, fun _ _ => rfl⟩
    intro rs hmem
    cases hmem
  | cons rs rest ih =>
    obtain ⟨hnot, hnames⟩ := List.nodup_cons.mp hnames
    obtain ⟨hsizes, hothers⟩ := ih hnames (scaleOne deployment 0 before rs)
    have hone : (scaleOne deployment 0 before rs).nameToSize = before.nameToSize.set rs.nameOf rs.size := by
      rw [scaleOne, if_neg (not_not.mpr rfl)]
    rw [List.foldl_cons]
    constructor
    · intro rs' hmem
      rcases List.mem_cons.mp hmem with rfl | hmem
      · rw [Scaling.sizeOf, hothers rs'.nameOf hnot, hone, JsMap.get_set_self]
        rfl
      · exact hsizes rs' hmem
    · intro name hname
      rw [List.map_cons, List.mem_cons, not_or] at hname
      rw [hothers name hname.2, hone, JsMap.get_set_of_ne _ _ hname.1]

/-! ## The sizes -/

theorem sortForScale_perm (locale : Etcd.Locale) (toAdd : Int) (allRSs : List AnnotatedReplicaSet) :
    (sortForScale locale toAdd allRSs).Perm allRSs := by
  unfold sortForScale
  split
  · exact List.mergeSort_perm _ _
  · split
    · exact List.mergeSort_perm _ _
    · exact List.Perm.refl _

/-- The sizes that are asked for, where there is something to add or to remove. -/
theorem sizesOf_cons {toAdd : Int} (hsome : toAdd ≠ 0) (s : Scaling) {first : AnnotatedReplicaSet}
    {rest : List AnnotatedReplicaSet} (hnot : first.nameOf ∉ rest.map AnnotatedReplicaSet.nameOf) :
    sizesOf toAdd s (first :: rest)
      = (first, max (s.sizeOf first + (toAdd - s.deploymentReplicasAdded)) 0)
        :: rest.map fun rs => (rs, s.sizeOf rs) := by
  rw [sizesOf, if_pos hsome, List.map_cons, JsMap.get_set_self]
  refine congrArg₂ List.cons rfl (List.map_congr_left fun rs hmem => ?_)
  have hne : rs.nameOf ≠ first.nameOf := by
    intro heq
    exact hnot (heq ▸ List.mem_map_of_mem hmem)
  rw [JsMap.get_set_of_ne _ _ hne]
  rfl

/-- What the sizes are together, and that none is negative. -/
structure Scales (allowed total : Int) (sizes : List (AnnotatedReplicaSet × Int)) : Prop where
  nonneg : ∀ entry ∈ sizes, 0 ≤ entry.2
  added : total < allowed → (sizes.map Prod.snd).sum = allowed
  removed : allowed < total → allowed ≤ (sizes.map Prod.snd).sum
  unchanged : allowed = total → ∀ entry ∈ sizes, entry.2 = entry.1.size

theorem scaledSizes_sum (locale : Etcd.Locale) {deployment : CountedDeployment}
    (h : Scalable deployment) {active : List AnnotatedReplicaSet} (hsome : 2 ≤ active.length)
    (hactive : ∀ rs ∈ active, ∃ n, rs.replicas = some n ∧ 0 < n)
    (hnames : (active.map AnnotatedReplicaSet.nameOf).Nodup) :
    ((scaledSizes locale deployment active).map Prod.fst).Perm active
      ∧ Scales (allowedSize deployment) (totalSize active) (scaledSizes locale deployment active) := by
  have hperm := sortForScale_perm locale (allowedSize deployment - totalSize active) active
  unfold scaledSizes
  dsimp only
  generalize sortForScale locale (allowedSize deployment - totalSize active) active = allRSs at hperm
  have hsize : ∀ rs ∈ allRSs, 0 ≤ rs.size := by
    intro rs hmem
    obtain ⟨n, hn, hpos⟩ := hactive rs (hperm.mem_iff.mp hmem)
    rw [ReplicaSet.size, hn]
    exact hpos.le
  have hnodup : (allRSs.map AnnotatedReplicaSet.nameOf).Nodup := (hperm.map _).nodup_iff.mpr hnames
  have htotal : totalSize allRSs = totalSize active := totalSize_perm hperm
  cases allRSs with
  | nil =>
    rw [← hperm.length_eq] at hsome
    cases hsome
  | cons first rest =>
    obtain ⟨hnot, -⟩ := List.nodup_cons.mp hnodup
    by_cases hzero : allowedSize deployment - totalSize active = 0
    · rw [hzero]
      obtain ⟨hsame, -⟩ := sizeOf_foldl_zero deployment hnodup {}
      generalize (first :: rest).foldl (scaleOne deployment 0) {} = scaling at hsame
      have hsizes : sizesOf 0 scaling (first :: rest) = (first :: rest).map fun rs => (rs, rs.size) := by
        rw [sizesOf, if_neg (not_not.mpr rfl)]
        exact List.map_congr_left fun rs hmem => congrArg (Prod.mk rs) (hsame rs hmem)
      rw [hsizes]
      refine ⟨?_, ?_, by omega, by omega, ?_⟩
      · rw [List.map_map]
        exact (List.map_id (first :: rest)).symm ▸ hperm
      · intro entry hmem
        obtain ⟨rs, hrs, rfl⟩ := List.mem_map.mp hmem
        exact hsize rs hrs
      · intro _ entry hmem
        obtain ⟨rs, -, rfl⟩ := List.mem_map.mp hmem
        rfl
    · have hshared := shared_foldl h hzero hnodup hsize {} le_of_lt le_of_lt
      generalize (first :: rest).foldl (scaleOne deployment (allowedSize deployment - totalSize active)) {}
        = scaling at hshared
      rw [sizesOf_cons hzero scaling hnot]
      have hsum := hshared.sum
      rw [List.map_cons, List.sum_cons, htotal] at hsum
      have hfirst := hshared.nonneg first List.mem_cons_self
      have hsecond : ((rest.map fun rs => (rs, scaling.sizeOf rs)).map Prod.snd) = rest.map scaling.sizeOf := by
        rw [List.map_map]
        rfl
      refine ⟨?_, ?_, ?_, ?_, by omega⟩
      · rw [List.map_cons, List.map_map]
        exact (List.map_id rest).symm ▸ hperm
      · intro entry hmem
        rcases List.mem_cons.mp hmem with rfl | hmem
        · exact le_max_right _ _
        · obtain ⟨rs, hrs, rfl⟩ := List.mem_map.mp hmem
          exact hshared.nonneg rs (List.mem_cons_of_mem _ hrs)
      · intro hless
        have hadded := hshared.added (by omega)
        rw [List.map_cons, List.sum_cons, hsecond]
        dsimp only at hsum hadded ⊢
        rw [max_eq_left (by omega)]
        omega
      · intro _
        rw [List.map_cons, List.sum_cons, hsecond]
        dsimp only at hsum ⊢
        have hle := le_max_left (scaling.sizeOf first
          + (allowedSize deployment - totalSize active - scaling.deploymentReplicasAdded)) 0
        omega

/-- Four replicas wanted, with one more for a while. -/
def fourReplicas : CountedDeployment where
  replicas := some 4
  strategyType := some .rollingUpdate
  rollingUpdate := some { maxSurge := some (.string (js "25%")), maxUnavailable := some (.number 0) }
  statusReplicas := some 3

theorem fourReplicas_scalable : Scalable fourReplicas where
  desired_nonneg := by decide
  maxSurge_nonneg := by decide
  statusReplicas_nonneg := by decide

/-- Three replicas, one of them with an annotation that is out of date. -/
def threeReplicas : List AnnotatedReplicaSet :=
  [{ name := some (js "a"), replicas := some 2
     annotations := some (JsMap.empty.set maxReplicasAnnotation (js "7")) },
    { name := some (js "b"), replicas := some 1 }]

theorem scaledSizes_sum_threeReplicas :
    ((scaledSizes Etcd.rootLocale fourReplicas threeReplicas).map Prod.fst).Perm threeReplicas
      ∧ Scales (allowedSize fourReplicas) (totalSize threeReplicas)
        (scaledSizes Etcd.rootLocale fourReplicas threeReplicas) := by
  refine scaledSizes_sum Etcd.rootLocale fourReplicas_scalable (by decide) ?_ (by decide)
  intro rs hmem
  simp only [threeReplicas, List.mem_cons, List.not_mem_nil, or_false] at hmem
  rcases hmem with rfl | rfl
  · exact ⟨2, rfl, by decide⟩
  · exact ⟨1, rfl, by decide⟩

/-- A deployment of three replicas. -/
def ofThree (maxSurge statusReplicas : Int) : CountedDeployment where
  replicas := some 3
  strategyType := some .rollingUpdate
  rollingUpdate := some { maxSurge := some (.number maxSurge), maxUnavailable := some (.number 0) }
  statusReplicas := some statusReplicas

/-- Two ReplicaSets, the larger first, with what they are annotated with. -/
def twelveReplicas (larger smaller : Option JsString) : List AnnotatedReplicaSet :=
  [{ name := some (js "a"), replicas := some 10
     annotations := larger.map (JsMap.empty.set maxReplicasAnnotation) },
    { name := some (js "b"), replicas := some 2
      annotations := smaller.map (JsMap.empty.set maxReplicasAnnotation) }]

/-- They are in order where replicas are to be removed. -/
theorem scaledSizes_twelveReplicas {deployment : CountedDeployment} {larger smaller : Option JsString}
    (hremoved : allowedSize deployment < 12) :
    scaledSizes Etcd.rootLocale deployment (twelveReplicas larger smaller)
      = sizesOf (allowedSize deployment - 12)
        ((twelveReplicas larger smaller).foldl (scaleOne deployment (allowedSize deployment - 12)) {})
        (twelveReplicas larger smaller) := by
  have htotal : totalSize (twelveReplicas larger smaller) = 12 := rfl
  have hsorted : sortForScale Etcd.rootLocale (allowedSize deployment - 12) (twelveReplicas larger smaller)
      = twelveReplicas larger smaller := by
    rw [sortForScale, if_neg (by omega), if_pos (by omega)]
    refine List.mergeSort_of_pairwise (List.pairwise_pair.mpr ?_)
    rfl
  unfold scaledSizes
  dsimp only
  rw [htotal, hsorted]

/-- A surge or a count below zero makes a size negative. -/
theorem scaledSizes_negative :
    (scaledSizes Etcd.rootLocale (ofThree (-5) 12) (twelveReplicas (some (js "100")) (some (js "1")))).map Prod.snd
        = [0, -2]
      ∧ (scaledSizes Etcd.rootLocale (ofThree 1 (-3)) (twelveReplicas (some (js "4")) none)).map Prod.snd
        = [7, -3] := by
  rw [scaledSizes_twelveReplicas (by decide), scaledSizes_twelveReplicas (by decide)]
  decide +kernel

end Webernetes.Controller
