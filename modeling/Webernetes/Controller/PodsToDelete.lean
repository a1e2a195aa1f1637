/-
Webernetes.Controller.PodsToDelete — whether the pods that `getPodsToDelete`
selects depend on the order in which they are listed.

`less` goes by five criteria, then mixes two orders: pods that became ready
at one time go by their restarts and creation times, pods that became ready
at different times by the logarithms of their ages and by their uids. It is
a strict weak order whose selections no listing changes exactly on pods that
are `Separated` (`selection_iff`): it tells any two of them apart, and no pod
of another ready time, and of an age of the same logarithm, lies by its uid
between two pods that the restarts or the creation times order the other way.
-/
import Webernetes.Controller.ActivePods

namespace Webernetes.Controller.ActivePods

open Js Api Base.StrictOrder

variable (host : Host) (now : Option Int)

/-! ## The keys of the criteria -/

/-- The criteria up to the rank: assigned, phase, ready, deletion cost, rank. -/
def criteria (p : RankedPod) : List Int :=
  [if (p.pod.nodeName.getD []).isEmpty then 0 else 1, podPhaseOrdinal p.pod,
    if isPodReady p.pod then 1 else 0, getDeletionCostFromPodAnnotations p.pod.annotations, -p.rank]

/-- A time among others that differ: the ones that come before every age, then by the age. -/
abbrev AgeKey := Lex (Int × Lex (Int × JsString))

def ageless : AgeKey := toLex (0, toLex (0, []))

/-- Without a clock the later time is first, else the age of the smaller logarithm, and the
smaller uid for ages of one. -/
def ageKey (p : RankedPod) (time : Int) : AgeKey :=
  match now with
  | none => toLex (1, toLex (-time, []))
  | some now => toLex (1, toLex (ageRank host now time, uidOf p.pod))

def readyTime (p : RankedPod) : Int := podReadyTime host p.pod

def readyKey (p : RankedPod) : AgeKey :=
  if readyTime host p = 0 then ageless else ageKey host now p (readyTime host p)

def creationTime (p : RankedPod) : Option Int := timestampMs host p.pod.creationTimestamp

def creationKey (p : RankedPod) : AgeKey :=
  match creationTime host p with
  | none => ageless
  | some time => if now = none ∧ time = 0 then ageless else ageKey host now p time

/-- More restarts are first. -/
def restartsKey (p : RankedPod) : Lex (Int × Int) :=
  toLex (-(maxContainerRestarts p.pod).1, -(maxContainerRestarts p.pod).2)

/-- `lessByRestarts`, of two pods. -/
def tail (a b : RankedPod) : Prop := lessByRestarts host now a.pod b.pod = true

/-- One criterion of the chain: `c` that it differs, `d` what it then says. -/
theorem ite_criterion {c P : Prop} [Decidable c] {d rest : Bool} {x y : Int} (hc : c ↔ x ≠ y)
    (hd : c → (d = true ↔ x < y)) (hrest : ¬ c → (rest = true ↔ P)) :
    (if c then d else rest) = true ↔ x < y ∨ x = y ∧ P := by
  by_cases h : c
  · have hne : x ≠ y := hc.mp h
    rw [if_pos h, hd h]
    simp [hne]
  · have heq : x = y := not_not.mp (fun hne => h (hc.mpr hne))
    rw [if_neg h, hrest h]
    simp [heq]

theorem cons_lex_iff {x y : Int} {k l : List Int} {P : Prop} :
    (x :: k < y :: l ∨ x :: k = y :: l ∧ P) ↔ x < y ∨ x = y ∧ (k < l ∨ k = l ∧ P) := by
  rw [List.cons_lt_cons_iff, List.cons.injEq]
  tauto

/-- Two ages by their logarithms and uids. -/
theorem lessByAge_iff (a b : RankedPod) (leftTime rightTime n : Int) :
    lessByAge host a.pod b.pod leftTime rightTime n = true ↔
      ageKey host (some n) a leftTime < ageKey host (some n) b rightTime := by
  have hzero : logarithmicRankDiff host leftTime rightTime n = 0 ↔
      ageRank host n leftTime = ageRank host n rightTime := by
    unfold logarithmicRankDiff
    omega
  have hneg : logarithmicRankDiff host leftTime rightTime n < 0 ↔
      ageRank host n leftTime < ageRank host n rightTime := by
    unfold logarithmicRankDiff
    omega
  simp only [lessByAge, ageKey, Prod.Lex.toLex_lt_toLex, lt_irrefl, false_or, true_and]
  by_cases h : ageRank host n leftTime = ageRank host n rightTime
  · rw [if_pos (hzero.mpr h)]
    simp [h]
  · rw [if_neg (fun h' => h (hzero.mp h')), decide_eq_true_iff, hneg]
    simp [h]

theorem ageless_lt_ageKey (p : RankedPod) (time : Int) : ageless < ageKey host now p time := by
  cases now with
  | none => exact Prod.Lex.toLex_lt_toLex.mpr (.inl Int.zero_lt_one)
  | some n => exact Prod.Lex.toLex_lt_toLex.mpr (.inl Int.zero_lt_one)

theorem ageKey_none_lt_iff (a b : RankedPod) (time time' : Int) :
    ageKey host none a time < ageKey host none b time' ↔ time' < time := by
  simp [ageKey, Prod.Lex.toLex_lt_toLex]

/-- Two ages of which at most one comes before all of them. -/
theorem ageless_ite_lt_iff {p q : Prop} [Decidable p] [Decidable q] {x y : AgeKey}
    (hx : ageless < x) (hy : ageless < y) (h : ¬ (p ∧ q)) :
    (if p then ageless else x) < (if q then ageless else y) ↔ p ∨ ¬ q ∧ x < y := by
  by_cases hp : p
  · have hq : ¬ q := fun hq => h ⟨hp, hq⟩
    simp [hp, hq, hy]
  · by_cases hq : q
    · simp [hp, hq, hx.le]
    · simp [hp, hq]

theorem isZeroTime_some (time : Int) : isZeroTime (some time) = decide (time = 0) := by
  simp [isZeroTime]

theorem afterOrZero_iff (left right : Option Int) :
    afterOrZero left right = true ↔
      isZeroTime left = true ∨ ¬ isZeroTime right = true ∧ right.getD 0 < left.getD 0 := by
  cases hl : isZeroTime left <;> cases hr : isZeroTime right <;> simp [afterOrZero, hl, hr]

theorem lessByReadyTime_iff {a b : RankedPod} (hne : readyTime host a ≠ readyTime host b) :
    lessByReadyTime host now a.pod b.pod = true ↔ readyKey host now a < readyKey host now b := by
  have hzero : ¬ (readyTime host a = 0 ∧ readyTime host b = 0) := by
    rintro ⟨ha, hb⟩
    exact hne (ha.trans hb.symm)
  rw [readyKey, readyKey, ageless_ite_lt_iff (ageless_lt_ageKey host now a _)
    (ageless_lt_ageKey host now b _) hzero]
  change readyTime host a ≠ readyTime host b at hne
  simp only [readyTime] at hzero ⊢
  cases now with
  | none =>
    rw [ageKey_none_lt_iff]
    simp [lessByReadyTime, afterOrZero_iff, isZeroTime_some]
  | some n =>
    rw [← lessByAge_iff]
    simp only [lessByReadyTime, isZeroTime_some]
    by_cases ha : podReadyTime host a.pod = 0
    · simp [ha, afterOrZero_iff, isZeroTime_some]
    · by_cases hb : podReadyTime host b.pod = 0
      · simp [ha, hb, afterOrZero_iff, isZeroTime_some]
      · simp [ha, hb]

/-- Creation times of which not both are missing or the epoch. -/
theorem lessByCreation_iff {a b : RankedPod} (hne : creationTime host a ≠ creationTime host b)
    (hzero : ¬ (isZeroTime (creationTime host a) = true ∧ isZeroTime (creationTime host b) = true)) :
    lessByCreation host now a.pod b.pod = true ↔ creationKey host now a < creationKey host now b := by
  unfold creationKey
  unfold creationTime at hne hzero ⊢
  cases ha : timestampMs host a.pod.creationTimestamp with
  | none =>
    rw [ha] at hne hzero
    cases hb : timestampMs host b.pod.creationTimestamp with
    | none => exact absurd hb.symm hne
    | some time' =>
      have htime' : time' ≠ 0 := by
        rintro rfl
        exact hzero ⟨rfl, by rw [hb]; rfl⟩
      have hless : lessByCreation host now a.pod b.pod = true := by
        cases now <;> simp [lessByCreation, ha, hb, afterOrZero_iff, isZeroTime]
      simp [hless, htime', ageless_lt_ageKey]
  | some time =>
    rw [ha] at hne hzero
    cases hb : timestampMs host b.pod.creationTimestamp with
    | none =>
      have htime : time ≠ 0 := by
        rintro rfl
        exact hzero ⟨rfl, by rw [hb]; rfl⟩
      have hless : ¬ lessByCreation host now a.pod b.pod = true := by
        cases now <;> simp [lessByCreation, ha, hb, afterOrZero_iff, isZeroTime, htime]
      simp [hless, htime, (ageless_lt_ageKey host now a time).le]
    | some time' =>
      rw [hb] at hne hzero
      have hdiff : time ≠ time' := fun h => hne (congrArg some h)
      cases now with
      | none =>
        have hboth : ¬ (((none : Option Int) = none ∧ time = 0) ∧
            ((none : Option Int) = none ∧ time' = 0)) := by
          rintro ⟨⟨-, h⟩, -, h'⟩
          exact hdiff (h.trans h'.symm)
        rw [ageless_ite_lt_iff (ageless_lt_ageKey host none a _) (ageless_lt_ageKey host none b _)
          hboth, ageKey_none_lt_iff]
        simp [lessByCreation, ha, hb, hdiff, afterOrZero_iff, isZeroTime_some]
      | some n =>
        simp only [reduceCtorEq, false_and, if_false]
        rw [← lessByAge_iff]
        simp [lessByCreation, ha, hb, hdiff]

theorem tail_iff (a b : RankedPod) :
    tail host now a b ↔ restartsKey a < restartsKey b ∨
      restartsKey a = restartsKey b ∧ lessByCreation host now a.pod b.pod = true := by
  simp only [tail, lessByRestarts, compareMaxContainerRestarts, restartsKey,
    Prod.Lex.toLex_lt_toLex, toLex_inj, Prod.mk.injEq, Int.neg_inj, Int.neg_lt_neg_iff]
  by_cases hregular : (maxContainerRestarts a.pod).1 = (maxContainerRestarts b.pod).1
  · by_cases hsidecar : (maxContainerRestarts a.pod).2 = (maxContainerRestarts b.pod).2
    · simp [hregular, hsidecar]
    · simp [hregular, hsidecar]
  · simp [hregular]

/-- A pod that is not ready has been ready from no time. -/
theorem readyTime_of_not_ready {p : RankedPod} (h : isPodReady p.pod = false) :
    readyTime host p = 0 := by
  simp [readyTime, podReadyTime, h]

theorem assigned_iff (left right : JsString) :
    left ≠ right ∧ (left.isEmpty ∨ right.isEmpty) ↔
      (if left.isEmpty then (0 : Int) else 1) ≠ if right.isEmpty then 0 else 1 := by
  cases left <;> cases right <;> simp

theorem ready_iff (left right : Bool) :
    left ≠ right ↔ (if left then (1 : Int) else 0) ≠ if right then 1 else 0 := by
  cases left <;> cases right <;> simp

/-- The criteria in turn, and behind them the two orders. -/
theorem less_iff (a b : RankedPod) :
    less host now a b = true ↔ criteria a < criteria b ∨
      criteria a = criteria b ∧ mixed (readyTime host) (readyKey host now) (tail host now) a b := by
  have hnil : (([] : List Int) < [] ∨ ([] : List Int) = [] ∧
      mixed (readyTime host) (readyKey host now) (tail host now) a b) ↔
      mixed (readyTime host) (readyKey host now) (tail host now) a b := by
    simp
  rw [criteria, criteria, cons_lex_iff, cons_lex_iff, cons_lex_iff, cons_lex_iff, cons_lex_iff,
    hnil, less]
  refine ite_criterion (assigned_iff _ _) ?_ fun _ => ?_
  · cases a.pod.nodeName.getD [] <;> cases b.pod.nodeName.getD [] <;> simp
  refine ite_criterion Iff.rfl (fun _ => decide_eq_true_iff) fun _ => ?_
  refine ite_criterion (ready_iff _ _) ?_ fun hready => ?_
  · cases isPodReady a.pod <;> cases isPodReady b.pod <;> simp
  refine ite_criterion Iff.rfl (fun _ => decide_eq_true_iff) fun _ => ?_
  refine ite_criterion (by omega) (fun _ => by rw [decide_eq_true_iff]; omega) fun _ => ?_
  -- the pods are both ready or both not, and then no time is there to differ
  have hready : isPodReady a.pod = isPodReady b.pod := not_not.mp hready
  by_cases htime : readyTime host a = readyTime host b
  · rw [mixed_of_eq htime, if_neg (fun h => h.2.2 htime)]
    exact Iff.rfl
  · have hboth : isPodReady a.pod = true := by
      by_contra hnot
      have hfalse : isPodReady a.pod = false := by simpa using hnot
      exact htime ((readyTime_of_not_ready host hfalse).trans
        (readyTime_of_not_ready host (hready ▸ hfalse)).symm)
    rw [mixed_of_ne htime, if_pos ⟨hboth, hready ▸ hboth, htime⟩]
    exact lessByReadyTime_iff host now htime

/-! ## Pods with uids of their own -/

/-- Different pods have different uids. -/
def Distinct (S : RankedPod → Prop) : Prop :=
  ∀ a b, S a → S b → uidOf a.pod = uidOf b.pod → a = b

theorem ageKey_ne {a b : RankedPod} {time time' : Int} (huid : uidOf a.pod ≠ uidOf b.pod)
    (htime : time ≠ time') : ageKey host now a time ≠ ageKey host now b time' := by
  cases now with
  | none =>
    simp [ageKey]
    omega
  | some n => simp [ageKey, huid]

theorem readyKey_ne {S : RankedPod → Prop} (hS : Distinct S) (a b : RankedPod) (ha : S a) (hb : S b)
    (hne : readyTime host a ≠ readyTime host b) : readyKey host now a ≠ readyKey host now b := by
  have huid : uidOf a.pod ≠ uidOf b.pod := by
    intro h
    exact hne (by rw [hS a b ha hb h])
  rw [readyKey, readyKey]
  split
  · rename_i hzero
    rw [if_neg (fun h => hne (hzero.trans h.symm))]
    exact (ageless_lt_ageKey host now b _).ne
  · split
    · exact (ageless_lt_ageKey host now a _).ne'
    · exact ageKey_ne host now huid hne

theorem creationKey_ne {a b : RankedPod} (huid : uidOf a.pod ≠ uidOf b.pod)
    (hne : creationTime host a ≠ creationTime host b)
    (hzero : ¬ (isZeroTime (creationTime host a) = true ∧ isZeroTime (creationTime host b) = true)) :
    creationKey host now a ≠ creationKey host now b := by
  unfold creationKey
  cases ha : creationTime host a with
  | none =>
    cases hb : creationTime host b with
    | none => exact absurd (ha.trans hb.symm) hne
    | some time' =>
      have htime' : time' ≠ 0 := by
        rintro rfl
        exact hzero ⟨by rw [ha]; rfl, by rw [hb]; rfl⟩
      simp [htime', (ageless_lt_ageKey host now b time').ne]
  | some time =>
    cases hb : creationTime host b with
    | none =>
      have htime : time ≠ 0 := by
        rintro rfl
        exact hzero ⟨by rw [ha]; rfl, by rw [hb]; rfl⟩
      simp [htime, (ageless_lt_ageKey host now a time).ne']
    | some time' =>
      have hdiff : time ≠ time' := by
        rintro rfl
        exact hne (ha.trans hb.symm)
      simp only
      split
      · rename_i h
        rw [if_neg (fun h' => hdiff (h.2.trans h'.2.symm))]
        exact (ageless_lt_ageKey host now b _).ne
      · split
        · exact (ageless_lt_ageKey host now a _).ne'
        · exact ageKey_ne host now huid hdiff

/-! ## When the comparison is total -/

/-- The creation times tell the two apart: they differ, and are not the epoch and none. -/
def CreatedApart (a b : RankedPod) : Prop :=
  creationTime host a ≠ creationTime host b ∧
    ¬ (isZeroTime (creationTime host a) = true ∧ isZeroTime (creationTime host b) = true)

theorem not_lessByCreation_of_eq {a b : RankedPod} (h : creationTime host a = creationTime host b) :
    ¬ lessByCreation host now a.pod b.pod = true := by
  unfold lessByCreation
  change timestampMs host a.pod.creationTimestamp = timestampMs host b.pod.creationTimestamp at h
  simp [h]

/-- Where a creation time is missing and another one is the epoch, each comes before the other. -/
theorem lessByCreation_of_zero {a b : RankedPod} (hne : creationTime host a ≠ creationTime host b)
    (ha : isZeroTime (creationTime host a) = true) (hb : isZeroTime (creationTime host b) = true) :
    lessByCreation host now a.pod b.pod = true := by
  unfold lessByCreation
  unfold creationTime at hne ha hb
  rw [if_pos hne]
  cases hta : timestampMs host a.pod.creationTimestamp with
  | none => cases now <;> simp [afterOrZero, isZeroTime]
  | some time =>
    cases htb : timestampMs host b.pod.creationTimestamp with
    | none =>
      have htime : time = 0 := by simpa [hta, isZeroTime] using ha
      cases now <;> simp [afterOrZero, isZeroTime, htime]
    | some time' =>
      have htime : time = 0 := by simpa [hta, isZeroTime] using ha
      have htime' : time' = 0 := by simpa [htb, isZeroTime] using hb
      exact absurd (by rw [hta, htb, htime, htime']) hne

theorem isTotal_created_iff {S : RankedPod → Prop} (hS : Distinct S) :
    IsTotal (fun a b => lessByCreation host now a.pod b.pod = true) S ↔
      ∀ a b, S a → S b → a ≠ b → CreatedApart host a b := by
  constructor
  · intro h a b ha hb hne
    have hdiff : creationTime host a ≠ creationTime host b := by
      intro heq
      exact (h.compares a b ha hb hne).elim (not_lessByCreation_of_eq host now heq)
        (not_lessByCreation_of_eq host now heq.symm)
    refine ⟨hdiff, ?_⟩
    rintro ⟨hza, hzb⟩
    exact h.asymm ha hb (lessByCreation_of_zero host now hdiff hza hzb)
      (lessByCreation_of_zero host now (Ne.symm hdiff) hzb hza)
  · intro h
    have hkey : ∀ a b, S a → S b → a ≠ b → creationKey host now a ≠ creationKey host now b := by
      intro a b ha hb hne
      exact creationKey_ne host now (fun huid => hne (hS a b ha hb huid)) (h a b ha hb hne).1
        (h a b ha hb hne).2
    refine (isTotal_congr ?_).mpr (isTotal_of_key hkey)
    intro a b ha hb
    by_cases hab : a = b
    · subst hab
      simp [not_lessByCreation_of_eq host now rfl]
    · exact lessByCreation_iff host now (h a b ha hb hab).1 (h a b ha hb hab).2

/-- More restarts, or as many and the creation time that is first. -/
def RestartsFirst (a b : RankedPod) : Prop :=
  restartsKey a < restartsKey b ∨ restartsKey a = restartsKey b ∧
    creationTime host a ≠ creationTime host b ∧ creationKey host now a < creationKey host now b

/-- Any two pods are told apart, and the uids of pods of one logarithmic age do not go against
the restarts and creation times of two that became ready at once. -/
structure Separated (S : RankedPod → Prop) : Prop where
  told : ∀ a b, S a → S b → a ≠ b → criteria a = criteria b → readyTime host a = readyTime host b →
    restartsKey a = restartsKey b → CreatedApart host a b
  apart : ∀ n, now = some n → ∀ a b c, S a → S b → S c →
    criteria a = criteria b → criteria a = criteria c →
    readyTime host a = readyTime host b → readyTime host c ≠ readyTime host a →
    readyTime host a ≠ 0 → readyTime host c ≠ 0 →
    ageRank host n (readyTime host c) = ageRank host n (readyTime host a) →
    RestartsFirst host now a b → uidOf b.pod < uidOf c.pod → ¬ uidOf c.pod < uidOf a.pod

theorem isTotal_tail_iff {S : RankedPod → Prop} (hS : Distinct S) :
    IsTotal (tail host now) S ↔
      ∀ a b, S a → S b → a ≠ b → restartsKey a = restartsKey b → CreatedApart host a b := by
  have hlex : IsTotal (tail host now) S ↔ ∀ x,
      IsTotal (fun a b => lessByCreation host now a.pod b.pod = true)
        fun a => S a ∧ restartsKey a = x :=
    (isTotal_congr fun a b _ _ => tail_iff host now a b).trans isTotal_lex_iff
  rw [hlex]
  have hdistinct : ∀ x, Distinct fun a => S a ∧ restartsKey a = x :=
    fun x a b ha hb huid => hS a b ha.1 hb.1 huid
  constructor
  · intro h a b ha hb hne heq
    exact (isTotal_created_iff host now (hdistinct _)).mp (h (restartsKey a)) a b ⟨ha, rfl⟩
      ⟨hb, heq.symm⟩ hne
  · intro h x
    refine (isTotal_created_iff host now (hdistinct x)).mpr ?_
    intro a b ha hb hne
    exact h a b ha.1 hb.1 hne (ha.2.trans hb.2.symm)

/-- Between two pods that became ready at once, and in another order, lies one that became
ready at another time only if their ages have one logarithm and the uids are in this order. -/
theorem readyKey_between_iff {a b c : RankedPod} (hab : readyTime host a = readyTime host b)
    (hne : readyTime host c ≠ readyTime host a) :
    readyKey host now b < readyKey host now c ∧ readyKey host now c < readyKey host now a ↔
      ∃ n, now = some n ∧ readyTime host a ≠ 0 ∧ readyTime host c ≠ 0 ∧
        ageRank host n (readyTime host c) = ageRank host n (readyTime host a) ∧
        uidOf b.pod < uidOf c.pod ∧ uidOf c.pod < uidOf a.pod := by
  unfold readyKey
  rw [← hab]
  by_cases hza : readyTime host a = 0
  · -- nothing is before the pods that have been ready from no time
    have hzc : readyTime host c ≠ 0 := fun h => hne (h.trans hza.symm)
    rw [if_pos hza, if_pos hza, if_neg hzc]
    constructor
    · rintro ⟨h, h'⟩
      exact absurd h (lt_asymm h')
    · rintro ⟨n, _, h, _⟩
      exact absurd hza h
  · rw [if_neg hza, if_neg hza]
    by_cases hzc : readyTime host c = 0
    · rw [if_pos hzc]
      constructor
      · rintro ⟨h, _⟩
        exact absurd h (lt_asymm (ageless_lt_ageKey host now b _))
      · rintro ⟨n, _, _, h, _⟩
        exact absurd hzc h
    · rw [if_neg hzc]
      cases now with
      | none =>
        rw [ageKey_none_lt_iff, ageKey_none_lt_iff]
        constructor
        · rintro ⟨h, h'⟩
          exact absurd h (lt_asymm h')
        · rintro ⟨n, h, _⟩
          cases h
      | some n =>
        simp only [ageKey, Prod.Lex.toLex_lt_toLex, lt_irrefl, false_or, true_and]
        constructor
        · rintro ⟨hbc | ⟨hbc, huid⟩, hca | ⟨hca, huid'⟩⟩
          · exact absurd hbc (lt_asymm hca)
          · exact absurd hca.symm hbc.ne
          · exact absurd hbc.symm hca.ne
          · exact ⟨n, rfl, hza, hzc, hca, huid, huid'⟩
        · rintro ⟨m, hm, _, _, hrank, huid, huid'⟩
          obtain rfl : n = m := Option.some.inj hm
          exact ⟨.inr ⟨hrank.symm, huid⟩, .inr ⟨hrank, huid'⟩⟩

/-- Of two pods that are told apart, the one that the end of `less` puts first. -/
theorem tail_iff_restartsFirst {a b : RankedPod}
    (h : a ≠ b → restartsKey a = restartsKey b → CreatedApart host a b) :
    tail host now a b ↔ RestartsFirst host now a b := by
  rw [tail_iff, RestartsFirst]
  by_cases hab : a = b
  · subst hab
    simp [not_lessByCreation_of_eq host now rfl]
  · by_cases hkey : restartsKey a = restartsKey b
    · have hapart : CreatedApart host a b := h hab hkey
      rw [lessByCreation_iff host now hapart.1 hapart.2]
      simp [hapart.1]
    · simp [hkey]

/-- `less` is total on pods of their own uids exactly when they are separated. -/
theorem isTotal_less_iff {S : RankedPod → Prop} (hS : Distinct S) :
    IsTotal (fun a b => less host now a b = true) S ↔ Separated host now S := by
  have hlex : IsTotal (fun a b => less host now a b = true) S ↔ ∀ x,
      IsTotal (mixed (readyTime host) (readyKey host now) (tail host now))
        fun a => S a ∧ criteria a = x :=
    (isTotal_congr fun a b _ _ => less_iff host now a b).trans isTotal_lex_iff
  have hclass : ∀ x, Distinct fun a => S a ∧ criteria a = x :=
    fun x a b ha hb huid => hS a b ha.1 hb.1 huid
  have hclass' : ∀ x y, Distinct fun a => (S a ∧ criteria a = x) ∧ readyTime host a = y :=
    fun x y a b ha hb huid => hS a b ha.1.1 hb.1.1 huid
  rw [hlex]
  constructor
  · intro h
    have hunmixed : ∀ x, Unmixed (readyTime host) (readyKey host now) (tail host now)
        fun a => S a ∧ criteria a = x := fun x => unmixed_of_isTotal (h x)
    have htold : ∀ a b, S a → S b → a ≠ b → criteria a = criteria b →
        readyTime host a = readyTime host b → restartsKey a = restartsKey b →
        CreatedApart host a b := by
      intro a b ha hb hne hcriteria htime hrestarts
      exact (isTotal_tail_iff host now (hclass' _ _)).mp
        ((hunmixed (criteria a)).inside (readyTime host a)) a b ⟨⟨ha, rfl⟩, rfl⟩
        ⟨⟨hb, hcriteria.symm⟩, htime.symm⟩ hne hrestarts
    refine ⟨htold, ?_⟩
    intro n hn a b c ha hb hc hab hac htime hne hza hzc hrank hfirst huid huid'
    have htail : tail host now a b :=
      (tail_iff_restartsFirst host now fun hne' hkey =>
        htold a b ha hb hne' hab htime hkey).mpr hfirst
    obtain ⟨hbc, hca⟩ := (readyKey_between_iff host now htime hne).mpr
      ⟨n, hn, hza, hzc, hrank, huid, huid'⟩
    exact (hunmixed (criteria a)).apart a b c ⟨ha, rfl⟩ ⟨hb, hab.symm⟩ ⟨hc, hac.symm⟩ htime hne
      htail hbc hca
  · intro h x
    refine isTotal_of_unmixed (readyKey_ne host now (hclass x)) ⟨?_, ?_⟩
    · intro y
      refine (isTotal_tail_iff host now (hclass' x y)).mpr ?_
      intro a b ha hb hne hkey
      exact h.told a b ha.1.1 hb.1.1 hne (ha.1.2.trans hb.1.2.symm) (ha.2.trans hb.2.symm) hkey
    · intro a b c ha hb hc htime hne htail hbc hca
      have hab : criteria a = criteria b := ha.2.trans hb.2.symm
      have hfirst : RestartsFirst host now a b :=
        (tail_iff_restartsFirst host now fun hne' hkey =>
          h.told a b ha.1 hb.1 hne' hab htime hkey).mp htail
      obtain ⟨n, hn, hza, hzc, hrank, huid, huid'⟩ :=
        (readyKey_between_iff host now htime hne).mp ⟨hbc, hca⟩
      exact h.apart n hn a b c ha.1 hb.1 hc.1 hab (ha.2.trans hc.2.symm) htime hne hza hzc hrank
        hfirst huid huid'

/-! ## What is selected -/

/-- The first pods after sorting are the same for every listing. -/
def SortsAlike (pods : List RankedPod) : Prop :=
  ∀ listing, listing.Perm pods → ∀ k,
    ((sortPods host now listing).take k).Perm ((sortPods host now pods).take k)

/-- `getPodsToDelete` returns the same pods for every listing, whatever the number. -/
def SelectsAlike (now : Int) (pods relatedPods : List V1Pod) : Prop :=
  ∀ listing, listing.Perm pods → ∀ diff,
    (getPodsToDelete host now listing relatedPods diff).Perm
      (getPodsToDelete host now pods relatedPods diff)

/-- A strict weak order by which all listings sort alike is a total one. -/
theorem isTotal_iff_sortsAlike {pods : List RankedPod} (hnodup : pods.Nodup) :
    IsWeak (fun a b => less host now a b = true) (· ∈ pods) ∧ SortsAlike host now pods ↔
      IsTotal (fun a b => less host now a b = true) (· ∈ pods) := by
  rw [isTotal_iff_isWeak]
  constructor
  · rintro ⟨hweak, halike⟩
    exact ⟨hweak, fun a b ha hb hne => compares_of_select halike ha hb hne⟩
  · rintro ⟨hweak, hcompares⟩
    have htotal : IsTotal (fun a b => less host now a b = true) (· ∈ pods) :=
      isTotal_iff_isWeak.mpr ⟨hweak, hcompares⟩
    refine ⟨hweak, ?_⟩
    intro listing hperm k
    have hsame : sortPods host now listing = sortPods host now pods :=
      sort_congr htotal hnodup hperm
    rw [hsame]

theorem length_sortPods (pods : List RankedPod) : (sortPods host now pods).length = pods.length :=
  (sort_perm pods).length_eq

/-- A pod with the rank that the related pods give it. -/
def withRank (relatedPods : List V1Pod) (pod : V1Pod) : RankedPod :=
  { pod := pod, rank := ((podsOnNode relatedPods).get (pod.nodeName.getD [])).getD 0 }

abbrev ranked (pods relatedPods : List V1Pod) : List RankedPod :=
  getPodsRankedByRelatedPodsOnSameNode pods relatedPods

theorem ranked_eq_map (pods relatedPods : List V1Pod) :
    ranked pods relatedPods = pods.map (withRank relatedPods) := rfl

theorem pod_ranked (pods relatedPods : List V1Pod) :
    (ranked pods relatedPods).map RankedPod.pod = pods := by
  rw [ranked_eq_map, List.map_map]
  exact List.map_id' pods

theorem withRank_of_mem {pods relatedPods : List V1Pod} {p : RankedPod}
    (h : p ∈ ranked pods relatedPods) : withRank relatedPods p.pod = p := by
  obtain ⟨pod, _, rfl⟩ := List.mem_map.mp h
  rfl

/-- Pods that were ranked are ranked again as they were. -/
theorem ranked_of_subset {pods relatedPods : List V1Pod} {listing : List RankedPod}
    (h : ∀ p ∈ listing, p ∈ ranked pods relatedPods) :
    ranked (listing.map RankedPod.pod) relatedPods = listing := by
  rw [ranked_eq_map, List.map_map]
  have hsame : ∀ p ∈ listing, (withRank relatedPods ∘ RankedPod.pod) p = p :=
    fun p hp => withRank_of_mem (h p hp)
  exact (List.map_congr_left hsame).trans (List.map_id' listing)

theorem length_ranked (pods relatedPods : List V1Pod) :
    (ranked pods relatedPods).length = pods.length := List.length_map _

theorem getPodsToDelete_of_lt {n : Int} {pods : List V1Pod} (relatedPods : List V1Pod) {diff : Int}
    (h : diff < pods.length) : getPodsToDelete host n pods relatedPods diff =
      slice ((sortPods host (some n) (ranked pods relatedPods)).map RankedPod.pod) diff := by
  rw [getPodsToDelete, if_pos h]

/-- A slice of as many pods is a number of them from the front. -/
theorem slice_eq_take (diff : Int) (length : Nat) :
    ∃ k, ∀ pods : List V1Pod, pods.length = length → slice pods diff = pods.take k := by
  by_cases h : 0 ≤ diff
  · exact ⟨diff.toNat, fun pods _ => by rw [slice, if_pos h]⟩
  · exact ⟨(length + diff).toNat, fun pods hlength => by rw [slice, if_neg h, hlength]⟩

theorem selectsAlike_iff {n : Int} {pods relatedPods : List V1Pod} :
    SelectsAlike host n pods relatedPods ↔ SortsAlike host (some n) (ranked pods relatedPods) := by
  constructor
  · intro h listing hperm k
    have hmem : ∀ p ∈ listing, p ∈ ranked pods relatedPods := fun p hp => hperm.mem_iff.mp hp
    have hpods : (listing.map RankedPod.pod).Perm pods := by
      have := hperm.map RankedPod.pod
      rwa [pod_ranked] at this
    by_cases hk : k < pods.length
    · have hselected := h _ hpods k
      have hk' : (k : Int) < (listing.map RankedPod.pod).length := by
        rw [hpods.length_eq]
        exact Int.ofNat_lt.mpr hk
      rw [getPodsToDelete_of_lt host relatedPods (Int.ofNat_lt.mpr hk),
        getPodsToDelete_of_lt host relatedPods hk', ranked_of_subset hmem] at hselected
      simp only [slice, Int.natCast_nonneg, if_true, Int.toNat_natCast, ← List.map_take]
        at hselected
      have hback := hselected.map (withRank relatedPods)
      rw [← ranked_eq_map, ← ranked_eq_map, ranked_of_subset, ranked_of_subset] at hback
      · exact hback
      · intro p hp
        exact (sort_perm _).mem_iff.mp (List.mem_of_mem_take hp)
      · intro p hp
        exact hmem p ((sort_perm _).mem_iff.mp (List.mem_of_mem_take hp))
    · have hlength : (sortPods host (some n) (ranked pods relatedPods)).length ≤ k := by
        rw [length_sortPods, length_ranked]
        exact not_lt.mp hk
      have hlength' : (sortPods host (some n) listing).length ≤ k := by
        rw [length_sortPods, hperm.length_eq, length_ranked]
        exact not_lt.mp hk
      rw [List.take_of_length_le hlength, List.take_of_length_le hlength']
      exact ((sort_perm listing).trans hperm).trans (sort_perm _).symm
  · intro h listing hperm diff
    have hlength : listing.length = pods.length := hperm.length_eq
    by_cases hdiff : diff < pods.length
    · have hdiff' : diff < listing.length := by
        rw [hlength]
        exact hdiff
      rw [getPodsToDelete_of_lt host relatedPods hdiff, getPodsToDelete_of_lt host relatedPods hdiff']
      obtain ⟨k, hk⟩ := slice_eq_take diff pods.length
      have hranked : (ranked listing relatedPods).Perm (ranked pods relatedPods) := hperm.map _
      have hsame := (h _ hranked k).map RankedPod.pod
      rw [List.map_take, List.map_take] at hsame
      rw [hk, hk]
      · exact hsame
      · rw [List.length_map, length_sortPods, length_ranked]
      · rw [List.length_map, length_sortPods, length_ranked, hlength]
    · have hdiff' : ¬ diff < listing.length := by
        rw [hlength]
        exact hdiff
      have hnonneg : 0 ≤ diff := by omega
      rw [getPodsToDelete, getPodsToDelete, if_neg hdiff, if_neg hdiff', slice, slice, if_pos hnonneg,
        if_pos hnonneg, List.take_of_length_le (by omega), List.take_of_length_le (by omega)]
      exact hperm

/-- Pods whose uids are listed once are distinct. -/
theorem distinct_of_nodup {pods : List RankedPod} (h : (pods.map fun p => uidOf p.pod).Nodup) :
    Distinct (· ∈ pods) :=
  fun _ _ ha hb huid => List.inj_on_of_nodup_map h ha hb huid

/-- On distinct pods, with whatever ranks, `less` is a strict weak order by which all listings
sort alike exactly when the pods are separated; and with the ranks of the related pods, exactly
then it is one by which `getPodsToDelete` selects the same pods from every listing. -/
theorem selection_iff :
    (∀ now (pods : List RankedPod), (pods.map fun p => uidOf p.pod).Nodup →
      (IsWeak (fun a b => less host now a b = true) (· ∈ pods) ∧ SortsAlike host now pods ↔
        Separated host now (· ∈ pods))) ∧
    ∀ n (pods relatedPods : List V1Pod), (pods.map uidOf).Nodup →
      (IsWeak (fun a b => less host (some n) a b = true) (· ∈ ranked pods relatedPods) ∧
          SelectsAlike host n pods relatedPods ↔
        Separated host (some n) (· ∈ ranked pods relatedPods)) := by
  have hall : ∀ now (pods : List RankedPod), (pods.map fun p => uidOf p.pod).Nodup →
      (IsWeak (fun a b => less host now a b = true) (· ∈ pods) ∧ SortsAlike host now pods ↔
        Separated host now (· ∈ pods)) := by
    intro now pods hnodup
    rw [isTotal_iff_sortsAlike host now (List.Nodup.of_map _ hnodup)]
    exact isTotal_less_iff host now (distinct_of_nodup hnodup)
  refine ⟨hall, ?_⟩
  intro n pods relatedPods hnodup
  have huids : ((ranked pods relatedPods).map fun p => uidOf p.pod).Nodup := by
    rw [ranked_eq_map, List.map_map]
    exact hnodup
  rw [selectsAlike_iff]
  exact hall (some n) (ranked pods relatedPods) huids

/-! ### Three pods that go round -/

/-- A host whose logarithm is exact. -/
def exactHost : Host := { dateParse := fun _ => none, floorLog2 := fun d => d.toNat.log2 }

/-- A ready pod on a node. -/
def readyPod (uid : String) (since restarts : Int) : V1Pod :=
  { uid := some (js uid)
    nodeName := some (js "node")
    phase := some (js "Running")
    conditions := some [{ type := js "Ready", status := js "True"
                          lastTransitionTime := some (.date since) }]
    creationTimestamp := some (.date since)
    containerStatuses := some [{ name := js "c", restartCount := some restarts }] }

/-- Ready at once, `c` with a restart; `b` has been ready for a second less. -/
def podC : V1Pod := readyPod "c" 50000 1
def podA : V1Pod := readyPod "a" 50000 0
def podB : V1Pod := readyPod "b" 51000 0

def three : List V1Pod := [podC, podA, podB]

/-- The pod with the restart is less than its equal, that one by its uid than the third, and the
third by its uid than the first. -/
theorem three_go_round :
    less exactHost (some 100000) (withRank [] podC) (withRank [] podA) = true ∧
    less exactHost (some 100000) (withRank [] podA) (withRank [] podB) = true ∧
    less exactHost (some 100000) (withRank [] podB) (withRank [] podC) = true := by
  decide +kernel

/-- So `less` is no strict weak order on the three, and which one is selected goes by the listing. -/
theorem selection_goes_round : (three.map uidOf).Nodup ∧
    ¬ IsWeak (fun a b => less exactHost (some 100000) a b = true) (· ∈ ranked three []) ∧
    ¬ SelectsAlike exactHost 100000 three [] := by
  refine ⟨by decide, ?_, ?_⟩
  · intro h
    obtain ⟨hca, hab, hbc⟩ := three_go_round
    have hA : withRank [] podA ∈ ranked three [] := List.mem_map_of_mem (by simp [three])
    have hB : withRank [] podB ∈ ranked three [] := List.mem_map_of_mem (by simp [three])
    have hC : withRank [] podC ∈ ranked three [] := List.mem_map_of_mem (by simp [three])
    exact h.irrefl _ hC (h.trans _ _ _ hC hB hC (h.trans _ _ _ hC hA hB hca hab) hbc)
  · intro h
    have hlisting : [podA, podB, podC].Perm three :=
      (List.perm_append_comm : ([podA, podB] ++ [podC]).Perm ([podC] ++ [podA, podB]))
    have hsame := (h _ hlisting 1).map uidOf
    have hdiffer : ¬ ((getPodsToDelete exactHost 100000 [podA, podB, podC] [] 1).map uidOf).Perm
        ((getPodsToDelete exactHost 100000 three [] 1).map uidOf) := by
      decide +kernel
    exact hdiffer hsame

/-- Two pods that became ready at different times are separated, and one listing is as good as
the other. -/
theorem selection_iff_two :
    IsWeak (fun a b => less exactHost (some 100000) a b = true) (· ∈ ranked [podA, podB] []) ∧
      SelectsAlike exactHost 100000 [podA, podB] [] := by
  refine ((selection_iff exactHost).2 100000 [podA, podB] [] (by decide)).mpr ?_
  have htimes : readyTime exactHost (withRank [] podA) ≠ readyTime exactHost (withRank [] podB) := by
    decide +kernel
  have hsame : ∀ a b, a ∈ ranked [podA, podB] [] → b ∈ ranked [podA, podB] [] →
      readyTime exactHost a = readyTime exactHost b → a = b := by
    intro a b ha hb htime
    rw [ranked_eq_map] at ha hb
    simp only [List.map_cons, List.map_nil, List.mem_cons, List.not_mem_nil, or_false] at ha hb
    rcases ha with rfl | rfl <;> rcases hb with rfl | rfl
    · rfl
    · exact absurd htime htimes
    · exact absurd htime.symm htimes
    · rfl
  refine ⟨?_, ?_⟩
  · intro a b ha hb hne _ htime _
    exact absurd (hsame a b ha hb htime) hne
  · intro n _ a b c ha hb _ _ _ htime _ _ _ _ _ huid huid'
    obtain rfl : a = b := hsame a b ha hb htime
    exact lt_asymm huid huid'

end Webernetes.Controller.ActivePods
