/-
Webernetes.Js.Date — the instants that a `Date` holds.

Arithmetic on numbers is exact here: a number is a rational, an infinity or
`NaN`. A `Date` holds whole milliseconds within its range, or nothing
(`Invalid Date`), and an invalid one is neither before nor after another.
-/
import Mathlib.Data.Rat.Floor
import Mathlib.Tactic

namespace Webernetes.Js

inductive Number where
  | nan
  | infinity (negative : Bool)
  | finite (value : ℚ)
  deriving DecidableEq

namespace Number

/-- `x <= 0`. -/
def nonPositive : Number → Bool
  | nan => false
  | infinity negative => negative
  | finite x => decide (x ≤ 0)

def add (x : ℚ) : Number → Number
  | nan => nan
  | infinity negative => infinity negative
  | finite y => finite (x + y)

end Number

/-- What `getTime` returns; `NaN` is none. -/
abbrev Time := Option Int

def maxTime : ℚ := 8640000000000000

/-- `new Date(x).getTime()`. -/
def timeClip : Number → Time
  | .finite x =>
    if -maxTime ≤ x ∧ x ≤ maxTime then some (if 0 ≤ x then x.floor else x.ceil) else none
  | _ => none

/-- `a > b`. -/
def Time.after : Time → Time → Bool
  | some a, some b => decide (b < a)
  | _, _ => false

theorem le_maxTime_of_timeClip {x : Number} {t : Int} (h : timeClip x = some t) :
    (t : ℚ) ≤ maxTime := by
  cases x with
  | nan => simp [timeClip] at h
  | infinity negative => simp [timeClip] at h
  | finite x =>
    simp only [timeClip, Option.ite_none_right_eq_some, Option.some.injEq] at h
    obtain ⟨⟨-, hmax⟩, rfl⟩ := h
    split
    · exact (Rat.floor_le x).trans hmax
    · rename_i hneg
      have hceil : x.ceil ≤ 0 := Rat.ceil_le_iff.mpr (by simpa using (not_le.mp hneg).le)
      have hzero : (x.ceil : ℚ) ≤ 0 := by exact_mod_cast hceil
      exact hzero.trans (by unfold maxTime; norm_num)

/-- A Date after the present one is later than the present. -/
theorem lt_of_after {t : Int} {now : ℚ} (hnow : 0 ≤ now)
    (h : Time.after (some t) (timeClip (.finite now)) = true) : now < t := by
  simp only [timeClip, hnow, if_true] at h
  by_cases hrange : -maxTime ≤ now ∧ now ≤ maxTime
  · rw [if_pos hrange] at h
    simp only [Time.after, decide_eq_true_eq] at h
    exact Rat.floor_lt_iff.mp h
  · rw [if_neg hrange] at h
    simp [Time.after] at h

/-- A Date not after the present one is not later than the present. -/
theorem le_of_not_after {t : Int} {now : ℚ} (hnow : 0 ≤ now) (hmax : (t : ℚ) ≤ maxTime)
    (h : Time.after (some t) (timeClip (.finite now)) = false) : (t : ℚ) ≤ now := by
  simp only [timeClip, hnow, if_true] at h
  by_cases hrange : -maxTime ≤ now ∧ now ≤ maxTime
  · rw [if_pos hrange] at h
    simp only [Time.after, decide_eq_false_iff_not, not_lt] at h
    exact Rat.le_floor_iff.mp h
  · by_contra hlt
    have hzero : -maxTime ≤ 0 := by
      unfold maxTime
      norm_num
    exact hrange (And.intro (hzero.trans hnow) ((not_le.mp hlt).le.trans hmax))

end Webernetes.Js
