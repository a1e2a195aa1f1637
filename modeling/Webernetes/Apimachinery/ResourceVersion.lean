/-
Webernetes.Apimachinery.ResourceVersion — resource versions and their order.

A version is a text of digits without a leading zero. Two of them are
compared by length and then as texts, which is the order of the numbers
they spell (`compareResourceVersion_decimal`).
-/
import Webernetes.Js.Decimal

namespace Webernetes.Apimachinery

open Js

/-- Between `"0"` and `"9"`. -/
def isDigit (u : CodeUnit) : Bool := decide (48 ≤ u.val ∧ u.val ≤ 57)

/-- `isWellFormed`, of a resource version. -/
def isWellFormedVersion (s : JsString) : Bool :=
  match s with
  | [] => false
  | first :: _ => first.val != 48 && s.all isDigit

/-- `InvalidResourceVersion`. -/
def invalidResourceVersion (rv : JsString) : JsString :=
  js "resource version is not well formed: " ++ rv

/-- `a.localeCompare(b)` of two texts of digits, which every collation orders
as their units. -/
def localeCompareDigits (a b : JsString) : Ordering := compare a b

/-- The sign of the number, or the error. -/
def compareResourceVersion (a b : JsString) : Except JsString Ordering :=
  if isWellFormedVersion a = false then .error (invalidResourceVersion a)
  else if isWellFormedVersion b = false then .error (invalidResourceVersion b)
  else if a.length < b.length then .ok .lt
  else if a.length > b.length then .ok .gt
  else .ok (localeCompareDigits a b)

/-! ## The versions a server gives -/

theorem isDigit_digitUnit {d : Nat} (h : d < 10) : isDigit (digitUnit d) = true := by
  simp only [isDigit, digitUnit_val h, decide_eq_true_eq]
  omega

theorem all_isDigit_decimal (n : Nat) : (decimal n).all isDigit = true := by
  induction n using Nat.strongRecOn with
  | ind n ih =>
    by_cases hn : n < 10
    · simp [decimal_of_lt hn, isDigit_digitUnit hn]
    · rw [decimal_of_le (by omega), List.all_append, ih (n / 10) (by omega)]
      simp [isDigit_digitUnit (Nat.mod_lt n (by decide : 0 < 10))]

/-- No number but zero starts with a zero. -/
theorem head_decimal {n : Nat} (h : 0 < n) : ∃ first rest, decimal n = first :: rest ∧ first.val ≠ 48 := by
  induction n using Nat.strongRecOn with
  | ind n ih =>
    by_cases hn : n < 10
    · exact ⟨digitUnit n, [], decimal_of_lt hn, by rw [digitUnit_val hn]; omega⟩
    · obtain ⟨first, rest, hdecimal, hfirst⟩ := ih (n / 10) (by omega) (by omega)
      rw [decimal_of_le (by omega), hdecimal]
      exact ⟨first, rest ++ [digitUnit (n % 10)], rfl, hfirst⟩

theorem isWellFormedVersion_decimal {n : Nat} (h : 0 < n) : isWellFormedVersion (decimal n) = true := by
  obtain ⟨first, rest, hdecimal, hfirst⟩ := head_decimal h
  have hall := all_isDigit_decimal n
  rw [hdecimal] at hall ⊢
  simp only [isWellFormedVersion, Bool.and_eq_true, bne_iff_ne, ne_eq]
  exact ⟨hfirst, hall⟩

/-- Versions are ordered as the revisions they spell. -/
theorem compareResourceVersion_decimal {m n : Nat} (hm : 0 < m) (hn : 0 < n) :
    compareResourceVersion (decimal m) (decimal n) = .ok (compare m n) := by
  unfold compareResourceVersion
  rw [if_neg (by simp [isWellFormedVersion_decimal hm]), if_neg (by simp [isWellFormedVersion_decimal hn])]
  split
  · rename_i hlength
    rw [Nat.compare_eq_lt.mpr (lt_of_length_lt hlength)]
  · split
    · rename_i hlength
      rw [Nat.compare_eq_gt.mpr (lt_of_length_lt hlength)]
    · rename_i hle hge
      exact congrArg Except.ok (compare_decimal (Nat.le_antisymm (Nat.not_lt.mp hge) (Nat.not_lt.mp hle)))

end Webernetes.Apimachinery
