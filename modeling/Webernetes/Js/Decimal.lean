/-
Webernetes.Js.Decimal — numbers in decimal.
-/
import Webernetes.Js.Text
import Mathlib.Algebra.Group.Nat.Defs
import Std.Data.String.ToNat

namespace Webernetes.Js

/-- `String(n)` of a number that is no fraction and not negative. -/
def decimal (n : Nat) : JsString := js (toString n)

/-- The code unit of a character below U+10000. -/
def unitOf (c : Char) : CodeUnit := Fin.ofNat 65536 c.toNat

theorem flatMap_ofScalar {cs : List Char} (h : ∀ c ∈ cs, c.toNat < 0x10000) :
    cs.flatMap ofScalar = cs.map unitOf := by
  induction cs with
  | nil => rfl
  | cons c cs ih =>
    have hc : c.toNat < 0x10000 := h c List.mem_cons_self
    simp only [List.flatMap_cons, List.map_cons, ofScalar, if_pos hc, List.singleton_append]
    rw [ih fun d hd => h d (List.mem_cons_of_mem _ hd)]
    rfl

theorem unitOf_val {c : Char} (h : c.toNat < 0x10000) : (unitOf c).val = c.toNat := by
  simp [unitOf, Fin.ofNat, Nat.mod_eq_of_lt h]

/-- The characters of a text below U+10000 are those of its units. -/
theorem map_unitOf {cs : List Char} (h : ∀ c ∈ cs, c.toNat < 0x10000) :
    (cs.map unitOf).map (fun u => Char.ofNat u.val) = cs := by
  rw [List.map_map]
  conv_rhs => rw [← List.map_id cs]
  refine List.map_congr_left fun c hc => ?_
  simp only [Function.comp_apply, unitOf_val (h c hc), Char.ofNat_toNat, id_eq]

theorem toString_toList (n : Nat) : (toString n).toList = Nat.toDigits 10 n := by
  simp

theorem toNat_of_isDigit {c : Char} (h : c.isDigit = true) : 48 ≤ c.toNat ∧ c.toNat ≤ 57 := by
  simp only [Char.isDigit, Bool.and_eq_true, decide_eq_true_eq, ge_iff_le,
    UInt32.le_iff_toNat_le] at h
  exact h

theorem toNat_of_mem {n : Nat} {c : Char} (h : c ∈ (toString n).toList) :
    48 ≤ c.toNat ∧ c.toNat ≤ 57 := by
  rw [toString_toList] at h
  exact toNat_of_isDigit (Nat.isDigit_of_mem_toDigits (by decide) (by decide) h)

theorem decimal_eq_map (n : Nat) : decimal n = (toString n).toList.map unitOf :=
  flatMap_ofScalar fun c hc => by
    have hdigit := toNat_of_mem hc
    omega

theorem decimal_ne_nil (n : Nat) : decimal n ≠ [] := by
  rw [decimal_eq_map, toString_toList]
  simp

/-- Numbers that are spelled the same are the same. -/
theorem decimal_inj {m n : Nat} (h : decimal m = decimal n) : m = n := by
  have hsmall : ∀ k : Nat, ∀ c ∈ (toString k).toList, c.toNat < 0x10000 := fun k c hc => by
    have hdigit := toNat_of_mem hc
    omega
  have hchars : (toString m).toList = (toString n).toList := by
    rw [← map_unitOf (hsmall m), ← map_unitOf (hsmall n), ← decimal_eq_map, ← decimal_eq_map, h]
  exact Nat.repr_injective (String.toList_inj.mp hchars)

/-! ## Digit by digit -/

/-- The unit of a digit. -/
def digitUnit (d : Nat) : CodeUnit := unitOf d.digitChar

theorem digitUnit_val {d : Nat} (h : d < 10) : (digitUnit d).val = 48 + d := by
  have hchar := Nat.toNat_digitChar_of_lt_ten h
  rw [digitUnit, unitOf_val (by omega), hchar]

theorem decimal_of_lt {n : Nat} (h : n < 10) : decimal n = [digitUnit n] := by
  rw [decimal_eq_map, toString_toList, Nat.toDigits_of_lt_base h]
  rfl

theorem decimal_of_le {n : Nat} (h : 10 ≤ n) : decimal n = decimal (n / 10) ++ [digitUnit (n % 10)] := by
  rw [decimal_eq_map, toString_toList, Nat.toDigits_of_base_le (by decide) h, List.map_append,
    decimal_eq_map, toString_toList]
  rfl

/-- The length of a number's text against a power of ten. -/
theorem length_decimal_le_iff {n k : Nat} (hk : 0 < k) : (decimal n).length ≤ k ↔ n < 10 ^ k := by
  rw [decimal_eq_map, toString_toList, List.length_map]
  exact Nat.length_toDigits_le_iff (by decide) hk

theorem length_decimal_pos (n : Nat) : 0 < (decimal n).length :=
  List.length_pos_iff.mpr (decimal_ne_nil n)

/-- A shorter text is a smaller number. -/
theorem lt_of_length_lt {m n : Nat} (h : (decimal m).length < (decimal n).length) : m < n := by
  have hpos := length_decimal_pos m
  have hm : m < 10 ^ (decimal m).length := (length_decimal_le_iff hpos).mp (Nat.le_refl _)
  have hn : ¬ n < 10 ^ (decimal m).length := fun hlt =>
    absurd ((length_decimal_le_iff hpos).mpr hlt) (by omega)
  omega

theorem compare_append_singleton {xs ys : JsString} (h : xs.length = ys.length) (a b : CodeUnit) :
    compare (xs ++ [a]) (ys ++ [b]) = (compare xs ys).then (compare a b) := by
  induction xs generalizing ys with
  | nil =>
    obtain rfl := List.length_eq_zero_iff.mp h.symm
    simp
  | cons x xs ih =>
    cases ys with
    | nil => cases h
    | cons y ys =>
      have ih := ih (Nat.succ.inj h)
      simp only [List.compare_eq_compareLex] at ih
      simp only [List.compare_eq_compareLex, List.cons_append, List.compareLex_cons_cons, ih,
        Ordering.then_assoc]

theorem compare_digitUnit {d e : Nat} (hd : d < 10) (he : e < 10) :
    compare (digitUnit d) (digitUnit e) = compare d e := by
  have hcompare : compare (digitUnit d) (digitUnit e) = compare (digitUnit d).val (digitUnit e).val :=
    rfl
  rw [hcompare, digitUnit_val hd, digitUnit_val he, Nat.compare_eq_ite_lt, Nat.compare_eq_ite_lt]
  simp

theorem compare_div_then_mod (m n : Nat) :
    (compare (m / 10) (n / 10)).then (compare (m % 10) (n % 10)) = compare m n := by
  simp only [Nat.compare_eq_ite_lt]
  repeat' split
  all_goals first | rfl | (exfalso; omega)

/-- Texts of one length are ordered as their numbers are. -/
theorem compare_decimal {m n : Nat} (h : (decimal m).length = (decimal n).length) :
    compare (decimal m) (decimal n) = compare m n := by
  induction m using Nat.strongRecOn generalizing n with
  | ind m ih =>
    have hsmall : ∀ k, k < 10 ↔ (decimal k).length ≤ 1 := fun k => by
      simpa using (length_decimal_le_iff (n := k) (k := 1) (by decide)).symm
    by_cases hm : m < 10
    · have hn : n < 10 := (hsmall n).mpr (h ▸ (hsmall m).mp hm)
      rw [decimal_of_lt hm, decimal_of_lt hn, ← compare_digitUnit hm hn]
      simp
    · have hn : ¬ n < 10 := fun hn => hm ((hsmall m).mpr (h ▸ (hsmall n).mp hn))
      rw [decimal_of_le (by omega), decimal_of_le (by omega : 10 ≤ n)] at h ⊢
      have hlength : (decimal (m / 10)).length = (decimal (n / 10)).length := by
        simpa using h
      have hdigit : ∀ k, k % 10 < 10 := fun k => Nat.mod_lt k (by decide)
      rw [compare_append_singleton hlength, ih (m / 10) (by omega) hlength,
        compare_digitUnit (hdigit m) (hdigit n), compare_div_then_mod]

end Webernetes.Js
