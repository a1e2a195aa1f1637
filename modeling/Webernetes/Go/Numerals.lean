/-
Webernetes.Go.Numerals — which strings `parseInt` takes for integers.

The numerals are given by a grammar: digits, the prefixes of base 0, and the
underscores that may stand between digits or after a prefix. `parseDigits` only
scans (`scan`), with the underscores passed over; `underscoreOK` puts the rest
of the grammar back (`underscoreLoop_iff`). The result is that the two together
take the numerals without a sign (`magnitude_iff`).
-/
import Webernetes.Go.Strconv
import Mathlib.Data.List.Infix

namespace Webernetes.Go

open Js

/-! ## Numerals -/

/-- The value of a digit of the base. -/
def digitBelow (base : Nat) (c : CodeUnit) : Option Nat := (digitValue c).filter (· < base)

/-- Digits after the first, where what stands before has the value `n`; when
they are separated, each may have one underscore before it. -/
inductive MoreDigits (base : Nat) (separated : Bool) : Nat → JsString → Nat → Prop where
  | done (n : Nat) : MoreDigits base separated n [] n
  | digit {n m d : Nat} {c : CodeUnit} {s : JsString} (hdigit : digitBelow base c = some d)
      (hmore : MoreDigits base separated (n * base + d) s m) : MoreDigits base separated n (c :: s) m
  | underscore {n m d : Nat} {c : CodeUnit} {s : JsString} (hseparated : separated = true)
      (hdigit : digitBelow base c = some d)
      (hmore : MoreDigits base separated (n * base + d) s m) :
      MoreDigits base separated n (unit '_' :: c :: s) m

/-- At least one digit. -/
inductive Digits (base : Nat) (separated : Bool) : JsString → Nat → Prop where
  | mk {m d : Nat} {c : CodeUnit} {s : JsString} (hdigit : digitBelow base c = some d)
      (hmore : MoreDigits base separated d s m) : Digits base separated (c :: s) m

/-- The base a letter after a zero stands for. -/
def radix (letter : CodeUnit) : Option Nat :=
  if lower letter = unit 'b' then some 2
  else if lower letter = unit 'o' then some 8
  else if lower letter = unit 'x' then some 16
  else none

/-- Numerals without a sign. -/
inductive Magnitude : Int → JsString → Nat → Prop where
  | plain {base : Int} {s : JsString} {n : Nat} (hbase : base ≠ 0)
      (hdigits : Digits base.toNat false s n) : Magnitude base s n
  | decimal {s : JsString} {n : Nat} (hhead : s[0]? ≠ some (unit '0'))
      (hdigits : Digits 10 true s n) : Magnitude 0 s n
  | octal {s : JsString} {n : Nat} (hhead : s[0]? = some (unit '0'))
      (hdigits : Digits 8 true s n) : Magnitude 0 s n
  | prefixed {letter : CodeUnit} {base n : Nat} {s : JsString} (hradix : radix letter = some base)
      (hdigits : Digits base true s n) : Magnitude 0 (unit '0' :: letter :: s) n
  | prefixedUnderscore {letter : CodeUnit} {base n : Nat} {s : JsString}
      (hradix : radix letter = some base) (hdigits : Digits base true s n) :
      Magnitude 0 (unit '0' :: letter :: unit '_' :: s) n

inductive Numeral (base : Int) : JsString → Int → Prop where
  | unsigned {s : JsString} {n : Nat} (h : Magnitude base s n) : Numeral base s n
  | plus {s : JsString} {n : Nat} (h : Magnitude base s n) : Numeral base (unit '+' :: s) n
  | minus {s : JsString} {n : Nat} (h : Magnitude base s n) : Numeral base (unit '-' :: s) (-n)

/-! ## Scanning -/

/-- The value of the digits; the underscores are passed over when they are
separated. -/
def scan (separated : Bool) (base : Nat) : Nat → JsString → Option Nat
  | n, [] => some n
  | n, c :: s =>
    if c = unit '_' ∧ separated = true then scan separated base n s
    else (digitBelow base c).bind fun d => scan separated base (n * base + d) s

theorem digitValue_underscore : digitValue (unit '_') = none := by decide

theorem digitBelow_underscore (base : Nat) : digitBelow base (unit '_') = none := by
  rw [digitBelow, digitValue_underscore, Option.filter_none]

theorem ne_underscore_of_digitBelow {base d : Nat} {c : CodeUnit} (h : digitBelow base c = some d) :
    c ≠ unit '_' := by
  intro hc
  rw [hc, digitBelow_underscore] at h
  cases h

theorem digitBelow_eq_some {base d : Nat} {c : CodeUnit} :
    digitBelow base c = some d ↔ digitValue c = some d ∧ d < base := by
  simp [digitBelow, Option.filter_eq_some_iff]

section Scan

variable {separated : Bool} {base : Nat}

theorem scan_digit {n d : Nat} {c : CodeUnit} (h : digitBelow base c = some d) (s : JsString) :
    scan separated base n (c :: s) = scan separated base (n * base + d) s := by
  have hc := ne_underscore_of_digitBelow h
  simp [scan, hc, h]

theorem scan_underscore (n : Nat) (s : JsString) :
    scan true base n (unit '_' :: s) = scan true base n s := by
  simp [scan]

theorem scan_none {n : Nat} {c : CodeUnit} (h : digitBelow base c = none)
    (hc : ¬ (c = unit '_' ∧ separated = true)) (s : JsString) :
    scan separated base n (c :: s) = none := by
  simp [scan, hc, h]

theorem scan_of_moreDigits {n m : Nat} {s : JsString} (h : MoreDigits base separated n s m) :
    scan separated base n s = some m := by
  induction h with
  | done n => rfl
  | digit hdigit _ ih => rw [scan_digit hdigit, ih]
  | underscore hseparated hdigit _ ih =>
    subst hseparated
    rw [scan_underscore, scan_digit hdigit, ih]

/-- Without underscores the scan is the grammar. -/
theorem moreDigits_of_scan : ∀ {n m : Nat} {s : JsString}, scan false base n s = some m →
    MoreDigits base false n s m
  | n, m, [], h => by
      cases h
      exact .done n
  | n, m, c :: s, h => by
      cases hdigit : digitBelow base c with
      | none => simp [scan, hdigit] at h
      | some d =>
        rw [scan_digit hdigit] at h
        exact .digit hdigit (moreDigits_of_scan h)

theorem le_of_scan (hbase : 0 < base) : ∀ {n m : Nat} {s : JsString},
    scan separated base n s = some m → n ≤ m
  | n, m, [], h => by
      cases h
      exact Nat.le_refl n
  | n, m, c :: s, h => by
      by_cases hc : c = unit '_' ∧ separated = true
      · rw [scan, if_pos hc] at h
        exact le_of_scan hbase h
      · rw [scan, if_neg hc] at h
        obtain ⟨d, -, hrest⟩ := Option.bind_eq_some_iff.mp h
        have hstep := le_of_scan hbase hrest
        have hmul : n * 1 ≤ n * base := Nat.mul_le_mul_left n hbase
        omega

theorem scan_append (n : Nat) (s t : JsString) :
    scan separated base n (s ++ t) = (scan separated base n s).bind fun m =>
      scan separated base m t := by
  induction s generalizing n with
  | nil => rfl
  | cons c s ih =>
    by_cases hc : c = unit '_' ∧ separated = true
    · simp only [List.cons_append, scan, if_pos hc, ih]
    · simp only [List.cons_append, scan, if_neg hc]
      cases digitBelow base c with
      | none => rfl
      | some d => exact ih _

/-- What a start of the text is worth, the whole text is worth at least. -/
theorem le_of_prefix {p s : JsString} {n k m : Nat} (hbase : 0 < base) (hp : p <+: s)
    (hpart : scan separated base n p = some k) (hwhole : scan separated base n s = some m) :
    k ≤ m := by
  obtain ⟨t, rfl⟩ := hp
  rw [scan_append, hpart] at hwhole
  exact le_of_scan hbase hwhole

end Scan

/-! ## The underscores -/

/-- A digit of the base is a digit to `underscoreOK`. -/
def DigitsKnown (hex : Bool) (base : Nat) : Prop :=
  ∀ c d, digitBelow base c = some d →
    (unit '0' ≤ c ∧ c ≤ unit '9') ∨ (hex = true ∧ unit 'a' ≤ lower c ∧ lower c ≤ unit 'f')

theorem underscoreLoop_digit {hex : Bool} {base d : Nat} (hknown : DigitsKnown hex base)
    {c : CodeUnit} (h : digitBelow base c = some d) (saw : CodeUnit) (s : JsString) :
    underscoreLoop hex saw (c :: s) = underscoreLoop hex (unit '0') s := by
  have hdigit := hknown c d h
  rw [underscoreLoop, if_pos hdigit]

theorem underscoreLoop_underscore (hex : Bool) (saw : CodeUnit) (s : JsString) :
    underscoreLoop hex saw (unit '_' :: s)
      = if saw ≠ unit '0' then false else underscoreLoop hex (unit '_') s := by
  have hnot : ¬ ((unit '0' ≤ unit '_' ∧ unit '_' ≤ unit '9')
      ∨ (hex = true ∧ unit 'a' ≤ lower (unit '_') ∧ lower (unit '_') ≤ unit 'f')) := by
    cases hex <;> decide
  rw [underscoreLoop, if_neg hnot, if_pos rfl]

/-- The text that may follow a digit. The induction is on the text, for both
the start after a digit and the start where a digit has to come. -/
theorem underscoreLoop_iff {hex : Bool} {base : Nat} (hknown : DigitsKnown hex base) :
    ∀ (s : JsString) (n m : Nat),
      (underscoreLoop hex (unit '0') s = true ∧ scan true base n s = some m
        ↔ MoreDigits base true n s m) ∧
      ∀ saw, saw ≠ unit '0' → s ≠ [] →
        (underscoreLoop hex saw s = true ∧ scan true base n s = some m
          ↔ ∃ c d rest, s = c :: rest ∧ digitBelow base c = some d
            ∧ MoreDigits base true (n * base + d) rest m)
  | [], n, m => by
      refine ⟨?_, fun saw _ hne => absurd rfl hne⟩
      constructor
      · rintro ⟨-, hscan⟩
        cases hscan
        exact .done n
      · intro h
        cases h
        exact ⟨rfl, rfl⟩
  | c :: s, n, m => by
      cases hdigit : digitBelow base c with
      | some d =>
        obtain ⟨hrest, -⟩ := underscoreLoop_iff hknown s (n * base + d) m
        have hmore : MoreDigits base true n (c :: s) m
            ↔ MoreDigits base true (n * base + d) s m := by
          constructor
          · intro h
            cases h with
            | digit hdigit' hmore =>
              cases hdigit.symm.trans hdigit'
              exact hmore
            | underscore => exact absurd rfl (ne_underscore_of_digitBelow hdigit)
          · exact .digit hdigit
        constructor
        · rw [underscoreLoop_digit hknown hdigit, scan_digit hdigit, hrest, hmore]
        · intro saw _ _
          rw [underscoreLoop_digit hknown hdigit, scan_digit hdigit, hrest]
          constructor
          · intro h
            exact ⟨c, d, s, rfl, hdigit, h⟩
          · rintro ⟨c', d', rest, heq, hdigit', h⟩
            cases heq
            cases hdigit.symm.trans hdigit'
            exact h
      | none =>
        by_cases hc : c = unit '_'
        · subst hc
          constructor
          · rw [underscoreLoop_underscore, if_neg (by simp), scan_underscore]
            cases s with
            | nil =>
              constructor
              · rintro ⟨hend, -⟩
                simp [underscoreLoop] at hend
              · intro h
                cases h with
                | digit hdigit' => exact absurd (hdigit.symm.trans hdigit') (by simp)
            | cons c' s' =>
              obtain ⟨-, hrest⟩ := underscoreLoop_iff hknown (c' :: s') n m
              rw [hrest (unit '_') (by decide) (by simp)]
              constructor
              · rintro ⟨c'', d, rest, heq, hdigit', h⟩
                cases heq
                exact .underscore rfl hdigit' h
              · intro h
                cases h with
                | digit hdigit' => exact absurd (hdigit.symm.trans hdigit') (by simp)
                | underscore _ hdigit' hmore => exact ⟨c', _, s', rfl, hdigit', hmore⟩
          · intro saw hsaw _
            rw [underscoreLoop_underscore, if_pos hsaw]
            constructor
            · rintro ⟨hfalse, -⟩
              exact absurd hfalse (by simp)
            · rintro ⟨c', d, rest, heq, hdigit', -⟩
              cases heq
              exact absurd (hdigit.symm.trans hdigit') (by simp)
        · have hscan : scan true base n (c :: s) = none :=
            scan_none hdigit (fun h => hc h.1) s
          constructor
          · rw [hscan]
            constructor
            · rintro ⟨-, hnone⟩
              cases hnone
            · intro h
              cases h with
              | digit hdigit' => exact absurd (hdigit.symm.trans hdigit') (by simp)
              | underscore => exact absurd rfl hc
          · intro saw _ _
            rw [hscan]
            constructor
            · rintro ⟨-, hnone⟩
              cases hnone
            · rintro ⟨c', d, rest, heq, hdigit', -⟩
              cases heq
              exact absurd (hdigit.symm.trans hdigit') (by simp)

theorem underscoreLoop_of_not_mem {hex : Bool} : ∀ {s : JsString} {saw : CodeUnit},
    unit '_' ∉ s → saw ≠ unit '_' → underscoreLoop hex saw s = true
  | [], saw, _, hsaw => by simp [underscoreLoop, hsaw]
  | c :: s, saw, hmem, _ => by
      have hc : c ≠ unit '_' := fun h => hmem (h ▸ List.mem_cons_self)
      have hs : unit '_' ∉ s := fun h => hmem (List.mem_cons_of_mem _ h)
      rw [underscoreLoop]
      split
      · exact underscoreLoop_of_not_mem hs (by decide)
      · exact underscoreLoop_of_not_mem hs (by decide)

/-- `underscoreOK` after the sign. -/
def underscoreBody (s : JsString) : Bool :=
  if s[0]? = some (unit '0') ∧ (s[1]?.map lower = some (unit 'b')
      ∨ s[1]?.map lower = some (unit 'o') ∨ s[1]?.map lower = some (unit 'x')) then
    underscoreLoop (decide (s[1]?.map lower = some (unit 'x'))) (unit '0') (s.drop 2)
  else underscoreLoop false (unit '^') s

theorem underscoreOK_signed {s : JsString} (h : s[0]? = some (unit '-') ∨ s[0]? = some (unit '+')) :
    underscoreOK s = underscoreBody (s.drop 1) := by
  simp only [underscoreOK, if_pos h, underscoreBody]

theorem underscoreOK_unsigned {s : JsString}
    (h : ¬ (s[0]? = some (unit '-') ∨ s[0]? = some (unit '+'))) :
    underscoreOK s = underscoreBody s := by
  simp only [underscoreOK, if_neg h, underscoreBody]

theorem underscoreOK_of_not_mem {s : JsString} (h : unit '_' ∉ s) : underscoreOK s = true := by
  have hzero : unit '0' ≠ unit '_' := by decide
  have hstart : unit '^' ≠ unit '_' := by decide
  have hbody : ∀ t : JsString, unit '_' ∉ t → underscoreBody t = true := by
    intro t ht
    rw [underscoreBody]
    split
    · exact underscoreLoop_of_not_mem (fun hmem => ht (List.mem_of_mem_drop hmem)) hzero
    · exact underscoreLoop_of_not_mem ht hstart
  by_cases hsign : s[0]? = some (unit '-') ∨ s[0]? = some (unit '+')
  · rw [underscoreOK_signed hsign]
    exact hbody _ fun hmem => h (List.mem_of_mem_drop hmem)
  · rw [underscoreOK_unsigned hsign]
    exact hbody s h

/-! ## The digits of a magnitude -/

theorem digitValue_cases {c : CodeUnit} {d : Nat} (h : digitValue c = some d) :
    (unit '0' ≤ c ∧ c ≤ unit '9') ∨
      (unit 'a' ≤ lower c ∧ d = (lower c).val - (unit 'a').val + 10) := by
  unfold digitValue at h
  split at h
  · rename_i hdigit
    exact .inl hdigit
  · split at h
    · rename_i hletter
      cases h
      exact .inr ⟨hletter.1, rfl⟩
    · cases h

theorem digitsKnown_of_le {base : Nat} (hbase : base ≤ 10) (hex : Bool) : DigitsKnown hex base := by
  intro c d h
  obtain ⟨hvalue, hlt⟩ := digitBelow_eq_some.mp h
  rcases digitValue_cases hvalue with hdigit | ⟨-, hd⟩
  · exact .inl hdigit
  · omega

theorem digitsKnown_hex : DigitsKnown true 16 := by
  intro c d h
  obtain ⟨hvalue, hlt⟩ := digitBelow_eq_some.mp h
  rcases digitValue_cases hvalue with hdigit | ⟨hletter, hd⟩
  · exact .inl hdigit
  · refine .inr ⟨rfl, hletter, ?_⟩
    have hval : (unit 'a').val ≤ (lower c).val := hletter
    have ha : (unit 'a').val = 97 := rfl
    have hf : (unit 'f').val = 102 := rfl
    rw [Fin.le_def]
    omega

/-- The base and the digits of a text without its sign. -/
def digitsText (base : Int) (s : JsString) : Nat × JsString :=
  if base = 0 then inferBase s else (base.toNat, s)

/-- A first digit is a digit after the value zero. -/
theorem digits_iff {base : Nat} {separated : Bool} {c : CodeUnit} {s : JsString} {n : Nat} :
    Digits base separated (c :: s) n ↔
      ∃ d, digitBelow base c = some d ∧ MoreDigits base separated d s n := by
  constructor
  · rintro ⟨hdigit, hmore⟩
    exact ⟨_, hdigit, hmore⟩
  · rintro ⟨d, hdigit, hmore⟩
    exact .mk hdigit hmore

/-- Where no underscore comes first, the digits go on from the value zero. -/
theorem moreDigits_zero_iff {base : Nat} {separated : Bool} {c : CodeUnit} {s : JsString} {n : Nat} :
    MoreDigits base separated 0 (c :: s) n ↔ Digits base separated (c :: s) n ∨
      (separated = true ∧ c = unit '_' ∧ Digits base separated s n) := by
  constructor
  · intro h
    cases h with
    | digit hdigit hmore =>
      rw [Nat.zero_mul, Nat.zero_add] at hmore
      exact .inl (.mk hdigit hmore)
    | underscore hseparated hdigit hmore =>
      rw [Nat.zero_mul, Nat.zero_add] at hmore
      exact .inr ⟨hseparated, rfl, .mk hdigit hmore⟩
  · rintro (h | ⟨hseparated, rfl, h⟩)
    · obtain ⟨hdigit, hmore⟩ := h
      refine .digit hdigit ?_
      rwa [Nat.zero_mul, Nat.zero_add]
    · obtain ⟨hdigit, hmore⟩ := h
      refine .underscore hseparated hdigit ?_
      rwa [Nat.zero_mul, Nat.zero_add]

section Bases

variable {n : Nat} {c letter : CodeUnit} {s t : JsString}

theorem digits_of_scan_false {base : Nat} (hne : s ≠ []) :
    scan false base 0 s = some n ↔ Digits base false s n := by
  cases s with
  | nil => exact absurd rfl hne
  | cons c s =>
    constructor
    · intro h
      rcases moreDigits_zero_iff.mp (moreDigits_of_scan h) with hdigits | ⟨hfalse, -⟩
      · exact hdigits
      · cases hfalse
    · intro h
      exact scan_of_moreDigits (moreDigits_zero_iff.mpr (.inl h))

/-- A text that starts with a digit is checked from its start. -/
theorem digits_of_scan_start {hex : Bool} {base : Nat} (hknown : DigitsKnown hex base)
    (hne : s ≠ []) :
    underscoreLoop hex (unit '^') s = true ∧ scan true base 0 s = some n ↔ Digits base true s n := by
  rw [(underscoreLoop_iff hknown s 0 n).2 _ (by decide) hne]
  constructor
  · rintro ⟨c, d, rest, rfl, hdigit, hmore⟩
    rw [Nat.zero_mul, Nat.zero_add] at hmore
    exact .mk hdigit hmore
  · rintro ⟨hdigit, hmore⟩
    refine ⟨_, _, _, rfl, hdigit, ?_⟩
    rwa [Nat.zero_mul, Nat.zero_add]

theorem isSome_radix_iff : (radix letter).isSome = true ↔
    lower letter = unit 'b' ∨ lower letter = unit 'o' ∨ lower letter = unit 'x' := by
  unfold radix
  by_cases hb : lower letter = unit 'b'
  · rw [if_pos hb]
    simp [hb]
  · rw [if_neg hb]
    by_cases ho : lower letter = unit 'o'
    · rw [if_pos ho]
      simp [ho]
    · rw [if_neg ho]
      by_cases hx : lower letter = unit 'x'
      · rw [if_pos hx]
        simp [hx]
      · rw [if_neg hx]
        simp [hb, ho, hx]

theorem radix_cases {base : Nat} (h : radix letter = some base) :
    (base ≤ 10 ∧ lower letter ≠ unit 'x') ∨ (base = 16 ∧ lower letter = unit 'x') := by
  unfold radix at h
  split at h
  · rename_i hb
    cases h
    exact .inl ⟨by omega, by rw [hb]; decide⟩
  · split at h
    · rename_i ho
      cases h
      exact .inl ⟨by omega, by rw [ho]; decide⟩
    · split at h
      · rename_i hx
        cases h
        exact .inr ⟨rfl, hx⟩
      · cases h

theorem digitsKnown_radix {base : Nat} (h : radix letter = some base) :
    DigitsKnown (decide (lower letter = unit 'x')) base := by
  rcases radix_cases h with ⟨hle, -⟩ | ⟨rfl, hx⟩
  · exact digitsKnown_of_le hle _
  · rw [decide_eq_true hx]
    exact digitsKnown_hex

/-- The text has no prefix with a letter. -/
theorem underscoreBody_plain
    (h : ¬ (s[0]? = some (unit '0') ∧ (s[1]?.bind radix).isSome = true)) :
    underscoreBody s = underscoreLoop false (unit '^') s := by
  rw [underscoreBody, if_neg]
  rintro ⟨hzero, hletter⟩
  refine h ⟨hzero, ?_⟩
  cases hget : s[1]? with
  | none => simp [hget] at hletter
  | some letter =>
    simp only [hget, Option.map_some, Option.some.injEq] at hletter
    exact isSome_radix_iff.mpr hletter

theorem underscoreBody_prefixed (h : (radix letter).isSome = true) :
    underscoreBody (unit '0' :: letter :: t)
      = underscoreLoop (decide (lower letter = unit 'x')) (unit '0') t := by
  have hletter := isSome_radix_iff.mp h
  simp only [underscoreBody, List.getElem?_cons_zero, List.getElem?_cons_succ, Option.map_some,
    Option.some.injEq, hletter, and_self, if_true, List.drop_succ_cons, List.drop_zero]

/-- The letter of a prefix is neither a decimal digit nor an underscore. -/
theorem not_digit_of_radix {base : Nat} (hbase : base ≤ 10) (h : (radix letter).isSome = true) :
    digitBelow base letter = none ∧ letter ≠ unit '_' := by
  have hletter := isSome_radix_iff.mp h
  constructor
  · cases hdigit : digitBelow base letter with
    | none => rfl
    | some d =>
      rcases digitsKnown_of_le hbase false letter d hdigit with ⟨-, hnine⟩ | ⟨hfalse, -⟩
      · have hnine' : letter.val ≤ 57 := hnine
        have hlower : lower letter = letter := by
          rw [lower, if_neg]
          rintro ⟨hA, -⟩
          have hA' : 65 ≤ letter.val := hA
          omega
        rw [hlower] at hletter
        rcases hletter with rfl | rfl | rfl <;> exact absurd hnine (by decide)
      · cases hfalse
  · rintro rfl
    revert hletter
    decide

theorem not_moreDigits_of_radix {base m : Nat} (hbase : base ≤ 10)
    (h : (radix letter).isSome = true) : ¬ MoreDigits base true m (letter :: t) n := by
  obtain ⟨hnone, hne⟩ := not_digit_of_radix hbase h
  intro hmore
  cases hmore with
  | digit hdigit => cases hnone.symm.trans hdigit
  | underscore => exact hne rfl

theorem inferBase_prefixed {base : Nat} (h : radix letter = some base) (ht : t ≠ []) :
    inferBase (unit '0' :: letter :: t) = (base, t) := by
  have hlength : (unit '0' :: letter :: t).length ≥ 3 := by
    have := List.length_pos_of_ne_nil ht
    simp only [List.length_cons]
    omega
  unfold radix at h
  simp only [inferBase, List.getElem?_cons_zero, List.getElem?_cons_succ, Option.map_some,
    Option.some.injEq, if_true, hlength, true_and, List.drop_succ_cons, List.drop_zero]
  split at h
  · rename_i hb
    cases h
    rw [if_pos hb]
  · rename_i hb
    rw [if_neg hb]
    split at h
    · rename_i ho
      cases h
      rw [if_pos ho]
    · rename_i ho
      rw [if_neg ho]
      split at h
      · rename_i hx
        cases h
        rw [if_pos hx]
      · cases h

theorem inferBase_octal
    (h : ∀ letter t, s = letter :: t → t ≠ [] → (radix letter).isSome = false) :
    inferBase (unit '0' :: s) = (8, s) := by
  have hnot : ∀ u : CodeUnit, u = unit 'b' ∨ u = unit 'o' ∨ u = unit 'x' →
      ¬ ((unit '0' :: s).length ≥ 3 ∧ (unit '0' :: s)[1]?.map lower = some u) := by
    rintro u hu ⟨hlength, hget⟩
    match s, hlength, hget with
    | letter :: next :: t, _, hget =>
      simp only [List.getElem?_cons_succ, List.getElem?_cons_zero, Option.map_some,
        Option.some.injEq] at hget
      have hsome := isSome_radix_iff.mpr (hget.symm ▸ hu)
      rw [h letter (next :: t) rfl (by simp)] at hsome
      cases hsome
  have hhead : (unit '0' :: s)[0]? = some (unit '0') := rfl
  rw [inferBase, if_pos hhead, if_neg (hnot _ (.inl rfl)), if_neg (hnot _ (.inr (.inl rfl))),
    if_neg (hnot _ (.inr (.inr rfl)))]
  rfl

/-- A leading zero without a letter: octal digits. -/
theorem magnitude_octal_iff
    (h : ∀ letter t, s = letter :: t → t ≠ [] → (radix letter).isSome = false) :
    Magnitude 0 (unit '0' :: s) n ↔ MoreDigits 8 true 0 s n := by
  have hzero : digitBelow 8 (unit '0') = some 0 := by decide
  constructor
  · intro hmagnitude
    cases hmagnitude with
    | plain hbase => exact absurd rfl hbase
    | decimal hhead => exact absurd rfl hhead
    | octal _ hdigits =>
      obtain ⟨d, hdigit, hmore⟩ := digits_iff.mp hdigits
      cases hzero.symm.trans hdigit
      exact hmore
    | prefixed hradix hdigits =>
      obtain ⟨hdigit, -⟩ := hdigits
      have hnone := h _ _ rfl (by simp)
      rw [hradix] at hnone
      cases hnone
    | prefixedUnderscore hradix _ =>
      have hnone := h _ _ rfl (by simp)
      rw [hradix] at hnone
      cases hnone
  · intro hmore
    exact .octal rfl (.mk hzero hmore)

/-- A zero and a letter: digits of the base of the letter. -/
theorem magnitude_prefixed_iff {base : Nat} (h : radix letter = some base) (ht : t ≠ []) :
    Magnitude 0 (unit '0' :: letter :: t) n ↔ MoreDigits base true 0 t n := by
  have hsome : (radix letter).isSome = true := Option.isSome_of_eq_some h
  cases t with
  | nil => exact absurd rfl ht
  | cons c t =>
    rw [moreDigits_zero_iff]
    constructor
    · intro hmagnitude
      cases hmagnitude with
      | plain hbase => exact absurd rfl hbase
      | decimal hhead => exact absurd rfl hhead
      | octal _ hdigits =>
        obtain ⟨-, hmore⟩ := hdigits
        exact absurd hmore (not_moreDigits_of_radix (by omega) hsome)
      | prefixed hradix hdigits =>
        cases h.symm.trans hradix
        exact .inl hdigits
      | prefixedUnderscore hradix hdigits =>
        cases h.symm.trans hradix
        exact .inr ⟨rfl, rfl, hdigits⟩
    · rintro (hdigits | ⟨-, rfl, hdigits⟩)
      · exact .prefixed h hdigits
      · exact .prefixedUnderscore h hdigits

/-- A magnitude is what the scan and the check of the underscores take. -/
theorem magnitude_zero_iff (hne : s ≠ []) :
    Magnitude 0 s n ↔
      underscoreOK s = true ∧ scan true (inferBase s).1 0 (inferBase s).2 = some n := by
  cases s with
  | nil => exact absurd rfl hne
  | cons c s =>
    by_cases hzero : c = unit '0'
    · subst hzero
      have hsign : ¬ ((unit '0' :: s)[0]? = some (unit '-') ∨ (unit '0' :: s)[0]? = some (unit '+')) := by
        simp only [List.getElem?_cons_zero]
        decide
      rw [underscoreOK_unsigned hsign]
      by_cases hletter : ∃ letter t, s = letter :: t ∧ t ≠ [] ∧ (radix letter).isSome = true
      · obtain ⟨letter, t, rfl, ht, hsome⟩ := hletter
        obtain ⟨base, hradix⟩ := Option.isSome_iff_exists.mp hsome
        rw [magnitude_prefixed_iff hradix ht, inferBase_prefixed hradix ht,
          underscoreBody_prefixed hsome]
        exact (underscoreLoop_iff (digitsKnown_radix hradix) t 0 n).1.symm
      · have hoctal : ∀ letter t, s = letter :: t → t ≠ [] → (radix letter).isSome = false := by
          intro letter t hs ht
          cases hsome : (radix letter).isSome with
          | false => rfl
          | true => exact absurd ⟨letter, t, hs, ht, hsome⟩ hletter
        rw [magnitude_octal_iff hoctal, inferBase_octal hoctal]
        by_cases hlast : (s[0]?.bind radix).isSome = true
        · -- "0b", "0o" or "0x" alone: an octal numeral with a wrong digit
          cases s with
          | nil => simp at hlast
          | cons letter t =>
            replace hlast : (radix letter).isSome = true := by simpa using hlast
            have hoctal : 8 ≤ 10 := by omega
            obtain ⟨hnone, hletter⟩ := not_digit_of_radix hoctal hlast
            have hscan : scan true 8 0 (letter :: t) = none :=
              scan_none hnone (fun h => hletter h.1) t
            refine iff_of_false (not_moreDigits_of_radix (by omega) hlast) ?_
            rintro ⟨-, hsome⟩
            cases hscan.symm.trans hsome
        · rw [underscoreBody_plain (fun h => hlast h.2),
            underscoreLoop_digit (digitsKnown_of_le (by omega) false)
              (show digitBelow 8 (unit '0') = some 0 by decide)]
          exact (underscoreLoop_iff (digitsKnown_of_le (by omega) false) s 0 n).1.symm
    · have hhead : (c :: s)[0]? ≠ some (unit '0') := by simpa using hzero
      have hinfer : inferBase (c :: s) = (10, c :: s) := by rw [inferBase, if_neg hhead]
      have hiff : Magnitude 0 (c :: s) n ↔ Digits 10 true (c :: s) n := by
        constructor
        · intro h
          cases h with
          | plain hbase => exact absurd rfl hbase
          | decimal _ hdigits => exact hdigits
          | octal hhead' => exact absurd hhead' hhead
          | prefixed => exact absurd rfl hzero
          | prefixedUnderscore => exact absurd rfl hzero
        · exact .decimal hhead
      rw [hiff, hinfer]
      by_cases hsign : (c :: s)[0]? = some (unit '-') ∨ (c :: s)[0]? = some (unit '+')
      · have hnone : digitBelow 10 c = none := by
          simp only [List.getElem?_cons_zero, Option.some.injEq] at hsign
          rcases hsign with rfl | rfl <;> decide
        have hscan : scan true 10 0 (c :: s) = none := by
          refine scan_none hnone ?_ s
          simp only [List.getElem?_cons_zero, Option.some.injEq] at hsign
          rintro ⟨rfl, -⟩
          revert hsign
          decide
        rw [hscan]
        constructor
        · intro h
          obtain ⟨d, hdigit, -⟩ := digits_iff.mp h
          cases hnone.symm.trans hdigit
        · rintro ⟨-, h⟩
          cases h
      · rw [underscoreOK_unsigned hsign, underscoreBody_plain (fun h => hhead h.1)]
        exact (digits_of_scan_start (digitsKnown_of_le (Nat.le_refl 10) false) hne).symm

theorem magnitude_iff {base : Int} (hne : s ≠ []) :
    Magnitude base s n ↔ (base = 0 → underscoreOK s = true) ∧
      scan (decide (base = 0)) (digitsText base s).1 0 (digitsText base s).2 = some n := by
  by_cases hbase : base = 0
  · subst hbase
    simp only [magnitude_zero_iff hne, digitsText, if_true, forall_const, decide_true]
  · have hiff : Magnitude base s n ↔ Digits base.toNat false s n := by
      constructor
      · intro h
        cases h with
        | plain _ hdigits => exact hdigits
        | _ => exact absurd rfl hbase
      · exact .plain hbase
    simp only [hiff, digitsText, hbase, if_false, decide_false, false_implies, true_and]
    exact (digits_of_scan_false hne).symm

end Bases

end Webernetes.Go
