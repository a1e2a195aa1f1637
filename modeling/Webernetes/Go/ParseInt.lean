/-
Webernetes.Go.ParseInt — what `parseInt` answers.

`parseUintInternal` reads a magnitude, or finds that a start of its digits is
too large, or finds neither (`parseUintInternal_cases`). `parseInt` clamps what
it read to the signed size. It drops the range error of the magnitude when the
largest magnitude of the size fits the sign, which is so for a negative text of
one bit and never else: `parseInt_meets_iff`.
-/
import Webernetes.Go.Numerals
import Mathlib.Algebra.Order.Ring.Int

namespace Webernetes.Go

open Js

/-! ## The answer that is due -/

/-- Zero bits are as many as an `int` has. -/
def bits (bitSize : Int) : Nat := if bitSize = 0 then intSize.toNat else bitSize.toNat

def least (bitSize : Int) : Int := -2 ^ (bits bitSize - 1)

def greatest (bitSize : Int) : Int := 2 ^ (bits bitSize - 1) - 1

def Fits (bitSize v : Int) : Prop := least bitSize ≤ v ∧ v ≤ greatest bitSize

/-- The bound next to an integer that does not fit. -/
def nearest (bitSize v : Int) : Int := if v < 0 then least bitSize else greatest bitSize

def negative (s : JsString) : Bool := decide (s[0]? = some (unit '-'))

def unsignedText (s : JsString) : JsString :=
  if s[0]? = some (unit '+') ∨ s[0]? = some (unit '-') then s.drop 1 else s

def signed (negative : Bool) (n : Nat) : Int := if negative then -n else n

/-- A start of the digits, whatever follows it, has the value `n`. -/
def StartReads (base : Int) (s : JsString) (n : Nat) : Prop :=
  ∃ p, p <+: (digitsText base s).2 ∧ scan (decide (base = 0)) (digitsText base s).1 0 p = some n

/-- What is due for a text. -/
structure Meets (s : JsString) (base bitSize : Int) (result : Int × Option NumError) : Prop where
  success : ∀ v, result = (v, none) ↔ Numeral base s v ∧ Fits bitSize v
  range : ∀ v, Numeral base s v → ¬ Fits bitSize v →
    result = (nearest bitSize v, some ⟨js "ParseInt", s, .errRange⟩)
  otherwise : (∀ v, ¬ Numeral base s v) →
    result = (0, some ⟨js "ParseInt", s, .errSyntax⟩) ∨
    ∃ n, StartReads base (unsignedText s) n ∧ ¬ Fits bitSize (signed (negative s) n) ∧
      result = (nearest bitSize (signed (negative s) n), some ⟨js "ParseInt", s, .errRange⟩)

/-! ## The scan with its limits -/

section Limits

variable {separated : Bool} {base maxVal : Nat}

/-- Beyond the cutoff the next digit passes the largest value. -/
theorem lt_of_cutoff_le {n : Nat} (hbase : 0 < base) (hmax : maxVal ≤ maxUint64)
    (h : maxUint64 / base + 1 ≤ n) (d : Nat) : maxVal < n * base + d := by
  have hlt : maxUint64 < (maxUint64 / base + 1) * base := by
    have := Nat.lt_mul_div_succ maxUint64 hbase
    rwa [Nat.mul_comm] at this
  have hmul := Nat.mul_le_mul_right base h
  omega

/-- A digit too many. -/
theorem parseDigits_over {n d : Nat} {c : CodeUnit}
    (hdigit : digitBelow base c = some d) (h : maxVal < n * base + d) (underscores : Bool)
    (s : JsString) :
    parseDigits separated base (maxUint64 / base + 1) maxVal underscores n (c :: s)
      = .error (maxVal, .errRange) := by
  have hc := ne_underscore_of_digitBelow hdigit
  obtain ⟨hvalue, hlt⟩ := digitBelow_eq_some.mp hdigit
  have hge : ¬ d ≥ base := by omega
  simp only [parseDigits, hc, false_and, if_false, hvalue, hge]
  split
  · rfl
  · rw [if_pos (.inr h)]

theorem parseDigits_step {n d : Nat} {c : CodeUnit} (hbase : 0 < base) (hmax : maxVal ≤ maxUint64)
    (hdigit : digitBelow base c = some d) (h : n * base + d ≤ maxVal) (underscores : Bool)
    (s : JsString) :
    parseDigits separated base (maxUint64 / base + 1) maxVal underscores n (c :: s)
      = parseDigits separated base (maxUint64 / base + 1) maxVal underscores (n * base + d) s := by
  have hc := ne_underscore_of_digitBelow hdigit
  obtain ⟨hvalue, hlt⟩ := digitBelow_eq_some.mp hdigit
  have hge : ¬ d ≥ base := by omega
  have hcut : ¬ n ≥ maxUint64 / base + 1 := by
    intro hcut
    have := lt_of_cutoff_le hbase hmax hcut d
    omega
  have hover : ¬ (n * base + d < n * base ∨ n * base + d > maxVal) := by omega
  simp only [parseDigits, hc, false_and, if_false, hvalue, hge, hcut, hover]

theorem parseDigits_wrong {n : Nat} {c : CodeUnit} (hdigit : digitBelow base c = none)
    (hc : ¬ (c = unit '_' ∧ separated = true)) (cutoff : Nat) (underscores : Bool) (s : JsString) :
    parseDigits separated base cutoff maxVal underscores n (c :: s) = .error (0, .errSyntax) := by
  rw [parseDigits, if_neg hc]
  cases hvalue : digitValue c with
  | none => rfl
  | some d =>
    have hge : d ≥ base := by
      by_contra hlt
      have hsome := digitBelow_eq_some.mpr ⟨hvalue, Nat.lt_of_not_le hlt⟩
      cases hdigit.symm.trans hsome
    simp only [hge, if_true]

/-- The three ends of the loop. -/
theorem parseDigits_cases (hbase : 0 < base) (hmax : maxVal ≤ maxUint64) :
    ∀ (s : JsString) (underscores : Bool) (n : Nat), n ≤ maxVal →
      (∃ m, scan separated base n s = some m ∧ m ≤ maxVal ∧
        parseDigits separated base (maxUint64 / base + 1) maxVal underscores n s
          = .ok (underscores || s.any (· = unit '_'), m)) ∨
      ((∃ p m, p <+: s ∧ scan separated base n p = some m ∧ maxVal < m) ∧
        parseDigits separated base (maxUint64 / base + 1) maxVal underscores n s
          = .error (maxVal, .errRange)) ∨
      (scan separated base n s = none ∧
        (∀ p m, p <+: s → scan separated base n p = some m → m ≤ maxVal) ∧
        parseDigits separated base (maxUint64 / base + 1) maxVal underscores n s
          = .error (0, .errSyntax)) := by
  intro s
  induction s with
  | nil =>
    intro underscores n hn
    refine .inl ⟨n, rfl, hn, ?_⟩
    simp [parseDigits]
  | cons c s ih =>
    intro underscores n hn
    have hstart : ∀ {p m}, p <+: c :: s → scan separated base n p = some m →
        (p = [] ∧ m = n) ∨ ∃ q, p = c :: q ∧ q <+: s := by
      intro p m hp hscan
      cases p with
      | nil =>
        cases hscan
        exact .inl ⟨rfl, rfl⟩
      | cons a q =>
        obtain ⟨rfl, hq⟩ := List.cons_prefix_cons.mp hp
        exact .inr ⟨q, rfl, hq⟩
    by_cases hc : c = unit '_' ∧ separated = true
    · obtain ⟨rfl, rfl⟩ := hc
      have hrun : parseDigits true base (maxUint64 / base + 1) maxVal underscores n (unit '_' :: s)
          = parseDigits true base (maxUint64 / base + 1) maxVal true n s := by
        rw [parseDigits, if_pos ⟨rfl, rfl⟩]
      rw [hrun, scan_underscore]
      rcases ih true n hn with
        ⟨m, hscan, hm, hresult⟩ | ⟨⟨p, m, hp, hscan, hm⟩, hresult⟩ | ⟨hscan, hsmall, hresult⟩
      · refine .inl ⟨m, hscan, hm, ?_⟩
        simp [hresult]
      · refine .inr (.inl ⟨⟨unit '_' :: p, m, List.cons_prefix_cons.mpr ⟨rfl, hp⟩, ?_, hm⟩, hresult⟩)
        rw [scan_underscore, hscan]
      · refine .inr (.inr ⟨hscan, fun p m hp hread => ?_, hresult⟩)
        rcases hstart hp hread with ⟨-, rfl⟩ | ⟨q, rfl, hq⟩
        · exact hn
        · rw [scan_underscore] at hread
          exact hsmall q m hq hread
    · cases hdigit : digitBelow base c with
      | none =>
        have hnone := fun t => scan_none (n := n) hdigit hc t
        refine .inr (.inr ⟨hnone s, fun p m hp hread => ?_, parseDigits_wrong hdigit hc _ _ s⟩)
        rcases hstart hp hread with ⟨-, rfl⟩ | ⟨q, rfl, -⟩
        · exact hn
        · rw [hnone q] at hread
          cases hread
      | some d =>
        rw [scan_digit hdigit]
        by_cases hover : maxVal < n * base + d
        · refine .inr (.inl ⟨⟨[c], _, ⟨s, rfl⟩, scan_digit hdigit [], hover⟩, ?_⟩)
          exact parseDigits_over hdigit hover underscores s
        · rw [parseDigits_step hbase hmax hdigit (Nat.le_of_not_lt hover)]
          have hne : decide (c = unit '_') = false :=
            decide_eq_false (ne_underscore_of_digitBelow hdigit)
          rcases ih underscores _ (Nat.le_of_not_lt hover) with
            ⟨m, hscan, hm, hresult⟩ | ⟨⟨p, m, hp, hscan, hm⟩, hresult⟩ | ⟨hscan, hsmall, hresult⟩
          · refine .inl ⟨m, hscan, hm, ?_⟩
            rw [hresult, List.any_cons, hne, Bool.false_or]
          · refine .inr (.inl ⟨⟨c :: p, m, List.cons_prefix_cons.mpr ⟨rfl, hp⟩, ?_, hm⟩, hresult⟩)
            rw [scan_digit hdigit, hscan]
          · refine .inr (.inr ⟨hscan, fun p m hp hread => ?_, hresult⟩)
            rcases hstart hp hread with ⟨-, rfl⟩ | ⟨q, rfl, hq⟩
            · exact hn
            · rw [scan_digit hdigit] at hread
              exact hsmall q m hq hread

end Limits

/-! ## The magnitude -/

/-- The bases and sizes that are read. -/
structure Readable (base bitSize : Int) : Prop where
  base : base = 0 ∨ 2 ≤ base ∧ base ≤ 36
  bitSize : 0 ≤ bitSize ∧ bitSize ≤ 64

/-- The largest magnitude of a size without a sign. -/
def maxMagnitude (bitSize : Int) : Nat := (1 <<< bits bitSize) - 1

section Magnitude

variable {base bitSize : Int} {s : JsString}

theorem digitsText_pos (h : base = 0 ∨ 2 ≤ base ∧ base ≤ 36) : 0 < (digitsText base s).1 := by
  rw [digitsText]
  split
  · unfold inferBase
    split <;> (try split) <;> (try split) <;> (try split) <;> simp
  · show 0 < base.toNat
    omega

theorem maxMagnitude_le (h : bitSize ≤ 64) : maxMagnitude bitSize ≤ maxUint64 := by
  have hbits : bits bitSize ≤ 64 := by
    rw [bits, intSize]
    split <;> omega
  have hpow := Nat.pow_le_pow_right (n := 2) (by omega) hbits
  rw [maxMagnitude, maxUint64, Nat.shiftLeft_eq, Nat.shiftLeft_eq, Nat.one_mul, Nat.one_mul]
  omega

/-- `parseUintInternal` is the loop and the check of the underscores. -/
theorem parseUintInternal_eq (h : Readable base bitSize) (hne : s ≠ []) :
    parseUintInternal s base bitSize =
      match parseDigits (decide (base = 0)) (digitsText base s).1
          (maxUint64 / (digitsText base s).1 + 1) (maxMagnitude bitSize) false 0
          (digitsText base s).2 with
      | .error (n, e) => (n, some e)
      | .ok (underscores, n) =>
        if underscores && !underscoreOK s then (0, some .errSyntax) else (n, none) := by
  have hbase : (2 ≤ base ∧ base ≤ 36) ∨ base = 0 := h.base.symm
  have hsize : (if bitSize = 0 then intSize else bitSize).toNat = bits bitSize := by
    rw [bits]
    split <;> rfl
  have hrange : ¬ ((if bitSize = 0 then intSize else bitSize) < 0
      ∨ (if bitSize = 0 then intSize else bitSize) > 64) := by
    have := h.bitSize
    rw [intSize]
    split <;> omega
  rw [parseUintInternal, if_neg hne, if_neg (not_not_intro hbase)]
  dsimp only
  simp only [if_neg hrange, hsize, digitsText, decide_eq_true_eq]
  rfl

/-- No underscore is in what the base takes off. -/
theorem mem_digitsText (base : Int) (h : unit '_' ∈ s) : unit '_' ∈ (digitsText base s).2 := by
  have hletter : ∀ {u : CodeUnit}, u ≠ unit '_' → s[0]? = some (unit '0') →
      s[1]?.map lower = some u → unit '_' ∈ s.drop 2 := by
    intro u hu hzero hmap
    cases s with
    | nil => cases hzero
    | cons c t =>
      cases hzero
      cases t with
      | nil => cases hmap
      | cons letter t =>
        rcases List.mem_cons.mp h with hc | h
        · exact absurd hc (by decide)
        · rcases List.mem_cons.mp h with rfl | h
          · cases hmap
            exact absurd (by decide) hu
          · exact h
  rw [digitsText]
  split
  · unfold inferBase
    split
    · rename_i hzero
      split
      · rename_i hb
        exact hletter (by decide) hzero hb.2
      · split
        · rename_i ho
          exact hletter (by decide) hzero ho.2
        · split
          · rename_i hx
            exact hletter (by decide) hzero hx.2
          · cases s with
            | nil => cases hzero
            | cons c t =>
              cases hzero
              rcases List.mem_cons.mp h with hc | h
              · exact absurd hc (by decide)
              · exact h
    · exact h
  · exact h

/-- Digits without an underscore pass the check of the underscores. -/
theorem underscoreOK_iff {m n : Nat} (hne : s ≠ [])
    (hscan : scan (decide (base = 0)) (digitsText base s).1 0 (digitsText base s).2 = some m) :
    ((digitsText base s).2.any (fun c => decide (c = unit '_')) && !underscoreOK s) = false ∧ m = n
      ↔ Magnitude base s n := by
  rw [magnitude_iff hne, hscan, Option.some.injEq]
  refine and_congr_left fun _ => ?_
  by_cases hmem : unit '_' ∈ (digitsText base s).2
  · have hany : (digitsText base s).2.any (fun c => decide (c = unit '_')) = true :=
      List.any_eq_true.mpr ⟨_, hmem, by simp⟩
    have hzero : base = 0 := by
      by_contra hbase
      obtain ⟨t, u, htext⟩ := List.append_of_mem hmem
      rw [htext, decide_eq_false hbase, scan_append] at hscan
      obtain ⟨k, -, hk⟩ := Option.bind_eq_some_iff.mp hscan
      rw [scan_none (digitBelow_underscore _) (fun h => absurd h.2 (by simp))] at hk
      cases hk
    rw [hany, Bool.true_and]
    simp [hzero]
  · have hany : (digitsText base s).2.any (fun c => decide (c = unit '_')) = false := by
      rw [List.any_eq_false]
      intro c hc
      simp only [decide_eq_true_eq]
      rintro rfl
      exact hmem hc
    have hok := underscoreOK_of_not_mem fun h => hmem (mem_digitsText base h)
    simp [hany, hok]

/-- A magnitude that is read, one that is too large, or neither. -/
theorem parseUintInternal_cases (h : Readable base bitSize) :
    (∃ n, Magnitude base s n ∧ (∀ k, StartReads base s k → k ≤ n) ∧ n ≤ maxMagnitude bitSize ∧
      parseUintInternal s base bitSize = (n, none)) ∨
    ((∃ n, StartReads base s n ∧ maxMagnitude bitSize < n) ∧
      parseUintInternal s base bitSize = (maxMagnitude bitSize, some .errRange)) ∨
    ((∀ n, ¬ Magnitude base s n) ∧ (∀ n, StartReads base s n → n ≤ maxMagnitude bitSize) ∧
      parseUintInternal s base bitSize = (0, some .errSyntax)) := by
  by_cases hne : s = []
  · subst hne
    refine .inr (.inr ⟨fun n hn => ?_, fun n hn => ?_, rfl⟩)
    · cases hn with
      | plain _ hdigits => cases hdigits
      | decimal _ hdigits => cases hdigits
      | octal hhead => cases hhead
    · obtain ⟨p, hp, hread⟩ := hn
      have hnil : (digitsText base []).2 = [] := by
        rw [digitsText]
        split <;> rfl
      rw [hnil, List.prefix_nil] at hp
      subst hp
      cases hread
      exact Nat.zero_le _
  · have hpos := digitsText_pos (s := s) h.base
    have hrun := parseUintInternal_eq h hne
    have hcases := @parseDigits_cases (decide (base = 0)) _ _ hpos (maxMagnitude_le h.bitSize.2)
      (digitsText base s).2 false 0 (Nat.zero_le _)
    rcases hcases with
      ⟨m, hscan, hm, hdigits⟩ | ⟨⟨p, m, hp, hread, hm⟩, hdigits⟩ | ⟨hscan, hsmall, hdigits⟩
    · simp only [hdigits, Bool.false_or] at hrun
      have hstart : ∀ k, StartReads base s k → k ≤ m := by
        rintro k ⟨p, hp, hread⟩
        exact le_of_prefix hpos hp hread hscan
      cases hcheck : (digitsText base s).2.any (fun c => decide (c = unit '_')) && !underscoreOK s with
      | false =>
        refine .inl ⟨m, (underscoreOK_iff hne hscan).mp ⟨hcheck, rfl⟩, hstart, hm, ?_⟩
        rw [hrun, hcheck]
        rfl
      | true =>
        refine .inr (.inr ⟨fun n hn => ?_, fun k hk => Nat.le_trans (hstart k hk) hm, ?_⟩)
        · have hok := ((underscoreOK_iff hne hscan).mpr hn).1
          cases hcheck.symm.trans hok
        · rw [hrun, hcheck]
          rfl
    · refine .inr (.inl ⟨⟨m, ⟨p, hp, hread⟩, hm⟩, ?_⟩)
      rw [hrun, hdigits]
    · refine .inr (.inr ⟨fun n hn => ?_, fun n hn => ?_, ?_⟩)
      · cases hscan.symm.trans ((magnitude_iff hne).mp hn).2
      · obtain ⟨p, hp, hread⟩ := hn
        exact hsmall p n hp hread
      · rw [hrun, hdigits]

/-- What a start reads, the magnitude is at least. -/
theorem le_of_startReads {k n : Nat} (h : base = 0 ∨ 2 ≤ base ∧ base ≤ 36) (hne : s ≠ [])
    (hstart : StartReads base s k) (hmagnitude : Magnitude base s n) : k ≤ n := by
  obtain ⟨p, hp, hread⟩ := hstart
  exact le_of_prefix (digitsText_pos h) hp hread ((magnitude_iff hne).mp hmagnitude).2

theorem magnitude_ne_nil {n : Nat} (h : Magnitude base s n) : s ≠ [] := by
  rintro rfl
  cases h with
  | plain _ hdigits => cases hdigits
  | decimal _ hdigits => cases hdigits
  | octal hhead => cases hhead

theorem magnitude_unique {n m : Nat} (hn : Magnitude base s n) (hm : Magnitude base s m) : n = m := by
  have hne := magnitude_ne_nil hn
  have hscan := ((magnitude_iff hne).mp hn).2
  rw [((magnitude_iff hne).mp hm).2] at hscan
  exact (Option.some.inj hscan).symm

/-- A magnitude has no sign. -/
theorem head_of_magnitude {n : Nat} (h : Magnitude base s n) :
    ¬ (s[0]? = some (unit '+') ∨ s[0]? = some (unit '-')) := by
  have hdigit : ∀ {base : Nat} {separated : Bool} {t : JsString} {m : Nat},
      Digits base separated t m → ¬ (t[0]? = some (unit '+') ∨ t[0]? = some (unit '-')) := by
    rintro base separated t m ⟨hdigit, -⟩ hsign
    obtain ⟨hvalue, -⟩ := digitBelow_eq_some.mp hdigit
    simp only [List.getElem?_cons_zero, Option.some.injEq] at hsign
    have hplus : digitValue (unit '+') = none := by decide
    have hminus : digitValue (unit '-') = none := by decide
    rcases hsign with rfl | rfl
    · cases hplus.symm.trans hvalue
    · cases hminus.symm.trans hvalue
  cases h with
  | plain _ hdigits => exact hdigit hdigits
  | decimal _ hdigits => exact hdigit hdigits
  | octal _ hdigits => exact hdigit hdigits
  | prefixed | prefixedUnderscore =>
    simp only [List.getElem?_cons_zero]
    decide

end Magnitude

/-! ## The sign and the clamp -/

section Sign

variable {base bitSize : Int} {s : JsString}

theorem numeral_iff {v : Int} : Numeral base s v ↔
    ∃ n, Magnitude base (unsignedText s) n ∧ v = signed (negative s) n := by
  constructor
  · intro h
    cases h with
    | @unsigned _ n h =>
      have hminus := (not_or.mp (head_of_magnitude h)).2
      refine ⟨n, ?_, ?_⟩
      · rwa [unsignedText, if_neg (head_of_magnitude h)]
      · simp [signed, negative, hminus]
    | plus h => exact ⟨_, h, rfl⟩
    | minus h => exact ⟨_, h, rfl⟩
  · rintro ⟨n, hn, rfl⟩
    by_cases hsign : s[0]? = some (unit '+') ∨ s[0]? = some (unit '-')
    · cases s with
      | nil => simp at hsign
      | cons c s =>
        simp only [List.getElem?_cons_zero, Option.some.injEq] at hsign
        rcases hsign with rfl | rfl
        · exact .plus hn
        · exact .minus hn
    · rw [unsignedText, if_neg hsign] at hn
      have hminus := (not_or.mp hsign).2
      simp only [signed, negative, hminus, decide_false]
      exact .unsigned hn

/-- Half of the magnitudes of a size. -/
def half (bitSize : Int) : Nat := 2 ^ (bits bitSize - 1)

/-- The bounds of a size, by half of its magnitudes. -/
theorem bounds (h : 0 ≤ bitSize) : least bitSize = -(half bitSize : Int)
    ∧ greatest bitSize = (half bitSize : Int) - 1 ∧ maxMagnitude bitSize + 1 = 2 * half bitSize
    ∧ 0 < half bitSize := by
  have hpos : 0 < half bitSize := Nat.two_pow_pos _
  have hbits : 1 ≤ bits bitSize := by
    rw [bits, intSize]
    split <;> omega
  refine ⟨?_, ?_, ?_, hpos⟩
  · rw [least, half]
    push_cast
    rfl
  · rw [greatest, half]
    push_cast
    rfl
  · have hpow : 2 ^ bits bitSize = 2 * half bitSize := by
      rw [half, ← Nat.pow_succ']
      congr 1
      omega
    rw [maxMagnitude, Nat.shiftLeft_eq, Nat.one_mul, hpow]
    omega

theorem parseInt_errSyntax {un : Nat}
    (h : parseUintInternal (unsignedText s) base bitSize = (un, some .errSyntax)) :
    parseInt s base bitSize = (0, some ⟨js "ParseInt", s, .errSyntax⟩) := by
  have hinternal : parseIntInternal s base bitSize = (0, some .errSyntax) := by
    rw [parseIntInternal]
    split
    · rfl
    · rw [unsignedText] at h
      simp only [h]
  rw [parseInt, hinternal]

theorem parseInt_clamp {un : Nat} {e : Option ParseError} (hsize : 0 ≤ bitSize) (hne : s ≠ [])
    (h : parseUintInternal (unsignedText s) base bitSize = (un, e))
    (he : e = none ∨ e = some .errRange) :
    parseInt s base bitSize =
      if negative s = false ∧ half bitSize ≤ un then
        (greatest bitSize, some ⟨js "ParseInt", s, .errRange⟩)
      else if negative s = true ∧ half bitSize < un then
        (least bitSize, some ⟨js "ParseInt", s, .errRange⟩)
      else (signed (negative s) un, none) := by
  have hcutoff : 1 <<< ((if bitSize = 0 then intSize else bitSize) - 1).toNat = half bitSize := by
    have hbits : ((if bitSize = 0 then intSize else bitSize) - 1).toNat = bits bitSize - 1 := by
      rw [bits]
      split <;> omega
    rw [hbits, half, Nat.shiftLeft_eq, Nat.one_mul]
  obtain ⟨hleast, hgreatest, -, -⟩ := bounds hsize
  have hinternal : parseIntInternal s base bitSize =
      if negative s = false ∧ half bitSize ≤ un then (greatest bitSize, some .errRange)
      else if negative s = true ∧ half bitSize < un then (least bitSize, some .errRange)
      else (signed (negative s) un, none) := by
    rw [unsignedText] at h
    rw [parseIntInternal, if_neg hne]
    rcases he with rfl | rfl
    · simp only [h, hcutoff, hgreatest, hleast, negative, signed, ge_iff_le, gt_iff_lt,
        Bool.not_eq_true', decide_eq_false_iff_not, decide_eq_true_eq]
    · simp only [h, hcutoff, hgreatest, hleast, negative, signed, ge_iff_le, gt_iff_lt,
        Bool.not_eq_true', decide_eq_false_iff_not, decide_eq_true_eq]
  by_cases hover : negative s = false ∧ half bitSize ≤ un
  · rw [if_pos hover] at hinternal ⊢
    simp only [parseInt, hinternal]
  · rw [if_neg hover] at hinternal ⊢
    by_cases hunder : negative s = true ∧ half bitSize < un
    · rw [if_pos hunder] at hinternal ⊢
      simp only [parseInt, hinternal]
    · rw [if_neg hunder] at hinternal ⊢
      simp only [parseInt, hinternal]

theorem eq_one_of_half (h : 0 ≤ bitSize) (hhalf : half bitSize = 1) : bitSize = 1 := by
  have hbits : bits bitSize - 1 = 0 := by
    by_contra hne
    have hle := Nat.pow_le_pow_right (n := 2) (by omega) (Nat.one_le_iff_ne_zero.mpr hne)
    rw [half] at hhalf
    omega
  rw [bits, intSize] at hbits
  split at hbits <;> omega

theorem fits_iff (h : 0 ≤ bitSize) (neg : Bool) (n : Nat) : Fits bitSize (signed neg n) ↔
    ¬ (neg = false ∧ half bitSize ≤ n) ∧ ¬ (neg = true ∧ half bitSize < n) := by
  obtain ⟨hleast, hgreatest, -, hpos⟩ := bounds h
  rw [Fits, hleast, hgreatest]
  cases neg with
  | false =>
    simp only [signed, Bool.false_eq_true, if_false, false_and, not_false_iff, and_true, true_and]
    omega
  | true =>
    simp only [signed, if_true, Bool.true_eq_false, false_and, not_false_iff, true_and]
    omega

theorem nearest_signed (h : 0 ≤ bitSize) {neg : Bool} {n : Nat}
    (hfits : ¬ Fits bitSize (signed neg n)) :
    nearest bitSize (signed neg n) = if neg then least bitSize else greatest bitSize := by
  rw [fits_iff h] at hfits
  rw [nearest]
  cases neg with
  | false =>
    rw [if_neg]
    · rfl
    · simp [signed]
  | true =>
    have hpos : 0 < n := by
      by_contra hzero
      exact hfits ⟨by simp, fun hlt => by omega⟩
    rw [if_pos]
    · rfl
    · simp only [signed, if_true]
      omega

/-! ## The answer that is given -/

/-- The magnitude of a negative text is too large for one bit, at the end of
its digits or before. -/
def DropsRange (s : JsString) (base bitSize : Int) : Prop :=
  bitSize = 1 ∧ negative s = true ∧ ∃ n, StartReads base (unsignedText s) n ∧ 1 < n

theorem ne_nil_of_startReads {n : Nat} (h : StartReads base (unsignedText s) n) (hn : 0 < n) :
    s ≠ [] := by
  rintro rfl
  obtain ⟨p, hp, hread⟩ := h
  have hnil : (digitsText base (unsignedText [])).2 = [] := by
    rw [digitsText]
    split <;> rfl
  rw [hnil, List.prefix_nil] at hp
  subst hp
  cases hread
  exact absurd hn (Nat.lt_irrefl 0)

/-- A magnitude within the size: the text is a numeral, and the clamp decides. -/
theorem meets_of_magnitude (h : Readable base bitSize) {n : Nat}
    (hmagnitude : Magnitude base (unsignedText s) n)
    (hrun : parseUintInternal (unsignedText s) base bitSize = (n, none)) :
    Meets s base bitSize (parseInt s base bitSize) := by
  have hsize := h.bitSize.1
  have hne : s ≠ [] := by
    rintro rfl
    exact magnitude_ne_nil hmagnitude rfl
  have hnumeral : ∀ v, Numeral base s v ↔ v = signed (negative s) n := by
    intro v
    rw [numeral_iff]
    constructor
    · rintro ⟨m, hm, rfl⟩
      rw [magnitude_unique hm hmagnitude]
    · rintro rfl
      exact ⟨n, hmagnitude, rfl⟩
  have hclamp := parseInt_clamp hsize hne hrun (.inl rfl)
  have hfits := fits_iff hsize (negative s) n
  constructor
  · intro v
    rw [hnumeral, hclamp]
    by_cases hover : negative s = false ∧ half bitSize ≤ n
    · have hnot : ¬ Fits bitSize (signed (negative s) n) := fun hf => (hfits.mp hf).1 hover
      rw [if_pos hover]
      constructor
      · intro heq
        cases heq
      · rintro ⟨rfl, hf⟩
        exact absurd hf hnot
    · rw [if_neg hover]
      by_cases hunder : negative s = true ∧ half bitSize < n
      · have hnot : ¬ Fits bitSize (signed (negative s) n) := fun hf => (hfits.mp hf).2 hunder
        rw [if_pos hunder]
        constructor
        · intro heq
          cases heq
        · rintro ⟨rfl, hf⟩
          exact absurd hf hnot
      · rw [if_neg hunder]
        constructor
        · intro heq
          cases heq
          exact ⟨rfl, hfits.mpr ⟨hover, hunder⟩⟩
        · rintro ⟨rfl, -⟩
          rfl
  · intro v hv hnot
    rw [hnumeral] at hv
    subst hv
    rw [nearest_signed hsize hnot, hclamp]
    rw [hfits, not_and_or, not_not, not_not] at hnot
    rcases hnot with hover | hunder
    · rw [if_pos hover, hover.1]
      rfl
    · have hneg : ¬ (negative s = false ∧ half bitSize ≤ n) := by simp [hunder.1]
      rw [if_neg hneg, if_pos hunder, hunder.1]
      rfl
  · intro hnone
    exact absurd ((hnumeral _).mpr rfl) (hnone _)

/-- A start of the digits that is too large: a range error is due. -/
theorem meets_of_overflow (h : Readable base bitSize) {n : Nat}
    (hstart : StartReads base (unsignedText s) n) (hlarge : maxMagnitude bitSize < n)
    (hresult : parseInt s base bitSize = (if negative s then least bitSize else greatest bitSize,
      some ⟨js "ParseInt", s, .errRange⟩)) : Meets s base bitSize (parseInt s base bitSize) := by
  have hsize := h.bitSize.1
  obtain ⟨-, -, hmax, hpos⟩ := bounds hsize
  have hnot : ∀ m, n ≤ m → ¬ Fits bitSize (signed (negative s) m) := by
    intro m hm hf
    rw [fits_iff hsize] at hf
    cases hneg : negative s with
    | false => exact hf.1 ⟨hneg, by omega⟩
    | true => exact hf.2 ⟨hneg, by omega⟩
  have hnumeral : ∀ v, Numeral base s v → ∃ m, n ≤ m ∧ v = signed (negative s) m := by
    intro v hv
    obtain ⟨m, hm, rfl⟩ := numeral_iff.mp hv
    exact ⟨m, le_of_startReads h.base (magnitude_ne_nil hm) hstart hm, rfl⟩
  constructor
  · intro v
    rw [hresult]
    constructor
    · intro heq
      cases heq
    · rintro ⟨hv, hf⟩
      obtain ⟨m, hm, rfl⟩ := hnumeral v hv
      exact absurd hf (hnot m hm)
  · intro v hv hf
    obtain ⟨m, -, rfl⟩ := hnumeral v hv
    rw [nearest_signed hsize hf, hresult]
  · intro _
    have hn := hnot n (Nat.le_refl n)
    exact .inr ⟨n, hstart, hn, by rw [nearest_signed hsize hn, hresult]⟩

/-- The answer is the one that is due, unless a range error is dropped. -/
theorem parseInt_meets_iff (s : JsString) (base bitSize : Int)
    (hbase : base = 0 ∨ 2 ≤ base ∧ base ≤ 36) (hsize : 0 ≤ bitSize ∧ bitSize ≤ 64) :
    Meets s base bitSize (parseInt s base bitSize) ↔ ¬ DropsRange s base bitSize := by
  have h : Readable base bitSize := ⟨hbase, hsize⟩
  obtain ⟨hleast, hgreatest, hmax, hpos⟩ := bounds hsize.1
  have hone : bitSize = 1 → maxMagnitude bitSize = 1 := by
    rintro rfl
    rfl
  rcases parseUintInternal_cases (s := unsignedText s) h with
    ⟨n, hmagnitude, hstart, hn, hrun⟩ | ⟨⟨n, hstart, hn⟩, hrun⟩ | ⟨hnone, hstart, hrun⟩
  · refine iff_of_true (meets_of_magnitude h hmagnitude hrun) ?_
    rintro ⟨hbit, -, k, hk, hlt⟩
    have := hstart k hk
    have := hone hbit
    omega
  · have hne := ne_nil_of_startReads hstart (by omega)
    have hclamp := parseInt_clamp hsize.1 hne hrun (.inr rfl)
    by_cases hdrop : negative s = true ∧ half bitSize = 1
    · -- the clamped magnitude is the least integer, and its error is dropped
      obtain ⟨hneg, hhalf⟩ := hdrop
      have hresult : parseInt s base bitSize = (-1, none) := by
        rw [hclamp, if_neg (by simp [hneg]), if_neg (by omega), hneg]
        have hm : maxMagnitude bitSize = 1 := by omega
        simp [signed, hm]
      have hbit := eq_one_of_half hsize.1 hhalf
      refine iff_of_false (fun hmeets => ?_) (not_not_intro ⟨hbit, hneg, n, hstart, by omega⟩)
      have hnumeral := ((hmeets.success (-1)).mp hresult).1
      obtain ⟨m, hm, hv⟩ := numeral_iff.mp hnumeral
      have hle := le_of_startReads hbase (magnitude_ne_nil hm) hstart hm
      simp only [hneg, signed, if_true] at hv
      omega
    · refine iff_of_true (meets_of_overflow h hstart hn ?_) ?_
      · rw [hclamp]
        cases hneg : negative s with
        | false =>
          rw [if_pos ⟨rfl, by omega⟩]
          rfl
        | true =>
          have hlarge : half bitSize < maxMagnitude bitSize := by
            have : half bitSize ≠ 1 := fun hhalf => hdrop ⟨hneg, hhalf⟩
            omega
          rw [if_neg (by simp), if_pos ⟨rfl, hlarge⟩]
          rfl
      · rintro ⟨hbit, hneg, -⟩
        refine hdrop ⟨hneg, ?_⟩
        rw [hbit]
        rfl
  · refine iff_of_true ⟨fun v => ?_, fun v hv => ?_, fun _ => .inl (parseInt_errSyntax hrun)⟩ ?_
    · rw [parseInt_errSyntax hrun]
      constructor
      · intro heq
        cases heq
      · rintro ⟨hv, -⟩
        obtain ⟨n, hn, -⟩ := numeral_iff.mp hv
        exact absurd hn (hnone n)
    · obtain ⟨n, hn, -⟩ := numeral_iff.mp hv
      exact absurd hn (hnone n)
    · rintro ⟨hbit, -, k, hk, hlt⟩
      have := hstart k hk
      have := hone hbit
      omega

/-- The most negative byte. -/
theorem parseInt_meets_byte : Meets (js "-0x80") 0 8 (parseInt (js "-0x80") 0 8) := by
  refine (parseInt_meets_iff _ 0 8 (.inl rfl) (by decide)).mpr ?_
  rintro ⟨hbit, -⟩
  exact absurd hbit (by decide)

/-- A numeral that one bit does not hold is read without an error. -/
theorem parseInt_drops_range : ¬ ∀ (s : JsString) (base bitSize : Int),
    (base = 0 ∨ 2 ≤ base ∧ base ≤ 36) → 0 ≤ bitSize ∧ bitSize ≤ 64 →
    Meets s base bitSize (parseInt s base bitSize) := by
  intro h
  have hmeets := h (js "-2") 10 1 (.inr (by decide)) (by decide)
  have hresult : parseInt (js "-2") 10 1 = (-1, none) := by decide
  obtain ⟨n, hn, hv⟩ := numeral_iff.mp ((hmeets.success (-1)).mp hresult).1
  have htwo : Magnitude 10 (unsignedText (js "-2")) 2 :=
    .plain (by decide) (.mk (by decide) (.done 2))
  rw [magnitude_unique hn htwo] at hv
  exact absurd hv (by decide)

end Sign

end Webernetes.Go
