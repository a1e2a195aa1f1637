/-
Webernetes.Etcd.PrefixRange — the keys a prefix operation touches.

`Range.prefix` takes a prefix to the range from the prefix up to
`prefixRangeEnd`, both kept as UTF-8 buffers, and the builders read the
buffers back as strings. `prefixRangeEnd` increments the first UTF-16
unit of the last code point that is not U+FFFF (`incremented`).

§1 Code points — `toWellFormed` works code point by code point.
§2 The end of a prefix — `prefixRangeEnd_cases` says what the loop finds,
   and `lt_prefixRangeEnd` that it is above every key with the prefix.
§3 Ranges — the class `Range` and the range of a prefix in a namespace.
§4 The range of a prefix — it holds the keys with the prefix and no
   others exactly when the prefix has no lone surrogate and the unit that
   is incremented is a whole code point whose successor is one too
   (`touchesPrefix_iff`). An operation through a namespace stays inside
   it exactly when the namespace's incremented code point is one unit
   (`staysInside_iff`).
-/
import Webernetes.Base.Lexicographic
import Webernetes.Etcd.Keys

namespace Webernetes.Etcd

open Js Base.Lexicographic

/-! ## §1 Code points -/

/-- What `Array.from` splits a string into: a unit or a surrogate pair. -/
inductive IsCodePoint : JsString → Prop where
  | unit (u : CodeUnit) : IsCodePoint [u]
  | pair {hi lo : CodeUnit} (hhi : isHighSurrogate hi = true) (hlo : isLowSurrogate lo = true) :
      IsCodePoint [hi, lo]

theorem isCodePoint_of_mem {s c : JsString} (h : c ∈ codePoints s) : IsCodePoint c := by
  fun_induction codePoints s with
  | case1 => cases h
  | case2 u =>
    rw [List.mem_singleton] at h
    subst h
    exact .unit u
  | case3 u v rest hpair ih =>
    rw [Bool.and_eq_true] at hpair
    rcases List.mem_cons.mp h with rfl | h
    · exact .pair hpair.1 hpair.2
    · exact ih h
  | case4 u v rest hpair ih =>
    rcases List.mem_cons.mp h with rfl | h
    · exact .unit u
    · exact ih h

@[simp] theorem codePoints_flatten (s : JsString) : (codePoints s).flatten = s := by
  fun_induction codePoints s with
  | case1 => rfl
  | case2 u => rfl
  | case3 u v rest hpair ih => simp [ih]
  | case4 u v rest hpair ih => simp [ih]

/-- A string is made well formed code point by code point. -/
theorem toWellFormed_eq_flatMap (s : JsString) :
    toWellFormed s = (codePoints s).flatMap toWellFormed := by
  fun_induction codePoints s with
  | case1 => rfl
  | case2 u => simp
  | case3 u v rest hpair ih =>
    rw [List.flatMap_cons, ← ih]
    simp [toWellFormed, toScalars, hpair]
  | case4 u v rest hpair ih =>
    rw [List.flatMap_cons, ← ih]
    simp [toWellFormed, toScalars, hpair]

theorem toWellFormed_unit {u : CodeUnit} (h : (isHighSurrogate u || isLowSurrogate u) = false) :
    toWellFormed [u] = [u] := by
  have hlt : u.val < 0xD800 ∨ 0xE000 ≤ u.val := by
    simp only [isHighSurrogate, isLowSurrogate, Bool.or_eq_false_iff, decide_eq_false_iff_not] at h
    omega
  have hvalid : u.val.isValidChar := by
    rcases hlt with h | h
    · exact Or.inl h
    · exact Or.inr ⟨by omega, by have := u.isLt; omega⟩
  have hnat : (Char.ofNat u.val).toNat = u.val := by
    rw [Char.ofNat, dif_pos hvalid]
    rfl
  show ofScalar (scalarOfUnit u) ++ [] = [u]
  rw [scalarOfUnit, if_neg (by simp [h]), ofScalar, hnat, if_pos u.isLt]
  simp

theorem toWellFormed_surrogate {u : CodeUnit} (h : (isHighSurrogate u || isLowSurrogate u) = true) :
    toWellFormed [u] = [0xFFFD] := by
  show ofScalar (scalarOfUnit u) ++ [] = [0xFFFD]
  rw [scalarOfUnit, if_pos h]
  decide

theorem toWellFormed_pair {hi lo : CodeUnit} (hhi : isHighSurrogate hi = true)
    (hlo : isLowSurrogate lo = true) : toWellFormed [hi, lo] = [hi, lo] := by
  simp only [isHighSurrogate, isLowSurrogate, decide_eq_true_eq] at hhi hlo
  have hvalid : (0x10000 + (hi.val - 0xD800) * 0x400 + (lo.val - 0xDC00)).isValidChar :=
    Or.inr ⟨by omega, by omega⟩
  have hnat : (scalarOfPair hi lo).toNat
      = 0x10000 + (hi.val - 0xD800) * 0x400 + (lo.val - 0xDC00) := by
    rw [scalarOfPair, Char.ofNat, dif_pos hvalid]
    rfl
  have hscalars : toScalars [hi, lo] = [scalarOfPair hi lo] := by
    simp [toScalars, isHighSurrogate, isLowSurrogate, hhi, hlo]
  have hfirst : Fin.ofNat 65536 (0xD800 + (0x10000 + (hi.val - 0xD800) * 0x400
      + (lo.val - 0xDC00) - 0x10000) / 0x400) = hi := by
    apply Fin.ext
    rw [Fin.val_ofNat]
    omega
  have hsecond : Fin.ofNat 65536 (0xDC00 + (0x10000 + (hi.val - 0xD800) * 0x400
      + (lo.val - 0xDC00) - 0x10000) % 0x400) = lo := by
    apply Fin.ext
    rw [Fin.val_ofNat]
    omega
  rw [toWellFormed, hscalars, List.flatMap_singleton, ofScalar, hnat, if_neg (by omega),
    hfirst, hsecond]

/-- A code point keeps its units or is a lone surrogate. -/
theorem IsCodePoint.toWellFormed {c : JsString} (h : IsCodePoint c) :
    toWellFormed c = c
      ∨ ∃ u, c = [u] ∧ (isHighSurrogate u || isLowSurrogate u) = true
        ∧ toWellFormed c = [0xFFFD] := by
  cases h with
  | unit u =>
    cases hsur : isHighSurrogate u || isLowSurrogate u with
    | false => exact Or.inl (toWellFormed_unit hsur)
    | true => exact Or.inr ⟨u, rfl, hsur, toWellFormed_surrogate hsur⟩
  | pair hhi hlo => exact Or.inl (toWellFormed_pair hhi hlo)

theorem lt_replacement {u : CodeUnit} (h : (isHighSurrogate u || isLowSurrogate u) = true) :
    u < 0xFFFD := by
  simp only [isHighSurrogate, isLowSurrogate, Bool.or_eq_true, decide_eq_true_eq] at h
  show u.val < 0xFFFD
  omega

theorem isWellFormed_unit_iff {u : CodeUnit} :
    IsWellFormed [u] ↔ (isHighSurrogate u || isLowSurrogate u) = false := by
  constructor
  · intro h
    by_contra hsur
    rw [Bool.not_eq_false] at hsur
    rw [IsWellFormed, toWellFormed_surrogate hsur] at h
    have hlt := lt_replacement hsur
    exact absurd (List.cons.inj h).1 hlt.ne'
  · exact toWellFormed_unit

/-- What replaces lone surrogates only moves a string up. -/
theorem flatMap_toWellFormed_le {chars : List JsString} (hchars : ∀ c ∈ chars, IsCodePoint c)
    (h : chars.flatMap toWellFormed ≤ chars.flatten) : ∀ c ∈ chars, IsWellFormed c := by
  induction chars with
  | nil => simp
  | cons c chars ih =>
    rw [List.flatMap_cons, List.flatten_cons] at h
    rcases (hchars c List.mem_cons_self).toWellFormed with hc | ⟨u, rfl, hsur, hc⟩
    · rw [hc, append_le_append_iff] at h
      intro d hd
      rcases List.mem_cons.mp hd with rfl | hd
      · exact hc
      · exact ih (fun d hd => hchars d (List.mem_cons_of_mem _ hd)) h d hd
    · rw [hc] at h
      have hlt := lt_replacement hsur
      exact absurd ((cons_le_cons_iff_of_ne hlt.ne').mp h) hlt.asymm

theorem isWellFormed_of_le {s : JsString} (h : toWellFormed s ≤ s) :
    ∀ c ∈ codePoints s, IsWellFormed c := by
  rw [toWellFormed_eq_flatMap] at h
  have hflat : (codePoints s).flatMap toWellFormed ≤ (codePoints s).flatten := by
    rw [codePoints_flatten]
    exact h
  exact flatMap_toWellFormed_le (fun c hc => isCodePoint_of_mem hc) hflat

theorem flatMap_toWellFormed {chars : List JsString} (h : ∀ c ∈ chars, IsWellFormed c) :
    chars.flatMap toWellFormed = chars.flatten := by
  induction chars with
  | nil => rfl
  | cons c chars ih =>
    rw [List.flatMap_cons, List.flatten_cons, h c List.mem_cons_self,
      ih fun d hd => h d (List.mem_cons_of_mem _ hd)]

/-- A string has no lone surrogate when none of its code points is one. -/
theorem isWellFormed_iff {s : JsString} :
    IsWellFormed s ↔ ∀ c ∈ codePoints s, IsWellFormed c := by
  constructor
  · intro h
    exact isWellFormed_of_le (le_of_eq h)
  · intro h
    rw [IsWellFormed, toWellFormed_eq_flatMap, flatMap_toWellFormed h, codePoints_flatten]

/-- Well-formed code points are split off whatever follows them. -/
theorem codePoints_flatten_append {chars : List JsString} (hpoint : ∀ c ∈ chars, IsCodePoint c)
    (hwell : ∀ c ∈ chars, IsWellFormed c) (rest : JsString) :
    codePoints (chars.flatten ++ rest) = chars ++ codePoints rest := by
  induction chars with
  | nil => rfl
  | cons c chars ih =>
    have ih := ih (fun d hd => hpoint d (List.mem_cons_of_mem _ hd))
      (fun d hd => hwell d (List.mem_cons_of_mem _ hd))
    have hc := hwell c List.mem_cons_self
    rw [List.flatten_cons, List.append_assoc, List.cons_append, ← ih]
    cases hpoint c List.mem_cons_self with
    | unit u =>
      -- a high surrogate that stands alone would not be well formed
      have hhigh : isHighSurrogate u = false := by
        have hsur := isWellFormed_unit_iff.mp hc
        rw [Bool.or_eq_false_iff] at hsur
        exact hsur.1
      exact codePoints_cons fun v _ => by simp [hhigh]
    | pair hhi hlo =>
      show codePoints (_ :: _ :: _) = _
      rw [codePoints, if_pos (by simp [hhi, hlo])]
      rfl

theorem toWellFormed_flatten_append {chars : List JsString} (hpoint : ∀ c ∈ chars, IsCodePoint c)
    (hwell : ∀ c ∈ chars, IsWellFormed c) (rest : JsString) :
    toWellFormed (chars.flatten ++ rest) = chars.flatten ++ toWellFormed rest := by
  rw [toWellFormed_eq_flatMap, codePoints_flatten_append hpoint hwell, List.flatMap_append,
    flatMap_toWellFormed hwell, ← toWellFormed_eq_flatMap]

/-! ## §2 The end of a prefix -/

/-- The code point `prefixRangeEnd` increments: the last that is not
U+FFFF. -/
def incremented (s : JsString) : Option JsString :=
  (codePoints s).reverse.find? fun c => decide (c ≠ [0xFFFF])

theorem IsCodePoint.head?_ne_max {c : JsString} (h : IsCodePoint c) (hc : c ≠ [0xFFFF]) :
    ∃ u, c.head? = some u ∧ u ≠ 0xFFFF := by
  cases h with
  | unit u =>
    refine ⟨u, rfl, ?_⟩
    rintro rfl
    exact hc rfl
  | @pair hi lo hhi hlo =>
    refine ⟨hi, rfl, ?_⟩
    rintro rfl
    exact absurd hhi (by decide)

/-- What the loop does to the code points, the last one first. -/
theorem prefixRangeEndLoop_cases {chars : List JsString} (hchars : ∀ c ∈ chars, IsCodePoint c) :
    (∃ m, chars = List.replicate m [0xFFFF] ∧ prefixRangeEndLoop chars = zeroKey)
      ∨ ∃ m c u earlier, chars = List.replicate m [0xFFFF] ++ c :: earlier
        ∧ c ≠ [0xFFFF] ∧ c.head? = some u ∧ u ≠ 0xFFFF
        ∧ prefixRangeEndLoop chars = earlier.reverse.flatten ++ [u + 1] := by
  induction chars with
  | nil => exact Or.inl ⟨0, rfl, rfl⟩
  | cons c chars ih =>
    by_cases hc : c = [0xFFFF]
    · subst hc
      have hloop : prefixRangeEndLoop ([0xFFFF] :: chars) = prefixRangeEndLoop chars := rfl
      rcases ih (fun d hd => hchars d (List.mem_cons_of_mem _ hd)) with
        ⟨m, hall, hend⟩ | ⟨m, d, u, earlier, hsplit, hd, hhead, hu, hend⟩
      · exact Or.inl ⟨m + 1, by rw [hall, List.replicate_succ], hloop.trans hend⟩
      · refine Or.inr ⟨m + 1, d, u, earlier, ?_, hd, hhead, hu, hloop.trans hend⟩
        rw [hsplit, List.replicate_succ, List.cons_append]
    · obtain ⟨u, hhead, hu⟩ := (hchars c List.mem_cons_self).head?_ne_max hc
      refine Or.inr ⟨0, c, u, chars, rfl, hc, hhead, hu, ?_⟩
      rw [prefixRangeEndLoop, hhead]
      exact if_neg hu

/-- A prefix of maximal units has no end; the end of any other is its
text before the incremented code point and one unit more. -/
theorem prefixRangeEnd_cases (s : JsString) :
    (∃ m, s = List.replicate m 0xFFFF ∧ incremented s = none ∧ prefixRangeEnd s = zeroKey)
      ∨ ∃ earlier c u m, codePoints s = earlier ++ c :: List.replicate m [0xFFFF]
        ∧ incremented s = some c ∧ c.head? = some u ∧ u ≠ 0xFFFF
        ∧ prefixRangeEnd s = earlier.flatten ++ [u + 1] := by
  have hpoints : ∀ c ∈ (codePoints s).reverse, IsCodePoint c := fun c hc =>
    isCodePoint_of_mem (List.mem_reverse.mp hc)
  have hend : prefixRangeEnd s = prefixRangeEndLoop (codePoints s).reverse := by
    cases s with
    | nil => rfl
    | cons u s => rfl
  rcases prefixRangeEndLoop_cases hpoints with
    ⟨m, hall, hloop⟩ | ⟨m, c, u, earlier, hsplit, hc, hhead, hu, hloop⟩
  · refine Or.inl ⟨m, ?_, ?_, hend.trans hloop⟩
    · have hchars : codePoints s = List.replicate m [0xFFFF] := by
        rw [← List.reverse_reverse (codePoints s), hall, List.reverse_replicate]
      rw [← codePoints_flatten s, hchars, List.flatten_replicate_singleton]
    · rw [incremented, hall, List.find?_eq_none]
      intro c hc
      simp [List.eq_of_mem_replicate hc]
  · refine Or.inr ⟨earlier.reverse, c, u, m, ?_, ?_, hhead, hu, hend.trans hloop⟩
    · rw [← List.reverse_reverse (codePoints s), hsplit]
      simp
    · have hskip : (List.replicate m [(0xFFFF : CodeUnit)]).find?
          (fun c => decide (c ≠ [0xFFFF])) = none := by
        rw [List.find?_eq_none]
        intro d hd
        simp [List.eq_of_mem_replicate hd]
      rw [incremented, hsplit, List.find?_append, hskip, Option.none_or]
      exact List.find?_cons_of_pos (by simp [hc])

/-- A prefix around its incremented code point. -/
theorem eq_of_codePoints {s c : JsString} {earlier : List JsString} {m : Nat}
    (h : codePoints s = earlier ++ c :: List.replicate m [0xFFFF]) :
    s = earlier.flatten ++ (c ++ List.replicate m 0xFFFF) := by
  rw [← codePoints_flatten s, h, List.flatten_append, List.flatten_cons,
    List.flatten_replicate_singleton]

theorem top_eq : (⊤ : CodeUnit) = 0xFFFF := rfl

theorem val_succ {u : CodeUnit} (h : u ≠ 0xFFFF) : (u + 1).val = u.val + 1 := by
  have hne : u.val ≠ 0xFFFF := fun hval => h (Fin.ext hval)
  rw [Fin.val_add_one_of_lt']
  have := u.isLt
  omega

theorem covBy_succ {u : CodeUnit} (h : u ≠ 0xFFFF) : u ⋖ u + 1 := by
  have hsucc := val_succ h
  constructor
  · show u.val < (u + 1).val
    omega
  · intro v huv hvu
    have huv : u.val < v.val := huv
    have hvu : v.val < (u + 1).val := hvu
    omega

theorem succ_ne_zero {u : CodeUnit} (h : u ≠ 0xFFFF) : u + 1 ≠ 0 := by
  intro hzero
  have hsucc := val_succ h
  rw [hzero] at hsucc
  exact absurd hsucc (by simp)

/-- Every key with the prefix is below the end. -/
theorem lt_prefixRangeEnd (s k : JsString) :
    prefixRangeEnd s = zeroKey ∨ s ++ k < prefixRangeEnd s := by
  rcases prefixRangeEnd_cases s with ⟨-, -, -, hend⟩ | ⟨earlier, c, u, m, hchars, -, hhead, hu, hend⟩
  · exact Or.inl hend
  · obtain ⟨rest, rfl⟩ := List.head?_eq_some_iff.mp hhead
    right
    rw [hend, eq_of_codePoints hchars, List.append_assoc, append_lt_append_iff, List.cons_append,
      List.cons_append, List.cons_lt_cons_iff]
    exact Or.inl (covBy_succ hu).1

/-! ## §3 Ranges -/

/-- The class `Range`: two byte buffers. -/
structure Range where
  start : Buffer
  rangeEnd : Buffer

/-- The constructor, given strings. -/
def Range.ofStrings (start rangeEnd : JsString) : Range :=
  ⟨Buffer.fromString start, Buffer.fromString rangeEnd⟩

/-- `Range.prefix`. -/
def Range.ofPrefix (pre : JsString) : Range := Range.ofStrings pre (prefixRangeEnd pre)

/-- What `inRange` of the builders writes into the request. -/
def Range.request (r : Range) : KeyRange :=
  ⟨Buffer.toString r.start, Buffer.toString r.rangeEnd⟩

/-- The absolute range of a request that is made in a namespace. -/
def KeyRange.inNamespace (ns : JsString) (r : KeyRange) : KeyRange :=
  ⟨namespacedKey ns r.start, namespacedRangeEnd ns r.rangeEnd⟩

def KeyRange.contains (r : KeyRange) (key : JsString) : Bool :=
  isKeyInRange key r.start r.rangeEnd

/-- The absolute range of a prefix operation in a namespace. -/
def prefixRange (ns pre : JsString) : KeyRange :=
  (Range.ofPrefix pre).request.inNamespace ns

theorem prefixRange_eq (ns pre : JsString) :
    prefixRange ns pre
      = ⟨ns ++ toWellFormed pre, namespacedRangeEnd ns (toWellFormed (prefixRangeEnd pre))⟩ := by
  rw [← toString_fromString, ← toString_fromString]
  rfl

/-- A range without a fixed end, in a namespace: up to the namespace's
own end. -/
theorem contains_unbounded {ns start k : JsString} :
    (KeyRange.inNamespace ns ⟨start, zeroKey⟩).contains (ns ++ k) = true ↔ start ≤ k := by
  have hrange : KeyRange.inNamespace ns ⟨start, zeroKey⟩ = ⟨ns ++ start, prefixRangeEnd ns⟩ := by
    cases ns with
    | nil => rfl
    | cons u ns => rfl
  rw [hrange, ← @append_le_append_iff _ _ ns]
  show isKeyInRange (ns ++ k) (ns ++ start) (prefixRangeEnd ns) = true ↔ _
  rw [isKeyInRange, if_neg (prefixRangeEnd_ne_nil ns)]
  rcases lt_prefixRangeEnd ns k with hend | hlt
  · rw [if_pos hend, decide_eq_true_iff]
  · split
    · rw [decide_eq_true_iff]
    · rw [Bool.and_eq_true, decide_eq_true_iff, decide_eq_true_iff]
      exact and_iff_left hlt

/-- A range with a proper end is the same range inside the namespace. -/
theorem contains_bounded {ns start rangeEnd k : JsString} (hnil : rangeEnd ≠ [])
    (hzero : rangeEnd ≠ zeroKey) :
    (KeyRange.inNamespace ns ⟨start, rangeEnd⟩).contains (ns ++ k) = true
      ↔ start ≤ k ∧ k < rangeEnd := by
  have hns : namespacedRangeEnd ns rangeEnd = ns ++ rangeEnd := by
    rw [namespacedRangeEnd, if_neg hnil, if_neg hzero]
  have hend : ns ++ rangeEnd ≠ zeroKey := by
    intro h
    rcases List.append_eq_singleton_iff.mp h with ⟨-, h⟩ | ⟨-, h⟩
    · exact hzero h
    · exact hnil h
  show isKeyInRange (ns ++ k) (ns ++ start) (namespacedRangeEnd ns rangeEnd) = true ↔ _
  rw [hns, isKeyInRange, if_neg (by simp [hnil]), if_neg hend, Bool.and_eq_true,
    decide_eq_true_iff, decide_eq_true_iff, append_le_append_iff, append_lt_append_iff]

theorem isKeyInRange_of_between {key start rangeEnd : JsString} (hlow : start ≤ key)
    (hhigh : key < rangeEnd) : isKeyInRange key start rangeEnd = true := by
  have hnil : rangeEnd ≠ [] := by
    rintro rfl
    exact absurd hhigh (List.not_lt_nil key)
  rw [isKeyInRange, if_neg hnil]
  split
  · exact decide_eq_true hlow
  · simp [hlow, hhigh]

theorem between_of_isKeyInRange {key start rangeEnd : JsString}
    (h : isKeyInRange key start rangeEnd = true) :
    start ≤ key ∧ (rangeEnd = [] ∧ key = start ∨ rangeEnd = zeroKey ∨ key < rangeEnd) := by
  unfold isKeyInRange at h
  split at h
  · rename_i hnil
    have hkey : key = start := of_decide_eq_true h
    exact ⟨le_of_eq hkey.symm, Or.inl ⟨hnil, hkey⟩⟩
  · split at h
    · rename_i hzero
      exact ⟨of_decide_eq_true h, Or.inr (Or.inl hzero)⟩
    · rw [Bool.and_eq_true, decide_eq_true_iff, decide_eq_true_iff] at h
      exact ⟨h.1, Or.inr (Or.inr h.2)⟩

/-! ## §4 The range of a prefix -/

/-- A prefix operation in the namespace touches the keys with the prefix. -/
def TouchesPrefix (ns pre : JsString) : Prop :=
  ∀ k, (prefixRange ns pre).contains (ns ++ k) = true ↔ pre <+: k

/-- No request made in the namespace touches a key outside it. -/
def StaysInside (ns : JsString) : Prop :=
  ∀ (r : KeyRange) (key : JsString), (r.inNamespace ns).contains key = true → ns <+: key

/-- The incremented unit is the whole code point and so is its successor. -/
def Increments (c : JsString) : Prop := c.length = 1 ∧ c ≠ [0xD7FF]

/-- A prefix of maximal units is written to the buffers as it is. -/
theorem touchesPrefix_replicate (ns : JsString) (m : Nat) :
    TouchesPrefix ns (List.replicate m 0xFFFF) := by
  have hpoints : codePoints (List.replicate m 0xFFFF) = List.replicate m [0xFFFF] := by
    induction m with
    | zero => rfl
    | succ m ih =>
      rw [List.replicate_succ, codePoints_cons fun v _ => rfl, ih, List.replicate_succ]
  have hwell : IsWellFormed (List.replicate m 0xFFFF) := by
    rw [isWellFormed_iff, hpoints]
    intro c hc
    rw [List.eq_of_mem_replicate hc]
    decide
  have hend : prefixRangeEnd (List.replicate m 0xFFFF) = zeroKey := by
    rcases prefixRangeEnd_cases (List.replicate m 0xFFFF) with
      ⟨-, -, -, hend⟩ | ⟨earlier, c, u, n, hchars, -, hhead, hu, -⟩
    · exact hend
    · rw [hpoints] at hchars
      have hc : c ∈ List.replicate m [(0xFFFF : CodeUnit)] := by
        rw [hchars]
        simp
      rw [List.eq_of_mem_replicate hc] at hhead
      exact absurd (Option.some.inj hhead).symm hu
  intro k
  have hrange : prefixRange ns (List.replicate m 0xFFFF)
      = KeyRange.inNamespace ns ⟨List.replicate m 0xFFFF, zeroKey⟩ := by
    rw [prefixRange_eq, hend, hwell]
    rfl
  rw [hrange, contains_unbounded, ← top_eq]
  exact replicate_top_le_iff

/-- The range of a prefix with an end, as the buffers spell the end. -/
theorem contains_prefixRange {ns pre k : JsString} {earlier : List JsString} {u : CodeUnit}
    (hwell : IsWellFormed pre) (hpoint : ∀ c ∈ earlier, IsCodePoint c)
    (hwells : ∀ c ∈ earlier, IsWellFormed c) (hu : u ≠ 0xFFFF)
    (hend : prefixRangeEnd pre = earlier.flatten ++ [u + 1]) :
    (prefixRange ns pre).contains (ns ++ k) = true
      ↔ pre ≤ k ∧ k < earlier.flatten ++ toWellFormed [u + 1] := by
  have hsucc : toWellFormed [u + 1] = [u + 1] ∨ toWellFormed [u + 1] = [0xFFFD] := by
    rcases (IsCodePoint.unit (u + 1)).toWellFormed with h | ⟨-, -, -, h⟩
    · exact Or.inl h
    · exact Or.inr h
  rw [prefixRange_eq, hend, hwell, toWellFormed_flatten_append hpoint hwells]
  refine contains_bounded ?_ ?_
  · rcases hsucc with h | h <;> simp [h]
  · intro hzero
    rw [zeroKey] at hzero
    rcases hsucc with h | h <;> rw [h] at hzero
    · rcases List.append_eq_singleton_iff.mp hzero with ⟨-, h⟩ | ⟨-, h⟩
      · exact succ_ne_zero hu (List.cons.inj h).1
      · cases h
    · rcases List.append_eq_singleton_iff.mp hzero with ⟨-, h⟩ | ⟨-, h⟩
      · cases h
      · cases h

/-- The unit after a high surrogate and after U+D7FF stands alone. -/
theorem toWellFormed_succ_surrogate {u : CodeUnit}
    (h : isHighSurrogate u = true ∨ u = 0xD7FF) : toWellFormed [u + 1] = [0xFFFD] := by
  refine toWellFormed_surrogate ?_
  rcases h with h | rfl
  · simp only [isHighSurrogate, decide_eq_true_eq] at h
    have hsucc : (u + 1).val = u.val + 1 := by
      refine val_succ ?_
      rintro rfl
      exact absurd h (by decide)
    simp only [isHighSurrogate, isLowSurrogate, hsucc, Bool.or_eq_true, decide_eq_true_eq]
    omega
  · decide

theorem toWellFormed_succ {u : CodeUnit} (hu : u ≠ 0xFFFF) (hwell : IsWellFormed [u])
    (hne : u ≠ 0xD7FF) : toWellFormed [u + 1] = [u + 1] := by
  refine toWellFormed_unit ?_
  have hsur := isWellFormed_unit_iff.mp hwell
  have hval : u.val ≠ 0xD7FF := fun hval => hne (Fin.ext hval)
  simp only [isHighSurrogate, isLowSurrogate, val_succ hu, Bool.or_eq_false_iff,
    decide_eq_false_iff_not] at hsur ⊢
  omega

/-- When the end of the range is U+FFFD, the range holds U+E000 as well. -/
theorem not_touchesPrefix {ns pre c : JsString} {earlier : List JsString} {u : CodeUnit} {m : Nat}
    (hwell : IsWellFormed pre) (hchars : codePoints pre = earlier ++ c :: List.replicate m [0xFFFF])
    (hhead : c.head? = some u) (hu : isHighSurrogate u = true ∨ u = 0xD7FF)
    (hend : prefixRangeEnd pre = earlier.flatten ++ [u + 1]) : ¬ TouchesPrefix ns pre := by
  intro htouches
  have hlt : u < 0xE000 := by
    rcases hu with hu | rfl
    · simp only [isHighSurrogate, decide_eq_true_eq] at hu
      show u.val < 0xE000
      omega
    · decide
  have hmax : u ≠ 0xFFFF := by
    rintro rfl
    exact absurd hlt (by decide)
  have hmem : ∀ d ∈ earlier, d ∈ codePoints pre := by
    intro d hd
    rw [hchars]
    exact List.mem_append_left _ hd
  obtain ⟨rest, rfl⟩ := List.head?_eq_some_iff.mp hhead
  have hpre := eq_of_codePoints hchars
  have hin : (prefixRange ns pre).contains (ns ++ (earlier.flatten ++ [0xE000])) = true := by
    rw [contains_prefixRange hwell (fun d hd => isCodePoint_of_mem (hmem d hd))
      (fun d hd => isWellFormed_iff.mp hwell d (hmem d hd)) hmax hend,
      toWellFormed_succ_surrogate hu, append_lt_append_iff, hpre, append_le_append_iff]
    constructor
    · exact (cons_le_cons_iff_of_ne hlt.ne).mpr hlt
    · decide
  have hstarts := (htouches _).mp hin
  rw [hpre, List.prefix_append_right_inj, List.cons_append, List.cons_prefix_cons] at hstarts
  exact hlt.ne hstarts.1

theorem touchesPrefix_iff (ns pre : JsString) :
    TouchesPrefix ns pre
      ↔ IsWellFormed pre ∧ ∀ c, incremented pre = some c → Increments c := by
  constructor
  · intro htouches
    have hself := (htouches pre).mpr List.prefix_rfl
    rw [prefixRange_eq] at hself
    have hwell := isWellFormed_of_le (append_le_append_iff.mp (between_of_isKeyInRange hself).1)
    rw [← isWellFormed_iff] at hwell
    refine ⟨hwell, ?_⟩
    intro c hc
    rcases prefixRangeEnd_cases pre with
      ⟨-, -, hnone, -⟩ | ⟨earlier, d, u, m, hchars, hsome, hhead, hu, hend⟩
    · rw [hnone] at hc
      cases hc
    · rw [hsome] at hc
      cases hc
      have hmem : c ∈ codePoints pre := by
        rw [hchars]
        exact List.mem_append_right _ List.mem_cons_self
      cases isCodePoint_of_mem hmem with
      | unit v =>
        cases hhead
        refine ⟨rfl, ?_⟩
        intro hlast
        have hlast : u = 0xD7FF := (List.cons.inj hlast).1
        exact not_touchesPrefix hwell hchars rfl (Or.inr hlast) hend htouches
      | pair hhi hlo =>
        cases hhead
        exact absurd htouches (not_touchesPrefix hwell hchars rfl (Or.inl hhi) hend)
  · intro ⟨hwell, hinc⟩
    rcases prefixRangeEnd_cases pre with
      ⟨m, hall, -, -⟩ | ⟨earlier, c, u, m, hchars, hsome, hhead, hu, hend⟩
    · rw [hall]
      exact touchesPrefix_replicate ns m
    · have hmem : ∀ d ∈ earlier, d ∈ codePoints pre := by
        intro d hd
        rw [hchars]
        exact List.mem_append_left _ hd
      have hc : c ∈ codePoints pre := by
        rw [hchars]
        exact List.mem_append_right _ List.mem_cons_self
      obtain ⟨hlength, hne⟩ := hinc c hsome
      obtain ⟨v, rfl⟩ := List.length_eq_one_iff.mp hlength
      cases hhead
      have hwellc := isWellFormed_iff.mp hwell _ hc
      intro k
      rw [contains_prefixRange hwell (fun d hd => isCodePoint_of_mem (hmem d hd))
        (fun d hd => isWellFormed_iff.mp hwell d (hmem d hd)) hu hend,
        toWellFormed_succ hu hwellc (fun h => hne (by rw [h])), eq_of_codePoints hchars, ← top_eq]
      exact prefix_iff_of_covBy (covBy_succ hu)

theorem staysInside_iff (ns : JsString) :
    StaysInside ns ↔ ∀ c, incremented ns = some c → c.length = 1 := by
  constructor
  · intro hinside c hc
    rcases prefixRangeEnd_cases ns with
      ⟨-, -, hnone, -⟩ | ⟨earlier, d, u, m, hchars, hsome, hhead, hu, hend⟩
    · rw [hnone] at hc
      cases hc
    · rw [hsome] at hc
      cases hc
      have hmem : c ∈ codePoints ns := by
        rw [hchars]
        exact List.mem_append_right _ List.mem_cons_self
      have hns := eq_of_codePoints hchars
      cases isCodePoint_of_mem hmem with
      | unit v => rfl
      | @pair hi lo hhi hlo =>
        cases hhead
        have hlow : lo < 0xFFFF := by
          simp only [isLowSurrogate, decide_eq_true_eq] at hlo
          show lo.val < 0xFFFF
          omega
        have hne : ns ≠ [] := by
          rw [hns]
          simp
        have hin : (KeyRange.inNamespace ns ⟨[], zeroKey⟩).contains
            (earlier.flatten ++ [u, 0xFFFF]) = true := by
          show isKeyInRange _ (ns ++ []) (namespacedRangeEnd ns zeroKey) = true
          have hrange : namespacedRangeEnd ns zeroKey = prefixRangeEnd ns := by
            rw [namespacedRangeEnd, if_neg (by decide), if_pos rfl, if_neg hne]
          rw [hrange, hend, List.append_nil]
          refine isKeyInRange_of_between ?_ ?_
          · rw [hns, append_le_append_iff]
            exact cons_le_cons_iff.mpr ((cons_le_cons_iff_of_ne hlow.ne).mpr hlow)
          · rw [append_lt_append_iff, List.cons_lt_cons_iff]
            exact Or.inl (covBy_succ hu).1
        have hstarts := hinside _ _ hin
        rw [hns, List.prefix_append_right_inj] at hstarts
        have hlo := (List.cons_prefix_cons.mp (List.cons_prefix_cons.mp hstarts).2).1
        exact absurd hlo hlow.ne
  · intro hunit r key hin
    obtain ⟨hlow, hhigh⟩ := between_of_isKeyInRange hin
    have hlow : ns ++ r.start ≤ key := hlow
    have hstart : ns ≤ key := le_trans (le_of_starts (List.prefix_append ns r.start)) hlow
    rcases hhigh with ⟨-, hkey⟩ | hhigh
    · rw [hkey]
      exact List.prefix_append ns r.start
    · by_cases hzero : r.rangeEnd = zeroKey
      · rcases prefixRangeEnd_cases ns with
          ⟨m, hall, -, -⟩ | ⟨earlier, c, u, m, hchars, hsome, hhead, hu, hend⟩
        · rw [hall] at hstart ⊢
          exact replicate_top_le_iff.mp hstart
        · obtain ⟨v, rfl⟩ := List.length_eq_one_iff.mp (hunit c hsome)
          cases hhead
          have hns := eq_of_codePoints hchars
          have hne : ns ≠ [] := by
            rw [hns]
            simp
          have hrange : (r.inNamespace ns).rangeEnd = earlier.flatten ++ [u + 1] := by
            show namespacedRangeEnd ns r.rangeEnd = _
            rw [hzero, namespacedRangeEnd, if_neg (by decide), if_pos rfl, if_neg hne, hend]
          rw [hrange] at hhigh
          have hbelow : key < earlier.flatten ++ [u + 1] := by
            rcases hhigh with hhigh | hhigh
            · rcases List.append_eq_singleton_iff.mp hhigh with ⟨-, h⟩ | ⟨-, h⟩
              · exact absurd (List.cons.inj h).1 (succ_ne_zero hu)
              · cases h
            · exact hhigh
          rw [hns] at hstart ⊢
          exact (prefix_iff_of_covBy (covBy_succ hu)).mp ⟨hstart, hbelow⟩
      · by_cases hnil : r.rangeEnd = []
        · have hrange : (r.inNamespace ns).rangeEnd = [] := by
            show namespacedRangeEnd ns r.rangeEnd = []
            rw [hnil, namespacedRangeEnd_nil]
          rw [hrange] at hhigh
          rcases hhigh with h | h
          · cases h
          · exact absurd h (List.not_lt_nil key)
        · have hrange : (r.inNamespace ns).rangeEnd = ns ++ r.rangeEnd := by
            show namespacedRangeEnd ns r.rangeEnd = _
            rw [namespacedRangeEnd, if_neg hnil, if_neg hzero]
          rw [hrange] at hhigh
          rcases hhigh with h | h
          · rcases List.append_eq_singleton_iff.mp h with ⟨-, h⟩ | ⟨-, h⟩
            · exact absurd h hzero
            · exact absurd h hnil
          · exact prefix_of_between hlow h

/-- When prefix operations in a namespace touch exactly the keys with the
prefix and no operation leaves the namespace. -/
theorem prefixOperations_iff (ns pre : JsString) :
    (TouchesPrefix ns pre ∧ StaysInside ns)
      ↔ (IsWellFormed pre ∧ ∀ c, incremented pre = some c → Increments c)
        ∧ ∀ c, incremented ns = some c → c.length = 1 := by
  rw [touchesPrefix_iff, staysInside_iff]

/-- A prefix that ends in an emoji takes in the next emoji too, and so
does a namespace. -/
theorem emojiPrefix_touches : ¬ TouchesPrefix [] (js "😀") ∧ ¬ StaysInside (js "😀") := by
  constructor
  · intro htouches
    have hrange : prefixRange [] (js "😀") = ⟨[0xD83D, 0xDE00], [0xFFFD]⟩ := by
      rw [prefixRange_eq]
      decide
    have hin : (prefixRange [] (js "😀")).contains ([] ++ js "😁") = true := by
      rw [hrange]
      decide
    exact absurd ((htouches _).mp hin) (by decide)
  · intro hinside
    exact absurd (hinside ⟨[], zeroKey⟩ (js "😁") (by decide)) (by decide)

end Webernetes.Etcd
