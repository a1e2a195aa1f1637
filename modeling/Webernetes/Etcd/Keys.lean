/-
Webernetes.Etcd.Keys — key ranges and namespaces of `cluster/etcd.ts`.

A range is a key and a range end. The end `""` asks for the key alone,
the end `"\0"` for every key from it on, any other end for the half-open
interval, all in code-unit order (`isKeyInRange`). A namespace is a
prefix that is put before every key on the way in and taken off on the
way out.

The keys of the store are kept in another order, that of
`String.prototype.localeCompare`. `Locale` is the host's collation: a
total preorder on strings, which is what ECMA-402 promises about it. It
need not agree with the code-unit order, and two different strings may
compare equal.
-/
import Webernetes.Js.Text
import Webernetes.Collections

namespace Webernetes.Etcd

open Js

/-! ## Collation -/

/-- The host's `localeCompare`, a total preorder on strings. -/
structure Locale where
  localeCompare : JsString → JsString → Ordering
  trans : Std.TransCmp localeCompare

instance (locale : Locale) : Std.TransCmp locale.localeCompare := locale.trans

/-- The two strings are one key to the collation. -/
def Locale.Same (locale : Locale) (left right : JsString) : Prop :=
  locale.localeCompare left right = .eq

instance (locale : Locale) (left right : JsString) : Decidable (locale.Same left right) :=
  inferInstanceAs (Decidable (_ = _))

@[simp] theorem Locale.same_refl (locale : Locale) (k : JsString) : locale.Same k k :=
  Std.ReflCmp.compare_self

theorem Locale.Same.symm {locale : Locale} {a b : JsString} (h : locale.Same a b) :
    locale.Same b a :=
  Std.OrientedCmp.eq_symm h

theorem Locale.Same.trans {locale : Locale} {a b c : JsString} (hab : locale.Same a b)
    (hbc : locale.Same b c) : locale.Same a c :=
  Std.TransCmp.eq_trans hab hbc

/-- Lower case of an ASCII letter. -/
def foldCase (u : CodeUnit) : CodeUnit := if 0x41 ≤ u ∧ u ≤ 0x5A then u + 32 else u

/-- The canonical decomposition of é, every other unit as it is. -/
def decompose (u : CodeUnit) : JsString := if u = 0xE9 then [0x65, 0x301] else [u]

/-- The root collation as far as the concrete runs below need it: ASCII
letters alphabetically, a small letter before its capital, and é equal to
e with a combining acute accent. -/
def rootLocale : Locale where
  localeCompare := compareLex (compareOn fun s => (s.flatMap decompose).map foldCase)
    fun a b => compare (b.flatMap decompose) (a.flatMap decompose)
  trans :=
    have _down : Std.TransCmp fun a b : JsString =>
        compare (b.flatMap decompose) (a.flatMap decompose) :=
      inferInstanceAs (Std.TransCmp fun a b =>
        compareOn (fun s : JsString => s.flatMap decompose) b a)
    inferInstance

example : rootLocale.localeCompare (js "a") (js "B") = .lt
    ∧ rootLocale.localeCompare (js "B") (js "c") = .lt := by decide

theorem flatMap_decompose {s : JsString} (h : (0xE9 : CodeUnit) ∉ s) : s.flatMap decompose = s := by
  induction s with
  | nil => rfl
  | cons u s ih =>
    rw [List.mem_cons, not_or] at h
    rw [List.flatMap_cons, ih h.2, decompose, if_neg (Ne.symm h.1)]
    rfl

/-- The root collation takes nothing else for a key without é and accents. -/
theorem eq_of_same_rootLocale {k key : JsString} (h : rootLocale.Same k key)
    (hplain : (0xE9 : CodeUnit) ∉ key) (haccent : (0x301 : CodeUnit) ∉ key) : k = key := by
  have hsame : compare (key.flatMap decompose) (k.flatMap decompose) = .eq := by
    rw [Locale.Same, rootLocale, compareLex_eq_eq] at h
    exact h.2
  have heq : key.flatMap decompose = k.flatMap decompose := Std.LawfulEqOrd.eq_of_compare hsame
  have hk : (0xE9 : CodeUnit) ∉ k := by
    intro hmem
    refine haccent ?_
    rw [← flatMap_decompose hplain, heq]
    exact List.mem_flatMap.mpr ⟨0xE9, hmem, by decide⟩
  rw [← flatMap_decompose hk, ← heq, flatMap_decompose hplain]
/-! ## Ranges -/

/-- The range end that stands for "from the key on". -/
def zeroKey : JsString := [0]

/-- The code points of a string as strings, `Array.from(string)`. -/
def codePoints : JsString → List JsString
  | [] => []
  | [u] => [[u]]
  | u :: v :: rest =>
    if isHighSurrogate u && isLowSurrogate v then [u, v] :: codePoints rest
    else [u] :: codePoints (v :: rest)

/-- A code unit that starts no surrogate pair is a code point. -/
theorem codePoints_cons {u : CodeUnit} {rest : JsString}
    (h : ∀ v, rest.head? = some v → (isHighSurrogate u && isLowSurrogate v) = false) :
    codePoints (u :: rest) = [u] :: codePoints rest := by
  cases rest with
  | nil => rfl
  | cons v rest => rw [codePoints, h v rfl, if_neg Bool.false_ne_true]

/-- The loop of `prefixRangeEnd`, over the code points from the last one
down. -/
def prefixRangeEndLoop : List JsString → JsString
  | [] => zeroKey
  | char :: earlier =>
    match char.head? with
    | none => prefixRangeEndLoop earlier
    | some code =>
      if code = 0xFFFF then prefixRangeEndLoop earlier
      else earlier.reverse.flatten ++ [code + 1]

/-- The end of the range of keys with a prefix. -/
def prefixRangeEnd (pre : JsString) : JsString :=
  if pre.length = 0 then zeroKey else prefixRangeEndLoop (codePoints pre).reverse

def isKeyInRange (key start rangeEnd : JsString) : Bool :=
  if rangeEnd = [] then decide (key = start)
  else if rangeEnd = zeroKey then decide (start ≤ key)
  else decide (start ≤ key) && decide (key < rangeEnd)

/-- The bounds `assertTxnWriteRangesValid` keeps of a write. -/
structure KeyRange where
  start : JsString
  rangeEnd : JsString
  deriving DecidableEq

def rangesOverlap (left right : KeyRange) : Bool :=
  isKeyInRange left.start right.start right.rangeEnd
    || isKeyInRange right.start left.start left.rangeEnd

@[simp] theorem isKeyInRange_single (key start : JsString) :
    isKeyInRange key start [] = decide (key = start) := by
  simp [isKeyInRange]

/-! ## Namespaces -/

def namespacedKey (ns key : JsString) : JsString := ns ++ key

def unprefixKey (key ns : JsString) : JsString :=
  if ns ≠ [] ∧ ns.isPrefixOf key then key.drop ns.length else key

def namespacedRangeEnd (ns rangeEnd : JsString) : JsString :=
  if rangeEnd = [] then []
  else if rangeEnd = zeroKey then (if ns = [] then zeroKey else prefixRangeEnd ns)
  else ns ++ rangeEnd

@[simp] theorem namespacedKey_nil (key : JsString) : namespacedKey [] key = key := rfl

@[simp] theorem namespacedRangeEnd_nil (ns : JsString) : namespacedRangeEnd ns [] = [] := by
  simp [namespacedRangeEnd]

theorem prefixRangeEndLoop_ne_nil : ∀ chars : List JsString, prefixRangeEndLoop chars ≠ []
  | [] => by simp [prefixRangeEndLoop, zeroKey]
  | char :: earlier => by
      have ih := prefixRangeEndLoop_ne_nil earlier
      rw [prefixRangeEndLoop]
      split
      · exact ih
      · split
        · exact ih
        · simp

theorem prefixRangeEnd_ne_nil (pre : JsString) : prefixRangeEnd pre ≠ [] := by
  unfold prefixRangeEnd
  split
  · simp [zeroKey]
  · exact prefixRangeEndLoop_ne_nil _

/-- Without a namespace an end is taken as it is. -/
@[simp] theorem namespacedRangeEnd_nil_left (rangeEnd : JsString) :
    namespacedRangeEnd [] rangeEnd = rangeEnd := by
  unfold namespacedRangeEnd
  split
  · simp [*]
  · split <;> simp [*]

end Webernetes.Etcd
