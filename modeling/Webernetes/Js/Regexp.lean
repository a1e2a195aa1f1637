/-
Webernetes.Js.Regexp — regular expressions, matched by backtracking.

`matchAll` lists what is left of a string by the ways in which an
expression takes a part of it, in the order in which a backtracking matcher
tries them, each with its captures; `exec` of an expression between `^` and
`$` is the first of them that leaves nothing.

`matchAll_sound` says that what is taken is in the language of the
expression, `matchAll_frame` that only its own groups are captured, and
`matchAll_group` and `matchAll_optional` what groups and optional parts take.
-/
import Webernetes.Js.Text

namespace Webernetes.Js

/-- A regular expression; `times` is greedy, without a maximum for `*` and
`+`. -/
inductive Regexp where
  | unit (p : CodeUnit → Bool)
  | empty
  | seq (a b : Regexp)
  | alt (a b : Regexp)
  | times (r : Regexp) (min : Nat) (max : Option Nat)
  | group (index : Nat) (r : Regexp)

/-- The text of each group, nothing for one that took no part. -/
abbrev Captures := Nat → Option JsString

namespace Regexp

/-- One given code unit. -/
def literal (u : CodeUnit) : Regexp := .unit fun v => decide (v = u)

def optional (r : Regexp) : Regexp := .times r 0 (some 1)

def anyTimes (r : Regexp) : Regexp := .times r 0 none

def oneOrMore (r : Regexp) : Regexp := .times r 1 none

/-- The groups of an expression. -/
def groups : Regexp → List Nat
  | .unit _ => []
  | .empty => []
  | .seq a b => a.groups ++ b.groups
  | .alt a b => a.groups ++ b.groups
  | .times r _ _ => r.groups
  | .group index r => index :: r.groups

/-- An iteration starts without the captures of the one before. -/
def reset (r : Regexp) (captures : Captures) : Captures := fun index =>
  if index ∈ r.groups then none else captures index

/-- The iterations of `step`, more before fewer. Once there are enough, an
iteration that takes nothing fails, so that `fuel`, the length and the
iterations that are due, bounds them. -/
def iterate (step : Captures → JsString → List (JsString × Captures)) :
    Nat → Nat → Option Nat → Captures → JsString → List (JsString × Captures)
  | 0, _, _, captures, s => [(s, captures)]
  | fuel + 1, min, max, captures, s =>
    let more :=
      if max = some 0 then []
      else ((step captures s).filter fun m => decide (0 < min ∨ m.1.length < s.length)).flatMap
        fun m => iterate step fuel (min - 1) (max.map (· - 1)) m.2 m.1
    if min = 0 then more ++ [(s, captures)] else more

/-- What is left of a string, and the captures, for every way to match. -/
def matchAll : Regexp → Captures → JsString → List (JsString × Captures)
  | .unit p, captures, s =>
    match s with
    | [] => []
    | u :: rest => if p u then [(rest, captures)] else []
  | .empty, captures, s => [(s, captures)]
  | .seq a b, captures, s => (a.matchAll captures s).flatMap fun m => b.matchAll m.2 m.1
  | .alt a b, captures, s => a.matchAll captures s ++ b.matchAll captures s
  | .times r min max, captures, s =>
    iterate (fun captures s => r.matchAll (r.reset captures) s) (min + s.length) min max captures s
  | .group index r, captures, s =>
    (r.matchAll captures s).map fun m =>
      (m.1, fun i => if i = index then some (s.take (s.length - m.1.length)) else m.2 i)

/-- `exec` of the expression between `^` and `$`. -/
def exec (r : Regexp) (s : JsString) : Option Captures :=
  ((r.matchAll (fun _ => none) s).find? fun m => m.1.isEmpty).map (·.2)

/-- `test` of the expression between `^` and `$`. -/
def test (r : Regexp) (s : JsString) : Bool := (r.exec s).isSome

/-! ## The language of an expression -/

/-- The strings an expression takes. -/
def Lang : Regexp → JsString → Prop
  | .unit p, s => ∃ u, s = [u] ∧ p u = true
  | .empty, s => s = []
  | .seq a b, s => ∃ x y, s = x ++ y ∧ a.Lang x ∧ b.Lang y
  | .alt a b, s => a.Lang s ∨ b.Lang s
  | .times r min max, s => ∃ parts : List JsString, s = parts.flatten ∧ (∀ x ∈ parts, r.Lang x)
      ∧ min ≤ parts.length ∧ ∀ n, max = some n → parts.length ≤ n
  | .group _ r, s => r.Lang s

/-- Whether an expression may take nothing. -/
def nullable : Regexp → Bool
  | .unit _ => false
  | .empty => true
  | .seq a b => a.nullable && b.nullable
  | .alt a b => a.nullable || b.nullable
  | .times r min _ => decide (min = 0) || r.nullable
  | .group _ r => r.nullable

theorem nullable_of_lang {r : Regexp} {s : JsString} (h : r.Lang s) (hs : s = []) :
    r.nullable = true := by
  induction r generalizing s with
  | unit p =>
    obtain ⟨u, rfl, -⟩ := h
    cases hs
  | empty => rfl
  | seq a b iha ihb =>
    obtain ⟨x, y, rfl, hx, hy⟩ := h
    obtain ⟨hx', hy'⟩ := List.append_eq_nil_iff.mp hs
    simp [nullable, iha hx hx', ihb hy hy']
  | alt a b iha ihb =>
    cases h with
    | inl h => simp [nullable, iha h hs]
    | inr h => simp [nullable, ihb h hs]
  | times r min max ih =>
    obtain ⟨parts, rfl, hparts, hmin, -⟩ := h
    cases parts with
    | nil => simp [nullable, Nat.le_zero.mp hmin]
    | cons x parts =>
      have hx : x = [] := List.flatten_eq_nil_iff.mp hs x List.mem_cons_self
      simp [nullable, ih (hparts x List.mem_cons_self) hx]
  | group index r ih => exact ih h hs

/-- An expression that must take something does. -/
theorem Lang.ne_nil {r : Regexp} {s : JsString} (h : r.Lang s) (hr : r.nullable = false) :
    s ≠ [] := by
  intro hs
  rw [nullable_of_lang h hs] at hr
  cases hr

/-- Whether an expression takes no string with such a unit. -/
def avoids (u : CodeUnit) : Regexp → Bool
  | .unit p => !p u
  | .empty => true
  | .seq a b => a.avoids u && b.avoids u
  | .alt a b => a.avoids u && b.avoids u
  | .times r _ _ => r.avoids u
  | .group _ r => r.avoids u

theorem Lang.not_mem {r : Regexp} {s : JsString} {u : CodeUnit} (h : r.Lang s)
    (hr : r.avoids u = true) : u ∉ s := by
  induction r generalizing s with
  | unit p =>
    obtain ⟨v, rfl, hv⟩ := h
    intro hu
    rw [List.mem_singleton.mp hu] at hr
    simp [avoids, hv] at hr
  | empty =>
    rw [h]
    simp
  | seq a b iha ihb =>
    obtain ⟨x, y, rfl, hx, hy⟩ := h
    obtain ⟨ha, hb⟩ := Bool.and_eq_true_iff.mp hr
    rw [List.mem_append, not_or]
    exact ⟨iha hx ha, ihb hy hb⟩
  | alt a b iha ihb =>
    obtain ⟨ha, hb⟩ := Bool.and_eq_true_iff.mp hr
    cases h with
    | inl h => exact iha h ha
    | inr h => exact ihb h hb
  | times r min max ih =>
    obtain ⟨parts, rfl, hparts, -⟩ := h
    intro hu
    obtain ⟨x, hx, hu⟩ := List.mem_flatten.mp hu
    exact ih (hparts x hx) hr hu
  | group index r ih => exact ih h hr

/-! ## What matching takes -/

/-- The iterations take strings of the language of what is repeated. -/
theorem iterate_sound {step : Captures → JsString → List (JsString × Captures)}
    {L : JsString → Prop}
    (hstep : ∀ {captures s m}, m ∈ step captures s → ∃ x, s = x ++ m.1 ∧ L x)
    {fuel min : Nat} {max : Option Nat} {captures : Captures} {s : JsString}
    {m : JsString × Captures} (hfuel : min ≤ fuel)
    (h : m ∈ iterate step fuel min max captures s) :
    ∃ parts : List JsString, s = parts.flatten ++ m.1 ∧ (∀ x ∈ parts, L x)
      ∧ min ≤ parts.length ∧ ∀ n, max = some n → parts.length ≤ n := by
  induction fuel generalizing min max captures s with
  | zero =>
    simp only [iterate, List.mem_singleton] at h
    subst h
    exact ⟨[], rfl, by simp, by simpa using hfuel, by simp⟩
  | succ fuel ih =>
    have hmore : m ∈ (if max = some 0 then []
        else ((step captures s).filter fun m => decide (0 < min ∨ m.1.length < s.length)).flatMap
          fun m => iterate step fuel (min - 1) (max.map (· - 1)) m.2 m.1) →
        ∃ parts : List JsString, s = parts.flatten ++ m.1 ∧ (∀ x ∈ parts, L x)
          ∧ min ≤ parts.length ∧ ∀ n, max = some n → parts.length ≤ n := by
      intro h
      split at h
      · cases h
      · rename_i hmax
        obtain ⟨m', hm', h⟩ := List.mem_flatMap.mp h
        obtain ⟨x, hx, hL⟩ := hstep (List.mem_filter.mp hm').1
        obtain ⟨parts, hparts, hall, hmin, hcount⟩ := ih (by omega) h
        refine ⟨x :: parts, ?_, ?_, ?_, ?_⟩
        · rw [hx, hparts, List.flatten_cons, List.append_assoc]
        · intro y hy
          cases hy with
          | head => exact hL
          | tail _ hy => exact hall y hy
        · rw [List.length_cons]
          omega
        · intro n hn
          have hpos : n ≠ 0 := by
            rintro rfl
            exact hmax hn
          have hle := hcount (n - 1) (by rw [hn]; rfl)
          rw [List.length_cons]
          omega
    simp only [iterate] at h
    split at h
    · rename_i hmin
      obtain h | h := List.mem_append.mp h
      · exact hmore h
      · cases List.mem_singleton.mp h
        exact ⟨[], rfl, by simp, by simp [hmin], by simp⟩
    · exact hmore h

/-- **Matching is sound**: what an expression takes is in its language. -/
theorem matchAll_sound {r : Regexp} {captures : Captures} {s : JsString}
    {m : JsString × Captures} (h : m ∈ r.matchAll captures s) :
    ∃ x, s = x ++ m.1 ∧ r.Lang x := by
  induction r generalizing captures s m with
  | unit p =>
    cases s with
    | nil => cases h
    | cons u rest =>
      simp only [matchAll] at h
      split at h
      · rename_i hp
        cases List.mem_singleton.mp h
        exact ⟨[u], rfl, u, rfl, hp⟩
      · cases h
  | empty =>
    cases List.mem_singleton.mp h
    exact ⟨[], rfl, rfl⟩
  | seq a b iha ihb =>
    obtain ⟨m', hm', h⟩ := List.mem_flatMap.mp h
    obtain ⟨x, hx, hLx⟩ := iha hm'
    obtain ⟨y, hy, hLy⟩ := ihb h
    exact ⟨x ++ y, by rw [hx, hy, List.append_assoc], x, y, rfl, hLx, hLy⟩
  | alt a b iha ihb =>
    obtain h | h := List.mem_append.mp h
    · obtain ⟨x, hx, hL⟩ := iha h
      exact ⟨x, hx, .inl hL⟩
    · obtain ⟨x, hx, hL⟩ := ihb h
      exact ⟨x, hx, .inr hL⟩
  | times r min max ih =>
    obtain ⟨parts, hs, hparts⟩ := iterate_sound ih (Nat.le_add_right _ _) h
    exact ⟨parts.flatten, hs, parts, rfl, hparts⟩
  | group index r ih =>
    obtain ⟨m', hm', rfl⟩ := List.mem_map.mp h
    obtain ⟨x, hx, hL⟩ := ih hm'
    exact ⟨x, hx, hL⟩

theorem iterate_frame {step : Captures → JsString → List (JsString × Captures)} {index : Nat}
    (hstep : ∀ {captures s m}, m ∈ step captures s → m.2 index = captures index)
    {fuel min : Nat} {max : Option Nat} {captures : Captures} {s : JsString}
    {m : JsString × Captures} (h : m ∈ iterate step fuel min max captures s) :
    m.2 index = captures index := by
  induction fuel generalizing min max captures s with
  | zero =>
    simp only [iterate, List.mem_singleton] at h
    rw [h]
  | succ fuel ih =>
    simp only [iterate] at h
    have hmore : m ∈ (if max = some 0 then []
        else ((step captures s).filter fun m => decide (0 < min ∨ m.1.length < s.length)).flatMap
          fun m => iterate step fuel (min - 1) (max.map (· - 1)) m.2 m.1) →
        m.2 index = captures index := by
      intro h
      split at h
      · cases h
      · obtain ⟨m', hm', h⟩ := List.mem_flatMap.mp h
        rw [ih h, hstep (List.mem_filter.mp hm').1]
    split at h
    · obtain h | h := List.mem_append.mp h
      · exact hmore h
      · rw [List.mem_singleton.mp h]
    · exact hmore h

/-- **Only an expression's own groups are captured.** -/
theorem matchAll_frame {r : Regexp} {index : Nat} (hindex : index ∉ r.groups)
    {captures : Captures} {s : JsString} {m : JsString × Captures}
    (h : m ∈ r.matchAll captures s) : m.2 index = captures index := by
  induction r generalizing captures s m with
  | unit p =>
    cases s with
    | nil => cases h
    | cons u rest =>
      simp only [matchAll] at h
      split at h
      · rw [List.mem_singleton.mp h]
      · cases h
  | empty => rw [List.mem_singleton.mp h]
  | seq a b iha ihb =>
    simp only [groups, List.mem_append, not_or] at hindex
    obtain ⟨m', hm', h⟩ := List.mem_flatMap.mp h
    rw [ihb hindex.2 h, iha hindex.1 hm']
  | alt a b iha ihb =>
    simp only [groups, List.mem_append, not_or] at hindex
    obtain h | h := List.mem_append.mp h
    · exact iha hindex.1 h
    · exact ihb hindex.2 h
  | times r min max ih =>
    refine iterate_frame ?_ h
    intro captures s m hm
    rw [ih hindex hm]
    exact if_neg hindex
  | group i r ih =>
    simp only [groups, List.mem_cons, not_or] at hindex
    obtain ⟨m', hm', rfl⟩ := List.mem_map.mp h
    exact (if_neg hindex.1).trans (ih hindex.2 hm')

/-! ## Groups -/

/-- A group captures what it takes. -/
theorem matchAll_group {index : Nat} {r : Regexp} {captures : Captures} {s : JsString}
    {m : JsString × Captures} (h : m ∈ (group index r).matchAll captures s) :
    ∃ x, s = x ++ m.1 ∧ r.Lang x ∧ m.2 index = some x := by
  obtain ⟨m', hm', rfl⟩ := List.mem_map.mp h
  obtain ⟨x, hx, hL⟩ := matchAll_sound hm'
  refine ⟨x, hx, hL, ?_⟩
  simp [hx]

theorem iterate_none (step : Captures → JsString → List (JsString × Captures)) (fuel : Nat)
    (captures : Captures) (s : JsString) :
    iterate step fuel 0 (some 0) captures s = [(s, captures)] := by
  cases fuel with
  | zero => rfl
  | succ fuel => rfl

/-- What an optional part does: it takes what its body takes, or nothing. -/
theorem matchAll_optional {r : Regexp} {captures : Captures} {s : JsString}
    {m : JsString × Captures} (h : m ∈ r.optional.matchAll captures s) :
    m ∈ r.matchAll (r.reset captures) s ∨ m = (s, captures) := by
  simp only [optional, matchAll, Nat.zero_add] at h
  cases hlength : s.length with
  | zero =>
    rw [hlength] at h
    exact .inr (List.mem_singleton.mp h)
  | succ fuel =>
    rw [hlength] at h
    obtain h | h := List.mem_append.mp h
    · obtain ⟨m', hm', h⟩ := List.mem_flatMap.mp h
      rw [Option.map_some, iterate_none] at h
      cases List.mem_singleton.mp h
      exact .inl (List.mem_filter.mp hm').1
    · exact .inr (List.mem_singleton.mp h)

/-- A literal before a group, as an optional part: the group is captured
with the literal before it, or is not and nothing is taken. -/
theorem matchAll_optional_literal_group {u : CodeUnit} {index : Nat} {r : Regexp}
    {captures : Captures} {s : JsString} {m : JsString × Captures}
    (h : m ∈ (optional (seq (literal u) (group index r))).matchAll captures s)
    (hfree : captures index = none) :
    (∃ x, s = u :: x ++ m.1 ∧ r.Lang x ∧ m.2 index = some x) ∨ (m.1 = s ∧ m.2 index = none) := by
  obtain h | rfl := matchAll_optional h
  · obtain ⟨m', hm', h⟩ := List.mem_flatMap.mp h
    obtain ⟨x, hx, v, rfl, hv⟩ := matchAll_sound hm'
    obtain ⟨y, hy, hL, hcapture⟩ := matchAll_group h
    rw [hx, hy, of_decide_eq_true hv]
    exact .inl ⟨y, rfl, hL, hcapture⟩
  · exact .inr ⟨rfl, hfree⟩

/-! ## Whole strings -/

/-- What `exec` finds leaves nothing. -/
theorem exec_mem {r : Regexp} {s : JsString} {captures : Captures}
    (h : r.exec s = some captures) : ([], captures) ∈ r.matchAll (fun _ => none) s := by
  obtain ⟨m, hm, rfl⟩ := Option.map_eq_some_iff.mp h
  have hmem := List.mem_of_find?_eq_some hm
  have hempty := List.find?_some hm
  rw [List.isEmpty_iff] at hempty
  rw [← hempty]
  exact hmem

/-- What `exec` accepts is in the language. -/
theorem lang_of_exec {r : Regexp} {s : JsString} {captures : Captures}
    (h : r.exec s = some captures) : r.Lang s := by
  obtain ⟨x, hx, hL⟩ := matchAll_sound (exec_mem h)
  rw [hx, List.append_nil]
  exact hL

end Regexp

end Webernetes.Js
