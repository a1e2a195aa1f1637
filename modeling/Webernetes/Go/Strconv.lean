/-
Webernetes.Go.Strconv — `parseInt` of `go/strconv`.

A numeral is read unit by unit. A bigint is an integer without bound, so
the checks against the cutoff and the largest value are checks of range
and not of overflow. An error carries what its text needs.
-/
import Webernetes.Js.Text

namespace Webernetes.Go

open Js

/-- The code unit of an ASCII character. -/
def unit (c : Char) : CodeUnit := Fin.ofNat 65536 c.toNat

inductive ParseError where
  | errRange | errSyntax
  | base (base : Int)
  | bitSize (bitSize : Int)
  deriving DecidableEq

structure NumError where
  func : JsString
  num : JsString
  err : ParseError
  deriving DecidableEq

def intSize : Int := 64

def maxUint64 : Nat := (1 <<< 64) - 1

def lower (c : CodeUnit) : CodeUnit := if unit 'A' ≤ c ∧ c ≤ unit 'Z' then c + 32 else c

/-- The value of a digit, letters from ten on. -/
def digitValue (c : CodeUnit) : Option Nat :=
  if unit '0' ≤ c ∧ c ≤ unit '9' then some (c.val - (unit '0').val)
  else if unit 'a' ≤ lower c ∧ lower c ≤ unit 'z' then
    some ((lower c).val - (unit 'a').val + 10)
  else none

/-- The base and the digits when the base is left to the numeral. -/
def inferBase (s : JsString) : Nat × JsString :=
  if s[0]? = some (unit '0') then
    if s.length ≥ 3 ∧ s[1]?.map lower = some (unit 'b') then (2, s.drop 2)
    else if s.length ≥ 3 ∧ s[1]?.map lower = some (unit 'o') then (8, s.drop 2)
    else if s.length ≥ 3 ∧ s[1]?.map lower = some (unit 'x') then (16, s.drop 2)
    else (8, s.drop 1)
  else (10, s)

/-- The loop of `underscoreOK`. -/
def underscoreLoop (hex : Bool) : CodeUnit → JsString → Bool
  | saw, [] => decide (saw ≠ unit '_')
  | saw, c :: s =>
    if (unit '0' ≤ c ∧ c ≤ unit '9') ∨ (hex ∧ unit 'a' ≤ lower c ∧ lower c ≤ unit 'f') then
      underscoreLoop hex (unit '0') s
    else if c = unit '_' then
      if saw ≠ unit '0' then false else underscoreLoop hex (unit '_') s
    else underscoreLoop hex (unit '!') s

def underscoreOK (s : JsString) : Bool :=
  let s := if s[0]? = some (unit '-') ∨ s[0]? = some (unit '+') then s.drop 1 else s
  let letter := s[1]?.map lower
  if s[0]? = some (unit '0') ∧
      (letter = some (unit 'b') ∨ letter = some (unit 'o') ∨ letter = some (unit 'x')) then
    underscoreLoop (decide (letter = some (unit 'x'))) (unit '0') (s.drop 2)
  else underscoreLoop false (unit '^') s

/-- The digits of `parseUintInternal`: whether there was an underscore, and
the value so far. -/
def parseDigits (base0 : Bool) (base cutoff maxVal : Nat) :
    Bool → Nat → JsString → Except (Nat × ParseError) (Bool × Nat)
  | underscores, n, [] => .ok (underscores, n)
  | underscores, n, c :: s =>
    if c = unit '_' ∧ base0 then parseDigits base0 base cutoff maxVal true n s
    else
      match digitValue c with
      | none => .error (0, .errSyntax)
      | some d =>
        if d ≥ base then .error (0, .errSyntax)
        else if n ≥ cutoff then .error (maxVal, .errRange)
        else
          let n1 := n * base + d
          if n1 < n * base ∨ n1 > maxVal then .error (maxVal, .errRange)
          else parseDigits base0 base cutoff maxVal underscores n1 s

def parseUintInternal (s : JsString) (base bitSize : Int) : Nat × Option ParseError :=
  if s = [] then (0, some .errSyntax)
  else if ¬ ((2 ≤ base ∧ base ≤ 36) ∨ base = 0) then (0, some (.base base))
  else
    let base0 : Bool := base = 0
    let (base, digits) := if base0 then inferBase s else (base.toNat, s)
    let bitSize := if bitSize = 0 then intSize else bitSize
    if bitSize < 0 ∨ bitSize > 64 then (0, some (.bitSize bitSize))
    else
      let cutoff := maxUint64 / base + 1
      let maxVal := (1 <<< bitSize.toNat) - 1
      match parseDigits base0 base cutoff maxVal false 0 digits with
      | .error (n, e) => (n, some e)
      | .ok (underscores, n) =>
        if underscores && !underscoreOK s then (0, some .errSyntax) else (n, none)

def parseIntInternal (s : JsString) (base bitSize : Int) : Int × Option ParseError :=
  if s = [] then (0, some .errSyntax)
  else
    let neg : Bool := s[0]? = some (unit '-')
    let digits := if s[0]? = some (unit '+') ∨ s[0]? = some (unit '-') then s.drop 1 else s
    match parseUintInternal digits base bitSize with
    | (_, some .errSyntax) => (0, some .errSyntax)
    | (_, some (.base b)) => (0, some (.base b))
    | (_, some (.bitSize b)) => (0, some (.bitSize b))
    | (un, _) =>
      let bitSize := if bitSize = 0 then intSize else bitSize
      let cutoff : Nat := 1 <<< (bitSize - 1).toNat
      if !neg ∧ un ≥ cutoff then ((cutoff : Int) - 1, some .errRange)
      else if neg ∧ un > cutoff then (-(cutoff : Int), some .errRange)
      else (if neg then -(un : Int) else un, none)

/-- `toError` of `ParseInt`. -/
def parseInt (s : JsString) (base bitSize : Int) : Int × Option NumError :=
  match parseIntInternal s base bitSize with
  | (n, some err) => (n, some ⟨js "ParseInt", s, err⟩)
  | (n, none) => (n, none)

example : parseInt (js "-0x1F") 0 64 = (-31, none) := by decide
example : (parseInt (js "1_0") 10 64).2.isSome ∧ (parseInt (js "1_0") 0 64) = (10, none) := by
  decide

end Webernetes.Go
