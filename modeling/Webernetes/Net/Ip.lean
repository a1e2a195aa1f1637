/-
Webernetes.Net.Ip — `parseIP` and `formatIP` of `go/net`.

An address is its sixteen bytes. Both parsers read a text from its front; the
loop over the groups of an IPv6 address is a recursion on the number of
groups that there is room for, with the bytes so far.
-/
import Webernetes.Js.Decimal

namespace Webernetes.Net

open Js

/-! ## Digits -/

def dot : CodeUnit := 46

def colon : CodeUnit := 58

/-- Between `"0"` and `"9"`. -/
def isDecimalDigit (u : CodeUnit) : Bool := decide (48 ≤ u.val ∧ u.val ≤ 57)

/-- The number that a text of digits spells. -/
def digitsValue (text : JsString) : Option Nat :=
  if text.isEmpty then none
  else if text.all isDecimalDigit then some (text.foldl (fun n u => n * 10 + (u.val - 48)) 0)
  else none

/-- `Number(text)`, where it is an integer. What a text reads as that is no
row of digits is a parameter. -/
def number (other : JsString → Option Int) (text : JsString) : Option Int :=
  match digitsValue text with
  | some n => some n
  | none => other text

def hexDigit (u : CodeUnit) : Option Nat :=
  if 48 ≤ u.val ∧ u.val ≤ 57 then some (u.val - 48)
  else if 65 ≤ u.val ∧ u.val ≤ 70 then some (u.val - 65 + 10)
  else if 97 ≤ u.val ∧ u.val ≤ 102 then some (u.val - 97 + 10)
  else none

def big : Nat := 0xffffff

/-- The number read, how many units were read, and whether there is a number. -/
def xtoi : Nat → Nat → JsString → Nat × Nat × Bool
  | n, c, [] => (n, c, decide (0 < c))
  | n, c, u :: value =>
    match hexDigit u with
    | none => (n, c, decide (0 < c))
    | some digit => if n * 16 + digit ≥ big then (0, c, false) else xtoi (n * 16 + digit) (c + 1) value

/-- `group.toString(16)`. -/
def hex (group : Nat) : JsString := (Nat.toDigits 16 group).map unitOf

/-! ## Parsing -/

def ipv4 (a b c d : Nat) : List Nat := [0, 0, 0, 0, 0, 0, 0, 0, 0, 0, 0xff, 0xff, a, b, c, d]

def parseOctet (part : JsString) : Option Nat := do
  let octet ← digitsValue part
  if 255 < octet then none else some octet

def parseIPv4Sloppy (value : JsString) : Option (List Nat) :=
  match value.splitOn dot with
  | [a, b, c, d] => do return ipv4 (← parseOctet a) (← parseOctet b) (← parseOctet c) (← parseOctet d)
  | _ => none

def ipv6Len : Nat := 16

def ipv4Len : Nat := 4

/-- The bytes that were read, the place of the ellipsis, and what remains.
`ip.length + 2 * left` is `ipv6Len`. -/
def ipv6Groups : Nat → List Nat → Option Nat → JsString → Option (List Nat × Option Nat × JsString)
  | 0, ip, ellipsis, remaining => some (ip, ellipsis, remaining)
  | left + 1, ip, ellipsis, remaining =>
    match xtoi 0 0 remaining with
    | (_, _, false) => none
    | (n, c, true) =>
      if 0xffff < n then none
      else if remaining[c]? = some dot then
        if ellipsis.isNone ∧ ip.length ≠ ipv6Len - ipv4Len then none
        else if ip.length + ipv4Len > ipv6Len then none
        else (parseIPv4Sloppy remaining).map fun ip4 => (ip ++ ip4.drop 12, ellipsis, [])
      else
        let ip := ip ++ [(n >>> 8) &&& 0xff, n &&& 0xff]
        match remaining.drop c with
        | [] => some (ip, ellipsis, [])
        | [_] => none
        | separator :: next :: rest =>
          if separator ≠ colon then none
          else if next = colon then
            if ellipsis.isSome then none
            else if rest.isEmpty then some (ip, some ip.length, [])
            else ipv6Groups left ip (some ip.length) rest
          else ipv6Groups left ip ellipsis (next :: rest)

/-- The zeros of the ellipsis. -/
def expandEllipsis (ip : List Nat) (ellipsis : Option Nat) : Option (List Nat) :=
  match ellipsis with
  | none => if ip.length < ipv6Len then none else some ip
  | some at' =>
    if ip.length < ipv6Len then
      some (ip.take at' ++ List.replicate (ipv6Len - ip.length) 0 ++ ip.drop at')
    else none

def finishIPv6 : Option (List Nat × Option Nat × JsString) → Option (List Nat)
  | some (ip, ellipsis, []) => expandEllipsis ip ellipsis
  | _ => none

def parseIPv6Sloppy (value : JsString) : Option (List Nat) :=
  if [colon, colon].isPrefixOf value then
    if (value.drop 2).isEmpty then some (List.replicate ipv6Len 0)
    else finishIPv6 (ipv6Groups 8 [] (some 0) (value.drop 2))
  else finishIPv6 (ipv6Groups 8 [] none value)

/-- The first dot or colon tells the family. -/
def parseIP (value : JsString) : Option (List Nat) :=
  match value.find? fun u => u = dot ∨ u = colon with
  | none => none
  | some u => if u = dot then parseIPv4Sloppy value else parseIPv6Sloppy value

/-! ## Formatting -/

def isIPv4 (ip : List Nat) : Bool :=
  ip.length = 16 && (ip.take 10).all (· = 0) && ip[10]? = some 0xff && ip[11]? = some 0xff

def groupsOf : List Nat → List Nat
  | a :: b :: ip => ((a <<< 8) ||| b) :: groupsOf ip
  | _ => []

/-- The first of the longest runs of zeros, of at least two: its start and
its length. -/
def bestRun (groups : List Nat) : Nat → Nat → Option (Nat × Nat) → Option (Nat × Nat)
  | 0, _, best => best
  | fuel + 1, i, best =>
    match groups[i]? with
    | none => best
    | some group =>
      if group ≠ 0 then bestRun groups fuel (i + 1) best
      else
        let length := ((groups.drop i).takeWhile (· = 0)).length
        if (best.map (·.2)).getD 0 < length ∧ 2 ≤ length then bestRun groups fuel (i + length) (some (i, length))
        else bestRun groups fuel (i + length) best

def join (separator : JsString) (parts : List JsString) : JsString := separator.intercalate parts

def formatGroups (groups : List Nat) : JsString := join [colon] (groups.map hex)

def formatIP (ip : List Nat) : JsString :=
  if isIPv4 ip then join [dot] ((ip.drop 12).map decimal)
  else
    let groups := groupsOf ip
    match bestRun groups groups.length 0 none with
    | none => formatGroups groups
    | some (start, length) =>
      formatGroups (groups.take start) ++ [colon, colon] ++ formatGroups (groups.drop (start + length))

example : (parseIP (js "fd00::1:2")).map formatIP = some (js "fd00::1:2") := by decide
example : (parseIP (js "::ffff:10.0.0.1")).map formatIP = some (js "10.0.0.1") := by decide

end Webernetes.Net
