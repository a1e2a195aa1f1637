/-
Webernetes.Js.Text — strings and buffers as the TypeScript sources use
them.

A JavaScript string is a list of UTF-16 code units, compared unit by
unit (`<` on `JsString` is the lexicographic order of the list). It need
not be well formed: a surrogate may stand alone. A `Buffer` is a list of
bytes.

`Buffer.fromString` is `Buffer.from(string)`: UTF-8, with every lone
surrogate written as U+FFFD. `Buffer.toString` is `buffer.toString()`:
UTF-8 decoding that answers U+FFFD for a byte that starts no character
and moves on by that one byte. `toString_fromString` says what the pair
does to a string: it replaces the lone surrogates and nothing else, so
a string comes back unchanged exactly when it `IsWellFormed`.
-/
import Mathlib.Data.List.Lex
import Mathlib.Order.Fin.Basic
import Mathlib.Tactic.Common

namespace Webernetes.Js

/-! ## Code units and scalar values -/

/-- A UTF-16 code unit. -/
abbrev CodeUnit := Fin 65536

instance neZeroCodeUnits : @NeZero Nat Zero.ofOfNat0 65536 := ⟨by decide⟩

/-- A JavaScript string. -/
abbrev JsString := List CodeUnit

/-- A byte buffer. -/
abbrev Buffer := List UInt8

def isHighSurrogate (u : CodeUnit) : Bool :=
  decide (0xD800 ≤ u.val ∧ u.val < 0xDC00)

def isLowSurrogate (u : CodeUnit) : Bool :=
  decide (0xDC00 ≤ u.val ∧ u.val < 0xE000)

/-- U+FFFD, what both conversions put where the input has no character. -/
def replacement : Char := Char.ofNat 0xFFFD

/-- The scalar value of one unit that is in no surrogate pair. -/
def scalarOfUnit (u : CodeUnit) : Char :=
  if isHighSurrogate u || isLowSurrogate u then replacement else Char.ofNat u.val

/-- The scalar value of a surrogate pair. -/
def scalarOfPair (hi lo : CodeUnit) : Char :=
  Char.ofNat (0x10000 + (hi.val - 0xD800) * 0x400 + (lo.val - 0xDC00))

/-- The scalar values of a string, a lone surrogate read as U+FFFD. -/
def toScalars : JsString → List Char
  | [] => []
  | [u] => [scalarOfUnit u]
  | u :: v :: rest =>
    if isHighSurrogate u && isLowSurrogate v then scalarOfPair u v :: toScalars rest
    else scalarOfUnit u :: toScalars (v :: rest)

/-- The one or two code units of a scalar value. -/
def ofScalar (c : Char) : JsString :=
  if c.toNat < 0x10000 then [Fin.ofNat 65536 c.toNat]
  else [Fin.ofNat 65536 (0xD800 + (c.toNat - 0x10000) / 0x400),
        Fin.ofNat 65536 (0xDC00 + (c.toNat - 0x10000) % 0x400)]

/-- The code units of a text. -/
def js (s : String) : JsString := s.toList.flatMap ofScalar

/-- `String.prototype.toWellFormed`. -/
def toWellFormed (s : JsString) : JsString := (toScalars s).flatMap ofScalar

/-- `String.prototype.isWellFormed`: the string has no lone surrogate. -/
def IsWellFormed (s : JsString) : Prop := toWellFormed s = s

instance (s : JsString) : Decidable (IsWellFormed s) :=
  inferInstanceAs (Decidable (toWellFormed s = s))

/-! ## Buffers -/

/-- `Buffer.from(string)`. -/
def Buffer.fromString (s : JsString) : Buffer := (toScalars s).flatMap String.utf8EncodeChar

/-- Lossy UTF-8 decoding, `fuel` bounding the number of characters read. -/
def utf8Decode : Nat → Buffer → List Char
  | 0, _ => []
  | _ + 1, [] => []
  | fuel + 1, b :: rest =>
    match ByteArray.utf8DecodeChar? (b :: rest).toByteArray 0 with
    | some c => c :: utf8Decode fuel ((b :: rest).drop c.utf8Size)
    | none => replacement :: utf8Decode fuel rest

/-- `buffer.toString()`. -/
def Buffer.toString (b : Buffer) : JsString := (utf8Decode b.length b).flatMap ofScalar

/-- `buffer.toString("latin1")`: every byte is the code unit of its value. -/
def Buffer.toLatin1 (b : Buffer) : JsString := b.map fun x => Fin.ofNat 65536 x.toNat

/-- A UTF-8 encoded character is decoded first and leaves the rest. -/
theorem utf8Decode_encode (c : Char) (rest : Buffer) (fuel : Nat) :
    utf8Decode (fuel + 1) (String.utf8EncodeChar c ++ rest) = c :: utf8Decode fuel rest := by
  have hlen : (String.utf8EncodeChar c).length = c.utf8Size := String.length_utf8EncodeChar c
  have hpos : 0 < c.utf8Size := c.utf8Size_pos
  have hdec : ByteArray.utf8DecodeChar? (String.utf8EncodeChar c ++ rest).toByteArray 0 = some c := by
    rw [List.toByteArray_append]
    exact ByteArray.utf8DecodeChar?_utf8EncodeChar_append
  have hdrop : (String.utf8EncodeChar c ++ rest).drop c.utf8Size = rest := by
    rw [← hlen]; simp
  cases hbytes : String.utf8EncodeChar c ++ rest with
  | nil =>
      have hzero := congrArg List.length hbytes
      simp [hlen] at hzero
      omega
  | cons b bs =>
      rw [hbytes] at hdec hdrop
      simp [utf8Decode, hdec, hdrop]

theorem utf8Decode_flatMap_encode : ∀ (cs : List Char) (fuel : Nat), cs.length ≤ fuel →
    utf8Decode fuel (cs.flatMap String.utf8EncodeChar) = cs
  | [], fuel, _ => by cases fuel <;> rfl
  | c :: cs, fuel, h => by
      cases fuel with
      | zero => simp at h
      | succ fuel =>
        rw [List.flatMap_cons, utf8Decode_encode,
          utf8Decode_flatMap_encode cs fuel (by simpa using h)]

theorem length_le_flatMap_encode (cs : List Char) :
    cs.length ≤ (cs.flatMap String.utf8EncodeChar).length := by
  induction cs with
  | nil => simp
  | cons c cs ih =>
      have hpos : 0 < c.utf8Size := c.utf8Size_pos
      have hlen : (String.utf8EncodeChar c).length = c.utf8Size := String.length_utf8EncodeChar c
      simp only [List.flatMap_cons, List.length_cons, List.length_append]
      omega

/-- Through a buffer and back, a string loses its lone surrogates. -/
theorem toString_fromString (s : JsString) :
    Buffer.toString (Buffer.fromString s) = toWellFormed s := by
  simp only [Buffer.toString, Buffer.fromString, toWellFormed]
  rw [utf8Decode_flatMap_encode _ _ (length_le_flatMap_encode _)]

theorem toString_fromString_of_isWellFormed {s : JsString} (h : IsWellFormed s) :
    Buffer.toString (Buffer.fromString s) = s := by
  rw [toString_fromString]; exact h

example : IsWellFormed (js "a/é😀") := by decide
example : toWellFormed [0x61, 0xD800] = [0x61, 0xFFFD] := by decide

end Webernetes.Js
