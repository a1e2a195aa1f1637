/-
Webernetes.Js.Codec — values kept as JSON text.

`JsonCodec` is what is used of `JSON.stringify` and `JSON.parse` on the
values of a type: a value comes back from its text, and the text has no
lone surrogates, which `JSON.stringify` escapes.

`Spelling` builds codecs for plain data: a spelling is read off the front
of any text. `JsonCodec.ofSpelling` is a codec for every type that has
one, so that what is shown of all codecs is about something.
-/
import Webernetes.Js.Text

namespace Webernetes.Js

/-- `JSON.stringify` and `JSON.parse` on the values of a type. -/
structure JsonCodec (α : Type) where
  stringify : α → JsString
  parse : JsString → Option α
  wellFormed : ∀ value, IsWellFormed (stringify value)
  parse_stringify : ∀ value, parse (stringify value) = some value

/-- Through a buffer a value comes back as well. -/
theorem JsonCodec.parse_buffer {α : Type} (codec : JsonCodec α) (value : α) :
    codec.parse (Buffer.toString (Buffer.fromString (codec.stringify value))) = some value := by
  rw [toString_fromString_of_isWellFormed (codec.wellFormed value), codec.parse_stringify]

/-! ## Spellings -/

/-- Text in which a value is spelled, so that it can be read off the front
of a longer text. Its units are below U+0080. -/
class Spelling (α : Type) where
  put : α → JsString
  take : JsString → Option (α × JsString)
  take_put : ∀ value rest, take (put value ++ rest) = some (value, rest)
  plain : ∀ value, ∀ u ∈ put value, u.val < 128

namespace Spelling

variable {α β : Type}

instance unit : Spelling Unit where
  put _ := []
  take text := some ((), text)
  take_put _ _ := rfl
  plain _ := by simp

instance codeUnit : Spelling CodeUnit where
  put u := [Fin.ofNat 65536 (u.val / 4096), Fin.ofNat 65536 (u.val / 64 % 64),
    Fin.ofNat 65536 (u.val % 64)]
  take
    | a :: b :: c :: rest =>
      some (Fin.ofNat 65536 (a.val * 4096 + b.val * 64 + c.val), rest)
    | _ => none
  take_put u rest := by
    have hu := u.isLt
    simp only [List.cons_append, List.nil_append, Fin.val_ofNat, Option.some.injEq, Prod.mk.injEq,
      and_true]
    apply Fin.ext
    rw [Fin.val_ofNat]
    omega
  plain u v hv := by
    have hu := u.isLt
    simp only [List.mem_cons, List.not_mem_nil, or_false] at hv
    rcases hv with rfl | rfl | rfl <;> rw [Fin.val_ofNat] <;> omega

/-- Two values, one after the other. -/
instance prod [Spelling α] [Spelling β] : Spelling (α × β) where
  put value := put value.1 ++ put value.2
  take text := do
    let (a, rest) ← take text
    let (b, rest) ← take rest
    return ((a, b), rest)
  take_put value rest := by simp [List.append_assoc, take_put]
  plain value u hu := by
    rcases List.mem_append.mp hu with hu | hu
    · exact plain value.1 u hu
    · exact plain value.2 u hu

instance option [Spelling α] : Spelling (Option α) where
  put
    | none => [0]
    | some value => 1 :: put value
  take
    | 0 :: rest => some (none, rest)
    | 1 :: rest => (take rest).map fun (value, rest) => (some value, rest)
    | _ => none
  take_put value rest := by cases value <;> simp [take_put]
  plain value u hu := by
    cases value with
    | none => simp_all
    | some value =>
      rcases List.mem_cons.mp hu with rfl | hu
      · decide
      · exact plain value u hu

/-- A `1` before each element, a `0` at the end. -/
def putList [Spelling α] : List α → JsString
  | [] => [0]
  | value :: values => 1 :: (put value ++ putList values)

/-- The elements on the front of a text, no more than `fuel`. -/
def takeList [Spelling α] : Nat → JsString → Option (List α × JsString)
  | _ + 1, 0 :: rest => some ([], rest)
  | fuel + 1, 1 :: rest => do
    let (value, rest) ← take rest
    let (values, rest) ← takeList fuel rest
    return (value :: values, rest)
  | _, _ => none

theorem takeList_putList [Spelling α] (values : List α) (rest : JsString) {fuel : Nat}
    (hfuel : (putList values ++ rest).length ≤ fuel) :
    takeList fuel (putList values ++ rest) = some (values, rest) := by
  induction values generalizing fuel with
  | nil =>
    cases fuel with
    | zero => simp [putList] at hfuel
    | succ fuel => rfl
  | cons value values ih =>
    cases fuel with
    | zero => simp [putList] at hfuel
    | succ fuel =>
      have hshorter : (putList values ++ rest).length ≤ fuel := by
        simp only [putList, List.cons_append, List.append_assoc, List.length_cons,
          List.length_append] at hfuel ⊢
        omega
      simp [putList, takeList, List.append_assoc, take_put, ih hshorter]

instance list [Spelling α] : Spelling (List α) where
  put := putList
  take text := takeList text.length text
  take_put values rest := takeList_putList values rest (Nat.le_refl _)
  plain values := by
    induction values with
    | nil => simp [putList]
    | cons value values ih =>
      intro u hu
      rcases List.mem_cons.mp hu with rfl | hu
      · decide
      · rcases List.mem_append.mp hu with hu | hu
        · exact plain value u hu
        · exact ih u hu

/-- Values that are told from what they are spelled as. -/
@[reducible] def via [Spelling β] (out : α → β) (back : β → α) (h : ∀ value, back (out value) = value) :
    Spelling α where
  put value := put (out value)
  take text := (take text).map fun (value, rest) => (back value, rest)
  take_put value rest := by simp [take_put, h]
  plain value := plain (out value)

instance bool : Spelling Bool :=
  via (fun b => if b then some () else none) Option.isSome (by decide)

/-- A number is as many units. -/
instance nat : Spelling Nat :=
  via (fun n => List.replicate n ()) List.length (by simp)

instance int : Spelling Int :=
  via (fun n => (decide (n < 0), n.natAbs)) (fun p => if p.1 then -(p.2 : Int) else p.2)
    (fun n => by
      show (if decide (n < 0) = true then -(n.natAbs : Int) else n.natAbs) = n
      by_cases h : n < 0
      · rw [if_pos (decide_eq_true h)]
        omega
      · rw [if_neg (by simpa using h)]
        omega)

end Spelling

theorem ofScalar_scalarOfUnit {u : CodeUnit} (h : u.val < 128) :
    ofScalar (scalarOfUnit u) = [u] := by
  have hhigh : isHighSurrogate u = false := by simp [isHighSurrogate]; omega
  have hlow : isLowSurrogate u = false := by simp [isLowSurrogate]; omega
  have hvalid : u.val.isValidChar := .inl (by omega)
  have hval : (Char.ofNat u.val).toNat = u.val := by
    rw [Char.ofNat, dif_pos hvalid]
    rfl
  simp only [scalarOfUnit, hhigh, hlow, Bool.or_self, Bool.false_eq_true, if_false, ofScalar, hval]
  rw [if_pos (by omega)]
  simp

/-- A text of units below U+0080 has no surrogates. -/
theorem isWellFormed_of_plain : ∀ {text : JsString}, (∀ u ∈ text, u.val < 128) →
    IsWellFormed text
  | [], _ => rfl
  | [u], h => by
      show [scalarOfUnit u].flatMap ofScalar = [u]
      simp [ofScalar_scalarOfUnit (h u (by simp))]
  | u :: v :: rest, h => by
      have hhigh : isHighSurrogate u = false := by
        have hu := h u (by simp)
        simp [isHighSurrogate]
        omega
      have hrest : IsWellFormed (v :: rest) :=
        isWellFormed_of_plain fun w hw => h w (List.mem_cons_of_mem _ hw)
      unfold IsWellFormed toWellFormed at hrest ⊢
      simp only [toScalars, hhigh, Bool.false_and, Bool.false_eq_true, if_false, List.flatMap_cons,
        ofScalar_scalarOfUnit (h u (by simp)), hrest]
      rfl

/-- A codec for the values that have a spelling. -/
def JsonCodec.ofSpelling (α : Type) [Spelling α] : JsonCodec α where
  stringify := Spelling.put
  parse text := (Spelling.take text).map Prod.fst
  wellFormed value := isWellFormed_of_plain (Spelling.plain value)
  parse_stringify value := by
    have htake := Spelling.take_put value []
    rw [List.append_nil] at htake
    rw [htake]
    rfl

end Webernetes.Js
