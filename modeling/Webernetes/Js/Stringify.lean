/-
Webernetes.Js.Stringify — `JSON.stringify` without spacing.

A text is read back off the front of a longer one: strings end with their
quote, arrays and objects with their bracket, and a number ends where no
unit of a number follows (`Delimited`). So no two values have one text
(`stringify_inj`), the members of an object taken in their order.

Numbers are any type with texts that are no two numbers' and made of the
units numbers are written with (`NumberText`); for the numbers of the host
`0` and `-0` are one.
-/
import Webernetes.Js.Decimal
import Webernetes.Js.Json

namespace Webernetes.Js

/-! ## Strings -/

def hexDigit (d : Nat) : CodeUnit := Fin.ofNat 65536 (if d < 10 then 0x30 + d else 0x57 + d)

/-- `\u` and four digits. -/
def unicodeEscape (u : CodeUnit) : JsString :=
  [0x5C, 0x75, hexDigit (u.val / 0x1000), hexDigit (u.val / 0x100 % 0x10),
    hexDigit (u.val / 0x10 % 0x10), hexDigit (u.val % 0x10)]

/-- A unit that is in no surrogate pair. -/
def escapeUnit (u : CodeUnit) : JsString :=
  if u = 0x08 then [0x5C, 0x62]
  else if u = 0x09 then [0x5C, 0x74]
  else if u = 0x0A then [0x5C, 0x6E]
  else if u = 0x0C then [0x5C, 0x66]
  else if u = 0x0D then [0x5C, 0x72]
  else if u = 0x22 then [0x5C, 0x22]
  else if u = 0x5C then [0x5C, 0x5C]
  else if decide (u.val < 0x20) || isHighSurrogate u || isLowSurrogate u then unicodeEscape u
  else [u]

/-- The units between the quotes. -/
def escape : JsString → JsString
  | [] => []
  | [u] => escapeUnit u
  | u :: v :: rest =>
    if isHighSurrogate u && isLowSurrogate v then u :: v :: escape rest
    else escapeUnit u ++ escape (v :: rest)

def quote (s : JsString) : JsString := 0x22 :: (escape s ++ [0x22])

/-! ### Reading a string back -/

def hexValue (u : CodeUnit) : Nat := if u.val < 0x3A then u.val - 0x30 else u.val - 0x57

theorem hexValue_hexDigit : ∀ {d : Nat}, d < 16 → hexValue (hexDigit d) = d := by decide

/-- The unit an escape of one letter stands for. -/
def unescapeLetter (u : CodeUnit) : CodeUnit :=
  if u = 0x62 then 0x08
  else if u = 0x74 then 0x09
  else if u = 0x6E then 0x0A
  else if u = 0x66 then 0x0C
  else if u = 0x72 then 0x0D
  else u

/-- The unit on the front of an escaped text, which is before any quote. -/
def readUnit : JsString → Option (CodeUnit × JsString)
  | [] => none
  | u :: rest =>
    if u = 0x5C then
      match rest with
      | 0x75 :: a :: b :: c :: d :: rest =>
        some (Fin.ofNat 65536
          (hexValue a * 0x1000 + hexValue b * 0x100 + hexValue c * 0x10 + hexValue d), rest)
      | letter :: rest => some (unescapeLetter letter, rest)
      | [] => none
    else if u = 0x22 then none
    else some (u, rest)

theorem readUnit_unicodeEscape (u : CodeUnit) (rest : JsString) :
    readUnit (unicodeEscape u ++ rest) = some (u, rest) := by
  have hu := u.isLt
  simp only [unicodeEscape, List.cons_append, List.nil_append, readUnit, if_true]
  rw [hexValue_hexDigit (by omega), hexValue_hexDigit (by omega), hexValue_hexDigit (by omega),
    hexValue_hexDigit (by omega)]
  refine congrArg (fun v => some (v, rest)) (Fin.ext ?_)
  rw [Fin.val_ofNat]
  omega

theorem readUnit_of_plain {u : CodeUnit} (hbackslash : u ≠ 0x5C) (hquote : u ≠ 0x22)
    (rest : JsString) : readUnit (u :: rest) = some (u, rest) := by
  simp [readUnit, hbackslash, hquote]

theorem readUnit_escapeUnit (u : CodeUnit) (rest : JsString) :
    readUnit (escapeUnit u ++ rest) = some (u, rest) := by
  unfold escapeUnit
  split
  · subst_vars; rfl
  split
  · subst_vars; rfl
  split
  · subst_vars; rfl
  split
  · subst_vars; rfl
  split
  · subst_vars; rfl
  split
  · subst_vars; rfl
  split
  · subst_vars; rfl
  split
  · exact readUnit_unicodeEscape u rest
  · rename_i hquote hbackslash _
    exact readUnit_of_plain hbackslash hquote rest

theorem readUnit_surrogate {u : CodeUnit} (h : 0xD800 ≤ u.val) (rest : JsString) :
    readUnit (u :: rest) = some (u, rest) := by
  refine readUnit_of_plain ?_ ?_ rest
  · rintro rfl
    exact absurd h (by decide)
  · rintro rfl
    exact absurd h (by decide)

/-- The units up to the closing quote, no more than `fuel`. -/
def readUnits : Nat → JsString → Option (JsString × JsString)
  | 0, _ => none
  | fuel + 1, text =>
    match readUnit text with
    | some (u, rest) => (readUnits fuel rest).map fun (units, rest) => (u :: units, rest)
    | none => some ([], text.tail)

theorem readUnits_step {text rest : JsString} {u : CodeUnit} (h : readUnit text = some (u, rest))
    (fuel : Nat) : readUnits (fuel + 1) text
      = (readUnits fuel rest).map fun (units, rest) => (u :: units, rest) := by
  rw [readUnits, h]

/-- A string is read off the front of what follows its first quote. -/
theorem readUnits_escape (s rest : JsString) {fuel : Nat} (h : s.length < fuel) :
    readUnits fuel (escape s ++ 0x22 :: rest) = some (s, rest) := by
  obtain ⟨fuel, rfl⟩ : ∃ k, fuel = k + 1 := ⟨fuel - 1, by omega⟩
  induction s using escape.induct generalizing fuel with
  | case1 => rfl
  | case2 u =>
    obtain ⟨fuel, rfl⟩ : ∃ k, fuel = k + 1 := ⟨fuel - 1, by simp at h; omega⟩
    rw [escape, readUnits_step (readUnit_escapeUnit u _)]
    rfl
  | case3 u v s hpair ih =>
    obtain ⟨fuel, rfl⟩ : ∃ k, fuel = k + 1 + 1 := ⟨fuel - 2, by simp at h; omega⟩
    simp only [Bool.and_eq_true, isHighSurrogate, isLowSurrogate, decide_eq_true_eq] at hpair
    have hboth : isHighSurrogate u && isLowSurrogate v := by
      simp [isHighSurrogate, isLowSurrogate, hpair]
    rw [escape, if_pos hboth, List.cons_append, List.cons_append,
      readUnits_step (readUnit_surrogate hpair.1.1 _),
      readUnits_step (readUnit_surrogate (by omega) _), ih _ (by simpa using h)]
    rfl
  | case4 u v s hpair ih =>
    obtain ⟨fuel, rfl⟩ : ∃ k, fuel = k + 1 := ⟨fuel - 1, by simp at h; omega⟩
    rw [escape, if_neg hpair, List.append_assoc, readUnits_step (readUnit_escapeUnit u _),
      ih _ (by simpa using h)]
    rfl

theorem quote_append_inj {s t rest rest' : JsString} (h : quote s ++ rest = quote t ++ rest') :
    s = t ∧ rest = rest' := by
  have htail : escape s ++ 0x22 :: rest = escape t ++ 0x22 :: rest' := by
    simpa [quote, List.append_assoc] using h
  have hs := readUnits_escape s rest (show s.length < s.length + t.length + 1 by omega)
  have ht := readUnits_escape t rest' (show t.length < s.length + t.length + 1 by omega)
  rw [htail, ht] at hs
  cases hs
  exact ⟨rfl, rfl⟩

/-! ## Numbers -/

/-- The digits, `+`, `-`, `.` and `e`. -/
def numberUnits : List CodeUnit :=
  [0x30, 0x31, 0x32, 0x33, 0x34, 0x35, 0x36, 0x37, 0x38, 0x39, 0x2B, 0x2D, 0x2E, 0x65]

/-- `String(n)` on the numbers JSON has. -/
class NumberText (N : Type) where
  text : N → JsString
  text_inj : ∀ {m n}, text m = text n → m = n
  ne_nil : ∀ n, text n ≠ []
  plain : ∀ n, ∀ u ∈ text n, u ∈ numberUnits

theorem digitUnit_mem : ∀ {d : Nat}, d < 10 → digitUnit d ∈ numberUnits := by decide

theorem mem_numberUnits_of_mem_decimal (n : Nat) : ∀ u ∈ decimal n, u ∈ numberUnits := by
  induction n using Nat.strongRecOn with
  | ind n ih =>
    intro u hu
    by_cases hn : n < 10
    · rw [decimal_of_lt hn, List.mem_singleton] at hu
      exact hu ▸ digitUnit_mem hn
    · rw [decimal_of_le (by omega), List.mem_append, List.mem_singleton] at hu
      rcases hu with hu | rfl
      · exact ih (n / 10) (by omega) u hu
      · exact digitUnit_mem (Nat.mod_lt n (by decide))

instance : NumberText Nat where
  text := decimal
  text_inj := decimal_inj
  ne_nil := decimal_ne_nil
  plain := mem_numberUnits_of_mem_decimal

/-- What follows a value: nothing, or the next item or the end of a list. -/
def Delimited (rest : JsString) : Prop := ∀ u, rest.head? = some u → u ∉ numberUnits

theorem delimited_nil : Delimited [] := by simp [Delimited]

theorem delimited_cons {u : CodeUnit} (h : u ∉ numberUnits) (rest : JsString) :
    Delimited (u :: rest) := by simpa [Delimited] using h

theorem takeWhile_number {text rest : JsString} (hplain : ∀ u ∈ text, u ∈ numberUnits)
    (hrest : Delimited rest) : (text ++ rest).takeWhile (· ∈ numberUnits) = text := by
  rw [List.takeWhile_append_of_pos (by simpa using hplain)]
  cases rest with
  | nil => simp
  | cons u rest =>
    have hu : u ∉ numberUnits := hrest u rfl
    simp [hu]

theorem text_append_inj {N : Type} [NumberText N] {m n : N} {rest rest' : JsString}
    (hrest : Delimited rest) (hrest' : Delimited rest')
    (h : NumberText.text m ++ rest = NumberText.text n ++ rest') : m = n ∧ rest = rest' := by
  have htext : NumberText.text m = NumberText.text n := by
    rw [← takeWhile_number (NumberText.plain m) hrest, h,
      takeWhile_number (NumberText.plain n) hrest']
  refine ⟨NumberText.text_inj htext, ?_⟩
  rw [htext] at h
  exact List.append_cancel_left h

/-! ## Values -/

/-- Texts with commas between them. -/
def separated : List JsString → JsString
  | [] => []
  | text :: texts => text ++ texts.flatMap (0x2C :: ·)

namespace Json

variable {N : Type} [NumberText N]

mutual

/-- `JSON.stringify`. -/
def stringify : Json N → JsString
  | .null => js "null"
  | .bool true => js "true"
  | .bool false => js "false"
  | .number n => NumberText.text n
  | .string s => quote s
  | .array items => 0x5B :: (separated (itemTexts items) ++ [0x5D])
  | .object fields => 0x7B :: (separated (memberTexts fields) ++ [0x7D])

def itemTexts : List (Json N) → List JsString
  | [] => []
  | item :: items => stringify item :: itemTexts items

def memberText : JsString × Json N → JsString
  | (key, value) => quote key ++ 0x3A :: stringify value

def memberTexts : List (JsString × Json N) → List JsString
  | [] => []
  | member :: fields => memberText member :: memberTexts fields

end

/-! ### The first unit -/

/-- What a value is. -/
inductive Kind where
  | null
  | true
  | false
  | number
  | string
  | array
  | object
  deriving DecidableEq

omit [NumberText N] in
def kind : Json N → Kind
  | .null => .null
  | .bool true => .true
  | .bool false => .false
  | .number _ => .number
  | .string _ => .string
  | .array _ => .array
  | .object _ => .object

/-- What a text that starts with the unit is the text of. -/
def kindOf (u : CodeUnit) : Option Kind :=
  if u = 0x6E then some .null
  else if u = 0x74 then some .true
  else if u = 0x66 then some .false
  else if u = 0x22 then some .string
  else if u = 0x5B then some .array
  else if u = 0x7B then some .object
  else if u ∈ numberUnits then some .number
  else none

theorem kindOf_number : ∀ {u : CodeUnit}, u ∈ numberUnits → kindOf u = some .number := by
  intro u hu
  simp only [numberUnits, List.mem_cons, List.not_mem_nil, or_false] at hu
  rcases hu with rfl | rfl | rfl | rfl | rfl | rfl | rfl | rfl | rfl | rfl | rfl | rfl | rfl | rfl
    <;> decide

theorem head_stringify (v : Json N) :
    ∃ u rest, stringify v = u :: rest ∧ kindOf u = some v.kind := by
  match v with
  | .null => exact ⟨0x6E, js "ull", rfl, rfl⟩
  | .bool true => exact ⟨0x74, js "rue", rfl, rfl⟩
  | .bool false => exact ⟨0x66, js "alse", rfl, rfl⟩
  | .number n =>
    cases htext : NumberText.text n with
    | nil => exact absurd htext (NumberText.ne_nil n)
    | cons u rest =>
      refine ⟨u, rest, by rw [stringify, htext], ?_⟩
      exact kindOf_number (NumberText.plain n u (by rw [htext]; exact List.mem_cons_self))
  | .string s => exact ⟨0x22, _, by rw [stringify, quote], rfl⟩
  | .array items => exact ⟨0x5B, _, by rw [stringify], rfl⟩
  | .object fields => exact ⟨0x7B, _, by rw [stringify], rfl⟩

theorem kind_eq {v w : Json N} {rest rest' : JsString}
    (h : stringify v ++ rest = stringify w ++ rest') : v.kind = w.kind := by
  obtain ⟨u, tail, htail, hu⟩ := head_stringify v
  obtain ⟨u', tail', htail', hu'⟩ := head_stringify w
  rw [htail, htail', List.cons_append, List.cons_append, List.cons.injEq] at h
  rw [h.1, hu'] at hu
  exact (Option.some.inj hu).symm

/-- No text of a value starts as a closing bracket does. -/
theorem stringify_ne_close {v : Json N} {rest rest' : JsString} {close : CodeUnit}
    (hclose : kindOf close = none) : stringify v ++ rest ≠ close :: rest' := by
  obtain ⟨u, tail, htail, hu⟩ := head_stringify v
  intro h
  rw [htail, List.cons_append, List.cons.injEq] at h
  rw [h.1, hclose] at hu
  cases hu

theorem itemTexts_eq_map (items : List (Json N)) : itemTexts items = items.map stringify := by
  induction items with
  | nil => rfl
  | cons item items ih => rw [itemTexts, ih, List.map_cons]

theorem memberTexts_eq_map (fields : List (JsString × Json N)) :
    memberTexts fields = fields.map memberText := by
  induction fields with
  | nil => rfl
  | cons member fields ih => rw [memberTexts, ih, List.map_cons]

end Json

/-! ### No two values have one text -/

section ReadsOff

variable {α : Type} {put : α → JsString} {close : CodeUnit}

/-- The text of `x` is read off the front of what follows it. -/
def ReadsOff (put : α → JsString) (x : α) : Prop :=
  ∀ (y : α) {rest rest' : JsString}, Delimited rest → Delimited rest' →
    put x ++ rest = put y ++ rest' → x = y ∧ rest = rest'

theorem delimited_more (hclose : close ∉ numberUnits) (texts : List JsString) (rest : JsString) :
    Delimited (texts.flatMap (0x2C :: ·) ++ close :: rest) := by
  cases texts with
  | nil => exact delimited_cons hclose rest
  | cons text texts => exact delimited_cons (by decide) _

/-- After the first item of a list, up to the bracket that ends it. -/
theorem more_append_inj (hclose : close ∉ numberUnits) (hcomma : close ≠ 0x2C) {xs : List α}
    (h : ∀ x ∈ xs, ReadsOff put x) (ys : List α) {rest rest' : JsString}
    (heq : (xs.map put).flatMap (0x2C :: ·) ++ close :: rest
      = (ys.map put).flatMap (0x2C :: ·) ++ close :: rest') : xs = ys ∧ rest = rest' := by
  induction xs generalizing ys with
  | nil =>
    cases ys with
    | nil => simpa using heq
    | cons y ys => simp [hcomma] at heq
  | cons x xs ih =>
    cases ys with
    | nil => simp [Ne.symm hcomma] at heq
    | cons y ys =>
      simp only [List.map_cons, List.flatMap_cons, List.append_assoc, List.cons_append,
        List.cons.injEq, true_and] at heq
      obtain ⟨rfl, hmore⟩ := h x List.mem_cons_self y (delimited_more hclose _ rest)
        (delimited_more hclose _ rest') heq
      obtain ⟨rfl, hsame⟩ := ih (fun x' hx' => h x' (List.mem_cons_of_mem _ hx')) ys hmore
      exact ⟨rfl, hsame⟩

theorem separated_append_inj (hclose : close ∉ numberUnits) (hcomma : close ≠ 0x2C)
    (hfirst : ∀ x rest rest', put x ++ rest ≠ close :: rest') {xs : List α}
    (h : ∀ x ∈ xs, ReadsOff put x) (ys : List α) {rest rest' : JsString}
    (heq : separated (xs.map put) ++ close :: rest = separated (ys.map put) ++ close :: rest') :
    xs = ys ∧ rest = rest' := by
  cases xs with
  | nil =>
    cases ys with
    | nil => simpa [separated] using heq
    | cons y ys =>
      simp only [List.map_cons, List.map_nil, separated, List.nil_append, List.append_assoc] at heq
      exact absurd heq.symm (hfirst y _ _)
  | cons x xs =>
    cases ys with
    | nil =>
      simp only [List.map_cons, List.map_nil, separated, List.nil_append, List.append_assoc] at heq
      exact absurd heq (hfirst x _ _)
    | cons y ys =>
      simp only [List.map_cons, separated, List.append_assoc] at heq
      obtain ⟨rfl, hmore⟩ := h x List.mem_cons_self y (delimited_more hclose _ rest)
        (delimited_more hclose _ rest') heq
      obtain ⟨rfl, hsame⟩ := more_append_inj hclose hcomma
        (fun x' hx' => h x' (List.mem_cons_of_mem _ hx')) ys hmore
      exact ⟨rfl, hsame⟩

end ReadsOff

namespace Json

variable {N : Type} [NumberText N]

theorem memberText_ne_close (member : JsString × Json N) (rest rest' : JsString) :
    memberText member ++ rest ≠ 0x7D :: rest' := by
  obtain ⟨key, value⟩ := member
  simp [memberText, quote]

mutual

theorem readsOff_stringify : (v : Json N) → ReadsOff stringify v
  | .null, w, rest, rest', _, _, h => by
    have hkind := kind_eq h
    cases w with
    | null => exact ⟨rfl, List.append_cancel_left h⟩
    | bool b => cases b <;> cases hkind
    | _ => cases hkind
  | .bool b, w, rest, rest', _, _, h => by
    have hkind := kind_eq h
    cases w with
    | bool b' =>
      cases b <;> cases b'
      · exact ⟨rfl, List.append_cancel_left h⟩
      · cases hkind
      · cases hkind
      · exact ⟨rfl, List.append_cancel_left h⟩
    | _ => cases b <;> cases hkind
  | .number n, w, rest, rest', hrest, hrest', h => by
    have hkind := kind_eq h
    cases w with
    | number n' =>
      rw [stringify, stringify] at h
      obtain ⟨rfl, hsame⟩ := text_append_inj hrest hrest' h
      exact ⟨rfl, hsame⟩
    | bool b => cases b <;> cases hkind
    | _ => cases hkind
  | .string s, w, rest, rest', _, _, h => by
    have hkind := kind_eq h
    cases w with
    | string s' =>
      rw [stringify, stringify] at h
      obtain ⟨rfl, hsame⟩ := quote_append_inj h
      exact ⟨rfl, hsame⟩
    | bool b => cases b <;> cases hkind
    | _ => cases hkind
  | .array items, w, rest, rest', _, _, h => by
    have hkind := kind_eq h
    cases w with
    | array items' =>
      simp only [stringify, List.cons_append, List.append_assoc, List.nil_append, List.cons.injEq,
        true_and, itemTexts_eq_map] at h
      obtain ⟨rfl, hsame⟩ := separated_append_inj (by decide) (by decide)
        (fun _ _ _ => stringify_ne_close rfl) (readsOff_items items) items' h
      exact ⟨rfl, hsame⟩
    | bool b => cases b <;> cases hkind
    | _ => cases hkind
  | .object fields, w, rest, rest', _, _, h => by
    have hkind := kind_eq h
    cases w with
    | object fields' =>
      simp only [stringify, List.cons_append, List.append_assoc, List.nil_append, List.cons.injEq,
        true_and, memberTexts_eq_map] at h
      obtain ⟨rfl, hsame⟩ := separated_append_inj (by decide) (by decide) memberText_ne_close
        (readsOff_members fields) fields' h
      exact ⟨rfl, hsame⟩
    | bool b => cases b <;> cases hkind
    | _ => cases hkind

theorem readsOff_items : (items : List (Json N)) → ∀ item ∈ items, ReadsOff stringify item
  | [], _, hmem => by cases hmem
  | item :: items, item', hmem => by
    rcases List.mem_cons.mp hmem with heq | hmem
    · rw [heq]
      exact readsOff_stringify item
    · exact readsOff_items items item' hmem

theorem readsOff_member : (member : JsString × Json N) → ReadsOff memberText member
  | (key, value), (key', value'), rest, rest', hrest, hrest', h => by
    simp only [memberText, List.append_assoc, List.cons_append] at h
    obtain ⟨rfl, hvalue⟩ := quote_append_inj h
    obtain ⟨rfl, hsame⟩ := readsOff_stringify value value' hrest hrest' (List.cons.inj hvalue).2
    exact ⟨rfl, hsame⟩

theorem readsOff_members : (fields : List (JsString × Json N)) →
    ∀ member ∈ fields, ReadsOff memberText member
  | [], _, hmem => by cases hmem
  | member :: fields, member', hmem => by
    rcases List.mem_cons.mp hmem with heq | hmem
    · rw [heq]
      exact readsOff_member member
    · exact readsOff_members fields member' hmem

end

theorem stringify_inj {v w : Json N} (h : stringify v = stringify w) : v = w :=
  (readsOff_stringify v w delimited_nil delimited_nil (congrArg (· ++ []) h)).1

end Json

end Webernetes.Js
