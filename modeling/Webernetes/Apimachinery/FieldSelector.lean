/-
Webernetes.Apimachinery.FieldSelector — selectors on fields, how they are
printed, and the parser.

A set of fields is the lookup it offers. What a transformation answers with
an error is its own; the parser has three errors beside it.
-/
import Webernetes.Apimachinery.Labels

namespace Webernetes.Apimachinery.FieldSelector

open Js

/-! ## Selectors -/

/-- `Fields`, by its `get`. -/
abbrev FieldSet := JsString → JsString

inductive Selector where
  | nothing
  | hasTerm (field value : JsString)
  | notHasTerm (field value : JsString)
  | andTerm (selectors : List Selector)

def everything : Selector := .andTerm []

mutual

def Selector.matches (fields : FieldSet) : Selector → Bool
  | .nothing => false
  | .hasTerm field value => fields field = value
  | .notHasTerm field value => fields field ≠ value
  | .andTerm selectors => matchesAll fields selectors

def matchesAll (fields : FieldSet) : List Selector → Bool
  | [] => true
  | selector :: selectors => if !selector.matches fields then false else matchesAll fields selectors

end

mutual

def Selector.empty : Selector → Bool
  | .andTerm selectors => emptyAll selectors
  | _ => false

def emptyAll : List Selector → Bool
  | [] => true
  | selector :: selectors => if !selector.empty then false else emptyAll selectors

end

section Transform

variable {ε : Type}

/-- `TransformFunc`. -/
abbrev TransformFunc (ε : Type) := JsString → JsString → Except ε (JsString × JsString)

/-- A term with the field and the value that the function gives. -/
def transformTerm (fn : TransformFunc ε) (term : JsString → JsString → Selector) (field value : JsString) :
    Except ε Selector :=
  (fn field value).map fun (field, value) =>
    if field.length = 0 ∧ value.length = 0 then everything else term field value

mutual

def Selector.transform (fn : TransformFunc ε) : Selector → Except ε Selector
  | .nothing => .ok .nothing
  | .hasTerm field value => transformTerm fn .hasTerm field value
  | .notHasTerm field value => transformTerm fn .notHasTerm field value
  | .andTerm selectors => (transformAll fn selectors).map .andTerm

def transformAll (fn : TransformFunc ε) : List Selector → Except ε (List Selector)
  | [] => .ok []
  | selector :: selectors =>
    (selector.transform fn).bind fun n =>
      (transformAll fn selectors).map fun next => if !n.empty then n :: next else next

end

end Transform

/-! ## Printing -/

/-- `replaceAll` of one code unit. -/
def replaceAll (pattern : CodeUnit) (replacement : JsString) (s : JsString) : JsString :=
  s.flatMap fun c => if c = pattern then replacement else [c]

def backslash : CodeUnit := 0x5C

def comma : CodeUnit := 0x2C

def equalSign : CodeUnit := 0x3D

def escapeValue (value : JsString) : JsString :=
  replaceAll equalSign [backslash, equalSign]
    (replaceAll comma [backslash, comma] (replaceAll backslash [backslash, backslash] value))

mutual

def Selector.string : Selector → JsString
  | .nothing => []
  | .hasTerm field value => field ++ js "=" ++ escapeValue value
  | .notHasTerm field value => field ++ js "!=" ++ escapeValue value
  | .andTerm selectors => (js ",").intercalate (strings selectors)

def strings : List Selector → List JsString
  | [] => []
  | selector :: selectors => selector.string :: strings selectors

end

/-! ## Values -/

inductive ParseError (ε : Type) where
  | invalidEscapeSequence (sequence : JsString)
  | unescapedRune (rune : JsString)
  | invalidSelector (selector part : JsString)
  | transform (err : ε)

/-- The text of an error. -/
def ParseError.message {ε : Type} (text : ε → JsString) : ParseError ε → JsString
  | .invalidEscapeSequence sequence => js "invalid field selector: invalid escape sequence: " ++ sequence
  | .unescapedRune rune => js "invalid field selector: unescaped character in value: " ++ rune
  | .invalidSelector selector part =>
    js "invalid selector: '" ++ selector ++ js "'; can't understand '" ++ part ++ js "'"
  | .transform err => text err

section Parse

variable {ε : Type}

/-- The loop over the code points, with `inSlash` and the value so far. -/
def unescapeLoop : List JsString → Bool → JsString → Except (ParseError ε) JsString
  | [], inSlash, v => if inSlash then .error (.invalidEscapeSequence [backslash]) else .ok v
  | c :: rest, true, v =>
    if c = [backslash] ∨ c = [comma] ∨ c = [equalSign] then unescapeLoop rest false (v ++ c)
    else .error (.invalidEscapeSequence (backslash :: c))
  | c :: rest, false, v =>
    if c = [backslash] then unescapeLoop rest true v
    else if c = [comma] ∨ c = [equalSign] then .error (.unescapedRune c)
    else unescapeLoop rest false (v ++ c)

def unescapeValue (s : JsString) : Except (ParseError ε) JsString :=
  if !s.any fun c => c = backslash || c = comma || c = equalSign then .ok s
  else unescapeLoop (Etcd.codePoints s) false []

/-! ## Terms -/

/-- The loop over the code units, with `inSlash` and the term so far. -/
def splitTermsLoop : JsString → Bool → JsString → List JsString
  | [], _, term => [term]
  | c :: rest, inSlash, term =>
    if inSlash then splitTermsLoop rest false (term ++ [c])
    else if c = backslash then splitTermsLoop rest true (term ++ [c])
    else if c = comma then term :: splitTermsLoop rest false []
    else splitTermsLoop rest false (term ++ [c])

def splitTerms (fieldSelector : JsString) : Option (List JsString) :=
  if fieldSelector.length = 0 then none else some (splitTermsLoop fieldSelector false [])

inductive TermOperator where
  | notEqual | doubleEqual | equal
  deriving DecidableEq

def TermOperator.text : TermOperator → JsString
  | .notEqual => js "!="
  | .doubleEqual => js "=="
  | .equal => js "="

def termOperators : List TermOperator := [.notEqual, .doubleEqual, .equal]

/-- The loop over the places of an operator, with what is before. -/
def splitTermLoop : JsString → JsString → Option (JsString × TermOperator × JsString)
  | _, [] => none
  | lhs, c :: rest =>
    match termOperators.find? fun op => op.text.isPrefixOf (c :: rest) with
    | some op => some (lhs, op, (c :: rest).drop op.text.length)
    | none => splitTermLoop (lhs ++ [c]) rest

def splitTerm (term : JsString) : Option (JsString × TermOperator × JsString) := splitTermLoop [] term

/-- The term of an operator. -/
def TermOperator.term : TermOperator → JsString → JsString → Selector
  | .notEqual => .notHasTerm
  | .doubleEqual => .hasTerm
  | .equal => .hasTerm

/-! ## The parser -/

/-- The body of the loop over the parts that are not empty. -/
def parsePart (selector part : JsString) : Except (ParseError ε) Selector :=
  match splitTerm part with
  | none => .error (.invalidSelector selector part)
  | some (lhs, op, rhs) => (unescapeValue rhs).map fun unescapedRHS => op.term lhs unescapedRHS

def parseParts (selector : JsString) : List JsString → Except (ParseError ε) (List Selector)
  | [] => .ok []
  | part :: parts =>
    if part = [] then parseParts selector parts
    else (parsePart selector part).bind fun item => (parseParts selector parts).map (item :: ·)

def parseSelectorInternal (selector : JsString) (fn : TransformFunc ε) : Except (ParseError ε) Selector :=
  let parts := sortStrings ((splitTerms selector).getD [])
  (parseParts selector parts).bind fun items =>
    match items with
    | [item] => (item.transform fn).mapError .transform
    | items => ((Selector.andTerm items).transform fn).mapError .transform

end Parse

def parseSelector (selector : JsString) : Except (ParseError Empty) Selector :=
  parseSelectorInternal selector fun lhs rhs => .ok (lhs, rhs)

end Webernetes.Apimachinery.FieldSelector
