/-
Webernetes.Apimachinery.Validation — field paths, field errors, and the
checks of label keys and label values.

A check answers the texts of its complaints; none means accepted. The
regular expressions are matched by what they say: a run of units of one
class that starts and ends with a unit of a smaller class, and for DNS
subdomains such runs with dots between them.
-/
import Webernetes.Go.Strconv

namespace Webernetes.Apimachinery

open Js Go

/-! ## Paths and errors -/

inductive PathElement where
  | name (name : JsString)
  | index (indexValue : JsString)
  deriving DecidableEq

/-- A path from its root on; the empty list is no path. -/
abbrev Path := List PathElement

/-- `childPath`, and `child` with one name. -/
def Path.child (path : Path) (name : JsString) : Path := path ++ [.name name]

def Path.index (path : Path) (index : Nat) : Path := path ++ [.index (js (toString index))]

def Path.key (path : Path) (key : JsString) : Path := path ++ [.index key]

def PathElement.string (first : Bool) : PathElement → JsString
  | .name [] => js "[]"
  | .name text => (if first then [] else js ".") ++ text
  | .index indexValue => js "[" ++ indexValue ++ js "]"

def Path.string : Path → JsString
  | [] => []
  | root :: elements => root.string true ++ elements.flatMap (PathElement.string false)

/-- An error of type `FieldValueInvalid`; `badValue` is one string or a list. -/
structure FieldError where
  field : JsString
  badValue : JsString ⊕ List JsString
  detail : JsString
  deriving DecidableEq

/-- The field of an error is the text of its path, `<nil>` without one. -/
def fieldOf (path : Path) : JsString := if path = [] then js "<nil>" else path.string

def invalid (path : Path) (value : JsString) (detail : JsString) : FieldError :=
  ⟨fieldOf path, .inl value, detail⟩

def invalidValues (path : Path) (values : List JsString) (detail : JsString) : FieldError :=
  ⟨fieldOf path, .inr values, detail⟩

/-! ## Texts -/

def maxLenError (length : Nat) : JsString :=
  js "must be no more than " ++ js (toString length) ++ js " bytes"

def emptyError : JsString := js "must be non-empty"

/-- The examples after the first have an "or" before them. -/
def regexExamples : List JsString → JsString
  | [] => []
  | example₁ :: rest =>
    js "'" ++ example₁ ++ js "', "
      ++ rest.flatMap fun e => js " or " ++ js "'" ++ e ++ js "', "

def regexError (msg re : JsString) (examples : List JsString) : JsString :=
  if examples = [] then msg ++ js " (regex used for validation is '" ++ re ++ js "')"
  else msg ++ js " (e.g. " ++ regexExamples examples ++ js "regex used for validation is '" ++ re
    ++ js "')"

/-! ## Regular expressions -/

def isDigitUnit (u : CodeUnit) : Bool := decide (unit '0' ≤ u ∧ u ≤ unit '9')

def isLowerUnit (u : CodeUnit) : Bool := decide (unit 'a' ≤ u ∧ u ≤ unit 'z')

def isUpperUnit (u : CodeUnit) : Bool := decide (unit 'A' ≤ u ∧ u ≤ unit 'Z')

/-- `[A-Za-z0-9]`. -/
def labelKeyChar (u : CodeUnit) : Bool := isUpperUnit u || isLowerUnit u || isDigitUnit u

/-- `[-A-Za-z0-9_.]`. -/
def labelKeyExtChar (u : CodeUnit) : Bool :=
  labelKeyChar u || decide (u = unit '-' ∨ u = unit '_' ∨ u = unit '.')

/-- `[a-z0-9]`. -/
def dnsChar (u : CodeUnit) : Bool := isLowerUnit u || isDigitUnit u

/-- `[-a-z0-9]`. -/
def dnsExtChar (u : CodeUnit) : Bool := dnsChar u || decide (u = unit '-')

/-- Units of a class, the first and the last one of a smaller class. -/
def bracketed (inner outer : CodeUnit → Bool) (s : JsString) : Bool :=
  s.all outer && s.head?.any inner && s.getLast?.any inner

/-- `^([A-Za-z0-9][-A-Za-z0-9_.]*)?[A-Za-z0-9]$`. -/
def labelKeyRegexp (s : JsString) : Bool := bracketed labelKeyChar labelKeyExtChar s

/-- The same in parentheses with a question mark. -/
def labelValueRegexp (s : JsString) : Bool := decide (s = []) || labelKeyRegexp s

/-- `^[a-z0-9]([-a-z0-9]*[a-z0-9])?(\.[a-z0-9]([-a-z0-9]*[a-z0-9])?)*$`. -/
def dns1123SubdomainRegexp (s : JsString) : Bool :=
  (s.splitOn (unit '.')).all (bracketed dnsChar dnsExtChar)

/-! ## Checks -/

def labelKeyFmt : JsString := js "([A-Za-z0-9][-A-Za-z0-9_.]*)?[A-Za-z0-9]"

def labelValueFmt : JsString := js "(" ++ labelKeyFmt ++ js ")?"

def labelKeyErrMsg : JsString :=
  js ("must consist of alphanumeric characters, '-', '_' or '.', and must start and end with an " ++
    "alphanumeric character")

def labelValueErrMsg : JsString :=
  js ("a valid label must be an empty string or consist of alphanumeric characters, '-', '_' or " ++
    "'.', and must start and end with an alphanumeric character")

def dns1123SubdomainFmt : JsString :=
  js "[a-z0-9]([-a-z0-9]*[a-z0-9])?(\\.[a-z0-9]([-a-z0-9]*[a-z0-9])?)*"

def dns1123SubdomainErrorMsg : JsString :=
  js ("a lowercase RFC 1123 subdomain must consist of lower case alphanumeric characters, '-' or " ++
    "'.', and must start and end with an alphanumeric character")

def labelKeyMaxLength : Nat := 63

def labelValueMaxLength : Nat := 63

def dns1123SubdomainMaxLength : Nat := 253

def isDNS1123Subdomain (value : JsString) : List JsString :=
  (if value.length > dns1123SubdomainMaxLength then [maxLenError dns1123SubdomainMaxLength] else [])
    ++ if dns1123SubdomainRegexp value then []
      else [regexError dns1123SubdomainErrorMsg dns1123SubdomainFmt [js "example.com"]]

def labelKeyRegexError : JsString :=
  regexError labelKeyErrMsg labelKeyFmt [js "MyName", js "my.name", js "123-abc"]

/-- The complaints about the part of a label key after the slash. -/
def namePart (name : JsString) : List JsString :=
  (if name.length = 0 then [js "name part " ++ emptyError]
    else if name.length > labelKeyMaxLength then [js "name part " ++ maxLenError labelKeyMaxLength]
    else [])
    ++ if labelKeyRegexp name then [] else [js "name part " ++ labelKeyRegexError]

def isLabelKey (value : JsString) : List JsString :=
  match value.splitOn (unit '/') with
  | [name] => namePart name
  | [domain, name] =>
    (if domain.length = 0 then [js "prefix part " ++ emptyError]
      else (isDNS1123Subdomain domain).map (js "prefix part " ++ ·))
      ++ namePart name
  | _ =>
    [js "a valid label key " ++ labelKeyRegexError
      ++ js " with an optional DNS subdomain prefix and '/' (e.g. 'example.com/MyName')"]

def isLabelValue (value : JsString) : List JsString :=
  (if value.length > labelValueMaxLength then [maxLenError labelValueMaxLength] else [])
    ++ if labelValueRegexp value then []
      else [regexError labelValueErrMsg labelValueFmt [js "MyValue", js "my_value", js "12345"]]

example : isLabelKey (js "example.com/in") = [] ∧ isLabelKey (js "a/b/c") ≠ [] := by decide
example : isLabelValue [] = [] ∧ isLabelValue (js "a b") ≠ [] := by decide

/-! ## What accepted keys and values are made of -/

/-- A unit of a word of a selector. -/
def wordUnit (u : CodeUnit) : Bool := labelKeyExtChar u || decide (u = unit '/')

theorem mem_of_bracketed {inner outer : CodeUnit → Bool} {s : JsString}
    (h : bracketed inner outer s = true) : ∀ u ∈ s, outer u = true := by
  simp only [bracketed, Bool.and_eq_true, List.all_eq_true] at h
  exact h.1.1

theorem ne_nil_of_bracketed {inner outer : CodeUnit → Bool} {s : JsString}
    (h : bracketed inner outer s = true) : s ≠ [] := by
  rintro rfl
  simp [bracketed] at h

theorem labelKeyExtChar_of_dnsExtChar {u : CodeUnit} (h : dnsExtChar u = true) :
    labelKeyExtChar u = true := by
  simp only [dnsExtChar, dnsChar, labelKeyExtChar, labelKeyChar, Bool.or_eq_true,
    decide_eq_true_eq] at h ⊢
  tauto

theorem labelKeyExtChar_dot : labelKeyExtChar (unit '.') = true := by decide

/-- A property of the separator and of every part holds throughout the text. -/
theorem forall_mem_of_splitOn {P : CodeUnit → Prop} {sep : CodeUnit} {s : JsString}
    (hsep : P sep) (hparts : ∀ part ∈ s.splitOn sep, ∀ u ∈ part, P u) : ∀ u ∈ s, P u := by
  intro u hu
  have hs : [sep].intercalate (s.splitOn sep) = s := List.intercalate_splitOn sep
  rw [← hs] at hu
  have hfrom : u = sep ∨ ∃ part ∈ s.splitOn sep, u ∈ part := by
    generalize s.splitOn sep = parts at hu
    induction parts with
    | nil => simp at hu
    | cons part parts ih =>
      cases parts with
      | nil => simp_all
      | cons next parts => simp_all; grind
  rcases hfrom with rfl | ⟨part, hpart, hmem⟩
  · exact hsep
  · exact hparts part hpart u hmem

/-- A subdomain is made of word units. -/
theorem labelKeyExtChar_of_subdomain {s : JsString} (h : dns1123SubdomainRegexp s = true) :
    ∀ u ∈ s, labelKeyExtChar u = true := by
  simp only [dns1123SubdomainRegexp, List.all_eq_true] at h
  exact forall_mem_of_splitOn labelKeyExtChar_dot fun part hpart u hu =>
    labelKeyExtChar_of_dnsExtChar (mem_of_bracketed (h part hpart) u hu)

theorem namePart_nil {name : JsString} (h : namePart name = []) :
    name ≠ [] ∧ ∀ u ∈ name, labelKeyExtChar u = true := by
  have hregexp : labelKeyRegexp name = true := by
    by_contra hno
    simp [namePart, hno] at h
  exact ⟨ne_nil_of_bracketed hregexp, mem_of_bracketed hregexp⟩

/-- An accepted label key is a word. -/
theorem word_of_isLabelKey {key : JsString} (h : isLabelKey key = []) :
    key ≠ [] ∧ ∀ u ∈ key, wordUnit u = true := by
  have hparts : (∃ part ∈ key.splitOn (unit '/'), part ≠ [])
      ∧ ∀ part ∈ key.splitOn (unit '/'), ∀ u ∈ part, wordUnit u = true := by
    unfold isLabelKey at h
    split at h
    case h_1 name hsplit =>
      have hname := namePart_nil h
      simp only [hsplit, List.mem_singleton]
      exact ⟨⟨name, rfl, hname.1⟩, by rintro _ rfl u hu; simp [wordUnit, hname.2 u hu]⟩
    case h_2 domain name hsplit =>
      obtain ⟨hdomain, hnil⟩ := List.append_eq_nil_iff.1 h
      have hname := namePart_nil hnil
      have hsubdomain : dns1123SubdomainRegexp domain = true := by
        by_contra hno
        split at hdomain <;> simp [isDNS1123Subdomain, hno] at hdomain
      simp only [hsplit, List.mem_cons, List.not_mem_nil, or_false]
      refine ⟨⟨name, .inr rfl, hname.1⟩, ?_⟩
      rintro _ (rfl | rfl) u hu
      · simp [wordUnit, labelKeyExtChar_of_subdomain hsubdomain u hu]
      · simp [wordUnit, hname.2 u hu]
    case h_3 => simp at h
  obtain ⟨⟨part, hpart, hne⟩, hunits⟩ := hparts
  constructor
  · rintro rfl
    simp at hpart
    exact hne hpart
  · exact forall_mem_of_splitOn (by decide) hunits

/-- An accepted label value is empty or a word. -/
theorem word_of_isLabelValue {value : JsString} (h : isLabelValue value = []) :
    ∀ u ∈ value, wordUnit u = true := by
  have hregexp : labelValueRegexp value = true := by
    by_contra hno
    simp [isLabelValue, hno] at h
  intro u hu
  simp only [labelValueRegexp, Bool.or_eq_true, decide_eq_true_eq] at hregexp
  rcases hregexp with rfl | hkey
  · simp at hu
  · simp [wordUnit, mem_of_bracketed hkey u hu]

end Webernetes.Apimachinery
