/-
Webernetes.Apimachinery.FieldSelectorRoundTrip — a printed selector is
parsed back.

A printed term is `Closed`: the splitter is done with it, outside of an
escape, where a comma follows. By induction on the selector the parts are
the printed terms; sorting them changes their order, which a conjunction
does not depend on.
-/
import Webernetes.Apimachinery.FieldSelector

namespace Webernetes.Apimachinery.FieldSelector

open Js

/-! ## Escaping -/

/-- A code unit that is escaped. -/
def special (c : CodeUnit) : Bool := c = backslash || c = comma || c = equalSign

def escapeUnit (c : CodeUnit) : JsString := if special c then [backslash, c] else [c]

/-- The three replacements are one. -/
theorem escapeValue_eq (value : JsString) : escapeValue value = value.flatMap escapeUnit := by
  unfold escapeValue replaceAll
  rw [List.flatMap_assoc, List.flatMap_assoc]
  refine List.flatMap_congr fun c _ => ?_
  unfold escapeUnit special
  by_cases hslash : c = backslash
  · subst hslash
    decide
  · by_cases hcomma : c = comma
    · subst hcomma
      decide
    · by_cases hequal : c = equalSign
      · subst hequal
        decide
      · simp [hslash, hcomma, hequal]

@[simp] theorem escapeValue_nil : escapeValue [] = [] := rfl

theorem escapeValue_cons (c : CodeUnit) (value : JsString) :
    escapeValue (c :: value) = escapeUnit c ++ escapeValue value := by
  rw [escapeValue_eq, escapeValue_eq, List.flatMap_cons]

theorem not_surrogate_of_special {c : CodeUnit} (h : special c = true) :
    isHighSurrogate c = false ∧ isLowSurrogate c = false := by
  simp only [special, Bool.or_eq_true, decide_eq_true_eq] at h
  rcases h with (rfl | rfl) | rfl <;> decide

/-- What an escaped value starts with is no low surrogate but its own. -/
theorem head_escapeValue {value : JsString} {v : CodeUnit} (h : (escapeValue value).head? = some v) :
    isLowSurrogate v = false ∨ value.head? = some v := by
  cases value with
  | nil => cases h
  | cons c value =>
    rw [escapeValue_cons] at h
    unfold escapeUnit at h
    split at h
    · cases h
      exact .inl (by decide)
    · cases h
      exact .inr rfl

section Unescape

variable {ε : Type}

theorem unescapeLoop_special {c : CodeUnit} (hspecial : special c = true) (rest : List JsString) (v : JsString) :
    unescapeLoop (ε := ε) ([backslash] :: [c] :: rest) false v = unescapeLoop rest false (v ++ [c]) := by
  have hc : [c] = [backslash] ∨ [c] = [comma] ∨ [c] = [equalSign] := by
    simpa [special, or_assoc] using hspecial
  rw [unescapeLoop, if_pos rfl, unescapeLoop, if_pos hc]

theorem unescapeLoop_plain {c : JsString} (hplain : ∀ u, c = [u] → special u = false) (rest : List JsString)
    (v : JsString) : unescapeLoop (ε := ε) (c :: rest) false v = unescapeLoop rest false (v ++ c) := by
  have hslash : c ≠ [backslash] := by
    intro heq
    have hfalse := hplain backslash heq
    cases hfalse
  have hother : ¬ (c = [comma] ∨ c = [equalSign]) := by
    rintro (heq | heq)
    · have hfalse := hplain comma heq
      cases hfalse
    · have hfalse := hplain equalSign heq
      cases hfalse
  rw [unescapeLoop, if_neg hslash, if_neg hother]

/-- A code unit that starts no surrogate pair. -/
theorem unescapeLoop_cons {u : CodeUnit} {value : JsString}
    (h : ∀ w, value.head? = some w → (isHighSurrogate u && isLowSurrogate w) = false) (v : JsString) :
    unescapeLoop (ε := ε) (Etcd.codePoints (escapeValue (u :: value))) false v
      = unescapeLoop (Etcd.codePoints (escapeValue value)) false (v ++ [u]) := by
  rw [escapeValue_cons, escapeUnit]
  cases hspecial : special u with
  | true =>
    show unescapeLoop (Etcd.codePoints (backslash :: u :: escapeValue value)) false v = _
    rw [Etcd.codePoints_cons fun _ _ => rfl, Etcd.codePoints_cons, unescapeLoop_special hspecial]
    intro w _
    rw [(not_surrogate_of_special hspecial).1, Bool.false_and]
  | false =>
    show unescapeLoop (Etcd.codePoints (u :: escapeValue value)) false v = _
    rw [Etcd.codePoints_cons, unescapeLoop_plain]
    · intro u' heq
      cases heq
      exact hspecial
    · intro w hw
      rcases head_escapeValue hw with hlow | hhead
      · rw [hlow, Bool.and_false]
      · exact h w hhead

/-- By induction along the code points of the value. -/
theorem unescapeLoop_escapeValue : ∀ (value v : JsString),
    unescapeLoop (ε := ε) (Etcd.codePoints (escapeValue value)) false v = .ok (v ++ value)
  | [], v => by
    rw [List.append_nil]
    rfl
  | [u], v => by
    rw [unescapeLoop_cons (fun _ h => by cases h), unescapeLoop_escapeValue []]
    simp
  | u :: w :: rest, v => by
    by_cases hpair : (isHighSurrogate u && isLowSurrogate w) = true
    · have hplain : ∀ c, (isHighSurrogate c || isLowSurrogate c) = true → escapeUnit c = [c] := by
        intro c hc
        refine if_neg fun hspecial => ?_
        rw [(not_surrogate_of_special hspecial).1, (not_surrogate_of_special hspecial).2] at hc
        cases hc
      obtain ⟨hhigh, hlow⟩ := Bool.and_eq_true_iff.mp hpair
      rw [escapeValue_cons, escapeValue_cons, hplain u (by rw [hhigh, Bool.true_or]),
        hplain w (by rw [hlow, Bool.or_true])]
      show unescapeLoop (Etcd.codePoints (u :: w :: escapeValue rest)) false v = _
      rw [Etcd.codePoints, if_pos hpair, unescapeLoop_plain (fun _ h => by cases h),
        unescapeLoop_escapeValue rest]
      simp
    · have hnot := Bool.eq_false_iff.mpr hpair
      rw [unescapeLoop_cons (fun w' h => by cases h; exact hnot), unescapeLoop_escapeValue (w :: rest)]
      simp

theorem escapeValue_of_not_special {value : JsString} (h : ∀ c ∈ value, special c = false) :
    escapeValue value = value := by
  induction value with
  | nil => rfl
  | cons c value ih =>
    rw [escapeValue_cons, ih fun c hc => h c (List.mem_cons_of_mem _ hc), escapeUnit,
      h c List.mem_cons_self]
    rfl

/-- A value that is escaped is unescaped again. -/
theorem unescapeValue_escapeValue (value : JsString) : unescapeValue (ε := ε) (escapeValue value) = .ok value := by
  unfold unescapeValue
  split
  · rename_i hnone
    have hplain : ∀ c ∈ value, special c = false := by
      intro c hc
      by_contra hspecial
      rw [Bool.not_eq_true', List.any_eq_false] at hnone
      have hmem : c ∈ escapeValue value := by
        rw [escapeValue_eq]
        refine List.mem_flatMap.mpr ⟨c, hc, ?_⟩
        unfold escapeUnit
        split <;> simp
      exact hspecial (Bool.eq_false_iff.mpr (hnone c hmem))
    rw [escapeValue_of_not_special hplain]
  · exact unescapeLoop_escapeValue value []

end Unescape

/-! ## Terms -/

/-- The splitter is done with a text, outside of an escape, where a comma follows. -/
def Closed (text : JsString) : Prop :=
  ∀ rest term, splitTermsLoop (text ++ comma :: rest) false term
    = splitTermsLoop text false term ++ splitTermsLoop rest false []

/-- A text that is not split. -/
def Unsplit (text : JsString) : Prop :=
  ∀ rest term, splitTermsLoop (text ++ rest) false term = splitTermsLoop rest false (term ++ text)

theorem Unsplit.append {left right : JsString} (hleft : Unsplit left) (hright : Unsplit right) :
    Unsplit (left ++ right) := by
  intro rest term
  rw [List.append_assoc, hleft, hright, List.append_assoc]

theorem unsplit_unit {c : CodeUnit} (hslash : c ≠ backslash) (hcomma : c ≠ comma) : Unsplit [c] := by
  intro rest term
  rw [List.singleton_append, splitTermsLoop, if_neg Bool.false_ne_true, if_neg hslash, if_neg hcomma]

theorem unsplit_nil : Unsplit [] := by
  intro rest term
  rw [List.nil_append, List.append_nil]

theorem unsplit_of_units {text : JsString} (h : ∀ c ∈ text, c ≠ backslash ∧ c ≠ comma) : Unsplit text := by
  induction text with
  | nil => exact unsplit_nil
  | cons c text ih =>
    obtain ⟨hslash, hcomma⟩ := h c List.mem_cons_self
    exact (unsplit_unit hslash hcomma).append (ih fun c hc => h c (List.mem_cons_of_mem _ hc))

/-- An escaped value is not split. -/
theorem unsplit_escapeValue (value : JsString) : Unsplit (escapeValue value) := by
  induction value with
  | nil => exact unsplit_nil
  | cons c value ih =>
    rw [escapeValue_cons]
    refine Unsplit.append ?_ ih
    unfold escapeUnit
    split
    · intro rest term
      show splitTermsLoop (backslash :: c :: rest) false term = _
      rw [splitTermsLoop, if_neg Bool.false_ne_true, if_pos rfl, splitTermsLoop, if_pos rfl, List.append_assoc]
      rfl
    · rename_i hplain
      refine unsplit_unit ?_ ?_
      · rintro rfl
        exact hplain rfl
      · rintro rfl
        exact hplain rfl

theorem Unsplit.split {text : JsString} (h : Unsplit text) : splitTermsLoop text false [] = [text] := by
  have hrest := h [] []
  rw [List.append_nil] at hrest
  exact hrest

theorem splitTermsLoop_comma (rest term : JsString) :
    splitTermsLoop (comma :: rest) false term = term :: splitTermsLoop rest false [] := by
  rw [splitTermsLoop, if_neg Bool.false_ne_true, if_neg (by decide), if_pos rfl]

theorem Unsplit.closed {text : JsString} (h : Unsplit text) : Closed text := by
  intro rest term
  have hnil := h [] term
  rw [List.append_nil] at hnil
  rw [h, hnil, splitTermsLoop_comma]
  rfl

/-- Texts with commas between them. -/
theorem Closed.comma {left right : JsString} (hleft : Closed left) (hright : Closed right) :
    Closed (left ++ comma :: right) := by
  intro rest term
  rw [List.append_assoc, List.cons_append, hleft, hright, hleft, List.append_assoc]

/-! ## Operators -/

/-- A field name that can be printed: with no code unit that is escaped, and
with nothing at its end that makes another operator. -/
structure PlainField (field : JsString) : Prop where
  nonempty : field ≠ []
  units : ∀ c ∈ field, special c = false
  last : field.getLast? ≠ some 0x21

/-- No operator starts here. -/
theorem find?_termOperators {c : CodeUnit} {rest : JsString} (hequal : c ≠ equalSign)
    (hnot : c = 0x21 → rest.head? ≠ some equalSign) :
    termOperators.find? (fun op => op.text.isPrefixOf (c :: rest)) = none := by
  rw [List.find?_eq_none]
  intro op hmem hinitial
  rw [List.isPrefixOf_iff_prefix] at hinitial
  obtain ⟨tail, htail⟩ := hinitial
  have hop : op = .notEqual ∨ op = .doubleEqual ∨ op = .equal := by cases op <;> simp
  rcases hop with rfl | rfl | rfl
  · obtain ⟨hc, hrest⟩ := List.cons.inj htail
    refine hnot hc.symm ?_
    rw [← hrest]
    rfl
  · exact hequal (List.cons.inj htail).1.symm
  · exact hequal (List.cons.inj htail).1.symm

/-- The places in a field name are passed over. -/
theorem splitTermLoop_field {field : JsString} (hunits : ∀ c ∈ field, special c = false) (rest lhs : JsString)
    (hrest : field.getLast? = some 0x21 → rest.head? ≠ some equalSign) :
    splitTermLoop lhs (field ++ rest) = splitTermLoop (lhs ++ field) rest := by
  induction field generalizing lhs with
  | nil => rw [List.nil_append, List.append_nil]
  | cons c field ih =>
    have hc := hunits c List.mem_cons_self
    have hequal : c ≠ equalSign := by
      rintro rfl
      cases hc
    have hnone : termOperators.find? (fun op => op.text.isPrefixOf (c :: (field ++ rest))) = none := by
      refine find?_termOperators hequal fun hbang => ?_
      cases field with
      | nil => exact hrest (by rw [hbang]; rfl)
      | cons d field =>
        intro hd
        have hplain := hunits d (by simp)
        cases hd
        cases hplain
    rw [List.cons_append, splitTermLoop, hnone]
    dsimp only
    rw [ih (fun d hd => hunits d (List.mem_cons_of_mem _ hd)) (lhs ++ [c]), List.append_assoc]
    · rfl
    · intro hlast
      refine hrest ?_
      cases field with
      | nil => cases hlast
      | cons d field => exact hlast

/-- An escaped value starts with no operator. -/
theorem head_escapeValue_ne (value : JsString) : (escapeValue value).head? ≠ some equalSign := by
  cases value with
  | nil => simp
  | cons c value =>
    rw [escapeValue_cons, escapeUnit]
    split
    · exact fun h => by cases h
    · rename_i hplain
      intro h
      cases h
      exact hplain rfl

theorem splitTerm_hasTerm {field : JsString} (h : PlainField field) (value : JsString) :
    splitTerm (Selector.hasTerm field value).string = some (field, .equal, escapeValue value) := by
  show splitTermLoop [] (field ++ js "=" ++ escapeValue value) = _
  rw [List.append_assoc, splitTermLoop_field h.units _ _ (fun hlast => absurd hlast h.last), List.nil_append]
  show splitTermLoop field (equalSign :: escapeValue value) = _
  have hfind : termOperators.find? (fun op => op.text.isPrefixOf (equalSign :: escapeValue value))
      = some .equal := by
    have hdouble : (TermOperator.doubleEqual.text).isPrefixOf (equalSign :: escapeValue value) = false := by
      rw [Bool.eq_false_iff, Ne, List.isPrefixOf_iff_prefix]
      rintro ⟨tail, htail⟩
      refine head_escapeValue_ne value ?_
      rw [← (List.cons.inj htail).2]
      rfl
    have hnot : (TermOperator.notEqual.text).isPrefixOf (equalSign :: escapeValue value) = false := rfl
    have hone : (TermOperator.equal.text).isPrefixOf (equalSign :: escapeValue value) = true := rfl
    simp [termOperators, hnot, hdouble, hone]
  rw [splitTermLoop, hfind]
  rfl

theorem splitTerm_notHasTerm {field : JsString} (h : PlainField field) (value : JsString) :
    splitTerm (Selector.notHasTerm field value).string = some (field, .notEqual, escapeValue value) := by
  show splitTermLoop [] (field ++ js "!=" ++ escapeValue value) = _
  rw [List.append_assoc, splitTermLoop_field h.units _ _ (fun hlast => absurd hlast h.last), List.nil_append]
  rfl

/-! ## Conjunctions -/

mutual

/-- Terms with plain field names, and conjunctions of such. -/
def Selector.Conjunction : Selector → Prop
  | .nothing => False
  | .hasTerm field _ => PlainField field
  | .notHasTerm field _ => PlainField field
  | .andTerm selectors => Conjunctions selectors

def Conjunctions : List Selector → Prop
  | [] => True
  | selector :: selectors => selector.Conjunction ∧ Conjunctions selectors

end

mutual

def Selector.terms : Selector → List Selector
  | .andTerm selectors => termsOf selectors
  | selector => [selector]

def termsOf : List Selector → List Selector
  | [] => []
  | selector :: selectors => selector.terms ++ termsOf selectors

end

/-- The terms of a part. -/
def parsed {ε : Type} (selector part : JsString) : Option Selector :=
  if part = [] then none else (parsePart (ε := ε) selector part).toOption

/-- The parts are parsed, and the terms are these. -/
structure Parses (ε : Type) (selector : JsString) (parts : List JsString) (terms : List Selector) : Prop where
  parses : ∀ part ∈ parts, part ≠ [] → ∃ term, parsePart (ε := ε) selector part = .ok term
  terms : parts.filterMap (parsed (ε := ε) selector) = terms

section Parses

variable {ε : Type} {selector : JsString}

theorem Parses.append {parts parts' : List JsString} {terms terms' : List Selector}
    (h : Parses ε selector parts terms) (h' : Parses ε selector parts' terms') :
    Parses ε selector (parts ++ parts') (terms ++ terms') := by
  constructor
  case parses =>
    intro part hmem
    rcases List.mem_append.mp hmem with hmem | hmem
    · exact h.parses part hmem
    · exact h'.parses part hmem
  case terms => rw [List.filterMap_append, h.terms, h'.terms]

theorem parses_nil : Parses ε selector [[]] [] := by
  constructor
  case parses =>
    intro part hmem hne
    exact absurd (List.mem_singleton.mp hmem) hne
  case terms => rfl

theorem parses_singleton {part : JsString} {term : Selector} (hne : part ≠ [])
    (hpart : parsePart (ε := ε) selector part = .ok term) : Parses ε selector [part] [term] := by
  constructor
  case parses =>
    intro part' hmem _
    rw [List.mem_singleton.mp hmem]
    exact ⟨term, hpart⟩
  case terms =>
    have hparsed : parsed (ε := ε) selector part = some term := by
      rw [parsed, if_neg hne, hpart]
      rfl
    rw [List.filterMap_cons, hparsed]
    rfl

/-- The parts may be in any order. -/
theorem Parses.perm {parts parts' : List JsString} {terms : List Selector} (h : Parses ε selector parts terms)
    (hperm : parts'.Perm parts) : ∃ terms', terms'.Perm terms ∧ Parses ε selector parts' terms' := by
  refine ⟨parts'.filterMap (parsed (ε := ε) selector), ?_, ?_, rfl⟩
  · rw [← h.terms]
    exact hperm.filterMap _
  · exact fun part hmem => h.parses part (hperm.mem_iff.mp hmem)

/-- By induction on the parts. -/
theorem Parses.parseParts {parts : List JsString} {terms : List Selector} (h : Parses ε selector parts terms) :
    parseParts (ε := ε) selector parts = .ok terms := by
  obtain ⟨hparses, rfl⟩ := h
  induction parts with
  | nil => rfl
  | cons part parts ih =>
    have ih := ih fun part hmem => hparses part (List.mem_cons_of_mem _ hmem)
    rw [FieldSelector.parseParts, List.filterMap_cons, parsed]
    by_cases hempty : part = []
    · rw [if_pos hempty, if_pos hempty, ih]
    · obtain ⟨term, hterm⟩ := hparses part List.mem_cons_self hempty
      rw [if_neg hempty, if_neg hempty, hterm, ih]
      rfl

end Parses

theorem unsplit_term {field operator value : JsString} (h : PlainField field)
    (hoperator : ∀ c ∈ operator, c ≠ backslash ∧ c ≠ comma) : Unsplit (field ++ operator ++ escapeValue value) := by
  refine ((unsplit_of_units fun c hc => ?_).append (unsplit_of_units hoperator)).append
    (unsplit_escapeValue value)
  have hplain := h.units c hc
  constructor
  · rintro rfl
    cases hplain
  · rintro rfl
    cases hplain

theorem units_operator (op : TermOperator) : ∀ c ∈ op.text, c ≠ backslash ∧ c ≠ comma := by
  intro c hc
  have hc : c = 0x21 ∨ c = equalSign := by
    cases op with
    | notEqual => simpa using (show c ∈ [0x21, equalSign] from hc)
    | doubleEqual => exact .inr (by simpa using (show c ∈ [equalSign, equalSign] from hc))
    | equal => exact .inr (by simpa using (show c ∈ [equalSign] from hc))
  rcases hc with rfl | rfl <;> decide

/-- A printed term is one part, and parsed as that term. -/
theorem parses_term {ε : Type} {selector text : JsString} {term : Selector} {op : TermOperator}
    {field value : JsString} (htext : text = field ++ op.text ++ escapeValue value)
    (hsplit : splitTerm text = some (field, op, escapeValue value)) (hterm : op.term field value = term)
    (h : PlainField field) :
    Closed text ∧ Parses ε selector (splitTermsLoop text false []) [term] := by
  have hunsplit : Unsplit text := by
    rw [htext]
    exact unsplit_term h (units_operator op)
  refine ⟨hunsplit.closed, ?_⟩
  rw [hunsplit.split]
  refine parses_singleton ?_ ?_
  · rw [htext]
    simp [h.nonempty]
  · rw [parsePart, hsplit]
    dsimp only
    rw [unescapeValue_escapeValue, ← hterm]
    rfl

section String

variable (ε : Type) (text : JsString)

mutual

theorem parses_string : ∀ s : Selector, s.Conjunction →
    Closed s.string ∧ Parses ε text (splitTermsLoop s.string false []) s.terms
  | .nothing, h => h.elim
  | .hasTerm _ value, h => parses_term rfl (splitTerm_hasTerm h value) rfl h
  | .notHasTerm _ value, h => parses_term rfl (splitTerm_notHasTerm h value) rfl h
  | .andTerm selectors, h => parses_strings selectors h

theorem parses_strings : ∀ selectors : List Selector, Conjunctions selectors →
    Closed ((js ",").intercalate (strings selectors))
      ∧ Parses ε text (splitTermsLoop ((js ",").intercalate (strings selectors)) false []) (termsOf selectors)
  | [], _ => ⟨unsplit_nil.closed, parses_nil⟩
  | [selector], h => by
    have hone := parses_string selector h.1
    have hstring : (js ",").intercalate (strings [selector]) = selector.string := by
      simp [strings]
    have hterms : termsOf [selector] = selector.terms := by simp [termsOf]
    rw [hstring, hterms]
    exact hone
  | selector :: next :: selectors, h => by
    obtain ⟨hclosed, hparses⟩ := parses_string selector h.1
    obtain ⟨hclosed', hparses'⟩ := parses_strings (next :: selectors) h.2
    have hstring : (js ",").intercalate (strings (selector :: next :: selectors))
        = selector.string ++ comma :: (js ",").intercalate (strings (next :: selectors)) := by
      rw [strings, strings, List.intercalate_cons_cons, List.append_assoc]
      rfl
    rw [hstring]
    refine ⟨hclosed.comma hclosed', ?_⟩
    rw [hclosed, termsOf]
    exact hparses.append hparses'

end

end String

/-! ## What is parsed -/

/-- A term with a plain field name. -/
inductive PlainTerm : Selector → Prop where
  | hasTerm {field : JsString} (value : JsString) (h : PlainField field) : PlainTerm (.hasTerm field value)
  | notHasTerm {field : JsString} (value : JsString) (h : PlainField field) : PlainTerm (.notHasTerm field value)

mutual

theorem plain_terms : ∀ s : Selector, s.Conjunction → ∀ term ∈ s.terms, PlainTerm term
  | .nothing, h, _, _ => h.elim
  | .hasTerm field value, h, term, hmem => by
    have hmem : term ∈ [Selector.hasTerm field value] := hmem
    rw [List.mem_singleton.mp hmem]
    exact .hasTerm value h
  | .notHasTerm field value, h, term, hmem => by
    have hmem : term ∈ [Selector.notHasTerm field value] := hmem
    rw [List.mem_singleton.mp hmem]
    exact .notHasTerm value h
  | .andTerm selectors, h, term, hmem => plain_termsOf selectors h term hmem

theorem plain_termsOf : ∀ selectors : List Selector, Conjunctions selectors →
    ∀ term ∈ termsOf selectors, PlainTerm term
  | [], _, _, hmem => by cases hmem
  | selector :: selectors, h, term, hmem => by
    rw [termsOf] at hmem
    rcases List.mem_append.mp hmem with hmem | hmem
    · exact plain_terms selector h.1 term hmem
    · exact plain_termsOf selectors h.2 term hmem

end

theorem matchesAll_eq (fields : FieldSet) (selectors : List Selector) :
    matchesAll fields selectors = selectors.all (Selector.matches fields) := by
  induction selectors with
  | nil => rfl
  | cons selector selectors ih =>
    rw [matchesAll, List.all_cons, ih]
    cases selector.matches fields <;> rfl

mutual

/-- A conjunction matches where its terms do. -/
theorem matches_terms (fields : FieldSet) : ∀ s : Selector, s.Conjunction →
    s.terms.all (Selector.matches fields) = s.matches fields
  | .nothing, h => h.elim
  | .hasTerm field value, _ => by
    show [Selector.hasTerm field value].all (Selector.matches fields) = _
    rw [List.all_cons, List.all_nil, Bool.and_true]
  | .notHasTerm field value, _ => by
    show [Selector.notHasTerm field value].all (Selector.matches fields) = _
    rw [List.all_cons, List.all_nil, Bool.and_true]
  | .andTerm selectors, h => matches_termsOf fields selectors h

theorem matches_termsOf (fields : FieldSet) : ∀ selectors : List Selector, Conjunctions selectors →
    (termsOf selectors).all (Selector.matches fields) = matchesAll fields selectors
  | [], _ => rfl
  | selector :: selectors, h => by
    rw [termsOf, List.all_append, matches_terms fields selector h.1, matches_termsOf fields selectors h.2,
      matchesAll]
    cases selector.matches fields <;> rfl

end

section Transform

variable {ε : Type}

theorem transform_plainTerm {term : Selector} (h : PlainTerm term) :
    term.transform (ε := ε) (fun lhs rhs => .ok (lhs, rhs)) = .ok term ∧ term.empty = false := by
  cases h with
  | hasTerm value h =>
    refine ⟨?_, rfl⟩
    show Except.ok (if _ then everything else _) = _
    rw [if_neg fun hempty => h.nonempty (List.eq_nil_of_length_eq_zero hempty.1)]
  | notHasTerm value h =>
    refine ⟨?_, rfl⟩
    show Except.ok (if _ then everything else _) = _
    rw [if_neg fun hempty => h.nonempty (List.eq_nil_of_length_eq_zero hempty.1)]

theorem transformAll_plainTerms {terms : List Selector} (h : ∀ term ∈ terms, PlainTerm term) :
    transformAll (ε := ε) (fun lhs rhs => .ok (lhs, rhs)) terms = .ok terms := by
  induction terms with
  | nil => rfl
  | cons term terms ih =>
    obtain ⟨hterm, hempty⟩ := transform_plainTerm (ε := ε) (h term List.mem_cons_self)
    rw [transformAll, hterm, ih fun term hmem => h term (List.mem_cons_of_mem _ hmem)]
    show Except.ok (if !term.empty then term :: terms else terms) = _
    rw [hempty]
    rfl

end Transform

/-- The terms of a text, where it has one or more. -/
theorem splitTerms_getD (text : JsString) :
    (splitTerms text).getD [] = if text = [] then [] else splitTermsLoop text false [] := by
  unfold splitTerms
  cases text with
  | nil => rfl
  | cons c text => rfl

/-- A conjunction that is printed is parsed to one that matches the same fields. -/
theorem parseSelector_string (s : Selector) (h : s.Conjunction) :
    (∃ result, parseSelector s.string = .ok result ∧ ∀ fields, result.matches fields = s.matches fields)
      ∧ (∀ value, unescapeValue (ε := Empty) (escapeValue value) = .ok value)
      ∧ ∀ value rest term, splitTermsLoop (escapeValue value ++ rest) false term
        = splitTermsLoop rest false (term ++ escapeValue value) := by
  refine ⟨?_, unescapeValue_escapeValue, unsplit_escapeValue⟩
  obtain ⟨-, hparses⟩ := parses_string Empty s.string s h
  have hparts : Parses Empty s.string ((splitTerms s.string).getD []) s.terms := by
    rw [splitTerms_getD]
    split
    · rename_i hempty
      rw [hempty] at hparses
      refine ⟨?_, ?_⟩
      · intro part hmem
        cases hmem
      · rw [← hparses.terms]
        rfl
    · exact hparses
  obtain ⟨terms, hperm, hsorted⟩ := hparts.perm (sortStrings_perm _)
  have hplain : ∀ term ∈ terms, PlainTerm term :=
    fun term hmem => plain_terms s h term (hperm.mem_iff.mp hmem)
  have hmatches : ∀ fields, terms.all (Selector.matches fields) = s.matches fields := by
    intro fields
    rw [← matches_terms fields s h, Bool.eq_iff_iff, List.all_eq_true, List.all_eq_true]
    simp only [hperm.mem_iff]
  unfold parseSelector parseSelectorInternal
  dsimp only
  rw [hsorted.parseParts]
  dsimp only [Except.bind]
  split
  · rename_i item
    rw [(transform_plainTerm (hplain item List.mem_cons_self)).1]
    refine ⟨item, rfl, fun fields => ?_⟩
    rw [← hmatches, List.all_cons, List.all_nil, Bool.and_true]
  · rw [Selector.transform, transformAll_plainTerms hplain]
    refine ⟨.andTerm terms, rfl, fun fields => ?_⟩
    rw [← hmatches]
    exact matchesAll_eq fields terms

/-- Values with the characters that are escaped, and an empty one. -/
def escapedTerms : Selector :=
  .andTerm [.hasTerm (js "metadata.name") (js "=,\\"), .notHasTerm (js "a!b") []]

theorem parseSelector_escapedTerms : ∃ result, parseSelector escapedTerms.string = .ok result
    ∧ ∀ fields, result.matches fields = escapedTerms.matches fields := by
  have hplain : ∀ field, (field.all fun c => !special c) = true → field ≠ [] → field.getLast? ≠ some 0x21 →
      PlainField field := by
    intro field hunits hne hlast
    refine ⟨hne, fun c hc => ?_, hlast⟩
    simpa using List.all_eq_true.mp hunits c hc
  have hfirst := hplain (js "metadata.name") (by decide +kernel) (by decide +kernel) (by decide +kernel)
  have hsecond := hplain (js "a!b") (by decide +kernel) (by decide +kernel) (by decide +kernel)
  exact (parseSelector_string escapedTerms ⟨hfirst, hsecond, trivial⟩).1

end Webernetes.Apimachinery.FieldSelector
