/-
Webernetes.Apimachinery.LabelsRoundTrip — a printed selector is parsed
back.

The parser meets the items of one requirement after another, with commas
between them. What comes back is each requirement with its values sorted
and each of them once, for the parser collects values in a set.
-/
import Webernetes.Apimachinery.LabelsScan

namespace Webernetes.Apimachinery

open Js Go Etcd

/-! ## Accepted requirements -/

theorem acceptRequirement_of_valid {r : Requirement} (h : r.Valid) (path : Path) :
    acceptRequirement r.key r.operator r.strValues path = .ok r :=
  if_pos (newRequirement_eq_nil.2 h)

theorem valid_of_acceptRequirement {key : JsString} {op : Operator} {vals : List JsString}
    {path : Path} {r : Requirement} (h : acceptRequirement key op vals path = .ok r) :
    r = ⟨key, op, vals⟩ ∧ r.Valid := by
  simp only [acceptRequirement] at h
  split at h
  case isTrue hnil =>
    obtain rfl := Except.ok.inj h
    exact ⟨rfl, newRequirement_eq_nil.1 hnil⟩
  case isFalse => contradiction

/-! ## The items of values -/

def itemsOf (chunks : List Chunk) : List ScannedItem := chunks.map Chunk.item

def comma : ScannedItem := ⟨.commaToken, js ","⟩

def closedPar : ScannedItem := ⟨.closedParToken, js ")"⟩

/-- An item that ends a requirement comes next. -/
def Ends (items : List ScannedItem) : Prop :=
  (lookahead .values items).tok = .endOfStringToken ∨ (lookahead .values items).tok = .commaToken

/-- Empty, or a word of a label. -/
def Word (v : JsString) : Prop := ∀ u ∈ v, wordUnit u = true

theorem lookahead_word {w : JsString} (hw : Word w) (rest : List ScannedItem) :
    lookahead .values (wordItem w :: rest) = ⟨.identifierToken, w⟩ := by
  simp only [lookahead, wordItem_values hw]
  rfl

@[simp] theorem itemsOf_valueChunks_nil : itemsOf (valueChunks []) = [] := rfl

theorem itemsOf_valueChunks {v : JsString} (hne : v ≠ []) : itemsOf (valueChunks v) = [wordItem v] := by
  simp [valueChunks, hne, itemsOf, wordChunk]

@[simp] theorem itemsOf_listChunks_singleton (v : JsString) :
    itemsOf (listChunks [v]) = itemsOf (valueChunks v) := by
  simp [listChunks]

@[simp] theorem itemsOf_listChunks_cons (v w : JsString) (vs : List JsString) :
    itemsOf (listChunks (v :: w :: vs))
      = itemsOf (valueChunks v) ++ comma :: itemsOf (listChunks (w :: vs)) := by
  simp [listChunks, List.intercalate_cons_cons, itemsOf, commaChunk, symbolChunk, comma]

/-- A value alone, up to the end of the requirement. -/
theorem parseExactValue_value {v : JsString} (hv : Word v) {rest : List ScannedItem}
    (hrest : Ends rest) : parseExactValue (itemsOf (valueChunks v) ++ rest) = .ok (newString [v], rest) := by
  by_cases hne : v = []
  · subst hne
    exact if_pos hrest
  · rw [itemsOf_valueChunks hne, List.singleton_append]
    simp [parseExactValue, consume, lookahead_word hv]

/-- The step over a comma: an empty value after it is put in at once, and so
is one before it when nothing stands before. -/
theorem parseIdentifiersList_comma {s s' : StringSet} {w : JsString} {vs : List JsString}
    (rest : List ScannedItem) (hs : (if s.length = 0 then s.insert [] else s) = s')
    (hw : Word w)
    (ih : ∀ s : StringSet, (w = [] → vs ≠ [] ∧ (s = [] ∨ [] ∈ s)) →
      parseIdentifiersList s (itemsOf (listChunks (w :: vs)) ++ closedPar :: rest)
        = .ok (s.insertAll (w :: vs), closedPar :: rest)) :
    parseIdentifiersList s (comma :: (itemsOf (listChunks (w :: vs)) ++ closedPar :: rest))
      = .ok (s'.insertAll (w :: vs), closedPar :: rest) := by
  simp only [parseIdentifiersList, comma, Token.inContext, hs]
  by_cases hne : w = []
  · subst hne
    cases vs with
    | nil => simp [lookahead, closedPar, Token.inContext, StringSet.insertAll]
    | cons x xs =>
        have hmem : [] ∈ s'.insert [] := StringSet.mem_insert.2 (.inr rfl)
        have hnext := ih (s'.insert []) fun _ => ⟨by simp, .inr hmem⟩
        have htwice : (s'.insert []).insertAll ([] :: x :: xs) = s'.insertAll ([] :: x :: xs) :=
          congrArg (fun t : StringSet => t.insertAll (x :: xs)) (StringSet.insert_of_mem hmem)
        rw [htwice] at hnext
        simpa [lookahead, comma, Token.inContext] using hnext
  · have hnext := ih s' fun hnil => absurd hnil hne
    have hlook : (lookahead .values
        (itemsOf (listChunks (w :: vs)) ++ closedPar :: rest)).tok = .identifierToken := by
      cases vs <;> simp [itemsOf_valueChunks hne, lookahead_word hw]
    rw [hlook]
    exact hnext

theorem parseIdentifiersList_word {v : JsString} (hv : Word v) (s : StringSet)
    (rest : List ScannedItem) :
    parseIdentifiersList s (wordItem v :: rest) =
      match (lookahead .values rest).tok with
      | .commaToken => parseIdentifiersList (s.insert v) rest
      | .closedParToken => .ok (s.insert v, rest)
      | _ => .error (found (lookahead .values rest).literal (js ", expected: ',' or ')'")) := by
  rw [parseIdentifiersList, wordItem_values hv]
  rfl

/-- A list of values up to the parenthesis. A first value that is empty has
a comma after it; a later one is in the set already. -/
theorem parseIdentifiersList_values {vs : List JsString} {v : JsString} {s : StringSet}
    {rest : List ScannedItem} (hwords : ∀ w ∈ v :: vs, Word w)
    (hv : v = [] → vs ≠ [] ∧ (s = [] ∨ [] ∈ s)) :
    parseIdentifiersList s (itemsOf (listChunks (v :: vs)) ++ closedPar :: rest)
      = .ok (s.insertAll (v :: vs), closedPar :: rest) := by
  induction vs generalizing v s with
  | nil =>
      have hne : v ≠ [] := fun hnil => (hv hnil).1 rfl
      rw [itemsOf_listChunks_singleton, itemsOf_valueChunks hne, List.singleton_append,
        parseIdentifiersList_word (hwords v List.mem_cons_self)]
      rfl
  | cons w vs ih =>
      have hwords' : ∀ x ∈ w :: vs, Word x := fun x hx => hwords x (List.mem_cons_of_mem _ hx)
      have hcomma := fun {s s' : StringSet} (hs : (if s.length = 0 then s.insert [] else s) = s') =>
        parseIdentifiersList_comma rest hs (hwords' w List.mem_cons_self)
          fun s hs => ih hwords' hs
      rw [itemsOf_listChunks_cons, List.append_assoc, List.cons_append]
      by_cases hne : v = []
      · subst hne
        rw [itemsOf_valueChunks_nil, List.nil_append]
        refine hcomma ?_
        rcases (hv rfl).2 with rfl | hmem
        · rfl
        · rw [StringSet.insert_of_mem hmem, ite_self]
      · have hlength : (s.insert v).length ≠ 0 := by
          simpa using StringSet.insert_ne_nil s v
        have hnext := hcomma (if_neg hlength)
        rw [itemsOf_valueChunks hne, List.singleton_append,
          parseIdentifiersList_word (hwords v List.mem_cons_self)]
        exact hnext

theorem parseListed_values {v : JsString} {vs : List JsString} (lit : JsString)
    (hwords : ∀ w ∈ v :: vs, Word w) (hv : v = [] → vs ≠ []) (rest : List ScannedItem) :
    parseListed lit (itemsOf (listChunks (v :: vs)) ++ closedPar :: rest)
      = .ok (newString (v :: vs), rest) := by
  rw [parseListed, parseIdentifiersList_values hwords fun hnil => ⟨hv hnil, .inl rfl⟩]
  rfl

/-- The values between parentheses; no item at all is one empty value. -/
theorem parseValues_values {vals : List JsString} (hne : vals ≠ [])
    (hwords : ∀ v ∈ vals, Word v) (rest : List ScannedItem) :
    parseValues (⟨.openParToken, js "("⟩ :: (itemsOf (listChunks vals) ++ closedPar :: rest))
      = .ok (newString vals, rest) := by
  obtain ⟨v, vs, rfl⟩ := List.exists_cons_of_ne_nil hne
  by_cases hempty : v = [] ∧ vs = []
  · obtain ⟨rfl, rfl⟩ := hempty
    rfl
  · have hlisted := fun lit => parseListed_values lit hwords
      (fun hv hvs => hempty ⟨hv, hvs⟩) rest
    have hlook : (lookahead .values (itemsOf (listChunks (v :: vs)) ++ closedPar :: rest)).tok
        = .identifierToken
      ∨ (lookahead .values (itemsOf (listChunks (v :: vs)) ++ closedPar :: rest)).tok
        = .commaToken := by
      by_cases hv : v = []
      · subst hv
        cases vs with
        | nil => simp at hempty
        | cons w vs => exact .inr (by rw [itemsOf_listChunks_cons]; rfl)
      · have hword := hwords v List.mem_cons_self
        cases vs <;> simp [itemsOf_valueChunks hv, lookahead_word hword]
    have hopen : (consume .values (⟨.openParToken, js "("⟩
        :: (itemsOf (listChunks (v :: vs)) ++ closedPar :: rest))).tok = .openParToken := rfl
    simp only [parseValues, hopen]
    rcases hlook with htok | htok <;> simp [consume, htok, hlisted]

/-! ## The items of a requirement -/

theorem parseKey_word {key : JsString} (hkey : isLabelKey key = []) (path : Path)
    (operator : Option Operator) (rest : List ScannedItem) :
    parseKey path operator (wordItem key :: rest) =
      if ((lookahead .values rest).tok = .endOfStringToken
          ∨ (lookahead .values rest).tok = .commaToken) ∧ operator ≠ some .doesNotExist then
        .ok ((key, some .exists_), rest)
      else .ok ((key, operator), rest) := by
  have hword : Word key := (word_of_isLabelKey hkey).2
  have hvalid : validateLabelKey key path = none := validateLabelKey_eq_none.2 hkey
  simp only [parseKey, consume, lookahead_word hword, hvalid, List.tail_cons, ne_eq,
    not_true_eq_false, if_false]

theorem parseKeyAndInferOperator_word {key : JsString} (hkey : isLabelKey key = []) (path : Path)
    (rest : List ScannedItem) :
    parseKeyAndInferOperator path (wordItem key :: rest)
      = parseKey path none (wordItem key :: rest) := by
  have hword : Word key := (word_of_isLabelKey hkey).2
  simp [parseKeyAndInferOperator, consume, lookahead_word hword]

/-- After a key and no end of the requirement, an operator and its values. -/
theorem parseRequirement_operator {r : Requirement} (h : r.Valid) (path : Path)
    {operands values rest : List ScannedItem} {set : StringSet} (hends : ¬ Ends operands)
    (hoperator : parseOperator operands = .ok (r.operator, values))
    (hvalues : parseOperands r.operator values = .ok (set, rest))
    (hset : set.list = r.normal.strValues) :
    parseRequirement path (wordItem r.key :: operands) = .ok (r.normal, rest) := by
  have haccept : acceptRequirement r.key r.operator set.list path = .ok r.normal := by
    rw [hset]
    exact acceptRequirement_of_valid h.normal path
  have hkey : parseKeyAndInferOperator path (wordItem r.key :: operands)
      = .ok ((r.key, none), operands) := by
    rw [parseKeyAndInferOperator_word h.key, parseKey_word h.key]
    exact if_neg fun hand => hends hand.1
  simp only [parseRequirement, hkey, hoperator, hvalues, haccept, Except.map]

theorem parseRequirement_exact {r : Requirement} (h : r.Valid) (path : Path) {tok : Token}
    {text : JsString} {rest : List ScannedItem} (hlength : r.strValues.length = 1)
    (htok : tok.inContext .values ≠ .endOfStringToken ∧ tok.inContext .values ≠ .commaToken)
    (hoperator : ∀ items, parseOperator (⟨tok, text⟩ :: items) = .ok (r.operator, items))
    (hoperands : ∀ items, parseOperands r.operator items = parseExactValue items)
    (hrest : Ends rest) :
    parseRequirement path (itemsOf (exactChunks tok text r) ++ rest) = .ok (r.normal, rest) := by
  obtain ⟨v, hv⟩ := List.length_eq_one_iff.1 hlength
  have hfirst : r.firstValue = v := by simp [Requirement.firstValue, hv]
  have hword : Word v := word_of_isLabelValue (h.values v (by simp [hv]))
  refine parseRequirement_operator h path (fun hends => ?_) (hoperator _) ?_ rfl
  · rcases hends with hend | hcomma
    · exact htok.1 hend
    · exact htok.2 hcomma
  · rw [hoperands, hfirst, hv]
    exact parseExactValue_value hword hrest

theorem parseRequirement_listed {r : Requirement} (h : r.Valid) (path : Path)
    (rest : List ScannedItem) (hne : r.strValues ≠ [])
    (hoperator : ∀ items, parseOperator (wordItem r.operator.text :: items)
      = .ok (r.operator, items))
    (htok : Word r.operator.text)
    (hoperands : ∀ items, parseOperands r.operator items = parseValues items) :
    parseRequirement path (wordItem r.key :: wordItem r.operator.text :: ⟨.openParToken, js "("⟩
        :: (itemsOf (listChunks (sortStrings r.strValues)) ++ closedPar :: rest))
      = .ok (r.normal, rest) := by
  have hmem : ∀ v, v ∈ sortStrings r.strValues ↔ v ∈ r.strValues :=
    fun v => (sortStrings_perm _).mem_iff
  refine parseRequirement_operator h path (fun hends => ?_) (hoperator _)
    ((hoperands _).trans (parseValues_values ?_ ?_ rest)) (list_newString_congr hmem)
  · simp [Ends, lookahead_word htok] at hends
  · obtain ⟨v, hv⟩ := List.exists_mem_of_ne_nil _ hne
    exact List.ne_nil_of_mem ((hmem v).2 hv)
  · exact fun v hv => word_of_isLabelValue (h.values v ((hmem v).1 hv))

/-- The items of an accepted requirement are parsed to it. -/
theorem parseRequirement_requirement {r : Requirement} (h : r.Valid) (path : Path)
    {rest : List ScannedItem} (hrest : Ends rest) :
    parseRequirement path (itemsOf r.chunks ++ rest) = .ok (r.normal, rest) := by
  obtain ⟨key, op, vals⟩ := r
  have htakes := h.takes
  have haccept := acceptRequirement_of_valid h.normal path
  cases op with
  | exists_ =>
      obtain rfl : vals = [] := htakes
      have hkey : parseKeyAndInferOperator path (wordItem key :: rest)
          = .ok ((key, some .exists_), rest) := by
        rw [parseKeyAndInferOperator_word h.key, parseKey_word h.key]
        exact if_pos ⟨hrest, by decide⟩
      show parseRequirement path (wordItem key :: rest) = _
      simp only [parseRequirement, hkey]
      exact congrArg (Except.map fun r => (r, rest)) haccept
  | doesNotExist =>
      obtain rfl : vals = [] := htakes
      have hkey : parseKeyAndInferOperator path
          (⟨.doesNotExistToken, js "!"⟩ :: wordItem key :: rest)
          = .ok ((key, some .doesNotExist), rest) := by
        show parseKey path (some .doesNotExist) (wordItem key :: rest) = _
        rw [parseKey_word h.key]
        exact if_neg fun hand => hand.2 rfl
      show parseRequirement path (⟨.doesNotExistToken, js "!"⟩ :: wordItem key :: rest) = _
      simp only [parseRequirement, hkey]
      exact congrArg (Except.map fun r => (r, rest)) haccept
  | equals | doubleEquals | notEquals =>
      exact parseRequirement_exact h path htakes (by decide) (fun _ => rfl) (fun _ => rfl) hrest
  | greaterThan | lessThan =>
      exact parseRequirement_exact h path htakes.1 (by decide) (fun _ => rfl) (fun _ => rfl) hrest
  | inOperator | notIn =>
      have hlisted := parseRequirement_listed h path rest htakes (fun _ => rfl)
        (all_wordUnit (by rfl)) (fun _ => rfl)
      simpa [Requirement.chunks, itemsOf, blankBefore, symbolChunk, wordChunk, closedPar]
        using hlisted

/-- A requirement starts with a key or a `!`. -/
def Starts (items : List ScannedItem) : Prop :=
  (lookahead .values items).tok = .identifierToken
    ∨ (lookahead .values items).tok = .doesNotExistToken

theorem starts_requirement {r : Requirement} (h : r.Valid) (rest : List ScannedItem) :
    Starts (itemsOf r.chunks ++ rest) := by
  have hword : Word r.key := (word_of_isLabelKey h.key).2
  obtain ⟨key, op, vals⟩ := r
  cases op with
  | doesNotExist => exact .inr rfl
  | _ => exact .inl (wordItem_values hword)

/-! ## The items of a selector -/

theorem parseItems_of_parsed {path : Path} {items rest : List ScannedItem} {r : Requirement}
    (hstarts : Starts items) (hparsed : parseRequirement path items = .ok (r, rest)) :
    parseItems path items =
      match (lookahead .values rest).tok with
      | .endOfStringToken => .ok [r]
      | .commaToken =>
        if (lookahead .values rest.tail).tok ≠ .identifierToken
            ∧ (lookahead .values rest.tail).tok ≠ .doesNotExistToken then
          .error (found (lookahead .values rest.tail).literal
            (js ", expected: identifier after ','"))
        else (parseItems path rest.tail).map (r :: ·)
      | _ => .error (found (lookahead .values rest).literal
          (js ", expected: ',' or 'end of string'")) := by
  rw [parseItems]
  rcases hstarts with htok | htok
  all_goals
    split
    case h_3 | h_4 => simp_all
    all_goals
      split <;> rename_i hfound <;> rw [hparsed] at hfound <;> cases hfound
      rfl

@[simp] theorem selector_chunks_singleton (r : Requirement) : Selector.chunks [r] = r.chunks := by
  simp [Selector.chunks]

theorem itemsOf_selector_cons (r r' : Requirement) (rs : Selector) :
    itemsOf (Selector.chunks (r :: r' :: rs))
      = itemsOf r.chunks ++ comma :: itemsOf (Selector.chunks (r' :: rs)) := by
  simp [Selector.chunks, List.intercalate_cons_cons, itemsOf, commaChunk, symbolChunk, comma]

theorem starts_selector {r : Requirement} (h : r.Valid) (rs : Selector)
    (rest : List ScannedItem) : Starts (itemsOf (Selector.chunks (r :: rs)) ++ rest) := by
  cases rs with
  | nil =>
      rw [selector_chunks_singleton]
      exact starts_requirement h rest
  | cons r' rs =>
      rw [itemsOf_selector_cons, List.append_assoc]
      exact starts_requirement h _

/-- The items of accepted requirements are parsed to them, one after another. -/
theorem parseItems_selector (path : Path) {selector : Selector} (h : ∀ r ∈ selector, r.Valid) :
    parseItems path (itemsOf selector.chunks ++ [⟨.endOfStringToken, []⟩])
      = .ok (selector.map Requirement.normal) := by
  induction selector with
  | nil =>
      rw [parseItems]
      rfl
  | cons r rs ih =>
      have hr := h r List.mem_cons_self
      have hrs := ih fun r' hr' => h r' (List.mem_cons_of_mem _ hr')
      cases rs with
      | nil =>
          rw [selector_chunks_singleton, parseItems_of_parsed (starts_requirement hr _)
            (parseRequirement_requirement hr path (.inl rfl))]
          rfl
      | cons r' rs =>
          have hstarts : Starts (itemsOf (Selector.chunks (r' :: rs))
              ++ [⟨.endOfStringToken, []⟩]) :=
            starts_selector (h r' (by simp)) rs _
          rw [itemsOf_selector_cons, List.append_assoc, List.cons_append,
            parseItems_of_parsed (starts_requirement hr _)
              (parseRequirement_requirement hr path (.inr rfl))]
          show (if _ then _ else _) = _
          rw [if_neg, List.tail_cons, hrs]
          · rfl
          · rintro ⟨hidentifier, hdoesNotExist⟩
            rcases hstarts with htok | htok
            · exact hidentifier htok
            · exact hdoesNotExist htok

/-- A printed selector is parsed to its requirements in normal form, by key. -/
theorem parse_string (locale : Etcd.Locale) (path : Path) {selector : Selector}
    (h : ∀ r ∈ selector, r.Valid) :
    parse locale selector.string path
      = .ok (Selector.sortByKey locale (selector.map Requirement.normal)) := by
  have hitems := parseItems_selector path h
  rw [parse, scan_string h]
  exact congrArg (Except.map (Selector.sortByKey locale)) hitems

theorem matches_map_normal {selector : Selector} (h : ∀ r ∈ selector, r.Valid) (labels : Labels) :
    Selector.matches (selector.map Requirement.normal) labels = selector.matches labels := by
  induction selector with
  | nil => rfl
  | cons r rs ih =>
      have hr := matches_normal (h r List.mem_cons_self) labels
      have hrs := ih fun r' hr' => h r' (List.mem_cons_of_mem _ hr')
      simp only [Selector.matches, List.map_cons, List.all_cons] at hrs ⊢
      rw [hr, hrs]

/-! ## What parse accepts -/

theorem nodup_parseIdentifiersList {items rest : List ScannedItem} {s values : StringSet}
    (hs : s.Nodup) (h : parseIdentifiersList s items = .ok (values, rest)) : values.Nodup := by
  induction items generalizing s with
  | nil => simp [parseIdentifiersList] at h
  | cons item items ih =>
      have hinsert : ∀ (s : StringSet) (v : JsString), s.Nodup → (s.insert v).Nodup :=
        fun _ _ hs => StringSet.nodup_insert hs
      unfold parseIdentifiersList at h
      grind

theorem nodup_parseOperands {op : Operator} {items rest : List ScannedItem} {values : StringSet}
    (h : parseOperands op items = .ok (values, rest)) : values.Nodup := by
  have hlisted : ∀ {lit items}, parseListed lit items = .ok (values, rest) → values.Nodup := by
    intro lit items h
    unfold parseListed at h
    split at h
    · contradiction
    · rename_i hlist
      have hnodup := nodup_parseIdentifiersList List.nodup_nil hlist
      dsimp only [consume] at h
      grind
  have hone : ∀ v, (newString [v]).Nodup := fun v => nodup_newString [v]
  have hvalues : parseValues items = .ok (values, rest) → values.Nodup := by
    intro h
    dsimp only [parseValues, consume] at h
    grind
  have hexact : parseExactValue items = .ok (values, rest) → values.Nodup := by
    intro h
    dsimp only [parseExactValue, consume] at h
    grind
  cases op <;> first | exact hvalues h | exact hexact h

/-- Values put in order once stay as they are. -/
theorem list_newString_list {values : StringSet} (h : values.Nodup) :
    (newString values.list).list = values.list :=
  sortStrings_congr <| (List.perm_ext_iff_of_nodup (nodup_newString _) h).2 fun v => by
    rw [mem_newString, StringSet.list, (sortStrings_perm _).mem_iff]

/-- A requirement that is accepted and in normal form. -/
def Settled (r : Requirement) : Prop := r.Valid ∧ r.normal = r

theorem settled_of_parseRequirement {path : Path} {items rest : List ScannedItem}
    {r : Requirement} (h : parseRequirement path items = .ok (r, rest)) : Settled r := by
  unfold parseRequirement at h
  split at h
  · contradiction
  · obtain ⟨rfl, hvalid⟩ := valid_of_acceptRequirement (acceptRequirement_rest h).1
    exact ⟨hvalid, rfl⟩
  · split at h
    · contradiction
    · split at h
      · contradiction
      · rename_i hvalues
        obtain ⟨rfl, hvalid⟩ := valid_of_acceptRequirement (acceptRequirement_rest h).1
        refine ⟨hvalid, ?_⟩
        simp only [Requirement.normal, list_newString_list (nodup_parseOperands hvalues)]

/-- Everything the parser answers is accepted and in normal form. -/
theorem settled_of_parseItems {path : Path} {items : List ScannedItem} {selector : Selector}
    (h : parseItems path items = .ok selector) : ∀ r ∈ selector, Settled r := by
  fun_induction parseItems path items generalizing selector with
  | case2 | case7 =>
      rename_i hparsed _ _
      obtain rfl := Except.ok.inj h
      intro r hr
      obtain rfl := List.mem_singleton.1 hr
      exact settled_of_parseRequirement hparsed
  | case4 | case9 =>
      rename_i hparsed c _ _ _ ih
      cases hrest : parseItems path c.rest with
      | error err =>
          rw [hrest] at h
          contradiction
      | ok rs =>
          rw [hrest] at h
          obtain rfl := Except.ok.inj h
          intro r hr
          rcases List.mem_cons.1 hr with rfl | hr
          · exact settled_of_parseRequirement hparsed
          · exact ih hrest r hr
  | case11 =>
      obtain rfl := Except.ok.inj h
      simp
  | _ => contradiction

/-- Printing what was parsed and parsing it again gives the same selector. -/
theorem parse_string_of_parse {locale : Etcd.Locale} {path : Path} {text : JsString}
    {parsed : Selector} (h : parse locale text path = .ok parsed) (path' : Path) :
    parse locale parsed.string path' = .ok parsed := by
  unfold parse at h
  cases hitems : parseItems path (scan text) with
  | error err =>
      rw [hitems] at h
      contradiction
  | ok items =>
      rw [hitems] at h
      obtain rfl := Except.ok.inj h
      have hsettled : ∀ r ∈ Selector.sortByKey locale items, Settled r := fun r hr =>
        settled_of_parseItems hitems r ((Selector.sortByKey_perm locale items).mem_iff.1 hr)
      have hnormal : (Selector.sortByKey locale items).map Requirement.normal
          = Selector.sortByKey locale items :=
        (List.map_congr_left fun r hr => (hsettled r hr).2).trans (List.map_id _)
      rw [parse_string locale path' fun r hr => (hsettled r hr).1, hnormal,
        Selector.sortByKey_sortByKey]

/-! ## The round trip -/

/-- Accepted requirements come back from their text each with its values
sorted and once, in some order of the keys, and match the same label sets;
a selector that was parsed comes back as it is. -/
theorem selector_round_trip (locale : Etcd.Locale) (path : Path) :
    (∀ selector : Selector,
      (∀ r ∈ selector, ∃ path, newRequirement r.key r.operator r.strValues path = (r, [])) →
      ∃ parsed, parse locale selector.string path = .ok parsed
        ∧ parsed.Perm (selector.map Requirement.normal)
        ∧ ∀ labels, parsed.matches labels = selector.matches labels)
    ∧ ∀ text parsed, parse locale text path = .ok parsed →
        ∀ path', parse locale parsed.string path' = .ok parsed := by
  constructor
  · intro selector haccepted
    have hvalid : ∀ r ∈ selector, r.Valid := by
      intro r hr
      obtain ⟨path, hnew⟩ := haccepted r hr
      exact newRequirement_eq_nil.1 (congrArg Prod.snd hnew)
    have hperm := Selector.sortByKey_perm locale (selector.map Requirement.normal)
    exact ⟨_, parse_string locale path hvalid, hperm, fun labels =>
      (Selector.matches_perm hperm labels).trans (matches_map_normal hvalid labels)⟩
  · intro text parsed h path'
    exact parse_string_of_parse h path'

/-- Keys named like keywords, an empty value, and a key without a value. -/
def mixedSelector : Selector :=
  [⟨js "notin", .notIn, [js "b", [], js "in"]⟩, ⟨js "in", .equals, [[]]⟩, ⟨js "a/b", .exists_, []⟩,
    ⟨js "x", .greaterThan, [js "5"]⟩]

theorem accepted_mixedSelector : ∀ r ∈ mixedSelector,
    newRequirement r.key r.operator r.strValues [] = (r, []) := by
  decide

theorem selector_round_trip_mixed :
    ∃ parsed, parse rootLocale mixedSelector.string [] = .ok parsed
      ∧ parsed.Perm (mixedSelector.map Requirement.normal)
      ∧ parse rootLocale parsed.string [] = .ok parsed := by
  obtain ⟨parsed, hparsed, hperm, _⟩ := (selector_round_trip rootLocale []).1 mixedSelector
    fun r hr => ⟨[], accepted_mixedSelector r hr⟩
  exact ⟨parsed, hparsed, hperm, (selector_round_trip rootLocale []).2 _ _ hparsed []⟩

/-- The same requirements up to the order of the keys and of the values. -/
def SameRequirements (left right : Selector) : Prop :=
  ∃ middle : Selector, left.Perm middle ∧
    List.Forall₂ (fun l r => l.key = r.key ∧ l.operator = r.operator
      ∧ l.strValues.Perm r.strValues) middle right

/-- A value given twice is accepted, and comes back once. -/
theorem repeated_value_comes_back_once :
    newRequirement (js "x") .inOperator [js "a", js "a"] []
        = (⟨js "x", .inOperator, [js "a", js "a"]⟩, [])
      ∧ ∃ parsed, parse rootLocale
            (Selector.string [⟨js "x", .inOperator, [js "a", js "a"]⟩]) [] = .ok parsed
          ∧ ¬ SameRequirements parsed [⟨js "x", .inOperator, [js "a", js "a"]⟩] := by
  have hnew : newRequirement (js "x") .inOperator [js "a", js "a"] []
      = (⟨js "x", .inOperator, [js "a", js "a"]⟩, []) := by decide
  have hvalid : ∀ r ∈ [(⟨js "x", .inOperator, [js "a", js "a"]⟩ : Requirement)], r.Valid := by
    intro r hr
    obtain rfl := List.mem_singleton.1 hr
    exact newRequirement_eq_nil.1 (congrArg Prod.snd hnew)
  refine ⟨hnew, _, parse_string rootLocale [] hvalid, ?_⟩
  rintro ⟨middle, hperm, hsame⟩
  have hvalues : ∀ r ∈ middle, r.strValues = [js "a"] := by
    intro r hr
    have hmem := hperm.mem_iff.2 hr
    rw [(Selector.sortByKey_perm _ _).mem_iff] at hmem
    obtain rfl := List.mem_singleton.1 hmem
    rfl
  cases hsame with
  | cons hhead hrest =>
      have hlength := hhead.2.2.length_eq
      rw [hvalues _ List.mem_cons_self] at hlength
      contradiction

end Webernetes.Apimachinery
