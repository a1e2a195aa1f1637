/-
Webernetes.Apimachinery.LabelsScan — the text of a selector is scanned to
its items.

The printed text is cut into chunks, one for each item the lexer answers.
A chunk is scanned to its item where the item ends: a word where a symbol
or a blank follows, `=` and `!` where no `=` follows, and every other
symbol wherever it stands.
-/
import Webernetes.Apimachinery.LabelsParser

namespace Webernetes.Apimachinery

open Js Go Etcd

/-! ## Scanning a word and a symbol -/

/-- What is left starts with a unit that ends a word, if with any. -/
def Delimits (rest : JsString) : Prop :=
  ∀ ch ∈ rest.head?, isSpecialSymbol ch = true ∨ isWhitespace ch = true

theorem special_wordUnit {u : CodeUnit} (h : isSpecialSymbol u = true) : wordUnit u = false := by
  simp only [isSpecialSymbol, decide_eq_true_eq] at h
  rcases h with rfl | rfl | rfl | rfl | rfl | rfl | rfl <;> decide

theorem whitespace_wordUnit {u : CodeUnit} (h : isWhitespace u = true) : wordUnit u = false := by
  simp only [isWhitespace, decide_eq_true_eq] at h
  rcases h with rfl | rfl | rfl | rfl <;> decide

theorem wordUnit_plain {u : CodeUnit} (h : wordUnit u = true) :
    isSpecialSymbol u = false ∧ isWhitespace u = false := by
  constructor <;> by_contra hno
  · rw [special_wordUnit (by simpa using hno)] at h
    contradiction
  · rw [whitespace_wordUnit (by simpa using hno)] at h
    contradiction

/-- The item of a word: an identifier or a keyword. -/
def wordItem (w : JsString) : ScannedItem := ⟨(string2token.lookup w).getD .identifierToken, w⟩

/-- Every text of the table but the two keywords has a unit no word has. -/
theorem wordItem_values {w : JsString} (h : ∀ u ∈ w, wordUnit u = true) :
    (wordItem w).tok.inContext .values = .identifierToken := by
  have htable : ∀ entry ∈ string2token, entry.2.inContext .values = .identifierToken
      ∨ entry.1.any (fun u => !wordUnit u) = true := by decide
  simp only [wordItem]
  cases hlookup : string2token.lookup w with
  | none => rfl
  | some tok =>
      have hmem : (w, tok) ∈ string2token := by
        obtain ⟨l₁, l₂, hsplit, _⟩ := List.lookup_eq_some_iff.1 hlookup
        simp [hsplit]
      rcases htable _ hmem with hvalues | hany
      · exact hvalues
      · obtain ⟨u, hu, hno⟩ := List.any_eq_true.1 hany
        simp [h u hu] at hno

theorem scanIDOrKeyword_word {w rest : JsString} (hw : ∀ u ∈ w, wordUnit u = true)
    (hrest : Delimits rest) (buffer : JsString) :
    scanIDOrKeyword buffer (w ++ rest) = (wordItem (buffer ++ w), rest) := by
  induction w generalizing buffer with
  | nil =>
      cases rest with
      | nil => simp [scanIDOrKeyword, wordItem]
      | cons ch rest => simp [scanIDOrKeyword, wordItem, hrest ch rfl]
  | cons u w ih =>
      obtain ⟨hspecial, hblank⟩ := wordUnit_plain (hw u List.mem_cons_self)
      simp only [List.cons_append, scanIDOrKeyword, hspecial, hblank]
      simpa using ih (fun u hu => hw u (List.mem_cons_of_mem _ hu)) (buffer ++ [u])

theorem lex_word {w rest : JsString} (hne : w ≠ []) (hw : ∀ u ∈ w, wordUnit u = true)
    (hrest : Delimits rest) : lex (w ++ rest) = (wordItem w, rest) := by
  cases w with
  | nil => contradiction
  | cons u w =>
      obtain ⟨hspecial, hblank⟩ := wordUnit_plain (hw u List.mem_cons_self)
      have hscan := scanIDOrKeyword_word hw hrest []
      simpa [lex, skipWhiteSpaces, hspecial, hblank] using hscan

theorem lex_blank (s : JsString) : lex (js " " ++ s) = lex s := by
  have hblank : isWhitespace (unit ' ') = true := by decide
  have hjs : js " " = [unit ' '] := rfl
  simp [lex, skipWhiteSpaces, hjs, hblank]

/-- The scan of a symbol ends where no longer symbol starts like it. -/
theorem scanSpecialSymbol_done {tok : Token} (text : JsString) {rest : JsString} (htok : tok ≠ .errorToken)
    (hrest : ∀ ch ∈ rest.head?, isSpecialSymbol ch = true →
      string2token.lookup (text ++ [ch]) = none) :
    scanSpecialSymbol ⟨tok, text⟩ text rest = (⟨tok, text⟩, rest) := by
  cases rest with
  | nil => simp [scanSpecialSymbol, scannedSymbol, htok]
  | cons ch rest =>
      simp only [scanSpecialSymbol]
      split
      · rename_i hch
        simp [hrest ch rfl hch, scannedSymbol, htok]
      · simp [scannedSymbol, htok]

def specialSymbols : List CodeUnit :=
  [unit '=', unit '!', unit '(', unit ')', unit ',', unit '>', unit '<']

theorem mem_specialSymbols {ch : CodeUnit} : isSpecialSymbol ch = true ↔ ch ∈ specialSymbols := by
  simp [isSpecialSymbol, specialSymbols]

theorem special_not_whitespace {u : CodeUnit} (h : isSpecialSymbol u = true) :
    isWhitespace u = false := by
  have htable : specialSymbols.all (fun u => !isWhitespace u) = true := by decide
  simpa using List.all_eq_true.1 htable u (mem_specialSymbols.1 h)

theorem lex_symbol {tok : Token} {u : CodeUnit} {rest : JsString} (hu : isSpecialSymbol u = true)
    (hlookup : string2token.lookup [u] = some tok) (htok : tok ≠ .errorToken)
    (hrest : ∀ ch ∈ rest.head?, isSpecialSymbol ch = true →
      string2token.lookup [u, ch] = none) :
    lex (u :: rest) = (⟨tok, [u]⟩, rest) := by
  have hdone := scanSpecialSymbol_done [u] htok hrest
  simp [lex, skipWhiteSpaces, special_not_whitespace hu, hu, scanSpecialSymbol, hlookup, hdone]

theorem lex_symbol_two (tok : Token) {tok' : Token} {u v : CodeUnit} {rest : JsString}
    (hu : isSpecialSymbol u = true) (hv : isSpecialSymbol v = true)
    (hlookup : string2token.lookup [u] = some tok)
    (hlookup' : string2token.lookup [u, v] = some tok') (htok : tok' ≠ .errorToken)
    (hrest : ∀ ch ∈ rest.head?, isSpecialSymbol ch = true →
      string2token.lookup [u, v, ch] = none) :
    lex (u :: v :: rest) = (⟨tok', [u, v]⟩, rest) := by
  have hdone := scanSpecialSymbol_done [u, v] htok hrest
  simp [lex, skipWhiteSpaces, special_not_whitespace hu, hu, hv, scanSpecialSymbol, hlookup,
    hlookup', hdone]

/-! ## Chunks -/

/-- An item and the text it is scanned from, with a blank before it or without. -/
structure Chunk where
  item : ScannedItem
  text : JsString

def textOf (chunks : List Chunk) : JsString := chunks.flatMap Chunk.text

@[simp] theorem textOf_nil : textOf [] = [] := rfl

@[simp] theorem textOf_cons (c : Chunk) (cs : List Chunk) : textOf (c :: cs) = c.text ++ textOf cs :=
  rfl

@[simp] theorem textOf_append (as bs : List Chunk) : textOf (as ++ bs) = textOf as ++ textOf bs :=
  List.flatMap_append

theorem textOf_intercalate (c : Chunk) (ls : List (List Chunk)) :
    textOf ([c].intercalate ls) = c.text.intercalate (ls.map textOf) := by
  induction ls with
  | nil => rfl
  | cons l ls ih =>
      cases ls with
      | nil => simp
      | cons l' ls => simp_all [List.intercalate_cons_cons]

/-- Every chunk is scanned to its item, and then the tail is left. -/
def Scanned : List Chunk → JsString → Prop
  | [], _ => True
  | c :: cs, tail =>
    (c.item.tok ≠ .endOfStringToken
      ∧ lex (c.text ++ (textOf cs ++ tail)) = (c.item, textOf cs ++ tail)) ∧ Scanned cs tail

theorem scanned_append {as bs : List Chunk} {tail : JsString} :
    Scanned (as ++ bs) tail ↔ Scanned as (textOf bs ++ tail) ∧ Scanned bs tail := by
  induction as with
  | nil => simp [Scanned]
  | cons a as ih => simp only [List.cons_append, Scanned, ih, textOf_append, List.append_assoc,
      and_assoc]

theorem scan_chunks {chunks : List Chunk} {tail : JsString} (h : Scanned chunks tail) :
    scan (textOf chunks ++ tail) = chunks.map Chunk.item ++ scan tail := by
  induction chunks with
  | nil => rfl
  | cons c cs ih =>
      obtain ⟨⟨hend, hlex⟩, hrest⟩ := h
      rw [textOf_cons, List.append_assoc, scan, hlex, dif_neg hend, ih hrest]
      rfl

theorem scan_nil : scan [] = [⟨.endOfStringToken, []⟩] := by
  rw [scan]
  rfl

def wordChunk (w : JsString) : Chunk := ⟨wordItem w, w⟩

def symbolChunk (tok : Token) (text : JsString) : Chunk := ⟨⟨tok, text⟩, text⟩

def blankBefore (c : Chunk) : Chunk := { c with text := js " " ++ c.text }

def commaChunk : Chunk := symbolChunk .commaToken (js ",")

/-- The chunks of a value; an empty one has none. -/
def valueChunks (v : JsString) : List Chunk := if v = [] then [] else [wordChunk v]

def exactChunks (tok : Token) (text : JsString) (r : Requirement) : List Chunk :=
  wordChunk r.key :: symbolChunk tok text :: valueChunks r.firstValue

def listChunks (vals : List JsString) : List Chunk :=
  [commaChunk].intercalate (vals.map valueChunks)

def Requirement.chunks (r : Requirement) : List Chunk :=
  match r.operator with
  | .doesNotExist => [symbolChunk .doesNotExistToken (js "!"), wordChunk r.key]
  | .exists_ => [wordChunk r.key]
  | .equals => exactChunks .equalsToken (js "=") r
  | .doubleEquals => exactChunks .doubleEqualsToken (js "==") r
  | .notEquals => exactChunks .notEqualsToken (js "!=") r
  | .inOperator | .notIn =>
    wordChunk r.key :: blankBefore (wordChunk r.operator.text)
      :: blankBefore (symbolChunk .openParToken (js "("))
      :: (listChunks (sortStrings r.strValues) ++ [symbolChunk .closedParToken (js ")")])
  | .greaterThan => exactChunks .greaterThanToken (js ">") r
  | .lessThan => exactChunks .lessThanToken (js "<") r

def Selector.chunks (selector : Selector) : List Chunk :=
  [commaChunk].intercalate (selector.map Requirement.chunks)

@[simp] theorem textOf_valueChunks (v : JsString) : textOf (valueChunks v) = v := by
  unfold valueChunks
  split <;> simp_all [wordChunk]

@[simp] theorem textOf_listChunks (vals : List JsString) :
    textOf (listChunks vals) = (js ",").intercalate vals := by
  have hmap : vals.map (textOf ∘ valueChunks) = vals := by
    induction vals <;> simp_all
  rw [listChunks, textOf_intercalate, List.map_map, hmap]
  rfl

theorem textOf_requirement (r : Requirement) : textOf r.chunks = r.string := by
  have hopen : js " (" = js " " ++ js "(" := rfl
  obtain ⟨key, op, vals⟩ := r
  cases op <;> simp [Requirement.chunks, Requirement.string, exactChunks, wordChunk, symbolChunk,
    blankBefore, hopen]

theorem textOf_selector (selector : Selector) : textOf selector.chunks = selector.string := by
  rw [Selector.chunks, textOf_intercalate, List.map_map]
  have hmap : textOf ∘ Requirement.chunks = Requirement.string := funext textOf_requirement
  rw [hmap]
  rfl

/-! ## Scanning a requirement -/

/-- What follows a value or a requirement. -/
def Follows (tail : JsString) : Prop := ∀ ch ∈ tail.head?, ch = unit ',' ∨ ch = unit ')'

/-- No longer symbol starts like this one. -/
def final (text : JsString) : Bool :=
  specialSymbols.all fun ch => (string2token.lookup (text ++ [ch])).isNone

/-- A longer symbol that starts like this one goes on with `=`. -/
def finalUnlessEquals (text : JsString) : Bool :=
  specialSymbols.all fun ch =>
    decide (ch = unit '=') || (string2token.lookup (text ++ [ch])).isNone

theorem lookup_final (text : JsString) (h : final text = true) {ch : CodeUnit}
    (hch : isSpecialSymbol ch = true) : string2token.lookup (text ++ [ch]) = none := by
  simpa using List.all_eq_true.1 h ch (mem_specialSymbols.1 hch)

theorem lookup_finalUnlessEquals (text : JsString) (h : finalUnlessEquals text = true)
    {ch : CodeUnit} (hch : isSpecialSymbol ch = true) (hne : ch ≠ unit '=') :
    string2token.lookup (text ++ [ch]) = none := by
  simpa [hne] using List.all_eq_true.1 h ch (mem_specialSymbols.1 hch)

theorem Follows.delimits {tail : JsString} (h : Follows tail) : Delimits tail := by
  intro ch hch
  rcases h ch hch with rfl | rfl <;> exact .inl (by decide)

theorem Follows.ne_equals {tail : JsString} (h : Follows tail) :
    ∀ ch ∈ tail.head?, ch ≠ unit '=' := by
  intro ch hch
  rcases h ch hch with rfl | rfl <;> decide

theorem follows_nil : Follows [] := by simp [Follows]

theorem follows_comma (tail : JsString) : Follows (js "," ++ tail) := by
  intro ch hch
  exact .inl (Option.some.inj hch).symm

theorem follows_close (tail : JsString) : Follows (js ")" ++ tail) := by
  intro ch hch
  exact .inr (Option.some.inj hch).symm

theorem ne_equals_of_word {w tail : JsString} (hw : ∀ u ∈ w, wordUnit u = true)
    (htail : Follows tail) : ∀ ch ∈ (w ++ tail).head?, ch ≠ unit '=' := by
  cases w with
  | nil => exact htail.ne_equals
  | cons u w =>
      rintro ch hch rfl
      have hhead := hw u List.mem_cons_self
      rw [show u = unit '=' from Option.some.inj hch] at hhead
      exact absurd hhead (by decide)

theorem scanned_symbol {tok : Token} {text : JsString} {cs : List Chunk} {tail : JsString}
    (htok : tok ≠ .endOfStringToken)
    (hlex : lex (text ++ (textOf cs ++ tail)) = (⟨tok, text⟩, textOf cs ++ tail))
    (h : Scanned cs tail) : Scanned (symbolChunk tok text :: cs) tail :=
  ⟨⟨htok, hlex⟩, h⟩

theorem lex_comma (rest : JsString) : lex (js "," ++ rest) = (⟨.commaToken, js ","⟩, rest) :=
  lex_symbol (by decide) (by decide) (by decide) fun _ _ => lookup_final (js ",") (by decide)

theorem lex_openPar (rest : JsString) : lex (js "(" ++ rest) = (⟨.openParToken, js "("⟩, rest) :=
  lex_symbol (by decide) (by decide) (by decide) fun _ _ => lookup_final (js "(") (by decide)

theorem lex_closedPar (rest : JsString) :
    lex (js ")" ++ rest) = (⟨.closedParToken, js ")"⟩, rest) :=
  lex_symbol (by decide) (by decide) (by decide) fun _ _ => lookup_final (js ")") (by decide)

theorem lex_greaterThan (rest : JsString) :
    lex (js ">" ++ rest) = (⟨.greaterThanToken, js ">"⟩, rest) :=
  lex_symbol (by decide) (by decide) (by decide) fun _ _ => lookup_final (js ">") (by decide)

theorem lex_lessThan (rest : JsString) :
    lex (js "<" ++ rest) = (⟨.lessThanToken, js "<"⟩, rest) :=
  lex_symbol (by decide) (by decide) (by decide) fun _ _ => lookup_final (js "<") (by decide)

theorem lex_doubleEquals (rest : JsString) :
    lex (js "==" ++ rest) = (⟨.doubleEqualsToken, js "=="⟩, rest) :=
  lex_symbol_two (.equalsToken) (by decide) (by decide) (by decide) (by decide)
    (by decide) fun _ _ => lookup_final (js "==") (by decide)

theorem lex_notEquals (rest : JsString) :
    lex (js "!=" ++ rest) = (⟨.notEqualsToken, js "!="⟩, rest) :=
  lex_symbol_two (.doesNotExistToken) (by decide) (by decide) (by decide) (by decide)
    (by decide) fun _ _ => lookup_final (js "!=") (by decide)

theorem lex_equals {rest : JsString} (hrest : ∀ ch ∈ rest.head?, ch ≠ unit '=') :
    lex (js "=" ++ rest) = (⟨.equalsToken, js "="⟩, rest) :=
  lex_symbol (by decide) (by decide) (by decide) fun ch hch hspecial =>
    lookup_finalUnlessEquals (js "=") (by decide) hspecial (hrest ch hch)

theorem lex_doesNotExist {rest : JsString} (hrest : ∀ ch ∈ rest.head?, ch ≠ unit '=') :
    lex (js "!" ++ rest) = (⟨.doesNotExistToken, js "!"⟩, rest) :=
  lex_symbol (by decide) (by decide) (by decide) fun ch hch hspecial =>
    lookup_finalUnlessEquals (js "!") (by decide) hspecial (hrest ch hch)

theorem scanned_word {w : JsString} {cs : List Chunk} {tail : JsString} (hne : w ≠ [])
    (hw : ∀ u ∈ w, wordUnit u = true) (hrest : Delimits (textOf cs ++ tail))
    (h : Scanned cs tail) : Scanned (wordChunk w :: cs) tail := by
  refine ⟨⟨?_, lex_word hne hw hrest⟩, h⟩
  show (wordItem w).tok ≠ .endOfStringToken
  intro hend
  have hvalues := wordItem_values hw
  rw [hend] at hvalues
  contradiction

theorem scanned_value {v tail : JsString} (hv : ∀ u ∈ v, wordUnit u = true)
    (htail : Follows tail) : Scanned (valueChunks v) tail := by
  unfold valueChunks
  split
  case isTrue => trivial
  case isFalse hne => exact scanned_word hne hv htail.delimits trivial

/-- What is scanned before a comma or a parenthesis is scanned with commas between. -/
theorem scanned_intercalate {ls : List (List Chunk)}
    (h : ∀ l ∈ ls, ∀ tail, Follows tail → Scanned l tail) {tail : JsString}
    (htail : Follows tail) : Scanned ([commaChunk].intercalate ls) tail := by
  induction ls with
  | nil => trivial
  | cons l ls ih =>
      have hrest := ih fun l hl => h l (List.mem_cons_of_mem _ hl)
      cases ls with
      | nil => simpa using h l List.mem_cons_self tail htail
      | cons l' ls =>
          rw [List.intercalate_cons_cons, List.append_assoc, scanned_append]
          refine ⟨h l List.mem_cons_self _ (follows_comma _), ?_⟩
          exact scanned_append.2 ⟨scanned_symbol (by decide) (lex_comma _) trivial, hrest⟩

theorem delimits_symbol {text : JsString} (h : text.head?.any isSpecialSymbol = true)
    (rest : JsString) : Delimits (text ++ rest) := by
  cases text with
  | nil => contradiction
  | cons u text =>
      intro ch hch
      obtain rfl := Option.some.inj hch
      exact .inl h

theorem delimits_blank (rest : JsString) : Delimits (js " " ++ rest) := by
  intro ch hch
  obtain rfl := Option.some.inj hch
  exact .inr (by decide)

theorem all_wordUnit {w : JsString} (h : w.all wordUnit = true) : ∀ u ∈ w, wordUnit u = true :=
  List.all_eq_true.1 h

/-- A key, an operator of symbols, and a value. -/
theorem scanned_exact {tok : Token} {text : JsString} {r : Requirement} {tail : JsString}
    (hkey : r.key ≠ [] ∧ ∀ u ∈ r.key, wordUnit u = true)
    (hvalue : ∀ u ∈ r.firstValue, wordUnit u = true)
    (htok : tok ≠ .endOfStringToken) (hdelimits : ∀ rest, Delimits (text ++ rest))
    (hlex : ∀ rest : JsString, (∀ ch ∈ rest.head?, ch ≠ unit '=') →
      lex (text ++ rest) = (⟨tok, text⟩, rest))
    (htail : Follows tail) : Scanned (exactChunks tok text r) tail := by
  refine scanned_word hkey.1 hkey.2 ?_ (scanned_symbol htok ?_ (scanned_value hvalue htail))
  · rw [textOf_cons, List.append_assoc]
    exact hdelimits _
  · rw [textOf_valueChunks]
    exact hlex _ (ne_equals_of_word hvalue htail)

theorem scanned_blankBefore {c : Chunk} {cs : List Chunk} {tail : JsString}
    (h : Scanned (c :: cs) tail) : Scanned (blankBefore c :: cs) tail := by
  obtain ⟨⟨hend, hlex⟩, hrest⟩ := h
  refine ⟨⟨hend, ?_⟩, hrest⟩
  show lex ((js " " ++ c.text) ++ (textOf cs ++ tail)) = _
  rw [List.append_assoc, lex_blank, hlex]
  rfl

theorem scanned_listChunks {vals : List JsString} {tail : JsString}
    (hvals : ∀ v ∈ vals, ∀ u ∈ v, wordUnit u = true) (htail : Follows tail) :
    Scanned (listChunks vals) tail := by
  refine scanned_intercalate (fun l hl tail htail => ?_) htail
  obtain ⟨v, hv, rfl⟩ := List.mem_map.1 hl
  exact scanned_value (hvals v hv) htail

/-- Every chunk of an accepted requirement is scanned to its item. -/
theorem scanned_requirement {r : Requirement} (h : r.Valid) {tail : JsString}
    (htail : Follows tail) : Scanned r.chunks tail := by
  have hkey := word_of_isLabelKey h.key
  have hvals : ∀ v ∈ r.strValues, ∀ u ∈ v, wordUnit u = true :=
    fun v hv => word_of_isLabelValue (h.values v hv)
  have hfirst : ∀ u ∈ r.firstValue, wordUnit u = true := by
    unfold Requirement.firstValue
    cases hcase : r.strValues with
    | nil => simp
    | cons v vs => exact hvals v (by simp [hcase])
  unfold Requirement.chunks
  split
  case h_1 =>
    refine scanned_symbol (by decide) (lex_doesNotExist ?_) (scanned_word hkey.1 hkey.2
      htail.delimits trivial)
    simpa [wordChunk] using ne_equals_of_word hkey.2 htail
  case h_2 => exact scanned_word hkey.1 hkey.2 htail.delimits trivial
  case h_3 =>
    exact scanned_exact hkey hfirst (by decide) (delimits_symbol (by decide))
      (fun _ => lex_equals) htail
  case h_4 =>
    exact scanned_exact hkey hfirst (by decide) (delimits_symbol (by decide))
      (fun rest _ => lex_doubleEquals rest) htail
  case h_5 =>
    exact scanned_exact hkey hfirst (by decide) (delimits_symbol (by decide))
      (fun rest _ => lex_notEquals rest) htail
  case h_8 =>
    exact scanned_exact hkey hfirst (by decide) (delimits_symbol (by decide))
      (fun rest _ => lex_greaterThan rest) htail
  case h_9 =>
    exact scanned_exact hkey hfirst (by decide) (delimits_symbol (by decide))
      (fun rest _ => lex_lessThan rest) htail
  all_goals
    rename_i hop
    rw [hop]
    refine scanned_word hkey.1 hkey.2 (delimits_blank _) <| scanned_blankBefore <|
      scanned_word (by decide) (all_wordUnit (by decide)) (delimits_blank _) <|
      scanned_blankBefore <| scanned_symbol (by decide) (lex_openPar _) <|
      scanned_append.2 ⟨?_, scanned_symbol (by decide) (lex_closedPar _) trivial⟩
    exact scanned_listChunks (fun v hv => hvals v ((sortStrings_perm _).mem_iff.1 hv))
      (follows_close _)

/-- A printed selector is scanned to the items of its requirements. -/
theorem scan_string {selector : Selector} (h : ∀ r ∈ selector, r.Valid) :
    scan selector.string = selector.chunks.map Chunk.item ++ [⟨.endOfStringToken, []⟩] := by
  have hscanned : Scanned selector.chunks [] := by
    refine scanned_intercalate (fun l hl tail htail => ?_) follows_nil
    obtain ⟨r, hr, rfl⟩ := List.mem_map.1 hl
    exact scanned_requirement (h r hr) htail
  have hscan := scan_chunks hscanned
  rwa [List.append_nil, textOf_selector, scan_nil] at hscan

end Webernetes.Apimachinery
