/-
Webernetes.Apimachinery.LabelsParser — the lexer and the parser of label
selectors.

The lexer reads the text that is left: `read` takes its first unit and
`unread` leaves it there. The parser reads the items that are left, and
past the last one every look answers the end of the string. Each function
answers what is left after it; after an error nothing reads on.
-/
import Webernetes.Apimachinery.Labels

namespace Webernetes.Apimachinery

open Js Go Etcd

/-! ## Lexer -/

inductive Token where
  | errorToken | endOfStringToken | closedParToken | commaToken | doesNotExistToken
  | doubleEqualsToken | equalsToken | greaterThanToken | identifierToken | inToken
  | lessThanToken | notEqualsToken | notInToken | openParToken
  deriving DecidableEq

structure ScannedItem where
  tok : Token
  literal : JsString
  deriving DecidableEq

def string2token : List (JsString × Token) :=
  [(js ")", .closedParToken), (js ",", .commaToken), (js "!", .doesNotExistToken),
    (js "==", .doubleEqualsToken), (js "=", .equalsToken), (js ">", .greaterThanToken),
    (js "in", .inToken), (js "<", .lessThanToken), (js "!=", .notEqualsToken),
    (js "notin", .notInToken), (js "(", .openParToken)]

def isWhitespace (ch : CodeUnit) : Bool :=
  decide (ch = unit ' ' ∨ ch = unit '\t' ∨ ch = unit '\r' ∨ ch = unit '\n')

def isSpecialSymbol (ch : CodeUnit) : Bool :=
  decide (ch = unit '=' ∨ ch = unit '!' ∨ ch = unit '(' ∨ ch = unit ')' ∨ ch = unit ','
    ∨ ch = unit '>' ∨ ch = unit '<')

def scanIDOrKeyword (buffer : JsString) : JsString → ScannedItem × JsString
  | [] => (⟨(string2token.lookup buffer).getD .identifierToken, buffer⟩, [])
  | ch :: rest =>
    if isSpecialSymbol ch || isWhitespace ch then
      (⟨(string2token.lookup buffer).getD .identifierToken, buffer⟩, ch :: rest)
    else scanIDOrKeyword (buffer ++ [ch]) rest

/-- What `scanSpecialSymbol` answers when it stops. -/
def scannedSymbol (lastScannedItem : ScannedItem) (buffer : JsString) : ScannedItem :=
  if lastScannedItem.tok = .errorToken then
    ⟨.errorToken, js "error expected: keyword found '" ++ buffer ++ js "'"⟩
  else lastScannedItem

def scanSpecialSymbol (lastScannedItem : ScannedItem) (buffer : JsString) :
    JsString → ScannedItem × JsString
  | [] => (scannedSymbol lastScannedItem buffer, [])
  | ch :: rest =>
    if isSpecialSymbol ch then
      match string2token.lookup (buffer ++ [ch]) with
      | some token => scanSpecialSymbol ⟨token, buffer ++ [ch]⟩ (buffer ++ [ch]) rest
      | none =>
        if lastScannedItem.tok ≠ .errorToken then
          (scannedSymbol lastScannedItem (buffer ++ [ch]), ch :: rest)
        else scanSpecialSymbol lastScannedItem (buffer ++ [ch]) rest
    else (scannedSymbol lastScannedItem buffer, ch :: rest)

def skipWhiteSpaces (s : JsString) : JsString := s.dropWhile isWhitespace

def lex (s : JsString) : ScannedItem × JsString :=
  match skipWhiteSpaces s with
  | [] => (⟨.endOfStringToken, []⟩, [])
  | ch :: rest =>
    if isSpecialSymbol ch then scanSpecialSymbol ⟨.errorToken, []⟩ [] (ch :: rest)
    else scanIDOrKeyword [] (ch :: rest)

theorem length_scanIDOrKeyword (buffer s : JsString) :
    (scanIDOrKeyword buffer s).2.length ≤ s.length := by
  induction s generalizing buffer with
  | nil => simp [scanIDOrKeyword]
  | cons ch rest ih =>
      have hrest := ih (buffer ++ [ch])
      unfold scanIDOrKeyword
      split <;> simp
      omega

theorem length_scanSpecialSymbol (last : ScannedItem) (buffer s : JsString) :
    (scanSpecialSymbol last buffer s).2.length ≤ s.length := by
  induction s generalizing last buffer with
  | nil => simp [scanSpecialSymbol]
  | cons ch rest ih =>
      have hrest := fun last => ih last (buffer ++ [ch])
      unfold scanSpecialSymbol
      split
      · split
        · exact Nat.le_succ_of_le (hrest _)
        · split
          · simp
          · exact Nat.le_succ_of_le (hrest _)
      · simp

/-- A special symbol is a token by itself, so the scan takes it. -/
theorem string2token_special {ch : CodeUnit} (h : isSpecialSymbol ch = true) :
    ∃ token, string2token.lookup [ch] = some token ∧ token ≠ .errorToken := by
  simp only [isSpecialSymbol, decide_eq_true_eq] at h
  rcases h with rfl | rfl | rfl | rfl | rfl | rfl | rfl <;> exact ⟨_, rfl, by decide⟩

/-- Every item but the end of the string takes a unit of the text. -/
theorem length_lex {s : JsString} (h : (lex s).1.tok ≠ .endOfStringToken) :
    (lex s).2.length < s.length := by
  have hskip : (skipWhiteSpaces s).length ≤ s.length :=
    (List.dropWhile_suffix isWhitespace).length_le
  unfold lex at h ⊢
  split
  case h_1 hs => simp [hs] at h
  case h_2 ch rest hs =>
    rw [hs, List.length_cons] at hskip
    split
    case isTrue hch =>
      obtain ⟨token, htoken, _⟩ := string2token_special hch
      have hlen := length_scanSpecialSymbol ⟨token, [ch]⟩ [ch] rest
      simp only [scanSpecialSymbol, hch, List.nil_append, htoken, if_true]
      omega
    case isFalse hch =>
      have hspace : isWhitespace ch = false := by
        have hhead := List.head?_dropWhile_not isWhitespace s
        rw [show s.dropWhile isWhitespace = ch :: rest from hs] at hhead
        simpa using hhead
      have hlen := length_scanIDOrKeyword [ch] rest
      simp only [scanIDOrKeyword, hch, hspace, Bool.or_self, List.nil_append]
      simp only [Bool.false_eq_true, if_false]
      omega

/-- The items of a text, the end of the string last. -/
def scan (s : JsString) : List ScannedItem :=
  if _hend : (lex s).1.tok = .endOfStringToken then [(lex s).1]
  else (lex s).1 :: scan (lex s).2
termination_by s.length
decreasing_by exact length_lex _hend

/-! ## Looking at the items -/

inductive ParserContext where
  | keyAndOperator | values
  deriving DecidableEq

/-- Among values the keywords are identifiers. -/
def Token.inContext : ParserContext → Token → Token
  | .values, .inToken => .identifierToken
  | .values, .notInToken => .identifierToken
  | _, tok => tok

def lookahead (context : ParserContext) : List ScannedItem → ScannedItem
  | [] => ⟨.endOfStringToken, []⟩
  | item :: _ => ⟨item.tok.inContext context, item.literal⟩

/-- What `consume` answers, and the items left. -/
structure Consumed where
  tok : Token
  literal : JsString
  rest : List ScannedItem

def consume (context : ParserContext) (items : List ScannedItem) : Consumed :=
  ⟨(lookahead context items).tok, (lookahead context items).literal, items.tail⟩

inductive SelectorError where
  | message (text : JsString)
  | field (err : FieldError)
  | aggregate (errs : List FieldError)
  | unableToParse (err : SelectorError)

def found (lit expected : JsString) : SelectorError :=
  .message (js "found '" ++ lit ++ js "'" ++ expected)

/-! ## Parser -/

/-- The key, after the `!` if there was one. -/
def parseKey (path : Path) (operator : Option Operator) (items : List ScannedItem) :
    Except SelectorError ((JsString × Option Operator) × List ScannedItem) :=
  let c := consume .values items
  if c.tok ≠ .identifierToken then .error (found c.literal (js ", expected: identifier"))
  else
    match validateLabelKey c.literal path with
    | some err => .error (.field err)
    | none =>
      let t := (lookahead .values c.rest).tok
      if (t = .endOfStringToken ∨ t = .commaToken) ∧ operator ≠ some .doesNotExist then
        .ok ((c.literal, some .exists_), c.rest)
      else .ok ((c.literal, operator), c.rest)

def parseKeyAndInferOperator (path : Path) (items : List ScannedItem) :
    Except SelectorError ((JsString × Option Operator) × List ScannedItem) :=
  let c := consume .values items
  if c.tok = .doesNotExistToken then parseKey path (some .doesNotExist) c.rest
  else parseKey path none items

def parseOperator (items : List ScannedItem) :
    Except SelectorError (Operator × List ScannedItem) :=
  let c := consume .keyAndOperator items
  match c.tok with
  | .inToken => .ok (.inOperator, c.rest)
  | .equalsToken => .ok (.equals, c.rest)
  | .doubleEqualsToken => .ok (.doubleEquals, c.rest)
  | .greaterThanToken => .ok (.greaterThan, c.rest)
  | .lessThanToken => .ok (.lessThan, c.rest)
  | .notInToken => .ok (.notIn, c.rest)
  | .notEqualsToken => .ok (.notEquals, c.rest)
  | _ => .error (found c.literal (js ", expected: "
      ++ (js ", ").intercalate (binaryOperators.map Operator.text)))

def parseIdentifiersList (s : StringSet) :
    List ScannedItem → Except SelectorError (StringSet × List ScannedItem)
  | [] => .error (found [] (js ", expected: ',', or identifier"))
  | item :: rest =>
    match item.tok.inContext .values with
    | .identifierToken =>
      let s := s.insert item.literal
      match (lookahead .values rest).tok with
      | .commaToken => parseIdentifiersList s rest
      | .closedParToken => .ok (s, rest)
      | _ => .error (found (lookahead .values rest).literal (js ", expected: ',' or ')'"))
    | .commaToken =>
      let s := if s.length = 0 then s.insert [] else s
      match (lookahead .values rest).tok with
      | .closedParToken => .ok (s.insert [], rest)
      | .commaToken => parseIdentifiersList (s.insert []) rest
      | _ => parseIdentifiersList s rest
    | _ => .error (found item.literal (js ", expected: ',', or identifier"))

/-- The list of values up to its closing parenthesis; `lit` is the item it starts with. -/
def parseListed (lit : JsString) (items : List ScannedItem) :
    Except SelectorError (StringSet × List ScannedItem) :=
  match parseIdentifiersList [] items with
  | .error err => .error err
  | .ok (s, rest) =>
    let c := consume .values rest
    if c.tok ≠ .closedParToken then .error (found lit (js ", expected: ')'"))
    else .ok (s, c.rest)

def parseValues (items : List ScannedItem) :
    Except SelectorError (StringSet × List ScannedItem) :=
  let c := consume .values items
  if c.tok ≠ .openParToken then .error (found c.literal (js " expected: '('"))
  else
    let next := lookahead .values c.rest
    match next.tok with
    | .identifierToken => parseListed next.literal c.rest
    | .commaToken => parseListed next.literal c.rest
    | .closedParToken => .ok (newString [[]], (consume .values c.rest).rest)
    | _ => .error (found next.literal (js ", expected: ',', ')' or identifier"))

def parseExactValue (items : List ScannedItem) :
    Except SelectorError (StringSet × List ScannedItem) :=
  let tok := (lookahead .values items).tok
  if tok = .endOfStringToken ∨ tok = .commaToken then .ok (newString [[]], items)
  else
    let c := consume .values items
    if c.tok = .identifierToken then .ok (newString [c.literal], c.rest)
    else .error (found c.literal (js ", expected: identifier"))

/-- The values as the operator takes them. -/
def parseOperands (op : Operator) (items : List ScannedItem) :
    Except SelectorError (StringSet × List ScannedItem) :=
  match op with
  | .inOperator | .notIn => parseValues items
  | _ => parseExactValue items

/-- `newRequirement` with its aggregate as the error. -/
def acceptRequirement (key : JsString) (op : Operator) (vals : List JsString) (path : Path) :
    Except SelectorError Requirement :=
  let made := newRequirement key op vals path
  if made.2 = [] then .ok made.1 else .error (.aggregate made.2)

def parseRequirement (path : Path) (items : List ScannedItem) :
    Except SelectorError (Requirement × List ScannedItem) :=
  match parseKeyAndInferOperator path items with
  | .error err => .error err
  | .ok ((key, some operator), rest) =>
    (acceptRequirement key operator [] path).map fun r => (r, rest)
  | .ok ((key, none), rest) =>
    match parseOperator rest with
    | .error err => .error err
    | .ok (op, rest) =>
      match parseOperands op rest with
      | .error err => .error err
      | .ok (values, rest) =>
        (acceptRequirement key op values.list path).map fun r => (r, rest)

/-! ## What is left shrinks -/

theorem length_parseKey {path : Path} {operator : Option Operator}
    {items rest : List ScannedItem} {found : JsString × Option Operator}
    (h : parseKey path operator items = .ok (found, rest)) : rest.length ≤ items.length := by
  dsimp only [parseKey, consume] at h
  have htail : items.tail.length ≤ items.length := by simp
  grind

theorem length_parseKeyAndInferOperator {path : Path} {items rest : List ScannedItem}
    {found : JsString × Option Operator}
    (h : parseKeyAndInferOperator path items = .ok (found, rest)) :
    rest.length ≤ items.length := by
  dsimp only [parseKeyAndInferOperator, consume] at h
  have htail : items.tail.length ≤ items.length := by simp
  have hafter := fun {operator} (h : parseKey path operator items.tail = .ok (found, rest)) =>
    Nat.le_trans (length_parseKey h) htail
  have hfirst := fun {operator} (h : parseKey path operator items = .ok (found, rest)) =>
    length_parseKey h
  grind

theorem length_parseOperator {items rest : List ScannedItem} {op : Operator}
    (h : parseOperator items = .ok (op, rest)) : rest.length ≤ items.length := by
  dsimp only [parseOperator, consume] at h
  split at h
  case h_8 => contradiction
  all_goals
    simp only [Except.ok.injEq, Prod.mk.injEq] at h
    simp [← h.2]

theorem length_parseIdentifiersList {items rest : List ScannedItem} {s values : StringSet}
    (h : parseIdentifiersList s items = .ok (values, rest)) : rest.length ≤ items.length := by
  induction items generalizing s with
  | nil => simp [parseIdentifiersList] at h
  | cons item items ih =>
      have hdone : items.length ≤ (item :: items).length := by simp
      have hloop := fun {s} (h : parseIdentifiersList s items = .ok (values, rest)) =>
        Nat.le_trans (ih h) hdone
      unfold parseIdentifiersList at h
      grind

theorem length_parseListed {lit : JsString} {items rest : List ScannedItem} {values : StringSet}
    (h : parseListed lit items = .ok (values, rest)) : rest.length ≤ items.length := by
  unfold parseListed at h
  split at h
  · contradiction
  · rename_i hlist
    have hle := length_parseIdentifiersList hlist
    dsimp only [consume] at h
    split at h
    · contradiction
    · simp only [Except.ok.injEq, Prod.mk.injEq] at h
      simp only [← h.2, List.length_tail]
      omega

theorem length_parseOperands {op : Operator} {items rest : List ScannedItem} {values : StringSet}
    (h : parseOperands op items = .ok (values, rest)) : rest.length ≤ items.length := by
  have hvalues : parseValues items = .ok (values, rest) → rest.length ≤ items.length := by
    intro h
    dsimp only [parseValues, consume] at h
    have htail : items.tail.length ≤ items.length := by simp
    have hlisted := fun {lit} (h : parseListed lit items.tail = .ok (values, rest)) =>
      Nat.le_trans (length_parseListed h) htail
    grind
  have hexact : parseExactValue items = .ok (values, rest) → rest.length ≤ items.length := by
    intro h
    dsimp only [parseExactValue, consume] at h
    grind
  cases op <;> first | exact hvalues h | exact hexact h

theorem acceptRequirement_rest {key : JsString} {op : Operator} {vals : List JsString}
    {path : Path} {r : Requirement} {rest rest' : List ScannedItem}
    (h : (acceptRequirement key op vals path).map (fun r => (r, rest')) = .ok (r, rest)) :
    acceptRequirement key op vals path = .ok r ∧ rest' = rest := by
  cases hr : acceptRequirement key op vals path <;> simp_all [Except.map]

theorem length_parseRequirement {path : Path} {items rest : List ScannedItem} {r : Requirement}
    (h : parseRequirement path items = .ok (r, rest)) : rest.length ≤ items.length := by
  unfold parseRequirement at h
  split at h
  · contradiction
  · rename_i hkey
    have hle := length_parseKeyAndInferOperator hkey
    rwa [(acceptRequirement_rest h).2] at hle
  · rename_i hkey
    have hkey := length_parseKeyAndInferOperator hkey
    split at h
    · contradiction
    · rename_i hop
      have hop := length_parseOperator hop
      split at h
      · contradiction
      · rename_i hvalues
        have hvalues := length_parseOperands hvalues
        rw [(acceptRequirement_rest h).2] at hvalues
        omega

/-! ## parse -/

def parseItems (path : Path) (items : List ScannedItem) :
    Except SelectorError (List Requirement) :=
  match _hnext : (lookahead .values items).tok with
  | .identifierToken | .doesNotExistToken =>
    match _hparsed : parseRequirement path items with
    | .error err => .error (.unableToParse err)
    | .ok (r, rest) =>
      let c := consume .values rest
      match c.tok with
      | .endOfStringToken => .ok [r]
      | .commaToken =>
        let next := lookahead .values c.rest
        if next.tok ≠ .identifierToken ∧ next.tok ≠ .doesNotExistToken then
          .error (found next.literal (js ", expected: identifier after ','"))
        else (parseItems path c.rest).map (r :: ·)
      | _ => .error (found c.literal (js ", expected: ',' or 'end of string'"))
  | .endOfStringToken => .ok []
  | _ => .error (found (lookahead .values items).literal
      (js ", expected: !, identifier, or 'end of string'"))
termination_by items.length
decreasing_by
  all_goals
    have hle := length_parseRequirement _hparsed
    have hpos : 0 < items.length := by
      cases items with
      | nil => simp [lookahead] at _hnext
      | cons item items => simp
    show rest.tail.length < items.length
    rw [List.length_tail]
    omega

def parse (locale : Etcd.Locale) (selector : JsString) (path : Path) : Except SelectorError Selector :=
  (parseItems path (scan selector)).map (Selector.sortByKey locale)

end Webernetes.Apimachinery
