import Uniorm.Builder.Dialect
import Uniorm.Foundation.Dangling
import Uniorm.Foundation.Scan

/-! # The scanner of a script

A reading is a scan whose failures carry a message. Each function takes from
the script what the function of its name takes; one that hunts for punctuation
is a loop over what may not be taken for it: blanks, comments, quoted runs.
-/
namespace Uniorm.Ddl

open Foundation Foundation.Scan Sql Builder

abbrev Reading := Scan Text

def identStart (c : Char) : Bool := c.isAlpha || c == '_'

def identChar (c : Char) : Bool := identStart c || c.isDigit || c == '$'

/-- Every skip that hunts for punctuation has to step over these. -/
def quoteStart (c : Char) : Bool := c == '\'' || c == '"' || c == '\x60' || c == '$'

def lineComment : Text → Bool
  | '#' :: _ => true
  | '-' :: '-' :: _ => true
  | _ => false

def blockComment : Text → Bool
  | '/' :: '*' :: _ => true
  | _ => false

def blockLength : Text → Option ℕ
  | [] => none
  | '*' :: '/' :: _ => some 2
  | _ :: cs => (blockLength cs).map (· + 1)

/-- The length of quoted text from behind its opening quote on. A backslash escapes in single
quotes only. -/
def quotedLength (quote : Char) : Text → Option ℕ
  | [] => none
  | [c] => if c == quote then some 1 else none
  | c :: d :: cs =>
    if c == '\\' && quote == '\'' then (quotedLength quote cs).map (· + 2)
    else if c == quote then
      if d == quote then (quotedLength quote cs).map (· + 2) else some 1
    else (quotedLength quote (d :: cs)).map (· + 1)

def quotedName (quote : Char) : Text → Option (Text × ℕ)
  | [] => none
  | [c] => if c == quote then some ([], 1) else none
  | c :: d :: cs =>
    if c == quote then
      if d == quote then (quotedName quote cs).map fun r => (quote :: r.1, r.2 + 2)
      else some ([], 1)
    else (quotedName quote (d :: cs)).map fun r => (c :: r.1, r.2 + 1)

def isTagChar (c : Char) : Bool := c.isAlphanum || c == '_'

variable [Dangling]

/-- The length of a body between two equal `$tag$` markers, from its first `$` on. The marker that
is looked for is a view of a string that is gone by then. -/
def dollarLength (text : Text) : Except Text ℕ :=
  let tag := text.tail.takeWhile isTagChar
  if (text.drop (tag.length + 1)).head? ≠ some '$' then .error "'$' starts no quoted body".toList
  else
    let marker := text.take (tag.length + 2)
    match Dangling.search marker (text.drop (tag.length + 2)) with
    | none => .error "unterminated quoted body".toList
    | some (body, _) => .ok (marker.length + body.length + marker.length)

def wordOf (text : Text) : Text :=
  if text.head?.any identStart then text.takeWhile identChar else []

def startsKeyword (word text : Text) : Bool :=
  word.length ≤ text.length && foldLower (text.take word.length) == foldLower word &&
    !(text.drop word.length).head?.any identChar

def skipLine : Reading Unit := do
  let text ← peek
  advance (text.takeWhile (· != '\n')).length

def skipBlock : Reading Unit := do
  let text ← peek
  match blockLength (text.drop 2) with
  | none => fail "unterminated block comment".toList
  | some n => advance (n + 2)

/-- What `skip_blanks` does at one place of the script. -/
def skipBlank (_ : Unit) : Reading (Unit ⊕ Unit) := do
  let text ← peek
  if text.head?.any isSpace then
    advance 1
    pure (.inl ())
  else if lineComment text then
    skipLine
    pure (.inl ())
  else if blockComment text then
    skipBlock
    pure (.inl ())
  else pure (.inr ())

def skipBlanks : Reading Unit := loop skipBlank ()

/-- To the end of the script, blanks and comments included. -/
def exhausted : Reading Bool := do
  skipBlanks
  let text ← peek
  pure text.isEmpty

def skipQuoted : Reading Unit := do
  let text ← peek
  if text.head? = some '$' then
    match dollarLength text with
    | .error message => fail message
    | .ok n => advance n
  else
    match text.head?.bind fun quote => quotedLength quote text.tail with
    | none => fail "unterminated quoted text".toList
    | some n => advance (n + 1)

/-- The token at the cursor, for a message. -/
def here : Reading Text := do
  skipBlanks
  let text ← peek
  if text = [] then pure "the end of the script".toList
  else if text.head?.any identStart then
    advance (wordOf text).length
    pure (wordOf text)
  else if text.head? = some '\'' then taken skipQuoted
  else
    advance 1
    pure (text.take 1)

def peekIs (ch : Char) : Reading Bool := do
  skipBlanks
  let text ← peek
  pure (text.head? == some ch)

def eat (ch : Char) : Reading Bool := do
  let there ← peekIs ch
  if there then advance 1
  pure there

def expected {α : Type} (what : Text) : Reading α := do
  let found ← here
  fail ("expected ".toList ++ what ++ ", found '".toList ++ found ++ ['\''])

def expect (ch : Char) : Reading Unit := do
  let there ← eat ch
  if !there then expected ['\'', ch, '\'']

def peekKeyword (word : Text) : Reading Bool := do
  skipBlanks
  let text ← peek
  pure (startsKeyword word text)

def eatKeyword (word : Text) : Reading Bool := do
  let there ← peekKeyword word
  if there then advance word.length
  pure there

def expectKeyword (word : Text) : Reading Unit := do
  let there ← eatKeyword word
  if !there then expected ('\'' :: word ++ ['\''])

def peekWord : Reading Text := do
  skipBlanks
  let text ← peek
  pure (wordOf text)

def takeWord : Reading Unit := do
  let word ← peekWord
  advance word.length

def eatKeywords : List Text → Reading Unit
  | [] => pure ()
  | word :: words => do
    let _ ← eatKeyword word
    eatKeywords words

/-- The first of some words that stands next, eaten. -/
def eatOneOf : List Text → Reading Bool
  | [] => pure false
  | word :: words => do
    let there ← eatKeyword word
    if there then pure true else eatOneOf words

def isNameQuote (c : Char) : Bool := c == '\x60' || c == '"'

def identifier : Reading Text := do
  skipBlanks
  let text ← peek
  if text = [] then fail "expected a name, found the end of the script".toList
  else if text.head?.any isNameQuote then
    match text.head?.bind fun quote => quotedName quote text.tail with
    | none => fail "unterminated quoted name".toList
    | some (name, n) => do
      advance (n + 1)
      pure name
  else if text.head?.any identStart then
    advance (wordOf text).length
    pure (wordOf text)
  else expected "a name".toList

def eatOptionalName : Reading Bool := do
  skipBlanks
  let text ← peek
  if text.head?.any identStart then
    takeWord
    pure true
  else if text.head?.any isNameQuote then
    let _ ← identifier
    pure true
  else pure false

def qualified : Reading (List Text) := do
  let first ← identifier
  loop (fun parts => do
    let dot ← eat '.'
    if dot then
      let part ← identifier
      pure (.inl (parts ++ [part]))
    else pure (.inr parts)) [first]

/-- The cursor sits on the `(`; the matching `)` goes with it. -/
def skipBalanced : Reading Unit :=
  demand (do
    expect '('
    loop (fun depth => do
      let text ← peek
      match text with
      | [] => pure (.inr none)
      | c :: _ =>
        if quoteStart c then
          skipQuoted
          pure (.inl depth)
        else if c == '(' then
          advance 1
          pure (.inl (depth + 1))
        else if c == ')' then
          advance 1
          if depth = 1 then pure (.inr (some ())) else pure (.inl (depth - 1))
        else if lineComment text then
          skipLine
          pure (.inl depth)
        else if blockComment text then
          skipBlock
          pure (.inl depth)
        else
          advance 1
          pure (.inl depth)) 1)
    "unterminated parenthesized list".toList

def atItemEnd : Reading Bool := do
  skipBlanks
  let text ← peek
  pure (text.head?.all fun c => c == ',' || c == ')' || c == ';')

def skipItem : Reading Unit :=
  loop (fun depth => do
    skipBlanks
    let text ← peek
    match text with
    | [] => pure (.inr ())
    | c :: _ =>
      if c == ';' || (depth = 0 && (c == ',' || c == ')')) then pure (.inr ())
      else if quoteStart c then
        skipQuoted
        pure (.inl depth)
      else
        advance 1
        pure (.inl (if c == '(' then depth + 1 else if c == ')' then depth - 1 else depth))) 0

/-- Where the end of a statement is looked for: in how many parentheses and in how many blocks. -/
structure Depth where
  parens : ℕ := 0
  blocks : ℕ := 0
  deriving DecidableEq, Repr

/-- A routine body closes its own statements with `;`, so the BEGIN ... END holding them is counted
alongside the parentheses. -/
def Depth.word (d : Depth) (word : Text) : Depth :=
  if foldLower word = "begin".toList then { d with blocks := d.blocks + 1 }
  else if foldLower word = "end".toList then { d with blocks := d.blocks - 1 }
  else d

def Depth.char (d : Depth) (c : Char) : Depth :=
  if c == '(' then { d with parens := d.parens + 1 }
  else if c == ')' then { d with parens := d.parens - 1 }
  else d

/-- What `statement_end` does with the token at the cursor. -/
def endAt (d : Depth) : Reading (Depth ⊕ Unit) := do
  let text ← peek
  match text with
  | [] => pure (.inr ())
  | c :: _ =>
    if c == ';' then
      advance 1
      pure (if d = {} then .inr () else .inl d)
    else if quoteStart c then
      skipQuoted
      pure (.inl d)
    else if identStart c then
      advance (wordOf text).length
      pure (.inl (d.word (wordOf text)))
    else
      advance 1
      pure (.inl (d.char c))

def endStep (d : Depth) : Reading (Depth ⊕ Unit) := do
  skipBlanks
  endAt d

def statementEnd : Reading Unit := loop endStep {}

def nameList : Reading (List Text) := do
  expect '('
  loop (fun names => do
    let closed ← eat ')'
    if closed then pure (.inr names)
    else
      let name ← identifier
      let more ← eat ','
      if more then pure (.inl (names ++ [name]))
      else
        expect ')'
        pure (.inr (names ++ [name]))) []

/-- A term can carry a prefix length, an operator class or a direction after the column; the name
is all an index comment reports. -/
def indexColumns : Reading (List Text) := do
  expect '('
  loop (fun names => do
    let closed ← eat ')'
    if closed then pure (.inr names)
    else
      let name ← identifier
      skipItem
      let more ← eat ','
      if more then pure (.inl (names ++ [name]))
      else
        expect ')'
        pure (.inr (names ++ [name]))) []

def isNumberChar (c : Char) : Bool := c.isDigit || c == '.' || c == 'x' || c == 'X'

/-- The dot has to follow the name at once for what stands behind it to go with it. -/
def skipDots : Reading Unit :=
  loop (fun _ => do
    let dot ← ahead (eat '.')
    if dot then
      let _ ← eat '.'
      let _ ← identifier
      pure (.inl ())
    else pure (.inr ())) ()

/-- A literal, a number, or a name with a qualification. -/
def valueHead : Reading Unit := do
  let text ← peek
  match text with
  | [] => fail "expected a value, found the end of the script".toList
  | c :: cs =>
    if c == '\'' || c == '$' then skipQuoted
    else if c.isDigit || ((c == '-' || c == '+') && cs.head?.any Char.isDigit) then
      advance ((cs.takeWhile isNumberChar).length + 1)
    else if c == '(' then skipBalanced
    else if identStart c then do
      let _ ← identifier
      skipDots
    else expected "a value".toList

/-- The call parentheses, the cast and the literal of a bit or hex prefix. -/
def valueTail : Reading Unit :=
  loop (fun _ => do
    let text ← peek
    match text with
    | ':' :: ':' :: _ =>
      advance 2
      let _ ← identifier
      pure (.inl ())
    | c :: _ =>
      if c == '\'' || c == '$' then
        skipQuoted
        pure (.inl ())
      else if c == '(' then
        skipBalanced
        pure (.inl ())
      else pure (.inr ())
    | [] => pure (.inr ())) ()

/-- One value as the script spells it. -/
def value : Reading Text := do
  skipBlanks
  taken (do
    valueHead
    valueTail)

end Uniorm.Ddl
