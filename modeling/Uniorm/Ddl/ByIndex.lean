import Uniorm.Ddl.Endings
import Uniorm.Foundation.Indexed

/-! # The scanner by position

The functions of the scanner as they are written: over a text that is read by
index, and a place in it with the number of its line. Each is a walk that does
what the scan of its name does.
-/
namespace Uniorm.Ddl.ByIndex

open Foundation Foundation.Walk Sql Builder

variable [Dangling]

abbrev Moving := Walk Text

def advanceTo (stop : ℕ) : Moving Unit :=
  loop (fun _ => do
    let s ← spot
    let n ← size
    if s.offset < stop ∧ s.offset < n then
      advance 1
      pure (.inl ())
    else pure (.inr ())) ()

def lineComment : Moving Bool := do
  let ch ← current
  if ch = '#' then pure true else andAhead (ch == '-') 1 (· == '-')

def blockComment : Moving Bool := do
  let ch ← current
  andAhead (ch == '/') 1 (· == '*')

/-- Over a character of which no line is counted. -/
def pass : Moving Unit := do
  let s ← spot
  moveTo { s with offset := s.offset + 1 }

def skipLine : Moving Unit :=
  loop (fun _ => do
    let more ← holdsAhead 0 (· != '\n')
    if more then
      pass
      pure (.inl ())
    else pure (.inr ())) ()

def blockRound (start : ℕ) (_ : Unit) : Moving (Unit ⊕ Unit) := do
  let ended ← atEnd
  if ended then throwAt start "unterminated block comment".toList
  else
    let ch ← current
    let closes ← andAhead (ch == '*') 1 (· == '/')
    if closes then
      advance 2
      pure (.inr ())
    else
      advance 1
      pure (.inl ())

def skipBlock : Moving Unit := do
  let start ← spot
  advance 2
  loop (blockRound start.line) ()

def skipBlanks : Moving Unit :=
  loop (fun _ => do
    let ended ← atEnd
    if ended then pure (.inr ())
    else
      let ch ← current
      if isSpace ch then
        advance 1
        pure (.inl ())
      else
        let line ← lineComment
        if line then
          skipLine
          pure (.inl ())
        else
          let block ← blockComment
          if block then
            skipBlock
            pure (.inl ())
          else pure (.inr ())) ()

def exhausted : Moving Bool := do
  skipBlanks
  atEnd

/-- From behind the opening tag to behind the closing one: `marker` is a view of the string that
`substr` gave, which is gone when the view is looked for. -/
def closeBody (tag : ℕ) : Moving Unit := do
  let s ← spot
  let marker ← substr s.offset (tag - s.offset + 1)
  let stop ← findGone marker (tag + 1)
  match stop with
  | none => throw "unterminated quoted body".toList
  | some stop => advanceTo (stop + marker.length)

def skipBody : Moving Unit := do
  let s ← spot
  let tag ← seekWhile isTagChar (s.offset + 1)
  let closed ← holdsAt tag (· == '$')
  if !closed then throw "'$' starts no quoted body".toList else closeBody tag

def quotedRound (quote : Char) (start : ℕ) (_ : Unit) : Moving (Unit ⊕ Unit) := do
  let ended ← atEnd
  if ended then throwAt start "unterminated quoted text".toList
  else
    let ch ← current
    if ch == '\\' && quote == '\'' then
      advance 2
      pure (.inl ())
    else if ch == quote then
      let doubled ← holdsAhead 1 (· == quote)
      if doubled then
        advance 2
        pure (.inl ())
      else
        advance 1
        pure (.inr ())
    else
      advance 1
      pure (.inl ())

def skipQuoted : Moving Unit := do
  let quote ← current
  if quote = '$' then skipBody
  else
    let start ← spot
    advance 1
    loop (quotedRound quote start.line) ()

def nameRound (quote : Char) (start : ℕ) (out : Text) : Moving (Text ⊕ Text) := do
  let ended ← atEnd
  if ended then throwAt start "unterminated quoted name".toList
  else
    let ch ← current
    if ch == quote then
      let doubled ← holdsAhead 1 (· == quote)
      if doubled then
        advance 2
        pure (.inl (out ++ [quote]))
      else
        advance 1
        pure (.inr out)
    else
      advance 1
      pure (.inl (out ++ [ch]))

def takeIdent : Moving Text := do
  let start ← spot
  advanceWhile identChar
  let stop ← spot
  substr start.offset (stop.offset - start.offset)

def here : Moving Text := do
  skipBlanks
  let ended ← atEnd
  if ended then pure "the end of the script".toList
  else
    let ch ← current
    if identStart ch then takeIdent
    else if ch = '\'' then
      let start ← spot
      skipQuoted
      let stop ← spot
      substr start.offset (stop.offset - start.offset)
    else
      advance 1
      pure [ch]

def peekIs (ch : Char) : Moving Bool := do
  skipBlanks
  holdsAhead 0 (· == ch)

def eat (ch : Char) : Moving Bool := do
  skipBlanks
  let there ← holdsAhead 0 (· == ch)
  if !there then pure false
  else
    advance 1
    pure true

def expected {α : Type} (what : Text) : Moving α := do
  let found ← here
  throw ("expected ".toList ++ what ++ ", found '".toList ++ found ++ ['\''])

def expect (ch : Char) : Moving Unit := do
  let there ← eat ch
  if !there then expected ['\'', ch, '\''] else pure ()

def goesOn : Text → ℕ → Moving Bool
  | [], _ => pure true
  | w :: word, index => do
    let ch ← charAt index
    if ch.toLower ≠ w.toLower then pure false else goesOn word (index + 1)

def peekKeyword (word : Text) : Moving Bool := do
  skipBlanks
  let s ← spot
  let n ← size
  if n < s.offset + word.length then pure false
  else
    let same ← goesOn word s.offset
    if !same then pure false
    else
      let more ← holdsAhead word.length identChar
      pure !more

def eatKeyword (word : Text) : Moving Bool := do
  let there ← peekKeyword word
  if !there then pure false
  else
    advance word.length
    pure true

def expectKeyword (word : Text) : Moving Unit := do
  let there ← eatKeyword word
  if !there then expected ('\'' :: word ++ ['\'']) else pure ()

def peekWord : Moving Text := do
  skipBlanks
  let starts ← holdsAhead 0 identStart
  if !starts then pure []
  else
    let s ← spot
    let stop ← seekWhile identChar s.offset
    substr s.offset (stop - s.offset)

def takeWord : Moving Unit := do
  let word ← peekWord
  advance word.length

def identifier : Moving Text := do
  skipBlanks
  let ended ← atEnd
  if ended then throw "expected a name, found the end of the script".toList
  else
    let quote ← current
    if isNameQuote quote then
      let start ← spot
      advance 1
      loop (nameRound quote start.line) []
    else if !identStart quote then expected "a name".toList
    else takeIdent

def eatOptionalName : Moving Bool := do
  skipBlanks
  let starts ← holdsAhead 0 identStart
  if starts then
    takeWord
    pure true
  else
    let quoted ← holdsAhead 0 isNameQuote
    if quoted then
      let _ ← identifier
      pure true
    else pure false

def qualified : Moving (List Text) := do
  let first ← identifier
  loop (fun parts => do
    let dot ← eat '.'
    if dot then
      let part ← identifier
      pure (.inl (parts ++ [part]))
    else pure (.inr parts)) [first]

def atItemEnd : Moving Bool := do
  skipBlanks
  let ended ← atEnd
  if ended then pure true
  else
    let ch ← current
    pure (ch == ',' || ch == ')' || ch == ';')

def itemRound (depth : ℕ) : Moving (ℕ ⊕ Unit) := do
  skipBlanks
  let ended ← atEnd
  if ended then pure (.inr ())
  else
    let ch ← current
    if ch == ';' || (depth = 0 && (ch == ',' || ch == ')')) then pure (.inr ())
    else if quoteStart ch then
      skipQuoted
      pure (.inl depth)
    else
      advance 1
      pure (.inl (if ch == '(' then depth + 1 else if ch == ')' then depth - 1 else depth))

def skipItem : Moving Unit := loop itemRound 0

def balancedRound (depth : ℕ) : Moving (ℕ ⊕ Option Unit) := do
  let ended ← atEnd
  if ended then pure (.inr none)
  else
    let ch ← current
    if quoteStart ch then
      skipQuoted
      pure (.inl depth)
    else if ch = '(' then
      advance 1
      pure (.inl (depth + 1))
    else if ch = ')' then
      advance 1
      if depth = 1 then pure (.inr (some ())) else pure (.inl (depth - 1))
    else
      let line ← lineComment
      if line then
        skipLine
        pure (.inl depth)
      else
        let block ← blockComment
        if block then
          skipBlock
          pure (.inl depth)
        else
          advance 1
          pure (.inl depth)

def skipBalanced : Moving Unit := do
  let start ← spot
  expect '('
  let closed ← loop balancedRound 1
  orThrowAt start.line "unterminated parenthesized list".toList closed

def endRound (d : Depth) : Moving (Depth ⊕ Unit) := do
  skipBlanks
  let ended ← atEnd
  if ended then pure (.inr ())
  else
    let ch ← current
    if ch = ';' then
      advance 1
      pure (if d = {} then .inr () else .inl d)
    else if quoteStart ch then
      skipQuoted
      pure (.inl d)
    else if identStart ch then
      let word ← peekWord
      advance word.length
      pure (.inl (d.word word))
    else
      advance 1
      pure (.inl (d.char ch))

def statementEnd : Moving Unit := loop endRound {}

def nameList : Moving (List Text) := do
  expect '('
  loop (fun names => do
    let closed ← eat ')'
    if closed then pure (.inr names)
    else
      let name ← identifier
      let more ← eat ','
      if more then pure (.inl (names ++ [name]))
      else
        expect ')'
        pure (.inr (names ++ [name]))) []

def indexColumns : Moving (List Text) := do
  expect '('
  loop (fun names => do
    let closed ← eat ')'
    if closed then pure (.inr names)
    else
      let name ← identifier
      skipItem
      let more ← eat ','
      if more then pure (.inl (names ++ [name]))
      else
        expect ')'
        pure (.inr (names ++ [name]))) []

def skipDots : Moving Unit :=
  loop (fun _ => do
    let before ← spot
    let dot ← eat '.'
    if dot then
      let _ ← identifier
      pure (.inl ())
    else
      moveTo before
      pure (.inr ())) ()

def valueHead : Moving Unit := do
  let ended ← atEnd
  if ended then throw "expected a value, found the end of the script".toList
  else
    let ch ← current
    if ch == '\'' || ch == '$' then skipQuoted
    else
      let signed ← andAhead (ch == '-' || ch == '+') 1 Char.isDigit
      if ch.isDigit || signed then
        advance 1
        advanceWhile isNumberChar
      else if ch = '(' then skipBalanced
      else if identStart ch then
        let _ ← identifier
        skipDots
      else expected "a value".toList

def valueTail : Moving Unit :=
  loop (fun _ => do
    let ended ← atEnd
    if ended then pure (.inr ())
    else
      let ch ← current
      if ch == '\'' || ch == '$' then
        skipQuoted
        pure (.inl ())
      else if ch = '(' then
        skipBalanced
        pure (.inl ())
      else
        let cast ← andAhead (ch == ':') 1 (· == ':')
        if cast then
          advance 2
          let _ ← identifier
          pure (.inl ())
        else pure (.inr ())) ()

/-- Every branch leaves the end of the value where the place is. -/
def value : Moving Text := do
  skipBlanks
  let start ← spot
  valueHead
  valueTail
  let stop ← spot
  substr start.offset (stop.offset - start.offset)

end Uniorm.Ddl.ByIndex
