import Bnf.Proofs.Boundaries
import Bnf.Token.Lexer

/-!
# Cutting a text into tokens by offsets

The readers of tokens once more. These do not pass on what is left of a text, but only the offset at
which they are, as a 32-bit number, and look at the bytes from there on whenever they need a
character. Each may fail a check: if it is to look at the text from an offset that is not between
two characters or that is past the end, if an offset gets too large, if a loop does not go on, if
what is cut out of the text starts or stops inside a character, and if a range or a set is made that
may not be.

## Main definitions

- `Checked` — a result or an error, or nothing at all if a check has failed
- `next?` — the character at an offset, and the offset behind it
- `ByOffset.tokenize` — the tokens of a text

## Design notes

What a numeric escape stands for is computed with 32-bit numbers too, by shifts, so that digits
would be lost if there could be too many of them.
-/

namespace Bnf

/-- A result or an error. There is neither if a check has failed. -/
abbrev Checked :=
  ExceptT ParseError Option

/-- A check that is passed. -/
@[simp] theorem Checked.liftM_some_bind {α β : Type} (a : α) (f : α → Checked β) :
    ((liftM (some a) : Checked α) >>= f) = f a :=
  rfl

/-- A part that is known to succeed can be taken out. -/
theorem Checked.bind_of_eq_ok {α β : Type} {first : Checked α} {a : α} {second : α → Checked β}
    (h : first = some (.ok a)) : (first >>= second) = second a := by
  rw [h]
  rfl

/-- What is left of a text behind a number of bytes, if these are whole characters. -/
def dropBytes? : Nat → List Char → Option (List Char)
  | 0, cs => some cs
  | _ + 1, [] => none
  | n + 1, c :: cs => if c.utf8Size ≤ n + 1 then dropBytes? (n + 1 - c.utf8Size) cs else none

/-- The character at an offset and the offset behind it, or that the text ends there. -/
def next? (source : String) (offset : Nat) : Option (Option (Char × Nat)) :=
  match dropBytes? offset source.toList with
  | none => none
  | some [] => some none
  | some (c :: _) =>
    if offset + c.utf8Size < offsetBound then some (some (c, offset + c.utf8Size)) else none

/-- A character takes up at least a byte, and ends where offsets can still be counted. This is why
    reading by offsets ends. -/
theorem next?_lt {source : String} {offset after : Nat} {c : Char}
    (h : next? source offset = some (some (c, after))) : offset < after ∧ after < offsetBound := by
  rw [next?] at h
  split at h
  · simp at h
  · simp at h
  · split at h
    · next hbound =>
      cases h
      exact ⟨Nat.lt_add_of_pos_right c.utf8Size_pos, hbound⟩
    · simp at h

/-- A range of characters, whose ends must be in order. -/
def CharRange.ofEnds? (start stop : Char) : Option CharRange :=
  if start ≤ stop then some ⟨start, stop⟩ else none

namespace ByOffset

variable (source : String)

/-- The offset behind all characters from `offset` on that have a property. -/
def skipWhile (p : Char → Bool) (offset : Nat) : Checked Nat :=
  match h : next? source offset with
  | none => none
  | some none => return offset
  | some (some (c, after)) =>
    have := next?_lt h
    if p c then skipWhile p after else return offset
termination_by offsetBound - offset

/-! ## Escapes -/

/-- Reads the `more` remaining digits of the numeric escape with its backslash at `backslash`. -/
def readHexEscape (backslash digits : Nat) :
    (more : Nat) → (value : UInt32) → (offset : Nat) → Checked (Char × Nat)
  | 0, value, offset =>
    if value.toNat.isValidChar then return (Char.ofNat value.toNat, offset)
    else throw (lexicalError (.invalidCodePoint value.toNat) backslash)
  | more + 1, value, offset => do
    match ← next? source offset with
    | none => throw (lexicalError (.shortHexEscape digits) backslash)
    | some (c, after) =>
      match hexDigit? c with
      | some digit => readHexEscape backslash digits more (value <<< 4 ||| .ofNat digit) after
      | none => throw (lexicalError (.shortHexEscape digits) backslash)

/-- Reads what follows the backslash at `backslash`. -/
def readEscape (quoting : Quoting) (backslash offset : Nat) : Checked (Char × Nat) := do
  match ← next? source offset with
  | none => throw (lexicalError .unterminatedEscape backslash)
  | some (c, after) =>
    match shortEscape? quoting c with
    | some escaped => return (escaped, after)
    | none =>
      match hexLength? c with
      | some digits => readHexEscape source backslash digits digits 0 after
      | none => throw (lexicalError (.unknownEscape c) backslash)

/-! ## Literals and classes -/

/-- Reads the characters of a literal that was opened at `start`, and its closing quote. -/
def readLiteral (start offset : Nat) : Checked (List Char × Nat) :=
  match h : next? source offset with
  | none => none
  | some none => throw (lexicalError .unterminatedLiteral start)
  | some (some (c, after)) => do
    have := next?_lt h
    if c = '"' then return ([], after)
    else if c = '\\' then
      let (escaped, rest) ← readEscape source .literal offset after
      if _ : after < rest then
        let (chars, stop) ← readLiteral start rest
        return (escaped :: chars, stop)
      else none
    else
      let (chars, stop) ← readLiteral start after
      return (c :: chars, stop)
termination_by offsetBound - offset

section

variable {source : String} {start offset after : Nat} {c : Char}

/-- A literal is not over at the end of the text. -/
theorem readLiteral_end (h : next? source offset = some none) :
    readLiteral source start offset = throw (lexicalError .unterminatedLiteral start) := by
  rw [readLiteral]
  split <;> simp_all

/-- One character of a literal. The check that reading goes on behind it always passes, and is there
    for termination only. -/
theorem readLiteral_next (h : next? source offset = some (some (c, after))) :
    readLiteral source start offset = (do
      if c = '"' then return ([], after)
      else if c = '\\' then
        let (escaped, rest) ← readEscape source .literal offset after
        if after < rest then
          let (chars, stop) ← readLiteral source start rest
          return (escaped :: chars, stop)
        else none
      else
        let (chars, stop) ← readLiteral source start after
        return (c :: chars, stop)) := by
  rw [readLiteral]
  split
  · simp_all
  · simp_all
  · next hnext =>
    cases h.symm.trans hnext
    rfl

end

/-- Reads a character of the class that was opened at `start`. -/
def readClassChar (start offset : Nat) : Checked (Char × Nat) := do
  match ← next? source offset with
  | none => throw (lexicalError .unterminatedClass start)
  | some (c, after) =>
    if c = '\\' then readEscape source .bracketed offset after else return (c, after)

/-- Reads what follows the first character of a range at `item`. -/
def readRangeEnd (start item : Nat) (first : Char) (offset : Nat) : Checked (CharRange × Nat) := do
  match ← next? source offset with
  | some ('-', second) =>
    match ← next? source second with
    | none => return (.single first, offset)
    | some (c, _) =>
      if c = ']' then return (.single first, offset)
      else
        let (last, stop) ← readClassChar source start second
        if last < first then throw (lexicalError (.invertedRange first last) item)
        else return (← CharRange.ofEnds? first last, stop)
  | _ => return (.single first, offset)

/-- Reads a character or a range of the class that was opened at `start`. -/
def readRange (start offset : Nat) : Checked (CharRange × Nat) := do
  let (first, after) ← readClassChar source start offset
  readRangeEnd source start offset first after

/-- Reads the ranges of a class that was opened at `start`, and its closing bracket. -/
def readRanges (start offset : Nat) : Checked (List CharRange × Nat) :=
  match h : next? source offset with
  | none => none
  | some none => throw (lexicalError .unterminatedClass start)
  | some (some (c, after)) => do
    have := next?_lt h
    if c = ']' then return ([], after)
    else
      let (range, rest) ← readRange source start offset
      if _ : offset < rest then
        let (ranges, stop) ← readRanges start rest
        return (range :: ranges, stop)
      else none
termination_by offsetBound - offset

section

variable {source : String} {start offset after : Nat} {c : Char}

/-- Nor is a class. -/
theorem readRanges_end (h : next? source offset = some none) :
    readRanges source start offset = throw (lexicalError .unterminatedClass start) := by
  rw [readRanges]
  split <;> simp_all

/-- One range of a class. -/
theorem readRanges_next (h : next? source offset = some (some (c, after))) :
    readRanges source start offset = (do
      if c = ']' then return ([], after)
      else
        let (range, rest) ← readRange source start offset
        if offset < rest then
          let (ranges, stop) ← readRanges source start rest
          return (range :: ranges, stop)
        else none) := by
  rw [readRanges]
  split
  · simp_all
  · simp_all
  · next hnext =>
    cases h.symm.trans hnext
    rfl

end

/-- Reads what follows the opening bracket of a class, and the caret if there is one. -/
def readClassBody (start : Nat) (negated : Bool) (offset : Nat) : Checked (CharSet × Nat) := do
  let (ranges, stop) ← readRanges source start offset
  if ranges.isEmpty then throw (lexicalError .emptyClass start)
  else return (← CharSet.ofRanges? negated ranges, stop)

/-- Reads a class that was opened at `start`, from behind the bracket on. -/
def readClass (start offset : Nat) : Checked (CharSet × Nat) := do
  match ← next? source offset with
  | some ('^', after) => readClassBody source start true after
  | _ => readClassBody source start false offset

/-! ## Counts -/

/-- Reads a count of the repetition that was opened at `start`, if a digit comes next. -/
def readCount (start offset : Nat) : Checked (Option Nat × Nat) := do
  let stop ← skipWhile source Char.isDigit offset
  if stop ≤ offset then return (none, stop)
  else
    let digits ← Span.slice? ⟨offset, stop⟩ source
    let value := decimalValue digits.toList
    if maxCount < value then throw (lexicalError .malformedRepetition start)
    else return (some value, stop)

/-- Goes on behind a character, if it comes next. -/
def consume (c : Char) (offset : Nat) : Checked (Bool × Nat) := do
  match ← next? source offset with
  | some (d, after) => if d = c then return (true, after) else return (false, offset)
  | none => return (false, offset)

/-- Reads the greatest count of the repetition that was opened at `start`. Without a comma it is the
    least count, if there is one. -/
def readMax (start : Nat) (min : Option Nat) (offset : Nat) : Checked (Option Nat × Nat) := do
  let (comma, offset) ← consume source ',' offset
  if comma then readCount source start (← skipWhile source isBlank offset)
  else return (min, offset)

/-- Reads the closing brace of the repetition that was opened at `start`. -/
def readClose (start : Nat) (min max : Option Nat) (offset : Nat) : Checked (Bounds × Nat) := do
  let (closed, offset) ← consume source '\x7d' offset
  match min, closed with
  | some min, true => return (⟨min, max⟩, offset)
  | _, _ => throw (lexicalError .malformedRepetition start)

/-- Reads the bounds of the repetition that was opened at `start`, and the closing brace. -/
def readBounds (start offset : Nat) : Checked (Bounds × Nat) := do
  let (min, offset) ← readCount source start (← skipWhile source isBlank offset)
  let (max, offset) ← readMax source start min (← skipWhile source isBlank offset)
  readClose source start min max (← skipWhile source isBlank offset)

/-! ## Tokens -/

/-- Reads the token whose first character is `c` at `start`. The text goes on at `offset`. -/
def readToken (start : Nat) (c : Char) (offset : Nat) : Checked (TokenKind × Nat) := do
  match c with
  | '\n' => return (.newline, offset)
  | '\r' =>
    let (_, stop) ← consume source '\n' offset
    return (.newline, stop)
  | '|' => return (.bar, offset)
  | '(' => return (.openParen, offset)
  | ')' => return (.closeParen, offset)
  | '?' => return (.question, offset)
  | '*' => return (.star, offset)
  | '+' => return (.plus, offset)
  | '.' => return (.any, offset)
  | ':' =>
    let (colon, middle) ← consume source ':' offset
    let (equals, stop) ← consume source '=' middle
    if colon && equals then return (.define, stop)
    else throw (lexicalError (.unexpectedCharacter c) start)
  | '"' =>
    let (chars, stop) ← readLiteral source start offset
    return (.literal chars, stop)
  | '[' =>
    let (set, stop) ← readClass source start offset
    return (.set set, stop)
  | '\x7b' =>
    let (bounds, stop) ← readBounds source start offset
    return (.counts bounds, stop)
  | c =>
    if isNameChar c then
      let stop ← skipWhile source isNameChar offset
      let name ← Span.slice? ⟨start, stop⟩ source
      return (.name name, stop)
    else throw (lexicalError (.unexpectedCharacter c) start)

/-- The offset behind all blanks and comments. -/
def skipTrivia (offset : Nat) : Checked Nat := do
  let hash ← skipWhile source isBlank offset
  match h : next? source hash with
  | some (some ('#', after)) =>
    have := next?_lt h
    let stop ← skipWhile source (fun c => !isLineBreak c) after
    if _ : offset ≤ hash ∧ after ≤ stop then skipTrivia stop else none
  | none => none
  | _ => return hash
termination_by offsetBound - offset

section

variable {source : String} {offset hash after : Nat}

/-- Behind blanks a comment is passed over, and then more of the same. -/
theorem skipTrivia_comment (hskip : skipWhile source isBlank offset = some (.ok hash))
    (h : next? source hash = some (some ('#', after))) :
    skipTrivia source offset = (do
      let stop ← skipWhile source (fun c => !isLineBreak c) after
      if offset ≤ hash ∧ after ≤ stop then skipTrivia source stop else none) := by
  rw [skipTrivia, Checked.bind_of_eq_ok hskip]
  split
  · next hnext =>
    cases h.symm.trans hnext
    rfl
  · simp_all
  · next hother _ => exact absurd h (hother after)

/-- Anything else is the next token, or the end. -/
theorem skipTrivia_end {found : Option (Char × Nat)}
    (hskip : skipWhile source isBlank offset = some (.ok hash))
    (h : next? source hash = some found) (hother : ∀ after, found ≠ some ('#', after)) :
    skipTrivia source offset = some (.ok hash) := by
  rw [skipTrivia, Checked.bind_of_eq_ok hskip]
  split
  · next after hnext => exact absurd (Option.some.inj (h.symm.trans hnext)) (hother after)
  · simp_all
  · rfl

end

/-- The tokens of the text from an offset on. -/
def readTokens (offset : Nat) : Checked (List Token) := do
  let start ← skipTrivia source offset
  match h : next? source start with
  | none => none
  | some none => return []
  | some (some (c, after)) =>
    have := next?_lt h
    let (kind, stop) ← readToken source start c after
    if _ : offset ≤ start ∧ after ≤ stop then
      let tokens ← readTokens stop
      return ⟨kind, ⟨start, stop⟩⟩ :: tokens
    else none
termination_by offsetBound - offset

section

variable {source : String} {offset start after : Nat} {c : Char}

end

/-- **The tokens of a text**, found by offsets. A text with more bytes than there are offsets is not
    looked at. -/
def tokenize : Checked (List Token) :=
  if source.utf8ByteSize < offsetBound then readTokens source 0
  else throw (lexicalError (.sourceTooLarge source.utf8ByteSize) 0)

end ByOffset

end Bnf
