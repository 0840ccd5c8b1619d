import Bnf.Escape
import Bnf.Token

/-!
# Cutting a text into tokens

A text is read as a list of characters with their offsets. Every reader takes the characters that
are left and gives back what it read and what is left then, so that reading goes on until nothing
is left: a token takes one character at least. Spaces, tabs and comments separate tokens and are
passed over. A comment starts with `#` and ends before the next line break.

## Main definitions

- `readToken` — the token that starts with a given character
- `readTokens` — all tokens of the rest of a text
- `tokenize` — the tokens of a text

## Main results

- `readToken_length` — a token leaves no more text than there is after its first character
-/

namespace Bnf

/-- Characters that names are made of: ASCII letters and digits, the underscore and the hyphen. -/
def isNameChar (c : Char) : Bool :=
  c.isAlphanum || c = '_' || c = '-'

def isBlank (c : Char) : Bool :=
  c = ' ' || c = '\t'

def isLineBreak (c : Char) : Bool :=
  c = '\n' || c = '\r'

def skipBlanks (cs : List Located) : List Located :=
  cs.dropWhile fun (_, c) => isBlank c

/-- What is left of a line that ends in a comment: the line break and all that follows. -/
def skipComment (cs : List Located) : List Located :=
  cs.dropWhile fun (_, c) => !isLineBreak c

def lexicalError (fault : LexicalFault) (offset : Nat) : ParseError :=
  ⟨.lexical fault, offset⟩

/-- Gives the fault of an escape the offset of its backslash. -/
def readEscapeAt (quoting : Quoting) (offset : Nat) (cs : List Located) :
    Except ParseError (Char × List Located) :=
  match readEscape quoting cs with
  | .error fault => .error (lexicalError fault offset)
  | .ok found => .ok found

/-- An escape takes up a character at least. -/
theorem readEscapeAt_length {quoting : Quoting} {offset : Nat} {cs rest : List Located} {c : Char}
    (h : readEscapeAt quoting offset cs = .ok (c, rest)) : rest.length < cs.length := by
  unfold readEscapeAt at h
  split at h
  · simp at h
  · next found hread =>
    simp only [Except.ok.injEq] at h
    exact readEscape_length (h ▸ hread)

/-! ## Literals -/

/-- Reads the characters of a literal that was opened at `start`, and its closing quote. -/
def readLiteral (start : Nat) (cs : List Located) :
    Except ParseError (List Char × List Located) :=
  match cs with
  | [] => .error (lexicalError .unterminatedLiteral start)
  | (offset, c) :: cs =>
    if c = '"' then .ok ([], cs)
    else if c = '\\' then
      match h : readEscapeAt .literal offset cs with
      | .error e => .error e
      | .ok (escaped, rest) =>
        have := readEscapeAt_length h
        (readLiteral start rest).map fun (chars, rest) => (escaped :: chars, rest)
    else
      (readLiteral start cs).map fun (chars, rest) => (c :: chars, rest)
termination_by cs.length

/-! ## Character classes -/

/-- Reads a character of a class, of which `c` at `offset` is the first or only sign. -/
def readClassChar (offset : Nat) (c : Char) (cs : List Located) :
    Except ParseError (Char × List Located) :=
  if c = '\\' then readEscapeAt .bracketed offset cs else .ok (c, cs)

theorem readClassChar_length {offset : Nat} {c d : Char} {cs rest : List Located}
    (h : readClassChar offset c cs = .ok (d, rest)) : rest.length ≤ cs.length := by
  unfold readClassChar at h
  split at h
  · exact Nat.le_of_lt (readEscapeAt_length h)
  · simp_all

/-- Reads what follows the first character of a range at `offset`. A hyphen before the closing
    bracket or the end of the text makes no range. -/
def readRangeEnd (offset : Nat) (first : Char) (cs : List Located) :
    Except ParseError (CharRange × List Located) :=
  match cs with
  | (_, '-') :: (next, c) :: rest =>
    if c = ']' then .ok (.single first, cs)
    else
      match readClassChar next c rest with
      | .error e => .error e
      | .ok (last, rest) =>
        if last < first then .error (lexicalError (.invertedRange first last) offset)
        else .ok (⟨first, last⟩, rest)
  | _ => .ok (.single first, cs)

theorem readRangeEnd_length {offset : Nat} {first : Char} {cs rest : List Located} {r : CharRange}
    (h : readRangeEnd offset first cs = .ok (r, rest)) : rest.length ≤ cs.length := by
  unfold readRangeEnd at h
  split at h
  · next next c more =>
    split at h
    · simp only [Except.ok.injEq, Prod.mk.injEq] at h
      exact Nat.le_of_eq (by rw [h.2])
    · split at h
      · simp at h
      · next last left hlast =>
        have := readClassChar_length hlast
        split at h
        · simp at h
        · simp only [Except.ok.injEq, Prod.mk.injEq] at h
          rw [← h.2, List.length_cons, List.length_cons]
          omega
  · simp only [Except.ok.injEq, Prod.mk.injEq] at h
    exact Nat.le_of_eq (by rw [h.2])

/-- Reads a character or a range of a class, of which `c` at `offset` is the first sign. -/
def readRange (offset : Nat) (c : Char) (cs : List Located) :
    Except ParseError (CharRange × List Located) :=
  match readClassChar offset c cs with
  | .error e => .error e
  | .ok (first, rest) => readRangeEnd offset first rest

/-- A range takes up what its ends take up. -/
theorem readRange_length {offset : Nat} {c : Char} {cs rest : List Located} {r : CharRange}
    (h : readRange offset c cs = .ok (r, rest)) : rest.length ≤ cs.length := by
  unfold readRange at h
  split at h
  · simp at h
  · next hfirst => exact Nat.le_trans (readRangeEnd_length h) (readClassChar_length hfirst)

/-- Reads the ranges of a class that was opened at `start`, and its closing bracket. -/
def readRanges (start : Nat) (cs : List Located) :
    Except ParseError (List CharRange × List Located) :=
  match cs with
  | [] => .error (lexicalError .unterminatedClass start)
  | (offset, c) :: cs =>
    if c = ']' then .ok ([], cs)
    else
      match h : readRange offset c cs with
      | .error e => .error e
      | .ok (range, rest) =>
        have := readRange_length h
        (readRanges start rest).map fun (ranges, rest) => (range :: ranges, rest)
termination_by cs.length

/-- Reads what follows the opening bracket, and the caret if there is one, of a class that was
    opened at `start`. -/
def readClassBody (start : Nat) (negated : Bool) (cs : List Located) :
    Except ParseError (CharSet × List Located) :=
  match readRanges start cs with
  | .error e => .error e
  | .ok ([], _) => .error (lexicalError .emptyClass start)
  | .ok (ranges, rest) => .ok (⟨negated, ranges⟩, rest)

/-- Reads a class that was opened at `start`. A caret after the opening bracket negates it. -/
def readClass (start : Nat) (cs : List Located) : Except ParseError (CharSet × List Located) :=
  match cs with
  | (_, '^') :: rest => readClassBody start true rest
  | _ => readClassBody start false cs

/-! ## Counts -/

def maxCount : Nat :=
  4294967295

/-- Reads a count. There is none if no digit comes next, or if the number is too large. -/
def readCount? (cs : List Located) : Option (Nat × List Located) :=
  let digits := (cs.takeWhile fun (_, c) => c.isDigit).map (·.2)
  let value := decimalValue digits
  if digits.isEmpty || maxCount < value then none
  else some (value, cs.dropWhile fun (_, c) => c.isDigit)

/-- Reads the greatest count of a repetition with the least count `min`. Without a comma it is the
    same; after a comma it may be missing. -/
def readMax? (min : Nat) (cs : List Located) : Option (Option Nat × List Located) :=
  match cs with
  | (_, ',') :: rest =>
    if ((skipBlanks rest).head?.any fun (_, c) => c.isDigit) then
      (readCount? (skipBlanks rest)).map fun (max, rest) => (some max, rest)
    else some (none, skipBlanks rest)
  | _ => some (some min, cs)

/-- What is left after a closing brace, if one comes next. -/
def readCloseBrace? (cs : List Located) : Option (List Located) :=
  match cs with
  | (_, '\x7d') :: rest => some rest
  | _ => none

/-- Reads the bounds of a repetition and the closing brace. Blanks may stand around the counts. -/
def readBounds? (cs : List Located) : Option (Bounds × List Located) := do
  let (min, cs) ← readCount? (skipBlanks cs)
  let (max, cs) ← readMax? min (skipBlanks cs)
  let rest ← readCloseBrace? (skipBlanks cs)
  return (⟨min, max⟩, rest)

/-! ## Tokens -/

/-- Reads the token whose first character is `c` at `start`. -/
def readToken (start : Nat) (c : Char) (cs : List Located) :
    Except ParseError (TokenKind × List Located) :=
  match c with
  | '\n' => .ok (.newline, cs)
  | '\r' =>
    match cs with
    | (_, '\n') :: rest => .ok (.newline, rest)
    | _ => .ok (.newline, cs)
  | '|' => .ok (.bar, cs)
  | '(' => .ok (.openParen, cs)
  | ')' => .ok (.closeParen, cs)
  | '?' => .ok (.question, cs)
  | '*' => .ok (.star, cs)
  | '+' => .ok (.plus, cs)
  | '.' => .ok (.any, cs)
  | ':' =>
    match cs with
    | (_, ':') :: (_, '=') :: rest => .ok (.define, rest)
    | _ => .error (lexicalError (.unexpectedCharacter c) start)
  | '"' => (readLiteral start cs).map fun (chars, rest) => (.literal chars, rest)
  | '[' => (readClass start cs).map fun (set, rest) => (.set set, rest)
  | '\x7b' =>
    match readBounds? cs with
    | some (bounds, rest) => .ok (.counts bounds, rest)
    | none => .error (lexicalError .malformedRepetition start)
  | c =>
    if isNameChar c then
      let letters := (cs.takeWhile fun (_, c) => isNameChar c).map (·.2)
      .ok (.name (String.ofList (c :: letters)), cs.dropWhile fun (_, c) => isNameChar c)
    else
      .error (lexicalError (.unexpectedCharacter c) start)

/-! ## Every reader leaves a part of its text -/

/-- A literal ends within the text. -/
theorem readLiteral_length {start : Nat} {cs rest : List Located} {chars : List Char}
    (h : readLiteral start cs = .ok (chars, rest)) : rest.length ≤ cs.length := by
  fun_induction readLiteral start cs generalizing chars rest with
  | case1 => simp at h
  | case2 => simp_all
  | case3 => simp at h
  | case4 offset cs escaped left hescape hlength _ ih =>
    cases hr : readLiteral start left with
    | error e => simp [hr, Except.map] at h
    | ok found =>
      simp only [hr, Except.map, Except.ok.injEq, Prod.mk.injEq] at h
      have := ih hr
      rw [← h.2, List.length_cons]
      omega
  | case5 offset c cs _ _ ih =>
    cases hr : readLiteral start cs with
    | error e => simp [hr, Except.map] at h
    | ok found =>
      simp only [hr, Except.map, Except.ok.injEq, Prod.mk.injEq] at h
      have := ih hr
      rw [← h.2, List.length_cons]
      omega

/-- So do the ranges of a class. -/
theorem readRanges_length {start : Nat} {cs rest : List Located} {ranges : List CharRange}
    (h : readRanges start cs = .ok (ranges, rest)) : rest.length ≤ cs.length := by
  fun_induction readRanges start cs generalizing ranges rest with
  | case1 => simp at h
  | case2 => simp_all
  | case3 => simp at h
  | case4 offset c cs _ range left hrange hlength ih =>
    cases hr : readRanges start left with
    | error e => simp [hr, Except.map] at h
    | ok found =>
      simp only [hr, Except.map, Except.ok.injEq, Prod.mk.injEq] at h
      have := ih hr
      rw [← h.2, List.length_cons]
      omega

theorem readClassBody_length {start : Nat} {negated : Bool} {cs rest : List Located}
    {set : CharSet} (h : readClassBody start negated cs = .ok (set, rest)) :
    rest.length ≤ cs.length := by
  unfold readClassBody at h
  split at h
  · simp at h
  · simp at h
  · next hranges =>
    simp only [Except.ok.injEq, Prod.mk.injEq] at h
    exact h.2 ▸ readRanges_length hranges

theorem readClass_length {start : Nat} {cs rest : List Located} {set : CharSet}
    (h : readClass start cs = .ok (set, rest)) : rest.length ≤ cs.length := by
  unfold readClass at h
  split at h
  · exact Nat.le_succ_of_le (readClassBody_length h)
  · exact readClassBody_length h

theorem readCount?_length {cs rest : List Located} {value : Nat}
    (h : readCount? cs = some (value, rest)) : rest.length ≤ cs.length := by
  unfold readCount? at h
  simp only at h
  split at h
  · simp at h
  · simp only [Option.some.injEq, Prod.mk.injEq] at h
    exact h.2 ▸ (List.dropWhile_sublist _).length_le

theorem skipComment_length (cs : List Located) : (skipComment cs).length ≤ cs.length :=
  (List.dropWhile_sublist _).length_le

theorem skipBlanks_length (cs : List Located) : (skipBlanks cs).length ≤ cs.length :=
  (List.dropWhile_sublist _).length_le

theorem readMax?_length {min : Nat} {cs rest : List Located} {max : Option Nat}
    (h : readMax? min cs = some (max, rest)) : rest.length ≤ cs.length := by
  unfold readMax? at h
  split at h
  · next offset more =>
    have := skipBlanks_length more
    split at h
    · obtain ⟨found, hcount, hmax⟩ := Option.map_eq_some_iff.1 h
      simp only [Prod.mk.injEq] at hmax
      have := readCount?_length hcount
      rw [← hmax.2, List.length_cons]
      omega
    · simp only [Option.some.injEq, Prod.mk.injEq] at h
      rw [← h.2, List.length_cons]
      omega
  · simp_all

theorem readCloseBrace?_length {cs rest : List Located} (h : readCloseBrace? cs = some rest) :
    rest.length ≤ cs.length := by
  unfold readCloseBrace? at h
  split at h <;> simp_all

/-- So do the bounds of a repetition, with the brace that closes them. -/
theorem readBounds?_length {cs rest : List Located} {bounds : Bounds}
    (h : readBounds? cs = some (bounds, rest)) : rest.length ≤ cs.length := by
  unfold readBounds? at h
  obtain ⟨⟨min, afterMin⟩, hmin, h⟩ := Option.bind_eq_some_iff.1 h
  obtain ⟨⟨max, afterMax⟩, hmax, h⟩ := Option.bind_eq_some_iff.1 h
  obtain ⟨left, hclose, h⟩ := Option.bind_eq_some_iff.1 h
  simp only [pure, Option.some.injEq, Prod.mk.injEq] at h
  calc
    rest.length = left.length := by rw [h.2]
    _ ≤ (skipBlanks afterMax).length := readCloseBrace?_length hclose
    _ ≤ afterMax.length := skipBlanks_length _
    _ ≤ (skipBlanks afterMin).length := readMax?_length hmax
    _ ≤ afterMin.length := skipBlanks_length _
    _ ≤ (skipBlanks cs).length := readCount?_length hmin
    _ ≤ cs.length := skipBlanks_length _

/-- **A token leaves a part of the text behind its first character**, so reading tokens ends. -/
theorem readToken_length {start : Nat} {c : Char} {cs rest : List Located} {kind : TokenKind}
    (h : readToken start c cs = .ok (kind, rest)) : rest.length ≤ cs.length := by
  have mapped {α : Type} {read : Except ParseError (α × List Located)} {f : α → TokenKind}
      (hread : read.map (fun (a, rest) => (f a, rest)) = .ok (kind, rest)) :
      ∃ a, read = .ok (a, rest) := by
    cases read with
    | error e => simp [Except.map] at hread
    | ok found =>
      simp only [Except.map, Except.ok.injEq, Prod.mk.injEq] at hread
      exact ⟨found.1, by rw [← hread.2]⟩
  have same {found : TokenKind} {left : List Located}
      (h : Except.ok (found, left) = (.ok (kind, rest) : Except ParseError _)) : left = rest := by
    simp_all
  unfold readToken at h
  split at h
  case h_2 =>
    split at h
    · rw [← same h, List.length_cons]
      omega
    · exact Nat.le_of_eq (by rw [same h])
  case h_10 =>
    split at h
    · rw [← same h, List.length_cons, List.length_cons]
      omega
    · simp at h
  case h_11 => exact readLiteral_length (mapped h).choose_spec
  case h_12 => exact readClass_length (mapped h).choose_spec
  case h_13 =>
    split at h
    · next hbounds => exact same h ▸ readBounds?_length hbounds
    · simp at h
  case h_14 =>
    split at h
    · exact same h ▸ (List.dropWhile_sublist _).length_le
    · simp at h
  all_goals exact Nat.le_of_eq (by rw [same h])

/-! ## The whole text -/

/-- The tokens of the rest of a text that ends at `stop`. -/
def readTokens (stop : Nat) (cs : List Located) : Except ParseError (List Token) :=
  match cs with
  | [] => .ok []
  | (start, c) :: cs =>
    if isBlank c then readTokens stop cs
    else if c = '#' then
      have := skipComment_length cs
      readTokens stop (skipComment cs)
    else
      match h : readToken start c cs with
      | .error e => .error e
      | .ok (kind, rest) =>
        have := readToken_length h
        (readTokens stop rest).map (⟨kind, ⟨start, offsetOf stop rest⟩⟩ :: ·)
termination_by cs.length

/-- **The tokens of a text**, in order. A text with more bytes than there are offsets is refused as
    a whole. -/
def tokenize (source : String) : Except ParseError (List Token) :=
  if source.utf8ByteSize < offsetBound then
    readTokens (byteLength source.toList) (locate 0 source.toList)
  else .error (lexicalError (.sourceTooLarge source.utf8ByteSize) 0)

/-- A text that is not too large is read. -/
theorem tokenize_of_lt {source : String} (hsize : byteLength source.toList < offsetBound) :
    tokenize source = readTokens (byteLength source.toList) (locate 0 source.toList) := by
  rw [tokenize, utf8ByteSize_eq_byteLength, if_pos hsize]

/-- A text that has a byte without an offset is refused at its beginning, whatever is in it. -/
theorem tokenize_of_le {source : String} (hsize : offsetBound ≤ byteLength source.toList) :
    tokenize source =
      .error (lexicalError (.sourceTooLarge (byteLength source.toList)) 0) := by
  rw [tokenize, utf8ByteSize_eq_byteLength, if_neg (Nat.not_lt.2 hsize)]

/-- A text that has tokens has an offset for each of its bytes. -/
theorem lt_of_tokenize {source : String} {tokens : List Token} (h : tokenize source = .ok tokens) :
    byteLength source.toList < offsetBound := by
  refine Nat.lt_of_not_le fun hsize => ?_
  rw [tokenize_of_le hsize] at h
  simp at h

end Bnf
