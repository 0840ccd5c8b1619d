import Bnf.Json

/-!
# Reading JSON

A text is cut into tokens, and the tokens are read one by one by a machine that keeps the arrays and
objects that are open on a stack.

## Main definitions

- `JsonToken.readAll?` — the tokens of a text
- `JsonPlace.step?` — what the machine does with a token
- `Json.parse?` — the value of a text
-/

namespace Bnf

/-- A token of the exchange format. -/
inductive JsonToken where
  | openBracket
  | closeBracket
  | openBrace
  | closeBrace
  | comma
  | colon
  /-- A string, or the name of a field. -/
  | string (text : Option String)
  /-- A value in one piece that is no string. -/
  | atom (value : Json)

/-! ## Strings -/

/-- A part of a string: a character, or sixteen bits that an escape gives. -/
inductive StringPart where
  | char (c : Char)
  | unit (code : Nat)

/-- Whether sixteen bits are the first half of a surrogate pair. -/
def isHighSurrogate (code : Nat) : Bool :=
  0xD800 ≤ code && code < 0xDC00

/-- Whether sixteen bits are the second half of a surrogate pair. -/
def isLowSurrogate (code : Nat) : Bool :=
  0xDC00 ≤ code && code < 0xE000

/-- The text of some parts. Both halves of a surrogate pair make one character; a half alone makes
    none. -/
def joinParts? : List StringPart → Option (List Char)
  | [] => some []
  | .char c :: parts => (joinParts? parts).map (c :: ·)
  | .unit high :: .unit low :: parts =>
    if isHighSurrogate high then
      if isLowSurrogate low then
        let code := 0x10000 + 0x400 * (high - 0xD800) + (low - 0xDC00)
        (joinParts? parts).map (Char.ofNat code :: ·)
      else none
    else if isLowSurrogate high then none
    else (joinParts? (.unit low :: parts)).map (Char.ofNat high :: ·)
  | .unit code :: parts =>
    if isHighSurrogate code || isLowSurrogate code then none
    else (joinParts? parts).map (Char.ofNat code :: ·)

/-- The character of an escape with one letter or sign. -/
def jsonEscape? (c : Char) : Option Char :=
  if c ∈ ['"', '\\', '/'] then some c
  else if c = 'b' then some '\x08'
  else if c = 'f' then some '\x0c'
  else if c = 'n' then some '\n'
  else if c = 'r' then some '\r'
  else if c = 't' then some '\t'
  else none

/-- The number that four hexadecimal digits stand for. -/
def hexUnit? (a b c d : Char) : Option Nat :=
  [a, b, c, d].foldlM (fun n digit => (hexDigit? digit).map (16 * n + ·)) 0

/-- Reads the parts of a string after its opening quote, and its closing quote. -/
def readStringParts? : List Char → Option (List StringPart × List Char)
  | [] => none
  | '"' :: rest => some ([], rest)
  | '\\' :: 'u' :: a :: b :: c :: d :: rest =>
    match hexUnit? a b c d with
    | none => none
    | some code => (readStringParts? rest).map fun (parts, rest) => (.unit code :: parts, rest)
  | '\\' :: c :: rest =>
    match jsonEscape? c with
    | none => none
    | some escaped =>
      (readStringParts? rest).map fun (parts, rest) => (.char escaped :: parts, rest)
  | c :: rest =>
    if c = '\\' || c.toNat < 0x20 then none
    else (readStringParts? rest).map fun (parts, rest) => (.char c :: parts, rest)

/-- A string ends within the text. -/
theorem readStringParts?_length {cs rest : List Char} {parts : List StringPart}
    (h : readStringParts? cs = some (parts, rest)) : rest.length ≤ cs.length := by
  fun_induction readStringParts? cs generalizing parts rest with
  | case1 => simp at h
  | case2 => simp_all
  | case3 => simp at h
  | case4 a b c d cs code _ ih =>
    obtain ⟨found, hfound, hrest⟩ := Option.map_eq_some_iff.1 h
    simp only [Prod.mk.injEq] at hrest
    have := ih hfound
    simp only [List.length_cons, ← hrest.2]
    omega
  | case5 => simp at h
  | case6 c cs _ escaped _ ih =>
    obtain ⟨found, hfound, hrest⟩ := Option.map_eq_some_iff.1 h
    simp only [Prod.mk.injEq] at hrest
    have := ih hfound
    simp only [List.length_cons, ← hrest.2]
    omega
  | case7 => simp at h
  | case8 c cs _ _ _ _ ih =>
    obtain ⟨found, hfound, hrest⟩ := Option.map_eq_some_iff.1 h
    simp only [Prod.mk.injEq] at hrest
    have := ih hfound
    simp only [List.length_cons, ← hrest.2]
    omega

/-! ## Numbers -/

def readDigits? (cs : List Char) : Option (List Char × List Char) :=
  match cs.takeWhile Char.isDigit with
  | [] => none
  | digits => some (digits, cs.dropWhile Char.isDigit)

/-- Reads the digits in front of a point. A zero in front of other digits stands alone. -/
def readWhole? : List Char → Option (List Char × List Char)
  | '0' :: rest => some (['0'], rest)
  | cs => readDigits? cs

/-- Reads a point and the digits after it, if a point comes next. -/
def readFraction? : List Char → Option (List Char × List Char)
  | '.' :: rest => (readDigits? rest).map fun (digits, rest) => ('.' :: digits, rest)
  | cs => some ([], cs)

/-- Reads the sign of an exponent, if there is one. -/
def readSign : List Char → List Char × List Char
  | '+' :: rest => (['+'], rest)
  | '-' :: rest => (['-'], rest)
  | cs => ([], cs)

def readExponent? (cs : List Char) : Option (List Char × List Char) :=
  match cs with
  | letter :: rest =>
    if letter = 'e' || letter = 'E' then
      (readDigits? (readSign rest).2).map fun (digits, left) =>
        (letter :: (readSign rest).1 ++ digits, left)
    else some ([], cs)
  | [] => some ([], cs)

/-- Reads a number without a sign. What follows the whole part is given as well. -/
def readUnsigned? (cs : List Char) : Option (List Char × List Char × List Char) := do
  let (whole, rest) ← readWhole? cs
  let (fraction, rest) ← readFraction? rest
  let (exponent, rest) ← readExponent? rest
  return (whole, fraction ++ exponent, rest)

def readNumber? : List Char → Option (Json × List Char)
  | '-' :: rest => (readUnsigned? rest).map fun (whole, more, rest) =>
    (.number (String.ofList ('-' :: whole ++ more)), rest)
  | cs => (readUnsigned? cs).map fun (whole, more, rest) =>
    (if more.isEmpty then .nat (decimalValue whole)
      else .number (String.ofList (whole ++ more)), rest)

theorem readDigits?_length {cs digits rest : List Char} (h : readDigits? cs = some (digits, rest)) :
    rest.length < cs.length := by
  have split := congrArg List.length (List.takeWhile_append_dropWhile (p := Char.isDigit) (l := cs))
  unfold readDigits? at h
  split at h
  · simp at h
  · next hdigits =>
    have : 0 < (cs.takeWhile Char.isDigit).length := List.length_pos_iff.2 hdigits
    simp only [Option.some.injEq, Prod.mk.injEq] at h
    simp only [List.length_append] at split
    rw [← h.2]
    omega

theorem readUnsigned?_length {cs whole more rest : List Char}
    (h : readUnsigned? cs = some (whole, more, rest)) : rest.length < cs.length := by
  unfold readUnsigned? at h
  obtain ⟨⟨digits, afterWhole⟩, hwhole, h⟩ := Option.bind_eq_some_iff.1 h
  obtain ⟨⟨fraction, afterFraction⟩, hfraction, h⟩ := Option.bind_eq_some_iff.1 h
  obtain ⟨⟨exponent, afterExponent⟩, hexponent, h⟩ := Option.bind_eq_some_iff.1 h
  simp only [pure, Option.some.injEq, Prod.mk.injEq] at h
  have lengthWhole : afterWhole.length < cs.length := by
    unfold readWhole? at hwhole
    split at hwhole
    · simp_all
    · exact readDigits?_length hwhole
  have lengthFraction : afterFraction.length ≤ afterWhole.length := by
    unfold readFraction? at hfraction
    split at hfraction
    · obtain ⟨found, hdigits, hrest⟩ := Option.map_eq_some_iff.1 hfraction
      simp only [Prod.mk.injEq] at hrest
      have := readDigits?_length hdigits
      rw [← hrest.2, List.length_cons]
      omega
    · simp_all
  have lengthSign (xs : List Char) : (readSign xs).2.length ≤ xs.length := by
    unfold readSign
    split <;> simp
  have lengthExponent : afterExponent.length ≤ afterFraction.length := by
    unfold readExponent? at hexponent
    split at hexponent
    · next letter tail =>
      split at hexponent
      · obtain ⟨found, hdigits, hrest⟩ := Option.map_eq_some_iff.1 hexponent
        simp only [Prod.mk.injEq] at hrest
        have := readDigits?_length hdigits
        have := lengthSign tail
        rw [← hrest.2, List.length_cons]
        omega
      · simp_all
    · simp_all
  rw [← h.2.2]
  omega

/-- So does a number, which has a digit at least. -/
theorem readNumber?_length {cs rest : List Char} {value : Json}
    (h : readNumber? cs = some (value, rest)) : rest.length < cs.length := by
  unfold readNumber? at h
  split at h
  · obtain ⟨found, hread, hrest⟩ := Option.map_eq_some_iff.1 h
    simp only [Prod.mk.injEq] at hrest
    have := readUnsigned?_length hread
    rw [← hrest.2, List.length_cons]
    omega
  · obtain ⟨found, hread, hrest⟩ := Option.map_eq_some_iff.1 h
    simp only [Prod.mk.injEq] at hrest
    exact hrest.2 ▸ readUnsigned?_length hread

/-! ## Tokens -/

namespace JsonToken

def read? : List Char → Option (JsonToken × List Char)
  | '[' :: rest => some (.openBracket, rest)
  | ']' :: rest => some (.closeBracket, rest)
  | '\x7b' :: rest => some (.openBrace, rest)
  | '\x7d' :: rest => some (.closeBrace, rest)
  | ',' :: rest => some (.comma, rest)
  | ':' :: rest => some (.colon, rest)
  | '"' :: rest => (readStringParts? rest).map fun (parts, rest) =>
    (.string ((joinParts? parts).map String.ofList), rest)
  | 'n' :: 'u' :: 'l' :: 'l' :: rest => some (.atom .null, rest)
  | 't' :: 'r' :: 'u' :: 'e' :: rest => some (.atom (.bool true), rest)
  | 'f' :: 'a' :: 'l' :: 's' :: 'e' :: rest => some (.atom (.bool false), rest)
  | cs => (readNumber? cs).map fun (value, rest) => (.atom value, rest)

/-- **A token takes up a character at least**, so reading a value ends. -/
theorem read?_length {cs rest : List Char} {token : JsonToken}
    (h : read? cs = some (token, rest)) : rest.length < cs.length := by
  unfold read? at h
  split at h
  case h_7 =>
    obtain ⟨found, hread, hrest⟩ := Option.map_eq_some_iff.1 h
    simp only [Prod.mk.injEq] at hrest
    have := readStringParts?_length hread
    rw [← hrest.2, List.length_cons]
    omega
  case h_11 =>
    obtain ⟨found, hread, hrest⟩ := Option.map_eq_some_iff.1 h
    simp only [Prod.mk.injEq] at hrest
    exact hrest.2 ▸ readNumber?_length hread
  all_goals
    simp only [Option.some.injEq, Prod.mk.injEq] at h
    simp only [List.length_cons, ← h.2]
    omega

def isSpace (c : Char) : Bool :=
  c = ' ' || c = '\t' || c = '\n' || c = '\r'

def readAll? (cs : List Char) : Option (List JsonToken) :=
  match cs with
  | [] => some []
  | c :: rest =>
    if isSpace c then readAll? rest
    else
      match h : read? (c :: rest) with
      | none => none
      | some (token, left) =>
        have : left.length ≤ rest.length := Nat.le_of_lt_succ (read?_length h)
        (readAll? left).map (token :: ·)
termination_by cs.length

end JsonToken

/-! ## Values -/

/-- An array or an object that is open. -/
inductive JsonFrame where
  /-- An array with the items before the one that is being read. -/
  | array (items : List Json)
  /-- An object with the fields before the one that is being read, and the name of that one. -/
  | object (fields : List (Option String × Json)) (name : Option String)

/-- Where the machine is. The arrays and objects that are open are on a stack, the innermost
    first. -/
inductive JsonPlace where
  /-- Before a value. -/
  | value (stack : List JsonFrame)
  /-- Behind an opening bracket. -/
  | items (stack : List JsonFrame)
  /-- Behind an opening brace. -/
  | fields (stack : List JsonFrame)
  /-- Before the name of a field that is not the first. -/
  | name (fields : List (Option String × Json)) (stack : List JsonFrame)
  /-- Behind the name of a field. -/
  | named (fields : List (Option String × Json)) (name : Option String) (stack : List JsonFrame)
  /-- Behind a value. -/
  | complete (value : Json) (stack : List JsonFrame)

namespace JsonPlace

def startValue? (stack : List JsonFrame) : JsonToken → Option JsonPlace
  | .openBracket => some (.items stack)
  | .openBrace => some (.fields stack)
  | .string text => some (.complete (.string text) stack)
  | .atom item => some (.complete item stack)
  | _ => none

def step? : JsonPlace → JsonToken → Option JsonPlace
  | value stack, token => startValue? stack token
  | items stack, .closeBracket => some (.complete (.array []) stack)
  | items stack, token => startValue? (.array [] :: stack) token
  | fields stack, .closeBrace => some (.complete (.object []) stack)
  | fields stack, .string text => some (.named [] text stack)
  | name before stack, .string text => some (.named before text stack)
  | named before text stack, .colon => some (.value (.object before text :: stack))
  | complete item (.array before :: stack), .comma =>
    some (.value (.array (before ++ [item]) :: stack))
  | complete item (.array before :: stack), .closeBracket =>
    some (.complete (.array (before ++ [item])) stack)
  | complete item (.object before text :: stack), .comma =>
    some (.name (before ++ [(text, item)]) stack)
  | complete item (.object before text :: stack), .closeBrace =>
    some (.complete (.object (before ++ [(text, item)])) stack)
  | _, _ => none

/-- The value of a text whose last token has been read. -/
def value? : JsonPlace → Option Json
  | complete item [] => some item
  | _ => none

def run? (place : JsonPlace) (tokens : List JsonToken) : Option JsonPlace :=
  tokens.foldlM step? place

end JsonPlace

/-- **The value of a text**, which holds nothing else. -/
def Json.parse? (text : String) : Option Json := do
  let tokens ← JsonToken.readAll? text.toList
  let place ← JsonPlace.run? (.value []) tokens
  place.value?

end Bnf
