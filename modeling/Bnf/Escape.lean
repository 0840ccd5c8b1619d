import Bnf.CharSet
import Bnf.Fault

/-!
# Escape sequences

Characters between quotes or brackets may be written as escapes. Reading knows more forms than
writing uses: a writer chooses the short escape of a character where there is one, and a two-digit
numeric escape for the other control characters.

## Main definitions

- `Quoting` — which of the two surroundings a character is written in
- `readEscape` — the character of an escape, from what follows the backslash
- `writeChar` — a character in its written form
- `writeLiteral`, `writeSet` — whole terminals in their written form

## Main results

- `readEscape_length` — reading an escape leaves less text than there was
-/

namespace Bnf

/-- The surroundings of a character. -/
inductive Quoting where
  | literal
  | bracketed
deriving DecidableEq

/-- The character of an escape that has one letter or sign. A hyphen and a caret have a meaning
    between brackets only, so only there they have an escape. -/
def shortEscape? (quoting : Quoting) (c : Char) : Option Char :=
  if c = 'n' then some '\n'
  else if c = 't' then some '\t'
  else if c = 'r' then some '\r'
  else if c ∈ ['\\', '"', '[', ']'] then some c
  else if c ∈ ['-', '^'] ∧ quoting = .bracketed then some c
  else none

def hexLength? (c : Char) : Option Nat :=
  if c = 'x' then some 2
  else if c = 'u' then some 4
  else if c = 'U' then some 8
  else none

/-- Reads the `more` remaining digits of a numeric escape with `digits` digits, of which those read
    so far make `value`. -/
def readHexEscape (digits : Nat) :
    (more : Nat) → (value : Nat) → List Located → Except LexicalFault (Char × List Located)
  | 0, value, rest =>
    if value.isValidChar then .ok (Char.ofNat value, rest) else .error (.invalidCodePoint value)
  | _ + 1, _, [] => .error (.shortHexEscape digits)
  | more + 1, value, (_, c) :: rest =>
    match hexDigit? c with
    | some digit => readHexEscape digits more (16 * value + digit) rest
    | none => .error (.shortHexEscape digits)

/-- Reads an escape, of which the backslash has been read. -/
def readEscape (quoting : Quoting) : List Located → Except LexicalFault (Char × List Located)
  | [] => .error .unterminatedEscape
  | (_, c) :: rest =>
    match shortEscape? quoting c with
    | some escaped => .ok (escaped, rest)
    | none =>
      match hexLength? c with
      | some digits => readHexEscape digits digits 0 rest
      | none => .error (.unknownEscape c)

theorem readHexEscape_length {digits more value : Nat} {cs rest : List Located} {c : Char}
    (h : readHexEscape digits more value cs = .ok (c, rest)) : rest.length ≤ cs.length := by
  induction more generalizing value cs with
  | zero =>
    simp only [readHexEscape] at h
    split at h <;> simp_all
  | succ more ih =>
    cases cs with
    | nil => simp [readHexEscape] at h
    | cons head tail =>
      simp only [readHexEscape] at h
      split at h
      · have := ih h
        simp only [List.length_cons]
        omega
      · simp at h

/-- An escape takes up a character at least, which is why readers that go on behind it end. -/
theorem readEscape_length {quoting : Quoting} {cs rest : List Located} {c : Char}
    (h : readEscape quoting cs = .ok (c, rest)) : rest.length < cs.length := by
  cases cs with
  | nil => simp [readEscape] at h
  | cons head tail =>
    simp only [readEscape] at h
    split at h
    · simp only [Except.ok.injEq, Prod.mk.injEq] at h
      simp [← h.2]
    · split at h
      · have := readHexEscape_length h
        simp only [List.length_cons]
        omega
      · simp at h

/-- Whether a character has no place on a line: those below the space, and U+007F to U+009F. -/
def isControl (c : Char) : Bool :=
  c.toNat < 0x20 || (0x7F ≤ c.toNat && c.toNat < 0xA0)

def writeChar (quoting : Quoting) (c : Char) : List Char :=
  if c = '\n' then ['\\', 'n']
  else if c = '\t' then ['\\', 't']
  else if c = '\r' then ['\\', 'r']
  else if c = '\\' then ['\\', '\\']
  else if c = '"' ∧ quoting = .literal then ['\\', '"']
  else if c ∈ [']', '-', '^'] ∧ quoting = .bracketed then ['\\', c]
  else if isControl c then '\\' :: 'x' :: upperHex 2 c.toNat
  else [c]

def writeLiteral (chars : List Char) : List Char :=
  '"' :: chars.flatMap (writeChar .literal) ++ ['"']

/-- The written form of a range between brackets. -/
def writeRange (r : CharRange) : List Char :=
  if r.isSingle then writeChar .bracketed r.start
  else writeChar .bracketed r.start ++ '-' :: writeChar .bracketed r.stop

/-- The written form of a set: a dot for the set of all characters, else a class. -/
def writeSet (s : CharSet) : List Char :=
  if s.isAny then ['.']
  else
    ['['] ++ (if s.negated then ['^'] else []) ++ s.ranges.flatMap writeRange ++ [']']

end Bnf
