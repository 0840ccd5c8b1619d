import Bnf.Text.Bytes

/-!
# Spans of source text

A span is a stretch of a text, given by the byte offsets at which it starts and stops.

## Main definitions

- `Span` — a stretch of text
- `Span.join` — the smallest stretch that covers two
- `Span.slice?` — the text that a span covers
-/

namespace Bnf

/-- A stretch of a text: from the byte offset `start` up to, and without, the byte at `stop`. -/
structure Span where
  start : Nat
  stop : Nat
deriving DecidableEq

namespace Span

def point (offset : Nat) : Span :=
  ⟨offset, offset⟩

/-- A span is empty if it stops where it starts, or before. -/
def isEmpty (s : Span) : Bool :=
  s.stop ≤ s.start

def join (a b : Span) : Span :=
  ⟨min a.start b.start, max a.stop b.stop⟩

def render (s : Span) : String :=
  s!"{s.start}..{s.stop}"

/-- The part of `text` that a span covers. There is none if the span leaves the text, stops before
    it starts, or starts or stops inside a character. -/
def slice? (s : Span) (text : String) : Option String :=
  let upTo := takeBytes s.stop text.toList
  let before := takeBytes s.start text.toList
  if s.start ≤ s.stop ∧ byteLength upTo = s.stop ∧ byteLength before = s.start then
    some (String.ofList (upTo.drop before.length))
  else
    none

end Span

end Bnf
