import Bnf.Grammar

/-!
# What a reader of grammars reports

While a grammar is read, the reader reports what it has made and what looks wrong. A text that is
refused in the end may have been reported on before.

## Main definitions

- `Event` — one report
- `Level` — how much a report matters
- `Event.message` — the wording of a report
-/

namespace Bnf

/-- How much a report matters. -/
inductive Level where
  | error
  | warn
  | info
  | debug
  | trace
deriving DecidableEq

namespace Level

def name : Level → String
  | error => "ERROR"
  | warn => "WARN"
  | info => "INFO"
  | debug => "DEBUG"
  | trace => "TRACE"

def rank : Level → Nat
  | error => 1
  | warn => 2
  | info => 3
  | debug => 4
  | trace => 5

end Level

/-- What a reader reports. -/
inductive Event where
  | helperMade (kind : HelperKind) (name : String)
  | ruleRead (name : String) (alternatives : Nat)
  /-- A rule can reach itself before it has read a character. -/
  | leftRecursive (name : String)
  | unreachable (name root : String)
  | grammarRead (rules helpers : Nat) (root : String)
deriving DecidableEq

namespace Event

def level : Event → Level
  | helperMade .. => .debug
  | ruleRead .. => .trace
  | leftRecursive .. => .warn
  | unreachable .. => .warn
  | grammarRead .. => .debug

def message : Event → String
  | helperMade kind name => s!"synthesized {kind.name} rule '{name}'"
  | ruleRead name alternatives => s!"rule '{name}' with {alternatives} alternatives"
  | leftRecursive name => s!"rule '{name}' is left recursive"
  | unreachable name root => s!"rule '{name}' is unreachable from '{root}'"
  | grammarRead rules helpers root =>
    s!"parsed {rules} rules ({helpers} synthesized), root '{root}'"

end Event

end Bnf
