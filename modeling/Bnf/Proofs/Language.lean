import Mathlib
import Bnf.Grammar

/-!
# The language of a grammar

The rules of a grammar are equations between languages: a rule stands for the union of what its
alternatives stand for, and an alternative for the concatenation of what its symbols stand for. The
least solution of these equations tells which texts each rule generates.

## Main definitions

- `CharSet.language` — the texts of one character that a set accepts
- `Body.language`, `alternativesLanguage` — what symbols stand for, given the languages of rules
- `Grammar.language` — the language of each rule, the least fixed point

## Main results

- `Body.language_append` — symbols behind each other are concatenated
- `Grammar.alternativesLanguage_language` — the languages solve the equations
- `Grammar.language_le` — they are the least to do so
-/

namespace Bnf

open Computability

/-- The texts of one character that a set accepts. -/
def CharSet.language (s : CharSet) : Language Char :=
  {text | ∃ c, s.accepts c = true ∧ text = [c]}

/-- What a symbol stands for if rules stand for the languages in `L`. -/
def Symbol.language (L : RuleId → Language Char) : Symbol → Language Char
  | .rule id => L id
  | .chars set => set.language

/-- What an alternative stands for: the concatenation of what its symbols stand for. -/
def Body.language (L : RuleId → Language Char) (body : Body) : Language Char :=
  (body.map (Symbol.language L)).prod

/-- What alternatives stand for: the union of what each stands for. -/
def alternativesLanguage (L : RuleId → Language Char) (bodies : List Body) : Language Char :=
  ⨆ body ∈ bodies, Body.language L body

variable {L M : RuleId → Language Char} {body other : Body} {bodies : List Body}
  {X : Language Char}

/-- No symbols stand for the empty text alone. -/
@[simp] theorem Body.language_nil : Body.language L [] = 1 :=
  rfl

/-- The first symbol of an alternative is concatenated with the others. -/
@[simp] theorem Body.language_cons {symbol : Symbol} :
    Body.language L (symbol :: body) = symbol.language L * Body.language L body := by
  simp [Body.language]

/-- A rule that is mentioned alone stands for itself. -/
theorem Body.language_rule {id : RuleId} : Body.language L [.rule id] = L id := by
  rw [Body.language_cons, Body.language_nil, mul_one, Symbol.language]

/-- **Symbols behind each other are concatenated**, wherever they are cut in two. -/
@[simp] theorem Body.language_append :
    Body.language L (body ++ other) = Body.language L body * Body.language L other := by
  simp [Body.language]

/-- Copies behind each other stand for a power, as those of a repeated term do. -/
@[simp] theorem Body.language_flatten_replicate (n : Nat) :
    Body.language L (List.replicate n body).flatten = Body.language L body ^ n := by
  induction n with
  | zero => simp
  | succ n ih => rw [List.replicate_succ, List.flatten_cons, Body.language_append, ih, pow_succ']

/-- A union is within a language if each alternative is. -/
theorem alternativesLanguage_le_iff :
    alternativesLanguage L bodies ≤ X ↔ ∀ body ∈ bodies, Body.language L body ≤ X :=
  iSup₂_le_iff

/-- A text of one alternative is a text of all of them. -/
theorem le_alternativesLanguage (h : body ∈ bodies) :
    Body.language L body ≤ alternativesLanguage L bodies :=
  le_iSup₂_of_le body h le_rfl

/-- Without alternatives there is no text, not even the empty one. -/
@[simp] theorem alternativesLanguage_nil : alternativesLanguage L [] = 0 := by
  simp [alternativesLanguage]
  rfl

/-- The first alternative is united with the others. -/
@[simp] theorem alternativesLanguage_cons :
    alternativesLanguage L (body :: bodies) =
      Body.language L body + alternativesLanguage L bodies := by
  apply le_antisymm
  · rw [alternativesLanguage_le_iff, List.forall_mem_cons]
    exact ⟨le_self_add, fun other hother =>
      le_add_of_le_right (le_alternativesLanguage hother)⟩
  · rw [add_le_iff, alternativesLanguage_le_iff]
    exact ⟨le_alternativesLanguage List.mem_cons_self, fun other hother =>
      le_alternativesLanguage (List.mem_cons_of_mem _ hother)⟩

/-- Larger languages of rules make that of a mention larger. A set does not look at them. -/
theorem Symbol.language_mono (h : L ≤ M) (symbol : Symbol) :
    symbol.language L ≤ symbol.language M := by
  cases symbol with
  | rule id => exact h id
  | chars set => exact le_rfl

/-- Concatenation is monotone in each of its parts. -/
theorem Body.language_mono (h : L ≤ M) (body : Body) :
    Body.language L body ≤ Body.language M body := by
  induction body with
  | nil => exact le_rfl
  | cons symbol body ih =>
    rw [Body.language_cons, Body.language_cons]
    exact mul_le_mul' (symbol.language_mono h) ih

/-- So is union. This is what gives the equations of a grammar a least solution. -/
theorem alternativesLanguage_mono (h : L ≤ M) (bodies : List Body) :
    alternativesLanguage L bodies ≤ alternativesLanguage M bodies :=
  iSup₂_mono fun body _ => Body.language_mono h body

namespace Grammar

/-- The equations of a grammar: what rules stand for if those they mention stand for the languages
    in `L`. -/
def equations (g : Grammar) : (RuleId → Language Char) →o (RuleId → Language Char) where
  toFun L id := alternativesLanguage L (g.alternatives id)
  monotone' _ _ h id := alternativesLanguage_mono h (g.alternatives id)

/-- **The language of each rule**: the least solution of the equations. -/
def language (g : Grammar) : RuleId → Language Char :=
  g.equations.lfp

variable {g : Grammar}

/-- **The languages solve the equations**: each rule stands for what its alternatives stand for. -/
theorem alternativesLanguage_language (g : Grammar) (id : RuleId) :
    alternativesLanguage g.language (g.alternatives id) = g.language id :=
  congrFun g.equations.map_lfp id

/-- **They are the least to do so.** Any languages that take in what their alternatives stand for
    contain them, which is how a rule is shown to generate no more than it should. -/
theorem language_le (h : ∀ id, alternativesLanguage L (g.alternatives id) ≤ L id) :
    g.language ≤ L :=
  g.equations.lfp_le h

end Grammar

end Bnf
