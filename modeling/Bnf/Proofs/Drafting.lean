import Bnf.Grammar.Draft

/-!
# Computations on a draft

## Main results

- `Drafting.bind_eq_ok` — a computation in two parts succeeds if both parts do
- `Drafting.bind_eq_error` — it fails if one of the parts does
-/

namespace Bnf.Drafting

variable {α β : Type} {draft final : Draft}

/-- To give a value is to leave the draft as it is. -/
@[simp] theorem pure_eq_ok {a b : α} :
    (pure a : Drafting α) draft = .ok b final ↔ a = b ∧ draft = final := by
  show EStateM.Result.ok a draft = .ok b final ↔ _
  simp

/-- What fails does not succeed, so a branch that fails drops out of what a success says. -/
@[simp] theorem fail_eq_ok {fault : GrammarFault} {offset : Nat} {a : α} :
    (fail fault offset : Drafting α) draft = .ok a final ↔ False := by
  show EStateM.Result.error _ draft = .ok a final ↔ _
  simp

/-- Nor does an error that is passed on. -/
@[simp] theorem throw_eq_ok {e : ParseError} {a : α} :
    (throw e : Drafting α) draft = .ok a final ↔ False := by
  show EStateM.Result.error e draft = .ok a final ↔ _
  simp

/-- Looking at the draft gives it and leaves it as it is. -/
@[simp] theorem get_eq_ok {found : Draft} :
    (get : Drafting Draft) draft = .ok found final ↔ draft = found ∧ draft = final := by
  show EStateM.Result.ok draft draft = .ok found final ↔ _
  simp

/-- A draft that is put in place of another is the one that is left. -/
@[simp] theorem set_eq_ok {next : Draft} {a : PUnit} :
    (set next : Drafting PUnit) draft = .ok a final ↔ next = final := by
  show EStateM.Result.ok _ next = .ok a final ↔ _
  simp

/-- **Two parts succeed if both do**, the second on the draft that the first has left. Taken from
    right to left, this cuts a computation into its steps. -/
theorem bind_eq_ok {first : Drafting α} {second : α → Drafting β} {b : β} :
    (first >>= second) draft = .ok b final ↔
      ∃ a middle, first draft = .ok a middle ∧ second a middle = .ok b final := by
  show EStateM.bind first second draft = .ok b final ↔ _
  rw [EStateM.bind]
  cases first draft with
  | ok a middle =>
    constructor
    · intro h
      exact ⟨a, middle, rfl, h⟩
    · rintro ⟨_, _, hfirst, hsecond⟩
      cases hfirst
      exact hsecond
  | error e middle => simp

/-- **Two parts fail if one does**: the first, or the second after a success of the first. The draft
    is that of the part that fails. -/
theorem bind_eq_error {e : ParseError} {first : Drafting α} {second : α → Drafting β} :
    (first >>= second) draft = .error e final ↔ first draft = .error e final ∨
      ∃ a middle, first draft = .ok a middle ∧ second a middle = .error e final := by
  show EStateM.bind first second draft = .error e final ↔ _
  rw [EStateM.bind]
  cases first draft with
  | ok a middle =>
    constructor
    · intro h
      exact .inr ⟨a, middle, rfl, h⟩
    · rintro (hfirst | ⟨_, _, hfirst, hsecond⟩)
      · cases hfirst
      · cases hfirst
        exact hsecond
  | error found middle => simp

end Bnf.Drafting
