import Bnf.Proofs.Completion

/-!
# Two runs under different options

Options are looked at in four places: where a name is mentioned, where a group is opened, where an
operator is applied, and when all has been read. In each of them something may be refused, and
nothing else depends on what the options say. So two runs on the same tokens do the same, until one
of them is refused what the other is not.

## Main definitions

- `Drafting.SameUnless` — a computation does what another does, or is refused
- `Token.SameGates` — the options matter at a token only by what they refuse

## Main results

- `Place.step_sameUnless`, `Place.run_sameUnless` — two steps, and two runs
- `Place.run_sameUnless_until` — two runs up to a token that one of them cannot pass
- `Grammar.read_eq_of_run`, `Grammar.parse_eq_error_of_run` — what a run says of a text
-/

namespace Bnf

open Drafting

namespace Drafting

/-- **The second of two computations does what the first does**, on every draft, unless it stops
    with an error that is refused. -/
def SameUnless {α : Type} (refused : ParseError → Prop) (m m' : Drafting α) : Prop :=
  ∀ d, m' d = m d ∨ ∃ e final, m' d = .error e final ∧ refused e

variable {α β : Type} {refused : ParseError → Prop} {m m' : Drafting α} {f f' : α → Drafting β}

theorem SameUnless.refl (m : Drafting α) : SameUnless refused m m := by
  intro d
  exact .inl rfl

/-- A computation that fails is the same unless its fault is among those that are refused. -/
theorem SameUnless.fail {fault : GrammarFault} {offset : Nat}
    (h : refused ⟨.grammar fault, offset⟩) : SameUnless refused m (fail fault offset) := by
  intro d
  exact .inr ⟨_, d, rfl, h⟩

/-- A computation that succeeds on no draft. -/
def Stops {α : Type} (m : Drafting α) : Prop :=
  ∀ d a final, m d ≠ .ok a final

theorem stops_fail (fault : GrammarFault) (offset : Nat) :
    Stops (fail fault offset : Drafting α) := by
  intro d a final h
  cases h

/-- A computation stops if its first part does. -/
theorem Stops.bind (h : Stops m) : Stops (m >>= f) := by
  intro d b final hok
  obtain ⟨a, middle, hm, -⟩ := bind_eq_ok.1 hok
  exact h d a middle hm

/-- It stops too if its second part does in any case. -/
theorem Stops.of_bind (h : ∀ a, Stops (f a)) : Stops (m >>= f) := by
  intro d b final hok
  obtain ⟨a, middle, -, hf⟩ := bind_eq_ok.1 hok
  exact h a middle b final hf

theorem bind_eq_error_of_eq_error {e : ParseError} {draft final : Draft}
    (h : m draft = .error e final) : (m >>= f) draft = .error e final :=
  bind_eq_error.2 (.inl h)

theorem bind_eq_of_eq_ok {a : α} {draft middle : Draft} (h : m draft = .ok a middle) :
    (m >>= f) draft = f a middle := by
  show EStateM.bind m f draft = _
  rw [EStateM.bind, h]

/-- **Two parts are the same unless refused**, if each is. The first that is refused ends both. -/
theorem SameUnless.bind (h : SameUnless refused m m') (hf : ∀ a, SameUnless refused (f a) (f' a)) :
    SameUnless refused (m >>= f) (m' >>= f') := by
  intro d
  obtain hsame | ⟨e, final, herror, he⟩ := h d
  · cases hm : m d with
    | error e final =>
      refine .inl ?_
      rw [bind_eq_error_of_eq_error hm, bind_eq_error_of_eq_error (hsame.trans hm)]
    | ok a middle =>
      rw [bind_eq_of_eq_ok hm, bind_eq_of_eq_ok (hsame.trans hm)]
      exact hf a middle
  · exact .inr ⟨e, final, bind_eq_error_of_eq_error herror, he⟩

/-- What comes behind a computation that stops does not matter. -/
theorem SameUnless.bind_of_stops (h : SameUnless refused m m') (hstops : Stops m') :
    SameUnless refused (m >>= f) (m' >>= f') := by
  intro d
  obtain hsame | ⟨e, final, herror, he⟩ := h d
  · cases hm : m d with
    | error e final =>
      refine .inl ?_
      rw [bind_eq_error_of_eq_error hm, bind_eq_error_of_eq_error (hsame.trans hm)]
    | ok a middle => exact absurd (hsame.trans hm) (hstops d a middle)
  · exact .inr ⟨e, final, bind_eq_error_of_eq_error herror, he⟩

/-- Without anything to refuse, the two do the same. -/
theorem SameUnless.eq (h : SameUnless (fun _ => False) m m') : m' = m := by
  funext d
  obtain hsame | ⟨_, _, -, hfalse⟩ := h d
  · exact hsame
  · exact hfalse.elim

end Drafting

variable {refused : ParseError → Prop} {o o' : ParseOptions} {token : Token}

/-! ## Steps -/

/-- **At a token the options matter by what they refuse**: a name, a group, or an operator. -/
structure Token.SameGates (refused : ParseError → Prop) (o o' : ParseOptions) (token : Token) :
    Prop where
  name : ∀ name, token.kind = .name name →
    SameUnless refused (requireAllowed o name token.span) (requireAllowed o' name token.span)
  group : token.kind = .openParen → ∀ r : OpenRule,
    SameUnless refused (r.openGroup o token.span) (r.openGroup o' token.span)
  operator : ∀ bounds, token.kind.bounds? = some bounds → ∀ (r : OpenRule) (term : Term),
    SameUnless refused (r.applyOperator o term bounds token.span)
      (r.applyOperator o' term bounds token.span)

/-- Only reserved names and deep groups are refused when a token is read. -/
theorem OpenRule.read_sameUnless (h : token.SameGates refused o o') (r : OpenRule)
    (next : Option TokenKind) :
    SameUnless refused (r.read o token next) (r.read o' token next) := by
  obtain ⟨kind, span⟩ := token
  cases kind with
  | openParen => exact (h.group rfl r).bind fun _ => .refl _
  | name name =>
    simp only [OpenRule.read]
    -- A name in front of a sign that defines it ends a rule, whatever is allowed.
    split
    · exact .refl _
    · exact (h.name name rfl).bind fun _ => .refl _
  | _ => exact .refl _

/-- And only repetitions when an operator is. -/
theorem OpenRule.step_sameUnless (h : token.SameGates refused o o') (r : OpenRule)
    (next : Option TokenKind) :
    SameUnless refused (r.step o token next) (r.step o' token next) := by
  rw [OpenRule.step, OpenRule.step]
  split
  · next term bounds _ hbounds => exact (h.operator bounds hbounds r term).bind fun _ => .refl _
  · exact read_sameUnless h r.settle next

namespace Place

/-- A rule may have a reserved name. -/
theorem startRule_sameUnless (h : token.SameGates refused o o') :
    SameUnless refused (startRule o token) (startRule o' token) := by
  obtain ⟨kind, span⟩ := token
  cases kind with
  | name name => exact (h.name name rfl).bind fun _ => .refl _
  | _ => exact .refl _

/-- **Two steps** do the same at a token, unless one of them is refused. -/
theorem step_sameUnless (h : token.SameGates refused o o') (place : Place)
    (next : Option TokenKind) :
    SameUnless refused (place.step o token next) (place.step o' token next) := by
  cases place with
  | between =>
    rw [step, step]
    split
    · exact .refl _
    · exact startRule_sameUnless h
  | named name span => exact .refl _
  | inside r => exact OpenRule.step_sameUnless h r next
  | below r =>
    rw [step, step]
    split
    · exact .refl _
    · exact .refl _
    · exact (SameUnless.refl r.close).bind fun _ => startRule_sameUnless h

variable {tokens before : List Token} (stop : Nat)

/-- **Two runs** do the same, unless one of them is refused. -/
theorem run_sameUnless (h : ∀ token ∈ tokens, token.SameGates refused o o') (place : Place) :
    SameUnless refused (run o stop place tokens) (run o' stop place tokens) := by
  induction tokens generalizing place with
  | nil => exact .refl _
  | cons token rest ih =>
    rw [List.forall_mem_cons] at h
    exact (step_sameUnless h.1 place _).bind fun next => ih h.2 next

/-- **Two runs up to a token** that the second cannot pass: what follows it does not matter. -/
theorem run_sameUnless_until (hbefore : ∀ other ∈ before, other.SameGates refused o o')
    (h : token.SameGates refused o o')
    (hstops : ∀ (place : Place) next, Stops (place.step o' token next)) (place : Place)
    (after : List Token) :
    SameUnless refused (run o stop place (before ++ token :: after))
      (run o' stop place (before ++ token :: after)) := by
  induction before generalizing place with
  | nil => exact (step_sameUnless h place _).bind_of_stops (hstops place _)
  | cons other before ih =>
    rw [List.forall_mem_cons] at hbefore
    exact (step_sameUnless hbefore.1 place _).bind fun next => ih hbefore.2 next

/-- A run that has to pass a token where every step stops does not succeed. -/
theorem run_stops (hstops : ∀ (place : Place) next, Stops (place.step o token next))
    (before : List Token) (place : Place) (after : List Token) :
    Stops (run o stop place (before ++ token :: after)) := by
  induction before generalizing place with
  | nil => exact (hstops place _).bind
  | cons other before ih => exact .of_bind ih

end Place

/-! ## Texts -/

/-- Of the options a grammar is made by the root only. -/
theorem Draft.grammar_congr (hroot : o'.root = o.root) (d : Draft) (stop : Nat) :
    d.grammar o' stop = d.grammar o stop := by
  have hsame : d.root o' = d.root o := by
    funext first
    rw [Draft.root, Draft.root, hroot]
  rw [Draft.grammar, Draft.grammar, hsame]

/-- Besides, left recursion is reported as the options say. -/
theorem Drafting.complete_congr (hroot : o'.root = o.root)
    (hleft : o'.leftRecursion = o.leftRecursion) (stop : Nat) :
    complete o' stop = complete o stop := by
  have hcheck : checkLeftRecursion o' = checkLeftRecursion o := by
    funext g
    rw [checkLeftRecursion, checkLeftRecursion, hleft]
  rw [complete, complete, hcheck]
  simp only [Draft.grammar_congr hroot]

namespace Grammar

variable {source : String} {tokens : List Token}

/-- A text is read alike if its tokens run alike, and nothing else that matters differs. -/
theorem read_eq_of_run (htokens : tokenize source = .ok tokens)
    (hroot : o'.root = o.root) (hleft : o'.leftRecursion = o.leftRecursion)
    (hrun :
      Place.run o' (byteLength source.toList) .between tokens (.ofSymbols (.ofTokens tokens)) =
        Place.run o (byteLength source.toList) .between tokens (.ofSymbols (.ofTokens tokens))) :
    read source o' = read source o := by
  have hsame : Drafting.ofTokens o' (byteLength source.toList) tokens
      (.ofSymbols (.ofTokens tokens)) = Drafting.ofTokens o (byteLength source.toList) tokens
      (.ofSymbols (.ofTokens tokens)) := by
    show EStateM.bind _ _ _ = EStateM.bind _ _ _
    rw [EStateM.bind, EStateM.bind, hrun, complete_congr hroot hleft]
  rw [read, read, htokens]
  simp only [hsame]

/-- A run that fails is the error of the text. -/
theorem parse_eq_error_of_run {e : ParseError} {final : Draft}
    (htokens : tokenize source = .ok tokens)
    (hrun : Place.run o (byteLength source.toList) .between tokens
      (.ofSymbols (.ofTokens tokens)) = .error e final) : parse source o = .error e := by
  have hread : Drafting.ofTokens o (byteLength source.toList) tokens
      (.ofSymbols (.ofTokens tokens)) = .error e final := bind_eq_error_of_eq_error hrun
  rw [parse, read, htokens]
  simp only [hread]

end Grammar

end Bnf
