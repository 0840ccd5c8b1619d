import Bnf.Proofs.Cutting
import Bnf.Proofs.Tree.Bare
import Bnf.Proofs.Tree.Nesting

/-!
# Line breaks inside of parentheses

Between the tokens of a group a line break may stand wherever no repetition operator follows. So if
one is put there, the tokens spell the same tree. It is found in which part of the tree the line
break comes: between two parts it joins the line breaks that may be there, and inside of a part the
part takes it up, down to the parentheses of a group.

## Main definitions

- `Breakable` — tokens that do not start with a repetition operator

## Main results

- `Tree.Atom.Spelled.insert` — a line break inside of an atom
- `Tree.Spells.insert` — a line break inside of parentheses
- `Tree.Spells.exists_break` — the same for the tokens of a text that is changed
-/

namespace Bnf

theorem Newlines.insert {token : Token} {before after : List Token} (h : Newlines (before ++ after))
    (htoken : token.kind = .newline) : Newlines (before ++ token :: after) := by
  intro other hother
  obtain rfl | hmem := (List.perm_middle.mem_iff.1 hother : other ∈ token :: (before ++ after)) |>
    List.mem_cons.1
  · exact htoken
  · exact h other hmem

theorem Newlines.of_append {tokens others : List Token} (h : Newlines (tokens ++ others)) :
    Newlines tokens ∧ Newlines others :=
  List.forall_mem_append.1 h

/-- Tokens in front of which a line break may come, inside of parentheses. -/
def Breakable (tokens : List Token) : Prop :=
  ∃ token rest, tokens = token :: rest ∧ token.kind.bounds? = none

namespace Breakable

variable {tokens front : List Token}

theorem ne_nil (h : Breakable tokens) : tokens ≠ [] := by
  obtain ⟨_, _, rfl, -⟩ := h
  exact List.cons_ne_nil _ _

theorem of_append {back : List Token} (h : Breakable (front ++ back)) (hsome : front ≠ []) :
    Breakable front := by
  obtain ⟨first, rest, heq, hkind⟩ := h
  obtain ⟨token, front, rfl⟩ := List.exists_cons_of_ne_nil hsome
  obtain ⟨rfl, -⟩ := List.cons.inj heq
  exact ⟨token, front, rfl, hkind⟩

end Breakable

namespace Tree

variable {token : Token}

mutual

/-- **A line break inside of an atom**, which is a group then. -/
theorem Atom.Spelled.insert (htoken : token.kind = .newline) {atom : Atom}
    {tokens before after : List Token} : atom.Spelled tokens → tokens = before ++ after →
    before ≠ [] → Breakable after → atom.Spelled (before ++ token :: after)
  | .literal, hsplit, hsome, hafter | .set, hsplit, hsome, hafter | .any, hsplit, hsome, hafter
  | .name, hsplit, hsome, hafter => by
    -- A single token is not cut in two.
    obtain ⟨hnil, -⟩ | ⟨-, hnil⟩ := List.append_eq_singleton_iff.1 hsplit.symm
    · exact absurd hnil hsome
    · exact absurd hnil hafter.ne_nil
  | @Atom.Spelled.group opening closing _ front inner back hfront hinner hback, hsplit, hsome,
    hafter => by
    obtain ⟨_, before, rfl⟩ := List.exists_cons_of_ne_nil hsome
    obtain ⟨rfl, hinside⟩ := List.cons.inj hsplit
    obtain ⟨middle, rfl, hbehind⟩ | ⟨middle, -, rfl, rfl⟩ := append_eq_append_cases hinside
    · obtain ⟨rest, rfl, hlast⟩ | ⟨rest, hrest, hcut, rfl⟩ := append_eq_append_cases hbehind
      · obtain ⟨tail, rfl, rfl⟩ := exists_concat_of_append hlast hafter.ne_nil
        simpa using @Atom.Spelled.group opening closing _ _ _ _ hfront hinner (hback.insert htoken)
      · by_cases hmiddle : middle = []
        · subst hmiddle hcut
          have hline := hfront.append (.singleton htoken)
          simpa using @Atom.Spelled.group opening closing _ _ _ _ hline hinner hback
        · have hmore := hinner.insert htoken hcut hmiddle (hafter.of_append hrest) (by simp)
          simpa using @Atom.Spelled.group opening closing _ _ _ _ hfront hmore hback
    · simpa using @Atom.Spelled.group opening closing _ _ _ _ (hfront.insert htoken) hinner hback

theorem Term.Spelled.insert (htoken : token.kind = .newline) {term : Term}
    {tokens before after : List Token} : term.Spelled tokens → tokens = before ++ after →
    before ≠ [] → Breakable after → term.Spelled (before ++ token :: after)
  | .plain hatom, hsplit, hsome, hafter => .plain (hatom.insert htoken hsplit hsome hafter)
  | @Term.Spelled.repeated _ _ kind bounds span hatom hkind, hsplit, hsome, hafter => by
    obtain ⟨middle, hcut, rfl⟩ := exists_concat_of_append hsplit hafter.ne_nil
    have hmiddle : middle ≠ [] := by
      -- No line break comes in front of the operator.
      rintro rfl
      obtain ⟨_, _, ⟨⟩, hnone⟩ := hafter
      cases hkind.symm.trans hnone
    have hmore := hatom.insert htoken hcut hsome (hafter.of_append hmiddle)
    simpa using @Term.Spelled.repeated _ _ kind bounds span hmore hkind

/-- **A line break inside of a sequence**: the sequence is nested, or some parentheses are open. -/
theorem SequenceSpelled.insert (htoken : token.kind = .newline) {nested : Bool} {terms : List Term}
    {tokens before after : List Token} : SequenceSpelled nested terms tokens →
    tokens = before ++ after → before ≠ [] → Breakable after →
    (nested = false → 0 < openBehind 0 before) →
    SequenceSpelled nested terms (before ++ token :: after)
  | .one hterm, hsplit, hsome, hafter, _ => .one (hterm.insert htoken hsplit hsome hafter)
  | @SequenceSpelled.more _ _ _ tokens gap last hterms hgap hnested hlast, hsplit, hsome, hafter,
    hopen => by
    obtain ⟨middle, rfl, hbehind⟩ | ⟨middle, hmiddle, hcut, rfl⟩ := append_eq_append_cases hsplit
    · rw [hterms.nested.openBehind_skip] at hopen
      obtain ⟨rest, rfl, hcut⟩ | ⟨rest, -, rfl, rfl⟩ := append_eq_append_cases hbehind
      · rw [hgap.nested.openBehind_skip] at hopen
        by_cases hrest : rest = []
        · subst hrest hcut
          have hline := hgap.append (.singleton htoken)
          simpa using SequenceSpelled.more hterms hline
            (fun hflat => absurd (hopen hflat) (Nat.lt_irrefl 0)) hlast
        · simpa using SequenceSpelled.more hterms hgap hnested
            (hlast.insert htoken hcut hrest hafter)
      · have hclosed := (hgap.of_append.1.nested 0).1
        simpa using SequenceSpelled.more hterms (hgap.insert htoken)
          (fun hflat => absurd (hopen hflat) (by omega)) hlast
    · have hmore := hterms.insert htoken hcut hsome (hafter.of_append hmiddle) hopen
      simpa using SequenceSpelled.more hmore hgap hnested hlast

theorem AlternationSpelled.insert (htoken : token.kind = .newline) {nested : Bool}
    {alternatives : List (List Term)} {tokens before after : List Token} :
    AlternationSpelled nested alternatives tokens → tokens = before ++ after → before ≠ [] →
    Breakable after → (nested = false → 0 < openBehind 0 before) →
    AlternationSpelled nested alternatives (before ++ token :: after)
  | .one hterms, hsplit, hsome, hafter, hopen =>
    .one (hterms.insert htoken hsplit hsome hafter hopen)
  | @AlternationSpelled.more _ _ _ tokens gap bar others last hinit hgap hbar hothers hlast, hsplit,
    hsome, hbreak, hopen => by
    obtain ⟨middle, rfl, hbehind⟩ | ⟨middle, hmiddle, hcut, rfl⟩ := append_eq_append_cases hsplit
    · obtain ⟨rest, rfl, hsign⟩ | ⟨rest, -, rfl, rfl⟩ := append_eq_append_cases hbehind
      · cases rest with
        | nil =>
          obtain rfl := hsign
          have hline := hgap.append (.singleton htoken)
          simpa using AlternationSpelled.more hinit hline hbar hothers hlast
        | cons _ rest =>
          obtain ⟨rfl, hrest⟩ := List.cons.inj hsign
          obtain ⟨tail, rfl, hcut⟩ | ⟨tail, -, rfl, rfl⟩ := append_eq_append_cases hrest
          · by_cases htail : tail = []
            · subst htail hcut
              have hline := hothers.append (.singleton htoken)
              simpa using AlternationSpelled.more hinit hgap hbar hline hlast
            · have hsign : Nested [bar] 0 := .singleton (by simp [hbar]) (by simp [hbar])
              rw [hinit.nested.openBehind_skip, hgap.nested.openBehind_skip,
                ← List.singleton_append, hsign.openBehind_skip,
                hothers.nested.openBehind_skip] at hopen
              have hmore := hlast.insert htoken hcut htail hbreak hopen
              simpa using AlternationSpelled.more hinit hgap hbar hothers hmore
          · simpa using AlternationSpelled.more hinit hgap hbar (hothers.insert htoken) hlast
      · simpa using AlternationSpelled.more hinit (hgap.insert htoken) hbar hothers hlast
    · have hmore := hinit.insert htoken hcut hsome (hbreak.of_append hmiddle) hopen
      simpa using AlternationSpelled.more hmore hgap hbar hothers hlast

end

variable {before after : List Token}

/-- Some tokens are read if parentheses are open behind them. -/
theorem ne_nil_of_openBehind_pos (h : 0 < openBehind 0 before) : before ≠ [] := by
  rintro rfl
  exact Nat.lt_irrefl 0 h

/-- No parentheses are open inside of tokens without groups. -/
theorem openBehind_eq_zero_of_flat {tokens front : List Token} (h : Nested tokens 0)
    (hfront : front <+: tokens) : openBehind 0 front = 0 :=
  Nat.le_zero.1 (mostOpen_le_iff.1 (Nat.le_of_eq (h 0).2) front hfront)

theorem Rule.Spelled.insert (htoken : token.kind = .newline) {rule : Rule}
    (h : rule.Spelled (before ++ after)) (hopen : 0 < openBehind 0 before)
    (hafter : Breakable after) : rule.Spelled (before ++ token :: after) := by
  generalize hsplit : before ++ after = tokens at h
  obtain @⟨name, span, define, front, inner, alternatives, hdefine, hfront, hinner⟩ := h
  have hname : Nested [⟨.name name, span⟩] 0 := .singleton
  have hsign : Nested [define] 0 := .singleton (by simp [hdefine]) (by simp [hdefine])
  have hlead := hname.append (hsign.append hfront.nested)
  have hcut : [⟨.name name, span⟩] ++ ([define] ++ front) ++ inner = before ++ after := by
    simpa using hsplit.symm
  obtain ⟨middle, rfl, hmiddle⟩ | ⟨middle, -, hcut, -⟩ := append_eq_append_cases hcut
  · rw [hlead.openBehind_skip] at hopen
    have hmore := hinner.insert htoken hmiddle (ne_nil_of_openBehind_pos hopen) hafter
      fun _ => hopen
    simpa using Rule.Spelled.intro hdefine hfront hmore
  · rw [openBehind_eq_zero_of_flat hlead ⟨middle, hcut.symm⟩] at hopen
    cases hopen

theorem RulesSpelled.insert (htoken : token.kind = .newline) {rules : List Rule}
    {tokens : List Token} (h : RulesSpelled rules tokens) (hsplit : tokens = before ++ after)
    (hopen : 0 < openBehind 0 before) (hafter : Breakable after) :
    RulesSpelled rules (before ++ token :: after) := by
  induction h generalizing before after with
  | one hfront hrule =>
    obtain ⟨middle, rfl, rfl⟩ | ⟨middle, -, hcut, -⟩ := append_eq_append_cases hsplit
    · rw [hfront.nested.openBehind_skip] at hopen
      simpa using RulesSpelled.one hfront (hrule.insert htoken hopen hafter)
    · rw [openBehind_eq_zero_of_flat hfront.nested ⟨middle, hcut.symm⟩] at hopen
      cases hopen
  | more hrules hgap hsome hlast ih =>
    obtain ⟨middle, rfl, hbehind⟩ | ⟨middle, hmiddle, hcut, rfl⟩ := append_eq_append_cases hsplit
    · rw [hrules.nested.openBehind_skip] at hopen
      obtain ⟨rest, rfl, rfl⟩ | ⟨rest, -, hcut, -⟩ := append_eq_append_cases hbehind
      · rw [hgap.nested.openBehind_skip] at hopen
        simpa using RulesSpelled.more hrules hgap hsome (hlast.insert htoken hopen hafter)
      · rw [openBehind_eq_zero_of_flat hgap.nested ⟨rest, hcut.symm⟩] at hopen
        cases hopen
    · simpa using RulesSpelled.more (ih hcut hopen (hafter.of_append hmiddle)) hgap hsome hlast

/-- **A line break inside of parentheses**, in front of a token that is no repetition operator, does
    not change the tree. -/
theorem Spells.insert (htoken : token.kind = .newline) {rules : List Rule}
    (h : Spells rules (before ++ after)) (hopen : 0 < openBehind 0 before)
    (hafter : Breakable after) : Spells rules (before ++ token :: after) := by
  obtain ⟨front, back, hrules, hback, hsplit⟩ := h
  obtain ⟨middle, rfl, hcut⟩ | ⟨middle, hmiddle, hcut, rfl⟩ := append_eq_append_cases hsplit.symm
  · rw [hrules.nested.openBehind_skip,
      openBehind_eq_zero_of_flat hback.nested ⟨after, hcut.symm⟩] at hopen
    cases hopen
  · exact ⟨_, back, hrules.insert htoken hcut hopen (hafter.of_append hmiddle), hback, by simp⟩

/-- **A line break inside of parentheses** that is no longer a line break of its own, or that comes
    in front of a token that is no repetition operator: the tree is the same but for spans. -/
theorem Spells.exists_break {rules : List Rule} {more : List Token}
    (h : Spells rules (before ++ token :: after))
    (hopen : 0 < openBehind 0 before) (htoken : token.kind.bounds? = none)
    (hadded : BreakAdded before more) (n : Nat) :
    ∃ others, Spells others (more ++ (token :: after).map (Token.shift n)) ∧
      others.map Rule.bare = rules.map Rule.bare := by
  obtain ⟨span, rfl⟩ | ⟨init, span, other, rfl, rfl⟩ := hadded.cases
  · have hline : Spells rules (before ++ ⟨.newline, span⟩ :: token :: after) :=
      h.insert rfl hopen ⟨token, after, rfl, htoken⟩
    refine hline.exists_of_kinds ?_
    simp only [List.map_append, map_kind_shift, List.append_assoc]
    rfl
  · refine h.exists_of_kinds ?_
    simp only [List.map_append, map_kind_shift, List.append_assoc]
    rfl

end Tree

end Bnf
