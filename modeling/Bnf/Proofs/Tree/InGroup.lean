import Bnf.Proofs.Gates
import Bnf.Proofs.Tree.Nesting
import Bnf.Proofs.Tree.Recognition

/-!
# Runs that have come into a group

The parentheses that are open behind some tokens, by count, are the groups that the machine has
opened when it has read them. A run that succeeds can be cut behind any token, and continued with
other tokens. Put together: behind an open parenthesis the machine is inside of a rule, and if a
line break comes next, no repetition operator may follow.

## Main definitions

- `Place.openGroups` — how many groups are open

## Main results

- `Place.Consumed.openBehind_eq` — open groups are told by the tokens that have been read
- `Place.exists_place_of_run` — the first part of a run
- `Place.run_newline_operator` — a repetition operator behind a line break
-/

namespace Bnf

open Drafting Bnf.Tree

/-! ## Open groups -/

theorem Begun.exists_nested {nested hasTerm : Bool} {tokens : List Token}
    (h : Begun nested hasTerm tokens) : ∃ depth, Nested tokens depth := by
  cases h with
  | start hfront => exact ⟨0, hfront.nested⟩
  | @bar front _ tokens before bar after hfront hinner hbefore hbar hafter =>
    have hsign : Nested [bar] 0 := .singleton (by simp [hbar]) (by simp [hbar])
    have hbehind := hbefore.nested.append (hsign.append hafter.nested)
    exact ⟨_, hfront.nested.append (hinner.nested.append hbehind)⟩
  | term hfront hinner hgap _ =>
    exact ⟨_, hfront.nested.append (hinner.nested.append hgap.nested)⟩

/-- **Every open group is an open parenthesis.** -/
theorem Standing.openBehind_eq {groups : List OpenGroup} {hasTerm : Bool} {tokens : List Token}
    (h : Standing groups hasTerm tokens) (n : Nat) :
    openBehind n tokens = n + groups.length := by
  induction groups generalizing hasTerm tokens with
  | nil =>
    obtain ⟨depth, hnested⟩ := Begun.exists_nested h
    exact (hnested n).1
  | cons group groups ih =>
    obtain ⟨outer, inner, rfl, houter, hinner⟩ := h
    obtain ⟨depth, hnested⟩ := hinner.exists_nested
    rw [openBehind_append, ih houter, openBehind_cons, Token.openBehind, (hnested _).1,
      List.length_cons, Nat.add_assoc]

theorem OpenRule.Held.openBehind_eq {r : OpenRule} {tokens : List Token} (h : r.Held tokens)
    (n : Nat) : openBehind n tokens = n + r.groups.length := by
  rw [← r.groups_settle]
  exact h.settle.openBehind_eq n

theorem Preceding.exists_nested {tokens : List Token} (h : Preceding tokens) :
    ∃ depth, Nested tokens depth := by
  obtain hlines | ⟨rules, front, gap, hrules, hgap, -, rfl⟩ := h
  · exact ⟨0, hlines.nested⟩
  · exact ⟨_, hrules.nested.append hgap.nested⟩

namespace Place

/-- How many groups are open. -/
def openGroups : Place → Nat
  | .inside r => r.groups.length
  | _ => 0

/-- **The parentheses that are open behind the tokens of a place** are the groups that are open
    there. -/
theorem Consumed.openBehind_eq {place : Place} {tokens : List Token} (h : place.Consumed tokens) :
    openBehind 0 tokens = place.openGroups := by
  cases place with
  | between => exact (Newlines.nested h 0).1
  | named name span =>
    obtain ⟨front, hfront, rfl⟩ := h
    obtain ⟨depth, hnested⟩ := hfront.exists_nested
    exact (hnested.append (.singleton : Nested [⟨.name name, span⟩] 0) 0).1
  | inside r =>
    obtain ⟨front, define, others, hfront, hdefine, hheld, rfl⟩ := h
    obtain ⟨depth, hnested⟩ := hfront.exists_nested
    have hname : Nested [⟨.name r.name, r.span⟩] 0 := .singleton
    have hsign : Nested [define] 0 := .singleton (by simp [hdefine]) (by simp [hdefine])
    calc openBehind 0 (front ++ ⟨.name r.name, r.span⟩ :: define :: others)
      _ = openBehind 0 ([⟨.name r.name, r.span⟩] ++ [define] ++ others) := by
        rw [openBehind_append, (hnested 0).1]
        rfl
      _ = openBehind 0 others := by rw [openBehind_append, ((hname.append hsign) 0).1]
      _ = r.groups.length := by rw [hheld.openBehind_eq, Nat.zero_add]
  | below r =>
    obtain ⟨front, gap, hrule, hgap, -, rfl⟩ := h
    obtain ⟨rules, hrules⟩ := hrule.exists_rules
    exact (hrules.nested.append hgap.nested 0).1

/-! ## Parts of runs -/

variable {options : ParseOptions} {stop : Nat}

/-- Of the token behind it a step sees only whether it defines a name. -/
theorem step_of_next_ne_define {next next' : Option TokenKind} (h : next ≠ some .define)
    (h' : next' ≠ some .define) (place : Place) (token : Token) :
    place.step options token next = place.step options token next' := by
  cases place with
  | inside r =>
    have hread (r : OpenRule) : r.read options token next = r.read options token next' := by
      obtain ⟨kind, span⟩ := token
      cases kind with
      | name name => simp only [OpenRule.read, if_neg h, if_neg h']
      | _ => rfl
    rw [step, step, OpenRule.step, OpenRule.step, hread]
  | _ => rfl

/-- **The first part of a run that succeeds** leads to a place, from which the run may go on with
    any other tokens. -/
theorem exists_place_of_run {start : Place} {consumed before after : List Token}
    {draft final : Draft} (hstart : start.Consumed consumed)
    (hafter : after.head?.map (·.kind) ≠ some .define)
    (h : run options stop start (before ++ after) draft = .ok () final) :
    ∃ place middle, place.Consumed (consumed ++ before) ∧
      run options stop place after middle = .ok () final ∧
      ∀ more other, more.head?.map (·.kind) ≠ some .define →
        run options other start (before ++ more) draft = run options other place more middle := by
  induction before generalizing start consumed draft with
  | nil => exact ⟨start, draft, by simpa using hstart, h, fun _ _ _ => rfl⟩
  | cons token before ih =>
    obtain ⟨next, behind, hstep, hrest⟩ := bind_eq_ok.1 h
    obtain ⟨place, middle, hplace, hrun, hmore⟩ := ih (hstart.step hstep) hrest
    refine ⟨place, middle, by simpa using hplace, hrun, fun more other hdefine => ?_⟩
    have hsame : start.step options token ((before ++ more).head?.map (·.kind)) draft =
        .ok next behind := by
      cases before with
      | nil =>
        exact (congrFun (step_of_next_ne_define hdefine hafter start token) draft).trans hstep
      | cons _ _ => exact hstep
    exact (bind_eq_of_eq_ok hsame).trans (hmore more other hdefine)

/-- **A repetition operator behind a line break** is refused inside of a group. -/
theorem run_newline_operator {place : Place} {newline operator : Token} {bounds : Bounds}
    (hopen : 0 < place.openGroups) (hnewline : newline.kind = .newline)
    (hoperator : operator.kind.bounds? = some bounds) (rest : List Token) (draft : Draft) :
    run options stop place (newline :: operator :: rest) draft =
      .error ⟨.grammar (.expectedTerm operator.kind.describe), operator.span.start⟩ draft := by
  cases place with
  | inside r =>
    have hgroups : r.settle.groups.isEmpty = false := by
      rw [r.groups_settle, List.isEmpty_eq_false_iff]
      exact List.ne_nil_of_length_pos hopen
    have hbreak : (Place.inside r).step options newline (some operator.kind) draft =
        .ok (.inside r.settle) draft := by
      rw [step, OpenRule.step_of_bounds?_eq_none (by rw [hnewline]; rfl), OpenRule.read, hnewline]
      simp only [hgroups, Bool.false_and, Bool.false_eq_true, if_false]
      rfl
    -- The line break has settled the last term, so nothing is left to repeat.
    have hrefused (next : Option TokenKind) :
        (Place.inside r.settle).step options operator next draft =
          .error ⟨.grammar (.expectedTerm operator.kind.describe), operator.span.start⟩ draft := by
      obtain ⟨kind, span⟩ := operator
      rw [step, OpenRule.step, r.term_settle, OpenRule.settle_of_term_eq_none r.term_settle]
      cases kind with
      | question | star | plus | counts => rfl
      | _ => cases hoperator
    calc run options stop (.inside r) (newline :: operator :: rest) draft
      _ = run options stop (.inside r.settle) (operator :: rest) draft := bind_eq_of_eq_ok hbreak
      _ = _ := bind_eq_error_of_eq_error (hrefused _)
  | _ => exact absurd hopen (Nat.lt_irrefl 0)

end Place

end Bnf
