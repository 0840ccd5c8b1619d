import Bnf.Proofs.Drafting
import Bnf.Proofs.Tree.Run

/-!
# A run that succeeds has read a tree

What the machine has read at some point of a run is a part of a grammar text: rules that are
complete, and of the last one a beginning, in which some groups may be open. `Place.Consumed` says
this of a place and the tokens that led to it. Every step that succeeds keeps it, and at the end of
a run that succeeds nothing is open any more.

## Main definitions

- `Begun` — the beginning of an alternation
- `Standing` — the beginning of an alternation in which groups are open
- `Place.Consumed` — the tokens that a run has read when it comes to a place

## Main results

- `Place.Consumed.step` — a step keeps what has been read a part of a grammar text
- `Tree.exists_spells_of_run` — the tokens of a run that succeeds spell a tree, or no rule at all
-/

namespace Bnf

open Drafting Bnf.Tree

/-- A term that follows is the next of the last alternative. -/
theorem Tree.AlternationSpelled.extend {nested : Bool} {alternatives : List (List Tree.Term)}
    {tokens gap last : List Token} {term : Tree.Term}
    (h : AlternationSpelled nested alternatives tokens) (hgap : Newlines gap)
    (hnested : nested = false → gap = []) (hlast : term.Spelled last) :
    ∃ alternatives, AlternationSpelled nested alternatives (tokens ++ (gap ++ last)) := by
  cases h with
  | one hterms => exact ⟨_, .one (.more hterms hgap hnested hlast)⟩
  | more hinner hbefore hbar hafter hterms =>
    have hmore :=
      AlternationSpelled.more hinner hbefore hbar hafter (.more hterms hgap hnested hlast)
    exact ⟨_, by simpa using hmore⟩

/-! ## Beginnings of an alternation -/

/-- The beginning of an alternation, line breaks in front of it included. The flag `hasTerm` tells
    whether its last alternative has a term. -/
inductive Begun (nested : Bool) : (hasTerm : Bool) → List Token → Prop
  | start {front} : Newlines front → Begun nested false front
  | bar {front alternatives tokens before bar after} :
      Newlines front → AlternationSpelled nested alternatives tokens → Newlines before →
      bar.kind = .bar → Newlines after →
      Begun nested false (front ++ (tokens ++ (before ++ bar :: after)))
  | term {front alternatives tokens gap} :
      Newlines front → AlternationSpelled nested alternatives tokens → Newlines gap →
      (nested = false → gap = []) → Begun nested true (front ++ (tokens ++ gap))

namespace Begun

variable {nested hasTerm : Bool} {tokens : List Token}

/-- Line breaks may come before the first term of an alternative, and anywhere in a group. -/
theorem newline {token : Token} (h : Begun nested hasTerm tokens) (hkind : token.kind = .newline)
    (hfree : nested = true ∨ hasTerm = false) : Begun nested hasTerm (tokens ++ [token]) := by
  have hline := Newlines.singleton hkind
  cases h with
  | start hfront => exact .start (hfront.append hline)
  | bar hfront hinner hbefore hbar hafter =>
    simpa using Begun.bar hfront hinner hbefore hbar (hafter.append hline)
  | term hfront hinner hgap hnested =>
    rcases hfree with rfl | hfalse
    · simpa using Begun.term hfront hinner (hgap.append hline) (by simp)
    · simp at hfalse

/-- A term goes on with the alternative that was begun, or begins it. -/
theorem addTerm {term : Tree.Term} {last : List Token} (h : Begun nested hasTerm tokens)
    (hlast : term.Spelled last) : Begun nested true (tokens ++ last) := by
  cases h with
  | start hfront =>
    simpa using Begun.term hfront (.one (.one hlast)) .nil fun _ => rfl
  | bar hfront hinner hbefore hbar hafter =>
    simpa using Begun.term hfront (.more hinner hbefore hbar hafter (.one hlast)) .nil fun _ => rfl
  | term hfront hinner hgap hnested =>
    obtain ⟨_, hextended⟩ := hinner.extend hgap hnested hlast
    simpa using Begun.term hfront hextended .nil fun _ => rfl

/-- A bar behind a term begins the next alternative. -/
theorem addBar {gap : List Token} {token : Token} (h : Begun nested true tokens)
    (hgap : Newlines gap) (hbar : token.kind = .bar) :
    Begun nested false (tokens ++ (gap ++ [token])) := by
  cases h with
  | term hfront hinner hbefore _ =>
    simpa using Begun.bar hfront hinner (hbefore.append hgap) hbar .nil

/-- **Behind a term the alternatives can be over**, up to line breaks at both ends. -/
theorem exists_spelled (h : Begun nested true tokens) :
    ∃ front alternatives inner back, Newlines front ∧
      AlternationSpelled nested alternatives inner ∧ Newlines back ∧
      (nested = false → back = []) ∧ tokens = front ++ (inner ++ back) := by
  cases h with
  | term hfront hinner hgap hnested => exact ⟨_, _, _, _, hfront, hinner, hgap, hnested, rfl⟩

end Begun

/-- The beginning of an alternation in which groups are open, the innermost first. -/
def Standing : List OpenGroup → (hasTerm : Bool) → List Token → Prop
  | [], hasTerm, tokens => Begun false hasTerm tokens
  | group :: groups, hasTerm, tokens => ∃ outer inner,
      tokens = outer ++ ⟨.openParen, group.span⟩ :: inner ∧
      Standing groups group.outer.hasTerm outer ∧ Begun true hasTerm inner

namespace Standing

variable {groups : List OpenGroup} {hasTerm : Bool} {tokens : List Token}

/-- Where the machine stands, a line break changes nothing that it has to know. -/
theorem newline {token : Token} (h : Standing groups hasTerm tokens)
    (hkind : token.kind = .newline) (hfree : groups ≠ [] ∨ hasTerm = false) :
    Standing groups hasTerm (tokens ++ [token]) := by
  cases groups with
  | nil => exact Begun.newline h hkind (.inr (by simpa using hfree))
  | cons group groups =>
    obtain ⟨outer, inner, rfl, houter, hinner⟩ := h
    exact ⟨outer, inner ++ [token], by simp, houter, hinner.newline hkind (.inl rfl)⟩

/-- A term is added to the innermost group. -/
theorem addTerm {term : Tree.Term} {last : List Token} (h : Standing groups hasTerm tokens)
    (hlast : term.Spelled last) : Standing groups true (tokens ++ last) := by
  cases groups with
  | nil => exact Begun.addTerm h hlast
  | cons group groups =>
    obtain ⟨outer, inner, rfl, houter, hinner⟩ := h
    exact ⟨outer, inner ++ last, by simp, houter, hinner.addTerm hlast⟩

/-- So is a bar. -/
theorem addBar {token : Token} (h : Standing groups true tokens) (hbar : token.kind = .bar) :
    Standing groups false (tokens ++ [token]) := by
  cases groups with
  | nil => exact Begun.addBar h .nil hbar
  | cons group groups =>
    obtain ⟨outer, inner, rfl, houter, hinner⟩ := h
    exact ⟨outer, inner ++ [token], by simp, houter, hinner.addBar .nil hbar⟩

end Standing

/-- The beginning of a rule behind the sign that defines it. The last term may not be settled. -/
def OpenRule.Held (r : OpenRule) (tokens : List Token) : Prop :=
  match r.term with
  | none => Standing r.groups r.inner.hasTerm tokens
  | some _ => ∃ front last atom, tokens = front ++ last ∧
      Standing r.groups r.inner.hasTerm front ∧ Atom.Spelled atom last

namespace OpenRule.Held

variable {r : OpenRule} {tokens : List Token}

/-- A term that is settled belongs to what was read. -/
theorem settle (h : r.Held tokens) :
    Standing r.settle.groups r.settle.inner.hasTerm tokens := by
  rw [OpenRule.Held] at h
  rw [OpenRule.settle]
  split at h
  · next hterm => simpa [hterm] using h
  · next term hterm =>
    obtain ⟨front, last, atom, rfl, hstanding, hatom⟩ := h
    simpa [hterm, Alternatives.append] using hstanding.addTerm (.plain hatom)

theorem of_standing (hterm : r.term = none) (h : Standing r.groups r.inner.hasTerm tokens) :
    r.Held tokens := by
  rw [OpenRule.Held]
  rw [hterm]
  exact h

/-- An atom is held as the last term, until it is known whether an operator follows. -/
theorem of_atom {atom : Atom} {last : List Token} {body : Body} {span : Span}
    (h : Standing r.groups r.inner.hasTerm tokens) (hatom : atom.Spelled last) :
    (r.withTerm body span).Held (tokens ++ last) :=
  ⟨tokens, last, atom, rfl, h, hatom⟩

end OpenRule.Held

/-! ## What a run has read -/

/-- What may stand in front of a rule: line breaks, or rules and line breaks. -/
def Preceding (tokens : List Token) : Prop :=
  Newlines tokens ∨ ∃ rules front gap, RulesSpelled rules front ∧ Newlines gap ∧ gap ≠ [] ∧
    tokens = front ++ gap

/-- A rule behind others makes one more. -/
theorem Preceding.addRule {tokens last : List Token} {rule : Tree.Rule} (h : Preceding tokens)
    (hlast : rule.Spelled last) : ∃ rules, RulesSpelled rules (tokens ++ last) := by
  obtain hlines | ⟨rules, front, gap, hrules, hgap, hsome, rfl⟩ := h
  · exact ⟨_, .one hlines hlast⟩
  · have hmore := RulesSpelled.more hrules hgap hsome hlast
    exact ⟨_, by simpa using hmore⟩

/-- The tokens of a rule of which everything has been read. -/
def OpenRule.Finished (r : OpenRule) (tokens : List Token) : Prop :=
  r.term = none ∧ r.groups = [] ∧ ∃ front define others, Preceding front ∧
    define.kind = .define ∧ Begun false true others ∧
    tokens = front ++ ⟨.name r.name, r.span⟩ :: define :: others

/-- What is finished spells rules. -/
theorem OpenRule.Finished.exists_rules {r : OpenRule} {tokens : List Token}
    (h : r.Finished tokens) : ∃ rules, RulesSpelled rules tokens := by
  obtain ⟨-, -, front, define, others, hfront, hdefine, hothers, rfl⟩ := h
  obtain ⟨lead, alternatives, inner, back, hlead, hinner, -, hback, rfl⟩ := hothers.exists_spelled
  rw [hback rfl, List.append_nil]
  exact hfront.addRule (.intro hdefine hlead hinner)

/-- The tokens that a run has read when it comes to a place. -/
def Place.Consumed : Place → List Token → Prop
  | .between, tokens => Newlines tokens
  | .named name span, tokens => ∃ front, Preceding front ∧ tokens = front ++ [⟨.name name, span⟩]
  | .inside r, tokens => ∃ front define others, Preceding front ∧ define.kind = .define ∧
      r.Held others ∧ tokens = front ++ ⟨.name r.name, r.span⟩ :: define :: others
  | .below r, tokens => ∃ front gap, r.Finished front ∧ Newlines gap ∧ gap ≠ [] ∧
      tokens = front ++ gap

section Step

variable {options : ParseOptions} {r : OpenRule} {place : Place} {token : Token}
  {next : Option TokenKind} {tokens : List Token} {draft final : Draft}

/-- The check is passed only behind a term. -/
theorem requireTerm_eq_ok {offset : Nat} (h : r.requireTerm offset draft = .ok () final) :
    r.inner.hasTerm = true := by
  rw [OpenRule.requireTerm] at h
  split at h
  · assumption
  · simp at h

/-- What was read before a parenthesis is put aside with the group. -/
theorem OpenRule.held_openGroup {r' : OpenRule} {span : Span} (hterm : r.term = none)
    (h : Standing r.groups r.inner.hasTerm tokens)
    (hopen : r.openGroup options span draft = .ok r' final) :
    r'.name = r.name ∧ r'.span = r.span ∧ r'.Held (tokens ++ [⟨.openParen, span⟩]) := by
  rw [OpenRule.openGroup] at hopen
  split at hopen
  · simp at hopen
  · obtain ⟨rfl, -⟩ := pure_eq_ok.1 hopen
    exact ⟨rfl, rfl, .of_standing hterm ⟨tokens, [], rfl, h, .start .nil⟩⟩

/-- What was read inside of it, and a term at least, spells the group. -/
theorem OpenRule.held_closeGroup {r' : OpenRule} {span : Span}
    (h : Standing r.groups r.inner.hasTerm tokens)
    (hclose : r.closeGroup span draft = .ok r' final) :
    r'.name = r.name ∧ r'.span = r.span ∧ r'.Held (tokens ++ [⟨.closeParen, span⟩]) := by
  cases hgroups : r.groups with
  | nil => simp [OpenRule.closeGroup, hgroups] at hclose
  | cons group groups =>
    simp only [OpenRule.closeGroup, hgroups, bind_eq_ok, pure_eq_ok] at hclose
    obtain ⟨_, _, hhas, symbols, _, -, rfl, -⟩ := hclose
    rw [requireTerm_eq_ok hhas, hgroups] at h
    obtain ⟨outer, inner, rfl, houter, hinner⟩ := h
    obtain ⟨lead, alternatives, middle, back, hlead, hmiddle, hback, -, rfl⟩ :=
      hinner.exists_spelled
    have hgroup : (Atom.group group.span alternatives span).Spelled
        (⟨.openParen, group.span⟩ :: (lead ++ (middle ++ (back ++ [⟨.closeParen, span⟩])))) :=
      .group hlead hmiddle hback
    exact ⟨rfl, rfl, outer, _, _, by simp, houter, hgroup⟩

/-- What a settled rule has read when a token that is no operator has come to it. -/
theorem OpenRule.consumed_read {front others : List Token} {define : Token}
    (hfront : Preceding front) (hdefine : define.kind = .define) (hterm : r.term = none)
    (h : Standing r.groups r.inner.hasTerm others)
    (hread : r.read options token next draft = .ok place final) :
    place.Consumed (front ++ ⟨.name r.name, r.span⟩ :: define :: (others ++ [token])) := by
  obtain ⟨kind, span⟩ := token
  -- a place inside the same rule has read what its own beginning has read
  have inside {r' : OpenRule} (hname : r'.name = r.name) (hspan : r'.span = r.span)
      (hheld : r'.Held (others ++ [⟨kind, span⟩])) :
      (Place.inside r').Consumed
        (front ++ ⟨.name r.name, r.span⟩ :: define :: (others ++ [⟨kind, span⟩])) :=
    ⟨front, define, _, hfront, hdefine, hheld, by rw [hname, hspan]⟩
  have atom {atom : Atom} {body : Body} (hatom : atom.Spelled [⟨kind, span⟩]) :
      (Place.inside (r.withTerm body span)).Consumed
        (front ++ ⟨.name r.name, r.span⟩ :: define :: (others ++ [⟨kind, span⟩])) :=
    inside rfl rfl (.of_atom h hatom)
  cases kind with
  | newline =>
    simp only [OpenRule.read, pure_eq_ok] at hread
    obtain ⟨rfl, -⟩ := hread
    split
    · next hends =>
      obtain ⟨hgroups, hhas⟩ : r.groups = [] ∧ r.inner.hasTerm = true := by simpa using hends
      rw [hgroups, hhas] at h
      exact ⟨_, [⟨.newline, span⟩],
        ⟨hterm, hgroups, front, define, others, hfront, hdefine, h, rfl⟩,
        .singleton rfl, by simp, by simp⟩
    · next hgoes =>
      refine inside rfl rfl (.of_standing hterm (h.newline rfl ?_))
      cases hgroups : r.groups <;> simp_all
  | bar =>
    simp only [OpenRule.read, bind_eq_ok, pure_eq_ok] at hread
    obtain ⟨_, _, hhas, rfl, -⟩ := hread
    rw [requireTerm_eq_ok hhas] at h
    exact inside rfl rfl (.of_standing hterm (h.addBar rfl))
  | openParen =>
    simp only [OpenRule.read, bind_eq_ok, pure_eq_ok] at hread
    obtain ⟨r', _, hopen, rfl, -⟩ := hread
    obtain ⟨hname, hspan, hheld⟩ := OpenRule.held_openGroup hterm h hopen
    exact inside hname hspan hheld
  | closeParen =>
    simp only [OpenRule.read, bind_eq_ok, pure_eq_ok] at hread
    obtain ⟨r', _, hclose, rfl, -⟩ := hread
    obtain ⟨hname, hspan, hheld⟩ := OpenRule.held_closeGroup h hclose
    exact inside hname hspan hheld
  | literal chars =>
    obtain ⟨rfl, -⟩ := pure_eq_ok.1 hread
    exact atom .literal
  | set chars =>
    obtain ⟨rfl, -⟩ := pure_eq_ok.1 hread
    exact atom .set
  | any =>
    obtain ⟨rfl, -⟩ := pure_eq_ok.1 hread
    exact atom .any
  | name text =>
    simp only [OpenRule.read] at hread
    split at hread
    · simp [bind_eq_ok] at hread
    · simp only [bind_eq_ok, pure_eq_ok] at hread
      obtain ⟨_, _, -, id, _, -, rfl, -⟩ := hread
      exact atom .name
  | define | question | star | plus | counts =>
    simp [OpenRule.read] at hread

/-- An operator makes a term of the atom in front of it. -/
theorem OpenRule.consumed_applyOperator {front others : List Token} {define : Token} {term : Term}
    {bounds : Bounds} {r' : OpenRule} (hfront : Preceding front) (hdefine : define.kind = .define)
    (hterm : r.term = some term) (h : r.Held others) (hbounds : token.kind.bounds? = some bounds)
    (happly : r.applyOperator options term bounds token.span draft = .ok r' final) :
    (Place.inside r').Consumed
      (front ++ ⟨.name r.name, r.span⟩ :: define :: (others ++ [token])) := by
  rw [OpenRule.applyOperator] at happly
  split at happly
  · simp at happly
  split at happly
  · simp at happly
  split at happly
  · simp at happly
  simp only [bind_eq_ok, pure_eq_ok] at happly
  obtain ⟨symbols, _, -, rfl, -⟩ := happly
  rw [OpenRule.Held] at h
  rw [hterm] at h
  obtain ⟨before, last, atom, rfl, hstanding, hatom⟩ := h
  refine ⟨front, define, _, hfront, hdefine, .of_standing rfl ?_, rfl⟩
  simpa [Alternatives.append] using hstanding.addTerm (.repeated hatom hbounds)

/-- A name begins a rule behind those that were read. -/
theorem Place.consumed_startRule (h : Preceding tokens)
    (hstart : startRule options token draft = .ok place final) :
    place.Consumed (tokens ++ [token]) := by
  obtain ⟨kind, span⟩ := token
  cases kind with
  | name text =>
    simp only [startRule, bind_eq_ok, pure_eq_ok] at hstart
    obtain ⟨_, _, -, rfl, -⟩ := hstart
    exact ⟨tokens, h, rfl⟩
  | _ => simp [startRule] at hstart

/-- The sign of definition has to follow. -/
theorem Place.consumed_defineRule {name : String} {span : Span}
    (h : (Place.named name span).Consumed tokens)
    (hdefine : defineRule name span token draft = .ok place final) :
    place.Consumed (tokens ++ [token]) := by
  obtain ⟨front, hfront, rfl⟩ := h
  rw [defineRule] at hdefine
  split at hdefine
  · next hkind =>
    simp only [enterRule, bind_eq_ok] at hdefine
    obtain ⟨id, _, -, _, _, -, henter⟩ := hdefine
    split at henter
    · simp at henter
    · simp only [bind_eq_ok, pure_eq_ok] at henter
      obtain ⟨_, _, -, rfl, -⟩ := henter
      exact ⟨front, token, [], hfront, hkind, .of_standing rfl (.start .nil), by simp⟩
  · simp at hdefine

/-- **A step inside a rule keeps what was read in order.** There is one case for each kind of token
    that it can take. -/
theorem OpenRule.consumed_step (h : (Place.inside r).Consumed tokens)
    (hstep : r.step options token next draft = .ok place final) :
    place.Consumed (tokens ++ [token]) := by
  obtain ⟨front, define, others, hfront, hdefine, hheld, rfl⟩ := h
  rw [List.append_assoc, List.cons_append, List.cons_append]
  cases hbounds : token.kind.bounds? with
  | none =>
    rw [OpenRule.step_of_bounds?_eq_none hbounds] at hstep
    rw [← r.name_settle, ← r.span_settle]
    exact OpenRule.consumed_read hfront hdefine r.term_settle hheld.settle hstep
  | some bounds =>
    cases hterm : r.term with
    | none =>
      -- An operator without a term in front of it is read as any other token.
      have hread : r.settle.read options token next draft = .ok place final := by
        simpa [OpenRule.step, hterm] using hstep
      have hsettle := hheld.settle
      rw [OpenRule.settle_of_term_eq_none hterm] at hread hsettle
      exact OpenRule.consumed_read hfront hdefine hterm hsettle hread
    | some term =>
      simp only [OpenRule.step, hterm, hbounds, bind_eq_ok, pure_eq_ok] at hstep
      obtain ⟨r', _, happly, rfl, -⟩ := hstep
      exact OpenRule.consumed_applyOperator hfront hdefine hterm hheld hbounds happly

/-- Below a rule a line break, a bar or the name of the next rule may follow. -/
theorem Place.consumed_step_below (h : (Place.below r).Consumed tokens)
    (hstep : (Place.below r).step options token next draft = .ok place final) :
    place.Consumed (tokens ++ [token]) := by
  obtain ⟨front, gap, hrule, hgap, hsome, rfl⟩ := h
  obtain ⟨kind, span⟩ := token
  cases kind with
  | newline =>
    obtain ⟨rfl, -⟩ := pure_eq_ok.1 hstep
    exact ⟨front, gap ++ [⟨.newline, span⟩], hrule, hgap.append (.singleton rfl), by simp, by simp⟩
  | bar =>
    obtain ⟨rfl, -⟩ := pure_eq_ok.1 hstep
    obtain ⟨hterm, hgroups, lead, define, others, hlead, hdefine, hothers, rfl⟩ := hrule
    refine ⟨lead, define, others ++ (gap ++ [⟨.bar, span⟩]), hlead, hdefine, ?_, by simp⟩
    refine .of_standing hterm ?_
    simp only [hgroups]
    exact hothers.addBar hgap rfl
  | _ =>
    -- Any other token has to be the name of the next rule.
    simp only [Place.step, bind_eq_ok] at hstep
    obtain ⟨_, _, -, hstart⟩ := hstep
    obtain ⟨rules, hrules⟩ := hrule.exists_rules
    exact consumed_startRule (.inr ⟨rules, front, gap, hrules, hgap, hsome, rfl⟩) hstart

/-- **A step keeps what has been read a part of a grammar text.** -/
theorem Place.Consumed.step {start : Place} (h : start.Consumed tokens)
    (hstep : start.step options token next draft = .ok place final) :
    place.Consumed (tokens ++ [token]) := by
  cases start with
  | between =>
    simp only [Place.step] at hstep
    split at hstep
    · next hkind =>
      obtain ⟨rfl, -⟩ := pure_eq_ok.1 hstep
      exact Newlines.append h (.singleton hkind)
    · exact consumed_startRule (.inl h) hstep
  | named name span => exact consumed_defineRule h hstep
  | inside r => exact OpenRule.consumed_step h hstep
  | below r => exact consumed_step_below h hstep

/-- What has been read at the end of a text is the whole of a grammar text, or line breaks. -/
theorem Place.Consumed.finish {stop : Nat} (h : place.Consumed tokens)
    (hfinish : place.finish stop draft = .ok () final) :
    Newlines tokens ∨ ∃ rules, Spells rules tokens := by
  have spells {r : OpenRule} {front gap : List Token} (hrule : r.Finished front)
      (hgap : Newlines gap) : ∃ rules, Spells rules (front ++ gap) := by
    obtain ⟨rules, hrules⟩ := hrule.exists_rules
    exact ⟨rules, front, gap, hrules, hgap, rfl⟩
  cases place with
  | between => exact .inl h
  | named name span => simp [Place.finish] at hfinish
  | inside r =>
    obtain ⟨front, define, others, hfront, hdefine, hheld, rfl⟩ := h
    simp only [Place.finish, bind_eq_ok] at hfinish
    obtain ⟨_, _, hhas, _, _, hclosed, -⟩ := hfinish
    have hstanding := hheld.settle
    rw [requireTerm_eq_ok hhas] at hstanding
    cases hgroups : r.groups with
    | nil =>
      rw [r.groups_settle, hgroups] at hstanding
      have hrule : r.settle.Finished (front ++ ⟨.name r.name, r.span⟩ :: define :: others) := by
        refine ⟨r.term_settle, by simp [hgroups], front, define, others, hfront, hdefine,
          hstanding, ?_⟩
        rw [r.name_settle, r.span_settle]
      simpa using Or.inr (spells hrule .nil)
    | cons group groups => simp [OpenRule.requireClosed, hgroups] at hclosed
  | below r =>
    obtain ⟨front, gap, hrule, hgap, -, rfl⟩ := h
    exact .inr (spells hrule hgap)

end Step

/-- **The tokens of a run that succeeds spell a tree**, unless they are line breaks only. -/
theorem Tree.exists_spells_of_run {options : ParseOptions} {stop : Nat} {tokens : List Token}
    {draft final : Draft} (h : Place.run options stop .between tokens draft = .ok () final) :
    Newlines tokens ∨ ∃ rules, Spells rules tokens := by
  have go {rest consumed : List Token} {place : Place} {draft : Draft}
      (hplace : place.Consumed consumed) (h : place.run options stop rest draft = .ok () final) :
      Newlines (consumed ++ rest) ∨ ∃ rules, Spells rules (consumed ++ rest) := by
    induction rest generalizing consumed place draft with
    | nil => simpa using hplace.finish h
    | cons token rest ih =>
      obtain ⟨_, _, hstep, hrest⟩ := bind_eq_ok.1 h
      simpa using ih (hplace.step hstep) hrest
  have hstart : Place.between.Consumed [] := Newlines.nil
  simpa using go hstart h

end Bnf
