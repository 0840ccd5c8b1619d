import Mathlib.Data.Finset.Card
import Bnf.Grammar.Analysis
import Bnf.Proofs.Search
import Bnf.Proofs.WellFormed

/-!
# Left recursion

The search for rules that stand for the empty text adds a rule at each step, so it ends with a set
that is closed under the step: this is the least such set. A rule enters another if this stands in
one of its alternatives behind rules that stand for the empty text. There is a left recursive rule
if and only if entering goes round in a circle.

## Main definitions

- `Grammar.Vanishes` — a rule stands for the empty text, among others
- `Grammar.Enters` — a rule can enter another before it has read a character

## Main results

- `Grammar.nullable_iff` — the rules that are found to stand for the empty text are those that do
- `Grammar.leftRecursive_eq_nil_iff` — no rule is left recursive if no rule comes back to itself
-/

namespace Bnf

open Relation

/-! ## Saturation -/

section

variable {α : Type} [DecidableEq α] {step : α → α}

/-- What each step keeps is kept by all of them. -/
theorem saturate_induction {motive : α → Prop} (hstep : ∀ a, motive a → motive (step a)) (n : Nat)
    {a : α} (h : motive a) : motive (saturate step n a) := by
  induction n generalizing a with
  | zero => exact h
  | succ n ih =>
    rw [saturate]
    split
    · exact h
    · exact ih (hstep a h)

/-- **A step that adds something each time comes to an end**: after as many times as can be added at
    most, it changes nothing. -/
theorem saturate_fixed {good : α → Prop} {rank : α → Nat} {bound : Nat}
    (hgood : ∀ a, good a → good (step a)) (hbound : ∀ a, good a → rank a ≤ bound)
    (hgrows : ∀ a, good a → step a ≠ a → rank a < rank (step a)) {n : Nat} {a : α} (h : good a)
    (hn : bound ≤ rank a + n) : step (saturate step n a) = saturate step n a := by
  induction n generalizing a with
  | zero =>
    by_contra hnew
    have hlt := hgrows a h hnew
    have hle := hbound _ (hgood a h)
    omega
  | succ n ih =>
    rw [saturate]
    split
    · assumption
    · next hnew =>
      have hlt := hgrows a h hnew
      exact ih (hgood a h) (by omega)

end

/-! ## Rules that stand for the empty text -/

/-- Only a rule can vanish. -/
theorem Symbol.vanishes_iff {known : Array Bool} {symbol : Symbol} :
    symbol.vanishes known = true ↔
      ∃ id : Nat, symbol = .rule id ∧ known.getD id false = true := by
  cases symbol <;> simp [Symbol.vanishes]

/-- The symbol that mentions a rule under another identity. -/
def Symbol.rename (f : Nat → Nat) : Symbol → Symbol
  | .rule id => .rule (f id)
  | .chars s => .chars s

/-- A rule is entered through a mention with nothing in front but what vanishes. -/
theorem Body.mem_entered_iff {known : Array Bool} {body : Body} {other : Nat} :
    other ∈ Body.entered known body ↔ ∃ front back, body = front ++ .rule other :: back ∧
      ∀ symbol ∈ front, symbol.vanishes known = true := by
  induction body with
  | nil => simp [entered]
  | cons first rest ih =>
    cases first with
    | chars s =>
      -- A set of characters does not stand for the empty text, so nothing behind it is entered.
      refine iff_of_false (by simp [entered]) ?_
      rintro ⟨_ | ⟨first, front⟩, back, hbody, hfront⟩
      · simp at hbody
      · obtain ⟨rfl, -⟩ := List.cons.inj hbody
        exact absurd (hfront _ List.mem_cons_self) (by simp [Symbol.vanishes])
    | rule skipped =>
      by_cases hvanishes : known.getD skipped false = true
      · rw [entered, if_pos hvanishes, List.mem_cons, ih]
        constructor
        · rintro (rfl | ⟨front, back, rfl, hfront⟩)
          · exact ⟨[], rest, rfl, by simp⟩
          · exact ⟨.rule skipped :: front, back, rfl, List.forall_mem_cons.2 ⟨hvanishes, hfront⟩⟩
        · rintro ⟨_ | ⟨first, front⟩, back, hbody, hfront⟩
          · cases hbody
            exact .inl rfl
          · obtain ⟨-, rfl⟩ := List.cons.inj hbody
            exact .inr ⟨front, back, rfl, (List.forall_mem_cons.1 hfront).2⟩
      · rw [entered, if_neg hvanishes, List.mem_singleton]
        constructor
        · rintro rfl
          exact ⟨[], rest, rfl, by simp⟩
        · rintro ⟨_ | ⟨first, front⟩, back, hbody, hfront⟩
          · cases hbody
            rfl
          · obtain ⟨rfl, -⟩ := List.cons.inj hbody
            exact absurd (hfront _ List.mem_cons_self) hvanishes

namespace Grammar

variable {g : Grammar} {id : Nat} {known : Array Bool}

/-- **A rule stands for the empty text** if one of its alternatives consists of such rules. -/
inductive Vanishes (g : Grammar) : Nat → Prop
  | intro {id : Nat} {rule : Rule} {body : Body} : g.rule? id = some rule →
      body ∈ rule.alternatives → (∀ s, .chars s ∉ body) →
      (∀ other : Nat, .rule other ∈ body → Vanishes g other) → Vanishes g id

@[simp] theorem size_nullableStep : (g.nullableStep known).size = g.size := by
  simp [nullableStep, size]

/-- A rule is found to vanish if one of its alternatives does, by what is known so far. -/
theorem nullableStep_iff : (g.nullableStep known).getD id false = true ↔
    ∃ rule, g.rule? id = some rule ∧ ∃ body ∈ rule.alternatives,
      ∀ symbol ∈ body, symbol.vanishes known = true := by
  rw [Array.getD_eq_getD_getElem?, nullableStep, Array.getElem?_map]
  show (Option.map _ (g.rule? id)).getD false = true ↔ _
  cases g.rule? id <;> simp

/-- Who knows more finds more. -/
theorem nullableStep_mono {known' : Array Bool}
    (hle : ∀ id : Nat, known.getD id false = true → known'.getD id false = true)
    (h : (g.nullableStep known).getD id false = true) :
    (g.nullableStep known').getD id false = true := by
  obtain ⟨rule, hrule, body, hbody, hall⟩ := nullableStep_iff.1 h
  refine nullableStep_iff.2 ⟨rule, hrule, body, hbody, fun symbol hsymbol => ?_⟩
  obtain ⟨other, rfl, hother⟩ := Symbol.vanishes_iff.1 (hall symbol hsymbol)
  exact Symbol.vanishes_iff.2 ⟨other, rfl, hle other hother⟩

/-- Rules are found to stand for the empty text one after the other, and none is lost. -/
structure Growing (g : Grammar) (known : Array Bool) : Prop where
  size_eq : known.size = g.size
  le_step : ∀ id : Nat, known.getD id false = true →
    (g.nullableStep known).getD id false = true

/-- So steps go on to find more. -/
theorem Growing.step (h : g.Growing known) : g.Growing (g.nullableStep known) :=
  ⟨size_nullableStep, fun _ => nullableStep_mono h.le_step⟩

/-- The rules that have been found. -/
def found (g : Grammar) (known : Array Bool) : Finset Nat :=
  (Finset.range g.size).filter fun id => known.getD id false = true

/-- A step that changes anything finds a rule more. So as many steps as there are rules are
    enough. -/
theorem Growing.found_lt (h : g.Growing known) (hnew : g.nullableStep known ≠ known) :
    (g.found known).card < (g.found (g.nullableStep known)).card := by
  have hsubset : g.found known ⊆ g.found (g.nullableStep known) := by
    intro id hid
    simp only [found, Finset.mem_filter] at hid ⊢
    exact ⟨hid.1, h.le_step id hid.2⟩
  refine Finset.card_lt_card ⟨hsubset, fun hsame => hnew ?_⟩
  -- If no rule were new, both arrays would say the same of each.
  refine Array.ext (by rw [size_nullableStep, h.size_eq]) fun id hid hid' => ?_
  have hrange : id < g.size := by rwa [size_nullableStep] at hid
  rw [Array.getElem_eq_getD false, Array.getElem_eq_getD false, Bool.eq_iff_iff]
  refine ⟨fun hfound => ?_, h.le_step id⟩
  have hmem : id ∈ g.found (g.nullableStep known) :=
    Finset.mem_filter.2 ⟨Finset.mem_range.2 hrange, hfound⟩
  exact (Finset.mem_filter.1 (hsame hmem)).2

/-- The rules that are found are closed under a step. -/
theorem nullableStep_nullable (g : Grammar) : g.nullableStep g.nullable = g.nullable := by
  have hstart : g.Growing (Array.replicate g.size false) := by
    refine ⟨by simp, fun id hid => ?_⟩
    rw [Array.getD_eq_getD_getElem?, Array.getElem?_replicate] at hid
    split at hid <;> simp at hid
  refine saturate_fixed (fun _ => Growing.step) (fun known _ => ?_) (fun _ => Growing.found_lt)
    hstart (Nat.le_add_left g.size _)
  -- No more rules are found than there are, so the steps come to an end in time.
  have hle := Finset.card_filter_le (Finset.range g.size) fun id => known.getD id false = true
  rwa [Finset.card_range] at hle

/-- **The rules that are found to stand for the empty text are those that do.** -/
theorem nullable_iff : g.nullable.getD id false = true ↔ g.Vanishes id := by
  constructor
  · -- Whatever is found after some steps stands for the empty text, step by step.
    have hsound : ∀ id : Nat, g.nullable.getD id false = true → g.Vanishes id := by
      refine @saturate_induction _ _ g.nullableStep
        (fun known => ∀ id : Nat, known.getD id false = true → g.Vanishes id) ?_ g.size _ ?_
      · intro known hknown id hid
        obtain ⟨rule, hrule, body, hbody, hall⟩ := nullableStep_iff.1 hid
        refine .intro hrule hbody (fun s hs => ?_) fun other hother => ?_
        · exact absurd (hall _ hs) (by simp [Symbol.vanishes])
        · exact hknown other (hall _ hother)
      · intro id hid
        rw [Array.getD_eq_getD_getElem?, Array.getElem?_replicate] at hid
        split at hid <;> simp at hid
    exact hsound id
  · intro h
    induction h with
    | @intro id rule body hrule hbody hchars _ ih =>
      -- The rules of the alternative are found, so another step finds this one; it finds none.
      rw [← nullableStep_nullable, nullableStep_iff]
      refine ⟨rule, hrule, body, hbody, fun symbol hsymbol => ?_⟩
      cases symbol with
      | rule other => exact ih other hsymbol
      | chars s => exact absurd hsymbol (hchars s)

/-! ## Entering rules -/

/-- **A rule can enter another before it has read a character**: in one of its alternatives only
    rules that stand for the empty text are in front of the other. -/
def Enters (g : Grammar) (id other : Nat) : Prop :=
  ∃ rule front back, g.rule? id = some rule ∧ front ++ .rule other :: back ∈ rule.alternatives ∧
    ∀ symbol ∈ front, ∃ skipped : Nat, symbol = .rule skipped ∧ g.Vanishes skipped

@[simp] theorem size_entryGraph (g : Grammar) : g.entryGraph.size = g.size := by
  rw [entryGraph, Array.size_map, size]

/-- **The edges of the graph are the entries of rules**, derived from the empty text and not
    computed. -/
theorem entryGraph_edge_iff {other : Nat} :
    g.entryGraph.Edge id other ↔ g.Enters id other ∧ other < g.size := by
  have hnext : other ∈ g.entryGraph.next id ↔ ∃ rule, g.rule? id = some rule ∧
      ∃ body ∈ rule.alternatives, other ∈ Body.entered g.nullable body := by
    rw [Graph.next, Array.getD_eq_getD_getElem?, entryGraph, Array.getElem?_map]
    show other ∈ (Option.map _ (g.rule? id)).getD [] ↔ _
    cases g.rule? id <;> simp
  rw [Graph.Edge, hnext, size_entryGraph]
  refine and_congr_left fun _ => ?_
  simp only [Enters, Body.mem_entered_iff, Symbol.vanishes_iff, nullable_iff]
  constructor
  · rintro ⟨rule, hrule, _, hbody, front, back, rfl, hfront⟩
    exact ⟨rule, front, back, hrule, hbody, hfront⟩
  · rintro ⟨rule, front, back, hrule, hbody, hfront⟩
    exact ⟨rule, hrule, _, hbody, front, back, rfl, hfront⟩

/-- Entering again and again goes along edges, if it ends at a rule. -/
theorem transGen_edge {other : Nat} (h : TransGen g.Enters id other) (hother : other < g.size) :
    TransGen g.entryGraph.Edge id other := by
  induction h with
  | single hstep => exact .single (entryGraph_edge_iff.2 ⟨hstep, hother⟩)
  | tail _ hstep ih =>
    -- Every node on the way is a rule, as it enters another.
    have ⟨_, _, _, hrule, _⟩ := hstep
    exact .tail (ih (lt_of_rule? hrule)) (entryGraph_edge_iff.2 ⟨hstep, hother⟩)

/-- **No rule is left recursive if no rule comes back to itself** before it has read a character. -/
theorem leftRecursive_eq_nil_iff : g.leftRecursive = [] ↔ ∀ id, ¬ TransGen g.Enters id id := by
  have hids : g.ids = List.range g.entryGraph.size := by rw [ids, size_entryGraph]
  rw [leftRecursive, hids, Graph.closing_search_eq_nil_iff]
  constructor
  · intro h id hcycle
    obtain ⟨next, ⟨rule, -, -, hrule, -⟩, -⟩ := TransGen.head'_iff.1 hcycle
    exact h id (transGen_edge hcycle (lt_of_rule? hrule))
  · intro h id hcycle
    exact h id (TransGen.mono (fun _ _ hedge => (entryGraph_edge_iff.1 hedge).1) _ _ hcycle)

/-! ## Other identities -/

variable {h : Grammar} {f : Nat → Nat}

/-- All alternatives of a grammar are found in another, under other identities. -/
def Embeds (f : Nat → Nat) (g h : Grammar) : Prop :=
  ∀ {id : Nat} {rule : Rule}, g.rule? id = some rule → ∃ other, h.rule? (f id) = some other ∧
    ∀ body ∈ rule.alternatives, body.map (Symbol.rename f) ∈ other.alternatives

/-- What vanishes in a part of a grammar vanishes in the whole. -/
theorem Vanishes.embed (hembeds : Embeds f g h) (hvanishes : g.Vanishes id) :
    h.Vanishes (f id) := by
  induction hvanishes with
  | @intro id rule body hrule hbody hchars _ ih =>
    obtain ⟨other, hother, halternatives⟩ := hembeds hrule
    refine .intro hother (halternatives body hbody) (fun s hs => ?_) fun named hnamed => ?_
    · obtain ⟨symbol, hsymbol, hrename⟩ := List.mem_map.1 hs
      cases symbol with
      | rule id => cases hrename
      | chars s' => exact hchars _ hsymbol
    · obtain ⟨symbol, hsymbol, hrename⟩ := List.mem_map.1 hnamed
      cases symbol with
      | rule id =>
        cases hrename
        exact ih id hsymbol
      | chars s => cases hrename

/-- What is entered in a part is entered in the whole. -/
theorem Enters.embed {other : Nat} (hembeds : Embeds f g h) (henters : g.Enters id other) :
    h.Enters (f id) (f other) := by
  obtain ⟨rule, front, back, hrule, hbody, hfront⟩ := henters
  obtain ⟨image, himage, halternatives⟩ := hembeds hrule
  have hmem := halternatives _ hbody
  rw [List.map_append, List.map_cons] at hmem
  refine ⟨image, _, _, himage, hmem, fun symbol hsymbol => ?_⟩
  obtain ⟨before, hbefore, rfl⟩ := List.mem_map.1 hsymbol
  obtain ⟨skipped, rfl, hvanishes⟩ := hfront before hbefore
  exact ⟨f skipped, rfl, hvanishes.embed hembeds⟩

/-- **Left recursion does not come from other identities.** -/
theorem leftRecursive_eq_nil_of_embeds (hembeds : Embeds f g h) (hnil : h.leftRecursive = []) :
    g.leftRecursive = [] := by
  rw [leftRecursive_eq_nil_iff] at hnil ⊢
  exact fun id hcycle => hnil (f id) (hcycle.lift f fun _ _ => Enters.embed hembeds)

end Grammar

end Bnf
