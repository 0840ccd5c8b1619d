import Mathlib.Data.List.Forall2
import Mathlib.Data.List.Nodup
import Bnf.Proofs.Tree.Bare

/-!
# Rules expanded by themselves

Which identities the helpers of a rule get is up to the rules in front of it. What the helpers are,
and where they are mentioned, is not. A sketch is the expansion of a rule without a table: names
stand for themselves, and the helpers of the rule are numbered in the order in which they are made.
A table of many rules has a part for each of them that looks like its sketch, and it has no other
helpers.

## Main definitions

- `Tree.Sketch` — a symbol of a rule that is expanded by itself
- `Tree.Rule.sketch` — the alternatives of a rule and those of its helpers
- `Tree.Rule.Realized` — a table has the sketch of a rule, under some identities

## Main results

- `Tree.Rule.sketch_bare` — spans have no part in a sketch
- `Tree.table_realized` — the table of some rules has the sketch of each
-/

namespace Bnf.Tree

/-! ## Sketches -/

/-- A symbol of a rule that is expanded by itself. -/
inductive Sketch where
  | name (text : String)
  /-- The helper of the rule that is made after `number` others. -/
  | helper (number : Nat)
  | chars (set : CharSet)
deriving DecidableEq

/-- A helper of a rule that is expanded by itself. -/
structure HelperSketch where
  kind : HelperKind
  alternatives : List (List Sketch)
deriving DecidableEq

/-- A computation that passes on the helpers that have been made. -/
abbrev Sketching := StateM (List HelperSketch)

namespace Sketching

/-- Makes several helpers and gives the number of the first. The alternatives of each are told by
    the number of the first and by its own. -/
def helpers (kind : HelperKind) (count : Nat)
    (alternatives : (first number : Nat) → List (List Sketch)) : Sketching Nat :=
  modifyGet fun made =>
    (made.length, made ++ (List.range' made.length count).map fun number =>
      ⟨kind, alternatives made.length number⟩)

/-- The symbols of a repeated term. -/
def repetition (body : List Sketch) (bounds : Bounds) : Sketching (List Sketch) := do
  let copies := (List.replicate bounds.min body).flatten
  match bounds.max with
  | none =>
    let number ← helpers .repetition 1 fun _ number => [body ++ [.helper number], []]
    return copies ++ [.helper number]
  | some max =>
    let count := max - bounds.min
    let first ← helpers .optional count fun first number =>
      [body ++ if number + 1 < first + count then [.helper (number + 1)] else [], []]
    return copies ++ if count = 0 then [] else [.helper first]

/-- The symbols of a group. -/
def group : (alternatives : List (List Sketch)) → Sketching (List Sketch)
  | [body] => return body
  | alternatives => do
    let number ← helpers .group 1 fun _ _ => alternatives
    return [.helper number]

end Sketching

mutual

/-- The symbols of an atom. -/
def Atom.sketch : Atom → Sketching (List Sketch)
  | .literal chars _ => return chars.map fun c => .chars (.single c)
  | .set chars _ => return [.chars chars]
  | .any _ => return [.chars .any]
  | .name text _ => return [.name text]
  | .group _ alternatives _ => do
    let bodies ← sketchAlternation alternatives
    Sketching.group bodies
termination_by structural atom => atom

/-- The symbols of a term. -/
def Term.sketch : Term → Sketching (List Sketch)
  | .mk atom none => atom.sketch
  | .mk atom (some operator) => do
    let body ← atom.sketch
    Sketching.repetition body operator.bounds
termination_by structural term => term

/-- The symbols of a sequence. -/
def sketchSequence : List Term → Sketching (List Sketch)
  | [] => return []
  | term :: terms => do
    let first ← term.sketch
    let others ← sketchSequence terms
    return first ++ others
termination_by structural terms => terms

/-- The bodies of alternatives, in order. -/
def sketchAlternation : List (List Term) → Sketching (List (List Sketch))
  | [] => return []
  | terms :: alternatives => do
    let body ← sketchSequence terms
    let bodies ← sketchAlternation alternatives
    return body :: bodies
termination_by structural alternatives => alternatives

end

/-- **The expansion of a rule by itself**: its alternatives, and the helpers that are made for
    it. -/
def Rule.sketch (rule : Rule) : List (List Sketch) × List HelperSketch :=
  sketchAlternation rule.alternatives []

mutual

/-- A sketch has no places. -/
theorem Atom.sketch_bare : (atom : Atom) → atom.bare.sketch = atom.sketch
  | .literal .. | .set .. | .any _ | .name .. => rfl
  | .group _ alternatives _ => by simp only [Atom.bare, Atom.sketch, sketchAlternation_bare]
termination_by structural atom => atom

theorem Term.sketch_bare : (term : Term) → term.bare.sketch = term.sketch
  | .mk atom none | .mk atom (some _) => by simp only [Term.bare, Term.sketch, atom.sketch_bare]
termination_by structural term => term

theorem sketchSequence_bare :
    (terms : List Term) → sketchSequence (bareSequence terms) = sketchSequence terms
  | [] => rfl
  | term :: terms => by
    simp only [bareSequence, sketchSequence, term.sketch_bare, sketchSequence_bare]
termination_by structural terms => terms

theorem sketchAlternation_bare : (alternatives : List (List Term)) →
    sketchAlternation (bareAlternation alternatives) = sketchAlternation alternatives
  | [] => rfl
  | terms :: alternatives => by
    simp only [bareAlternation, sketchAlternation, sketchSequence_bare, sketchAlternation_bare]
termination_by structural alternatives => alternatives

end

/-- **Spans have no part in a sketch.** -/
theorem Rule.sketch_bare (rule : Rule) : rule.bare.sketch = rule.sketch :=
  congrFun (sketchAlternation_bare rule.alternatives) []

/-! ## What a sketch stands for -/

variable {mentioned done : List String} {t u : Table} {ids others before : List RuleId}
  {made : List HelperSketch}

/-- What a symbol of a sketch stands for, if the helpers of the sketch have the identities `ids`. -/
inductive Sketch.Realized (mentioned : List String) (t : Table) (ids : List RuleId) :
    Sketch → Symbol → Prop
  | name {text id} : text ∈ mentioned → t.symbols.name? id = some text →
      Sketch.Realized mentioned t ids (.name text) (.rule id)
  | helper {number id} : ids[number]? = some id →
      Sketch.Realized mentioned t ids (.helper number) (.rule id)
  | chars {set} : Sketch.Realized mentioned t ids (.chars set) (.chars set)

/-- The bodies are those of a sketch, symbol by symbol. -/
abbrev Realized (mentioned : List String) (t : Table) (ids : List RuleId) :
    List (List Sketch) → List Body → Prop :=
  List.Forall₂ (List.Forall₂ (Sketch.Realized mentioned t ids))

/-- The helper with an identity is that of a sketch. -/
def HelperSketch.Realized (mentioned : List String) (t : Table) (ids : List RuleId)
    (helper : HelperSketch) (id : RuleId) : Prop :=
  ∃ alternatives, t.rule? id = some ⟨.helper helper.kind, alternatives⟩ ∧
    Tree.Realized mentioned t ids helper.alternatives alternatives

/-- **A table has the sketch of a rule**: the rule with its name, and helpers with the identities
    `ids`. -/
def Rule.Realized (mentioned : List String) (t : Table) (rule : Rule) (ids : List RuleId) : Prop :=
  ∃ id span alternatives, t.symbols.name? id = some rule.name ∧
    t.rule? id = some ⟨.defined span, alternatives⟩ ∧
    Tree.Realized mentioned t ids rule.sketch.1 alternatives ∧
    List.Forall₂ (HelperSketch.Realized mentioned t ids) rule.sketch.2 ids

/-- The helpers of a table are those with the given identities, each listed once. -/
structure Table.Helpers (t : Table) (ids : List RuleId) : Prop where
  nodup : ids.Nodup
  mem_iff : ∀ {id : Nat}, id ∈ ids ↔ ∃ rule, t.rule? id = some rule ∧ rule.isHelper = true

/-- What realizes a sketch does so while the table grows. -/
theorem Sketch.Realized.mono (h : t.Extends u) (hids : ids <+: others) {sketch : Sketch}
    {symbol : Symbol} (hsketch : sketch.Realized mentioned t ids symbol) :
    sketch.Realized mentioned u others symbol := by
  cases hsketch with
  | name hmentioned hname => exact .name hmentioned (h.name? hname)
  | helper hid =>
    obtain ⟨more, rfl⟩ := hids
    exact .helper (by rw [List.getElem?_append_left (List.getElem?_eq_some_iff.1 hid).1, hid])
  | chars => exact .chars

theorem Realized.mono (h : t.Extends u) (hids : ids <+: others) {sketches : List (List Sketch)}
    {bodies : List Body} (hbodies : Realized mentioned t ids sketches bodies) :
    Realized mentioned u others sketches bodies :=
  hbodies.imp fun _ _ hbody => hbody.imp fun _ _ hsymbol => hsymbol.mono h hids

/-- So does a helper. -/
theorem HelperSketch.Realized.mono (h : t.Extends u) (hids : ids <+: others)
    {helper : HelperSketch} {id : RuleId} (hhelper : helper.Realized mentioned t ids id) :
    helper.Realized mentioned u others id := by
  obtain ⟨alternatives, hrule, hbodies⟩ := hhelper
  exact ⟨alternatives, h.rules hrule, hbodies.mono h hids⟩

/-- And so does a rule. -/
theorem Rule.Realized.mono (h : t.Extends u) {rule : Rule}
    (hrule : rule.Realized mentioned t ids) : rule.Realized mentioned u ids := by
  obtain ⟨id, span, alternatives, hname, hid, hbodies, hhelpers⟩ := hrule
  exact ⟨id, span, alternatives, h.name? hname, h.rules hid, hbodies.mono h List.prefix_rfl,
    hhelpers.imp fun _ _ hhelper => hhelper.mono h List.prefix_rfl⟩

theorem Rule.realized_bare {rule : Rule} :
    rule.bare.Realized mentioned t ids ↔ rule.Realized mentioned t ids := by
  rw [Rule.Realized, Rule.Realized, rule.sketch_bare]
  rfl

/-! ## Helpers of a table -/

namespace Table.Helpers

variable {kind : HelperKind} {owner name : String} {span : Span} {count id : Nat}
  {alternatives : RuleId → List Body} {rule : Bnf.Rule}

theorem mention (h : t.Helpers ids) : (t.mention name span).2.Helpers ids :=
  ⟨h.nodup, h.mem_iff⟩

/-- Helpers that are added are listed behind the others. -/
theorem addHelpers (hsound : t.Sound mentioned done) (h : t.Helpers ids) :
    (t.addHelpers kind owner span count alternatives).Helpers
      (ids ++ List.range' t.symbols.size count) := by
  -- Identities from the size of the table on have no rule before.
  have hbelow (id : Nat) (hid : id ∈ ids) : id < t.symbols.size := by
    obtain ⟨rule, hrule, -⟩ := h.mem_iff.1 hid
    exact hsound.lt_of_rule? hrule
  refine ⟨?_, fun {id} => ?_⟩
  · refine List.nodup_append.2 ⟨h.nodup, List.nodup_range', ?_⟩
    rintro id hid _ hnew rfl
    exact Nat.not_le_of_lt (hbelow id hid) (List.mem_range'_1.1 hnew).1
  · rw [List.mem_append, List.mem_range'_1, rule?_addHelpers]
    split
    · next hnew => exact iff_of_true (.inr hnew) ⟨_, rfl, rfl⟩
    · next hold => rw [or_iff_left hold, h.mem_iff]

theorem define (h : t.Helpers ids) (hnone : t.rule? id = none) (hrule : rule.isHelper = false) :
    (t.define id rule).Helpers ids := by
  refine ⟨h.nodup, fun {other} => ?_⟩
  rw [rule?_define]
  by_cases hsame : other = id
  · subst hsame
    rw [Function.update_self, h.mem_iff, hnone]
    simp [hrule]
  · rw [Function.update_of_ne hsame, h.mem_iff]

/-- In which order helpers are listed does not matter. -/
theorem perm (h : t.Helpers ids) (hperm : ids.Perm others) : t.Helpers others :=
  ⟨hperm.nodup_iff.1 h.nodup, fun {_} => hperm.mem_iff.symm.trans h.mem_iff⟩

end Table.Helpers

/-! ## Expansions follow sketches -/

open Expanding

/-- **An expansion has come as far as a sketch**: the helpers that the sketch has made are in the
    table, with the identities `ids`, and besides these only those in `before`. -/
structure Realizes (mentioned done : List String) (before : List RuleId) (t : Table)
    (ids : List RuleId) (made : List HelperSketch) : Prop where
  sound : t.Sound mentioned done
  helpers : t.Helpers (before ++ ids)
  made : List.Forall₂ (HelperSketch.Realized mentioned t ids) made ids

/-- A table and the helpers of a sketch go on from others. -/
structure Advances (mentioned done : List String) (before : List RuleId) (t : Table)
    (ids : List RuleId) (u : Table) (others : List RuleId) (made : List HelperSketch) : Prop where
  realizes : Realizes mentioned done before u others made
  extends_table : t.Extends u
  extends_ids : ids <+: others

/-- Without a step nothing changes. -/
theorem Realizes.refl (h : Realizes mentioned done before t ids made) :
    Advances mentioned done before t ids t ids made :=
  ⟨h, .refl t, List.prefix_rfl⟩

/-- Two steps one after the other are one. -/
theorem Advances.trans {v : Table} {last : List RuleId} {made' : List HelperSketch}
    (h : Advances mentioned done before t ids u others made)
    (h' : Advances mentioned done before u others v last made') :
    Advances mentioned done before t ids v last made' :=
  ⟨h'.realizes, h.extends_table.trans h'.extends_table, h.extends_ids.trans h'.extends_ids⟩

theorem forall₂_range' {R : Nat → Nat → Prop} {first other count : Nat}
    (h : ∀ i < count, R (first + i) (other + i)) :
    List.Forall₂ R (List.range' first count) (List.range' other count) := by
  induction count generalizing first other with
  | zero => exact .nil
  | succ count ih =>
    refine .cons (h 0 (Nat.succ_pos _)) (ih fun i hi => ?_)
    have := h (i + 1) (Nat.succ_lt_succ hi)
    rwa [Nat.add_comm i 1, ← Nat.add_assoc, ← Nat.add_assoc] at this

/-- What relates two lists relates copies of them. -/
theorem forall₂_flatten_replicate {α β : Type} {R : α → β → Prop} {xs : List α} {ys : List β}
    (h : List.Forall₂ R xs ys) (count : Nat) :
    List.Forall₂ R (List.replicate count xs).flatten (List.replicate count ys).flatten := by
  induction count with
  | zero => exact .nil
  | succ count ih => exact List.rel_append h ih

/-- **Helpers are added** under the next identities, as the sketch adds its own under the next
    numbers. -/
theorem Realizes.addHelpers {kind : HelperKind} {owner : String} {span : Span} {count : Nat}
    {sketches : Nat → List (List Sketch)} {alternatives : RuleId → List Body}
    (h : Realizes mentioned done before t ids made)
    (halternatives : ∀ i < count,
      Realized mentioned t (ids ++ List.range' t.symbols.size count) (sketches (made.length + i))
        (alternatives (t.symbols.size + i))) :
    Advances mentioned done before t ids (t.addHelpers kind owner span count alternatives)
      (ids ++ List.range' t.symbols.size count)
      (made ++ (List.range' made.length count).map fun number => ⟨kind, sketches number⟩) := by
  obtain ⟨hsound, hextends⟩ :=
    @Table.Sound.addHelpers t kind owner span count alternatives _ _ h.sound
  have hids := List.prefix_append ids (List.range' t.symbols.size count)
  refine ⟨⟨hsound, ?_, ?_⟩, hextends, hids⟩
  · rw [← List.append_assoc]
    exact h.helpers.addHelpers h.sound
  · refine List.rel_append (h.made.imp fun _ _ hhelper => hhelper.mono hextends hids) ?_
    rw [List.forall₂_map_left_iff]
    refine forall₂_range' fun i hi => ⟨_, ?_, (halternatives i hi).mono hextends List.prefix_rfl⟩
    exact Table.rule?_addHelpers.trans (if_pos (by omega))

/-- The identity of a helper that is added. -/
theorem Realizes.getElem?_ids {i count : Nat} (h : Realizes mentioned done before t ids made)
    (hi : i < count) :
    (ids ++ List.range' t.symbols.size count)[made.length + i]? = some (t.symbols.size + i) := by
  rw [h.made.length_eq, List.getElem?_append_right (Nat.le_add_right _ _), Nat.add_sub_cancel_left,
    List.getElem?_range' hi, Nat.one_mul]

/-- **Repetitions** are written out as they are in a sketch. -/
theorem Realizes.repetition (owner : String) (span : Span) {body : Body} {sketch : List Sketch}
    (bounds : Bounds) (h : Realizes mentioned done before t ids made)
    (hbody : List.Forall₂ (Sketch.Realized mentioned t ids) sketch body) :
    ∃ others, Advances mentioned done before t ids (repetition owner span body bounds t).2 others
        (Sketching.repetition sketch bounds made).2 ∧
      List.Forall₂ (Sketch.Realized mentioned (repetition owner span body bounds t).2 others)
        (Sketching.repetition sketch bounds made).1 (repetition owner span body bounds t).1 := by
  obtain ⟨min, max⟩ := bounds
  have hkept {count : Nat} : List.Forall₂
      (Sketch.Realized mentioned t (ids ++ List.range' t.symbols.size count)) sketch body :=
    hbody.imp fun _ _ hsymbol => hsymbol.mono (.refl t) (List.prefix_append _ _)
  cases max with
  | none =>
    have hadded := @Realizes.addHelpers _ _ _ _ _ _ .repetition owner span 1
      (fun number => [sketch ++ [.helper number], []]) (repetitionAlternatives body) h
      fun i hi => .cons (List.rel_append hkept (.cons (.helper (h.getElem?_ids hi)) .nil))
        (.cons .nil .nil)
    refine ⟨_, hadded, List.rel_append (forall₂_flatten_replicate ?_ min) (.cons ?_ .nil)⟩
    · exact hbody.imp fun _ _ hsymbol => hsymbol.mono hadded.extends_table hadded.extends_ids
    · exact .helper (h.getElem?_ids Nat.one_pos)
  | some max =>
    have hadded := @Realizes.addHelpers _ _ _ _ _ _ .optional owner span (max - min)
      (fun number => [sketch ++ if number + 1 < made.length + (max - min) then
        [.helper (number + 1)] else [], []])
      (chainAlternatives body (t.symbols.size + (max - min))) h fun i hi => by
        refine .cons (List.rel_append hkept ?_) (.cons .nil .nil)
        have hlink (n : Nat) : n + i + 1 < n + (max - min) ↔ i + 1 < max - min := by omega
        by_cases hnext : i + 1 < max - min
        · rw [if_pos ((hlink _).2 hnext), if_pos ((hlink _).2 hnext)]
          exact .cons (.helper (h.getElem?_ids hnext)) .nil
        · rw [if_neg (mt (hlink _).1 hnext), if_neg (mt (hlink _).1 hnext)]
          exact .nil
    refine ⟨_, hadded, List.rel_append (forall₂_flatten_replicate ?_ min) ?_⟩
    · exact hbody.imp fun _ _ hsymbol => hsymbol.mono hadded.extends_table hadded.extends_ids
    · by_cases hcount : max - min = 0
      · rw [if_pos hcount, if_pos hcount]
        exact .nil
      · rw [if_neg hcount, if_neg hcount]
        exact .cons (.helper (h.getElem?_ids (Nat.pos_of_ne_zero hcount))) .nil

/-- **Groups** become helpers where they do in a sketch. -/
theorem Realizes.group (owner : String) (span : Span) {bodies : List Body}
    {sketches : List (List Sketch)} (h : Realizes mentioned done before t ids made)
    (hbodies : Realized mentioned t ids sketches bodies) :
    ∃ others, Advances mentioned done before t ids (group owner span bodies t).2 others
        (Sketching.group sketches made).2 ∧
      List.Forall₂ (Sketch.Realized mentioned (group owner span bodies t).2 others)
        (Sketching.group sketches made).1 (group owner span bodies t).1 := by
  have hadded := @Realizes.addHelpers _ _ _ _ _ _ .group owner span 1 (fun _ => sketches)
    (fun _ => bodies) h fun i hi => hbodies.mono (.refl t) (List.prefix_append _ _)
  have hsymbol : Sketch.Realized mentioned (t.addHelpers .group owner span 1 fun _ => bodies)
      (ids ++ List.range' t.symbols.size 1) (.helper made.length) (.rule t.symbols.size) :=
    .helper (h.getElem?_ids Nat.one_pos)
  match sketches, bodies, hbodies with
  | [sketch], [body], .cons hbody .nil => exact ⟨ids, h.refl, hbody⟩
  | [], [], .nil => exact ⟨_, hadded, .cons hsymbol .nil⟩
  | _ :: _ :: _, _ :: _ :: _, .cons _ (.cons _ _) => exact ⟨_, hadded, .cons hsymbol .nil⟩

mutual

/-- **An expansion follows the sketch**, from any table on. -/
theorem Atom.expand_realizes (owner : String) : (atom : Atom) → ∀ {t ids made},
    Realizes mentioned done before t ids made →
    (∀ mention ∈ atom.mentions, mention.1 ∈ mentioned) →
    ∃ others, Advances mentioned done before t ids (atom.expand owner t).2 others
        (atom.sketch made).2 ∧
      List.Forall₂ (Sketch.Realized mentioned (atom.expand owner t).2 others)
        (atom.sketch made).1 (atom.expand owner t).1
  | .literal chars _, t, ids, made, h, _ => by
    refine ⟨ids, h.refl, ?_⟩
    show List.Forall₂ _ (chars.map _) (chars.map _)
    rw [List.forall₂_map_left_iff, List.forall₂_map_right_iff, List.forall₂_same]
    exact fun _ _ => .chars
  | .set .., t, ids, made, h, _ => ⟨ids, h.refl, .cons .chars .nil⟩
  | .any _, t, ids, made, h, _ => ⟨ids, h.refl, .cons .chars .nil⟩
  | .name text span, t, ids, made, h, hmentioned => by
    have hname : text ∈ mentioned := hmentioned (text, span) (by simp [Atom.mentions])
    obtain ⟨hsound, hextends⟩ := @Table.Sound.mention t text span _ _ h.sound hname
    refine ⟨ids, ⟨⟨hsound, h.helpers.mention, ?_⟩, hextends, List.prefix_rfl⟩, .cons ?_ .nil⟩
    · exact h.made.imp fun _ _ hhelper => hhelper.mono hextends List.prefix_rfl
    · exact .name hname (SymbolTable.name?_of_find? (SymbolTable.find?_intern h.sound.distinct))
  | .group opening alternatives closing, t, ids, made, h, hmentioned => by
    obtain ⟨middle, hinner, hbodies⟩ := expandAlternation_realizes owner alternatives h hmentioned
    obtain ⟨others, houter, hbody⟩ :=
      hinner.realizes.group owner (opening.join closing) hbodies
    exact ⟨others, hinner.trans houter, hbody⟩
termination_by structural atom => atom

/-- What repeats a term realizes the sketch of that, with the helpers of the atom in front. -/
theorem Term.expand_realizes (owner : String) : (term : Term) → ∀ {t ids made},
    Realizes mentioned done before t ids made →
    (∀ mention ∈ term.mentions, mention.1 ∈ mentioned) →
    ∃ others, Advances mentioned done before t ids (term.expand owner t).2 others
        (term.sketch made).2 ∧
      List.Forall₂ (Sketch.Realized mentioned (term.expand owner t).2 others)
        (term.sketch made).1 (term.expand owner t).1
  | .mk atom none, t, ids, made, h, hmentioned => atom.expand_realizes owner h hmentioned
  | .mk atom (some operator), t, ids, made, h, hmentioned => by
    obtain ⟨middle, hinner, hbody⟩ := atom.expand_realizes owner h hmentioned
    obtain ⟨others, houter, hsymbols⟩ := hinner.realizes.repetition owner
      (atom.span.join operator.span) operator.bounds hbody
    exact ⟨others, hinner.trans houter, hsymbols⟩
termination_by structural term => term

theorem expandSequence_realizes (owner : String) : (terms : List Term) → ∀ {t ids made},
    Realizes mentioned done before t ids made →
    (∀ mention ∈ sequenceMentions terms, mention.1 ∈ mentioned) →
    ∃ others, Advances mentioned done before t ids (expandSequence owner terms t).2 others
        (sketchSequence terms made).2 ∧
      List.Forall₂ (Sketch.Realized mentioned (expandSequence owner terms t).2 others)
        (sketchSequence terms made).1 (expandSequence owner terms t).1
  | [], t, ids, made, h, _ => ⟨ids, h.refl, .nil⟩
  | term :: terms, t, ids, made, h, hmentioned => by
    have hsplit := List.forall_mem_append.1 hmentioned
    obtain ⟨middle, hfirst, hbody⟩ := term.expand_realizes owner h hsplit.1
    obtain ⟨others, hlast, hsymbols⟩ :=
      expandSequence_realizes owner terms hfirst.realizes hsplit.2
    refine ⟨others, hfirst.trans hlast, List.rel_append (hbody.imp fun _ _ hsymbol => ?_) hsymbols⟩
    exact hsymbol.mono hlast.extends_table hlast.extends_ids
termination_by structural terms => terms

theorem expandAlternation_realizes (owner : String) :
    (alternatives : List (List Term)) → ∀ {t ids made},
    Realizes mentioned done before t ids made →
    (∀ mention ∈ alternationMentions alternatives, mention.1 ∈ mentioned) →
    ∃ others, Advances mentioned done before t ids (expandAlternation owner alternatives t).2 others
        (sketchAlternation alternatives made).2 ∧
      Realized mentioned (expandAlternation owner alternatives t).2 others
        (sketchAlternation alternatives made).1 (expandAlternation owner alternatives t).1
  | [], t, ids, made, h, _ => ⟨ids, h.refl, .nil⟩
  | terms :: alternatives, t, ids, made, h, hmentioned => by
    have hsplit := List.forall_mem_append.1 hmentioned
    obtain ⟨middle, hfirst, hbody⟩ := expandSequence_realizes owner terms h hsplit.1
    obtain ⟨others, hlast, hbodies⟩ :=
      expandAlternation_realizes owner alternatives hfirst.realizes hsplit.2
    refine ⟨others, hfirst.trans hlast, .cons (hbody.imp fun _ _ hsymbol => ?_) hbodies⟩
    exact hsymbol.mono hlast.extends_table hlast.extends_ids
termination_by structural alternatives => alternatives

end

/-! ## Rules -/

/-- **An expanded rule realizes its sketch**, with the helpers that were made for it. -/
theorem Rule.expand_realized {rule : Rule} (h : t.Sound mentioned done)
    (hhelpers : t.Helpers before) (hmentioned : ∀ mention ∈ rule.mentions, mention.1 ∈ mentioned)
    (hnew : rule.name ∉ done) : ∃ ids, (rule.expand t).2.Helpers (before ++ ids) ∧
      rule.Realized mentioned (rule.expand t).2 ids := by
  obtain ⟨⟨hentered, -⟩, hexpanded, hextends, hname⟩ := Rule.expanded_sound h hmentioned
  have hname' := hmentioned (rule.name, rule.span) (by simp [Rule.mentions])
  have hstart : Realizes mentioned done before (rule.entered t) [] [] :=
    ⟨hentered, by rw [List.append_nil]; exact hhelpers.mention, .nil⟩
  obtain ⟨ids, hadvances, hbodies⟩ := expandAlternation_realizes rule.name rule.alternatives hstart
    fun mention hmention => hmentioned mention (List.mem_cons_of_mem _ hmention)
  -- The rule is still to come, so its identity is not that of a helper.
  have hnone : (rule.expanded t).rule? (t.mention rule.name rule.span).1 = none := by
    rw [← Option.not_isSome_iff_eq_none, hexpanded.isSome_rule?_iff hname]
    exact fun hdone => hnew (hdone hname')
  rw [Rule.expand_eq_define]
  obtain ⟨-, hdefine⟩ := @Table.Sound.define _ _ _ ⟨.defined rule.span,
    (expandAlternation rule.name rule.alternatives (rule.entered t)).1⟩ _ _ hexpanded hname hname'
    hnew
  refine ⟨ids, hadvances.realizes.helpers.define hnone rfl, _, rule.span, _, hname, ?_,
    hbodies.mono hdefine List.prefix_rfl, hadvances.realizes.made.imp fun _ _ hhelper => ?_⟩
  · rw [Table.rule?_define, Function.update_self]
  · exact hhelper.mono hdefine List.prefix_rfl

/-- **Rules have their helpers one after the other.** What the expansion of a rule says of its
    helpers, and further rules keep, holds for all rules in the end. -/
theorem expandRules_parts {P : Table → Rule → List RuleId → Prop} {rules : List Rule}
    (hexpand : ∀ {t : Table} {done : List String} {before : List RuleId} {rule : Rule},
      t.Sound mentioned done → t.Helpers before →
      (∀ mention ∈ rule.mentions, mention.1 ∈ mentioned) → rule.name ∉ done →
      ∃ ids, (rule.expand t).2.Helpers (before ++ ids) ∧ P (rule.expand t).2 rule ids)
    (hkept : ∀ {t : Table} {rules : List Rule} {rule : Rule} {ids : List RuleId},
      t.Extends (expandRules rules t).2 → P t rule ids → P (expandRules rules t).2 rule ids)
    (h : t.Sound mentioned done) (hhelpers : t.Helpers before)
    (hmentioned : ∀ name ∈ names rules, name ∈ mentioned)
    (hdistinct : (rules.map (·.name)).Nodup) (hnew : ∀ rule ∈ rules, rule.name ∉ done) :
    ∃ parts : List (List RuleId), (expandRules rules t).2.Helpers (before ++ parts.flatten) ∧
      List.Forall₂ (P (expandRules rules t).2) rules parts := by
  induction rules generalizing t done before with
  | nil => exact ⟨[], by rwa [List.flatten_nil, List.append_nil], .nil⟩
  | cons rule rules ih =>
    have hothers := forall_not_mem_cons hdistinct hnew
    rw [forall_mem_names_cons] at hmentioned
    rw [List.forall_mem_cons] at hnew
    rw [List.map_cons, List.nodup_cons] at hdistinct
    obtain ⟨ids, hmiddle, hrule⟩ := hexpand h hhelpers hmentioned.1 hnew.1
    have hsound := (Rule.expand_sound h hmentioned.1 hnew.1).1
    obtain ⟨parts, hfinal, hrules⟩ := ih hsound hmiddle hmentioned.2 hdistinct.2 hothers
    have hextends := (expandRules_sound hsound hmentioned.2 hdistinct.2 hothers).2
    have hlast := hkept hextends hrule
    refine ⟨ids :: parts, ?_, .cons hlast hrules⟩
    rwa [List.flatten_cons, ← List.append_assoc]

/-- **The helpers of a table fall into parts**, one for each rule, and what is shown of each rule
    when it is expanded holds in the end. Both properties of rules that need this are proved through
    it. -/
theorem table_parts {P : Table → Rule → List RuleId → Prop} {rules : List Rule}
    (hexpand : ∀ {t : Table} {done : List String} {before : List RuleId} {rule : Rule},
      t.Sound (names rules) done → t.Helpers before →
      (∀ mention ∈ rule.mentions, mention.1 ∈ names rules) → rule.name ∉ done →
      ∃ ids, (rule.expand t).2.Helpers (before ++ ids) ∧ P (rule.expand t).2 rule ids)
    (hkept : ∀ {t : Table} {rules : List Rule} {rule : Rule} {ids : List RuleId},
      t.Extends (expandRules rules t).2 → P t rule ids → P (expandRules rules t).2 rule ids)
    (hdistinct : (rules.map (·.name)).Nodup) :
    ∃ parts : List (List RuleId), (table rules).Helpers parts.flatten ∧
      List.Forall₂ (P (table rules)) rules parts := by
  have hstart : (start rules).Helpers [] :=
    ⟨List.nodup_nil, fun {_} => by simp [start, Table.rule?]⟩
  exact expandRules_parts hexpand hkept (start_sound rules) hstart (fun _ hname => hname) hdistinct
    (by simp)

/-- **The table of some rules has the sketch of each**, and no helper that is not in one of
    them. -/
theorem table_realized {rules : List Rule} (hdistinct : (rules.map (·.name)).Nodup) :
    ∃ parts : List (List RuleId), (table rules).Helpers parts.flatten ∧
      List.Forall₂ (Rule.Realized (names rules) (table rules)) rules parts :=
  table_parts Rule.expand_realized (fun hextends hrule => hrule.mono hextends) hdistinct

end Bnf.Tree
