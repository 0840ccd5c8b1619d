import Bnf.Proofs.Tree.Growth

/-!
# What a tree has become

An expansion leaves its traces in a table: the names it mentions have identities, and the helpers it
made have their rules. `Compiled` says of a part of a tree and of some symbols that these stand for
it, whatever table the helpers are looked up in, as long as that table has them. So it still holds
when the table has grown, and of the table in the end it says all there is to know about a part.

## Main definitions

- `Tree.ChainCompiled` — a chain of helpers stands for copies that may be there
- `Tree.Atom.Compiled`, `Tree.AlternationCompiled` — symbols stand for a part of a tree
- `Tree.Rule.Compiled` — the rule with its name stands for a rule

## Main results

- `Tree.expandAlternation_compiled` — the symbols of an expansion stand for what was expanded
- `Tree.table_compiled` — the table of some rules has a rule for each of them
-/

namespace Bnf.Tree

/-- A chain of helpers: each stands for the body, with the helpers behind it, or for nothing. -/
inductive ChainCompiled (t : Table) (body : Body) : (count : Nat) → Body → Prop
  | nil : ChainCompiled t body 0 []
  | cons {count tail id} :
      ChainCompiled t body count tail →
      t.rule? id = some ⟨.helper .optional, [body ++ tail, []]⟩ →
      ChainCompiled t body (count + 1) [.rule id]

mutual

/-- The symbols stand for an atom. The names of the source are those in `mentioned`. -/
inductive Atom.Compiled (mentioned : List String) (t : Table) : Atom → Body → Prop
  | literal {chars span} :
      Atom.Compiled mentioned t (.literal chars span) (chars.map fun c => .chars (.single c))
  | set {chars span} : Atom.Compiled mentioned t (.set chars span) [.chars chars]
  | any {span} : Atom.Compiled mentioned t (.any span) [.chars .any]
  | name {text span id} :
      text ∈ mentioned → t.symbols.name? id = some text →
      Atom.Compiled mentioned t (.name text span) [.rule id]
  | spliced {opening terms closing body} :
      SequenceCompiled mentioned t terms body →
      Atom.Compiled mentioned t (.group opening [terms] closing) body
  | group {opening alternatives closing bodies id} :
      AlternationCompiled mentioned t alternatives bodies →
      t.rule? id = some ⟨.helper .group, bodies⟩ →
      Atom.Compiled mentioned t (.group opening alternatives closing) [.rule id]

/-- The symbols stand for a term. -/
inductive Term.Compiled (mentioned : List String) (t : Table) : Term → Body → Prop
  | plain {atom body} :
      atom.Compiled mentioned t body → Term.Compiled mentioned t (.mk atom none) body
  | unbounded {atom body min span id} :
      atom.Compiled mentioned t body →
      t.rule? id = some ⟨.helper .repetition, [body ++ [.rule id], []]⟩ →
      Term.Compiled mentioned t (.mk atom (some ⟨⟨min, none⟩, span⟩))
        ((List.replicate min body).flatten ++ [.rule id])
  | bounded {atom body min max span tail} :
      atom.Compiled mentioned t body → min ≤ max →
      ChainCompiled t body (max - min) tail →
      Term.Compiled mentioned t (.mk atom (some ⟨⟨min, some max⟩, span⟩))
        ((List.replicate min body).flatten ++ tail)

/-- The symbols stand for a sequence. -/
inductive SequenceCompiled (mentioned : List String) (t : Table) : List Term → Body → Prop
  | nil : SequenceCompiled mentioned t [] []
  | cons {term terms first others} :
      term.Compiled mentioned t first → SequenceCompiled mentioned t terms others →
      SequenceCompiled mentioned t (term :: terms) (first ++ others)

/-- The bodies stand for alternatives, one for each. -/
inductive AlternationCompiled (mentioned : List String) (t : Table) :
    List (List Term) → List Body → Prop
  | nil : AlternationCompiled mentioned t [] []
  | cons {terms alternatives body bodies} :
      SequenceCompiled mentioned t terms body →
      AlternationCompiled mentioned t alternatives bodies →
      AlternationCompiled mentioned t (terms :: alternatives) (body :: bodies)

end

/-- The rule with the name of a rule of the source stands for it. -/
def Rule.Compiled (mentioned : List String) (t : Table) (rule : Rule) : Prop :=
  ∃ id bodies, t.symbols.name? id = some rule.name ∧
    t.rule? id = some ⟨.defined rule.span, bodies⟩ ∧
    AlternationCompiled mentioned t rule.alternatives bodies

variable {mentioned done : List String} {t u : Table}

/-! ## Growing tables -/

/-- A chain that was compiled stays so while the table grows. -/
theorem ChainCompiled.mono (h : t.Extends u) {body tail : Body} {count : Nat}
    (hchain : ChainCompiled t body count tail) : ChainCompiled u body count tail := by
  induction hchain with
  | nil => exact .nil
  | cons _ hrule ih => exact .cons ih (h.rules hrule)

mutual

/-- **What was compiled stays so while the table grows**, since a helper keeps its rule. -/
theorem Atom.Compiled.mono (h : t.Extends u) {atom : Atom} {body : Body} :
    atom.Compiled mentioned t body → atom.Compiled mentioned u body
  | .literal => .literal
  | .set => .set
  | .any => .any
  | .name hmentioned hname => .name hmentioned (h.name? hname)
  | .spliced hterms => .spliced (hterms.mono h)
  | .group halternatives hrule => .group (halternatives.mono h) (h.rules hrule)

theorem Term.Compiled.mono (h : t.Extends u) {term : Term} {body : Body} :
    term.Compiled mentioned t body → term.Compiled mentioned u body
  | .plain hatom => .plain (hatom.mono h)
  | .unbounded hatom hrule => .unbounded (hatom.mono h) (h.rules hrule)
  | .bounded hatom hle hchain => .bounded (hatom.mono h) hle (hchain.mono h)

theorem SequenceCompiled.mono (h : t.Extends u) {terms : List Term} {body : Body} :
    SequenceCompiled mentioned t terms body → SequenceCompiled mentioned u terms body
  | .nil => .nil
  | .cons hterm hterms => .cons (hterm.mono h) (hterms.mono h)

theorem AlternationCompiled.mono (h : t.Extends u) {alternatives : List (List Term)}
    {bodies : List Body} :
    AlternationCompiled mentioned t alternatives bodies →
      AlternationCompiled mentioned u alternatives bodies
  | .nil => .nil
  | .cons hterms halternatives => .cons (hterms.mono h) (halternatives.mono h)

end

/-- So does a rule. -/
theorem Rule.Compiled.mono (h : t.Extends u) {rule : Rule} (hrule : rule.Compiled mentioned t) :
    rule.Compiled mentioned u := by
  obtain ⟨id, bodies, hname, hid, halternatives⟩ := hrule
  exact ⟨id, bodies, h.name? hname, h.rules hid, halternatives.mono h⟩

/-! ## Expansions -/

open Expanding

/-- Rules that each mention the next one are a chain. This is by induction from its end. -/
theorem chainCompiled_of_rules {body : Body} {stop count : Nat}
    (h : ∀ id, stop - count ≤ id → id < stop →
      t.rule? id = some ⟨.helper .optional, chainAlternatives body stop id⟩)
    (hcount : count ≤ stop) :
    ChainCompiled t body count (if count = 0 then [] else [.rule (stop - count)]) := by
  induction count with
  | zero => exact .nil
  | succ count ih =>
    have hrest := ih (fun id hid hstop => h id (by omega) hstop) (by omega)
    have hrule := h (stop - (count + 1)) (by omega) (by omega)
    rw [if_neg (by omega)]
    refine .cons hrest (hrule.trans ?_)
    have hnext : stop - (count + 1) + 1 = stop - count := by omega
    have htail : (if stop - (count + 1) + 1 < stop then [Symbol.rule (stop - (count + 1) + 1)]
        else []) = if count = 0 then [] else [.rule (stop - count)] := by
      rw [hnext, ← ite_not]
      exact if_congr (by omega) rfl rfl
    rw [chainAlternatives, htail]

/-- **The symbols of a repetition stand for it**, once its helpers are in the table. -/
theorem repetition_compiled {owner : String} {span : Span} {atom : Atom} {body : Body}
    {operator : Repetition} (h : t.Sound mentioned done)
    (hbounds : operator.bounds.isInverted = false) (hatom : atom.Compiled mentioned t body) :
    Term.Compiled mentioned (repetition owner span body operator.bounds t).2
      (.mk atom (some operator)) (repetition owner span body operator.bounds t).1 := by
  obtain ⟨⟨min, max⟩, place⟩ := operator
  cases max with
  | none =>
    refine .unbounded (hatom.mono h.addHelpers.2) ?_
    exact Table.rule?_addHelpers.trans (if_pos (by omega))
  | some max =>
    have hle : min ≤ max := by simpa [Bounds.isInverted] using hbounds
    refine .bounded (hatom.mono h.addHelpers.2) hle ?_
    let stop := t.symbols.size + (max - min)
    have hchain : ChainCompiled
        (t.addHelpers .optional owner span (max - min) (chainAlternatives body stop)) body
        (max - min) (if max - min = 0 then [] else [.rule (stop - (max - min))]) := by
      refine chainCompiled_of_rules (fun id hid hstop => ?_) (by omega)
      exact Table.rule?_addHelpers.trans (if_pos (by omega))
    rw [Nat.add_sub_cancel] at hchain
    exact hchain

/-- **The symbols of a group stand for it.** -/
theorem group_compiled {owner : String} {opening span closing : Span}
    {alternatives : List (List Term)} {bodies : List Body} (h : t.Sound mentioned done)
    (halternatives : AlternationCompiled mentioned t alternatives bodies) :
    Atom.Compiled mentioned (group owner span bodies t).2 (.group opening alternatives closing)
      (group owner span bodies t).1 := by
  match bodies, halternatives with
  | [body], .cons hterms .nil => exact .spliced hterms
  | [], hnone =>
    refine .group (hnone.mono h.addHelpers.2) ?_
    exact Table.rule?_addHelpers.trans (if_pos (by omega))
  | _ :: _ :: _, hmany =>
    refine .group (hmany.mono h.addHelpers.2) ?_
    exact Table.rule?_addHelpers.trans (if_pos (by omega))

mutual

/-- **The symbols of an atom stand for it**, once it has been expanded. -/
theorem Atom.expand_compiled (owner : String) :
    (atom : Atom) → ∀ {t : Table}, t.Sound mentioned done →
      (∀ mention ∈ atom.mentions, mention.1 ∈ mentioned) →
      (∀ operation ∈ atom.operations, operation.2.isInverted = false) →
      atom.Compiled mentioned (atom.expand owner t).2 (atom.expand owner t).1
  | .literal .., _, _, _, _ => .literal
  | .set .., _, _, _, _ => .set
  | .any _, _, _, _, _ => .any
  | .name text span, t, h, hmentioned, _ => by
    have hname : text ∈ mentioned := hmentioned (text, span) (by simp [Atom.mentions])
    exact .name hname (SymbolTable.name?_of_find? (SymbolTable.find?_intern h.distinct))
  | .group opening alternatives closing, t, h, hmentioned, hbounds => by
    have hinner := expandAlternation_compiled owner alternatives h hmentioned hbounds
    have hsound := ((expandAlternation_grows owner alternatives) t).sound hmentioned h
    exact group_compiled hsound.1 hinner
termination_by structural atom => atom

/-- What repeats a term is compiled behind its atom, in a table in which the atom stays compiled. -/
theorem Term.expand_compiled (owner : String) :
    (term : Term) → ∀ {t : Table}, t.Sound mentioned done →
      (∀ mention ∈ term.mentions, mention.1 ∈ mentioned) →
      (∀ operation ∈ term.operations, operation.2.isInverted = false) →
      term.Compiled mentioned (term.expand owner t).2 (term.expand owner t).1
  | .mk atom none, t, h, hmentioned, hbounds =>
    .plain (atom.expand_compiled owner h hmentioned hbounds)
  | .mk atom (some operator), t, h, hmentioned, hbounds => by
    have hsplit := List.forall_mem_append.1 hbounds
    have hatom := atom.expand_compiled owner h hmentioned hsplit.1
    have hsound := ((atom.expand_grows owner) t).sound hmentioned h
    exact repetition_compiled hsound.1 (hsplit.2 _ (List.mem_singleton_self _)) hatom
termination_by structural term => term

theorem expandSequence_compiled (owner : String) :
    (terms : List Term) → ∀ {t : Table}, t.Sound mentioned done →
      (∀ mention ∈ sequenceMentions terms, mention.1 ∈ mentioned) →
      (∀ operation ∈ sequenceOperations terms, operation.2.isInverted = false) →
      SequenceCompiled mentioned (expandSequence owner terms t).2 terms
        (expandSequence owner terms t).1
  | [], _, _, _, _ => .nil
  | term :: terms, t, h, hmentioned, hbounds => by
    have hsplit := List.forall_mem_append.1 hmentioned
    have hbounds := List.forall_mem_append.1 hbounds
    have hfirst := term.expand_compiled owner h hsplit.1 hbounds.1
    have hmiddle := ((term.expand_grows owner) t).sound hsplit.1 h
    have hothers := expandSequence_compiled owner terms hmiddle.1 hsplit.2 hbounds.2
    have hextends := ((expandSequence_grows owner terms) _).sound hsplit.2 hmiddle.1
    exact .cons (hfirst.mono hextends.2) hothers
termination_by structural terms => terms

theorem expandAlternation_compiled (owner : String) :
    (alternatives : List (List Term)) → ∀ {t : Table}, t.Sound mentioned done →
      (∀ mention ∈ alternationMentions alternatives, mention.1 ∈ mentioned) →
      (∀ operation ∈ alternationOperations alternatives, operation.2.isInverted = false) →
      AlternationCompiled mentioned (expandAlternation owner alternatives t).2 alternatives
        (expandAlternation owner alternatives t).1
  | [], _, _, _, _ => .nil
  | terms :: alternatives, t, h, hmentioned, hbounds => by
    have hsplit := List.forall_mem_append.1 hmentioned
    have hbounds := List.forall_mem_append.1 hbounds
    have hfirst := expandSequence_compiled owner terms h hsplit.1 hbounds.1
    have hmiddle := ((expandSequence_grows owner terms) t).sound hsplit.1 h
    have hothers :=
      expandAlternation_compiled owner alternatives hmiddle.1 hsplit.2 hbounds.2
    have hextends := ((expandAlternation_grows owner alternatives) _).sound hsplit.2 hmiddle.1
    exact .cons (hfirst.mono hextends.2) hothers
termination_by structural alternatives => alternatives

end

/-- A rule is compiled when it is defined. -/
theorem Rule.expand_compiled {rule : Rule} (h : t.Sound mentioned done)
    (hmentioned : ∀ mention ∈ rule.mentions, mention.1 ∈ mentioned)
    (hbounds : ∀ operation ∈ rule.operations, operation.2.isInverted = false)
    (hnew : rule.name ∉ done) : rule.Compiled mentioned (rule.expand t).2 := by
  obtain ⟨⟨hentered, -⟩, hexpanded, hextends, hname⟩ := Rule.expanded_sound h hmentioned
  have hname' := hmentioned (rule.name, rule.span) (by simp [Rule.mentions])
  have hbodies := expandAlternation_compiled rule.name rule.alternatives hentered
    (fun mention hmention => hmentioned mention (List.mem_cons_of_mem _ hmention)) hbounds
  rw [Rule.expand_eq_define]
  refine ⟨_, _, hname, ?_, hbodies.mono (hexpanded.define hname hname' hnew).2⟩
  rw [Table.rule?_define, Function.update_self]

/-- **All rules are compiled in the last table**, as each stays so when the others are. -/
theorem expandRules_compiled {rules : List Rule} (h : t.Sound mentioned done)
    (hmentioned : ∀ name ∈ names rules, name ∈ mentioned)
    (hbounds : ∀ rule ∈ rules, ∀ operation ∈ rule.operations, operation.2.isInverted = false)
    (hdistinct : (rules.map (·.name)).Nodup) (hnew : ∀ rule ∈ rules, rule.name ∉ done) :
    ∀ rule ∈ rules, rule.Compiled mentioned (expandRules rules t).2 := by
  induction rules generalizing t done with
  | nil => simp
  | cons rule rules ih =>
    have hothers := forall_not_mem_cons hdistinct hnew
    rw [forall_mem_names_cons] at hmentioned
    rw [List.forall_mem_cons] at hbounds hnew
    rw [List.map_cons, List.nodup_cons] at hdistinct
    have hrule := (Rule.expand_sound h hmentioned.1 hnew.1).1
    have hextends := (expandRules_sound hrule hmentioned.2 hdistinct.2 hothers).2
    refine List.forall_mem_cons.2 ⟨?_, ih hrule hmentioned.2 hbounds.2 hdistinct.2 hothers⟩
    exact (Rule.expand_compiled h hmentioned.1 hbounds.1 hnew.1).mono hextends

/-- **The table of rules has a rule for each of them**, if they have different names. -/
theorem table_compiled {rules : List Rule}
    (hbounds : ∀ rule ∈ rules, ∀ operation ∈ rule.operations, operation.2.isInverted = false)
    (hdistinct : (rules.map (·.name)).Nodup) :
    ∀ rule ∈ rules, rule.Compiled (names rules) (table rules) :=
  expandRules_compiled (start_sound rules) (fun _ hname => hname) hbounds hdistinct (by simp)

end Bnf.Tree
