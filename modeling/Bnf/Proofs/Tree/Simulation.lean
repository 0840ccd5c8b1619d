import Bnf.Proofs.Drafting
import Bnf.Proofs.SymbolTable
import Bnf.Proofs.Tree.Expansion
import Bnf.Proofs.Tree.Reading

/-!
# Reading a tree expands it

A reader of trees checks what it reads and reports what it does; apart from that it changes a draft
as the expansion of the tree changes a table. Here this is proved for every part of a tree, with the
exact condition on which the reader lets the part pass.

## Main definitions

- `Follows` — a computation on drafts does what one on tables does, on some condition
- `Tree.Admitted` — what the checks ask of a part of a tree

## Main results

- `Tree.Atom.isEmpty_expand` — which atoms expand to no symbol
- `Tree.readAlternation_follows` — reading an alternation
-/

namespace Bnf

open Drafting Bnf.Tree

/-- The names and rules of a draft. -/
def Draft.table (d : Draft) : Table :=
  ⟨d.symbols, d.definitions⟩

/-- A computation on drafts does to the names and rules what a computation on tables does, if these
    meet a condition, and fails otherwise. -/
structure Follows {α : Type} (m : Drafting α) (e : Expanding α) (condition : Table → Prop) :
    Prop where
  succeeds : ∀ {d : Draft}, condition d.table →
    ∃ d' : Draft, m d = .ok (e d.table).1 d' ∧ d'.table = (e d.table).2 ∧ d'.first? = d.first?
  requires : ∀ {d d' : Draft} {a : α}, m d = .ok a d' → condition d.table

namespace Follows

variable {α β : Type} {m : Drafting α} {e : Expanding α} {p q : Table → Prop}

/-- If what follows succeeds, it has given what it should, and left the table that it should. -/
theorem eq_of_ok {d d' : Draft} {a : α} (h : Follows m e p) (hok : m d = .ok a d') :
    a = (e d.table).1 ∧ d'.table = (e d.table).2 ∧ d'.first? = d.first? := by
  obtain ⟨found, hfound, htable, hfirst⟩ := h.succeeds (h.requires hok)
  rw [hok] at hfound
  cases hfound
  exact ⟨rfl, htable, hfirst⟩

theorem congr (h : Follows m e p) (hpq : ∀ t, p t ↔ q t) : Follows m e q where
  succeeds hq := h.succeeds ((hpq _).2 hq)
  requires hok := (hpq _).1 (h.requires hok)

theorem pure (a : α) : Follows (pure a) (pure a) fun _ => True where
  succeeds _ := ⟨_, rfl, rfl, rfl⟩
  requires _ := trivial

/-- **Two parts that follow an expansion each follow it together.** What they ask for is asked of
    the table that each finds. -/
theorem bind {f : α → Drafting β} {g : α → Expanding β} {r : α → Table → Prop}
    (hm : Follows m e p) (hf : ∀ a, Follows (f a) (g a) (r a)) :
    Follows (m >>= f) (e >>= g) fun t => p t ∧ r (e t).1 (e t).2 where
  succeeds := by
    rintro d ⟨hp, hr⟩
    obtain ⟨middle, hmiddle, htable, hfirst⟩ := hm.succeeds hp
    rw [← htable] at hr
    obtain ⟨final, hfinal, htable', hfirst'⟩ := (hf _).succeeds hr
    refine ⟨final, ?_, ?_, hfirst'.trans hfirst⟩
    · rw [bind_eq_ok]
      refine ⟨_, middle, hmiddle, ?_⟩
      rw [hfinal, htable]
      rfl
    · rw [htable', htable]
      rfl
  requires := by
    intro d d' b hok
    obtain ⟨a, middle, hmiddle, hfinal⟩ := bind_eq_ok.1 hok
    obtain ⟨rfl, htable, -⟩ := hm.eq_of_ok hmiddle
    exact ⟨hm.requires hmiddle, htable ▸ (hf _).requires hfinal⟩

/-- A check in front of a computation adds a condition, which the computation may rely on. -/
theorem guard {check : Drafting Unit} {condition : Prop}
    (hcheck : Follows check (Pure.pure ()) fun _ => condition)
    (hm : condition → Follows m e p) :
    Follows (check >>= fun _ => m) e fun t => condition ∧ p t where
  succeeds := by
    rintro d ⟨hcondition, hp⟩
    exact (hcheck.bind fun _ => hm hcondition).succeeds ⟨hcondition, hp⟩
  requires := by
    intro d d' a hok
    obtain ⟨_, middle, hmiddle, -⟩ := bind_eq_ok.1 hok
    have hcondition := hcheck.requires hmiddle
    exact (hcheck.bind fun _ => hm hcondition).requires hok

/-- A fault in the one case leaves the other as the condition. -/
theorem orFail {c : Prop} [Decidable c] {fault : GrammarFault} {offset : Nat}
    (hm : Follows m e p) :
    Follows (if c then fail fault offset else m) e fun t => ¬c ∧ p t where
  succeeds := by
    rintro d ⟨hc, hp⟩
    rw [if_neg hc]
    exact hm.succeeds hp
  requires := by
    intro d d' a hok
    by_cases hc : c
    · rw [if_pos hc, fail_eq_ok] at hok
      exact hok.elim
    · rw [if_neg hc] at hok
      exact ⟨hc, hm.requires hok⟩

end Follows

/-! ## What a draft is told -/

/-- A report is not told to the table. -/
theorem report_follows (event : Event) : Follows (report event) (pure ()) fun _ => True where
  succeeds _ := ⟨_, rfl, rfl, rfl⟩
  requires _ := trivial

/-- Names and rules are told to the table as they are to the draft. -/
theorem mention_follows (name : String) (span : Span) :
    Follows (mention name span) (Expanding.mention name span) fun _ => True where
  succeeds _ := ⟨_, rfl, rfl, rfl⟩
  requires _ := trivial

theorem define_follows (id : RuleId) (rule : Rule) :
    Follows (define id rule) (Expanding.define id rule) fun _ => True where
  succeeds _ := ⟨_, rfl, rfl, rfl⟩
  requires _ := trivial

theorem defineHelper_follows (id : RuleId) (kind : HelperKind) (alternatives : List Body) :
    Follows (defineHelper id kind alternatives)
      (Expanding.define id ⟨.helper kind, alternatives⟩) fun _ => True where
  succeeds _ := ⟨_, rfl, rfl, rfl⟩
  requires _ := trivial

/-- Helpers that are made one by one have identities one after the other. -/
theorem newHelpers_eq_ok (owner : String) (span : Span) (count : Nat) (d : Draft) :
    newHelpers owner span count d =
      .ok (List.range' d.symbols.size count)
        { d with symbols := d.symbols.generateMany owner span count } := by
  induction count generalizing d with
  | zero => rfl
  | succ count ih =>
    have hfirst : newHelper owner span d =
        .ok d.symbols.size { d with symbols := (d.symbols.generate owner span).2 } := rfl
    refine bind_eq_ok.2 ⟨_, _, hfirst, bind_eq_ok.2 ⟨_, _, ih _, ?_⟩⟩
    rw [pure_eq_ok, SymbolTable.size_generate]
    exact ⟨List.range'_succ.symm, rfl⟩

theorem toList_head?_range' (first count : Nat) :
    ((List.range' first count).head?.map Symbol.rule).toList =
      if count = 0 then [] else [.rule first] := by
  cases count with
  | zero => rfl
  | succ count => rw [List.range'_succ, if_neg (by omega)]; rfl

/-- The rules of a chain are defined from the first to the last, each of which mentions the next. -/
theorem defineChain_eq_ok (body : Body) {first count stop : Nat} (hstop : first + count = stop)
    (d : Draft) :
    ∃ d' : Draft, defineChain body (List.range' first count) d = .ok () d' ∧
      d'.symbols = d.symbols ∧ d'.first? = d.first? ∧
      d'.definitions =
        ((List.range' first count).map fun id =>
          (id, (⟨.helper .optional, Expanding.chainAlternatives body stop id⟩ : Rule))).reverse ++
          d.definitions := by
  induction count generalizing first d with
  | zero => exact ⟨d, rfl, rfl, rfl, rfl⟩
  | succ count ih =>
    -- The helper behind this one is named by the list in the one form, by its number in the other.
    have hnext : ((List.range' (first + 1) count).head?.map Symbol.rule).toList =
        if first + 1 < stop then [.rule (first + 1)] else [] := by
      rw [toList_head?_range', ← ite_not]
      exact if_congr (by omega) rfl rfl
    obtain ⟨middle, hmiddle, htable, hfirst⟩ :=
      @(defineHelper_follows first .optional (Expanding.chainAlternatives body stop first)).succeeds
        d trivial
    obtain ⟨final, hfinal, hsymbols, hfirst', hdefinitions⟩ := @ih (first + 1) (by omega) middle
    refine ⟨final, ?_, ?_, hfirst'.trans hfirst, ?_⟩
    · rw [List.range'_succ, defineChain, bind_eq_ok, hnext]
      exact ⟨_, middle, hmiddle, hfinal⟩
    · exact hsymbols.trans (congrArg Table.symbols htable)
    · have hrules : middle.definitions = _ := congrArg Table.rules htable
      rw [hdefinitions, hrules, List.range'_succ]
      simp [Expanding.define, Table.define, Draft.table, modify, modifyGet, MonadStateOf.modifyGet,
        StateT.modifyGet, pure]

/-- **A repetition is written out as its expansion says.** -/
theorem repeated_follows (owner : String) (span : Span) (body : Body) (bounds : Bounds) :
    Follows (repeated owner span body bounds) (Expanding.repetition owner span body bounds)
      fun _ => True where
  succeeds := by
    intro d _
    obtain ⟨min, max⟩ := bounds
    cases max with
    | none => exact ⟨_, rfl, rfl, rfl⟩
    | some max =>
      -- All helpers of the chain are named before the first of them gets its rule.
      obtain ⟨final, hfinal, hsymbols, hfirst, hdefinitions⟩ :=
        defineChain_eq_ok body rfl
          { d with symbols := d.symbols.generateMany owner span (max - min) }
      refine ⟨final, ?_, ?_, hfirst⟩
      · refine bind_eq_ok.2 ⟨_, _, newHelpers_eq_ok owner span (max - min) d, ?_⟩
        refine bind_eq_ok.2 ⟨_, _, hfinal, ?_⟩
        rw [pure_eq_ok]
        exact ⟨congrArg (_ ++ ·) (toList_head?_range' d.symbols.size (max - min)), rfl⟩
      · rw [Draft.table, hsymbols, hdefinitions]
        rfl
  requires _ := trivial

/-- A group with one alternative is its symbols, and with more it is a helper, in both. -/
theorem grouped_follows (owner : String) (span : Span) (alternatives : List Body) :
    Follows (grouped owner span alternatives) (Expanding.group owner span alternatives)
      fun _ => True where
  succeeds := by
    intro d _
    match alternatives with
    | [] | [_] | _ :: _ :: _ => exact ⟨_, rfl, rfl, rfl⟩
  requires _ := trivial

theorem requireAllowed_follows (options : ParseOptions) (name : String) (span : Span) :
    Follows (requireAllowed options name span) (pure ()) fun _ =>
      options.allowReservedNames = true ∨ isReserved name = false :=
  (Follows.pure ()).orFail.congr fun _ => by
    cases options.allowReservedNames <;> simp

namespace Tree

/-! ## Nothing to repeat -/

theorem isEmpty_append (first second : Body) :
    (first ++ second).isEmpty = (first.isEmpty && second.isEmpty) := by
  cases first <;> rfl

/-- A repetition is void if there is nothing left of the copies: none, or copies of nothing. -/
theorem isEmpty_repetition (owner : String) (span : Span) (body : Body) (bounds : Bounds)
    (t : Table) :
    (Expanding.repetition owner span body bounds t).1.isEmpty =
      ((bounds.min = 0 || body.isEmpty) && bounds.max.any (· ≤ bounds.min)) := by
  have hcopies : (List.replicate bounds.min body).flatten.isEmpty =
      (bounds.min = 0 || body.isEmpty) := by
    rw [Bool.eq_iff_iff]
    simp [List.flatten_eq_nil_iff, List.mem_replicate, or_iff_not_imp_left]
  obtain ⟨min, max⟩ := bounds
  cases max with
  | none =>
    show (_ ++ _ : Body).isEmpty = _
    simp
  | some max =>
    show (_ ++ if max - min = 0 then _ else _ : Body).isEmpty = _
    rw [isEmpty_append, hcopies]
    congr 1
    -- The chain has no helper exactly if the upper bound is not above the lower one.
    by_cases hle : max ≤ min
    · simp [hle]
    · have hcount : max - min ≠ 0 := by omega
      simp [hle, hcount]

mutual

/-- **An atom expands to no symbol** in the cases that are listed by `Atom.isVoid`. -/
theorem Atom.isEmpty_expand (owner : String) :
    (atom : Atom) → (t : Table) → (atom.expand owner t).1.isEmpty = atom.isVoid
  | .literal [] _, _ | .literal (_ :: _) _, _ => rfl
  | .set .., _ | .any _, _ | .name .., _ => rfl
  | .group _ [] _, _ | .group _ (_ :: _ :: _) _, _ => rfl
  | .group _ [terms] _, t => isEmpty_expandSequence owner terms t

/-- A term is void by its bounds or by its atom, which can be told before any of it is expanded. -/
theorem Term.isEmpty_expand (owner : String) :
    (term : Term) → (t : Table) → (term.expand owner t).1.isEmpty = term.isVoid
  | .mk atom none, t => atom.isEmpty_expand owner t
  | .mk atom (some operator), t => by
    have := atom.isEmpty_expand owner t
    exact (isEmpty_repetition owner _ _ operator.bounds _).trans (by rw [this]; rfl)

theorem isEmpty_expandSequence (owner : String) :
    (terms : List Term) → (t : Table) →
      (expandSequence owner terms t).1.isEmpty = isVoidSequence terms
  | [], _ => rfl
  | term :: terms, t => by
    have hfirst := term.isEmpty_expand owner t
    have hothers := isEmpty_expandSequence owner terms (term.expand owner t).2
    rw [isVoidSequence, ← hfirst, ← hothers]
    exact isEmpty_append _ _

end

/-! ## What the checks ask -/

/-- **What the checks of a reader ask** of a part of a tree that mentions some names, applies some
    operators, and has `depth` groups open at once, those around it included. -/
structure Admitted (options : ParseOptions) (mentions : List (String × Span)) (depth : Nat)
    (operations : List (Atom × Bounds)) : Prop where
  allowed : ∀ mention ∈ mentions,
    options.allowReservedNames = true ∨ isReserved mention.1 = false
  nested : depth ≤ options.maxNesting.toNat
  applied : ∀ operation ∈ operations, operation.1.isVoid = false ∧
    operation.2.isInverted = false ∧ operation.2.count ≤ options.maxRepetition.toNat

/-- Without mentions and operators only the depth is asked. -/
theorem admitted_nil_iff {options : ParseOptions} {depth : Nat} :
    Admitted options [] depth [] ↔ depth ≤ options.maxNesting.toNat := by
  constructor
  · intro h
    exact h.nested
  · intro h
    exact ⟨by simp, h, by simp⟩

/-- What is asked of two parts is asked of each, the depth from where both begin. -/
theorem admitted_append_iff {options : ParseOptions} {first second : List (String × Span)}
    {outer depth other : Nat} {operations others : List (Atom × Bounds)} :
    Admitted options (first ++ second) (outer + max depth other) (operations ++ others) ↔
      Admitted options first (outer + depth) operations ∧
        Admitted options second (outer + other) others := by
  constructor
  · rintro ⟨hallowed, hnested, happlied⟩
    rw [List.forall_mem_append] at hallowed happlied
    exact ⟨⟨hallowed.1, by omega, happlied.1⟩, ⟨hallowed.2, by omega, happlied.2⟩⟩
  · rintro ⟨⟨hallowed, hnested, happlied⟩, ⟨hallowed', hnested', happlied'⟩⟩
    exact ⟨List.forall_mem_append.2 ⟨hallowed, hallowed'⟩, by omega,
      List.forall_mem_append.2 ⟨happlied, happlied'⟩⟩

/-- A group is opened if this is not too deep. -/
theorem requireDepth_follows (options : ParseOptions) (depth : Nat) (opening : Span) :
    Follows (requireDepth options depth opening) (pure ()) fun _ =>
      depth + 1 ≤ options.maxNesting.toNat :=
  (Follows.pure ()).orFail.congr fun _ => by
    rw [and_true]
    omega

/-- An operator is applied if there is something to repeat, and its bounds are in order and small
    enough. -/
theorem requireRepeatable_follows (options : ParseOptions) (body : Body)
    (operator : Repetition) :
    Follows (requireRepeatable options body operator) (pure ()) fun _ =>
      body.isEmpty = false ∧ operator.bounds.isInverted = false ∧
        operator.bounds.count ≤ options.maxRepetition.toNat :=
  (Follows.pure ()).orFail.orFail.orFail.congr fun _ => by simp

/-! ## Reading -/

mutual

/-- **Reading a tree follows its expansion if the options admit the tree**, with its mentions, its
    depth and its operators. The cases are those of the tree, and what is asked of a whole is put
    together from its parts. -/
theorem Atom.read_follows (options : ParseOptions) (owner : String) (depth : Nat)
    (hdepth : depth ≤ options.maxNesting.toNat) :
    (atom : Atom) → Follows (atom.read options owner depth) (atom.expand owner) fun _ =>
      Admitted options atom.mentions (depth + atom.depth) atom.operations
  | .literal .. | .set .. | .any _ =>
    (Follows.pure _).congr fun _ => ⟨fun _ => admitted_nil_iff.2 hdepth, fun _ => trivial⟩
  | .name text span =>
    ((requireAllowed_follows options text span).guard fun _ =>
      (mention_follows text span).bind fun _ => .pure _).congr fun _ => by
        rw [and_true, and_true]
        constructor
        · intro h
          exact ⟨by simpa [Atom.mentions] using h, hdepth, by simp [Atom.operations]⟩
        · intro h
          exact h.allowed (text, span) (by simp [Atom.mentions])
  | .group opening alternatives closing =>
    ((requireDepth_follows options depth opening).guard fun hdeeper =>
      (readAlternation_follows options owner (depth + 1) hdeeper alternatives).bind fun bodies =>
        grouped_follows owner (opening.join closing) bodies).congr fun _ => by
          have hsum : depth + (alternationDepth alternatives + 1) =
              depth + 1 + alternationDepth alternatives := by omega
          rw [and_true, Atom.mentions, Atom.depth, Atom.operations, hsum]
          constructor
          · rintro ⟨-, h⟩
            exact h
          · intro h
            have := h.nested
            exact ⟨by omega, h⟩
termination_by structural atom => atom

/-- The operator of a term is looked at behind its atom, of which it has to know whether it is
    void. -/
theorem Term.read_follows (options : ParseOptions) (owner : String) (depth : Nat)
    (hdepth : depth ≤ options.maxNesting.toNat) :
    (term : Term) → Follows (term.read options owner depth) (term.expand owner) fun _ =>
      Admitted options term.mentions (depth + term.depth) term.operations
  | .mk atom none => atom.read_follows options owner depth hdepth
  | .mk atom (some operator) =>
    ((atom.read_follows options owner depth hdepth).bind fun body =>
      (requireRepeatable_follows options body operator).guard fun _ =>
        repeated_follows owner (atom.span.join operator.span) body operator.bounds).congr
          fun t => by
            rw [atom.isEmpty_expand, and_true, Term.mentions, Term.depth, Term.operations]
            constructor
            · rintro ⟨hatom, happlied⟩
              refine ⟨hatom.allowed, hatom.nested, List.forall_mem_append.2 ⟨hatom.applied, ?_⟩⟩
              simpa using happlied
            · rintro ⟨hallowed, hnested, happlied⟩
              have hsplit := List.forall_mem_append.1 happlied
              exact ⟨⟨hallowed, hnested, hsplit.1⟩, by simpa using hsplit.2⟩
termination_by structural term => term

theorem readSequence_follows (options : ParseOptions) (owner : String) (depth : Nat)
    (hdepth : depth ≤ options.maxNesting.toNat) :
    (terms : List Term) → Follows (readSequence options owner depth terms)
      (expandSequence owner terms) fun _ =>
      Admitted options (sequenceMentions terms) (depth + sequenceDepth terms)
        (sequenceOperations terms)
  | [] => (Follows.pure _).congr fun _ => ⟨fun _ => admitted_nil_iff.2 hdepth, fun _ => trivial⟩
  | term :: terms =>
    ((term.read_follows options owner depth hdepth).bind fun first =>
      (readSequence_follows options owner depth hdepth terms).bind fun others =>
        .pure (first ++ others)).congr fun _ => by
          simp only [and_true]
          exact admitted_append_iff.symm
termination_by structural terms => terms

theorem readAlternation_follows (options : ParseOptions) (owner : String) (depth : Nat)
    (hdepth : depth ≤ options.maxNesting.toNat) :
    (alternatives : List (List Term)) → Follows (readAlternation options owner depth alternatives)
      (expandAlternation owner alternatives) fun _ =>
      Admitted options (alternationMentions alternatives) (depth + alternationDepth alternatives)
        (alternationOperations alternatives)
  | [] => (Follows.pure _).congr fun _ => ⟨fun _ => admitted_nil_iff.2 hdepth, fun _ => trivial⟩
  | terms :: alternatives =>
    ((readSequence_follows options owner depth hdepth terms).bind fun body =>
      (readAlternation_follows options owner depth hdepth alternatives).bind fun bodies =>
        .pure (body :: bodies)).congr fun _ => by
          simp only [and_true]
          exact admitted_append_iff.symm
termination_by structural alternatives => alternatives

end

end Tree

end Bnf
