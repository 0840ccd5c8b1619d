import Bnf.Proofs.SymbolTable
import Bnf.Proofs.Tree.Expansion

/-!
# How a table grows

An expansion changes a table in two ways: it mentions a name of the source, or it adds helper rules
under new names. Names and rules that are there stay as they are. And at any time the identities
without a rule are those of the names whose rules are still to come: helpers have their rules from
the start, and no helper takes the name of a rule that comes later.

## Main definitions

- `Tree.Table.Grows` — a run of mentions and new helpers
- `Tree.Table.Extends` — names and rules stay as they are
- `Tree.Table.Sound` — which identities have a rule

## Main results

- `Tree.Table.Grows.sound` — what growing keeps
- `Tree.Atom.expand_grows` — an expansion makes a table grow
-/

namespace Bnf

namespace SymbolTable

variable {t : SymbolTable} {owner name other : String} {span : Span} {id : Nat}

/-- A name that is mentioned is added if it is new. -/
theorem names_intern : (t.intern name span).2.names =
    t.names ++ if name ∈ t.names then [] else [name] := by
  by_cases hmem : name ∈ t.names
  · obtain ⟨id, hid⟩ := Option.isSome_iff_exists.1 (find?_isSome_iff.2 hmem)
    simp [intern, hid, hmem]
  · have hnone := find?_eq_none_iff.2 hmem
    simp [intern, hnone, hmem]

@[simp] theorem reserved_intern : (t.intern name span).2.reserved = t.reserved := by
  rw [intern]
  split <;> rfl

/-- It is found from then on, under the identity that was given. -/
theorem find?_intern (hdistinct : t.names.Nodup) :
    (t.intern name span).2.find? name = some (t.intern name span).1 := by
  rw [intern]
  split
  · assumption
  · next hnone =>
    have hnew : name ∉ t.names := find?_eq_none_iff.1 hnone
    have hdistinct' : (t.push name span).2.names.Nodup := by
      rw [names_push, ← List.concat_eq_append]
      exact hdistinct.concat hnew
    rw [find?_eq_some_iff hdistinct', name?_eq_getElem?, names_push, push_fst, ← length_names]
    exact List.getElem?_concat_length

@[simp] theorem reserved_generateMany (count : Nat) :
    (t.generateMany owner span count).reserved = t.reserved := by
  induction count generalizing t with
  | zero => rfl
  | succ count ih => exact ih

/-- **Helpers get names of their own**: one each, all different, none of them known or kept free
    before. -/
theorem names_generateMany (t : SymbolTable) (owner : String) (span : Span) (count : Nat) :
    ∃ made : List String, (t.generateMany owner span count).names = t.names ++ made ∧
      made.length = count ∧ made.Nodup ∧
      ∀ name ∈ made, name ∉ t.names ∧ (∃ n, name = helperName owner n) ∧ name ∉ t.reserved := by
  induction count generalizing t with
  | zero => exact ⟨[], by simp [generateMany]⟩
  | succ count ih =>
    obtain ⟨made, hnames, hlength, hnodup, hmade⟩ := ih (t.generate owner span).2
    rw [generate_eq_push] at hnames hmade
    simp only [names_push, List.mem_append, List.mem_singleton, not_or, reserved_push] at hmade
    refine ⟨t.newName owner :: made, ?_, by simp [hlength], ?_, ?_⟩
    · rw [generateMany, generate_eq_push, hnames]
      simp
    · exact List.nodup_cons.2 ⟨fun hmem => (hmade _ hmem).1.2 rfl, hnodup⟩
    · intro name hname
      obtain rfl | hmem := List.mem_cons.1 hname
      · exact ⟨newName_not_mem_names, ⟨_, rfl⟩, newName_not_mem_reserved⟩
      · exact ⟨(hmade _ hmem).1.1, (hmade _ hmem).2⟩

@[simp] theorem size_generateMany (count : Nat) :
    (t.generateMany owner span count).size = t.size + count := by
  obtain ⟨made, hnames, hlength, -⟩ := t.names_generateMany owner span count
  rw [← length_names, hnames, List.length_append, length_names, hlength]

/-- A name that is kept free is not added to the names. -/
theorem names_reserve : (t.reserve name).names = t.names := by
  rw [reserve]
  split <;> rfl

/-- The names kept free are those before and this one. -/
theorem mem_reserved_reserve : other ∈ (t.reserve name).reserved ↔
    other = name ∨ other ∈ t.reserved := by
  rw [reserve]
  split
  · next hmem =>
    constructor
    · exact .inr
    · rintro (rfl | hother)
      · exact hmem
      · exact hother
  · simp

/-- Of some names, those are kept free that could be the name of a helper, and none is added. -/
theorem foldl_reserve (names : List String) (t : SymbolTable) :
    (names.foldl (fun t name => if isReserved name then t.reserve name else t) t).names = t.names ∧
      ∀ name, (name ∈ t.reserved ∨ name ∈ names ∧ isReserved name = true) →
        name ∈ (names.foldl
          (fun t name => if isReserved name then t.reserve name else t) t).reserved := by
  induction names generalizing t with
  | nil => simp
  | cons first names ih =>
    rw [List.foldl_cons]
    obtain ⟨hnames, hreserved⟩ := ih (if isReserved first then t.reserve first else t)
    refine ⟨hnames.trans (by split <;> simp [names_reserve]), fun name hname => hreserved name ?_⟩
    by_cases hfirst : isReserved first = true
    · rw [if_pos hfirst, mem_reserved_reserve]
      rw [List.mem_cons] at hname
      tauto
    · rw [if_neg hfirst]
      rw [List.mem_cons] at hname
      rcases hname with hname | ⟨rfl | hname, hkept⟩
      · exact .inl hname
      · exact absurd hkept hfirst
      · exact .inr ⟨hname, hkept⟩

@[simp] theorem names_keeping (names : List String) : (keeping names).names = [] :=
  (foldl_reserve names .empty).1

/-- A name that could be that of a helper is kept free from the beginning. -/
theorem mem_reserved_keeping {names : List String} (h : name ∈ names)
    (hreserved : isReserved name = true) : name ∈ (keeping names).reserved :=
  (foldl_reserve names .empty).2 name (.inr ⟨h, hreserved⟩)

end SymbolTable

namespace Tree

namespace Table

variable {t u v : Table} {kind : HelperKind} {owner name : String} {span : Span} {id : Nat}
  {rule : Bnf.Rule} {count : Nat} {alternatives : RuleId → List Body}

/-! ## The rules of a table -/

@[simp] theorem rule?_mention : (t.mention name span).2.rule? id = t.rule? id :=
  rfl

/-- A definition gives one identity its rule and leaves all others. -/
theorem rule?_define : (t.define id rule).rule? = Function.update t.rule? id (some rule) := by
  funext other
  by_cases h : other = id
  · simp [rule?, define, h]
  · simp [rule?, define, h, List.lookup_cons, beq_eq_false_iff_ne.2 h]

/-- Helpers have the identities behind those that were there, and their rules at once. -/
theorem rule?_addHelpers : (t.addHelpers kind owner span count alternatives).rule? id =
    if t.symbols.size ≤ id ∧ id < t.symbols.size + count then
      some ⟨.helper kind, alternatives id⟩
    else t.rule? id := by
  have hlookup : ∀ (ids : List RuleId) (rules : List (RuleId × Bnf.Rule)),
      ((ids.map fun id => (id, (⟨.helper kind, alternatives id⟩ : Bnf.Rule))) ++ rules).lookup id =
        if id ∈ ids then some ⟨.helper kind, alternatives id⟩ else rules.lookup id := by
    intro ids rules
    induction ids with
    | nil => simp
    | cons other ids ih =>
      by_cases h : id = other
      · simp [h]
      · simp [List.lookup_cons, h, ih, beq_eq_false_iff_ne.2 h]
  rw [rule?, addHelpers, ← List.map_reverse, hlookup]
  exact if_congr (by simp [List.mem_range'_1]) rfl rfl

/-! ## Growing -/

/-- A table grows by mentions of names, which are listed, and by new helpers. -/
inductive Grows : Table → List (String × Span) → Table → Prop
  | refl {t : Table} : Grows t [] t
  | mention {t u : Table} {mentions : List (String × Span)} {name : String} {span : Span} :
      Grows t mentions u → Grows t (mentions ++ [(name, span)]) (u.mention name span).2
  | helpers {t u : Table} {mentions : List (String × Span)} {kind : HelperKind} {owner : String}
      {span : Span} {count : Nat} {alternatives : RuleId → List Body} :
      Grows t mentions u → Grows t mentions (u.addHelpers kind owner span count alternatives)

/-- Growing twice is growing by the mentions of both. -/
theorem Grows.trans {first second : List (String × Span)} (h : t.Grows first u)
    (h' : u.Grows second v) : t.Grows (first ++ second) v := by
  induction h' with
  | refl => simpa using h
  | mention _ ih =>
    rw [← List.append_assoc]
    exact .mention ih
  | helpers _ ih => exact .helpers ih

/-- Names keep their identities, and rules stay as they are. -/
structure Extends (t u : Table) : Prop where
  names : t.symbols.names <+: u.symbols.names
  rules : ∀ {id : Nat} {rule : Bnf.Rule}, t.rule? id = some rule → u.rule? id = some rule

namespace Extends

theorem refl (t : Table) : t.Extends t :=
  ⟨List.prefix_rfl, id⟩

theorem trans (h : t.Extends u) (h' : u.Extends v) : t.Extends v :=
  ⟨h.names.trans h'.names, fun hrule => h'.rules (h.rules hrule)⟩

/-- A name that was there stays. -/
theorem name? (h : t.Extends u) (hname : t.symbols.name? id = some name) :
    u.symbols.name? id = some name := by
  rw [SymbolTable.name?_eq_getElem?] at hname ⊢
  obtain ⟨made, hmade⟩ := h.names
  rw [← hmade, List.getElem?_append_left (List.getElem?_eq_some_iff.1 hname).1, hname]

end Extends

/-- **The names and rules of a table fit together**, if the names in `mentioned` are those of the
    source and the rules of the names in `done` are complete: an identity has a rule unless its name
    is one whose rule is still to come. -/
structure Sound (mentioned done : List String) (t : Table) : Prop where
  distinct : t.symbols.names.Nodup
  kept : ∀ name ∈ mentioned, isReserved name = true → name ∈ t.symbols.reserved
  known : ∀ name ∈ done, name ∈ t.symbols.names
  bounded : ∀ {id : Nat}, t.symbols.size ≤ id → t.rule? id = none
  isSome_rule?_iff : ∀ {id : Nat} {name : String}, t.symbols.name? id = some name →
    ((t.rule? id).isSome ↔ (name ∈ mentioned → name ∈ done))

namespace Sound

variable {mentioned done : List String}

/-- An identity with a rule is not beyond the end of the table. -/
theorem lt_of_rule? (h : t.Sound mentioned done) (hrule : t.rule? id = some rule) :
    id < t.symbols.size := by
  by_contra hid
  rw [h.bounded (by omega)] at hrule
  exact absurd hrule (by simp)

/-- New names keep a table sound if the rules of their identities are as they should be. -/
theorem append {made : List String} (h : t.Sound mentioned done)
    (hnames : u.symbols.names = t.symbols.names ++ made)
    (hreserved : u.symbols.reserved = t.symbols.reserved)
    (hdistinct : made.Nodup) (hfresh : ∀ name ∈ made, name ∉ t.symbols.names)
    (hold : ∀ {id : Nat}, id < t.symbols.size → u.rule? id = t.rule? id)
    (hmade : ∀ {i : Nat} {name : String}, made[i]? = some name →
      ((u.rule? (t.symbols.size + i)).isSome ↔ (name ∈ mentioned → name ∈ done)))
    (hbounded : ∀ {id : Nat}, u.symbols.size ≤ id → u.rule? id = none) :
    u.Sound mentioned done ∧ t.Extends u := by
  refine ⟨⟨?_, ?_, ?_, hbounded, ?_⟩, ⟨⟨made, hnames.symm⟩, ?_⟩⟩
  · rw [hnames, List.nodup_append]
    refine ⟨h.distinct, hdistinct, ?_⟩
    rintro name hname _ hother rfl
    exact hfresh name hother hname
  · intro name hname hkept
    rw [hreserved]
    exact h.kept name hname hkept
  · intro name hname
    rw [hnames]
    exact List.mem_append_left _ (h.known name hname)
  · intro id name hname
    rw [SymbolTable.name?_eq_getElem?, hnames] at hname
    by_cases hid : id < t.symbols.size
    · rw [List.getElem?_append_left (by simpa using hid), ← SymbolTable.name?_eq_getElem?] at hname
      rw [hold hid]
      exact h.isSome_rule?_iff hname
    · rw [List.getElem?_append_right (by simpa using hid), SymbolTable.length_names] at hname
      have := hmade hname
      rwa [Nat.add_sub_cancel' (by omega)] at this
  · intro id rule hrule
    rwa [hold (h.lt_of_rule? hrule)]

/-- **A mention keeps the table sound.** A new name has no rule yet, as it is not defined. -/
theorem mention (h : t.Sound mentioned done) (hname : name ∈ mentioned) :
    (t.mention name span).2.Sound mentioned done ∧ t.Extends (t.mention name span).2 := by
  have hnames : (t.mention name span).2.symbols.names = _ := SymbolTable.names_intern
  refine h.append hnames SymbolTable.reserved_intern ?_ ?_ (fun _ => rfl) ?_ ?_
  · split <;> simp
  · intro other hother
    by_cases hmem : name ∈ t.symbols.names
    · simp [hmem] at hother
    · obtain rfl : other = name := by simpa [hmem] using hother
      exact hmem
  · intro i other hother
    by_cases hmem : name ∈ t.symbols.names
    · simp [hmem] at hother
    · -- A name that is new gets the next identity, which has no rule yet.
      obtain ⟨-, rfl⟩ : i = 0 ∧ name = other := by
        simpa [hmem, List.getElem?_singleton] using hother
      have hrule : (t.mention name span).2.rule? (t.symbols.size + i) = none :=
        h.bounded (Nat.le_add_right _ _)
      simp [hrule, hname, mt (h.known name) hmem]
  · intro id hid
    have hlength := congrArg List.length hnames
    rw [SymbolTable.length_names, List.length_append, SymbolTable.length_names] at hlength
    exact h.bounded (Nat.le_trans (by omega) hid)

/-- **So do helpers**, which have their rules from the beginning. -/
theorem addHelpers (h : t.Sound mentioned done) :
    (t.addHelpers kind owner span count alternatives).Sound mentioned done ∧
      t.Extends (t.addHelpers kind owner span count alternatives) := by
  obtain ⟨made, hnames, hlength, hnodup, hmade⟩ := t.symbols.names_generateMany owner span count
  refine h.append hnames (SymbolTable.reserved_generateMany count) hnodup
    (fun name hname => (hmade name hname).1) ?_ ?_ ?_
  · intro id hid
    rw [rule?_addHelpers, if_neg (by omega)]
  · intro i name hname
    obtain ⟨hi, -⟩ := List.getElem?_eq_some_iff.1 hname
    obtain ⟨-, ⟨n, rfl⟩, hfree⟩ := hmade name (List.mem_of_getElem? hname)
    -- The name has the form kept for helpers. Names of this form that the source mentions are set
    -- aside, and this is none of them.
    have hother : helperName owner n ∉ mentioned := fun hmem =>
      hfree (h.kept _ hmem (isReserved_helperName owner n))
    rw [rule?_addHelpers, if_pos (by omega)]
    simp [hother]
  · intro id hid
    change (t.symbols.generateMany owner span count).size ≤ id at hid
    rw [SymbolTable.size_generateMany] at hid
    rw [rule?_addHelpers, if_neg (by omega)]
    exact h.bounded (by omega)

/-- **So does a definition**, of a name that had none. -/
theorem define (h : t.Sound mentioned done) (hname : t.symbols.name? id = some name)
    (hmentioned : name ∈ mentioned) (hnew : name ∉ done) :
    (t.define id rule).Sound mentioned (name :: done) ∧ t.Extends (t.define id rule) := by
  have hid : id < t.symbols.size := SymbolTable.name?_eq_some_lt hname
  refine ⟨⟨h.distinct, h.kept, ?_, ?_, ?_⟩, ⟨List.prefix_rfl, ?_⟩⟩
  · intro other hother
    obtain rfl | hmem := List.mem_cons.1 hother
    · exact SymbolTable.mem_names_iff.2 ⟨id, hname⟩
    · exact h.known other hmem
  · intro other hother
    change t.symbols.size ≤ other at hother
    have hne : other ≠ id := Nat.ne_of_gt (Nat.lt_of_lt_of_le hid hother)
    rw [rule?_define, Function.update_of_ne hne]
    exact h.bounded hother
  · intro other found hfound
    change t.symbols.name? other = some found at hfound
    rw [rule?_define]
    by_cases hsame : other = id
    · subst hsame
      obtain rfl : name = found := by simpa [hname] using hfound
      simp
    · -- Names are distinct, so the rule of another name is not concerned.
      have hne : found ≠ name := by
        rintro rfl
        rw [← SymbolTable.find?_eq_some_iff h.distinct] at hfound hname
        exact hsame (by simpa [hname] using hfound.symm)
      rw [Function.update_of_ne hsame, h.isSome_rule?_iff hfound]
      simp [hne]
  · intro other found hfound
    have hne : other ≠ id := by
      rintro rfl
      have hsome := (h.isSome_rule?_iff hname).1 (by simp [hfound])
      exact hnew (hsome hmentioned)
    rwa [rule?_define, Function.update_of_ne hne]

end Sound

/-- **Growing keeps a table sound**, and changes nothing that is there. -/
theorem Grows.sound {mentions : List (String × Span)} {mentioned done : List String}
    (h : t.Grows mentions u) (hmentioned : ∀ mention ∈ mentions, mention.1 ∈ mentioned)
    (hsound : t.Sound mentioned done) : u.Sound mentioned done ∧ t.Extends u := by
  induction h with
  | refl => exact ⟨hsound, .refl _⟩
  | mention _ ih =>
    rw [List.forall_mem_append] at hmentioned
    obtain ⟨hmiddle, hextends⟩ := ih hmentioned.1
    obtain ⟨hfinal, hextends'⟩ := hmiddle.mention (hmentioned.2 _ (List.mem_singleton_self _))
    exact ⟨hfinal, hextends.trans hextends'⟩
  | helpers _ ih =>
    obtain ⟨hmiddle, hextends⟩ := ih hmentioned
    obtain ⟨hfinal, hextends'⟩ := hmiddle.addHelpers
    exact ⟨hfinal, hextends.trans hextends'⟩

/-- A table that grows by mentions has their names. -/
theorem Grows.mem_names {mentions : List (String × Span)} (h : t.Grows mentions u) :
    (∀ name ∈ t.symbols.names, name ∈ u.symbols.names) ∧
      ∀ mention ∈ mentions, mention.1 ∈ u.symbols.names := by
  induction h with
  | refl => simp
  | @mention u mentions name span _ ih =>
    have hnames : (u.mention name span).2.symbols.names = _ := SymbolTable.names_intern
    rw [hnames, List.forall_mem_append]
    refine ⟨fun other hother => List.mem_append_left _ (ih.1 other hother),
      fun other hother => List.mem_append_left _ (ih.2 other hother), ?_⟩
    rw [List.forall_mem_singleton]
    by_cases hmem : name ∈ u.symbols.names
    · simp [hmem]
    · simp [hmem]
  | @helpers u mentions kind owner span count alternatives _ ih =>
    obtain ⟨made, hnames, -⟩ := u.symbols.names_generateMany owner span count
    show (∀ name ∈ t.symbols.names, name ∈ (u.symbols.generateMany owner span count).names) ∧
      ∀ mention ∈ mentions, mention.1 ∈ (u.symbols.generateMany owner span count).names
    rw [hnames]
    exact ⟨fun other hother => List.mem_append_left _ (ih.1 other hother),
      fun other hother => List.mem_append_left _ (ih.2 other hother)⟩

end Table

/-! ## Expansions -/

open Expanding

variable {t u v : Table} {mentions others : List (String × Span)}

/-- A computation makes every table grow by the mentions of some names. -/
def Expanding.Grows {α : Type} (e : Expanding α) (mentions : List (String × Span)) : Prop :=
  ∀ t : Table, t.Grows mentions (e t).2

namespace Expanding

variable {α β : Type} {e : Expanding α} {f : α → Expanding β}

theorem Grows.pure (a : α) : Expanding.Grows (pure a) [] :=
  fun _ => .refl

/-- Two parts grow by the mentions of both. -/
theorem Grows.bind (h : e.Grows mentions) (h' : ∀ a, Expanding.Grows (f a) others) :
    Expanding.Grows (e >>= f) (mentions ++ others) :=
  fun t => (h t).trans (h' _ _)

theorem mention_grows (name : String) (span : Span) : (mention name span).Grows [(name, span)] :=
  fun _ => .mention .refl

/-- A repetition adds helpers only. -/
theorem repetition_grows (owner : String) (span : Span) (body : Body) (bounds : Bounds) :
    (repetition owner span body bounds).Grows [] := by
  intro t
  obtain ⟨min, max⟩ := bounds
  cases max with
  | none => exact .helpers .refl
  | some max => exact .helpers .refl

/-- So does a group. -/
theorem group_grows (owner : String) (span : Span) (alternatives : List Body) :
    (group owner span alternatives).Grows [] := by
  intro t
  match alternatives with
  | [_] => exact .refl
  | [] | _ :: _ :: _ => exact .helpers .refl

end Expanding

mutual

/-- **An expansion makes a table grow** by the mentions of its names. -/
theorem Atom.expand_grows (owner : String) :
    (atom : Atom) → (atom.expand owner).Grows atom.mentions
  | .literal .. | .set .. | .any _ => .pure _
  | .name text span => mention_grows text span
  | .group opening alternatives closing => by
    have := (expandAlternation_grows owner alternatives).bind
      (group_grows owner (opening.join closing))
    rwa [List.append_nil] at this
termination_by structural atom => atom

/-- A term has the mentions of its atom. What repeats it adds helpers only. -/
theorem Term.expand_grows (owner : String) :
    (term : Term) → (term.expand owner).Grows term.mentions
  | .mk atom none => atom.expand_grows owner
  | .mk atom (some operator) => by
    have := (atom.expand_grows owner).bind fun body =>
      repetition_grows owner (atom.span.join operator.span) body operator.bounds
    rwa [List.append_nil] at this
termination_by structural term => term

theorem expandSequence_grows (owner : String) :
    (terms : List Term) → (expandSequence owner terms).Grows (sequenceMentions terms)
  | [] => .pure _
  | term :: terms =>
    (term.expand_grows owner).bind fun _ => expandSequence_grows owner terms
termination_by structural terms => terms

theorem expandAlternation_grows (owner : String) :
    (alternatives : List (List Term)) →
      (expandAlternation owner alternatives).Grows (alternationMentions alternatives)
  | [] => .pure _
  | terms :: alternatives =>
    (expandSequence_grows owner terms).bind fun _ => expandAlternation_grows owner alternatives
termination_by structural alternatives => alternatives

end

/-! ## Rules -/

variable {mentioned done : List String}

/-- The table in which the alternatives of a rule are expanded. -/
def Rule.entered (rule : Rule) (t : Table) : Table :=
  (t.mention rule.name rule.span).2

/-- The table in which the alternatives of a rule have been expanded. -/
def Rule.expanded (rule : Rule) (t : Table) : Table :=
  (expandAlternation rule.name rule.alternatives (rule.entered t)).2

/-- A rule is defined last, behind all that its alternatives add. -/
theorem Rule.expand_eq_define (rule : Rule) (t : Table) :
    (rule.expand t).2 = (rule.expanded t).define (t.mention rule.name rule.span).1
      ⟨.defined rule.span, (expandAlternation rule.name rule.alternatives (rule.entered t)).1⟩ :=
  rfl

/-- Its name stays known, and the table sound, while its alternatives are expanded. -/
theorem Rule.expanded_sound {rule : Rule} (h : t.Sound mentioned done)
    (hmentioned : ∀ mention ∈ rule.mentions, mention.1 ∈ mentioned) :
    ((rule.entered t).Sound mentioned done ∧ t.Extends (rule.entered t)) ∧
      (rule.expanded t).Sound mentioned done ∧ (rule.entered t).Extends (rule.expanded t) ∧
      (rule.expanded t).symbols.name? (t.mention rule.name rule.span).1 = some rule.name := by
  have hname := hmentioned (rule.name, rule.span) (by simp [Rule.mentions])
  have hentered : (rule.entered t).Sound mentioned done ∧ t.Extends (rule.entered t) :=
    h.mention hname
  have hexpanded : (rule.expanded t).Sound mentioned done ∧
      (rule.entered t).Extends (rule.expanded t) := by
    have hgrows := expandAlternation_grows rule.name rule.alternatives (rule.entered t)
    refine hgrows.sound (fun mention hmention => hmentioned mention ?_) hentered.1
    exact List.mem_cons_of_mem _ hmention
  refine ⟨hentered, hexpanded.1, hexpanded.2, hexpanded.2.name? ?_⟩
  exact SymbolTable.name?_of_find? (SymbolTable.find?_intern h.distinct)

/-- **A rule keeps the table sound**, if its name was not defined before. -/
theorem Rule.expand_sound {rule : Rule} (h : t.Sound mentioned done)
    (hmentioned : ∀ mention ∈ rule.mentions, mention.1 ∈ mentioned) (hnew : rule.name ∉ done) :
    (rule.expand t).2.Sound mentioned (rule.name :: done) ∧ t.Extends (rule.entered t) ∧
      (rule.entered t).Extends (rule.expand t).2 := by
  obtain ⟨⟨-, hentered⟩, hexpanded, hextends, hname⟩ := Rule.expanded_sound h hmentioned
  have hname' := hmentioned (rule.name, rule.span) (by simp [Rule.mentions])
  rw [Rule.expand_eq_define]
  obtain ⟨hsound, hextends'⟩ := hexpanded.define hname hname' hnew
  exact ⟨hsound, hentered, hextends.trans hextends'⟩

theorem Rule.mem_names_expand (rule : Rule) (t : Table) :
    (∀ name ∈ t.symbols.names, name ∈ (rule.expand t).2.symbols.names) ∧
      ∀ mention ∈ rule.mentions, mention.1 ∈ (rule.expand t).2.symbols.names := by
  have hgrows := ((mention_grows rule.name rule.span).bind fun _ =>
    expandAlternation_grows rule.name rule.alternatives) t
  exact hgrows.mem_names

theorem forall_not_mem_cons {rule : Rule} {rules : List Rule}
    (hdistinct : ((rule :: rules).map (·.name)).Nodup)
    (hnew : ∀ other ∈ rule :: rules, other.name ∉ done) :
    ∀ other ∈ rules, other.name ∉ rule.name :: done := by
  rw [List.map_cons, List.nodup_cons] at hdistinct
  intro other hother
  rw [List.mem_cons, not_or]
  refine ⟨fun hsame => hdistinct.1 ?_, hnew other (List.mem_cons_of_mem _ hother)⟩
  exact hsame ▸ List.mem_map_of_mem hother

/-- **Expanding rules with different names** keeps a table sound. -/
theorem expandRules_sound {rules : List Rule} (h : t.Sound mentioned done)
    (hmentioned : ∀ name ∈ names rules, name ∈ mentioned)
    (hdistinct : (rules.map (·.name)).Nodup) (hnew : ∀ rule ∈ rules, rule.name ∉ done) :
    (expandRules rules t).2.Sound mentioned ((rules.map (·.name)).reverse ++ done) ∧
      t.Extends (expandRules rules t).2 := by
  induction rules generalizing t done with
  | nil => exact ⟨h, .refl t⟩
  | cons rule rules ih =>
    have hothers := forall_not_mem_cons hdistinct hnew
    rw [forall_mem_names_cons] at hmentioned
    rw [List.map_cons, List.nodup_cons] at hdistinct
    rw [List.forall_mem_cons] at hnew
    obtain ⟨hrule, hentered, hextends⟩ := Rule.expand_sound h hmentioned.1 hnew.1
    obtain ⟨hsound, hextends'⟩ := ih hrule hmentioned.2 hdistinct.2 hothers
    refine ⟨?_, hentered.trans (hextends.trans hextends')⟩
    rw [List.map_cons, List.reverse_cons, List.append_assoc]
    exact hsound

/-- All names in some rules are in the table behind them. -/
theorem mem_names_expandRules (rules : List Rule) (t : Table) :
    (∀ name ∈ t.symbols.names, name ∈ (expandRules rules t).2.symbols.names) ∧
      ∀ name ∈ names rules, name ∈ (expandRules rules t).2.symbols.names := by
  induction rules generalizing t with
  | nil => exact ⟨fun _ hname => hname, by simp [names]⟩
  | cons rule rules ih =>
    obtain ⟨hkeeps, hmentions⟩ := rule.mem_names_expand t
    obtain ⟨hkeeps', hmentions'⟩ := ih (rule.expand t).2
    refine ⟨fun name hname => hkeeps' name (hkeeps name hname), ?_⟩
    rw [forall_mem_names_cons]
    exact ⟨fun mention hmention => hkeeps' _ (hmentions mention hmention), hmentions'⟩

/-! ## The table of a text -/

/-- At the start nothing is defined, and there is nothing to be. -/
theorem start_sound (rules : List Rule) : (start rules).Sound (names rules) [] := by
  refine ⟨by simp [start], fun name hname hkept => ?_, by simp, fun _ => rfl, ?_⟩
  · exact SymbolTable.mem_reserved_keeping hname hkept
  · intro id name hname
    have hmem := SymbolTable.mem_names_iff.2 ⟨id, hname⟩
    simp [start] at hmem

/-- **The table of rules with different names is sound**: an identity has a rule unless its name is
    one that is mentioned and has no rule. -/
theorem table_sound {rules : List Rule} (hdistinct : (rules.map (·.name)).Nodup) :
    (table rules).Sound (names rules) (rules.map (·.name)).reverse := by
  have := expandRules_sound (start_sound rules) (fun _ hname => hname) hdistinct (by simp)
  rw [List.append_nil] at this
  exact this.1

/-- All names in the rules of a text are in its table. -/
theorem mem_names_table {rules : List Rule} {name : String} (h : name ∈ names rules) :
    name ∈ (table rules).symbols.names :=
  (mem_names_expandRules rules _).2 name h

/-- The first rule of a text has the first identity. -/
theorem find?_table_head {rule : Rule} {rules : List Rule}
    (hdistinct : ((rule :: rules).map (·.name)).Nodup) :
    (table (rule :: rules)).symbols.find? rule.name = some 0 := by
  have hnames := @forall_mem_names_cons rule rules (· ∈ names (rule :: rules)) |>.1
    fun _ hname => hname
  have hrule := Rule.expand_sound (start_sound (rule :: rules)) hnames.1 (by simp)
  have hothers := @forall_not_mem_cons [] rule rules hdistinct (by simp)
  rw [List.map_cons, List.nodup_cons] at hdistinct
  obtain ⟨hsound, hextends⟩ := expandRules_sound hrule.1 hnames.2 hdistinct.2 hothers
  -- The name gets its identity in the empty table, and keeps it ever after.
  refine (SymbolTable.find?_eq_some_iff hsound.distinct).2 (hextends.name? (hrule.2.2.name? ?_))
  rw [SymbolTable.name?_eq_getElem?]
  have hentered : (rule.entered (start (rule :: rules))).symbols.names = _ :=
    SymbolTable.names_intern
  rw [hentered]
  simp [start]

end Tree

end Bnf
