import Mathlib.Data.List.Perm.Basic
import Mathlib.Data.Set.Function
import Mathlib.Order.Interval.Set.Defs
import Bnf.Proofs.SameStructure
import Bnf.Proofs.Tree.FirstMention
import Bnf.Proofs.Tree.Sketch

/-!
# Rules in another order

Expanded in another order, rules and helpers get other identities, and helpers may get other names.
Each table has the same sketches, though, so the helpers of one can be listed beside those of the
other, rule by rule. With the names that both tables know, this gives a one-to-one correspondence of
all identities, and every rule is the same as the one it corresponds to, up to identities.

## Main definitions

- `Grammar.Renumbers` — a grammar is another one with other identities
- `Tree.Table.Divided` — the identities of a table are those of names in the source and of helpers
- `Tree.Table.transfer` — the identity in another table

## Main results

- `Tree.Table.Divided.bijOn_transfer` — identities correspond to each other one to one
- `Tree.Rule.Realized.renamed` — rules with the same sketch are the same up to identities
- `Tree.exists_renumbers_compile` — in another order rules make the same grammar
-/

namespace Bnf

/-- The sort of helper that a rule is, if it is one. -/
def Origin.helperKind? : Origin → Option HelperKind
  | .defined _ => none
  | .helper kind => some kind

/-- A rule with other identities in its alternatives. -/
def Rule.SameUnder (f : RuleId → RuleId) (rule other : Rule) : Prop :=
  other.origin.helperKind? = rule.origin.helperKind? ∧
    other.alternatives = rule.alternatives.map (List.map (Symbol.rename f))

/-- **A grammar with other identities**: `f` maps the identities of `g` one to one to those of `h`,
    the root to the root, rules that the source defines to those of the same name, helpers to
    helpers of the same kind, and the alternatives of each rule to those of its image, in order. -/
structure Grammar.Renumbers (f : RuleId → RuleId) (g h : Grammar) : Prop where
  bijOn : Set.BijOn f (Set.Iio g.size) (Set.Iio h.size)
  root : f g.root = h.root
  rules : ∀ {id : Nat} {rule : Rule}, g.rule? id = some rule →
    ∃ other, h.rule? (f id) = some other ∧ rule.SameUnder f other
  names : ∀ {id : Nat} {rule : Rule}, g.rule? id = some rule → rule.isHelper = false →
    h.name (f id) = g.name id

theorem Grammar.Renumbers.embeds {f : RuleId → RuleId} {g h : Grammar} (hf : g.Renumbers f h) :
    Grammar.Embeds f g h := by
  intro id rule hrule
  obtain ⟨other, hother, -, halternatives⟩ := hf.rules hrule
  exact ⟨other, hother, fun body hbody => halternatives ▸ List.mem_map_of_mem hbody⟩

section

variable {α β γ : Type} {R : α → β → Prop} {S : α → γ → Prop} {xs : List α} {ys : List β}
  {zs : List γ}

theorem forall₂_and {R' : α → β → Prop} (h : List.Forall₂ R xs ys) (h' : List.Forall₂ R' xs ys) :
    List.Forall₂ (fun x y => R x y ∧ R' x y) xs ys := by
  rw [List.forall₂_iff_zip] at h h' ⊢
  exact ⟨h.1, fun hmem => ⟨h.2 hmem, h'.2 hmem⟩⟩

/-- What is told by the same list is the same up to a function, if it is element by element. -/
theorem eq_map_of_forall₂ {f : β → γ} (h : List.Forall₂ R xs ys) (h' : List.Forall₂ S xs zs)
    (heq : ∀ x y z, R x y → S x z → z = f y) : zs = ys.map f := by
  induction h generalizing zs with
  | nil => cases h'; rfl
  | cons hy _ ih =>
    cases h' with
    | cons hz hzs => rw [List.map_cons, ← heq _ _ _ hy hz, ← ih hzs]

/-- Lists of the same lengths are images of each other if their concatenations are. -/
theorem eq_map_of_flatten {f : β → γ} {parts : List (List β)} {others : List (List γ)}
    (hlengths : parts.map List.length = others.map List.length)
    (h : parts.flatten.map f = others.flatten) : others = parts.map (List.map f) := by
  induction parts generalizing others with
  | nil => rw [List.map_eq_nil_iff.1 hlengths.symm, List.map_nil]
  | cons part parts ih =>
    obtain ⟨other, others, rfl, hfirst, hrest⟩ := List.map_eq_cons_iff.1 hlengths.symm
    rw [List.flatten_cons, List.flatten_cons, List.map_append] at h
    obtain ⟨hpart, hparts⟩ := List.append_inj h (by rw [List.length_map, hfirst])
    rw [List.map_cons, hpart, ih hrest.symm hparts]

end

namespace Tree

variable {mentioned names' : List String} {t u : Table} {ids others : List RuleId}

/-! ## Corresponding identities -/

namespace Table

/-- **The identities of a table** are those of the names in `mentioned` and those of helpers. -/
structure Divided (mentioned : List String) (t : Table) (ids : List RuleId) : Prop where
  distinct : t.symbols.names.Nodup
  known : ∀ name ∈ mentioned, name ∈ t.symbols.names
  nodup : ids.Nodup
  lt_size : ∀ id : Nat, id ∈ ids → id < t.symbols.size
  mem_iff : ∀ {id : Nat} {name : String}, t.symbols.name? id = some name →
    (id ∈ ids ↔ name ∉ mentioned)

/-- Identities of two tables that stand for the same: for a name of the source, or for the helpers
    at the same place of two lists. -/
inductive Twin (mentioned : List String) (t u : Table) (ids others : List RuleId) :
    Nat → Nat → Prop
  | helper {i id other : Nat} : ids[i]? = some id → others[i]? = some other →
      Twin mentioned t u ids others id other
  | name {name : String} {id other : Nat} : name ∈ mentioned → t.symbols.name? id = some name →
      u.symbols.name? other = some name → Twin mentioned t u ids others id other

/-- The identity in the table `u` that stands for the same as one in the table `t`. -/
def transfer (t u : Table) (ids others : List RuleId) (id : RuleId) : RuleId :=
  if id ∈ ids then others.getD (ids.idxOf id) 0
  else ((t.symbols.name? id).bind u.symbols.find?).getD 0

theorem Twin.symm {id other : Nat} (h : Twin mentioned t u ids others id other) :
    Twin mentioned u t others ids other id := by
  cases h with
  | helper hid hother => exact .helper hother hid
  | name hname hid hother => exact .name hname hother hid

namespace Divided

theorem congr (h : t.Divided mentioned ids) (hsame : ∀ name, name ∈ mentioned ↔ name ∈ names') :
    t.Divided names' ids :=
  ⟨h.distinct, fun name hname => h.known name ((hsame name).2 hname), h.nodup, h.lt_size,
    fun hname => (h.mem_iff hname).trans (not_congr (hsame _))⟩

theorem exists_twin (ht : t.Divided mentioned ids) (hu : u.Divided mentioned others)
    (hlength : ids.length = others.length) {id : Nat} (hid : id < t.symbols.size) :
    ∃ other, Twin mentioned t u ids others id other := by
  obtain ⟨name, hname⟩ := SymbolTable.exists_name?_of_lt hid
  by_cases hmem : name ∈ mentioned
  · obtain ⟨other, hother⟩ := SymbolTable.mem_names_iff.1 (hu.known name hmem)
    exact ⟨other, .name hmem hname hother⟩
  · obtain ⟨i, hi, hat⟩ := List.mem_iff_getElem.1 ((ht.mem_iff hname).2 hmem)
    refine ⟨others[i], .helper ?_ (List.getElem?_eq_getElem (hlength ▸ hi))⟩
    rw [List.getElem?_eq_getElem hi, hat]

theorem lt_of_twin (ht : t.Divided mentioned ids) {id other : Nat}
    (h : Twin mentioned t u ids others id other) : id < t.symbols.size := by
  cases h with
  | helper hid _ => exact ht.lt_size id (List.mem_of_getElem? hid)
  | name _ hname _ => exact SymbolTable.name?_eq_some_lt hname

theorem transfer_of_twin (ht : t.Divided mentioned ids) (hu : u.Divided mentioned others)
    {id other : Nat} (h : Twin mentioned t u ids others id other) :
    t.transfer u ids others id = other := by
  rw [transfer]
  cases h with
  | @helper i _ _ hid hother =>
    obtain ⟨hi, rfl⟩ := List.getElem?_eq_some_iff.1 hid
    rw [if_pos (List.getElem_mem hi), ht.nodup.idxOf_getElem i hi, List.getD_eq_getElem?_getD,
      hother, Option.getD_some]
  | name hname hid hother =>
    rw [if_neg fun hmem => (ht.mem_iff hid).1 hmem hname, hid, Option.bind_some,
      (SymbolTable.find?_eq_some_iff hu.distinct).2 hother, Option.getD_some]

/-- **Identities correspond to each other one to one**: going back leads to where one comes from. -/
theorem bijOn_transfer (ht : t.Divided mentioned ids) (hu : u.Divided mentioned others)
    (hlength : ids.length = others.length) :
    Set.BijOn (t.transfer u ids others) (Set.Iio t.symbols.size) (Set.Iio u.symbols.size) := by
  have hmaps {t u : Table} {ids others : List RuleId} (ht : t.Divided mentioned ids)
      (hu : u.Divided mentioned others) (hlength : ids.length = others.length) :
      Set.MapsTo (t.transfer u ids others) (Set.Iio t.symbols.size) (Set.Iio u.symbols.size) := by
    intro id hid
    obtain ⟨other, hother⟩ := ht.exists_twin hu hlength hid
    rw [ht.transfer_of_twin hu hother]
    exact hu.lt_of_twin hother.symm
  have hleft {t u : Table} {ids others : List RuleId} (ht : t.Divided mentioned ids)
      (hu : u.Divided mentioned others) (hlength : ids.length = others.length) :
      Set.LeftInvOn (u.transfer t others ids) (t.transfer u ids others)
        (Set.Iio t.symbols.size) := by
    intro id hid
    obtain ⟨other, hother⟩ := ht.exists_twin hu hlength hid
    rw [ht.transfer_of_twin hu hother, hu.transfer_of_twin ht hother.symm]
  exact Set.InvOn.bijOn ⟨hleft ht hu hlength, hleft hu ht hlength.symm⟩ (hmaps ht hu hlength)
    (hmaps hu ht hlength.symm)

/-- Helpers are transferred to the helpers beside them. -/
theorem map_transfer (ht : t.Divided mentioned ids) (hu : u.Divided mentioned others)
    (hlength : ids.length = others.length) : ids.map (t.transfer u ids others) = others := by
  refine List.ext_getElem (by rw [List.length_map, hlength]) fun i hi hi' => ?_
  rw [List.getElem_map]
  rw [List.length_map] at hi
  exact ht.transfer_of_twin hu
    (.helper (List.getElem?_eq_getElem hi) (List.getElem?_eq_getElem hi'))

end Divided

end Table

/-! ## The same sketch in two tables -/

section

variable {f : RuleId → RuleId}

/-- A map of identities that respects the names of the source. -/
def Table.Respects (mentioned : List String) (t u : Table) (f : RuleId → RuleId) : Prop :=
  ∀ {name : String} {id other : Nat}, name ∈ mentioned → t.symbols.name? id = some name →
    u.symbols.name? other = some name → f id = other

theorem Realized.eq_map_rename (hf : Table.Respects mentioned t u f)
    {sketches : List (List Sketch)} {bodies bodies' : List Body}
    (h : Realized mentioned t ids sketches bodies)
    (h' : Realized names' u (ids.map f) sketches bodies') :
    bodies' = bodies.map (List.map (Symbol.rename f)) := by
  refine eq_map_of_forall₂ h h' fun sketch body body' hbody hbody' => ?_
  refine eq_map_of_forall₂ hbody hbody' fun symbol x y hx hy => ?_
  cases hx with
  | name hname hid =>
    cases hy with
    | name _ hother => rw [Symbol.rename, hf hname hid hother]
  | helper hid =>
    cases hy with
    | helper hother =>
      rw [List.getElem?_map, hid, Option.map_some, Option.some_inj] at hother
      rw [Symbol.rename, hother]
  | chars =>
    cases hy
    rfl

/-- **Rules with the same sketch** are the same up to identities, and so are their helpers. -/
theorem Rule.Realized.renamed {rule : Rule} (hf : Table.Respects mentioned t u f)
    (hmentioned : rule.name ∈ mentioned) (h : rule.Realized mentioned t ids)
    (h' : rule.Realized names' u (ids.map f)) :
    (∃ id found other, t.symbols.name? id = some rule.name ∧ t.rule? id = some found ∧
      u.symbols.name? (f id) = some rule.name ∧ u.rule? (f id) = some other ∧
      found.SameUnder f other) ∧
    ∀ id ∈ ids, ∃ found other, t.rule? id = some found ∧ u.rule? (f id) = some other ∧
      found.SameUnder f other := by
  obtain ⟨id, span, bodies, hname, hid, hbodies, hhelpers⟩ := h
  obtain ⟨other, place, bodies', hname', hother, hbodies', hhelpers'⟩ := h'
  constructor
  · obtain rfl := hf hmentioned hname hname'
    exact ⟨id, _, _, hname, hid, hname', hother, rfl, hbodies.eq_map_rename hf hbodies'⟩
  · intro id hid
    rw [List.forall₂_map_right_iff] at hhelpers'
    obtain ⟨helper, -, ⟨made, hrule, hmade⟩, made', hrule', hmade'⟩ :=
      exists_left_of_forall₂ (forall₂_and hhelpers hhelpers') hid
    exact ⟨_, _, hrule, hrule', rfl, hmade.eq_map_rename hf hmade'⟩

end

/-! ## Tables of the same rules -/

variable {rules reordered : List Rule}

/-- Rules that have different names and mention no others. -/
structure Complete (rules : List Rule) : Prop where
  distinct : (rules.map (·.name)).Nodup
  defined : ∀ name ∈ names rules, name ∈ rules.map (·.name)

/-- The table of rules is divided into their names and their helpers. -/
theorem table_divided (h : Complete rules) (hhelpers : (table rules).Helpers ids)
    (hrealized : ∀ rule ∈ rules, ∃ part, rule.Realized (names rules) (table rules) part) :
    (table rules).Divided (names rules) ids := by
  have hsound := table_sound h.distinct
  refine ⟨hsound.distinct, fun name => mem_names_table, hhelpers.nodup, fun id hid => ?_,
    fun {id name} hname => ?_⟩
  · obtain ⟨rule, hrule, -⟩ := hhelpers.mem_iff.1 hid
    exact hsound.lt_of_rule? hrule
  · rw [hhelpers.mem_iff]
    constructor
    · rintro ⟨found, hfound, hhelper⟩ hmem
      -- A name of the source is that of a rule, which is no helper.
      obtain ⟨rule, hrule, rfl⟩ := List.mem_map.1 (h.defined name hmem)
      obtain ⟨part, other, span, bodies, hother, hdefinition, -⟩ := hrealized rule hrule
      rw [← SymbolTable.find?_eq_some_iff hsound.distinct] at hname hother
      cases hname.symm.trans hother
      cases hfound.symm.trans hdefinition
      cases hhelper
    · intro hmem
      obtain ⟨found, hfound⟩ := Option.isSome_iff_exists.1
        ((hsound.isSome_rule?_iff hname).2 fun h => absurd h hmem)
      refine ⟨found, hfound, ?_⟩
      by_contra hhelper
      obtain ⟨other, hother, hnamed⟩ :=
        (table_records h.distinct).defined hfound (Bool.eq_false_of_not_eq_true hhelper)
      exact hmem (Option.some_inj.1 (hname.symm.trans hnamed) ▸ hother)

theorem mem_names_iff {name : String} :
    name ∈ names rules ↔ ∃ rule ∈ rules, name ∈ rule.mentions.map (·.1) := by
  rw [names, List.map_flatMap, List.mem_flatMap]

theorem names_bare (rules : List Rule) : names (rules.map Rule.bare) = names rules := by
  simp only [names, List.map_flatMap, List.flatMap_map, Rule.mentions_bare]

theorem map_name_bare (rules : List Rule) :
    (rules.map Rule.bare).map (·.name) = rules.map (·.name) := by
  rw [List.map_map]
  rfl

theorem rootName_bare (options : ParseOptions) (rules : List Rule) :
    rootName options (rules.map Rule.bare) = rootName options rules := by
  rw [rootName, rootName, List.head?_map, Option.map_map]
  rfl

section

variable (hperm : (rules.map Rule.bare).Perm (reordered.map Rule.bare))

include hperm

theorem mem_names_iff_of_perm {name : String} : name ∈ names reordered ↔ name ∈ names rules := by
  rw [← names_bare, ← names_bare rules, mem_names_iff, mem_names_iff]
  simp only [hperm.mem_iff]

theorem Complete.of_perm (h : Complete rules) : Complete reordered := by
  have hnames := hperm.map (·.name)
  rw [map_name_bare, map_name_bare] at hnames
  refine ⟨hnames.nodup_iff.1 h.distinct, fun name hname => ?_⟩
  exact hnames.mem_iff.1 (h.defined name ((mem_names_iff_of_perm hperm).1 hname))

end

/-- The sketch of a rule tells how many helpers it has. -/
theorem map_length_of_realized {parts : List (List RuleId)}
    (h : List.Forall₂ (Rule.Realized mentioned t) rules parts) :
    parts.map List.length = rules.map fun rule => rule.sketch.2.length := by
  induction h with
  | nil => rfl
  | cons hrule _ ih =>
    obtain ⟨_, _, _, -, -, -, hhelpers⟩ := hrule
    rw [List.map_cons, List.map_cons, ih, hhelpers.length_eq]

/-- The helpers of rules in two orders can be listed in the same order, rule by rule. -/
theorem exists_parts (h : Complete rules)
    (hperm : (rules.map Rule.bare).Perm (reordered.map Rule.bare)) :
    ∃ parts others : List (List RuleId), parts.map List.length = others.map List.length ∧
      (table rules).Divided (names rules) parts.flatten ∧
      (table reordered).Divided (names rules) others.flatten ∧
      List.Forall₂ (Rule.Realized (names rules) (table rules)) (rules.map Rule.bare) parts ∧
      List.Forall₂ (Rule.Realized (names reordered) (table reordered)) (rules.map Rule.bare)
        others := by
  have h' := h.of_perm hperm
  obtain ⟨parts, hhelpers, hparts⟩ := table_realized h.distinct
  obtain ⟨parts', hhelpers', hparts'⟩ := table_realized h'.distinct
  have hbare : List.Forall₂ (Rule.Realized (names rules) (table rules)) (rules.map Rule.bare)
      parts :=
    List.forall₂_map_left_iff.2 (hparts.imp fun _ _ => Rule.realized_bare.2)
  have hbare' : List.Forall₂ (Rule.Realized (names reordered) (table reordered))
      (reordered.map Rule.bare) parts' :=
    List.forall₂_map_left_iff.2 (hparts'.imp fun _ _ => Rule.realized_bare.2)
  -- Without spans the rules are the same, so the second list can be put in the order of the first.
  obtain ⟨others, hothers, hflat⟩ := List.perm_comp_forall₂ hperm hbare'
  refine ⟨parts, others, (map_length_of_realized hbare).trans (map_length_of_realized hothers).symm,
    ?_, ?_, hbare, hothers⟩
  · refine table_divided h hhelpers fun rule hrule => ?_
    exact (exists_right_of_forall₂ hparts hrule).imp fun _ => And.right
  · refine (table_divided h' (hhelpers'.perm hflat.flatten.symm) fun rule hrule => ?_).congr
      fun _ => mem_names_iff_of_perm hperm
    exact (exists_right_of_forall₂ hparts' hrule).imp fun _ => And.right

/-- **The tables of rules in two orders**: identities correspond to each other one to one, names to
    names, and every rule is the same as the one it corresponds to. -/
theorem exists_transfer (h : Complete rules)
    (hperm : (rules.map Rule.bare).Perm (reordered.map Rule.bare)) :
    ∃ f : RuleId → RuleId,
      Set.BijOn f (Set.Iio (table rules).symbols.size) (Set.Iio (table reordered).symbols.size) ∧
      Table.Respects (names rules) (table rules) (table reordered) f ∧
      ∀ {id : Nat} {rule : Bnf.Rule}, (table rules).rule? id = some rule →
        ∃ other, (table reordered).rule? (f id) = some other ∧ rule.SameUnder f other := by
  obtain ⟨parts, others, hlengths, ht, hu, hparts, hothers⟩ :=
    exists_parts h hperm
  have hlength : parts.flatten.length = others.flatten.length := by
    rw [List.length_flatten, List.length_flatten, hlengths]
  let f := (table rules).transfer (table reordered) parts.flatten others.flatten
  have hrespects : Table.Respects (names rules) (table rules) (table reordered) f :=
    fun hname hid hother => ht.transfer_of_twin hu (.name hname hid hother)
  refine ⟨f, ht.bijOn_transfer hu hlength, hrespects, fun {id rule} hrule => ?_⟩
  rw [eq_map_of_flatten hlengths (ht.map_transfer hu hlength),
    List.forall₂_map_right_iff] at hothers
  have hboth := forall₂_and hparts hothers
  have hmentioned (rule : Rule) (hrule : rule ∈ rules.map Rule.bare) : rule.name ∈ names rules :=
    names_bare rules ▸ mem_names_iff.2 ⟨rule, hrule, List.mem_cons_self⟩
  by_cases hid : id ∈ parts.flatten
  · obtain ⟨part, hpart, hmem⟩ := List.mem_flatten.1 hid
    obtain ⟨written, hwritten, hrealized, hrealized'⟩ := exists_left_of_forall₂ hboth hpart
    obtain ⟨found, other, hfound, hother, hunder⟩ :=
      (hrealized.renamed hrespects (hmentioned _ hwritten) hrealized').2 id hmem
    cases hrule.symm.trans hfound
    exact ⟨other, hother, hunder⟩
  · obtain ⟨name, hname⟩ :=
      SymbolTable.exists_name?_of_lt ((table_sound h.distinct).lt_of_rule? hrule)
    have hdefinition := h.defined name (not_not.1 (mt (ht.mem_iff hname).2 hid))
    rw [← map_name_bare] at hdefinition
    obtain ⟨written, hwritten, rfl⟩ := List.mem_map.1 hdefinition
    obtain ⟨part, -, hrealized, hrealized'⟩ := exists_right_of_forall₂ hboth hwritten
    obtain ⟨same, found, other, hsame, hfound, -, hother, hunder⟩ :=
      (hrealized.renamed hrespects (hmentioned _ hwritten) hrealized').1
    rw [← SymbolTable.find?_eq_some_iff ht.distinct] at hname hsame
    cases hname.symm.trans hsame
    cases hrule.symm.trans hfound
    exact ⟨other, hother, hunder⟩

/-- **Rules in another order** make the same grammar with other identities, if the root has the same
    name. -/
theorem exists_renumbers_compile {options : ParseOptions} (h : Complete rules)
    (hperm : (rules.map Rule.bare).Perm (reordered.map Rule.bare))
    (hroot : rootName options reordered = rootName options rules)
    (hmentioned : rootName options rules ∈ names rules) :
    ∃ f : RuleId → RuleId, (compile options rules).Renumbers f (compile options reordered) := by
  have h' := h.of_perm hperm
  obtain ⟨f, hbij, hrespects, hrules⟩ := exists_transfer h hperm
  obtain ⟨hsize, hrule⟩ := @rule?_compile options rules h.distinct h.defined
  obtain ⟨hsize', hrule'⟩ := @rule?_compile options reordered h'.distinct h'.defined
  have hnamed {name : String} {id : Nat} (hname : name ∈ names rules)
      (hid : (table rules).symbols.name? id = some name) :
      (table reordered).symbols.name? (f id) = some name := by
    obtain ⟨other, hother⟩ := SymbolTable.mem_names_iff.1
      (mem_names_table ((mem_names_iff_of_perm hperm).2 hname))
    rwa [hrespects hname hid hother]
  refine ⟨f, ?_, ?_, fun {id rule} hfound => ?_, fun {id rule} hfound hhelper => ?_⟩
  · rwa [hsize, hsize']
  · obtain ⟨root, hat⟩ := SymbolTable.mem_names_iff.1 (mem_names_table hmentioned)
    have hat' := hnamed hmentioned hat
    rw [← SymbolTable.find?_eq_some_iff (table_sound h.distinct).distinct] at hat
    rw [← SymbolTable.find?_eq_some_iff (table_sound h'.distinct).distinct] at hat'
    simp only [compile, hroot, hat, hat', Option.getD_some]
  · rw [hrule] at hfound
    rw [hrule']
    exact hrules hfound
  · rw [hrule] at hfound
    obtain ⟨name, hname, hid⟩ := (table_records h.distinct).defined hfound hhelper
    exact (Grammar.name_of_name? (hnamed hname hid)).trans (Grammar.name_of_name? hid).symm

end Tree

end Bnf
