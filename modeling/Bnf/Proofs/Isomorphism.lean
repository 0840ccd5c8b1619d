import Mathlib.Data.Set.Card
import Bnf.Proofs.SameStructure
import Bnf.Proofs.Tree.Fitting

/-!
# The same structure is an isomorphism

Whether two grammars have the same structure is tested from one side only: the rules of the first
are looked up by name in the second. Since names are distinct and there are as many rules in both,
each rule of the second is found. So the test tells whether the identities of the one can be mapped
one to one to those of the other, such that names and alternatives are kept, and it does not matter
which of the two comes first.

## Main definitions

- `Grammar.Isomorphism` — a map of identities that keeps names, the root, and alternatives

## Main results

- `Grammar.sameStructure_iff_exists` — the test finds an isomorphism, if there is one
- `Grammar.sameStructure_is_isomorphism` — so the same structure is an equivalence of grammars
-/

namespace Bnf

namespace Grammar

/-- **An isomorphism of grammars**: the identities of `a` are mapped one to one to those of `b`,
    each to one of the same name and the root to the root. The alternatives of a rule are those of
    its image, in the same order and symbol by symbol. -/
structure Isomorphism (f : RuleId → RuleId) (a b : Grammar) : Prop where
  bijOn : Set.BijOn f (Set.Iio a.size) (Set.Iio b.size)
  names : ∀ id : Nat, id < a.size → b.name (f id) = a.name id
  root : f a.root = b.root
  alternatives : ∀ {id : Nat} {rule : Rule}, a.rule? id = some rule → ∃ image,
    b.rule? (f id) = some image ∧
      image.alternatives = rule.alternatives.map (List.map (Symbol.rename f))

end Grammar

/-! ## Isomorphisms -/

theorem Symbol.rename_id : Symbol.rename id = id := by
  funext symbol
  cases symbol <;> rfl

theorem Symbol.rename_comp (f g : RuleId → RuleId) :
    Symbol.rename (g ∘ f) = Symbol.rename g ∘ Symbol.rename f := by
  funext symbol
  cases symbol <;> rfl

namespace Grammar

variable {a b c : Grammar} {f g : RuleId → RuleId}

namespace Isomorphism

theorem refl (a : Grammar) : Isomorphism id a a where
  bijOn := Set.bijOn_id _
  names _ _ := rfl
  root := rfl
  alternatives {_ rule} hrule := ⟨rule, hrule, by
    rw [Symbol.rename_id, List.map_id_fun, List.map_id]⟩

theorem trans (h : Isomorphism f a b) (h' : Isomorphism g b c) : Isomorphism (g ∘ f) a c where
  bijOn := h'.bijOn.comp h.bijOn
  names id hid := by rw [Function.comp, h'.names _ (h.bijOn.mapsTo hid), h.names id hid]
  root := by rw [Function.comp, h.root, h'.root]
  alternatives hrule := by
    obtain ⟨image, himage, halternatives⟩ := h.alternatives hrule
    obtain ⟨image', himage', halternatives'⟩ := h'.alternatives himage
    refine ⟨image', himage', ?_⟩
    rw [halternatives', halternatives, Symbol.rename_comp, List.map_map, List.map_comp_map]

/-- Grammars with an isomorphism have as many rules. -/
theorem size_eq (h : Isomorphism f a b) : a.size = b.size := by
  obtain ⟨hmaps, hinj, hsurj⟩ := h.bijOn
  rw [← Finset.coe_range, ← Finset.coe_range] at hmaps hsurj
  rw [← Finset.coe_range] at hinj
  simpa using Finset.card_nbij f (fun _ hid => hmaps hid) hinj hsurj

end Isomorphism

/-! ## The test finds an isomorphism -/

theorem agrees_symm {x y : Symbol} (h : Symbol.agrees a b x y = true) :
    Symbol.agrees b a y x = true := by
  obtain ⟨s, rfl, rfl⟩ | ⟨i, j, rfl, rfl, hname⟩ := Symbol.agrees_iff.1 h
  · exact Symbol.agrees_iff.2 (.inl ⟨s, rfl, rfl⟩)
  · exact Symbol.agrees_iff.2 (.inr ⟨j, i, rfl, rfl, hname.symm⟩)

/-- Alternatives that agree are those under the identities of the same names. -/
theorem eq_map_rename_of_agrees (hb : b.WellFormed) {bodies others : List Body}
    (hfits : ∀ other ∈ others, Body.Fits b.size other)
    (h : List.Forall₂ (List.Forall₂ fun x y => Symbol.agrees a b x y = true) bodies others) :
    others = bodies.map (List.map (Symbol.rename (b.sameNamed a))) := by
  induction h with
  | nil => rfl
  | cons hfirst _ ih =>
    rw [List.forall_mem_cons] at hfits
    have hflip := hfirst.flip.imp fun _ _ => agrees_symm
    rw [List.map_cons, map_rename_of_agrees hb hfits.1 hflip, ← ih hfits.2]

/-- **Grammars with the same structure are isomorphic**, by the identities of the same names. -/
theorem isomorphism_of_sameStructure (ha : a.WellFormed) (hb : b.WellFormed)
    (h : a.sameStructure b = true) : Isomorphism (b.sameNamed a) a b := by
  obtain ⟨-, hroot, hrules⟩ := sameStructure_iff.1 h
  have hfound {id : Nat} (hid : id < a.size) : ∃ other : Nat, b.sameNamed a id = other ∧
      other < b.size ∧ b.name other = a.name id := by
    obtain ⟨rule, hrule⟩ := exists_rule?_of_lt hid
    obtain ⟨other, image, hother, himage, -⟩ := hrules hrule
    refine ⟨other, by rw [sameNamed, hother, Option.getD_some], lt_of_rule? himage, ?_⟩
    exact name_of_name? ((SymbolTable.find?_eq_some_iff hb.distinct).1 hother)
  refine ⟨⟨fun id hid => ?_, fun id hid other hother heq => ?_, fun other hother => ?_⟩,
    fun id hid => ?_, ?_, fun {id rule} hrule => ?_⟩
  · obtain ⟨other, rfl, hlt, -⟩ := hfound hid
    exact hlt
  · -- Identities with the same image have the same name.
    obtain ⟨image, himage, -, hname⟩ := hfound hid
    obtain ⟨image', himage', -, hname'⟩ := hfound hother
    obtain rfl : image = image' := himage.symm.trans (heq.trans himage')
    exact ha.name_injOn hid hother (hname.symm.trans hname')
  · have hname : b.name other ∈ a.symbols.names := (perm_names_of_sameStructure ha hb h).mem_iff.2
      (SymbolTable.mem_names_iff.2 ⟨other, hb.name?_eq hother⟩)
    obtain ⟨id, hid⟩ := SymbolTable.mem_names_iff.1 hname
    refine ⟨id, ha.size_symbols ▸ SymbolTable.name?_eq_some_lt hid, ?_⟩
    rw [sameNamed, name_of_name? hid, hb.find?_name hother, Option.getD_some]
  · obtain ⟨other, rfl, -, hname⟩ := hfound hid
    exact hname
  · rw [sameNamed, hroot, hb.find?_name hb.root, Option.getD_some]
  · obtain ⟨other, image, hother, himage, hagrees⟩ := hrules hrule
    have hsame : b.sameNamed a id = other := by rw [sameNamed, hother, Option.getD_some]
    exact ⟨image, by rw [hsame, himage],
      eq_map_rename_of_agrees hb (hb.rules himage).2 hagrees⟩

/-- The alternatives of a rule and those of its image agree. -/
theorem Isomorphism.agrees (h : Isomorphism f a b) {bodies : List Body}
    (hfits : ∀ body ∈ bodies, Body.Fits a.size body) :
    List.Forall₂ (List.Forall₂ fun x y => Symbol.agrees a b x y = true) bodies
      (bodies.map (List.map (Symbol.rename f))) := by
  rw [List.forall₂_map_right_iff, List.forall₂_same]
  intro body hbody
  rw [List.forall₂_map_right_iff, List.forall₂_same]
  intro symbol hsymbol
  cases symbol with
  | chars set => exact Symbol.agrees_iff.2 (.inl ⟨set, rfl, rfl⟩)
  | rule id =>
    have hlt : id < a.size := hfits body hbody _ hsymbol
    exact Symbol.agrees_iff.2 (.inr ⟨id, f id, rfl, rfl, (h.names id hlt).symm⟩)

/-- **Isomorphic grammars have the same structure.** -/
theorem Isomorphism.sameStructure (ha : a.WellFormed) (hb : b.WellFormed) (h : Isomorphism f a b) :
    a.sameStructure b = true := by
  refine sameStructure_iff.2 ⟨h.size_eq, ?_, fun {id rule} hrule => ?_⟩
  · rw [← h.root, h.names _ ha.root]
  · obtain ⟨image, himage, halternatives⟩ := h.alternatives hrule
    refine ⟨f id, image, ?_, himage, ?_⟩
    · rw [← h.names id (lt_of_rule? hrule), hb.find?_name (lt_of_rule? himage)]
    · rw [halternatives]
      exact h.agrees (ha.rules hrule).2

/-- **Having the same structure is having an isomorphism.** -/
theorem sameStructure_iff_exists (ha : a.WellFormed) (hb : b.WellFormed) :
    a.sameStructure b = true ↔ ∃ f, Isomorphism f a b :=
  ⟨fun h => ⟨_, isomorphism_of_sameStructure ha hb h⟩, fun ⟨_, h⟩ => h.sameStructure ha hb⟩

/-- A map that leaves all identities as they are leaves alternatives as they are. -/
theorem map_rename_eq_self {bodies : List Body} (hf : ∀ id : Nat, id < a.size → f id = id)
    (hfits : ∀ body ∈ bodies, Body.Fits a.size body) :
    bodies.map (List.map (Symbol.rename f)) = bodies := by
  have hsymbol {body : Body} (hbody : body ∈ bodies) {symbol : Symbol} (hmem : symbol ∈ body) :
      symbol.rename f = symbol := by
    cases symbol with
    | chars set => rfl
    | rule id => exact congrArg Symbol.rule (hf id (hfits body hbody _ hmem))
  have hbody (body : Body) (hbody : body ∈ bodies) : body.map (Symbol.rename f) = body :=
    (List.map_congr_left fun _ hmem => hsymbol hbody hmem).trans (List.map_id body)
  exact (List.map_congr_left hbody).trans (List.map_id bodies)

/-- An isomorphism is inverted by the identities of the same names. -/
theorem Isomorphism.sameNamed_apply (ha : a.WellFormed) (h : Isomorphism f a b) {id : Nat}
    (hid : id < a.size) : a.sameNamed b (f id) = id := by
  rw [sameNamed, h.names id hid, ha.find?_name hid, Option.getD_some]

/-- The identities of the same names, in the other direction. -/
theorem Isomorphism.symm (ha : a.WellFormed) (h : Isomorphism f a b) :
    Isomorphism (a.sameNamed b) b a := by
  have hleft (id : Nat) (hid : id < a.size) : a.sameNamed b (f id) = id :=
    h.sameNamed_apply ha hid
  have hinv : Set.InvOn (a.sameNamed b) f (Set.Iio a.size) (Set.Iio b.size) := by
    refine ⟨hleft, fun other hother => ?_⟩
    obtain ⟨id, hid, rfl⟩ := h.bijOn.surjOn hother
    rw [hleft id hid]
  refine ⟨h.bijOn.symm hinv.symm, fun other hother => ?_, ?_, fun {other rule} hrule => ?_⟩
  · obtain ⟨id, hid, rfl⟩ := h.bijOn.surjOn hother
    rw [hleft id hid, h.names id hid]
  · rw [← h.root, hleft _ ha.root]
  · obtain ⟨id, hid, rfl⟩ := h.bijOn.surjOn (lt_of_rule? hrule)
    obtain ⟨before, hbefore⟩ := exists_rule?_of_lt hid
    obtain ⟨image, himage, halternatives⟩ := h.alternatives hbefore
    cases hrule.symm.trans himage
    refine ⟨before, by rw [hleft id hid, hbefore], ?_⟩
    rw [halternatives, List.map_map, List.map_comp_map, ← Symbol.rename_comp]
    exact (map_rename_eq_self hleft (ha.rules hbefore).2).symm

/-! ## The same structure as a relation -/

/-- **The same structure is an isomorphism** of grammars that have been read. So it is an
    equivalence, and it does not matter which of two grammars is looked up in the other. -/
theorem sameStructure_is_isomorphism {source source' source'' : String}
    {options options' options'' : ParseOptions} (ha : parse source options = .ok a)
    (hb : parse source' options' = .ok b) (hc : parse source'' options'' = .ok c) :
    (a.sameStructure b = true ↔ ∃ f, Isomorphism f a b) ∧
      a.sameStructure a = true ∧
      a.sameStructure b = b.sameStructure a ∧
      (a.sameStructure b = true → b.sameStructure c = true → a.sameStructure c = true) := by
  have ha := Tree.wellFormed_of_parse ha
  have hb := Tree.wellFormed_of_parse hb
  have hc := Tree.wellFormed_of_parse hc
  refine ⟨sameStructure_iff_exists ha hb, (sameStructure_iff_exists ha ha).2 ⟨id, .refl a⟩, ?_,
    fun hab hbc => ?_⟩
  · rw [Bool.eq_iff_iff, sameStructure_iff_exists ha hb, sameStructure_iff_exists hb ha]
    exact ⟨fun ⟨_, h⟩ => ⟨_, h.symm ha⟩, fun ⟨_, h⟩ => ⟨_, h.symm hb⟩⟩
  · obtain ⟨f, hf⟩ := (sameStructure_iff_exists ha hb).1 hab
    obtain ⟨g, hg⟩ := (sameStructure_iff_exists hb hc).1 hbc
    exact (sameStructure_iff_exists ha hc).2 ⟨_, hf.trans hg⟩

/-- One grammar in three texts that mention its rules in other orders. -/
theorem same_structure_of_reordered_texts : ∃ a b c,
    parse "r ::= x y\nx ::= \"a\"\ny ::= x | \"\"\n" = .ok a ∧
      parse "y ::= x | \"\"\nx ::= [a]\nr ::= x y\n" { root := some "r" } = .ok b ∧
      parse "r ::= x y\ny ::= x | \"\"\nx ::= [a]\n" = .ok c ∧
      (∃ f, Isomorphism f a b) ∧ b.sameStructure a = true ∧ a.sameStructure c = true := by
  obtain ⟨a, ha⟩ : ∃ a, parse "r ::= x y\nx ::= \"a\"\ny ::= x | \"\"\n" = .ok a :=
    exists_parse_of_isOk (by decide +kernel)
  obtain ⟨b, hb⟩ : ∃ b,
      parse "y ::= x | \"\"\nx ::= [a]\nr ::= x y\n" { root := some "r" } = .ok b :=
    exists_parse_of_isOk (by decide +kernel)
  obtain ⟨c, hc⟩ : ∃ c, parse "r ::= x y\ny ::= x | \"\"\nx ::= [a]\n" = .ok c :=
    exists_parse_of_isOk (by decide +kernel)
  have hab : (parse "r ::= x y\nx ::= \"a\"\ny ::= x | \"\"\n").bind (fun a =>
      (parse "y ::= x | \"\"\nx ::= [a]\nr ::= x y\n" { root := some "r" }).map a.sameStructure) =
        .ok true := by decide +kernel
  have hbc : (parse "y ::= x | \"\"\nx ::= [a]\nr ::= x y\n" { root := some "r" }).bind (fun b =>
      (parse "r ::= x y\ny ::= x | \"\"\nx ::= [a]\n").map b.sameStructure) = .ok true := by
    decide +kernel
  rw [ha, hb] at hab
  rw [hb, hc] at hbc
  have hab : a.sameStructure b = true := Except.ok.inj hab
  have hbc : b.sameStructure c = true := Except.ok.inj hbc
  obtain ⟨hiff, -, hsymm, htrans⟩ := sameStructure_is_isomorphism ha hb hc
  exact ⟨a, b, c, ha, hb, hc, hiff.1 hab, hsymm ▸ hab, htrans hab hbc⟩

end Grammar

end Bnf
