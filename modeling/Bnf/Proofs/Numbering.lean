import Bnf.Proofs.Isomorphism
import Bnf.Proofs.Limits
import Bnf.Proofs.Reachability
import Bnf.Proofs.SyntaxErrors
import Bnf.Proofs.Tree.RoundTrip

/-!
# Analyses do not depend on numbering

A search goes on in the order of identities, so which left recursive rules it finds depends on how
rules are numbered. What it means to be reached and what it means to come back to oneself does not:
an isomorphism maps walks to walks, and so does its inverse. So grammars of the same structure leave
the same names unreachable, and both are left recursive or neither is.

A text is only ever rejected for left recursion once it has been read as a grammar, and this grammar
is the same under all options, up to its root. So it is enough to know it under some options.

## Main results

- `Grammar.Isomorphism.mem_unreachable_iff` — an isomorphism keeps which rules are unreachable
- `Grammar.leftRecursive_ne_nil_of_parse_eq_error` — what is rejected is left recursive under all
  options
- `Grammar.analyses_ignore_numbering` — the analyses of grammars of the same structure
-/

namespace Bnf

open Relation

/-- What comes of a draft depends on the options by the root only. -/
theorem Draft.rules_eq_of_grammar {d : Draft} {options options' : ParseOptions} {stop : Nat}
    {g h : Grammar} (hg : d.grammar options stop = .ok g) (hh : d.grammar options' stop = .ok h) :
    g.rules = h.rules := by
  obtain ⟨-, root, -, -, -, rfl⟩ := grammar_eq_ok_iff.1 hg
  obtain ⟨-, root', -, -, -, rfl⟩ := grammar_eq_ok_iff.1 hh
  rfl

namespace Grammar

variable {a b g h : Grammar} {f : RuleId → RuleId} {id other : Nat}

/-! ## Isomorphisms map walks to walks -/

theorem Mentions.embed (hembeds : Embeds f g h) (hmentions : g.Mentions id other) :
    h.Mentions (f id) (f other) := by
  obtain ⟨body, hbody, hother⟩ := hmentions
  obtain ⟨rule, hrule, hbody⟩ := mem_alternatives_iff.1 hbody
  obtain ⟨image, himage, halternatives⟩ := hembeds hrule
  exact ⟨_, mem_alternatives_iff.2 ⟨image, himage, halternatives body hbody⟩,
    List.mem_map_of_mem hother⟩

namespace Isomorphism

theorem embeds (h : Isomorphism f a b) : Embeds f a b := by
  intro id rule hrule
  obtain ⟨image, himage, halternatives⟩ := h.alternatives hrule
  exact ⟨image, himage, fun body hbody => halternatives ▸ List.mem_map_of_mem hbody⟩

/-- A rule is reached from the root exactly if its image is. -/
theorem reaches_iff (ha : a.WellFormed) (h : Isomorphism f a b) (hid : id < a.size) :
    ReflTransGen b.Mentions b.root (f id) ↔ ReflTransGen a.Mentions a.root id := by
  constructor
  · intro hwalk
    have hback := hwalk.lift (a.sameNamed b) fun _ _ => Mentions.embed (h.symm ha).embeds
    rwa [Function.onFun, (h.symm ha).root, h.sameNamed_apply ha hid] at hback
  · intro hwalk
    rw [← h.root]
    exact hwalk.lift f fun _ _ => Mentions.embed h.embeds

/-- **An isomorphism keeps which rules are unreachable.** -/
theorem mem_unreachable_iff (ha : a.WellFormed) (h : Isomorphism f a b) (hid : id < a.size) :
    f id ∈ b.unreachable ↔ id ∈ a.unreachable := by
  have himage : f id < b.size := h.bijOn.mapsTo hid
  rw [Grammar.mem_unreachable_iff, Grammar.mem_unreachable_iff, h.reaches_iff ha hid]
  simp only [hid, himage]

theorem mem_map_name_unreachable (ha : a.WellFormed) (h : Isomorphism f a b) {name : String}
    (hname : name ∈ a.unreachable.map a.name) : name ∈ b.unreachable.map b.name := by
  obtain ⟨id, hid, rfl⟩ := List.mem_map.1 hname
  have hlt : id < a.size := (Grammar.mem_unreachable_iff.1 hid).1
  exact List.mem_map.2 ⟨f id, (h.mem_unreachable_iff ha hlt).2 hid, h.names id hlt⟩

theorem leftRecursive_eq_nil_iff (ha : a.WellFormed) (h : Isomorphism f a b) :
    a.leftRecursive = [] ↔ b.leftRecursive = [] :=
  ⟨leftRecursive_eq_nil_of_embeds (h.symm ha).embeds, leftRecursive_eq_nil_of_embeds h.embeds⟩

end Isomorphism

/-! ## Texts that are rejected -/

variable {source source' name : String} {options options' : ParseOptions} {offset : Nat}

theorem leftRecursive_congr (hrules : g.rules = h.rules) : g.leftRecursive = h.leftRecursive := by
  obtain ⟨symbols, rules, root⟩ := g
  obtain ⟨symbols', rules', root'⟩ := h
  cases hrules
  rfl

theorem leftRecursive_eq_nil_of_reject (hparse : parse source options = .ok g)
    (hreject : options.leftRecursion = .reject) : g.leftRecursive = [] := by
  obtain ⟨tokens, htokens, -⟩ := Tree.exists_spells_of_parse hparse
  obtain ⟨-, -, -, hnil⟩ := (parse_eq_ok_iff htokens).1 hparse
  exact hnil hreject

/-- **A text that is rejected for left recursion is left recursive** under all options that it has a
    grammar under. -/
theorem leftRecursive_ne_nil_of_parse_eq_error (hparse : parse source options = .ok g)
    (herror : parse source options' = .error ⟨.grammar (.leftRecursion name), offset⟩) :
    g.leftRecursive ≠ [] := by
  have hpermissive := parse_permissive rfl hparse
  obtain ⟨tokens, htokens, -⟩ := Tree.exists_spells_of_parse hparse
  obtain ⟨d, hrun, hgrammar, -⟩ := (parse_eq_ok_iff htokens).1 hpermissive
  obtain hsame | ⟨e, final, hstops, hrefused⟩ :=
    Place.run_sameUnless _
      (fun token _ => @ParseOptions.sameGates_permissive options' options.root token) .between
      (.ofSymbols (.ofTokens tokens))
  · -- The tokens are read as before, so the text is rejected for the grammar of the same draft.
    rw [hrun] at hsame
    obtain hnone | ⟨found, hfound, -, id, others, hids, -⟩ :=
      Drafting.complete_eq_error_iff.1 ((parse_eq_error_iff htokens hsame).1 herror)
    · obtain he | ⟨_, he⟩ | ⟨_, he⟩ := Draft.fault_of_grammar hnone <;> cases he
    · rw [leftRecursive_congr (Draft.rules_eq_of_grammar hgrammar hfound), hids]
      simp
  · -- Tokens are not refused for left recursion.
    cases herror.symm.trans (parse_eq_error_of_run htokens hstops)
    obtain he | ⟨_, he⟩ | ⟨_, he⟩ := hrefused <;> cases he

/-- **Analyses do not depend on numbering.** In grammars of the same structure the same names are
    unreachable, and there is left recursion in both or in neither. So a grammar that was accepted
    while left recursion is rejected is not rejected for it when its text is read again, whatever
    the options are. -/
theorem analyses_ignore_numbering (ha : parse source options = .ok a)
    (hb : parse source' options' = .ok b) (hsame : a.sameStructure b = true) :
    (∀ name, name ∈ a.unreachable.map a.name ↔ name ∈ b.unreachable.map b.name) ∧
      (a.leftRecursive = [] ↔ b.leftRecursive = []) ∧
      (options.leftRecursion = .reject → ∀ again name offset,
        parse a.text again ≠ .error ⟨.grammar (.leftRecursion name), offset⟩) := by
  have hwella := Tree.wellFormed_of_parse ha
  have hwellb := Tree.wellFormed_of_parse hb
  have hiso := isomorphism_of_sameStructure hwella hwellb hsame
  refine ⟨fun name => ⟨hiso.mem_map_name_unreachable hwella,
    (hiso.symm hwella).mem_map_name_unreachable hwellb⟩, hiso.leftRecursive_eq_nil_iff hwella,
    fun hreject again name offset herror => ?_⟩
  have hsize : byteLength a.text.toList < offsetBound := by
    refine Nat.lt_of_not_le fun hsize => ?_
    cases (parse_of_le hsize again).symm.trans herror
  obtain ⟨reread, hreread, hstructure⟩ := exists_reread ha hsize
  refine leftRecursive_ne_nil_of_parse_eq_error hreread herror ?_
  exact leftRecursive_eq_nil_of_sameStructure hwella (Tree.wellFormed_of_parse hreread) hstructure
    (leftRecursive_eq_nil_of_reject ha hreject)

/-- Two rules that no walk from the root comes to, numbered the other way round in the second
    text. -/
theorem analyses_ignore_order_of_unused_rules : ∃ a b,
    parse "r ::= x\nx ::= \"a\" r | \"\"\nu ::= v u | \"b\"\nv ::= \"c\"\n"
        { leftRecursion := .reject } = .ok a ∧
      parse "v ::= \"c\"\nu ::= v u | \"b\"\nx ::= \"a\" r | \"\"\nr ::= x\n"
        { root := some "r" } = .ok b ∧
      a.unreachable.map a.name = ["u", "v"] ∧ b.unreachable.map b.name = ["v", "u"] ∧
      (∀ name, name ∈ a.unreachable.map a.name ↔ name ∈ b.unreachable.map b.name) ∧
      (a.leftRecursive = [] ↔ b.leftRecursive = []) ∧
      ∀ again name offset, parse a.text again ≠ .error ⟨.grammar (.leftRecursion name), offset⟩ := by
  obtain ⟨a, ha, hunused⟩ := @exists_parse_of_any { leftRecursion := .reject }
    "r ::= x\nx ::= \"a\" r | \"\"\nu ::= v u | \"b\"\nv ::= \"c\"\n"
    (fun g => g.unreachable.map g.name = ["u", "v"]) (by decide +kernel)
  obtain ⟨b, hb, hunused'⟩ := @exists_parse_of_any { root := some "r" }
    "v ::= \"c\"\nu ::= v u | \"b\"\nx ::= \"a\" r | \"\"\nr ::= x\n"
    (fun g => g.unreachable.map g.name = ["v", "u"]) (by decide +kernel)
  have hsame : (parse "r ::= x\nx ::= \"a\" r | \"\"\nu ::= v u | \"b\"\nv ::= \"c\"\n"
      { leftRecursion := .reject }).bind (fun a =>
        (parse "v ::= \"c\"\nu ::= v u | \"b\"\nx ::= \"a\" r | \"\"\nr ::= x\n"
          { root := some "r" }).map a.sameStructure) = .ok true := by decide +kernel
  rw [ha, hb] at hsame
  obtain ⟨hnames, hleft, hreread⟩ := analyses_ignore_numbering ha hb (Except.ok.inj hsame)
  exact ⟨a, b, ha, hb, of_decide_eq_true hunused, of_decide_eq_true hunused', hnames, hleft,
    hreread rfl⟩

end Grammar

end Bnf
