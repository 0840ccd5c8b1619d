import Bnf.Proofs.Lines
import Bnf.Proofs.Tree.Renumbering
import Bnf.Proofs.Tree.Undefined

/-!
# Definitions in another order

A text that consists of definitions, each on lines of its own, may be rearranged: if it has a
grammar, it has the same grammar with other identities in any order of the definitions. Lines are
cut into tokens by themselves, so the tokens are rearranged as the definitions are. They spell the
same rules, up to spans, in the other order.

## Main definitions

- `Tree.Rule.WrittenAs` — the lines of one definition

## Main results

- `Tree.Spells.append` — grammar texts one after the other
- `Tree.exists_spells_join` — definitions one after the other spell their rules
- `Grammar.exists_renumbers_of_perm` — in another order definitions have the same grammar
-/

namespace Bnf

/-! ## Texts one after the other -/

/-- The last token is not a line break. -/
def EndsInLine (tokens : List Token) : Prop :=
  ∃ init last, tokens = init ++ [last] ∧ last.kind ≠ .newline

theorem EndsInLine.singleton {token : Token} (h : token.kind ≠ .newline) : EndsInLine [token] :=
  ⟨[], token, rfl, h⟩

theorem EndsInLine.append (front : List Token) {tokens : List Token} (h : EndsInLine tokens) :
    EndsInLine (front ++ tokens) := by
  obtain ⟨init, last, rfl, hlast⟩ := h
  exact ⟨front ++ init, last, (List.append_assoc ..).symm, hlast⟩

theorem ReadsLines.append {text other : List Char} {tokens others : List Token}
    (h : ReadsLines text tokens) (h' : ReadsLines other others) :
    ReadsLines (text ++ other) (tokens ++ others) := by
  induction h with
  | last hread => exact .token (fun more => hread (other ++ more)) h'
  | blank hblank _ ih => exact .blank hblank ih
  | @comment front text tokens hskip _ ih =>
    rw [List.cons_append, List.append_assoc]
    refine .comment (fun offset more => ?_) ih
    rw [List.append_assoc text]
    exact hskip offset (other ++ more)
  | @token front text kind span tokens hread _ ih =>
    rw [List.append_assoc]
    refine .token (fun more => ?_) ih
    rw [List.append_assoc]
    exact hread (other ++ more)

namespace Tree

variable {rule : Rule} {rules others : List Rule} {tokens more : List Token}

mutual

theorem Atom.Spelled.endsInLine {atom : Atom} {tokens : List Token} :
    atom.Spelled tokens → EndsInLine tokens
  | .literal | .set | .any | .name => .singleton nofun
  | .group _ _ _ => by
    refine .append [_] (.append _ (.append _ (.append _ (.singleton ?_))))
    nofun

theorem Term.Spelled.endsInLine {term : Term} {tokens : List Token} :
    term.Spelled tokens → EndsInLine tokens
  | .plain hatom => hatom.endsInLine
  | .repeated _ hkind => by
    refine EndsInLine.append _ (.singleton fun hnewline => ?_)
    cases hnewline
    cases hkind

theorem SequenceSpelled.endsInLine {nested : Bool} {terms : List Term} {tokens : List Token} :
    SequenceSpelled nested terms tokens → EndsInLine tokens
  | .one hterm => hterm.endsInLine
  | .more _ _ _ hlast => (hlast.endsInLine.append _).append _

theorem AlternationSpelled.endsInLine {nested : Bool} {alternatives : List (List Term)}
    {tokens : List Token} : AlternationSpelled nested alternatives tokens → EndsInLine tokens
  | .one hterms => hterms.endsInLine
  | .more _ _ _ _ hlast => ((hlast.endsInLine.append _).append [_] |>.append _).append _

end

theorem Rule.Spelled.endsInLine (h : rule.Spelled tokens) : EndsInLine tokens := by
  obtain @⟨name, span, define, front, inner, alternatives, -, -, hinner⟩ := h
  exact (hinner.endsInLine.append front).append [⟨.name name, span⟩, define]

theorem RulesSpelled.endsInLine (h : RulesSpelled rules tokens) : EndsInLine tokens := by
  cases h with
  | one _ hrule => exact hrule.endsInLine.append _
  | more _ _ _ hrule => exact (hrule.endsInLine.append _).append _

/-- Line breaks between the rules of two texts. -/
theorem RulesSpelled.append {gap : List Token} (h : RulesSpelled rules tokens)
    (hgap : Newlines gap) (hne : gap ≠ []) (h' : RulesSpelled others more) :
    RulesSpelled (rules ++ others) (tokens ++ (gap ++ more)) := by
  induction h' with
  | @one rule front last hfront hrule =>
    rw [← List.append_assoc gap]
    exact .more h (hgap.append hfront) (by simp [hne]) hrule
  | more _ hbetween hnonempty hrule ih =>
    rw [← List.append_assoc rules, ← List.append_assoc gap, ← List.append_assoc tokens]
    exact .more ih hbetween hnonempty hrule

/-- **Grammar texts one after the other** have the rules of both, if the first ends with a line
    break. -/
theorem Spells.append (h : Spells rules tokens) (hend : ¬ EndsInLine tokens)
    (h' : Spells others more) : Spells (rules ++ others) (tokens ++ more) := by
  obtain ⟨front, gap, hrules, hgap, rfl⟩ := h
  obtain ⟨inner, back, hothers, hback, rfl⟩ := h'
  refine ⟨front ++ (gap ++ inner), back, hrules.append hgap ?_ hothers, hback, by simp⟩
  rintro rfl
  exact hend (by simpa using hrules.endsInLine)

/-! ## Definitions one after the other -/

/-- **The lines of one definition**: a text that ends with a line break, whose tokens are those of
    the rule. -/
def Rule.WrittenAs (rule : Rule) (block : String) : Prop :=
  (∃ line, block = line ++ "\n") ∧ ∃ tokens, tokenize block = .ok tokens ∧ Spells [rule] tokens

/-- The lines of a definition have tokens of its rule, the last of which is a line break. -/
theorem Rule.WrittenAs.exists_readsLines {block : String} (h : rule.WrittenAs block) :
    ∃ tokens, ReadsLines block.toList tokens ∧ Spells [rule] tokens ∧ ¬ EndsInLine tokens := by
  obtain ⟨⟨line, rfl⟩, tokens, htokens, hspells⟩ := h
  have hlines : ReadsLines (line ++ "\n").toList tokens := by
    obtain ⟨-, hcuts⟩ := tokenize_eq_ok_iff.1 htokens
    rw [String.toList_append] at hcuts ⊢
    exact hcuts.readsLines
  refine ⟨tokens, hlines, hspells, ?_⟩
  obtain ⟨init, span, rfl⟩ := hlines.exists_eq_concat
  rintro ⟨other, last, hsame, hlast⟩
  obtain ⟨-, hsame⟩ := List.append_inj' hsame rfl
  obtain rfl := List.singleton_inj.1 hsame
  exact hlast rfl

/-- A definition has one name only. -/
theorem Rule.WrittenAs.name_eq {other : Rule} {block : String} (h : rule.WrittenAs block)
    (h' : other.WrittenAs block) : rule.name = other.name := by
  obtain ⟨-, tokens, htokens, hspells⟩ := h
  obtain ⟨-, _, hsame, hspells'⟩ := h'
  cases htokens.symm.trans hsame
  have hdefinitions := hspells.definitions_eq.symm.trans hspells'.definitions_eq
  simp only [List.map_singleton, List.cons.injEq, Prod.mk.injEq] at hdefinitions
  exact hdefinitions.1.1

/-- A text is a definition if a reader reads it, and if it defines one rule. -/
theorem Rule.exists_writtenAs {line name : String}
    (h : (tokenize (line ++ "\n")).toOption.any (fun tokens =>
      (definitions tokens).map (·.1) = [name] &&
        match Place.run {} 0 .between tokens (.ofSymbols (.ofTokens tokens)) with
        | .ok () _ => true
        | .error _ _ => false) = true) :
    ∃ rule : Rule, rule.WrittenAs (line ++ "\n") ∧ rule.name = name := by
  cases htokens : tokenize (line ++ "\n") with
  | error e => simp [htokens, Except.toOption] at h
  | ok tokens =>
    simp only [htokens, Except.toOption, Option.any_some, Bool.and_eq_true, decide_eq_true_iff] at h
    obtain ⟨hname, hread⟩ := h
    cases hrun : Place.run {} 0 .between tokens (.ofSymbols (.ofTokens tokens)) with
    | error e d => simp [hrun] at hread
    | ok _ d =>
      obtain hnewlines | ⟨rules, hspells⟩ := exists_spells_of_run hrun
      · rw [definitions_eq_nil hnewlines.ne_define] at hname
        cases hname
      · rw [hspells.definitions_eq, List.map_map] at hname
        obtain ⟨rule, rfl, hrule⟩ := List.map_eq_singleton_iff.1 hname
        exact ⟨rule, ⟨⟨line, rfl⟩, tokens, htokens, hspells⟩, hrule⟩

/-- Texts one after the other take as many bytes in any order. -/
theorem byteLength_join_of_perm {blocks reordered : List String} (h : reordered.Perm blocks) :
    byteLength (String.join reordered).toList = byteLength (String.join blocks).toList := by
  rw [String.toList_join, String.toList_join]
  exact byteLength_eq_of_perm (h.flatMap_right _)

/-- **Definitions one after the other** spell their rules, up to spans. -/
theorem exists_spells_join {blocks : List String}
    (h : List.Forall₂ Rule.WrittenAs rules blocks) (hne : rules ≠ [])
    (hsize : byteLength (String.join blocks).toList < offsetBound) :
    ∃ tokens rules', tokenize (String.join blocks) = .ok tokens ∧ Spells rules' tokens ∧
      rules'.map Rule.bare = rules.map Rule.bare := by
  have hread : ∃ tokens, ReadsLines (blocks.flatMap String.toList) tokens ∧
      Spells rules tokens := by
    clear hsize
    induction h with
    | nil => exact absurd rfl hne
    | @cons rule block rules blocks hrule hrules ih =>
      obtain ⟨tokens, hlines, hspells, hend⟩ := hrule.exists_readsLines
      cases hrules with
      | nil => exact ⟨tokens, by simpa using hlines, hspells⟩
      | cons =>
        obtain ⟨others, hothers, hspells'⟩ := ih (List.cons_ne_nil _ _)
        exact ⟨tokens ++ others, hlines.append hothers, hspells.append hend hspells'⟩
  obtain ⟨tokens, hlines, hspells⟩ := hread
  obtain ⟨found, hkinds, htokens⟩ := (hlines.lexesAs []).readTokens
  obtain ⟨rules', hspells', hbare⟩ := hspells.exists_of_kinds hkinds
  rw [← String.toList_join] at htokens
  exact ⟨found, rules', (tokenize_of_lt hsize).trans htokens, hspells', hbare⟩

/-! ## Another order -/

variable {options : ParseOptions} {reordered : List Rule}

/-- **A text with the same rules in another order** has the same grammar with other identities, if
    the root has the same name. -/
theorem exists_parse_of_perm {source other : String} {g : Grammar}
    (htokens : tokenize source = .ok tokens) (hspells : Spells rules tokens)
    (htokens' : tokenize other = .ok more) (hspells' : Spells reordered more)
    (hperm : (rules.map Rule.bare).Perm (reordered.map Rule.bare))
    (hroot : rootName options reordered = rootName options rules)
    (hmentioned : rootName options rules ∈ names rules)
    (h : Grammar.parse source options = .ok g) :
    ∃ h, Grammar.parse other options = .ok h ∧ ∃ f : RuleId → RuleId, g.Renumbers f h := by
  obtain ⟨hadmitted, hdistinct, hdefined, -, hreject, rfl⟩ := (parse_eq_ok_iff htokens hspells).1 h
  have hcomplete : Complete rules := ⟨hdistinct, hdefined⟩
  have hcomplete' := hcomplete.of_perm hperm
  have hmentioned' : rootName options reordered ∈ names reordered := by
    rw [hroot]
    exact (mem_names_iff_of_perm hperm).2 hmentioned
  refine ⟨compile options reordered, (parse_eq_ok_iff htokens' hspells').2 ⟨fun rule hrule => ?_,
    hcomplete'.distinct, hcomplete'.defined, fun name hname => ?_, fun hoption => ?_, rfl⟩,
    exists_renumbers_compile hcomplete hperm hroot hmentioned⟩
  · obtain ⟨same, hsame, hbare⟩ := List.mem_map.1 (hperm.mem_iff.2 (List.mem_map_of_mem hrule))
    rw [← Rule.admitted_bare, ← hbare, Rule.admitted_bare]
    exact hadmitted same hsame
  · rw [SymbolTable.find?_isSome_iff]
    rw [rootName, hname] at hmentioned'
    exact mem_names_table hmentioned'
  · -- Going back from the new identities to the old ones would carry left recursion along.
    obtain ⟨f, hf⟩ := exists_renumbers_compile hcomplete' hperm.symm hroot.symm hmentioned'
    exact Grammar.leftRecursive_eq_nil_of_embeds hf.embeds (hreject hoption)

/-- The name of the root does not depend on spans. -/
theorem rootName_eq_of_bare (h : rules.map Rule.bare = others.map Rule.bare) :
    rootName options rules = rootName options others := by
  rw [← rootName_bare, h, rootName_bare]

theorem name_mem_names (h : rule ∈ rules) : rule.name ∈ names rules :=
  mem_names_iff.2 ⟨rule, h, List.mem_cons_self⟩

end Tree

namespace Grammar

variable {options : ParseOptions} {blocks reordered : List String} {g : Grammar}

/-- **The order of definitions does not matter.** Let a text consist of the lines of definitions,
    and let the options ask for no root, or for one that is defined. If the text has a grammar, the
    definitions have one in every order, where the first one stays in its place if no root is asked
    for. It is the same grammar with other identities. -/
theorem exists_renumbers_of_perm
    (hblocks : ∀ block ∈ blocks, ∃ rule : Tree.Rule, rule.WrittenAs block)
    (hroot : ∀ name, options.root = some name →
      ∃ block ∈ blocks, ∃ rule : Tree.Rule, rule.WrittenAs block ∧ rule.name = name)
    (hperm : reordered.Perm blocks)
    (hfirst : options.root = none → reordered.head? = blocks.head?)
    (h : parse (String.join blocks) options = .ok g) :
    ∃ h, parse (String.join reordered) options = .ok h ∧
      ∃ f : RuleId → RuleId, g.Renumbers f h := by
  have : Nonempty Tree.Rule := ⟨⟨"", .point 0, []⟩⟩
  choose! rule hrule using hblocks
  have hwritten {list : List String} (hlist : ∀ block ∈ list, block ∈ blocks) :
      List.Forall₂ Tree.Rule.WrittenAs (list.map rule) list := by
    rw [List.forall₂_map_left_iff, List.forall₂_same]
    exact fun block hblock => hrule block (hlist block hblock)
  have hne : blocks ≠ [] := by
    rintro rfl
    obtain ⟨tokens, htokens, rules, hspells⟩ := Tree.exists_spells_of_parse h
    have hempty : tokenize (String.join []) = .ok [] := by
      decide +kernel
    cases hempty.symm.trans htokens
    exact hspells.ne_nil (List.map_eq_nil_iff.1 hspells.definitions_eq.symm)
  have hne' : reordered ≠ [] := fun hnil => hne (hnil ▸ hperm).symm.eq_nil
  -- Another order does not make the text longer.
  have hsize := lt_of_parse h
  have hsize' : byteLength (String.join reordered).toList < offsetBound := by
    rwa [Tree.byteLength_join_of_perm hperm]
  obtain ⟨tokens, rules, htokens, hspells, hbare⟩ :=
    Tree.exists_spells_join (hwritten fun _ => id) (by simpa using hne) hsize
  obtain ⟨tokens', rules', htokens', hspells', hbare'⟩ :=
    Tree.exists_spells_join (hwritten fun _ => hperm.mem_iff.1) (by simpa using hne') hsize'
  refine Tree.exists_parse_of_perm htokens hspells htokens' hspells' ?_ ?_ ?_ h
  · rw [hbare, hbare']
    exact (hperm.symm.map rule).map Tree.Rule.bare
  · rw [Tree.rootName_eq_of_bare hbare, Tree.rootName_eq_of_bare hbare', Tree.rootName,
      Tree.rootName, List.head?_map, List.head?_map]
    cases hoption : options.root with
    | none => rw [hfirst hoption]
    | some name => rfl
  · rw [Tree.rootName_eq_of_bare hbare, ← Tree.names_bare, hbare, Tree.names_bare, Tree.rootName]
    cases hoption : options.root with
    | none =>
      obtain ⟨block, others, rfl⟩ := List.exists_cons_of_ne_nil hne
      exact Tree.name_mem_names List.mem_cons_self
    | some name =>
      obtain ⟨block, hblock, other, hother, rfl⟩ := hroot name hoption
      rw [Option.getD_some, hother.name_eq (hrule block hblock)]
      exact Tree.name_mem_names (List.mem_map_of_mem hblock)

/-- The root is moved behind a definition that it mentions, and helpers get other identities. -/
theorem exists_renumbers_with_root_moved :
    ∃ g h, parse "r ::= (\"a\" | x)* y\nx ::= y?\ny ::= \"c\"\n" { root := some "r" } = .ok g ∧
      parse "y ::= \"c\"\nr ::= (\"a\" | x)* y\nx ::= y?\n" { root := some "r" } = .ok h ∧
      ∃ f : RuleId → RuleId, g.Renumbers f h := by
  obtain ⟨r, hr, hname⟩ :=
    @Tree.Rule.exists_writtenAs "r ::= (\"a\" | x)* y" "r" (by decide +kernel)
  obtain ⟨x, hx, -⟩ := @Tree.Rule.exists_writtenAs "x ::= y?" "x" (by decide +kernel)
  obtain ⟨y, hy, -⟩ := @Tree.Rule.exists_writtenAs "y ::= \"c\"" "y" (by decide +kernel)
  obtain ⟨g, hg⟩ : ∃ g, parse (String.join
      ["r ::= (\"a\" | x)* y\n", "x ::= y?\n", "y ::= \"c\"\n"]) { root := some "r" } = .ok g :=
    exists_parse_of_isOk (by decide +kernel)
  obtain ⟨h, hh, f, hf⟩ := @exists_renumbers_of_perm { root := some "r" }
    ["r ::= (\"a\" | x)* y\n", "x ::= y?\n", "y ::= \"c\"\n"]
    ["y ::= \"c\"\n", "r ::= (\"a\" | x)* y\n", "x ::= y?\n"] g
    (by simpa using ⟨⟨r, hr⟩, ⟨x, hx⟩, y, hy⟩)
    (by
      rintro name ⟨rfl⟩
      exact ⟨_, List.mem_cons_self, r, hr, hname⟩)
    (by decide) nofun hg
  exact ⟨g, h, hg, hh, f, hf⟩

end Grammar

end Bnf
