import Bnf.Proofs.SameStructure
import Bnf.Proofs.TextLength
import Bnf.Proofs.Tree.Compiled
import Bnf.Proofs.Tree.Fitting
import Bnf.Proofs.Tree.Plain
import Bnf.Proofs.Tree.Printing

/-!
# Reading a grammar that was written

The rules that a grammar is written as have neither groups nor operators, so no limit stands in
their way, and the grammar that they are compiled to needs no helpers. It has the same names, and
the symbols of its alternatives are those that were written. Only the identities may differ, for
they follow the order in which names are mentioned. What does stand in the way is the length of the
text: a grammar whose text has more bytes than there are offsets cannot be read again.

## Main results

- `Tree.sameStructure_compile` — the rules that are written are compiled to the same structure
- `Grammar.exists_parse_text` — the text of a grammar is read as a grammar of the same structure, or
  refused because it is too long
- `Grammar.overlong_text_not_read` — there are grammars with too long a text
-/

namespace Bnf

namespace Tree

variable {g : Grammar} {body : Body} {terms : List Term} {rule : Rule} {named : String × Bnf.Rule}

/-! ## What is written is plain -/

/-- What is written is plain: there are no groups in it, and nothing is repeated. -/
theorem plain_of_writes (h : g.Writes body terms) : ∀ term ∈ terms, term.Plain := by
  intro term hterm
  obtain ⟨piece, -, span, rfl⟩ := exists_left_of_forall₂ h hterm
  refine ⟨rfl, ?_⟩
  cases piece with
  | set s =>
    rw [Grammar.atom]
    split <;> trivial
  | _ => trivial

theorem plain_of_writesRule (h : g.WritesRule named rule) : rule.Plain := by
  intro terms hterms
  obtain ⟨body, -, hwrites⟩ := exists_left_of_forall₂ h.2 hterms
  exact plain_of_writes hwrites

theorem exists_of_mem_mentions_pieces {pieces : List Piece}
    (h : List.Forall₂ (fun piece term => ∃ span, term = .mk (g.atom piece span) none) pieces terms)
    {mention : String × Span} (hmention : mention ∈ sequenceMentions terms) :
    ∃ id : Nat, .rule id ∈ pieces.flatMap Piece.symbols ∧ g.name id = mention.1 := by
  induction h with
  | nil => simp [sequenceMentions] at hmention
  | @cons piece term pieces terms hfirst _ ih =>
    obtain ⟨span, rfl⟩ := hfirst
    rw [sequenceMentions, List.mem_append] at hmention
    rw [List.flatMap_cons]
    obtain hatom | hothers := hmention
    · cases piece with
      | literal chars => simp [Term.mentions, Grammar.atom, Atom.mentions] at hatom
      | set s =>
        rw [Term.mentions, Grammar.atom] at hatom
        split at hatom <;> simp [Atom.mentions] at hatom
      | rule id =>
        obtain rfl : mention = (g.name id, span) := by
          simpa [Term.mentions, Grammar.atom, Atom.mentions] using hatom
        exact ⟨id, by simp [Piece.symbols], rfl⟩
    · obtain ⟨id, hid, hname⟩ := ih hothers
      exact ⟨id, List.mem_append_right _ hid, hname⟩

/-- A mention in what is written comes from a mention in the grammar, under the same name. -/
theorem exists_of_mem_mentions {bodies : List Body} {alternatives : List (List Term)}
    (h : List.Forall₂ g.Writes bodies alternatives) {mention : String × Span}
    (hmention : mention ∈ alternationMentions alternatives) :
    ∃ body ∈ bodies, ∃ id : Nat, .rule id ∈ body ∧ g.name id = mention.1 := by
  induction h with
  | nil => simp [alternationMentions] at hmention
  | @cons body terms bodies alternatives hfirst _ ih =>
    rw [alternationMentions, List.mem_append] at hmention
    obtain hterms | hothers := hmention
    · obtain ⟨id, hid, hname⟩ := exists_of_mem_mentions_pieces hfirst hterms
      rw [body.symbols_written] at hid
      exact ⟨body, List.mem_cons_self, id, hid, hname⟩
    · obtain ⟨body, hbody, hid⟩ := ih hothers
      exact ⟨body, List.mem_cons_of_mem _ hbody, hid⟩

/-! ## The names that are written -/

section

variable {rules : List Rule} (hwell : g.WellFormed)
  (hwrites : List.Forall₂ g.WritesRule g.namedRules rules)

include hwell hwrites

/-- The rules that are written have the names of the grammar, in the order of identities. -/
theorem map_name_of_writes : rules.map (·.name) = g.symbols.names := by
  have hnames : rules.map (·.name) = g.namedRules.map (·.1) := by
    generalize g.namedRules = named at hwrites
    induction hwrites with
    | nil => rfl
    | cons hrule _ ih => rw [List.map_cons, List.map_cons, hrule.1, ih]
  rw [hnames, hwell.map_fst_namedRules]

/-- They mention no other names. -/
theorem mem_names_of_writes {name : String} : name ∈ names rules ↔ name ∈ g.symbols.names := by
  constructor
  · intro hname
    obtain ⟨mention, hmention, rfl⟩ := List.mem_map.1 hname
    obtain ⟨rule, hrule, hmention⟩ := List.mem_flatMap.1 hmention
    obtain ⟨named, hnamed, hrulewrites⟩ := exists_left_of_forall₂ hwrites hrule
    obtain ⟨id, hid, hsame⟩ := Grammar.mem_namedRules_iff.1 hnamed
    obtain rfl | hmention := List.mem_cons.1 hmention
    · rw [← map_name_of_writes hwell hwrites]
      exact List.mem_map_of_mem hrule
    · obtain ⟨body, hbody, mentioned, hmentioned, hname⟩ :=
        exists_of_mem_mentions hrulewrites.2 hmention
      -- A written alternative mentions an identity of the grammar by its name.
      have hlt : mentioned < g.size := (hwell.rules hid).2 body hbody _ hmentioned
      exact SymbolTable.mem_names_iff.2 ⟨mentioned, hname ▸ hwell.name?_eq hlt⟩
  · intro hname
    rw [← map_name_of_writes hwell hwrites] at hname
    obtain ⟨rule, hrule, rfl⟩ := List.mem_map.1 hname
    refine List.mem_map.2 ⟨(rule.name, rule.span), List.mem_flatMap.2 ⟨rule, hrule, ?_⟩, rfl⟩
    exact List.mem_cons_self

end

/-! ## The alternatives that are written -/

section

variable {h : Grammar} {mentioned : List String} {t : Table}

/-- **A piece is compiled to the symbols it was written for.** The cases are those of pieces. -/
theorem agrees_of_piece (hsymbols : t.symbols = h.symbols) {piece : Piece} {span : Span}
    {part : Body} (hcompiled : (g.atom piece span).Compiled mentioned t part) :
    List.Forall₂ (fun x y => Symbol.agrees g h x y = true) piece.symbols part := by
  have hchars (s : CharSet) : Symbol.agrees g h (.chars s) (.chars s) = true := by
    simp [Symbol.agrees]
  cases piece with
  | literal chars =>
    cases hcompiled
    refine List.forall₂_same.2 fun symbol hsymbol => ?_
    obtain ⟨c, -, rfl⟩ := List.mem_map.1 hsymbol
    exact hchars _
  | set s =>
    rw [Grammar.atom] at hcompiled
    split at hcompiled
    · next hany =>
      cases hcompiled
      -- A dot is read as the set of all characters, which is the only one written as a dot.
      rw [CharSet.eq_any hany]
      exact .cons (hchars _) .nil
    · cases hcompiled
      exact .cons (hchars _) .nil
  | rule id =>
    cases hcompiled with
    | @name _ _ other _ hname =>
      rw [hsymbols] at hname
      refine .cons (Symbol.agrees_iff.2 (.inr ⟨id, other, rfl, rfl, ?_⟩)) .nil
      rw [Grammar.name_of_name? hname]

theorem agrees_of_pieces (hsymbols : t.symbols = h.symbols) {pieces : List Piece} {other : Body}
    (hpieces : List.Forall₂ (fun piece term => ∃ span, term = .mk (g.atom piece span) none)
      pieces terms) (hcompiled : SequenceCompiled mentioned t terms other) :
    List.Forall₂ (fun x y => Symbol.agrees g h x y = true) (pieces.flatMap Piece.symbols)
      other := by
  induction hpieces generalizing other with
  | nil =>
    cases hcompiled
    exact .nil
  | cons hfirst _ ih =>
    obtain ⟨span, rfl⟩ := hfirst
    cases hcompiled with
    | cons hterm hterms =>
      cases hterm with
      | plain hatom => exact List.rel_append (agrees_of_piece hsymbols hatom) (ih hterms)

/-- So alternatives are compiled to alternatives that agree with them. -/
theorem agrees_of_alternatives (hsymbols : t.symbols = h.symbols) {bodies others : List Body}
    {alternatives : List (List Term)} (hwrites : List.Forall₂ g.Writes bodies alternatives)
    (hcompiled : AlternationCompiled mentioned t alternatives others) :
    List.Forall₂ (List.Forall₂ fun x y => Symbol.agrees g h x y = true) bodies others := by
  induction hwrites generalizing others with
  | nil =>
    cases hcompiled
    exact .nil
  | @cons body terms bodies alternatives hfirst _ ih =>
    cases hcompiled with
    | cons hterms hothers =>
      have hbody := agrees_of_pieces hsymbols hfirst hterms
      rw [body.symbols_written] at hbody
      exact .cons hbody (ih hothers)

end

/-! ## The grammar that is read -/

section

variable {options : ParseOptions} {rules : List Rule} (hwell : g.WellFormed)
  (hwrites : List.Forall₂ g.WritesRule g.namedRules rules)

include hwell hwrites

theorem nodup_of_writes : (rules.map (·.name)).Nodup := by
  rw [map_name_of_writes hwell hwrites]
  exact hwell.distinct

theorem defined_of_writes : ∀ name ∈ names rules, name ∈ rules.map (·.name) := by
  intro name hname
  rw [map_name_of_writes hwell hwrites]
  exact (mem_names_of_writes hwell hwrites).1 hname

theorem mem_names_table_of_writes {name : String} :
    name ∈ (table rules).symbols.names ↔ name ∈ g.symbols.names := by
  rw [← mem_names_of_writes hwell hwrites]
  refine mem_names_table_iff_of_plain fun rule hrule => ?_
  obtain ⟨named, -, hrulewrites⟩ := exists_left_of_forall₂ hwrites hrule
  exact plain_of_writesRule hrulewrites

/-- **The rules that are written are compiled to the same structure.** -/
theorem sameStructure_compile (hroot : rootName options rules = g.name g.root) :
    g.sameStructure (compile options rules) = true := by
  have hdistinct := nodup_of_writes hwell hwrites
  obtain ⟨hsize, hrules⟩ :=
    @rule?_compile options rules hdistinct (defined_of_writes hwell hwrites)
  have hsound := table_sound hdistinct
  refine Grammar.sameStructure_iff.2 ⟨?_, ?_, fun {id rule} hid => ?_⟩
  · -- Both have the same names without repetition, so they have as many rules.
    have hperm := (List.perm_ext_iff_of_nodup hsound.distinct hwell.distinct).2
      fun name => mem_names_table_of_writes hwell hwrites
    have hlength := hperm.length_eq
    rw [SymbolTable.length_names, hwell.length_names] at hlength
    rw [hsize, hlength]
  · have hmem : g.name g.root ∈ (table rules).symbols.names :=
      (mem_names_table_of_writes hwell hwrites).2
        (SymbolTable.mem_names_iff.2 ⟨g.root, hwell.name?_eq hwell.root⟩)
    obtain ⟨root, hfound⟩ := Option.isSome_iff_exists.1 (SymbolTable.find?_isSome_iff.2 hmem)
    have hcompiled : (compile options rules).root = root := by
      rw [compile, hroot, hfound, Option.getD_some]
    rw [hcompiled, Grammar.name_of_name? (SymbolTable.name?_of_find? hfound : (compile options
      rules).symbols.name? root = _)]
  · obtain ⟨tree, htree, hname, halternatives⟩ :=
      exists_right_of_forall₂ hwrites
        (Grammar.mem_namedRules_iff.2 ⟨id, hid, rfl⟩ : (g.name id, rule) ∈ g.namedRules)
    -- No operator is written, so none is inverted.
    have hbounds : ∀ rule ∈ rules, ∀ operation ∈ rule.operations,
        operation.2.isInverted = false := by
      intro rule hrule operation hoperation
      obtain ⟨named, -, hrulewrites⟩ := exists_left_of_forall₂ hwrites hrule
      rw [(plain_of_writesRule hrulewrites).flat.2] at hoperation
      simp at hoperation
    obtain ⟨other, bodies, hother, hrule, hcompiled⟩ := table_compiled hbounds hdistinct tree htree
    refine ⟨other, _, ?_, (hrules other).trans hrule, ?_⟩
    · rw [hname] at hother
      exact (SymbolTable.find?_eq_some_iff hsound.distinct).2 hother
    · exact agrees_of_alternatives rfl halternatives hcompiled

end

end Tree

namespace Grammar

open Bnf.Tree

variable {source : String} {options : ParseOptions} {g : Grammar}

/-- The root of a text is written first, or has a name that is asked for again. -/
theorem rootName_of_parse (h : parse source options = .ok g) {rules : List Tree.Rule}
    (hwrites : List.Forall₂ g.WritesRule g.namedRules rules) :
    rootName options rules = g.name g.root := by
  have hwell := wellFormed_of_parse h
  obtain ⟨hfirst, hnamed⟩ := root_of_parse h
  have hroot := hwell.name?_eq hwell.root
  cases hoptions : options.root with
  | none =>
    -- The root is the first rule of the one, and is written first for the other.
    rw [hfirst hoptions] at hroot ⊢
    rw [rootName, hoptions, Option.getD_none, ← List.head?_map, map_name_of_writes hwell hwrites,
      List.head?_eq_getElem?, ← SymbolTable.name?_eq_getElem?, hroot, Option.getD_some]
  | some name =>
    rw [rootName, hoptions, Option.getD_some]
    exact (name_of_name? (SymbolTable.name?_of_find? (hnamed name hoptions))).symm

/-- Rules that are written pass all checks of a reader that allows the names of helpers. -/
theorem admitted_of_writesRule {named : String × Bnf.Rule} {rule : Tree.Rule}
    (h : g.WritesRule named rule) : rule.Admitted options.reparse := by
  obtain ⟨hdepth, hoperations⟩ := (plain_of_writesRule h).flat
  refine ⟨fun _ _ => .inl rfl, ?_, ?_⟩
  · rw [hdepth]
    exact Nat.zero_le _
  · rw [hoperations]
    simp

/-- A grammar that is read can be written and read again, which keeps its structure, if there are
    offsets for all of its text. -/
theorem exists_reread (h : parse source options = .ok g)
    (hsize : byteLength g.text.toList < offsetBound) :
    ∃ again, parse g.text options.reparse = .ok again ∧ g.sameStructure again = true := by
  have hwell := wellFormed_of_parse h
  obtain ⟨tokens, rules, hread, hspells, hwrites⟩ := hwell.exists_spells_text
  have htokens := (tokenize_of_lt hsize).trans hread
  have hdistinct := nodup_of_writes hwell hwrites
  have hdefined := defined_of_writes hwell hwrites
  have hsame : g.sameStructure (compile options.reparse rules) = true :=
    sameStructure_compile hwell hwrites (rootName_of_parse h hwrites)
  have hagain : (compile options.reparse rules).WellFormed :=
    compile_wellFormed hspells.ne_nil (hspells.valid (valid_of_tokenize htokens)) hdistinct hdefined
  refine ⟨_, (Tree.parse_eq_ok_iff htokens hspells).2 ⟨fun rule hrule => ?_, hdistinct, hdefined,
    fun name hname => ?_, fun hreject => ?_, rfl⟩, hsame⟩
  · obtain ⟨_, -, hrulewrites⟩ := exists_left_of_forall₂ hwrites hrule
    exact admitted_of_writesRule hrulewrites
  · have hfound := (root_of_parse h).2 name hname
    refine SymbolTable.find?_isSome_iff.2 ((mem_names_table_of_writes hwell hwrites).2 ?_)
    exact SymbolTable.find?_isSome_iff.1 (Option.isSome_iff_exists.2 ⟨g.root, hfound⟩)
  · -- The grammar has passed the same check, and other identities make no difference to it.
    obtain ⟨_, hfirst, -⟩ := exists_spells_of_parse h
    obtain ⟨_, -, -, hnil⟩ := (Grammar.parse_eq_ok_iff hfirst).1 h
    exact leftRecursive_eq_nil_of_sameStructure hwell hagain hsame (hnil hreject)

/-- **The text of a grammar is read as a grammar of the same structure**, under the options that
    the grammar was read under and with names of helpers allowed, if there are offsets for all of
    it. The names are the same too, but their order may be another. A longer text is refused. -/
theorem exists_parse_text (h : parse source options = .ok g) :
    (byteLength g.text.toList < offsetBound →
      ∃ again, parse g.text options.reparse = .ok again ∧ g.sameStructure again = true ∧
        g.symbols.names.Perm again.symbols.names) ∧
    (offsetBound ≤ byteLength g.text.toList → parse g.text options.reparse =
      .error ⟨.lexical (.sourceTooLarge (byteLength g.text.toList)), 0⟩) := by
  refine ⟨fun hsize => ?_, fun hsize => parse_of_le hsize _⟩
  obtain ⟨again, hparse, hsame⟩ := exists_reread h hsize
  exact ⟨again, hparse, hsame,
    perm_names_of_sameStructure (wellFormed_of_parse h) (wellFormed_of_parse hparse) hsame⟩

/-- A grammar with helpers, a class of signs that mean something between brackets, and a root that
    is not the first rule. -/
theorem exists_parse_text_with_helpers :
    ∃ g, parse "r ::= (\"a\" s | [\\]^-])*\ns ::= \"\\n\"? \"b\" [c]\n"
        { root := some "s", leftRecursion := .reject } = .ok g ∧
      ∃ again, parse g.text
          (ParseOptions.reparse { root := some "s", leftRecursion := .reject }) = .ok again ∧
        g.sameStructure again = true ∧ g.symbols.names.Perm again.symbols.names := by
  obtain ⟨g, hparse, hsize⟩ := @exists_parse_of_any { root := some "s", leftRecursion := .reject }
    "r ::= (\"a\" s | [\\]^-])*\ns ::= \"\\n\"? \"b\" [c]\n"
    (fun g => byteLength g.text.toList < offsetBound) (by decide +kernel)
  exact ⟨g, hparse, (exists_parse_text hparse).1 (of_decide_eq_true hsize)⟩

/-- A name of 4095 letters that is repeated 1048576 times: the grammar of this text has a text that
    is not read. -/
theorem overlong_text_not_read :
    ∃ g, parse overlongSource { maxRepetition := 1048576 } = .ok g ∧ ∀ again,
      parse g.text (ParseOptions.reparse { maxRepetition := 1048576 }) ≠ .ok again := by
  obtain ⟨g, hparse, hsize⟩ := exists_parse_overlongSource
  refine ⟨g, hparse, fun again hagain => ?_⟩
  exact Nat.not_lt.2 hsize (lt_of_parse hagain)

end Grammar

end Bnf
