import Mathlib.Tactic.TFAE
import Bnf.Proofs.MentionOrder
import Bnf.Proofs.RawDecoding
import Bnf.Proofs.Reachability
import Bnf.Proofs.Tree.FirstMention
import Bnf.Proofs.Tree.RoundTrip

/-!
# Reading what was written, again and again

The text of a grammar names its rules in the order of their identities. Read again, it gives a
grammar of the same structure, whose identities follow the order of first mention in this text. So
the names of the one are the names of the other in the order of first mention, and what is known of
such orders tells when a grammar is read as it was written, and after how many readings. All these
texts have one length, so either all of them are short enough to be read or the first one is not.

## Main definitions

- `Grammar.mentionedBy` — the names that the rule of a name mentions
- `Grammar.lineNamed` — the line of the rule of a name
- `Grammar.reread` — the grammars that are read one after the other
- `Grammar.RereadAs` — what such a grammar keeps, and the order that its names have got to

## Main results

- `Grammar.names_of_parse_text` — the names of a grammar that is read again
- `Grammar.rereading_changes_together` — text, raw form and order of names change together
- `Grammar.byteLength_text_of_sameStructure` — grammars of one structure have texts of one length
- `Grammar.rereading_settles` — after as many readings as there are rules nothing changes any more,
  if the text is short enough to be read
-/

namespace Bnf

namespace Grammar

/-- The names that some alternatives mention, in order. -/
def mentionedIn (g : Grammar) (bodies : List Body) : List String :=
  (bodies.flatMap fun body => body.filterMap Symbol.rule?).map g.name

/-- The names that the rule of a name mentions, in order. -/
def mentionedBy (g : Grammar) (name : String) : List String :=
  ((g.ruleNamed? name).map fun rule => g.mentionedIn rule.alternatives).getD []

variable {g again : Grammar} {id : Nat} {rule : Rule}

@[simp] theorem mentionedIn_nil (g : Grammar) : g.mentionedIn [] = [] :=
  rfl

@[simp] theorem mentionedIn_cons (g : Grammar) (body : Body) (bodies : List Body) :
    g.mentionedIn (body :: bodies) =
      (body.filterMap Symbol.rule?).map g.name ++ g.mentionedIn bodies := by
  rw [mentionedIn, List.flatMap_cons, List.map_append, mentionedIn]

theorem WellFormed.ruleNamed?_name (h : g.WellFormed) (hrule : g.rule? id = some rule) :
    g.ruleNamed? (g.name id) = some rule := by
  rw [ruleNamed?, h.find?_name (lt_of_rule? hrule), Option.bind_some, hrule]

theorem WellFormed.mentionedBy_name (h : g.WellFormed) (hrule : g.rule? id = some rule) :
    g.mentionedBy (g.name id) = g.mentionedIn rule.alternatives := by
  rw [mentionedBy, h.ruleNamed?_name hrule, Option.map_some, Option.getD_some]

end Grammar

/-! ## What the text of a grammar mentions -/

namespace Tree

variable {g : Grammar} {terms : List Term} {rules : List Rule}

theorem map_fst_mentions_pieces {pieces : List Piece}
    (h : List.Forall₂ (fun piece term => ∃ span, term = .mk (g.atom piece span) none)
      pieces terms) :
    (sequenceMentions terms).map (·.1) =
      ((pieces.flatMap Piece.symbols).filterMap Symbol.rule?).map g.name := by
  induction h with
  | nil => rfl
  | @cons piece term pieces terms hfirst _ ih =>
    obtain ⟨span, rfl⟩ := hfirst
    have hpiece : ((g.atom piece span).mentions).map (·.1) =
        (piece.symbols.filterMap Symbol.rule?).map g.name := by
      cases piece with
      | literal chars => simp [Grammar.atom, Atom.mentions, Piece.symbols, Symbol.rule?]
      | set s =>
        rw [Grammar.atom]
        split <;> rfl
      | rule id => rfl
    rw [sequenceMentions, List.map_append, ih, List.flatMap_cons, List.filterMap_append,
      List.map_append, ← hpiece]
    rfl

theorem map_fst_mentions_alternatives {bodies : List Body} {alternatives : List (List Term)}
    (h : List.Forall₂ g.Writes bodies alternatives) :
    (alternationMentions alternatives).map (·.1) = g.mentionedIn bodies := by
  induction h with
  | nil => rfl
  | @cons body terms bodies alternatives hfirst _ ih =>
    rw [alternationMentions, List.map_append, ih, map_fst_mentions_pieces hfirst,
      body.symbols_written, Grammar.mentionedIn_cons]

/-- **The text of a grammar mentions** each name in front of the names that its rule mentions. -/
theorem names_of_writes (hwell : g.WellFormed)
    (hwrites : List.Forall₂ g.WritesRule g.namedRules rules) :
    names rules = g.symbols.names.flatMap fun name => name :: g.mentionedBy name := by
  have hnamed : ∀ named ∈ g.namedRules,
      g.mentionedBy named.1 = g.mentionedIn named.2.alternatives := by
    intro named hmem
    obtain ⟨id, hrule, hname⟩ := Grammar.mem_namedRules_iff.1 hmem
    rw [← hname, hwell.mentionedBy_name hrule]
  rw [← hwell.map_fst_namedRules, names, List.flatMap_map]
  revert hwrites hnamed
  generalize g.namedRules = named
  intro hwrites hnamed
  induction hwrites with
  | nil => rfl
  | @cons first rule named rules hrule _ ih =>
    rw [List.forall_mem_cons] at hnamed
    rw [List.flatMap_cons, List.map_append, ih hnamed.2, List.flatMap_cons, hnamed.1, Rule.mentions,
      List.map_cons, map_fst_mentions_alternatives hrule.2, hrule.1]

end Tree

/-! ## The grammar that is read again -/

namespace Grammar

variable {g again : Grammar} {source : String} {options : ParseOptions}

/-- **The names of a grammar that is read again** are its names in the order of first mention. -/
theorem names_of_parse_text (hwell : g.WellFormed) (h : parse g.text options = .ok again) :
    again.symbols.names = mentionOrder g.mentionedBy g.symbols.names := by
  obtain ⟨tokens, rules, hread, hspells, hwrites⟩ := hwell.exists_spells_text
  have htokens := (tokenize_of_lt (lt_of_parse h)).trans hread
  have hrecorded := congrArg (List.map Prod.fst) (mentionsOf_of_parse h htokens hspells)
  rw [SymbolTable.map_fst_mentionsOf, map_fst_firstMentions, hspells.mentions_eq] at hrecorded
  have hall : ∀ name ∈ again.symbols.names, name ∈ Tree.names rules := by
    obtain ⟨-, -, -, -, -, rfl⟩ := (Tree.parse_eq_ok_iff htokens hspells).1 h
    intro name hname
    exact (Tree.mem_names_of_writes hwell hwrites).2
      ((Tree.mem_names_table_of_writes hwell hwrites).1 hname)
  rw [List.filter_eq_self.2 fun name hname => decide_eq_true (hall name hname)] at hrecorded
  rw [hrecorded, mentionOrder, ← Tree.names_of_writes hwell hwrites, Tree.names]

/-- A grammar that is read from the text of another one has the same structure. -/
theorem sameStructure_of_parse_text (h : parse source options = .ok g)
    (hagain : parse g.text options.reparse = .ok again) : g.sameStructure again = true := by
  obtain ⟨_, hparse, hsame⟩ := exists_reread h (lt_of_parse hagain)
  cases hparse.symm.trans hagain
  exact hsame

/-! ## Grammars of the same structure -/

theorem mentionedIn_of_agrees {bodies others : List Body}
    (h : List.Forall₂ (List.Forall₂ fun x y => Symbol.agrees g again x y = true) bodies others) :
    again.mentionedIn others = g.mentionedIn bodies := by
  have hbody {body other : Body}
      (h : List.Forall₂ (fun x y => Symbol.agrees g again x y = true) body other) :
      (other.filterMap Symbol.rule?).map again.name = (body.filterMap Symbol.rule?).map g.name := by
    induction h with
    | nil => rfl
    | cons hfirst _ ih =>
      obtain ⟨s, rfl, rfl⟩ | ⟨i, j, rfl, rfl, hname⟩ := Symbol.agrees_iff.1 hfirst
      · exact ih
      · simp [Symbol.rule?, hname, ih]
  induction h with
  | nil => rfl
  | cons hfirst _ ih => rw [mentionedIn_cons, mentionedIn_cons, hbody hfirst, ih]

theorem eq_of_forall₂ {α : Type} {r : α → α → Prop} {xs ys : List α} (h : List.Forall₂ r xs ys)
    (heq : ∀ x ∈ xs, ∀ y ∈ ys, r x y → y = x) : ys = xs := by
  induction h with
  | nil => rfl
  | @cons x y xs ys hfirst _ ih =>
    rw [heq x List.mem_cons_self y List.mem_cons_self hfirst, ih fun x hx y hy =>
      heq x (List.mem_cons_of_mem _ hx) y (List.mem_cons_of_mem _ hy)]

theorem name_eq_of_names (h : again.symbols.names = g.symbols.names) : again.name = g.name := by
  funext id
  rw [name, name, SymbolTable.name?_eq_getElem?, SymbolTable.name?_eq_getElem?, h]

/-- **Pieces that are written alike** in two grammars. -/
inductive SameText (g again : Grammar) : Piece → Piece → Prop
  | literal (chars : List Char) : SameText g again (.literal chars) (.literal chars)
  | set (s : CharSet) : SameText g again (.set s) (.set s)
  | rule {i j : Nat} : g.name i = again.name j → SameText g again (.rule i) (.rule j)

theorem SameText.writePiece_eq {piece other : Piece} (h : SameText g again piece other) :
    again.writePiece other = g.writePiece piece := by
  cases h with
  | literal chars | set s => rfl
  | rule hname => rw [writePiece, writePiece, hname]

theorem sameText_prepend (c : Char) {pieces others : List Piece}
    (h : List.Forall₂ (SameText g again) pieces others) :
    List.Forall₂ (SameText g again) (Piece.prepend c pieces) (Piece.prepend c others) := by
  cases h with
  | nil => exact .cons (.literal [c]) .nil
  | cons hfirst hothers =>
    cases hfirst with
    | literal chars => exact .cons (.literal (c :: chars)) hothers
    | set s => exact .cons (.literal [c]) (.cons (.set s) hothers)
    | rule hname => exact .cons (.literal [c]) (.cons (.rule hname) hothers)

theorem sameText_pieces {body other : Body}
    (h : List.Forall₂ (fun x y => Symbol.agrees g again x y = true) body other) :
    List.Forall₂ (SameText g again) (Body.pieces body) (Body.pieces other) := by
  induction h with
  | nil => exact .nil
  | cons hfirst _ ih =>
    rw [Body.pieces, Body.pieces]
    obtain ⟨s, rfl, rfl⟩ | ⟨i, j, rfl, rfl, hname⟩ := Symbol.agrees_iff.1 hfirst
    · rw [Symbol.single?]
      cases s.single? with
      | none => exact .cons (.set s) ih
      | some c => exact sameText_prepend c ih
    · exact .cons (.rule hname) ih

/-- The text of a rule depends on names only, not on identities. -/
theorem writeRule_of_agrees {rule other : Rule}
    (h : List.Forall₂ (List.Forall₂ fun x y => Symbol.agrees g again x y = true)
      rule.alternatives other.alternatives) (name : String) :
    again.writeRule name other = g.writeRule name rule := by
  have hbody {body other : Body}
      (h : List.Forall₂ (fun x y => Symbol.agrees g again x y = true) body other) :
      again.writeBody other = g.writeBody body := by
    have hempty : other.isEmpty = body.isEmpty := by cases h <;> rfl
    have hpieces : (Body.pieces other).map (fun piece => ' ' :: again.writePiece piece) =
        (Body.pieces body).map fun piece => ' ' :: g.writePiece piece :=
      map_eq_map_of_forall₂ (sameText_pieces h) fun h => congrArg (' ' :: ·) h.writePiece_eq
    rw [writeBody, writeBody, hempty, List.flatMap_def, List.flatMap_def, hpieces]
  rw [writeRule, writeRule, map_eq_map_of_forall₂ h hbody]

/-- The line of the rule of a name. -/
def lineNamed (g : Grammar) (name : String) : List Char :=
  ((g.ruleNamed? name).map (g.writeRule name)).getD []

/-- The text of a grammar has a line for each name. -/
theorem WellFormed.toList_text (h : g.WellFormed) :
    g.text.toList = g.symbols.names.flatMap g.lineNamed := by
  rw [text, String.toList_ofList, ← h.map_fst_namedRules, List.flatMap_map]
  refine List.flatMap_congr fun named hnamed => ?_
  obtain ⟨id, hrule, hname⟩ := mem_namedRules_iff.1 hnamed
  rw [lineNamed, ← hname, h.ruleNamed?_name hrule, Option.map_some, Option.getD_some, hname]

section SameStructure

variable (hg : g.WellFormed) (hagain : again.WellFormed) (hsame : g.sameStructure again = true)

include hg hagain hsame

/-- The rules of a name have the same alternatives but for identities, if there are any. -/
theorem ruleNamed?_of_sameStructure (name : String) :
    (g.ruleNamed? name = none ∧ again.ruleNamed? name = none) ∨
      ∃ rule other, g.ruleNamed? name = some rule ∧ again.ruleNamed? name = some other ∧
        List.Forall₂ (List.Forall₂ fun x y => Symbol.agrees g again x y = true)
          rule.alternatives other.alternatives := by
  by_cases hname : name ∈ g.symbols.names
  · obtain ⟨id, hid⟩ := SymbolTable.mem_names_iff.1 hname
    obtain ⟨rule, hrule⟩ := exists_rule?_of_lt (hg.size_symbols ▸ SymbolTable.name?_eq_some_lt hid)
    obtain ⟨-, -, hrules⟩ := sameStructure_iff.1 hsame
    obtain ⟨other, image, hother, himage, hagrees⟩ := hrules hrule
    refine .inr ⟨rule, image, ?_, ?_, hagrees⟩
    · rw [← name_of_name? hid, hg.ruleNamed?_name hrule]
    · rw [← name_of_name? hid, ruleNamed?, hother, Option.bind_some, himage]
  · have hname' : name ∉ again.symbols.names :=
      mt (perm_names_of_sameStructure hg hagain hsame).mem_iff.2 hname
    rw [ruleNamed?, ruleNamed?, find?, find?, SymbolTable.find?_eq_none_iff.2 hname,
      SymbolTable.find?_eq_none_iff.2 hname']
    exact .inl ⟨rfl, rfl⟩

/-- The names that a rule mentions are a matter of structure. -/
theorem mentionedBy_of_sameStructure : again.mentionedBy = g.mentionedBy := by
  funext name
  obtain ⟨hnone, hnone'⟩ | ⟨rule, other, hrule, hother, hagrees⟩ :=
    ruleNamed?_of_sameStructure hg hagain hsame name
  · rw [mentionedBy, mentionedBy, hnone, hnone']
    rfl
  · rw [mentionedBy, mentionedBy, hrule, hother, Option.map_some, Option.map_some,
      mentionedIn_of_agrees hagrees]

/-- The line of a name is a matter of structure. -/
theorem lineNamed_of_sameStructure : again.lineNamed = g.lineNamed := by
  funext name
  obtain ⟨hnone, hnone'⟩ | ⟨rule, other, hrule, hother, hagrees⟩ :=
    ruleNamed?_of_sameStructure hg hagain hsame name
  · rw [lineNamed, lineNamed, hnone, hnone']
    rfl
  · rw [lineNamed, lineNamed, hrule, hother, Option.map_some, Option.map_some,
      writeRule_of_agrees hagrees]

/-- The texts of two grammars of the same structure have the same lines, so they are equally
    long. -/
theorem byteLength_text_of_sameStructure :
    byteLength again.text.toList = byteLength g.text.toList := by
  rw [hagain.toList_text, hg.toList_text, lineNamed_of_sameStructure hg hagain hsame]
  exact byteLength_eq_of_perm ((perm_names_of_sameStructure hg hagain hsame).symm.flatMap_right _)

/-- With the same names in the same order the texts are the same. -/
theorem text_of_names (hnames : again.symbols.names = g.symbols.names) : again.text = g.text := by
  rw [← String.toList_inj, hagain.toList_text, hg.toList_text,
    lineNamed_of_sameStructure hg hagain hsame, hnames]

/-- Where all identities have the same names, they have the same alternatives. -/
theorem alternatives_of_names (hnames : again.name = g.name) (id : Nat) :
    again.alternatives id = g.alternatives id := by
  obtain ⟨hsize, -, hrules⟩ := sameStructure_iff.1 hsame
  have hinjective {i j : Nat} (hi : i < g.size) (hj : j < g.size) (h : g.name i = again.name j) :
      j = i := by
    have hfound := hg.find?_name hj
    rw [← hnames, ← h, hg.find?_name hi, Option.some_inj] at hfound
    exact hfound.symm
  by_cases hid : id < g.size
  · obtain ⟨rule, hrule⟩ := exists_rule?_of_lt hid
    obtain ⟨other, image, hother, himage, hagrees⟩ := hrules hrule
    rw [← hnames, hagain.find?_name (hsize ▸ hid), Option.some_inj] at hother
    rw [← hother] at himage
    rw [alternatives_of_rule? hrule, alternatives_of_rule? himage]
    refine eq_of_forall₂ hagrees fun body hbody other hother hsame => ?_
    refine eq_of_forall₂ hsame fun symbol hsymbol image' himage' hsymbols => ?_
    obtain ⟨s, rfl, rfl⟩ | ⟨i, j, rfl, rfl, hname⟩ := Symbol.agrees_iff.1 hsymbols
    · rfl
    · have hi : i < g.size := (hg.rules hrule).2 body hbody _ hsymbol
      have hj : j < again.size := (hagain.rules himage).2 other hother _ himage'
      rw [hinjective hi (hsize ▸ hj) hname]
  · have hid' : again.size ≤ id := hsize ▸ Nat.le_of_not_lt hid
    rw [alternatives, alternatives, rule?, rule?, Array.getElem?_eq_none hid',
      Array.getElem?_eq_none (Nat.le_of_not_lt hid)]

theorem root_of_names (hnames : again.name = g.name) : again.root = g.root := by
  obtain ⟨hsize, hroot, -⟩ := sameStructure_iff.1 hsame
  have hfound := hg.find?_name (hsize ▸ hagain.root)
  rw [← hnames, ← hroot, hg.find?_name hg.root, Option.some_inj] at hfound
  exact hfound.symm

/-- **With the same names, nothing changes.** -/
theorem unchanged_of_names (hnames : again.symbols.names = g.symbols.names) :
    again.text = g.text ∧ again.encode = g.encode := by
  have hname := name_eq_of_names hnames
  have halternatives := alternatives_of_names hg hagain hsame hname
  have hsize : again.size = g.size := (sameStructure_iff.1 hsame).1.symm
  exact ⟨text_of_names hg hagain hsame hnames,
    encode_congr hsize (root_of_names hg hagain hsame hname) fun id _ => halternatives id⟩

/-- With the same raw form, a grammar that names its rules in the order of first mention has kept
    their order. -/
theorem names_of_encode (hencode : again.encode = g.encode)
    (horder : again.symbols.names = mentionOrder g.mentionedBy g.symbols.names) :
    again.symbols.names = g.symbols.names := by
  have hsize : again.size = g.size := (sameStructure_iff.1 hsame).1.symm
  have halternatives {id : Nat} (hid : id < g.size) :
      again.alternatives id = g.alternatives id := by
    have hread := hagain.readRule?_encode (hsize ▸ hid)
    rw [hencode, hg.readRule?_encode hid, Option.some_inj] at hread
    exact hread.symm
  rw [horder]
  refine mentionOrder_eq_self hg.distinct ?_ fun id name hbefore hafter mentioned hmentioned => ?_
  · rw [← horder, hg.length_names, hagain.length_names, hsize]
  · rw [← horder] at hafter ⊢
    rw [← SymbolTable.name?_eq_getElem?] at hbefore hafter
    have hid : id < g.size := hg.size_symbols ▸ SymbolTable.name?_eq_some_lt hbefore
    obtain ⟨rule, hrule⟩ := exists_rule?_of_lt hid
    obtain ⟨other, hother⟩ := exists_rule?_of_lt (hsize ▸ hid : id < again.size)
    -- The same rule, written with the names before and with the names after.
    have hbodies : other.alternatives = rule.alternatives := by
      rw [← alternatives_of_rule? hother, ← alternatives_of_rule? hrule, halternatives hid]
    have hwritten : again.mentionedIn rule.alternatives = g.mentionedIn rule.alternatives := by
      rw [← hg.mentionedBy_name hrule, name_of_name? hbefore, ← name_of_name? hafter, ← hbodies,
        ← hagain.mentionedBy_name hother, mentionedBy_of_sameStructure hg hagain hsame]
    rw [← name_of_name? hbefore, hg.mentionedBy_name hrule] at hmentioned
    obtain ⟨place, hplace, rfl⟩ := List.mem_map.1 hmentioned
    obtain ⟨body, hbody, hsymbol⟩ := mem_mentioned_iff.1 hplace
    have hlt : place < g.size := (hg.rules hrule).2 body hbody _ hsymbol
    refine ⟨place, ?_, ?_⟩
    · rw [← SymbolTable.name?_eq_getElem?, hg.name?_eq hlt]
    · rw [← SymbolTable.name?_eq_getElem?, hagain.name?_eq (hsize ▸ hlt),
        List.map_inj_left.1 hwritten place hplace]

end SameStructure

/-- A text tells the order of the names. -/
theorem WellFormed.names_of_text (hg : g.WellFormed) (hagain : again.WellFormed)
    (htext : again.text = g.text) : again.symbols.names = g.symbols.names := by
  obtain ⟨tokens, rules, htokens, hspells, hwrites⟩ := hg.exists_spells_text
  obtain ⟨others, rules', hothers, hspells', hwrites'⟩ := hagain.exists_spells_text
  rw [htext, htokens] at hothers
  cases hothers
  have hdefinitions := hspells'.definitions_eq.symm.trans hspells.definitions_eq
  have hnames := congrArg (List.map Prod.fst) hdefinitions
  rw [List.map_map, List.map_map] at hnames
  rw [← Tree.map_name_of_writes hg hwrites, ← Tree.map_name_of_writes hagain hwrites']
  exact hnames

/-- **A grammar that is written and read again** has the same text as before if and only if it has
    the same raw form, and if and only if its rules have the same names in the same order. -/
theorem rereading_changes_together (h : parse source options = .ok g)
    (hparse : parse g.text options.reparse = .ok again) :
    [again.text = g.text, again.encode = g.encode,
      again.namedRules.map (·.1) = g.namedRules.map (·.1)].TFAE := by
  have hsame := sameStructure_of_parse_text h hparse
  have hg := Tree.wellFormed_of_parse h
  have hagain := Tree.wellFormed_of_parse hparse
  rw [hg.map_fst_namedRules, hagain.map_fst_namedRules]
  tfae_have 1 → 3 := hg.names_of_text hagain
  tfae_have 2 → 3 := fun hencode =>
    names_of_encode hg hagain hsame hencode (names_of_parse_text hg hparse)
  tfae_have 3 → 1 := fun hnames => (unchanged_of_names hg hagain hsame hnames).1
  tfae_have 3 → 2 := fun hnames => (unchanged_of_names hg hagain hsame hnames).2
  tfae_finish

/-- The helper of a repetition is mentioned where the repetition stands, in front of what its body
    mentions. -/
theorem rereading_moves_helper_to_front :
    ∃ g again, parse "r ::= b* a\na ::= \"x\"\nb ::= \"y\"\n" = .ok g ∧
      parse g.text ({} : ParseOptions).reparse = .ok again ∧
      again.text ≠ g.text ∧ again.encode ≠ g.encode := by
  obtain ⟨g, hg⟩ : ∃ g, parse "r ::= b* a\na ::= \"x\"\nb ::= \"y\"\n" = .ok g :=
    exists_parse_of_isOk (by decide +kernel)
  have hbefore : (parse "r ::= b* a\na ::= \"x\"\nb ::= \"y\"\n").map
      (·.namedRules.map (·.1)) = .ok ["r", "b", "_r_2", "a"] := by decide +kernel
  have hafter : ((parse "r ::= b* a\na ::= \"x\"\nb ::= \"y\"\n").bind fun g =>
      (parse g.text ({} : ParseOptions).reparse).map (·.namedRules.map (·.1))) =
        .ok ["r", "_r_2", "a", "b"] := by decide +kernel
  rw [hg] at hbefore hafter
  simp only [Except.bind] at hafter
  cases hagain : parse g.text ({} : ParseOptions).reparse with
  | error e => simp [hagain, Except.map] at hafter
  | ok again =>
    rw [hagain] at hafter
    have hnames : again.namedRules.map (·.1) ≠ g.namedRules.map (·.1) := by
      rw [show g.namedRules.map (·.1) = _ from Except.ok.inj hbefore,
        show again.namedRules.map (·.1) = _ from Except.ok.inj hafter]
      decide
    have hiff := rereading_changes_together hg hagain
    exact ⟨g, again, hg, hagain, mt (hiff.out 0 2).1 hnames, mt (hiff.out 1 2).1 hnames⟩

/-! ## Reading again and again -/

/-- **The grammars that are read one after the other**, each from the text of the one before. -/
def reread (g : Grammar) (options : ParseOptions) : (count : Nat) → Except ParseError Grammar
  | 0 => .ok g
  | count + 1 => do parse (← g.reread options count).text options.reparse

/-- What is kept while a grammar is read again and again, and where its names have got to. -/
structure RereadAs (g : Grammar) (options : ParseOptions) (count : Nat) (again : Grammar) :
    Prop where
  reread : g.reread options count = .ok again
  parsed : ∃ source options', parse source options' = .ok again ∧ options'.reparse = options.reparse
  size : byteLength again.text.toList < offsetBound
  mentionedBy : again.mentionedBy = g.mentionedBy
  names : again.symbols.names = (mentionOrder g.mentionedBy)^[count] g.symbols.names

theorem RereadAs.wellFormed {count : Nat} (h : g.RereadAs options count again) :
    again.WellFormed := by
  obtain ⟨_, _, hparse, -⟩ := h.parsed
  exact Tree.wellFormed_of_parse hparse

/-- **One more reading.** -/
theorem RereadAs.succ {count : Nat} (h : g.RereadAs options count again) :
    ∃ next, g.RereadAs options (count + 1) next ∧ again.sameStructure next = true := by
  obtain ⟨source, options', hparse, hoptions⟩ := h.parsed
  obtain ⟨next, hnext, hsame⟩ := exists_reread hparse h.size
  rw [hoptions] at hnext
  have hwell := Tree.wellFormed_of_parse hnext
  refine ⟨next, ⟨?_, ⟨_, _, hnext, rfl⟩, ?_, ?_, ?_⟩, hsame⟩
  · rw [Grammar.reread, h.reread]
    exact hnext
  · rw [byteLength_text_of_sameStructure h.wellFormed hwell hsame]
    exact h.size
  · rw [mentionedBy_of_sameStructure h.wellFormed hwell hsame, h.mentionedBy]
  · rw [names_of_parse_text h.wellFormed hnext, h.mentionedBy, h.names,
      Function.iterate_succ_apply']

theorem exists_rereadAs (h : parse source options = .ok g)
    (hsize : byteLength g.text.toList < offsetBound) (count : Nat) :
    ∃ again, g.RereadAs options count again := by
  induction count with
  | zero => exact ⟨g, rfl, ⟨source, options, h, rfl⟩, hsize, rfl, rfl⟩
  | succ count ih =>
    obtain ⟨again, hagain⟩ := ih
    obtain ⟨next, hnext, -⟩ := hagain.succ
    exact ⟨next, hnext⟩

theorem WellFormed.mem_names_of_mem_mentionedBy (h : g.WellFormed) {name mentioned : String}
    (hname : name ∈ g.symbols.names) (hmentioned : mentioned ∈ g.mentionedBy name) :
    mentioned ∈ g.symbols.names := by
  obtain ⟨id, hid⟩ := SymbolTable.mem_names_iff.1 hname
  obtain ⟨rule, hrule⟩ := exists_rule?_of_lt (h.size_symbols ▸ SymbolTable.name?_eq_some_lt hid)
  rw [← name_of_name? hid, h.mentionedBy_name hrule] at hmentioned
  obtain ⟨place, hplace, rfl⟩ := List.mem_map.1 hmentioned
  obtain ⟨body, hbody, hsymbol⟩ := mem_mentioned_iff.1 hplace
  have hlt : place < g.size := (h.rules hrule).2 body hbody _ hsymbol
  exact SymbolTable.mem_names_iff.2 ⟨place, h.name?_eq hlt⟩

/-- Once there are no more rules than readings, the next reading keeps the order of the names. -/
theorem RereadAs.settled (h : parse source options = .ok g) {count : Nat} {next : Grammar}
    (hagain : g.RereadAs options count again) (hnext : g.RereadAs options (count + 1) next)
    (hcount : g.size ≤ count) : next.symbols.names = again.symbols.names := by
  have hwell := Tree.wellFormed_of_parse h
  have hkept := mentionOrder_iterate_eq hwell.distinct fun name hname mentioned hmentioned =>
    hwell.mem_names_of_mem_mentionedBy hname hmentioned
  have hfixed (more : Nat) : (mentionOrder g.mentionedBy)^[more + g.size] g.symbols.names =
      (mentionOrder g.mentionedBy)^[g.size] g.symbols.names := by
    rw [hwell.length_names] at hkept
    rw [Function.iterate_add_apply, Function.iterate_fixed hkept]
  obtain ⟨more, rfl⟩ := Nat.exists_eq_add_of_le' hcount
  rw [hnext.names, hagain.names, hfixed, Nat.add_right_comm, hfixed]

/-- A text that there are not enough offsets for is not read at all, and so not a second time. -/
theorem reread_of_le (hsize : offsetBound ≤ byteLength g.text.toList) (count : Nat) :
    g.reread options (count + 1) =
      .error ⟨.lexical (.sourceTooLarge (byteLength g.text.toList)), 0⟩ := by
  induction count with
  | zero => exact parse_of_le hsize _
  | succ count ih =>
    rw [reread, ih]
    rfl

/-- **After as many readings as there are rules nothing changes any more**, neither the text nor the
    raw form, if there are offsets for all of the text. A longer text is never read again. -/
theorem rereading_settles (h : parse source options = .ok g) :
    (byteLength g.text.toList < offsetBound →
      ∃ count ≤ g.size, ∃ settled, g.reread options count = .ok settled ∧
        ∀ later ≥ count, ∃ again, g.reread options later = .ok again ∧
          again.text = settled.text ∧ again.encode = settled.encode) ∧
    (offsetBound ≤ byteLength g.text.toList → ∀ count, g.reread options (count + 1) =
      .error ⟨.lexical (.sourceTooLarge (byteLength g.text.toList)), 0⟩) := by
  refine ⟨fun hsize => ?_, reread_of_le⟩
  obtain ⟨settled, hsettled⟩ := exists_rereadAs h hsize g.size
  refine ⟨g.size, Nat.le_refl _, settled, hsettled.reread, fun later hlater => ?_⟩
  suffices hlast : ∃ again, g.RereadAs options later again ∧
      again.text = settled.text ∧ again.encode = settled.encode by
    obtain ⟨again, hagain, hsame⟩ := hlast
    exact ⟨again, hagain.reread, hsame⟩
  induction later, hlater using Nat.le_induction with
  | base => exact ⟨settled, hsettled, rfl, rfl⟩
  | succ later hlater ih =>
    obtain ⟨again, hagain, htext, hencode⟩ := ih
    obtain ⟨next, hnext, hsame⟩ := hagain.succ
    obtain ⟨htext', hencode'⟩ := unchanged_of_names hagain.wellFormed hnext.wellFormed hsame
      (hagain.settled h hnext hlater)
    exact ⟨next, hnext, htext'.trans htext, hencode'.trans hencode⟩

/-- The names of a grammar of five rules come to their places with the second reading. -/
theorem rereading_settles_in_two_steps :
    ∃ g, parse "r ::= (b | \"x\")? a\na ::= \"z\"\nb ::= a\n" = .ok g ∧
      (g.reread {} 1).map (·.text) ≠ (g.reread {} 2).map (·.text) ∧
      ∃ count ≤ g.size, ∃ settled, g.reread {} count = .ok settled ∧
        ∀ later ≥ count, ∃ again, g.reread {} later = .ok again ∧
          again.text = settled.text ∧ again.encode = settled.encode := by
  obtain ⟨g, hg, hsize⟩ := @exists_parse_of_any {} "r ::= (b | \"x\")? a\na ::= \"z\"\nb ::= a\n"
    (fun g => byteLength g.text.toList < offsetBound) (by decide +kernel)
  have hchanges : (parse "r ::= (b | \"x\")? a\na ::= \"z\"\nb ::= a\n").map
      (fun g => decide ((g.reread {} 1).map (·.text) ≠ (g.reread {} 2).map (·.text))) =
        .ok true := by decide +kernel
  rw [hg] at hchanges
  exact ⟨g, hg, of_decide_eq_true (Except.ok.inj hchanges),
    (rereading_settles hg).1 (of_decide_eq_true hsize)⟩

/-- Nothing settles where the text of a grammar is too long to be read a first time. -/
theorem overlong_text_never_settles :
    ∃ g, parse overlongSource { maxRepetition := 1048576 } = .ok g ∧
      ∀ count again, g.reread { maxRepetition := 1048576 } (count + 1) ≠ .ok again := by
  obtain ⟨g, hparse, hsize⟩ := exists_parse_overlongSource
  refine ⟨g, hparse, fun count again hagain => ?_⟩
  rw [reread_of_le hsize] at hagain
  cases hagain

end Grammar

end Bnf
