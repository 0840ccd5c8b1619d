import Bnf.Proofs.Tree.Breaks
import Bnf.Proofs.Tree.InGroup
import Bnf.Proofs.Tree.Places

/-!
# Line breaks inside of parentheses

A line feed is put between two tokens that are inside of parentheses. In front of a token that is no
repetition operator it changes nothing but places. In front of a repetition operator it makes the
text an error, since a line break settles the term that the operator would apply to.

## Main definitions

- `Enclosed` — two neighbours among the tokens that are inside of the same parentheses

## Main results

- `Grammar.newline_in_group` — a line feed inside of parentheses in a text
-/

namespace Bnf

/-- **The place between some tokens is inside of parentheses**: an opening one comes before it, and
    the closing one that matches it comes behind. -/
def Enclosed (before after : List Token) : Prop :=
  ∃ lead opening front back closing tail depth, before = lead ++ opening :: front ∧
    after = back ++ closing :: tail ∧ opening.kind = .openParen ∧ closing.kind = .closeParen ∧
    Nested (front ++ back) depth

theorem Enclosed.openBehind_pos {before after : List Token} (h : Enclosed before after) :
    0 < openBehind 0 before := by
  obtain ⟨lead, opening, front, back, closing, tail, depth, rfl, -, hopening, -, hnested⟩ := h
  rw [openBehind_append, openBehind_cons, Token.openBehind, hopening]
  exact hnested.openBehind_pos _

/-! ## Tokens -/

variable {before after more : List Token} {token : Token}

/-- Line breaks and places have no part in the names that are kept free. -/
theorem ofTokens_break (hadded : BreakAdded before more) (tokens : List Token) (n : Nat) :
    SymbolTable.ofTokens (more ++ tokens.map (Token.shift n)) = .ofTokens (before ++ tokens) := by
  have hline (span : Span) : Token.mention? ⟨.newline, span⟩ = none := rfl
  have hshift (token : Token) :
      ((token.shift n).mention?).map (·.1) = token.mention?.map (·.1) := by
    obtain ⟨kind, span⟩ := token
    cases kind <;> rfl
  have hnames : ((tokens.map (Token.shift n)).filterMap Token.mention?).map (·.1) =
      (tokens.filterMap Token.mention?).map (·.1) := by
    rw [List.filterMap_map, List.map_filterMap, List.map_filterMap]
    exact congrArg (tokens.filterMap ·) (funext hshift)
  rw [Tree.ofTokens_eq_keeping, Tree.ofTokens_eq_keeping]
  obtain ⟨span, rfl⟩ | ⟨init, span, other, rfl, rfl⟩ := hadded.cases
  all_goals simp only [List.filterMap_append, List.filterMap_cons, List.filterMap_nil, hline,
    List.map_append, List.append_nil, hnames]

/-! ## Texts -/

/-- **A line feed between two tokens of a text.** It comes behind the one, and what is left in front
    of the other are blanks and comments by themselves. -/
theorem exists_tokenize_insert {pre gap rest : String}
    (h : tokenize (pre ++ gap ++ rest) = .ok (before ++ token :: after))
    (hbefore : ∀ other ∈ before, other.span.stop ≤ byteLength pre.toList)
    (htoken : token.span.start = byteLength (pre ++ gap).toList)
    (hgap : tokenize gap = .ok [])
    (hsize : byteLength (pre ++ "\n" ++ gap ++ rest).toList < offsetBound) :
    ∃ more, BreakAdded before more ∧ tokenize (pre ++ "\n" ++ gap ++ rest) =
      .ok (more ++ (token :: after).map (Token.shift 1)) := by
  obtain ⟨-, hcuts⟩ := tokenize_eq_ok_iff.1 h
  obtain ⟨-, hblank⟩ := tokenize_eq_ok_iff.1 hgap
  simp only [String.toList_append, List.append_assoc] at hcuts htoken
  obtain ⟨more, hadded, hmore⟩ := hcuts.insert rfl rfl (by simpa using hbefore)
    (by simpa using htoken) hblank
  refine ⟨more, hadded, tokenize_eq_ok_iff.2 ⟨hsize, ?_⟩⟩
  simpa using hmore

namespace Grammar

variable {options : ParseOptions} {pre gap rest : String} {g : Grammar}

/-- A line feed in front of a token that is no repetition operator. -/
theorem exists_parse_break {source other : String}
    (h : parse source options = .ok g) (htokens : tokenize source = .ok (before ++ token :: after))
    (hopen : 0 < openBehind 0 before) (hadded : BreakAdded before more) {n : Nat}
    (htokens' : tokenize other = .ok (more ++ (token :: after).map (Token.shift n)))
    (htoken : token.kind.bounds? = none) :
    ∃ h, parse other options = .ok h ∧ g.SameButPlaces h := by
  obtain ⟨_, hfound, rules, hspells⟩ := Tree.exists_spells_of_parse h
  cases htokens.symm.trans hfound
  obtain ⟨others, hspells', hbare⟩ := hspells.exists_break hopen htoken hadded n
  exact Tree.exists_parse_of_bare htokens hspells htokens' hspells' hbare h

/-- A line feed in front of a repetition operator. -/
theorem parse_break_operator {source other : String} {bounds : Bounds}
    (h : parse source options = .ok g) (htokens : tokenize source = .ok (before ++ token :: after))
    (hopen : 0 < openBehind 0 before) (hadded : BreakAdded before more) {n : Nat}
    (htokens' : tokenize other = .ok (more ++ (token :: after).map (Token.shift n)))
    (htoken : token.kind.bounds? = some bounds) :
    parse other options =
      .error ⟨.grammar (.expectedTerm token.kind.describe), token.span.start + n⟩ := by
  have hnames := ofTokens_break hadded (token :: after) n
  have hdefine : (token :: after).head?.map (·.kind) ≠ some .define := by
    intro hkind
    rw [show token.kind = .define by simpa using hkind] at htoken
    cases htoken
  have hstart : Place.between.Consumed [] := Newlines.nil
  obtain ⟨final, hrun, -, -⟩ := (parse_eq_ok_iff htokens).1 h
  obtain ⟨span, rfl⟩ | ⟨init, span, _, rfl, rfl⟩ := hadded.cases
  · obtain ⟨place, middle, hplace, -, hmore⟩ := Place.exists_place_of_run hstart hdefine hrun
    rw [List.nil_append] at hplace
    rw [hplace.openBehind_eq] at hopen
    have hoperator : (token.shift n).kind.bounds? = some bounds := htoken
    have hrefused := (hmore (⟨.newline, span⟩ :: (token :: after).map (Token.shift n))
      (byteLength other.toList) (by simp)).trans
        (Place.run_newline_operator hopen rfl hoperator _ middle)
    refine parse_eq_error_of_run htokens' (Eq.trans ?_ hrefused)
    rw [hnames, List.append_assoc]
    rfl
  · -- Two line breaks that have become one: the operator was behind a line break all along.
    rw [List.append_assoc, List.singleton_append] at hrun
    obtain ⟨place, middle, hplace, hrest, -⟩ := Place.exists_place_of_run hstart (by simp) hrun
    rw [List.nil_append] at hplace
    have hline : Nested [⟨.newline, span⟩] 0 := .singleton
    rw [Bnf.openBehind_append, (hline _).1, hplace.openBehind_eq] at hopen
    rw [Place.run_newline_operator hopen rfl htoken] at hrest
    cases hrest

/-- **A line feed inside of parentheses.** Let a text have a grammar, and let two neighbours among
    its tokens be inside of parentheses, which may be these tokens. A line feed that is put between
    them, cuts no comment in two and leaves an offset for every byte,

    - changes nothing but places if the second of the tokens is no repetition operator,
    - makes an error if it is one: where a term was expected, the operator is found. -/
theorem newline_in_group (h : parse (pre ++ gap ++ rest) options = .ok g)
    (htokens : tokenize (pre ++ gap ++ rest) = .ok (before ++ token :: after))
    (henclosed : Enclosed before (token :: after))
    (hbefore : ∀ other ∈ before, other.span.stop ≤ byteLength pre.toList)
    (htoken : token.span.start = byteLength (pre ++ gap).toList)
    (hgap : tokenize gap = .ok [])
    (hsize : byteLength (pre ++ "\n" ++ gap ++ rest).toList < offsetBound) :
    (token.kind.bounds? = none →
      ∃ h, parse (pre ++ "\n" ++ gap ++ rest) options = .ok h ∧ g.SameButPlaces h) ∧
    (token.kind.bounds? ≠ none → parse (pre ++ "\n" ++ gap ++ rest) options =
      .error ⟨.grammar (.expectedTerm token.kind.describe), token.span.start + 1⟩) := by
  have hopen := henclosed.openBehind_pos
  obtain ⟨more, hadded, htokens'⟩ := exists_tokenize_insert htokens hbefore htoken hgap hsize
  constructor
  · intro hnone
    exact exists_parse_break h htokens hopen hadded htokens' hnone
  · intro hsome
    obtain ⟨bounds, hbounds⟩ := Option.ne_none_iff_exists'.1 hsome
    exact parse_break_operator h htokens hopen hadded htokens' hbounds

/-- A line feed between two literals in parentheses changes nothing but places, and one in front of
    a star makes an error. -/
theorem newline_in_group_literals :
    (∃ g h, parse ("root ::= (\"a\"" ++ " " ++ "\"b\")") {} = .ok g ∧
      parse ("root ::= (\"a\"" ++ "\n" ++ " " ++ "\"b\")") {} = .ok h ∧ g.SameButPlaces h) ∧
    parse ("root ::= (\"a\"" ++ "\n" ++ "" ++ "*)") {} =
      .error ⟨.grammar (.expectedTerm "'*'"), 14⟩ := by
  let before : List Token := [⟨.name "root", ⟨0, 4⟩⟩, ⟨.define, ⟨5, 8⟩⟩, ⟨.openParen, ⟨9, 10⟩⟩,
    ⟨.literal ['a'], ⟨10, 13⟩⟩]
  constructor
  · obtain ⟨g, hg⟩ : ∃ g, parse ("root ::= (\"a\"" ++ " " ++ "\"b\")") {} = .ok g :=
      exists_parse_of_isOk (by decide +kernel)
    have htokens : tokenize ("root ::= (\"a\"" ++ " " ++ "\"b\")") =
        .ok (before ++ ⟨.literal ['b'], ⟨14, 17⟩⟩ :: [⟨.closeParen, ⟨17, 18⟩⟩]) := by decide +kernel
    have henclosed : Enclosed before [⟨.literal ['b'], ⟨14, 17⟩⟩, ⟨.closeParen, ⟨17, 18⟩⟩] :=
      ⟨[_, _], _, [_], [_], _, [], _, rfl, rfl, rfl, rfl, .append .singleton .singleton⟩
    obtain ⟨hfree, -⟩ := newline_in_group hg htokens henclosed (by decide) (by decide)
      (by decide +kernel) (by decide)
    obtain ⟨h, hh, hsame⟩ := hfree rfl
    exact ⟨g, h, hg, hh, hsame⟩
  · obtain ⟨g, hg⟩ : ∃ g, parse ("root ::= (\"a\"" ++ "" ++ "*)") {} = .ok g :=
      exists_parse_of_isOk (by decide +kernel)
    have htokens : tokenize ("root ::= (\"a\"" ++ "" ++ "*)") =
        .ok (before ++ ⟨.star, ⟨13, 14⟩⟩ :: [⟨.closeParen, ⟨14, 15⟩⟩]) := by decide +kernel
    have henclosed : Enclosed before [⟨.star, ⟨13, 14⟩⟩, ⟨.closeParen, ⟨14, 15⟩⟩] :=
      ⟨[_, _], _, [_], [_], _, [], _, rfl, rfl, rfl, rfl, .append .singleton .singleton⟩
    obtain ⟨-, hrefused⟩ := newline_in_group hg htokens henclosed (by decide) (by decide)
      (by decide +kernel) (by decide)
    exact hrefused nofun

/-- Line feeds are not free everywhere inside of parentheses: none may come in front of a repetition
    operator. -/
theorem newline_refused_before_operator :
    ¬ ∀ (pre gap rest : String) (options : ParseOptions) (g : Grammar) (before after : List Token)
      (token : Token), parse (pre ++ gap ++ rest) options = .ok g →
      tokenize (pre ++ gap ++ rest) = .ok (before ++ token :: after) →
      Enclosed before (token :: after) →
      (∀ other ∈ before, other.span.stop ≤ byteLength pre.toList) →
      token.span.start = byteLength (pre ++ gap).toList → tokenize gap = .ok [] →
      ∃ h, parse (pre ++ "\n" ++ gap ++ rest) options = .ok h ∧ g.SameButPlaces h := by
  intro hclaim
  let before : List Token := [⟨.name "root", ⟨0, 4⟩⟩, ⟨.define, ⟨5, 8⟩⟩, ⟨.openParen, ⟨9, 10⟩⟩,
    ⟨.literal ['a'], ⟨10, 13⟩⟩]
  obtain ⟨g, hg⟩ : ∃ g, parse ("root ::= (\"a\"" ++ "" ++ "*)") {} = .ok g :=
    exists_parse_of_isOk (by decide +kernel)
  have htokens : tokenize ("root ::= (\"a\"" ++ "" ++ "*)") =
      .ok (before ++ ⟨.star, ⟨13, 14⟩⟩ :: [⟨.closeParen, ⟨14, 15⟩⟩]) := by decide +kernel
  have henclosed : Enclosed before [⟨.star, ⟨13, 14⟩⟩, ⟨.closeParen, ⟨14, 15⟩⟩] :=
    ⟨[_, _], _, [_], [_], _, [], _, rfl, rfl, rfl, rfl, .append .singleton .singleton⟩
  obtain ⟨h, hh, -⟩ := hclaim _ _ _ {} g _ _ _ hg htokens henclosed (by decide) (by decide)
    (by decide +kernel)
  have hrefused : (parse ("root ::= (\"a\"" ++ "\n" ++ "" ++ "*)") {}).isOk = false := by
    decide +kernel
  rw [hh] at hrefused
  cases hrefused

end Grammar

end Bnf
