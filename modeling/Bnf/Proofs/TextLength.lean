import Bnf.Proofs.Cutting
import Bnf.Proofs.Tree.Acceptance
import Bnf.Proofs.Tree.Compiled

/-!
# How long the text of a grammar is

The text of a grammar names every rule that an alternative mentions, with a space in front of it.
Copies of a repeated term are written one by one. So a short text may have a grammar whose own text
has more bytes than there are offsets, and is not read any more.

## Main definitions

- `Tree.repeatingTokens`, `Tree.repeatingRules` — a name that is repeated, and its rule
- `overlongSource` — a text whose grammar has too long a text

## Main results

- `Grammar.sum_mentions_le` — a text is at least as long as the names that a rule mentions
- `Tree.exists_parse_repeating` — a name that is repeated is written as often as its count says
- `exists_parse_overlongSource` — there are not enough offsets for every text of a grammar
-/

namespace Bnf

/-! ## Parts of a text -/

/-- A piece is no longer than a text in pieces. -/
theorem byteLength_le_flatMap {α : Type} {f : α → List Char} {xs : List α} {x : α} (h : x ∈ xs) :
    byteLength (f x) ≤ byteLength (xs.flatMap f) := by
  obtain ⟨before, after, rfl⟩ := List.append_of_mem h
  rw [List.flatMap_append, List.flatMap_cons, byteLength_append, byteLength_append]
  omega

/-- The same with separators in between. -/
theorem byteLength_le_intercalate {separator text : List Char} {texts : List (List Char)}
    (h : text ∈ texts) : byteLength text ≤ byteLength (separator.intercalate texts) := by
  induction texts with
  | nil => cases h
  | cons first others ih =>
    cases others with
    | nil =>
      rw [List.mem_singleton.1 h, List.intercalate_singleton]
    | cons second others =>
      rw [List.intercalate_cons_cons, byteLength_append, byteLength_append]
      obtain rfl | hmem := List.mem_cons.1 h
      · omega
      · have := ih hmem
        omega

namespace Grammar

variable {g : Grammar}

/-- A piece takes as many bytes as the names that it mentions, if it mentions any. -/
theorem sum_mentions_piece_le (g : Grammar) (piece : Piece) :
    ((piece.symbols.filterMap Symbol.rule?).map fun id => byteLength (g.name id).toList + 1).sum ≤
      byteLength (' ' :: g.writePiece piece) := by
  cases piece with
  | literal chars =>
    have hnone : (Piece.symbols (.literal chars)).filterMap Symbol.rule? = [] := by
      simp [Piece.symbols, Symbol.rule?]
    rw [hnone]
    exact Nat.zero_le _
  | set s => exact Nat.zero_le _
  | rule id =>
    show byteLength (g.name id).toList + 1 + 0 ≤ 1 + byteLength (g.name id).toList
    omega

/-- **A text is as long as the names that an alternative mentions**, each with a space in front of
    it. -/
theorem sum_mentions_le {id : Nat} {rule : Rule} {body : Body}
    (hrule : g.rule? id = some rule) (hbody : body ∈ rule.alternatives) :
    ((body.filterMap Symbol.rule?).map fun id => byteLength (g.name id).toList + 1).sum ≤
      byteLength g.text.toList := by
  have hpieces (pieces : List Piece) :
      (((pieces.flatMap Piece.symbols).filterMap Symbol.rule?).map
        fun id => byteLength (g.name id).toList + 1).sum ≤
          byteLength (pieces.flatMap fun piece => ' ' :: g.writePiece piece) := by
    induction pieces with
    | nil => exact Nat.le_refl _
    | cons piece pieces ih =>
      rw [List.flatMap_cons, List.filterMap_append, List.map_append, List.sum_append,
        List.flatMap_cons, byteLength_append]
      exact Nat.add_le_add (g.sum_mentions_piece_le piece) ih
  have hnamed : (g.name id, rule) ∈ g.namedRules := mem_namedRules_iff.2 ⟨id, hrule, rfl⟩
  have hbytes := hpieces body.written
  rw [body.symbols_written, ← writeBody_eq] at hbytes
  have hline : byteLength (g.writeBody body) ≤ byteLength (g.writeRule (g.name id) rule) := by
    have hmember := @byteLength_le_intercalate [' ', '|'] _ _
      (List.mem_map_of_mem hbody : g.writeBody body ∈ rule.alternatives.map g.writeBody)
    rw [writeRule, byteLength_append, byteLength_append]
    omega
  have htext := @byteLength_le_flatMap _
    (fun named : String × Rule => g.writeRule named.1 named.2) _ _ hnamed
  rw [text, String.toList_ofList]
  exact Nat.le_trans hbytes (Nat.le_trans hline htext)

end Grammar

/-! ## A name that is repeated -/

namespace Tree

/-- The tokens of two rules: the first one repeats a name, and the second one has this name. -/
def repeatingTokens (name : String) (count : Nat) (span : Nat → Span) : List Token :=
  [⟨.name "root", span 0⟩, ⟨.define, span 1⟩, ⟨.name name, span 2⟩,
    ⟨.counts ⟨count, some count⟩, span 3⟩, ⟨.newline, span 4⟩, ⟨.name name, span 5⟩,
    ⟨.define, span 6⟩, ⟨.literal ['a'], span 7⟩]

def repeatingRules (name : String) (count : Nat) (span : Nat → Span) : List Rule :=
  [⟨"root", span 0, [[.mk (.name name (span 2)) (some ⟨⟨count, some count⟩, span 3⟩)]]⟩,
    ⟨name, span 5, [[.mk (.literal ['a'] (span 7)) none]]⟩]

variable {name source : String} {count : Nat} {span : Nat → Span} {options : ParseOptions}

/-- Its tokens spell two rules. -/
theorem spells_repeating :
    Spells (repeatingRules name count span) (repeatingTokens name count span) := by
  have hroot : RulesSpelled [⟨"root", span 0, [[.mk (.name name (span 2))
      (some ⟨⟨count, some count⟩, span 3⟩)]]⟩]
      ([] ++ (⟨.name "root", span 0⟩ :: ⟨.define, span 1⟩ ::
        ([] ++ ([⟨.name name, span 2⟩] ++ [⟨.counts ⟨count, some count⟩, span 3⟩])))) :=
    .one .nil (.intro rfl .nil (.one (.one (.repeated .name rfl))))
  exact ⟨_, [], .more hroot (.singleton rfl) (List.cons_ne_nil _ _)
    (.intro rfl .nil (.one (.one (.plain .literal)))), .nil, rfl⟩

/-- The first of the rules is compiled to as many copies of the name as the count says. -/
theorem eq_replicate_of_compiled {mentioned : List String} {t : Table} {bodies : List Body}
    (h : AlternationCompiled mentioned t
      [[.mk (.name name (span 2)) (some ⟨⟨count, some count⟩, span 3⟩)]] bodies) :
    ∃ id : Nat, t.symbols.name? id = some name ∧ bodies = [List.replicate count (.rule id)] := by
  cases h with
  | cons hterms hnone =>
    cases hnone
    cases hterms with
    | cons hterm hnone =>
      cases hnone
      cases hterm with
      | bounded hatom hle hchain =>
        cases hatom with
        | @name _ _ id _ hname =>
          rw [Nat.sub_self] at hchain
          cases hchain
          exact ⟨id, hname, by simp⟩

/-- The rules pass all checks if the name is no name of helpers and the count is not above the
    limit. -/
theorem admitted_repeatingRules (hreserved : isReserved name = false)
    (hcount : count ≤ options.maxRepetition.toNat) :
    ∀ rule ∈ repeatingRules name count span, rule.Admitted options := by
  have hroot : isReserved "root" = false := by decide
  rw [repeatingRules, List.forall_mem_cons, List.forall_mem_singleton]
  refine ⟨⟨?_, Nat.zero_le _, ?_⟩, ?_, Nat.zero_le _, ?_⟩
  · simp [Rule.mentions, alternationMentions, sequenceMentions, Term.mentions, Atom.mentions,
      hroot, hreserved]
  · simp [Rule.operations, alternationOperations, sequenceOperations, Term.operations,
      Atom.operations, Atom.isVoid, Bounds.isInverted, Bounds.count, hcount]
  · simp [Rule.mentions, alternationMentions, sequenceMentions, Term.mentions, Atom.mentions,
      hreserved]
  · simp [Rule.operations, alternationOperations, sequenceOperations, Term.operations,
      Atom.operations]

/-- **A name that is repeated is written as often as its count says.** -/
theorem exists_parse_repeating (htokens : tokenize source = .ok (repeatingTokens name count span))
    (hname : name ≠ "root") (hreserved : isReserved name = false)
    (hcount : count ≤ options.maxRepetition.toNat) (hroot : options.root = none)
    (hleft : options.leftRecursion ≠ .reject) :
    ∃ g, Grammar.parse source options = .ok g ∧
      count * (byteLength name.toList + 1) ≤ byteLength g.text.toList := by
  have hdistinct : ((repeatingRules name count span).map (·.name)).Nodup := by
    simp [repeatingRules, hname.symm]
  have hdefined : ∀ mentioned ∈ names (repeatingRules name count span),
      mentioned ∈ (repeatingRules name count span).map (·.name) := by
    simp [repeatingRules, names, Rule.mentions, alternationMentions, sequenceMentions,
      Term.mentions, Atom.mentions]
  have hbounds : ∀ rule ∈ repeatingRules name count span, ∀ operation ∈ rule.operations,
      operation.2.isInverted = false := by
    simp [repeatingRules, Rule.operations, alternationOperations, sequenceOperations,
      Term.operations, Atom.operations, Bounds.isInverted]
  refine ⟨_, (parse_eq_ok_iff htokens spells_repeating).2
    ⟨admitted_repeatingRules hreserved hcount, hdistinct, hdefined, ?_, ?_, rfl⟩, ?_⟩
  · simp [hroot]
  · simp [hleft]
  -- The text is as long as the copies of the name in the rule `root`.
  obtain ⟨id, bodies, -, hid, hcompiled⟩ := table_compiled hbounds hdistinct _ List.mem_cons_self
  obtain ⟨copy, hcopy, rfl⟩ := eq_replicate_of_compiled hcompiled
  have hrule := (@rule?_compile options _ hdistinct hdefined).2 id
  rw [hid] at hrule
  have hlength := Grammar.sum_mentions_le hrule List.mem_cons_self
  have hnamed : (compile options (repeatingRules name count span)).name copy = name :=
    Grammar.name_of_name? hcopy
  simpa [Symbol.rule?, hnamed, List.filterMap_replicate] using hlength

/-- A text that repeats a name. -/
def repeatingSource (name : String) (count : Nat) : String :=
  "root ::= " ++ name ++ "\x7b" ++ String.ofList (decimal count) ++ "\x7d\n" ++ name ++
    " ::= \"a\""

/-- The digits of a count are read up to a character that is none. -/
theorem readCount?_decimal (hcount : count ≤ maxCount) {rest : List Char}
    (hrest : ∀ c ∈ rest.head?, c.isDigit = false) (offset : Nat) :
    readCount? (locate offset (decimal count ++ rest)) =
      some (count, locate (offset + byteLength (decimal count)) rest) := by
  obtain ⟨d, digits, hdigits, -⟩ := exists_digit_cons count
  obtain ⟨htaken, hleft⟩ := @locate_span Char.isDigit (decimal count) rest
    (fun _ hc => isDigit_of_mem_decimal hc) hrest offset
  rw [readCount?, htaken, hleft, map_snd_locate, decimalValue_decimal, if_neg]
  simp [hdigits, hcount]

/-- Digits are no blanks, so none are passed over. -/
theorem skipBlanks_decimal (offset count : Nat) (rest : List Char) :
    skipBlanks (locate offset (decimal count ++ rest)) = locate offset (decimal count ++ rest) := by
  obtain ⟨d, digits, hdigits, hd⟩ := exists_digit_cons count
  have hother {c : Char} (hc : c.isDigit = false) : d ≠ c := by
    rintro rfl
    cases hc.symm.trans hd
  have hblank : isBlank d = false := by
    simp [isBlank, @hother ' ' rfl, @hother '\t' rfl]
  rw [hdigits, List.cons_append, locate]
  exact List.dropWhile_cons_of_neg (by simp [hblank])

/-- An opening brace is read with the bounds behind it. -/
theorem readToken_brace {start : Nat} {cs left : List Located} {bounds : Bounds}
    (h : readBounds? cs = some (bounds, left)) :
    readToken start '\x7b' cs = .ok (.counts bounds, left) := by
  simp only [readToken, h]

/-- A count between braces is read back. -/
theorem readsAs_counts (hcount : count ≤ maxCount) (rest : List Char) :
    ReadsAs ('\x7b' :: (decimal count ++ ['\x7d'])) (.counts ⟨count, some count⟩) rest := by
  refine ⟨'\x7b', decimal count ++ ['\x7d'], rfl, rfl, by decide, fun offset => ?_⟩
  have hbounds : readBounds? (locate (offset + 1) (decimal count ++ ('\x7d' :: rest))) =
      some (⟨count, some count⟩,
        locate (offset + 1 + byteLength (decimal count) + 1) rest) := by
    rw [readBounds?, skipBlanks_decimal, readCount?_decimal hcount (by simp)]
    rfl
  have hlength : offset + byteLength ('\x7b' :: (decimal count ++ ['\x7d'])) =
      offset + 1 + byteLength (decimal count) + 1 := by
    rw [byteLength, byteLength_append]
    show offset + (1 + (byteLength (decimal count) + 1)) = _
    omega
  rw [List.append_assoc, List.singleton_append, hlength]
  exact readToken_brace hbounds

/-- They are the tokens of the text. -/
theorem exists_tokenize_repeating (hname : IsName name) (hcount : count ≤ maxCount)
    (hsize : byteLength (repeatingSource name count).toList < offsetBound) :
    ∃ span, tokenize (repeatingSource name count) = .ok (repeatingTokens name count span) := by
  have hroot : IsName "root" :=
    ⟨by decide, List.all_eq_true.1 (by decide)⟩
  have htext : (repeatingSource name count).toList = "root".toList ++ (' ' :: ([':', ':', '='] ++
      (' ' :: (name.toList ++ (('\x7b' :: (decimal count ++ ['\x7d'])) ++ (['\n'] ++ (name.toList ++
        (' ' :: ([':', ':', '='] ++ (' ' :: (writeLiteral ['a'] ++ []))))))))))) := by
    have ha : writeLiteral ['a'] = ['"', 'a', '"'] := by decide
    simp [repeatingSource, String.toList_append, ha]
  exact ⟨(fun spans place => spans.getD place (.point 0)) [_, _, _, _, _, _, _, _],
    tokenize_eq_ok_iff.2 ⟨hsize, by
      rw [htext]
      refine .token (readsAs_name hroot (endsName_cons rfl _)) (.blank rfl ?_)
      refine .token (readsAs_define _) (.blank rfl ?_)
      refine .token (readsAs_name hname (endsName_cons rfl _)) ?_
      refine .token (readsAs_counts hcount _) (.token (readsAs_newline _) ?_)
      refine .token (readsAs_name hname (endsName_cons rfl _)) (.blank rfl ?_)
      refine .token (readsAs_define _) (.blank rfl ?_)
      exact .token (readsAs_writeLiteral _ _) .nil⟩⟩

/-- The text is short: its name stands there twice. -/
theorem byteLength_repeatingSource (name : String) (count : Nat) :
    byteLength (repeatingSource name count).toList =
      2 * byteLength name.toList + byteLength (decimal count) + 20 := by
  have hparts : byteLength "root ::= ".toList = 9 ∧ byteLength "\x7b".toList = 1 ∧
      byteLength "\x7d\n".toList = 2 ∧ byteLength " ::= \"a\"".toList = 8 := by decide
  simp only [repeatingSource, String.toList_append, String.toList_ofList, byteLength_append]
  omega

end Tree

/-! ## Too long a text -/

/-- A name of as many letters as one likes. -/
def longName (letters : Nat) : String :=
  String.ofList (List.replicate letters 'x')

theorem byteLength_longName (letters : Nat) : byteLength (longName letters).toList = letters := by
  rw [longName, String.toList_ofList, byteLength_replicate, show Char.utf8Size 'x' = 1 from rfl,
    Nat.mul_one]

/-- **A text with a long name that is repeated** has a grammar, whose text is as long as one
    likes. -/
theorem exists_parse_longName {letters count : Nat} {options : ParseOptions}
    (hletters : letters ≠ 0)
    (hsize : 2 * letters + byteLength (decimal count) + 20 < offsetBound)
    (hcount : count ≤ options.maxRepetition.toNat) (hroot : options.root = none)
    (hleft : options.leftRecursion ≠ .reject) :
    ∃ g, Grammar.parse (Tree.repeatingSource (longName letters) count) options = .ok g ∧
      count * (letters + 1) ≤ byteLength g.text.toList := by
  have hchars : ∀ c ∈ (longName letters).toList, c = 'x' := by
    rw [longName, String.toList_ofList]
    exact fun c hc => List.eq_of_mem_replicate hc
  have hname : IsName (longName letters) := by
    refine ⟨?_, fun c hc => hchars c hc ▸ rfl⟩
    rw [longName, String.toList_ofList]
    exact List.ne_nil_of_length_pos (by rw [List.length_replicate]; omega)
  have hother : longName letters ≠ "root" := by
    intro hsame
    have hr := hchars 'r' (hsame ▸ by decide)
    exact absurd hr (by decide)
  have hreserved : isReserved (longName letters) = false := by
    refine decide_eq_false fun hhead => ?_
    exact absurd (hchars '_' (List.mem_of_head? hhead)) (by decide)
  rw [← byteLength_longName letters, ← Tree.byteLength_repeatingSource] at hsize
  obtain ⟨span, htokens⟩ := Tree.exists_tokenize_repeating hname
    (Nat.le_trans hcount (Nat.le_of_lt_succ options.maxRepetition.toNat_lt)) hsize
  obtain ⟨g, hparse, hlength⟩ :=
    Tree.exists_parse_repeating htokens hother hreserved hcount hroot hleft
  rw [byteLength_longName] at hlength
  exact ⟨g, hparse, hlength⟩

/-- A text of some eight thousand bytes whose grammar has a text that there are not enough offsets
    for. -/
def overlongSource : String :=
  Tree.repeatingSource (longName 4095) 1048576

theorem exists_parse_overlongSource :
    ∃ g, Grammar.parse overlongSource { maxRepetition := 1048576 } = .ok g ∧
      offsetBound ≤ byteLength g.text.toList :=
  @exists_parse_longName 4095 1048576 { maxRepetition := 1048576 } (by decide) (by decide +kernel)
    (by decide) rfl (by decide)

end Bnf
