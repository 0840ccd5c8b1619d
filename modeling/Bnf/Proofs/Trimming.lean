import Bnf.CommandLine
import Bnf.Proofs.Dump
import Bnf.Proofs.Tree.Printing

/-!
# No white space at the end

Each written form of a grammar ends in a character that can be seen, but for one line break behind
it: a text ends in a name or in a quote, a bracket or a dot, a dump in a bracket, and a JSON form in
a brace. So nothing is lost if the white space at the end is taken off and one line break is put
back.

## Main definitions

- `EndsVisibly` — the last character of a text is no white space

## Main results

- `trimEnd_of_endsVisibly` — a text that ends visibly has nothing to take off
- `Grammar.WellFormed.trimEnd_text`, `Grammar.WellFormed.trimEnd_flatText` — a text and a dump have
  one line break to take off
- `Json.trimEnd_pretty_record` — an object has nothing to take off
-/

namespace Bnf

/-- The last character of a text is no white space. -/
def EndsVisibly (text : List Char) : Prop :=
  ∃ front c, text = front ++ [c] ∧ isWhiteSpace c = false

section

variable {α : Type} {text : List Char}

theorem endsVisibly_concat (front : List Char) {c : Char} (h : isWhiteSpace c = false) :
    EndsVisibly (front ++ [c]) :=
  ⟨front, c, rfl, h⟩

/-- Only the end of a text is looked at. -/
theorem EndsVisibly.append_left (h : EndsVisibly text) (front : List Char) :
    EndsVisibly (front ++ text) := by
  obtain ⟨more, c, rfl, hc⟩ := h
  rw [← List.append_assoc]
  exact endsVisibly_concat _ hc

theorem EndsVisibly.of_mem (hne : text ≠ []) (h : ∀ c ∈ text, isWhiteSpace c = false) :
    EndsVisibly text :=
  ⟨text.dropLast, text.getLast hne, (List.dropLast_append_getLast hne).symm,
    h _ (List.getLast_mem hne)⟩

/-- A text in pieces ends as its last piece does. -/
theorem endsVisibly_flatMap {write : α → List Char} {xs : List α} (hne : xs ≠ [])
    (h : ∀ x ∈ xs, EndsVisibly (write x)) : EndsVisibly (xs.flatMap write) := by
  rw [← List.dropLast_append_getLast hne, List.flatMap_append, List.flatMap_singleton]
  exact (h _ (List.getLast_mem hne)).append_left _

/-- The same with separators in between. -/
theorem endsVisibly_intercalate {separator : List Char} {texts : List (List Char)}
    (hne : texts ≠ []) (h : ∀ text ∈ texts, EndsVisibly text) :
    EndsVisibly (separator.intercalate texts) := by
  induction texts using List.reverseRecOn with
  | nil => exact absurd rfl hne
  | append_singleton texts last ih =>
    have hlast : EndsVisibly last := h last (by simp)
    by_cases hfirst : texts = []
    · rwa [hfirst, List.nil_append, List.intercalate_singleton]
    · rw [intercalate_concat hfirst]
      exact (hlast.append_left _).append_left _

/-- Lines each of which ends visibly, with a line break behind each. -/
theorem exists_lines_eq (line : α → List Char) {xs : List α} (hne : xs ≠ [])
    (h : ∀ x ∈ xs, EndsVisibly (line x)) :
    ∃ text, EndsVisibly text ∧ xs.flatMap (fun x => line x ++ ['\n']) = text ++ ['\n'] := by
  rw [← List.dropLast_append_getLast hne, List.flatMap_append, List.flatMap_singleton,
    ← List.append_assoc]
  exact ⟨_, (h _ (List.getLast_mem hne)).append_left _, rfl⟩

/-- **A text that ends visibly is left** when white space is taken off, and of white space behind it
    nothing is. -/
theorem trimEnd_of_endsVisibly (h : EndsVisibly text) (blanks : List Char)
    (hblanks : ∀ c ∈ blanks, isWhiteSpace c = true) :
    trimEnd (String.ofList (text ++ blanks)) = String.ofList text := by
  obtain ⟨front, c, rfl, hc⟩ := h
  have hreverse : ∀ c ∈ blanks.reverse, isWhiteSpace c = true := fun c hmem =>
    hblanks c (List.mem_reverse.1 hmem)
  rw [trimEnd, String.toList_ofList, List.reverse_append, List.dropWhile_append_of_pos hreverse,
    List.reverse_append, List.reverse_singleton, List.singleton_append,
    List.dropWhile_cons_of_neg (by simp [hc]), List.reverse_cons, List.reverse_reverse]

/-- **A line is given back by trimming**, if it ends visibly: the line break is taken off and put
    there again. -/
theorem trimEnd_line (h : EndsVisibly text) :
    trimEnd (String.ofList (text ++ ['\n'])) ++ "\n" = String.ofList (text ++ ['\n']) := by
  have hbreak : ∀ c ∈ ['\n'], isWhiteSpace c = true := List.forall_mem_singleton.2 (by decide)
  rw [trimEnd_of_endsVisibly h ['\n'] hbreak, String.ofList_append]

end

/-! ## Names and terminals -/

/-- No name has white space in it. -/
theorem isWhiteSpace_of_isNameChar {c : Char} (h : isNameChar c = true) :
    isWhiteSpace c = false := by
  have halpha : c.isAlpha =
      (decide (65 ≤ c.val ∧ c.val ≤ 90) || (97 ≤ c.val && c.val ≤ 122)) := rfl
  have hsigns : ((65 ≤ c.toNat ∧ c.toNat ≤ 90 ∨ 97 ≤ c.toNat ∧ c.toNat ≤ 122) ∨
      48 ≤ c.toNat ∧ c.toNat ≤ 57) ∨ c = '_' ∨ c = '-' := by
    simpa [isNameChar, Char.isAlphanum, halpha, Char.isDigit, UInt32.le_iff_toNat_le, or_assoc]
      using h
  have hbetween : 0x2D ≤ c.toNat ∧ c.toNat < 0x80 := by
    obtain hsigns | rfl | rfl := hsigns
    · omega
    · decide
    · decide
  -- White space is below the hyphen or above all of ASCII.
  have hranges : ∀ range ∈ whiteSpaceRanges, range.2 < 0x2D ∨ 0x80 ≤ range.1 := by decide
  rw [isWhiteSpace, List.any_eq_false]
  intro range hrange hinside
  have := hranges range hrange
  simp only [Bool.and_eq_true, decide_eq_true_eq] at hinside
  omega

theorem IsName.endsVisibly {name : String} (h : IsName name) : EndsVisibly name.toList :=
  .of_mem h.1 fun c hc => isWhiteSpace_of_isNameChar (h.2 c hc)

theorem endsVisibly_writeLiteral (chars : List Char) : EndsVisibly (writeLiteral chars) :=
  endsVisibly_concat _ (by decide)

theorem endsVisibly_writeSet (s : CharSet) : EndsVisibly (writeSet s) := by
  rw [writeSet]
  split
  · exact endsVisibly_concat [] (by decide)
  · exact endsVisibly_concat _ (by decide)

/-! ## Grammars -/

namespace Grammar.WellFormed

variable {g : Grammar}

/-- A piece ends with a quote, a bracket, a point or a name. -/
theorem endsVisibly_writePiece (h : g.WellFormed) {piece : Piece}
    (hfits : Body.Fits g.size piece.symbols) : EndsVisibly (g.writePiece piece) := by
  cases piece with
  | literal chars => exact endsVisibly_writeLiteral chars
  | set s => exact endsVisibly_writeSet s
  | rule id =>
    have hid : id < g.size := hfits _ List.mem_cons_self
    exact (h.isName hid).endsVisibly

/-- So does an alternative. -/
theorem endsVisibly_writeBody (h : g.WellFormed) {body : Body} (hfits : body.Fits g.size) :
    EndsVisibly (g.writeBody body) := by
  rw [writeBody_eq]
  refine endsVisibly_flatMap body.written_ne_nil fun piece hpiece => ?_
  refine (h.endsVisibly_writePiece fun symbol hsymbol => ?_).append_left [' ']
  rw [← body.symbols_written] at hfits
  exact hfits symbol (List.mem_flatMap.2 ⟨piece, hpiece, hsymbol⟩)

/-- **The text of a grammar** has nothing but its line break to take off. -/
theorem trimEnd_text (h : g.WellFormed) : trimEnd g.text ++ "\n" = g.text := by
  have hne : g.namedRules ≠ [] := by
    obtain ⟨rule, hrule⟩ := exists_rule?_of_lt h.root
    exact List.ne_nil_of_mem (mem_namedRules_iff.2 ⟨g.root, hrule, rfl⟩ : (_, rule) ∈ _)
  have hlines : ∀ named ∈ g.namedRules, EndsVisibly (named.1.toList ++ [' ', ':', ':', '='] ++
      [' ', '|'].intercalate (named.2.alternatives.map g.writeBody)) := by
    intro named hnamed
    obtain ⟨id, hrule, -⟩ := mem_namedRules_iff.1 hnamed
    obtain ⟨halternatives, hbodies⟩ := h.rules hrule
    refine EndsVisibly.append_left (endsVisibly_intercalate ?_ fun text htext => ?_) _
    · simpa using halternatives
    · obtain ⟨body, hbody, rfl⟩ := List.mem_map.1 htext
      exact h.endsVisibly_writeBody (hbodies body hbody)
  obtain ⟨text, htext, heq⟩ := exists_lines_eq _ hne hlines
  have htoList : g.text = String.ofList (text ++ ['\n']) := by
    rw [Grammar.text, ← heq]
    rfl
  rw [htoList, trimEnd_line htext]

/-- **The dump of a grammar** has nothing but its last line break to take off. -/
theorem trimEnd_flatText (h : g.WellFormed) : trimEnd g.flatText ++ "\n" = g.flatText := by
  have hne : g.encode.rules.mapIdx (RawElement.line g.name) ≠ [] := by
    have hsize : 0 < g.encode.rules.length := by
      rw [← RawTable.size, g.size_encode]
      exact Nat.zero_lt_of_lt h.root
    simpa using List.ne_nil_of_length_pos hsize
  have hlines : ∀ line ∈ g.encode.rules.mapIdx (RawElement.line g.name), EndsVisibly line := by
    intro line hline
    obtain ⟨id, hid, rfl⟩ := List.mem_mapIdx.1 hline
    rw [RawElement.line]
    by_cases hnil : g.encode.rules[id] = []
    · rw [hnil, List.flatMap_nil, List.append_nil]
      exact (endsVisibly_concat [' ', ':', ':'] (by decide)).append_left _
    · exact (endsVisibly_flatMap hnil fun raw _ => endsVisibly_concat _ (by decide)).append_left _
  obtain ⟨text, htext, heq⟩ := exists_lines_eq id hne hlines
  have htoList : g.flatText = String.ofList (text ++ ['\n']) := by
    rw [← String.ofList_toList (s := g.flatText), toList_flatText, ← heq]
    rfl
  rw [htoList, trimEnd_line htext]

end Grammar.WellFormed

/-! ## JSON -/

/-- **The indented form of an object** has nothing to take off. -/
theorem Json.trimEnd_pretty_record (fields : List (String × Json)) :
    trimEnd (Json.record fields).pretty = (Json.record fields).pretty := by
  have hvisible : EndsVisibly (Json.prettyChars 0 (.record fields)) := by
    cases fields with
    | nil => exact endsVisibly_concat ['\x7b'] (by decide)
    | cons field fields => exact endsVisibly_concat _ (by decide)
  have htrim := trimEnd_of_endsVisibly hvisible [] (by simp)
  rwa [List.append_nil] at htrim

end Bnf
