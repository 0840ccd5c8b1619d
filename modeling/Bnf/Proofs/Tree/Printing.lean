import Mathlib.Data.List.Forall2
import Mathlib.Data.List.Induction
import Bnf.Grammar.Print
import Bnf.Proofs.Tree
import Bnf.Proofs.WellFormed

/-!
# The text of a grammar

A grammar is written as rules without groups and operators. The text of a grammar is read as tokens
that spell these rules: each token is read back in front of what is written behind it, and a name
ends because a space or a line break follows.

## Main definitions

- `Lexes` — a text is read as good tokens, whatever is read behind it
- `Grammar.Writes`, `Grammar.WritesRule` — the terms and the rules that are written

## Main results

- `Tree.exists_spells_text` — the text of a well formed grammar spells its rules
-/

namespace Bnf

/-! ## Reading text after text -/

/-- A text in front of `rest` is read as some good tokens. -/
def Lexes (text : List Char) (good : List Token → Prop) (rest : List Char) : Prop :=
  ∀ stop offset, ∃ tokens, good tokens ∧ readTokens stop (locate offset (text ++ rest)) =
    (readTokens stop (locate (offset + byteLength text) rest)).map (tokens ++ ·)

section

variable {text other rest : List Char} {good better best : List Token → Prop}

/-- A text that reads as one token is read so. -/
theorem ReadsAs.lexes {kind : TokenKind} (h : ReadsAs text kind rest)
    (hgood : ∀ span, good [⟨kind, span⟩]) : Lexes text good rest := by
  intro stop offset
  obtain ⟨first, more, rfl, hblank, hcomment, hread⟩ := h
  refine ⟨_, hgood ⟨offset, offsetOf stop (locate (offset + byteLength (first :: more)) rest)⟩, ?_⟩
  have hread := hread offset
  rw [List.cons_append, locate, readTokens, if_neg (by simp [hblank]), if_neg hcomment]
  split
  · next e herror => simp [herror] at hread
  · next kind' left hfound =>
    cases hfound.symm.trans hread
    rfl

/-- A blank in front is passed over. -/
theorem Lexes.blank (h : Lexes text good rest) : Lexes (' ' :: text) good rest := by
  intro stop offset
  obtain ⟨tokens, hgood, htokens⟩ := h stop (offset + Char.utf8Size ' ')
  have hblank : isBlank ' ' = true := rfl
  refine ⟨tokens, hgood, ?_⟩
  rw [List.cons_append, locate, readTokens, if_pos hblank, htokens, byteLength, Nat.add_assoc]

theorem Lexes.mono (h : Lexes text good rest) (hbetter : ∀ {tokens}, good tokens → better tokens) :
    Lexes text better rest := by
  intro stop offset
  obtain ⟨tokens, hgood, htokens⟩ := h stop offset
  exact ⟨tokens, hbetter hgood, htokens⟩

/-- Two texts are read one after the other. -/
theorem Lexes.append (h : Lexes text good (other ++ rest)) (h' : Lexes other better rest)
    (hbest : ∀ {xs ys}, good xs → better ys → best (xs ++ ys)) :
    Lexes (text ++ other) best rest := by
  intro stop offset
  obtain ⟨xs, hxs, htext⟩ := h stop offset
  obtain ⟨ys, hys, hother⟩ := h' stop (offset + byteLength text)
  refine ⟨xs ++ ys, hbest hxs hys, ?_⟩
  rw [List.append_assoc, htext, hother, byteLength_append, Nat.add_assoc]
  cases readTokens stop (locate (offset + (byteLength text + byteLength other)) rest) with
  | error e => rfl
  | ok tokens => simp [Except.map]

/-- A token in front of a text joins what the text is read as. -/
theorem ReadsAs.append {kind : TokenKind} (h : ReadsAs text kind (other ++ rest))
    (h' : Lexes other good rest) (hbetter : ∀ span {tokens}, good tokens →
      better (⟨kind, span⟩ :: tokens)) : Lexes (text ++ other) better rest := by
  have hfirst : Lexes text (fun tokens => ∃ span, tokens = [⟨kind, span⟩]) (other ++ rest) :=
    h.lexes fun span => ⟨span, rfl⟩
  refine hfirst.append h' ?_
  rintro _ tokens ⟨span, rfl⟩ hgood
  exact hbetter span hgood

/-- A text that is read up to its end. -/
theorem Lexes.readTokens (h : Lexes text good []) : ∃ tokens, good tokens ∧
    Bnf.readTokens (byteLength text) (locate 0 text) = .ok tokens := by
  obtain ⟨tokens, hgood, htokens⟩ := h (byteLength text) 0
  refine ⟨tokens, hgood, ?_⟩
  rw [List.append_nil, locate, Bnf.readTokens] at htokens
  rw [htokens]
  simp [Except.map]

end

/-- A name in front of this text ends where the text starts. -/
def EndsName (rest : List Char) : Prop :=
  ∀ c, rest.head? = some c → isNameChar c = false

/-- A name ends at any character that no name has. -/
theorem endsName_cons {c : Char} (h : isNameChar c = false) (rest : List Char) :
    EndsName (c :: rest) := by
  rintro _ ⟨⟩
  exact h

/-- The last of several lists is behind a separator. -/
theorem intercalate_concat {α : Type} {separator : List α} {lists : List (List α)} (h : lists ≠ [])
    (last : List α) : separator.intercalate (lists ++ [last]) =
      separator.intercalate lists ++ (separator ++ last) := by
  induction lists with
  | nil => exact absurd rfl h
  | cons first lists ih =>
    by_cases hlast : lists = []
    · simp [hlast]
    · rw [List.cons_append, List.intercalate_cons_of_ne_nil (by simp), ih hlast,
        List.intercalate_cons_of_ne_nil hlast]
      simp only [List.append_assoc]

/-! ## Pieces -/

/-- The symbols that a piece stands for. -/
def Piece.symbols : Piece → Body
  | .literal chars => chars.map fun c => .chars (.single c)
  | .set chars => [.chars chars]
  | .rule id => [.rule id]

/-- The pieces that are written for an alternative. -/
def Body.written (body : Body) : List Piece :=
  if body.isEmpty then [.literal []] else Body.pieces body

/-- A set that is written as a character is the set of this character. -/
theorem CharSet.eq_single {s : CharSet} {c : Char} (h : s.single? = some c) : s = .single c := by
  obtain ⟨negated, ranges⟩ := s
  rw [CharSet.single?] at h
  split at h
  · next r hnegated hranges =>
    obtain ⟨start, stop⟩ := r
    split at h
    · next hsingle =>
      have hends : start = stop := by simpa [CharRange.isSingle] using hsingle
      cases h
      simp only at hnegated hranges
      rw [hnegated, hranges, CharSet.single, CharRange.single, hends]
    · simp at h
  · simp at h

theorem Piece.symbols_prepend (c : Char) (pieces : List Piece) :
    (Piece.prepend c pieces).flatMap symbols =
      .chars (.single c) :: pieces.flatMap symbols := by
  unfold Piece.prepend
  split <;> rfl

/-- **The pieces of an alternative stand for its symbols.** -/
theorem Body.symbols_pieces (body : Body) : (Body.pieces body).flatMap Piece.symbols = body := by
  induction body with
  | nil => rfl
  | cons symbol rest ih =>
    rw [Body.pieces]
    cases hsingle : symbol.single? with
    | none =>
      show (symbol.piece :: Body.pieces rest).flatMap Piece.symbols = _
      rw [List.flatMap_cons, ih]
      cases symbol <;> rfl
    | some c =>
      show (Piece.prepend c (Body.pieces rest)).flatMap Piece.symbols = _
      rw [Piece.symbols_prepend, ih]
      cases symbol with
      | rule id => simp [Symbol.single?] at hsingle
      | chars s => rw [CharSet.eq_single hsingle]

/-- **The pieces of an alternative have its symbols**, in their order. The empty alternative is
    written as an empty literal. -/
theorem Body.symbols_written (body : Body) : body.written.flatMap Piece.symbols = body := by
  rw [Body.written]
  split
  · next hempty =>
    -- An alternative without symbols is written as the empty literal, which has none either.
    rw [List.isEmpty_iff.1 hempty]
    rfl
  · exact Body.symbols_pieces body

/-- So there is always something to write. -/
theorem Body.written_ne_nil (body : Body) : body.written ≠ [] := by
  rw [Body.written]
  split
  · simp
  · next hne =>
    intro hnil
    have hsymbols := Body.symbols_pieces body
    rw [hnil] at hsymbols
    exact hne (List.isEmpty_iff.2 hsymbols.symm)

namespace Grammar

variable {g : Grammar} {rest : List Char}

/-- An alternative is written piece by piece, with a blank in front of each. -/
theorem writeBody_eq (g : Grammar) (body : Body) :
    g.writeBody body = body.written.flatMap fun piece => ' ' :: g.writePiece piece := by
  rw [writeBody, Body.written]
  split <;> rfl

/-- The atom that a piece is written as. -/
def atom (g : Grammar) : Piece → Span → Tree.Atom
  | .literal chars, span => .literal chars span
  | .set chars, span => if chars.isAny then .any span else .set chars span
  | .rule id, span => .name (g.name id) span

/-- The terms that an alternative is written as, each without an operator. -/
def Writes (g : Grammar) (body : Body) (terms : List Tree.Term) : Prop :=
  List.Forall₂ (fun piece term => ∃ span, term = .mk (g.atom piece span) none) body.written terms

/-- The rule that a rule is written as. -/
def WritesRule (g : Grammar) (named : String × Rule) (rule : Tree.Rule) : Prop :=
  rule.name = named.1 ∧ List.Forall₂ g.Writes named.2.alternatives rule.alternatives

namespace WellFormed

/-- A piece is read as the atom that it was written for, if no name goes on behind it. -/
theorem lexes_piece (h : g.WellFormed) {piece : Piece} (hfits : Body.Fits g.size piece.symbols)
    (hrest : EndsName rest) :
    Lexes (g.writePiece piece) (fun tokens => ∃ span, (g.atom piece span).Spelled tokens) rest := by
  cases piece with
  | literal chars => exact (readsAs_writeLiteral chars rest).lexes fun span => ⟨span, .literal⟩
  | set s =>
    have hvalid : s.Valid := hfits _ List.mem_cons_self
    refine (readsAs_writeSet hvalid rest).lexes fun span => ⟨span, ?_⟩
    by_cases hany : s.isAny = true
    · rw [atom, CharSet.token, if_pos hany, if_pos hany]
      exact .any
    · rw [atom, CharSet.token, if_neg hany, if_neg hany]
      exact .set
  | rule id =>
    have hid : id < g.size := hfits _ List.mem_cons_self
    exact (readsAs_name (h.isName hid) hrest).lexes fun span => ⟨span, .name⟩

/-- So are pieces, one term each. -/
theorem lexes_pieces (h : g.WellFormed) {pieces : List Piece} (hne : pieces ≠ [])
    (hfits : ∀ piece ∈ pieces, Body.Fits g.size piece.symbols) (hrest : EndsName rest) :
    Lexes (pieces.flatMap fun piece => ' ' :: g.writePiece piece) (fun tokens => ∃ terms,
      List.Forall₂ (fun piece term => ∃ span, term = .mk (g.atom piece span) none) pieces terms ∧
        Tree.SequenceSpelled false terms tokens) rest := by
  -- A sequence is spelled term by term, the last one last.
  induction pieces using List.reverseRecOn generalizing rest with
  | nil => exact absurd rfl hne
  | append_singleton pieces piece ih =>
    rw [List.forall_mem_append, List.forall_mem_singleton] at hfits
    rw [List.flatMap_append, List.flatMap_singleton]
    have hlast := (h.lexes_piece hfits.2 hrest).blank
    by_cases hfirst : pieces = []
    · rw [hfirst]
      refine hlast.mono fun ⟨span, hpiece⟩ => ?_
      exact ⟨[_], .cons ⟨span, rfl⟩ .nil, .one (.plain hpiece)⟩
    · refine (ih hfirst hfits.1 (endsName_cons rfl _)).append hlast ?_
      rintro xs ys ⟨terms, hterms, hspelled⟩ ⟨span, hpiece⟩
      refine ⟨terms ++ [_], List.rel_append hterms (.cons ⟨span, rfl⟩ .nil), ?_⟩
      exact .more hspelled .nil (fun _ => rfl) (.plain hpiece)

/-- **An alternative is read as terms that write it.** -/
theorem lexes_body (h : g.WellFormed) {body : Body} (hfits : body.Fits g.size)
    (hrest : EndsName rest) :
    Lexes (g.writeBody body)
      (fun tokens => ∃ terms, g.Writes body terms ∧ Tree.SequenceSpelled false terms tokens)
      rest := by
  rw [writeBody_eq]
  refine h.lexes_pieces body.written_ne_nil (fun piece hpiece symbol hsymbol => ?_) hrest
  rw [← body.symbols_written] at hfits
  exact hfits symbol (List.mem_flatMap.2 ⟨piece, hpiece, hsymbol⟩)

/-- So are alternatives, with bars in between. -/
theorem lexes_alternatives (h : g.WellFormed) {bodies : List Body} (hne : bodies ≠ [])
    (hfits : ∀ body ∈ bodies, body.Fits g.size) (hrest : EndsName rest) :
    Lexes ([' ', '|'].intercalate (bodies.map g.writeBody)) (fun tokens => ∃ alternatives,
      List.Forall₂ g.Writes bodies alternatives ∧
        Tree.AlternationSpelled false alternatives tokens) rest := by
  induction bodies using List.reverseRecOn generalizing rest with
  | nil => exact absurd rfl hne
  | append_singleton bodies body ih =>
    rw [List.forall_mem_append, List.forall_mem_singleton] at hfits
    have hlast := h.lexes_body hfits.2 hrest
    by_cases hfirst : bodies = []
    · rw [hfirst, List.nil_append, List.map_singleton, List.intercalate_singleton]
      refine hlast.mono fun ⟨terms, hterms, hspelled⟩ => ?_
      exact ⟨[terms], .cons hterms .nil, .one hspelled⟩
    · -- A further alternative is written behind a blank and a bar.
      have hbar : Lexes (' ' :: (['|'] ++ g.writeBody body)) (fun tokens => ∃ bar others terms,
          tokens = bar :: others ∧ bar.kind = .bar ∧ g.Writes body terms ∧
            Tree.SequenceSpelled false terms others) rest := by
        refine ((readsAs_bar _).append hlast ?_).blank
        rintro span others ⟨terms, hterms, hspelled⟩
        exact ⟨_, others, terms, rfl, rfl, hterms, hspelled⟩
      rw [List.map_append, List.map_singleton, intercalate_concat (by simpa using hfirst)]
      refine (ih hfirst hfits.1 (endsName_cons rfl _)).append hbar ?_
      rintro tokens _ ⟨alternatives, hwrites, hspelled⟩ ⟨bar, others, terms, rfl, hbar, hterms,
        hothers⟩
      refine ⟨alternatives ++ [terms], List.rel_append hwrites (.cons hterms .nil), ?_⟩
      exact .more hspelled .nil hbar .nil hothers

/-- **A rule is read as a rule that writes it**, with a line break behind. -/
theorem lexes_rule (h : g.WellFormed) {named : String × Rule} (hname : IsName named.1)
    (hfits : named.2.Fits g.size) :
    Lexes (g.writeRule named.1 named.2) (fun tokens => ∃ rule front newline,
      tokens = front ++ [newline] ∧ g.WritesRule named rule ∧ rule.Spelled front ∧
        newline.kind = .newline) rest := by
  obtain ⟨name, rule⟩ := named
  have hbodies := h.lexes_alternatives hfits.1 hfits.2 (@endsName_cons '\n' rfl rest)
  have hinner : Lexes ([' ', '|'].intercalate (rule.alternatives.map g.writeBody) ++ ['\n'])
      (fun tokens => ∃ alternatives inner newline, tokens = inner ++ [newline] ∧
        List.Forall₂ g.Writes rule.alternatives alternatives ∧
          Tree.AlternationSpelled false alternatives inner ∧ newline.kind = .newline) rest := by
    have hnewline : Lexes ['\n']
        (fun tokens => ∃ newline, tokens = [newline] ∧ newline.kind = .newline) rest :=
      (readsAs_newline rest).lexes fun span => ⟨_, rfl, rfl⟩
    refine hbodies.append hnewline ?_
    rintro inner _ ⟨alternatives, hwrites, hspelled⟩ ⟨newline, rfl, hnewline⟩
    exact ⟨alternatives, inner, newline, rfl, hwrites, hspelled, hnewline⟩
  have hdefine : Lexes ([' ', ':', ':', '='] ++
      ([' ', '|'].intercalate (rule.alternatives.map g.writeBody) ++ ['\n']))
      (fun tokens => ∃ define alternatives inner newline, tokens = define :: (inner ++ [newline]) ∧
        define.kind = .define ∧ List.Forall₂ g.Writes rule.alternatives alternatives ∧
          Tree.AlternationSpelled false alternatives inner ∧ newline.kind = .newline) rest := by
    refine ((readsAs_define _).append hinner ?_).blank
    rintro span _ ⟨alternatives, inner, newline, rfl, hwrites, hspelled, hnewline⟩
    exact ⟨_, alternatives, inner, newline, rfl, rfl, hwrites, hspelled, hnewline⟩
  rw [writeRule, List.append_assoc, List.append_assoc]
  refine (readsAs_name hname (endsName_cons rfl _)).append hdefine ?_
  rintro span _ ⟨define, alternatives, inner, newline, rfl, hdefine, hwrites, hspelled, hnewline⟩
  refine ⟨⟨name, span, alternatives⟩, _, newline, ?_, ⟨rfl, hwrites⟩,
    .intro hdefine Newlines.nil hspelled, hnewline⟩
  rfl

/-- So are rules, one on each line. -/
theorem lexes_rules (h : g.WellFormed) {rules : List (String × Rule)} (hne : rules ≠ [])
    (hfits : ∀ named ∈ rules, IsName named.1 ∧ named.2.Fits g.size) :
    Lexes (rules.flatMap fun (name, rule) => g.writeRule name rule) (fun tokens =>
      ∃ trees front newline, tokens = front ++ [newline] ∧ List.Forall₂ g.WritesRule rules trees ∧
        Tree.RulesSpelled trees front ∧ newline.kind = .newline) rest := by
  induction rules using List.reverseRecOn generalizing rest with
  | nil => exact absurd rfl hne
  | append_singleton rules named ih =>
    rw [List.forall_mem_append, List.forall_mem_singleton] at hfits
    rw [List.flatMap_append, List.flatMap_singleton]
    have hlast := @lexes_rule g rest h named hfits.2.1 hfits.2.2
    by_cases hfirst : rules = []
    · rw [hfirst]
      refine hlast.mono ?_
      rintro _ ⟨tree, front, newline, rfl, hwrites, hspelled, hnewline⟩
      exact ⟨[tree], front, newline, rfl, .cons hwrites .nil, .one .nil hspelled, hnewline⟩
    · refine (ih hfirst hfits.1).append hlast ?_
      rintro _ _ ⟨trees, front, newline, rfl, hothers, hspelled, hnewline⟩
        ⟨tree, tokens, newline', rfl, hwrites, hrule, hnewline'⟩
      refine ⟨trees ++ [tree], front ++ ([newline] ++ tokens), newline', by simp,
        List.rel_append hothers (.cons hwrites .nil), ?_, hnewline'⟩
      exact .more hspelled (.singleton hnewline) (by simp) hrule

/-- **The text of a well formed grammar spells its rules**, whether there are offsets for all of it
    or not. -/
theorem exists_spells_text (h : g.WellFormed) : ∃ tokens rules,
    readTokens (byteLength g.text.toList) (locate 0 g.text.toList) = .ok tokens ∧
      Tree.Spells rules tokens ∧ List.Forall₂ g.WritesRule g.namedRules rules := by
  have hne : g.namedRules ≠ [] := by
    obtain ⟨rule, hrule⟩ := exists_rule?_of_lt h.root
    exact List.ne_nil_of_mem (mem_namedRules_iff.2 ⟨g.root, hrule, rfl⟩ : (_, rule) ∈ _)
  have hfits : ∀ named ∈ g.namedRules, IsName named.1 ∧ named.2.Fits g.size := by
    intro named hnamed
    obtain ⟨id, hrule, hname⟩ := mem_namedRules_iff.1 hnamed
    exact ⟨hname ▸ h.isName (lt_of_rule? hrule), h.rules hrule⟩
  obtain ⟨_, ⟨rules, front, newline, rfl, hwrites, hspelled, hnewline⟩, htokens⟩ :=
    (h.lexes_rules hne hfits).readTokens
  rw [text, String.toList_ofList]
  exact ⟨_, rules, htokens, ⟨front, [newline], hspelled, .singleton hnewline, rfl⟩, hwrites⟩

end WellFormed

end Grammar

end Bnf
