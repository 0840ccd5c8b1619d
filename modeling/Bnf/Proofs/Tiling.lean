import Bnf.Proofs.Layout
import Bnf.Proofs.LineStarts
import Bnf.Proofs.SyntaxErrors

/-!
# Tokens and lines

Tokens and lines are found apart from each other. Both cut the text at the same places: a line break
is a token, or a part of a literal or a class. For what a literal or a class takes ends with a sign
that closes it, what any other token takes has no line break in it, and between tokens there are
blanks and comments only.

## Main definitions

- `WithinLine` — characters are read without a line break among them
- `Lexeme` — a token, or the end of the text
- `ByOffset.lexemes` — the tokens of a text and the end of it

## Main results

- `ReadsAs.breaks` — where the text of a token has line breaks
- `Cuts.lineBreak_iff` — where a text has line breaks
- `Cuts.exists_gap` — what is between tokens
- `tokens_tile_source` — tokens and gaps make up the text, and line breaks are where tokens say
-/

namespace Bnf

/-! ## Within a line -/

/-- **What is read is within a line**: there is no line break between two parts that are left of a
    text. -/
def WithinLine (cs rest : List Located) : Prop :=
  ∃ word, cs = word ++ rest ∧ ∀ located ∈ word, isLineBreak located.2 = false

namespace WithinLine

variable {cs middle rest : List Located} {offset : Nat} {c : Char}

theorem refl (cs : List Located) : WithinLine cs cs :=
  ⟨[], rfl, by simp⟩

theorem trans (h : WithinLine cs middle) (h' : WithinLine middle rest) : WithinLine cs rest := by
  obtain ⟨word, rfl, hword⟩ := h
  obtain ⟨word', rfl, hword'⟩ := h'
  refine ⟨word ++ word', (List.append_assoc ..).symm, ?_⟩
  exact List.forall_mem_append.2 ⟨hword, hword'⟩

instance : Trans WithinLine WithinLine WithinLine :=
  ⟨trans⟩

theorem cons (hc : isLineBreak c = false) (h : WithinLine cs rest) :
    WithinLine ((offset, c) :: cs) rest := by
  obtain ⟨word, rfl, hword⟩ := h
  exact ⟨(offset, c) :: word, rfl, List.forall_mem_cons.2 ⟨hc, hword⟩⟩

/-- Characters of a sort that no line break is of. -/
theorem dropWhile {p : Char → Bool} (hfeed : p '\n' = false) (hreturn : p '\r' = false)
    (cs : List Located) : WithinLine cs (cs.dropWhile fun (_, c) => p c) := by
  refine ⟨cs.takeWhile fun (_, c) => p c, List.takeWhile_append_dropWhile.symm, ?_⟩
  intro located hmem
  have hsort : p located.2 = true := List.all_eq_true.1 List.all_takeWhile located hmem
  rw [← Bool.not_eq_true, isLineBreak_iff]
  rintro (hc | hc)
  · rw [hc, hfeed] at hsort
    cases hsort
  · rw [hc, hreturn] at hsort
    cases hsort

end WithinLine

section

variable {start offset : Nat} {cs rest : List Located}

theorem withinLine_skipBlanks (cs : List Located) : WithinLine cs (skipBlanks cs) :=
  .dropWhile rfl rfl cs

theorem withinLine_readCount? {value : Nat} (h : readCount? cs = some (value, rest)) :
    WithinLine cs rest := by
  unfold readCount? at h
  simp only at h
  split at h
  · cases h
  · cases h
    exact .dropWhile rfl rfl cs

theorem withinLine_readMax? {min : Nat} {max : Option Nat}
    (h : readMax? min cs = some (max, rest)) : WithinLine cs rest := by
  unfold readMax? at h
  split at h
  · next more =>
    refine .cons rfl ((withinLine_skipBlanks more).trans ?_)
    split at h
    · obtain ⟨found, hcount, ⟨⟩⟩ := Option.map_eq_some_iff.1 h
      exact withinLine_readCount? hcount
    · cases h
      exact .refl _
  · cases h
    exact .refl _

theorem withinLine_readBounds? {bounds : Bounds} (h : readBounds? cs = some (bounds, rest)) :
    WithinLine cs rest := by
  unfold readBounds? at h
  obtain ⟨⟨min, afterMin⟩, hmin, h⟩ := Option.bind_eq_some_iff.1 h
  obtain ⟨⟨max, afterMax⟩, hmax, h⟩ := Option.bind_eq_some_iff.1 h
  obtain ⟨left, hclose, ⟨⟩⟩ := Option.bind_eq_some_iff.1 h
  have hbrace : WithinLine (skipBlanks afterMax) rest := by
    unfold readCloseBrace? at hclose
    split at hclose
    · next hblanks =>
      cases hclose
      rw [hblanks]
      exact .cons rfl (.refl _)
    · cases hclose
  calc
    WithinLine cs (skipBlanks cs) := withinLine_skipBlanks cs
    WithinLine _ afterMin := withinLine_readCount? hmin
    WithinLine _ (skipBlanks afterMin) := withinLine_skipBlanks _
    WithinLine _ afterMax := withinLine_readMax? hmax
    WithinLine _ (skipBlanks afterMax) := withinLine_skipBlanks _
    WithinLine _ rest := hbrace

/-! ## Closing signs -/

theorem exists_of_map_eq_ok {ε α β : Type} {result : Except ε α} {f : α → β} {b : β}
    (h : result.map f = .ok b) : ∃ a, result = .ok a ∧ f a = b := by
  cases result with
  | error e => cases h
  | ok a => exact ⟨a, rfl, Except.ok.inj h⟩

theorem readHexEscape_suffix {digits more value : Nat} {c : Char}
    (h : readHexEscape digits more value cs = .ok (c, rest)) : rest <:+ cs := by
  induction more generalizing value cs with
  | zero =>
    rw [readHexEscape] at h
    split at h
    · cases h
      exact List.suffix_rfl
    · cases h
  | succ more ih =>
    cases cs with
    | nil => cases h
    | cons located cs =>
      rw [readHexEscape] at h
      split at h
      · exact (ih h).trans (List.suffix_cons _ _)
      · cases h

theorem readEscapeAt_suffix {quoting : Quoting} {c : Char}
    (h : readEscapeAt quoting offset cs = .ok (c, rest)) : rest <:+ cs := by
  rw [readEscapeAt] at h
  split at h
  · cases h
  · next hread =>
    cases h
    cases cs with
    | nil => cases hread
    | cons located cs =>
      rw [readEscape] at hread
      split at hread
      · cases hread
        exact List.suffix_cons _ _
      · split at hread
        · exact (readHexEscape_suffix hread).trans (List.suffix_cons _ _)
        · cases hread

/-- **A literal ends with its closing quote.** -/
theorem readLiteral_suffix {chars : List Char} (h : readLiteral start cs = .ok (chars, rest)) :
    ∃ place, (place, '"') :: rest <:+ cs := by
  fun_induction readLiteral start cs generalizing chars rest with
  | case1 => cases h
  | case2 =>
    cases h
    exact ⟨_, List.suffix_rfl⟩
  | case3 => cases h
  | case4 offset cs escaped left hescape hlength _ ih =>
    obtain ⟨⟨_, _⟩, hread, ⟨⟩⟩ := exists_of_map_eq_ok h
    obtain ⟨place, hplace⟩ := ih hread
    exact ⟨place, (hplace.trans (readEscapeAt_suffix hescape)).trans (List.suffix_cons _ _)⟩
  | case5 offset c cs _ _ ih =>
    obtain ⟨⟨_, _⟩, hread, ⟨⟩⟩ := exists_of_map_eq_ok h
    obtain ⟨place, hplace⟩ := ih hread
    exact ⟨place, hplace.trans (List.suffix_cons _ _)⟩

theorem readClassChar_suffix {c d : Char} (h : readClassChar offset c cs = .ok (d, rest)) :
    rest <:+ cs := by
  rw [readClassChar] at h
  split at h
  · exact readEscapeAt_suffix h
  · cases h
    exact List.suffix_rfl

theorem readRange_suffix {c : Char} {range : CharRange}
    (h : readRange offset c cs = .ok (range, rest)) : rest <:+ cs := by
  rw [readRange] at h
  split at h
  · cases h
  · next first left hfirst =>
    refine List.IsSuffix.trans ?_ (readClassChar_suffix hfirst)
    unfold readRangeEnd at h
    split at h
    · next next c more =>
      split at h
      · cases h
        exact List.suffix_rfl
      · split at h
        · cases h
        · next last behind hlast =>
          split at h
          · cases h
          · cases h
            exact (readClassChar_suffix hlast).trans
              ((List.suffix_cons _ _).trans (List.suffix_cons _ _))
    · cases h
      exact List.suffix_rfl

theorem readRanges_suffix {ranges : List CharRange} (h : readRanges start cs = .ok (ranges, rest)) :
    ∃ place, (place, ']') :: rest <:+ cs := by
  fun_induction readRanges start cs generalizing ranges rest with
  | case1 => cases h
  | case2 =>
    cases h
    exact ⟨_, List.suffix_rfl⟩
  | case3 => cases h
  | case4 offset c cs _ range left hrange hlength ih =>
    obtain ⟨⟨_, _⟩, hread, ⟨⟩⟩ := exists_of_map_eq_ok h
    obtain ⟨place, hplace⟩ := ih hread
    exact ⟨place, (hplace.trans (readRange_suffix hrange)).trans (List.suffix_cons _ _)⟩

/-- **A class ends with its closing bracket.** -/
theorem readClass_suffix {set : CharSet} (h : readClass start cs = .ok (set, rest)) :
    ∃ place, (place, ']') :: rest <:+ cs := by
  have hbody {negated : Bool} {cs : List Located}
      (h : readClassBody start negated cs = .ok (set, rest)) :
      ∃ place, (place, ']') :: rest <:+ cs := by
    rw [readClassBody] at h
    split at h
    · cases h
    · cases h
    · next hranges =>
      cases h
      exact readRanges_suffix hranges
  unfold readClass at h
  split at h
  · obtain ⟨place, hplace⟩ := hbody h
    exact ⟨place, hplace.trans (List.suffix_cons _ _)⟩
  · exact hbody h

/-! ## Line breaks and tokens -/

/-- Literals and classes are quoted: line breaks may stand in them. -/
def TokenKind.isQuoted : TokenKind → Bool
  | .literal _ | .set _ => true
  | _ => false

/-- **What a token takes behind its first character.** -/
theorem breaks_of_readToken {c : Char} {kind : TokenKind} (hc : isLineBreak c = false)
    (h : readToken start c cs = .ok (kind, rest)) :
    (kind.isQuoted = true ∧ ∃ place d, isLineBreak d = false ∧ (place, d) :: rest <:+ cs) ∨
      kind ≠ .newline ∧ WithinLine cs rest := by
  unfold readToken at h
  split at h
  case h_1 | h_2 => cases hc
  case h_10 =>
    split at h
    · cases h
      exact .inr ⟨nofun, .cons rfl (.cons rfl (.refl _))⟩
    · cases h
  case h_11 =>
    obtain ⟨⟨_, _⟩, hread, ⟨⟩⟩ := exists_of_map_eq_ok h
    obtain ⟨place, hplace⟩ := readLiteral_suffix hread
    exact .inl ⟨rfl, place, _, rfl, hplace⟩
  case h_12 =>
    obtain ⟨⟨_, _⟩, hread, ⟨⟩⟩ := exists_of_map_eq_ok h
    obtain ⟨place, hplace⟩ := readClass_suffix hread
    exact .inl ⟨rfl, place, _, rfl, hplace⟩
  case h_13 =>
    split at h
    · next hbounds =>
      cases h
      exact .inr ⟨nofun, withinLine_readBounds? hbounds⟩
    · cases h
  case h_14 =>
    split at h
    · cases h
      exact .inr ⟨nofun, .dropWhile rfl rfl cs⟩
    · cases h
  all_goals
    cases h
    exact .inr ⟨nofun, .refl _⟩

end

/-- The characters that are taken, from those that are taken with their places. -/
theorem eq_map_of_locate {word : List Located} {front rest : List Char} {place stop : Nat}
    (h : locate place (front ++ rest) = word ++ locate stop rest) : front = word.map (·.2) := by
  have hchars := congrArg (List.map Prod.snd) h
  rw [List.map_append, map_snd_locate, map_snd_locate] at hchars
  exact List.append_cancel_right hchars

/-- Where some tokens stop: at the last of them, or if there is none where the text starts. -/
def stopOf (start : Nat) (tokens : List Token) : Nat :=
  (tokens.getLast?.map (·.span.stop)).getD start

section

variable {front rest text : List Char} {kind : TokenKind} {token : Token} {tokens : List Token}
  {offset : Nat} {s : Span}

theorem stopOf_cons : stopOf offset (token :: tokens) = stopOf token.span.stop tokens := by
  rw [stopOf, stopOf, List.getLast?_cons]
  cases tokens.getLast? <;> rfl

/-- A blank may stand in front of a gap. -/
theorem Gap.cons {ends : Prop} {gap : List Char} {c : Char} (h : Gap ends gap)
    (hc : isBlank c = true) : Gap ends (c :: gap) := by
  cases h with
  | blanks hgap => exact .blanks (List.forall_mem_cons.2 ⟨hc, hgap⟩)
  | @comment front _ hends hfront htext =>
    exact @Gap.comment _ (c :: front) _ hends (List.forall_mem_cons.2 ⟨hc, hfront⟩) htext

/-- What starts with a line break is one. -/
theorem ReadsAs.of_isLineBreak {c : Char} (h : ReadsAs (c :: front) kind rest)
    (hc : isLineBreak c = true) : kind = .newline ∧ (c :: front = ['\n'] ∨
      c :: front = ['\r', '\n'] ∨ c :: front = ['\r'] ∧ rest.head? ≠ some '\n') := by
  obtain rfl | rfl := isLineBreak_iff.1 hc
  · obtain ⟨_, _, ⟨⟩, -, -, hread⟩ := h
    obtain ⟨rfl, hleft⟩ := Prod.mk.inj (Except.ok.inj (hread 0))
    obtain ⟨hnil, -⟩ := @eq_of_locate_eq [] front (front ++ rest) rest _ _ rfl hleft
    exact ⟨rfl, .inl (by rw [hnil])⟩
  · obtain ⟨hkind, ⟨rfl, hhead⟩ | rfl⟩ := h.of_return
    · exact ⟨hkind, .inr (.inr ⟨rfl, hhead⟩)⟩
    · exact ⟨hkind, .inr (.inl rfl)⟩

/-- **Where the text of a token has line breaks.** The token is a line break; or it is quoted, and
    its last sign closes it; or there are none. -/
theorem ReadsAs.breaks (h : ReadsAs front kind rest) :
    (kind = .newline ∧
        (front = ['\n'] ∨ front = ['\r', '\n'] ∨ front = ['\r'] ∧ rest.head? ≠ some '\n')) ∨
      (kind.isQuoted = true ∧ ∃ init c, front = init ++ [c] ∧ isLineBreak c = false) ∨
      kind ≠ .newline ∧ ∀ c ∈ front, isLineBreak c = false := by
  obtain ⟨c, front, rfl, -, -, hread⟩ := id h
  cases hc : isLineBreak c with
  | true => exact .inl (h.of_isLineBreak hc)
  | false =>
    refine .inr ?_
    obtain ⟨hkind, place, d, hd, word, hword⟩ | ⟨hkind, word, hword, hplain⟩ :=
      breaks_of_readToken hc (hread 0)
    · rw [List.append_cons] at hword
      refine .inl ⟨hkind, c :: word.map (·.2), d, ?_, hd⟩
      rw [eq_map_of_locate hword.symm, List.map_append, List.cons_append]
      rfl
    · refine .inr ⟨hkind, List.forall_mem_cons.2 ⟨hc, ?_⟩⟩
      rw [eq_map_of_locate hword]
      exact List.forall_mem_map.2 hplain

/-- No line break goes from a token into what comes behind. -/
theorem ReadsAs.separate (h : ReadsAs front kind rest) : Separate front rest := by
  obtain ⟨-, rfl | rfl | ⟨rfl, hhead⟩⟩ | ⟨-, init, c, rfl, hc⟩ | ⟨-, hplain⟩ := h.breaks
  · exact nofun
  · exact nofun
  · exact fun _ => hhead
  · intro hreturn
    rw [List.getLast?_concat] at hreturn
    cases hreturn
    cases hc
  · exact separate_of_forall hplain

/-- A token that is a line break is a single one. -/
theorem ReadsAs.lineBreak_iff (h : ReadsAs front .newline rest) :
    LineBreak front s ↔ s = ⟨0, byteLength front⟩ := by
  obtain ⟨-, rfl | rfl | ⟨rfl, -⟩⟩ | ⟨hkind, -⟩ | ⟨hkind, -⟩ := h.breaks
  · exact lineBreak_singleton_iff rfl
  · exact lineBreak_both_iff
  · exact lineBreak_singleton_iff rfl
  · cases hkind
  · exact absurd rfl hkind

/-- Line breaks of a text that has something without line breaks in front of it. -/
theorem LineBreak.of_plain (h : LineBreak (front ++ text) s) (offset : Nat)
    (hplain : ∀ c ∈ front, isLineBreak c = false) :
    ∃ t, LineBreak text t ∧ s.shift offset = t.shift (offset + byteLength front) := by
  obtain hfront | ⟨t, ht, rfl⟩ := (lineBreak_append_iff (separate_of_forall hplain)).1 h
  · exact absurd hfront (not_lineBreak_of_forall hplain)
  · exact ⟨t, ht, Span.shift_shift ..⟩

namespace Cuts

/-- **A line break is a token, or it is in a token** that is quoted. -/
theorem exists_token_of_lineBreak (h : Cuts offset text tokens) (hbreak : LineBreak text s) :
    ∃ token ∈ tokens, (token.kind = .newline ∧ token.span = s.shift offset) ∨
      (token.kind.isQuoted = true ∧ token.span.start ≤ (s.shift offset).start ∧
        (s.shift offset).stop ≤ token.span.stop) := by
  induction h generalizing s with
  | nil => exact absurd hbreak (not_lineBreak_of_forall (by simp))
  | @blank offset c text tokens hblank hrest ih =>
    have hplain : ∀ d ∈ [c], isLineBreak d = false := by simpa using isLineBreak_of_isBlank hblank
    obtain ⟨t, ht, hshift⟩ := hbreak.of_plain offset hplain
    rw [hshift]
    exact ih ht
  | @comment offset front text tokens hfront hhead hrest ih =>
    have hplain : ∀ d ∈ '#' :: front, isLineBreak d = false := List.forall_mem_cons.2 ⟨rfl, hfront⟩
    obtain ⟨t, ht, hshift⟩ := hbreak.of_plain offset hplain
    rw [hshift]
    exact ih ht
  | @token offset front text kind tokens hreads hrest ih =>
    obtain hfront | ⟨t, ht, rfl⟩ := (lineBreak_append_iff hreads.separate).1 hbreak
    · refine ⟨_, List.mem_cons_self, ?_⟩
      obtain ⟨rfl, -⟩ | ⟨hquoted, -⟩ | ⟨-, hplain⟩ := hreads.breaks
      · obtain rfl := hreads.lineBreak_iff.1 hfront
        exact .inl ⟨rfl, rfl⟩
      · exact .inr ⟨hquoted, Nat.le_add_right _ _, Nat.add_le_add_left hfront.stop_le _⟩
      · exact absurd hfront (not_lineBreak_of_forall hplain)
    · obtain ⟨token, hmem, htoken⟩ := ih ht
      rw [Span.shift_shift]
      exact ⟨token, List.mem_cons_of_mem _ hmem, htoken⟩

/-- A token that is a line break is one of the text. -/
theorem exists_lineBreak (h : Cuts offset text tokens) (hmem : token ∈ tokens)
    (hkind : token.kind = .newline) : ∃ s, LineBreak text s ∧ token.span = s.shift offset := by
  induction h with
  | nil => cases hmem
  | @blank offset c text tokens hblank hrest ih =>
    have hplain : ∀ d ∈ [c], isLineBreak d = false := by simpa using isLineBreak_of_isBlank hblank
    obtain ⟨s, hs, hspan⟩ := ih hmem
    exact ⟨_, hs.append_left (separate_of_forall hplain), hspan.trans (Span.shift_shift ..).symm⟩
  | @comment offset front text tokens hfront hhead hrest ih =>
    have hplain : ∀ d ∈ '#' :: front, isLineBreak d = false := List.forall_mem_cons.2 ⟨rfl, hfront⟩
    obtain ⟨s, hs, hspan⟩ := ih hmem
    exact ⟨_, hs.append_left (separate_of_forall hplain), hspan.trans (Span.shift_shift ..).symm⟩
  | @token offset front text kind tokens hreads hrest ih =>
    obtain rfl | hmem := List.mem_cons.1 hmem
    · obtain rfl : kind = .newline := hkind
      exact ⟨_, (hreads.lineBreak_iff.2 rfl).append_right hreads.separate, rfl⟩
    · obtain ⟨s, hs, hspan⟩ := ih hmem
      exact ⟨_, hs.append_left hreads.separate, hspan.trans (Span.shift_shift ..).symm⟩

/-! ## What is between tokens -/

/-- Tokens come one behind the other. -/
theorem pairwise_stop_le (h : Cuts offset text tokens) :
    tokens.Pairwise fun token other => token.span.stop ≤ other.span.start := by
  induction h with
  | nil => exact .nil
  | blank _ _ ih | comment _ _ _ ih => exact ih
  | token _ hrest ih => exact .cons (fun other hother => (hrest.span_mem hother).1) ih

/-- A line break at the start of a text is where a line ends. -/
theorem endsLine_of_head? (h : Cuts offset text tokens)
    (hhead : text.head?.all isLineBreak = true) :
    EndsLine (offset + byteLength text) tokens offset := by
  cases h with
  | nil => exact .inl rfl
  | @blank _ c text tokens hblank hrest =>
    have hbreak : isLineBreak c = true := hhead
    rw [isLineBreak_of_isBlank hblank] at hbreak
    cases hbreak
  | comment => cases hhead
  | @token _ front text kind tokens hreads hrest =>
    refine .inr ⟨_, List.mem_cons_self, ?_, rfl⟩
    obtain ⟨c, front, rfl, -⟩ := id hreads
    exact (hreads.of_isLineBreak hhead).1

/-- **What is in front of the first token** is a gap, up to the token or up to the end. -/
theorem exists_gap (h : Cuts offset text tokens) : ∃ gap rest, text = gap ++ rest ∧
    startOf (offset + byteLength text) tokens = offset + byteLength gap ∧
      Gap (EndsLine (offset + byteLength text) tokens (offset + byteLength gap)) gap := by
  induction h with
  | nil => exact ⟨[], [], rfl, rfl, .blanks (by simp)⟩
  | @blank offset c text tokens hblank hrest ih =>
    obtain ⟨gap, rest, htext, hstart, hgap⟩ := ih
    rw [byteLength, ← Nat.add_assoc]
    refine ⟨c :: gap, rest, by rw [htext, List.cons_append], ?_, ?_⟩
    · rw [hstart, byteLength, Nat.add_assoc]
    · rw [byteLength, ← Nat.add_assoc]
      exact hgap.cons hblank
  | @comment offset front text tokens hfront hhead hrest ih =>
    obtain ⟨gap, rest, htext, hstart, hgap⟩ := ih
    -- The comment goes up to the end of its line, so nothing else is in front of the token.
    obtain rfl : gap = [] := by
      cases gap with
      | nil => rfl
      | cons c gap =>
        have hbreak : isLineBreak c = true := by rwa [htext] at hhead
        rw [hgap.isLineBreak_eq_false c List.mem_cons_self] at hbreak
        cases hbreak
    have hstop : offset + byteLength ('#' :: (front ++ text)) =
        offset + byteLength ('#' :: front) + byteLength text := by
      rw [← List.cons_append, byteLength_append, Nat.add_assoc]
    rw [hstop]
    exact ⟨'#' :: front, text, rfl, hstart,
      @Gap.comment _ [] front (hrest.endsLine_of_head? hhead) (by simp) hfront⟩
  | @token offset front text kind tokens hreads hrest ih =>
    exact ⟨[], _, rfl, rfl, .blanks (by simp)⟩

/-- What is left of a text behind its first token. -/
theorem exists_rest (h : Cuts offset text (token :: tokens)) : ∃ front rest,
    text = front ++ rest ∧ offset + byteLength front = token.span.stop ∧
      Cuts (offset + byteLength front) rest tokens := by
  generalize hall : token :: tokens = all at h
  induction h with
  | nil => cases hall
  | @blank offset c text tokens hblank hrest ih =>
    obtain ⟨front, rest, rfl, hstop, hcuts⟩ := ih hall
    rw [Nat.add_assoc] at hstop hcuts
    exact ⟨c :: front, rest, rfl, hstop, hcuts⟩
  | @comment offset comment text tokens hcomment hhead hrest ih =>
    obtain ⟨front, rest, rfl, hstop, hcuts⟩ := ih hall
    rw [Nat.add_assoc, ← byteLength_append] at hstop hcuts
    exact ⟨'#' :: comment ++ front, rest, by simp, hstop, hcuts⟩
  | @token offset word text kind others hreads hrest ih =>
    obtain ⟨rfl, rfl⟩ := List.cons.inj hall
    exact ⟨word, text, rfl, rfl, hrest⟩

/-- **What is left of a text** behind some of its tokens. -/
theorem of_append {before after : List Token} (h : Cuts offset text (before ++ after)) :
    ∃ front rest, text = front ++ rest ∧ offset + byteLength front = stopOf offset before ∧
      Cuts (offset + byteLength front) rest after := by
  induction before generalizing offset text with
  | nil => exact ⟨[], text, rfl, rfl, h⟩
  | cons token before ih =>
    obtain ⟨word, text, rfl, hstop, hrest⟩ := h.exists_rest
    obtain ⟨front, rest, rfl, hbefore, hafter⟩ := ih hrest
    rw [Nat.add_assoc, ← byteLength_append] at hbefore hafter
    exact ⟨word ++ front, rest, (List.append_assoc ..).symm, by
      rw [hbefore, stopOf_cons, hstop], hafter⟩

/-- **Tokens are between characters.** -/
theorem boundary (h : Cuts 0 text tokens) (hmem : token ∈ tokens) :
    Boundary text token.span.start ∧ Boundary text token.span.stop := by
  obtain ⟨before, after, rfl⟩ := List.append_of_mem hmem
  obtain ⟨front, rest, rfl, -, hafter⟩ := h.of_append
  obtain ⟨gap, left, hrest, hstart, -⟩ := hafter.exists_gap
  obtain ⟨word, behind, hword, hstop, -⟩ := hafter.exists_rest
  rw [startOf_cons, Nat.zero_add, ← byteLength_append] at hstart
  rw [Nat.zero_add, ← byteLength_append] at hstop
  exact ⟨⟨front ++ gap, left, by rw [hrest, List.append_assoc], hstart.symm⟩,
    ⟨front ++ word, behind, by rw [hword, List.append_assoc], hstop⟩⟩

/-- **What is between tokens** is a gap. -/
theorem slice?_gap {source : String} {before after : List Token}
    (h : Cuts 0 source.toList (before ++ after)) : ∃ gap,
      Span.slice? ⟨stopOf 0 before, startOf (byteLength source.toList) after⟩ source = some gap ∧
        Gap (EndsLine (byteLength source.toList) after
          (startOf (byteLength source.toList) after)) gap.toList := by
  obtain ⟨front, text, htext, hstop, hafter⟩ := h.of_append
  obtain ⟨gap, rest, rfl, hstart, hgap⟩ := hafter.exists_gap
  have hsize : 0 + byteLength front + byteLength (gap ++ rest) = byteLength source.toList := by
    rw [htext, Nat.zero_add, byteLength_append front]
  rw [hsize, Nat.zero_add, ← byteLength_append] at hstart hgap
  rw [Nat.zero_add] at hstop
  rw [← List.append_assoc] at htext
  refine ⟨String.ofList gap, ?_, ?_⟩
  · rw [← hstop, hstart, slice?_of_eq_append htext]
  · rwa [hstart, String.toList_ofList]

end Cuts

end

/-! ## The end of a text -/

/-- **What comes next in a text**: a token, or no token at the end. -/
structure Lexeme where
  kind : Option TokenKind
  span : Span
deriving DecidableEq

def Token.lexeme (token : Token) : Lexeme :=
  ⟨some token.kind, token.span⟩

namespace ByOffset

/-- What comes next from an offset on. The end of the text is an empty span. -/
def nextLexeme (source : String) (offset : Nat) : Checked Lexeme := do
  let start ← skipTrivia source offset
  match ← (next? source start : Option (Option (Char × Nat))) with
  | none => return ⟨none, ⟨start, start⟩⟩
  | some (c, after) =>
    let (kind, stop) ← readToken source start c after
    return ⟨some kind, ⟨start, stop⟩⟩

/-- All tokens from an offset on, and the end of the text behind them. -/
def lexemes (source : String) (offset : Nat) : Checked (List Lexeme) := do
  let lexeme ← nextLexeme source offset
  if lexeme.kind = none then return [lexeme]
  else if _ : offset < lexeme.span.stop ∧ lexeme.span.stop < offsetBound then
    return lexeme :: (← lexemes source lexeme.span.stop)
  else none
termination_by offsetBound - offset

section

variable {source : String} {offset start stop after : Nat} {c : Char} {kind : TokenKind}

theorem nextLexeme_end (htrivia : skipTrivia source offset = some (.ok start))
    (h : next? source start = some none) :
    nextLexeme source offset = some (.ok ⟨none, ⟨start, start⟩⟩) := by
  rw [nextLexeme, Checked.bind_of_eq_ok htrivia, h]
  rfl

theorem nextLexeme_token (htrivia : skipTrivia source offset = some (.ok start))
    (h : next? source start = some (some (c, after)))
    (hread : readToken source start c after = some (.ok (kind, stop))) :
    nextLexeme source offset = some (.ok ⟨some kind, ⟨start, stop⟩⟩) := by
  rw [nextLexeme, Checked.bind_of_eq_ok htrivia, h, Checked.liftM_some_bind]
  dsimp only
  rw [Checked.bind_of_eq_ok hread]
  rfl

/-- **The end of the text comes behind its tokens.** -/
theorem lexemes_eq (hsize : byteLength source.toList < offsetBound) {cs : List Located}
    {tokens : List Token} (h : LeftAt source.toList offset cs)
    (hread : Bnf.readTokens (byteLength source.toList) cs = .ok tokens) :
    lexemes source offset = some (.ok (tokens.map Token.lexeme ++
      [⟨none, ⟨byteLength source.toList, byteLength source.toList⟩⟩])) := by
  induction hlength : cs.length using Nat.strongRecOn generalizing cs offset tokens with
  | ind n ih =>
    subst hlength
    obtain ⟨start, rest, hstart, htrivia, hle, hsame, hhead⟩ :=
      skipTrivia_eq hsize (byteLength source.toList) h
    rw [hsame] at hread
    cases rest with
    | nil =>
      obtain rfl := hstart.offsetOf_eq
      rw [Bnf.readTokens] at hread
      cases hread
      rw [lexemes, Checked.bind_of_eq_ok (nextLexeme_end htrivia hstart.next?_nil)]
      rfl
    | cons located rest =>
      obtain ⟨place, c⟩ := located
      obtain ⟨rfl, hrest⟩ := hstart.cons
      obtain ⟨hblank, hcomment⟩ := hhead place c rest rfl
      obtain ⟨kind, left, others, htoken, hothers, rfl⟩ :=
        readTokens_cons_eq_ok hblank hcomment hread
      have hagrees := readToken_agrees hsize hstart
      rw [htoken] at hagrees
      obtain ⟨stop, hstop, hbyOffset⟩ := hagrees
      have hshort := readToken_length htoken
      simp only [List.length_cons] at hle
      have hprogress : offset < stop ∧ stop < offsetBound :=
        ⟨h.lt_of_length_lt hstop (by omega), Nat.lt_of_le_of_lt hstop.boundary.le hsize⟩
      rw [hstop.offsetOf_eq, lexemes, Checked.bind_of_eq_ok
        (nextLexeme_token htrivia (hstart.next?_cons hsize) hbyOffset), if_neg (by simp),
        dif_pos hprogress, Checked.bind_of_eq_ok (ih left.length (by omega) hstop hothers rfl)]
      rfl

end

end ByOffset

/-! ## Tokens and lines make up a text -/

/-- **Tokens and gaps make up a text.** The tokens have characters, and come one behind the other.
    Blanks and comments stand between them. Lines start behind the tokens that are line breaks,
    behind the line breaks within literals and classes, and nowhere else but at the start of the
    text. The end of the text comes behind the tokens, as an empty span. -/
theorem tokens_tile_source {source : String} {tokens : List Token}
    (h : tokenize source = .ok tokens) :
    (∀ token ∈ tokens, token.span.start < token.span.stop ∧
      Boundary source.toList token.span.start ∧ Boundary source.toList token.span.stop) ∧
    tokens.Pairwise (fun token other => token.span.stop ≤ other.span.start) ∧
    (∀ before after, tokens = before ++ after → ∃ gap,
      Span.slice? ⟨stopOf 0 before, startOf (byteLength source.toList) after⟩ source = some gap ∧
      Gap (EndsLine (byteLength source.toList) after (startOf (byteLength source.toList) after))
        gap.toList) ∧
    (∀ place, place ∈ (LineMap.ofString source).lines.map (·.start) ↔
      place = 0 ∨ (∃ token ∈ tokens, token.kind = .newline ∧ token.span.stop = place) ∨
        ∃ token ∈ tokens, token.kind.isQuoted = true ∧ ∃ span, LineBreak source.toList span ∧
          token.span.start ≤ span.start ∧ span.stop ≤ token.span.stop ∧ span.stop = place) ∧
    ByOffset.lexemes source 0 = some (.ok (tokens.map Token.lexeme ++
      [⟨none, ⟨byteLength source.toList, byteLength source.toList⟩⟩])) := by
  obtain ⟨hsize, hcuts⟩ := tokenize_eq_ok_iff.1 h
  refine ⟨fun token hmem => ⟨(hcuts.span_mem hmem).2, hcuts.boundary hmem⟩,
    hcuts.pairwise_stop_le, fun before after htokens => ?_, fun place => ?_,
    ByOffset.lexemes_eq hsize (leftAt_zero _) ((tokenize_of_lt hsize).symm.trans h)⟩
  · subst htokens
    exact hcuts.slice?_gap
  · rw [LineMap.mem_starts_iff, StartsLine]
    refine or_congr_right ⟨?_, ?_⟩
    · rintro ⟨span, hbreak, rfl⟩
      obtain ⟨token, hmem, ⟨hkind, hspan⟩ | ⟨hquoted, hstart, hstop⟩⟩ :=
        hcuts.exists_token_of_lineBreak hbreak
      · rw [Span.shift_zero] at hspan
        exact .inl ⟨token, hmem, hkind, by rw [hspan]⟩
      · rw [Span.shift_zero] at hstart hstop
        exact .inr ⟨token, hmem, hquoted, span, hbreak, hstart, hstop, rfl⟩
    · rintro (⟨token, hmem, hkind, rfl⟩ | ⟨token, hmem, -, span, hbreak, -, -, hplace⟩)
      · obtain ⟨span, hbreak, hspan⟩ := hcuts.exists_lineBreak hmem hkind
        rw [Span.shift_zero] at hspan
        exact ⟨span, hbreak, by rw [hspan]⟩
      · exact ⟨span, hbreak, hplace⟩

/-- Line breaks of all kinds, in a literal, in a class and behind a comment. -/
theorem tokens_tile_lines_in_quotes :
    tokenize "a \"é\r\n\" [\r] # c\nb" = .ok [⟨.name "a", ⟨0, 1⟩⟩,
      ⟨.literal ['é', '\r', '\n'], ⟨2, 8⟩⟩, ⟨.set ⟨false, [.single '\r']⟩, ⟨9, 12⟩⟩,
      ⟨.newline, ⟨16, 17⟩⟩, ⟨.name "b", ⟨17, 18⟩⟩] ∧
    (∃ gap, Span.slice? ⟨12, 16⟩ "a \"é\r\n\" [\r] # c\nb" = some gap ∧
      Gap (EndsLine 18 [⟨.newline, ⟨16, 17⟩⟩, ⟨.name "b", ⟨17, 18⟩⟩] 16) gap.toList) ∧
    (LineMap.ofString "a \"é\r\n\" [\r] # c\nb").lines.map (·.start) = [0, 7, 11, 17] ∧
    ByOffset.lexemes "a \"é\r\n\" [\r] # c\nb" 0 = some (.ok [⟨some (.name "a"), ⟨0, 1⟩⟩,
      ⟨some (.literal ['é', '\r', '\n']), ⟨2, 8⟩⟩, ⟨some (.set ⟨false, [.single '\r']⟩), ⟨9, 12⟩⟩,
      ⟨some .newline, ⟨16, 17⟩⟩, ⟨some (.name "b"), ⟨17, 18⟩⟩, ⟨none, ⟨18, 18⟩⟩]) := by
  have htokens : tokenize "a \"é\r\n\" [\r] # c\nb" = .ok [⟨.name "a", ⟨0, 1⟩⟩,
      ⟨.literal ['é', '\r', '\n'], ⟨2, 8⟩⟩, ⟨.set ⟨false, [.single '\r']⟩, ⟨9, 12⟩⟩,
      ⟨.newline, ⟨16, 17⟩⟩, ⟨.name "b", ⟨17, 18⟩⟩] := by decide +kernel
  obtain ⟨-, -, hgaps, -, hlexemes⟩ := tokens_tile_source htokens
  exact ⟨htokens, hgaps [_, _, _] _ rfl, by decide +kernel, hlexemes⟩

end Bnf
