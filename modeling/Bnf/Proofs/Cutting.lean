import Bnf.Proofs.Locality

/-!
# How a text is cut into tokens

Which tokens a text has is a relation between the text and its tokens, one constructor for each
thing that comes next: a blank, a comment, or a token. So a text may be changed in one place: from
there on everything moves, and what comes before stays, if it does not look at what is new.

## Main definitions

- `Cuts` — a text and its tokens, with their places
- `Token.shift` — a token, further behind in a text
- `BreakAdded` — tokens before and after a line feed comes behind them

## Main results

- `readTokens_eq_ok_iff` — the tokens of a text are those that it is cut into
- `Cuts.insert` — a line feed between two tokens moves what comes behind
-/

namespace Bnf

/-- **A text and its tokens.** Blanks and comments are passed over; a comment goes up to a line
    break. Every other part of the text is a token. -/
inductive Cuts : (offset : Nat) → (text : List Char) → List Token → Prop
  | nil {offset} : Cuts offset [] []
  | blank {offset c text tokens} :
      isBlank c = true → Cuts (offset + c.utf8Size) text tokens → Cuts offset (c :: text) tokens
  | comment {offset front text tokens} :
      (∀ c ∈ front, isLineBreak c = false) → text.head?.all isLineBreak = true →
      Cuts (offset + byteLength ('#' :: front)) text tokens →
      Cuts offset ('#' :: (front ++ text)) tokens
  | token {offset front text kind tokens} :
      ReadsAs front kind text → Cuts (offset + byteLength front) text tokens →
      Cuts offset (front ++ text) (⟨kind, ⟨offset, offset + byteLength front⟩⟩ :: tokens)

theorem isBlank_iff {c : Char} : isBlank c = true ↔ c = ' ' ∨ c = '\t' := by
  simp [isBlank]

theorem isLineBreak_of_isBlank {c : Char} (h : isBlank c = true) : isLineBreak c = false := by
  obtain rfl | rfl := isBlank_iff.1 h <;> rfl

theorem ReadsAs.byteLength_pos {text rest : List Char} {kind : TokenKind}
    (h : ReadsAs text kind rest) : 0 < byteLength text := by
  obtain ⟨c, more, rfl, -⟩ := h
  exact Nat.add_pos_left c.utf8Size_pos _

/-! ## Reading the tokens of a text -/

/-- Every token is read as such from its place on. -/
theorem exists_readsAs_of_readToken {start offset : Nat} {c : Char} {text : List Char}
    {kind : TokenKind} {left : List Located} (hblank : isBlank c = false) (hcomment : c ≠ '#')
    (h : readToken start c (locate offset text) = .ok (kind, left)) :
    ∃ front rest, text = front ++ rest ∧ left = locate (offset + byteLength front) rest ∧
      ReadsAs (c :: front) kind rest := by
  by_cases hreturn : c = '\r'
  · subst hreturn
    by_cases hfeed : text.head? = some '\n'
    · obtain ⟨rest, rfl⟩ := List.head?_eq_some_iff.1 hfeed
      cases h
      exact ⟨['\n'], rest, rfl, rfl, readsAs_return rest⟩
    · rw [readToken_return start (locate_ne_cons hfeed _)] at h
      cases h
      exact ⟨[], text, rfl, rfl, '\r', [], rfl, rfl, by decide, fun place =>
        readToken_return place (locate_ne_cons hfeed _)⟩
  · obtain ⟨front, rest, htext, hleft, -, hmore⟩ := exists_readsAs hblank hcomment hreturn h
    exact ⟨front, rest, htext, hleft, hmore rest (.refl rest)⟩

/-- Tokens are read one after the other. -/
theorem readTokens_cons_eq_ok {stop start : Nat} {c : Char} {cs : List Located}
    {tokens : List Token} (hblank : isBlank c = false) (hcomment : c ≠ '#')
    (h : readTokens stop ((start, c) :: cs) = .ok tokens) : ∃ kind left others,
      readToken start c cs = .ok (kind, left) ∧ readTokens stop left = .ok others ∧
        tokens = ⟨kind, ⟨start, offsetOf stop left⟩⟩ :: others := by
  rw [readTokens_cons hblank hcomment] at h
  cases hread : readToken start c cs with
  | error e => simp [hread, Except.bind] at h
  | ok found =>
    obtain ⟨kind, left⟩ := found
    cases hothers : readTokens stop left with
    | error e => simp [hread, hothers, Except.bind, Except.map] at h
    | ok others =>
      simp only [hread, hothers, Except.bind, Except.map, Except.ok.injEq] at h
      exact ⟨kind, left, others, rfl, hothers, h.symm⟩

/-- A comment goes up to a line break. -/
theorem skipComment_locate {front text : List Char} (hfront : ∀ c ∈ front, isLineBreak c = false)
    (hhead : text.head?.all isLineBreak = true) (offset : Nat) :
    skipComment (locate offset (front ++ text)) = locate (offset + byteLength front) text :=
  (locate_span (p := fun c => !isLineBreak c) (by simpa using hfront)
    (fun c hc => by simpa [hc] using hhead) offset).2

theorem offsetOf_locate (offset : Nat) (text : List Char) :
    offsetOf (offset + byteLength text) (locate offset text) = offset := by
  cases text with
  | nil => rfl
  | cons c text => rfl

theorem cuts_of_readTokens {offset : Nat} {text : List Char} {tokens : List Token}
    (h : readTokens (offset + byteLength text) (locate offset text) = .ok tokens) :
    Cuts offset text tokens := by
  induction hlength : text.length using Nat.strongRecOn generalizing offset text tokens with
  | ind n ih =>
    subst hlength
    cases text with
    | nil =>
      rw [locate, readTokens] at h
      cases h
      exact .nil
    | cons c text =>
      cases hblank : isBlank c with
      | true =>
        rw [locate, readTokens, if_pos hblank, byteLength, ← Nat.add_assoc] at h
        exact .blank hblank (ih text.length (Nat.lt_succ_self _) h rfl)
      | false =>
        by_cases hcomment : c = '#'
        · subst hcomment
          have hsplit := List.takeWhile_append_dropWhile (p := fun c => !isLineBreak c) (l := text)
          have hfront : ∀ c ∈ text.takeWhile fun c => !isLineBreak c, isLineBreak c = false := by
            simpa using List.all_eq_true.1 (List.all_takeWhile (p := fun c => !isLineBreak c))
          have hhead : (text.dropWhile fun c => !isLineBreak c).head?.all isLineBreak = true := by
            have hnot := List.head?_dropWhile_not (fun c => !isLineBreak c) text
            cases hfirst : (text.dropWhile fun c => !isLineBreak c).head? with
            | none => rfl
            | some c => simpa [hfirst] using hnot
          revert hsplit hfront hhead
          generalize (text.takeWhile fun c => !isLineBreak c) = front
          generalize (text.dropWhile fun c => !isLineBreak c) = rest
          rintro rfl hfront hhead
          rw [locate, readTokens, if_neg (by decide), if_pos rfl,
            skipComment_locate hfront hhead, Nat.add_assoc offset] at h
          refine .comment hfront hhead (ih rest.length ?_ ?_ rfl)
          · rw [List.length_cons, List.length_append]
            omega
          · simpa only [byteLength, byteLength_append, Nat.add_assoc] using h
        · obtain ⟨kind, left, others, hread, hothers, rfl⟩ :=
            readTokens_cons_eq_ok hblank hcomment h
          obtain ⟨front, rest, rfl, rfl, hreads⟩ :=
            exists_readsAs_of_readToken hblank hcomment hread
          have hstop : offset + byteLength (c :: (front ++ rest)) =
              offset + byteLength (c :: front) + byteLength rest := by
            simp only [byteLength, byteLength_append, Nat.add_assoc]
          have hplace : offset + c.utf8Size + byteLength front =
              offset + byteLength (c :: front) := by
            rw [byteLength, Nat.add_assoc]
          rw [hstop, hplace] at hothers
          rw [hstop, hplace, offsetOf_locate]
          refine .token hreads (ih rest.length ?_ hothers rfl)
          rw [List.length_cons, List.length_append]
          omega

theorem Cuts.readTokens_eq_ok {offset : Nat} {text : List Char} {tokens : List Token}
    (h : Cuts offset text tokens) :
    readTokens (offset + byteLength text) (locate offset text) = .ok tokens := by
  induction h with
  | nil => rw [locate, readTokens]
  | blank hblank _ ih => rwa [locate, readTokens, if_pos hblank, byteLength, ← Nat.add_assoc]
  | comment hfront hhead _ ih =>
    rw [locate, readTokens, if_neg (by decide), if_pos rfl, skipComment_locate hfront hhead]
    simpa only [byteLength, byteLength_append, Nat.add_assoc] using ih
  | @token offset front text kind tokens hreads _ ih =>
    obtain ⟨c, more, rfl, hblank, hcomment, hread⟩ := hreads
    rw [byteLength_append, ← Nat.add_assoc, List.cons_append, locate,
      readTokens_cons hblank hcomment, hread]
    simp only [Except.bind, ih, Except.map, offsetOf_locate]

/-- **The tokens of a text** are those that it is cut into. -/
theorem readTokens_eq_ok_iff {offset : Nat} {text : List Char} {tokens : List Token} :
    readTokens (offset + byteLength text) (locate offset text) = .ok tokens ↔
      Cuts offset text tokens :=
  ⟨cuts_of_readTokens, Cuts.readTokens_eq_ok⟩

/-- A text has tokens if all its bytes have offsets and it is cut into them from its beginning
    on. -/
theorem tokenize_eq_ok_iff {source : String} {tokens : List Token} :
    tokenize source = .ok tokens ↔
      byteLength source.toList < offsetBound ∧ Cuts 0 source.toList tokens := by
  rw [← readTokens_eq_ok_iff, Nat.zero_add]
  refine ⟨fun h => ?_, fun ⟨hsize, hread⟩ => (tokenize_of_lt hsize).trans hread⟩
  exact ⟨lt_of_tokenize h, (tokenize_of_lt (lt_of_tokenize h)).symm.trans h⟩

/-! ## Places -/

/-- A token, `n` bytes further behind in a text. -/
def Token.shift (n : Nat) (token : Token) : Token :=
  ⟨token.kind, ⟨token.span.start + n, token.span.stop + n⟩⟩

/-! ## Cuts of a list -/

/-- Two cuts of a list: the second one is behind the first, or some of the first part is left
    behind it. -/
theorem append_eq_append_cases {α : Type} {front back before after : List α}
    (h : front ++ back = before ++ after) :
    (∃ middle, before = front ++ middle ∧ back = middle ++ after) ∨
      ∃ middle, middle ≠ [] ∧ front = before ++ middle ∧ after = middle ++ back := by
  obtain hfront | ⟨middle, rfl, rfl⟩ := List.append_eq_append_iff.1 h
  · exact .inl hfront
  · cases middle with
    | nil => exact .inl ⟨[], by simp, rfl⟩
    | cons token middle => exact .inr ⟨token :: middle, List.cons_ne_nil _ _, rfl, rfl⟩

/-- What is not empty behind a cut ends as the whole list does. -/
theorem exists_concat_of_append {α : Type} {front before after : List α} {last : α}
    (h : front ++ [last] = before ++ after) (hafter : after ≠ []) :
    ∃ middle, front = before ++ middle ∧ after = middle ++ [last] := by
  obtain ⟨middle, other, rfl⟩ := List.eq_nil_or_concat after |>.resolve_left hafter
  rw [List.concat_eq_append, ← List.append_assoc] at h
  obtain ⟨hfront, hlast⟩ := List.append_inj' h rfl
  exact ⟨middle, hfront, by rw [List.concat_eq_append, hlast]⟩

/-- The beginnings of a text come in the order of their lengths. -/
theorem exists_append_of_byteLength_le {front rest pre other : List Char}
    (h : front ++ rest = pre ++ other) (hle : byteLength front ≤ byteLength pre) :
    ∃ left, pre = front ++ left ∧ rest = left ++ other := by
  obtain hleft | ⟨left, rfl, rfl⟩ := List.append_eq_append_iff.1 h
  · exact hleft
  · cases left with
    | nil => exact ⟨[], by simp, by simp⟩
    | cons c left =>
      have := c.utf8Size_pos
      simp only [byteLength_append, byteLength] at hle
      omega

theorem map_kind_shift (tokens : List Token) (n : Nat) :
    (tokens.map (Token.shift n)).map (·.kind) = tokens.map (·.kind) := by
  rw [List.map_map]
  rfl

namespace Cuts

variable {offset : Nat} {text front rest : List Char} {tokens others : List Token} {token : Token}

theorem eq_nil (h : Cuts offset [] tokens) : tokens = [] := by
  generalize htext : [] = text at h
  cases h with
  | nil => rfl
  | blank => cases htext
  | comment => cases htext
  | token hreads =>
    obtain ⟨_, _, rfl, -⟩ := hreads
    cases htext

/-- **Every token stands in its text**, and takes a byte at least. -/
theorem span_mem (h : Cuts offset text tokens) (hmem : token ∈ tokens) :
    offset ≤ token.span.start ∧ token.span.start < token.span.stop := by
  induction h with
  | nil => cases hmem
  | blank _ _ ih => exact ⟨Nat.le_trans (Nat.le_add_right _ _) (ih hmem).1, (ih hmem).2⟩
  | comment _ _ _ ih => exact ⟨Nat.le_trans (Nat.le_add_right _ _) (ih hmem).1, (ih hmem).2⟩
  | token hreads _ ih =>
    obtain rfl | hmem := List.mem_cons.1 hmem
    · exact ⟨Nat.le_refl _, Nat.lt_add_of_pos_right hreads.byteLength_pos⟩
    · exact ⟨Nat.le_trans (Nat.le_add_right _ _) (ih hmem).1, (ih hmem).2⟩

/-- No token stops where its text starts. -/
theorem eq_nil_of_stop_le (h : Cuts offset text (tokens ++ others))
    (hstop : ∀ token ∈ tokens, token.span.stop ≤ offset) : tokens = [] := by
  refine List.eq_nil_iff_forall_not_mem.2 fun token hmem => ?_
  have hspan := h.span_mem (List.mem_append_left others hmem)
  have := hstop token hmem
  omega

/-- **A text has the same tokens wherever it stands.** -/
theorem shift (h : Cuts offset text tokens) (n : Nat) :
    Cuts (offset + n) text (tokens.map (Token.shift n)) := by
  induction h with
  | nil => exact .nil
  | blank hblank _ ih => exact .blank hblank (by rwa [Nat.add_right_comm])
  | comment hfront hhead _ ih => exact .comment hfront hhead (by rwa [Nat.add_right_comm])
  | @token offset front _ kind _ hreads _ ih =>
    rw [Nat.add_right_comm] at ih
    have hfirst : Token.shift n ⟨kind, ⟨offset, offset + byteLength front⟩⟩ =
        ⟨kind, ⟨offset + n, offset + n + byteLength front⟩⟩ := by
      rw [Token.shift, Nat.add_right_comm]
    rw [List.map_cons, hfirst]
    exact .token hreads ih

/-- A line break is where the first token starts. -/
theorem start_eq_of_isLineBreak (h : Cuts offset text (token :: tokens))
    (hhead : text.head?.all isLineBreak = true) : token.span.start = offset := by
  generalize hall : token :: tokens = all at h
  cases h with
  | nil => cases hall
  | @blank _ c _ _ hblank _ =>
    have hbreak : isLineBreak c = true := hhead
    rw [isLineBreak_of_isBlank hblank] at hbreak
    cases hbreak
  | comment => cases hhead
  | token =>
    cases hall
    rfl

/-- A line feed in front of a text is a token of its own. -/
theorem feed (h : Cuts (offset + 1) text tokens) :
    Cuts offset ('\n' :: text) (⟨.newline, ⟨offset, offset + 1⟩⟩ :: tokens) :=
  @token offset ['\n'] text .newline tokens (readsAs_newline text) h

/-- Blanks and comments may stand in front of a line break. -/
theorem append_of_isLineBreak {place : Nat} (hgap : Cuts place front [])
    (hhead : text.head?.all isLineBreak = true) (h : Cuts (offset + byteLength front) text tokens) :
    Cuts offset (front ++ text) tokens := by
  generalize hnone : [] = none at hgap
  induction hgap generalizing offset with
  | nil => exact h
  | blank hblank _ ih =>
    refine .blank hblank (ih ?_ hnone)
    rwa [byteLength, ← Nat.add_assoc] at h
  | @comment _ comment front _ hfront hend _ ih =>
    rw [List.cons_append, List.append_assoc]
    refine .comment hfront ?_ (ih ?_ hnone)
    · cases front with
      | nil => exact hhead
      | cons c front => exact hend
    · rwa [← List.cons_append, byteLength_append, ← Nat.add_assoc] at h
  | token => cases hnone

end Cuts

/-! ## A line feed between two tokens -/

/-- **Tokens before and after a line feed comes behind them**: it is one more token, unless it
    belongs to a carriage return. -/
inductive BreakAdded : List Token → List Token → Prop
  | single {span} : BreakAdded [] [⟨.newline, span⟩]
  | merged {span other} : BreakAdded [⟨.newline, span⟩] [⟨.newline, other⟩]
  | cons {token tokens others} : BreakAdded tokens others →
      BreakAdded (token :: tokens) (token :: others)

theorem BreakAdded.cases {before more : List Token} (h : BreakAdded before more) :
    (∃ span, more = before ++ [⟨.newline, span⟩]) ∨
      ∃ init span other, before = init ++ [⟨.newline, span⟩] ∧
        more = init ++ [⟨.newline, other⟩] := by
  induction h with
  | @single span => exact .inl ⟨span, rfl⟩
  | @merged span other => exact .inr ⟨[], span, other, rfl, rfl⟩
  | @cons token _ _ _ ih =>
    obtain ⟨span, rfl⟩ | ⟨init, span, other, rfl, rfl⟩ := ih
    · exact .inl ⟨span, rfl⟩
    · exact .inr ⟨token :: init, span, other, rfl, rfl⟩

namespace Cuts

variable {offset : Nat} {text front pre gap rest : List Char} {before after tokens : List Token}
  {b : Token}

/-- A line feed comes in front of the first token. -/
theorem insert_first (h : Cuts offset text tokens) (htokens : tokens = before ++ b :: after)
    (hstop : ∀ token ∈ before, token.span.stop ≤ offset) :
    ∃ more, BreakAdded before more ∧
      Cuts offset ('\n' :: text) (more ++ (b :: after).map (Token.shift 1)) := by
  subst htokens
  obtain rfl := h.eq_nil_of_stop_le hstop
  exact ⟨_, .single, (h.shift 1).feed⟩

/-- A line feed comes into a comment, of which the rest is a comment again. -/
theorem insert_comment (hcomment : ∀ c ∈ pre ++ front, isLineBreak c = false)
    (hhead : text.head?.all isLineBreak = true)
    (h : Cuts (offset + byteLength ('#' :: (pre ++ front))) text (before ++ b :: after))
    (htext : front ++ text = gap ++ rest)
    (hstop : ∀ token ∈ before, token.span.stop ≤ offset + byteLength ('#' :: pre))
    (hstart : b.span.start = offset + byteLength ('#' :: pre ++ gap)) (hgap : Cuts 0 gap []) :
    ∃ more, BreakAdded before more ∧
      Cuts offset ('#' :: pre ++ '\n' :: (gap ++ rest))
        (more ++ (b :: after).map (Token.shift 1)) := by
  rw [← List.cons_append, byteLength_append, ← Nat.add_assoc] at h
  obtain rfl := h.eq_nil_of_stop_le fun token hmem => Nat.le_add_right_of_le (hstop token hmem)
  -- The comment ends where the next token starts, so this is what was to be left of it.
  have hplace := h.start_eq_of_isLineBreak hhead
  rw [hplace, byteLength_append, ← Nat.add_assoc] at hstart
  have hrest : text = rest := by
    have hdrop := dropBytes?_append front text
    rw [Nat.add_left_cancel hstart, htext, dropBytes?_append] at hdrop
    exact (Option.some.inj hdrop).symm
  subst hrest
  obtain rfl := List.append_cancel_right htext
  refine ⟨_, .single, .comment (fun c hc => hcomment c (List.mem_append_left front hc)) rfl
    (feed (hgap.append_of_isLineBreak hhead ?_))⟩
  rw [Nat.add_right_comm _ 1]
  exact h.shift 1

/-- A token in front of a line feed stays as it is. If it is a carriage return, a line feed right
    behind it is taken along. -/
theorem insert_after {kind : TokenKind} {left : List Token}
    (hreads : ReadsAs front kind (pre ++ text))
    (hrest : Cuts (offset + byteLength front) (pre ++ text) (before ++ b :: after))
    (hadded : BreakAdded before left)
    (hmore : Cuts (offset + byteLength front) (pre ++ '\n' :: text)
      (left ++ (b :: after).map (Token.shift 1)))
    (hstop : pre = [] → ∀ token ∈ before, token.span.stop ≤ offset + byteLength front) :
    ∃ more, BreakAdded (⟨kind, ⟨offset, offset + byteLength front⟩⟩ :: before) more ∧
      Cuts offset (front ++ (pre ++ '\n' :: text)) (more ++ (b :: after).map (Token.shift 1)) := by
  have hstays (hreads : ReadsAs front kind (pre ++ '\n' :: text)) :
      ∃ more, BreakAdded (⟨kind, ⟨offset, offset + byteLength front⟩⟩ :: before) more ∧
        Cuts offset (front ++ (pre ++ '\n' :: text))
          (more ++ (b :: after).map (Token.shift 1)) :=
    ⟨_, .cons hadded, .token hreads hmore⟩
  cases pre with
  | cons c pre => exact hstays (hreads.congr_head? rfl)
  | nil =>
    by_cases hreturn : front = ['\r']
    · subst hreturn
      obtain rfl := hreads.eq_newline_of_return
      obtain rfl := hrest.eq_nil_of_stop_le (hstop rfl)
      have htext : Cuts (offset + byteLength ['\r', '\n']) text
          ((b :: after).map (Token.shift 1)) := hrest.shift 1
      exact ⟨_, .merged, @token offset ['\r', '\n'] text .newline _ (readsAs_return text) htext⟩
    · exact hstays (hreads.alike (.inr rfl) fun hfront => absurd hfront hreturn)

/-- **A line feed between two tokens** is a token of its own, or goes to a carriage return. What
    comes in front of it stays, and what comes behind it moves. -/
theorem insert (h : Cuts offset text tokens) (htext : text = pre ++ (gap ++ rest))
    (htokens : tokens = before ++ b :: after)
    (hstop : ∀ token ∈ before, token.span.stop ≤ offset + byteLength pre)
    (hstart : b.span.start = offset + byteLength (pre ++ gap)) (hgap : Cuts 0 gap []) :
    ∃ more, BreakAdded before more ∧
      Cuts offset (pre ++ '\n' :: (gap ++ rest)) (more ++ (b :: after).map (Token.shift 1)) := by
  induction h generalizing pre before with
  | nil => simp at htokens
  | @blank offset c text tokens hblank hrest ih =>
    cases pre with
    | nil => exact htext ▸ (Cuts.blank hblank hrest).insert_first htokens hstop
    | cons d pre =>
      obtain ⟨rfl, rfl⟩ := List.cons.inj htext
      simp only [List.cons_append, byteLength, ← Nat.add_assoc] at hstop hstart
      obtain ⟨more, hadded, hmore⟩ := ih rfl htokens hstop hstart
      exact ⟨more, hadded, .blank hblank hmore⟩
  | @comment offset comment text tokens hcomment hhead hrest ih =>
    cases pre with
    | nil => exact htext ▸ (Cuts.comment hcomment hhead hrest).insert_first htokens hstop
    | cons d pre =>
      obtain ⟨rfl, hsplit⟩ := List.cons.inj htext
      obtain ⟨left, rfl, rfl⟩ | ⟨left, rfl, hleft⟩ := List.append_eq_append_iff.1 hsplit
      · simp only [← List.cons_append, byteLength_append, ← Nat.add_assoc] at hstop hstart
        obtain ⟨more, hadded, hmore⟩ := ih rfl htokens hstop (by
          rw [hstart, byteLength_append, ← Nat.add_assoc])
        refine ⟨more, hadded, ?_⟩
        rw [List.cons_append, List.append_assoc]
        refine .comment hcomment ?_ hmore
        cases left with
        | nil => rfl
        | cons c left => exact hhead
      · subst htokens
        exact insert_comment hcomment hhead hrest hleft.symm hstop hstart hgap
  | @token offset front text kind tokens hreads hrest ih =>
    cases pre with
    | nil => exact htext ▸ (Cuts.token hreads hrest).insert_first htokens hstop
    | cons d pre =>
      cases before with
      | nil =>
        -- The token in front of which the line feed comes does not start the text.
        obtain ⟨rfl, rfl⟩ := List.cons.inj htokens
        have := d.utf8Size_pos
        simp only [List.cons_append, byteLength] at hstart
        omega
      | cons first before =>
        obtain ⟨rfl, rfl⟩ := List.cons.inj htokens
        have hfirst := Nat.le_of_add_le_add_left (hstop _ List.mem_cons_self)
        obtain ⟨left, hpre, rfl⟩ := exists_append_of_byteLength_le htext hfirst
        rw [hpre] at hstop hstart ⊢
        simp only [List.append_assoc, byteLength_append, ← Nat.add_assoc] at hstop hstart ⊢
        obtain ⟨more, hadded, hmore⟩ := ih rfl rfl
          (fun token hmem => hstop token (List.mem_cons_of_mem _ hmem))
          (by rw [hstart, byteLength_append, ← Nat.add_assoc])
        exact insert_after hreads hrest hadded hmore fun hnil token hmem => by
          simpa [hnil, byteLength] using hstop token (List.mem_cons_of_mem _ hmem)

end Cuts

end Bnf
