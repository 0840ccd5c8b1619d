import Bnf.Proofs.Cutting

/-!
# Lines are read by themselves

A text that ends with a line break, and is cut into tokens, is cut into the same kinds of tokens in
front of any other text and at any place: no token goes on behind the line break, as every reader
stops before it or fails for lack of what it looks for.

## Main definitions

- `ReadsLines` — a text of whole lines and its tokens

## Main results

- `Cuts.readsLines` — a text that ends with a line break is cut into the tokens of whole lines
- `ReadsLines.lexesAs` — whole lines are read the same in front of any other text
-/

namespace Bnf

variable {text : List Char}

/-- **Whole lines and their tokens**: blanks and comments are passed over, and every token is read
    the same whatever comes behind. The last token is a line break. -/
inductive ReadsLines : List Char → List Token → Prop
  | last {text span} : (∀ more, ReadsAs text .newline more) → ReadsLines text [⟨.newline, span⟩]
  | blank {c text tokens} :
      isBlank c = true → ReadsLines text tokens → ReadsLines (c :: text) tokens
  | comment {front text tokens} :
      (∀ offset more, skipComment (locate offset (front ++ (text ++ more))) =
        locate (offset + byteLength front) (text ++ more)) →
      ReadsLines text tokens → ReadsLines ('#' :: (front ++ text)) tokens
  | token {front text kind span tokens} :
      (∀ more, ReadsAs front kind (text ++ more)) → ReadsLines text tokens →
      ReadsLines (front ++ text) (⟨kind, span⟩ :: tokens)

/-- **A text that ends with a line break** is cut into the tokens of whole lines. -/
theorem Cuts.readsLines {offset : Nat} {tokens : List Token}
    (h : Cuts offset (text ++ ['\n']) tokens) : ReadsLines (text ++ ['\n']) tokens := by
  generalize hwhole : text ++ ['\n'] = whole at h
  induction h generalizing text with
  | nil => simp at hwhole
  | @blank _ c rest _ hblank _ ih =>
    have hsplit : text ++ ['\n'] = [c] ++ rest := hwhole
    by_cases hrest : rest = []
    · subst hrest
      have hsingle : text ++ ['\n'] = [] ++ [c] := hsplit
      obtain ⟨-, ⟨⟩⟩ := List.append_inj' hsingle rfl
      cases hblank
    · obtain ⟨init, -, rfl⟩ := exists_concat_of_append hsplit hrest
      exact .blank hblank (ih rfl)
  | @comment _ front rest _ hfront hhead _ ih =>
    by_cases hrest : rest = []
    · subst hrest
      have hfeed : '\n' ∈ front := by simpa using congrArg ('\n' ∈ ·) hwhole
      cases hfront '\n' hfeed
    · have hsplit : text ++ ['\n'] = '#' :: front ++ rest := hwhole
      obtain ⟨init, -, rfl⟩ := exists_concat_of_append hsplit hrest
      refine .comment (fun offset more => skipComment_locate hfront ?_ offset) (ih rfl)
      cases init with
      | nil => rfl
      | cons c init => exact hhead
  | @token _ front rest kind _ hreads hrest ih =>
    by_cases hnil : rest = []
    · subst hnil
      rw [List.append_nil] at hwhole ⊢
      subst hwhole
      obtain ⟨rfl, hnewline⟩ := hreads.newline_of_feed
      obtain rfl := hrest.eq_nil
      exact .last hnewline
    · obtain ⟨init, -, rfl⟩ := exists_concat_of_append hwhole hnil
      refine .token (fun more => hreads.congr_head? ?_) (ih rfl)
      cases init with
      | nil => rfl
      | cons c init => rfl

/-- A text is read as tokens of some kinds, in front of `rest`. -/
abbrev LexesAs (text : List Char) (tokens : List Token) (rest : List Char) : Prop :=
  Lexes text (fun found => found.map (·.kind) = tokens.map (·.kind)) rest

theorem LexesAs.append {text other rest : List Char} {tokens others : List Token}
    (h : LexesAs text tokens (other ++ rest)) (h' : LexesAs other others rest) :
    LexesAs (text ++ other) (tokens ++ others) rest :=
  Lexes.append h h' fun hfound hfound' => by rw [List.map_append, List.map_append, hfound, hfound']

namespace ReadsLines

variable {tokens : List Token}

/-- **Whole lines are read the same** in front of any other text. -/
theorem lexesAs (h : ReadsLines text tokens) (more : List Char) : LexesAs text tokens more := by
  induction h with
  | last hread => exact (hread more).lexes fun span => rfl
  | @blank c text tokens hblank _ ih =>
    intro stop place
    obtain ⟨found, hfound, hread⟩ := ih stop (place + c.utf8Size)
    refine ⟨found, hfound, ?_⟩
    rw [List.cons_append, locate, readTokens, if_pos hblank, hread, byteLength, Nat.add_assoc]
  | @comment front text tokens hskip _ ih =>
    intro stop place
    obtain ⟨found, hfound, hread⟩ := ih stop (place + Char.utf8Size '#' + byteLength front)
    refine ⟨found, hfound, ?_⟩
    rw [List.cons_append, List.append_assoc, locate, readTokens, if_neg (by decide), if_pos rfl,
      hskip, hread, byteLength, byteLength_append]
    simp only [Nat.add_assoc]
  | @token front text kind span tokens hread _ ih =>
    have hfirst : LexesAs front [⟨kind, span⟩] (text ++ more) := (hread more).lexes fun _ => rfl
    exact hfirst.append ih

/-- The last token of whole lines is a line break. -/
theorem exists_eq_concat (h : ReadsLines text tokens) :
    ∃ init span, tokens = init ++ [⟨.newline, span⟩] := by
  induction h with
  | @last _ span _ => exact ⟨[], span, rfl⟩
  | blank _ _ ih => exact ih
  | comment _ _ ih => exact ih
  | @token _ _ kind span _ _ _ ih =>
    obtain ⟨init, place, rfl⟩ := ih
    exact ⟨⟨kind, span⟩ :: init, place, rfl⟩

end ReadsLines

end Bnf
