import Bnf.Proofs.Cutting

/-!
# Terminals are read as they were written

Tokens are read one after the other, so the first of them is read whatever comes of the others. If a
text starts with the written form of a literal or of a set, this is its first token, and what comes
behind is left as it was. The text behind may be anything: it may have more characters of the sort
that escapes are for, or no tokens at all.

## Main definitions

- `readNext` — the next token of a text, and what is left behind it
- `ReadFirst` — a text is read as a token, whatever comes behind

## Main results

- `readTokens_eq_readNext` — all tokens are read one after the other
- `written_terminals_read_first` — literals and sets are read as they were written
-/

namespace Bnf

/-- The next token of the rest of a text that ends at `stop`, and what is left behind it. There is
    none if there are blanks and comments only. -/
def readNext (stop : Nat) (cs : List Located) :
    Except ParseError (Option (Token × List Located)) :=
  match cs with
  | [] => .ok none
  | (start, c) :: cs =>
    if isBlank c then readNext stop cs
    else if c = '#' then
      have := skipComment_length cs
      readNext stop (skipComment cs)
    else
      (readToken start c cs).map fun (kind, rest) =>
        some (⟨kind, ⟨start, offsetOf stop rest⟩⟩, rest)
termination_by cs.length

/-- **Tokens are read one after the other.** -/
theorem readTokens_eq_readNext (stop : Nat) (cs : List Located) :
    readTokens stop cs = (readNext stop cs).bind fun
      | none => .ok []
      | some (token, rest) => (readTokens stop rest).map (token :: ·) := by
  fun_induction readNext stop cs with
  | case1 => rw [readTokens]; rfl
  | case2 start c cs hblank ih => rw [readTokens, if_pos hblank, ih]
  | case3 start cs hlength hblank ih => rw [readTokens, if_neg hblank, if_pos rfl, ih]
  | case4 start c cs hblank hcomment =>
    rw [readTokens_cons (by simpa using hblank) hcomment]
    cases readToken start c cs <;> rfl

/-- **A text is read first**: whatever comes behind it, it is one token, and what comes behind is
    left to be read. -/
structure ReadFirst (text : List Char) (kind : TokenKind) : Prop where
  next : ∀ offset rest,
    readNext (offset + byteLength (text ++ rest)) (locate offset (text ++ rest)) =
      .ok (some (⟨kind, ⟨offset, offset + byteLength text⟩⟩,
        locate (offset + byteLength text) rest))
  tokens : ∀ offset rest,
    readTokens (offset + byteLength (text ++ rest)) (locate offset (text ++ rest)) =
      (readTokens (offset + byteLength (text ++ rest))
        (locate (offset + byteLength text) rest)).map
          (⟨kind, ⟨offset, offset + byteLength text⟩⟩ :: ·)

theorem readFirst_of_readsAs {text : List Char} {kind : TokenKind}
    (h : ∀ rest, ReadsAs text kind rest) : ReadFirst text kind := by
  have hnext (offset : Nat) (rest : List Char) :
      readNext (offset + byteLength (text ++ rest)) (locate offset (text ++ rest)) =
        .ok (some (⟨kind, ⟨offset, offset + byteLength text⟩⟩,
          locate (offset + byteLength text) rest)) := by
    obtain ⟨first, more, rfl, hblank, hcomment, hread⟩ := h rest
    rw [byteLength_append, ← Nat.add_assoc, List.cons_append, locate, readNext,
      if_neg (by simp [hblank]), if_neg hcomment, hread]
    simp only [Except.map, offsetOf_locate]
  refine ⟨hnext, fun offset rest => ?_⟩
  rw [readTokens_eq_readNext, hnext]
  rfl

/-- **Terminals are read as they were written**, whatever comes behind them. -/
theorem written_terminals_read_first :
    (∀ chars, ReadFirst (writeLiteral chars) (.literal chars)) ∧
      (∀ set : CharSet, set.isAny = false → set.ranges ≠ [] →
        (∀ r ∈ set.ranges, r.start ≤ r.stop) → ReadFirst (writeSet set) (.set set)) ∧
      ∀ set : CharSet, set.isAny = true → ReadFirst (writeSet set) .any := by
  refine ⟨fun chars => readFirst_of_readsAs (readsAs_writeLiteral chars),
    fun set hany hranges horder => readFirst_of_readsAs fun rest => ?_,
    fun set hany => readFirst_of_readsAs fun rest => ?_⟩
  · have hreads := readsAs_writeSet (.inr ⟨hranges, horder⟩ : set.Valid) rest
    rwa [CharSet.token, hany] at hreads
  · have hreads := readsAs_writeSet (.inl hany : set.Valid) rest
    rwa [CharSet.token, hany] at hreads

/-- A negated class of signs that have a meaning between brackets, and of control characters. -/
theorem written_signs_read_first :
    writeSet ⟨true, [⟨'-', '^'⟩, ⟨'\\', '\u009f'⟩, .single ']']⟩ =
        "[^\\--\\^\\\\-\\x9F\\]]".toList ∧
      ReadFirst "[^\\--\\^\\\\-\\x9F\\]]".toList
        (.set ⟨true, [⟨'-', '^'⟩, ⟨'\\', '\u009f'⟩, .single ']']⟩) := by
  have hwritten : writeSet ⟨true, [⟨'-', '^'⟩, ⟨'\\', '\u009f'⟩, .single ']']⟩ =
      "[^\\--\\^\\\\-\\x9F\\]]".toList := by decide +kernel
  have hread := written_terminals_read_first.2.1
    ⟨true, [⟨'-', '^'⟩, ⟨'\\', '\u009f'⟩, .single ']']⟩ rfl (by simp) (by decide)
  rw [hwritten] at hread
  exact ⟨hwritten, hread⟩

end Bnf
