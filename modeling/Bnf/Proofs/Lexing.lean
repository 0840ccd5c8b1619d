import Bnf.Proofs.Writing

/-!
# Every token is well formed

The names among the tokens of a text have a character at least and are made of the characters of
names, and the classes have a range at least and no range whose ends are in the wrong order. So all
that a text can bring into a grammar has a written form.

## Main definitions

- `TokenKind.Valid` — what a reader makes sure of

## Main results

- `valid_of_tokenize` — all tokens of a text are valid
-/

namespace Bnf

/-- Names and sets among the tokens have a written form. -/
def TokenKind.Valid : TokenKind → Prop
  | .name text => IsName text
  | .set s => s.Valid
  | _ => True

/-- The ends of a range are compared when the second one is read. -/
theorem le_of_readRangeEnd {place : Nat} {first : Char} {cs rest : List Located} {r : CharRange}
    (h : readRangeEnd place first cs = .ok (r, rest)) : r.start ≤ r.stop := by
  unfold readRangeEnd at h
  split at h
  · split at h
    · cases h
      exact Char.le_refl _
    · split at h
      · simp at h
      · split at h
        · simp at h
        · next horder =>
          cases h
          exact Char.not_lt.1 horder
  · cases h
    exact Char.le_refl _

/-- So the ends of a range are in order, also if it is a single character. -/
theorem le_of_readRange {place : Nat} {c : Char} {cs rest : List Located} {r : CharRange}
    (h : readRange place c cs = .ok (r, rest)) : r.start ≤ r.stop := by
  rw [readRange] at h
  split at h
  · simp at h
  · exact le_of_readRangeEnd h

/-- So they are in all ranges of a class. -/
theorem le_of_readRanges {start : Nat} {cs rest : List Located} {ranges : List CharRange}
    (h : readRanges start cs = .ok (ranges, rest)) : ∀ r ∈ ranges, r.start ≤ r.stop := by
  fun_induction readRanges start cs generalizing ranges rest with
  | case1 => simp at h
  | case2 =>
    cases h
    simp
  | case3 => simp at h
  | case4 offset c cs _ range left hrange _ ih =>
    cases hothers : readRanges start left with
    | error e => simp [hothers, Except.map] at h
    | ok found =>
      simp only [hothers, Except.map, Except.ok.injEq, Prod.mk.injEq] at h
      rw [← h.1, List.forall_mem_cons]
      exact ⟨le_of_readRange hrange, ih hothers⟩

/-- A class without ranges is refused, if it is not negated. -/
theorem valid_of_readClassBody {start : Nat} {negated : Bool} {cs rest : List Located}
    {s : CharSet} (h : readClassBody start negated cs = .ok (s, rest)) : s.Valid := by
  rw [readClassBody] at h
  split at h
  · simp at h
  · simp at h
  · next ranges left hne hranges =>
    cases h
    refine .inr ⟨?_, le_of_readRanges hranges⟩
    rintro rfl
    exact hne rfl

theorem valid_of_readClass {start : Nat} {cs rest : List Located} {s : CharSet}
    (h : readClass start cs = .ok (s, rest)) : s.Valid := by
  unfold readClass at h
  split at h
  · exact valid_of_readClassBody h
  · exact valid_of_readClassBody h

/-- The other tokens have no set to look at. -/
theorem valid_of_readToken {start : Nat} {c : Char} {cs rest : List Located} {kind : TokenKind}
    (h : readToken start c cs = .ok (kind, rest)) : kind.Valid := by
  unfold readToken at h
  split at h
  case h_2 => split at h <;> cases h <;> trivial
  case h_10 =>
    split at h
    · cases h
      trivial
    · simp at h
  case h_11 =>
    cases hread : readLiteral start cs with
    | error e => simp [hread, Except.map] at h
    | ok found =>
      rw [hread] at h
      cases h
      trivial
  case h_12 =>
    cases hread : readClass start cs with
    | error e => simp [hread, Except.map] at h
    | ok found =>
      rw [hread] at h
      cases h
      exact valid_of_readClass hread
  case h_13 =>
    split at h
    · cases h
      trivial
    · simp at h
  case h_14 =>
    split at h
    · next hfirst =>
      cases h
      refine ⟨by simp, ?_⟩
      rw [String.toList_ofList, List.forall_mem_cons, List.forall_mem_map]
      exact ⟨hfirst, List.all_eq_true.1 List.all_takeWhile⟩
    · simp at h
  all_goals
    cases h
    trivial

/-- **Every token of a text has a form that can be written.** -/
theorem valid_of_readTokens {stop : Nat} {cs : List Located} {tokens : List Token}
    (h : readTokens stop cs = .ok tokens) : ∀ token ∈ tokens, token.kind.Valid := by
  fun_induction readTokens stop cs generalizing tokens with
  | case1 =>
    cases h
    simp
  | case2 start c cs _ ih => exact ih h
  | case3 start cs _ _ ih => exact ih h
  | case4 => simp at h
  | case5 start c cs _ _ kind rest hread _ ih =>
    cases hothers : readTokens stop rest with
    | error e => simp [hothers, Except.map] at h
    | ok others =>
      rw [hothers] at h
      cases h
      exact List.forall_mem_cons.2 ⟨valid_of_readToken hread, ih hothers⟩

/-- **All tokens of a text are valid.** -/
theorem valid_of_tokenize {source : String} {tokens : List Token}
    (h : tokenize source = .ok tokens) : ∀ token ∈ tokens, token.kind.Valid :=
  valid_of_readTokens (tokenize_of_lt (lt_of_tokenize h) ▸ h)

end Bnf
