import Bnf.Proofs.Tree.Parts

/-!
# How deep groups are nested, told from the tokens

Whoever counts parentheses sees how many are open behind each token. Behind the tokens of a part of
a tree as many are open as in front of it, and in between there are at most as many more as groups
of the part are open at once.

## Main definitions

- `openBehind` — how many parentheses are open behind some tokens
- `mostOpen` — how many parentheses are open at once
- `Nested` — tokens whose parentheses match, with the depth of their groups

## Main results

- `mostOpen_le_iff` — the most that are open at once, by the beginnings of the tokens
- `Tree.Spells.mostOpen_le_iff` — the depth of rules, told from their tokens
-/

namespace Bnf

/-- How many parentheses are open behind a token if `n` are open in front of it. -/
def Token.openBehind (n : Nat) (token : Token) : Nat :=
  match token.kind with
  | .openParen => n + 1
  | .closeParen => n - 1
  | _ => n

/-- How many parentheses are open behind some tokens if `n` are open in front of them. -/
def openBehind (n : Nat) (tokens : List Token) : Nat :=
  tokens.foldl Token.openBehind n

/-- How many parentheses are open at once, in front of some tokens or behind one of them, if `n` are
    open in front of them. -/
def mostOpen (n : Nat) : List Token → Nat
  | [] => n
  | token :: rest => max n (mostOpen (token.openBehind n) rest)

section Counting

variable {n most : Nat} {token : Token} {tokens others : List Token}

/-- Only parentheses open or close anything. -/
theorem Token.openBehind_of_ne (hopen : token.kind ≠ .openParen)
    (hclose : token.kind ≠ .closeParen) : token.openBehind n = n := by
  rw [Token.openBehind]
  split
  · contradiction
  · contradiction
  · rfl

theorem openBehind_cons : openBehind n (token :: tokens) = openBehind (token.openBehind n) tokens :=
  rfl

/-- What is open behind tokens is open before those that follow. -/
theorem openBehind_append :
    openBehind n (tokens ++ others) = openBehind (openBehind n tokens) others :=
  List.foldl_append

/-- What is open at the start counts. -/
theorem le_mostOpen : n ≤ mostOpen n tokens := by
  cases tokens with
  | nil => exact Nat.le_refl n
  | cons token rest => exact Nat.le_max_left _ _

/-- The most that are open at a time are so within one of two parts. -/
theorem mostOpen_append :
    mostOpen n (tokens ++ others) =
      max (mostOpen n tokens) (mostOpen (openBehind n tokens) others) := by
  induction tokens generalizing n with
  | nil => exact (Nat.max_eq_right le_mostOpen).symm
  | cons token rest ih =>
    rw [List.cons_append, mostOpen, mostOpen, ih, Nat.max_assoc, openBehind_cons]

/-- **The most parentheses that are open at once**: no beginning of the tokens leaves more open. -/
theorem mostOpen_le_iff :
    mostOpen n tokens ≤ most ↔ ∀ front, front <+: tokens → openBehind n front ≤ most := by
  induction tokens generalizing n with
  | nil =>
    simp only [List.prefix_nil]
    constructor
    · rintro h front rfl
      exact h
    · intro h
      exact h [] rfl
  | cons token rest ih =>
    rw [mostOpen, Nat.max_le, ih]
    constructor
    · rintro ⟨hfront, hrest⟩ front hprefix
      -- a beginning is empty, or the first token and a beginning of the others
      obtain rfl | ⟨tail, rfl, htail⟩ := List.prefix_cons_iff.1 hprefix
      · exact hfront
      · exact hrest tail htail
    · intro h
      refine ⟨h [] (List.nil_prefix), fun front hprefix => ?_⟩
      exact h (token :: front) ((List.cons_prefix_cons).2 ⟨rfl, hprefix⟩)

theorem Token.openBehind_mono (token : Token) {m n : Nat} (h : m ≤ n) :
    token.openBehind m ≤ token.openBehind n := by
  rw [Token.openBehind, Token.openBehind]
  split <;> omega

/-- What is open around tokens stays open, if they do not close it. -/
theorem openBehind_mono (tokens : List Token) {m n : Nat} (h : m ≤ n) :
    openBehind m tokens ≤ openBehind n tokens := by
  induction tokens generalizing m n with
  | nil => exact h
  | cons token tokens ih => exact ih (token.openBehind_mono h)

end Counting

/-! ## Matching parentheses -/

/-- Tokens whose parentheses match, and of whose groups at most `depth` are open at once. -/
def Nested (tokens : List Token) (depth : Nat) : Prop :=
  ∀ n, openBehind n tokens = n ∧ mostOpen n tokens = n + depth

namespace Nested

variable {token : Token} {tokens others : List Token} {depth other : Nat}

theorem nil : Nested [] 0 := by
  intro n
  exact ⟨rfl, rfl⟩

theorem singleton (hopen : token.kind ≠ .openParen := by simp)
    (hclose : token.kind ≠ .closeParen := by simp) : Nested [token] 0 := by
  intro n
  have hbehind : token.openBehind n = n := Token.openBehind_of_ne hopen hclose
  exact ⟨hbehind, by simp [mostOpen, hbehind]⟩

/-- Nested parts one behind the other go as deep as the deeper one. -/
theorem append (h : Nested tokens depth) (hothers : Nested others other) :
    Nested (tokens ++ others) (max depth other) := by
  intro n
  obtain ⟨hbehind, hmost⟩ := h n
  obtain ⟨hbehind', hmost'⟩ := hothers n
  rw [openBehind_append, mostOpen_append, hbehind, hbehind', hmost, hmost']
  exact ⟨rfl, Nat.add_max_add_left n depth other⟩

/-- Parentheses around what is nested go one deeper. -/
theorem group (opening closing : Span) (h : Nested tokens depth) :
    Nested (⟨.openParen, opening⟩ :: (tokens ++ [⟨.closeParen, closing⟩])) (depth + 1) := by
  intro n
  obtain ⟨hbehind, hmost⟩ := h (n + 1)
  have hopening : (⟨.openParen, opening⟩ : Token).openBehind n = n + 1 := rfl
  have hclosing : (⟨.closeParen, closing⟩ : Token).openBehind (n + 1) = n := rfl
  rw [openBehind_cons, mostOpen, hopening, openBehind_append, mostOpen_append, hbehind, hmost,
    openBehind_cons, mostOpen, hclosing]
  refine ⟨rfl, ?_⟩
  rw [mostOpen]
  omega

/-- Behind tokens whose parentheses match the count goes on as in front of them. -/
theorem openBehind_skip {n : Nat} (h : Nested tokens depth) :
    openBehind n (tokens ++ others) = openBehind n others := by
  rw [openBehind_append, (h n).1]

/-- Between parentheses that match, the parentheses around them stay open. -/
theorem openBehind_pos {front back : List Token} {depth : Nat}
    (h : Nested (front ++ back) depth) (n : Nat) : 0 < openBehind (n + 1) front := by
  refine Nat.pos_of_ne_zero fun hmore => ?_
  have hless : openBehind 0 front = 0 :=
    Nat.le_zero.1 (Nat.le_trans (openBehind_mono front (Nat.zero_le (n + 1))) (Nat.le_of_eq hmore))
  -- What comes behind cannot tell how many were open in front.
  have hfirst := (h (n + 1)).1
  have hsecond := (h 0).1
  rw [openBehind_append, hmore] at hfirst
  rw [openBehind_append, hless] at hsecond
  omega

end Nested

/-- Line breaks open nothing. -/
theorem Newlines.nested {gap : List Token} (h : Newlines gap) : Nested gap 0 := by
  induction gap with
  | nil => exact .nil
  | cons token gap ih =>
    have hkind := h token (by simp)
    have hgap := ih fun other hother => h other (by simp [hother])
    exact (Nested.singleton (by simp [hkind]) (by simp [hkind])).append hgap

namespace Tree

theorem sequenceDepth_append (terms others : List Term) :
    sequenceDepth (terms ++ others) = max (sequenceDepth terms) (sequenceDepth others) := by
  induction terms with
  | nil => simp [sequenceDepth]
  | cons term terms ih => rw [List.cons_append, sequenceDepth, sequenceDepth, ih, Nat.max_assoc]

theorem alternationDepth_append (alternatives others : List (List Term)) :
    alternationDepth (alternatives ++ others) =
      max (alternationDepth alternatives) (alternationDepth others) := by
  induction alternatives with
  | nil => simp [alternationDepth]
  | cons terms alternatives ih =>
    rw [List.cons_append, alternationDepth, alternationDepth, ih, Nat.max_assoc]

mutual

/-- **Tokens that spell a tree are nested as deep as the tree is.** The cases are those of the
    spelling. -/
theorem Atom.Spelled.nested {atom : Atom} {tokens : List Token} :
    atom.Spelled tokens → Nested tokens atom.depth
  | .literal | .set | .any | .name => .singleton
  | @Atom.Spelled.group opening closing _ _ _ _ hfront hinner hback => by
    have hbetween := hfront.nested.append (hinner.nested.append hback.nested)
    simpa [Atom.depth] using hbetween.group opening closing

theorem Term.Spelled.nested {term : Term} {tokens : List Token} :
    term.Spelled tokens → Nested tokens term.depth
  | .plain hatom => hatom.nested
  | @Term.Spelled.repeated _ _ kind _ span hatom hkind => by
    have hoperator : Nested [⟨kind, span⟩] 0 := by
      apply Nested.singleton
      all_goals
        rintro rfl
        cases hkind
    simpa [Term.depth] using hatom.nested.append hoperator

theorem SequenceSpelled.nested {nested : Bool} {terms : List Term} {tokens : List Token} :
    SequenceSpelled nested terms tokens → Nested tokens (sequenceDepth terms)
  | .one hterm => by
    simpa [sequenceDepth] using hterm.nested
  | .more hterms hgap _ hlast => by
    have hmore := hterms.nested.append (hgap.nested.append hlast.nested)
    simpa [sequenceDepth_append, sequenceDepth] using hmore

theorem AlternationSpelled.nested {nested : Bool} {alternatives : List (List Term)}
    {tokens : List Token} :
    AlternationSpelled nested alternatives tokens → Nested tokens (alternationDepth alternatives)
  | .one hterms => by
    simpa [alternationDepth] using hterms.nested
  | @AlternationSpelled.more _ _ _ _ _ bar _ _ hinit hbefore hbar hafter hlast => by
    have hsign : Nested [bar] 0 := .singleton (by simp [hbar]) (by simp [hbar])
    have hmore := hinit.nested.append
      (hbefore.nested.append (hsign.append (hafter.nested.append hlast.nested)))
    simpa [alternationDepth_append, alternationDepth] using hmore

end

theorem Rule.Spelled.nested {rule : Rule} {tokens : List Token} (h : rule.Spelled tokens) :
    Nested tokens rule.depth := by
  obtain @⟨name, span, define, front, inner, alternatives, hdefine, hfront, hinner⟩ := h
  have hname : Nested [⟨.name name, span⟩] 0 := .singleton
  have hsign : Nested [define] 0 := .singleton (by simp [hdefine]) (by simp [hdefine])
  simpa [Rule.depth] using hname.append (hsign.append (hfront.nested.append hinner.nested))

/-- The depth of the rule whose groups are nested deepest. -/
def greatestDepth (rules : List Rule) : Nat :=
  rules.foldr (fun rule depth => max rule.depth depth) 0

/-- Rules are no deeper than a limit if none of them is. -/
theorem greatestDepth_le_iff {rules : List Rule} {most : Nat} :
    greatestDepth rules ≤ most ↔ ∀ rule ∈ rules, rule.depth ≤ most := by
  induction rules with
  | nil => simp [greatestDepth]
  | cons rule rules ih =>
    rw [List.forall_mem_cons, ← ih]
    exact Nat.max_le

theorem greatestDepth_concat {rules : List Rule} {rule : Rule} :
    greatestDepth (rules ++ [rule]) = max (greatestDepth rules) rule.depth := by
  induction rules with
  | nil => simp [greatestDepth]
  | cons first rules ih =>
    show max first.depth (greatestDepth (rules ++ [rule])) = _
    rw [ih, ← Nat.max_assoc]
    rfl

/-- Rules are nested as deep as the deepest of them. -/
theorem RulesSpelled.nested {rules : List Rule} {tokens : List Token}
    (h : RulesSpelled rules tokens) : Nested tokens (greatestDepth rules) := by
  induction h with
  | one hfront hrule => simpa [greatestDepth] using hfront.nested.append hrule.nested
  | more _ hgap _ hlast ih =>
    rw [greatestDepth_concat]
    simpa using ih.append (hgap.nested.append hlast.nested)

/-- So are the tokens of a text. -/
theorem Spells.nested {rules : List Rule} {tokens : List Token} (h : Spells rules tokens) :
    Nested tokens (greatestDepth rules) := by
  obtain ⟨front, back, hrules, hback, rfl⟩ := h
  simpa using hrules.nested.append hback.nested

/-- **The depth of rules, told from their tokens**: no more groups are open at once than
    parentheses are. -/
theorem Spells.mostOpen_le_iff {rules : List Rule} {tokens : List Token} {most : Nat}
    (h : Spells rules tokens) :
    mostOpen 0 tokens ≤ most ↔ ∀ rule ∈ rules, rule.depth ≤ most := by
  rw [(h.nested 0).2, Nat.zero_add, greatestDepth_le_iff]

end Tree

end Bnf
