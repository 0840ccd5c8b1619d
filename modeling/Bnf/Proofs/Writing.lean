import Bnf.Proofs.Boundaries
import Mathlib.Tactic.SplitIfs
import Bnf.Token.Lexer

/-!
# Reading what was written

A writer escapes a character where it would mean something else to a reader. So a reader finds the
characters of a literal and the ranges of a class again, whatever text follows, and stops where
their written form stops.

## Main results

- `writeChar_cases` — a character stands for itself, or for an escape that is read back
- `readLiteral_write` — the characters of a literal are read back
- `readRanges_write` — the ranges of a class are read back
- `readsAs_writeLiteral`, `readsAs_writeSet` — so are the tokens
-/

namespace Bnf

/-! ## Numeric escapes -/

theorem hexDigit?_toUpper_digitChar : ∀ d < 16, hexDigit? (Nat.digitChar d).toUpper = some d := by
  decide

/-- Two digits are enough below 256. -/
theorem upperHex_two {n : Nat} (h : n < 256) :
    upperHex 2 n = [(Nat.digitChar (n / 16)).toUpper, (Nat.digitChar (n % 16)).toUpper] := by
  by_cases hsmall : n < 16
  · have hdiv : n / 16 = 0 := by omega
    have hmod : n % 16 = n := by omega
    rw [upperHex, Nat.toDigits_of_lt_base hsmall, hdiv, hmod]
    rfl
  · rw [upperHex, Nat.toDigits_of_base_le (by omega) (by omega), Nat.toDigits_of_lt_base (by omega)]
    rfl

/-- Two digits are read back. -/
theorem readHexEscape_upperHex {n : Nat} (h : n < 256) (hvalid : n.isValidChar)
    (offset : Nat) (rest : List Char) :
    readHexEscape 2 2 0 (locate offset (upperHex 2 n ++ rest)) =
      .ok (Char.ofNat n, locate (offset + byteLength (upperHex 2 n)) rest) := by
  have hhigh := hexDigit?_toUpper_digitChar (n / 16) (by omega)
  have hlow := hexDigit?_toUpper_digitChar (n % 16) (by omega)
  have hsum : 16 * (n / 16) + n % 16 = n := Nat.div_add_mod n 16
  rw [upperHex_two h]
  simp [locate, readHexEscape, hhigh, hlow, hsum, hvalid, byteLength, Nat.add_assoc]

/-! ## Characters -/

/-- So is a short escape. -/
theorem readEscape_short {quoting : Quoting} {sign c : Char}
    (h : shortEscape? quoting sign = some c) (place offset : Nat) (rest : List Char) :
    readEscapeAt quoting place (locate offset ([sign] ++ rest)) =
      .ok (c, locate (offset + byteLength [sign]) rest) := by
  simp [locate, readEscapeAt, readEscape, h, byteLength]

theorem readEscape_upperHex {quoting : Quoting} {c : Char} (h : c.toNat < 256)
    (place offset : Nat) (rest : List Char) :
    readEscapeAt quoting place (locate offset ('x' :: upperHex 2 c.toNat ++ rest)) =
      .ok (c, locate (offset + byteLength ('x' :: upperHex 2 c.toNat)) rest) := by
  have hshort : shortEscape? quoting 'x' = none := by cases quoting <;> rfl
  have hlength : hexLength? 'x' = some 2 := rfl
  rw [List.cons_append, locate, readEscapeAt, readEscape]
  simp only [hshort, hlength]
  rw [readHexEscape_upperHex h c.valid, Char.ofNat_toNat, byteLength, Nat.add_assoc]

/-- **A written character** stands for itself and means nothing else where it stands, or it is an
    escape that is read back. -/
theorem writeChar_cases (quoting : Quoting) (c : Char) :
    (writeChar quoting c = [c] ∧ c ≠ '\\' ∧ (quoting = .literal → c ≠ '"') ∧
      (quoting = .bracketed → c ∉ [']', '-', '^'])) ∨
    ∃ escape, writeChar quoting c = '\\' :: escape ∧ ∀ place offset rest,
      readEscapeAt quoting place (locate offset (escape ++ rest)) =
        .ok (c, locate (offset + byteLength escape) rest) := by
  rw [writeChar]
  split_ifs with hnewline htab hreturn hbackslash hquote hbracket hcontrol
  · exact .inr ⟨['n'], rfl, readEscape_short (by subst hnewline; cases quoting <;> rfl)⟩
  · exact .inr ⟨['t'], rfl, readEscape_short (by subst htab; cases quoting <;> rfl)⟩
  · exact .inr ⟨['r'], rfl, readEscape_short (by subst hreturn; cases quoting <;> rfl)⟩
  · exact .inr ⟨['\\'], rfl, readEscape_short (by subst hbackslash; cases quoting <;> rfl)⟩
  · obtain ⟨rfl, rfl⟩ := hquote
    exact .inr ⟨['"'], rfl, readEscape_short rfl⟩
  · obtain ⟨hsign, rfl⟩ := hbracket
    refine .inr ⟨[c], rfl, readEscape_short ?_⟩
    obtain rfl | rfl | rfl : c = ']' ∨ c = '-' ∨ c = '^' := by simpa using hsign
    all_goals rfl
  · -- Control characters are among those that two hexadecimal digits can name.
    have hlow : c.toNat < 256 := by
      simp only [isControl, Bool.or_eq_true, Bool.and_eq_true, decide_eq_true_eq] at hcontrol
      omega
    exact .inr ⟨'x' :: upperHex 2 c.toNat, rfl, readEscape_upperHex hlow⟩
  · refine .inl ⟨rfl, hbackslash, fun hliteral hc => hquote ⟨hc, hliteral⟩, fun hb hc => ?_⟩
    exact hbracket ⟨hc, hb⟩

/-! ## Literals -/

/-- **The characters of a literal are read back.** -/
theorem readLiteral_write (start offset : Nat) (chars rest : List Char) :
    readLiteral start (locate offset (chars.flatMap (writeChar .literal) ++ '"' :: rest)) =
      .ok (chars,
        locate (offset + byteLength (chars.flatMap (writeChar .literal) ++ ['"'])) rest) := by
  induction chars generalizing offset with
  | nil => simp [locate, readLiteral, byteLength]
  | cons c chars ih =>
    rw [List.flatMap_cons, List.append_assoc]
    obtain ⟨hwritten, hbackslash, hquote, -⟩ | ⟨escape, hwritten, hread⟩ :=
      writeChar_cases .literal c
    · rw [hwritten, List.singleton_append, locate, readLiteral, if_neg (hquote rfl),
        if_neg hbackslash, ih]
      simp [Except.map, byteLength, Nat.add_assoc]
    · have hescape := hread offset (offset + Char.utf8Size '\\')
        (chars.flatMap (writeChar .literal) ++ '"' :: rest)
      rw [hwritten, List.cons_append, locate, readLiteral, if_neg (by decide), if_pos rfl]
      split
      · next e herror => simp [herror] at hescape
      · next found left hfound =>
        cases hfound.symm.trans hescape
        rw [ih]
        simp [Except.map, byteLength, Nat.add_assoc]

/-! ## Character classes -/

/-- **A character of a class is read back.** Its first sign is none that ends the class, makes a
    range, or negates the class. -/
theorem readClassChar_write (c : Char) :
    ∃ first more, writeChar .bracketed c = first :: more ∧ first ∉ [']', '-', '^'] ∧
      ∀ place offset rest, readClassChar place first (locate offset (more ++ rest)) =
        .ok (c, locate (offset + byteLength more) rest) := by
  obtain ⟨hwritten, hbackslash, -, hsign⟩ | ⟨escape, hwritten, hread⟩ :=
    writeChar_cases .bracketed c
  · refine ⟨c, [], hwritten, hsign rfl, fun place offset rest => ?_⟩
    rw [readClassChar, if_neg hbackslash]
    rfl
  · refine ⟨'\\', escape, hwritten, by decide, fun place offset rest => ?_⟩
    rw [readClassChar, if_pos rfl, hread]

theorem readRangeEnd_single (place : Nat) (c : Char) {offset : Nat} {rest : List Char}
    (h : rest.head? ≠ some '-') :
    readRangeEnd place c (locate offset rest) = .ok (.single c, locate offset rest) := by
  unfold readRangeEnd
  split
  · next next last more hcs =>
    cases rest with
    | nil => simp [locate] at hcs
    | cons first rest =>
      simp only [locate, List.cons.injEq, Prod.mk.injEq] at hcs
      exact absurd (congrArg some hcs.1.2) h
  · rfl

/-- **A range is read back**, if its ends are in order. -/
theorem readRange_write {r : CharRange} (h : r.start ≤ r.stop) :
    ∃ first more, writeRange r = first :: more ∧ first ∉ [']', '-', '^'] ∧
      ∀ offset rest, rest.head? ≠ some '-' →
        readRange offset first (locate (offset + first.utf8Size) (more ++ rest)) =
          .ok (r, locate (offset + byteLength (first :: more)) rest) := by
  obtain ⟨first, more, hwritten, hfirst, hread⟩ := readClassChar_write r.start
  by_cases hsingle : r.isSingle = true
  · refine ⟨first, more, by rw [writeRange, if_pos hsingle, hwritten], hfirst, ?_⟩
    intro offset rest hrest
    -- A range of one character is written without its second end.
    have hr : CharRange.single r.start = r := by
      obtain ⟨start, stop⟩ := r
      have : start = stop := by simpa [CharRange.isSingle] using hsingle
      rw [CharRange.single, this]
    rw [readRange, hread]
    simp only
    rw [readRangeEnd_single _ _ hrest, hr, byteLength, Nat.add_assoc]
  · obtain ⟨last, others, hlast, hlastSign, hreadLast⟩ := readClassChar_write r.stop
    refine ⟨first, more ++ '-' :: last :: others, ?_, hfirst, ?_⟩
    · rw [writeRange, if_neg hsingle, hwritten, hlast]
      rfl
    · intro offset rest _
      have hbracket : last ≠ ']' := by
        rintro rfl
        exact hlastSign (by simp)
      rw [readRange, List.append_assoc, hread]
      simp only [List.cons_append, locate, readRangeEnd, if_neg hbracket, hreadLast]
      rw [if_neg (by simpa using h)]
      simp [byteLength, Nat.add_assoc]

/-- **The ranges of a class are read back**, if the ends of each are in order. -/
theorem readRanges_write (start offset : Nat) {ranges : List CharRange} (rest : List Char)
    (h : ∀ r ∈ ranges, r.start ≤ r.stop) :
    readRanges start (locate offset (ranges.flatMap writeRange ++ ']' :: rest)) =
      .ok (ranges, locate (offset + byteLength (ranges.flatMap writeRange ++ [']'])) rest) := by
  induction ranges generalizing offset with
  | nil => simp [locate, readRanges, byteLength]
  | cons r ranges ih =>
    rw [List.forall_mem_cons] at h
    obtain ⟨first, more, hwritten, hsign, hread⟩ := readRange_write h.1
    have hbracket : first ≠ ']' := by
      rintro rfl
      exact hsign (by simp)
    -- What follows a range does not start with a hyphen, which would make it a longer one.
    have hnext : (ranges.flatMap writeRange ++ ']' :: rest).head? ≠ some '-' := by
      cases ranges with
      | nil => simp
      | cons other ranges =>
        obtain ⟨first, more, hwritten, hsign, -⟩ := readRange_write (h.2 other (by simp))
        rw [List.flatMap_cons, hwritten]
        rintro ⟨⟩
        exact hsign (by simp)
    have hrange := hread offset _ hnext
    rw [List.flatMap_cons, hwritten, List.append_assoc, List.cons_append, locate, readRanges,
      if_neg hbracket]
    split
    · next e herror => simp [herror] at hrange
    · next found left hfound =>
      cases hfound.symm.trans hrange
      rw [ih _ h.2]
      simp [Except.map, byteLength, Nat.add_assoc]

/-- **The ranges of a class are read back**, if their ends are in order. -/
theorem readClassBody_write (start offset : Nat) (negated : Bool) {ranges : List CharRange}
    (rest : List Char) (hranges : ranges ≠ []) (h : ∀ r ∈ ranges, r.start ≤ r.stop) :
    readClassBody start negated (locate offset (ranges.flatMap writeRange ++ ']' :: rest)) =
      .ok (⟨negated, ranges⟩,
        locate (offset + byteLength (ranges.flatMap writeRange ++ [']'])) rest) := by
  obtain ⟨r, others, rfl⟩ := List.exists_cons_of_ne_nil hranges
  rw [readClassBody, readRanges_write start offset rest h]

/-- Ranges without a caret in front of them are those of a class that is not negated. -/
theorem readClass_write (start offset : Nat) {ranges : List CharRange} (rest : List Char)
    (hranges : ranges ≠ []) (h : ∀ r ∈ ranges, r.start ≤ r.stop) :
    readClass start (locate offset (ranges.flatMap writeRange ++ ']' :: rest)) =
      readClassBody start false (locate offset (ranges.flatMap writeRange ++ ']' :: rest)) := by
  obtain ⟨r, others, rfl⟩ := List.exists_cons_of_ne_nil hranges
  obtain ⟨first, more, hwritten, hsign, -⟩ := readRange_write (h r (by simp))
  rw [List.flatMap_cons, hwritten, List.append_assoc, List.cons_append, locate, readClass]
  rintro place left ⟨⟩
  exact hsign (by simp)

/-! ## Tokens -/

/-- A set that has a written form: all characters, or some ranges whose ends are in order. -/
def CharSet.Valid (s : CharSet) : Prop :=
  s.isAny = true ∨ s.ranges ≠ [] ∧ ∀ r ∈ s.ranges, r.start ≤ r.stop

/-- A set that accepts all is written as a point. -/
theorem CharSet.eq_any {s : CharSet} (h : s.isAny = true) : s = .any := by
  obtain ⟨negated, ranges⟩ := s
  obtain ⟨rfl, hranges⟩ := Bool.and_eq_true_iff.1 h
  obtain rfl : ranges = [] := List.isEmpty_iff.1 hranges
  rfl

/-- The token that a set is written as. -/
def CharSet.token (s : CharSet) : TokenKind :=
  if s.isAny then .any else .set s

/-- A text is read as one token of a kind in front of the text `rest`. -/
def ReadsAs (text : List Char) (kind : TokenKind) (rest : List Char) : Prop :=
  ∃ first more, text = first :: more ∧ isBlank first = false ∧ first ≠ '#' ∧ ∀ offset,
    readToken offset first (locate (offset + first.utf8Size) (more ++ rest)) =
      .ok (kind, locate (offset + byteLength text) rest)

/-- **A literal is read back**, whatever follows. -/
theorem readsAs_writeLiteral (chars rest : List Char) :
    ReadsAs (writeLiteral chars) (.literal chars) rest := by
  refine ⟨'"', chars.flatMap (writeChar .literal) ++ ['"'], rfl, rfl, by decide, fun offset => ?_⟩
  have hread := readLiteral_write offset (offset + Char.utf8Size '"') chars rest
  rw [List.append_assoc, List.singleton_append]
  show (readLiteral _ _).map _ = _
  rw [hread, writeLiteral, List.cons_append, byteLength, Nat.add_assoc]
  rfl

/-- **A set is read back**, whatever follows. -/
theorem readsAs_writeSet {s : CharSet} (h : s.Valid) (rest : List Char) :
    ReadsAs (writeSet s) s.token rest := by
  rw [writeSet, CharSet.token]
  by_cases hany : s.isAny = true
  · rw [if_pos hany, if_pos hany]
    exact ⟨'.', [], rfl, rfl, by decide, fun offset => rfl⟩
  · rw [if_neg hany, if_neg hany]
    obtain ⟨hranges, horder⟩ := h.resolve_left hany
    obtain ⟨negated, ranges⟩ := s
    cases negated with
    | false =>
      refine ⟨'[', ranges.flatMap writeRange ++ [']'], rfl, rfl, by decide, fun offset => ?_⟩
      have hread :=
        readClassBody_write offset (offset + Char.utf8Size '[') false rest hranges horder
      rw [List.append_assoc, List.singleton_append]
      show (readClass _ _).map _ = _
      rw [readClass_write _ _ _ hranges horder, hread]
      simp [Except.map, byteLength, Nat.add_assoc]
    | true =>
      refine ⟨'[', '^' :: ranges.flatMap writeRange ++ [']'], rfl, rfl, by decide, fun offset => ?_⟩
      have hread := readClassBody_write offset
        (offset + Char.utf8Size '[' + Char.utf8Size '^') true rest hranges horder
      rw [List.append_assoc, List.singleton_append, List.cons_append]
      show (readClassBody _ _ _).map _ = _
      rw [hread]
      simp [Except.map, byteLength, Nat.add_assoc]

theorem readsAs_define (rest : List Char) : ReadsAs [':', ':', '='] .define rest :=
  ⟨':', [':', '='], rfl, rfl, by decide, fun _ => rfl⟩

theorem readsAs_bar (rest : List Char) : ReadsAs ['|'] .bar rest :=
  ⟨'|', [], rfl, rfl, by decide, fun _ => rfl⟩

theorem readsAs_newline (rest : List Char) : ReadsAs ['\n'] .newline rest :=
  ⟨'\n', [], rfl, rfl, by decide, fun _ => rfl⟩

/-- The characters of a name: one at least. -/
def IsName (name : String) : Prop :=
  name.toList ≠ [] ∧ ∀ c ∈ name.toList, isNameChar c = true

/-- A word of characters with a property ends at the first one without it. -/
theorem locate_span {p : Char → Bool} {word rest : List Char} (hword : ∀ c ∈ word, p c = true)
    (hrest : ∀ c, rest.head? = some c → p c = false) (offset : Nat) :
    ((locate offset (word ++ rest)).takeWhile fun (_, c) => p c) = locate offset word ∧
      ((locate offset (word ++ rest)).dropWhile fun (_, c) => p c) =
        locate (offset + byteLength word) rest := by
  induction word generalizing offset with
  | nil =>
    -- The word is at an end; what follows stops the search at once.
    cases rest with
    | nil => exact ⟨rfl, rfl⟩
    | cons c rest => simp [locate, hrest c rfl, byteLength]
  | cons c word ih =>
    rw [List.forall_mem_cons] at hword
    obtain ⟨htake, hdrop⟩ := ih hword.2 (offset + c.utf8Size)
    simp [locate, hword.1, htake, hdrop, byteLength, Nat.add_assoc]

theorem readToken_name {c : Char} (h : isNameChar c = true) (start : Nat) (cs : List Located) :
    readToken start c cs =
      .ok (.name (String.ofList (c :: (cs.takeWhile fun (_, c) => isNameChar c).map (·.2))),
        cs.dropWhile fun (_, c) => isNameChar c) := by
  unfold readToken
  split
  case h_14 => rw [if_pos h]
  all_goals exact absurd h (by decide)

/-- **A name is read back** in front of anything that does not go on with the name. -/
theorem readsAs_name {name : String} (h : IsName name) {rest : List Char}
    (hrest : ∀ c, rest.head? = some c → isNameChar c = false) :
    ReadsAs name.toList (.name name) rest := by
  obtain ⟨hne, hchars⟩ := h
  obtain ⟨first, more, hname⟩ := List.exists_cons_of_ne_nil hne
  rw [hname, List.forall_mem_cons] at hchars
  have hother {c : Char} (hc : isNameChar c = false) : first ≠ c := by
    rintro rfl
    rw [hchars.1] at hc
    exact absurd hc (by simp)
  refine ⟨first, more, hname, ?_, hother rfl, fun offset => ?_⟩
  · simp [isBlank, @hother ' ' rfl, @hother '\t' rfl]
  · obtain ⟨htake, hdrop⟩ := locate_span hchars.2 hrest (offset + first.utf8Size)
    rw [readToken_name hchars.1, htake, hdrop, map_snd_locate, ← hname, String.ofList_toList, hname,
      byteLength, Nat.add_assoc]

end Bnf
