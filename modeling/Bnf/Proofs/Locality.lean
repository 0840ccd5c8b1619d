import Bnf.Proofs.LexerPlaces
import Bnf.Proofs.Tree.Printing

/-!
# What a reader reads depends on what it takes

Every reader takes some characters of the text that is left and looks at most at the one behind
them. So it reads the same wherever these characters stand, if what comes behind them starts alike,
or with a line feed: no reader goes on with a line feed that it did not look for. A reader that
takes a closing sign does not even look at the character behind it.

## Main definitions

- `Alike` — a text may stand where another one stood
- `Local` — what a reader reads depends on what it takes
- `Closes` — characters that do not end with a line feed
- `Sealed` — what a reader reads depends on nothing else than what it takes

## Main results

- `Local.bind` — reading in two steps
- `local_readToken` — every token but a carriage return is read locally
- `ReadsAs.of_apart` — a token is read in front of anything that no name goes on with
-/

namespace Bnf

/-- A text that starts like another one, or with a line feed. -/
def Alike (rest more : List Char) : Prop :=
  more.head? = rest.head? ∨ more.head? = some '\n'

theorem Alike.refl (rest : List Char) : Alike rest rest :=
  .inl rfl

theorem Alike.append {rest more : List Char} (h : Alike rest more) (front : List Char) :
    Alike (front ++ rest) (front ++ more) := by
  cases front with
  | nil => exact h
  | cons c front => exact .inl rfl

/-- A text does not start with another character because it may stand where one stood that did not,
    unless this is a line feed. -/
theorem Alike.head?_ne {text other : List Char} {c : Char} (h : Alike text other) (hc : c ≠ '\n')
    (hne : text.head? ≠ some c) : other.head? ≠ some c := by
  obtain hsame | hfeed := h
  · rwa [hsame]
  · rw [hfeed]
    rintro ⟨⟩
    exact hc rfl

theorem locate_ne_cons {text : List Char} {c : Char} (h : text.head? ≠ some c) (place offset : Nat)
    (rest : List Located) : locate place text ≠ (offset, c) :: rest := by
  cases text with
  | nil => simp [locate]
  | cons d text =>
    rintro heq
    cases heq
    exact h rfl

/-- Characters of which the last one is no line feed. -/
def Closes (front : List Char) : Prop :=
  ∃ init c, front = init ++ [c] ∧ c ≠ '\n'

theorem Closes.append {front : List Char} (h : Closes front) (before : List Char) :
    Closes (before ++ front) := by
  obtain ⟨init, c, rfl, hc⟩ := h
  exact ⟨before ++ init, c, (List.append_assoc ..).symm, hc⟩

/-! ## Local readers -/

/-- **A reader is local on a text**: what it reads depends on the characters that it takes, and on
    no more of what comes behind than that this starts alike. The characters that it takes are known
    to have a property. -/
def Local {α : Type} (taken : List Char → Prop)
    (read read' : List Located → Option (α × List Located)) (text : List Char) : Prop :=
  ∀ offset a left, read (locate offset text) = some (a, left) →
    ∃ front rest, text = front ++ rest ∧ left = locate (offset + byteLength front) rest ∧
      taken front ∧ ∀ place more, Alike rest more →
        read' (locate place (front ++ more)) = some (a, locate (place + byteLength front) more)

namespace Local

variable {α β : Type} {taken other : List Char → Prop}
  {read read' : List Located → Option (α × List Located)} {text : List Char}

/-- A reader may take nothing. -/
theorem nothing (a : α) :
    Local (· = []) (fun cs => some (a, cs)) (fun cs => some (a, cs)) text := by
  rintro offset _ _ ⟨⟩
  exact ⟨[], text, rfl, rfl, rfl, fun _ _ _ => rfl⟩

/-- A reader that fails on a text is local on it. -/
theorem of_eq_none (h : ∀ offset, read (locate offset text) = none) :
    Local taken read read' text := by
  intro offset a left hleft
  rw [h] at hleft
  cases hleft

theorem mono (h : Local taken read read' text) (hother : ∀ front, taken front → other front) :
    Local other read read' text := by
  intro offset a left hleft
  obtain ⟨front, rest, htext, hrest, htaken, hmore⟩ := h offset a left hleft
  exact ⟨front, rest, htext, hrest, hother front htaken, hmore⟩

/-- A reader may look at the next character. -/
theorem congr {first first' : List Located → Option (α × List Located)}
    (h : Local taken first first' text)
    (hread : ∀ offset, read (locate offset text) = first (locate offset text))
    (hread' : ∀ place more, Alike text more →
      read' (locate place more) = first' (locate place more)) :
    Local taken read read' text := by
  intro offset a left hleft
  rw [hread] at hleft
  obtain ⟨front, rest, rfl, hrest, htaken, hmore⟩ := h offset a left hleft
  refine ⟨front, rest, rfl, hrest, htaken, fun place more halike => ?_⟩
  rw [hread' place (front ++ more) (halike.append front)]
  exact hmore place more halike

/-- A reader that takes something may look at the next character for anything. -/
theorem congr_of_head? {first first' : List Located → Option (α × List Located)}
    (h : Local (· ≠ []) first first' text)
    (hread : ∀ offset, read (locate offset text) = first (locate offset text))
    (hread' : ∀ place more, more.head? = text.head? →
      read' (locate place more) = first' (locate place more)) :
    Local (· ≠ []) read read' text := by
  intro offset a left hleft
  rw [hread] at hleft
  obtain ⟨front, rest, rfl, hrest, hsome, hmore⟩ := h offset a left hleft
  refine ⟨front, rest, rfl, hrest, hsome, fun place more halike => ?_⟩
  obtain ⟨c, tail, rfl⟩ := List.exists_cons_of_ne_nil hsome
  rw [hread' place (c :: tail ++ more) rfl]
  exact hmore place more halike

/-- The first characters are read by themselves. -/
theorem skip {next next' : List Located → Option (α × List Located)} (word : List Char)
    (h : Local taken next next' text) (htaken : ∀ front, taken front → other (word ++ front))
    (hread : ∀ offset more, read (locate offset (word ++ more)) =
      next (locate (offset + byteLength word) more))
    (hread' : ∀ offset more, read' (locate offset (word ++ more)) =
      next' (locate (offset + byteLength word) more)) : Local other read read' (word ++ text) := by
  intro offset a left hleft
  rw [hread] at hleft
  obtain ⟨front, rest, rfl, rfl, hfront, hmore⟩ := h _ a left hleft
  refine ⟨word ++ front, rest, (List.append_assoc ..).symm, ?_, htaken front hfront,
    fun place more halike => ?_⟩
  · rw [byteLength_append, Nat.add_assoc]
  · rw [List.append_assoc, hread', hmore _ more halike, byteLength_append, Nat.add_assoc]

/-- The first character is read by itself. -/
theorem cons {next next' : List Located → Option (α × List Located)} {c : Char}
    (h : Local taken next next' text) (htaken : ∀ front, taken front → other (c :: front))
    (hread : ∀ offset cs, read ((offset, c) :: cs) = next cs)
    (hread' : ∀ offset cs, read' ((offset, c) :: cs) = next' cs) :
    Local other read read' (c :: text) :=
  h.skip [c] htaken (fun _ _ => hread _ _) fun _ _ => hread' _ _

/-- **Reading in two steps** is local if both steps are, the second one on any rest of the text. -/
theorem bind {best : List Char → Prop} {next next' : α → List Located → Option (β × List Located)}
    (h : Local taken read read' text)
    (hnext : ∀ a front rest, text = front ++ rest → Local other (next a) (next' a) rest)
    (hbest : ∀ front front', taken front → other front' → best (front ++ front')) :
    Local best (fun cs => (read cs).bind fun (a, rest) => next a rest)
      (fun cs => (read' cs).bind fun (a, rest) => next' a rest) text := by
  intro offset b left hleft
  obtain ⟨⟨a, middle⟩, hfirst, hsecond⟩ := Option.bind_eq_some_iff.1 hleft
  obtain ⟨front, rest, rfl, rfl, htaken, hmore⟩ := h offset a middle hfirst
  obtain ⟨front', rest', rfl, rfl, hother, hmore'⟩ := hnext a front rest rfl _ b left hsecond
  refine ⟨front ++ front', rest', (List.append_assoc ..).symm, ?_,
    hbest front front' htaken hother, fun place more halike => ?_⟩
  · rw [byteLength_append, Nat.add_assoc]
  · -- What the second step takes stands behind what the first one does.
    rw [List.append_assoc]
    simp only [hmore place _ (halike.append front'), Option.bind_some, hmore' _ more halike,
      byteLength_append, Nat.add_assoc]

theorem map (f : α → β) (h : Local taken read read' text) :
    Local taken (fun cs => (read cs).map fun (a, rest) => (f a, rest))
      (fun cs => (read' cs).map fun (a, rest) => (f a, rest)) text := by
  intro offset b left hleft
  obtain ⟨⟨a, middle⟩, hfirst, ⟨⟩⟩ := Option.map_eq_some_iff.1 hleft
  obtain ⟨front, rest, htext, hrest, htaken, hmore⟩ := h offset a left hfirst
  refine ⟨front, rest, htext, hrest, htaken, fun place more halike => ?_⟩
  simp only [hmore place more halike, Option.map_some]

end Local

/-- Any characters. -/
def Anything (_ : List Char) : Prop :=
  True

variable {text : List Char}

theorem Local.pure {α : Type} (a : α) :
    Local Anything (fun cs => some (a, cs)) (fun cs => some (a, cs)) text :=
  (Local.nothing a).mono fun _ _ => trivial

/-! ## Sealed readers -/

/-- **A reader is sealed on a text**: what it reads depends on the characters that it takes and on
    nothing behind them, since it takes a closing sign. -/
def Sealed {α : Type} (read read' : List Located → Option (α × List Located)) (text : List Char) :
    Prop :=
  ∀ offset a left, read (locate offset text) = some (a, left) →
    ∃ front rest, text = front ++ rest ∧ left = locate (offset + byteLength front) rest ∧
      Closes front ∧ ∀ place more,
        read' (locate place (front ++ more)) = some (a, locate (place + byteLength front) more)

namespace Sealed

variable {α β : Type} {read read' : List Located → Option (α × List Located)}

theorem isLocal (h : Sealed read read' text) : Local Closes read read' text := by
  intro offset a left hleft
  obtain ⟨front, rest, htext, hrest, hclose, hmore⟩ := h offset a left hleft
  exact ⟨front, rest, htext, hrest, hclose, fun place more _ => hmore place more⟩

theorem of_eq_none (h : ∀ offset, read (locate offset text) = none) : Sealed read read' text := by
  intro offset a left hleft
  rw [h] at hleft
  cases hleft

/-- A sealed reader may look at the next character, which it takes. -/
theorem congr {first first' : List Located → Option (α × List Located)}
    (h : Sealed first first' text)
    (hread : ∀ offset, read (locate offset text) = first (locate offset text))
    (hread' : ∀ place more, more.head? = text.head? →
      read' (locate place more) = first' (locate place more)) : Sealed read read' text := by
  intro offset a left hleft
  rw [hread] at hleft
  obtain ⟨front, rest, rfl, hrest, ⟨init, c, rfl, hc⟩, hmore⟩ := h offset a left hleft
  refine ⟨init ++ [c], rest, rfl, hrest, ⟨init, c, rfl, hc⟩, fun place more => ?_⟩
  rw [hread' place (init ++ [c] ++ more) (by cases init <;> rfl)]
  exact hmore place more

/-- The first characters are read by themselves. -/
theorem skip {next next' : List Located → Option (α × List Located)} (word : List Char)
    (h : Sealed next next' text)
    (hread : ∀ offset more, read (locate offset (word ++ more)) =
      next (locate (offset + byteLength word) more))
    (hread' : ∀ offset more, read' (locate offset (word ++ more)) =
      next' (locate (offset + byteLength word) more)) : Sealed read read' (word ++ text) := by
  intro offset a left hleft
  rw [hread] at hleft
  obtain ⟨front, rest, rfl, rfl, hclose, hmore⟩ := h _ a left hleft
  refine ⟨word ++ front, rest, (List.append_assoc ..).symm, ?_, hclose.append word,
    fun place more => ?_⟩
  · rw [byteLength_append, Nat.add_assoc]
  · rw [List.append_assoc, hread', hmore, byteLength_append, Nat.add_assoc]

/-- The first character is read by itself. -/
theorem cons {next next' : List Located → Option (α × List Located)} {c : Char}
    (h : Sealed next next' text) (hread : ∀ offset cs, read ((offset, c) :: cs) = next cs)
    (hread' : ∀ offset cs, read' ((offset, c) :: cs) = next' cs) :
    Sealed read read' (c :: text) :=
  h.skip [c] (fun _ _ => hread _ _) fun _ _ => hread' _ _

/-- What is read may be tested and changed afterwards. -/
theorem filterMap (f : α → Option β) (h : Sealed read read' text) :
    Sealed (fun cs => (read cs).bind fun (a, rest) => (f a).map (·, rest))
      (fun cs => (read' cs).bind fun (a, rest) => (f a).map (·, rest)) text := by
  intro offset b left hleft
  obtain ⟨⟨a, _⟩, hfirst, hsecond⟩ := Option.bind_eq_some_iff.1 hleft
  obtain ⟨_, hf, ⟨⟩⟩ := Option.map_eq_some_iff.1 hsecond
  obtain ⟨front, rest, htext, hrest, hclose, hmore⟩ := h offset a left hfirst
  refine ⟨front, rest, htext, hrest, hclose, fun place more => ?_⟩
  simp only [hmore place more, Option.bind_some, hf, Option.map_some]

theorem map (f : α → β) (h : Sealed read read' text) :
    Sealed (fun cs => (read cs).map fun (a, rest) => (f a, rest))
      (fun cs => (read' cs).map fun (a, rest) => (f a, rest)) text :=
  (h.filterMap fun a => some (f a)).congr (fun _ => Option.map_eq_bind) fun _ _ _ =>
    Option.map_eq_bind

end Sealed

/-- **Reading in two steps** is sealed if the second step is. -/
theorem Local.bind_sealed {α β : Type} {taken : List Char → Prop}
    {read read' : List Located → Option (α × List Located)}
    {next next' : α → List Located → Option (β × List Located)} (h : Local taken read read' text)
    (hnext : ∀ a front rest, text = front ++ rest → Sealed (next a) (next' a) rest) :
    Sealed (fun cs => (read cs).bind fun (a, rest) => next a rest)
      (fun cs => (read' cs).bind fun (a, rest) => next' a rest) text := by
  intro offset b left hleft
  obtain ⟨⟨a, middle⟩, hfirst, hsecond⟩ := Option.bind_eq_some_iff.1 hleft
  obtain ⟨front, rest, rfl, rfl, -, hmore⟩ := h offset a middle hfirst
  obtain ⟨front', rest', rfl, rfl, hclose, hmore'⟩ := hnext a front rest rfl _ b left hsecond
  refine ⟨front ++ front', rest', (List.append_assoc ..).symm, ?_, hclose.append front,
    fun place more => ?_⟩
  · rw [byteLength_append, Nat.add_assoc]
  · -- The first step looks at what the second one takes, and at nothing behind.
    obtain ⟨init, c, rfl, -⟩ := hclose
    have halike : Alike (init ++ [c] ++ rest') (init ++ [c] ++ more) := .inl (by cases init <;> rfl)
    rw [List.append_assoc]
    simp only [hmore place _ halike, Option.bind_some, hmore' _ more, byteLength_append,
      Nat.add_assoc]

/-- A reader that takes certain characters, of which the last is no line feed, is sealed. -/
theorem sealed_word {α : Type} {read read' : List Located → Option (α × List Located)}
    (init : List Char) {c : Char} (hc : c ≠ '\n') (a : α)
    (hread : ∀ offset more, read (locate offset (init ++ [c] ++ more)) =
      some (a, locate (offset + byteLength (init ++ [c])) more))
    (hread' : ∀ offset more, read' (locate offset (init ++ [c] ++ more)) =
      some (a, locate (offset + byteLength (init ++ [c])) more)) :
    Sealed read read' (init ++ [c] ++ text) := by
  intro offset b left hleft
  rw [hread] at hleft
  cases hleft
  exact ⟨init ++ [c], text, rfl, rfl, ⟨init, c, rfl, hc⟩, hread'⟩

/-! ## Up to a sort of character -/

/-- What is read up to the first character of another sort is local, as a line feed is one. -/
theorem local_span {p : Char → Bool} (hp : p '\n' = false) (text : List Char) :
    Local (fun front => ∀ c ∈ front, p c = true)
      (fun cs => some ((cs.takeWhile fun (_, c) => p c).map (·.2),
        cs.dropWhile fun (_, c) => p c))
      (fun cs => some ((cs.takeWhile fun (_, c) => p c).map (·.2),
        cs.dropWhile fun (_, c) => p c)) text := by
  have hword : ∀ c ∈ text.takeWhile p, p c = true := List.all_eq_true.1 List.all_takeWhile
  have hsplit := List.takeWhile_append_dropWhile (p := p) (l := text)
  have hstop : ∀ c, (text.dropWhile p).head? = some c → p c = false := by
    intro c hc
    have hnot := List.head?_dropWhile_not p text
    rw [hc] at hnot
    simpa using hnot
  have hmore (more : List Char) (halike : Alike (text.dropWhile p) more) :
      ∀ c, more.head? = some c → p c = false := by
    intro c hc
    obtain hsame | hfeed := halike
    · exact hstop c (hsame ▸ hc)
    · cases hfeed.symm.trans hc
      exact hp
  have hspan (place : Nat) (more : List Char) (halike : Alike (text.dropWhile p) more) :=
    locate_span hword (hmore more halike) place
  rintro offset _ _ ⟨⟩
  have hself := hspan offset _ (.refl _)
  rw [hsplit] at hself
  refine ⟨text.takeWhile p, text.dropWhile p, hsplit.symm, hself.2, hword,
    fun place more halike => ?_⟩
  rw [hself.1, map_snd_locate]
  simp only [(hspan place more halike).1, (hspan place more halike).2, map_snd_locate]

theorem local_skipBlanks (text : List Char) :
    Local Anything (fun cs => some ((), skipBlanks cs)) (fun cs => some ((), skipBlanks cs)) text :=
  ((local_span (p := isBlank) rfl text).map fun _ => ()).mono fun _ _ => trivial

/-! ## Escapes -/

theorem local_readHexEscape (digits more value : Nat) (text : List Char) :
    Local Anything (fun cs => (readHexEscape digits more value cs).toOption)
      (fun cs => (readHexEscape digits more value cs).toOption) text := by
  induction more generalizing value text with
  | zero =>
    by_cases hvalid : value.isValidChar
    · exact (Local.pure (Char.ofNat value)).congr
        (fun _ => by simp [readHexEscape, hvalid]; rfl)
        fun _ _ _ => by simp [readHexEscape, hvalid]; rfl
    · exact .of_eq_none fun _ => by simp [readHexEscape, hvalid]; rfl
  | succ more ih =>
    cases text with
    | nil => exact .of_eq_none fun _ => rfl
    | cons c text =>
      cases hdigit : hexDigit? c with
      | none => exact .of_eq_none fun _ => by simp [locate, readHexEscape, hdigit]; rfl
      | some digit =>
        exact (ih (16 * value + digit) text).cons (fun _ _ => trivial)
          (fun _ _ => by simp [readHexEscape, hdigit]) fun _ _ => by simp [readHexEscape, hdigit]

theorem local_readEscape (quoting : Quoting) (text : List Char) :
    Local Anything (fun cs => (readEscape quoting cs).toOption)
      (fun cs => (readEscape quoting cs).toOption) text := by
  cases text with
  | nil => exact .of_eq_none fun _ => rfl
  | cons c text =>
    cases hshort : shortEscape? quoting c with
    | some escaped =>
      exact (Local.pure escaped).cons (fun _ _ => trivial)
        (fun _ _ => by simp [readEscape, hshort]; rfl) fun _ _ => by simp [readEscape, hshort]; rfl
    | none =>
      cases hlength : hexLength? c with
      | some digits =>
        exact (local_readHexEscape digits digits 0 text).cons (fun _ _ => trivial)
          (fun _ _ => by simp [readEscape, hshort, hlength])
          fun _ _ => by simp [readEscape, hshort, hlength]
      | none => exact .of_eq_none fun _ => by simp [locate, readEscape, hshort, hlength]; rfl

theorem toOption_readEscapeAt (quoting : Quoting) (place : Nat) (cs : List Located) :
    (readEscapeAt quoting place cs).toOption = (readEscape quoting cs).toOption := by
  rw [readEscapeAt]
  cases readEscape quoting cs <;> rfl

theorem toOption_map {ε α β : Type} (result : Except ε α) (f : α → β) :
    (result.map f).toOption = result.toOption.map f := by
  cases result <;> rfl

theorem toOption_eq_some_iff {ε α : Type} {result : Except ε α} {a : α} :
    result.toOption = some a ↔ result = .ok a := by
  cases result <;> simp [Except.toOption]

/-! ## Literals -/

theorem readLiteral_cons (start offset : Nat) (c : Char) (cs : List Located) :
    (readLiteral start ((offset, c) :: cs)).toOption =
      if c = '"' then some ([], cs)
      else if c = '\\' then
        (readEscape .literal cs).toOption.bind fun (escaped, rest) =>
          (readLiteral start rest).toOption.map fun (chars, rest) => (escaped :: chars, rest)
      else (readLiteral start cs).toOption.map fun (chars, rest) => (c :: chars, rest) := by
  rw [readLiteral, ← toOption_readEscapeAt .literal offset]
  split
  · rfl
  · split
    · split
      · next hescape => rw [hescape]; rfl
      · next escaped rest hescape => exact (toOption_map _ _).trans (by rw [hescape]; rfl)
    · exact toOption_map _ _

/-- **A literal is sealed** by its closing quote. -/
theorem sealed_readLiteral (start start' : Nat) (text : List Char) :
    Sealed (fun cs => (readLiteral start cs).toOption)
      (fun cs => (readLiteral start' cs).toOption) text := by
  induction hlength : text.length using Nat.strongRecOn generalizing text with
  | ind n ih =>
    subst hlength
    cases text with
    | nil =>
      refine .of_eq_none fun offset => ?_
      rw [locate, readLiteral]
      rfl
    | cons c text =>
      by_cases hquote : c = '"'
      · subst hquote
        exact sealed_word [] (by decide) [] (fun _ _ => readLiteral_cons ..)
          fun _ _ => readLiteral_cons ..
      · by_cases hescape : c = '\\'
        · have hstep := (local_readEscape .literal text).bind_sealed fun escaped front rest htext =>
            (ih rest.length (by rw [htext, List.length_cons, List.length_append]; omega) rest
              rfl).map (escaped :: ·)
          exact hstep.cons (fun _ _ => by simp [readLiteral_cons, hescape])
            fun _ _ => by simp [readLiteral_cons, hescape]
        · have hrest := (ih text.length (Nat.lt_succ_self _) text rfl).map (c :: ·)
          exact hrest.cons (fun _ _ => by simp [readLiteral_cons, hquote, hescape])
            fun _ _ => by simp [readLiteral_cons, hquote, hescape]

/-! ## Character classes -/

theorem toOption_readClassChar (place : Nat) (c : Char) (cs : List Located) :
    (readClassChar place c cs).toOption =
      if c = '\\' then (readEscape .bracketed cs).toOption else some (c, cs) := by
  rw [readClassChar]
  split
  · exact toOption_readEscapeAt ..
  · rfl

theorem local_readClassChar (place place' : Nat) (c : Char) (text : List Char) :
    Local Anything (fun cs => (readClassChar place c cs).toOption)
      (fun cs => (readClassChar place' c cs).toOption) text := by
  by_cases hescape : c = '\\'
  · exact (local_readEscape .bracketed text).congr
      (fun _ => by rw [toOption_readClassChar, if_pos hescape])
      fun _ _ _ => by rw [toOption_readClassChar, if_pos hescape]
  · exact (Local.pure c).congr (fun _ => by rw [toOption_readClassChar, if_neg hescape])
      fun _ _ _ => by rw [toOption_readClassChar, if_neg hescape]

/-- Where a range stands matters to its errors only. -/
theorem toOption_readRangeEnd (place place' : Nat) (first : Char) (cs : List Located) :
    (readRangeEnd place first cs).toOption = (readRangeEnd place' first cs).toOption := by
  unfold readRangeEnd
  split
  · split
    · rfl
    · split
      · rfl
      · split <;> rfl
  · rfl

/-- What follows the first character of a range, and then the other ranges. -/
def readAfterFirst (start : Nat) (first : Char) (cs : List Located) :
    Option (List CharRange × List Located) :=
  (readRangeEnd 0 first cs).toOption.bind fun (range, rest) =>
    (readRanges start rest).toOption.map fun (ranges, rest) => (range :: ranges, rest)

theorem readRanges_cons (start offset : Nat) (c : Char) (cs : List Located) :
    (readRanges start ((offset, c) :: cs)).toOption =
      if c = ']' then some ([], cs)
      else (readClassChar offset c cs).toOption.bind fun (first, rest) =>
        readAfterFirst start first rest := by
  have hrange : (readRange offset c cs).toOption =
      (readClassChar offset c cs).toOption.bind fun (first, rest) =>
        (readRangeEnd 0 first rest).toOption := by
    rw [readRange]
    cases readClassChar offset c cs with
    | error e => rfl
    | ok found => exact toOption_readRangeEnd ..
  have hassoc : ((readClassChar offset c cs).toOption.bind fun (first, rest) =>
      readAfterFirst start first rest) =
        (readRange offset c cs).toOption.bind fun (range, rest) =>
          (readRanges start rest).toOption.map fun (ranges, rest) => (range :: ranges, rest) := by
    rw [hrange, Option.bind_assoc]
    rfl
  rw [readRanges, hassoc]
  split
  · rfl
  · split
    · next hread => rw [hread]; rfl
    · next hread => exact (toOption_map _ _).trans (by rw [hread]; rfl)

theorem readAfterFirst_single (start : Nat) (first : Char) {cs : List Located}
    (h : ∀ offset rest, cs ≠ (offset, '-') :: rest) :
    readAfterFirst start first cs =
      (readRanges start cs).toOption.map fun (ranges, rest) => (.single first :: ranges, rest) := by
  have hend : readRangeEnd 0 first cs = .ok (.single first, cs) := by
    unfold readRangeEnd
    split
    · exact absurd rfl (h _ _)
    · rfl
  rw [readAfterFirst, hend]
  rfl

theorem readAfterFirst_hyphen (start offset next : Nat) (first c : Char) (cs : List Located) :
    readAfterFirst start first ((offset, '-') :: (next, c) :: cs) =
      if c = ']' then some ([.single first, .single '-'], cs)
      else (readClassChar next c cs).toOption.bind fun (last, rest) =>
        if last < first then none
        else (readRanges start rest).toOption.map fun (ranges, rest) =>
          (⟨first, last⟩ :: ranges, rest) := by
  by_cases hbracket : c = ']'
  · subst hbracket
    have hhyphen : (readRanges start ((offset, '-') :: (next, ']') :: cs)).toOption =
        some ([.single '-'], cs) := by
      rw [readRanges_cons, if_neg (by decide), toOption_readClassChar, if_neg (by decide)]
      show readAfterFirst start '-' ((next, ']') :: cs) = _
      rw [readAfterFirst_single start '-' (by simp), readRanges_cons, if_pos rfl]
      rfl
    rw [readAfterFirst, readRangeEnd, if_pos rfl, if_pos rfl]
    show (readRanges start _).toOption.map _ = _
    rw [hhyphen]
    rfl
  · rw [readAfterFirst, readRangeEnd, if_neg hbracket, if_neg hbracket]
    cases readClassChar next c cs with
    | error e => rfl
    | ok found =>
      obtain ⟨last, rest⟩ := found
      by_cases horder : last < first
      · simp [horder, Except.toOption]
      · simp [horder, Except.toOption]

theorem sealed_readAfterFirst (start start' : Nat) (first : Char) {text : List Char}
    (h : ∀ front rest, text = front ++ rest →
      Sealed (fun cs => (readRanges start cs).toOption)
        (fun cs => (readRanges start' cs).toOption) rest) :
    Sealed (readAfterFirst start first) (readAfterFirst start' first) text := by
  by_cases hhead : text.head? = some '-'
  · obtain ⟨more, rfl⟩ := List.head?_eq_some_iff.1 hhead
    cases more with
    | nil =>
      -- The hyphen is the last character, so the class is not closed.
      refine .of_eq_none fun offset => ?_
      have hempty (start : Nat) : (readRanges start []).toOption = none := by
        rw [readRanges]
        rfl
      have hsingle : readAfterFirst start '-' [] = none := by
        rw [readAfterFirst_single _ _ (by simp), hempty]
        rfl
      show (readRanges start [(offset, '-')]).toOption.map _ = none
      rw [readRanges_cons, if_neg (by decide), toOption_readClassChar, if_neg (by decide)]
      show (readAfterFirst start '-' []).map _ = none
      rw [hsingle]
      rfl
    | cons c more =>
      by_cases hbracket : c = ']'
      · subst hbracket
        refine sealed_word ['-'] (by decide) [CharRange.single first, .single '-'] ?_ ?_
        all_goals
          intro offset more
          simp [locate, readAfterFirst_hyphen, byteLength, Nat.add_assoc]
      · have hothers (last : Char) (front rest : List Char) (hmore : more = front ++ rest) :
            Sealed (fun cs => if last < first then none
                else (readRanges start cs).toOption.map fun (ranges, rest) =>
                  (⟨first, last⟩ :: ranges, rest))
              (fun cs => if last < first then none
                else (readRanges start' cs).toOption.map fun (ranges, rest) =>
                  (⟨first, last⟩ :: ranges, rest)) rest := by
          by_cases horder : last < first
          · exact .of_eq_none fun _ => if_pos horder
          · simp only [if_neg horder]
            exact (h ('-' :: c :: front) rest (by rw [hmore]; rfl)).map (⟨first, last⟩ :: ·)
        refine ((local_readClassChar 0 0 c more).bind_sealed hothers).skip ['-', c] ?_ ?_
        all_goals
          intro offset more
          simp [locate, readAfterFirst_hyphen, hbracket, byteLength, Nat.add_assoc,
            toOption_readClassChar]
  · exact ((h [] text rfl).map (.single first :: ·)).congr
      (fun offset => readAfterFirst_single _ _ (locate_ne_cons hhead offset))
      fun place more hsame =>
        readAfterFirst_single _ _ (locate_ne_cons (hsame ▸ hhead) place)

theorem sealed_readRanges (start start' : Nat) (text : List Char) :
    Sealed (fun cs => (readRanges start cs).toOption)
      (fun cs => (readRanges start' cs).toOption) text := by
  induction hlength : text.length using Nat.strongRecOn generalizing text with
  | ind n ih =>
    subst hlength
    cases text with
    | nil =>
      refine .of_eq_none fun offset => ?_
      rw [locate, readRanges]
      rfl
    | cons c text =>
      by_cases hbracket : c = ']'
      · subst hbracket
        exact sealed_word [] (by decide) [] (fun _ _ => readRanges_cons ..)
          fun _ _ => readRanges_cons ..
      · have hstep := (local_readClassChar 0 0 c text).bind_sealed fun first front rest htext =>
          sealed_readAfterFirst start start' first fun front' rest' hrest =>
            ih rest'.length (by simp [htext, hrest]; omega) rest' rfl
        refine hstep.cons (fun offset cs => ?_) fun offset cs => ?_
        all_goals rw [readRanges_cons, if_neg hbracket, toOption_readClassChar,
          toOption_readClassChar]

theorem sealed_readClassBody (start start' : Nat) (negated : Bool) (text : List Char) :
    Sealed (fun cs => (readClassBody start negated cs).toOption)
      (fun cs => (readClassBody start' negated cs).toOption) text := by
  have heq (start : Nat) (cs : List Located) : (readClassBody start negated cs).toOption =
      (readRanges start cs).toOption.bind fun (ranges, rest) =>
        (if ranges = [] then none else some (CharSet.mk negated ranges)).map (·, rest) := by
    rw [readClassBody]
    split
    · next h => rw [h]; rfl
    · next h => rw [h]; rfl
    · next ranges rest hne h =>
      have hranges : ranges ≠ [] := by
        rintro rfl
        exact hne rfl
      simp [h, hranges, Except.toOption]
  exact ((sealed_readRanges start start' text).filterMap fun ranges =>
    if ranges = [] then none else some (CharSet.mk negated ranges)).congr (fun _ => heq _ _)
      fun _ _ _ => heq _ _

theorem readClass_of_ne {start : Nat} {cs : List Located}
    (h : ∀ offset rest, cs ≠ (offset, '^') :: rest) :
    readClass start cs = readClassBody start false cs := by
  unfold readClass
  split
  · exact absurd rfl (h _ _)
  · rfl

theorem sealed_readClass (start start' : Nat) (text : List Char) :
    Sealed (fun cs => (readClass start cs).toOption) (fun cs => (readClass start' cs).toOption)
      text := by
  by_cases hhead : text.head? = some '^'
  · obtain ⟨more, rfl⟩ := List.head?_eq_some_iff.1 hhead
    exact (sealed_readClassBody start start' true more).cons (fun _ _ => rfl) fun _ _ => rfl
  · refine (sealed_readClassBody start start' false text).congr (fun offset => ?_)
      fun place more hsame => ?_
    · rw [readClass_of_ne (locate_ne_cons hhead offset)]
    · rw [readClass_of_ne (locate_ne_cons (hsame ▸ hhead) place)]

/-! ## Counts -/

theorem readCount?_cons {d : Char} (hd : d.isDigit = true) (offset : Nat) (cs : List Located) :
    readCount? ((offset, d) :: cs) =
      (some ((cs.takeWhile fun (_, c) => c.isDigit).map (·.2),
        cs.dropWhile fun (_, c) => c.isDigit)).bind fun (digits, rest) =>
          if maxCount < decimalValue (d :: digits) then none
          else some (decimalValue (d :: digits), rest) := by
  simp [readCount?, hd]

theorem readCount?_of_head? {text : List Char} (h : text.head?.any Char.isDigit = false)
    (place : Nat) : readCount? (locate place text) = none := by
  cases text with
  | nil => rfl
  | cons c text =>
    have hc : c.isDigit = false := h
    simp [readCount?, locate, hc]

/-- A count takes one digit at least. -/
theorem local_readCount? (text : List Char) : Local (· ≠ []) readCount? readCount? text := by
  cases hdigit : text.head?.any Char.isDigit with
  | false => exact .of_eq_none (readCount?_of_head? hdigit)
  | true =>
    cases text with
    | nil => cases hdigit
    | cons d text =>
      have hnext (digits rest : List Char) :
          Local Anything (fun cs => if maxCount < decimalValue (d :: digits) then none
              else some (decimalValue (d :: digits), cs))
            (fun cs => if maxCount < decimalValue (d :: digits) then none
              else some (decimalValue (d :: digits), cs)) rest := by
        by_cases hlarge : maxCount < decimalValue (d :: digits)
        · exact .of_eq_none fun _ => if_pos hlarge
        · simp only [if_neg hlarge]
          exact .pure _
      have hdigits : Local Anything _ _ text := (local_span (p := Char.isDigit) rfl text).bind
        (fun digits _ rest _ => hnext digits rest) fun _ _ _ _ => trivial
      exact hdigits.cons (fun _ _ => by simp) (fun _ _ => readCount?_cons hdigit ..)
        fun _ _ => readCount?_cons hdigit ..

theorem readMax?_comma (min offset : Nat) (cs : List Located) :
    readMax? min ((offset, ',') :: cs) =
      (some ((), skipBlanks cs)).bind fun (_, rest) =>
        if (rest.head?.any fun (_, c) => c.isDigit) then
          (readCount? rest).map fun (max, rest) => (some max, rest)
        else some (none, rest) :=
  rfl

theorem readMax?_of_ne {min : Nat} {cs : List Located}
    (h : ∀ offset rest, cs ≠ (offset, ',') :: rest) :
    readMax? min cs = some (some min, cs) := by
  unfold readMax?
  split
  · exact absurd rfl (h _ _)
  · rfl

theorem any_head?_locate (p : Char → Bool) (place : Nat) (text : List Char) :
    ((locate place text).head?.any fun (_, c) => p c) = text.head?.any p := by
  cases text <;> rfl

theorem local_readMax? (min : Nat) (text : List Char) :
    Local Anything (readMax? min) (readMax? min) text := by
  by_cases hhead : text.head? = some ','
  · obtain ⟨more, rfl⟩ := List.head?_eq_some_iff.1 hhead
    have hnext (rest : List Char) :
        Local Anything (fun cs => if (cs.head?.any fun (_, c) => c.isDigit) then
            (readCount? cs).map fun (max, rest) => (some max, rest) else some (none, cs))
          (fun cs => if (cs.head?.any fun (_, c) => c.isDigit) then
            (readCount? cs).map fun (max, rest) => (some max, rest) else some (none, cs)) rest := by
      by_cases hdigit : rest.head?.any Char.isDigit = true
      · refine (((local_readCount? rest).map some).congr_of_head? (fun offset => ?_)
          fun place more hsame => ?_).mono fun _ _ => trivial
        · rw [if_pos (by rwa [any_head?_locate])]
        · rw [if_pos (by rwa [any_head?_locate, hsame])]
      · refine (Local.pure none).congr (fun offset => ?_) fun place more halike => ?_
        · rw [if_neg (by rwa [any_head?_locate])]
        · rw [if_neg]
          obtain hsame | hfeed := halike
          · rwa [any_head?_locate, hsame]
          · rw [any_head?_locate, hfeed]
            decide
    have hmore : Local Anything _ _ more := (local_skipBlanks more).bind
      (fun _ _ rest _ => hnext rest) fun _ _ _ _ => trivial
    exact hmore.cons (fun _ _ => trivial) (fun _ _ => readMax?_comma ..)
      fun _ _ => readMax?_comma ..
  · exact (Local.pure (some min)).congr
      (fun offset => readMax?_of_ne (locate_ne_cons hhead offset)) fun place more halike =>
        readMax?_of_ne (locate_ne_cons (halike.head?_ne (by decide) hhead) place)

theorem sealed_readCloseBrace? (text : List Char) :
    Sealed (fun cs => (readCloseBrace? cs).map fun rest => ((), rest))
      (fun cs => (readCloseBrace? cs).map fun rest => ((), rest)) text := by
  by_cases hhead : text.head? = some '\x7d'
  · obtain ⟨more, rfl⟩ := List.head?_eq_some_iff.1 hhead
    exact sealed_word [] (by decide) () (fun _ _ => rfl) fun _ _ => rfl
  · refine .of_eq_none fun offset => ?_
    have hnone : readCloseBrace? (locate offset text) = none := by
      unfold readCloseBrace?
      split
      · next heq => exact absurd heq (locate_ne_cons hhead offset _ _)
      · rfl
    rw [hnone]
    rfl

theorem readBounds?_eq (cs : List Located) : readBounds? cs =
    (some ((), skipBlanks cs)).bind fun (_, cs) => (readCount? cs).bind fun (min, cs) =>
      (some ((), skipBlanks cs)).bind fun (_, cs) => (readMax? min cs).bind fun (max, cs) =>
        (some ((), skipBlanks cs)).bind fun (_, cs) =>
          ((readCloseBrace? cs).map fun rest => ((), rest)).map fun (_, rest) =>
            (⟨min, max⟩, rest) := by
  rw [readBounds?]
  cases hmin : readCount? (skipBlanks cs) with
  | none => simp [hmin]
  | some found =>
    obtain ⟨min, afterMin⟩ := found
    cases hmax : readMax? min (skipBlanks afterMin) with
    | none => simp [hmin, hmax]
    | some found =>
      obtain ⟨max, afterMax⟩ := found
      cases hclose : readCloseBrace? (skipBlanks afterMax) <;> simp [hmin, hmax, hclose]

/-- **Bounds are sealed** by the closing brace. -/
theorem sealed_readBounds? (text : List Char) : Sealed readBounds? readBounds? text := by
  have hclose (min : Nat) (max : Option Nat) (rest : List Char) :=
    (local_skipBlanks rest).bind_sealed fun _ _ rest _ =>
      (sealed_readCloseBrace? rest).map fun _ => Bounds.mk min max
  have hmax (min : Nat) (rest : List Char) :=
    (local_skipBlanks rest).bind_sealed fun _ _ rest _ =>
      (local_readMax? min rest).bind_sealed fun max _ rest _ => hclose min max rest
  have hmin := (local_skipBlanks text).bind_sealed fun _ _ rest _ =>
    (local_readCount? rest).bind_sealed fun min _ rest _ => hmax min rest
  exact hmin.congr (fun _ => readBounds?_eq _) fun _ _ _ => readBounds?_eq _

/-! ## Tokens -/

/-- A character that starts no token is not read. -/
theorem readToken_eq_none {c : Char} (hname : isNameChar c = false)
    (hsign : c ∉ ['\n', '\r', '|', '(', ')', '?', '*', '+', '.', ':', '"', '[', '\x7b'])
    (start : Nat) (cs : List Located) : (readToken start c cs).toOption = none := by
  unfold readToken
  split
  case h_14 =>
    rw [if_neg (by simp [hname])]
    rfl
  all_goals exact absurd (by decide) hsign

theorem sealed_readDefine (start start' : Nat) (text : List Char) :
    Sealed (fun cs => (readToken start ':' cs).toOption)
      (fun cs => (readToken start' ':' cs).toOption) text := by
  by_cases hsign : ∃ more, text = [':'] ++ ['='] ++ more
  · obtain ⟨more, rfl⟩ := hsign
    exact sealed_word [':'] (by decide) TokenKind.define (fun _ _ => rfl) fun _ _ => rfl
  · refine .of_eq_none fun offset => ?_
    rw [readToken]
    · rfl
    · intro _ _ rest heq
      cases text with
      | nil => cases heq
      | cons _ text =>
        cases text with
        | nil => cases heq
        | cons _ more =>
          cases heq
          exact hsign ⟨more, rfl⟩

/-- What a token takes behind its first character: nothing, or characters that it closes. -/
def Ends (front : List Char) : Prop :=
  front = [] ∨ Closes front

theorem ends_of_isNameChar {front : List Char} (h : ∀ c ∈ front, isNameChar c = true) :
    Ends front := by
  obtain rfl | ⟨init, c, rfl⟩ := List.eq_nil_or_concat front
  · exact .inl rfl
  · refine .inr ⟨init, c, List.concat_eq_append, ?_⟩
    rintro rfl
    exact absurd (h '\n' (by simp)) (by decide)

/-- **How a token is read**, but a carriage return: it is a name, or a sign by itself, or sealed by
    the sign that closes it. -/
theorem readToken_cases {c : Char} (hreturn : c ≠ '\r') :
    isNameChar c = true ∨ (∃ kind, ∀ place cs, readToken place c cs = .ok (kind, cs)) ∨
      ∀ start start' text, Sealed (fun cs => (readToken start c cs).toOption)
        (fun cs => (readToken start' c cs).toOption) text := by
  cases hname : isNameChar c with
  | true => exact .inl rfl
  | false =>
    refine .inr ?_
    by_cases hsign : c ∈ ['\n', '\r', '|', '(', ')', '?', '*', '+', '.', ':', '"', '[', '\x7b']
    · simp only [List.mem_cons, List.not_mem_nil, or_false] at hsign
      obtain rfl | rfl | rfl | rfl | rfl | rfl | rfl | rfl | rfl | rfl | rfl | rfl | rfl := hsign
      case inr.inl => exact absurd rfl hreturn
      iterate 8 exact .inl ⟨_, fun _ _ => rfl⟩
      · exact .inr sealed_readDefine
      · exact .inr fun start start' text =>
          ((sealed_readLiteral start start' text).map TokenKind.literal).congr
            (fun _ => toOption_map _ _) fun _ _ _ => toOption_map _ _
      · exact .inr fun start start' text =>
          ((sealed_readClass start start' text).map TokenKind.set).congr
            (fun _ => toOption_map _ _) fun _ _ _ => toOption_map _ _
      · have heq (start : Nat) (cs : List Located) : (readToken start '\x7b' cs).toOption =
            (readBounds? cs).map fun (bounds, rest) => (TokenKind.counts bounds, rest) := by
          rw [readToken]
          cases readBounds? cs <;> rfl
        exact .inr fun _ _ text => ((sealed_readBounds? text).map TokenKind.counts).congr
          (fun _ => heq _ _) fun _ _ _ => heq _ _
    · exact .inr fun _ _ _ => .of_eq_none fun _ => readToken_eq_none hname hsign _ _

/-- **Every token but a carriage return is read locally.** -/
theorem local_readToken {c : Char} (hreturn : c ≠ '\r') (start start' : Nat) (text : List Char) :
    Local Ends (fun cs => (readToken start c cs).toOption)
      (fun cs => (readToken start' c cs).toOption) text := by
  obtain hname | ⟨kind, hkind⟩ | hsealed := readToken_cases hreturn
  · refine (((local_span (p := isNameChar) rfl text).mono fun _ => ends_of_isNameChar).map
      fun letters => TokenKind.name (String.ofList (c :: letters))).congr (fun _ => ?_)
        fun _ _ _ => ?_
    all_goals
      rw [readToken_name hname]
      rfl
  · refine ((Local.nothing kind).mono fun _ => .inl).congr (fun _ => ?_) fun _ _ _ => ?_
    all_goals
      rw [hkind]
      rfl
  · exact (hsealed start start' text).isLocal.mono fun _ => .inr

/-- A carriage return makes a line break by itself if no line feed comes behind it. -/
theorem readToken_return (start : Nat) {cs : List Located}
    (h : ∀ offset rest, cs ≠ (offset, '\n') :: rest) :
    readToken start '\r' cs = .ok (.newline, cs) := by
  rw [readToken]
  exact h

theorem readsAs_return (rest : List Char) : ReadsAs ['\r', '\n'] .newline rest :=
  ⟨'\r', ['\n'], rfl, rfl, by decide, fun _ => rfl⟩

/-- What is left of a text tells which part of it has been read. -/
theorem eq_of_locate_eq {front front' rest rest' : List Char} {place place' : Nat}
    (h : front ++ rest = front' ++ rest') (hleft : locate place rest = locate place' rest') :
    front = front' ∧ rest = rest' := by
  have hrest := congrArg (List.map Prod.snd) hleft
  rw [map_snd_locate, map_snd_locate] at hrest
  subst hrest
  exact ⟨List.append_cancel_right h, rfl⟩

/-- **A token but a carriage return** is read the same wherever it stands, and in front of any text
    that starts alike. -/
theorem exists_readsAs {c : Char} {text : List Char} {start offset : Nat} {kind : TokenKind}
    {left : List Located} (hblank : isBlank c = false) (hcomment : c ≠ '#') (hreturn : c ≠ '\r')
    (h : readToken start c (locate offset text) = .ok (kind, left)) :
    ∃ front rest, text = front ++ rest ∧ left = locate (offset + byteLength front) rest ∧
      Ends front ∧ ∀ more, Alike rest more → ReadsAs (c :: front) kind more := by
  have hread := toOption_eq_some_iff.2 h
  obtain ⟨front, rest, rfl, hleft, hends, -⟩ :=
    local_readToken hreturn start start text offset _ _ hread
  refine ⟨front, rest, rfl, hleft, hends, fun more halike => ?_⟩
  refine ⟨c, front, rfl, hblank, hcomment, fun place => ?_⟩
  obtain ⟨front', rest', htext, hleft', -, hmore⟩ :=
    local_readToken hreturn start place (front ++ rest) offset _ _ hread
  obtain ⟨rfl, rfl⟩ := eq_of_locate_eq htext (hleft.symm.trans hleft')
  rw [byteLength, ← Nat.add_assoc]
  exact toOption_eq_some_iff.1 (hmore (place + c.utf8Size) more halike)

/-- A carriage return is read by itself, or with the line feed that belongs to it. -/
theorem ReadsAs.of_return {front rest : List Char} {kind : TokenKind}
    (h : ReadsAs ('\r' :: front) kind rest) : kind = .newline ∧
      ((front = [] ∧ rest.head? ≠ some '\n') ∨ front = ['\n']) := by
  obtain ⟨_, _, ⟨⟩, -, -, hread⟩ := h
  have hzero := hread 0
  by_cases hfeed : (front ++ rest).head? = some '\n'
  · -- The line feed is taken along, so it does not stand in front of the rest.
    obtain ⟨more, hmore⟩ := List.head?_eq_some_iff.1 hfeed
    rw [hmore] at hzero
    obtain ⟨rfl, hleft⟩ : TokenKind.newline = kind ∧ _ = _ := by
      simpa [readToken, locate] using hzero
    obtain ⟨rfl, -⟩ := @eq_of_locate_eq front ['\n'] rest more _ _ hmore hleft.symm
    exact ⟨rfl, .inr rfl⟩
  · rw [readToken_return 0 (locate_ne_cons hfeed _)] at hzero
    obtain ⟨rfl, hleft⟩ : TokenKind.newline = kind ∧ _ = _ := by simpa using hzero
    obtain ⟨hnil, -⟩ := @eq_of_locate_eq [] front (front ++ rest) rest _ _ rfl hleft
    subst hnil
    exact ⟨rfl, .inl ⟨rfl, hfeed⟩⟩

/-- **The texts of tokens.** A token is read the same in front of texts that start alike, and does
    not end with a line feed behind its first character; or it is a carriage return by itself; or
    one with the line feed that belongs to it. -/
theorem ReadsAs.cases {text rest : List Char} {kind : TokenKind} (h : ReadsAs text kind rest) :
    (∃ c front, text = c :: front ∧ Ends front ∧
        ∀ more, Alike rest more → ReadsAs text kind more) ∨
      (text = ['\r'] ∧ kind = .newline ∧ rest.head? ≠ some '\n') ∨
      (text = ['\r', '\n'] ∧ kind = .newline) := by
  obtain ⟨c, front, rfl, hblank, hcomment, hread⟩ := id h
  by_cases hreturn : c = '\r'
  · subst hreturn
    obtain ⟨rfl, ⟨rfl, hfeed⟩ | rfl⟩ := h.of_return
    · exact .inr (.inl ⟨rfl, rfl, hfeed⟩)
    · exact .inr (.inr ⟨rfl, rfl⟩)
  · obtain ⟨front', rest', htext, hleft, hends, hmore⟩ :=
      exists_readsAs hblank hcomment hreturn (hread 0)
    obtain ⟨rfl, rfl⟩ := eq_of_locate_eq htext hleft
    exact .inl ⟨c, front, rfl, hends, hmore⟩

/-- A text that no name goes on with. -/
def Apart (more : List Char) : Prop :=
  ∀ c, more.head? = some c → isNameChar c = false

namespace ReadsAs

variable {rest more : List Char} {kind : TokenKind}

/-- A token is read in front of texts that start alike, unless a line feed comes to a carriage
    return. -/
theorem alike (h : ReadsAs text kind rest) (halike : Alike rest more)
    (hreturn : text = ['\r'] → more.head? ≠ some '\n') : ReadsAs text kind more := by
  obtain ⟨_, _, -, -, hmore⟩ | ⟨rfl, rfl, -⟩ | ⟨rfl, rfl⟩ := h.cases
  · exact hmore more halike
  · exact ⟨'\r', [], rfl, rfl, by decide, fun place =>
      readToken_return place (locate_ne_cons (hreturn rfl) _)⟩
  · exact readsAs_return more

/-- A token is read in front of texts that start with the same character. -/
theorem congr_head? (h : ReadsAs text kind rest) (hhead : more.head? = rest.head?) :
    ReadsAs text kind more := by
  obtain ⟨_, _, -, -, hmore⟩ | ⟨rfl, -, hfeed⟩ | ⟨rfl, rfl⟩ := h.cases
  · exact hmore more (.inl hhead)
  · exact h.alike (.inl hhead) fun _ => hhead ▸ hfeed
  · exact readsAs_return more

/-- What starts like a name is one. -/
theorem of_isNameChar {c : Char} {front : List Char} (h : ReadsAs (c :: front) kind rest)
    (hname : isNameChar c = true) :
    kind = .name (String.ofList (c :: front)) ∧ IsName (String.ofList (c :: front)) := by
  obtain ⟨_, _, ⟨⟩, -, -, hread⟩ := h
  have hzero := hread 0
  rw [readToken_name hname] at hzero
  obtain ⟨hkind, hleft⟩ := Prod.mk.inj (Except.ok.inj hzero)
  -- What is left tells which characters have been taken.
  have hsplit := congrArg (List.map Prod.snd) (@List.takeWhile_append_dropWhile _
    (fun (_, c) => isNameChar c) (locate (0 + c.utf8Size) (front ++ rest)))
  rw [hleft, List.map_append, map_snd_locate, map_snd_locate] at hsplit
  have htaken := List.append_cancel_right hsplit
  refine ⟨by rw [← hkind, htaken], by simp, ?_⟩
  rw [String.toList_ofList, List.forall_mem_cons, ← htaken]
  refine ⟨hname, fun d hd => ?_⟩
  obtain ⟨located, hmem, rfl⟩ := List.mem_map.1 hd
  exact List.all_eq_true.1 List.all_takeWhile located hmem

/-- **A token is read in front of anything** that no name goes on with, unless a line feed comes to
    a carriage return. -/
theorem of_apart (h : ReadsAs text kind rest) (happart : Apart more)
    (hreturn : text = ['\r'] → more.head? ≠ some '\n') : ReadsAs text kind more := by
  obtain ⟨c, front, rfl, hblank, hcomment, hread⟩ := id h
  by_cases hc : c = '\r'
  · subst hc
    obtain ⟨rfl, ⟨rfl, -⟩ | rfl⟩ := h.of_return
    · exact ⟨'\r', [], rfl, rfl, by decide, fun place =>
        readToken_return place (locate_ne_cons (hreturn rfl) _)⟩
    · exact readsAs_return more
  · obtain hname | ⟨found, hsign⟩ | hsealed := readToken_cases hc
    · obtain ⟨rfl, hword⟩ := h.of_isNameChar hname
      have hreads := readsAs_name hword happart
      rwa [String.toList_ofList] at hreads
    · have hzero := hread 0
      rw [hsign] at hzero
      obtain ⟨rfl, hleft⟩ : found = kind ∧ _ = _ := by simpa using hzero
      obtain ⟨hnil, -⟩ := @eq_of_locate_eq [] front (front ++ rest) rest _ _ rfl hleft
      subst hnil
      exact ⟨c, [], rfl, hblank, hcomment, fun place => hsign place _⟩
    · refine ⟨c, front, rfl, hblank, hcomment, fun place => ?_⟩
      obtain ⟨front', rest', htext, hleft, -, hmore⟩ :=
        hsealed 0 place (front ++ rest) _ _ _ (toOption_eq_some_iff.2 (hread 0))
      obtain ⟨rfl, rfl⟩ := eq_of_locate_eq htext hleft
      rw [byteLength, ← Nat.add_assoc]
      exact toOption_eq_some_iff.1 (hmore _ more)

theorem eq_newline_of_return (h : ReadsAs ['\r'] kind rest) : kind = .newline :=
  h.of_return.1

/-- Line breaks start with a line feed or a carriage return. -/
theorem exists_isLineBreak_of_newline (h : ReadsAs text .newline rest) :
    ∃ c front, text = c :: front ∧ isLineBreak c = true := by
  obtain ⟨c, front, rfl, -, -, hread⟩ := h
  refine ⟨c, front, rfl, ?_⟩
  have hzero := hread 0
  generalize locate (0 + c.utf8Size) (front ++ rest) = cs at hzero
  generalize locate (0 + byteLength (c :: front)) rest = left at hzero
  have hmapped {α : Type} {read : Except ParseError (α × List Located)} {f : α → TokenKind}
      (hread : read.map (fun (a, rest) => (f a, rest)) = .ok (.newline, left)) :
      ∃ a, f a = .newline := by
    cases read with
    | error e => cases hread
    | ok found => exact ⟨found.1, (Prod.mk.inj (Except.ok.inj hread)).1⟩
  unfold readToken at hzero
  split at hzero
  case h_1 | h_2 => rfl
  case h_10 | h_13 | h_14 => split at hzero <;> cases hzero
  case h_11 | h_12 =>
    obtain ⟨_, hkind⟩ := hmapped hzero
    cases hkind
  all_goals cases hzero

/-- A token that ends with a line feed is a line break, whatever comes behind. -/
theorem newline_of_feed (h : ReadsAs (text ++ ['\n']) kind rest) :
    kind = .newline ∧ ∀ more, ReadsAs (text ++ ['\n']) .newline more := by
  obtain ⟨c, front, hsplit, hends, -⟩ | ⟨hsplit, -, -⟩ | ⟨hsplit, rfl⟩ := h.cases
  · obtain rfl | ⟨init, d, rfl, hd⟩ := hends
    · obtain ⟨rfl, ⟨⟩⟩ := List.append_eq_singleton_iff.1 hsplit |>.resolve_right (by simp)
      obtain ⟨_, _, ⟨⟩, -, -, hread⟩ := h
      cases hread 0
      exact ⟨rfl, readsAs_newline⟩
    · rw [← List.cons_append] at hsplit
      cases (List.append_inj' hsplit rfl).2
      exact absurd rfl hd
  · simp [List.append_eq_singleton_iff] at hsplit
  · exact ⟨rfl, fun more => hsplit ▸ readsAs_return more⟩

end ReadsAs

end Bnf
