import Mathlib.Algebra.Ring.Nat
import Mathlib.Tactic.SplitIfs
import Bnf.Proofs.ByOffset

/-!
# Reading by offsets passes all checks

What is read by offsets is what is read by characters, in every reader and at every place. So no
check of a reader fails, if the text has fewer bytes than there are offsets; and as readers only
come to places between characters, this is where their errors are reported.

## Main definitions

- `Agrees` — a result by offsets is that by characters
- `Token.CutFrom` — a token has a place in a text

## Main results

- `readHexEscape_agrees` — numeric escapes fit into 32 bits
- `readToken_agrees` — every token is read as it is by characters
- `tokenize_agrees` — all checks are passed, tokens have places, and errors are between characters

## Design notes

The counts of a repetition are read by characters as optional values, where it does not matter which
of them is at fault. Readers by offsets stop at the first fault, so this is told apart first.
-/

namespace Bnf

variable {source : String} {offset : Nat} {cs rest : List Located}

theorem dropBytes?_append (before after : List Char) :
    dropBytes? (byteLength before) (before ++ after) = some after := by
  induction before with
  | nil => rw [byteLength, List.nil_append, dropBytes?]
  | cons c before ih =>
    have hpos := c.utf8Size_pos
    obtain ⟨n, hn⟩ : ∃ n, byteLength (c :: before) = n + 1 :=
      ⟨byteLength (c :: before) - 1, by simp only [byteLength]; omega⟩
    have hlength : n + 1 = c.utf8Size + byteLength before := hn.symm
    rw [hn, List.cons_append, dropBytes?, if_pos (by omega), hlength, Nat.add_sub_cancel_left, ih]

/-- At the end of the text there is no next character. -/
theorem LeftAt.next?_nil (h : LeftAt source.toList offset []) :
    next? source offset = some none := by
  obtain ⟨before, after, htext, rfl, hlocate⟩ := h
  cases after with
  | nil => rw [next?, htext, dropBytes?_append]
  | cons c after => simp [locate] at hlocate

/-- The next character is where it is said to be, and the one behind it can still be counted. -/
theorem LeftAt.next?_cons (hsize : byteLength source.toList < offsetBound) {place : Nat} {c : Char}
    (h : LeftAt source.toList offset ((place, c) :: rest)) :
    next? source offset = some (some (c, offset + c.utf8Size)) := by
  have hle := h.cons.2.boundary.le
  obtain ⟨before, after, htext, rfl, hlocate⟩ := h
  cases after with
  | nil => simp [locate] at hlocate
  | cons d after =>
    rw [locate, List.cons.injEq, Prod.mk.injEq] at hlocate
    obtain ⟨⟨-, rfl⟩, -⟩ := hlocate
    rw [next?, htext, dropBytes?_append]
    exact if_pos (Nat.lt_of_le_of_lt hle hsize)

/-- Two places in a text have a word between them. -/
theorem LeftAt.exists_append {text : List Char} {stop : Nat} (h : LeftAt text offset cs)
    (hrest : LeftAt text stop rest) (hle : rest.length ≤ cs.length) :
    ∃ word, cs.map (·.2) = word ++ rest.map (·.2) ∧ stop = offset + byteLength word := by
  obtain ⟨htext, hoffset⟩ := h.takeBytes_eq
  obtain ⟨htext', hstop⟩ := hrest.takeBytes_eq
  have hsuffix : rest.map (·.2) <:+ cs.map (·.2) := by
    refine List.suffix_of_suffix_length_le ⟨_, htext'.symm⟩ ⟨_, htext.symm⟩ ?_
    rwa [List.length_map, List.length_map]
  obtain ⟨word, hword⟩ := hsuffix
  refine ⟨word, hword.symm, ?_⟩
  rw [← hword, ← List.append_assoc] at htext
  have hsplit := List.append_cancel_right (htext'.symm.trans htext)
  rw [← hstop, hsplit, byteLength_append, hoffset]

/-- A place with no more text left is not before. -/
theorem LeftAt.le_of_length_le {text : List Char} {stop : Nat} (h : LeftAt text offset cs)
    (hrest : LeftAt text stop rest) (hle : rest.length ≤ cs.length) : offset ≤ stop := by
  obtain ⟨word, -, rfl⟩ := h.exists_append hrest hle
  exact Nat.le_add_right _ _

/-- A place with less text left is behind. -/
theorem LeftAt.lt_of_length_lt {text : List Char} {stop : Nat} (h : LeftAt text offset cs)
    (hrest : LeftAt text stop rest) (hlt : rest.length < cs.length) : offset < stop := by
  obtain ⟨word, hword, rfl⟩ := h.exists_append hrest (Nat.le_of_lt hlt)
  cases word with
  | nil =>
    have hlength := congrArg List.length hword
    simp only [List.nil_append, List.length_map] at hlength
    omega
  | cons c word =>
    have := c.utf8Size_pos
    simp only [byteLength]
    omega

/-! ## Agreement -/

/-- **A result by offsets is that by characters**: the same value, at the place where the rest of
    the text begins, or the same error, which is between two characters. -/
def Agrees (source : String) {α : Type} (byOffset : Checked (α × Nat))
    (result : Except ParseError (α × List Located)) : Prop :=
  match result with
  | .ok (a, rest) =>
    ∃ stop, LeftAt source.toList stop rest ∧ byOffset = some (.ok (a, stop))
  | .error e => Boundary source.toList e.offset ∧ byOffset = some (.error e)

namespace Agrees

variable {α β : Type}

/-- What is given agrees if reading goes on at the same place. -/
theorem ok {a : α} (h : LeftAt source.toList offset rest) :
    Agrees source (return (a, offset)) (.ok (a, rest)) :=
  ⟨offset, h, rfl⟩

/-- Errors agree if they are the same, at a place between characters. -/
theorem error {fault : LexicalFault} (h : Boundary source.toList offset) :
    Agrees (α := α) source (throw (lexicalError fault offset))
      (.error (lexicalError fault offset)) :=
  ⟨h, rfl⟩

/-- **Two readers agree if their parts do**, the second ones wherever the first ones may have
    stopped. -/
theorem bind {first : Checked (α × Nat)} {second : α × Nat → Checked (β × Nat)}
    {result : Except ParseError (α × List Located)}
    {next : α × List Located → Except ParseError (β × List Located)}
    (h : Agrees source first result)
    (hnext : ∀ a rest stop, result = .ok (a, rest) → LeftAt source.toList stop rest →
      Agrees source (second (a, stop)) (next (a, rest))) :
    Agrees source (first >>= second) (result.bind next) := by
  cases result with
  | error e =>
    obtain ⟨hboundary, rfl⟩ := h
    exact ⟨hboundary, rfl⟩
  | ok found =>
    obtain ⟨a, rest⟩ := found
    obtain ⟨stop, hstop, rfl⟩ := h
    exact hnext a rest stop rfl hstop

theorem map {first : Checked (α × Nat)} {result : Except ParseError (α × List Located)}
    (h : Agrees source first result) (f : α → β) :
    Agrees source (first >>= fun found => return (f found.1, found.2))
      (result.map fun found => (f found.1, found.2)) := by
  cases result with
  | error e =>
    obtain ⟨hboundary, rfl⟩ := h
    exact ⟨hboundary, rfl⟩
  | ok found =>
    obtain ⟨stop, hstop, rfl⟩ := h
    exact ⟨stop, hstop, rfl⟩

end Agrees

/-! ## Counts, up to the first fault -/

/-- Reads a count if a digit comes next. What is wrong with it then is that it is too large. -/
def countOrFault (start : Nat) (cs : List Located) :
    Except ParseError (Option Nat × List Located) :=
  if (cs.head?.any fun (_, c) => c.isDigit) then
    match readCount? cs with
    | some (value, rest) => .ok (some value, rest)
    | none => .error (lexicalError .malformedRepetition start)
  else .ok (none, cs)

/-- Whether a character comes next, and what is left behind it if it does. -/
def consumed (c : Char) : List Located → Bool × List Located
  | (place, d) :: rest => if d = c then (true, rest) else (false, (place, d) :: rest)
  | [] => (false, [])

/-- Reads the greatest count of a repetition, whether it has a least count or not. -/
def maxOrFault (start : Nat) (min : Option Nat) (cs : List Located) :
    Except ParseError (Option Nat × List Located) :=
  let (comma, cs) := consumed ',' cs
  if comma then countOrFault start (skipBlanks cs) else .ok (min, cs)

/-- Reads the closing brace of a repetition, which has the given counts. -/
def closeOrFault (start : Nat) (min max : Option Nat) (cs : List Located) :
    Except ParseError (Bounds × List Located) :=
  let (closed, cs) := consumed '\x7d' cs
  match min, closed with
  | some min, true => .ok (⟨min, max⟩, cs)
  | _, _ => .error (lexicalError .malformedRepetition start)

/-- Reads the bounds of a repetition up to the first fault. -/
def boundsOrFault (start : Nat) (cs : List Located) :
    Except ParseError (Bounds × List Located) := do
  let (min, cs) ← countOrFault start (skipBlanks cs)
  let (max, cs) ← maxOrFault start min (skipBlanks cs)
  closeOrFault start min max (skipBlanks cs)

/-- A character that is looked for is there, or nothing is taken. -/
theorem consumed_cases (c : Char) (cs : List Located) :
    (∃ place rest, cs = (place, c) :: rest ∧ consumed c cs = (true, rest)) ∨
      (∀ place rest, cs ≠ (place, c) :: rest) ∧ consumed c cs = (false, cs) := by
  cases cs with
  | nil => exact .inr ⟨by simp, rfl⟩
  | cons located cs =>
    obtain ⟨place, d⟩ := located
    by_cases hd : d = c
    · exact .inl ⟨place, cs, by rw [hd], if_pos hd⟩
    · exact .inr ⟨by simp [hd], if_neg hd⟩

/-- Without a digit there is no count. -/
theorem readCount?_eq_none {cs : List Located}
    (h : (cs.head?.any fun (_, c) => c.isDigit) = false) : readCount? cs = none := by
  cases cs with
  | nil => rfl
  | cons located cs =>
    obtain ⟨place, c⟩ := located
    have hdigit : c.isDigit = false := h
    simp [readCount?, hdigit]

/-- A count is read up to the first fault, or there is none. -/
theorem countOrFault_cases (start : Nat) (cs : List Located) :
    (∃ value rest, readCount? cs = some (value, rest) ∧
      countOrFault start cs = .ok (some value, rest)) ∨
    (readCount? cs = none ∧ (countOrFault start cs = .ok (none, cs) ∨
      countOrFault start cs = .error (lexicalError .malformedRepetition start))) := by
  rw [countOrFault]
  cases hdigit : cs.head?.any fun (_, c) => c.isDigit with
  | false => exact .inr ⟨readCount?_eq_none hdigit, .inl rfl⟩
  | true =>
    cases hcount : readCount? cs with
    | none => exact .inr ⟨rfl, .inr rfl⟩
    | some found => exact .inl ⟨found.1, found.2, rfl, rfl⟩

theorem maxOrFault_some (start min : Nat) (cs : List Located) :
    maxOrFault start (some min) cs =
      (readMax? min cs).elim (.error (lexicalError .malformedRepetition start)) .ok := by
  obtain ⟨place, rest, rfl, hcomma⟩ | ⟨hother, hcomma⟩ := consumed_cases ',' cs
  · rw [maxOrFault, hcomma, readMax?]
    dsimp only
    rw [if_pos rfl, countOrFault]
    split
    · cases readCount? (skipBlanks rest) <;> rfl
    · rfl
  · rw [maxOrFault, hcomma, readMax?]
    · rfl
    · exact hother

theorem maxOrFault_none (start : Nat) (cs : List Located) :
    (∃ found, maxOrFault start none cs = .ok found) ∨
      maxOrFault start none cs = .error (lexicalError .malformedRepetition start) := by
  rw [maxOrFault]
  dsimp only
  split
  · obtain ⟨value, rest, -, hcount⟩ | ⟨-, hcount | hcount⟩ :=
      countOrFault_cases start (skipBlanks (consumed ',' cs).2)
    · exact .inl ⟨_, hcount⟩
    · exact .inl ⟨_, hcount⟩
    · exact .inr hcount
  · exact .inl ⟨_, rfl⟩

theorem closeOrFault_some (start min : Nat) (max : Option Nat) (cs : List Located) :
    closeOrFault start (some min) max cs = (readCloseBrace? cs).elim
      (.error (lexicalError .malformedRepetition start)) fun rest => .ok (⟨min, max⟩, rest) := by
  obtain ⟨place, rest, rfl, hclose⟩ | ⟨hother, hclose⟩ := consumed_cases '\x7d' cs
  · rw [closeOrFault, hclose, readCloseBrace?]
    rfl
  · rw [closeOrFault, hclose, readCloseBrace?]
    · rfl
    · exact hother

/-- **Whatever fault comes first, it is the same.** -/
theorem boundsOrFault_eq (start : Nat) (cs : List Located) :
    boundsOrFault start cs =
      (readBounds? cs).elim (.error (lexicalError .malformedRepetition start)) .ok := by
  rw [boundsOrFault, readBounds?]
  obtain ⟨min, rest, hcount, hmin⟩ | ⟨hcount, hmin⟩ := countOrFault_cases start (skipBlanks cs)
  · rw [hcount, hmin]
    show Except.bind (maxOrFault start (some min) (skipBlanks rest)) _ = Option.elim (do
      let (max, cs) ← readMax? min (skipBlanks rest)
      let rest ← readCloseBrace? (skipBlanks cs)
      return ((⟨min, max⟩ : Bounds), rest)) _ _
    rw [maxOrFault_some]
    cases readMax? min (skipBlanks rest) with
    | none => rfl
    | some found =>
      obtain ⟨max, left⟩ := found
      show closeOrFault start (some min) max (skipBlanks left) = Option.elim (do
        let rest ← readCloseBrace? (skipBlanks left)
        return ((⟨min, max⟩ : Bounds), rest)) _ _
      rw [closeOrFault_some]
      cases readCloseBrace? (skipBlanks left) <;> rfl
  · rw [hcount]
    obtain hmin | hmin := hmin <;> rw [hmin]
    · -- Without a least count the rest is read all the same, and then there is a fault.
      show Except.bind (maxOrFault start none (skipBlanks (skipBlanks cs))) _ =
        .error (lexicalError .malformedRepetition start)
      obtain ⟨found, hmax⟩ | hmax := maxOrFault_none start (skipBlanks (skipBlanks cs))
      · rw [hmax]
        rfl
      · rw [hmax]
        rfl
    · rfl

namespace ByOffset

variable (hsize : byteLength source.toList < offsetBound)
include hsize

/-- To skip by offsets is to drop characters. -/
theorem skipWhile_eq (p : Char → Bool) (h : LeftAt source.toList offset cs) :
    ∃ stop, LeftAt source.toList stop (cs.dropWhile fun (_, c) => p c) ∧
      skipWhile source p offset = some (.ok stop) := by
  induction cs generalizing offset with
  | nil =>
    refine ⟨offset, h, ?_⟩
    rw [skipWhile]
    split
    · next hnone => simp [h.next?_nil] at hnone
    · rfl
    · next hsome => simp [h.next?_nil] at hsome
  | cons located cs ih =>
    obtain ⟨place, c⟩ := located
    have hnext := h.next?_cons hsize
    rw [skipWhile]
    split
    · next hnone => simp [hnext] at hnone
    · next hend => simp [hnext] at hend
    · next d after hsome =>
      cases hnext.symm.trans hsome
      cases hp : p c with
      | true =>
        obtain ⟨stop, hstop, hskip⟩ := ih h.cons.2
        refine ⟨stop, ?_, ?_⟩
        · rwa [List.dropWhile_cons_of_pos (by simpa using hp)]
        · simpa using hskip
      | false =>
        refine ⟨offset, ?_, ?_⟩
        · rwa [List.dropWhile_cons_of_neg (by simp [hp])]
        · simp; rfl

/-! ## Escapes -/

omit hsize in
/-- A shift makes room for a digit, as long as nothing is shifted out. -/
theorem toNat_shiftLeft_or {value : UInt32} {digit : Nat} (hvalue : value.toNat < 2 ^ 28)
    (hdigit : digit < 16) : (value <<< 4 ||| .ofNat digit).toNat = 16 * value.toNat + digit := by
  have hsize : digit < UInt32.size := by
    have : UInt32.size = 4294967296 := rfl
    omega
  rw [UInt32.toNat_or, UInt32.toNat_shiftLeft, UInt32.toNat_ofNat_of_lt' hsize]
  show (value.toNat <<< 4) % 2 ^ 32 ||| digit = _
  rw [Nat.shiftLeft_eq, Nat.mod_eq_of_lt (by omega), Nat.mul_comm,
    ← Nat.two_pow_add_eq_or_of_lt hdigit]

omit hsize in
theorem hexDigit?_lt {c : Char} {digit : Nat} (h : hexDigit? c = some digit) : digit < 16 := by
  simp only [hexDigit?, Char.le_def, UInt32.le_iff_toNat_le, Char.toNat] at h
  have hzero : '0'.val.toNat = 48 := rfl
  have hnine : '9'.val.toNat = 57 := rfl
  have ha : 'a'.val.toNat = 97 := rfl
  have hf : 'f'.val.toNat = 102 := rfl
  have hA : 'A'.val.toNat = 65 := rfl
  have hF : 'F'.val.toNat = 70 := rfl
  split_ifs at h <;> cases h <;> omega

/-- **Numeric escapes fit into 32 bits**, as they have no more than eight digits. -/
theorem readHexEscape_agrees {backslash digits more : Nat} {value : UInt32}
    (hbackslash : Boundary source.toList backslash) (hvalue : value.toNat < 16 ^ (8 - more))
    (hmore : more ≤ 8) (h : LeftAt source.toList offset cs) :
    Agrees source (readHexEscape source backslash digits more value offset)
      ((Bnf.readHexEscape digits more value.toNat cs).mapError (lexicalError · backslash)) := by
  induction more generalizing value offset cs with
  | zero =>
    rw [readHexEscape, Bnf.readHexEscape]
    split
    · exact .ok h
    · exact .error hbackslash
  | succ more ih =>
    cases cs with
    | nil =>
      rw [readHexEscape, Bnf.readHexEscape, h.next?_nil]
      exact .error hbackslash
    | cons located cs =>
      obtain ⟨place, c⟩ := located
      rw [readHexEscape, Bnf.readHexEscape, h.next?_cons hsize, Checked.liftM_some_bind]
      dsimp only
      cases hdigit : hexDigit? c with
      | none => exact .error hbackslash
      | some digit =>
        have hlt := hexDigit?_lt hdigit
        have hbound : (16 : Nat) ^ (8 - (more + 1)) ≤ 2 ^ 28 := by
          rw [show (2 : Nat) ^ 28 = 16 ^ 7 by rfl]
          exact Nat.pow_le_pow_right (by omega) (by omega)
        have hnext := toNat_shiftLeft_or (Nat.lt_of_lt_of_le hvalue hbound) hlt
        have hpow : (16 : Nat) ^ (8 - more) = 16 ^ (8 - (more + 1)) * 16 := by
          rw [← Nat.pow_succ]
          congr 1
          omega
        dsimp only
        rw [← hnext]
        refine ih ?_ (by omega) h.cons.2
        rw [hnext, hpow]
        omega

/-- **An escape is read alike**, be it short or one with hexadecimal digits. -/
theorem readEscape_agrees (quoting : Quoting) {backslash : Nat}
    (hbackslash : Boundary source.toList backslash) (h : LeftAt source.toList offset cs) :
    Agrees source (readEscape source quoting backslash offset)
      (readEscapeAt quoting backslash cs) := by
  have hread : readEscapeAt quoting backslash cs =
      (Bnf.readEscape quoting cs).mapError (lexicalError · backslash) := by
    rw [readEscapeAt]
    cases Bnf.readEscape quoting cs <;> rfl
  rw [hread]
  cases cs with
  | nil =>
    rw [readEscape, h.next?_nil]
    exact .error hbackslash
  | cons located cs =>
    obtain ⟨place, c⟩ := located
    rw [readEscape, Bnf.readEscape, h.next?_cons hsize, Checked.liftM_some_bind]
    dsimp only
    cases shortEscape? quoting c with
    | some escaped => exact .ok h.cons.2
    | none =>
      cases hdigits : hexLength? c with
      | none => exact .error hbackslash
      | some digits =>
        have hle : digits ≤ 8 := by
          rw [hexLength?] at hdigits
          split_ifs at hdigits <;> cases hdigits <;> omega
        exact readHexEscape_agrees hsize hbackslash (Nat.pow_pos (by omega)) hle h.cons.2

/-! ## Literals and classes -/

/-- So are the characters of a literal. This is by induction on what is left of the text, as each
    character leaves less. -/
theorem readLiteral_agrees {start : Nat} (hstart : Boundary source.toList start)
    (h : LeftAt source.toList offset cs) :
    Agrees source (readLiteral source start offset) (Bnf.readLiteral start cs) := by
  fun_induction Bnf.readLiteral start cs generalizing offset with
  | case1 =>
    rw [readLiteral_end h.next?_nil]
    exact .error hstart
  | case2 =>
    rw [readLiteral_next (h.next?_cons hsize), if_pos rfl]
    exact .ok h.cons.2
  | case3 place cs e hescape =>
    obtain ⟨rfl, hrest⟩ := h.cons
    have hread := readEscape_agrees hsize .literal h.boundary hrest
    rw [hescape] at hread
    rw [readLiteral_next (h.next?_cons hsize), if_neg (by decide), if_pos rfl, hread.2]
    exact ⟨hread.1, rfl⟩
  | case4 place cs escaped left hescape hlength _ ih =>
    obtain ⟨rfl, hrest⟩ := h.cons
    have hread := readEscape_agrees hsize .literal h.boundary hrest
    rw [hescape] at hread
    obtain ⟨stop, hstop, hread⟩ := hread
    have hprogress := hrest.lt_of_length_lt hstop hlength
    rw [readLiteral_next (h.next?_cons hsize), if_neg (by decide), if_pos rfl, hread]
    show Agrees source (if _ then _ else none) _
    rw [if_pos hprogress]
    exact (ih hstop).map (escaped :: ·)
  | case5 place c cs hquote hbackslash ih =>
    rw [readLiteral_next (h.next?_cons hsize), if_neg hquote, if_neg hbackslash]
    exact (ih h.cons.2).map (c :: ·)

theorem readClassChar_agrees (start : Nat) {place : Nat} {c : Char}
    (h : LeftAt source.toList offset ((place, c) :: cs)) :
    Agrees source (readClassChar source start offset) (Bnf.readClassChar place c cs) := by
  obtain ⟨rfl, hrest⟩ := h.cons
  rw [readClassChar, Bnf.readClassChar, h.next?_cons hsize, Checked.liftM_some_bind]
  dsimp only
  split
  · exact readEscape_agrees hsize .bracketed h.boundary hrest
  · exact .ok hrest

omit hsize in
theorem readRangeEnd_hyphen {start item second : Nat} {first : Char}
    (h : next? source offset = some (some ('-', second))) :
    readRangeEnd source start item first offset = (do
      match ← next? source second with
      | none => return (.single first, offset)
      | some (c, _) =>
        if c = ']' then return (.single first, offset)
        else
          let (last, stop) ← readClassChar source start second
          if last < first then throw (lexicalError (.invertedRange first last) item)
          else return (← CharRange.ofEnds? first last, stop)) := by
  rw [readRangeEnd, h]
  rfl

omit hsize in
theorem readRangeEnd_single {start item : Nat} {first : Char} {found : Option (Char × Nat)}
    (h : next? source offset = some found) (hother : ∀ second, found ≠ some ('-', second)) :
    readRangeEnd source start item first offset = return (.single first, offset) := by
  rw [readRangeEnd, h, Checked.liftM_some_bind]
  split
  · next second => exact absurd rfl (hother second)
  · rfl

/-- The end of a range is looked for two characters ahead: a hyphen in front of the bracket is no
    range. -/
theorem readRangeEnd_agrees {start item : Nat} {first : Char} (hitem : Boundary source.toList item)
    (h : LeftAt source.toList offset cs) :
    Agrees source (readRangeEnd source start item first offset)
      (Bnf.readRangeEnd item first cs) := by
  have hsingle : Agrees source (return (CharRange.single first, offset))
      (.ok (CharRange.single first, cs)) := .ok h
  unfold Bnf.readRangeEnd
  split
  · next place second c rest =>
    have hafter := h.cons.2
    rw [readRangeEnd_hyphen (h.next?_cons hsize), hafter.next?_cons hsize, Checked.liftM_some_bind]
    by_cases hclose : c = ']'
    · simp only [if_pos hclose]
      exact hsingle
    · have hread := readClassChar_agrees hsize start hafter
      simp only [if_neg hclose]
      rw [← hafter.cons.1] at hread ⊢
      cases hlast : Bnf.readClassChar second c rest with
      | error e =>
        rw [hlast] at hread
        rw [hread.2]
        exact ⟨hread.1, rfl⟩
      | ok found =>
        obtain ⟨last, left⟩ := found
        rw [hlast] at hread
        obtain ⟨stop, hstop, hread⟩ := hread
        rw [hread]
        show Agrees source (if _ then _ else _) _
        dsimp only
        split
        · exact .error hitem
        · next hle =>
          rw [CharRange.ofEnds?, if_pos (Char.not_lt.1 hle), Checked.liftM_some_bind]
          exact .ok hstop
  · next hother =>
    cases cs with
    | nil =>
      rw [readRangeEnd_single h.next?_nil (by simp)]
      exact hsingle
    | cons located cs =>
      obtain ⟨place, c⟩ := located
      by_cases hhyphen : c = '-'
      · subst hhyphen
        cases cs with
        | nil =>
          rw [readRangeEnd_hyphen (h.next?_cons hsize), h.cons.2.next?_nil]
          exact hsingle
        | cons located cs => exact absurd rfl (hother _ _ _ _)
      · rw [readRangeEnd_single (h.next?_cons hsize) (by simp [hhyphen])]
        exact hsingle

theorem readRange_agrees (start : Nat) {place : Nat} {c : Char}
    (h : LeftAt source.toList offset ((place, c) :: cs)) :
    Agrees source (readRange source start offset) (Bnf.readRange place c cs) := by
  have hread : Bnf.readRange place c cs = (Bnf.readClassChar place c cs).bind fun found =>
      Bnf.readRangeEnd place found.1 found.2 := by
    rw [Bnf.readRange]
    cases Bnf.readClassChar place c cs <;> rfl
  rw [hread, readRange]
  refine (readClassChar_agrees hsize start h).bind fun first rest stop _ hstop => ?_
  rw [h.cons.1]
  exact readRangeEnd_agrees hsize h.boundary hstop

/-- So are the ranges of a class, again by induction on what is left. -/
theorem readRanges_agrees {start : Nat} (hstart : Boundary source.toList start)
    (h : LeftAt source.toList offset cs) :
    Agrees source (readRanges source start offset) (Bnf.readRanges start cs) := by
  fun_induction Bnf.readRanges start cs generalizing offset with
  | case1 =>
    rw [readRanges_end h.next?_nil]
    exact .error hstart
  | case2 =>
    rw [readRanges_next (h.next?_cons hsize), if_pos rfl]
    exact .ok h.cons.2
  | case3 place c cs hclose e hrange =>
    have hread := readRange_agrees hsize start h
    rw [hrange] at hread
    rw [readRanges_next (h.next?_cons hsize), if_neg hclose, hread.2]
    exact ⟨hread.1, rfl⟩
  | case4 place c cs hclose range left hrange hlength ih =>
    have hread := readRange_agrees hsize start h
    rw [hrange] at hread
    obtain ⟨stop, hstop, hread⟩ := hread
    have hprogress := h.lt_of_length_lt hstop (Nat.lt_succ_of_le hlength)
    rw [readRanges_next (h.next?_cons hsize), if_neg hclose, hread]
    show Agrees source (if _ then _ else none) _
    rw [if_pos hprogress]
    exact (ih hstop).map (range :: ·)

theorem readClassBody_agrees {start : Nat} {negated : Bool} (hstart : Boundary source.toList start)
    (h : LeftAt source.toList offset cs) :
    Agrees source (readClassBody source start negated offset)
      (Bnf.readClassBody start negated cs) := by
  have hread : Bnf.readClassBody start negated cs = (Bnf.readRanges start cs).bind fun found =>
      if found.1.isEmpty then .error (lexicalError .emptyClass start)
      else .ok (⟨negated, found.1⟩, found.2) := by
    rw [Bnf.readClassBody]
    split <;> simp_all [Except.bind]
  rw [hread, readClassBody]
  refine (readRanges_agrees hsize hstart h).bind fun ranges rest stop _ hstop => ?_
  dsimp only
  split
  · exact .error hstart
  · next hne =>
    rw [CharSet.ofRanges?, if_pos (by simp [hne]), Checked.liftM_some_bind]
    exact .ok hstop

/-- So is a class. -/
theorem readClass_agrees {start : Nat} (hstart : Boundary source.toList start)
    (h : LeftAt source.toList offset cs) :
    Agrees source (readClass source start offset) (Bnf.readClass start cs) := by
  unfold Bnf.readClass
  split
  · next place rest =>
    rw [readClass, h.next?_cons hsize]
    exact readClassBody_agrees hsize hstart h.cons.2
  · next hother =>
    have hbody : readClass source start offset = readClassBody source start false offset := by
      cases cs with
      | nil =>
        rw [readClass, h.next?_nil]
        rfl
      | cons located cs =>
        obtain ⟨place, c⟩ := located
        rw [readClass, h.next?_cons hsize, Checked.liftM_some_bind]
        split
        · next after hcaret =>
          obtain ⟨rfl, -⟩ : c = '^' ∧ _ := by simpa using hcaret
          exact absurd rfl (hother _ _)
        · rfl
    rw [hbody]
    exact readClassBody_agrees hsize hstart h

/-! ## Counts -/

/-- A count is read alike. Digits whose value is too large to be counted are refused by both. -/
theorem readCount_agrees {start : Nat} (hstart : Boundary source.toList start)
    (h : LeftAt source.toList offset cs) :
    Agrees source (readCount source start offset) (countOrFault start cs) := by
  obtain ⟨stop, hstop, hskip⟩ := skipWhile_eq hsize Char.isDigit h
  have hsplit : cs.takeWhile (fun (_, c) => c.isDigit) ++ cs.dropWhile (fun (_, c) => c.isDigit) =
      cs := List.takeWhile_append_dropWhile
  rw [readCount, Checked.bind_of_eq_ok hskip, countOrFault]
  cases hdigit : cs.head?.any fun (_, c) => c.isDigit with
  | false =>
    have hnone : cs.dropWhile (fun (_, c) => c.isDigit) = cs := by
      cases cs with
      | nil => rfl
      | cons located cs => exact List.dropWhile_cons_of_neg (by simpa using hdigit)
    rw [hnone] at hstop
    have hle : stop ≤ offset := hstop.le_of_length_le h (Nat.le_refl _)
    have hge : offset ≤ stop := h.le_of_length_le hstop (Nat.le_refl _)
    rw [if_pos hle, Nat.le_antisymm hle hge]
    exact .ok h
  | true =>
    have hne : cs.takeWhile (fun (_, c) => c.isDigit) ≠ [] := by
      cases cs with
      | nil => simp at hdigit
      | cons located cs => rw [List.takeWhile_cons_of_pos (by simpa using hdigit)]; simp
    have hlt : offset < stop := by
      refine h.lt_of_length_lt hstop ?_
      have hlength := congrArg List.length hsplit
      have := List.length_pos_iff.2 hne
      rw [List.length_append] at hlength
      omega
    rw [← hsplit] at h
    have hslice := h.slice? hstop
    rw [if_neg (Nat.not_le.2 hlt), hslice, Checked.liftM_some_bind, readCount?]
    dsimp only
    rw [String.toList_ofList]
    have hempty : ((cs.takeWhile fun (_, c) => c.isDigit).map (·.2)).isEmpty = false := by
      simpa using hne
    rw [hempty, Bool.false_or]
    by_cases hlarge : maxCount < decimalValue ((cs.takeWhile fun (_, c) => c.isDigit).map (·.2))
    · rw [if_pos hlarge]
      simp only [decide_eq_true hlarge, if_true]
      exact .error hstart
    · rw [if_neg hlarge]
      simp only [decide_eq_false hlarge, if_true, Bool.false_eq_true, if_false]
      exact .ok hstop

theorem consume_eq (c : Char) (h : LeftAt source.toList offset cs) :
    ∃ stop, LeftAt source.toList stop (consumed c cs).2 ∧
      consume source c offset = some (.ok ((consumed c cs).1, stop)) := by
  cases cs with
  | nil =>
    rw [consume, h.next?_nil]
    exact ⟨offset, h, rfl⟩
  | cons located cs =>
    obtain ⟨place, d⟩ := located
    rw [consume, h.next?_cons hsize, Checked.liftM_some_bind, consumed]
    by_cases hd : d = c
    · simp only [if_pos hd]
      exact ⟨_, h.cons.2, rfl⟩
    · simp only [if_neg hd]
      exact ⟨_, h, rfl⟩

theorem readMax_agrees {start : Nat} {min : Option Nat} (hstart : Boundary source.toList start)
    (h : LeftAt source.toList offset cs) :
    Agrees source (readMax source start min offset) (maxOrFault start min cs) := by
  obtain ⟨behind, hbehind, hcomma⟩ := consume_eq hsize ',' h
  rw [readMax, maxOrFault, hcomma]
  show Agrees source (if (consumed ',' cs).1 then _ else _) (if (consumed ',' cs).1 then _ else _)
  split
  · obtain ⟨next, hnext, hskip⟩ := skipWhile_eq hsize isBlank hbehind
    rw [Checked.bind_of_eq_ok hskip]
    exact readCount_agrees hsize hstart hnext
  · exact .ok hbehind

theorem readClose_agrees {start : Nat} {min max : Option Nat}
    (hstart : Boundary source.toList start) (h : LeftAt source.toList offset cs) :
    Agrees source (readClose source start min max offset) (closeOrFault start min max cs) := by
  obtain ⟨behind, hbehind, hclose⟩ := consume_eq hsize '\x7d' h
  rw [readClose, closeOrFault, hclose]
  revert hbehind
  generalize consumed '\x7d' cs = found
  obtain ⟨closed, rest⟩ := found
  intro hbehind
  cases min with
  | none => exact .error hstart
  | some min =>
    cases closed with
    | false => exact .error hstart
    | true => exact .ok hbehind

/-- So are bounds, which fault where the first part of them does. -/
theorem readBounds_agrees {start : Nat} (hstart : Boundary source.toList start)
    (h : LeftAt source.toList offset cs) :
    Agrees source (readBounds source start offset) (boundsOrFault start cs) := by
  rw [readBounds, boundsOrFault]
  obtain ⟨first, hfirst, hskip⟩ := skipWhile_eq hsize isBlank h
  rw [Checked.bind_of_eq_ok hskip]
  refine (readCount_agrees hsize hstart hfirst).bind fun min cs offset _ h => ?_
  dsimp only
  obtain ⟨second, hsecond, hskip⟩ := skipWhile_eq hsize isBlank h
  rw [Checked.bind_of_eq_ok hskip]
  refine (readMax_agrees hsize hstart hsecond).bind fun max cs offset _ h => ?_
  dsimp only
  obtain ⟨last, hlast, hskip⟩ := skipWhile_eq hsize isBlank h
  rw [Checked.bind_of_eq_ok hskip]
  exact readClose_agrees hsize hstart hlast

/-! ## Tokens -/

theorem readLineFeed_agrees {start : Nat} (h : LeftAt source.toList offset cs) :
    Agrees source
      (do
        let (_, stop) ← consume source '\n' offset
        return (TokenKind.newline, stop))
      (Bnf.readToken start '\r' cs) := by
  obtain ⟨stop, hstop, hconsume⟩ := consume_eq hsize '\n' h
  rw [hconsume]
  obtain ⟨place, rest, rfl, hfeed⟩ | ⟨hother, hfeed⟩ := consumed_cases '\n' cs
  · rw [hfeed] at hstop
    rw [Bnf.readToken]
    exact .ok hstop
  · rw [hfeed] at hstop
    rw [Bnf.readToken]
    · exact .ok hstop
    · exact hother

theorem readDefine_agrees {start : Nat} (hstart : Boundary source.toList start)
    (h : LeftAt source.toList offset cs) :
    Agrees source
      (do
        let (colon, middle) ← consume source ':' offset
        let (equals, stop) ← consume source '=' middle
        if colon && equals then return (TokenKind.define, stop)
        else throw (lexicalError (.unexpectedCharacter ':') start))
      (Bnf.readToken start ':' cs) := by
  obtain ⟨middle, hmiddle, hcolon⟩ := consume_eq hsize ':' h
  obtain ⟨stop, hstop, hequals⟩ := consume_eq hsize '=' hmiddle
  rw [hcolon]
  show Agrees source (do
    let (equals, stop) ← consume source '=' middle
    if (consumed ':' cs).1 && equals then return (TokenKind.define, stop)
    else throw (lexicalError (.unexpectedCharacter ':') start)) _
  rw [hequals]
  show Agrees source
    (if (consumed ':' cs).1 && (consumed '=' (consumed ':' cs).2).1 then _ else _) _
  obtain ⟨place, rest, rfl, hcolon⟩ | ⟨hother, hcolon⟩ := consumed_cases ':' cs
  · rw [hcolon] at hstop ⊢
    obtain ⟨next, left, rfl, hequals⟩ | ⟨hother, hequals⟩ := consumed_cases '=' rest
    · rw [hequals] at hstop ⊢
      rw [Bnf.readToken]
      exact .ok hstop
    · rw [hequals, Bnf.readToken]
      · exact .error hstart
      · intro first second left hcs
        exact hother second left (List.cons.inj hcs).2
  · rw [hcolon, Bnf.readToken]
    · exact .error hstart
    · intro first second left hcs
      exact hother first _ hcs

/-- A name is cut out of the text, which passes its check since it is cut between characters. -/
theorem readName_agrees {start : Nat} {c : Char}
    (h : LeftAt source.toList start ((start, c) :: cs)) :
    Agrees source
      (do
        let stop ← skipWhile source isNameChar (start + c.utf8Size)
        let name ← Span.slice? ⟨start, stop⟩ source
        return (TokenKind.name name, stop))
      (.ok (.name (String.ofList (c :: (cs.takeWhile fun (_, c) => isNameChar c).map (·.2))),
        cs.dropWhile fun (_, c) => isNameChar c)) := by
  obtain ⟨stop, hstop, hskip⟩ := skipWhile_eq hsize isNameChar h.cons.2
  have hword : LeftAt source.toList start
      (((start, c) :: cs.takeWhile fun (_, c) => isNameChar c) ++
        cs.dropWhile fun (_, c) => isNameChar c) := by
    rwa [List.cons_append, List.takeWhile_append_dropWhile]
  have hslice := hword.slice? hstop
  rw [Checked.bind_of_eq_ok hskip, hslice]
  exact .ok hstop

/-- **A token is read alike.** There is one case for each character that a token may start with. -/
theorem readToken_agrees {start : Nat} {c : Char}
    (h : LeftAt source.toList start ((start, c) :: cs)) :
    Agrees source (readToken source start c (start + c.utf8Size)) (Bnf.readToken start c cs) := by
  have hstart := h.boundary
  have hrest := h.cons.2
  unfold readToken
  split
  case h_2 => exact readLineFeed_agrees hsize hrest
  case h_10 => exact readDefine_agrees hsize hstart hrest
  case h_11 => exact (readLiteral_agrees hsize hstart hrest).map TokenKind.literal
  case h_12 => exact (readClass_agrees hsize hstart hrest).map TokenKind.set
  case h_13 =>
    have hread : Bnf.readToken start '\x7b' cs =
        (boundsOrFault start cs).map fun found => (TokenKind.counts found.1, found.2) := by
      rw [Bnf.readToken, boundsOrFault_eq]
      cases readBounds? cs <;> rfl
    rw [hread]
    exact (readBounds_agrees hsize hstart hrest).map TokenKind.counts
  case h_14 =>
    have hread : Bnf.readToken start c cs =
        if isNameChar c then
          .ok (.name (String.ofList (c :: (cs.takeWhile fun (_, c) => isNameChar c).map (·.2))),
            cs.dropWhile fun (_, c) => isNameChar c)
        else .error (lexicalError (.unexpectedCharacter c) start) := by
      unfold Bnf.readToken
      split
      case h_14 => rfl
      all_goals simp_all
    rw [hread]
    split
    · exact readName_agrees hsize h
    · exact .error hstart
  all_goals exact .ok hrest

/-! ## The whole text -/

omit hsize in
/-- Blanks in front of a text make no difference. -/
theorem readTokens_dropWhile_isBlank (stop : Nat) (cs : List Located) :
    Bnf.readTokens stop (cs.dropWhile fun (_, c) => isBlank c) = Bnf.readTokens stop cs := by
  induction cs with
  | nil => rfl
  | cons located cs ih =>
    obtain ⟨place, c⟩ := located
    cases hblank : isBlank c with
    | false => rw [List.dropWhile_cons_of_neg (by simp [hblank])]
    | true =>
      rw [List.dropWhile_cons_of_pos (by simpa using hblank), ih, Bnf.readTokens, if_pos hblank]

/-- What is passed over makes no tokens. Behind it a token comes next, or the end of the text. -/
theorem skipTrivia_eq (stop : Nat) (h : LeftAt source.toList offset cs) :
    ∃ place rest, LeftAt source.toList place rest ∧
      skipTrivia source offset = some (.ok place) ∧ rest.length ≤ cs.length ∧
      Bnf.readTokens stop cs = Bnf.readTokens stop rest ∧
      ∀ place c left, rest = (place, c) :: left → isBlank c = false ∧ c ≠ '#' := by
  induction hlength : cs.length using Nat.strongRecOn generalizing cs offset with
  | ind n ih =>
    subst hlength
    obtain ⟨hash, hhash, hskip⟩ := skipWhile_eq hsize isBlank h
    have hdrop := readTokens_dropWhile_isBlank stop cs
    have hle : (cs.dropWhile fun (_, c) => isBlank c).length ≤ cs.length :=
      (List.dropWhile_sublist _).length_le
    have hplace := h.le_of_length_le hhash hle
    have hblank := List.head?_dropWhile_not (fun ((_, c) : Located) => isBlank c) cs
    revert hhash hdrop hle hblank
    generalize cs.dropWhile (fun ((_, c) : Located) => isBlank c) = rest
    intro hhash hdrop hle hblank
    cases rest with
    | nil =>
      exact ⟨hash, [], hhash, skipTrivia_end hskip hhash.next?_nil (by simp), hle, hdrop.symm,
        by simp⟩
    | cons located rest =>
      obtain ⟨place, c⟩ := located
      have hnext := hhash.next?_cons hsize
      have hc : isBlank c = false := by simpa using hblank
      by_cases hcomment : c = '#'
      · subst hcomment
        -- The comment is passed over, and what is left behind it is shorter.
        obtain ⟨after, hafter, hline⟩ := skipWhile_eq hsize (fun c => !isLineBreak c) hhash.cons.2
        have hshort := skipComment_length rest
        have hbehind := hhash.cons.2.le_of_length_le hafter hshort
        obtain ⟨final, left, hfinal, htrivia, hleft, htokens, hhead⟩ :=
          ih (skipComment rest).length (by simp only [List.length_cons] at hle; omega) hafter rfl
        refine ⟨final, left, hfinal, ?_, ?_, ?_, hhead⟩
        · rw [skipTrivia_comment hskip hnext, Checked.bind_of_eq_ok hline,
            if_pos ⟨hplace, hbehind⟩, htrivia]
        · simp only [List.length_cons] at hle
          omega
        · rw [← hdrop, Bnf.readTokens, if_neg (by simp [hc]), if_pos rfl]
          exact htokens
      · exact ⟨hash, _, hhash, skipTrivia_end hskip hnext (by simp [hcomment]), hle, hdrop.symm,
          by simp_all⟩

end ByOffset

/-! ## Tokens of a text -/

/-- **A token is cut out of a text**, between characters. If it is a name, this is what is written
    there. -/
structure Token.CutFrom (source : String) (token : Token) : Prop where
  start : Boundary source.toList token.span.start
  stop : Boundary source.toList token.span.stop
  lt : token.span.start < token.span.stop
  name : ∀ {text : String}, token.kind = .name text → token.span.slice? source = some text

/-- One token, and those behind it, where nothing has to be skipped. -/
theorem readTokens_cons {stop start : Nat} {c : Char} (hblank : isBlank c = false)
    (hcomment : c ≠ '#') :
    readTokens stop ((start, c) :: cs) = (readToken start c cs).bind fun (kind, rest) =>
      (readTokens stop rest).map (⟨kind, ⟨start, offsetOf stop rest⟩⟩ :: ·) := by
  rw [readTokens, if_neg (by simp [hblank]), if_neg hcomment]
  split
  · next hread => simp only [hread, Except.bind]
  · next hread => simp only [hread, Except.bind]

end Bnf
