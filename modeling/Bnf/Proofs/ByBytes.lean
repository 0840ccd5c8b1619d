import Bnf.Proofs.LineStarts

/-!
# Lines by bytes

Lines and columns once more, from the bytes of a text. Line breaks are found byte by byte, with a
look at the next byte behind a carriage return. The line of an offset is found by halving, and on a
line of ASCII alone the bytes are counted in place of the characters. Each step may fail a check: if
a line starts at an offset that is no 32-bit number, if a line is looked up that is not there, if
the line in front of the first one is asked for, if what is cut out of the text starts or stops
inside a character, or if a number gets too large.

## Main definitions

- `utf8` — the bytes of a text
- `ByBytes.lines` — the lines of a text
- `ByBytes.lineAt` — the line of an offset
- `ByBytes.position` — the line and the column of an offset

## Main results

- `ByBytes.lines_eq_some` — the lines found by bytes are those found by characters
- `ByBytes.isWide_iff` — a line is marked if there is a byte outside ASCII on it
- `ByBytes.lineAt_eq_some` — halving finds the last line that starts at an offset or before
- `ByBytes.position_eq_some` — no check fails for the line and the column of an offset
- `LineMap.counts_breaks_and_characters` — lines are counted by line breaks, columns by characters
-/

namespace Bnf

/-- The bytes of a text in UTF-8. -/
def utf8 (cs : List Char) : List UInt8 :=
  cs.flatMap String.utf8EncodeChar

namespace ByBytes

/-- A line that starts at an offset, which must be a 32-bit number. -/
def startLine (offset : Nat) : Option Line :=
  if offset < offsetBound then some ⟨offset, false⟩ else none

/-- The lines of the bytes that are left at `index`, in a line that has been entered already. -/
def linesFrom (entered : Line) (index : Nat) : List UInt8 → Option (List Line)
  | [] => some [entered]
  | 13 :: 10 :: bytes => do
    return entered :: (← linesFrom (← startLine (index + 2)) (index + 2) bytes)
  | byte :: bytes =>
    if byte = 10 ∨ byte = 13 then do
      return entered :: (← linesFrom (← startLine (index + 1)) (index + 1) bytes)
    else linesFrom { entered with isWide := entered.isWide || 128 ≤ byte } (index + 1) bytes

/-- The lines of a text. No more bytes are looked at than have an offset behind them. -/
def lines (source : String) : Option (List Line) :=
  linesFrom ⟨0, false⟩ 0 ((utf8 source.toList).take (offsetBound - 1))

/-- Halves a stretch of `size` lines from number `base` on, until a single line is left. -/
def narrow (lines : Array Line) (offset base size : Nat) : Option Nat :=
  if size ≤ 1 then some base
  else do
    let middle ← lines[base + size / 2]?
    narrow lines offset (if offset < middle.start then base else base + size / 2) (size - size / 2)
termination_by size

/-- The number of the line that starts at an offset, or as an error the number that such a line
    would have. -/
def search (lines : Array Line) (offset : Nat) : Option (Except Nat Nat) :=
  if lines.size = 0 then some (.error 0)
  else do
    let base ← narrow lines offset 0 lines.size
    let line ← lines[base]?
    if line.start = offset then return .ok base
    else return .error (if line.start < offset then base + 1 else base)

/-- The last line that starts at an offset or before, with its number. -/
def lineAt (lines : Array Line) (offset : Nat) : Option (Nat × Line) := do
  let number ← match ← search lines offset with
    | .ok number => some number
    | .error 0 => none
    | .error (number + 1) => some number
  let line ← lines[number]?
  if line.start ≤ offset then return (number, line) else none

/-- The last place between characters at an offset or before, found by going back byte by byte. -/
def boundary (source : String) (offset : Nat) : Option Nat :=
  if (dropBytes? offset source.toList).isSome then some offset
  else match offset with
    | 0 => none
    | offset + 1 => boundary source offset

/-- The line and the column of an offset, both counted from zero. -/
def position (source : String) (lines : Array Line) (offset : Nat) : Option (Nat × Nat) := do
  let place ← boundary source (min offset (byteLength source.toList))
  let (number, line) ← lineAt lines place
  let before ← Span.slice? ⟨line.start, place⟩ source
  let column := if line.isWide then before.toList.length else byteLength before.toList
  if number < offsetBound ∧ column < offsetBound then return (number, column) else none

end ByBytes

/-! ## Bytes of characters -/

section

variable {c : Char} {cs : List Char}

theorem utf8_cons (c : Char) (cs : List Char) :
    utf8 (c :: cs) = String.utf8EncodeChar c ++ utf8 cs :=
  List.flatMap_cons

theorem utf8_append (front back : List Char) : utf8 (front ++ back) = utf8 front ++ utf8 back :=
  List.flatMap_append

theorem length_utf8 (cs : List Char) : (utf8 cs).length = byteLength cs := by
  induction cs with
  | nil => rfl
  | cons c cs ih => rw [utf8_cons, List.length_append, String.length_utf8EncodeChar, ih, byteLength]

/-- A character of ASCII is a byte. -/
theorem utf8EncodeChar_of_lt (h : c.toNat < 128) :
    String.utf8EncodeChar c = [UInt8.ofNat c.toNat] := by
  have hle : c.val.toNat ≤ 127 := Nat.le_of_lt_succ h
  rw [String.utf8EncodeChar, if_pos hle]
  rfl

theorem utf8Size_of_lt (h : c.toNat < 128) : c.utf8Size = 1 := by
  rw [← String.length_utf8EncodeChar, utf8EncodeChar_of_lt h, List.length_singleton]

theorem utf8EncodeChar_ne_nil (c : Char) : String.utf8EncodeChar c ≠ [] := by
  rw [← List.length_pos_iff, String.length_utf8EncodeChar]
  exact c.utf8Size_pos

theorem toNat_ofNat_of_lt (h : c.toNat < 128) : (UInt8.ofNat c.toNat).toNat = c.toNat :=
  UInt8.toNat_ofNat_of_lt' (Nat.lt_trans h (by decide))

/-- Two characters of ASCII have the same byte if they are the same. -/
theorem ofNat_toNat_inj {d : Char} (hc : c.toNat < 128) (hd : d.toNat < 128) :
    UInt8.ofNat c.toNat = UInt8.ofNat d.toNat ↔ c = d := by
  rw [← UInt8.toNat_inj, toNat_ofNat_of_lt hc, toNat_ofNat_of_lt hd, Char.toNat_inj]

/-- All bytes of any other character are outside ASCII. -/
theorem le_of_mem_utf8EncodeChar (h : 128 ≤ c.toNat) {byte : UInt8}
    (hbyte : byte ∈ String.utf8EncodeChar c) : 128 ≤ byte := by
  have hlt : ¬c.val.toNat ≤ 127 := Nat.not_le_of_lt h
  have hlarge (n : Nat) (hlow : 128 ≤ n) (hhigh : n < 256) : 128 ≤ UInt8.ofNat n := by
    rw [UInt8.le_iff_toNat_le, UInt8.toNat_ofNat_of_lt' hhigh]
    exact hlow
  rw [String.utf8EncodeChar, if_neg hlt] at hbyte
  split_ifs at hbyte
  all_goals
    simp only [List.mem_cons, List.not_mem_nil, or_false] at hbyte
  · obtain rfl | rfl := hbyte <;> exact hlarge _ (by omega) (by omega)
  · obtain rfl | rfl | rfl := hbyte <;> exact hlarge _ (by omega) (by omega)
  · obtain rfl | rfl | rfl | rfl := hbyte <;> exact hlarge _ (by omega) (by omega)

end

namespace ByBytes

section

variable {entered : Line} {index : Nat} {byte : UInt8} {bytes : List UInt8}

theorem startLine_eq_some {offset : Nat} (h : offset < offsetBound) :
    startLine offset = some ⟨offset, false⟩ :=
  if_pos h

theorem linesFrom_break (hbreak : byte = 10 ∨ byte = 13)
    (hnext : byte = 13 → bytes.head? ≠ some 10) (hindex : index + 1 < offsetBound) :
    linesFrom entered index (byte :: bytes) =
      (linesFrom ⟨index + 1, false⟩ (index + 1) bytes).map (entered :: ·) := by
  rw [linesFrom, if_pos hbreak, startLine_eq_some hindex, Option.map_eq_bind]
  · rfl
  · rintro rest hreturn rfl
    exact hnext hreturn rfl

theorem linesFrom_both (hindex : index + 2 < offsetBound) :
    linesFrom entered index (13 :: 10 :: bytes) =
      (linesFrom ⟨index + 2, false⟩ (index + 2) bytes).map (entered :: ·) := by
  rw [linesFrom, startLine_eq_some hindex, Option.map_eq_bind]
  rfl

theorem linesFrom_other (hbreak : ¬(byte = 10 ∨ byte = 13)) :
    linesFrom entered index (byte :: bytes) =
      linesFrom { entered with isWide := entered.isWide || 128 ≤ byte } (index + 1) bytes := by
  rw [linesFrom, if_neg hbreak]
  rintro rest hreturn -
  exact hbreak (.inr hreturn)

/-- Line breaks are in ASCII. -/
theorem not_le_of_break (hbreak : byte = 10 ∨ byte = 13) : ¬128 ≤ byte := by
  obtain rfl | rfl := hbreak <;> decide

/-- Bytes outside ASCII mark the line that they are on. -/
theorem linesFrom_wide {word : List UInt8} (hword : ∀ byte ∈ word, 128 ≤ byte) (hne : word ≠ []) :
    linesFrom entered index (word ++ bytes) =
      linesFrom { entered with isWide := true } (index + word.length) bytes := by
  induction word generalizing entered index with
  | nil => exact absurd rfl hne
  | cons byte word ih =>
    rw [List.forall_mem_cons] at hword
    have hbreak : ¬(byte = 10 ∨ byte = 13) := fun hbreak => not_le_of_break hbreak hword.1
    rw [List.cons_append, linesFrom_other hbreak, decide_eq_true hword.1, Bool.or_true]
    cases word with
    | nil => rfl
    | cons other word =>
      rw [ih hword.2 (List.cons_ne_nil _ _), List.length_cons, Nat.add_assoc, Nat.add_comm 1]
      rfl

end

/-- The first byte of a text tells whether it starts with a line feed. -/
theorem head?_utf8_ne {cs : List Char} (h : cs.head? ≠ some '\n') : (utf8 cs).head? ≠ some 10 := by
  cases cs with
  | nil => simp [utf8]
  | cons c cs =>
    have hc : c ≠ '\n' := fun hc => h (congrArg some hc)
    rw [utf8_cons]
    by_cases hascii : c.toNat < 128
    · rw [utf8EncodeChar_of_lt hascii]
      exact fun hhead => hc ((ofNat_toNat_inj hascii (by decide)).1 (Option.some.inj hhead))
    · cases hbytes : String.utf8EncodeChar c with
      | nil => exact absurd hbytes (utf8EncodeChar_ne_nil c)
      | cons byte bytes =>
        rintro ⟨⟩
        have := le_of_mem_utf8EncodeChar (Nat.le_of_not_lt hascii) (hbytes ▸ List.mem_cons_self)
        exact absurd this (by decide)

/-- **The lines found by bytes** are those found by characters. -/
theorem linesFrom_utf8 (line : Line) {offset : Nat} {cs : List Char}
    (h : offset + byteLength cs < offsetBound) :
    linesFrom line offset (utf8 cs) = some (Bnf.linesFrom line offset cs) := by
  fun_induction Bnf.linesFrom line offset cs with
  | case1 line offset => rfl
  | case2 line offset cs ih =>
    have hsize : byteLength ('\r' :: '\n' :: cs) = 2 + byteLength cs := by
      rw [byteLength, byteLength, ← Nat.add_assoc]
      rfl
    have hbytes : utf8 ('\r' :: '\n' :: cs) = 13 :: 10 :: utf8 cs := rfl
    rw [hbytes, linesFrom_both (by omega), ih (by omega)]
    rfl
  | case3 line offset c cs hother hbreak ih =>
    have hsize : byteLength (c :: cs) = 1 + byteLength cs := by
      obtain rfl | rfl := hbreak <;> rfl
    obtain ⟨byte, hbyte, hbytes, hnext⟩ : ∃ byte : UInt8, (byte = 10 ∨ byte = 13) ∧
        utf8 (c :: cs) = byte :: utf8 cs ∧ (byte = 13 → (utf8 cs).head? ≠ some 10) := by
      obtain rfl | rfl := hbreak
      · exact ⟨10, .inl rfl, rfl, fun hreturn => absurd hreturn (by decide)⟩
      · refine ⟨13, .inr rfl, rfl, fun _ => head?_utf8_ne fun hfeed => ?_⟩
        obtain ⟨rest, rfl⟩ := List.head?_eq_some_iff.1 hfeed
        exact hother rest rfl rfl
    rw [hbytes, linesFrom_break hbyte hnext (by omega), ih (by omega)]
    rfl
  | case4 line offset c cs hother hbreak ih =>
    have hsize : byteLength (c :: cs) = c.utf8Size + byteLength cs := rfl
    rw [utf8_cons, ← ih (by omega)]
    by_cases hascii : c.toNat < 128
    · have hbyte : ¬(UInt8.ofNat c.toNat = 10 ∨ UInt8.ofNat c.toNat = 13) := by
        have hfeed := ofNat_toNat_inj (d := '\n') hascii (by decide)
        have hreturn := ofNat_toNat_inj (d := '\r') hascii (by decide)
        exact fun hbyte => hbreak (hbyte.imp hfeed.1 hreturn.1)
      have hnarrow : ¬128 ≤ UInt8.ofNat c.toNat := by
        rw [UInt8.le_iff_toNat_le, toNat_ofNat_of_lt hascii]
        exact Nat.not_le_of_lt hascii
      rw [utf8EncodeChar_of_lt hascii, List.singleton_append, linesFrom_other hbyte,
        utf8Size_of_lt hascii, decide_eq_false hnarrow,
        decide_eq_false (Nat.not_le_of_lt hascii)]
    · have hwide := Nat.le_of_not_lt hascii
      rw [linesFrom_wide (fun _ => le_of_mem_utf8EncodeChar hwide) (utf8EncodeChar_ne_nil c),
        String.length_utf8EncodeChar, decide_eq_true hwide, Bool.or_true]

/-! ## The lines of a text -/

/-- **The lines found by bytes** are those found by characters. -/
theorem lines_eq_some {source : String} (hsize : byteLength source.toList < offsetBound) :
    lines source = some (LineMap.ofString source).lines := by
  rw [lines, List.take_of_length_le (by rw [length_utf8]; omega), linesFrom_utf8 _ (by omega)]
  rfl

/-- The line that a byte is on starts at `start`: it is the last one to start there or before. -/
def OnLine (lines : List Line) (place start : Nat) : Prop :=
  IsGreatest {n | n ∈ lines.map (·.start) ∧ n ≤ place} start

/-- Among the bytes that are left at `index` there is one outside ASCII, on the line that starts at
    `start`. -/
def WideOn (lines : List Line) (index : Nat) (bytes : List UInt8) (start : Nat) : Prop :=
  ∃ i byte, bytes[i]? = some byte ∧ 128 ≤ byte ∧ OnLine lines (index + i) start

/-- **A line is marked if a byte outside ASCII is on it.** The bytes are those left at `index`; the
    line that has been entered already may have been marked before. -/
def Marked (entered : Line) (index : Nat) (bytes : List UInt8) (lines : List Line) : Prop :=
  ∀ line ∈ lines, line.isWide = true ↔
    line.start = entered.start ∧ entered.isWide = true ∨ WideOn lines index bytes line.start

section

variable {entered first second line : Line} {lines others : List Line} {wide : Bool}
  {index place start stop : Nat} {byte : UInt8} {bytes sign : List UInt8}

/-- A line in front of the one that a byte is on makes no difference. -/
theorem onLine_cons_iff (hlt : first.start < second.start) (hle : second.start ≤ place) :
    OnLine (first :: second :: others) place start ↔ OnLine (second :: others) place start := by
  have hfirst {n : Nat} (hn : n ∈ (first :: second :: others).map Line.start) :
      n = first.start ∨ n ∈ (second :: others).map Line.start := List.mem_cons.1 hn
  constructor
  · rintro ⟨⟨hmem, hplace⟩, hmax⟩
    have hsecond := hmax ⟨by simp, hle⟩
    refine ⟨⟨(hfirst hmem).resolve_left (by omega), hplace⟩, fun n hn => hmax ⟨?_, hn.2⟩⟩
    exact List.mem_cons_of_mem _ hn.1
  · rintro ⟨⟨hmem, hplace⟩, hmax⟩
    have hsecond := hmax ⟨by simp, hle⟩
    refine ⟨⟨List.mem_cons_of_mem _ hmem, hplace⟩, fun n hn => ?_⟩
    obtain rfl | hrest := hfirst hn.1
    · omega
    · exact hmax ⟨hrest, hn.2⟩

/-- In front of the other lines, a byte is on the first. -/
theorem onLine_first_iff (hle : first.start ≤ place)
    (hlines : ∀ line ∈ others, place < line.start) :
    OnLine (first :: others) place start ↔ start = first.start := by
  have hgreatest : OnLine (first :: others) place first.start := by
    refine ⟨⟨by simp, hle⟩, fun n ⟨hn, hplace⟩ => ?_⟩
    obtain ⟨other, hother, rfl⟩ := List.mem_map.1 hn
    obtain rfl | hother := List.mem_cons.1 hother
    · exact Nat.le_refl _
    · exact absurd (hlines other hother) (Nat.not_lt_of_le hplace)
  exact ⟨fun hline => hline.unique hgreatest, fun heq => heq ▸ hgreatest⟩

/-- Bytes outside ASCII are behind the signs of a line break, and so on the lines behind it. -/
theorem wideOn_append_iff (hsign : ∀ byte ∈ sign, ¬128 ≤ byte)
    (hstop : second.start = index + sign.length) (hlt : first.start < second.start) :
    WideOn (first :: second :: others) index (sign ++ bytes) start ↔
      WideOn (second :: others) second.start bytes start := by
  constructor
  · rintro ⟨i, byte, hbyte, hlarge, hline⟩
    by_cases hi : i < sign.length
    · rw [List.getElem?_append_left hi] at hbyte
      exact absurd hlarge (hsign byte (List.mem_of_getElem? hbyte))
    · have hplace : index + i = second.start + (i - sign.length) := by omega
      rw [List.getElem?_append_right (Nat.le_of_not_lt hi)] at hbyte
      rw [hplace, onLine_cons_iff hlt (Nat.le_add_right _ _)] at hline
      exact ⟨_, byte, hbyte, hlarge, hline⟩
  · rintro ⟨i, byte, hbyte, hlarge, hline⟩
    refine ⟨sign.length + i, byte, ?_, hlarge, ?_⟩
    · rw [List.getElem?_append_right (Nat.le_add_right _ _), Nat.add_sub_cancel_left, hbyte]
    · rwa [← Nat.add_assoc, ← hstop, onLine_cons_iff hlt (Nat.le_add_right _ _)]

theorem wideOn_cons_iff : WideOn lines index (byte :: bytes) start ↔
    (128 ≤ byte ∧ OnLine lines index start) ∨ WideOn lines (index + 1) bytes start := by
  constructor
  · rintro ⟨_ | i, other, hother, hlarge, hline⟩
    · obtain rfl := Option.some.inj hother
      exact .inl ⟨hlarge, hline⟩
    · exact .inr ⟨i, other, hother, hlarge, by rwa [Nat.add_assoc, Nat.add_comm 1]⟩
  · rintro (⟨hlarge, hline⟩ | ⟨i, other, hother, hlarge, hline⟩)
    · exact ⟨0, byte, rfl, hlarge, hline⟩
    · exact ⟨i + 1, other, hother, hlarge, by rwa [Nat.add_assoc, Nat.add_comm 1] at hline⟩

/-- Behind a line break, the line in front of it is what it has been. -/
theorem Marked.cons (hsign : ∀ byte ∈ sign, ¬128 ≤ byte)
    (hstop : second.start = index + sign.length) (hlt : first.start < second.start)
    (hothers : ∀ line ∈ others, second.start < line.start)
    (h : Marked ⟨second.start, false⟩ second.start bytes (second :: others)) :
    Marked first index (sign ++ bytes) (first :: second :: others) := by
  have hbehind : ∀ line ∈ second :: others, first.start < line.start :=
    List.forall_mem_cons.2 ⟨hlt, fun line hline => Nat.lt_trans hlt (hothers line hline)⟩
  intro line hline
  rw [wideOn_append_iff hsign hstop hlt]
  obtain rfl | hline := List.mem_cons.1 hline
  · rw [or_iff_left, and_iff_right rfl]
    rintro ⟨i, byte, -, -, hon⟩
    obtain ⟨other, hother, hstart⟩ := List.mem_map.1 hon.1.1
    exact absurd (hbehind other hother) (Nat.not_lt_of_le (Nat.le_of_eq hstart))
  · have hne : line.start ≠ first.start := Nat.ne_of_gt (hbehind line hline)
    rw [h line hline]
    simp only [hne, Bool.false_eq_true, and_false, false_and, false_or]

/-- A byte that ends no line marks the line that has been entered, or it does not. -/
theorem Marked.other (hstart : entered.start ≤ index) (hlines : ∀ line ∈ lines, index < line.start)
    (h : Marked { entered with isWide := entered.isWide || 128 ≤ byte } (index + 1) bytes
      (⟨entered.start, wide⟩ :: lines)) :
    Marked entered index (byte :: bytes) (⟨entered.start, wide⟩ :: lines) := by
  have hfirst (start : Nat) :
      OnLine (⟨entered.start, wide⟩ :: lines) index start ↔ start = entered.start :=
    onLine_first_iff hstart hlines
  intro line hline
  rw [h line hline, wideOn_cons_iff, hfirst, Bool.or_eq_true, decide_eq_true_eq, and_or_left,
    or_assoc, @and_comm (128 ≤ byte)]

/-- The text behind a line break has been cut into lines, the line in front of it is one more. -/
theorem cons_eq_some {rest : Line → Option (List Line)}
    (h : (do return entered :: (← rest (← startLine stop))) = some lines) :
    ∃ others, rest ⟨stop, false⟩ = some others ∧ lines = entered :: others := by
  by_cases hstop : stop < offsetBound
  · rw [startLine_eq_some hstop, Option.bind_eq_bind, Option.bind_some, Option.bind_eq_bind,
      Option.bind_eq_some_iff] at h
    obtain ⟨others, hothers, hlines⟩ := h
    exact ⟨others, hothers, (Option.some.inj hlines).symm⟩
  · rw [startLine, if_neg hstop] at h
    cases h

/-- The line that has been entered comes first, and the others start behind the place that has been
    reached. -/
theorem exists_cons_of_linesFrom (h : linesFrom entered index bytes = some lines) :
    ∃ wide others, lines = ⟨entered.start, wide⟩ :: others ∧
      ∀ line ∈ others, index < line.start := by
  fun_induction linesFrom entered index bytes generalizing lines with
  | case1 entered index =>
    cases h
    exact ⟨entered.isWide, [], rfl, by simp⟩
  | case2 entered index bytes ih | case3 entered index byte bytes hother hbreak ih =>
    obtain ⟨others, hothers, rfl⟩ := cons_eq_some h
    obtain ⟨wide, rest, rfl, hrest⟩ := ih _ hothers
    refine ⟨entered.isWide, _, rfl, List.forall_mem_cons.2 ⟨by simp, fun line hline => ?_⟩⟩
    have hbehind := hrest line hline
    omega
  | case4 entered index byte bytes hother hbreak ih =>
    obtain ⟨wide, rest, rfl, hrest⟩ := ih h
    exact ⟨wide, rest, rfl, fun line hline => Nat.lt_of_succ_lt (hrest line hline)⟩

/-- **Lines are marked where bytes outside ASCII are.** -/
theorem marked_linesFrom (hstart : entered.start ≤ index)
    (h : linesFrom entered index bytes = some lines) : Marked entered index bytes lines := by
  fun_induction linesFrom entered index bytes generalizing lines with
  | case1 entered index =>
    cases h
    simp [Marked, WideOn]
  | case2 entered index bytes ih =>
    obtain ⟨others, hothers, rfl⟩ := cons_eq_some h
    obtain ⟨wide, rest, rfl, hrest⟩ := exists_cons_of_linesFrom hothers
    have hnext : entered.start < index + 2 := Nat.lt_add_right 1 (Nat.lt_succ_of_le hstart)
    have hsign : ∀ sign ∈ [13, 10], ¬(128 : UInt8) ≤ sign := List.forall_mem_cons.2
      ⟨not_le_of_break (.inr rfl), List.forall_mem_singleton.2 (not_le_of_break (.inl rfl))⟩
    exact Marked.cons hsign rfl hnext hrest (ih _ (Nat.le_refl _) hothers)
  | case3 entered index byte bytes hother hbreak ih =>
    obtain ⟨others, hothers, rfl⟩ := cons_eq_some h
    obtain ⟨wide, rest, rfl, hrest⟩ := exists_cons_of_linesFrom hothers
    have hsign : ∀ sign ∈ [byte], ¬128 ≤ sign :=
      List.forall_mem_singleton.2 (not_le_of_break hbreak)
    exact Marked.cons hsign rfl (Nat.lt_succ_of_le hstart) hrest (ih _ (Nat.le_refl _) hothers)
  | case4 entered index byte bytes hother hbreak ih =>
    obtain ⟨wide, rest, rfl, hrest⟩ := exists_cons_of_linesFrom h
    exact Marked.other hstart (fun line hline => Nat.lt_of_succ_lt (hrest line hline))
      (ih (Nat.le_succ_of_le hstart) h)

end

/-- Whether a line is marked, in the lines of a text. -/
theorem isWide_iff {source : String} (hsize : byteLength source.toList < offsetBound) {line : Line}
    (hline : line ∈ (LineMap.ofString source).lines) : line.isWide = true ↔
      ∃ i byte, (utf8 source.toList)[i]? = some byte ∧ 128 ≤ byte ∧
        IsGreatest {place | StartsLine source.toList place ∧ place ≤ i} line.start := by
  have hlines : linesFrom ⟨0, false⟩ 0 (utf8 source.toList) =
      some (LineMap.ofString source).lines := linesFrom_utf8 _ (by omega)
  rw [marked_linesFrom (Nat.zero_le 0) hlines line hline]
  simp only [WideOn, OnLine, LineMap.mem_starts_iff, Nat.zero_add, Bool.false_eq_true, and_false,
    false_or]

/-! ## The line of an offset -/

section

variable {lines : Array Line} {offset number : Nat}

/-- **Halving ends** at the last line that starts at an offset or before. -/
theorem narrow_eq_some {base size : Nat}
    (hreached : ∀ i line, lines[i]? = some line → (line.start ≤ offset ↔ i ≤ number))
    (hlow : base ≤ number) (hhigh : number < base + size) (hsize : base + size ≤ lines.size) :
    narrow lines offset base size = some number := by
  induction size using Nat.strongRecOn generalizing base with
  | ind size ih =>
    rw [narrow]
    split
    · rw [show base = number by omega]
    · have hmiddle : base + size / 2 < lines.size := by omega
      have hhalf := hreached _ _ (Array.getElem?_eq_getElem hmiddle)
      rw [Array.getElem?_eq_getElem hmiddle, Option.bind_eq_bind, Option.bind_some]
      -- The part that is kept has the line in it, whichever part that is.
      by_cases hbehind : offset < lines[base + size / 2].start
      · rw [if_pos hbehind]
        exact ih _ (by omega) hlow (by omega) (by omega)
      · rw [if_neg hbehind]
        exact ih _ (by omega) (by omega) (by omega) (by omega)

/-- **The line of an offset is found by halving.** -/
theorem lineAt_eq_some {line : Line}
    (hreached : ∀ i line, lines[i]? = some line → (line.start ≤ offset ↔ i ≤ number))
    (hline : lines[number]? = some line) : lineAt lines offset = some (number, line) := by
  obtain ⟨hnumber, hget⟩ := Array.getElem?_eq_some_iff.1 hline
  have hle : line.start ≤ offset := (hreached number line hline).2 (Nat.le_refl _)
  have hsearch : search lines offset =
      some (if line.start = offset then .ok number else .error (number + 1)) := by
    rw [search, if_neg (Nat.ne_zero_of_lt hnumber),
      narrow_eq_some hreached (Nat.zero_le _) (by omega) (by omega)]
    simp only [hline, Option.bind_eq_bind, Option.bind_some]
    split
    · rfl
    · rw [if_pos (by omega)]
      rfl
  rw [lineAt, hsearch]
  split_ifs <;> simp [hline, hle]

/-- The line of an offset in a text. -/
theorem lineAt_ofString (source : String) (offset : Nat) :
    lineAt (LineMap.ofString source).lines.toArray offset =
      some ((LineMap.ofString source).lineAt offset) := by
  obtain ⟨number, line, hfound, hline, hreached⟩ := LineMap.exists_lineAt source offset
  rw [hfound]
  refine lineAt_eq_some ?_ (by rw [List.getElem?_toArray, hline])
  simpa only [List.getElem?_toArray] using hreached

end

/-! ## Lines and columns -/

/-- What fits into a number of bytes ends at the last place between characters. -/
theorem isGreatest_takeBytes (text : List Char) (offset : Nat) :
    IsGreatest {place | Boundary text place ∧ place ≤ min offset (byteLength text)}
      (byteLength (takeBytes offset text)) := by
  have hboundary := boundary_takeBytes offset text
  refine ⟨⟨hboundary, le_min (byteLength_takeBytes_le offset text) hboundary.le⟩, ?_⟩
  rintro place ⟨hplace, hle⟩
  obtain ⟨word, hword⟩ := takeBytes_prefix text (Nat.le_trans hle (Nat.min_le_left _ _))
  rw [← hplace.byteLength_takeBytes, ← hword, byteLength_append]
  exact Nat.le_add_right _ _

theorem isSome_dropBytes?_iff {text : List Char} {offset : Nat} :
    (dropBytes? offset text).isSome = true ↔ Boundary text offset := by
  constructor
  · intro h
    fun_induction dropBytes? offset text with
    | case1 text => exact boundary_zero text
    | case2 => cases h
    | case3 offset c text hfits ih =>
      obtain ⟨before, after, rfl, hbefore⟩ := ih h
      exact ⟨c :: before, after, rfl, by rw [byteLength, hbefore, Nat.add_sub_cancel' hfits]⟩
    | case4 => cases h
  · rintro ⟨before, after, rfl, rfl⟩
    rw [dropBytes?_append]
    rfl

/-- **Going back byte by byte** ends at the last place between characters. -/
theorem boundary_eq_some {source : String} {offset place : Nat}
    (h : IsGreatest {n | Boundary source.toList n ∧ n ≤ offset} place) :
    boundary source offset = some place := by
  induction offset with
  | zero =>
    obtain ⟨⟨hplace, hle⟩, -⟩ := h
    obtain rfl := Nat.le_zero.1 hle
    rw [boundary, if_pos (isSome_dropBytes?_iff.2 hplace)]
  | succ offset ih =>
    obtain ⟨⟨hplace, hle⟩, hmax⟩ := h
    rw [boundary]
    by_cases hoffset : Boundary source.toList (offset + 1)
    · rw [if_pos (isSome_dropBytes?_iff.2 hoffset),
        Nat.le_antisymm hle (hmax ⟨hoffset, Nat.le_refl _⟩)]
    · rw [if_neg (mt isSome_dropBytes?_iff.1 hoffset)]
      have hne : place ≠ offset + 1 := fun heq => hoffset (heq ▸ hplace)
      exact ih ⟨⟨hplace, by omega⟩, fun n ⟨hn, hle⟩ => hmax ⟨hn, Nat.le_succ_of_le hle⟩⟩

/-- Characters of ASCII are as many as their bytes. -/
theorem byteLength_eq_length {cs : List Char} (h : ∀ c ∈ cs, c.toNat < 128) :
    byteLength cs = cs.length := by
  induction cs with
  | nil => rfl
  | cons c cs ih =>
    rw [List.forall_mem_cons] at h
    rw [byteLength, ih h.2, utf8Size_of_lt h.1, List.length_cons, Nat.add_comm]

/-- Any other character has a byte outside ASCII at its place. -/
theorem exists_byte (front : List Char) {c : Char} (back : List Char) (hc : 128 ≤ c.toNat) :
    ∃ byte, (utf8 (front ++ c :: back))[byteLength front]? = some byte ∧ 128 ≤ byte := by
  cases hbytes : String.utf8EncodeChar c with
  | nil => exact absurd hbytes (utf8EncodeChar_ne_nil c)
  | cons byte bytes =>
    refine ⟨byte, ?_, le_of_mem_utf8EncodeChar hc (hbytes ▸ List.mem_cons_self)⟩
    rw [utf8_append, utf8_cons, hbytes, List.getElem?_append_right (length_utf8 front).le,
      length_utf8, Nat.sub_self]
    rfl

/-- On a line that is not marked, there are characters of ASCII alone. -/
theorem forall_lt_of_isWide_eq_false {source : String}
    (hsize : byteLength source.toList < offsetBound) {offset : Nat} {front middle back : List Char}
    (hwide : ((LineMap.ofString source).lineAt offset).2.isWide = false)
    (htext : source.toList = front ++ middle ++ back)
    (hfront : byteLength front = ((LineMap.ofString source).lineAt offset).2.start)
    (hmiddle : byteLength (front ++ middle) ≤ offset) : ∀ c ∈ middle, c.toNat < 128 := by
  obtain ⟨⟨hstart, -⟩, hmax⟩ := LineMap.isGreatest_lineAt source offset
  obtain ⟨number, line, hfound, hline, -⟩ := LineMap.exists_lineAt source offset
  rw [hfound] at hwide hfront hstart hmax
  intro c hc
  by_contra hlarge
  obtain ⟨before, after, rfl⟩ := List.append_of_mem hc
  obtain ⟨byte, hbyte, hbytelarge⟩ :=
    exists_byte (front ++ before) (after ++ back) (Nat.le_of_not_lt hlarge)
  have hsplit : source.toList = front ++ before ++ c :: (after ++ back) := by
    rw [htext]
    simp
  rw [byteLength_append, byteLength_append] at hmiddle
  rw [← hsplit, byteLength_append] at hbyte
  dsimp only at hfront hmax
  have hon : IsGreatest {place | StartsLine source.toList place ∧
      place ≤ byteLength front + byteLength before} line.start :=
    ⟨⟨hstart, by omega⟩, fun n ⟨hn, hle⟩ => hmax ⟨hn, by omega⟩⟩
  have hmarked := (isWide_iff hsize (List.mem_of_getElem? hline)).2
    ⟨_, byte, hbyte, hbytelarge, hon⟩
  rw [hwide] at hmarked
  cases hmarked

/-- **What is in front of an offset**, cut where its line starts. The column counts the characters
    behind the cut. -/
theorem exists_position (source : String) (offset : Nat) : ∃ number line front middle back,
    source.toList = front ++ middle ++ back ∧ takeBytes offset source.toList = front ++ middle ∧
      (LineMap.ofString source).lineAt (byteLength (front ++ middle)) = (number, line) ∧
      byteLength front = line.start ∧ number ≤ byteLength source.toList ∧
      (LineMap.ofString source).position offset = (number, middle.length) := by
  obtain ⟨number, line, -, hfound, hline, hle, hnumber⟩ :=
    LineMap.lineAt?_ofString source (byteLength (takeBytes offset source.toList))
  have hstart : Boundary source.toList line.start :=
    boundary_of_mem_linesFrom (boundary_zero _) (leftAt_zero _) line hline
  obtain ⟨middle, hmiddle⟩ := takeBytes_prefix source.toList hle
  rw [takeBytes_byteLength] at hmiddle
  obtain ⟨before, back, htext, hbefore⟩ := boundary_takeBytes offset source.toList
  have hsplit := (LeftAt.takeBytes_eq ⟨before, back, htext, hbefore, rfl⟩).1
  rw [takeBytes_byteLength, map_snd_locate, ← hmiddle] at hsplit
  refine ⟨number, line, _, middle, back, hsplit, hmiddle.symm, by rw [hmiddle, hfound],
    hstart.byteLength_takeBytes, hnumber, ?_⟩
  have hchars : (LineMap.ofString source).chars = source.toList := rfl
  simp only [LineMap.position, hchars, hfound]
  rw [← hmiddle, List.length_append, Nat.add_sub_cancel_left]

/-- **The line and the column found by bytes** are those found by characters. -/
theorem position_eq_some {source : String} (hsize : byteLength source.toList < offsetBound)
    (offset : Nat) : position source (LineMap.ofString source).lines.toArray offset =
      some ((LineMap.ofString source).position offset) := by
  obtain ⟨number, line, front, middle, back, htext, htake, hfound, hfront, hnumber, hposition⟩ :=
    exists_position source offset
  have hplace := isGreatest_takeBytes source.toList offset
  have hlineAt : lineAt (LineMap.ofString source).lines.toArray (byteLength (front ++ middle)) =
      some (number, line) := by
    rw [lineAt_ofString, hfound]
  have hslice : Span.slice? ⟨line.start, byteLength (front ++ middle)⟩ source =
      some (String.ofList middle) := by
    rw [← hfront, slice?_of_eq_append htext]
  have hcolumn : (if line.isWide then middle.length else byteLength middle) = middle.length := by
    cases hwide : line.isWide with
    | true => rfl
    | false =>
      refine byteLength_eq_length (forall_lt_of_isWide_eq_false hsize ?_ htext ?_ (Nat.le_refl _))
      · rw [hfound, hwide]
      · rw [hfound, hfront]
  have hbound : number < offsetBound ∧ middle.length < offsetBound := by
    have hshort := length_le_byteLength middle
    have htotal := congrArg byteLength htext
    simp only [byteLength_append] at htotal
    omega
  rw [htake] at hplace
  simp only [position, boundary_eq_some hplace, hlineAt, hslice, Option.bind_eq_bind,
    Option.bind_some, String.toList_ofList, hcolumn, if_pos hbound, hposition]
  rfl

end ByBytes

/-! ## What lines and columns are -/

namespace LineMap

/-- **Lines and columns are those of the text.** An offset is taken back to the last place between
    characters. Its line is the number of line breaks that stop there or before, its column the
    number of characters behind the last of them. A line is marked if a byte outside ASCII is on it.
    All of this is found by bytes, and no check fails. -/
theorem counts_breaks_and_characters {source : String}
    (hsize : byteLength source.toList < offsetBound) (offset : Nat) :
    (∃ place start before,
      IsGreatest {n | Boundary source.toList n ∧ n ≤ min offset (byteLength source.toList)} place ∧
      IsGreatest {n | StartsLine source.toList n ∧ n ≤ place} start ∧
      Span.slice? ⟨start, place⟩ source = some before ∧
      (ofString source).position offset =
        ({span | LineBreak source.toList span ∧ span.stop ≤ place}.ncard, before.toList.length)) ∧
    (∃ number line, (ofString source).lineAt offset = (number, line) ∧
      number = {span | LineBreak source.toList span ∧ span.stop ≤ offset}.ncard ∧
      IsGreatest {n | StartsLine source.toList n ∧ n ≤ offset} line.start ∧
      (line.isWide = true ↔ ∃ i byte, (utf8 source.toList)[i]? = some byte ∧ 128 ≤ byte ∧
        IsGreatest {n | StartsLine source.toList n ∧ n ≤ i} line.start)) ∧
    (ofString source).lineCount = {span | LineBreak source.toList span}.ncard + 1 ∧
    ByBytes.lines source = some (ofString source).lines ∧
    ByBytes.lineAt (ofString source).lines.toArray offset = some ((ofString source).lineAt offset) ∧
    ByBytes.position source (ofString source).lines.toArray offset =
      some ((ofString source).position offset) := by
  refine ⟨?_, ?_, lineCount_ofString source, ByBytes.lines_eq_some hsize,
    ByBytes.lineAt_ofString source offset, ByBytes.position_eq_some hsize offset⟩
  · obtain ⟨number, line, front, middle, back, htext, htake, hfound, hfront, -, hposition⟩ :=
      ByBytes.exists_position source offset
    have hplace := ByBytes.isGreatest_takeBytes source.toList offset
    have hstart := isGreatest_lineAt source (byteLength (front ++ middle))
    have hnumber := number_lineAt source (byteLength (front ++ middle))
    rw [htake] at hplace
    rw [hfound] at hstart hnumber
    refine ⟨_, line.start, String.ofList middle, hplace, hstart, ?_, ?_⟩
    · rw [← hfront, slice?_of_eq_append htext]
    · rw [hposition, ← hnumber, String.toList_ofList]
  · obtain ⟨number, line, hfound, hline, -⟩ := exists_lineAt source offset
    have hstart := isGreatest_lineAt source offset
    have hnumber := number_lineAt source offset
    rw [hfound] at hstart hnumber
    exact ⟨number, line, hfound, hnumber, hstart,
      ByBytes.isWide_iff hsize (List.mem_of_getElem? hline)⟩

/-- An offset inside a character, behind both kinds of carriage return. -/
theorem counts_breaks_inside_character :
    (ofString "a\r\né\rbü").position 8 = (2, 1) ∧
      {span | LineBreak "a\r\né\rbü".toList span ∧ span.stop ≤ 7}.ncard = 2 ∧
      Span.slice? ⟨6, 7⟩ "a\r\né\rbü" = some "b" ∧
      ByBytes.position "a\r\né\rbü" (ofString "a\r\né\rbü").lines.toArray 8 = some (2, 1) := by
  obtain ⟨⟨place, start, before, hplace, hstart, hslice, hcounts⟩, -, -, -, -, hbytes⟩ :=
    @counts_breaks_and_characters "a\r\né\rbü" (by decide +kernel) 8
  have hposition : (ofString "a\r\né\rbü").position 8 = (2, 1) := by decide +kernel
  obtain rfl : place = 7 := hplace.unique (by
    have hgreatest := ByBytes.isGreatest_takeBytes "a\r\né\rbü".toList 8
    rwa [show byteLength (takeBytes 8 "a\r\né\rbü".toList) = 7 by decide +kernel] at hgreatest)
  obtain rfl : start = 6 := hstart.unique (by
    have hgreatest := isGreatest_lineAt "a\r\né\rbü" 7
    rwa [show ((ofString "a\r\né\rbü").lineAt 7).2.start = 6 by decide +kernel] at hgreatest)
  rw [hposition, Prod.mk.injEq] at hcounts
  exact ⟨hposition, hcounts.1.symm, by decide +kernel, by rw [hbytes, hposition]⟩

end LineMap

end Bnf
