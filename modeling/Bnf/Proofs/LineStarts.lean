import Mathlib.Data.Set.Card
import Bnf.Proofs.Cutting
import Bnf.Proofs.Locations

/-!
# Line breaks and the starts of lines

What a line break is can be told from the text alone: a carriage return and a line feed together, or
one of them without the other beside it. A text is cut in two between its line breaks, unless the
cut comes between the two characters of one. So the breaks are found one after the other, and lines
start behind them.

## Main definitions

- `LineBreak` — a line break of a text, and its place
- `StartsLine` — a place at which a line starts
- `breaksFrom` — the line breaks of a text, in order

## Main results

- `lineBreak_append_iff` — the line breaks of two texts one behind the other
- `mem_breaksFrom_iff` — all line breaks are found
- `map_start_linesFrom` — lines start behind line breaks
- `LineMap.mem_starts_iff` — the line map has all places at which lines start
- `LineMap.isGreatest_lineAt`, `LineMap.number_lineAt` — the line of an offset and its number
- `LineMap.lineCount_ofString` — there is one line more than line breaks
-/

namespace Bnf

/-- **A line break of a text**: a carriage return and a line feed together, or one of the two where
    the other does not belong to it. -/
inductive LineBreak (text : List Char) : Span → Prop
  | both (before after) : text = before ++ '\r' :: '\n' :: after →
      LineBreak text ⟨byteLength before, byteLength before + 2⟩
  | carriageReturn (before after) : text = before ++ '\r' :: after → after.head? ≠ some '\n' →
      LineBreak text ⟨byteLength before, byteLength before + 1⟩
  | lineFeed (before after) : text = before ++ '\n' :: after → before.getLast? ≠ some '\r' →
      LineBreak text ⟨byteLength before, byteLength before + 1⟩

/-- **Where a line starts**: at the start of the text, or where a line break stops. -/
def StartsLine (text : List Char) (place : Nat) : Prop :=
  place = 0 ∨ ∃ span, LineBreak text span ∧ span.stop = place

/-- A span, `n` bytes further behind in a text. -/
def Span.shift (n : Nat) (s : Span) : Span :=
  ⟨n + s.start, n + s.stop⟩

theorem Span.shift_zero (s : Span) : s.shift 0 = s := by
  rw [shift, Nat.zero_add, Nat.zero_add]

theorem Span.shift_shift (m n : Nat) (s : Span) : (s.shift n).shift m = s.shift (m + n) := by
  simp only [shift, Nat.add_assoc]

/-! ## Breaks of a text in two parts -/

/-- **No line break goes across**: two texts do not meet between a carriage return and a line
    feed. -/
def Separate (front back : List Char) : Prop :=
  front.getLast? = some '\r' → back.head? ≠ some '\n'

section

variable {front back text : List Char} {s : Span}

theorem separate_of_forall (h : ∀ c ∈ front, isLineBreak c = false) : Separate front back := by
  intro hreturn
  cases h '\r' (List.mem_of_getLast? hreturn)

/-- A line break of the first of two texts. -/
theorem LineBreak.append_right (h : LineBreak front s) (hseparate : Separate front back) :
    LineBreak (front ++ back) s := by
  cases h with
  | both before after hfront =>
    exact .both before (after ++ back) (by rw [hfront]; simp)
  | carriageReturn before after hfront hhead =>
    refine .carriageReturn before (after ++ back) (by rw [hfront]; simp) ?_
    cases after with
    | nil => exact hseparate (by rw [hfront]; simp)
    | cons c after => exact hhead
  | lineFeed before after hfront hlast =>
    exact .lineFeed before (after ++ back) (by rw [hfront]; simp) hlast

/-- A line break of the second of two texts. -/
theorem LineBreak.append_left (h : LineBreak back s) (hseparate : Separate front back) :
    LineBreak (front ++ back) (s.shift (byteLength front)) := by
  have hplace (before : List Char) (n : Nat) :
      Span.shift (byteLength front) ⟨byteLength before, byteLength before + n⟩ =
        ⟨byteLength (front ++ before), byteLength (front ++ before) + n⟩ := by
    simp only [Span.shift, byteLength_append, Nat.add_assoc]
  cases h with
  | both before after hback =>
    rw [hplace]
    exact .both _ after (by rw [hback, List.append_assoc])
  | carriageReturn before after hback hhead =>
    rw [hplace]
    exact .carriageReturn _ after (by rw [hback, List.append_assoc]) hhead
  | lineFeed before after hback hlast =>
    rw [hplace]
    refine .lineFeed _ after (by rw [hback, List.append_assoc]) ?_
    cases hbefore : before.getLast? with
    | none =>
      rw [List.getLast?_eq_none_iff.1 hbefore] at hback
      rw [List.getLast?_eq_none_iff.1 hbefore, List.append_nil]
      exact fun hreturn => hseparate hreturn (by rw [hback]; rfl)
    | some c =>
      rw [List.getLast?_append, hbefore]
      rwa [hbefore] at hlast

/-- **The line breaks of two texts one behind the other** are those of both, if none goes
    across. -/
theorem lineBreak_append_iff (hseparate : Separate front back) : LineBreak (front ++ back) s ↔
    LineBreak front s ∨ ∃ t, LineBreak back t ∧ s = t.shift (byteLength front) := by
  constructor
  · have hbehind (middle : List Char) (n : Nat) :
        (⟨byteLength (front ++ middle), byteLength (front ++ middle) + n⟩ : Span) =
          Span.shift (byteLength front) ⟨byteLength middle, byteLength middle + n⟩ := by
      simp only [Span.shift, byteLength_append, Nat.add_assoc]
    intro h
    cases h with
    | both before after hsplit =>
      obtain ⟨middle, rfl, rfl⟩ | ⟨middle, hsome, rfl, hafter⟩ := append_eq_append_cases hsplit
      · exact .inr ⟨_, .both _ _ rfl, hbehind middle 2⟩
      · obtain ⟨_, middle, rfl⟩ := List.exists_cons_of_ne_nil hsome
        obtain ⟨rfl, hrest⟩ := List.cons.inj hafter
        cases middle with
        | nil =>
          have hback : '\n' :: after = back := hrest
          exact absurd (by rw [← hback]; rfl) (hseparate (by simp))
        | cons d middle =>
          obtain ⟨rfl, rfl⟩ := List.cons.inj hrest
          exact .inl (.both _ _ rfl)
    | carriageReturn before after hsplit hhead =>
      obtain ⟨middle, rfl, rfl⟩ | ⟨middle, hsome, rfl, hafter⟩ := append_eq_append_cases hsplit
      · exact .inr ⟨_, .carriageReturn _ _ rfl hhead, hbehind middle 1⟩
      · obtain ⟨_, middle, rfl⟩ := List.exists_cons_of_ne_nil hsome
        obtain ⟨rfl, rfl⟩ := List.cons.inj hafter
        refine .inl (.carriageReturn _ _ rfl ?_)
        cases middle with
        | nil => simp
        | cons d middle => exact hhead
    | lineFeed before after hsplit hlast =>
      obtain ⟨middle, rfl, rfl⟩ | ⟨middle, hsome, rfl, hafter⟩ := append_eq_append_cases hsplit
      · refine .inr ⟨_, .lineFeed _ _ rfl fun hreturn => hlast ?_, hbehind middle 1⟩
        rw [List.getLast?_append, hreturn]
        rfl
      · obtain ⟨_, middle, rfl⟩ := List.exists_cons_of_ne_nil hsome
        obtain ⟨rfl, rfl⟩ := List.cons.inj hafter
        exact .inl (.lineFeed _ _ rfl hlast)
  · rintro (h | ⟨t, h, rfl⟩)
    · exact h.append_right hseparate
    · exact h.append_left hseparate

/-- A line break starts and stops in its text. -/
theorem LineBreak.stop_le (h : LineBreak text s) : s.stop ≤ byteLength text := by
  have hsigns : '\r'.utf8Size = 1 ∧ '\n'.utf8Size = 1 := ⟨rfl, rfl⟩
  cases h with
  | both _ _ htext | carriageReturn _ _ htext _ | lineFeed _ _ htext _ =>
    rw [htext, byteLength_append]
    simp only [byteLength]
    omega

theorem LineBreak.start_lt (h : LineBreak text s) : s.start < s.stop := by
  cases h <;> simp

/-- A text without either of the signs has no line break. -/
theorem not_lineBreak_of_forall (h : ∀ c ∈ text, isLineBreak c = false) : ¬LineBreak text s := by
  intro hbreak
  cases hbreak with
  | both _ _ htext | carriageReturn _ _ htext _ => cases h '\r' (by simp [htext])
  | lineFeed _ _ htext _ => cases h '\n' (by simp [htext])

theorem isLineBreak_iff {c : Char} : isLineBreak c = true ↔ c = '\n' ∨ c = '\r' := by
  simp [isLineBreak]

/-- One sign by itself is a line break. -/
theorem lineBreak_singleton_iff {c : Char} (hc : isLineBreak c = true) :
    LineBreak [c] s ↔ s = ⟨0, 1⟩ := by
  constructor
  · intro h
    cases h with
    | both _ _ htext => simp [List.singleton_eq_append_iff] at htext
    | carriageReturn before _ htext _ | lineFeed before _ htext _ =>
      obtain ⟨rfl, -⟩ | ⟨-, htext⟩ := List.singleton_eq_append_iff.1 htext
      · rfl
      · cases htext
  · rintro rfl
    obtain rfl | rfl := isLineBreak_iff.1 hc
    · exact .lineFeed [] [] rfl (by simp)
    · exact .carriageReturn [] [] rfl (by simp)

/-- Both signs together are one line break. -/
theorem lineBreak_both_iff : LineBreak ['\r', '\n'] s ↔ s = ⟨0, 2⟩ := by
  constructor
  · intro h
    cases h with
    | both before after htext =>
      cases before with
      | nil => rfl
      | cons c before => cases before <;> simp at htext
    | carriageReturn before after htext hhead =>
      cases before with
      | nil =>
        cases htext
        exact absurd rfl hhead
      | cons c before => cases before <;> simp at htext
    | lineFeed before after htext hlast =>
      cases before with
      | nil => cases htext
      | cons c before =>
        obtain ⟨rfl, hrest⟩ := List.cons.inj htext
        cases before with
        | nil => exact absurd rfl hlast
        | cons d before => simp at hrest
  · rintro rfl
    exact .both [] [] rfl

end

/-! ## All breaks in order -/

/-- The line breaks of the text that is left at `offset`, in order. -/
def breaksFrom (offset : Nat) : List Char → List Span
  | [] => []
  | '\r' :: '\n' :: cs => ⟨offset, offset + 2⟩ :: breaksFrom (offset + 2) cs
  | c :: cs =>
    if c = '\n' ∨ c = '\r' then ⟨offset, offset + 1⟩ :: breaksFrom (offset + 1) cs
    else breaksFrom (offset + c.utf8Size) cs

/-- Line breaks behind each other, wherever the text stands. -/
theorem exists_shift_append_iff {front back : List Char} {s : Span} (offset : Nat)
    (hseparate : Separate front back) : (∃ t, LineBreak (front ++ back) t ∧ s = t.shift offset) ↔
      (∃ t, LineBreak front t ∧ s = t.shift offset) ∨
        ∃ t, LineBreak back t ∧ s = t.shift (offset + byteLength front) := by
  simp only [lineBreak_append_iff hseparate]
  constructor
  · rintro ⟨_, h | ⟨t, h, rfl⟩, rfl⟩
    · exact .inl ⟨_, h, rfl⟩
    · exact .inr ⟨t, h, Span.shift_shift ..⟩
  · rintro (⟨t, h, rfl⟩ | ⟨t, h, rfl⟩)
    · exact ⟨t, .inl h, rfl⟩
    · exact ⟨_, .inr ⟨t, h, rfl⟩, (Span.shift_shift ..).symm⟩

/-- **All line breaks are found.** -/
theorem mem_breaksFrom_iff {offset : Nat} {cs : List Char} {s : Span} :
    s ∈ breaksFrom offset cs ↔ ∃ t, LineBreak cs t ∧ s = t.shift offset := by
  fun_induction breaksFrom offset cs with
  | case1 offset =>
    have hnone (t : Span) : ¬LineBreak [] t := not_lineBreak_of_forall (by simp)
    simp [hnone]
  | case2 offset cs ih =>
    have hseparate : Separate ['\r', '\n'] cs := by simp [Separate]
    have hsize : byteLength ['\r', '\n'] = 2 := rfl
    rw [List.mem_cons, ih]
    refine Iff.trans ?_ (exists_shift_append_iff offset hseparate).symm
    simp [lineBreak_both_iff, hsize, Span.shift]
  | case3 offset c cs hother hbreak ih =>
    have hseparate : Separate [c] cs := by
      intro hreturn hfeed
      obtain ⟨rest, rfl⟩ := List.head?_eq_some_iff.1 hfeed
      cases hreturn
      exact hother rest rfl rfl
    have hsize : byteLength [c] = 1 := by obtain rfl | rfl := hbreak <;> rfl
    rw [List.mem_cons, ih]
    refine Iff.trans ?_ (exists_shift_append_iff offset hseparate).symm
    simp [lineBreak_singleton_iff (isLineBreak_iff.2 hbreak), hsize, Span.shift]
  | case4 offset c cs hother hbreak ih =>
    have hplain : ∀ d ∈ [c], isLineBreak d = false := by
      simpa [isLineBreak] using hbreak
    rw [ih]
    refine Iff.trans ?_ (exists_shift_append_iff offset (separate_of_forall hplain)).symm
    simp [not_lineBreak_of_forall hplain, byteLength]

theorem mem_breaksFrom_zero_iff {text : List Char} {s : Span} :
    s ∈ breaksFrom 0 text ↔ LineBreak text s := by
  simp [mem_breaksFrom_iff, Span.shift_zero]

/-- Line breaks come one behind the other. -/
theorem pairwise_breaksFrom (offset : Nat) (cs : List Char) :
    (breaksFrom offset cs).Pairwise fun s t => s.stop ≤ t.start := by
  fun_induction breaksFrom offset cs with
  | case1 => exact .nil
  | case2 offset cs ih | case3 offset c cs _ _ ih =>
    refine .cons (fun t ht => ?_) ih
    obtain ⟨u, -, rfl⟩ := mem_breaksFrom_iff.1 ht
    exact Nat.le_add_right _ _
  | case4 offset c cs _ _ ih => exact ih

/-! ## Where lines start -/

/-- **Lines start behind line breaks.** -/
theorem map_start_linesFrom (line : Line) (offset : Nat) (cs : List Char) :
    (linesFrom line offset cs).map (·.start) =
      line.start :: (breaksFrom offset cs).map (·.stop) := by
  fun_induction linesFrom line offset cs with
  | case1 line offset => rfl
  | case2 line offset cs ih => rw [List.map_cons, ih, breaksFrom, List.map_cons]
  | case3 line offset c cs hother hbreak ih =>
    rw [List.map_cons, ih, breaksFrom, if_pos hbreak, List.map_cons]
    exact hother
  | case4 line offset c cs hother hbreak ih =>
    rw [ih, breaksFrom, if_neg hbreak]
    exact hother

namespace LineMap

variable {source : String} {place : Nat}

theorem map_start_ofString (source : String) : (ofString source).lines.map (·.start) =
    0 :: (breaksFrom 0 source.toList).map (·.stop) :=
  map_start_linesFrom ⟨0, false⟩ 0 source.toList

/-- **The line map has all places at which lines start**, and no other. -/
theorem mem_starts_iff : place ∈ (ofString source).lines.map (·.start) ↔
    StartsLine source.toList place := by
  rw [map_start_ofString, List.mem_cons, List.mem_map]
  simp only [mem_breaksFrom_zero_iff, StartsLine]

/-- Lines start one behind the other. -/
theorem pairwise_starts (source : String) :
    ((ofString source).lines.map (·.start)).Pairwise (· < ·) := by
  rw [map_start_ofString, List.pairwise_cons, List.pairwise_map]
  constructor
  · intro stop hstop
    obtain ⟨s, hs, rfl⟩ := List.mem_map.1 hstop
    exact Nat.zero_lt_of_lt (mem_breaksFrom_zero_iff.1 hs).start_lt
  · refine (pairwise_breaksFrom 0 source.toList).imp_of_mem fun _ ht hle => ?_
    exact Nat.lt_of_le_of_lt hle (mem_breaksFrom_zero_iff.1 ht).start_lt


/-- **The lines up to an offset.** They are the first ones, the last of them is the one that is
    found. -/
theorem exists_lineAt (source : String) (offset : Nat) : ∃ number line,
    (ofString source).lineAt offset = (number, line) ∧
      (ofString source).lines[number]? = some line ∧
      ∀ i other, (ofString source).lines[i]? = some other →
        (other.start ≤ offset ↔ i ≤ number) := by
  obtain ⟨wide, rest, hlines⟩ := head?_linesFrom ⟨0, false⟩ 0 source.toList
  set lines := (ofString source).lines with hdef
  set reached := lines.takeWhile (·.start ≤ offset) with hreached
  have hsplit : reached ++ lines.dropWhile (·.start ≤ offset) = lines :=
    List.takeWhile_append_dropWhile
  have hne : reached ≠ [] := by
    rw [hreached, hdef, ofString]
    dsimp only
    rw [hlines, List.takeWhile_cons_of_pos (by simp)]
    exact List.cons_ne_nil _ _
  have hlength := List.length_pos_iff.2 hne
  refine ⟨reached.length - 1, reached.getLast hne, ?_, ?_, fun i other hother => ?_⟩
  · rw [lineAt, List.getLastD_eq_getLast?]
    simp only [← hdef, ← hreached, List.getLast?_eq_some_getLast hne, Option.getD_some]
  · rw [← hsplit, List.getElem?_append_left (by omega), ← List.getLast?_eq_getElem?,
      List.getLast?_eq_some_getLast hne]
  · have hstarts := List.pairwise_map.1 (pairwise_starts source)
    rw [← hdef, ← hsplit, List.pairwise_append] at hstarts
    rw [← hsplit] at hother
    by_cases hi : i < reached.length
    · rw [List.getElem?_append_left hi] at hother
      have hle := List.all_eq_true.1 List.all_takeWhile other (List.mem_of_getElem? hother)
      exact iff_of_true (of_decide_eq_true hle) (by omega)
    · rw [List.getElem?_append_right (Nat.le_of_not_lt hi)] at hother
      refine iff_of_false (fun hle => ?_) (by omega)
      have hmem := List.mem_of_getElem? hother
      -- The first line that is not reached starts behind the offset, and so do all others.
      cases hdrop : lines.dropWhile (·.start ≤ offset) with
      | nil => simp [hdrop] at hmem
      | cons first others =>
        have hfirst := List.head?_dropWhile_not (fun line : Line => line.start ≤ offset) lines
        rw [hdrop] at hfirst hmem hstarts
        have hbehind : ¬first.start ≤ offset := by simpa using hfirst
        obtain rfl | hother := List.mem_cons.1 hmem
        · exact hbehind hle
        · have := (List.pairwise_cons.1 hstarts.2.1).1 other hother
          omega

/-- **The line of an offset** is the last one that starts there or before. -/
theorem isGreatest_lineAt (source : String) (offset : Nat) :
    IsGreatest {place | StartsLine source.toList place ∧ place ≤ offset}
      ((ofString source).lineAt offset).2.start := by
  obtain ⟨number, line, hfound, hline, hreached⟩ := exists_lineAt source offset
  have hstarts := List.pairwise_map.1 (pairwise_starts source)
  rw [hfound]
  refine ⟨⟨?_, (hreached number line hline).2 (Nat.le_refl _)⟩, ?_⟩
  · exact mem_starts_iff.1 (List.mem_map_of_mem (List.mem_of_getElem? hline))
  · rintro place ⟨hplace, hle⟩
    obtain ⟨other, hother, rfl⟩ := List.mem_map.1 (mem_starts_iff.2 hplace)
    obtain ⟨i, hi, rfl⟩ := List.getElem_of_mem hother
    obtain ⟨hnumber, rfl⟩ := List.getElem?_eq_some_iff.1 hline
    obtain rfl | hlt := Nat.eq_or_lt_of_le ((hreached i _ (List.getElem?_eq_getElem hi)).1 hle)
    · exact Nat.le_refl _
    · exact Nat.le_of_lt (List.pairwise_iff_getElem.1 hstarts i number hi hnumber hlt)

/-- Line breaks are told apart by where they stop. -/
theorem nodup_breaksFrom (offset : Nat) (cs : List Char) : (breaksFrom offset cs).Nodup := by
  refine (pairwise_breaksFrom offset cs).imp_of_mem fun _ ht hle heq => ?_
  obtain ⟨t, hbreak, rfl⟩ := mem_breaksFrom_iff.1 ht
  have hlt := hbreak.start_lt
  rw [heq] at hle
  exact absurd hle (Nat.not_le_of_lt (Nat.add_lt_add_left hlt offset))

/-- **The number of a line** is how many line breaks stop before it. -/
theorem number_lineAt (source : String) (offset : Nat) :
    ((ofString source).lineAt offset).1 =
      {span | LineBreak source.toList span ∧ span.stop ≤ offset}.ncard := by
  obtain ⟨number, line, hfound, hline, hreached⟩ := exists_lineAt source offset
  have hnumber : number ≤ (breaksFrom 0 source.toList).length := by
    have hlength := congrArg List.length (map_start_ofString source)
    have hlt := (List.getElem?_eq_some_iff.1 hline).1
    simp only [List.length_map, List.length_cons] at hlength
    omega
  -- Line `i + 1` starts where break `i` stops.
  have hstop (i : Nat) (s : Span) (hs : (breaksFrom 0 source.toList)[i]? = some s) :
      s.stop ≤ offset ↔ i < number := by
    have hstart := congrArg (·[i + 1]?) (map_start_ofString source)
    simp only [List.getElem?_map, List.getElem?_cons_succ, hs, Option.map_some,
      Option.map_eq_some_iff] at hstart
    obtain ⟨other, hother, hstart⟩ := hstart
    rw [← hstart, hreached _ other hother]
    rfl
  have hset : {span | LineBreak source.toList span ∧ span.stop ≤ offset} =
      ((breaksFrom 0 source.toList).take number).toFinset := by
    ext s
    simp only [Set.mem_ofPred_eq, List.coe_toFinset, ← mem_breaksFrom_zero_iff,
      List.mem_iff_getElem?, List.getElem?_take, Option.ite_none_right_eq_some]
    exact ⟨fun ⟨⟨i, hi⟩, hle⟩ => ⟨i, (hstop i s hi).1 hle, hi⟩,
      fun ⟨i, hlt, hi⟩ => ⟨⟨i, hi⟩, (hstop i s hi).2 hlt⟩⟩
  rw [hfound, hset, Set.ncard_coe_finset, List.toFinset_card_of_nodup, List.length_take]
  · exact (Nat.min_eq_left hnumber).symm
  · exact (nodup_breaksFrom 0 source.toList).sublist (List.take_sublist _ _)

/-- **How many lines there are**: one more than line breaks. -/
theorem lineCount_ofString (source : String) :
    (ofString source).lineCount = {span | LineBreak source.toList span}.ncard + 1 := by
  have hset : {span | LineBreak source.toList span} = (breaksFrom 0 source.toList).toFinset := by
    ext s
    simp [mem_breaksFrom_zero_iff]
  have hlength := congrArg List.length (map_start_ofString source)
  simp only [List.length_map, List.length_cons] at hlength
  rw [hset, Set.ncard_coe_finset, List.toFinset_card_of_nodup (nodup_breaksFrom 0 _), lineCount,
    hlength]

end LineMap

end Bnf
