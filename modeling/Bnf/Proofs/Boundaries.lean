import Bnf.Text.Span

/-!
# Places between characters

A reader that works through a text is always at a place between two characters, or at an end of the
text. So what is left of the text is found again from the offset of the place alone, and what lies
between two such places can be cut out.

## Main definitions

- `Boundary` — an offset that lies between two characters, or at an end of the text
- `LeftAt` — what is left of a text at an offset

## Main results

- `LeftAt.cons` — the place behind a character
- `LeftAt.slice?` — the text between two places can be cut out
-/

namespace Bnf

/-- **An offset between two characters**, or at the start or the end of a text. -/
def Boundary (text : List Char) (offset : Nat) : Prop :=
  ∃ before after, text = before ++ after ∧ byteLength before = offset

/-- What is left of a text at an offset, which is a boundary of it. -/
def LeftAt (text : List Char) (offset : Nat) (cs : List Located) : Prop :=
  ∃ before after, text = before ++ after ∧ byteLength before = offset ∧ cs = locate offset after

section

variable {text : List Char} {offset start stop : Nat} {cs rest : List Located}

/-- No place between characters is behind the end. -/
theorem Boundary.le (h : Boundary text offset) : offset ≤ byteLength text := by
  obtain ⟨before, after, rfl, rfl⟩ := h
  rw [byteLength_append]
  exact Nat.le_add_right _ _

theorem boundary_zero (text : List Char) : Boundary text 0 :=
  ⟨[], text, rfl, rfl⟩

/-- Characters that are located are the same. -/
theorem map_snd_locate (offset : Nat) (cs : List Char) : (locate offset cs).map (·.2) = cs := by
  induction cs generalizing offset with
  | nil => rfl
  | cons c cs ih => rw [locate, List.map_cons, ih]

theorem leftAt_zero (text : List Char) : LeftAt text 0 (locate 0 text) :=
  ⟨[], text, rfl, rfl, rfl⟩

namespace LeftAt

/-- What is left of a text begins between characters. -/
theorem boundary (h : LeftAt text offset cs) : Boundary text offset := by
  obtain ⟨before, after, htext, hbefore, -⟩ := h
  exact ⟨before, after, htext, hbefore⟩

/-- The place behind a character. -/
theorem cons {place : Nat} {c : Char} (h : LeftAt text offset ((place, c) :: rest)) :
    place = offset ∧ LeftAt text (offset + c.utf8Size) rest := by
  obtain ⟨before, after, rfl, rfl, hlocate⟩ := h
  cases after with
  | nil => simp [locate] at hlocate
  | cons d after =>
    rw [locate, List.cons.injEq, Prod.mk.injEq] at hlocate
    obtain ⟨⟨rfl, rfl⟩, rfl⟩ := hlocate
    exact ⟨rfl, before ++ [c], after, by simp, by simp [byteLength], rfl⟩

/-- Where it begins can be told from what is left. -/
theorem offsetOf_eq (h : LeftAt text offset cs) : offsetOf (byteLength text) cs = offset := by
  obtain ⟨before, after, rfl, rfl, rfl⟩ := h
  cases after with
  | nil => simp [locate, offsetOf]
  | cons c after => rfl

/-- A text is what stands in front of a place, and what is left there. -/
theorem takeBytes_eq (h : LeftAt text offset cs) :
    text = takeBytes offset text ++ cs.map (·.2) ∧ byteLength (takeBytes offset text) = offset := by
  obtain ⟨before, after, rfl, rfl, rfl⟩ := h
  have htake : takeBytes (byteLength before) (before ++ after) = before := by
    induction before with
    | nil =>
      cases after with
      | nil => rfl
      | cons c after =>
        have := c.utf8Size_pos
        rw [List.nil_append, takeBytes, if_neg (by simp [byteLength]; omega)]
    | cons c before ih =>
      rw [List.cons_append, takeBytes, if_pos (by simp [byteLength]), byteLength,
        Nat.add_sub_cancel_left, ih]
  rw [htake, map_snd_locate]
  exact ⟨rfl, rfl⟩

end LeftAt

/-- Up to a place between characters all bytes can be taken. -/
theorem Boundary.byteLength_takeBytes (h : Boundary text offset) :
    byteLength (takeBytes offset text) = offset := by
  obtain ⟨before, after, htext, hbefore⟩ := h
  exact (LeftAt.takeBytes_eq ⟨before, after, htext, hbefore, rfl⟩).2

/-- The text between two boundaries can be cut out. -/
theorem Boundary.slice? {source : String} (hstart : Boundary source.toList start)
    (hstop : Boundary source.toList stop) (hle : start ≤ stop) :
    Span.slice? ⟨start, stop⟩ source = some (String.ofList ((takeBytes stop source.toList).drop
      (takeBytes start source.toList).length)) :=
  if_pos ⟨hle, hstop.byteLength_takeBytes, hstart.byteLength_takeBytes⟩

/-- **The text between two places can be cut out.** -/
theorem LeftAt.slice? {source : String} {word : List Located}
    (h : LeftAt source.toList start (word ++ rest)) (hrest : LeftAt source.toList stop rest) :
    Span.slice? ⟨start, stop⟩ source = some (String.ofList (word.map (·.2))) := by
  obtain ⟨htext, hstart⟩ := h.takeBytes_eq
  obtain ⟨htext', hstop⟩ := hrest.takeBytes_eq
  have hsplit : takeBytes stop source.toList =
      takeBytes start source.toList ++ word.map (·.2) := by
    rw [List.map_append, ← List.append_assoc] at htext
    exact List.append_cancel_right (htext'.symm.trans htext)
  have hle : start ≤ stop := by
    rw [← hstart, ← hstop, hsplit, byteLength_append]
    exact Nat.le_add_right _ _
  rw [h.boundary.slice? hrest.boundary hle, hsplit, List.drop_left]

/-- The text between two others is cut out. -/
theorem slice?_of_eq_append {source : String} {front middle back : List Char}
    (htext : source.toList = front ++ middle ++ back) :
    Span.slice? ⟨byteLength front, byteLength (front ++ middle)⟩ source =
      some (String.ofList middle) := by
  have hstart : LeftAt source.toList (byteLength front)
      (locate (byteLength front) middle ++ locate (byteLength (front ++ middle)) back) :=
    ⟨front, middle ++ back, by rw [htext, List.append_assoc], rfl, by
      rw [locate_append, byteLength_append]⟩
  rw [hstart.slice? ⟨front ++ middle, back, htext, rfl, rfl⟩, map_snd_locate]

end

end Bnf
