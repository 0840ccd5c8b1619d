/-!
# Byte lengths of text

A text is a list of characters, a place in it is a byte offset into its UTF-8 form. This file
relates the two: how many bytes a list of characters takes, and how many characters fit into a
number of bytes.

## Main definitions

- `offsetBound` — the number of offsets that there are
- `byteLength` — the number of bytes of a text
- `takeBytes` — the longest beginning of a text that fits into a number of bytes
- `locate` — every character together with the offset at which it starts
-/

namespace Bnf

/-- Offsets are below this number: they have 32 bits. -/
def offsetBound : Nat :=
  4294967296

/-- The number of bytes of a text in UTF-8. -/
def byteLength : List Char → Nat
  | [] => 0
  | c :: cs => c.utf8Size + byteLength cs

/-- The longest beginning of a text that takes at most `n` bytes. It ends at the last character
    boundary that is not after the offset `n`. -/
def takeBytes : Nat → List Char → List Char
  | _, [] => []
  | n, c :: cs => if c.utf8Size ≤ n then c :: takeBytes (n - c.utf8Size) cs else []

/-- A character and the byte offset at which it starts. -/
abbrev Located := Nat × Char

/-- The characters of a text that starts at `offset`, each with its own offset. -/
def locate (offset : Nat) : List Char → List Located
  | [] => []
  | c :: cs => (offset, c) :: locate (offset + c.utf8Size) cs

/-- The offset of the first character of `rest`, which is part of a text that ends at `stop`. -/
def offsetOf (stop : Nat) : List Located → Nat
  | [] => stop
  | (offset, _) :: _ => offset

@[simp] theorem byteLength_append (a b : List Char) :
    byteLength (a ++ b) = byteLength a + byteLength b := by
  induction a with
  | nil => simp [byteLength]
  | cons c cs ih => simp [byteLength, ih, Nat.add_assoc]

/-- The bytes of a text are those of its characters. -/
theorem utf8ByteSize_ofList (cs : List Char) : (String.ofList cs).utf8ByteSize = byteLength cs := by
  induction cs with
  | nil => rfl
  | cons c cs ih =>
    rw [byteLength, ← ih, ← List.singleton_append, String.ofList_append]
    simp [String.utf8ByteSize_append]

theorem utf8ByteSize_eq_byteLength (s : String) : s.utf8ByteSize = byteLength s.toList := by
  rw [← utf8ByteSize_ofList, String.ofList_toList]

theorem byteLength_replicate (n : Nat) (c : Char) :
    byteLength (List.replicate n c) = n * c.utf8Size := by
  induction n with
  | zero => rw [List.replicate_zero, byteLength, Nat.zero_mul]
  | succ n ih => rw [List.replicate_succ, byteLength, ih, Nat.succ_mul, Nat.add_comm]

/-- Characters take as many bytes in any order. -/
theorem byteLength_eq_of_perm {a b : List Char} (h : a.Perm b) : byteLength a = byteLength b := by
  induction h with
  | nil => rfl
  | cons c _ ih => rw [byteLength, byteLength, ih]
  | swap c d cs => simp only [byteLength, Nat.add_left_comm]
  | trans _ _ ih ih' => exact ih.trans ih'

/-- Behind a first part, characters are at offsets behind its bytes. -/
theorem locate_append (offset : Nat) (a b : List Char) :
    locate offset (a ++ b) = locate offset a ++ locate (offset + byteLength a) b := by
  induction a generalizing offset with
  | nil => simp [locate, byteLength]
  | cons c cs ih => simp [locate, byteLength, ih, Nat.add_assoc]

/-- What fits into `n` bytes takes no more than `n`. -/
theorem byteLength_takeBytes_le (n : Nat) (cs : List Char) : byteLength (takeBytes n cs) ≤ n := by
  induction cs generalizing n with
  | nil => simp [takeBytes, byteLength]
  | cons c cs ih =>
    unfold takeBytes
    split
    · have := ih (n - c.utf8Size)
      simp only [byteLength]
      omega
    · simp [byteLength]

end Bnf
