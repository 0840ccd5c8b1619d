import Bnf.Json.Read
import Bnf.Proofs.Tree.Printing

/-!
# Reading written JSON

A value is read back from its compact form and from its indented form. Both forms are cut into the
same tokens, and the machine makes the value of its tokens, whatever arrays and objects are open
around it.

## Main definitions

- `JsonToken.Scans` — a text is cut into tokens, whatever text follows
- `Json.Plain` — values that have a written form of their own
- `Json.tokens` — the tokens of a value
- `Json.Made` — the machine makes a value of its tokens

## Main results

- `JsonToken.scans_writeString`, `JsonToken.scans_decimal` — strings and numbers are read back
- `Json.Plain.scans_compact`, `Json.Plain.scans_pretty` — both forms are cut into the tokens of the
  value
- `Json.Plain.made` — the machine makes each value of its tokens
- `Json.Plain.parse?_compact`, `Json.Plain.parse?_pretty` — values are read back
-/

namespace Bnf

/-! ## Strings -/

section

variable {c sign : Char} {chars rest : List Char}

/-- A character stands for itself, if it is neither a quote nor a backslash nor a control
    character. -/
theorem readStringParts?_char (hquote : c ≠ '"') (hbackslash : c ≠ '\\') (hplain : 0x20 ≤ c.toNat) :
    readStringParts? (c :: rest) =
      (readStringParts? rest).map fun (parts, rest) => (.char c :: parts, rest) := by
  have hread : ¬ (decide (c = '\\') || decide (c.toNat < 0x20)) = true := by
    simpa [hbackslash] using hplain
  rw [readStringParts?, if_neg hread]
  · exact hquote
  · exact fun _ _ _ _ _ hc _ => hbackslash hc
  · exact fun _ _ hc _ => hbackslash hc

/-- An escape stands for what its sign says. -/
theorem readStringParts?_escape (h : jsonEscape? sign = some c) :
    readStringParts? ('\\' :: sign :: rest) =
      (readStringParts? rest).map fun (parts, rest) => (.char c :: parts, rest) := by
  have hsign : sign ≠ 'u' := by
    rintro rfl
    cases h
  rw [readStringParts?]
  · simp only [h]
  · exact fun _ _ _ _ _ hu _ => hsign hu

/-- A control character is written with four digits, of which the first two are zeros. -/
theorem hexUnit?_lowerHex : ∀ n < 0x20,
    (if n < 0x10 then ['0'] else []) ++ lowerHex n =
        [Nat.digitChar (n / 16), Nat.digitChar (n % 16)] ∧
      hexUnit? '0' '0' (Nat.digitChar (n / 16)) (Nat.digitChar (n % 16)) = some n := by
  decide

/-- Sixteen bits that are no half of a surrogate pair make a character, whatever follows them. -/
theorem joinParts?_unit {n : Nat} (h : n < 0x20) (parts : List StringPart) :
    joinParts? (.unit n :: parts) = (joinParts? parts).map (Char.ofNat n :: ·) := by
  have hhigh : isHighSurrogate n = false := by
    rw [isHighSurrogate, Bool.and_eq_false_iff, decide_eq_false_iff_not]
    omega
  have hlow : isLowSurrogate n = false := by
    rw [isLowSurrogate, Bool.and_eq_false_iff, decide_eq_false_iff_not]
    omega
  match parts with
  | [] => simp [joinParts?, hhigh, hlow]
  | .char c :: parts => simp [joinParts?, hhigh, hlow]
  | .unit m :: parts =>
    rw [joinParts?]
    simp [hhigh, hlow]

/-- **A written character** is an escape with one sign, an escape with four digits, or stands for
    itself. -/
theorem writeStringChar_cases (c : Char) :
    (∃ sign, Json.writeStringChar c = ['\\', sign] ∧ jsonEscape? sign = some c) ∨
    (∃ a b, Json.writeStringChar c = ['\\', 'u', '0', '0', a, b] ∧ c.toNat < 0x20 ∧
      hexUnit? '0' '0' a b = some c.toNat) ∨
    (Json.writeStringChar c = [c] ∧ c ≠ '"' ∧ c ≠ '\\' ∧ 0x20 ≤ c.toNat) := by
  by_cases hshort : c ∈ ['"', '\\', '\x08', '\t', '\n', '\x0c', '\r']
  · obtain rfl | rfl | rfl | rfl | rfl | rfl | rfl : c = '"' ∨ c = '\\' ∨ c = '\x08' ∨ c = '\t' ∨
        c = '\n' ∨ c = '\x0c' ∨ c = '\r' := by simpa using hshort
    all_goals exact .inl ⟨_, rfl, rfl⟩
  · simp only [List.mem_cons, List.not_mem_nil, or_false, not_or] at hshort
    obtain ⟨hquote, hbackslash, hb, ht, hn, hf, hr⟩ := hshort
    rw [Json.writeStringChar, if_neg hquote, if_neg hbackslash, if_neg hb, if_neg ht, if_neg hn,
      if_neg hf, if_neg hr]
    by_cases hcontrol : c.toNat < 0x20
    · obtain ⟨hdigits, hunit⟩ := hexUnit?_lowerHex c.toNat hcontrol
      rw [if_pos hcontrol, List.append_assoc, hdigits]
      exact .inr (.inl ⟨_, _, rfl, hcontrol, hunit⟩)
    · rw [if_neg hcontrol]
      exact .inr (.inr ⟨rfl, hquote, hbackslash, Nat.not_lt.1 hcontrol⟩)

/-- A written character is read back as one part of a string. -/
theorem exists_part (c : Char) : ∃ part,
    (∀ rest, readStringParts? (Json.writeStringChar c ++ rest) =
      (readStringParts? rest).map fun (parts, rest) => (part :: parts, rest)) ∧
    ∀ parts, joinParts? (part :: parts) = (joinParts? parts).map (c :: ·) := by
  obtain ⟨sign, hwritten, hsign⟩ | ⟨a, b, hwritten, hcontrol, hunit⟩ |
    ⟨hwritten, hquote, hbackslash, hplain⟩ := writeStringChar_cases c
  · rw [hwritten]
    exact ⟨.char c, fun rest => readStringParts?_escape hsign, fun parts => rfl⟩
  · rw [hwritten]
    refine ⟨.unit c.toNat, fun rest => ?_, fun parts => ?_⟩
    · show readStringParts? ('\\' :: 'u' :: '0' :: '0' :: a :: b :: rest) = _
      rw [readStringParts?]
      simp only [hunit]
    · rw [joinParts?_unit hcontrol, Char.ofNat_toNat]
  · rw [hwritten]
    exact ⟨.char c, fun rest => readStringParts?_char hquote hbackslash hplain, fun parts => rfl⟩

/-- The characters of a string are read back, up to the closing quote. -/
theorem readStringParts?_write (chars rest : List Char) : ∃ parts,
    readStringParts? (chars.flatMap Json.writeStringChar ++ '"' :: rest) = some (parts, rest) ∧
      joinParts? parts = some chars := by
  induction chars with
  | nil => exact ⟨[], rfl, rfl⟩
  | cons c chars ih =>
    obtain ⟨parts, hread, hjoin⟩ := ih
    obtain ⟨part, hpart, hc⟩ := exists_part c
    refine ⟨part :: parts, ?_, ?_⟩
    · rw [List.flatMap_cons, List.append_assoc, hpart, hread]
      rfl
    · rw [hc, hjoin]
      rfl

end

/-! ## Numbers -/

/-- A number in front of this text ends where the text starts. -/
def EndsNumber (rest : List Char) : Prop :=
  ∀ c, rest.head? = some c → c.isDigit = false ∧ c ∉ ['.', 'e', 'E']

theorem endsNumber_nil : EndsNumber [] := by
  rintro _ ⟨⟩

theorem endsNumber_cons {c : Char} (h : c.isDigit = false ∧ c ∉ ['.', 'e', 'E'])
    (rest : List Char) : EndsNumber (c :: rest) := by
  rintro _ ⟨⟩
  exact h

/-- A number above zero does not start with a zero. -/
theorem exists_decimal_eq_cons {n : Nat} (h : n ≠ 0) :
    ∃ d digits, decimal n = d :: digits ∧ d ≠ '0' := by
  induction n using Nat.strongRecOn with
  | ind n ih =>
    obtain hlt | hle := Nat.lt_or_ge n 10
    · have hdigit : ∀ n < 10, n ≠ 0 → Nat.digitChar n ≠ '0' := by decide
      exact ⟨_, [], Nat.toDigits_of_lt_base hlt, hdigit n hlt h⟩
    · -- The first digit is that of a tenth of the number.
      obtain ⟨d, digits, hdigits, hd⟩ := ih (n / 10) (by omega) (by omega)
      refine ⟨d, digits ++ [Nat.digitChar (n % 10)], ?_, hd⟩
      rw [decimal, Nat.toDigits_of_base_le (by decide) hle, ← decimal, hdigits, List.cons_append]

section

variable {rest : List Char}

theorem readDigits?_decimal (n : Nat) (h : EndsNumber rest) :
    readDigits? (decimal n ++ rest) = some (decimal n, rest) := by
  have hdigits : ∀ c ∈ decimal n, c.isDigit = true := fun c hc => isDigit_of_mem_decimal hc
  have hne : decimal n ≠ [] := Nat.toDigits_ne_nil
  have hstop : rest.takeWhile Char.isDigit = [] ∧ rest.dropWhile Char.isDigit = rest := by
    cases rest with
    | nil => exact ⟨rfl, rfl⟩
    | cons c rest => simp [(h c rfl).1]
  rw [readDigits?, List.takeWhile_append_of_pos hdigits, List.dropWhile_append_of_pos hdigits,
    hstop.1, hstop.2, List.append_nil]
  split
  · next hnil => exact absurd hnil hne
  · rfl

theorem readWhole?_decimal (n : Nat) (h : EndsNumber rest) :
    readWhole? (decimal n ++ rest) = some (decimal n, rest) := by
  by_cases hzero : n = 0
  · rw [hzero]
    rfl
  · obtain ⟨d, digits, hdigits, hd⟩ := exists_decimal_eq_cons hzero
    have hread := readDigits?_decimal n h
    rw [hdigits, List.cons_append] at hread ⊢
    rw [readWhole?]
    · exact hread
    · rintro _ ⟨⟩
      exact hd rfl

/-- A number in decimal digits is read up to its end. -/
theorem readUnsigned?_decimal (n : Nat) (h : EndsNumber rest) :
    readUnsigned? (decimal n ++ rest) = some (decimal n, [], rest) := by
  have hfraction : readFraction? rest = some ([], rest) := by
    cases rest with
    | nil => rfl
    | cons c rest =>
      rw [readFraction?]
      rintro _ ⟨⟩
      exact absurd (h '.' rfl).2 (by decide)
  have hexponent : readExponent? rest = some ([], rest) := by
    cases rest with
    | nil => rfl
    | cons c rest =>
      have hletter := (h c rfl).2
      simp only [List.mem_cons, List.not_mem_nil, or_false, not_or] at hletter
      simp [readExponent?, hletter]
  rw [readUnsigned?, readWhole?_decimal n h]
  simp [hfraction, hexponent]

end

/-! ## Tokens -/

namespace JsonToken

/-- **A text is cut into some tokens**, whatever text follows in which no number goes on. -/
def Scans (text : List Char) (tokens : List JsonToken) : Prop :=
  ∀ rest, EndsNumber rest → readAll? (text ++ rest) = (readAll? rest).map (tokens ++ ·)

variable {c : Char} {text other rest left : List Char} {token : JsonToken}
variable {tokens others : List JsonToken}

/-- One token, and those behind it. -/
theorem readAll?_cons (hspace : isSpace c = false) (h : read? (c :: rest) = some (token, left)) :
    readAll? (c :: rest) = (readAll? left).map (token :: ·) := by
  rw [readAll?, if_neg (by simp [hspace])]
  split
  · next hnone => simp [h] at hnone
  · next token' left' hsome =>
    cases hsome.symm.trans h
    rfl

theorem scans_nil : Scans [] [] := by
  intro rest _
  simp

/-- White space in front changes nothing. -/
theorem Scans.blank (h : Scans text tokens) (hc : isSpace c = true) : Scans (c :: text) tokens := by
  intro rest hrest
  rw [List.cons_append, readAll?, if_pos hc, h rest hrest]

/-- A sign by itself is a token, whatever follows it. -/
theorem Scans.sign (h : Scans text tokens) (hspace : isSpace c = false)
    (hread : ∀ rest, read? (c :: rest) = some (token, rest)) :
    Scans (c :: text) (token :: tokens) := by
  intro rest hrest
  rw [List.cons_append, readAll?_cons hspace (hread _), h rest hrest, Option.map_map]
  rfl

/-- Two texts are cut one after the other, if no number goes on from the one to the other. -/
theorem Scans.append (h : Scans text tokens) (h' : Scans other others)
    (hends : ∀ rest, EndsNumber rest → EndsNumber (other ++ rest)) :
    Scans (text ++ other) (tokens ++ others) := by
  intro rest hrest
  rw [List.append_assoc, h _ (hends rest hrest), h' rest hrest, Option.map_map]
  simp [Function.comp_def]

/-- **A string is read back**, whatever its characters. -/
theorem scans_writeString (text : String) :
    Scans (Json.writeString text) [.string (some text)] := by
  intro rest _
  obtain ⟨parts, hread, hjoin⟩ := readStringParts?_write text.toList rest
  have htoken : read? (Json.writeString text ++ rest) = some (.string (some text), rest) := by
    rw [Json.writeString, List.append_assoc, List.cons_append, List.singleton_append]
    rw [read?, hread]
    simp [hjoin]
  exact readAll?_cons rfl htoken

/-- A text that starts with a digit is read as a number. -/
theorem read?_digit (h : c.isDigit = true) :
    read? (c :: rest) = (readNumber? (c :: rest)).map fun (value, rest) => (.atom value, rest) := by
  rw [read?.eq_def]
  split
  case h_11 => rfl
  -- No other token starts with a digit.
  all_goals
    next heq =>
      cases heq
      cases h

theorem readNumber?_decimal (n : Nat) (h : EndsNumber rest) :
    readNumber? (decimal n ++ rest) = some (.nat n, rest) := by
  rw [readNumber?, readUnsigned?_decimal n h]
  · simp [decimalValue_decimal]
  · intro more hsign
    obtain ⟨d, digits, hdigits, hd⟩ := exists_digit_cons n
    rw [hdigits] at hsign
    cases hsign
    cases hd

theorem endsNumber_of_isSpace (h : isSpace c = true) (rest : List Char) :
    EndsNumber (c :: rest) := by
  refine endsNumber_cons ?_ rest
  obtain rfl | rfl | rfl | rfl : c = ' ' ∨ c = '\t' ∨ c = '\n' ∨ c = '\r' := by
    simpa [isSpace, or_assoc] using h
  all_goals decide

/-- So is a number. -/
theorem scans_decimal (n : Nat) : Scans (decimal n) [.atom (.nat n)] := by
  intro rest hrest
  obtain ⟨d, digits, hdigits, hd⟩ := exists_digit_cons n
  have hspace : isSpace d = false := by
    refine Bool.eq_false_iff.2 fun hspace => ?_
    have hdigit := (endsNumber_of_isSpace hspace [] d rfl).1
    simp [hd] at hdigit
  have hread := readNumber?_decimal n hrest
  rw [hdigits, List.cons_append] at hread ⊢
  refine readAll?_cons hspace ?_
  rw [read?_digit hd, hread]
  rfl

theorem scans_null : Scans ['n', 'u', 'l', 'l'] [.atom .null] :=
  fun _ _ => readAll?_cons rfl rfl

theorem scans_bool (value : Bool) : Scans (Json.writeAtom (.bool value)) [.atom (.bool value)] := by
  intro rest _
  cases value <;> exact readAll?_cons rfl rfl

/-! ## Blanks and commas -/

section

variable {blanks : List Char} (hblanks : ∀ c ∈ blanks, isSpace c = true)
include hblanks

/-- White space may stand in front. -/
theorem Scans.blanks_append (h : Scans text tokens) : Scans (blanks ++ text) tokens := by
  induction blanks with
  | nil => exact h
  | cons c blanks ih =>
    rw [List.forall_mem_cons] at hblanks
    exact (ih hblanks.2).blank hblanks.1

/-- And it may stand behind. -/
theorem Scans.append_blanks (h : Scans text tokens) : Scans (text ++ blanks) tokens := by
  have hnone : Scans blanks [] := List.append_nil blanks ▸ scans_nil.blanks_append hblanks
  rw [← List.append_nil tokens]
  refine h.append hnone fun rest hrest => ?_
  cases blanks with
  | nil => exact hrest
  | cons c blanks => exact endsNumber_of_isSpace (hblanks c List.mem_cons_self) _

end

/-- Texts with commas between them are cut into their tokens, with commas between them. -/
theorem Scans.intercalate {α : Type} {write : α → List Char} {read : α → List JsonToken}
    {xs : List α} (h : ∀ x ∈ xs, Scans (write x) (read x)) :
    Scans ([','].intercalate (xs.map write)) ([.comma].intercalate (xs.map read)) := by
  induction xs with
  | nil => exact scans_nil
  | cons x xs ih =>
    rw [List.forall_mem_cons] at h
    cases xs with
    | nil => simpa using h.1
    | cons y ys =>
      have hothers : Scans (',' :: [','].intercalate ((y :: ys).map write))
          (.comma :: [.comma].intercalate ((y :: ys).map read)) := (ih h.2).sign rfl fun _ => rfl
      show Scans ([','].intercalate (write x :: (y :: ys).map write))
        ([.comma].intercalate (read x :: (y :: ys).map read))
      rw [List.intercalate_cons_of_ne_nil (by simp), List.intercalate_cons_of_ne_nil (by simp),
        List.append_assoc, List.append_assoc]
      exact h.1.append hothers fun _ _ => endsNumber_cons (by decide) _

/-- A text between two signs. -/
theorem Scans.enclose {sign : Char} {first last : JsonToken} (h : Scans text tokens)
    (hspace : isSpace c = false) (hread : ∀ rest, read? (c :: rest) = some (first, rest))
    (hends : isSpace sign = false ∧ sign.isDigit = false ∧ sign ∉ ['.', 'e', 'E'])
    (hlast : ∀ rest, read? (sign :: rest) = some (last, rest)) :
    Scans (c :: text ++ [sign]) (first :: tokens ++ [last]) :=
  (h.append (scans_nil.sign hends.1 hlast) fun _ _ => endsNumber_cons hends.2 _).sign hspace hread

end JsonToken

/-! ## Values -/

namespace Json

/-- **Values that have a written form of their own**: all strings and names of fields in them stand
    for texts, and all numbers are natural. -/
inductive Plain : Json → Prop
  | null : Plain .null
  | bool (value : Bool) : Plain (.bool value)
  | nat (value : Nat) : Plain (.nat value)
  | text (s : String) : Plain (.text s)
  | array {items : List Json} : (∀ item ∈ items, Plain item) → Plain (.array items)
  | record {fields : List (String × Json)} : (∀ field ∈ fields, Plain field.2) →
    Plain (.record fields)

mutual

/-- The tokens of a value. -/
def tokens : Json → List JsonToken
  | .array items => .openBracket :: itemTokens items ++ [.closeBracket]
  | .object fields => .openBrace :: fieldTokens fields ++ [.closeBrace]
  | .string text => [.string text]
  | atom => [.atom atom]

/-- The tokens of items, with commas between them. -/
def itemTokens : List Json → List JsonToken
  | [] => []
  | [item] => tokens item
  | item :: items => tokens item ++ .comma :: itemTokens items

/-- The tokens of fields, with commas between them. -/
def fieldTokens : List (Option String × Json) → List JsonToken
  | [] => []
  | [(name, value)] => .string name :: .colon :: tokens value
  | (name, value) :: fields =>
    .string name :: .colon :: tokens value ++ .comma :: fieldTokens fields

end

variable {level : Nat} {j : Json}

/-- A function that writes a list with separators is that of the library. -/
theorem eq_intercalate {α β : Type} {separator : β} {write : α → List β} {f : List α → List β}
    (nil : f [] = []) (one : ∀ x, f [x] = write x)
    (more : ∀ x y ys, f (x :: y :: ys) = write x ++ separator :: f (y :: ys)) (xs : List α) :
    f xs = [separator].intercalate (xs.map write) := by
  induction xs with
  | nil => exact nil
  | cons x xs ih =>
    cases xs with
    | nil => simpa using one x
    | cons y ys =>
      show f (x :: y :: ys) = [separator].intercalate (write x :: (y :: ys).map write)
      rw [more, ih, List.intercalate_cons_of_ne_nil (by simp), List.append_assoc]
      rfl

theorem compactItems_eq (items : List Json) :
    compactItems items = [','].intercalate (items.map compactChars) :=
  eq_intercalate rfl (fun _ => rfl) (fun _ _ _ => rfl) items

theorem prettyItems_eq (level : Nat) (items : List Json) : prettyItems level items =
    [','].intercalate (items.map fun item => lineBreak level ++ prettyChars level item) :=
  eq_intercalate rfl (fun _ => rfl) (fun _ _ _ => by rw [prettyItems]; rfl) items

theorem itemTokens_eq (items : List Json) :
    itemTokens items = [.comma].intercalate (items.map tokens) :=
  eq_intercalate rfl (fun _ => rfl) (fun _ _ _ => rfl) items

theorem compactFields_eq (fields : List (Option String × Json)) : compactFields fields =
    [','].intercalate (fields.map fun field =>
      writeString (field.1.getD "") ++ ':' :: compactChars field.2) :=
  eq_intercalate rfl (fun _ => rfl) (fun _ _ _ => by simp [compactFields]) fields

theorem prettyFields_eq (level : Nat) (fields : List (Option String × Json)) :
    prettyFields level fields = [','].intercalate (fields.map fun field =>
      lineBreak level ++ writeString (field.1.getD "") ++
        ':' :: ' ' :: prettyChars level field.2) :=
  eq_intercalate rfl (fun _ => rfl) (fun _ _ _ => by simp [prettyFields]) fields

theorem fieldTokens_eq (fields : List (Option String × Json)) : fieldTokens fields =
    [.comma].intercalate (fields.map fun field => .string field.1 :: .colon :: tokens field.2) :=
  eq_intercalate rfl (fun _ => rfl) (fun _ _ _ => rfl) fields

/-! ## Both forms are cut into the same tokens -/

section

open JsonToken

/-- A name, a colon and a value. -/
theorem scans_field {value : List Char} {tokens : List JsonToken} (h : Scans value tokens)
    (name : String) :
    Scans (writeString name ++ ':' :: value) (.string (some name) :: .colon :: tokens) :=
  (scans_writeString name).append (h.sign rfl fun _ => rfl) fun _ _ => endsNumber_cons (by decide) _

theorem isSpace_of_mem_lineBreak (level : Nat) : ∀ c ∈ lineBreak level, isSpace c = true := by
  rw [lineBreak, List.forall_mem_cons]
  refine ⟨rfl, fun c hc => ?_⟩
  rw [List.eq_of_mem_replicate hc]
  rfl

namespace Plain

/-- **The compact form has the tokens of its value.** This is by induction on the value, as the next
    one is. -/
theorem scans_compact (h : j.Plain) : Scans (compactChars j) j.tokens := by
  induction h with
  | null => exact scans_null
  | bool value => exact scans_bool value
  | nat value => exact scans_decimal value
  | text s => exact scans_writeString s
  | array _ ih =>
    rw [compactChars, compactItems_eq, tokens, itemTokens_eq]
    exact (Scans.intercalate ih).enclose rfl (fun _ => rfl) (by decide) fun _ => rfl
  | record _ ih =>
    rw [Json.record, compactChars, compactFields_eq, tokens, fieldTokens_eq]
    refine (Scans.intercalate fun field hfield => ?_).enclose rfl (fun _ => rfl) (by decide)
      fun _ => rfl
    obtain ⟨⟨name, value⟩, hmem, rfl⟩ := List.mem_map.1 hfield
    exact scans_field (ih _ hmem) name

/-- **So has the indented form**: line breaks are white space. -/
theorem scans_pretty (h : j.Plain) (level : Nat) : Scans (prettyChars level j) j.tokens := by
  induction h generalizing level with
  | null => exact scans_null
  | bool value => exact scans_bool value
  | nat value => exact scans_decimal value
  | text s => exact scans_writeString s
  | @array items _ ih =>
    cases items with
    | nil => exact scans_nil.enclose rfl (fun _ => rfl) (by decide) fun _ => rfl
    | cons item items =>
      have hitems : Scans (prettyItems (level + 1) (item :: items))
          (itemTokens (item :: items)) := by
        rw [prettyItems_eq, itemTokens_eq]
        exact Scans.intercalate fun item hitem =>
          (ih item hitem (level + 1)).blanks_append (isSpace_of_mem_lineBreak _)
      exact (hitems.append_blanks (isSpace_of_mem_lineBreak level)).enclose rfl (fun _ => rfl)
        (by decide) fun _ => rfl
  | @record fields _ ih =>
    cases fields with
    | nil => exact scans_nil.enclose rfl (fun _ => rfl) (by decide) fun _ => rfl
    | cons field fields =>
      let named : List (Option String × Json) :=
        (field :: fields).map fun field => (some field.1, field.2)
      have hfields : Scans (prettyFields (level + 1) named) (fieldTokens named) := by
        rw [prettyFields_eq, fieldTokens_eq]
        refine Scans.intercalate fun field hfield => ?_
        obtain ⟨⟨name, value⟩, hmem, rfl⟩ := List.mem_map.1 hfield
        rw [List.append_assoc]
        exact (scans_field ((ih _ hmem (level + 1)).blank rfl) name).blanks_append
          (isSpace_of_mem_lineBreak _)
      exact (hfields.append_blanks (isSpace_of_mem_lineBreak level)).enclose rfl (fun _ => rfl)
        (by decide) fun _ => rfl

end Plain

end

/-! ## The machine makes the value -/

section

open JsonPlace

variable {stack : List JsonFrame} {rest : List JsonToken}

/-- The machine makes this value of its tokens, whatever is open around it and whatever follows. -/
def Made (j : Json) : Prop :=
  ∀ stack rest, run? (.value stack) (j.tokens ++ rest) = run? (.complete j stack) rest

/-- Items are put behind those that have been read, up to the closing bracket. -/
theorem run?_itemTokens {item : Json} {items before : List Json}
    (h : ∀ other ∈ item :: items, other.Made) :
    run? (.value (.array before :: stack)) (itemTokens (item :: items) ++ .closeBracket :: rest) =
      run? (.complete (.array (before ++ item :: items)) stack) rest := by
  induction items generalizing item before with
  | nil =>
    rw [itemTokens, h item List.mem_cons_self]
    rfl
  | cons next items ih =>
    rw [List.forall_mem_cons] at h
    have htokens : itemTokens (item :: next :: items) =
      item.tokens ++ .comma :: itemTokens (next :: items) := rfl
    have hothers := @ih next (before ++ [item]) h.2
    rw [List.append_assoc] at hothers
    rw [htokens, List.append_assoc, h.1]
    exact hothers

/-- Fields are put behind those that have been read, up to the closing brace. -/
theorem run?_fieldTokens {field : Option String × Json}
    {fields before : List (Option String × Json)} (h : ∀ other ∈ field :: fields, other.2.Made) :
    run? (.name before stack) (fieldTokens (field :: fields) ++ .closeBrace :: rest) =
      run? (.complete (.object (before ++ field :: fields)) stack) rest := by
  induction fields generalizing field before with
  | nil =>
    show run? (.value (.object before field.1 :: stack)) (field.2.tokens ++ .closeBrace :: rest) = _
    rw [h field List.mem_cons_self]
    rfl
  | cons next fields ih =>
    rw [List.forall_mem_cons] at h
    show run? (.value (.object before field.1 :: stack))
      ((field.2.tokens ++ .comma :: fieldTokens (next :: fields)) ++ .closeBrace :: rest) = _
    have hothers := @ih next (before ++ [field]) h.2
    rw [List.append_assoc] at hothers
    rw [List.append_assoc, h.1]
    exact hothers

/-- Behind an opening bracket the machine does with an item what it does with any value. -/
theorem run?_items {token : JsonToken} (h : token ≠ .closeBracket) :
    run? (.items stack) (token :: rest) = run? (.value (.array [] :: stack)) (token :: rest) := by
  have hstep : step? (.items stack) token = step? (.value (.array [] :: stack)) token := by
    cases token <;> first | rfl | exact absurd rfl h
  rw [run?, run?, List.foldlM_cons, List.foldlM_cons, hstep]

/-- Items start with a token that does not end an array. -/
theorem exists_itemTokens_eq_cons (item : Json) (items : List Json) :
    ∃ token more, itemTokens (item :: items) = token :: more ∧ token ≠ .closeBracket := by
  have hitem : ∃ token more, item.tokens = token :: more ∧ token ≠ .closeBracket := by
    cases item <;> exact ⟨_, _, rfl, by simp⟩
  obtain ⟨token, more, htokens, hne⟩ := hitem
  rw [itemTokens_eq, List.map_cons, htokens]
  cases items with
  | nil => exact ⟨token, more, by simp, hne⟩
  | cons next items => exact ⟨token, _, rfl, hne⟩

/-- An array is made of its items. -/
theorem made_array {items : List Json} (h : ∀ item ∈ items, item.Made) : Made (.array items) := by
  intro stack rest
  cases items with
  | nil => rfl
  | cons item items =>
    obtain ⟨token, more, htokens, hne⟩ := exists_itemTokens_eq_cons item items
    have hitems := @run?_itemTokens stack rest item items [] h
    show run? (.items stack) (itemTokens (item :: items) ++ [.closeBracket] ++ rest) = _
    rw [List.append_assoc]
    rw [htokens] at hitems ⊢
    exact (run?_items hne).trans hitems

/-- An object is made of its fields, in order. -/
theorem made_object {fields : List (Option String × Json)} (h : ∀ field ∈ fields, field.2.Made) :
    Made (.object fields) := by
  intro stack rest
  cases fields with
  | nil => rfl
  | cons field fields =>
    have hfields := @run?_fieldTokens stack rest field fields [] h
    show run? (.fields stack) (fieldTokens (field :: fields) ++ [.closeBrace] ++ rest) = _
    rw [List.append_assoc]
    -- Behind the opening brace the first field is read like one behind a comma.
    cases fields <;> exact hfields

/-- **The machine makes a value of its tokens.** -/
theorem Plain.made (h : j.Plain) : j.Made := by
  induction h with
  | null | bool | nat | text => exact fun _ _ => rfl
  | array _ ih => exact made_array ih
  | record _ ih => exact made_object (List.forall_mem_map.2 ih)

end

/-! ## Reading -/

namespace Plain

/-- A text that is cut into the tokens of a value is read as the value, if nothing but blanks
    follows. -/
theorem parse?_of_scans (h : j.Plain) {text : List Char} (hscans : JsonToken.Scans text j.tokens)
    (blanks : List Char) (hblanks : ∀ c ∈ blanks, JsonToken.isSpace c = true) :
    Json.parse? (String.ofList (text ++ blanks)) = some j := by
  have hnil : JsonToken.readAll? [] = some [] := by rw [JsonToken.readAll?]
  have htokens := hscans.append_blanks hblanks [] endsNumber_nil
  rw [List.append_nil, hnil, Option.map_some, List.append_nil] at htokens
  have hmade := h.made [] []
  rw [List.append_nil] at hmade
  rw [Json.parse?, String.toList_ofList, htokens]
  show (JsonPlace.run? (.value []) j.tokens).bind JsonPlace.value? = some j
  rw [hmade]
  rfl

/-- **The compact form of a value is read back.** -/
theorem parse?_compact (h : j.Plain) : Json.parse? j.compact = some j := by
  have hread := h.parse?_of_scans h.scans_compact [] (by simp)
  rwa [List.append_nil] at hread

/-- **The indented form of a value is read back**, with a line break behind it. -/
theorem parse?_pretty (h : j.Plain) : Json.parse? (j.pretty ++ "\n") = some j := by
  have hread := h.parse?_of_scans (h.scans_pretty 0) ['\n'] (List.forall_mem_singleton.2 rfl)
  rwa [String.ofList_append] at hread

end Plain

end Json

end Bnf
