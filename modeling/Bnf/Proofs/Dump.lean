import Bnf.Proofs.RawDecoding

/-!
# The dump shows the raw form

A line of the dump has the name of a rule and an item for each of its pairs. Two pairs have no text
in front of which their items look alike: a name ends where the first character stands that no name
has, and a quoted character is an escape if and only if it starts with a backslash. So the pairs can
be read off the items, whatever characters stand in these, and the items off the lines.

## Main definitions

- `PrefixFree` — written forms that can be told apart in front of any text
- `readQuoted?` — reads a quoted character
- `RawElement.item`, `RawElement.line` — a pair and the pairs of a rule, as the dump shows them
- `RawElement.Fits` — pairs that elements have

## Main results

- `readQuoted?_quoted` — a quoted character is read back
- `Grammar.WellFormed.prefixFree_item` — the items of a grammar can be told apart
- `Grammar.WellFormed.lines_flatText` — the lines of the dump
- `Grammar.flatText_faithful` — the dump shows the raw form, and can be taken for no other
-/

namespace Bnf

/-! ## Written forms -/

/-- **Written forms that can be told apart**: two different things with the property are not written
    alike, whatever stands behind them. -/
def PrefixFree {α : Type} (p : α → Prop) (write : α → List Char) : Prop :=
  ∀ ⦃x y : α⦄ ⦃front back : List Char⦄, p x → p y → write x ++ front = write y ++ back → x = y

/-- **Items whose forms are prefix-free can be told from their text.** This is by induction on the
    items, as the first form is known before the others are looked at. -/
theorem PrefixFree.eq_of_flatMap_eq {α : Type} {p : α → Prop} {write : α → List Char}
    {xs ys : List α} (h : PrefixFree p write) (hne : ∀ x, write x ≠ []) (hxs : ∀ x ∈ xs, p x)
    (hys : ∀ y ∈ ys, p y) (hsame : xs.flatMap write = ys.flatMap write) : xs = ys := by
  induction xs generalizing ys with
  | nil =>
    cases ys with
    | nil => rfl
    | cons y ys => simp [hne] at hsame
  | cons x xs ih =>
    cases ys with
    | nil => simp [hne] at hsame
    | cons y ys =>
      rw [List.forall_mem_cons] at hxs hys
      rw [List.flatMap_cons, List.flatMap_cons] at hsame
      obtain rfl := h hxs.1 hys.1 hsame
      rw [ih hxs.2 hys.2 (List.append_cancel_left hsame)]

/-- Text that is written line by line is split into the lines, with nothing behind the last. -/
theorem splitOn_flatMap_concat {lines : List (List Char)} {c : Char}
    (h : ∀ line ∈ lines, c ∉ line) : (lines.flatMap (· ++ [c])).splitOn c = lines ++ [[]] := by
  induction lines with
  | nil => rfl
  | cons line lines ih =>
    rw [List.forall_mem_cons] at h
    rw [List.flatMap_cons, List.append_assoc, List.singleton_append,
      List.splitOn_append_cons_self_of_not_mem h.1, ih h.2, List.cons_append]

/-- A name ends where the first character stands that no name has. -/
theorem IsName.eq_of_append_eq {name other : String} {c d : Char} {front back : List Char}
    (hname : IsName name) (hother : IsName other) (hc : isNameChar c = false)
    (hd : isNameChar d = false) (h : name.toList ++ c :: front = other.toList ++ d :: back) :
    name = other := by
  have htaken := congrArg (List.takeWhile isNameChar) h
  rw [List.takeWhile_append_of_pos hname.2, List.takeWhile_append_of_pos hother.2,
    List.takeWhile_cons_of_neg (by simp [hc]), List.takeWhile_cons_of_neg (by simp [hd]),
    List.append_nil, List.append_nil] at htaken
  exact String.toList_inj.1 htaken

/-! ## Quoted characters -/

/-- The number that hexadecimal digits stand for. -/
def hexValue (digits : List Char) : Nat :=
  digits.foldl (fun n c => 16 * n + (hexDigit? c).getD 0) 0

/-- A digit has its value. -/
theorem hexDigit?_digitChar : ∀ d < 16, hexDigit? (Nat.digitChar d) = some d := by
  decide

/-- The last digit of a number is its remainder. -/
theorem lowerHex_of_le {n : Nat} (h : 16 ≤ n) :
    lowerHex n = lowerHex (n / 16) ++ [Nat.digitChar (n % 16)] :=
  Nat.toDigits_of_base_le (by omega) h

/-- **Hexadecimal digits tell their number.** -/
theorem hexValue_lowerHex (n : Nat) : hexValue (lowerHex n) = n := by
  induction n using Nat.strongRecOn with
  | ind n ih =>
    obtain hlt | hle := Nat.lt_or_ge n 16
    · rw [lowerHex, Nat.toDigits_of_lt_base hlt]
      simp [hexValue, hexDigit?_digitChar n hlt]
    · rw [lowerHex_of_le hle, hexValue, List.foldl_append, ← hexValue, ih (n / 16) (by omega)]
      simp [hexDigit?_digitChar (n % 16) (by omega), Nat.div_add_mod]

theorem hexDigit?_isSome_of_mem_lowerHex {n : Nat} {c : Char} (h : c ∈ lowerHex n) :
    (hexDigit? c).isSome := by
  induction n using Nat.strongRecOn with
  | ind n ih =>
    obtain hlt | hle := Nat.lt_or_ge n 16
    · rw [lowerHex, Nat.toDigits_of_lt_base hlt, List.mem_singleton] at h
      rw [h, hexDigit?_digitChar n hlt, Option.isSome_some]
    · rw [lowerHex_of_le hle, List.mem_append, List.mem_singleton] at h
      obtain h | rfl := h
      · exact ih (n / 16) (by omega) h
      · rw [hexDigit?_digitChar (n % 16) (by omega), Option.isSome_some]

/-- The character of an escape that has one letter or sign. -/
def unescape (sign : Char) : Char :=
  if sign = '0' then '\x00'
  else if sign = 't' then '\t'
  else if sign = 'n' then '\n'
  else if sign = 'r' then '\r'
  else sign

/-- Reads an escape in a quoted character, of which the backslash has been read. -/
def readQuotedEscape? : List Char → Option Char
  | 'u' :: rest => some (Char.ofNat (hexValue (rest.tail.takeWhile fun c => (hexDigit? c).isSome)))
  | sign :: _ => some (unescape sign)
  | [] => none

/-- Reads a quoted character that text starts with. -/
def readQuoted? : List Char → Option Char
  | '\'' :: c :: rest => if c = '\\' then readQuotedEscape? rest else some c
  | _ => none

/-- **A quoted character is read back**, whatever text follows. -/
theorem readQuoted?_quoted (c : Char) (rest : List Char) :
    readQuoted? (quoted c ++ rest) = some c := by
  rw [quoted]
  unfold quotedBody
  split
  case h_7 hbackslash =>
    split
    · exact if_neg hbackslash
    · have hstop : hexDigit? '\x7d' = none := rfl
      have hdigits : (lowerHex c.toNat ++ '\x7d' :: '\'' :: rest).takeWhile
          (fun c => (hexDigit? c).isSome) = lowerHex c.toNat := by
        rw [List.takeWhile_append_of_pos fun _ => hexDigit?_isSome_of_mem_lowerHex,
          List.takeWhile_cons_of_neg (by simp [hstop]), List.append_nil]
      simp [readQuoted?, readQuotedEscape?, hdigits, hexValue_lowerHex]
  all_goals rfl

/-- No quoted character is the beginning of another. -/
theorem prefixFree_quoted : PrefixFree (fun _ => True) quoted := by
  intro c d front back _ _ h
  have hread := congrArg readQuoted? h
  rw [readQuoted?_quoted, readQuoted?_quoted] at hread
  exact Option.some_inj.1 hread

/-- Line breaks are escaped between quotes. -/
theorem newline_not_mem_quoted (c : Char) : '\n' ∉ quoted c := by
  rw [quoted]
  unfold quotedBody
  split
  case h_7 hnewline _ _ _ =>
    split
    · simpa using Ne.symm hnewline
    · have hdigits : '\n' ∉ lowerHex c.toNat := by
        intro hmem
        cases hexDigit?_isSome_of_mem_lowerHex hmem
      simpa using hdigits
  all_goals decide

/-! ## Pairs -/

namespace Tag

theorem isName_name (tag : Tag) : IsName tag.name := by
  have hletters : tag.name.toList.all isNameChar = true := by cases tag <;> decide
  exact ⟨by cases tag <;> decide, List.all_eq_true.1 hletters⟩

theorem ofName?_name (tag : Tag) : ofName? tag.name = some tag := by
  cases tag <;> decide

/-- Tags are told apart by their names. -/
theorem name_injective : Function.Injective name := by
  intro tag other h
  rw [← Option.some_inj, ← ofName?_name, h, ofName?_name]

end Tag

namespace RawElement

variable {size : Nat} {name : RuleId → String} {tag : Tag} {raw : RawElement}

/-- What the dump shows beside the tag of a pair: the name of a rule, a quoted character, or
    nothing. -/
def operand (name : RuleId → String) (raw : RawElement) : List Char :=
  match raw.tag with
  | .rule => ' ' :: (name raw.value).toList
  | .char | .charNot | .rangeUpper | .charAlt => ' ' :: quoted (Char.ofNat raw.value)
  | .stop | .border | .charAny => []

/-- A pair, as the dump shows it: its tag and what stands beside it, between brackets. -/
def item (name : RuleId → String) (raw : RawElement) : List Char :=
  [' ', '['] ++ raw.tag.name.toList ++ raw.operand name ++ [']']

/-- The pairs of a rule, as the dump shows them. -/
def line (name : RuleId → String) (id : RuleId) (raws : List RawElement) : List Char :=
  (name id).toList ++ [' ', ':', ':', '='] ++ raws.flatMap (item name)

/-- Pairs that elements have, among `size` rules: a mark, a rule, or a character. -/
inductive Fits (size : Nat) : RawElement → Prop
  | mark {tag : Tag} : tag.isChar = false → tag ≠ .rule → Fits size ⟨tag, 0⟩
  | rule {id : RuleId} : id < size → Fits size ⟨.rule, id⟩
  | char {tag : Tag} (c : Char) : tag.isChar = true → Fits size ⟨tag, c.toNat⟩

/-- A mark is shown by its tag only. -/
theorem operand_mark (hchar : tag.isChar = false) (hrule : tag ≠ .rule) (value : Nat) :
    operand name ⟨tag, value⟩ = [] := by
  cases tag <;> simp_all [operand, Tag.isChar]

theorem operand_char (c : Char) (hchar : tag.isChar = true) :
    operand name ⟨tag, c.toNat⟩ = ' ' :: quoted c := by
  cases tag <;> simp_all [operand, Tag.isChar]

/-- The name of a tag is followed by a character that no name has. -/
theorem exists_operand_append_eq (name : RuleId → String) (raw : RawElement) (rest : List Char) :
    ∃ c text, isNameChar c = false ∧ raw.operand name ++ ']' :: rest = c :: text := by
  obtain ⟨tag, value⟩ := raw
  cases tag with
  | stop | border | charAny => exact ⟨']', rest, by decide, rfl⟩
  | rule | char | charNot | rangeUpper | charAlt => exact ⟨' ', _, by decide, rfl⟩

/-- An item stays on its line. -/
theorem newline_not_mem_item (hname : ∀ id < size, '\n' ∉ (name id).toList)
    (hraw : raw.Fits size) : '\n' ∉ raw.item name := by
  have htag : '\n' ∉ raw.tag.name.toList := fun h => absurd (raw.tag.isName_name.2 _ h) (by decide)
  have hoperand : '\n' ∉ raw.operand name := by
    cases hraw with
    | mark hchar hrule => simp [operand_mark hchar hrule]
    | rule hid => simpa [operand] using hname _ hid
    | char c hchar => simpa [operand_char c hchar] using newline_not_mem_quoted c
  simp [item, htag, hoperand]

end RawElement

/-! ## Elements -/

section

variable {size : Nat} {raw : RawElement}

theorem CharRange.fits_of_mem_encode {tag : Tag} {r : CharRange} (htag : tag.isChar = true)
    (h : raw ∈ r.encode tag) : raw.Fits size := by
  rw [CharRange.encode, List.mem_cons] at h
  obtain rfl | h := h
  · exact .char _ htag
  · split at h
    · cases h
    · rw [List.mem_singleton.1 h]
      exact .char _ rfl

/-- The elements of a set are characters, or marks. -/
theorem CharSet.fits_of_mem_encode {s : CharSet} (h : raw ∈ s.encode) : raw.Fits size := by
  rw [CharSet.encode] at h
  split at h
  · rw [List.mem_singleton.1 h]
    exact .mark rfl (by simp)
  · split at h
    · cases h
    · obtain h | h := List.mem_append.1 h
      · exact CharRange.fits_of_mem_encode (by split <;> rfl) h
      · obtain ⟨r, -, h⟩ := List.mem_flatMap.1 h
        exact CharRange.fits_of_mem_encode rfl h

namespace Element

/-- The elements of a symbol are characters or identities that are there. -/
theorem fits_of_mem_encode {element : Element} (hid : ∀ id, element = .rule id → id < size)
    (h : raw ∈ element.encode) : raw.Fits size := by
  cases element with
  | stop | border =>
    rw [List.mem_singleton.1 h]
    exact .mark rfl (by simp)
  | rule id =>
    rw [List.mem_singleton.1 h]
    exact .rule (hid id rfl)
  | chars s => exact CharSet.fits_of_mem_encode h

/-- What stands beside a tag does not depend on which element the pair is of. -/
theorem flatOperand_eq (g : Grammar) {element : Element} (h : raw ∈ element.encode) :
    g.flatOperand element raw = raw.operand g.name := by
  cases element with
  | stop | border | rule id =>
    rw [List.mem_singleton.1 h]
    rfl
  | chars s =>
    have hfits : raw.Fits 0 := CharSet.fits_of_mem_encode h
    cases hfits with
    | mark hchar hrule => simp [Grammar.flatOperand, hchar, RawElement.operand_mark hchar hrule]
    | rule hid => exact absurd hid (Nat.not_lt_zero _)
    | char c hchar =>
      have hvalid : c.toNat.isValidChar := c.valid
      simp [Grammar.flatOperand, hchar, hvalid, RawElement.operand_char c hchar]

/-- An element is shown as the items of its raw form. -/
theorem flatElement_eq (g : Grammar) (element : Element) :
    g.flatElement element = element.encode.flatMap (RawElement.item g.name) := by
  refine List.flatMap_congr fun raw hraw => ?_
  rw [flatOperand_eq g hraw, RawElement.item]
  rfl

end Element

end

/-! ## Lines -/

namespace Grammar

variable {g a b : Grammar} {source source' : String} {options options' : ParseOptions} {id : RuleId}
variable {raws raws' : List RawElement}

theorem name_congr (hnames : a.symbols.names = b.symbols.names) : a.name = b.name := by
  funext id
  rw [name, name, SymbolTable.name?_eq_getElem?, SymbolTable.name?_eq_getElem?, hnames]

theorem flatElements_eq (g : Grammar) (elements : List Element) : elements.flatMap g.flatElement =
    (elements.flatMap Element.encode).flatMap (RawElement.item g.name) := by
  rw [List.flatMap_assoc]
  exact List.flatMap_congr fun element _ => Element.flatElement_eq g element

/-- **A dump is made of the raw form and the names**, one line for each rule. -/
theorem toList_flatText (g : Grammar) : g.flatText.toList =
    (g.encode.rules.mapIdx (RawElement.line g.name)).flatMap (· ++ ['\n']) := by
  rw [flatText, String.toList_ofList, List.flatMap]
  refine congrArg List.flatten (List.ext_getElem? fun id => ?_)
  rw [encode, FlatTable.encode, List.getElem?_mapIdx, List.getElem?_map, List.getElem?_mapIdx,
    List.getElem?_map, Option.map_map, Option.map_map]
  refine congrArg (Option.map · _) (funext fun elements => ?_)
  rw [flatElements_eq]
  rfl

namespace WellFormed

theorem fits_of_mem_encode (h : g.WellFormed) (hraws : raws ∈ g.encode.rules) :
    ∀ raw ∈ raws, raw.Fits g.size := by
  intro raw hraw
  rw [rules_encode] at hraws
  obtain ⟨rule, hrule, rfl⟩ := List.mem_map.1 hraws
  obtain ⟨element, helement, hraw⟩ := List.mem_flatMap.1 hraw
  refine Element.fits_of_mem_encode ?_ hraw
  rintro id rfl
  obtain ⟨body, hbody, hmem⟩ := Rule.exists_of_mem_elements helement
  exact (h.fits_of_mem hrule).2 body hbody _ hmem

theorem newline_not_mem_name (h : g.WellFormed) (hid : id < g.size) : '\n' ∉ (g.name id).toList :=
  fun hmem => absurd ((h.isName hid).2 _ hmem) (by decide)

/-- A line has no line break in it, so lines can be told apart. -/
theorem newline_not_mem_line (h : g.WellFormed) (hid : id < g.size)
    (hraws : ∀ raw ∈ raws, raw.Fits g.size) : '\n' ∉ RawElement.line g.name id raws := by
  have hitems : ∀ raw ∈ raws, '\n' ∉ raw.item g.name := fun raw hraw =>
    RawElement.newline_not_mem_item (fun _ => h.newline_not_mem_name) (hraws raw hraw)
  simpa [RawElement.line, h.newline_not_mem_name hid] using hitems

/-- **The lines of the dump** are those of the rules, and behind the last there is nothing. -/
theorem lines_flatText (h : g.WellFormed) : g.flatText.toList.splitOn '\n' =
    g.encode.rules.mapIdx (RawElement.line g.name) ++ [[]] := by
  rw [toList_flatText]
  refine splitOn_flatMap_concat fun line hline => ?_
  obtain ⟨id, hid, rfl⟩ := List.mem_mapIdx.1 hline
  exact h.newline_not_mem_line (g.size_encode ▸ hid) (h.fits_of_mem_encode (List.getElem_mem hid))

/-- **The items of a grammar can be told apart.** -/
theorem prefixFree_item (h : g.WellFormed) :
    PrefixFree (RawElement.Fits g.size) (RawElement.item g.name) := by
  intro raw other front back hraw hother hsame
  simp only [RawElement.item, List.append_assoc, List.singleton_append] at hsame
  replace hsame := List.append_cancel_left hsame
  obtain ⟨c, text, hc, htext⟩ := raw.exists_operand_append_eq g.name front
  obtain ⟨d, text', hd, htext'⟩ := other.exists_operand_append_eq g.name back
  have htag : raw.tag = other.tag := by
    rw [htext, htext'] at hsame
    exact Tag.name_injective (raw.tag.isName_name.eq_of_append_eq other.tag.isName_name hc hd hsame)
  rw [htag] at hsame
  replace hsame := List.append_cancel_left hsame
  -- Pairs with the same tag are of the same kind, so they differ in their numbers only.
  cases hraw with
  | mark hchar hrule =>
    cases htag
    cases hother with
    | mark => rfl
    | rule => exact absurd rfl hrule
    | char d hchar' => exact absurd hchar' (by simp [hchar])
  | rule hid =>
    cases hother with
    | mark _ hrule => exact absurd htag.symm hrule
    | char d hchar =>
      cases htag
      exact absurd hchar Bool.false_ne_true
    | rule hid' =>
      replace hsame := List.tail_eq_of_cons_eq hsame
      rw [h.name_injOn hid hid' ((h.isName hid).eq_of_append_eq (h.isName hid') (by decide)
        (by decide) hsame)]
  | char c hchar =>
    cases htag
    cases hother with
    | mark hchar' => exact absurd hchar (by simp [hchar'])
    | rule => exact absurd hchar Bool.false_ne_true
    | char d =>
      rw [RawElement.operand_char c hchar, RawElement.operand_char d hchar] at hsame
      rw [prefixFree_quoted trivial trivial (List.tail_eq_of_cons_eq hsame)]

end WellFormed

/-! ## Equal dumps -/

/-- The name of a line ends at the first blank. -/
theorem eq_of_line_eq (ha : IsName (a.name id)) (hb : IsName (b.name id))
    (h : RawElement.line a.name id raws = RawElement.line b.name id raws') :
    a.name id = b.name id ∧
      raws.flatMap (RawElement.item a.name) = raws'.flatMap (RawElement.item b.name) := by
  rw [RawElement.line, RawElement.line, List.append_assoc, List.append_assoc] at h
  have hname : a.name id = b.name id := ha.eq_of_append_eq hb (by decide) (by decide) h
  rw [hname] at h
  exact ⟨hname, List.append_cancel_left (List.append_cancel_left h)⟩

/-- Grammars with the same dump have the same name and the same items under each identity. -/
theorem eq_of_flatText_eq (ha : a.WellFormed) (hb : b.WellFormed) (h : a.flatText = b.flatText) :
    a.size = b.size ∧ ∀ {id : RuleId} {raws raws' : List RawElement},
      a.encode.rules[id]? = some raws → b.encode.rules[id]? = some raws' →
      a.name id = b.name id ∧
        raws.flatMap (RawElement.item a.name) = raws'.flatMap (RawElement.item b.name) := by
  have hlines : a.encode.rules.mapIdx (RawElement.line a.name) =
      b.encode.rules.mapIdx (RawElement.line b.name) := by
    have hsplit := hb.lines_flatText
    rw [← h, ha.lines_flatText] at hsplit
    exact List.append_cancel_right hsplit
  have hsize : a.size = b.size := by
    have hlength := congrArg List.length hlines
    rw [List.length_mapIdx, List.length_mapIdx] at hlength
    rw [← a.size_encode, ← b.size_encode]
    exact hlength
  refine ⟨hsize, fun {id raws raws'} hraws hraws' => ?_⟩
  have hline := congrArg (·[id]?) hlines
  simp only [List.getElem?_mapIdx, hraws, hraws', Option.map_some] at hline
  have hid : id < a.size := a.size_encode ▸ (List.getElem?_eq_some_iff.1 hraws).1
  exact eq_of_line_eq (ha.isName hid) (hb.isName (hsize ▸ hid)) (Option.some_inj.1 hline)

/-- Equal dumps have equal names, line by line. -/
theorem names_eq_of_flatText_eq (ha : a.WellFormed) (hb : b.WellFormed)
    (h : a.flatText = b.flatText) : a.symbols.names = b.symbols.names := by
  obtain ⟨hsize, heq⟩ := eq_of_flatText_eq ha hb h
  refine List.ext_getElem? fun id => ?_
  obtain hid | hid := Nat.lt_or_ge id a.size
  · obtain ⟨_, -, hraws⟩ := rule?_encode hid
    obtain ⟨_, -, hraws'⟩ := rule?_encode (hsize ▸ hid : id < b.size)
    rw [← SymbolTable.name?_eq_getElem?, ← SymbolTable.name?_eq_getElem?, ha.name?_eq hid,
      hb.name?_eq (hsize ▸ hid), (heq hraws hraws').1]
  · rw [List.getElem?_eq_none (by rwa [ha.length_names]),
      List.getElem?_eq_none (by rwa [hb.length_names, ← hsize])]

/-- With equal names the items of a line tell its rule. -/
theorem rules_eq_of_flatText_eq (ha : a.WellFormed) (hb : b.WellFormed)
    (h : a.flatText = b.flatText) : a.encode.rules = b.encode.rules := by
  obtain ⟨hsize, heq⟩ := eq_of_flatText_eq ha hb h
  refine List.ext_getElem ?_ fun id hid hid' => ?_
  · exact a.size_encode.trans (hsize.trans b.size_encode.symm)
  · have hitems := (heq (List.getElem?_eq_getElem hid) (List.getElem?_eq_getElem hid')).2
    rw [← name_congr (names_eq_of_flatText_eq ha hb h)] at hitems
    exact ha.prefixFree_item.eq_of_flatMap_eq (fun _ => by simp [RawElement.item])
      (ha.fits_of_mem_encode (List.getElem_mem hid))
      (hsize ▸ hb.fits_of_mem_encode (List.getElem_mem hid')) hitems

/-- **The dump shows the raw form.** Its lines are those of the rules, in the order of their
    identities: the name of the rule, and its pairs, each with the name of its tag, and with a
    quoted character or the name of a rule if its number is that of one. And it can be taken for no
    other: grammars have the same dump if and only if they have the same names, in the same order,
    and the same pairs. -/
theorem flatText_faithful (ha : parse source options = .ok a)
    (hb : parse source' options' = .ok b) :
    a.flatText.toList.splitOn '\n' = a.encode.rules.mapIdx (RawElement.line a.name) ++ [[]] ∧
      a.encode.size = a.size ∧
      (∀ id < a.size, a.symbols.name? id = some (a.name id)) ∧
      (∀ raws ∈ a.encode.rules, ∀ raw ∈ raws, raw.Fits a.size) ∧
      (a.flatText = b.flatText ↔
        a.symbols.names = b.symbols.names ∧ a.encode.rules = b.encode.rules) := by
  have hwella := Tree.wellFormed_of_parse ha
  have hwellb := Tree.wellFormed_of_parse hb
  refine ⟨hwella.lines_flatText, a.size_encode, fun id hid => hwella.name?_eq hid,
    fun raws hraws => hwella.fits_of_mem_encode hraws, fun hsame =>
      ⟨names_eq_of_flatText_eq hwella hwellb hsame, rules_eq_of_flatText_eq hwella hwellb hsame⟩,
    fun ⟨hnames, hrules⟩ => String.toList_inj.1 ?_⟩
  rw [toList_flatText, toList_flatText, name_congr hnames, hrules]

/-- Brackets, a space, a quote, a line break and a combining accent in a dump, which two texts
    have. -/
theorem flatText_faithful_brackets_and_escapes : ∃ a b,
    parse "r ::= \"] [\" x | .\nx ::= [^'\\n-\u0301\\]]" = .ok a ∧
      parse "r ::= \"]\" \" \" \"[\" x | .\nx ::= [^'\\x0A-\\u0301\\]]" = .ok b ∧
      a.flatText =
        "r ::= [CHAR ']'] [CHAR ' '] [CHAR '['] [RULE_REF x] [ALT] [CHAR_ANY] [END]\n" ++
        "x ::= [CHAR_NOT '\\''] [CHAR_ALT '\\n'] [CHAR_RNG_UPPER '\\u\x7b301\x7d'] " ++
        "[CHAR_ALT ']'] [END]\n" ∧
      a.flatText.toList.splitOn '\n' = a.encode.rules.mapIdx (RawElement.line a.name) ++ [[]] ∧
      a.flatText = b.flatText ∧ a.symbols.names = b.symbols.names ∧
      a.encode.rules = b.encode.rules := by
  obtain ⟨a, ha, htext⟩ := @exists_parse_of_any {}
    "r ::= \"] [\" x | .\nx ::= [^'\\n-\u0301\\]]" (fun g => g.flatText =
      "r ::= [CHAR ']'] [CHAR ' '] [CHAR '['] [RULE_REF x] [ALT] [CHAR_ANY] [END]\n" ++
      "x ::= [CHAR_NOT '\\''] [CHAR_ALT '\\n'] [CHAR_RNG_UPPER '\\u\x7b301\x7d'] " ++
      "[CHAR_ALT ']'] [END]\n") (by decide +kernel)
  obtain ⟨b, hb⟩ : ∃ b,
      parse "r ::= \"]\" \" \" \"[\" x | .\nx ::= [^'\\x0A-\\u0301\\]]" = .ok b :=
    exists_parse_of_isOk (by decide +kernel)
  have hsame : (parse "r ::= \"] [\" x | .\nx ::= [^'\\n-\u0301\\]]").map flatText =
      (parse "r ::= \"]\" \" \" \"[\" x | .\nx ::= [^'\\x0A-\\u0301\\]]").map flatText := by
    decide +kernel
  rw [ha, hb] at hsame
  replace hsame : a.flatText = b.flatText := Except.ok.inj hsame
  obtain ⟨hlines, -, -, -, hiff⟩ := flatText_faithful ha hb
  obtain ⟨hnames, hrules⟩ := hiff.1 hsame
  exact ⟨a, b, ha, hb, of_decide_eq_true htext, hlines, hsame, hnames, hrules⟩

end Grammar

end Bnf
