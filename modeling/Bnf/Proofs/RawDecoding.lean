import Bnf.Proofs.Flat
import Bnf.Proofs.Tree.Fitting

/-!
# The raw form is read back

The raw form of a rule has no lengths in it. Yet it is read in one way only: a set goes on as long
as pairs follow that can only be a part of it, every other pair starts something new, and the end
mark comes last. So the raw form of a grammar tells all there is to know about its rules.

## Main definitions

- `RawElement.readSet?` — a set of characters, from its pairs
- `RawElement.readRule?` — the alternatives of a rule, from its pairs

## Main results

- `RawElement.readRule?_encode` — the alternatives of a rule are read back
- `Grammar.encode_eq_iff_of_parse` — grammars with the same raw form have the same rules
-/

namespace Bnf

namespace RawElement

/-! ## Reading pairs -/

/-- The character with a code point. -/
def readChar? (value : Nat) : Option Char :=
  if value.isValidChar then some (Char.ofNat value) else none

/-- Reads the last character of a range that starts with `first`, if it is given. -/
def readUpper? (first : Char) : List RawElement → Option (CharRange × List RawElement)
  | ⟨.rangeUpper, value⟩ :: rest => do return (⟨first, ← readChar? value⟩, rest)
  | rest => some (.single first, rest)

theorem readUpper?_length {first : Char} {raws rest : List RawElement} {r : CharRange}
    (h : readUpper? first raws = some (r, rest)) : rest.length ≤ raws.length := by
  unfold readUpper? at h
  split at h
  · obtain ⟨last, -, h⟩ := Option.bind_eq_some_iff.1 h
    cases h
    exact Nat.le_succ _
  · cases h
    exact Nat.le_refl _

/-- Reads the ranges that a set goes on with. -/
def readOthers? (raws : List RawElement) : Option (List CharRange × List RawElement) :=
  match raws with
  | ⟨.charAlt, value⟩ :: raws =>
    match readChar? value with
    | none => none
    | some first =>
      match h : readUpper? first raws with
      | none => none
      | some (r, rest) =>
        have := readUpper?_length h
        (readOthers? rest).map fun (ranges, rest) => (r :: ranges, rest)
  | raws => some ([], raws)
termination_by raws.length

theorem readOthers?_length {raws rest : List RawElement} {ranges : List CharRange}
    (h : readOthers? raws = some (ranges, rest)) : rest.length ≤ raws.length := by
  fun_induction readOthers? raws generalizing ranges rest with
  | case1 => simp at h
  | case2 => simp at h
  | case3 value raws first hfirst r left hupper hlength ih =>
    obtain ⟨⟨others, more⟩, hothers, h⟩ := Option.map_eq_some_iff.1 h
    cases h
    have := ih hothers
    rw [List.length_cons]
    omega
  | case4 raws hother =>
    cases h
    exact Nat.le_refl _

/-- Reads a set of characters whose first one has the code point `value`. -/
def readSet? (negated : Bool) (value : Nat) (raws : List RawElement) :
    Option (CharSet × List RawElement) := do
  let (r, raws) ← readUpper? (← readChar? value) raws
  let (ranges, raws) ← readOthers? raws
  return (⟨negated, r :: ranges⟩, raws)

theorem readSet?_length {negated : Bool} {value : Nat} {raws rest : List RawElement} {s : CharSet}
    (h : readSet? negated value raws = some (s, rest)) : rest.length ≤ raws.length := by
  obtain ⟨first, -, h⟩ := Option.bind_eq_some_iff.1 h
  obtain ⟨⟨r, left⟩, hupper, h⟩ := Option.bind_eq_some_iff.1 h
  obtain ⟨⟨ranges, more⟩, hothers, h⟩ := Option.bind_eq_some_iff.1 h
  cases h
  exact Nat.le_trans (readOthers?_length hothers) (readUpper?_length hupper)

/-- Puts a symbol in front of the first of some alternatives. -/
def prepend (symbol : Symbol) : List Body → List Body
  | [] => [[symbol]]
  | body :: bodies => (symbol :: body) :: bodies

/-- **Reads the alternatives of a rule.** An end mark is the last pair and nothing else, a border
    starts the next alternative, and the other pairs are mentions of rules and sets. A pair that
    belongs to a set stands behind the start of one. -/
def readRule? (raws : List RawElement) : Option (List Body) :=
  match raws with
  | [⟨.stop, _⟩] => some [[]]
  | ⟨.border, _⟩ :: raws => (readRule? raws).map ([] :: ·)
  | ⟨.rule, id⟩ :: raws => (readRule? raws).map (prepend (.rule id))
  | ⟨.charAny, _⟩ :: raws => (readRule? raws).map (prepend (.chars .any))
  | ⟨.char, value⟩ :: raws =>
    match h : readSet? false value raws with
    | none => none
    | some (s, rest) =>
      have := readSet?_length h
      (readRule? rest).map (prepend (.chars s))
  | ⟨.charNot, value⟩ :: raws =>
    match h : readSet? true value raws with
    | none => none
    | some (s, rest) =>
      have := readSet?_length h
      (readRule? rest).map (prepend (.chars s))
  | _ => none
termination_by raws.length

/-! ## Reading what was encoded -/

/-- Pairs of which the first does not belong to a set in front of them. -/
def Fresh (raws : List RawElement) : Prop :=
  ∀ raw, raws.head? = some raw → raw.tag ≠ .rangeUpper ∧ raw.tag ≠ .charAlt

theorem Fresh.cons {raw : RawElement} {raws : List RawElement} (hupper : raw.tag ≠ .rangeUpper)
    (halt : raw.tag ≠ .charAlt) : Fresh (raw :: raws) := by
  rintro _ ⟨⟩
  exact ⟨hupper, halt⟩

variable {raws : List RawElement}

@[simp] theorem readChar?_toNat (c : Char) : readChar? c.toNat = some c := by
  rw [readChar?, if_pos (show c.toNat.isValidChar from c.valid), Char.ofNat_toNat]

/-- Without an upper end a range is a character. -/
theorem readUpper?_of_tag_ne {first : Char}
    (h : ∀ raw, raws.head? = some raw → raw.tag ≠ .rangeUpper) :
    readUpper? first raws = some (.single first, raws) := by
  unfold readUpper?
  split
  · exact absurd rfl (h _ rfl)
  · rfl

/-- The first range of some pairs is read back, if no other pair could be its end. -/
theorem readUpper?_encode (tag : Tag) (r : CharRange)
    (h : ∀ raw, raws.head? = some raw → raw.tag ≠ .rangeUpper) :
    ∃ tail, r.encode tag ++ raws = ⟨tag, r.start.toNat⟩ :: tail ∧
      readUpper? r.start tail = some (r, raws) := by
  obtain ⟨first, last⟩ := r
  by_cases hsingle : first = last
  · obtain rfl := hsingle
    exact ⟨raws, by simp [CharRange.encode, CharRange.isSingle], readUpper?_of_tag_ne h⟩
  · exact ⟨⟨.rangeUpper, last.toNat⟩ :: raws,
      by simp [CharRange.encode, CharRange.isSingle, hsingle], by simp [readUpper?]⟩

/-- Without a mark that more follow there are no other ranges. -/
theorem readOthers?_of_tag_ne (h : ∀ raw, raws.head? = some raw → raw.tag ≠ .charAlt) :
    readOthers? raws = some ([], raws) := by
  unfold readOthers?
  split
  · exact absurd rfl (h _ rfl)
  · rfl

/-- The pairs of further ranges do not start with the end of a range. -/
theorem Fresh.head?_encode (h : Fresh raws) (ranges : List CharRange) (raw : RawElement)
    (hraw : (ranges.flatMap (·.encode .charAlt) ++ raws).head? = some raw) :
    raw.tag ≠ .rangeUpper := by
  cases ranges with
  | nil => exact (h raw hraw).1
  | cons r ranges =>
    cases hraw
    simp

/-- **Further ranges of a set are read back** in front of something new. -/
theorem readOthers?_encode (h : Fresh raws) (ranges : List CharRange) :
    readOthers? (ranges.flatMap (·.encode .charAlt) ++ raws) = some (ranges, raws) := by
  induction ranges with
  | nil => exact readOthers?_of_tag_ne fun raw hraw => (h raw hraw).2
  | cons r ranges ih =>
    obtain ⟨tail, htail, hread⟩ := readUpper?_encode .charAlt r (h.head?_encode ranges)
    rw [List.flatMap_cons, List.append_assoc, htail, readOthers?]
    simp only [readChar?_toNat]
    split
    · next hnone => simp [hnone] at hread
    · next found rest hfound =>
      cases hfound.symm.trans hread
      rw [ih]
      rfl

/-- A set is read, and then what is behind it. -/
theorem readRule?_of_readSet? {negated : Bool} {value : Nat} {rest : List RawElement} {s : CharSet}
    (h : readSet? negated value raws = some (s, rest)) :
    readRule? (⟨if negated then .charNot else .char, value⟩ :: raws) =
      (readRule? rest).map (prepend (.chars s)) := by
  cases negated with
  | false | true =>
    simp only [Bool.false_eq_true, if_false, if_true]
    rw [readRule?]
    split
    · next hnone => simp [hnone] at h
    · next found left hfound =>
      cases hfound.symm.trans h
      rfl

/-- **A set is read back** in front of something new: from the pair for all characters, or from the
    pair with its first character. -/
theorem readRule?_encode_set {s : CharSet} (hvalid : s.Valid) (h : Fresh raws) :
    readRule? (s.encode ++ raws) = (readRule? raws).map (prepend (.chars s)) := by
  obtain hany | ⟨hranges, -⟩ := hvalid
  · rw [CharSet.eq_any hany]
    show readRule? (⟨.charAny, 0⟩ :: raws) = _
    rw [readRule?]
  · obtain ⟨negated, ranges⟩ := s
    obtain ⟨r, others, rfl⟩ := List.exists_cons_of_ne_nil hranges
    obtain ⟨tail, htail, hupper⟩ := readUpper?_encode (if negated then .charNot else .char) r
      (h.head?_encode others)
    have hset : readSet? negated r.start.toNat tail = some (⟨negated, r :: others⟩, raws) := by
      simp only [readSet?, readChar?_toNat, hupper, readOthers?_encode h others,
        Option.bind_eq_bind, Option.bind_some]
      rfl
    have hencode : CharSet.encode ⟨negated, r :: others⟩ ++ raws =
        ⟨if negated then .charNot else .char, r.start.toNat⟩ :: tail := by
      rw [← htail, ← List.append_assoc]
      cases negated <;> rfl
    rw [hencode, readRule?_of_readSet? hset]

variable {size : Nat} {body first : Body} {others bodies : List Body}

/-- **A symbol is read back** in front of something new, and is something new itself. -/
theorem readRule?_encode_symbol {symbol : Symbol} (hfits : symbol.Fits size) (h : Fresh raws) :
    Fresh (symbol.element.encode ++ raws) ∧
      readRule? (symbol.element.encode ++ raws) = (readRule? raws).map (prepend symbol) := by
  cases symbol with
  | rule id =>
    refine ⟨.cons (by simp) (by simp), ?_⟩
    show readRule? (⟨.rule, id⟩ :: raws) = _
    rw [readRule?]
  | chars s =>
    have hvalid : s.Valid := hfits
    refine ⟨?_, readRule?_encode_set hvalid h⟩
    obtain ⟨negated, ranges⟩ := s
    cases ranges with
    | nil =>
      obtain rfl : negated = true := by simpa [CharSet.Valid, CharSet.isAny] using hvalid
      exact .cons (by simp) (by simp)
    | cons r ranges => cases negated <;> exact .cons (by simp) (by simp)

/-- **An alternative is read back** in front of any others. What follows must not look like the rest
    of a set. -/
theorem readRule?_encode_body (hfits : body.Fits size) (h : Fresh raws)
    (hread : readRule? raws = some (first :: others)) :
    Fresh (body.flatMap (·.element.encode) ++ raws) ∧
      readRule? (body.flatMap (·.element.encode) ++ raws) = some ((body ++ first) :: others) := by
  induction body with
  | nil => exact ⟨h, hread⟩
  | cons symbol body ih =>
    rw [Body.Fits, List.forall_mem_cons] at hfits
    obtain ⟨hfresh, hbody⟩ := ih hfits.2
    obtain ⟨hfresh', hsymbol⟩ := readRule?_encode_symbol hfits.1 hfresh
    rw [List.flatMap_cons, List.append_assoc, hsymbol, hbody]
    exact ⟨hfresh', rfl⟩

/-- So are alternatives, up to the element that ends their rule. -/
theorem readRule?_encode_bodies (origin : Origin) (hne : bodies ≠ [])
    (hfits : ∀ body ∈ bodies, body.Fits size) :
    readRule? ((⟨origin, bodies⟩ : Rule).elements.flatMap Element.encode) = some bodies := by
  have hbody (body : Body) : (body.map Symbol.element).flatMap Element.encode =
      body.flatMap (·.element.encode) := List.flatMap_map ..
  induction bodies with
  | nil => exact absurd rfl hne
  | cons body bodies ih =>
    rw [List.forall_mem_cons] at hfits
    by_cases hlast : bodies = []
    · have hstop : readRule? [⟨.stop, 0⟩] = some [[]] := by rw [readRule?]
      obtain ⟨-, hread⟩ := readRule?_encode_body hfits.1 (.cons (by simp) (by simp)) hstop
      rw [hlast, Rule.elements_singleton, List.flatMap_append, hbody]
      simpa [Element.encode] using hread
    · have hborder : readRule? (⟨.border, 0⟩ ::
          (⟨origin, bodies⟩ : Rule).elements.flatMap Element.encode) = some ([] :: bodies) := by
        rw [readRule?, ih hlast hfits.2]
        rfl
      obtain ⟨-, hread⟩ := readRule?_encode_body hfits.1 (.cons (by simp) (by simp)) hborder
      rw [Rule.elements_cons origin body hlast, List.flatMap_append, hbody]
      simpa [Element.encode] using hread

/-- **The alternatives of a rule are read back.** -/
theorem readRule?_encode {rule : Rule} (h : rule.Fits size) :
    readRule? (rule.elements.flatMap Element.encode) = some rule.alternatives :=
  readRule?_encode_bodies rule.origin h.1 h.2

end RawElement

/-! ## Grammars with the same raw form -/

namespace Grammar

variable {g h : Grammar} {id : Nat}

theorem root_flatten (g : Grammar) : g.flatten.root = g.root := by
  have hpush (rules : List Rule) (t : FlatTable) :
      (rules.foldl (fun table rule => table.push rule.elements) t).root = t.root := by
    induction rules generalizing t with
    | nil => rfl
    | cons rule rules ih => exact ih _
  exact hpush g.rules.toList _

theorem root_encode (g : Grammar) : g.encode.root = g.root :=
  g.root_flatten

theorem rules_encode (g : Grammar) :
    g.encode.rules = g.rules.toList.map (·.elements.flatMap Element.encode) := by
  rw [encode, FlatTable.encode, rules_flatten, List.map_map]
  rfl

theorem size_encode (g : Grammar) : g.encode.size = g.size := by
  rw [RawTable.size, rules_encode, List.length_map, Array.length_toList, size]

theorem rule?_encode (hid : id < g.size) : ∃ rule, g.rule? id = some rule ∧
    g.encode.rule? id = some (rule.elements.flatMap Element.encode) := by
  obtain ⟨rule, hrule⟩ := exists_rule?_of_lt hid
  refine ⟨rule, hrule, ?_⟩
  rw [RawTable.rule?, rules_encode, List.getElem?_map, Array.getElem?_toList]
  exact congrArg (Option.map _) hrule

/-- **Each raw rule is read back to its alternatives.** -/
theorem WellFormed.readRule?_encode (hwell : g.WellFormed) (hid : id < g.size) :
    (g.encode.rule? id).bind RawElement.readRule? = some (g.alternatives id) := by
  obtain ⟨rule, hrule, hencode⟩ := rule?_encode hid
  rw [hencode, Option.bind_some, RawElement.readRule?_encode (hwell.rules hrule),
    alternatives_of_rule? hrule]

/-- The raw form of a rule depends on its alternatives only. -/
theorem rule?_encode_congr (hg : id < g.size) (hh : id < h.size)
    (hsame : g.alternatives id = h.alternatives id) : g.encode.rule? id = h.encode.rule? id := by
  obtain ⟨rule, hrule, hencode⟩ := rule?_encode hg
  obtain ⟨other, hother, hencode'⟩ := rule?_encode hh
  rw [alternatives_of_rule? hrule, alternatives_of_rule? hother] at hsame
  rw [hencode, hencode', Rule.elements, Rule.elements, hsame]

/-- The raw form depends on the root and the alternatives only, not on names. -/
theorem encode_congr (hsize : g.size = h.size) (hroot : g.root = h.root)
    (halternatives : ∀ id < g.size, g.alternatives id = h.alternatives id) :
    g.encode = h.encode := by
  have hrules : g.encode.rules = h.encode.rules := by
    refine List.ext_getElem? fun id => ?_
    by_cases hid : id < g.size
    · exact rule?_encode_congr hid (hsize ▸ hid) (halternatives id hid)
    · have hg := g.size_encode
      have hh := h.size_encode
      rw [RawTable.size] at hg hh
      rw [List.getElem?_eq_none (by omega), List.getElem?_eq_none (by omega)]
  have hroots : g.encode.root = h.encode.root := by rw [root_encode, root_encode, hroot]
  calc
    g.encode = ⟨g.encode.rules, g.encode.root⟩ := rfl
    _ = ⟨h.encode.rules, h.encode.root⟩ := by rw [hrules, hroots]
    _ = h.encode := rfl

/-- **The raw form of a grammar tells its rules.** The alternatives of every rule are read back from
    its pairs. So two grammars of texts have the same raw form if and only if they have as many
    rules, the same root, and the same alternatives under each identity. -/
theorem encode_eq_iff_of_parse {source source' : String} {options options' : ParseOptions}
    (hg : parse source options = .ok g) (hh : parse source' options' = .ok h) :
    (∀ id < g.size, (g.encode.rule? id).bind RawElement.readRule? = some (g.alternatives id)) ∧
      (g.encode = h.encode ↔ g.size = h.size ∧ g.root = h.root ∧
        ∀ id < g.size, g.alternatives id = h.alternatives id) := by
  have hread (id : Nat) (hid : id < g.size) := (Tree.wellFormed_of_parse hg).readRule?_encode hid
  refine ⟨hread, fun hsame => ?_, fun ⟨hsize, hroot, halternatives⟩ =>
    encode_congr hsize hroot halternatives⟩
  have hsize : g.size = h.size := by rw [← size_encode, hsame, size_encode]
  refine ⟨hsize, ?_, fun id hid => ?_⟩
  · rw [← root_encode, hsame, root_encode]
  · have hother := (Tree.wellFormed_of_parse hh).readRule?_encode (hsize ▸ hid)
    rw [← hsame, hread id hid, Option.some_inj] at hother
    exact hother

/-- A repetition and the rule that it is written out as by hand have the same raw form. -/
theorem encode_eq_repetition :
    ∃ g h, parse "root ::= [^a-c0]+ . | \"\"\n" = .ok g ∧
      parse "root ::= [^a-c0] rest . | \"\"\nrest ::= [^a-c0] rest | \"\"\n" = .ok h ∧
      g.encode = h.encode ∧ g.alternatives 1 = h.alternatives 1 := by
  obtain ⟨g, hg⟩ : ∃ g, parse "root ::= [^a-c0]+ . | \"\"\n" = .ok g :=
    exists_parse_of_isOk (by decide +kernel)
  obtain ⟨h, hh⟩ : ∃ h,
      parse "root ::= [^a-c0] rest . | \"\"\nrest ::= [^a-c0] rest | \"\"\n" = .ok h :=
    exists_parse_of_isOk (by decide +kernel)
  have hraw : (parse "root ::= [^a-c0]+ . | \"\"\n").map encode =
      (parse "root ::= [^a-c0] rest . | \"\"\nrest ::= [^a-c0] rest | \"\"\n").map encode := by
    decide +kernel
  rw [hg, hh] at hraw
  have hsame : g.encode = h.encode := Except.ok.inj hraw
  obtain ⟨-, hiff⟩ := encode_eq_iff_of_parse hg hh
  obtain ⟨-, -, halternatives⟩ := hiff.1 hsame
  have hsize : (parse "root ::= [^a-c0]+ . | \"\"\n").map size = .ok 2 := by decide +kernel
  rw [hg] at hsize
  have hlt : 1 < g.size := by
    rw [show g.size = 2 from Except.ok.inj hsize]
    omega
  exact ⟨g, h, hg, hh, hsame, halternatives 1 hlt⟩

end Grammar

end Bnf
