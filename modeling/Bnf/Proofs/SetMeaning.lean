import Bnf.Json.Codec
import Bnf.Json.Read
import Bnf.Proofs.RawDecoding

/-!
# What the pairs of a set mean

Who walks a raw table sees a set as pairs of a tag and a number, and asks of a code point whether
the pairs admit it. Read from left to right, the pairs list ranges of code points, and the tag of
the first pair tells whether the code points in them are meant or all others. This is the set that
the pairs were made from.

The one set without a reading is the union of no ranges. None is ever built, but its JSON form is
read like that of any other set.

## Main definitions

- `RawElement.listed?` — whether a code point is in one of the ranges that pairs list
- `RawElement.admits?` — whether the pairs of a set admit a code point
- `CharSet.Built`, `CharSet.ReadFrom` — the ways to come by a set

## Main results

- `CharSet.admits?_encode` — the pairs of a set admit the characters of the set
- `CharSet.encode_means_set` — this holds of every set that is built, and of all that are read but
  the empty union
-/

namespace Bnf

namespace RawElement

/-- Whether a code point is in one of the ranges that some pairs list. A range starts with the tag
    for another character, and has this character only if its last one does not follow directly.
    Pairs that are no such list have no answer. -/
def listed? (code : Nat) : List RawElement → Option Bool
  | [] => some false
  | ⟨.charAlt, first⟩ :: ⟨.rangeUpper, last⟩ :: raws =>
    (listed? code raws).map ((first ≤ code && code ≤ last) || ·)
  | ⟨.charAlt, value⟩ :: raws => (listed? code raws).map (code = value || ·)
  | _ => none

/-- **Whether the pairs of a set admit a code point.** There is an answer only if all pairs belong
    to one set. -/
def admits? (code : Nat) : List RawElement → Option Bool
  | [⟨.charAny, _⟩] => some true
  | ⟨.char, value⟩ :: raws => listed? code (⟨.charAlt, value⟩ :: raws)
  | ⟨.charNot, value⟩ :: raws => (listed? code (⟨.charAlt, value⟩ :: raws)).map (!·)
  | _ => none

variable {code value : Nat} {raws : List RawElement}

theorem listed?_charAlt (h : ∀ raw, raws.head? = some raw → raw.tag ≠ .rangeUpper) :
    listed? code (⟨.charAlt, value⟩ :: raws) = (listed? code raws).map (code = value || ·) := by
  match raws, h with
  | [], _ => rfl
  | ⟨.rangeUpper, last⟩ :: _, h => exact absurd rfl (h _ rfl)
  | ⟨.stop, _⟩ :: _, _ | ⟨.border, _⟩ :: _, _ | ⟨.rule, _⟩ :: _, _ | ⟨.char, _⟩ :: _, _
  | ⟨.charNot, _⟩ :: _, _ | ⟨.charAlt, _⟩ :: _, _ | ⟨.charAny, _⟩ :: _, _ => rw [listed?]; simp

end RawElement

namespace CharRange

theorem contains_eq_decide (r : CharRange) (c : Char) :
    r.contains c = (r.start.toNat ≤ c.toNat && c.toNat ≤ r.stop.toNat) :=
  rfl

/-- The pairs of a range in front of those of others list the characters of the range. -/
theorem listed?_encode (r : CharRange) (c : Char) {raws : List RawElement}
    (h : ∀ raw, raws.head? = some raw → raw.tag ≠ .rangeUpper) :
    RawElement.listed? c.toNat (r.encode .charAlt ++ raws) =
      (RawElement.listed? c.toNat raws).map (r.contains c || ·) := by
  rw [contains_eq_decide]
  by_cases hsingle : r.start = r.stop
  · -- A range of one character has no pair for its last one.
    have hsame : (decide (c.toNat = r.start.toNat)) =
        (r.start.toNat ≤ c.toNat && c.toNat ≤ r.stop.toNat) := by
      rw [← hsingle, Bool.eq_iff_iff]
      simp only [decide_eq_true_eq, Bool.and_eq_true]
      omega
    rw [← hsame, ← RawElement.listed?_charAlt h]
    simp [encode, isSingle, hsingle]
  · simp [encode, isSingle, hsingle, RawElement.listed?]

end CharRange

namespace CharSet

variable {s : CharSet}

theorem listed?_encode (ranges : List CharRange) (c : Char) :
    RawElement.listed? c.toNat (ranges.flatMap (·.encode .charAlt)) =
      some (ranges.any (·.contains c)) := by
  induction ranges with
  | nil => rfl
  | cons r ranges ih =>
    have hfresh : RawElement.Fresh [] := fun raw hraw => by simp at hraw
    have hhead := hfresh.head?_encode ranges
    rw [List.append_nil] at hhead
    rw [List.flatMap_cons, r.listed?_encode c hhead, ih, List.any_cons]
    rfl

/-- The first pair of a set has a tag of its own; but for it the pairs list the ranges of the
    set. -/
theorem admits?_encode_cons (negated : Bool) (r : CharRange) (ranges : List CharRange)
    (code : Nat) :
    RawElement.admits? code (encode ⟨negated, r :: ranges⟩) =
      (RawElement.listed? code ((r :: ranges).flatMap (·.encode .charAlt))).map (· != negated) := by
  cases negated with
  | false =>
    show RawElement.listed? code _ = _
    simp [List.flatMap_cons, CharRange.encode]
  | true =>
    show (RawElement.listed? code _).map (!·) = _
    simp [List.flatMap_cons, CharRange.encode]

/-- **The pairs of a set admit the characters of the set**, unless there is no pair. -/
theorem admits?_encode (h : s ≠ ⟨false, []⟩) (c : Char) :
    RawElement.admits? c.toNat s.encode = some (s.accepts c) := by
  match s, h with
  | ⟨false, []⟩, h => exact absurd rfl h
  | ⟨true, []⟩, _ => rfl
  | ⟨negated, r :: ranges⟩, _ =>
    rw [admits?_encode_cons, listed?_encode]
    rfl

theorem encode_eq_nil_iff : s.encode = [] ↔ s = ⟨false, []⟩ := by
  match s with
  | ⟨false, []⟩ | ⟨true, []⟩ => simp [encode, isAny]
  | ⟨negated, r :: ranges⟩ => simp [encode, isAny, CharRange.encode]

/-! ## Ways to come by a set -/

/-- A set that is built from characters or from ranges. -/
inductive Built : CharSet → Prop
  | single (c : Char) : Built (.single c)
  | any : Built .any
  | ofRanges {negated : Bool} {ranges : List CharRange} {s : CharSet} :
      ofRanges? negated ranges = some s → Built s

/-- The set is what a JSON text stands for. -/
def ReadFrom (text : String) (s : CharSet) : Prop :=
  (Json.parse? text).bind ofJson? = some s

/-- No set that is built is the union of no ranges. -/
theorem Built.ne_empty (h : s.Built) : s ≠ ⟨false, []⟩ := by
  rintro rfl
  cases h with
  | ofRanges h =>
    rw [ofRanges?] at h
    split at h
    · next hsome =>
      cases h
      simp at hsome
    · cases h

/-- **The pairs of a set mean the set.** A set that is built or read from JSON

    - has pairs, they are the pairs of one set, and they admit the characters that the set accepts,
    - or it was not built, and is the union of no ranges, which accepts nothing and has no pairs. -/
theorem encode_means_set (h : s.Built ∨ ∃ text, s.ReadFrom text) :
    (s.encode ≠ [] ∧ ∀ c : Char, RawElement.admits? c.toNat s.encode = some (s.accepts c)) ∨
      ¬ s.Built ∧ (∃ text, s.ReadFrom text) ∧ s = ⟨false, []⟩ ∧ s.encode = [] ∧
        ∀ c : Char, s.accepts c = false ∧ RawElement.admits? c.toNat s.encode = none := by
  by_cases hempty : s = ⟨false, []⟩
  · have hnew : ¬ s.Built := fun hbuilt => hbuilt.ne_empty hempty
    refine .inr ⟨hnew, h.resolve_left hnew, hempty, encode_eq_nil_iff.2 hempty, fun c => ?_⟩
    subst hempty
    exact ⟨rfl, rfl⟩
  · exact .inl ⟨mt encode_eq_nil_iff.1 hempty, admits?_encode hempty⟩

/-- A negated set with a range, a single character and a range upside down. -/
theorem encode_means_set_inverted_range :
    ∃ s : CharSet, s.Built ∧
      s.encode = [⟨.charNot, 97⟩, ⟨.rangeUpper, 99⟩, ⟨.charAlt, 48⟩, ⟨.charAlt, 122⟩,
        ⟨.rangeUpper, 120⟩] ∧
      ∀ c : Char, RawElement.admits? c.toNat s.encode = some (s.accepts c) := by
  let s : CharSet := ⟨true, [⟨'a', 'c'⟩, ⟨'0', '0'⟩, ⟨'z', 'x'⟩]⟩
  have hbuilt : s.Built := @Built.ofRanges s.negated s.ranges s rfl
  obtain ⟨-, hadmits⟩ | ⟨hnew, -⟩ := encode_means_set (.inl hbuilt)
  · exact ⟨s, hbuilt, by decide, hadmits⟩
  · exact absurd hbuilt hnew

/-- The JSON form of the union of no ranges is read, and this set has no pairs. -/
theorem encode_eq_nil_of_read_empty_union :
    ¬ ∀ s : CharSet, (s.Built ∨ ∃ text, s.ReadFrom text) →
      s.encode ≠ [] ∧ ∀ c : Char, RawElement.admits? c.toNat s.encode = some (s.accepts c) := by
  intro h
  have hread : (Json.parse? "\x7b\"negated\":false,\"ranges\":[]\x7d").bind ofJson? =
      some ⟨false, []⟩ := by decide +kernel
  exact (h ⟨false, []⟩ (.inr ⟨_, hread⟩)).1 rfl

end CharSet

end Bnf
