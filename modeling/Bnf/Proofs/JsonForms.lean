import Bnf.Json.Codec
import Bnf.Proofs.CommandOutput
import Bnf.Proofs.JsonReading
import Bnf.Proofs.RawDecoding
import Mathlib.Data.List.Perm.Subperm

/-!
# Reading JSON forms back

Options, sets of characters and raw tables are read back from their JSON forms. A field is found
wherever it stands, as long as no name is repeated, so options may lose fields and have the others
in any order: what is lost has its default.

## Main definitions

- `RawTable.InRange` — raw tables whose numbers can be read
- `ParseOptions.only` — options of which some are left, and the others have their defaults

## Main results

- `Json.fields?_of_subperm` — the fields that a reader finds in part of an object
- `RawTable.ofJson?_toJson`, `CharSet.ofJson?_toJson`, `ParseOptions.ofJson?_record` — each form
  is read back
- `Grammar.WellFormed.inRange_encode` — the numbers in the raw form of a grammar can be read
- `Json.forms_read_back` — all exchanged values are read back from their texts
-/

namespace Bnf

/-- Items that are all read back make up a list that is. -/
theorem mapM_map_eq_some {α β : Type} {read : β → Option α} {write : α → β} {xs : List α}
    (h : ∀ x ∈ xs, read (write x) = some x) : (xs.map write).mapM read = some xs := by
  rw [List.mapM_map]
  exact (mapM_eq_some_map (g := id) h).trans (congrArg some (List.map_id xs))

namespace Json

/-! ## Fields -/

/-- A record has its fields in an order. -/
theorem record_injective : Function.Injective Json.record := by
  intro fields fields' h
  refine List.map_injective_iff.2 ?_ (Json.object.inj h)
  rintro ⟨name, value⟩ ⟨name', value'⟩ heq
  cases heq
  rfl

section

variable {name : String} {value : Json} {fields kept : List (String × Json)}

/-- A field that is not there is not found. -/
theorem filter_eq_nil_of_not_mem (h : name ∉ fields.map Prod.fst) :
    fields.filter (·.1 = name) = [] := by
  refine List.filter_eq_nil_iff.2 fun field hfield hname => h ?_
  exact List.mem_map.2 ⟨field, hfield, of_decide_eq_true hname⟩

theorem field?_of_not_mem (h : name ∉ fields.map Prod.fst) : field? fields name = some none := by
  rw [field?, filter_eq_nil_of_not_mem h]

/-- A field with a name of its own is found, wherever it stands. -/
theorem field?_of_mem (hkeys : (fields.map Prod.fst).Nodup) (h : (name, value) ∈ fields) :
    field? fields name = some (some value) := by
  have hone : fields.filter (·.1 = name) = [(name, value)] := by
    induction fields with
    | nil => cases h
    | cons field fields ih =>
      rw [List.map_cons, List.nodup_cons] at hkeys
      obtain rfl | h := List.mem_cons.1 h
      · rw [List.filter_cons_of_pos (by simp), filter_eq_nil_of_not_mem hkeys.1]
      · have hne : field.1 ≠ name := fun heq =>
          hkeys.1 (List.mem_map.2 ⟨(name, value), h, heq.symm⟩)
        rw [List.filter_cons_of_neg (by simpa using hne), ih hkeys.2 h]
  rw [field?, hone]

/-- **Part of the fields of an object, in any order**: a reader finds those that are left. -/
theorem fields?_of_subperm (hkeys : (fields.map Prod.fst).Nodup) (h : kept.Subperm fields) :
    (Json.record kept).fields? (fields.map Prod.fst) = some (fields.map fun field =>
      if field.1 ∈ kept.map Prod.fst then some field.2 else none) := by
  have hkept : (kept.map Prod.fst).Nodup := by
    obtain ⟨part, hperm, hsub⟩ := h
    exact ((hperm.map Prod.fst).nodup_iff).1 (hkeys.sublist (hsub.map Prod.fst))
  have hnames : (kept.map fun field => (some field.1, field.2)).mapM
      (fun field => field.1.map (·, field.2)) = some kept := mapM_map_eq_some fun _ _ => rfl
  have hfound : ∀ field ∈ fields, field? kept field.1 =
      some (if field.1 ∈ kept.map Prod.fst then some field.2 else none) := by
    intro field hfield
    split
    · next hmem =>
      obtain ⟨other, hother, hname⟩ := List.mem_map.1 hmem
      obtain rfl := List.inj_on_of_nodup_map hkeys (h.subset hother) hfield hname
      exact field?_of_mem hkept hother
    · next hmem => exact field?_of_not_mem hmem
  have hnamed : (fields.map Prod.fst).mapM (field? kept) = some (fields.map fun field =>
      if field.1 ∈ kept.map Prod.fst then some field.2 else none) := by
    rw [List.mapM_map]
    exact mapM_eq_some_map hfound
  exact Option.bind_eq_some_iff.2 ⟨kept, hnames, hnamed⟩

/-- A reader finds all the fields of an object. -/
theorem fields?_record (hkeys : (fields.map Prod.fst).Nodup) :
    (Json.record fields).fields? (fields.map Prod.fst) =
      some (fields.map fun field => some field.2) := by
  rw [fields?_of_subperm hkeys (List.Subperm.refl fields)]
  refine congrArg some (List.map_congr_left fun field hfield => if_pos ?_)
  exact List.mem_map_of_mem hfield

end

/-! ## Parts of values -/

section

variable {α : Type} {read : Json → Option α} {write : α → Json}

/-- A list is read back if its items are. -/
theorem list?_map {xs : List α} (h : ∀ x ∈ xs, read (write x) = some x) :
    Json.list? read (.array (xs.map write)) = some xs :=
  mapM_map_eq_some h

/-- A field that may be left out is read as its default where it is. -/
theorem fieldOr_ite {p : Prop} [Decidable p] {default value : α} {j : Json}
    (read : Json → Option α) (h : read j = some value) :
    Json.fieldOr default read (if p then some j else none) =
      some (if p then value else default) := by
  split
  · exact h
  · rfl

theorem char?_text (c : Char) : (Json.text (String.singleton c)).char? = some c := by
  have hchars : (String.singleton c).toList = [c] := by simp
  rw [Json.char?, Json.text, Json.string?, Option.map_some, hchars]

/-- A number in range is read back. -/
theorem nat32?_nat {n : Nat} (h : n < 4294967296) : (Json.nat n).nat32? = some n :=
  if_pos h

/-- A value is read from its text as it is read from the value itself. -/
theorem Plain.read_compact {j : Json} (h : j.Plain) (read : Json → Option α) :
    (Json.parse? j.compact).bind read = read j := by
  rw [h.parse?_compact, Option.bind_some]

end

end Json

theorem LeftRecursion.ofName?_name (l : LeftRecursion) : LeftRecursion.ofName? l.name = some l := by
  cases l <;> decide

/-! ## Options -/

namespace ParseOptions

/-- **Options of which some are left**: those whose names are in the list. The others have their
    defaults. -/
def only (o : ParseOptions) (names : List String) : ParseOptions :=
  let standard : ParseOptions := {}
  { allowReservedNames :=
      if "allowReservedNames" ∈ names then o.allowReservedNames else standard.allowReservedNames
    root := if "root" ∈ names then o.root else standard.root
    leftRecursion := if "leftRecursion" ∈ names then o.leftRecursion else standard.leftRecursion
    maxRepetition := if "maxRepetition" ∈ names then o.maxRepetition else standard.maxRepetition
    maxNesting := if "maxNesting" ∈ names then o.maxNesting else standard.maxNesting }

variable {o : ParseOptions} {fields kept : List (String × Json)}

/-- The fields of options. What is written for the root is read as the root, whether there is one or
    not. -/
theorem toJson_eq (o : ParseOptions) : ∃ root : Json, root.Plain ∧
    Json.optional? Json.string? root = some o.root ∧
    o.toJson = .record [
      ("allowReservedNames", .bool o.allowReservedNames),
      ("root", root),
      ("leftRecursion", .text o.leftRecursion.name),
      ("maxRepetition", .nat o.maxRepetition.toNat),
      ("maxNesting", .nat o.maxNesting.toNat)] := by
  refine ⟨_, ?_, ?_, rfl⟩
  · cases o.root with
    | none => exact .null
    | some name => exact .text name
  · cases o.root <;> rfl

/-- No field of options holds anything that cannot be written. -/
theorem plain_of_mem (h : o.toJson = .record fields) : ∀ field ∈ fields, field.2.Plain := by
  obtain ⟨root, hplain, -, heq⟩ := o.toJson_eq
  obtain rfl := Json.record_injective (heq.symm.trans h)
  simp [hplain, Json.Plain.bool, Json.Plain.text, Json.Plain.nat]

/-- **Options lose the fields that are missing**, and keep the others in whatever order they are. -/
theorem ofJson?_record (h : o.toJson = .record fields) (hkept : kept.Subperm fields) :
    ofJson? (.record kept) = some (o.only (kept.map Prod.fst)) := by
  obtain ⟨root, -, hroot, heq⟩ := o.toJson_eq
  obtain rfl := Json.record_injective (heq.symm.trans h)
  have hfields := Json.fields?_of_subperm (by simp) hkept
  have hreserved : (Json.bool o.allowReservedNames).bool? = some o.allowReservedNames := rfl
  have hrecursion : (Json.text o.leftRecursion.name).choice?.bind LeftRecursion.ofName? =
      some o.leftRecursion := o.leftRecursion.ofName?_name
  have hnumber (n : UInt32) : (Json.nat n.toNat).nat32?.map UInt32.ofNat = some n := by
    rw [Json.nat32?_nat n.toNat_lt, Option.map_some, UInt32.ofNat_toNat]
  simp only [List.map_cons, List.map_nil] at hfields
  rw [ofJson?, fieldNames, hfields]
  simp only [Option.bind_eq_bind, Option.bind_some, Json.fieldOr_ite _ hreserved,
    Json.fieldOr_ite _ hroot,
    Json.fieldOr_ite (fun j => j.choice?.bind LeftRecursion.ofName?) hrecursion,
    Json.fieldOr_ite (fun j => j.nat32?.map UInt32.ofNat) (hnumber _)]
  rfl

/-- **Fields that are kept are read back, in any order**, and the others have their defaults. -/
theorem read_compact_record (h : o.toJson = .record fields) (hkept : kept.Subperm fields) :
    (Json.parse? (Json.record kept).compact).bind ofJson? = some (o.only (kept.map Prod.fst)) := by
  have hplain : (Json.record kept).Plain :=
    .record fun field hfield => plain_of_mem h field (hkept.subset hfield)
  rw [hplain.read_compact, ofJson?_record h hkept]

/-- With all fields kept nothing is changed. -/
theorem only_fields (h : o.toJson = .record fields) : o.only (fields.map Prod.fst) = o := by
  obtain ⟨root, -, -, heq⟩ := o.toJson_eq
  obtain rfl := Json.record_injective (heq.symm.trans h)
  simp [only]

end ParseOptions

/-! ## Sets of characters -/

theorem CharRange.ofJson?_toJson (r : CharRange) : CharRange.ofJson? r.toJson = some r := by
  have hfields : r.toJson.fields? ["start", "end"] =
      some [some (.text (String.singleton r.start)), some (.text (String.singleton r.stop))] :=
    Json.fields?_record (by simp)
  rw [CharRange.ofJson?, hfields]
  simp [Json.char?_text]

namespace CharSet

theorem plain_toJson (s : CharSet) : s.toJson.Plain := by
  have hrange (r : CharRange) : r.toJson.Plain := by
    refine .record ?_
    simp [Json.Plain.text]
  refine .record ?_
  rw [List.forall_mem_cons, List.forall_mem_singleton]
  exact ⟨.bool _, .array (List.forall_mem_map.2 fun r _ => hrange r)⟩

/-- A set is read back. -/
theorem ofJson?_toJson (s : CharSet) : ofJson? s.toJson = some s := by
  have hfields : s.toJson.fields? ["negated", "ranges"] =
      some [some (.bool s.negated), some (.array (s.ranges.map CharRange.toJson))] :=
    Json.fields?_record (by simp)
  have hranges := Json.list?_map fun r (_ : r ∈ s.ranges) => r.ofJson?_toJson
  rw [ofJson?, hfields]
  simp [hranges, Json.bool?]

end CharSet

/-! ## Raw tables -/

theorem RawElement.plain_toJson (raw : RawElement) : raw.toJson.Plain := by
  refine .record ?_
  simp [Json.Plain.text, Json.Plain.nat]

theorem RawElement.ofJson?_toJson {raw : RawElement} (h : raw.value < 4294967296) :
    RawElement.ofJson? raw.toJson = some raw := by
  have hfields : raw.toJson.fields? ["kind", "value"] =
      some [some (.text raw.tag.name), some (.nat raw.value)] := Json.fields?_record (by simp)
  have htag : (Json.text raw.tag.name).choice?.bind Tag.ofName? = some raw.tag :=
    raw.tag.ofName?_name
  rw [RawElement.ofJson?, hfields]
  simp [htag, Json.nat32?_nat h]

namespace RawTable

variable {t : RawTable}

/-- **The numbers of a raw table can be read**: they have 32 bits at most. -/
structure InRange (t : RawTable) : Prop where
  value_lt : ∀ rule ∈ t.rules, ∀ raw ∈ rule, raw.value < 4294967296
  root_lt : t.root < 4294967296

theorem plain_toJson (t : RawTable) : t.toJson.Plain := by
  refine .record ?_
  rw [List.forall_mem_cons, List.forall_mem_singleton]
  refine ⟨.array (List.forall_mem_map.2 fun rule _ => ?_), .nat _⟩
  exact .array (List.forall_mem_map.2 fun raw _ => raw.plain_toJson)

theorem ofJson?_toJson (h : t.InRange) : ofJson? t.toJson = some t := by
  have hfields : t.toJson.fields? ["rules", "root"] =
      some [some (.array (t.rules.map fun rule => .array (rule.map RawElement.toJson))),
        some (.nat t.root)] := Json.fields?_record (by simp)
  have hrules := Json.list?_map fun rule hrule => Json.list?_map fun raw hraw =>
    RawElement.ofJson?_toJson (h.value_lt rule hrule raw hraw)
  rw [ofJson?, hfields]
  simp [hrules, Json.nat32?_nat h.root_lt]

end RawTable

/-- An element is a character or an identity, and both are in range. -/
theorem RawElement.Fits.value_lt {size : Nat} {raw : RawElement} (h : raw.Fits size)
    (hsize : size ≤ RuleId.bound) : raw.value < 4294967296 := by
  cases h with
  | mark => exact Nat.zero_lt_succ _
  | rule hid => exact Nat.lt_of_lt_of_le hid (hsize.trans (by decide))
  | char c => exact c.val.toNat_lt

/-- So the raw form of a grammar is in range, if it has few enough rules. -/
theorem Grammar.WellFormed.inRange_encode {g : Grammar} (h : g.WellFormed)
    (hsize : g.size ≤ RuleId.bound) : g.encode.InRange where
  value_lt _ hraws raw hraw := (h.fits_of_mem_encode hraws raw hraw).value_lt hsize
  root_lt := by
    rw [root_encode]
    exact Nat.lt_of_lt_of_le h.root (hsize.trans (by decide))

/-- The raw form of a grammar is read back from what is written of it. -/
theorem Grammar.WellFormed.read_written {g : Grammar} (h : g.WellFormed)
    (hsize : g.size ≤ RuleId.bound) :
    (Json.parse? (OutputForm.raw.written g)).bind RawTable.ofJson? = some g.encode := by
  rw [OutputForm.written, g.encode.plain_toJson.parse?_pretty, Option.bind_some,
    RawTable.ofJson?_toJson (h.inRange_encode hsize)]

/-! ## Texts -/

namespace Json

open CommandLine ArgumentGroup

/-- **All exchanged values are read back from their texts**: raw tables, sets of characters and
    options from their compact forms, options also from any part of their fields in any order, and
    the raw form of a grammar from what the command writes. -/
theorem forms_read_back :
    (∀ t : RawTable, t.InRange → (parse? t.toJson.compact).bind RawTable.ofJson? = some t) ∧
    (∀ s : CharSet, (parse? s.toJson.compact).bind CharSet.ofJson? = some s) ∧
    (∀ o : ParseOptions, (parse? o.toJson.compact).bind ParseOptions.ofJson? = some o) ∧
    (∀ (o : ParseOptions) (fields kept : List (String × Json)), o.toJson = .record fields →
      kept.Subperm fields → (parse? (Json.record kept).compact).bind ParseOptions.ofJson? =
        some (o.only (kept.map Prod.fst))) ∧
    ∀ (env : Environment) (groups : List ArgumentGroup) (options : ParseOptions) (g : Grammar),
      Admissible groups → (Arguments.ofGroups groups).form = .raw →
      Finds env (.ofGroups groups) options g → g.size ≤ RuleId.bound →
      (parse? (run env (groups.flatMap words)).output).bind RawTable.ofJson? = some g.encode := by
  refine ⟨fun t ht => ?_, fun s => ?_, fun o => ?_, fun o fields kept => ?_,
    fun env groups options g hgroups hform hfinds hsize => ?_⟩
  · rw [t.plain_toJson.read_compact, RawTable.ofJson?_toJson ht]
  · rw [s.plain_toJson.read_compact, s.ofJson?_toJson]
  · obtain ⟨root, -, -, h⟩ := o.toJson_eq
    rw [h, ParseOptions.read_compact_record h (List.Subperm.refl _), ParseOptions.only_fields h]
  · exact ParseOptions.read_compact_record
  · obtain ⟨text, -, hparse⟩ := hfinds.hasText
    rw [run_groups env hgroups, (perform_of_finds hfinds).2, hform]
    exact (Tree.wellFormed_of_parse hparse).read_written hsize

/-- The greatest numbers, a root with a quote, a backslash, a control character and a character
    beyond the first plane, two fields in another order, and a grammar from the standard input. -/
theorem forms_read_back_in_part : ∃ env : Environment,
    env.input = .ok "r ::= [^a-c\"\\u00e9] s*\ns ::= \"b\" | \"😀\"" ∧
    (parse? (RawTable.toJson ⟨[[], [⟨.charNot, 4294967295⟩]], 4294967295⟩).compact).bind
        RawTable.ofJson? = some ⟨[[], [⟨.charNot, 4294967295⟩]], 4294967295⟩ ∧
    (parse? "\x7b\"maxNesting\":3,\"root\":\"\\\"\\\\\\u0001é😀\"\x7d").bind ParseOptions.ofJson? =
        some { root := some "\"\\\x01é😀", maxNesting := 3 } ∧
    ∃ g : Grammar, g.size = 3 ∧
      (parse? (run env ["--raw"]).output).bind RawTable.ofJson? = some g.encode := by
  let env : Environment := {
    file := fun _ => .error .notFound
    input := .ok "r ::= [^a-c\"\\u00e9] s*\ns ::= \"b\" | \"😀\""
    refusal := fun _ => "expected an object"
    level := none }
  let o : ParseOptions := {
    allowReservedNames := true
    root := some "\"\\\x01é😀"
    leftRecursion := .reject
    maxNesting := 3 }
  let kept : List (String × Json) :=
    [("maxNesting", .nat 3), ("root", .text "\"\\\x01é😀")]
  obtain ⟨g, hparse, hsize⟩ := @Grammar.exists_parse_of_any {}
    "r ::= [^a-c\"\\u00e9] s*\ns ::= \"b\" | \"😀\"" (fun g => g.size = 3) (by decide +kernel)
  have hsize : g.size = 3 := of_decide_eq_true hsize
  obtain ⟨htables, -, -, hoptions, hraw⟩ := forms_read_back
  have hkept : kept.Subperm [("root", .text "\"\\\x01é😀"), ("maxNesting", .nat 3)] :=
    (List.Perm.swap _ _ _).subperm
  have hpart := hoptions o _ kept rfl (hkept.trans (List.Sublist.subperm
    (.cons _ (.cons_cons _ (.cons _ (.cons _ (.cons_cons _ .slnil)))))))
  have hwritten : (Json.record kept).compact =
      "\x7b\"maxNesting\":3,\"root\":\"\\\"\\\\\\u0001é😀\"\x7d" := by decide +kernel
  rw [hwritten] at hpart
  refine ⟨env, rfl, htables _ ⟨by decide, by decide⟩, hpart, g, hsize, ?_⟩
  exact hraw env [.raw] {} g ⟨by simp [path?], by decide⟩ rfl
    ⟨⟨{}, .standard, rfl⟩, _, .input rfl, hparse⟩ (hsize ▸ by decide)

end Json

end Bnf
