import Mathlib.Algebra.GroupWithZero.Nat
import Bnf.Proofs.Flat
import Bnf.Proofs.Tree.Fitting

/-!
# The flat form is an exact layout

The stretches of the rules follow each other in the array, in the order of identities and with
nothing before, between or behind them. In a stretch a border stands between each two alternatives
and in no other place, so what is between the borders is the alternatives, and the empty ones among
them are the places where two borders, or a border and an end of the stretch, meet.

## Main definitions

- `Tiles` — stretches that follow each other from one place to another

## Main results

- `Tiles.existsUnique` — each place is in one stretch
- `Rule.perm_elements` — the elements of a rule, up to their order
- `Rule.bodies_elements` — the alternatives are what is between the borders
- `FlatTable.exact_foldl` — rules that are laid out one by one follow each other
- `Grammar.flatten_lossless` — all of this about the flat form of a grammar
-/

namespace Bnf

/-! ## Stretches -/

/-- **Stretches that follow each other** from `start` to `stop`, none of them empty. -/
def Tiles (start stop : Nat) : List (Nat × Nat) → Prop
  | [] => start = stop
  | (first, last) :: rest => first = start ∧ first < last ∧ Tiles last stop rest

namespace Tiles

variable {start stop last place : Nat} {stretch : Nat × Nat} {stretches : List (Nat × Nat)}

/-- A stretch behind the last one goes on with the tiling. -/
theorem concat (h : Tiles start stop stretches) (hlt : stop < last) :
    Tiles start last (stretches ++ [(stop, last)]) := by
  induction stretches generalizing start with
  | nil => exact ⟨h.symm, hlt, rfl⟩
  | cons head rest ih => exact ⟨h.1, h.2.1, ih h.2.2⟩

theorem le_of_mem (h : Tiles start stop stretches) (hmem : stretch ∈ stretches) :
    start ≤ stretch.1 := by
  induction stretches generalizing start with
  | nil => cases hmem
  | cons head rest ih =>
    obtain ⟨rfl, hlt, hrest⟩ := h
    obtain rfl | hmem := List.mem_cons.1 hmem
    · exact Nat.le_refl _
    · exact Nat.le_trans (Nat.le_of_lt hlt) (ih hrest hmem)

/-- **Each place is in one stretch.** -/
theorem existsUnique (h : Tiles start stop stretches) (hstart : start ≤ place)
    (hstop : place < stop) : ∃! id : Nat, ∃ first last, stretches[id]? = some (first, last) ∧
      first ≤ place ∧ place < last := by
  induction stretches generalizing start with
  | nil =>
    obtain rfl : start = stop := h
    omega
  | cons head rest ih =>
    obtain ⟨first, last⟩ := head
    obtain ⟨rfl, -, hrest⟩ := h
    by_cases hplace : place < last
    · refine ⟨0, ⟨first, last, rfl, hstart, hplace⟩, ?_⟩
      rintro (_ | id) ⟨first', last', hid, hfirst', -⟩
      · rfl
      · -- The stretches behind this one start where it ends, or later.
        have hle := hrest.le_of_mem (List.mem_of_getElem? hid)
        omega
    · obtain ⟨id, hid, hunique⟩ := ih hrest (Nat.le_of_not_lt hplace)
      refine ⟨id + 1, hid, ?_⟩
      rintro (_ | other) ⟨first', last', hother, hfirst', hlast'⟩
      · cases hother
        exact absurd hlast' hplace
      · exact congrArg (· + 1) (hunique other ⟨first', last', hother, hfirst', hlast'⟩)

end Tiles

/-! ## The elements of a rule -/

/-- Cutting at borders is the splitting of lists. -/
theorem splitAtBorders_eq_splitOn (elements : List Element) :
    splitAtBorders elements = elements.splitOn .border := by
  induction elements with
  | nil => rfl
  | cons element rest ih =>
    have hne : splitAtBorders rest ≠ [] := by
      rw [ih]
      exact List.splitOn_ne_nil _ _
    rw [List.splitOn, List.splitOnP_cons_eq_if_modifyHead, ← List.splitOn, ← ih]
    cases element with
    | border => rfl
    | stop | rule _ | chars _ =>
      rw [splitAtBorders, if_neg (by simp)]
      · obtain ⟨part, parts, hparts⟩ := List.exists_cons_of_ne_nil hne
        rw [hparts]
        rfl
      · simp

@[simp] theorem Symbol.element_ne_border (symbol : Symbol) : symbol.element ≠ .border := by
  cases symbol <;> simp [Symbol.element]

@[simp] theorem Symbol.element_ne_stop (symbol : Symbol) : symbol.element ≠ .stop := by
  cases symbol <;> simp [Symbol.element]

namespace Rule

variable {rule : Rule}

/-- **The elements of a rule, up to their order**: those of its alternatives, one border fewer than
    there are alternatives, and one end mark. -/
theorem perm_elements (h : rule.alternatives ≠ []) : (.border :: rule.elements).Perm
    (.stop :: rule.alternatives.flatMap fun body => .border :: body.map Symbol.element) := by
  obtain ⟨origin, bodies⟩ := rule
  induction bodies with
  | nil => exact absurd rfl h
  | cons body rest ih =>
    by_cases hrest : rest = []
    · rw [hrest, elements_singleton, List.flatMap_singleton]
      exact List.perm_append_singleton _ (.border :: body.map Symbol.element)
    · rw [elements_cons origin body hrest, List.flatMap_cons]
      exact ((ih hrest).append_left (.border :: body.map Symbol.element)).trans List.perm_middle

/-- A rule ends once. -/
theorem count_stop_elements (h : rule.alternatives ≠ []) : rule.elements.count .stop = 1 := by
  have hcount := (perm_elements h).count_eq .stop
  rw [List.count_cons_of_ne (by simp), List.count_cons_self] at hcount
  rw [hcount, List.count_eq_zero.2 (by simp)]

/-- It has a border between each two of its alternatives. -/
theorem count_border_elements (h : rule.alternatives ≠ []) :
    rule.elements.count .border + 1 = rule.alternatives.length := by
  have hbody (body : Body) : (body.map Symbol.element).count .border = 0 :=
    List.count_eq_zero.2 (by simp)
  have hcount := (perm_elements h).count_eq .border
  rw [List.count_cons_self, List.count_cons_of_ne (by simp), List.count_flatMap] at hcount
  simpa [Function.comp_def, hbody] using hcount

/-- Each alternative takes up its symbols, and one element that ends it. -/
theorem length_elements (h : rule.alternatives ≠ []) :
    rule.elements.length = (rule.alternatives.map (·.length + 1)).sum := by
  have hlength := (perm_elements h).length_eq
  rw [List.length_cons, List.length_cons, List.length_flatMap] at hlength
  simpa using hlength

/-- **The alternatives are what is between the borders.** -/
theorem bodies_elements (h : rule.alternatives ≠ []) :
    splitAtBorders rule.elements.dropLast = rule.alternatives.map (·.map Symbol.element) := by
  rw [elements, List.dropLast_concat, splitAtBorders_eq_splitOn,
    List.splitOn_intercalate _ (by simp) (by simpa using h)]

theorem elements_ne_nil (rule : Rule) : rule.elements ≠ [] := by
  simp [elements]

end Rule

/-! ## The array -/

namespace FlatTable

variable {t : FlatTable} {rules : List Rule}

/-- The elements of some rules fill a table, in stretches that follow each other. -/
structure Exact (t : FlatTable) (rules : List Rule) : Prop where
  elements : t.elements.toList = rules.flatMap Rule.elements
  tiles : Tiles 0 t.elements.size t.bounds.toList

/-- A rule is laid out right behind those before it. -/
theorem Exact.push (h : t.Exact rules) (rule : Rule) :
    (t.push rule.elements).Exact (rules ++ [rule]) where
  elements := by rw [toList_elements_push, h.elements, List.flatMap_append, List.flatMap_singleton]
  tiles := by
    have hsize : (t.push rule.elements).elements.size = t.elements.size + rule.elements.length := by
      rw [← Array.length_toList, toList_elements_push, List.length_append, Array.length_toList]
    rw [hsize, FlatTable.push, Array.toList_push]
    exact h.tiles.concat (Nat.lt_add_of_pos_right (List.length_pos_iff.2 rule.elements_ne_nil))

/-- So rules that are laid out one by one leave no gap. -/
theorem exact_foldl (root : RuleId) (rules : List Rule) :
    Exact (rules.foldl (fun table rule => table.push rule.elements) (.empty root)) rules := by
  induction rules using List.reverseRecOn with
  | nil => exact ⟨rfl, rfl⟩
  | append_singleton rules rule ih =>
    rw [List.foldl_append]
    exact ih.push rule

end FlatTable

namespace Grammar

variable {g : Grammar} {source : String} {options : ParseOptions}

/-- **The flat form of a grammar has no gaps**, and nothing besides the elements of its rules. -/
theorem exact_flatten (g : Grammar) : g.flatten.Exact g.rules.toList :=
  FlatTable.exact_foldl g.root g.rules.toList

/-- **The flat form is an exact layout.** The stretches of the rules follow each other through the
    whole array, in the order of identities, so each place belongs to one rule. The array is as long
    as all alternatives with an element more for each. A stretch has an end mark as its last element
    only and a border fewer than there are alternatives, and its bodies are the alternatives. -/
theorem flatten_lossless (h : parse source options = .ok g) :
    (g.flatten.size = g.size ∧
      Tiles 0 g.flatten.elements.size g.flatten.bounds.toList ∧
      (∀ place < g.flatten.elements.size, ∃! id : RuleId, ∃ first last,
        g.flatten.bounds[id]? = some (first, last) ∧ first ≤ place ∧ place < last) ∧
      g.flatten.rules.flatten = g.flatten.elements.toList) ∧
    g.flatten.elements.size =
      (g.rules.toList.map fun rule => (rule.alternatives.map (·.length + 1)).sum).sum ∧
    ∀ (id : RuleId) (rule : Rule), g.rule? id = some rule →
      (g.flatten.rule id).count .stop = 1 ∧
      (g.flatten.rule id).getLast? = some .stop ∧
      (g.flatten.rule id).count .border + 1 = rule.alternatives.length ∧
      g.flatten.bodies? id = some (g.flatten.bodies id) ∧
      g.flatten.bodies id = rule.alternatives.map (·.map Symbol.element) := by
  have hwell := Tree.wellFormed_of_parse h
  have hexact := g.exact_flatten
  have hlengths : ∀ rule ∈ g.rules.toList,
      rule.elements.length = (rule.alternatives.map (·.length + 1)).sum :=
    fun rule hrule => Rule.length_elements (hwell.fits_of_mem hrule).1
  refine ⟨⟨g.size_flatten, hexact.tiles, fun place hplace => ?_, ?_⟩, ?_, fun id rule hrule => ?_⟩
  · simpa using hexact.tiles.existsUnique (Nat.zero_le place) hplace
  · rw [rules_flatten, hexact.elements, List.flatMap]
  · rw [← Array.length_toList, hexact.elements, List.length_flatMap, List.map_congr_left hlengths]
  · have hne := (hwell.rules hrule).1
    have helements := FlatTable.rule_of_rule? (rule?_flatten hrule)
    refine ⟨?_, ?_, ?_, bodies?_flatten (lt_of_rule? hrule), ?_⟩
    · rw [helements, Rule.count_stop_elements hne]
    · rw [helements, Rule.getLast?_elements]
    · rw [helements, Rule.count_border_elements hne]
    · rw [FlatTable.bodies, helements, Rule.bodies_elements hne]

/-- Alternatives that are empty: at the start, in the middle, at the end, and the only one. -/
theorem flatten_lossless_empty_alternatives : ∃ g,
    parse "r ::= \"\" | e \"a\" | \"\" | e | \"\"\ne ::= \"\"\nx ::= \"b\" r" {} = .ok g ∧
      g.flatten.bounds.toList = [(0, 8), (8, 9), (9, 12)] ∧
      Tiles 0 g.flatten.elements.size g.flatten.bounds.toList ∧
      g.flatten.rules.flatten = g.flatten.elements.toList ∧
      g.flatten.bodies 0 = [[], [.rule 1, .chars (.single 'a')], [], [.rule 1], []] ∧
      g.flatten.bodies 1 = [[]] ∧ ∃ rule, g.rule? 0 = some rule ∧
        g.flatten.bodies 0 = rule.alternatives.map (·.map Symbol.element) := by
  obtain ⟨g, hg, hbodies⟩ := @exists_parse_of_any {}
    "r ::= \"\" | e \"a\" | \"\" | e | \"\"\ne ::= \"\"\nx ::= \"b\" r"
    (fun g => g.flatten.bounds.toList = [(0, 8), (8, 9), (9, 12)] ∧
      g.flatten.bodies 0 = [[], [.rule 1, .chars (.single 'a')], [], [.rule 1], []] ∧
      g.flatten.bodies 1 = [[]] ∧ (g.rule? 0).isSome) (by decide +kernel)
  obtain ⟨hbounds, hbodies, hempty, hsome⟩ := of_decide_eq_true hbodies
  obtain ⟨rule, hrule⟩ := Option.isSome_iff_exists.1 hsome
  obtain ⟨⟨-, htiles, -, hrules⟩, -, hinside⟩ := flatten_lossless hg
  exact ⟨g, hg, hbounds, htiles, hrules, hbodies, hempty, rule, hrule,
    (hinside 0 rule hrule).2.2.2.2⟩

end Grammar

end Bnf
