import Mathlib.Data.List.Induction
import Bnf.Proofs.Checked
import Bnf.Proofs.WellFormed

/-!
# The flat form holds the rules

Rules are laid out one after the other, so each keeps its stretch while others are added behind it.

## Main definitions

- `FlatTable.Lays` — a table has the elements of some rules

## Main results

- `FlatTable.lays_foldl` — rules that are laid out one by one are all there
- `Grammar.rule?_flatten` — the flat form has the elements of each rule
- `Rule.exists_of_mem_elements` — elements mention no other rules than the alternatives do
-/

namespace Bnf

/-! ## Lists -/

section

variable {α β : Type}

/-- A function that gives something for each item of a list gives something for the list. With
    checks, this is how what holds of items is carried over to lists of them. -/
theorem mapM_eq_some_map {f : α → Option β} {g : α → β} {xs : List α}
    (h : ∀ x ∈ xs, f x = some (g x)) : xs.mapM f = some (xs.map g) := by
  induction xs with
  | nil => rfl
  | cons x xs ih =>
    rw [List.forall_mem_cons] at h
    rw [List.mapM_cons, h.1, ih h.2]
    rfl

/-- To look up all numbers below a length is to read a list with this length. -/
theorem mapM_range_eq_some {f : Nat → Option β} {ys : List β}
    (h : ∀ {i : Nat} {y : β}, ys[i]? = some y → f i = some y) :
    (List.range ys.length).mapM f = some ys := by
  induction ys using List.reverseRecOn with
  | nil => rfl
  | append_singleton ys y ih =>
    have hlast : f ys.length = some y := h (by simp)
    have hbefore : (List.range ys.length).mapM f = some ys :=
      ih fun hi => h (List.getElem?_append_left (List.getElem?_eq_some_iff.1 hi).1 ▸ hi)
    rw [List.length_append, List.length_singleton, List.range_succ, List.mapM_append, hbefore,
      List.mapM_cons, hlast]
    rfl

/-- Steps that look their item up by its number are those that go through the list, if no look-up
    fails on what was made before. -/
theorem foldlM_range_eq_some {step : β → Nat → Option β} {next : β → α → β} {start : β}
    {xs : List α} (h : ∀ {i : Nat} {x : α}, xs[i]? = some x →
      step ((xs.take i).foldl next start) i = some (next ((xs.take i).foldl next start) x)) :
    (List.range xs.length).foldlM step start = some (xs.foldl next start) := by
  induction xs using List.reverseRecOn with
  | nil => rfl
  | append_singleton xs x ih =>
    have hlast : step (xs.foldl next start) xs.length = some (next (xs.foldl next start) x) := by
      simpa using @h xs.length x (by simp)
    have hbefore : (List.range xs.length).foldlM step start = some (xs.foldl next start) := by
      refine ih fun {i x} hi => ?_
      have hlt := (List.getElem?_eq_some_iff.1 hi).1
      have hstep := @h i x (List.getElem?_append_left hlt ▸ hi)
      rwa [List.take_append_of_le_length (Nat.le_of_lt hlt)] at hstep
    rw [List.length_append, List.length_singleton, List.range_succ, List.foldlM_append, hbefore,
      List.foldl_append]
    simpa [List.foldlM_cons] using hlast

end

namespace RuleId

variable {number : Nat}

/-- A number below the bound is an identity. -/
theorem ofNumber?_eq_some (h : number < bound) : ofNumber? number = some number :=
  if_pos h

end RuleId

/-! ## The flat form -/

/-- What is in a list of lists with separators is in a separator or in one of the lists. -/
theorem mem_intercalate {α : Type} {separator : List α} {lists : List (List α)} {x : α}
    (h : x ∈ separator.intercalate lists) : x ∈ separator ∨ ∃ list ∈ lists, x ∈ list := by
  induction lists with
  | nil => simp at h
  | cons first lists ih =>
    by_cases hlast : lists = []
    · rw [hlast, List.intercalate_singleton] at h
      exact .inr ⟨first, List.mem_cons_self, h⟩
    · rw [List.intercalate_cons_of_ne_nil hlast, List.mem_append, List.mem_append, or_assoc] at h
      obtain hfirst | hseparator | hrest := h
      · exact .inr ⟨first, List.mem_cons_self, hfirst⟩
      · exact .inl hseparator
      · exact (ih hrest).imp_right fun ⟨list, hlist, hx⟩ => ⟨list, List.mem_cons_of_mem _ hlist, hx⟩

/-- A rule with one alternative has no border. -/
theorem Rule.elements_singleton (origin : Origin) (body : Body) :
    (⟨origin, [body]⟩ : Rule).elements = body.map Symbol.element ++ [.stop] := by
  rw [Rule.elements, List.map_singleton, List.intercalate_singleton]

/-- Behind the first of several alternatives there is a border, and then what a rule with the others
    has. -/
theorem Rule.elements_cons (origin : Origin) (body : Body) {bodies : List Body} (h : bodies ≠ []) :
    (⟨origin, body :: bodies⟩ : Rule).elements =
      body.map Symbol.element ++ .border :: (⟨origin, bodies⟩ : Rule).elements := by
  have hne : bodies.map (·.map Symbol.element) ≠ [] := by simpa using h
  rw [Rule.elements, Rule.elements, List.map_cons, List.intercalate_cons_of_ne_nil hne]
  simp

/-- A rule that is mentioned in the flat form is mentioned in an alternative. -/
theorem Rule.exists_of_mem_elements {rule : Rule} {id : RuleId}
    (h : .rule id ∈ rule.elements) : ∃ body ∈ rule.alternatives, .rule id ∈ body := by
  rw [Rule.elements, List.mem_append] at h
  obtain hbody | hstop := h
  · obtain hborder | ⟨list, hlist, hmem⟩ := mem_intercalate hbody
    · simp at hborder
    · obtain ⟨body, hbody, rfl⟩ := List.mem_map.1 hlist
      obtain ⟨symbol, hsymbol, helement⟩ := List.mem_map.1 hmem
      cases symbol with
      | rule other =>
        cases helement
        exact ⟨body, hbody, hsymbol⟩
      | chars set => simp [Symbol.element] at helement
  · simp at hstop

/-- The last element of a rule is the one that ends it. -/
theorem Rule.getLast?_elements (rule : Rule) : rule.elements.getLast? = some .stop := by
  rw [Rule.elements, List.getLast?_append, List.getLast?_singleton, Option.some_or]

namespace FlatTable

variable {t : FlatTable} {id : RuleId} {elements added : List Element} {rules : List Rule}

/-- A rule has elements if it has a stretch that is in order and within the elements. They are what
    the stretch holds. -/
theorem rule?_eq_some_iff : t.rule? id = some elements ↔
    ∃ start stop : Nat, t.bounds[id]? = some (start, stop) ∧ start ≤ stop ∧
      stop ≤ t.elements.size ∧ (t.elements.extract start stop).toList = elements := by
  cases hbounds : t.bounds[id]? with
  | none => simp [rule?, hbounds]
  | some stretch =>
    obtain ⟨start, stop⟩ := stretch
    simp [rule?, hbounds, and_assoc]

/-- With checks or without, the elements are the same. -/
theorem rule_of_rule? (h : t.rule? id = some elements) : t.rule id = elements := by
  obtain ⟨start, stop, hbounds, -, -, helements⟩ := rule?_eq_some_iff.1 h
  simpa only [rule, hbounds] using helements

/-- A rule is laid out behind all others. -/
theorem toList_elements_push :
    (t.push added).elements.toList = t.elements.toList ++ added :=
  Array.toList_appendList

/-- The rules that were laid out stay where they are. -/
theorem rule?_push (h : t.rule? id = some elements) : (t.push added).rule? id = some elements := by
  obtain ⟨start, stop, hbounds, hle, hinside, helements⟩ := rule?_eq_some_iff.1 h
  have hlt : id < t.bounds.size := (Array.getElem?_eq_some_iff.1 hbounds).1
  refine rule?_eq_some_iff.2 ⟨start, stop, ?_, hle, ?_, ?_⟩
  · rwa [push, Array.getElem?_push, if_neg (Nat.ne_of_lt hlt)]
  · rw [← Array.length_toList, toList_elements_push, List.length_append, Array.length_toList]
    omega
  · rw [← Array.length_toList] at hinside
    rw [← helements, Array.toList_extract, Array.toList_extract, toList_elements_push,
      List.extract_eq_take_drop, List.extract_eq_take_drop,
      List.drop_append_of_le_length (Nat.le_trans hle hinside),
      List.take_append_of_le_length (by rw [List.length_drop]; omega)]

/-- The rule that was laid out last has the next identity. -/
theorem rule?_push_size (t : FlatTable) (added : List Element) :
    (t.push added).rule? t.size = some added := by
  refine rule?_eq_some_iff.2 ⟨t.elements.size, t.elements.size + added.length, ?_, ?_, ?_, ?_⟩
  · rw [push, size, Array.getElem?_push_size]
  · exact Nat.le_add_right _ _
  · refine Nat.le_of_eq ?_
    rw [← Array.length_toList, ← Array.length_toList, toList_elements_push, List.length_append]
  · rw [Array.toList_extract, toList_elements_push, List.extract_eq_take_drop]
    simp

/-- A table has the elements of some rules, in their order. -/
structure Lays (t : FlatTable) (rules : List Rule) : Prop where
  size : t.size = rules.length
  rule? : ∀ {id : Nat} {rule : Rule}, rules[id]? = some rule → t.rule? id = some rule.elements

/-- A rule that is laid out joins those that are there already, which stay. -/
theorem Lays.push (h : t.Lays rules) (rule : Rule) :
    (t.push rule.elements).Lays (rules ++ [rule]) := by
  refine ⟨?_, fun {id other} hother => ?_⟩
  · rw [FlatTable.push, FlatTable.size, Array.size_push, List.length_append, List.length_singleton]
    exact congrArg (· + 1) h.size
  · obtain hlt | hge := Nat.lt_or_ge id rules.length
    · rw [List.getElem?_append_left hlt] at hother
      exact rule?_push (h.rule? hother)
    · rw [List.getElem?_append_right hge] at hother
      obtain ⟨hzero, hsame⟩ : id - rules.length = 0 ∧ rule = other := by
        simpa [List.getElem?_singleton] using hother
      obtain rfl : id = t.size := by
        rw [h.size]
        omega
      rw [← hsame]
      exact rule?_push_size t rule.elements

/-- **Rules that are laid out one by one are all there**, each with its elements. -/
theorem lays_foldl (root : RuleId) (rules : List Rule) :
    Lays (rules.foldl (fun table rule => table.push rule.elements) (.empty root)) rules := by
  induction rules using List.reverseRecOn with
  | nil => exact ⟨rfl, by simp⟩
  | append_singleton rules rule ih =>
    rw [List.foldl_append]
    exact ih.push rule

end FlatTable

/-! ## The flat form of a grammar -/

namespace Grammar

variable {g : Grammar} {id : Nat}

/-- Identities can be counted with 32 bits, if there are no more than fit. -/
theorem ids?_eq_some (hbound : g.size ≤ RuleId.bound) : g.ids? = some g.ids := by
  rw [ids?, mapM_eq_some_map (g := fun number => number), List.map_id', ids]
  intro number hnumber
  exact RuleId.ofNumber?_eq_some (Nat.lt_of_lt_of_le (List.mem_range.1 hnumber) hbound)

/-- The flat form of a grammar has the elements of its rules. -/
theorem lays_flatten (g : Grammar) : g.flatten.Lays g.rules.toList :=
  FlatTable.lays_foldl g.root g.rules.toList

/-- It has as many rules as the grammar. -/
theorem size_flatten (g : Grammar) : g.flatten.size = g.size :=
  g.lays_flatten.size.trans Array.length_toList

/-- **The flat form has the elements of each rule**, under its identity. -/
theorem rule?_flatten {rule : Rule} (h : g.rule? id = some rule) :
    g.flatten.rule? id = some rule.elements :=
  g.lays_flatten.rule? (Array.getElem?_toList.trans h)

/-- So it has elements for every identity of the grammar, and they are those of a rule of the
    grammar. -/
theorem exists_rule?_flatten (h : id < g.size) : ∃ rule, g.rule? id = some rule ∧
    g.flatten.rule? id = some (g.flatten.rule id) ∧ g.flatten.rule id = rule.elements := by
  obtain ⟨rule, hrule⟩ := exists_rule?_of_lt h
  have hflat := rule?_flatten hrule
  have helements := FlatTable.rule_of_rule? hflat
  exact ⟨rule, hrule, helements.symm ▸ hflat, helements⟩

/-- The rules of the flat form are the elements of the rules of the grammar, in their order. -/
theorem rules_flatten (g : Grammar) : g.flatten.rules = g.rules.toList.map Rule.elements := by
  refine List.ext_getElem (by simp [FlatTable.rules, size_flatten, size]) fun id hid _ => ?_
  obtain ⟨rule, hrule, -, helements⟩ := @exists_rule?_flatten g id
    (by simpa [FlatTable.rules, size_flatten] using hid)
  obtain ⟨_, rfl⟩ := Array.getElem?_eq_some_iff.1 hrule
  simp [FlatTable.rules, helements]

/-- Laying out the rules passes all checks: at every step the next identity is the one that comes
    next in the table. -/
theorem flatten?_eq_some (hbound : g.size ≤ RuleId.bound) : g.flatten? = some g.flatten := by
  rw [flatten?, ids?_eq_some hbound]
  show (List.range g.rules.size).foldlM _ _ = _
  rw [← Array.length_toList]
  refine foldlM_range_eq_some fun {id rule} hrule => ?_
  have hlt : id < g.rules.toList.length := (List.getElem?_eq_some_iff.1 hrule).1
  have hsize := (FlatTable.lays_foldl g.root (g.rules.toList.take id)).size
  rw [List.length_take, Nat.min_eq_left (Nat.le_of_lt hlt)] at hsize
  have hnumber : id < RuleId.bound := Nat.lt_of_lt_of_le (by simpa [size] using hlt) hbound
  rw [Array.getElem?_toList] at hrule
  rw [rule?, hrule]
  show FlatTable.push? _ id rule.elements = _
  rw [FlatTable.push?, hsize, RuleId.ofNumber?_eq_some hnumber]
  exact if_pos rfl

/-- Cutting a rule into bodies passes its check, as the last element is the one that ends it. -/
theorem bodies?_flatten (hid : id < g.size) :
    g.flatten.bodies? id = some (g.flatten.bodies id) := by
  obtain ⟨rule, -, hrule, helements⟩ := exists_rule?_flatten hid
  rw [FlatTable.bodies?, hrule]
  show (if (g.flatten.rule id).getLast? = _ then _ else _) = _
  rw [if_pos (helements ▸ rule.getLast?_elements)]
  rfl

/-- Each rule of the flat form is looked up within it. -/
theorem rules?_flatten (hbound : g.size ≤ RuleId.bound) :
    g.flatten.rules? = some g.flatten.rules := by
  refine mapM_eq_some_map fun id hid => ?_
  rw [List.mem_range, size_flatten] at hid
  obtain ⟨rule, -, hrule, -⟩ := exists_rule?_flatten hid
  rw [RuleId.ofNumber?_eq_some (Nat.lt_of_lt_of_le hid hbound)]
  exact hrule

/-- So the raw form is made without a failing check. -/
theorem encode?_eq_some (hbound : g.size ≤ RuleId.bound) : g.encode? = some g.encode := by
  rw [encode?, flatten?_eq_some hbound]
  show g.flatten.encode? = _
  rw [FlatTable.encode?, rules?_flatten hbound]
  rfl

end Grammar

end Bnf
