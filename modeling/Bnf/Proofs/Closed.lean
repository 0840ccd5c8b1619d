import Bnf.Proofs.Flat
import Bnf.Proofs.LeftRecursion
import Bnf.Proofs.Reachability
import Bnf.Proofs.Tree.Fitting
import Bnf.Proofs.Tree.Printing

/-!
# Grammars are closed

All that is looked up in the grammar of a text is there: names and rules of its identities, rules
that its alternatives mention, its root. So no function on grammars comes to a number that is out of
range, which is to say that each gives with checks what it gives without.

## Main definitions

- `Grammar.Closed` — all that a grammar mentions is there and has a form
- `Grammar.Checks` — the functions on a grammar pass all checks
- `Graph.Closed` — nodes are followed by nodes

## Main results

- `Graph.run?_eq_some` — a search of a closed graph only comes to nodes
- `Grammar.closed_of_parse` — the grammar of a text is closed, and passes all checks
-/

namespace Bnf

/-! ## Lists -/

section

variable {α β : Type}

/-- A test that gives an answer for each item of a list gives one for all of them. It stops at the
    first item that fails, as the test without checks does. -/
theorem allM_eq_some_all {p : α → Option Bool} {q : α → Bool} {xs : List α}
    (h : ∀ x ∈ xs, p x = some (q x)) : xs.allM p = some (xs.all q) := by
  induction xs with
  | nil => rfl
  | cons x xs ih =>
    rw [List.forall_mem_cons] at h
    rw [List.allM, h.1, List.all_cons]
    cases q x with
    | false => rfl
    | true => exact ih h.2

/-- The same for a test that looks for one item that passes. -/
theorem anyM_eq_some_any {p : α → Option Bool} {q : α → Bool} {xs : List α}
    (h : ∀ x ∈ xs, p x = some (q x)) : xs.anyM p = some (xs.any q) := by
  induction xs with
  | nil => rfl
  | cons x xs ih =>
    rw [List.forall_mem_cons] at h
    rw [List.anyM, h.1, List.any_cons]
    cases q x with
    | false => exact ih h.2
    | true => rfl

/-- Lists are alike if they are as long as each other and their pairs are alike. Checks compare the
    lengths first, so they need this form. -/
theorem isEqv_eq_all_zip (s : α → α → Bool) (xs ys : List α) :
    xs.isEqv ys s = (decide (xs.length = ys.length) && (xs.zip ys).all fun (x, y) => s x y) := by
  induction xs generalizing ys with
  | nil => cases ys <;> simp
  | cons x xs ih =>
    cases ys with
    | nil => simp
    | cons y ys => simp [List.isEqv_cons_cons, ih, Bool.and_left_comm]

/-- Lists are compared without a failing check if each two of their items are. -/
theorem agree?_eq_some_isEqv {r : α → α → Option Bool} {s : α → α → Bool} {xs ys : List α}
    (h : ∀ x ∈ xs, ∀ y ∈ ys, r x y = some (s x y)) : agree? r xs ys = some (xs.isEqv ys s) := by
  rw [agree?, isEqv_eq_all_zip]
  by_cases hlength : xs.length = ys.length
  · rw [if_pos hlength, decide_eq_true hlength, Bool.true_and]
    exact allM_eq_some_all fun pair hpair =>
      h pair.1 (List.of_mem_zip hpair).1 pair.2 (List.of_mem_zip hpair).2
  · rw [if_neg hlength, decide_eq_false hlength, Bool.false_and]

end

namespace Grammar

variable {g a b : Grammar} {id : Nat}

/-- At the place of an identity there is its rule, under its name. -/
theorem getElem?_namedRules (g : Grammar) (id : Nat) :
    g.namedRules[id]? = (g.rule? id).map fun rule => (g.name id, rule) := by
  rw [namedRules, List.getElem?_mapIdx, Array.getElem?_toList, rule?]

/-- There are as many named rules as rules. -/
theorem length_namedRules (g : Grammar) : g.namedRules.length = g.size := by
  rw [namedRules, List.length_mapIdx, Array.length_toList, size]

namespace WellFormed

/-- Every rule is found together with its name. -/
theorem namedRules?_eq_some (h : g.WellFormed) (hbound : g.size ≤ RuleId.bound) :
    g.namedRules? = some g.namedRules := by
  rw [namedRules?, ids?_eq_some hbound]
  show (List.range g.size).mapM _ = _
  rw [← length_namedRules]
  refine mapM_range_eq_some fun {id named} hnamed => ?_
  rw [getElem?_namedRules] at hnamed
  obtain ⟨rule, hrule, rfl⟩ := Option.map_eq_some_iff.1 hnamed
  rw [h.name?_eq (lt_of_rule? hrule), hrule]
  rfl

/-! ## Text -/

/-- A rule that a piece mentions has a name to write. -/
theorem writePiece?_eq_some (h : g.WellFormed) {piece : Piece}
    (hfits : Body.Fits g.size piece.symbols) : g.writePiece? piece = some (g.writePiece piece) := by
  cases piece with
  | literal chars => rfl
  | set chars => rfl
  | rule id =>
    have hid : id < g.size := hfits (.rule id) List.mem_cons_self
    rw [writePiece?, h.name?_eq hid]
    rfl

/-- So each piece of an alternative can be written, since the pieces hold no more symbols than the
    alternative. -/
theorem writeBody?_eq_some (h : g.WellFormed) {body : Body} (hfits : body.Fits g.size) :
    g.writeBody? body = some (g.writeBody body) := by
  rw [writeBody?, writeBody]
  split
  · rfl
  · rw [mapM_eq_some_map fun piece hpiece => h.writePiece?_eq_some fun symbol hsymbol => ?_]
    · exact congrArg some (List.flatMap_map ..)
    · have hmem := List.mem_flatMap.2 ⟨piece, hpiece, hsymbol⟩
      rw [Body.symbols_pieces] at hmem
      exact hfits symbol hmem

/-- So can a rule, if its alternatives mean something. -/
theorem writeRule?_eq_some (h : g.WellFormed) {rule : Rule} (hfits : rule.Fits g.size)
    (name : String) : g.writeRule? name rule = some (g.writeRule name rule) := by
  rw [writeRule?, mapM_eq_some_map fun body hbody => h.writeBody?_eq_some (hfits.2 body hbody)]
  rfl

/-- The rules of a grammar do mean something. -/
theorem fits_of_mem_namedRules (h : g.WellFormed) {named : String × Rule}
    (hnamed : named ∈ g.namedRules) : named.2.Fits g.size := by
  obtain ⟨id, hrule, -⟩ := mem_namedRules_iff.1 hnamed
  exact h.rules hrule

/-- **A grammar is written without a failing check.** -/
theorem text?_eq_some (h : g.WellFormed) (hbound : g.size ≤ RuleId.bound) :
    g.text? = some g.text := by
  rw [text?, h.namedRules?_eq_some hbound]
  show (g.namedRules.mapM fun named => g.writeRule? named.1 named.2) >>= _ = _
  rw [mapM_eq_some_map fun named hnamed =>
    h.writeRule?_eq_some (h.fits_of_mem_namedRules hnamed) named.1]
  rfl

/-! ## The dump -/

/-- An element that mentions a rule is from an alternative, so it has a name to show. -/
theorem flatOperand?_eq_some (h : g.WellFormed) {rule : Rule} (hfits : rule.Fits g.size)
    {element : Element} (helement : element ∈ rule.elements) (raw : RawElement) :
    g.flatOperand? element raw = some (g.flatOperand element raw) := by
  cases element with
  | stop => rfl
  | border => rfl
  | chars set => rfl
  | rule id =>
    obtain ⟨body, hbody, hmem⟩ := Rule.exists_of_mem_elements helement
    have hid : id < g.size := hfits.2 body hbody _ hmem
    rw [flatOperand?, h.name?_eq hid]
    rfl

/-- So each raw element of it can be shown. -/
theorem flatElement?_eq_some (h : g.WellFormed) {rule : Rule} (hfits : rule.Fits g.size)
    {element : Element} (helement : element ∈ rule.elements) :
    g.flatElement? element = some (g.flatElement element) := by
  rw [flatElement?, mapM_eq_some_map (g := fun raw =>
    ' ' :: '[' :: raw.tag.name.toList ++ g.flatOperand element raw ++ [']'])]
  · rfl
  · intro raw hraw
    rw [h.flatOperand?_eq_some hfits helement]
    rfl

/-- The line of a rule has a name in front, and the elements of this rule. -/
theorem flatLine?_eq_some (h : g.WellFormed) (hbound : g.size ≤ RuleId.bound) (hid : id < g.size) :
    g.flatLine? g.flatten id = some ((g.name id).toList ++ [' ', ':', ':', '='] ++
      (g.flatten.rule id).flatMap g.flatElement ++ ['\n']) := by
  obtain ⟨rule, hrule, hflat, helements⟩ := exists_rule?_flatten hid
  have hnumber := RuleId.ofNumber?_eq_some (Nat.lt_of_lt_of_le hid hbound)
  have hmapped : (g.flatten.rule id).mapM g.flatElement? =
      some ((g.flatten.rule id).map g.flatElement) :=
    mapM_eq_some_map fun element helement =>
      h.flatElement?_eq_some (h.rules hrule) (helements ▸ helement)
  simp only [flatLine?, hnumber, hflat, hmapped, h.name?_eq hid, Option.bind_eq_bind,
    Option.bind_some]
  rfl

/-- **A grammar is dumped without a failing check.** -/
theorem flatText?_eq_some (h : g.WellFormed) (hbound : g.size ≤ RuleId.bound) :
    g.flatText? = some g.flatText := by
  rw [flatText?, flatten?_eq_some hbound]
  show ((List.range g.flatten.size).mapM (g.flatLine? g.flatten)).bind _ = _
  rw [mapM_eq_some_map fun id hid =>
    h.flatLine?_eq_some hbound (g.size_flatten ▸ List.mem_range.1 hid)]
  rw [Option.bind_some, flatText, FlatTable.rules]
  have hlines (f : Nat → List Element → List Char) :
      ((List.range g.flatten.size).map g.flatten.rule).mapIdx f =
        (List.range g.flatten.size).map fun id => f id (g.flatten.rule id) := by
    refine List.ext_getElem (by simp) fun id hleft hright => ?_
    simp
  rw [hlines]
  rfl

end WellFormed

/-! ## Equality by names -/

/-- Two mentions are compared by their names, which both have. -/
theorem agrees?_eq_some (ha : a.WellFormed) (hb : b.WellFormed) {x y : Symbol}
    (hx : x.Fits a.size) (hy : y.Fits b.size) :
    Symbol.agrees? a b x y = some (Symbol.agrees a b x y) := by
  cases x with
  | chars s => cases y <;> rfl
  | rule i =>
    cases y with
    | chars s => rfl
    | rule j =>
      rw [Symbol.agrees?, ha.name?_eq hx, hb.name?_eq hy]
      rfl

/-- So alternatives can be compared, symbol by symbol. -/
theorem alternativesAgree?_eq_some (ha : a.WellFormed) (hb : b.WellFormed) {rule other : Rule}
    (hrule : rule.Fits a.size) (hother : other.Fits b.size) :
    alternativesAgree? a b rule.alternatives other.alternatives =
      some (alternativesAgree a b rule.alternatives other.alternatives) :=
  agree?_eq_some_isEqv fun body hbody image himage =>
    agree?_eq_some_isEqv fun x hx y hy =>
      agrees?_eq_some ha hb (hrule.2 body hbody x hx) (hother.2 image himage y hy)

/-- **Grammars are compared without a failing check.** The second one needs no bound: its rules are
    looked up by names and never counted. -/
theorem sameStructure?_eq_some (ha : a.WellFormed) (hb : b.WellFormed)
    (hbound : a.size ≤ RuleId.bound) : a.sameStructure? b = some (a.sameStructure b) := by
  rw [sameStructure?, sameStructure, ha.namedRules?_eq_some hbound, ha.name?_eq ha.root,
    hb.name?_eq hb.root]
  by_cases hsize : a.size = b.size
  · by_cases hroot : a.name a.root = b.name b.root
    · simp only [hsize, hroot, ne_eq, not_true_eq_false, if_false, Option.bind_eq_bind,
        Option.bind_some, decide_true, Bool.true_and]
      refine allM_eq_some_all fun named hnamed => ?_
      cases hother : b.ruleNamed? named.1 with
      | none => rfl
      | some other =>
        obtain ⟨id, -, hid⟩ := Option.bind_eq_some_iff.1 hother
        exact alternativesAgree?_eq_some ha hb (ha.fits_of_mem_namedRules hnamed) (hb.rules hid)
    · simp [hsize, hroot]
  · simp [hsize]

end Grammar

/-! ## Analyses -/

/-- Steps towards a fixed point pass their checks if they do so from all that is good, and lead to
    what is good again. -/
theorem saturate_eq_some {α : Type} [DecidableEq α] {step : α → α} {step? : α → Option α}
    {good : α → Prop} (hstep : ∀ a, good a → step? a = some (step a))
    (hgood : ∀ a, good a → good (step a)) (n : Nat) {a : α} (h : good a) :
    saturate (·.bind step?) n (some a) = some (saturate step n a) := by
  induction n generalizing a with
  | zero => rfl
  | succ n ih =>
    simp only [saturate, Option.bind_some, hstep a h, Option.some_inj]
    split
    · rfl
    · exact ih (hgood a h)

/-- Within the bounds nothing is made up in place of what is missing. -/
theorem getElem?_eq_some_getD {known : Array Bool} {id : Nat} (h : id < known.size) :
    known[id]? = some (known.getD id false) := by
  rw [Array.getD_eq_getD_getElem?, Array.getElem?_eq_getElem h, Option.getD_some]

/-- Whether a symbol vanishes is known for all rules that it may mention. -/
theorem Symbol.vanishes?_eq_some {known : Array Bool} {symbol : Symbol}
    (hfits : symbol.Fits known.size) :
    symbol.vanishes? known = some (symbol.vanishes known) := by
  cases symbol with
  | rule id => exact getElem?_eq_some_getD hfits
  | chars s => rfl

/-- So it is known how far an alternative may be entered. -/
theorem Body.entered?_eq_some {known : Array Bool} {body : Body} (hfits : body.Fits known.size) :
    Body.entered? known body = some (Body.entered known body) := by
  induction body with
  | nil => rfl
  | cons symbol rest ih =>
    rw [Body.Fits, List.forall_mem_cons] at hfits
    cases symbol with
    | chars s => rfl
    | rule id =>
      rw [entered?, entered, getElem?_eq_some_getD hfits.1, ih hfits.2]
      cases known.getD id false <;> rfl

namespace Graph

variable {graph : Graph}

/-- All nodes that follow a node are nodes of the graph. -/
def Closed (graph : Graph) : Prop :=
  ∀ node, ∀ other ∈ graph.next node, other < graph.size

/-- **A search of a closed graph only comes to nodes**, if all that it has still to enter are nodes.
    The cases are those of the search. -/
theorem run?_eq_some (hclosed : graph.Closed) {s : Search} {tasks : List Task}
    (htasks : ∀ node, .enter node ∈ tasks → node < graph.size) :
    graph.run? s tasks = some (graph.run s tasks) := by
  fun_induction Graph.run graph s tasks with
  | case1 s => rw [run?]
  | case2 s tasks ih =>
    rw [run?]
    exact ih fun node hnode => htasks node (List.mem_cons_of_mem _ hnode)
  | case3 s node tasks hpath ih =>
    rw [run?, dif_pos (htasks node List.mem_cons_self), if_pos hpath]
    exact ih fun other hother => htasks other (List.mem_cons_of_mem _ hother)
  | case4 s node tasks hpath hfresh ih =>
    rw [run?, dif_pos hfresh.2, if_neg hpath, dif_pos hfresh.1]
    refine ih fun other hother => ?_
    obtain hnext | hrest : other ∈ graph.next node ∨ .enter other ∈ tasks := by
      simpa using hother
    · exact hclosed node other hnext
    · exact htasks other (List.mem_cons_of_mem _ hrest)
  | case5 s node tasks hpath hfresh ih =>
    have hinside := htasks node List.mem_cons_self
    rw [run?, dif_pos hinside, if_neg hpath, dif_neg fun hnew => hfresh ⟨hnew, hinside⟩]
    exact ih fun other hother => htasks other (List.mem_cons_of_mem _ hother)

/-- A search that starts at nodes has nothing else to enter. -/
theorem search?_eq_some (hclosed : graph.Closed) {nodes : List Nat}
    (hnodes : ∀ node ∈ nodes, node < graph.size) :
    graph.search? nodes = some (graph.search nodes) := by
  refine run?_eq_some hclosed fun node hnode => hnodes node ?_
  obtain ⟨other, hother, hsame⟩ := List.mem_map.1 hnode
  cases hsame
  exact hother

end Graph

namespace Grammar

variable {g : Grammar} {known : Array Bool}

/-- What is made of each named rule, without its name, is made of each rule. -/
theorem toArray_map_namedRules {β : Type} (g : Grammar) (f : Rule → β) :
    (g.namedRules.map fun named => f named.2).toArray = g.rules.map f := by
  refine Array.toList_inj.1 (List.ext_getElem? fun id => ?_)
  rw [List.getElem?_map, getElem?_namedRules, Option.map_map, Array.toList_map, List.getElem?_map,
    Array.getElem?_toList]
  rfl

/-- There is one answer for each rule, as each step towards them keeps their number. -/
@[simp] theorem size_nullable : g.nullable.size = g.size := 
  @saturate_induction _ _ g.nullableStep (fun known => known.size = g.size)
    (fun _ _ => size_nullableStep) g.size _ (by simp)

/-- A graph of rules, each of which is followed by rules that its alternatives mention, is
    closed. -/
theorem WellFormed.closed_map (h : g.WellFormed) {follow : Rule → List RuleId}
    (hfollow : ∀ rule : Rule, rule.Fits g.size → ∀ id ∈ follow rule, id < g.size) :
    Graph.Closed (g.rules.map follow) := by
  intro id other hother
  rw [Graph.next, Array.getD_eq_getD_getElem?, Array.getElem?_map] at hother
  rw [Array.size_map]
  cases hrule : g.rules[id]? with
  | none => simp [hrule] at hother
  | some rule => exact hfollow rule (h.rules hrule) other (by simpa [hrule] using hother)

/-- A rule is entered only through a mention of it, so entering leads to rules of the grammar. -/
theorem WellFormed.entryGraph_closed (h : g.WellFormed) : g.entryGraph.Closed := by
  refine h.closed_map fun rule hrule id hid => ?_
  obtain ⟨body, hbody, hentered⟩ := List.mem_flatMap.1 hid
  obtain ⟨front, back, rfl, -⟩ := Body.mem_entered_iff.1 hentered
  exact hrule.2 _ hbody (.rule id) (by simp)

/-- So does mentioning. -/
theorem WellFormed.mentionGraph_closed (h : g.WellFormed) : g.mentionGraph.Closed := by
  refine h.closed_map fun rule hrule id hid => ?_
  obtain ⟨body, hbody, hmentioned⟩ := mem_mentioned_iff.1 hid
  exact hrule.2 body hbody _ hmentioned

namespace WellFormed

/-- What is made of each rule passes its checks if it does so for all rules that mean something. -/
theorem mapRules?_eq_some (h : g.WellFormed) (hbound : g.size ≤ RuleId.bound) {β : Type}
    {f : Rule → Option β} {f' : Rule → β}
    (hf : ∀ rule : Rule, rule.Fits g.size → f rule = some (f' rule)) :
    g.mapRules? f = some (g.rules.map f') := by
  have hmap : (g.namedRules.mapM fun named => f named.2) =
      some (g.namedRules.map fun named => f' named.2) :=
    mapM_eq_some_map fun named hnamed => hf named.2 (h.fits_of_mem_namedRules hnamed)
  simp only [mapRules?, h.namedRules?_eq_some hbound, Option.bind_eq_bind, Option.bind_some, hmap]
  exact congrArg some (g.toArray_map_namedRules f')

/-- A step asks for the answers of rules that are mentioned, which are there. -/
theorem nullableStep?_eq_some (h : g.WellFormed) (hbound : g.size ≤ RuleId.bound)
    (hknown : known.size = g.size) : g.nullableStep? known = some (g.nullableStep known) := by
  refine h.mapRules?_eq_some hbound fun rule hrule => ?_
  refine anyM_eq_some_any fun body hbody => allM_eq_some_all fun symbol hsymbol => ?_
  exact Symbol.vanishes?_eq_some (hknown ▸ hrule.2 body hbody symbol hsymbol)

/-- So all steps pass their checks, since each keeps the number of answers. -/
theorem nullable?_eq_some (h : g.WellFormed) (hbound : g.size ≤ RuleId.bound) :
    g.nullable? = some g.nullable :=
  @saturate_eq_some _ _ g.nullableStep _ (fun known => known.size = g.size)
    (fun _ => h.nullableStep?_eq_some hbound) (fun _ _ => size_nullableStep) g.size _
    Array.size_replicate

/-- The graph of what is entered is made without a failing check. -/
theorem entryGraph?_eq_some (h : g.WellFormed) (hbound : g.size ≤ RuleId.bound) :
    g.entryGraph? = some g.entryGraph := by
  rw [entryGraph?, h.nullable?_eq_some hbound, Option.bind_eq_bind, Option.bind_some]
  refine h.mapRules?_eq_some hbound fun rule hrule => ?_
  rw [mapM_eq_some_map fun body hbody =>
    Body.entered?_eq_some (g.size_nullable.symm ▸ hrule.2 body hbody)]
  rfl

/-- **Left recursion is looked for without a failing check.** -/
theorem leftRecursive?_eq_some (h : g.WellFormed) (hbound : g.size ≤ RuleId.bound) :
    g.leftRecursive? = some g.leftRecursive := by
  rw [leftRecursive?, h.entryGraph?_eq_some hbound, ids?_eq_some hbound]
  show (g.entryGraph.search? g.ids).bind _ = _
  rw [Graph.search?_eq_some h.entryGraph_closed fun id hid => ?_]
  · rfl
  · rw [entryGraph, Array.size_map]
    exact List.mem_range.1 hid

/-- **Rules that cannot be reached are looked for without a failing check.** The search starts at
    the root, which is a rule. -/
theorem unreachable?_eq_some (h : g.WellFormed) (hbound : g.size ≤ RuleId.bound) :
    g.unreachable? = some g.unreachable := by
  rw [unreachable?, ids?_eq_some hbound,
    Graph.search?_eq_some h.mentionGraph_closed fun id hid => ?_]
  · rfl
  · rw [mentionGraph, Array.size_map, List.mem_singleton.1 hid]
    exact h.root

end WellFormed

/-! ## Grammars of texts -/

/-- **All that a grammar mentions is there**, and it has a form that can be written. -/
structure Closed (g : Grammar) : Prop where
  /-- There are as many names as rules. -/
  size_symbols : g.symbols.size = g.size
  /-- Every identity has a name, and is the one that is found by it. -/
  find?_name : ∀ id < g.size, ∃ name, g.symbols.name? id = some name ∧ g.find? name = some id
  root_lt : g.root < g.size
  alternatives_ne_nil : ∀ {id : Nat} {rule : Rule}, g.rule? id = some rule → rule.alternatives ≠ []
  mention_lt : ∀ {id : Nat} {rule : Rule}, g.rule? id = some rule → ∀ body ∈ rule.alternatives,
    ∀ other : Nat, .rule other ∈ body → other < g.size
  /-- A set is that of all characters, or has ranges whose ends are in order. -/
  set_valid : ∀ {id : Nat} {rule : Rule}, g.rule? id = some rule → ∀ body ∈ rule.alternatives,
    ∀ set, .chars set ∈ body →
      set = .any ∨ set.ranges ≠ [] ∧ ∀ range ∈ set.ranges, range.start ≤ range.stop

/-- **The functions on a grammar pass all checks**: with checks they give what they give without. -/
structure Checks (g : Grammar) : Prop where
  text : g.text? = some g.text
  flatText : g.flatText? = some g.flatText
  flatten : g.flatten? = some g.flatten
  bodies : ∀ id < g.size, g.flatten.bodies? id = some (g.flatten.bodies id)
  encode : g.encode? = some g.encode
  /-- The other grammar is that of some text as well. -/
  sameStructure : ∀ {source : String} {options : ParseOptions} {other : Grammar},
    parse source options = .ok other → g.sameStructure? other = some (g.sameStructure other)
  leftRecursive : g.leftRecursive? = some g.leftRecursive
  unreachable : g.unreachable? = some g.unreachable

/-- What fits together is closed. -/
theorem WellFormed.closed (h : g.WellFormed) : g.Closed where
  size_symbols := h.size_symbols
  find?_name id hid := ⟨g.name id, h.name?_eq hid, h.find?_name hid⟩
  root_lt := h.root
  alternatives_ne_nil hrule := (h.rules hrule).1
  mention_lt hrule body hbody other hother := (h.rules hrule).2 body hbody (.rule other) hother
  set_valid hrule body hbody set hset :=
    ((h.rules hrule).2 body hbody (.chars set) hset).imp_left CharSet.eq_any

/-- What fits together passes the checks of all functions on grammars, if its identities can be
    counted. -/
theorem WellFormed.checks (h : g.WellFormed) (hbound : g.size ≤ RuleId.bound) : g.Checks where
  text := h.text?_eq_some hbound
  flatText := h.flatText?_eq_some hbound
  flatten := flatten?_eq_some hbound
  bodies _ := bodies?_flatten
  encode := encode?_eq_some hbound
  sameStructure hother := sameStructure?_eq_some h (Tree.wellFormed_of_parse hother) hbound
  leftRecursive := h.leftRecursive?_eq_some hbound
  unreachable := h.unreachable?_eq_some hbound

/-- **The grammar of a text is closed, and passes all checks**, if it has no more rules than there
    are identities. -/
theorem closed_of_parse {source : String} {options : ParseOptions}
    (h : parse source options = .ok g) (hbound : g.size < RuleId.bound) : g.Closed ∧ g.Checks := by
  have hwell := Tree.wellFormed_of_parse h
  exact ⟨hwell.closed, hwell.checks (Nat.le_of_lt hbound)⟩

/-- A grammar with helpers of each kind, negated and empty sets, and rules that are used before they
    are defined. -/
theorem closed_of_parse_with_helpers :
    ∃ g, parse "r ::= (s | [^a-c])* t? .\nt ::= \"x\"{1,3}\ns ::= \"\" t\n" = .ok g ∧
      g.size < RuleId.bound ∧ g.Closed ∧ g.Checks := by
  obtain ⟨g, hparse, hsize⟩ := @exists_parse_of_any {}
    "r ::= (s | [^a-c])* t? .\nt ::= \"x\"{1,3}\ns ::= \"\" t\n" (fun g => g.size < RuleId.bound)
    (by decide +kernel)
  have hbound : g.size < RuleId.bound := of_decide_eq_true hsize
  exact ⟨g, hparse, hbound, closed_of_parse hparse hbound⟩

end Grammar

end Bnf
