import Bnf.Grammar.Analysis
import Bnf.Proofs.Search
import Bnf.Proofs.WellFormed

/-!
# Unreachable rules

A search only enters nodes that it has started at or that follow a node it has entered, and it is
done in the end with all that follow a node it is done with. So it is done with just the nodes that
can be reached. In the graph of mentions these are the rules that derivations come to: a derivation
puts alternatives in the place of rules, so it mentions a rule if a walk of mentions leads there.

## Main definitions

- `Search.Within` — a search knows only nodes with some property
- `Grammar.Mentions` — a rule stands in an alternative of another
- `Grammar.Rewrites` — one step of a derivation

## Main results

- `Graph.mem_finished_search_iff` — a search is done with the nodes that can be reached
- `Grammar.mentions_iff_derives` — walks of mentions and derivations come to the same rules
- `Grammar.unreachable_exact` — the unreachable rules are those to which no walk leads
-/

namespace Bnf

open Relation

/-! ## What a search comes to -/

namespace Search

variable {g : Graph} {s : Search} {tasks : List Task} {node : Nat} {p : Nat → Prop}

/-- A search knows only nodes with a property, or will look at them, and it is still busy or done
    with the nodes that it has met again. -/
structure Within (g : Graph) (p : Nat → Prop) (s : Search) (tasks : List Task) : Prop where
  path : ∀ node ∈ s.path, p node
  finished : ∀ node ∈ s.finished, p node
  closing : ∀ node ∈ s.closing, node ∈ s.path ∨ node ∈ s.finished
  awaited : ∀ node, .enter node ∈ tasks → node < g.size → p node

namespace Within

/-- What is left was entered before. -/
theorem leave (h : Within g p s (.leave :: tasks)) : Within g p s.leave tasks := by
  obtain ⟨hpath, hfinished, hclosing, hawaited⟩ := h
  have hrest (node : Nat) (hnode : .enter node ∈ tasks) : node < g.size → p node :=
    hawaited node (List.mem_cons_of_mem _ hnode)
  cases hs : s.path with
  | nil =>
    rw [Search.leave, hs]
    exact ⟨hpath, hfinished, hclosing, hrest⟩
  | cons last rest =>
    rw [leave_eq hs]
    rw [hs, List.forall_mem_cons] at hpath
    refine ⟨hpath.2, List.forall_mem_cons.2 ⟨hpath.1, hfinished⟩, fun node hnode => ?_, hrest⟩
    have hseen := hclosing node hnode
    simp only [hs, List.mem_cons] at hseen ⊢
    tauto

/-- To close a cycle is to come to a node that was entered. -/
theorem close (hmem : node ∈ s.path) (h : Within g p s (.enter node :: tasks)) :
    Within g p (s.close node) tasks := by
  refine ⟨by rw [path_close]; exact h.path, by rw [finished_close]; exact h.finished,
    fun other hother => ?_, fun other hother => h.awaited other (List.mem_cons_of_mem _ hother)⟩
  rw [path_close, finished_close]
  obtain rfl | hclosing := mem_closing_close.1 hother
  · exact .inl hmem
  · exact h.closing other hclosing

/-- A node with the property is followed by nodes that have it. -/
theorem enter (hstep : ∀ {a b : Nat}, p a → g.Edge a b → p b) (hlt : node < g.size)
    (h : Within g p s (.enter node :: tasks)) :
    Within g p (s.enter node) ((g.next node).map .enter ++ .leave :: tasks) := by
  have hnode : p node := h.awaited node List.mem_cons_self hlt
  refine ⟨List.forall_mem_cons.2 ⟨hnode, h.path⟩, h.finished, fun other hother => ?_,
    fun other hother hinside => ?_⟩
  · exact (h.closing other hother).imp_left (List.mem_cons_of_mem _)
  · obtain hnext | hrest : other ∈ g.next node ∨ .enter other ∈ tasks := by
      simpa using hother
    · exact hstep hnode ⟨hnext, hinside⟩
    · exact h.awaited other (List.mem_cons_of_mem _ hrest) hinside

/-- **A search stays within a property** that is kept along the edges, in whatever state it comes
    to. -/
theorem run (hstep : ∀ {a b : Nat}, p a → g.Edge a b → p b) (h : Within g p s tasks) :
    Within g p (g.run s tasks) [] :=
  @Graph.run_induction g (Within g p) leave close (fun _ _ => enter hstep)
    (fun _ h => ⟨h.path, h.finished, h.closing,
      fun node hnode => h.awaited node (List.mem_cons_of_mem _ hnode)⟩) _ _ h

end Within

end Search

namespace Graph

variable {g : Graph} {starts : List Nat} {node : Nat}

/-- **A search is done with the nodes that can be reached** from where it has started. -/
theorem mem_finished_search_iff : node ∈ (g.search starts).finished ↔
    ∃ start ∈ starts, start < g.size ∧ ReflTransGen g.Edge start node := by
  have hwithin : (g.search starts).Within g
      (fun node => ∃ start ∈ starts, start < g.size ∧ ReflTransGen g.Edge start node) [] := by
    refine Search.Within.run ?_ ⟨by simp [Search.start], by simp [Search.start],
      by simp [Search.start], fun node hnode hlt => ?_⟩
    · rintro a b ⟨start, hstart, hlt, hwalk⟩ hedge
      exact ⟨start, hstart, hlt, hwalk.tail hedge⟩
    · obtain ⟨start, hstart, hsame⟩ := List.mem_map.1 hnode
      cases hsame
      exact ⟨node, hstart, hlt, .refl⟩
  refine ⟨hwithin.finished node, ?_⟩
  rintro ⟨start, hstart, hlt, hwalk⟩
  have hcomplete := g.search_complete starts
  have hpath : (g.search starts).path = [] := (g.search_chained starts).awaits
  induction hwalk with
  | refl => simpa [hpath] using hcomplete.seen start hstart hlt
  | @tail before node _ hedge ih =>
    -- The node is done with before the one in front of it, unless it was met again.
    by_cases hmet : node ∈ (g.search starts).closing
    · simpa [hpath] using hwithin.closing node hmet
    · exact hcomplete.ordered.mem_of_edge ih hedge hmet

end Graph

/-! ## Mentions -/

theorem Symbol.rule?_eq_some_iff {symbol : Symbol} {id : RuleId} :
    symbol.rule? = some id ↔ symbol = .rule id := by
  cases symbol <;> simp [Symbol.rule?]

/-- A rule is mentioned where it is a symbol of an alternative. -/
theorem mem_mentioned_iff {bodies : List Body} {id : RuleId} :
    (id ∈ bodies.flatMap fun body => body.filterMap Symbol.rule?) ↔
      ∃ body ∈ bodies, .rule id ∈ body := by
  simp only [List.mem_flatMap, List.mem_filterMap, Symbol.rule?_eq_some_iff, exists_eq_right]

namespace Grammar

variable {g : Grammar} {id other : Nat}

/-- **A rule mentions another**: it stands in one of its alternatives. -/
def Mentions (g : Grammar) (id other : RuleId) : Prop :=
  ∃ body ∈ g.alternatives id, .rule other ∈ body

/-- Only rules mention anything. -/
theorem Mentions.lt (h : g.Mentions id other) : id < g.size := by
  obtain ⟨body, hbody, -⟩ := h
  obtain ⟨rule, hrule, -⟩ := mem_alternatives_iff.1 hbody
  exact lt_of_rule? hrule

@[simp] theorem size_mentionGraph (g : Grammar) : g.mentionGraph.size = g.size := by
  rw [mentionGraph, Array.size_map, size]

theorem mem_next_mentionGraph_iff : other ∈ g.mentionGraph.next id ↔ g.Mentions id other := by
  rw [Mentions, ← mem_mentioned_iff, alternatives, Graph.next, Array.getD_eq_getD_getElem?,
    mentionGraph, Array.getElem?_map]
  show other ∈ (Option.map _ (g.rule? id)).getD [] ↔ _
  cases g.rule? id <;> rfl

/-- The edges of the graph are the mentions of rules that are there. -/
theorem mentionGraph_edge_iff :
    g.mentionGraph.Edge id other ↔ g.Mentions id other ∧ other < g.size := by
  rw [Graph.Edge, mem_next_mentionGraph_iff, size_mentionGraph]

/-- A walk of mentions that ends at a rule is one of the graph. -/
theorem reflTransGen_edge_iff (hother : other < g.size) :
    ReflTransGen g.mentionGraph.Edge id other ↔ ReflTransGen g.Mentions id other := by
  constructor
  · exact ReflTransGen.mono (fun _ _ hedge => (mentionGraph_edge_iff.1 hedge).1) _ _
  · intro hwalk
    induction hwalk with
    | refl => exact .refl
    | tail _ hstep ih => exact (ih hstep.lt).tail (mentionGraph_edge_iff.2 ⟨hstep, hother⟩)

/-- **The unreachable rules are those to which no mentions lead** from the root. -/
theorem mem_unreachable_iff :
    id ∈ g.unreachable ↔ id < g.size ∧ ¬ ReflTransGen g.Mentions g.root id := by
  rw [unreachable, List.mem_filter, ids, List.mem_range, Bool.not_eq_true', List.contains_eq_mem,
    decide_eq_false_iff_not, Graph.mem_finished_search_iff]
  refine and_congr_right fun hid => not_congr ?_
  simp only [List.mem_singleton, exists_eq_left, size_mentionGraph, reflTransGen_edge_iff hid]
  refine and_iff_right_of_imp fun hwalk => ?_
  -- Without a rule the root mentions nothing, and no walk leads from it to a rule.
  obtain rfl | ⟨next, hstep, -⟩ := hwalk.cases_head
  · exact hid
  · exact hstep.lt

/-- They are listed in the order of their identities. -/
theorem pairwise_unreachable (g : Grammar) : g.unreachable.Pairwise (· < ·) :=
  List.pairwise_lt_range.filter _

/-! ## Derivations -/

/-- **One step of a derivation**: an alternative is put in the place of its rule. -/
inductive Rewrites (g : Grammar) : Body → Body → Prop
  | replace (front back : Body) {body : Body} {id : RuleId} : body ∈ g.alternatives id →
      Rewrites g (front ++ .rule id :: back) (front ++ body ++ back)

/-- **Walks of mentions and derivations come to the same rules.** -/
theorem mentions_iff_derives : ReflTransGen g.Mentions id other ↔
    ∃ form, ReflTransGen g.Rewrites [.rule id] form ∧ .rule other ∈ form := by
  constructor
  · intro hwalk
    induction hwalk with
    | refl => exact ⟨_, .refl, List.mem_singleton_self _⟩
    | @tail before other _ hstep ih =>
      obtain ⟨form, hderives, hmem⟩ := ih
      obtain ⟨body, hbody, hother⟩ := hstep
      obtain ⟨front, back, rfl⟩ := List.append_of_mem hmem
      exact ⟨_, hderives.tail (.replace front back hbody), by simp [hother]⟩
  · rintro ⟨form, hderives, hmem⟩
    induction hderives generalizing other with
    | refl =>
      cases List.mem_singleton.1 hmem
      exact .refl
    | tail _ hstep ih =>
      obtain ⟨front, back, hbody⟩ := hstep
      rw [List.append_assoc, List.mem_append, List.mem_append] at hmem
      obtain hfront | hnew | hback := hmem
      · exact ih (List.mem_append_left _ hfront)
      · exact (ih (by simp)).tail ⟨_, hbody, hnew⟩
      · exact ih (List.mem_append_right _ (List.mem_cons_of_mem _ hback))

/-- **The unreachable rules** are named in the order of their identities, each once. They are those
    to which no walk of mentions leads from the root, which is to say those that no derivation from
    the root mentions. -/
theorem unreachable_exact (g : Grammar) :
    g.unreachable.Pairwise (· < ·) ∧
      (∀ id : RuleId, id ∈ g.unreachable ↔ id < g.size ∧ ¬ ReflTransGen g.Mentions g.root id) ∧
      ∀ id : RuleId, id ∈ g.unreachable ↔ id < g.size ∧
        ∀ form, ReflTransGen g.Rewrites [.rule g.root] form → .rule id ∉ form := by
  refine ⟨g.pairwise_unreachable, fun id => mem_unreachable_iff, fun id => ?_⟩
  rw [mem_unreachable_iff, mentions_iff_derives]
  push Not
  rfl

end Grammar

end Bnf
