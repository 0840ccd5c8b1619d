import Mathlib.Logic.Relation
import Mathlib.Data.List.Chain
import Bnf.Graph

/-!
# Depth-first search finds the cycles

The nodes on the path of a search follow one another, and so do the nodes that it is about to enter
follow the last one. So a node that is met again closes a cycle. On the other hand a search is done
with a node only after it is done with all nodes that follow, except for those that were met again.
So a cycle without such a node would have to be finished in a circle.

## Main definitions

- `Graph.Edge` — one node of a graph follows another
- `Search.Awaits` — the tasks of a search go on from the nodes of its path
- `Search.Covers` — a node is left only after all that follow it

## Main results

- `Graph.run_induction` — what every step of a search keeps, the search keeps
- `Graph.cycle_of_mem_closing` — a node that was met again lies on a cycle
- `Graph.acyclic_of_not_mem_closing` — every cycle has a node that was met again
- `Graph.closing_search_eq_nil_iff` — no node is met again if there are no cycles
-/

namespace Bnf

open Relation

namespace Graph

/-- A node of a graph follows another. -/
def Edge (g : Graph) (a b : Nat) : Prop :=
  b ∈ g.next a ∧ b < g.size

/-- **What every step of a search keeps, the search keeps.** -/
theorem run_induction {g : Graph} {motive : Search → List Task → Prop}
    (leave : ∀ {s tasks}, motive s (.leave :: tasks) → motive s.leave tasks)
    (close : ∀ {s node tasks}, node ∈ s.path → motive s (.enter node :: tasks) →
      motive (s.close node) tasks)
    (enter : ∀ {s node tasks}, node ∉ s.path → node ∉ s.finished → node < g.size →
      motive s (.enter node :: tasks) →
        motive (s.enter node) ((g.next node).map .enter ++ .leave :: tasks))
    (skip : ∀ {s node tasks}, (node < g.size → node ∈ s.finished) →
      motive s (.enter node :: tasks) → motive s tasks)
    {s : Search} {tasks : List Task} (h : motive s tasks) : motive (g.run s tasks) [] := by
  fun_induction Graph.run g s tasks with
  | case1 s => exact h
  | case2 s tasks ih => exact ih (leave h)
  | case3 s node tasks hpath ih => exact ih (close hpath h)
  | case4 s node tasks hpath hfresh ih => exact ih (enter hpath hfresh.1 hfresh.2 h)
  | case5 s node tasks hpath hfresh ih =>
    refine ih (skip (fun hinside => ?_) h)
    by_contra hnew
    exact hfresh ⟨hnew, hinside⟩

end Graph

namespace Search

variable {g : Graph} {s : Search} {tasks : List Task} {path : List Nat} {node : Nat}

@[simp] theorem path_close : (s.close node).path = s.path := by
  rw [close]
  split <;> rfl

@[simp] theorem finished_close : (s.close node).finished = s.finished := by
  rw [close]
  split <;> rfl

theorem mem_closing_close {other : Nat} :
    other ∈ (s.close node).closing ↔ other = node ∨ other ∈ s.closing := by
  rw [close]
  split
  · next hmem =>
    constructor
    · exact .inr
    · rintro (rfl | hother)
      · exact hmem
      · exact hother
  · rw [List.mem_append, List.mem_singleton, or_comm]

theorem leave_eq {rest : List Nat} (h : s.path = node :: rest) :
    s.leave = ⟨rest, node :: s.finished, s.closing⟩ := by
  rw [leave, h]

/-! ## Cycles are found -/

/-- The tasks of a search go on from the nodes of its path: the nodes to be entered follow the last
    one, until this is left. -/
def Awaits (g : Graph) : (path : List Nat) → List Task → Prop
  | path, [] => path = []
  | path, .enter node :: tasks => (∀ top ∈ path.head?, node ∈ g.next top) ∧ Awaits g path tasks
  | [], .leave :: _ => False
  | _ :: path, .leave :: tasks => Awaits g path tasks

/-- The nodes that follow the top of the path await it, and so does what was awaited before. -/
theorem awaits_append {nodes : List Nat} : Awaits g path (nodes.map .enter ++ tasks) ↔
    (∀ node ∈ nodes, ∀ top ∈ path.head?, node ∈ g.next top) ∧ Awaits g path tasks := by
  induction nodes with
  | nil => simp
  | cons node nodes ih =>
    rw [List.map_cons, List.cons_append, Awaits, ih, List.forall_mem_cons, and_assoc]

/-- The path of a search is one, and the nodes that were met again lie on cycles. -/
structure Chained (g : Graph) (s : Search) (tasks : List Task) : Prop where
  awaits : Awaits g s.path tasks
  chain : s.path.IsChain fun later earlier => g.Edge earlier later
  inside : ∀ node ∈ s.path, node < g.size
  cycles : ∀ node ∈ s.closing, TransGen g.Edge node node

/-- Each node on the path leads to the top of it. -/
theorem reflTransGen_of_chain {top : Nat} {rest : List Nat}
    (h : (top :: rest).IsChain fun later earlier => g.Edge earlier later)
    (hnode : node ∈ top :: rest) : ReflTransGen g.Edge node top := by
  induction rest generalizing top with
  | nil =>
    rw [List.mem_singleton.1 hnode]
  | cons next rest ih =>
    rw [List.isChain_cons_cons] at h
    obtain rfl | hmem := List.mem_cons.1 hnode
    · exact .refl
    · exact (ih h.2 hmem).tail h.1

namespace Chained

/-- When a node is left, the path is that to the node before. -/
theorem leave (h : Chained g s (.leave :: tasks)) : Chained g s.leave tasks := by
  obtain ⟨hawaits, hchain, hinside, hcycles⟩ := h
  cases hpath : s.path with
  | nil =>
    rw [hpath] at hawaits
    exact hawaits.elim
  | cons node rest =>
    rw [hpath] at hawaits hchain hinside
    rw [leave_eq hpath]
    exact ⟨hawaits, hchain.tail, (List.forall_mem_cons.1 hinside).2, hcycles⟩

/-- A node on the path that is met again closes a cycle, which goes along the path. -/
theorem close (hmem : node ∈ s.path) (h : Chained g s (.enter node :: tasks)) :
    Chained g (s.close node) tasks := by
  obtain ⟨⟨hfollows, hawaits⟩, hchain, hinside, hcycles⟩ := h
  refine ⟨by rwa [path_close], by rwa [path_close], by rwa [path_close], fun other hother => ?_⟩
  obtain rfl | hclosed := mem_closing_close.1 hother
  · -- The last node of the path is reached from the node, and the node follows it.
    have hlt := hinside other hmem
    cases hpath : s.path with
    | nil => simp [hpath] at hmem
    | cons top rest =>
      rw [hpath] at hmem hchain hfollows
      have hreach := reflTransGen_of_chain hchain hmem
      exact TransGen.tail' hreach ⟨hfollows top rfl, hlt⟩
  · exact hcycles other hclosed

/-- A node that is entered is the top of the path, and awaits those that follow it. -/
theorem enter (hlt : node < g.size) (h : Chained g s (.enter node :: tasks)) :
    Chained g (s.enter node) ((g.next node).map .enter ++ .leave :: tasks) := by
  obtain ⟨⟨hfollows, hawaits⟩, hchain, hinside, hcycles⟩ := h
  refine ⟨awaits_append.2 ⟨fun other hother top htop => ?_, hawaits⟩, ?_, ?_, hcycles⟩
  · cases htop
    exact hother
  · exact List.isChain_cons.2 ⟨fun top htop => ⟨hfollows top htop, hlt⟩, hchain⟩
  · exact List.forall_mem_cons.2 ⟨hlt, hinside⟩

/-- **The nodes that were met again lie on cycles**, in whatever state a search comes to. -/
theorem run (h : Chained g s tasks) : Chained g (g.run s tasks) [] :=
  @Graph.run_induction g (Chained g) leave close (fun _ _ => enter)
    (fun _ h => ⟨h.awaits.2, h.chain, h.inside, h.cycles⟩) _ _ h

end Chained

/-! ## All cycles are found -/

/-- A node is left only after all that follow it are known: those that `known` holds of, and those
    that the tasks before are about. -/
def Covers (g : Graph) : (known : Nat → Prop) → (path : List Nat) → List Task → Prop
  | _, path, [] => path = []
  | known, path, .enter node :: tasks =>
    Covers g (fun other => known other ∨ other = node) path tasks
  | _, [], .leave :: _ => False
  | known, node :: path, .leave :: tasks =>
    (∀ other, g.Edge node other → known other) ∧
      Covers g (fun other => known other ∨ other = node) path tasks

/-- What is covered stays so if more is known. -/
theorem Covers.mono {known known' : Nat → Prop} (h : Covers g known path tasks)
    (hle : ∀ node < g.size, known node → known' node) : Covers g known' path tasks := by
  have hstep (node : Nat) : ∀ other < g.size, known other ∨ other = node →
      known' other ∨ other = node := fun other hinside => Or.imp_left (hle other hinside)
  induction tasks generalizing known known' path with
  | nil => exact h
  | cons task tasks ih =>
    cases task with
    | enter node =>
      exact ih h (hstep node) fun _ other hinside => Or.imp_left (hstep node other hinside)
    | leave =>
      cases path with
      | nil => exact h
      | cons node path =>
        refine ⟨fun other hedge => hle other hedge.2 (h.1 other hedge), ?_⟩
        exact ih h.2 (hstep node) fun _ other hinside => Or.imp_left (hstep node other hinside)

/-- Nodes that are still to be entered count as known. -/
theorem covers_append {known : Nat → Prop} {nodes : List Nat}
    (h : Covers g (fun other => known other ∨ other ∈ nodes) path tasks) :
    Covers g known path (nodes.map .enter ++ tasks) := by
  induction nodes generalizing known with
  | nil => exact h.mono fun node _ hnode => by simpa using hnode
  | cons node nodes ih =>
    refine ih (h.mono fun other _ hother => ?_)
    rw [List.mem_cons] at hother
    tauto

/-- In a list of nodes each comes before all that follow it in the graph, except for those in
    `closing`. -/
def Ordered (g : Graph) (closing : List Nat) : List Nat → Prop
  | [] => True
  | node :: rest => (∀ other, g.Edge node other → other ∈ rest ∨ other ∈ closing) ∧
    Ordered g closing rest

/-- More nodes that close cycles do no harm to an order. -/
theorem Ordered.mono {closing closing' nodes : List Nat} (h : Ordered g closing nodes)
    (hsubset : closing ⊆ closing') : Ordered g closing' nodes := by
  induction nodes with
  | nil => trivial
  | cons node nodes ih =>
    exact ⟨fun other hedge => (h.1 other hedge).imp_right (@hsubset other), ih h.2⟩

/-- The search is done with nodes in order, and has not forgotten any. -/
structure Complete (g : Graph) (starts : List Nat) (s : Search) (tasks : List Task) : Prop where
  covers : Covers g (fun node => node ∈ s.finished ∨ node ∈ s.closing) s.path tasks
  ordered : Ordered g s.closing s.finished
  seen : ∀ node ∈ starts, node < g.size →
    node ∈ s.finished ∨ node ∈ s.path ∨ .enter node ∈ tasks

namespace Complete

variable {starts : List Nat}

/-- A node that is left is done with: all that follows it is covered. -/
theorem leave (h : Complete g starts s (.leave :: tasks)) : Complete g starts s.leave tasks := by
  obtain ⟨hcovers, hordered, hseen⟩ := h
  cases hpath : s.path with
  | nil =>
    rw [hpath] at hcovers
    exact hcovers.elim
  | cons node rest =>
    rw [hpath] at hcovers hseen
    rw [leave_eq hpath]
    refine ⟨hcovers.2.mono fun other _ hother => ?_, ⟨hcovers.1, hordered⟩,
      fun other hmem hlt => ?_⟩
    · rw [List.mem_cons]
      tauto
    · have hbefore := hseen other hmem hlt
      simp only [List.mem_cons, reduceCtorEq, false_or] at hbefore ⊢
      tauto

/-- A node that is known needs no task. -/
theorem drop (hknown : node < g.size → node ∈ s.finished ∨ node ∈ s.path)
    (h : Complete g starts s (.enter node :: tasks)) :
    ∀ other ∈ starts, other < g.size →
      other ∈ s.finished ∨ other ∈ s.path ∨ .enter other ∈ tasks := by
  intro other hstart hlt
  obtain hfinished | hpath | htask := h.seen other hstart hlt
  · exact .inl hfinished
  · exact .inr (.inl hpath)
  · obtain hsame | htask := List.mem_cons.1 htask
    · cases hsame
      exact (hknown hlt).imp_right .inl
    · exact .inr (.inr htask)

/-- A node that is on the path is covered, and now closes a cycle. -/
theorem close (hmem : node ∈ s.path) (h : Complete g starts s (.enter node :: tasks)) :
    Complete g starts (s.close node) tasks := by
  refine ⟨?_, ?_, ?_⟩
  · rw [path_close]
    refine Covers.mono h.covers fun other _ hother => ?_
    rw [finished_close, mem_closing_close]
    tauto
  · rw [finished_close]
    exact h.ordered.mono fun other hother => mem_closing_close.2 (.inr hother)
  · rw [path_close, finished_close]
    exact h.drop fun _ => .inr hmem

/-- A node that is entered is covered, and so will be those that follow it. -/
theorem enter (h : Complete g starts s (.enter node :: tasks)) :
    Complete g starts (s.enter node) ((g.next node).map .enter ++ .leave :: tasks) := by
  refine ⟨covers_append ⟨fun other hedge => .inr hedge.1, ?_⟩, h.ordered,
    fun other hstart hlt => ?_⟩
  · -- What was to be known before the node was entered is known when it is left.
    exact Covers.mono h.covers fun other _ => Or.imp_left .inl
  · have hbefore := h.seen other hstart hlt
    simp only [Search.enter, List.mem_cons, Task.enter.injEq, List.mem_append, reduceCtorEq,
      false_or] at hbefore ⊢
    tauto

/-- So a task for it can be passed over. -/
theorem skip (hknown : node < g.size → node ∈ s.finished)
    (h : Complete g starts s (.enter node :: tasks)) : Complete g starts s tasks := by
  refine ⟨Covers.mono h.covers fun other hlt hother => ?_, h.ordered, h.drop fun hlt => ?_⟩
  · obtain hbefore | rfl := hother
    · exact hbefore
    · exact .inl (hknown hlt)
  · exact .inl (hknown hlt)

/-- **A search is done with nodes in order**, in whatever state it comes to. -/
theorem run (h : Complete g starts s tasks) : Complete g starts (g.run s tasks) [] :=
  @Graph.run_induction g (Complete g starts) leave close (fun _ _ _ => enter) skip _ _ h

end Complete

/-- In an order an edge leads on within it, unless it leads to a node that closes a cycle. -/
theorem Ordered.mem_of_edge {closing nodes : List Nat} (h : Ordered g closing nodes) {a b : Nat}
    (ha : a ∈ nodes) (hedge : g.Edge a b) (hb : b ∉ closing) : b ∈ nodes := by
  induction nodes with
  | nil => simp at ha
  | cons node nodes ih =>
    obtain rfl | hmem := List.mem_cons.1 ha
    · exact List.mem_cons_of_mem _ ((h.1 b hedge).resolve_right hb)
    · exact List.mem_cons_of_mem _ (ih h.2 hmem)

/-- A walk from nodes in order stays there, if it does not enter a node of `closing`. -/
theorem Ordered.mem_of_walk {closing nodes : List Nat} (h : Ordered g closing nodes) {a b : Nat}
    (ha : a ∈ nodes) (hwalk : ReflTransGen (fun a b => g.Edge a b ∧ b ∉ closing) a b) :
    b ∈ nodes := by
  induction hwalk with
  | refl => exact ha
  | tail _ hedge ih => exact h.mem_of_edge ih hedge.1 hedge.2

/-- **An order has no cycle** but through nodes that close one. Along a cycle each node would come
    before itself. -/
theorem Ordered.acyclic {closing nodes : List Nat} (h : Ordered g closing nodes)
    (hnode : node ∈ nodes) : ¬ TransGen (fun a b => g.Edge a b ∧ b ∉ closing) node node := by
  induction nodes with
  | nil => simp at hnode
  | cons first rest ih =>
    by_cases hrest : node ∈ rest
    · exact ih h.2 hrest
    · obtain rfl : node = first := (List.mem_cons.1 hnode).resolve_right hrest
      intro hcycle
      obtain ⟨next, hnext, hback⟩ := TransGen.head'_iff.1 hcycle
      -- A cycle through the first node goes on behind it, and cannot come back.
      have hstart : next ∈ rest := (h.1 next hnext.1).resolve_right hnext.2
      exact hrest (h.2.mem_of_walk hstart hback)

end Search

namespace Graph

variable {g : Graph} {node : Nat}

/-- **All that a search says to be on a cycle is so.** -/
theorem search_chained (g : Graph) (starts : List Nat) : (g.search starts).Chained g [] := by
  have hstart : Search.Chained g .start (starts.map .enter) := by
    refine ⟨?_, .nil, by simp [Search.start], by simp [Search.start]⟩
    have hawaits := @Search.awaits_append g [] [] starts
    rw [List.append_nil] at hawaits
    exact hawaits.2 ⟨by simp, rfl⟩
  exact hstart.run

/-- **A search leaves nothing out**: it is done with all that it reaches, in an order. -/
theorem search_complete (g : Graph) (starts : List Nat) :
    (g.search starts).Complete g starts [] := by
  have hstart : Search.Complete g starts .start (starts.map .enter) := by
    refine ⟨?_, trivial, fun node hnode _ => .inr (.inr (List.mem_map_of_mem hnode))⟩
    rw [← List.append_nil (starts.map Task.enter)]
    exact Search.covers_append rfl
  exact hstart.run

/-- **A node that was met again lies on a cycle.** -/
theorem cycle_of_mem_closing {starts : List Nat} (h : node ∈ (g.search starts).closing) :
    TransGen g.Edge node node :=
  (g.search_chained starts).cycles node h

/-- **Every cycle has a node that was met again**, if the search starts at all nodes. -/
theorem acyclic_of_not_mem_closing (g : Graph) (node : Nat) :
    ¬ TransGen (fun a b => g.Edge a b ∧ b ∉ (g.search (List.range g.size)).closing) node node := by
  intro hcycle
  have hcomplete := g.search_complete (List.range g.size)
  have hpath : (g.search (List.range g.size)).path = [] :=
    (g.search_chained (List.range g.size)).awaits
  obtain ⟨before, -, hlast⟩ := TransGen.tail'_iff.1 hcycle
  -- The node is on a cycle, so it is one of the graph, where the search has started.
  have hseen := hcomplete.seen node (List.mem_range.2 hlast.1.2) hlast.1.2
  rw [hpath] at hseen
  have hfinished : node ∈ (g.search (List.range g.size)).finished := by simpa using hseen
  exact hcomplete.ordered.acyclic hfinished hcycle

/-- **No node is met again if there are no cycles.** -/
theorem closing_search_eq_nil_iff (g : Graph) :
    (g.search (List.range g.size)).closing = [] ↔ ∀ node, ¬ TransGen g.Edge node node := by
  constructor
  · intro h node
    simpa [h] using g.acyclic_of_not_mem_closing node
  · intro h
    exact List.eq_nil_iff_forall_not_mem.2 fun node hnode => h node (cycle_of_mem_closing hnode)

end Graph

end Bnf
