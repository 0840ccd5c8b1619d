/-!
# Depth-first search

A search of a finite directed graph that goes on from each node before it turns to the next. It
tells which nodes it came to, and which nodes it met again while it was still busy with them: these
are the places where cycles close.

The search works off a list of tasks. Entering a node puts the nodes after it in front of the list,
and behind them the task to leave the node again. Every node is entered once, so the tasks at hand
and those that the nodes not yet seen will bring come to an end together.

## Main definitions

- `Graph` — the nodes `0`, `1`, … with the nodes that follow each
- `Search` — what is known at some point of a search
- `Graph.search` — the result of a search

## Main results

- `Graph.potential_enter` — the tasks that are to come make up for those that entering a node brings
-/

namespace Bnf

/-- A graph: the nodes that follow each node, in order. -/
abbrev Graph := Array (List Nat)

/-- One thing to do in a search. -/
inductive Task where
  /-- Look at a node, and go on from it if it was not seen yet. -/
  | enter (node : Nat)
  | leave

/-- What is known at some point of a search. -/
structure Search where
  /-- The nodes that the search is busy with, the last one first: each follows the next. -/
  path : List Nat
  /-- The nodes that the search is done with, the last one first. -/
  finished : List Nat
  /-- The nodes that were met again while the search was busy with them, the first one first. -/
  closing : List Nat

namespace Search

def start : Search :=
  ⟨[], [], []⟩

def hasSeen (s : Search) (node : Nat) : Bool :=
  s.path.contains node || s.finished.contains node

def close (s : Search) (node : Nat) : Search :=
  if node ∈ s.closing then s else { s with closing := s.closing ++ [node] }

def enter (s : Search) (node : Nat) : Search :=
  { s with path := node :: s.path }

def leave (s : Search) : Search :=
  match s.path with
  | [] => s
  | node :: path => { s with path := path, finished := node :: s.finished }

/-- To close a node is not to see another. -/
@[simp] theorem hasSeen_close (s : Search) (node other : Nat) :
    (s.close node).hasSeen other = s.hasSeen other := by
  unfold close
  split <;> rfl

/-- To enter a node is to have seen it. -/
@[simp] theorem hasSeen_enter (s : Search) (node other : Nat) :
    (s.enter node).hasSeen other = (decide (other = node) || s.hasSeen other) := by
  rw [Bool.eq_iff_iff]
  simp [hasSeen, enter, or_assoc]

/-- To leave the path forgets nothing. -/
@[simp] theorem hasSeen_leave (s : Search) (other : Nat) :
    s.leave.hasSeen other = s.hasSeen other := by
  unfold leave
  split
  · rfl
  · next node path h =>
    rw [Bool.eq_iff_iff]
    simp [hasSeen, h, or_assoc, or_left_comm]

end Search

namespace Graph

def next (g : Graph) (node : Nat) : List Nat :=
  g.getD node []

/-- The tasks that entering a node brings, if it was not seen yet. -/
def weight (g : Graph) (s : Search) (node : Nat) : Nat :=
  if s.hasSeen node then 0 else (g.next node).length + 1

/-- The tasks that the nodes not yet seen will bring, among `nodes`. -/
def weights (g : Graph) (s : Search) : (nodes : List Nat) → Nat
  | [] => 0
  | node :: nodes => g.weight s node + g.weights s nodes

/-- The tasks that all nodes not yet seen will bring. -/
def potential (g : Graph) (s : Search) : Nat :=
  g.weights s (List.range g.size)

theorem weights_congr {g : Graph} {s t : Search} (h : ∀ node, t.hasSeen node = s.hasSeen node)
    (nodes : List Nat) : g.weights t nodes = g.weights s nodes := by
  induction nodes with
  | nil => rfl
  | cons node nodes ih => simp [weights, weight, h, ih]

/-- Entering a node makes none heavier. -/
theorem weight_enter_le (g : Graph) (s : Search) (node other : Nat) :
    g.weight (s.enter node) other ≤ g.weight s other := by
  unfold weight
  rw [Search.hasSeen_enter]
  by_cases h : other = node <;> simp [h]

/-- Nor does it make the nodes heavier together. -/
theorem weights_enter_le (g : Graph) (s : Search) (node : Nat) (nodes : List Nat) :
    g.weights (s.enter node) nodes ≤ g.weights s nodes := by
  induction nodes with
  | nil => simp [weights]
  | cons other nodes ih =>
    have := weight_enter_le g s node other
    simp only [weights]
    omega

/-- **A node that is entered for the first time pays for what is to be entered next**: the weight
    falls by more than the number of nodes that follow it. So a search ends. -/
theorem weights_enter {g : Graph} {s : Search} {node : Nat} {nodes : List Nat}
    (seen : s.hasSeen node = false) (member : node ∈ nodes) :
    g.weights (s.enter node) nodes + (g.next node).length + 1 ≤ g.weights s nodes := by
  induction nodes with
  | nil => simp at member
  | cons other nodes ih =>
    by_cases same : other = node
    · have := weights_enter_le g s node nodes
      have : g.weight (s.enter node) node = 0 := by simp [weight]
      have : g.weight s node = (g.next node).length + 1 := by simp [weight, seen]
      subst same
      simp only [weights]
      omega
    · have := ih (by simpa [Ne.symm same] using member)
      have := weight_enter_le g s node other
      simp only [weights]
      omega

/-- **Entering a node does not prolong the search**: the tasks that it brings are those that were
    to come for it. -/
theorem potential_enter {g : Graph} {s : Search} {node : Nat} (seen : s.hasSeen node = false)
    (inside : node < g.size) :
    g.potential (s.enter node) + (g.next node).length + 1 ≤ g.potential s :=
  weights_enter seen (List.mem_range.2 inside)

/-- Works off a list of tasks. A number that is no node of the graph is passed over. -/
def run (g : Graph) (s : Search) (tasks : List Task) : Search :=
  match tasks with
  | [] => s
  | .leave :: tasks => g.run s.leave tasks
  | .enter node :: tasks =>
    if node ∈ s.path then g.run (s.close node) tasks
    else if h : node ∉ s.finished ∧ node < g.size then
      g.run (s.enter node) ((g.next node).map .enter ++ .leave :: tasks)
    else g.run s tasks
termination_by g.potential s + tasks.length
decreasing_by
  · have := weights_congr (g := g) s.hasSeen_leave (List.range g.size)
    simp only [potential, List.length_cons]
    omega
  · have := weights_congr (g := g) (s.hasSeen_close node) (List.range g.size)
    simp only [potential, List.length_cons]
    omega
  · have := @potential_enter g s node (by simp_all [Search.hasSeen]) h.2
    simp only [List.length_append, List.length_map, List.length_cons]
    omega
  · simp

/-- **The result of a search** that enters the given nodes one after the other. -/
def search (g : Graph) (nodes : List Nat) : Search :=
  g.run .start (nodes.map .enter)

end Graph

end Bnf
