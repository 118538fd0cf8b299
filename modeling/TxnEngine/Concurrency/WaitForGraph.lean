import Mathlib.Data.Set.Basic
import TxnEngine.Library.DepthFirst

/-!
# The wait-for graph

`WaitForGraph` as `concurrency/WaitForGraph.cpp` computes it.  The recursion of
`detectCycleDFS` has no bound of its own, so the model bounds how deep it nests
and `none` is a run that goes deeper.

The graph stands for the set of edges that were added and not removed since.
The search over the maps of the class is the three-colour search of
`DepthFirst` over the colouring they stand for, hence it decides whether those
edges have a cycle (`hasCycle_exact`).
-/

namespace TxnEngine

open Std DepthFirst

/-- For each transaction with an entry, the transactions it waits for. -/
structure WaitForGraph where
  graph : ExtTreeMap Nat (ExtTreeSet Nat)

namespace WaitForGraph

/-- The local map `state` of a search. -/
abbrev State := ExtTreeMap Nat Colour

def empty : WaitForGraph := ⟨∅⟩

def addEdge (g : WaitForGraph) (fromTxn toTxn : Nat) : WaitForGraph :=
  ⟨g.graph.insert fromTxn ((g.graph.getD fromTxn ∅).insert toTxn)⟩

def removeEdge (g : WaitForGraph) (fromTxn toTxn : Nat) : WaitForGraph :=
  match g.graph[fromTxn]? with
  | some neighbors => ⟨g.graph.insert fromTxn (neighbors.erase toTxn)⟩
  | none => g

/-- `state[node]`, which is `0` for a missing entry. -/
def State.colour (state : State) (node : Nat) : Colour := state.getD node .unvisited

/-- The loop of `detectCycleDFS` over the neighbours of a node. -/
def detectNeighbors (detect : Nat → State → Option (Bool × State)) :
    List Nat → State → Option (Bool × State)
  | [], state => some (false, state)
  | neighbor :: rest, state =>
      if state.colour neighbor = .visiting then some (true, state)
      else if state.colour neighbor = .unvisited then
        match detect neighbor state with
        | none => none
        | some (true, state') => some (true, state')
        | some (false, state') => detectNeighbors detect rest state'
      else detectNeighbors detect rest state

def detectCycleDFS (g : WaitForGraph) : Nat → Nat → State → Option (Bool × State)
  | 0, _, _ => none
  | depth + 1, node, state =>
      let visiting := state.insert node .visiting
      let searched :=
        match g.graph[node]? with
        | some neighbors => detectNeighbors (detectCycleDFS g depth) neighbors.toList visiting
        | none => some (false, visiting)
      match searched with
      | none => none
      | some (true, state') => some (true, state')
      | some (false, state') => some (false, state'.insert node .visited)

/-- The loop of `hasCycle` over the entries of the graph. -/
def hasCycleFrom (g : WaitForGraph) (depth : Nat) : List Nat → State → Option Bool
  | [], _ => some false
  | node :: rest, state =>
      if state.colour node = .unvisited then
        match g.detectCycleDFS depth node state with
        | none => none
        | some (true, _) => some true
        | some (false, state') => hasCycleFrom g depth rest state'
      else hasCycleFrom g depth rest state

def hasCycle (g : WaitForGraph) (depth : Nat) : Option Bool :=
  g.hasCycleFrom depth g.graph.keys ∅

/-! ## The search of the library -/

/-- The successors of a node, in the order the loop visits them. -/
def neighbors (g : WaitForGraph) (node : Nat) : List Nat := (g.graph.getD node ∅).toList

theorem State.colour_insert (state : State) (node : Nat) (c : Colour) :
    State.colour (state.insert node c) = Function.update state.colour node c := by
  funext n
  rw [State.colour, ExtTreeMap.getD_insert, Function.update_apply]
  by_cases h : n = node
  · rw [if_pos h, if_pos (by rw [h]; exact compare_self)]
  · rw [if_neg h, if_neg (fun heq => h (LawfulEqCmp.eq_of_compare heq).symm)]
    rfl

/-- A result of the search with the colouring its map stands for. -/
def coloured : Bool × State → Bool × (Nat → Colour)
  | (found, state) => (found, state.colour)

theorem detectNeighbors_scan {detect : Nat → State → Option (Bool × State)}
    {visit : Nat → (Nat → Colour) → Option (Bool × (Nat → Colour))}
    (hdetect : ∀ n state, (detect n state).map coloured = visit n state.colour)
    (ns : List Nat) (state : State) :
    (detectNeighbors detect ns state).map coloured = scan visit ns state.colour := by
  induction ns generalizing state with
  | nil => rfl
  | cons n ns ih =>
      rw [detectNeighbors, scan]
      cases hcolour : state.colour n with
      | visiting => rfl
      | visited => exact ih state
      | unvisited =>
          rw [← hdetect n state, if_neg (by decide), if_pos rfl]
          cases detect n state with
          | none => rfl
          | some r =>
              obtain ⟨found, state'⟩ := r
              cases found with
              | true => rfl
              | false => exact ih state'

/-- `detectCycleDFS` is the library's search of the graph's successors. -/
theorem detectCycleDFS_dfs (g : WaitForGraph) (depth : Nat) :
    ∀ (node : Nat) (state : State),
      (g.detectCycleDFS depth node state).map coloured
        = dfs g.neighbors depth node state.colour := by
  induction depth with
  | zero =>
      intro node state
      rfl
  | succ depth ih =>
      intro node state
      have hloop := detectNeighbors_scan ih (g.neighbors node) (state.insert node .visiting)
      rw [State.colour_insert] at hloop
      rw [detectCycleDFS, dfs, ← hloop, neighbors, ExtTreeMap.getD_eq_getD_getElem?]
      cases g.graph[node]? with
      | none =>
          have hempty : (∅ : ExtTreeSet Nat).toList = [] := rfl
          simp only [Option.getD_none, hempty, detectNeighbors, Option.map_some, coloured,
            State.colour_insert]
      | some ns =>
          simp only [Option.getD_some]
          cases detectNeighbors (g.detectCycleDFS depth) ns.toList
              (state.insert node .visiting) with
          | none => rfl
          | some r =>
              obtain ⟨found, state'⟩ := r
              cases found with
              | true => rfl
              | false => simp only [Option.map_some, coloured, State.colour_insert]

theorem hasCycleFrom_search (g : WaitForGraph) (depth : Nat) (nodes : List Nat) (state : State) :
    g.hasCycleFrom depth nodes state = search g.neighbors depth nodes state.colour := by
  induction nodes generalizing state with
  | nil => rfl
  | cons n ns ih =>
      rw [hasCycleFrom, search, ← detectCycleDFS_dfs]
      split
      · cases g.detectCycleDFS depth n state with
        | none => rfl
        | some r =>
            obtain ⟨found, state'⟩ := r
            cases found with
            | true => rfl
            | false => exact ih state'
      · exact ih state

/-! ## The edges present -/

/-- A call that changes the graph. -/
inductive EdgeOp where
  | addEdge (fromTxn toTxn : Nat)
  | removeEdge (fromTxn toTxn : Nat)
deriving DecidableEq, Repr

def step (g : WaitForGraph) : EdgeOp → WaitForGraph
  | .addEdge fromTxn toTxn => g.addEdge fromTxn toTxn
  | .removeEdge fromTxn toTxn => g.removeEdge fromTxn toTxn

/-- The graph after a sequence of calls on a new one. -/
def after (ops : List EdgeOp) : WaitForGraph := ops.foldl step empty

/-- What a call does to the set of edges. -/
def EdgeOp.changes (E : Set (Nat × Nat)) : EdgeOp → Set (Nat × Nat)
  | .addEdge fromTxn toTxn => insert (fromTxn, toTxn) E
  | .removeEdge fromTxn toTxn => E \ {(fromTxn, toTxn)}

/-- The edges added and not removed since. -/
def edgesAfter (ops : List EdgeOp) : Set (Nat × Nat) := ops.foldl EdgeOp.changes ∅

/-- The graph holds exactly the given edges. -/
def Holds (g : WaitForGraph) (E : Set (Nat × Nat)) : Prop :=
  ∀ a b, b ∈ g.graph.getD a ∅ ↔ (a, b) ∈ E

theorem mem_neighbors (g : WaitForGraph) (a b : Nat) :
    b ∈ g.neighbors a ↔ b ∈ g.graph.getD a ∅ := ExtTreeSet.mem_toList

theorem empty_holds : empty.Holds ∅ := by
  intro a b
  simp [empty]

theorem Holds.addEdge {g : WaitForGraph} {E : Set (Nat × Nat)} (h : g.Holds E) (x y : Nat) :
    (g.addEdge x y).Holds (insert (x, y) E) := by
  intro a b
  rw [WaitForGraph.addEdge, ExtTreeMap.getD_insert, Set.mem_insert_iff, Prod.mk.injEq]
  by_cases hax : x = a
  · subst hax
    rw [if_pos compare_self, ExtTreeSet.mem_insert, h x b, LawfulEqCmp.compare_eq_iff_eq]
    grind
  · rw [if_neg (fun heq => hax (LawfulEqCmp.eq_of_compare heq)), h a b]
    grind

theorem Holds.removeEdge {g : WaitForGraph} {E : Set (Nat × Nat)} (h : g.Holds E) (x y : Nat) :
    (g.removeEdge x y).Holds (E \ {(x, y)}) := by
  intro a b
  have hb := h a b
  rw [WaitForGraph.removeEdge]
  rw [Set.mem_sdiff, Set.mem_singleton_iff, Prod.mk.injEq]
  cases hx : g.graph[x]? with
  | none =>
      have hnone : a = x → ¬ (a, b) ∈ E := by
        intro hax hmem
        rw [← hb, hax, ExtTreeMap.getD_eq_getD_getElem?, hx] at hmem
        simp at hmem
      simp only [hb]
      grind
  | some ns =>
      simp only
      rw [ExtTreeMap.getD_insert]
      by_cases hax : x = a
      · subst hax
        rw [ExtTreeMap.getD_eq_getD_getElem?, hx, Option.getD_some] at hb
        rw [if_pos compare_self, ExtTreeSet.mem_erase, hb, ne_eq, LawfulEqCmp.compare_eq_iff_eq]
        grind
      · rw [if_neg (fun heq => hax (LawfulEqCmp.eq_of_compare heq)), hb]
        grind

theorem Holds.step {g : WaitForGraph} {E : Set (Nat × Nat)} (h : g.Holds E) :
    ∀ op, (g.step op).Holds (EdgeOp.changes E op)
  | .addEdge x y => h.addEdge x y
  | .removeEdge x y => h.removeEdge x y

theorem Holds.foldl {g : WaitForGraph} {E : Set (Nat × Nat)} (h : g.Holds E) (ops : List EdgeOp) :
    (ops.foldl WaitForGraph.step g).Holds (ops.foldl EdgeOp.changes E) := by
  induction ops generalizing g E with
  | nil => exact h
  | cons op ops ih => exact ih (h.step op)

theorem after_holds (ops : List EdgeOp) : (after ops).Holds (edgesAfter ops) :=
  empty_holds.foldl ops

/-! ## Exactness -/

/-- Only a node with an entry has successors. -/
theorem neighbors_of_not_mem_keys {g : WaitForGraph} {n : Nat} (h : n ∉ g.graph.keys) :
    g.neighbors n = [] := by
  rw [ExtTreeMap.mem_keys] at h
  rw [neighbors, ExtTreeMap.getD_eq_fallback h]
  rfl

/-- Deadlock detection is exact: the recursion nests no deeper than the number
of entries, and the answer is whether the edges present have a cycle. -/
theorem hasCycle_exact (ops : List EdgeOp) :
    ∃ found, (∀ depth, (after ops).graph.size < depth →
        (after ops).hasCycle depth = some found) ∧
      (found = true ↔ Cyclic fun a b => (a, b) ∈ edgesAfter ops) := by
  have hedges : (fun a b => b ∈ (after ops).neighbors a) = fun a b => (a, b) ∈ edgesAfter ops := by
    funext a b
    rw [mem_neighbors, after_holds ops a b]
  have hdecides : ∀ depth, (after ops).graph.size < depth →
      ∃ found, (after ops).hasCycle depth = some found ∧
        (found = true ↔ Cyclic fun a b => (a, b) ∈ edgesAfter ops) := by
    intro depth hdepth
    have hroots : ∀ n, n ∉ (after ops).graph.keys → (after ops).neighbors n = [] :=
      fun _ hn => neighbors_of_not_mem_keys hn
    have hkeys : (after ops).graph.keys.length < depth := by rwa [ExtTreeMap.length_keys]
    obtain ⟨found, hfound, hiff⟩ := search_decides hroots hkeys
    rw [hedges] at hiff
    refine ⟨found, ?_, hiff⟩
    rw [hasCycle, hasCycleFrom_search, ← hfound]
    rfl
  obtain ⟨found, -, hiff⟩ := hdecides _ (Nat.lt_succ_self _)
  refine ⟨found, fun depth hdepth => ?_, hiff⟩
  obtain ⟨found', hfound', hiff'⟩ := hdecides depth hdepth
  rw [hfound', Bool.eq_iff_iff.mpr (hiff'.trans hiff.symm)]

-- a node reached by two paths is no cycle
example : (after [.addEdge 1 2, .addEdge 1 3, .addEdge 2 4, .addEdge 3 4]).hasCycle 4
    = some false := by decide

end WaitForGraph

end TxnEngine
