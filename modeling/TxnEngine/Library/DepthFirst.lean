import Mathlib.Data.Finset.Card
import Mathlib.Logic.Relation

/-!
# Three-colour depth-first search

A directed graph is a function from a node to the list of its successors.  The
search paints a node `visiting` when it enters it and `visited` when it leaves
it, and stops at the first successor that is being visited.

The search is recursive, and `depth` bounds how deep: `none` is a search that
needed more.  Two facts make it a decision procedure for cycles.  The nodes
being visited lead to the current one, so an edge back to one of them closes a
cycle.  The visited nodes are closed under successors and lie on no cycle
(`Settled`), so a search that visits every node has excluded all of them.
-/

namespace DepthFirst

variable {ν : Type*}

inductive Colour where
  | unvisited
  | visiting
  | visited
deriving DecidableEq, Repr

/-- A walk of one or more edges. -/
abbrev Leads (succ : ν → List ν) : ν → ν → Prop := Relation.TransGen fun a b => b ∈ succ a

/-- Some node leads back to itself. -/
def Cyclic (E : ν → ν → Prop) : Prop := ∃ n, Relation.TransGen E n n

/-- The loop over the successors of a node. -/
def scan (visit : ν → (ν → Colour) → Option (Bool × (ν → Colour))) :
    List ν → (ν → Colour) → Option (Bool × (ν → Colour))
  | [], c => some (false, c)
  | n :: ns, c =>
      match c n with
      | .visiting => some (true, c)
      | .visited => scan visit ns c
      | .unvisited =>
          match visit n c with
          | none => none
          | some (true, c') => some (true, c')
          | some (false, c') => scan visit ns c'

variable [DecidableEq ν] (succ : ν → List ν)

/-- Search from an unvisited node. -/
def dfs : Nat → ν → (ν → Colour) → Option (Bool × (ν → Colour))
  | 0, _, _ => none
  | depth + 1, n, c =>
      match scan (dfs depth) (succ n) (Function.update c n .visiting) with
      | none => none
      | some (true, c') => some (true, c')
      | some (false, c') => some (false, Function.update c' n .visited)

/-- Search from each root that is still unvisited. -/
def search (depth : Nat) : List ν → (ν → Colour) → Option Bool
  | [], _ => some false
  | n :: ns, c =>
      if c n = .unvisited then
        match dfs succ depth n c with
        | none => none
        | some (true, _) => some true
        | some (false, c') => search depth ns c'
      else search depth ns c

variable {succ}

/-! ## What one round does -/

/-- How the loop over successors gets on at the next one. -/
inductive ScanStep (visit : ν → (ν → Colour) → Option (Bool × (ν → Colour))) (b : ν) (ns : List ν)
    (c : ν → Colour) (found : Bool) (c' : ν → Colour) : Prop where
  | visiting (colour : c b = .visiting) (hfound : found = true) (same : c' = c)
  | visited (colour : c b = .visited) (rest : scan visit ns c = some (found, c'))
  | stopped (colour : c b = .unvisited) (here : visit b c = some (true, c')) (hfound : found = true)
  | passed {d : ν → Colour} (colour : c b = .unvisited) (here : visit b c = some (false, d))
      (rest : scan visit ns d = some (found, c'))

omit [DecidableEq ν] in
theorem scan_cons {visit : ν → (ν → Colour) → Option (Bool × (ν → Colour))} {b : ν} {ns : List ν}
    {c c' : ν → Colour} {found : Bool} (h : scan visit (b :: ns) c = some (found, c')) :
    ScanStep visit b ns c found c' := by
  rw [scan] at h
  cases hcolour : c b with
  | visiting =>
      rw [hcolour] at h
      cases h
      exact .visiting hcolour rfl rfl
  | visited =>
      rw [hcolour] at h
      exact .visited hcolour h
  | unvisited =>
      rw [hcolour] at h
      cases hv : visit b c with
      | none =>
          rw [hv] at h
          cases h
      | some r =>
          obtain ⟨foundHere, d⟩ := r
          rw [hv] at h
          cases foundHere with
          | true =>
              cases h
              exact .stopped hcolour hv rfl
          | false => exact .passed hcolour hv h

theorem dfs_succ {depth : Nat} {n : ν} {c c' : ν → Colour} {found : Bool}
    (h : dfs succ (depth + 1) n c = some (found, c')) :
    ∃ d, scan (dfs succ depth) (succ n) (Function.update c n .visiting) = some (found, d) ∧
      c' = if found then d else Function.update d n .visited := by
  rw [dfs] at h
  cases hs : scan (dfs succ depth) (succ n) (Function.update c n .visiting) with
  | none =>
      rw [hs] at h
      cases h
  | some r =>
      obtain ⟨foundBelow, d⟩ := r
      rw [hs] at h
      cases foundBelow with
      | true =>
          cases h
          exact ⟨_, rfl, rfl⟩
      | false =>
          cases h
          exact ⟨_, rfl, rfl⟩

/-! ## What a search leaves behind -/

/-- The visited nodes are closed under successors and lie on no cycle. -/
structure Settled (succ : ν → List ν) (c : ν → Colour) : Prop where
  closed : ∀ {a b}, c a = .visited → b ∈ succ a → c b = .visited
  acyclic : ∀ {a}, c a = .visited → ¬ Leads succ a a

/-- A later colouring of the same search: visited nodes stay visited, and the
nodes being visited are the same. -/
structure Extends (c c' : ν → Colour) : Prop where
  visited : ∀ {a}, c a = .visited → c' a = .visited
  visiting : ∀ a, c' a = .visiting ↔ c a = .visiting

omit [DecidableEq ν] in
theorem Extends.refl (c : ν → Colour) : Extends c c := ⟨id, fun _ => Iff.rfl⟩

omit [DecidableEq ν] in
theorem Extends.trans {c c' c'' : ν → Colour} (h : Extends c c') (h' : Extends c' c'') :
    Extends c c'' :=
  ⟨fun ha => h'.visited (h.visited ha), fun a => (h'.visiting a).trans (h.visiting a)⟩

omit [DecidableEq ν] in
/-- What is visited leads to visited nodes only. -/
theorem Settled.of_leads {c : ν → Colour} (hc : Settled succ c) {a b : ν}
    (h : Leads succ a b) (ha : c a = .visited) : c b = .visited := by
  induction h with
  | single hedge => exact hc.closed ha hedge
  | tail _ hedge ih => exact hc.closed ih hedge

/-- Entering an unvisited node settles nothing and unsettles nothing. -/
theorem Settled.enter {c : ν → Colour} (hc : Settled succ c) {n : ν} (hn : c n = .unvisited) :
    Settled succ (Function.update c n .visiting) := by
  have hkeep : ∀ {a}, Function.update c n .visiting a = .visited → c a = .visited := by
    intro a ha
    rw [Function.update_apply] at ha
    split at ha
    · cases ha
    · exact ha
  have hback : ∀ {a}, c a = .visited → Function.update c n .visiting a = .visited := by
    intro a ha
    rw [Function.update_of_ne _ _ _]
    · exact ha
    · intro heq
      rw [heq, hn] at ha
      cases ha
  exact ⟨fun ha hab => hback (hc.closed (hkeep ha) hab), fun ha => hc.acyclic (hkeep ha)⟩

/-- A node all of whose successors are visited can be left: a cycle through it
would have visited it before. -/
theorem Settled.leave {c : ν → Colour} (hc : Settled succ c) {n : ν} (hn : c n = .visiting)
    (hsucc : ∀ b ∈ succ n, c b = .visited) :
    Settled succ (Function.update c n .visited) := by
  have hback : ∀ {a}, c a = .visited → Function.update c n .visited a = .visited := by
    intro a ha
    rw [Function.update_apply]
    split
    · rfl
    · exact ha
  have hn_acyclic : ¬ Leads succ n n := by
    intro hcycle
    obtain ⟨b, hb, hrest⟩ := Relation.TransGen.head'_iff.mp hcycle
    have hvisited : c n = .visited := by
      rcases Relation.reflTransGen_iff_eq_or_transGen.mp hrest with heq | hleads
      · exact heq ▸ hsucc b hb
      · exact hc.of_leads hleads (hsucc b hb)
    rw [hn] at hvisited
    cases hvisited
  constructor
  · intro a b ha hab
    by_cases h : a = n
    · exact hback (hsucc b (h ▸ hab))
    · rw [Function.update_of_ne h] at ha
      exact hback (hc.closed ha hab)
  · intro a ha
    by_cases h : a = n
    · exact h ▸ hn_acyclic
    · rw [Function.update_of_ne h] at ha
      exact hc.acyclic ha

/-! ## Exactness -/

/-- The contract of a visit: where the nodes being visited all lead to an
unvisited node, visiting it finds a cycle or settles the node. -/
def Visits (succ : ν → List ν) (visit : ν → (ν → Colour) → Option (Bool × (ν → Colour))) :
    Prop :=
  ∀ {n c found c'}, Settled succ c → c n = .unvisited →
    (∀ a, c a = .visiting → Leads succ a n) → visit n c = some (found, c') →
    (found = true → Cyclic fun a b => b ∈ succ a) ∧
      (found = false → Settled succ c' ∧ Extends c c' ∧ c' n = .visited)

omit [DecidableEq ν] in
/-- The loop over successors of a node all visiting nodes lead to. -/
theorem scan_spec {visit : ν → (ν → Colour) → Option (Bool × (ν → Colour))}
    (hvisit : Visits succ visit) {n : ν} {ns : List ν} {c c' : ν → Colour} {found : Bool}
    (hedges : ∀ b ∈ ns, b ∈ succ n) (hc : Settled succ c)
    (hpath : ∀ a, c a = .visiting → Relation.ReflTransGen (fun a b => b ∈ succ a) a n)
    (h : scan visit ns c = some (found, c')) :
    (found = true → Cyclic fun a b => b ∈ succ a) ∧
      (found = false → Settled succ c' ∧ Extends c c' ∧ ∀ b ∈ ns, c' b = .visited) := by
  induction ns generalizing c with
  | nil =>
      cases h
      exact ⟨nofun, fun _ => ⟨hc, .refl _, nofun⟩⟩
  | cons b ns ih =>
      have hb : b ∈ succ n := hedges b List.mem_cons_self
      have hrest : ∀ d ∈ ns, d ∈ succ n := fun d hd => hedges d (List.mem_cons_of_mem b hd)
      have hleads : ∀ a, c a = .visiting → Leads succ a b := fun a ha => .tail' (hpath a ha) hb
      cases scan_cons h with
      | visiting colour hfound same =>
          subst hfound
          exact ⟨fun _ => ⟨b, hleads b colour⟩, nofun⟩
      | visited colour rest =>
          obtain ⟨hcycle, hdone⟩ := ih hrest hc hpath rest
          refine ⟨hcycle, fun hf => ?_⟩
          obtain ⟨hc', hext, hns⟩ := hdone hf
          exact ⟨hc', hext, List.forall_mem_cons.mpr ⟨hext.visited colour, hns⟩⟩
      | stopped colour here hfound =>
          subst hfound
          obtain ⟨hcycle, -⟩ := hvisit hc colour hleads here
          exact ⟨hcycle, nofun⟩
      | @passed d colour here rest =>
          obtain ⟨-, hdone⟩ := hvisit hc colour hleads here
          obtain ⟨hd, hext, hbd⟩ := hdone rfl
          have hpath' : ∀ a, d a = .visiting →
              Relation.ReflTransGen (fun a b => b ∈ succ a) a n := by
            intro a ha
            exact hpath a ((hext.visiting a).mp ha)
          obtain ⟨hcycle', hdone'⟩ := ih hrest hd hpath' rest
          refine ⟨hcycle', fun hf => ?_⟩
          obtain ⟨hc', hext', hns⟩ := hdone' hf
          exact ⟨hc', hext.trans hext', List.forall_mem_cons.mpr ⟨hext'.visited hbd, hns⟩⟩

/-- Leaving a node undoes nothing but entering it. -/
theorem Extends.leave {c d : ν → Colour} {n : ν} (h : Extends (Function.update c n .visiting) d)
    (hn : c n = .unvisited) : Extends c (Function.update d n .visited) := by
  constructor
  · intro a ha
    have hne : a ≠ n := fun heq => by rw [heq, hn] at ha; cases ha
    rw [Function.update_of_ne hne]
    exact h.visited (by rwa [Function.update_of_ne hne])
  · intro a
    by_cases heq : a = n
    · rw [heq, Function.update_self, hn]
      exact ⟨nofun, nofun⟩
    · rw [Function.update_of_ne heq, h.visiting a, Function.update_of_ne heq]

/-- The search meets the contract of a visit, at every depth it does not run
out of. -/
theorem dfs_spec (depth : Nat) : Visits succ (dfs succ depth) := by
  induction depth with
  | zero =>
      intro n c found c' _ _ _ h
      cases h
  | succ depth ih =>
      intro n c found c' hc hn hpath h
      have hpath' : ∀ a, Function.update c n .visiting a = .visiting →
          Relation.ReflTransGen (fun a b => b ∈ succ a) a n := by
        intro a ha
        by_cases heq : a = n
        · exact heq ▸ .refl
        · rw [Function.update_of_ne heq] at ha
          exact (hpath a ha).to_reflTransGen
      obtain ⟨d, hs, rfl⟩ := dfs_succ h
      obtain ⟨hcycle, hdone⟩ := scan_spec ih (fun _ hb => hb) (hc.enter hn) hpath' hs
      refine ⟨hcycle, fun hf => ?_⟩
      obtain ⟨hd, hext, hsucc⟩ := hdone hf
      have hnd : d n = .visiting := (hext.visiting n).mpr (Function.update_self ..)
      rw [hf, if_neg Bool.false_ne_true]
      exact ⟨hd.leave hnd hsucc, hext.leave hn, Function.update_self ..⟩

omit [DecidableEq ν] in
/-- A root that was passed counts as visited. -/
theorem Extends.passed {c d : ν → Colour} (h : Extends c d) {r : ν} (hr : d r = .visited)
    {roots : List ν} {n : ν} (hn : n ∈ r :: roots ∨ c n = .visited) :
    n ∈ roots ∨ d n = .visited := by
  rcases hn with hmem | hn
  · rcases List.mem_cons.mp hmem with rfl | hmem
    · exact .inr hr
    · exact .inl hmem
  · exact .inr (h.visited hn)

/-- The search over roots, from a settled colouring with nothing being visited. -/
theorem search_spec {depth : Nat} {roots : List ν} {c : ν → Colour} {found : Bool}
    (hc : Settled succ c) (hidle : ∀ a, c a ≠ .visiting)
    (h : search succ depth roots c = some found) :
    (found = true → Cyclic fun a b => b ∈ succ a) ∧
      (found = false → ∀ n, (n ∈ roots ∨ c n = .visited) → ¬ Leads succ n n) := by
  induction roots generalizing c with
  | nil =>
      cases h
      exact ⟨nofun, fun _ n hn => hc.acyclic (hn.resolve_left List.not_mem_nil)⟩
  | cons r roots ih =>
      rw [search] at h
      cases hcolour : c r with
      | visiting => exact absurd hcolour (hidle r)
      | visited =>
          rw [hcolour, if_neg nofun] at h
          obtain ⟨hcycle, hrest⟩ := ih hc hidle h
          exact ⟨hcycle, fun hf n hn => hrest hf n ((Extends.refl c).passed hcolour hn)⟩
      | unvisited =>
          rw [hcolour, if_pos rfl] at h
          cases hd : dfs succ depth r c with
          | none =>
              rw [hd] at h
              cases h
          | some p =>
              obtain ⟨foundHere, d⟩ := p
              obtain ⟨hcycle, hdone⟩ :=
                dfs_spec depth hc hcolour (fun a ha => absurd ha (hidle a)) hd
              rw [hd] at h
              cases foundHere with
              | true =>
                  cases h
                  exact ⟨fun _ => hcycle rfl, nofun⟩
              | false =>
                  obtain ⟨hsettled, hext, hrd⟩ := hdone rfl
                  have hidle' : ∀ a, d a ≠ .visiting :=
                    fun a ha => hidle a ((hext.visiting a).mp ha)
                  obtain ⟨hcycle', hrest⟩ := ih hsettled hidle' h
                  exact ⟨hcycle', fun hf n hn => hrest hf n (hext.passed hrd hn)⟩

/-! ## Depth -/

/-- No step of a search makes a node unvisited again. -/
def Shrinks (visit : ν → (ν → Colour) → Option (Bool × (ν → Colour))) : Prop :=
  ∀ {n c found c'}, visit n c = some (found, c') → ∀ {a}, c' a = .unvisited → c a = .unvisited

omit [DecidableEq ν] in
theorem scan_shrinks {visit : ν → (ν → Colour) → Option (Bool × (ν → Colour))}
    (hvisit : Shrinks visit) {ns : List ν} {c c' : ν → Colour} {found : Bool}
    (h : scan visit ns c = some (found, c')) {a : ν} (ha : c' a = .unvisited) :
    c a = .unvisited := by
  induction ns generalizing c with
  | nil =>
      cases h
      exact ha
  | cons b ns ih =>
      cases scan_cons h with
      | visiting _ _ same => exact same ▸ ha
      | visited _ rest => exact ih rest
      | stopped _ here _ => exact hvisit here ha
      | passed _ here rest => exact hvisit here (ih rest)

theorem unvisited_of_update {c : ν → Colour} {n a : ν} {colour : Colour}
    (h : Function.update c n colour a = .unvisited) (hcolour : colour ≠ .unvisited) :
    c a = .unvisited := by
  rw [Function.update_apply] at h
  split at h
  · exact absurd h hcolour
  · exact h

theorem dfs_shrinks (depth : Nat) : Shrinks (dfs succ depth) := by
  induction depth with
  | zero =>
      intro n c found c' h
      cases h
  | succ depth ih =>
      intro n c found c' h a ha
      obtain ⟨d, hs, rfl⟩ := dfs_succ h
      have hback : d a = .unvisited → c a = .unvisited :=
        fun hd => unvisited_of_update (scan_shrinks ih hs hd) nofun
      split at ha
      · exact hback ha
      · exact hback (unvisited_of_update ha nofun)

/-- How many of the given nodes are unvisited. -/
def pending (nodes : Finset ν) (c : ν → Colour) : Nat :=
  (nodes.filter fun n => c n = .unvisited).card

omit [DecidableEq ν] in
theorem pending_le {nodes : Finset ν} {c c' : ν → Colour}
    (h : ∀ {a}, c' a = .unvisited → c a = .unvisited) : pending nodes c' ≤ pending nodes c :=
  Finset.card_le_card (Finset.monotone_filter_right nodes fun _ _ ha => h ha)

/-- Entering an unvisited node leaves one fewer. -/
theorem pending_enter {nodes : Finset ν} {c : ν → Colour} {n : ν} (hmem : n ∈ nodes)
    (hn : c n = .unvisited) :
    pending nodes (Function.update c n .visiting) < pending nodes c := by
  apply Finset.card_lt_card
  rw [Finset.ssubset_iff_of_subset]
  · refine ⟨n, Finset.mem_filter.mpr ⟨hmem, hn⟩, fun h => ?_⟩
    have := (Finset.mem_filter.mp h).2
    rw [Function.update_self] at this
    cases this
  · exact Finset.monotone_filter_right nodes fun _ _ ha => unvisited_of_update ha nofun

omit [DecidableEq ν] in
theorem scan_total {visit : ν → (ν → Colour) → Option (Bool × (ν → Colour))}
    (hshrinks : Shrinks visit) {nodes : Finset ν} {bound : Nat}
    (hvisit : ∀ {n c}, pending nodes c < bound → c n = .unvisited → (visit n c).isSome)
    (ns : List ν) {c : ν → Colour} (hc : pending nodes c < bound) :
    (scan visit ns c).isSome := by
  induction ns generalizing c with
  | nil => rfl
  | cons b ns ih =>
      rw [scan]
      cases hcolour : c b with
      | visiting => rfl
      | visited => exact ih hc
      | unvisited =>
          obtain ⟨⟨foundHere, d⟩, hv⟩ := Option.isSome_iff_exists.mp (hvisit hc hcolour)
          cases foundHere with
          | true => simp only [hv, Option.isSome_some]
          | false =>
              simp only [hv]
              exact ih (Nat.lt_of_le_of_lt (pending_le (hshrinks hv)) hc)

/-- A search goes no deeper than the number of unvisited nodes with successors,
and one more. -/
theorem dfs_total {nodes : Finset ν} (hnodes : ∀ n, n ∉ nodes → succ n = []) (depth : Nat) :
    ∀ {n c}, pending nodes c < depth → c n = .unvisited → (dfs succ depth n c).isSome := by
  induction depth with
  | zero =>
      intro n c h
      omega
  | succ depth ih =>
      intro n c hc hn
      have hscan : (scan (dfs succ depth) (succ n) (Function.update c n .visiting)).isSome := by
        by_cases hmem : n ∈ nodes
        · have hfewer := pending_enter hmem hn
          exact scan_total (dfs_shrinks depth) ih (succ n) (by omega)
        · rw [hnodes n hmem]
          rfl
      obtain ⟨⟨foundBelow, d⟩, hs⟩ := Option.isSome_iff_exists.mp hscan
      rw [dfs, hs]
      cases foundBelow with
      | true => rfl
      | false => rfl

theorem search_total {nodes : Finset ν} (hnodes : ∀ n, n ∉ nodes → succ n = []) {depth : Nat}
    (roots : List ν) {c : ν → Colour} (hc : pending nodes c < depth) :
    (search succ depth roots c).isSome := by
  induction roots generalizing c with
  | nil => rfl
  | cons r roots ih =>
      rw [search]
      split
      · next hr =>
          obtain ⟨⟨foundHere, d⟩, hd⟩ :=
            Option.isSome_iff_exists.mp (dfs_total hnodes depth hc hr)
          cases foundHere with
          | true => simp only [hd, Option.isSome_some]
          | false =>
              simp only [hd]
              exact ih (Nat.lt_of_le_of_lt (pending_le (dfs_shrinks depth hd)) hc)
      · exact ih hc

/-! ## The whole search -/

/-- With all nodes that have successors as roots, and a depth beyond their
number, the search decides whether the graph has a cycle. -/
theorem search_decides {roots : List ν} (hroots : ∀ n, n ∉ roots → succ n = []) {depth : Nat}
    (hdepth : roots.length < depth) :
    ∃ found, search succ depth roots (fun _ => .unvisited) = some found ∧
      (found = true ↔ Cyclic fun a b => b ∈ succ a) := by
  have hpending : pending roots.toFinset (fun _ => Colour.unvisited) < depth := by
    have hcard := roots.toFinset_card_le
    have hfilter := Finset.card_filter_le roots.toFinset
      fun _ => Colour.unvisited = Colour.unvisited
    rw [pending]
    omega
  obtain ⟨found, hfound⟩ := Option.isSome_iff_exists.mp
    (search_total (fun n hn => hroots n fun h => hn (List.mem_toFinset.mpr h)) roots hpending)
  have hsettled : Settled succ fun _ => .unvisited := ⟨fun h => (nomatch h), fun h => (nomatch h)⟩
  obtain ⟨hcycle, hnone⟩ := search_spec hsettled (fun _ h => (nomatch h)) hfound
  refine ⟨found, hfound, hcycle, fun ⟨n, hn⟩ => ?_⟩
  cases found with
  | true => rfl
  | false =>
      -- a node on a cycle has a successor, so it is a root
      have hmem : n ∈ roots := by
        by_contra hmem
        obtain ⟨b, hb, _⟩ := Relation.TransGen.head'_iff.mp hn
        rw [hroots n hmem] at hb
        cases hb
      exact absurd hn (hnone rfl n (.inl hmem))

end DepthFirst
