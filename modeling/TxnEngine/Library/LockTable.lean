import Mathlib.Data.Multiset.Filter
import Mathlib.Logic.Function.Basic
import TxnEngine.Library.Runs

/-!
# Strict lock tables with wait queues

A lock table over owners `τ`, resources `ρ` and modes `μ`.  Two modes may be
held together by different owners when they `fit`.  An owner can lock a free
resource, exchange a lock of its own for another mode, or wait.  A waiting
request is woken from the front of its queue.  An owner that is `done` gets no
new request, and only its locks are released.  The index of an owner lists the
resources it holds locks on.

`convertible` says which modes an owner may exchange.  A mode outside it stays
until its owner is done (`Step.keeps`), and whatever the mode, an owner that is
not done never loses its last lock on a resource (`Step.retains`).  Locks of
different owners always fit (`Step.compatible`).
-/

namespace LockTable

variable {τ ρ μ : Type*} [DecidableEq τ] [DecidableEq ρ]

/-- Who holds and who awaits which mode on each resource. -/
@[ext] structure Table (τ ρ μ : Type*) where
  held : ρ → Multiset (τ × μ)
  waiting : ρ → List (τ × μ)
  index : τ → Set ρ
  done : Set τ

/-- What can happen to a table. -/
inductive Act (τ ρ μ : Type*) where
  | grant (t : τ) (r : ρ) (m : μ)
  | convert (t : τ) (r : ρ) (h m : μ)
  | enqueue (t : τ) (r : ρ) (m : μ)
  | wake (t : τ) (r : ρ) (m : μ)
  | release (t : τ) (r : ρ)
  | forget (t : τ)
  | finish (t : τ)

namespace Table

variable (T : Table τ ρ μ)

/-- Add a lock. -/
def hold (t : τ) (r : ρ) (m : μ) : Table τ ρ μ :=
  { T with
    held := Function.update T.held r ((t, m) ::ₘ T.held r)
    index := Function.update T.index t (insert r (T.index t)) }

/-- Put a lock in the place of the others of its owner. -/
def exchange (t : τ) (r : ρ) (m : μ) (others : Multiset (τ × μ)) : Table τ ρ μ :=
  { T with
    held := Function.update T.held r ((t, m) ::ₘ others)
    index := Function.update T.index t (insert r (T.index t)) }

/-- Replace a wait queue. -/
def setWaiting (r : ρ) (queue : List (τ × μ)) : Table τ ρ μ :=
  { T with waiting := Function.update T.waiting r queue }

/-- Drop every lock of an owner on a resource. -/
def drop (t : τ) (r : ρ) : Table τ ρ μ :=
  { T with
    held := Function.update T.held r ((T.held r).filter fun p => p.1 ≠ t)
    index := Function.update T.index t (T.index t \ {r}) }

/-- Clear the index of an owner. -/
def clearIndex (t : τ) : Table τ ρ μ :=
  { T with index := Function.update T.index t ∅ }

/-- Mark an owner done. -/
def markDone (t : τ) : Table τ ρ μ := { T with done := insert t T.done }

end Table

variable (fits : μ → μ → Prop) (convertible : μ → Prop)

/-- The actions a table allows, with their effect. -/
inductive Step : Table τ ρ μ → Act τ ρ μ → Table τ ρ μ → Prop where
  | grant {T : Table τ ρ μ} {t : τ} {r : ρ} {m : μ} (active : t ∉ T.done)
      (first : ∀ p ∈ T.held r, p.1 ≠ t) (free : ∀ p ∈ T.held r, fits p.2 m) :
      Step T (.grant t r m) (T.hold t r m)
  | convert {T : Table τ ρ μ} {t : τ} {r : ρ} {h m : μ} {others : Multiset (τ × μ)}
      (active : t ∉ T.done) (mine : T.held r = (t, h) ::ₘ others) (old : convertible h)
      (free : ∀ p ∈ T.held r, p.1 ≠ t → fits p.2 m) :
      Step T (.convert t r h m) (T.exchange t r m others)
  | enqueue {T : Table τ ρ μ} {t : τ} {r : ρ} {m : μ} (active : t ∉ T.done)
      (absent : ∀ p ∈ T.waiting r, p.1 ≠ t) :
      Step T (.enqueue t r m) (T.setWaiting r (T.waiting r ++ [(t, m)]))
  | wake {T : Table τ ρ μ} {t : τ} {r : ρ} {m : μ} {queue : List (τ × μ)}
      (front : T.waiting r = (t, m) :: queue) (free : ∀ p ∈ T.held r, fits p.2 m) :
      Step T (.wake t r m) ((T.hold t r m).setWaiting r queue)
  | release {T : Table τ ρ μ} {t : τ} {r : ρ} (finished : t ∈ T.done) :
      Step T (.release t r) (T.drop t r)
  | forget {T : Table τ ρ μ} {t : τ} (finished : t ∈ T.done) :
      Step T (.forget t) (T.clearIndex t)
  | finish {T : Table τ ρ μ} {t : τ} :
      Step T (.finish t) (T.markDone t)

/-- Sequences of actions, each allowed by `P` in the state it is taken in. -/
abbrev Reaches (P : Table τ ρ μ → Act τ ρ μ → Prop) : Table τ ρ μ → Table τ ρ μ → Prop :=
  Runs.Reaches (Step fits convertible) P

variable {fits convertible}

/-! ## The locks before and after a step -/

omit [DecidableEq τ] in
theorem mem_update_cons {held : ρ → Multiset (τ × μ)} {r r' : ρ} {p q : τ × μ}
    {locks : Multiset (τ × μ)} :
    q ∈ Function.update held r (p ::ₘ locks) r' ↔
      if r' = r then q = p ∨ q ∈ locks else q ∈ held r' := by
  by_cases hr : r' = r
  · subst hr
    simp
  · simp [hr]

theorem mem_held_drop {T : Table τ ρ μ} {t : τ} {r r' : ρ} {p : τ × μ} :
    p ∈ (T.drop t r).held r' ↔ p ∈ T.held r' ∧ ¬ (r' = r ∧ p.1 = t) := by
  by_cases hr : r' = r
  · subst hr
    simp [Table.drop]
  · simp [Table.drop, hr]

theorem Step.done_mono {T T' : Table τ ρ μ} {a : Act τ ρ μ}
    (h : Step fits convertible T a T') : T.done ⊆ T'.done := by
  cases h with
  | finish => exact Set.subset_insert _ _
  | _ => exact subset_rfl

/-- Only `finish` marks an owner done. -/
theorem Step.done_eq {T T' : Table τ ρ μ} {a : Act τ ρ μ} (h : Step fits convertible T a T')
    (hfinish : ∀ t, a ≠ .finish t) : T'.done = T.done := by
  cases h with
  | finish => exact absurd rfl (hfinish _)
  | _ => rfl

/-- The index of an owner that is not done only grows. -/
theorem Step.index_mono {T T' : Table τ ρ μ} {a : Act τ ρ μ}
    (h : Step fits convertible T a T') {t : τ} (ht : t ∉ T.done) : T.index t ⊆ T'.index t := by
  have hadd : ∀ t' r', T.index t ⊆ Function.update T.index t' (insert r' (T.index t')) t := by
    intro t' r'
    by_cases heq : t = t'
    · subst heq
      simp
    · simp [heq]
  cases h with
  | grant | convert | wake => exact hadd _ _
  | release finished =>
      have hne := ne_of_mem_of_not_mem finished ht
      simp [Table.drop, hne.symm]
  | forget finished =>
      have hne := ne_of_mem_of_not_mem finished ht
      simp [Table.clearIndex, hne.symm]
  | enqueue | finish => exact subset_rfl

/-- A lock of an owner that is not done survives a step, or is exchanged by it. -/
theorem Step.survives {T T' : Table τ ρ μ} {a : Act τ ρ μ} (h : Step fits convertible T a T')
    {t : τ} {r : ρ} {m : μ} (ht : t ∉ T.done) (hl : (t, m) ∈ T.held r) :
    (t, m) ∈ T'.held r ∨
      ∃ m', a = .convert t r m m' ∧ convertible m ∧ (t, m') ∈ T'.held r := by
  cases h with
  | @grant t' r' m' active first free =>
      refine Or.inl (mem_update_cons.mpr ?_)
      split
      · next hr => exact Or.inr (hr ▸ hl)
      · exact hl
  | @convert t' r' h' m' others active mine old free =>
      by_cases hr : r = r'
      · subst hr
        rw [mine, Multiset.mem_cons] at hl
        rcases hl with heq | hl
        · obtain ⟨rfl, rfl⟩ := Prod.mk.inj heq
          exact Or.inr ⟨m', rfl, old, mem_update_cons.mpr (by simp)⟩
        · exact Or.inl (mem_update_cons.mpr (by simp [hl]))
      · exact Or.inl (mem_update_cons.mpr (by simp [hr, hl]))
  | @wake t' r' m' queue front free =>
      refine Or.inl (mem_update_cons.mpr ?_)
      split
      · next hr => exact Or.inr (hr ▸ hl)
      · exact hl
  | release finished =>
      have hne := ne_of_mem_of_not_mem finished ht
      exact Or.inl (mem_held_drop.mpr ⟨hl, fun hc => hne hc.2.symm⟩)
  | enqueue | forget | finish => exact Or.inl hl

/-- A lock after a step was there before, or the step granted it: then it fits
the locks of the others and is in the index. -/
theorem Step.origin {T T' : Table τ ρ μ} {a : Act τ ρ μ} (h : Step fits convertible T a T')
    {t : τ} {r : ρ} {m : μ} (hl : (t, m) ∈ T'.held r) :
    (t, m) ∈ T.held r ∨
      (∀ p ∈ T'.held r, p.1 ≠ t → fits p.2 m) ∧ r ∈ T'.index t ∧
        (a = .grant t r m ∨ (∃ h, a = .convert t r h m) ∨ a = .wake t r m) := by
  -- a lock added to `locks` fits them all, if they are locks that admit it
  have hnew : ∀ {locks : Multiset (τ × μ)}, (∀ p ∈ locks, p.1 ≠ t → fits p.2 m) →
      ∀ p ∈ Function.update T.held r ((t, m) ::ₘ locks) r, p.1 ≠ t → fits p.2 m := by
    intro locks hfree p hp hne
    rw [mem_update_cons, if_pos rfl] at hp
    rcases hp with rfl | hp
    · exact absurd rfl hne
    · exact hfree p hp hne
  cases h with
  | @grant t' r' m' active first free =>
      have hl' := mem_update_cons.mp hl
      split at hl'
      · next hr =>
          subst hr
          rcases hl' with heq | hm
          · obtain ⟨rfl, rfl⟩ := Prod.mk.inj heq
            exact Or.inr ⟨hnew fun p hp _ => free p hp, by simp [Table.hold], Or.inl rfl⟩
          · exact Or.inl hm
      · exact Or.inl hl'
  | @convert t' r' h' m' others active mine old free =>
      have hl' := mem_update_cons.mp hl
      split at hl'
      · next hr =>
          subst hr
          rcases hl' with heq | hm
          · obtain ⟨rfl, rfl⟩ := Prod.mk.inj heq
            refine Or.inr ⟨hnew fun p hp => free p ?_, by simp [Table.exchange],
              Or.inr (Or.inl ⟨h', rfl⟩)⟩
            rw [mine]
            exact Multiset.mem_cons_of_mem hp
          · rw [mine]
            exact Or.inl (Multiset.mem_cons_of_mem hm)
      · exact Or.inl hl'
  | @wake t' r' m' queue front free =>
      have hl' := mem_update_cons.mp hl
      split at hl'
      · next hr =>
          subst hr
          rcases hl' with heq | hm
          · obtain ⟨rfl, rfl⟩ := Prod.mk.inj heq
            exact Or.inr ⟨hnew fun p hp _ => free p hp, by simp [Table.hold, Table.setWaiting],
              Or.inr (Or.inr rfl)⟩
          · exact Or.inl hm
      · exact Or.inl hl'
  | release finished => exact Or.inl (mem_held_drop.mp hl).1
  | enqueue | forget | finish => exact Or.inl hl

/-- A waiting request was waiting before the step, or the step put it there. -/
theorem Step.waiting_origin {T T' : Table τ ρ μ} {a : Act τ ρ μ}
    (h : Step fits convertible T a T') {t : τ} {r : ρ} {m : μ} (hw : (t, m) ∈ T'.waiting r) :
    (t, m) ∈ T.waiting r ∨ a = .enqueue t r m := by
  cases h with
  | @enqueue t' r' m' active absent =>
      by_cases hr : r = r'
      · subst hr
        simp only [Table.setWaiting, Function.update_self, List.mem_append,
          List.mem_singleton] at hw
        rcases hw with hw | heq
        · exact Or.inl hw
        · obtain ⟨rfl, rfl⟩ := Prod.mk.inj heq
          exact Or.inr rfl
      · simp only [Table.setWaiting, Function.update_of_ne hr] at hw
        exact Or.inl hw
  | @wake t' r' m' queue front free =>
      by_cases hr : r = r'
      · subst hr
        simp only [Table.setWaiting, Function.update_self] at hw
        rw [front]
        exact Or.inl (List.mem_cons_of_mem _ hw)
      · simp only [Table.setWaiting, Function.update_of_ne hr] at hw
        exact Or.inl hw
  | grant | convert | release | forget | finish => exact Or.inl hw

/-- A request is woken out of its queue. -/
theorem Step.woken {T T' : Table τ ρ μ} {t : τ} {r : ρ} {m : μ}
    (h : Step fits convertible T (.wake t r m) T') : (t, m) ∈ T.waiting r := by
  cases h with
  | wake front free =>
      rw [front]
      exact List.mem_cons_self

/-- Somebody holds or awaits a lock on the resource. -/
def Table.Used (T : Table τ ρ μ) (r : ρ) : Prop := ∃ p, p ∈ T.held r ∨ p ∈ T.waiting r

/-- A resource comes into use by a request for it. -/
theorem Step.used {T T' : Table τ ρ μ} {a : Act τ ρ μ} (h : Step fits convertible T a T')
    {r : ρ} (hu : T'.Used r) :
    T.Used r ∨ ∃ t m, a = .grant t r m ∨ (∃ h, a = .convert t r h m) ∨ a = .enqueue t r m := by
  obtain ⟨⟨t, m⟩, hl | hw⟩ := hu
  · rcases h.origin hl with hold | ⟨_, _, hact | hact | rfl⟩
    · exact Or.inl ⟨_, Or.inl hold⟩
    · exact Or.inr ⟨t, m, Or.inl hact⟩
    · exact Or.inr ⟨t, m, Or.inr (Or.inl hact)⟩
    · exact Or.inl ⟨_, Or.inr h.woken⟩
  · rcases h.waiting_origin hw with hold | hact
    · exact Or.inl ⟨_, Or.inr hold⟩
    · exact Or.inr ⟨t, m, Or.inr (Or.inr hact)⟩

/-! ## What a step keeps -/

/-- An owner that is not done keeps a lock wherever it has one. -/
theorem Step.retains {T T' : Table τ ρ μ} {a : Act τ ρ μ} (h : Step fits convertible T a T')
    {t : τ} {r : ρ} (ht : t ∉ T.done) (hl : ∃ m, (t, m) ∈ T.held r) :
    ∃ m, (t, m) ∈ T'.held r := by
  obtain ⟨m, hm⟩ := hl
  rcases h.survives ht hm with hm' | ⟨m', _, _, hm'⟩
  · exact ⟨m, hm'⟩
  · exact ⟨m', hm'⟩

/-- A lock in a mode that cannot be exchanged stays until its owner is done. -/
theorem Step.keeps {T T' : Table τ ρ μ} {a : Act τ ρ μ} (h : Step fits convertible T a T')
    {t : τ} {r : ρ} {m : μ} (ht : t ∉ T.done) (hm : ¬ convertible m)
    (hl : (t, m) ∈ T.held r) : (t, m) ∈ T'.held r := by
  rcases h.survives ht hl with hl' | ⟨_, _, hc, _⟩
  · exact hl'
  · exact absurd hc hm

/-- Locks of different owners on one resource fit. -/
def Table.Compatible (fits : μ → μ → Prop) (T : Table τ ρ μ) : Prop :=
  ∀ r t t' m m', (t, m) ∈ T.held r → (t', m') ∈ T.held r → t ≠ t' → fits m m'

theorem Step.compatible (hsymm : ∀ a b, fits a b → fits b a) {T T' : Table τ ρ μ}
    {a : Act τ ρ μ} (h : Step fits convertible T a T') (hT : T.Compatible fits) :
    T'.Compatible fits := by
  intro r t t' m m' hm hm' hne
  rcases h.origin hm with hold | ⟨hfree, _⟩
  · rcases h.origin hm' with hold' | ⟨hfree', _⟩
    · exact hT r t t' m m' hold hold' hne
    · exact hfree' (t, m) hm hne
  · exact hsymm _ _ (hfree (t', m') hm' hne.symm)

/-- The index of an owner that is not done lists every resource it holds a lock
on. -/
def Table.Indexed (T : Table τ ρ μ) : Prop :=
  ∀ t, t ∉ T.done → ∀ r m, (t, m) ∈ T.held r → r ∈ T.index t

theorem Step.indexed {T T' : Table τ ρ μ} {a : Act τ ρ μ}
    (h : Step fits convertible T a T') (hT : T.Indexed) : T'.Indexed := by
  intro t ht r m hl
  have ht' : t ∉ T.done := fun hd => ht (h.done_mono hd)
  rcases h.origin hl with hold | ⟨_, hidx, _⟩
  · exact h.index_mono ht' (hT t ht' r m hold)
  · exact hidx

/-- An owner holds a lock on every resource in its index. -/
def Table.IndexSound (T : Table τ ρ μ) : Prop := ∀ t, ∀ r ∈ T.index t, ∃ m, (t, m) ∈ T.held r

/-- A new lock and its index entry. -/
theorem indexSound_update {T : Table τ ρ μ} (hT : T.IndexSound) {t' : τ} {r' : ρ} {m' : μ}
    {locks : Multiset (τ × μ)}
    (hlocks : ∀ t m, (t, m) ∈ T.held r' → t ≠ t' → (t, m) ∈ locks) {t : τ} {r : ρ}
    (hr : r ∈ Function.update T.index t' (insert r' (T.index t')) t) :
    ∃ m, (t, m) ∈ Function.update T.held r' ((t', m') ::ₘ locks) r := by
  by_cases heq : t = t' ∧ r = r'
  · obtain ⟨rfl, rfl⟩ := heq
    exact ⟨m', by simp⟩
  · have hold : r ∈ T.index t := by
      by_cases ht : t = t'
      · subst ht
        rw [Function.update_self] at hr
        exact hr.resolve_left fun hrr => heq ⟨rfl, hrr⟩
      · rwa [Function.update_of_ne ht] at hr
    obtain ⟨m, hm⟩ := hT t r hold
    refine ⟨m, mem_update_cons.mpr ?_⟩
    split
    · next hrr =>
        subst hrr
        exact Or.inr (hlocks t m hm fun ht => heq ⟨ht, rfl⟩)
    · exact hm

theorem Step.indexSound {T T' : Table τ ρ μ} {a : Act τ ρ μ} (h : Step fits convertible T a T')
    (hT : T.IndexSound) : T'.IndexSound := by
  intro t r hr
  cases h with
  | grant | wake => exact indexSound_update hT (fun _ _ hm _ => hm) hr
  | @convert t' r' h' m' others active mine =>
      refine indexSound_update hT (fun t m hm hne => ?_) hr
      rw [mine, Multiset.mem_cons] at hm
      exact hm.resolve_left fun heq => hne (Prod.mk.inj heq).1
  | @release t' r' =>
      have hold : r ∈ T.index t ∧ ¬ (t = t' ∧ r = r') := by
        by_cases ht : t = t'
        · subst ht
          simpa [Table.drop] using hr
        · exact ⟨by simpa [Table.drop, ht] using hr, fun heq => ht heq.1⟩
      obtain ⟨m, hm⟩ := hT t r hold.1
      exact ⟨m, mem_held_drop.mpr ⟨hm, fun heq => hold.2 ⟨heq.2, heq.1⟩⟩⟩
  | @forget t' =>
      by_cases ht : t = t'
      · subst ht
        simp [Table.clearIndex] at hr
      · exact hT t r (by simpa [Table.clearIndex, ht] using hr)
  | enqueue | finish => exact hT t r hr

/-- No queue holds two requests of one owner. -/
def Table.WaitsOnce (T : Table τ ρ μ) : Prop := ∀ r, ((T.waiting r).map Prod.fst).Nodup

theorem Step.waitsOnce {T T' : Table τ ρ μ} {a : Act τ ρ μ} (h : Step fits convertible T a T')
    (hT : T.WaitsOnce) : T'.WaitsOnce := by
  intro r
  cases h with
  | @enqueue t' r' m' active absent =>
      by_cases hr : r = r'
      · subst hr
        simp only [Table.setWaiting, Function.update_self, List.map_append, List.map_cons,
          List.map_nil]
        refine List.nodup_append.mpr ⟨hT r, List.nodup_singleton _, fun t ht t'' ht'' => ?_⟩
        obtain ⟨p, hp, rfl⟩ := List.mem_map.mp ht
        rw [List.mem_singleton.mp ht'']
        exact absent p hp
      · simpa only [Table.setWaiting, Function.update_of_ne hr] using hT r
  | @wake t' r' m' queue front =>
      by_cases hr : r = r'
      · subst hr
        have hfirst := hT r
        rw [front, List.map_cons] at hfirst
        simpa only [Table.setWaiting, Function.update_self] using (List.nodup_cons.mp hfirst).2
      · have hsame : ((T.hold t' r' m').setWaiting r' queue).waiting r = T.waiting r :=
          Function.update_of_ne hr _ _
        rw [hsame]
        exact hT r
  | grant | convert | release | forget | finish => exact hT r

/-- Nobody who is done holds a lock. -/
def Table.Settled (T : Table τ ρ μ) : Prop := ∀ t ∈ T.done, ∀ r m, (t, m) ∉ T.held r

/-- Requests keep a table settled: only an owner that is not done gets a lock. -/
theorem Step.settled {T T' : Table τ ρ μ} {a : Act τ ρ μ} (h : Step fits convertible T a T')
    (hwake : ∀ t r m, a ≠ .wake t r m) (hfinish : ∀ t, a ≠ .finish t) (hT : T.Settled) :
    T'.Settled := by
  intro t ht r m hl
  have hdone : t ∈ T.done := h.done_eq hfinish ▸ ht
  rcases h.origin hl with hold | ⟨_, _, rfl | ⟨_, rfl⟩ | rfl⟩
  · exact hT t hdone r m hold
  · cases h with
    | grant active => exact active hdone
  · cases h with
    | convert active => exact active hdone
  · exact hwake t r m rfl

/-! ## What an action leaves to the others -/

/-- The owner that acts.  Nobody acts when a request is woken. -/
def Act.owner : Act τ ρ μ → Option τ
  | .grant t _ _ | .convert t _ _ _ | .enqueue t _ _ | .release t _ | .forget t | .finish t =>
      some t
  | .wake _ _ _ => none

/-- The locks of an owner on a resource. -/
def Table.heldBy (T : Table τ ρ μ) (t : τ) (r : ρ) : Multiset (τ × μ) :=
  (T.held r).filter fun p => p.1 = t

/-- The requests of an owner that wait for a resource. -/
def Table.awaitedBy (T : Table τ ρ μ) (t : τ) (r : ρ) : Multiset (τ × μ) :=
  Multiset.filter (fun p => p.1 = t) ↑(T.waiting r)

/-- The locks of an owner stay, and whatever it gains it was waiting for. -/
def Undisturbed (t : τ) (T T' : Table τ ρ μ) : Prop :=
  ∀ r, T.heldBy t r ≤ T'.heldBy t r ∧
    T'.heldBy t r + T'.awaitedBy t r = T.heldBy t r + T.awaitedBy t r

omit [DecidableEq ρ] in
theorem Undisturbed.refl (t : τ) (T : Table τ ρ μ) : Undisturbed t T T := fun _ => ⟨le_rfl, rfl⟩

omit [DecidableEq ρ] in
theorem Undisturbed.trans {t : τ} {T T' T'' : Table τ ρ μ} (h : Undisturbed t T T')
    (h' : Undisturbed t T' T'') : Undisturbed t T T'' :=
  fun r => ⟨(h r).1.trans (h' r).1, (h' r).2.trans (h r).2⟩

omit [DecidableEq ρ] in
/-- What an owner gains it was waiting for. -/
theorem Undisturbed.gained {t : τ} {T T' : Table τ ρ μ} (h : Undisturbed t T T') (r : ρ) :
    ∃ gained, T'.heldBy t r = T.heldBy t r + gained ∧ gained ≤ T.awaitedBy t r := by
  obtain ⟨hle, heq⟩ := h r
  obtain ⟨gained, hgained⟩ := Multiset.le_iff_exists_add.mp hle
  refine ⟨gained, hgained, ?_⟩
  rw [hgained, Multiset.add_assoc] at heq
  rw [← Multiset.add_right_inj.mp heq]
  exact Multiset.le_add_right _ _

omit [DecidableEq ρ] in
/-- A table in which the owner holds and awaits the same leaves it undisturbed. -/
theorem undisturbed_of_eq {t : τ} {T T' : Table τ ρ μ}
    (hheld : ∀ r, T'.heldBy t r = T.heldBy t r)
    (hawaited : ∀ r, T'.awaitedBy t r = T.awaitedBy t r) : Undisturbed t T T' :=
  fun r => ⟨le_of_eq (hheld r).symm, by rw [hheld, hawaited]⟩

/-- A new lock of somebody else. -/
theorem heldBy_update {T : Table τ ρ μ} {t : τ} {r r' : ρ} {locks : Multiset (τ × μ)}
    (hlocks : locks.filter (fun p => p.1 = t) = T.heldBy t r) :
    (Function.update T.held r locks r').filter (fun p => p.1 = t) = T.heldBy t r' := by
  by_cases hr : r' = r
  · subst hr
    rw [Function.update_self, hlocks]
  · rw [Function.update_of_ne hr]
    rfl

theorem Step.undisturbed {T T' : Table τ ρ μ} {a : Act τ ρ μ} (h : Step fits convertible T a T')
    {t : τ} (ht : a.owner ≠ some t) : Undisturbed t T T' := by
  have hne : ∀ {t'}, a.owner = some t' → t' ≠ t := fun hown heq => ht (heq ▸ hown)
  cases h with
  | grant =>
      refine undisturbed_of_eq (fun r => heldBy_update ?_) fun _ => rfl
      exact Multiset.filter_cons_of_neg _ (hne rfl)
  | @convert t' r' h' m' others active mine =>
      have hcons : ∀ m, ((t', m) ::ₘ others).filter (fun p => p.1 = t) =
          others.filter fun p => p.1 = t := fun _ => Multiset.filter_cons_of_neg others (hne rfl)
      refine undisturbed_of_eq (fun r => heldBy_update ?_) fun _ => rfl
      rw [hcons, Table.heldBy, mine, hcons]
  | @enqueue t' r' m' =>
      refine undisturbed_of_eq (fun _ => rfl) fun r => ?_
      by_cases hr : r = r'
      · subst hr
        simp [Table.awaitedBy, Table.setWaiting, hne rfl]
      · simp [Table.awaitedBy, Table.setWaiting, hr]
  | @wake t' r' m' queue front =>
      intro r
      by_cases hr : r = r'
      · subst hr
        have hheld : ((T.hold t' r m').setWaiting r queue).heldBy t r =
            (if t' = t then {(t', m')} else 0) + T.heldBy t r := by
          simp only [Table.heldBy, Table.hold, Table.setWaiting, Function.update_self]
          rw [Multiset.filter_cons]
        have hawaited : T.awaitedBy t r = (if t' = t then {(t', m')} else 0) +
            ((T.hold t' r m').setWaiting r queue).awaitedBy t r := by
          simp only [Table.awaitedBy, Table.setWaiting, Function.update_self, front]
          rw [← Multiset.cons_coe, Multiset.filter_cons]
        rw [hheld, hawaited]
        refine ⟨Multiset.le_add_left _ _, ?_⟩
        rw [Multiset.add_comm _ (T.heldBy t r), Multiset.add_assoc]
      · have hheld : ((T.hold t' r' m').setWaiting r' queue).heldBy t r = T.heldBy t r := by
          simp [Table.heldBy, Table.hold, Table.setWaiting, hr]
        have hawaited : ((T.hold t' r' m').setWaiting r' queue).awaitedBy t r =
            T.awaitedBy t r := by
          simp [Table.awaitedBy, Table.hold, Table.setWaiting, hr]
        rw [hheld, hawaited]
        exact ⟨le_rfl, rfl⟩
  | @release t' r' =>
      refine undisturbed_of_eq (fun r => heldBy_update ?_) fun _ => rfl
      rw [Multiset.filter_filter]
      refine Multiset.filter_congr fun p _ => ⟨fun hp => hp.1, fun hp => ⟨hp, ?_⟩⟩
      exact fun heq => hne rfl (heq.symm.trans hp)
  | forget | finish => exact undisturbed_of_eq (fun _ => rfl) fun _ => rfl

/-- The owner holds or awaits a lock. -/
def Table.Involves (T : Table τ ρ μ) (t : τ) : Prop :=
  ∃ r m, (t, m) ∈ T.held r ∨ (t, m) ∈ T.waiting r

/-- Only an action of its own involves an owner. -/
theorem Step.involves {T T' : Table τ ρ μ} {a : Act τ ρ μ} (h : Step fits convertible T a T')
    {t : τ} (ht : a.owner ≠ some t) (hT : T'.Involves t) : T.Involves t := by
  obtain ⟨r, m, hl | hw⟩ := hT
  · rcases h.origin hl with hold | ⟨_, _, rfl | ⟨_, rfl⟩ | rfl⟩
    · exact ⟨r, m, Or.inl hold⟩
    · exact absurd rfl ht
    · exact absurd rfl ht
    · exact ⟨r, m, Or.inr h.woken⟩
  · rcases h.waiting_origin hw with hold | rfl
    · exact ⟨r, m, Or.inr hold⟩
    · exact absurd rfl ht

/-! ## Sequences of actions -/

section Reaches

variable {P : Table τ ρ μ → Act τ ρ μ → Prop} {T T' : Table τ ρ μ}

theorem Reaches.done_mono (h : Reaches fits convertible P T T') : T.done ⊆ T'.done := by
  induction h with
  | refl => exact subset_rfl
  | tail _ hlast ih =>
      obtain ⟨a, ha, _⟩ := hlast
      exact ih.trans ha.done_mono

theorem Reaches.compatible (hsymm : ∀ a b, fits a b → fits b a)
    (h : Reaches fits convertible P T T') (hT : T.Compatible fits) : T'.Compatible fits :=
  h.invariant (fun hs _ hI => hs.compatible hsymm hI) hT

theorem Reaches.indexed (h : Reaches fits convertible P T T') (hT : T.Indexed) : T'.Indexed :=
  h.invariant (fun hs _ hI => hs.indexed hI) hT

theorem Reaches.indexSound (h : Reaches fits convertible P T T') (hT : T.IndexSound) :
    T'.IndexSound :=
  h.invariant (fun hs _ hI => hs.indexSound hI) hT

theorem Reaches.waitsOnce (h : Reaches fits convertible P T T') (hT : T.WaitsOnce) :
    T'.WaitsOnce :=
  h.invariant (fun hs _ hI => hs.waitsOnce hI) hT

theorem Reaches.retains (h : Reaches fits convertible P T T') {t : τ} {r : ρ}
    (ht : t ∉ T'.done) (hl : ∃ m, (t, m) ∈ T.held r) : ∃ m, (t, m) ∈ T'.held r := by
  induction h with
  | refl => exact hl
  | tail _ hlast ih =>
      obtain ⟨a, ha, _⟩ := hlast
      have ht' := fun hd => ht (ha.done_mono hd)
      exact ha.retains ht' (ih ht')

theorem Reaches.keeps (h : Reaches fits convertible P T T') {t : τ} {r : ρ} {m : μ}
    (ht : t ∉ T'.done) (hm : ¬ convertible m) (hl : (t, m) ∈ T.held r) :
    (t, m) ∈ T'.held r := by
  induction h with
  | refl => exact hl
  | tail _ hlast ih =>
      obtain ⟨a, ha, _⟩ := hlast
      have ht' := fun hd => ht (ha.done_mono hd)
      exact ha.keeps ht' hm (ih ht')

theorem Reaches.undisturbed (h : Reaches fits convertible P T T') {t : τ}
    (hP : ∀ T a, P T a → a.owner ≠ some t) : Undisturbed t T T' := by
  induction h with
  | refl => exact Undisturbed.refl t T
  | tail _ hlast ih =>
      obtain ⟨a, ha, hPa⟩ := hlast
      exact ih.trans (ha.undisturbed (hP _ a hPa))

theorem Reaches.involves (h : Reaches fits convertible P T T') {t : τ}
    (hP : ∀ T a, P T a → a.owner ≠ some t) (hT : T'.Involves t) : T.Involves t := by
  by_contra hnot
  exact h.invariant (I := fun T => ¬ T.Involves t)
    (fun hs hPa hno hafter => hno (hs.involves (hP _ _ hPa) hafter)) hnot hT

end Reaches

end LockTable
