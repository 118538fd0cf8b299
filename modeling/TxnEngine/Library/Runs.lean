import Mathlib.Data.List.Basic
import Mathlib.Logic.Relation

/-!
# Runs of a deterministic machine

A machine is a step function `step : σ → ι → σ`.  Its run on a list of inputs
is the left fold.  The invariant rule proves a property of every run from one
step.

Some properties hold along a run only while each step meets a condition on the
state before it.  `Guarded` is that condition for a whole run, and `Always` is a
property of every state the run passes through.  When one step keeps the
property exactly if its guard holds, the two agree (`always_iff_guarded`).

A step of the machine may itself be a sequence of smaller labelled steps.
`Reaches` is such a sequence, each step allowed by a condition on its label and
the state it is taken in.
-/

namespace Runs

variable {σ ι : Type*} (step : σ → ι → σ)

/-- The state after a list of inputs. -/
def run (s : σ) (inputs : List ι) : σ := inputs.foldl step s

@[simp] theorem run_nil (s : σ) : run step s [] = s := rfl

@[simp] theorem run_cons (s : σ) (i : ι) (is : List ι) :
    run step s (i :: is) = run step (step s i) is := rfl

theorem run_append (s : σ) (is js : List ι) :
    run step s (is ++ js) = run step (run step s is) js :=
  List.foldl_append

@[simp] theorem run_concat (s : σ) (is : List ι) (i : ι) :
    run step s (is ++ [i]) = step (run step s is) i := by
  rw [run_append, run_cons, run_nil]

/-- The invariant rule. -/
theorem invariant {I : σ → Prop} (hstep : ∀ s i, I s → I (step s i)) :
    ∀ {s : σ} (is : List ι), I s → I (run step s is)
  | _, [], h => h
  | s, i :: is, h => invariant hstep is (hstep s i h)

/-! ## Guarded runs -/

/-- Every step of the run meets the guard in the state it is taken in. -/
def Guarded (guard : σ → ι → Prop) : σ → List ι → Prop
  | _, [] => True
  | s, i :: is => guard s i ∧ Guarded guard (step s i) is

/-- The property holds in every state the run passes through. -/
def Always (P : σ → Prop) (s : σ) (is : List ι) : Prop :=
  ∀ js, js <+: is → P (run step s js)

variable {step}

@[simp] theorem guarded_nil {guard : σ → ι → Prop} (s : σ) : Guarded step guard s [] := trivial

@[simp] theorem guarded_cons {guard : σ → ι → Prop} (s : σ) (i : ι) (is : List ι) :
    Guarded step guard s (i :: is) ↔ guard s i ∧ Guarded step guard (step s i) is := Iff.rfl

theorem guarded_append {guard : σ → ι → Prop} :
    ∀ (s : σ) (is js : List ι), Guarded step guard s (is ++ js) ↔
      Guarded step guard s is ∧ Guarded step guard (run step s is) js
  | s, [], js => by simp
  | s, i :: is, js => by
      simp only [List.cons_append, guarded_cons, run_cons, guarded_append (step s i) is js,
        and_assoc]

instance decidableGuarded {guard : σ → ι → Prop} [∀ s i, Decidable (guard s i)] :
    ∀ (s : σ) (is : List ι), Decidable (Guarded step guard s is)
  | _, [] => instDecidableTrue
  | s, i :: is => @instDecidableAnd (guard s i) _ _ (decidableGuarded (step s i) is)

/-- A guarded run stays guarded when it is cut short. -/
theorem Guarded.of_prefix {guard : σ → ι → Prop} {s : σ} {is js : List ι}
    (h : Guarded step guard s is) (hp : js <+: is) : Guarded step guard s js := by
  obtain ⟨ks, rfl⟩ := hp
  exact ((guarded_append s js ks).mp h).1

theorem Guarded.mono {guard guard' : σ → ι → Prop} (himp : ∀ s i, guard s i → guard' s i) :
    ∀ {s : σ} {is : List ι}, Guarded step guard s is → Guarded step guard' s is
  | _, [], _ => trivial
  | _, _ :: _, h => ⟨himp _ _ h.1, Guarded.mono himp h.2⟩

/-- Inputs that meet the guard in every state. -/
theorem guarded_of_mem {guard : σ → ι → Prop} : ∀ {is : List ι} {s : σ},
    (∀ i ∈ is, ∀ s, guard s i) → Guarded step guard s is
  | [], _, _ => trivial
  | i :: _, s, h => ⟨h i List.mem_cons_self s, guarded_of_mem fun j hj => h j (.tail i hj)⟩

/-- Two guards in one. -/
theorem Guarded.and {guard guard' : σ → ι → Prop} : ∀ {s : σ} {is : List ι},
    Guarded step guard s is → Guarded step guard' s is →
      Guarded step (fun s i => guard s i ∧ guard' s i) s is
  | _, [], _, _ => trivial
  | _, _ :: _, h, h' => ⟨⟨h.1, h'.1⟩, h.2.and h'.2⟩

theorem guarded_congr {guard guard' : σ → ι → Prop} (h : ∀ s i, guard s i ↔ guard' s i) (s : σ)
    (is : List ι) : Guarded step guard s is ↔ Guarded step guard' s is :=
  ⟨Guarded.mono fun s i => (h s i).mp, Guarded.mono fun s i => (h s i).mpr⟩

/-- The invariant rule for guarded runs. -/
theorem Guarded.invariant {guard : σ → ι → Prop} {I : σ → Prop}
    (hstep : ∀ s i, I s → guard s i → I (step s i)) :
    ∀ {s : σ} {is : List ι}, Guarded step guard s is → I s → I (run step s is)
  | _, [], _, h => h
  | s, i :: is, hg, h => by
      rw [run_cons]
      exact Guarded.invariant hstep hg.2 (hstep s i h hg.1)

/-- What an input establishes and later steps keep holds at the end of the run. -/
theorem Guarded.of_mem {α : Type*} {guard : σ → ι → Prop} {I : σ → Prop} {P : σ → α → Prop}
    {f : ι → Option α} (hI : ∀ s i, I s → guard s i → I (step s i))
    (hnew : ∀ s i a, I s → guard s i → f i = some a → P (step s i) a)
    (hold : ∀ s i a, I s → guard s i → P s a → P (step s i) a) :
    ∀ {s : σ} {is : List ι}, Guarded step guard s is → I s →
      ∀ a ∈ is.filterMap f, P (run step s is) a
  | s, i :: is, hg, h, a, hmem => by
      have hrest : P (step s i) a → P (run step (step s i) is) a := fun hP =>
        (hg.2.invariant (I := fun s => I s ∧ P s a)
          (fun s i h hi => ⟨hI s i h.1 hi, hold s i a h.1 hi h.2⟩) ⟨hI s i h hg.1, hP⟩).2
      rw [List.filterMap_cons] at hmem
      cases hf : f i with
      | none =>
          rw [hf] at hmem
          exact Guarded.of_mem hI hnew hold hg.2 (hI s i h hg.1) a hmem
      | some b =>
          rw [hf] at hmem
          rcases List.mem_cons.mp hmem with rfl | hmem
          · exact hrest (hnew s i a h hg.1 hf)
          · exact Guarded.of_mem hI hnew hold hg.2 (hI s i h hg.1) a hmem

/-- A counter that only the inputs with `p` raise, by one, stays below a bound all
along a run with few of them. -/
theorem guarded_of_countP {count : σ → Nat} {p : ι → Bool} {bound : Nat}
    (hstep : ∀ s i, count (step s i) ≤ count s + if p i then 1 else 0) :
    ∀ (is : List ι) (s : σ), count s + is.countP p < bound →
      Guarded step (fun s i => p i = true → count s + 1 < bound) s is
  | [], _, _ => trivial
  | i :: is, s, h => by
      rw [List.countP_cons] at h
      have hnext := hstep s i
      refine ⟨fun hp => ?_, guarded_of_countP hstep is (step s i) (by omega)⟩
      rw [if_pos hp] at h
      omega

/-- If every step keeps `P` exactly when its guard holds, and nothing restores
`P`, then `P` holds after a run exactly when the run is guarded. -/
theorem run_iff_guarded {guard : σ → ι → Prop} {I P : σ → Prop}
    (hI : ∀ s i, I s → I (step s i)) (hP : ∀ s i, I s → (P (step s i) ↔ P s ∧ guard s i)) :
    ∀ {s : σ} (is : List ι), I s → (P (run step s is) ↔ P s ∧ Guarded step guard s is)
  | s, [], _ => by simp
  | s, i :: is, hs => by
      rw [run_cons, guarded_cons, run_iff_guarded hI hP is (hI s i hs), hP s i hs, and_assoc]

/-! ## Properties of every state passed through -/

theorem Always.last {P : σ → Prop} {s : σ} {is : List ι} (h : Always step P s is) :
    P (run step s is) := h is List.prefix_rfl

theorem Always.head {P : σ → Prop} {s : σ} {is : List ι} (h : Always step P s is) : P s :=
  h [] (List.nil_prefix)

/-- A guarded run stays in the invariant all along. -/
theorem Guarded.always {guard : σ → ι → Prop} {I : σ → Prop}
    (hstep : ∀ s i, I s → guard s i → I (step s i)) {s : σ} {is : List ι}
    (hg : Guarded step guard s is) (h : I s) : Always step I s is :=
  fun _ hjs => (hg.of_prefix hjs).invariant hstep h

@[simp] theorem always_nil {P : σ → Prop} (s : σ) : Always step P s [] ↔ P s := by
  simp [Always]

theorem always_cons {P : σ → Prop} (s : σ) (i : ι) (is : List ι) :
    Always step P s (i :: is) ↔ P s ∧ Always step P (step s i) is := by
  constructor
  · intro h
    refine ⟨h.head, fun js hjs => ?_⟩
    exact h (i :: js) (List.prefix_cons_inj i |>.mpr hjs)
  · rintro ⟨h, hrest⟩ js hjs
    cases js with
    | nil => exact h
    | cons j js =>
        obtain ⟨rfl, htail⟩ := List.cons_prefix_cons.mp hjs
        exact hrest js htail

/-- If `I` is an invariant and, in a state with `I` and `P`, a step keeps `P`
exactly when its guard holds, then `P` holds all along a run exactly when the
run is guarded. -/
theorem always_iff_guarded {guard : σ → ι → Prop} {I P : σ → Prop}
    (hI : ∀ s i, I s → I (step s i))
    (hP : ∀ s i, I s → P s → (P (step s i) ↔ guard s i)) :
    ∀ {s : σ} (is : List ι), I s → P s → (Always step P s is ↔ Guarded step guard s is)
  | s, [], _, h => by simp [h]
  | s, i :: is, hs, h => by
      rw [always_cons, guarded_cons]
      constructor
      · rintro ⟨_, hrest⟩
        exact ⟨(hP s i hs h).mp hrest.head,
          (always_iff_guarded hI hP is (hI s i hs) hrest.head).mp hrest⟩
      · rintro ⟨hg, hrest⟩
        have h' := (hP s i hs h).mpr hg
        exact ⟨h, (always_iff_guarded hI hP is (hI s i hs) h').mpr hrest⟩

/-! ## Sequences of labelled steps -/

section Reaches

variable {α : Type*} {small : σ → α → σ → Prop} {P Q : σ → α → Prop} {s s' s'' : σ}

/-- Sequences of labelled steps, each allowed by `P` in the state it is taken
in. -/
def Reaches (small : σ → α → σ → Prop) (P : σ → α → Prop) : σ → σ → Prop :=
  Relation.ReflTransGen fun s s' => ∃ a, small s a s' ∧ P s a

theorem Reaches.refl : Reaches small P s s := Relation.ReflTransGen.refl

theorem Reaches.trans (h : Reaches small P s s') (h' : Reaches small P s' s'') :
    Reaches small P s s'' :=
  Relation.ReflTransGen.trans h h'

theorem Reaches.single {a : α} (h : small s a s') (ha : P s a) : Reaches small P s s' :=
  Relation.ReflTransGen.single ⟨a, h, ha⟩

/-- The invariant rule for sequences of allowed steps. -/
theorem Reaches.invariant {I : σ → Prop} (h : Reaches small P s s')
    (hstep : ∀ {s s' a}, small s a s' → P s a → I s → I s') (hI : I s) : I s' := by
  induction h with
  | refl => exact hI
  | tail _ hlast ih =>
      obtain ⟨a, ha, hPa⟩ := hlast
      exact hstep ha hPa ih

theorem Reaches.mono (himp : ∀ s a, P s a → Q s a) (h : Reaches small P s s') :
    Reaches small Q s s' := by
  induction h with
  | refl => exact .refl
  | tail _ hlast ih =>
      obtain ⟨a, hs, ha⟩ := hlast
      exact ih.tail ⟨a, hs, himp _ a ha⟩

end Reaches

end Runs
