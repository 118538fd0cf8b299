import Mathlib.Data.List.Basic

/-!
# Conditions that entries meet on arrival

A history is a list that grows at its end.  `Each P` says that every entry meets
`P` together with the entries before it.  Later entries do not matter to it, so
it is checked entry by entry (`each_concat`).
-/

namespace Arrivals

variable {α : Type*} {P : List α → α → Prop} {l l' : List α}

/-- Every entry meets `P` with the entries before it. -/
def Each (P : List α → α → Prop) (l : List α) : Prop :=
  ∀ before x later, l = before ++ x :: later → P before x

theorem each_nil : Each P ([] : List α) := by
  intro before x later h
  cases before <;> cases h

theorem each_append : Each P (l ++ l') ↔ Each P l ∧ Each (fun before => P (l ++ before)) l' := by
  constructor
  · intro h
    refine ⟨fun before x later heq => ?_, fun before x later heq => ?_⟩
    · exact h before x (later ++ l') (by rw [heq, List.append_assoc]; rfl)
    · exact h (l ++ before) x later (by rw [heq, List.append_assoc])
  · rintro ⟨hl, hl'⟩ before x later heq
    rcases List.append_eq_append_iff.mp heq with ⟨between, hbefore, hlast⟩ | ⟨between, hl₀, hlast⟩
    · rw [hbefore]
      exact hl' between x later hlast
    · cases between with
      | nil =>
          rw [List.append_nil] at hl₀
          rw [← hl₀, ← List.append_nil l]
          exact hl' [] x later hlast.symm
      | cons y between =>
          obtain ⟨rfl, _⟩ := List.cons.inj hlast
          exact hl before x between hl₀

theorem each_concat {x : α} : Each P (l ++ [x]) ↔ Each P l ∧ P l x := by
  rw [each_append]
  refine and_congr_right fun _ => ⟨fun h => ?_, fun h before y later heq => ?_⟩
  · rw [← List.append_nil l]
    exact h [] x [] rfl
  · cases before with
    | nil =>
        cases heq
        rw [List.append_nil]
        exact h
    | cons z before => cases before <;> cases heq

/-- Entries that meet `P` at any time can be added. -/
theorem each_append_of (h : ∀ x ∈ l', ∀ before, P before x) : Each P (l ++ l') ↔ Each P l := by
  rw [each_append]
  refine and_iff_left fun before x later heq => h x ?_ _
  rw [heq]
  exact List.mem_append_right before List.mem_cons_self

/-- Entries that meet a new condition and did not meet the old one are counted on top. -/
theorem countP_or {p q d : α → Bool} (l : List α) (h : ∀ x ∈ l, q x = true → p x = false) :
    l.countP (fun x => (p x || q x) && d x) =
      l.countP (fun x => p x && d x) + l.countP (fun x => d x && q x) := by
  induction l with
  | nil => rfl
  | cons x l ih =>
      rw [List.forall_mem_cons] at h
      rw [List.countP_cons, List.countP_cons, List.countP_cons, ih h.2]
      cases hq : q x with
      | true => simp [h.1 hq]; omega
      | false => simp; omega

end Arrivals
