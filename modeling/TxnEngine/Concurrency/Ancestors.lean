import TxnEngine.Concurrency.LockManager
import Mathlib.Data.List.Perm.Subperm

/-!
# The walk up the parent map

`ancestors` runs on fuel.  Every step of the walk puts a new parent in `seen`,
and the map has no more parents than entries, so the size of the map bounds the
walk and more fuel changes nothing.  A new parent of a resource off the walk
does not change the walk.
-/

namespace TxnEngine

open Std

namespace LockManager

/-- A list of distinct parents is no longer than the map. -/
theorem length_le_size_of_parents {parents : ExtTreeMap Nat Nat} {seen : List Nat}
    (hnodup : seen.Nodup) (hsub : ∀ p ∈ seen, ∃ c : Nat, parents[c]? = some p) :
    seen.length ≤ parents.size := by
  rw [← ExtTreeMap.length_toList, ← List.length_map (f := Prod.snd)]
  refine (List.subperm_of_subset hnodup fun p hp => ?_).length_le
  obtain ⟨c, hc⟩ := hsub p hp
  exact List.mem_map.mpr ⟨(c, p), ExtTreeMap.mem_toList_iff_getElem?_eq_some.mpr hc, rfl⟩

/-- Fuel beyond the number of unseen parents changes nothing. -/
theorem ancestorsFrom_fuel {parents : ExtTreeMap Nat Nat} :
    ∀ {fuel : Nat} (more r : Nat) {seen : List Nat}, seen.Nodup →
      (∀ p ∈ seen, ∃ c : Nat, parents[c]? = some p) → parents.size < fuel + seen.length →
      ancestorsFrom parents (fuel + more) r seen = ancestorsFrom parents fuel r seen
  | 0, more, r, seen, hnodup, hsub, hfuel => by
      have hle := length_le_size_of_parents hnodup hsub
      omega
  | fuel + 1, more, r, seen, hnodup, hsub, hfuel => by
      rw [show fuel + 1 + more = (fuel + more) + 1 by omega, ancestorsFrom, ancestorsFrom]
      cases hp : parents[r]? with
      | none => rfl
      | some parent =>
          dsimp only
          split
          · rfl
          · next hnew =>
              have hsub' : ∀ p ∈ parent :: seen, ∃ c : Nat, parents[c]? = some p := by
                intro p hmem
                rcases List.mem_cons.mp hmem with rfl | hmem
                · exact ⟨r, hp⟩
                · exact hsub p hmem
              have hlen : parents.size < fuel + (parent :: seen).length := by
                rw [List.length_cons]
                omega
              rw [ancestorsFrom_fuel more parent (List.nodup_cons.mpr ⟨hnew, hnodup⟩) hsub' hlen]

/-- The walk with any amount of fuel above the size of the map. -/
theorem ancestors_eq {lm : LockManager} {fuel : Nat} (h : lm.resourceParent.size < fuel)
    (r : Nat) : lm.ancestors r = ancestorsFrom lm.resourceParent fuel r [] := by
  have hfuel : fuel = lm.resourceParent.size + 1 + (fuel - (lm.resourceParent.size + 1)) := by
    omega
  rw [hfuel, ancestors]
  exact (ancestorsFrom_fuel _ r List.nodup_nil (by simp) (by simp)).symm

/-- A parent set for a resource off the walk leaves the walk as it is. -/
theorem ancestorsFrom_insert {parents : ExtTreeMap Nat Nat} {child parent : Nat} :
    ∀ (fuel r : Nat) (seen : List Nat), child ≠ r → child ∉ ancestorsFrom parents fuel r seen →
      ancestorsFrom (parents.insert child parent) fuel r seen = ancestorsFrom parents fuel r seen
  | 0, _, _, _, _ => rfl
  | fuel + 1, r, seen, hne, hout => by
      have hget : (parents.insert child parent)[r]? = parents[r]? := by
        simp [ExtTreeMap.getElem?_insert, hne]
      rw [ancestorsFrom] at hout ⊢
      rw [ancestorsFrom, hget]
      cases hp : parents[r]? with
      | none => rfl
      | some p =>
          rw [hp] at hout
          dsimp only at hout ⊢
          split
          · rfl
          · next hnew =>
              rw [if_neg hnew, List.mem_cons, not_or] at hout
              rw [ancestorsFrom_insert fuel p _ hout.1 hout.2]

theorem ancestors_setResourceParent {lm : LockManager} {child parent r : Nat} (hne : child ≠ r)
    (hout : child ∉ lm.ancestors r) :
    (lm.setResourceParent child parent).ancestors r = lm.ancestors r := by
  -- enough fuel for both maps
  have hold : lm.resourceParent.size <
      lm.resourceParent.size + (lm.setResourceParent child parent).resourceParent.size + 1 := by
    omega
  have hnew : (lm.setResourceParent child parent).resourceParent.size <
      lm.resourceParent.size + (lm.setResourceParent child parent).resourceParent.size + 1 := by
    omega
  rw [ancestors_eq hold] at hout ⊢
  rw [ancestors_eq hnew]
  exact ancestorsFrom_insert _ r [] hne hout

end LockManager

end TxnEngine
