import TxnEngine.Concurrency.LockSteps

/-!
# Held locks are compatible

In every state the lock manager can reach, two locks of different transactions
on one resource are compatible both ways.  Locks enter the set on three paths,
and the lock table has one action for each.  Each asks for compatibility with
the locks of the others, and a release takes locks away.
-/

namespace TxnEngine

open LockTable

namespace LockManager

/-- Locks of different transactions on one resource are compatible both ways. -/
def MutuallyCompatible (lm : LockManager) : Prop :=
  ∀ r, ∀ a ∈ lm.locksOn r, ∀ b ∈ lm.locksOn r, a.transactionId ≠ b.transactionId →
    isCompatible a.lockType b.lockType = true ∧ isCompatible b.lockType a.lockType = true

theorem mutuallyCompatible_iff (lm : LockManager) :
    lm.MutuallyCompatible ↔ lm.table.Compatible Fits := by
  constructor
  · intro h r t t' m m' hm hm' hne
    exact h r _ (lm.mem_table_held.mp hm) _ (lm.mem_table_held.mp hm') hne
  · intro h r a ha b hb hne
    exact h r _ _ _ _ (lm.mem_table_held.mpr ha) (lm.mem_table_held.mpr hb) hne

theorem compatible_empty (alloc : List Nat) : (empty alloc).table.Compatible Fits := by
  intro r t t' m m' hm
  simp [table_empty] at hm

/-- Every state a run reaches has compatible locks. -/
theorem compatible_run (alloc : List Nat) (ops : List LockOp) :
    (Runs.run step (empty alloc) ops).table.Compatible Fits :=
  (run_reaches ops (empty alloc)).compatible fits_symm (compatible_empty alloc)

/-- An exclusive lock stands alone among compatible locks. -/
theorem MutuallyCompatible.exclusive_alone {lm : LockManager} (h : lm.MutuallyCompatible)
    {r : Nat} {a b : Lock} (ha : a ∈ lm.locksOn r) (hb : b ∈ lm.locksOn r)
    (hx : a.lockType = .exclusive) : b.transactionId = a.transactionId := by
  by_cases hid : a.transactionId = b.transactionId
  · exact hid.symm
  · obtain ⟨hab, _⟩ := h r a ha b hb hid
    rw [hx] at hab
    simp [isCompatible] at hab

/-- Mutual compatibility of the held locks, for every allocator and every
sequence of operations, and no lock of another transaction beside an exclusive
one. -/
theorem held_locks_compatible (alloc : List Nat) (ops : List LockOp) :
    (Runs.run step (empty alloc) ops).MutuallyCompatible ∧
      ∀ r t t', (⟨t, .exclusive⟩ : Lock) ∈ (Runs.run step (empty alloc) ops).locksOn r →
        (Runs.run step (empty alloc) ops).hasLock t' r = true → t' = t := by
  have h := (mutuallyCompatible_iff _).mpr (compatible_run alloc ops)
  refine ⟨h, ?_⟩
  intro r t t' hx hlock
  obtain ⟨lock, hmem, rfl⟩ := (hasLock_iff _).mp hlock
  exact h.exclusive_alone hx hmem rfl

/-- Two readers share a resource, and a writer has another alone. -/
def readersOps : List LockOp :=
  [.requestLock 1 42 .shared, .requestLock 2 42 .shared, .requestLock 1 7 .exclusive,
    .requestLock 2 7 .shared]

theorem held_locks_compatible_readers :
    isCompatible .shared .shared = true ∧
      ((Runs.run step (empty [0]) readersOps).hasLock 2 7 = true → 2 = 1) := by
  obtain ⟨hcompat, halone⟩ := held_locks_compatible [0] readersOps
  constructor
  · exact (hcompat 42 ⟨1, .shared⟩ (by decide) ⟨2, .shared⟩ (by decide) (by decide)).1
  · exact halone 7 1 2 (by decide)

end LockManager

end TxnEngine
