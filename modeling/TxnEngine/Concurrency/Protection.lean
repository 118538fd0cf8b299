import TxnEngine.Concurrency.Exchanges

/-!
# Requests that weaken a lock

A lock protects by what it is not compatible with.  `requestLockOnResource` puts
the requested mode in the place of the one it finds, whichever of the two
conflicts with more, and `requestLock` does the same in the intention mode on
every ancestor.  A transaction that holds `shared` and asks for
`intentionExclusive` no longer keeps writers of the intention kind out.

`LosesConflict` says that an exchange does this harm.  A call keeps every
conflict exactly when none of its exchanges does it, or the exchange on the
resource itself repairs it (`protection_kept_iff`).
-/

namespace TxnEngine

/-- A transaction has a lock that is not compatible with the mode. -/
def Conflicts (locks : List Lock) (t : Nat) (k : LockType) : Prop :=
  ∃ lock ∈ locks, lock.transactionId = t ∧ isCompatible lock.lockType k = false

namespace LockManager

/-- The request exchanges a lock, and the transaction no longer conflicts with `k`. -/
def LosesConflict (locks : List Lock) (t : Nat) (m k : LockType) : Prop :=
  exchanges locks t m = true ∧ Conflicts locks t k ∧ isCompatible m k = true ∧
    ¬ Conflicts (locks.eraseP fun lock => lock.transactionId == t) t k

/-- After a call of its own, a transaction that is not completed still conflicts with
whatever a lock of it conflicted with. -/
def KeepsProtection (lm : LockManager) : LockOp → Prop
  | .requestLock t r m => t ∉ lm.completedTransactions →
      ∀ a, ∀ lock ∈ lm.locksOn a, lock.transactionId = t →
        ∀ k, isCompatible lock.lockType k = false →
          Conflicts ((lm.requestLock t r m).2.locksOn a) t k
  | _ => True

/-- No exchange of the call loses a conflict that the transaction had before, unless
the resource is on its own ancestor cycle and its own request, which comes last,
brings the conflict back. -/
def ProtectionGuard (lm : LockManager) : LockOp → Prop
  | .requestLock t r m => t ∉ lm.completedTransactions →
      (∀ before b i after, lm.ancestorRequests r m = before ++ (b, i) :: after →
        lm.AllAdmitted t before → ∀ k, LosesConflict (lm.locksOn b) t i k →
          b = r ∧ lm.AllAdmitted t (lm.ancestorRequests r m) ∧
            exchanges (lm.locksAtTurn t r m) t m = true ∧ isCompatible m k = false) ∧
      (lm.AllAdmitted t (lm.ancestorRequests r m) → ∀ k, Conflicts (lm.locksOn r) t k →
        ¬ LosesConflict (lm.locksAtTurn t r m) t m k)
  | _ => True

variable {t : Nat} {k : LockType}

/-- Losing a conflict, in general terms. -/
theorem losesConflict_iff {locks : List Lock} {i : LockType} : LosesConflict locks t i k ↔
    Loses (fun lock => lock.transactionId = t ∧ isCompatible lock.lockType k = false)
      locks t i := by
  simp only [LosesConflict, Loses, Conflicts, true_and, Bool.not_eq_false]

theorem keepsProtection_iff (lm : LockManager) (op : LockOp) :
    lm.KeepsProtection op ↔ lm.ProtectionGuard op := by
  cases op with
  | setResourceParent | releaseLock | completeTransaction => exact Iff.rfl
  | requestLock t r m =>
      refine forall_congr' fun active => ?_
      have hkeeps := fun a k => keeps_iff (r := r) (m := m) (a := a)
        (p := fun lock => lock.transactionId = t ∧ isCompatible lock.lockType k = false) active
      simp only [LosesNone, ← losesConflict_iff, true_and] at hkeeps
      constructor
      · intro hall
        have hnone : ∀ a k, _ := fun a k => (hkeeps a k).mp (by
          rintro ⟨lock, hmem, hid, hinc⟩
          exact hall a lock hmem hid k hinc)
        exact ⟨fun before b i after hsplit hbefore k => (hnone b k).1 before i after hsplit hbefore,
          fun hadmitted k => (hnone r k).2 rfl hadmitted⟩
      · rintro ⟨hancestors, hown⟩ a lock hmem hid k hinc
        refine (hkeeps a k).mpr ⟨fun before i after hsplit hbefore =>
          hancestors before a i after hsplit hbefore k, fun _ hadmitted => hown hadmitted k⟩ ?_
        exact ⟨lock, hmem, hid, hinc⟩

/-- No call of a run weakens what its transaction protects exactly if each call meets
the condition in the state before it. -/
theorem protection_kept_iff (alloc : List Nat) (ops : List LockOp) :
    Runs.Guarded step KeepsProtection (empty alloc) ops ↔
      Runs.Guarded step ProtectionGuard (empty alloc) ops :=
  Runs.guarded_congr keepsProtection_iff (empty alloc) ops

/-- Transaction 1 reads the whole of table 1 and then writes its row 2. -/
def tableThenRowOps : List LockOp :=
  [.setResourceParent 2 1, .requestLock 1 1 .shared, .requestLock 1 2 .exclusive]

theorem protection_kept_fails :
    ¬ ∀ (alloc : List Nat) (ops : List LockOp),
      Runs.Guarded step KeepsProtection (empty alloc) ops := by
  intro h
  have hlast : (Runs.run step (empty []) (tableThenRowOps.take 2)).KeepsProtection
      (.requestLock 1 2 .exclusive) := (h [] tableThenRowOps).2.2.1
  have hkept := hlast (by decide) 1 ⟨1, .shared⟩ (by decide) rfl .intentionExclusive (by decide)
  obtain ⟨lock, hmem, _, hinc⟩ := hkept
  have hlocks : ((Runs.run step (empty []) (tableThenRowOps.take 2)).requestLock 1 2
      .exclusive).2.locksOn 1 = [⟨1, .intentionExclusive⟩] := by decide
  rw [hlocks, List.mem_singleton] at hmem
  subst hmem
  cases hinc

end LockManager

end TxnEngine
