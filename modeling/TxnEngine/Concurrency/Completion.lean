import TxnEngine.Concurrency.LockSteps

/-!
# What completed transactions hold

`completeTransaction` releases every lock of the transaction, but leaves its
waiting requests in the queues, and `processWaitQueue` grants a request without
asking whether its transaction is completed.  A completed transaction can so be
given a lock, and then nobody releases it.

`CompletionGuard` says when this does not happen: none of the requests that the
completion wakes belongs to a completed transaction.  A run keeps completed
transactions free of locks exactly when each of its steps meets that guard
(`completed_hold_nothing_iff`).
-/

namespace TxnEngine

open LockTable

namespace LockManager

/-- No completed transaction holds a lock. -/
def CompletedHoldNothing (lm : LockManager) : Prop :=
  ∀ t ∈ lm.completedTransactions, ∀ r, lm.hasLock t r = false

/-- A completion of `t` wakes no request of `t` and none of a transaction that is
completed already.  Other operations meet the guard. -/
def CompletionGuard (lm : LockManager) : LockOp → Prop
  | .completeTransaction t => ∀ r, lm.hasLock t r = true → ∀ request ∈ lm.wokenBy t r,
      request.transactionId ≠ t ∧ request.transactionId ∉ lm.completedTransactions
  | _ => True

variable {lm : LockManager}

/-- The property, lock by lock. -/
theorem completedHoldNothing_iff_locks : lm.CompletedHoldNothing ↔
    ∀ r, ∀ lock ∈ lm.locksOn r, lock.transactionId ∉ lm.completedTransactions := by
  constructor
  · intro h r lock hmem hover
    have hlock : lm.hasLock lock.transactionId r = true := lm.hasLock_iff.mpr ⟨lock, hmem, rfl⟩
    rw [h _ hover r] at hlock
    cases hlock
  · intro h t ht r
    rw [Bool.eq_false_iff]
    intro hlock
    obtain ⟨lock, hmem, rfl⟩ := lm.hasLock_iff.mp hlock
    exact h r lock hmem ht

theorem completedHoldNothing_iff_settled : lm.CompletedHoldNothing ↔ lm.table.Settled := by
  rw [completedHoldNothing_iff_locks]
  constructor
  · intro h t ht r m hm
    exact h r _ (lm.mem_table_held.mp hm) ht
  · intro h r lock hmem hover
    exact h _ hover r lock.lockType (lm.mem_table_held.mpr hmem)

/-! ## Completion -/

/-- The locks after a completion, when the index of `t` is complete: on the
resources `t` held they are those of the others and those granted to waiters. -/
theorem mem_completeTransaction {t : Nat} (hindex : ∀ r, lm.hasLock t r = true →
    r ∈ lm.heldResources t) (r : Nat) (lock : Lock) :
    lock ∈ (lm.completeTransaction t).2.locksOn r ↔
      if lm.hasLock t r = true then
        (∃ request ∈ lm.wokenBy t r, request.toLock = lock) ∨
          lock ∈ lm.locksOn r ∧ lock.transactionId ≠ t
      else lock ∈ lm.locksOn r := by
  obtain ⟨hin, hout⟩ := lm.completeTransaction_spec t r
  by_cases hlock : lm.hasLock t r = true
  · rw [if_pos hlock, (hin ⟨hindex r hlock, hlock⟩).1.mem_iff, List.mem_append, List.mem_map,
      mem_othersOn]
  · rw [if_neg hlock, (hout fun hc => hlock hc.2).1]

/-- What a completion does to the property, in a state with a complete index. -/
theorem completedHoldNothing_complete (hindex : lm.table.Indexed)
    (h : lm.CompletedHoldNothing) (t : Nat) :
    (lm.completeTransaction t).2.CompletedHoldNothing ↔
      lm.CompletionGuard (.completeTransaction t) := by
  rw [completedHoldNothing_iff_locks] at h ⊢
  have hidx : ∀ r, lm.hasLock t r = true → r ∈ lm.heldResources t := by
    intro r hlock
    obtain ⟨⟨t', m⟩, hmem, rfl⟩ := lm.hasLock_iff.mp hlock
    exact hindex t' (h r _ hmem) r m (lm.mem_table_held.mpr hmem)
  have hlocks := mem_completeTransaction hidx
  constructor
  · intro hafter r hlock request hwoken
    have hmem : request.toLock ∈ (lm.completeTransaction t).2.locksOn r := by
      rw [hlocks, if_pos hlock]
      exact Or.inl ⟨request, hwoken, rfl⟩
    have hfree := hafter r _ hmem
    rw [mem_completeTransaction_completed, not_or] at hfree
    exact hfree
  · intro hguard r lock hmem
    rw [mem_completeTransaction_completed, not_or]
    rw [hlocks] at hmem
    split at hmem
    · next hlock =>
        rcases hmem with ⟨request, hwoken, rfl⟩ | ⟨hold, hne⟩
        · exact hguard r hlock request hwoken
        · exact ⟨hne, h r lock hold⟩
    · next hlock =>
        exact ⟨fun heq => hlock (lm.hasLock_iff.mpr ⟨lock, hmem, heq⟩), h r lock hmem⟩

/-! ## Runs -/

/-- What one step does to the property, in a state with a complete index. -/
theorem completedHoldNothing_step (hindex : lm.table.Indexed) (h : lm.CompletedHoldNothing)
    (op : LockOp) : (lm.step op).CompletedHoldNothing ↔ lm.CompletionGuard op := by
  cases op with
  | setResourceParent child parent => exact iff_of_true h trivial
  | requestLock t r m =>
      refine iff_of_true (completedHoldNothing_iff_settled.mpr ?_) trivial
      refine (lm.requestLock_reaches t r m).invariant ?_ (completedHoldNothing_iff_settled.mp h)
      rintro T T' a hstep ⟨r', _, m', hact⟩ hT
      refine hstep.settled ?_ ?_ hT
      · rintro t' r'' m'' rfl
        rcases hact with hact | ⟨_, hact⟩ | hact <;> cases hact
      · rintro t' rfl
        rcases hact with hact | ⟨_, hact⟩ | hact <;> cases hact
  | releaseLock t r =>
      -- a completed transaction has nothing to release
      have hno : ¬ (t ∈ lm.completedTransactions ∧ lm.hasLock t r = true) := by
        rintro ⟨hover, hlock⟩
        rw [h t hover r] at hlock
        cases hlock
      have hsame : lm.step (.releaseLock t r) = lm := by rw [step, releaseLock_eq, if_neg hno]
      rw [hsame]
      exact iff_of_true h trivial
  | completeTransaction t => exact completedHoldNothing_complete hindex h t

/-- The completed transactions hold nothing all along a run exactly when no
completion in it wakes a completed transaction. -/
theorem completed_hold_nothing_iff (alloc : List Nat) (ops : List LockOp) :
    Runs.Always step CompletedHoldNothing (empty alloc) ops ↔
      Runs.Guarded step CompletionGuard (empty alloc) ops := by
  refine Runs.always_iff_guarded (I := fun lm => lm.table.Indexed)
    (fun lm op h => (lm.step_reaches op).indexed h)
    (fun lm op hindex h => completedHoldNothing_step hindex h op) ops ?_ ?_
  · intro t _ r m hm
    simp [table_empty] at hm
  · intro t ht
    simp [empty] at ht

/-- Transaction 2 waits behind transaction 1 and completes.  When transaction 1
completes, transaction 2 is given the exclusive lock. -/
def zombieOps : List LockOp :=
  [.requestLock 1 5 .exclusive, .requestLock 2 5 .exclusive, .completeTransaction 2,
    .completeTransaction 1]

/-- Completed transactions can hold locks. -/
theorem completed_hold_nothing_fails :
    ¬ ∀ (alloc : List Nat) (ops : List LockOp),
      Runs.Always step CompletedHoldNothing (empty alloc) ops := by
  intro h
  have hlast := (h [] zombieOps).last 2 (by decide) 5
  revert hlast
  decide

end LockManager

end TxnEngine
