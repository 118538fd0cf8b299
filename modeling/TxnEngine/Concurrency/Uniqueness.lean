import TxnEngine.Concurrency.Representation

/-!
# One lock for each transaction and resource

`requestLockOnResource` stops at the first lock of the transaction it finds and
replaces that one.  `processWaitQueue` only adds locks.  A transaction whose
conversion had to wait still holds its old lock, and when the queue lets it
through it gets a second one.

A run keeps the locks unique exactly when no release wakes a request of a
transaction that still holds a lock on the resource (`one_lock_each_iff`).
-/

namespace TxnEngine

namespace LockManager

/-- No transaction has two locks on one resource. -/
def OneLockEach (lm : LockManager) : Prop :=
  ∀ r, ((lm.locksOn r).map Lock.transactionId).Nodup

/-- When `t` leaves the resource, whoever is woken has no lock there. -/
def WakesNewcomers (lm : LockManager) (t r : Nat) : Prop :=
  ∀ request ∈ lm.wokenBy t r, request.transactionId ≠ t →
    lm.hasLock request.transactionId r = false

/-- A release that takes place wakes newcomers only, and so does a completion on every
resource it releases. -/
def NewcomerGuard (lm : LockManager) : LockOp → Prop
  | .releaseLock t r => t ∈ lm.completedTransactions → lm.hasLock t r = true →
      lm.WakesNewcomers t r
  | .completeTransaction t => ∀ r ∈ lm.heldResources t, lm.WakesNewcomers t r
  | _ => True

variable {lm : LockManager} {t r : Nat} {m : LockType}

/-! ## Requests -/

/-- Erasing the first lock of a transaction leaves none, if it has one. -/
theorem not_mem_eraseP {locks : List Lock} (h : (locks.map Lock.transactionId).Nodup) :
    t ∉ (locks.eraseP fun lock => lock.transactionId == t).map Lock.transactionId := by
  induction locks with
  | nil => simp
  | cons lock locks ih =>
      obtain ⟨hnotin, hnodup⟩ := List.nodup_cons.mp h
      by_cases hid : lock.transactionId = t
      · rw [List.eraseP_cons_of_pos (by simpa using hid)]
        exact hid ▸ hnotin
      · rw [List.eraseP_cons_of_neg (by simpa using hid), List.map_cons, List.mem_cons, not_or]
        exact ⟨Ne.symm hid, ih hnodup⟩

/-- A request puts at most one lock where the one it takes away was. -/
theorem oneLockEach_request (active : t ∉ lm.completedTransactions) (h : lm.OneLockEach) :
    (lm.requestLockOnResource t r m).2.OneLockEach := by
  have hout := requestLockOnResource_answered (r := r) (m := m) active
  intro r'
  rw [hout.locks]
  split
  · have hperm := (perm_insertAt (lm.alloc.headD 0) (⟨t, m⟩ : Lock)
      ((lm.locksOn r).eraseP fun lock => lock.transactionId == t)).map Lock.transactionId
    rw [exchanged, hperm.nodup_iff, List.map_cons, List.nodup_cons]
    exact ⟨not_mem_eraseP (h r), (h r).sublist (List.eraseP_sublist.map _)⟩
  · exact h r'

/-! ## Releases -/

/-- The locks after a release are unique exactly if only newcomers are woken. -/
theorem nodup_released_iff (hagree : lm.TablesAgree) (h : lm.OneLockEach) {locks : List Lock}
    (hlocks : locks.Perm ((lm.wokenBy t r).map LockRequest.toLock ++ lm.othersOn t r)) :
    (locks.map Lock.transactionId).Nodup ↔ lm.WakesNewcomers t r := by
  have hwoken : ((lm.wokenBy t r).map LockRequest.transactionId).Nodup :=
    (hagree.waits_once r).sublist ((grantable_isPrefix _ _).sublist.map _)
  have hothers : ((lm.othersOn t r).map Lock.transactionId).Nodup :=
    (h r).sublist (List.filter_sublist.map _)
  have hsame : (lm.wokenBy t r).map (Lock.transactionId ∘ LockRequest.toLock) =
      (lm.wokenBy t r).map LockRequest.transactionId := rfl
  rw [(hlocks.map _).nodup_iff, List.map_append, List.map_map, hsame, List.nodup_append]
  constructor
  · intro ⟨_, _, hapart⟩ request hmem hne
    rw [Bool.eq_false_iff, Ne, hasLock_iff]
    intro ⟨lock, hlock, hid⟩
    exact hapart _ (List.mem_map_of_mem hmem) _
      (List.mem_map_of_mem (lm.mem_othersOn.mpr ⟨hlock, hid ▸ hne⟩)) hid.symm
  · intro hnew
    refine ⟨hwoken, hothers, fun t' ht' t'' ht'' heq => ?_⟩
    obtain ⟨request, hmem, rfl⟩ := List.mem_map.mp ht'
    obtain ⟨lock, hlock, rfl⟩ := List.mem_map.mp ht''
    obtain ⟨hheld, hne⟩ := lm.mem_othersOn.mp hlock
    have hno := hnew request hmem (heq ▸ hne)
    rw [Bool.eq_false_iff, Ne, hasLock_iff] at hno
    exact hno ⟨lock, hheld, heq.symm⟩

/-- What one step does to the property, in a state whose tables agree. -/
theorem oneLockEach_step (hagree : lm.TablesAgree) (h : lm.OneLockEach) (op : LockOp) :
    (lm.step op).OneLockEach ↔ lm.NewcomerGuard op := by
  cases op with
  | setResourceParent child parent => exact iff_of_true h trivial
  | requestLock t r m =>
      refine iff_of_true ?_ trivial
      exact requestLock_invariant (fun lm r m active h => oneLockEach_request active h) lm h
  | releaseLock t r =>
      rw [step, NewcomerGuard]
      by_cases hboth : t ∈ lm.completedTransactions ∧ lm.hasLock t r = true
      · have hiff := nodup_released_iff hagree h (lm.releaseLock_spec hboth.1 hboth.2).1
        constructor
        · exact fun hafter _ _ => hiff.mp (hafter r)
        · intro hguard r'
          by_cases hr : r' = r
          · subst hr
            exact hiff.mpr (hguard hboth.1 hboth.2)
          · rw [(lm.releaseLock_other hr).1]
            exact h r'
      · rw [releaseLock_eq, if_neg hboth]
        exact iff_of_true h fun ht hlock => absurd ⟨ht, hlock⟩ hboth
  | completeTransaction t =>
      rw [step, NewcomerGuard]
      constructor
      · intro hafter r hr
        have hlock := hagree.locked_of_indexed t r hr
        exact (nodup_released_iff hagree h
          ((lm.completeTransaction_spec t r).1 ⟨hr, hlock⟩).1).mp (hafter r)
      · intro hguard r
        obtain ⟨hin, hout⟩ := lm.completeTransaction_spec t r
        by_cases hc : r ∈ lm.heldResources t ∧ lm.hasLock t r = true
        · exact (nodup_released_iff hagree h (hin hc).1).mpr (hguard r hc.1)
        · rw [(hout hc).1]
          exact h r

/-! ## Runs -/

/-- The locks are unique all along a run exactly when every release in it wakes
newcomers only. -/
theorem one_lock_each_iff (alloc : List Nat) (ops : List LockOp) :
    Runs.Always step OneLockEach (empty alloc) ops ↔
      Runs.Guarded step NewcomerGuard (empty alloc) ops := by
  refine Runs.always_iff_guarded (I := TablesAgree) tablesAgree_step
    (fun lm op hagree h => oneLockEach_step hagree h op) ops (tablesAgree_empty alloc) ?_
  intro r
  simp [locksOn, empty]

/-- Transaction 1 holds an intention lock beside a reader, and waits to exchange it.
When the reader completes, transaction 1 gets a second lock. -/
def waitingConversionOps : List LockOp :=
  [.requestLock 1 5 .intentionShared, .requestLock 2 5 .shared,
    .requestLock 1 5 .intentionExclusive, .completeTransaction 2]

theorem one_lock_each_fails :
    ¬ ∀ (alloc : List Nat) (ops : List LockOp),
      Runs.Always step OneLockEach (empty alloc) ops := by
  intro h
  have hlast := (h [] waitingConversionOps).last 5
  revert hlast
  decide

end LockManager

end TxnEngine
