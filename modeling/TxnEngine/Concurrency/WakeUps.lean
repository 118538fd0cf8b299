import TxnEngine.Concurrency.Exchanges
import TxnEngine.Concurrency.WaitQueues

/-!
# Lost wake-ups

The request at the front of a wait queue should wait for somebody else.  The queue
is looked at only when a lock is released, and then `processWaitQueue` compares
the front with every lock, those of its own transaction included, which
`requestLockOnResource` passes over.  So a front that waits to upgrade stays
although it could go on, and an exchange of a lock for a weaker one wakes nobody.

Nothing else loses a wake-up: no state of a run has a front that waits for nobody
else exactly if each step meets `WakeUpGuard` in the state before it
(`no_wake_up_lost_iff`).
-/

namespace TxnEngine

open LockTable

/-- Compatibility is symmetric. -/
theorem isCompatible_comm (a b : LockType) : isCompatible a b = isCompatible b a := by
  cases a <;> cases b <;> rfl

theorem not_fits_iff {a b : LockType} : ¬ Fits a b ↔ isCompatible a b = false := by
  rw [Fits, isCompatible_comm b a, and_self, Bool.not_eq_true]

/-- A lock of somebody else is incompatible with a request. -/
def Blocked (locks : List Lock) (request : LockRequest) : Prop :=
  ∃ lock ∈ locks, lock.transactionId ≠ request.transactionId ∧
    isCompatible lock.lockType request.lockType = false

instance (locks : List Lock) (request : LockRequest) : Decidable (Blocked locks request) :=
  inferInstanceAs (Decidable (∃ lock ∈ locks, _))

theorem Blocked.mono {locks locks' : List Lock} {request : LockRequest} (hsub : locks ⊆ locks')
    (h : Blocked locks request) : Blocked locks' request := by
  obtain ⟨lock, hmem, hblocks⟩ := h
  exact ⟨lock, hsub hmem, hblocks⟩

namespace LockManager

/-- Every request at the front of a wait queue is blocked by somebody else. -/
def NoLostWakeUp (lm : LockManager) : Prop :=
  ∀ r, ∀ request ∈ (lm.queueOn r).head?, Blocked (lm.locksOn r) request

/-! ## The guard -/

/-- When `t` leaves, a waiting upgrade stays: the requests ahead of it are let
through, and then a lock of its own transaction is in its way and nobody else's. -/
def LeavesUpgrade (lm : LockManager) (t r : Nat) : Prop :=
  ∃ ahead request behind, lm.queueOn r = ahead ++ request :: behind ∧
    LetThrough (lm.othersOn t r) ahead ∧
    (∃ lock ∈ ahead.map LockRequest.toLock ++ lm.othersOn t r,
      lock.transactionId = request.transactionId ∧
        isCompatible lock.lockType request.lockType = false) ∧
    ∀ lock ∈ ahead.map LockRequest.toLock ++ lm.othersOn t r,
      lock.transactionId ≠ request.transactionId →
        isCompatible lock.lockType request.lockType = true

/-- A request exchanges no lock that is the only one of somebody else in the way of a
front, for one that is not.  A release leaves no upgrade alone at the front. -/
def WakeUpGuard (lm : LockManager) : LockOp → Prop
  | .setResourceParent _ _ => True
  | .requestLock t r m => t ∉ lm.completedTransactions →
      ∀ a, ∀ request ∈ (lm.queueOn a).head?, lm.LosesNone t r m a fun lock =>
        lock.transactionId ≠ request.transactionId ∧
          isCompatible lock.lockType request.lockType = false
  | .releaseLock t r => t ∈ lm.completedTransactions → lm.hasLock t r = true →
      ¬ lm.LeavesUpgrade t r
  | .completeTransaction t => ∀ r ∈ lm.heldResources t, lm.hasLock t r = true →
      ¬ lm.LeavesUpgrade t r

variable {lm : LockManager} {t r : Nat} {m : LockType}

/-! ## Requests -/

theorem exists_of_not_compatible {locks : List Lock} {m : LockType}
    (h : compatible locks m = false) : ∃ lock ∈ locks, isCompatible lock.lockType m = false := by
  have hnot := Bool.eq_false_iff.mp h
  rw [Ne, compatible_iff] at hnot
  push Not at hnot
  obtain ⟨lock, hmem, hfits⟩ := hnot
  exact ⟨lock, hmem, not_fits_iff.mp hfits⟩

theorem upgradeCompatible_eq_false_iff {locks : List Lock} {t : Nat}
    {m : LockType} :
    upgradeCompatible locks t m = false ↔ Blocked locks ⟨t, m⟩ := by
  rw [Bool.eq_false_iff, Ne, upgradeCompatible_iff, Blocked]
  push Not
  exact exists_congr fun lock => and_congr_right fun _ => and_congr_right fun _ => not_fits_iff

/-- A request that has to wait is blocked by somebody else. -/
theorem blocked_of_waits (active : t ∉ lm.completedTransactions)
    (h : (lm.requestLockOnResource t r m).1 = false) : Blocked (lm.locksOn r) ⟨t, m⟩ := by
  rw [(requestLockOnResource_answered active).answer, admitsRequest, Bool.or_eq_false_iff] at h
  exact upgradeCompatible_eq_false_iff.mp h.2

/-- Requests leave the front of a queue, or put a request there that somebody else
blocks. -/
theorem front_requestEach {a : Nat} (requests : List (Nat × LockType)) (lm : LockManager)
    (active : t ∉ lm.completedTransactions) :
    (∀ request ∈ ((lm.requestEach t requests).2.queueOn a).head?,
      request ∈ (lm.queueOn a).head? ∨
        Blocked ((lm.requestEach t requests).2.locksOn a) request) ∧
    ∀ request ∈ (lm.queueOn a).head?,
      request ∈ ((lm.requestEach t requests).2.queueOn a).head? := by
  induction requests generalizing lm with
  | nil => exact ⟨fun request hmem => Or.inl hmem, fun request hmem => hmem⟩
  | cons request requests ih =>
      obtain ⟨r, m⟩ := request
      have hout := requestLockOnResource_answered (r := r) (m := m) active
      have hanswer := hout.answer
      have hqueue := hout.queue a
      rw [requestEach_cons]
      split
      · next hgranted =>
          have hactive := active_requestLockOnResource (r := r) (m := m) active
          rw [if_neg (by simp [← hanswer, hgranted])] at hqueue
          rw [← hqueue]
          exact ih _ hactive
      · next hrefused =>
          have hfalse := Bool.eq_false_of_not_eq_true hrefused
          have hblocked := blocked_of_waits active hfalse
          have hlocks := requestLockOnResource_refused hfalse a
          dsimp only at hlocks ⊢
          rw [hqueue, hlocks]
          split
          · next hnew =>
              -- the request joins the queue, at its front if it was empty
              obtain ⟨rfl, _⟩ := hnew
              cases hold : lm.queueOn r with
              | nil =>
                  refine ⟨fun request hmem => ?_, fun request hmem => by cases hmem⟩
                  cases hmem
                  exact Or.inr hblocked
              | cons first queue =>
                  exact ⟨fun request hmem => Or.inl hmem, fun request hmem => hmem⟩
          · exact ⟨fun request hmem => Or.inl hmem, fun request hmem => hmem⟩

/-- A call loses a wake-up exactly if an exchange takes the last lock out of the way of
a front. -/
theorem noLostWakeUp_requestLock (h : lm.NoLostWakeUp) (active : t ∉ lm.completedTransactions) :
    (lm.requestLock t r m).2.NoLostWakeUp ↔ lm.WakeUpGuard (.requestLock t r m) := by
  have hkeeps : ∀ a (request : LockRequest), (Blocked (lm.locksOn a) request →
      Blocked ((lm.requestLock t r m).2.locksOn a) request) ↔
        lm.LosesNone t r m a fun lock => lock.transactionId ≠ request.transactionId ∧
          isCompatible lock.lockType request.lockType = false :=
    fun a request => keeps_iff active
  have hfront := fun a => front_requestEach (a := a) (lm.requests r m) lm active
  rw [← requestLock_eq active] at hfront
  constructor
  · intro hafter _ a request hmem
    exact (hkeeps a request).mp fun _ => hafter a request ((hfront a).2 request hmem)
  · intro hguard a request hmem
    rcases (hfront a).1 request hmem with hold | hblocked
    · exact (hkeeps a request).mpr (hguard active a request hold) (h a request hold)
    · exact hblocked

/-! ## Releases -/

/-- The queue that `t` leaves has somebody else in the way of its front exactly if no
upgrade stays. -/
theorem leavesUpgrade_iff {locks : List Lock} {queue : List LockRequest}
    (hlocks : locks.Perm ((lm.wokenBy t r).map LockRequest.toLock ++ lm.othersOn t r))
    (hqueue : queue = (lm.queueOn r).drop (lm.wokenBy t r).length) :
    (∀ request ∈ queue.head?, Blocked locks request) ↔ ¬ lm.LeavesUpgrade t r := by
  obtain ⟨rest, hrest⟩ := grantable_isPrefix (lm.queueOn r) (lm.othersOn t r)
  have hwoken : lm.wokenBy t r = grantable (lm.othersOn t r) (lm.queueOn r) := rfl
  have hthrough := letThrough_grantable (lm.queueOn r) (lm.othersOn t r)
  rw [← hwoken] at hrest hthrough
  constructor
  · rintro hblocked ⟨ahead, request, behind, hsplit, hahead, ⟨mine, hmine, _, hown⟩, hothers⟩
    -- what is let through ends right before the upgrade
    have hlast : lm.wokenBy t r = ahead := by
      have hprefix : ahead <+: lm.wokenBy t r :=
        isPrefix_grantable (lm.queueOn r) (lm.othersOn t r) ⟨request :: behind, hsplit.symm⟩ hahead
      obtain ⟨more, hmore⟩ := hprefix
      cases more with
      | nil => rw [← hmore, List.append_nil]
      | cons next more =>
          rw [← hmore, hsplit, List.append_assoc, List.append_cancel_left_eq,
            List.cons_append, List.cons.injEq] at hrest
          have hfree := hthrough ahead next more hmore.symm
          rw [hrest.1, compatible_iff] at hfree
          exact absurd (hfree mine hmine) (not_fits_iff.mpr hown)
    rw [hlast] at hlocks hqueue
    have hfront : request ∈ queue.head? := by
      rw [hqueue, hsplit, List.drop_left]
      rfl
    obtain ⟨lock, hmem, hother, hinc⟩ := hblocked request hfront
    rw [hothers lock (hlocks.subset hmem) hother] at hinc
    cases hinc
  · intro hnone request hmem
    rw [hqueue, ← hrest, List.drop_left] at hmem
    obtain ⟨behind, rfl⟩ := List.head?_eq_some_iff.mp hmem
    by_contra hnot
    have hnext : request ∈ ((lm.queueOn r).drop (lm.wokenBy t r).length).head? := by
      rw [← hrest, List.drop_left]
      rfl
    have hstops : compatible ((lm.wokenBy t r).map LockRequest.toLock ++ lm.othersOn t r)
        request.lockType = false := grantable_stops hnext
    have hothers : ∀ lock ∈ (lm.wokenBy t r).map LockRequest.toLock ++ lm.othersOn t r,
        lock.transactionId ≠ request.transactionId →
          isCompatible lock.lockType request.lockType = true := by
      intro lock hlock hother
      by_contra hinc
      exact hnot ⟨lock, hlocks.symm.subset hlock, hother, Bool.eq_false_of_not_eq_true hinc⟩
    obtain ⟨lock, hlock, hinc⟩ := exists_of_not_compatible hstops
    refine hnone ⟨_, request, behind, hrest.symm, hthrough, ⟨lock, hlock, ?_, hinc⟩, hothers⟩
    by_contra hother
    rw [hothers lock hlock hother] at hinc
    cases hinc

/-- A release loses a wake-up exactly if it leaves an upgrade alone at the front. -/
theorem noLostWakeUp_releaseLock (h : lm.NoLostWakeUp) :
    (lm.releaseLock t r).2.NoLostWakeUp ↔ lm.WakeUpGuard (.releaseLock t r) := by
  by_cases hboth : t ∈ lm.completedTransactions ∧ lm.hasLock t r = true
  · obtain ⟨hlocks, hqueue⟩ := lm.releaseLock_spec hboth.1 hboth.2
    have hfront := leavesUpgrade_iff hlocks hqueue
    constructor
    · exact fun hafter _ _ => hfront.mp (hafter r)
    · intro hguard a
      by_cases ha : a = r
      · subst ha
        exact hfront.mpr (hguard hboth.1 hboth.2)
      · obtain ⟨hl, hq⟩ := lm.releaseLock_other (t := t) ha
        rw [hl, hq]
        exact h a
  · rw [releaseLock_eq, if_neg hboth]
    exact iff_of_true h fun hover hheld => absurd ⟨hover, hheld⟩ hboth

theorem noLostWakeUp_completeTransaction (h : lm.NoLostWakeUp) :
    (lm.completeTransaction t).2.NoLostWakeUp ↔ lm.WakeUpGuard (.completeTransaction t) := by
  constructor
  · intro hafter r hindex hheld
    obtain ⟨hlocks, hqueue⟩ := (lm.completeTransaction_spec t r).1 ⟨hindex, hheld⟩
    exact (leavesUpgrade_iff hlocks hqueue).mp (hafter r)
  · intro hguard r
    by_cases hboth : r ∈ lm.heldResources t ∧ lm.hasLock t r = true
    · obtain ⟨hlocks, hqueue⟩ := (lm.completeTransaction_spec t r).1 hboth
      exact (leavesUpgrade_iff hlocks hqueue).mpr (hguard r hboth.1 hboth.2)
    · obtain ⟨hl, hq⟩ := (lm.completeTransaction_spec t r).2 hboth
      rw [hl, hq]
      exact h r

/-! ## Runs -/

/-- A step loses a wake-up exactly if it does not meet the guard. -/
theorem noLostWakeUp_step (h : lm.NoLostWakeUp) (op : LockOp) :
    (lm.step op).NoLostWakeUp ↔ lm.WakeUpGuard op := by
  cases op with
  | setResourceParent child parent => exact iff_of_true h trivial
  | requestLock t r m =>
      by_cases hover : t ∈ lm.completedTransactions
      · rw [step, requestLock, if_pos hover]
        exact iff_of_true h fun active => absurd hover active
      · exact noLostWakeUp_requestLock h hover
  | releaseLock t r => exact noLostWakeUp_releaseLock h
  | completeTransaction t => exact noLostWakeUp_completeTransaction h

/-- In every state of a run each front is blocked by somebody else exactly if each step
meets the condition in the state before it. -/
theorem no_wake_up_lost_iff (alloc : List Nat) (ops : List LockOp) :
    Runs.Always step NoLostWakeUp (empty alloc) ops ↔
      Runs.Guarded step WakeUpGuard (empty alloc) ops := by
  refine Runs.always_iff_guarded (I := fun _ => True) (fun _ _ _ => trivial)
    (fun lm op _ h => noLostWakeUp_step h op) ops trivial fun r request hmem => ?_
  simp [queueOn, empty] at hmem

/-- Transactions 1 and 2 share resource 5, and transaction 1 waits to upgrade.
When transaction 2 completes, transaction 1 waits for nobody but itself. -/
def upgradeOps : List LockOp :=
  [.requestLock 1 5 .shared, .requestLock 2 5 .shared, .requestLock 1 5 .exclusive,
    .completeTransaction 2]

/-- A wake-up can be lost. -/
theorem no_wake_up_lost_fails :
    ¬ ∀ (alloc : List Nat) (ops : List LockOp),
      Runs.Always step NoLostWakeUp (empty alloc) ops := by
  intro h
  have hlast := (h [] upgradeOps).last 5 ⟨1, .exclusive⟩ (by decide)
  revert hlast
  decide

end LockManager

end TxnEngine
