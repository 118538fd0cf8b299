import TxnEngine.Concurrency.Requests

/-!
# Newcomers and the wait queue

`processWaitQueue` stops at the first request that the held locks do not let
through, so that nobody behind it gets ahead.  `requestLockOnResource` decides on
the held locks alone and never looks at the queue.  A newcomer that goes with the
held locks is granted at once, whoever waits for a mode it conflicts with.

A call overtakes nobody exactly when nobody waits for such a mode or the held
locks stop it (`no_overtaking_iff`).
-/

namespace TxnEngine

namespace LockManager

/-- Another transaction, not completed, waits for the resource in a mode that is
not compatible with the one asked for. -/
def ConflictWaits (lm : LockManager) (t r : Nat) (m : LockType) : Prop :=
  ∃ request ∈ lm.queueOn r, request.transactionId ≠ t ∧
    request.transactionId ∉ lm.completedTransactions ∧
    isCompatible request.lockType m = false

/-- A transaction without a lock on the resource gets none while a conflicting
request waits. -/
def NeverOvertakes (lm : LockManager) : LockOp → Prop
  | .requestLock t r m => lm.hasLock t r = false → lm.ConflictWaits t r m →
      (lm.requestLock t r m).2.hasLock t r = false
  | _ => True

/-- The requests of a call up to its first on the resource itself.  A resource on
its own ancestor cycle is the farthest of its ancestors, so it is asked for at
once, in the intention mode. -/
def openingRequests (lm : LockManager) (r : Nat) (m : LockType) : List (Nat × LockType) :=
  if m ≠ .none ∧ r ∈ lm.ancestors r then [(r, getAncestorIntentionType m)] else lm.requests r m

/-- No conflicting request waits, or the transaction is completed, or the locks held
before the call do not admit one of its requests up to the first on the resource. -/
def OvertakeGuard (lm : LockManager) : LockOp → Prop
  | .requestLock t r m => lm.hasLock t r = false → lm.ConflictWaits t r m →
      t ∈ lm.completedTransactions ∨
        ∃ request ∈ lm.openingRequests r m, admitsRequest (lm.locksOn request.1) t request.2 = false
  | _ => True

variable {lm : LockManager} {t r : Nat} {m : LockType}

/-- A transaction without a lock has one after a request exactly if it is
admitted. -/
theorem hasLock_requestLockOnResource_iff (active : t ∉ lm.completedTransactions)
    (hfree : lm.hasLock t r = false) :
    (lm.requestLockOnResource t r m).2.hasLock t r = true ↔
      admitsRequest (lm.locksOn r) t m = true := by
  have hout := requestLockOnResource_answered (r := r) (m := m) active
  rw [← hout.answer]
  constructor
  · intro hheld
    by_contra hrefused
    have hlocks := requestLockOnResource_refused (Bool.eq_false_of_not_eq_true hrefused) r
    rw [hasLock_iff, hlocks, ← hasLock_iff, hfree] at hheld
    cases hheld
  · intro hgranted
    obtain ⟨lock, hmem, hid, _⟩ := granted_of_requestLockOnResource hgranted
    exact (hasLock_iff _).mpr ⟨lock, hmem, hid⟩

/-- A transaction that asks for the resource first has a lock there afterwards if
this request is admitted. -/
theorem hasLock_requestEach_first (active : t ∉ lm.completedTransactions)
    (hfree : lm.hasLock t r = false) (rest : List (Nat × LockType)) :
    (lm.requestEach t ((r, m) :: rest)).2.hasLock t r = true ↔
      admitsRequest (lm.locksOn r) t m = true := by
  have hanswer := (requestLockOnResource_answered (r := r) (m := m) active).answer
  have hfirst := hasLock_requestLockOnResource_iff (m := m) active hfree
  rw [requestEach_cons, ← hfirst]
  split
  · next hgranted =>
      have hheld : (lm.requestLockOnResource t r m).2.hasLock t r = true :=
        hfirst.mpr (hanswer ▸ hgranted)
      exact iff_of_true (requestEach_retains rest _ hheld) hheld
  · rfl

/-- A transaction that asks for the resource last, and only then, has a lock there
afterwards if all its requests are admitted. -/
theorem hasLock_requestEach_last (active : t ∉ lm.completedTransactions)
    (hfree : lm.hasLock t r = false) {before : List (Nat × LockType)}
    (hnodup : ((before ++ [(r, m)]).map Prod.fst).Nodup)
    (hother : ∀ request ∈ before, request.1 ≠ r) :
    (lm.requestEach t (before ++ [(r, m)])).2.hasLock t r = true ↔
      ∀ request ∈ before ++ [(r, m)], admitsRequest (lm.locksOn request.1) t request.2 = true := by
  rw [← requestEach_fst _ lm active hnodup, requestEach_append]
  have hlocks := (requestEach_other _ lm hother (t := t)).1
  have hstill : (lm.requestEach t before).2.hasLock t r = false := by
    rw [← hfree, Bool.eq_iff_iff, hasLock_iff, hasLock_iff, hlocks]
  split
  · have hactive := active_requestEach before active
    have hanswer := (requestLockOnResource_answered (r := r) (m := m) hactive).answer
    rw [requestEach_single, hasLock_requestLockOnResource_iff hactive hstill, hanswer]
  · next hrefused => exact iff_of_false (by simp [hstill]) hrefused

/-- A transaction without a lock on the resource has one after the call exactly if
the locks held before admit its requests up to the first on the resource. -/
theorem hasLock_requestLock_iff (active : t ∉ lm.completedTransactions)
    (hfree : lm.hasLock t r = false) :
    (lm.requestLock t r m).2.hasLock t r = true ↔
      ∀ request ∈ lm.openingRequests r m,
        admitsRequest (lm.locksOn request.1) t request.2 = true := by
  rw [requestLock_eq active, openingRequests]
  split
  · next hcycle =>
      obtain ⟨rest, hrest⟩ := ancestorRequests_of_cycle hcycle.1 hcycle.2
      rw [requests, hrest, List.cons_append, List.forall_mem_singleton]
      exact hasLock_requestEach_first active hfree _
  · next hplain =>
      -- every resource is asked for once, `r` last
      have hother : ∀ request ∈ lm.ancestorRequests r m, request.1 ≠ r :=
        ancestorRequests_ne hplain
      refine hasLock_requestEach_last active hfree ?_ hother
      rw [List.map_append, List.nodup_append]
      refine ⟨ancestorRequests_nodup, List.nodup_singleton _, fun a ha b hb heq => ?_⟩
      obtain ⟨request, hmem, rfl⟩ := List.mem_map.mp ha
      exact hother request hmem (heq.trans (List.mem_singleton.mp hb))

theorem neverOvertakes_iff (lm : LockManager) (op : LockOp) :
    lm.NeverOvertakes op ↔ lm.OvertakeGuard op := by
  cases op with
  | setResourceParent | releaseLock | completeTransaction => exact Iff.rfl
  | requestLock t r m =>
      refine forall₂_congr fun hfree _ => ?_
      by_cases hdone : t ∈ lm.completedTransactions
      · simp [requestLock, hdone, hfree]
      · have hiff := hasLock_requestLock_iff (m := m) hdone hfree
        simp only [hdone, false_or]
        rw [← Bool.not_eq_true, hiff]
        push Not
        simp only [Bool.not_eq_true]

/-- No call of a run overtakes a waiting request exactly if each call meets the
condition in the state before it. -/
theorem no_overtaking_iff (alloc : List Nat) (ops : List LockOp) :
    Runs.Guarded step NeverOvertakes (empty alloc) ops ↔
      Runs.Guarded step OvertakeGuard (empty alloc) ops :=
  Runs.guarded_congr neverOvertakes_iff (empty alloc) ops

/-- Transaction 1 reads resource 5, transaction 2 waits to write it, and
transaction 3 reads it as well. -/
def newcomerOps : List LockOp :=
  [.requestLock 1 5 .shared, .requestLock 2 5 .exclusive, .requestLock 3 5 .shared]

theorem no_overtaking_fails :
    ¬ ∀ (alloc : List Nat) (ops : List LockOp),
      Runs.Guarded step NeverOvertakes (empty alloc) ops := by
  intro h
  have hlast : (Runs.run step (empty []) (newcomerOps.take 2)).NeverOvertakes
      (.requestLock 3 5 .shared) := (h [] newcomerOps).2.2.1
  have hwaits : (Runs.run step (empty []) (newcomerOps.take 2)).ConflictWaits 3 5 .shared :=
    ⟨⟨2, .exclusive⟩, by decide, by decide, by decide, by decide⟩
  exact absurd (hlast (by decide) hwaits) (by decide)

end LockManager

end TxnEngine
