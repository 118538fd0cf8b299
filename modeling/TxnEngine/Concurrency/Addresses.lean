import TxnEngine.Concurrency.Uniqueness

/-!
# What does not depend on addresses

The locks of a resource lie in the order of their addresses, which the allocator
chooses.  `Alike` relates lock managers that differ in that order only.  Releases,
completions and wait queues ask for all locks of a resource, so they keep lock
managers alike.  A request stops at the first lock of its transaction.  As long as
no transaction has two locks on a resource, that is the same lock in every order,
and the answers of requests do not depend on the addresses (`answers_alike`).
-/

namespace TxnEngine

open Std Runs

namespace LockManager

/-- The same locks in some order, the same queues, the same index, the same completed
transactions and the same parents. -/
structure Alike (lm lm' : LockManager) : Prop where
  locks : ∀ r, (lm'.locksOn r).Perm (lm.locksOn r)
  queue : ∀ r, lm'.queueOn r = lm.queueOn r
  index : ∀ t r, r ∈ lm'.heldResources t ↔ r ∈ lm.heldResources t
  completed : ∀ t, t ∈ lm'.completedTransactions ↔ t ∈ lm.completedTransactions
  parents : lm'.resourceParent = lm.resourceParent

variable {lm lm' : LockManager} {t r : Nat} {m : LockType}

theorem Alike.refl (lm : LockManager) : lm.Alike lm :=
  ⟨fun _ => .rfl, fun _ => rfl, fun _ _ => Iff.rfl, fun _ => Iff.rfl, rfl⟩

theorem Alike.symm (h : lm.Alike lm') : lm'.Alike lm :=
  ⟨fun r => (h.locks r).symm, fun r => (h.queue r).symm, fun t r => (h.index t r).symm,
    fun t => (h.completed t).symm, h.parents.symm⟩

theorem Alike.trans {lm'' : LockManager} (h : lm.Alike lm') (h' : lm'.Alike lm'') :
    lm.Alike lm'' :=
  ⟨fun r => (h'.locks r).trans (h.locks r), fun r => (h'.queue r).trans (h.queue r),
    fun t r => (h'.index t r).trans (h.index t r),
    fun t => (h'.completed t).trans (h.completed t), h'.parents.trans h.parents⟩

theorem alike_empty (alloc alloc' : List Nat) : (empty alloc).Alike (empty alloc') :=
  ⟨fun _ => .rfl, fun _ => rfl, fun _ _ => Iff.rfl, fun _ => Iff.rfl, rfl⟩

/-! ## Answers -/

theorem Alike.hasLock (h : lm.Alike lm') (t r : Nat) : lm'.hasLock t r = lm.hasLock t r := by
  rw [Bool.eq_iff_iff, hasLock_iff, hasLock_iff]
  simp only [(h.locks r).mem_iff]

/-- The only lock of a transaction is found in every order. -/
theorem existingLock_of_perm {locks locks' : List Lock} (hperm : locks'.Perm locks)
    (honce : (locks.map Lock.transactionId).Nodup) (t : Nat) :
    existingLock locks' t = existingLock locks t := by
  cases hold : existingLock locks t with
  | none =>
      refine List.find?_eq_none.mpr fun lock hmem => ?_
      simpa using existingLock_none hold lock (hperm.mem_iff.mp hmem)
  | some lock =>
      obtain ⟨hmem, hid⟩ := existingLock_some hold
      cases hnew : existingLock locks' t with
      | none => exact absurd hid (existingLock_none hnew lock (hperm.mem_iff.mpr hmem))
      | some lock' =>
          obtain ⟨hmem', hid'⟩ := existingLock_some hnew
          have hsame := List.inj_on_of_nodup_map honce (hperm.mem_iff.mp hmem') hmem
          exact congrArg some (hsame (hid'.trans hid.symm))

theorem holdsEnough_of_perm {locks locks' : List Lock} (hperm : locks'.Perm locks)
    (honce : (locks.map Lock.transactionId).Nodup) :
    holdsEnough locks' t m = holdsEnough locks t m := by
  rw [holdsEnough, existingLock_of_perm hperm honce, holdsEnough]

theorem upgradeCompatible_of_perm {locks locks' : List Lock} (hperm : locks'.Perm locks) :
    upgradeCompatible locks' t m = upgradeCompatible locks t m := hperm.all_eq

/-- The locks that stay beside those of a transaction that gives one up. -/
theorem eraseP_of_perm {locks locks' : List Lock} (hperm : locks'.Perm locks)
    (honce : (locks.map Lock.transactionId).Nodup) (t : Nat) :
    (locks'.eraseP fun lock => lock.transactionId == t).Perm
      (locks.eraseP fun lock => lock.transactionId == t) := by
  have hsame := existingLock_of_perm hperm honce t
  cases hold : existingLock locks t with
  | none =>
      rw [hold] at hsame
      rw [eraseP_of_existingLock_none hold, eraseP_of_existingLock_none hsame]
      exact hperm
  | some lock =>
      rw [hold] at hsame
      exact ((perm_existingLock hsame).symm.trans (hperm.trans (perm_existingLock hold))).cons_inv

/-! ## Requests -/

/-- What a request adds to the index. -/
theorem heldResources_request (active : t ∉ lm.completedTransactions) (t' r' : Nat) :
    r' ∈ (lm.requestLockOnResource t r m).2.heldResources t' ↔
      r' ∈ lm.heldResources t' ∨
        exchanges (lm.locksOn r) t m = true ∧ t = t' ∧ r = r' := by
  have hadds : ∀ lm' : LockManager, (∀ t, lm'.heldResources t = lm.heldResources t) →
      (r' ∈ ((lm'.insertLock r ⟨t, m⟩).indexLock t r).heldResources t' ↔
        r' ∈ lm.heldResources t' ∨ t = t' ∧ r = r') := fun lm' hsame => by
    rw [mem_heldResources_indexLock, ← hsame t', or_comm]
    exact Iff.rfl
  have hwaits : ((lm.touchLocks r).enqueue t r m).heldResources t' = lm.heldResources t' := by
    rw [enqueue]
    split <;> rfl
  rw [requestLockOnResource, if_neg active]
  dsimp only
  rw [locksOn_touchLocks, exchanges, holdsEnough]
  cases hexisting : existingLock (lm.locksOn r) t with
  | none =>
      rw [← compatible_eq_upgradeCompatible hexisting]
      dsimp only
      split
      · next hfree => exact (hadds _ fun _ => rfl).trans (by simp [hfree])
      · next hfull =>
          dsimp only
          rw [hwaits]
          simp [hfull]
  | some lock =>
      dsimp only
      split
      · next henough =>
          simp only [Option.any_some, decide_eq_true henough, Bool.not_true, Bool.false_and,
            Bool.false_eq_true, false_and, or_false]
          rfl
      · next hweak =>
          split
          · next hfree =>
              rw [not_or] at hweak
              exact (hadds _ fun _ => rfl).trans (by simp [hweak, hfree])
          · next hfull =>
              dsimp only
              rw [hwaits]
              simp [hfull]

theorem Alike.requestLockOnResource (h : lm.Alike lm') (hone : lm.OneLockEach) (t r : Nat)
    (m : LockType) :
    (lm'.requestLockOnResource t r m).1 = (lm.requestLockOnResource t r m).1 ∧
      (lm.requestLockOnResource t r m).2.Alike (lm'.requestLockOnResource t r m).2 := by
  by_cases active : t ∈ lm.completedTransactions
  · have active' := (h.completed t).mpr active
    have hrefused : lm.requestLockOnResource t r m = (false, lm) := if_pos active
    have hrefused' : lm'.requestLockOnResource t r m = (false, lm') := if_pos active'
    rw [hrefused, hrefused']
    exact ⟨rfl, h⟩
  · have active' : t ∉ lm'.completedTransactions := fun hmem => active ((h.completed t).mp hmem)
    have hout := requestLockOnResource_answered (r := r) (m := m) active
    have hout' := requestLockOnResource_answered (r := r) (m := m) active'
    have henough : holdsEnough (lm'.locksOn r) t m = holdsEnough (lm.locksOn r) t m :=
      holdsEnough_of_perm (h.locks r) (hone r)
    have hupgrade : upgradeCompatible (lm'.locksOn r) t m = upgradeCompatible (lm.locksOn r) t m :=
      upgradeCompatible_of_perm (h.locks r)
    have hadmits : admitsRequest (lm'.locksOn r) t m = admitsRequest (lm.locksOn r) t m := by
      rw [admitsRequest, henough, hupgrade, admitsRequest]
    have hexchanges : exchanges (lm'.locksOn r) t m = exchanges (lm.locksOn r) t m := by
      rw [exchanges, henough, hupgrade, exchanges]
    refine ⟨by rw [hout.answer, hout'.answer, hadmits], ?_, ?_, ?_, ?_, ?_⟩
    · intro r'
      rw [hout.locks, hout'.locks, hexchanges]
      split
      · have hrest := eraseP_of_perm (h.locks r) (hone r) t
        exact ((perm_insertAt _ _ _).trans (hrest.cons _)).trans (perm_insertAt _ _ _).symm
      · exact h.locks r'
    · intro r'
      rw [hout.queue, hout'.queue, hadmits, h.queue, h.queue]
    · intro t' r'
      rw [heldResources_request active, heldResources_request active', hexchanges, h.index]
    · intro t'
      rw [mem_requestLockOnResource_completed, mem_requestLockOnResource_completed, h.completed]
    · rw [requestLockOnResource_resourceParent, requestLockOnResource_resourceParent, h.parents]

theorem oneLockEach_requestLockOnResource (hone : lm.OneLockEach) :
    (lm.requestLockOnResource t r m).2.OneLockEach := by
  by_cases active : t ∈ lm.completedTransactions
  · have hrefused : lm.requestLockOnResource t r m = (false, lm) := if_pos active
    rwa [hrefused]
  · exact oneLockEach_request active hone

theorem oneLockEach_requestAll : ∀ {rs : List Nat} {lm : LockManager}, lm.OneLockEach →
    (lm.requestAll t m rs).2.OneLockEach
  | [], _, hone => hone
  | r :: rs, lm, hone => by
      have hfirst : (lm.requestLockOnResource t r m).2.OneLockEach :=
        oneLockEach_requestLockOnResource hone
      rw [requestAll]
      generalize lm.requestLockOnResource t r m = out at hfirst ⊢
      obtain ⟨answer, lm₁⟩ := out
      cases answer with
      | true => exact oneLockEach_requestAll hfirst
      | false => exact hfirst

theorem oneLockEach_ensureAncestors (hone : lm.OneLockEach) :
    (lm.ensureAncestorIntentionLocks t r m).2.OneLockEach := by
  rw [ensureAncestorIntentionLocks]
  split
  · exact hone
  · exact oneLockEach_requestAll hone

theorem Alike.requestAll {t : Nat} {m : LockType} : ∀ {rs : List Nat} {lm lm' : LockManager},
    lm.Alike lm' → lm.OneLockEach →
    (lm'.requestAll t m rs).1 = (lm.requestAll t m rs).1 ∧
      (lm.requestAll t m rs).2.Alike (lm'.requestAll t m rs).2
  | [], _, _, h, _ => ⟨rfl, h⟩
  | r :: rs, lm, lm', h, hone => by
      have hfirst := h.requestLockOnResource hone t r m
      have hone₁ : (lm.requestLockOnResource t r m).2.OneLockEach :=
        oneLockEach_requestLockOnResource hone
      rw [LockManager.requestAll, LockManager.requestAll]
      generalize lm.requestLockOnResource t r m = out at hfirst hone₁ ⊢
      generalize lm'.requestLockOnResource t r m = out' at hfirst ⊢
      obtain ⟨answer, lm₁⟩ := out
      obtain ⟨answer', lm₁'⟩ := out'
      obtain ⟨hanswer, hlocks⟩ := hfirst
      dsimp only at hanswer hlocks hone₁
      subst hanswer
      cases answer' with
      | true => exact hlocks.requestAll hone₁
      | false => exact ⟨rfl, hlocks⟩

theorem Alike.ancestors (h : lm.Alike lm') (r : Nat) : lm'.ancestors r = lm.ancestors r := by
  rw [LockManager.ancestors, h.parents, LockManager.ancestors]

/-- A request has the same answer and effect in every order of the addresses. -/
theorem Alike.requestLock (h : lm.Alike lm') (hone : lm.OneLockEach) (t r : Nat) (m : LockType) :
    (lm'.requestLock t r m).1 = (lm.requestLock t r m).1 ∧
      (lm.requestLock t r m).2.Alike (lm'.requestLock t r m).2 := by
  have hancestors : (lm'.ensureAncestorIntentionLocks t r m).1 =
        (lm.ensureAncestorIntentionLocks t r m).1 ∧
      (lm.ensureAncestorIntentionLocks t r m).2.Alike
        (lm'.ensureAncestorIntentionLocks t r m).2 := by
    rw [ensureAncestorIntentionLocks, ensureAncestorIntentionLocks, h.ancestors]
    split
    · exact ⟨rfl, h⟩
    · exact h.requestAll hone
  have hone₁ : (lm.ensureAncestorIntentionLocks t r m).2.OneLockEach :=
    oneLockEach_ensureAncestors hone
  rw [LockManager.requestLock, LockManager.requestLock]
  simp only [h.completed]
  split
  · exact ⟨rfl, h⟩
  · generalize lm.ensureAncestorIntentionLocks t r m = out at hancestors hone₁ ⊢
    generalize lm'.ensureAncestorIntentionLocks t r m = out' at hancestors ⊢
    obtain ⟨answer, lm₁⟩ := out
    obtain ⟨answer', lm₁'⟩ := out'
    obtain ⟨hanswer, hlocks⟩ := hancestors
    dsimp only at hanswer hlocks hone₁
    subst hanswer
    cases answer' with
    | true => exact hlocks.requestLockOnResource hone₁ t r m
    | false => exact ⟨rfl, hlocks⟩

/-! ## Releases and completions -/

theorem alike_touchLocks (lm : LockManager) (r : Nat) : lm.Alike (lm.touchLocks r) :=
  ⟨fun r' => .of_eq (lm.locksOn_touchLocks r r'), fun _ => rfl, fun _ _ => Iff.rfl,
    fun _ => Iff.rfl, rfl⟩

theorem alike_dropEmptyLocks (lm : LockManager) (r : Nat) : lm.Alike (lm.dropEmptyLocks r) := by
  obtain ⟨hqueues, hindex, hcompleted, hparents⟩ := lm.dropEmptyLocks_rest r
  refine ⟨fun r' => .of_eq (lm.locksOn_dropEmptyLocks r r'), lm.queueOn_dropEmptyLocks r,
    fun t r' => ?_, fun t => ?_, hparents⟩
  · rw [heldResources, hindex, heldResources]
  · rw [hcompleted]

theorem alike_dropEmptyQueue (lm : LockManager) (r : Nat) : lm.Alike (lm.dropEmptyQueue r) := by
  obtain ⟨hlocks, hindex, hcompleted, hparents⟩ := lm.dropEmptyQueue_rest r
  refine ⟨fun r' => .of_eq (lm.locksOn_dropEmptyQueue r r'), lm.queueOn_dropEmptyQueue r,
    fun t r' => ?_, fun t => ?_, hparents⟩
  · rw [heldResources, hindex, heldResources]
  · rw [hcompleted]

theorem Alike.grantFront (h : lm.Alike lm') (r : Nat) (request : LockRequest)
    (queue : List LockRequest) :
    (lm.grantFront r request queue).Alike (lm'.grantFront r request queue) := by
  refine ⟨fun r' => ?_, fun r' => ?_, fun t r' => ?_, h.completed, h.parents⟩
  · rw [locksOn_grantFront, locksOn_grantFront]
    split
    · exact ((perm_insertAt _ _ _).trans ((h.locks r).cons _)).trans (perm_insertAt _ _ _).symm
    · exact h.locks r'
  · rw [queueOn_grantFront, queueOn_grantFront, h.queue]
  · have hindex := (lm.insertLock r request.toLock).mem_heldResources_indexLock
      request.transactionId r t r'
    have hindex' := (lm'.insertLock r request.toLock).mem_heldResources_indexLock
      request.transactionId r t r'
    exact hindex'.trans ((or_congr_right (h.index t r')).trans hindex.symm)

theorem Alike.grantFrom {r : Nat} : ∀ {queue : List LockRequest} {lm lm' : LockManager},
    lm.Alike lm' → (lm.grantFrom r queue).Alike (lm'.grantFrom r queue)
  | [], _, _, h => h
  | request :: queue, lm, lm', h => by
      rw [grantFrom_cons, grantFrom_cons, compatible_of_perm (h.locks r)]
      split
      · exact (h.grantFront r request queue).grantFrom
      · exact h

theorem Alike.processWaitQueue (h : lm.Alike lm') (r : Nat) :
    (lm.processWaitQueue r).Alike (lm'.processWaitQueue r) := by
  have hqueue := h.queue r
  rw [queueOn_of_getElem?, queueOn_of_getElem?] at hqueue
  have htouched : (lm.touchLocks r).Alike (lm'.touchLocks r) :=
    ((alike_touchLocks lm r).symm.trans h).trans (alike_touchLocks lm' r)
  rw [LockManager.processWaitQueue, LockManager.processWaitQueue]
  cases hold : lm.waitQueues[r]? with
  | none =>
      cases hnew : lm'.waitQueues[r]? with
      | none => exact h
      | some queue =>
          rw [hold, hnew] at hqueue
          cases hqueue
          exact h.trans (alike_touchLocks lm' r)
  | some queue =>
      cases hnew : lm'.waitQueues[r]? with
      | none =>
          rw [hold, hnew] at hqueue
          cases hqueue
          exact (alike_touchLocks lm r).symm.trans h
      | some queue' =>
          rw [hold, hnew] at hqueue
          cases hqueue
          exact htouched.grantFrom

theorem Alike.dropLocks (h : lm.Alike lm') (t r : Nat) :
    (lm.dropLocks t r).Alike (lm'.dropLocks t r) := by
  have hrest := (lm.setLocks r (lm.othersOn t r)).unindexLock_rest t r
  have hrest' := (lm'.setLocks r (lm'.othersOn t r)).unindexLock_rest t r
  refine ⟨fun r' => ?_, fun r' => ?_, fun t' r' => ?_, fun t' => ?_, ?_⟩
  · rw [locksOn_dropLocks, locksOn_dropLocks]
    split
    · exact (h.locks r).filter _
    · exact h.locks r'
  · rw [queueOn_dropLocks, queueOn_dropLocks, h.queue]
  · rw [LockManager.dropLocks, LockManager.dropLocks, mem_heldResources_unindexLock,
      mem_heldResources_unindexLock]
    exact and_congr_left fun _ => h.index t' r'
  · rw [LockManager.dropLocks, LockManager.dropLocks, hrest.2.2.1, hrest'.2.2.1]
    exact h.completed t'
  · rw [LockManager.dropLocks, LockManager.dropLocks, hrest.2.2.2, hrest'.2.2.2]
    exact h.parents

theorem Alike.releaseLock (h : lm.Alike lm') (t r : Nat) :
    (lm.releaseLock t r).2.Alike (lm'.releaseLock t r).2 := by
  rw [releaseLock_eq, releaseLock_eq, h.hasLock]
  simp only [h.completed]
  split
  · have hwoken := (h.dropLocks t r).processWaitQueue r
    have hlocks := ((alike_dropEmptyLocks _ r).symm.trans hwoken).trans (alike_dropEmptyLocks _ r)
    exact ((alike_dropEmptyQueue _ r).symm.trans hlocks).trans (alike_dropEmptyQueue _ r)
  · exact h

theorem Alike.releaseAll {t : Nat} : ∀ (rs : List Nat) {lm lm' : LockManager}, lm.Alike lm' →
    (lm.releaseAll t rs).2.Alike (lm'.releaseAll t rs).2
  | [], _, _, h => h
  | r :: rs, lm, lm', h => by
      rw [releaseAll_cons, releaseAll_cons]
      exact (h.releaseLock t r).releaseAll rs

theorem Alike.markCompleted (h : lm.Alike lm') (t : Nat) :
    (lm.markCompleted t).Alike (lm'.markCompleted t) := by
  refine ⟨h.locks, h.queue, h.index, fun t' => ?_, h.parents⟩
  rw [mem_markCompleted, mem_markCompleted, h.completed]

/-- The end of a completion, which takes the transaction out of the index. -/
def unindex (lm : LockManager) (t : Nat) : LockManager :=
  { lm with txnLocks := lm.txnLocks.erase t }

theorem mem_heldResources_unindex {t' r' : Nat} :
    r' ∈ (lm.unindex t).heldResources t' ↔ r' ∈ lm.heldResources t' ∧ t ≠ t' := by
  rw [heldResources, heldResources, unindex, ExtTreeMap.getD_erase]
  by_cases heq : t = t'
  · simp [heq]
  · simp [heq]

theorem Alike.unindex (h : lm.Alike lm') (t : Nat) : (lm.unindex t).Alike (lm'.unindex t) := by
  refine ⟨h.locks, h.queue, fun t' r' => ?_, h.completed, h.parents⟩
  rw [mem_heldResources_unindex, mem_heldResources_unindex, h.index]

/-- A completion releases the resources of the index and then clears it. -/
theorem completeTransaction_alike (lm : LockManager) (t : Nat) :
    (lm.completeTransaction t).2.Alike
      (((lm.markCompleted t).releaseAll t (lm.heldResources t).toList).2.unindex t) := by
  rw [completeTransaction_eq]
  cases hheld : lm.txnLocks[t]? with
  | none =>
      have hnone : lm.heldResources t = ∅ := by
        rw [heldResources, ExtTreeMap.getD_eq_getD_getElem?, hheld]
        rfl
      rw [hnone]
      refine ⟨fun _ => .rfl, fun _ => rfl, fun t' r' => ?_, fun _ => Iff.rfl, rfl⟩
      refine mem_heldResources_unindex.trans (and_iff_left_of_imp ?_)
      rintro hmem rfl
      have hindex : r' ∈ lm.heldResources t := hmem
      rw [hnone] at hindex
      exact absurd hindex ExtTreeSet.not_mem_empty
  | some held =>
      have hsome : lm.heldResources t = held := by
        rw [heldResources, ExtTreeMap.getD_eq_getD_getElem?, hheld]
        rfl
      rw [hsome]
      exact .refl _

/-- A completion does the same in every order of the addresses. -/
theorem Alike.completeTransaction (h : lm.Alike lm') (t : Nat) :
    (lm.completeTransaction t).2.Alike (lm'.completeTransaction t).2 := by
  have hheld : lm'.heldResources t = lm.heldResources t := ExtTreeSet.ext_mem fun r => h.index t r
  have hreleased := ((h.markCompleted t).releaseAll (t := t) (lm.heldResources t).toList).unindex t
  refine ((completeTransaction_alike lm t).trans hreleased).trans ?_
  rw [← hheld]
  exact (completeTransaction_alike lm' t).symm

/-! ## Runs -/

instance (lm : LockManager) (t r : Nat) : Decidable (lm.WakesNewcomers t r) :=
  inferInstanceAs (Decidable (∀ request ∈ lm.wokenBy t r, _ → _))

instance (lm : LockManager) : (op : LockOp) → Decidable (lm.NewcomerGuard op)
  | .releaseLock t r => inferInstanceAs (Decidable (_ → _ → lm.WakesNewcomers t r))
  | .completeTransaction t =>
      decidable_of_iff (∀ r ∈ (lm.heldResources t).toList, lm.WakesNewcomers t r)
        (forall_congr' fun _ => by rw [ExtTreeSet.mem_toList])
  | .setResourceParent _ _ | .requestLock _ _ _ => isTrue trivial

/-- What an operation answers.  The engine never asks for the answer of a completion. -/
def answer (lm : LockManager) : LockOp → Option Bool
  | .requestLock t r m => some (lm.requestLock t r m).1
  | .releaseLock t r => some (lm.releaseLock t r).1
  | .setResourceParent _ _ | .completeTransaction _ => none

/-- The answers along a run. -/
def answers : LockManager → List LockOp → List (Option Bool)
  | _, [] => []
  | lm, op :: ops => lm.answer op :: (lm.step op).answers ops

theorem Alike.answer (h : lm.Alike lm') (hone : lm.OneLockEach) (op : LockOp) :
    lm'.answer op = lm.answer op := by
  cases op with
  | setResourceParent | completeTransaction => rfl
  | requestLock t r m => exact congrArg some (h.requestLock hone t r m).1
  | releaseLock t r =>
      rw [LockManager.answer, LockManager.answer, releaseLock_eq, releaseLock_eq, h.hasLock]
      simp only [h.completed, apply_ite Prod.fst]

theorem Alike.step (h : lm.Alike lm') (hone : lm.OneLockEach) (op : LockOp) :
    (lm.step op).Alike (lm'.step op) := by
  cases op with
  | setResourceParent child parent =>
      refine ⟨h.locks, h.queue, h.index, h.completed, ?_⟩
      show lm'.resourceParent.insert child parent = lm.resourceParent.insert child parent
      rw [h.parents]
  | requestLock t r m => exact (h.requestLock hone t r m).2
  | releaseLock t r => exact h.releaseLock t r
  | completeTransaction t => exact h.completeTransaction t

theorem Alike.run_answers : ∀ {ops : List LockOp} {lm lm' : LockManager}, lm.Alike lm' →
    Always LockManager.step OneLockEach lm ops →
    answers lm' ops = answers lm ops ∧
      (run LockManager.step lm ops).Alike (run LockManager.step lm' ops)
  | [], _, _, h, _ => ⟨rfl, h⟩
  | op :: ops, lm, lm', h, hone => by
      rw [always_cons] at hone
      obtain ⟨hanswers, hlocks⟩ := (h.step hone.1 op).run_answers hone.2
      rw [answers, answers, h.answer hone.1, hanswers]
      exact ⟨rfl, hlocks⟩

theorem oneLockEach_empty (alloc : List Nat) : (empty alloc).OneLockEach := fun r => by
  simp [locksOn, empty]

/-- Releases that wake newcomers only keep the locks unique. -/
theorem always_oneLockEach {alloc : List Nat} {ops : List LockOp}
    (newcomers : Guarded LockManager.step NewcomerGuard (empty alloc) ops) :
    Always LockManager.step OneLockEach (empty alloc) ops :=
  (always_iff_guarded (I := TablesAgree) tablesAgree_step
    (fun _ op hagree h => oneLockEach_step hagree h op) ops (tablesAgree_empty alloc)
      (oneLockEach_empty alloc)).mpr newcomers

/-- As long as releases wake newcomers only, what a run answers, holds and lets wait does
not depend on the addresses of its locks. -/
theorem answers_alike (alloc alloc' : List Nat) (ops : List LockOp)
    (newcomers : Guarded LockManager.step NewcomerGuard (empty alloc) ops) :
    answers (empty alloc') ops = answers (empty alloc) ops ∧
      (run LockManager.step (empty alloc) ops).Alike (run LockManager.step (empty alloc') ops) :=
  (alike_empty alloc alloc').run_answers (always_oneLockEach newcomers)

/-- Two readers, a writer that waits for them, and their completion. -/
def readersThenWriter : List LockOp :=
  [.requestLock 1 5 .shared, .requestLock 2 5 .shared, .requestLock 3 5 .exclusive,
    .completeTransaction 1, .completeTransaction 2, .requestLock 3 5 .exclusive]

theorem answers_alike_readersThenWriter :
    answers (empty [7, 1]) readersThenWriter = answers (empty [0, 0]) readersThenWriter ∧
      (run LockManager.step (empty [0, 0]) readersThenWriter).Alike
        (run LockManager.step (empty [7, 1]) readersThenWriter) :=
  answers_alike [0, 0] [7, 1] readersThenWriter (by decide)

end LockManager

end TxnEngine
