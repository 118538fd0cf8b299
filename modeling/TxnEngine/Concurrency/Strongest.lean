import TxnEngine.Concurrency.Addresses
import TxnEngine.Concurrency.Compatibility
import TxnEngine.Concurrency.Protection

/-!
# The strongest lock on a resource

`getLockType` sums up the locks of a resource in one mode.  It returns the first
exclusive or shared lock it meets and looks at intention locks only where there is
neither.  Among locks that are compatible with each other the mode it returns
conflicts with everything that some lock conflicts with (`isCompatible_scan`), so it
predicts the answer to a transaction that holds nothing on the chain
(`requestLock_newcomer_iff`).

The locks of one transaction need not be compatible with each other.  A transaction
with two locks on a resource can hide its intention to write behind its shared lock
(`hidesIntention_refused`).
-/

namespace TxnEngine

open Runs

namespace LockManager

/-- A newcomer gets the mode if nothing is held, or if the strongest mode admits it. -/
def Admits (lm : LockManager) (r : Nat) (m : LockType) : Prop :=
  (∀ t, lm.hasLock t r = false) ∨ isCompatible (lm.getLockType r) m = true

variable {lm : LockManager} {t r : Nat} {m : LockType}

/-! ## The scan -/

/-- What a shared lock admits, its neighbours admit. -/
theorem fits_of_shared {k : LockType} (hk : isCompatible .shared k = true)
    (hm : isCompatible .shared m = true) : Fits k m := by
  cases k <;> cases m <;> simp_all [Fits, isCompatible]

/-- Among compatible locks the scan finds a mode that conflicts with whatever one of
them conflicts with. -/
theorem isCompatible_scan : ∀ (locks : List Lock) (hasIx hasIs : Bool),
    (locks.map Lock.lockType).Pairwise Fits →
    (hasIx = true → ∀ lock ∈ locks, Fits .intentionExclusive lock.lockType) →
    (isCompatible (scanLockTypes hasIx hasIs locks) m = true ↔
      Fits .none m ∧ (hasIx = true → Fits .intentionExclusive m) ∧
        (hasIs = true → Fits .intentionShared m) ∧ ∀ lock ∈ locks, Fits lock.lockType m)
  | [], hasIx, hasIs, _, _ => by
      cases hasIx <;> cases hasIs <;> cases m <;> simp [scanLockTypes, Fits, isCompatible]
  | ⟨t, k⟩ :: locks, hasIx, hasIs, hfit, hix => by
      rw [List.map_cons, List.pairwise_cons] at hfit
      obtain ⟨hhead, hrest⟩ := hfit
      have hneighbours : ∀ lock ∈ locks, Fits k lock.lockType := fun lock hlock =>
        hhead _ (List.mem_map_of_mem hlock)
      have ih := isCompatible_scan locks (hasIx || k = .intentionExclusive)
        (hasIs || k = .intentionShared) hrest
      cases k with
      | exclusive => simp [scanLockTypes, Fits, isCompatible]
      | shared =>
          have hno : hasIx = false := by
            cases hasIx with
            | false => rfl
            | true =>
                have := hix rfl _ List.mem_cons_self
                simp [Fits, isCompatible] at this
          constructor
          · intro hm
            refine ⟨fits_of_shared rfl hm, by simp [hno], fun _ => fits_of_shared rfl hm, ?_⟩
            intro lock hlock
            rcases List.mem_cons.mp hlock with rfl | hlock
            · exact fits_of_shared rfl hm
            · exact fits_of_shared (hneighbours lock hlock).1 hm
          · rintro ⟨_, _, _, hall⟩
            exact (hall _ List.mem_cons_self).1
      | intentionExclusive =>
          simp only [scanLockTypes, reduceCtorEq, if_false, decide_true, Bool.or_true] at ih ⊢
          rw [ih fun _ => hneighbours]
          simp
          tauto
      | intentionShared =>
          simp only [scanLockTypes, reduceCtorEq, if_false, decide_true, decide_false,
            Bool.or_true, Bool.or_false] at ih ⊢
          rw [ih fun h lock hlock => hix h lock (List.mem_cons_of_mem _ hlock)]
          simp
          tauto
      | none =>
          simp only [scanLockTypes, reduceCtorEq, if_false, decide_false, Bool.or_false] at ih ⊢
          rw [ih fun h lock hlock => hix h lock (List.mem_cons_of_mem _ hlock)]
          simp
          tauto

/-- Locks of different transactions are compatible with each other. -/
theorem pairwise_fits (hone : lm.OneLockEach) (h : lm.MutuallyCompatible) (r : Nat) :
    ((lm.locksOn r).map Lock.lockType).Pairwise Fits := by
  rw [List.pairwise_map]
  refine (List.pairwise_map.mp (hone r)).imp_of_mem ?_
  intro a b ha hb hne
  exact h r a ha b hb hne

theorem getLockType_eq (lm : LockManager) (r : Nat) :
    lm.getLockType r = scanLockTypes false false (lm.locksOn r) := by
  rw [locksOn_of_getElem?, getLockType]
  cases lm.resourceLocks[r]? with
  | none => rfl
  | some locks => cases locks <;> simp [scanLockTypes]

/-- The strongest mode answers for all the locks of a resource. -/
theorem compatible_iff_admits (hone : lm.OneLockEach) (h : lm.MutuallyCompatible) (r : Nat) :
    compatible (lm.locksOn r) m = true ↔ lm.Admits r m := by
  have hscan := isCompatible_scan (m := m) (lm.locksOn r) false false (pairwise_fits hone h r)
    (by simp)
  simp only [Bool.false_eq_true, false_imp_iff, true_and] at hscan
  rw [compatible_iff, Admits, ← lm.locksOn_eq_nil_iff, getLockType_eq, hscan]
  cases lm.locksOn r with
  | nil => simp
  | cons lock locks =>
      simp only [reduceCtorEq, false_or, iff_and_self]
      intro hfit
      have hnone : ∀ k, Fits k m → Fits .none m := by
        cases m <;> simp [Fits, isCompatible]
      exact hnone _ (hfit lock List.mem_cons_self)

/-! ## The answer to a newcomer -/

theorem existingLock_of_newcomer (hnew : lm.hasLock t r = false) :
    existingLock (lm.locksOn r) t = none := by
  cases hfind : existingLock (lm.locksOn r) t with
  | none => rfl
  | some lock =>
      obtain ⟨hmem, hid⟩ := existingLock_some hfind
      have := (lm.hasLock_iff (r := r)).mpr ⟨lock, hmem, hid⟩
      rw [hnew] at this
      contradiction

theorem admitsRequest_of_newcomer (hnew : lm.hasLock t r = false) :
    admitsRequest (lm.locksOn r) t m = compatible (lm.locksOn r) m := by
  have hnone := existingLock_of_newcomer hnew
  rw [admitsRequest, holdsEnough, hnone, Option.any_none, Bool.false_or,
    compatible_eq_upgradeCompatible hnone]

/-- The exchange test asks for the locks of the others only. -/
theorem upgradeCompatible_of_othersOn {lm' : LockManager}
    (h : lm'.othersOn t r = lm.othersOn t r) :
    upgradeCompatible (lm'.locksOn r) t m = upgradeCompatible (lm.locksOn r) t m := by
  rw [Bool.eq_iff_iff, upgradeCompatible_iff, upgradeCompatible_iff]
  have hmem : ∀ lock, (lock ∈ lm'.locksOn r ∧ lock.transactionId ≠ t) ↔
      (lock ∈ lm.locksOn r ∧ lock.transactionId ≠ t) := by
    intro lock
    rw [← mem_othersOn, h, mem_othersOn]
  simp only [← and_imp, hmem]

/-- The only lock of a transaction is the one it finds. -/
theorem existingLock_insertAt_self {locks : List Lock} {position : Nat}
    (hnone : existingLock locks t = none) :
    existingLock (insertAt position ⟨t, m⟩ locks) t = some ⟨t, m⟩ := by
  have hmem : ∀ lock, lock ∈ insertAt position ⟨t, m⟩ locks ↔ lock = ⟨t, m⟩ ∨ lock ∈ locks := by
    intro lock
    rw [(perm_insertAt _ _ _).mem_iff, List.mem_cons]
  cases hfind : existingLock (insertAt position ⟨t, m⟩ locks) t with
  | none => exact absurd rfl (existingLock_none hfind ⟨t, m⟩ ((hmem _).mpr (Or.inl rfl)))
  | some lock =>
      obtain ⟨hfound, hid⟩ := existingLock_some hfind
      rcases (hmem lock).mp hfound with rfl | hold
      · rfl
      · exact absurd hid (existingLock_none hnone lock hold)

/-- A lock that a newcomer has on the resource itself when its turn comes is in the
intention mode. -/
theorem holdsEnough_at_turn (active : t ∉ lm.completedTransactions)
    (hnew : lm.hasLock t r = false)
    (h : holdsEnough ((lm.requestEach t (lm.ancestorRequests r m)).2.locksOn r) t m = true) :
    (r, m) ∈ lm.ancestorRequests r m := by
  rw [locksOn_requestEach_ancestors active, locksAtTurn] at h
  have hnone := existingLock_of_newcomer hnew
  split at h
  case isFalse => simp [holdsEnough, hnone] at h
  case isTrue hturn =>
    obtain ⟨⟨hmode, hcycle⟩, -⟩ := hturn
    rw [exchanged, holdsEnough, eraseP_of_existingLock_none hnone,
      existingLock_insertAt_self hnone, Option.any_some,
      decide_eq_true_iff] at h
    rcases h with heq | hexclusive
    · obtain ⟨rest, hrest⟩ := ancestorRequests_of_cycle hmode hcycle
      have hmode : getAncestorIntentionType m = m := heq
      rw [hrest, hmode]
      exact List.mem_cons_self
    · cases m <;> simp [getAncestorIntentionType] at hexclusive

theorem mem_chain_of_request {request : Nat × LockType} (h : request ∈ lm.requests r m) :
    request.1 ∈ r :: lm.ancestors r := by
  have hmem := List.mem_map_of_mem (f := Prod.fst) h
  rw [requests_eq] at hmem
  exact List.mem_cons.mpr (mem_requested hmem)

/-- A newcomer gets what the locks held before the call admit. -/
theorem requestLock_newcomer (active : t ∉ lm.completedTransactions)
    (hnew : ∀ a ∈ r :: lm.ancestors r, lm.hasLock t a = false) :
    (lm.requestLock t r m).1 = true ↔
      ∀ request ∈ lm.requests r m, compatible (lm.locksOn request.1) request.2 = true := by
  have hself : lm.hasLock t r = false := hnew r List.mem_cons_self
  have hancestors : (lm.requestEach t (lm.ancestorRequests r m)).1 = true ↔
      ∀ request ∈ lm.ancestorRequests r m,
        compatible (lm.locksOn request.1) request.2 = true := by
    rw [requestEach_fst _ lm active ancestorRequests_nodup]
    refine forall₂_congr fun request hrequest => ?_
    rw [admitsRequest_of_newcomer (hnew _ (mem_chain_of_request
      (List.mem_append_left _ hrequest)))]
  rw [requestLock_eq active, requests, requestEach_append, requestEach_single,
    List.forall_mem_append, List.forall_mem_singleton, ← hancestors]
  by_cases hgranted : (lm.requestEach t (lm.ancestorRequests r m)).1 = true
  · rw [if_pos hgranted]
    simp only [hgranted, true_and]
    rw [(requestLockOnResource_answered
      (active_requestEach (lm.ancestorRequests r m) active)).answer, admitsRequest,
      upgradeCompatible_of_othersOn (requestEach_othersOn r _ lm),
      ← compatible_eq_upgradeCompatible (existingLock_of_newcomer hself), Bool.or_eq_true]
    constructor
    · rintro (henough | hfree)
      · exact hancestors.mp hgranted _ (holdsEnough_at_turn active hself henough)
      · exact hfree
    · exact Or.inr
  · rw [if_neg hgranted]
    simp [hgranted]

/-- As long as releases wake newcomers only, `getLockType` on the resources of the chain
says whether a transaction that holds nothing there is granted its request. -/
theorem requestLock_newcomer_iff (alloc : List Nat) (ops : List LockOp)
    (newcomers : Guarded step NewcomerGuard (empty alloc) ops) (t r : Nat) (m : LockType)
    (active : t ∉ (run step (empty alloc) ops).completedTransactions)
    (hnew : ∀ a ∈ r :: (run step (empty alloc) ops).ancestors r,
      (run step (empty alloc) ops).hasLock t a = false) :
    ((run step (empty alloc) ops).requestLock t r m).1 = true ↔
      ∀ request ∈ (run step (empty alloc) ops).requests r m,
        (run step (empty alloc) ops).Admits request.1 request.2 := by
  have hone := (always_oneLockEach newcomers).last
  have hcompat := (mutuallyCompatible_iff _).mpr (compatible_run alloc ops)
  rw [requestLock_newcomer active hnew]
  exact forall₂_congr fun request _ => compatible_iff_admits hone hcompat request.1

/-- A table that two transactions read rows of and one writes a row of. -/
def busyTable : List LockOp :=
  [.setResourceParent 5 1, .setResourceParent 6 1, .setResourceParent 7 1,
    .requestLock 1 5 .shared, .requestLock 2 6 .exclusive, .requestLock 3 5 .shared]

theorem requestLock_newcomer_iff_busyTable :
    ((run step (empty []) busyTable).requestLock 4 7 .shared).1 = true ↔
      ∀ request ∈ (run step (empty []) busyTable).requests 7 .shared,
        (run step (empty []) busyTable).Admits request.1 request.2 :=
  requestLock_newcomer_iff [] busyTable (by decide) 4 7 .shared (by decide) (by decide)

/-- Transaction 1 waits to exchange its lock for an intention to write and gets it behind
the old one when transaction 2 completes.  Then it exchanges the old one to read. -/
def hidesIntention : List LockOp :=
  [.requestLock 1 5 .intentionShared, .requestLock 2 5 .shared,
    .requestLock 1 5 .intentionExclusive, .completeTransaction 2, .requestLock 1 5 .shared]

/-- `getLockType` reports a shared lock, and a second reader is refused. -/
theorem hidesIntention_refused :
    (run step (empty [0, 0, 1]) hidesIntention).getLockType 5 = .shared ∧
      ((run step (empty [0, 0, 1]) hidesIntention).requestLock 3 5 .shared).1 = false := by
  decide

end LockManager

end TxnEngine
