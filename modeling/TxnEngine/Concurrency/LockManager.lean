import TxnEngine.Utils.Enums

/-!
# The lock manager

`LockManager` as `concurrency/LockManager.cpp` computes it.  The maps of the
class are ordered maps of the standard library, and a map entry exists here
exactly when it exists there, entries with an empty container included.

A resource's locks are a `std::set` of pointers.  It iterates in the order of
the addresses, which is the allocator's choice.  The model keeps the locks of a
resource as a list in that order, and `alloc` holds the positions at which the
next new locks will land.  A statement about every `alloc` is a statement about
every allocator.
-/

namespace TxnEngine

open Std

/-- A granted lock: its holder and its mode. -/
structure Lock where
  transactionId : Nat
  lockType : LockType
deriving DecidableEq, Repr

/-- An entry of a wait queue. -/
structure LockRequest where
  transactionId : Nat
  lockType : LockType
deriving DecidableEq, Repr

/-- The state of the lock manager. -/
structure LockManager where
  /-- The locks held on each resource, in pointer order. -/
  resourceLocks : ExtTreeMap Nat (List Lock)
  /-- The requests waiting for each resource, oldest first. -/
  waitQueues : ExtTreeMap Nat (List LockRequest)
  /-- The resources each transaction holds locks on. -/
  txnLocks : ExtTreeMap Nat (ExtTreeSet Nat)
  completedTransactions : ExtTreeSet Nat
  resourceParent : ExtTreeMap Nat Nat
  /-- The positions of the next new locks in the pointer order. -/
  alloc : List Nat

/-- Two modes can be held together. -/
def isCompatible (existing requested : LockType) : Bool :=
  if existing = .exclusive ∨ requested = .exclusive then false
  else if existing = .shared ∧ requested = .intentionExclusive then false
  else if existing = .intentionExclusive ∧ requested = .shared then false
  else true

/-- The test of the three loops over held locks, which ask both ways round. -/
def Lock.admits (lock : Lock) (requested : LockType) : Bool :=
  isCompatible lock.lockType requested && isCompatible requested lock.lockType

/-- The mode a request needs on every ancestor of its resource. -/
def getAncestorIntentionType (requested : LockType) : LockType :=
  if requested = .exclusive ∨ requested = .intentionExclusive then .intentionExclusive
  else if requested = .shared ∨ requested = .intentionShared then .intentionShared
  else .none

/-- Insert at a position, at the end when the list is shorter. -/
def insertAt {α : Type} (position : Nat) (a : α) (l : List α) : List α :=
  l.take position ++ a :: l.drop position

namespace LockManager

/-- The lock manager as it is constructed. -/
def empty (alloc : List Nat) : LockManager := ⟨∅, ∅, ∅, ∅, ∅, alloc⟩

/-! ## Access to the maps -/

/-- The locks held on a resource. -/
def locksOn (lm : LockManager) (resourceId : Nat) : List Lock :=
  lm.resourceLocks.getD resourceId []

/-- The requests waiting for a resource. -/
def queueOn (lm : LockManager) (resourceId : Nat) : List LockRequest :=
  lm.waitQueues.getD resourceId []

/-- The resources the index lists for a transaction. -/
def heldResources (lm : LockManager) (transactionId : Nat) : ExtTreeSet Nat :=
  lm.txnLocks.getD transactionId ∅

/-- `resource_locks_[resource_id]`, which creates a missing entry. -/
def touchLocks (lm : LockManager) (resourceId : Nat) : LockManager :=
  { lm with resourceLocks := lm.resourceLocks.insertIfNew resourceId [] }

/-- `wait_queues_[resource_id]`, which creates a missing entry. -/
def touchQueue (lm : LockManager) (resourceId : Nat) : LockManager :=
  { lm with waitQueues := lm.waitQueues.insertIfNew resourceId [] }

/-- Replace the set of locks of a resource. -/
def setLocks (lm : LockManager) (resourceId : Nat) (locks : List Lock) : LockManager :=
  { lm with resourceLocks := lm.resourceLocks.insert resourceId locks }

/-- Replace the wait queue of a resource. -/
def setQueue (lm : LockManager) (resourceId : Nat) (queue : List LockRequest) : LockManager :=
  { lm with waitQueues := lm.waitQueues.insert resourceId queue }

/-- `locks.insert(std::make_shared<Lock>(...))`. -/
def insertLock (lm : LockManager) (resourceId : Nat) (lock : Lock) : LockManager :=
  { lm with
    resourceLocks := lm.resourceLocks.insert resourceId
      (insertAt (lm.alloc.headD 0) lock (lm.locksOn resourceId))
    alloc := lm.alloc.tail }

/-- `txn_locks_[transaction_id].insert(resource_id)`. -/
def indexLock (lm : LockManager) (transactionId resourceId : Nat) : LockManager :=
  { lm with
    txnLocks := lm.txnLocks.insert transactionId
      ((lm.heldResources transactionId).insert resourceId) }

/-- The index part of `releaseLock`. -/
def unindexLock (lm : LockManager) (transactionId resourceId : Nat) : LockManager :=
  match lm.txnLocks[transactionId]? with
  | none => lm
  | some held =>
      if (held.erase resourceId).isEmpty then
        { lm with txnLocks := lm.txnLocks.erase transactionId }
      else
        { lm with txnLocks := lm.txnLocks.insert transactionId (held.erase resourceId) }

/-! ## Requests -/

def setResourceParent (lm : LockManager) (childResourceId parentResourceId : Nat) : LockManager :=
  { lm with resourceParent := lm.resourceParent.insert childResourceId parentResourceId }

/-- The end of `requestLockOnResource`: wait, unless the transaction waits
already. -/
def enqueue (lm : LockManager) (transactionId resourceId : Nat) (lockType : LockType) :
    LockManager :=
  let lm := lm.touchQueue resourceId
  let queue := lm.queueOn resourceId
  if queue.any fun request => request.transactionId == transactionId then lm
  else lm.setQueue resourceId (queue ++ [⟨transactionId, lockType⟩])

/-- The first lock of a transaction in the pointer order. -/
def existingLock (locks : List Lock) (transactionId : Nat) : Option Lock :=
  locks.find? fun lock => lock.transactionId == transactionId

/-- The locks of everybody else admit the mode. -/
def upgradeCompatible (locks : List Lock) (transactionId : Nat) (lockType : LockType) : Bool :=
  locks.all fun lock => lock.transactionId == transactionId || lock.admits lockType

/-- All the locks admit the mode. -/
def compatible (locks : List Lock) (lockType : LockType) : Bool :=
  locks.all fun lock => lock.admits lockType

def requestLockOnResource (lm : LockManager) (transactionId resourceId : Nat)
    (lockType : LockType) : Bool × LockManager :=
  if transactionId ∈ lm.completedTransactions then (false, lm)
  else
    let lm := lm.touchLocks resourceId
    let locks := lm.locksOn resourceId
    match existingLock locks transactionId with
    | some existing =>
        if existing.lockType = lockType ∨ existing.lockType = .exclusive then (true, lm)
        else if upgradeCompatible locks transactionId lockType then
          -- the erased pointer is the first of this transaction in the set
          let others := locks.eraseP fun lock => lock.transactionId == transactionId
          (true, ((lm.setLocks resourceId others).insertLock resourceId
            ⟨transactionId, lockType⟩).indexLock transactionId resourceId)
        else (false, lm.enqueue transactionId resourceId lockType)
    | none =>
        if compatible locks lockType then
          (true, (lm.insertLock resourceId ⟨transactionId, lockType⟩).indexLock
            transactionId resourceId)
        else (false, lm.enqueue transactionId resourceId lockType)

/-- The walk up the parent map.  `seen` stops it on a cycle.  Every step adds a
parent to `seen`, so the size of the map is enough fuel
(`ancestorsFrom_fuel`). -/
def ancestorsFrom (parents : ExtTreeMap Nat Nat) : Nat → Nat → List Nat → List Nat
  | 0, _, _ => []
  | fuel + 1, resourceId, seen =>
      match parents[resourceId]? with
      | none => []
      | some parent =>
          if parent ∈ seen then []
          else parent :: ancestorsFrom parents fuel parent (parent :: seen)

/-- The ancestors of a resource, nearest first. -/
def ancestors (lm : LockManager) (resourceId : Nat) : List Nat :=
  ancestorsFrom lm.resourceParent (lm.resourceParent.size + 1) resourceId []

/-- The loop over the ancestors, which stops at the first refusal. -/
def requestAll (lm : LockManager) (transactionId : Nat) (lockType : LockType) :
    List Nat → Bool × LockManager
  | [] => (true, lm)
  | resourceId :: resourceIds =>
      match lm.requestLockOnResource transactionId resourceId lockType with
      | (true, lm) => lm.requestAll transactionId lockType resourceIds
      | (false, lm) => (false, lm)

def ensureAncestorIntentionLocks (lm : LockManager) (transactionId resourceId : Nat)
    (requestedType : LockType) : Bool × LockManager :=
  if getAncestorIntentionType requestedType = .none then (true, lm)
  else
    lm.requestAll transactionId (getAncestorIntentionType requestedType)
      (lm.ancestors resourceId).reverse

def requestLock (lm : LockManager) (transactionId resourceId : Nat) (lockType : LockType) :
    Bool × LockManager :=
  if transactionId ∈ lm.completedTransactions then (false, lm)
  else
    match lm.ensureAncestorIntentionLocks transactionId resourceId lockType with
    | (false, lm) => (false, lm)
    | (true, lm) => lm.requestLockOnResource transactionId resourceId lockType

/-! ## Releases -/

/-- The loop of `processWaitQueue`: grant from the front while the locks of the
resource admit the request. -/
def grantFrom (lm : LockManager) (resourceId : Nat) : List LockRequest → LockManager
  | [] => lm
  | request :: queue =>
      if compatible (lm.locksOn resourceId) request.lockType then
        (((lm.insertLock resourceId ⟨request.transactionId, request.lockType⟩).indexLock
          request.transactionId resourceId).setQueue resourceId queue).grantFrom resourceId queue
      else lm

def processWaitQueue (lm : LockManager) (resourceId : Nat) : LockManager :=
  match lm.waitQueues[resourceId]? with
  | none => lm
  | some queue => (lm.touchLocks resourceId).grantFrom resourceId queue

/-- `if (resource_locks_[resource_id].empty()) resource_locks_.erase(resource_id)`. -/
def dropEmptyLocks (lm : LockManager) (resourceId : Nat) : LockManager :=
  let lm := lm.touchLocks resourceId
  if (lm.locksOn resourceId).isEmpty then
    { lm with resourceLocks := lm.resourceLocks.erase resourceId }
  else lm

/-- `if (wait_queues_[resource_id].empty()) wait_queues_.erase(resource_id)`. -/
def dropEmptyQueue (lm : LockManager) (resourceId : Nat) : LockManager :=
  let lm := lm.touchQueue resourceId
  if (lm.queueOn resourceId).isEmpty then
    { lm with waitQueues := lm.waitQueues.erase resourceId }
  else lm

def releaseLock (lm : LockManager) (transactionId resourceId : Nat) : Bool × LockManager :=
  -- strict two-phase locking: an active transaction keeps its locks
  if transactionId ∉ lm.completedTransactions then (false, lm)
  else
    match lm.resourceLocks[resourceId]? with
    | none => (false, lm)
    | some locks =>
        if locks.any fun lock => lock.transactionId == transactionId then
          let others := locks.filter fun lock => lock.transactionId != transactionId
          (true, ((((lm.setLocks resourceId others).unindexLock transactionId
            resourceId).processWaitQueue resourceId).dropEmptyLocks resourceId).dropEmptyQueue
            resourceId)
        else (false, lm)

/-- The loop of `completeTransaction` over the resources it held at the call. -/
def releaseAll (lm : LockManager) (transactionId : Nat) : List Nat → Bool × LockManager
  | [] => (false, lm)
  | resourceId :: resourceIds =>
      match lm.releaseLock transactionId resourceId with
      | (released, lm) =>
          match lm.releaseAll transactionId resourceIds with
          | (releasedAny, lm) => (released || releasedAny, lm)

def completeTransaction (lm : LockManager) (transactionId : Nat) : Bool × LockManager :=
  let lm := { lm with completedTransactions := lm.completedTransactions.insert transactionId }
  match lm.txnLocks[transactionId]? with
  | none => (true, lm)
  | some held =>
      match lm.releaseAll transactionId held.toList with
      | (releasedAny, lm) =>
          (releasedAny, { lm with txnLocks := lm.txnLocks.erase transactionId })

/-! ## Queries -/

def hasLock (lm : LockManager) (transactionId resourceId : Nat) : Bool :=
  match lm.resourceLocks[resourceId]? with
  | none => false
  | some locks => locks.any fun lock => lock.transactionId == transactionId

/-- The loop of `getLockType` with its two flags. -/
def scanLockTypes (hasIx hasIs : Bool) : List Lock → LockType
  | [] =>
      if hasIx then .intentionExclusive
      else if hasIs then .intentionShared
      else .none
  | lock :: locks =>
      if lock.lockType = .exclusive then .exclusive
      else if lock.lockType = .shared then .shared
      else scanLockTypes (hasIx || lock.lockType = .intentionExclusive)
        (hasIs || lock.lockType = .intentionShared) locks

def getLockType (lm : LockManager) (resourceId : Nat) : LockType :=
  match lm.resourceLocks[resourceId]? with
  | none => .none
  | some locks => if locks.isEmpty then .none else scanLockTypes false false locks

end LockManager

/-! ## Runs -/

/-- The operations of the lock manager that change it. -/
inductive LockOp where
  | setResourceParent (childResourceId parentResourceId : Nat)
  | requestLock (transactionId resourceId : Nat) (lockType : LockType)
  | releaseLock (transactionId resourceId : Nat)
  | completeTransaction (transactionId : Nat)
deriving DecidableEq, Repr

/-- One operation. -/
def LockManager.step (lm : LockManager) : LockOp → LockManager
  | .setResourceParent child parent => lm.setResourceParent child parent
  | .requestLock t r m => (lm.requestLock t r m).2
  | .releaseLock t r => (lm.releaseLock t r).2
  | .completeTransaction t => (lm.completeTransaction t).2

end TxnEngine
