import TxnEngine.Concurrency.Requests
import TxnEngine.Library.Arrivals
import TxnEngine.Library.Fifo

/-!
# The history of the wait queues

`stepEvents` lists what an operation appends to the wait queues and what
`processWaitQueue` grants from them, in the order in which the code does it.  The
functions follow the code branch by branch, and each of them is proved to account
for the queues before and after the code it follows.

Over a run, what was ever appended to the queue of a resource is what was granted
from it, in order, followed by what still waits.  Each `processWaitQueue` grants
the longest prefix that it can (`wait_queue_history`).
-/

namespace TxnEngine

open Std Fifo Arrivals

/-- What happens to a wait queue. -/
abbrev QueueEvent := Event Nat LockRequest

namespace LockManager

/-! ## The events of each operation -/

/-- `queue.push_back` in `enqueue`. -/
def enqueueEvents (lm : LockManager) (transactionId resourceId : Nat) (lockType : LockType) :
    List QueueEvent :=
  if ((lm.touchQueue resourceId).queueOn resourceId).any fun request =>
    request.transactionId == transactionId then []
  else [.appended resourceId ⟨transactionId, lockType⟩]

/-- The events of `requestLockOnResource`. -/
def requestOnResourceEvents (lm : LockManager) (transactionId resourceId : Nat)
    (lockType : LockType) : List QueueEvent :=
  if transactionId ∈ lm.completedTransactions then []
  else
    let lm := lm.touchLocks resourceId
    let locks := lm.locksOn resourceId
    match existingLock locks transactionId with
    | some existing =>
        if existing.lockType = lockType ∨ existing.lockType = .exclusive then []
        else if upgradeCompatible locks transactionId lockType then []
        else lm.enqueueEvents transactionId resourceId lockType
    | none =>
        if compatible locks lockType then []
        else lm.enqueueEvents transactionId resourceId lockType

/-- The events of `requestAll`. -/
def requestAllEvents (lm : LockManager) (transactionId : Nat) (lockType : LockType) :
    List Nat → List QueueEvent
  | [] => []
  | resourceId :: resourceIds =>
      lm.requestOnResourceEvents transactionId resourceId lockType ++
        match lm.requestLockOnResource transactionId resourceId lockType with
        | (true, lm) => lm.requestAllEvents transactionId lockType resourceIds
        | (false, _) => []

/-- The events of `ensureAncestorIntentionLocks`. -/
def ensureEvents (lm : LockManager) (transactionId resourceId : Nat) (requestedType : LockType) :
    List QueueEvent :=
  if getAncestorIntentionType requestedType = .none then []
  else
    lm.requestAllEvents transactionId (getAncestorIntentionType requestedType)
      (lm.ancestors resourceId).reverse

/-- The events of `requestLock`. -/
def requestEvents (lm : LockManager) (transactionId resourceId : Nat) (lockType : LockType) :
    List QueueEvent :=
  if transactionId ∈ lm.completedTransactions then []
  else
    lm.ensureEvents transactionId resourceId lockType ++
      match lm.ensureAncestorIntentionLocks transactionId resourceId lockType with
      | (false, _) => []
      | (true, lm) => lm.requestOnResourceEvents transactionId resourceId lockType

/-- `locks.insert` and `queue.pop_front` in `grantFrom`. -/
def grantEvents (lm : LockManager) (resourceId : Nat) : List LockRequest → List QueueEvent
  | [] => []
  | request :: queue =>
      if compatible (lm.locksOn resourceId) request.lockType then
        .served resourceId request :: (((lm.insertLock resourceId ⟨request.transactionId,
          request.lockType⟩).indexLock request.transactionId resourceId).setQueue resourceId
            queue).grantEvents resourceId queue
      else []

/-- The events of `processWaitQueue`. -/
def processEvents (lm : LockManager) (resourceId : Nat) : List QueueEvent :=
  match lm.waitQueues[resourceId]? with
  | none => []
  | some queue => (lm.touchLocks resourceId).grantEvents resourceId queue

/-- The events of `releaseLock`. -/
def releaseEvents (lm : LockManager) (transactionId resourceId : Nat) : List QueueEvent :=
  if transactionId ∉ lm.completedTransactions then []
  else
    match lm.resourceLocks[resourceId]? with
    | none => []
    | some locks =>
        if locks.any fun lock => lock.transactionId == transactionId then
          let others := locks.filter fun lock => lock.transactionId != transactionId
          ((lm.setLocks resourceId others).unindexLock transactionId resourceId).processEvents
            resourceId
        else []

/-- The events of `releaseAll`. -/
def releaseAllEvents (lm : LockManager) (transactionId : Nat) : List Nat → List QueueEvent
  | [] => []
  | resourceId :: resourceIds =>
      lm.releaseEvents transactionId resourceId ++
        (lm.releaseLock transactionId resourceId).2.releaseAllEvents transactionId resourceIds

/-- The events of `completeTransaction`. -/
def completeEvents (lm : LockManager) (transactionId : Nat) : List QueueEvent :=
  match lm.txnLocks[transactionId]? with
  | none => []
  | some held => (lm.markCompleted transactionId).releaseAllEvents transactionId held.toList

/-- The events of one operation. -/
def stepEvents (lm : LockManager) : LockOp → List QueueEvent
  | .setResourceParent _ _ => []
  | .requestLock t r m => lm.requestEvents t r m
  | .releaseLock t r => lm.releaseEvents t r
  | .completeTransaction t => lm.completeEvents t

/-- The events of a run. -/
def queueHistory (lm : LockManager) : List LockOp → List QueueEvent
  | [] => []
  | op :: ops => lm.stepEvents op ++ (lm.step op).queueHistory ops

variable {lm : LockManager} {t r : Nat} {m : LockType}

/-! ## Requests -/

theorem follows_enqueue (lm : LockManager) :
    Follows lm.queueOn (lm.enqueueEvents t r m) (lm.enqueue t r m).queueOn := by
  rw [enqueueEvents, enqueue]
  split
  · exact follows_nil fun r' => lm.queueOn_touchQueue r r'
  · refine follows_append fun r' => ?_
    rw [queueOn_setQueue, queueOn_touchQueue, queueOn_touchQueue]

theorem follows_requestOnResource (lm : LockManager) (t r : Nat) (m : LockType) :
    Follows lm.queueOn (lm.requestOnResourceEvents t r m)
      (lm.requestLockOnResource t r m).2.queueOn := by
  have hsame : Follows lm.queueOn [] lm.queueOn := follows_nil fun _ => rfl
  rw [requestOnResourceEvents, requestLockOnResource]
  by_cases hover : t ∈ lm.completedTransactions
  · rw [if_pos hover, if_pos hover]
    exact hsame
  · rw [if_neg hover, if_neg hover]
    dsimp only
    cases existingLock ((lm.touchLocks r).locksOn r) t with
    | some existing =>
        dsimp only
        by_cases henough : existing.lockType = m ∨ existing.lockType = .exclusive
        · rw [if_pos henough, if_pos henough]
          exact hsame
        · rw [if_neg henough, if_neg henough]
          by_cases hfree : upgradeCompatible ((lm.touchLocks r).locksOn r) t m = true
          · rw [if_pos hfree, if_pos hfree]
            exact hsame
          · rw [if_neg hfree, if_neg hfree]
            exact (lm.touchLocks r).follows_enqueue
    | none =>
        dsimp only
        by_cases hfree : compatible ((lm.touchLocks r).locksOn r) m = true
        · rw [if_pos hfree, if_pos hfree]
          exact hsame
        · rw [if_neg hfree, if_neg hfree]
          exact (lm.touchLocks r).follows_enqueue

theorem follows_requestAll (rs : List Nat) (lm : LockManager) :
    Follows lm.queueOn (lm.requestAllEvents t m rs) (lm.requestAll t m rs).2.queueOn := by
  induction rs generalizing lm with
  | nil => exact follows_nil fun _ => rfl
  | cons r rs ih =>
      have hfirst := lm.follows_requestOnResource t r m
      rw [requestAllEvents, requestAll]
      cases hout : lm.requestLockOnResource t r m with
      | mk granted lm' =>
          rw [hout] at hfirst
          cases granted with
          | true => exact hfirst.trans (ih lm')
          | false => exact hfirst.trans (follows_nil fun _ => rfl)

theorem follows_request :
    Follows lm.queueOn (lm.requestEvents t r m) (lm.requestLock t r m).2.queueOn := by
  have hens : Follows lm.queueOn (lm.ensureEvents t r m)
      (lm.ensureAncestorIntentionLocks t r m).2.queueOn := by
    rw [ensureEvents, ensureAncestorIntentionLocks]
    split
    · exact follows_nil fun _ => rfl
    · exact follows_requestAll _ lm
  rw [requestEvents, requestLock]
  split
  · exact follows_nil fun _ => rfl
  · cases hout : lm.ensureAncestorIntentionLocks t r m with
    | mk granted lm' =>
        rw [hout] at hens
        cases granted with
        | true => exact hens.trans (follows_requestOnResource _ t r m)
        | false => exact hens.trans (follows_nil fun _ => rfl)

/-! ## Releases -/

theorem follows_grant (queue : List LockRequest) (lm : LockManager) (h : lm.queueOn r = queue) :
    Follows lm.queueOn (lm.grantEvents r queue) (lm.grantFrom r queue).queueOn := by
  induction queue generalizing lm with
  | nil => exact follows_nil fun _ => rfl
  | cons request queue ih =>
      rw [grantEvents, grantFrom]
      split
      · have hserve : Follows lm.queueOn [.served r request]
            (lm.grantFront r request queue).queueOn :=
          follows_serve h fun r' => queueOn_grantFront lm r r' request queue
        have hrest : (lm.grantFront r request queue).queueOn r = queue := by
          rw [queueOn_grantFront, if_pos rfl]
        exact hserve.trans (ih _ hrest)
      · exact follows_nil fun _ => rfl

theorem follows_process :
    Follows lm.queueOn (lm.processEvents r) (lm.processWaitQueue r).queueOn := by
  rw [processEvents, processWaitQueue]
  cases hq : lm.waitQueues[r]? with
  | none => exact follows_nil fun _ => rfl
  | some queue =>
      have hqueue : lm.queueOn r = queue := by rw [queueOn_of_getElem?, hq, Option.getD_some]
      exact follows_grant queue (lm.touchLocks r) hqueue

theorem follows_release :
    Follows lm.queueOn (lm.releaseEvents t r) (lm.releaseLock t r).2.queueOn := by
  have hsame : Follows lm.queueOn [] lm.queueOn := follows_nil fun _ => rfl
  rw [releaseEvents, releaseLock]
  by_cases hactive : t ∉ lm.completedTransactions
  · rw [if_pos hactive, if_pos hactive]
    exact hsame
  · rw [if_neg hactive, if_neg hactive]
    cases lm.resourceLocks[r]? with
    | none => exact hsame
    | some locks =>
        dsimp only
        by_cases hheld : (locks.any fun lock => lock.transactionId == t) = true
        · rw [if_pos hheld, if_pos hheld]
          -- dropping the locks of `t` leaves the queues alone
          have hqueue : ((lm.setLocks r (locks.filter fun lock =>
              lock.transactionId != t)).unindexLock t r).queueOn = lm.queueOn := by
            funext r'
            rw [queueOn, (unindexLock_rest _ t r).2.1]
            rfl
          intro r'
          rw [queueOn_dropEmptyQueue, queueOn_dropEmptyLocks, ← hqueue]
          exact follows_process r'
        · rw [if_neg hheld, if_neg hheld]
          exact hsame

theorem follows_releaseAll (rs : List Nat) (lm : LockManager) :
    Follows lm.queueOn (lm.releaseAllEvents t rs) (lm.releaseAll t rs).2.queueOn := by
  induction rs generalizing lm with
  | nil => exact follows_nil fun _ => rfl
  | cons r rs ih => exact follows_release.trans (ih _)

theorem follows_complete :
    Follows lm.queueOn (lm.completeEvents t) (lm.completeTransaction t).2.queueOn := by
  rw [completeEvents, completeTransaction_eq]
  cases lm.txnLocks[t]? with
  | none => exact follows_nil fun _ => rfl
  | some held => exact follows_releaseAll held.toList (lm.markCompleted t)

/-! ## Runs -/

theorem follows_step (lm : LockManager) (op : LockOp) :
    Follows lm.queueOn (lm.stepEvents op) (lm.step op).queueOn := by
  cases op with
  | setResourceParent child parent => exact follows_nil fun _ => rfl
  | requestLock t r m => exact follows_request
  | releaseLock t r => exact follows_release
  | completeTransaction t => exact follows_complete

theorem follows_run (ops : List LockOp) (lm : LockManager) :
    Follows lm.queueOn (lm.queueHistory ops) (Runs.run step lm ops).queueOn := by
  induction ops generalizing lm with
  | nil => exact follows_nil fun _ => rfl
  | cons op ops ih => exact (lm.follows_step op).trans (ih (lm.step op))

/-! ## What one call grants -/

/-- Every request is compatible with the locks and with the requests before it. -/
def LetThrough (locks : List Lock) : List LockRequest → Prop :=
  Each fun before request =>
    compatible (before.map LockRequest.toLock ++ locks) request.lockType = true

theorem letThrough_cons {locks : List Lock} {request : LockRequest} {queue : List LockRequest} :
    LetThrough locks (request :: queue) ↔
      compatible locks request.lockType = true ∧ LetThrough (request.toLock :: locks) queue := by
  have hrest : (Each fun before next => compatible (([request] ++ before).map LockRequest.toLock ++
      locks) next.lockType = true) queue ↔ LetThrough (request.toLock :: locks) queue := by
    refine forall₃_congr fun before next later => imp_congr_right fun _ => ?_
    have hperm : (([request] ++ before).map LockRequest.toLock ++ locks).Perm
        (before.map LockRequest.toLock ++ request.toLock :: locks) := List.perm_middle.symm
    exact iff_of_eq (congrArg (· = true) (compatible_of_perm hperm next.lockType))
  rw [LetThrough, ← List.singleton_append, each_append, hrest, ← List.nil_append [request],
    each_concat, and_iff_right each_nil]
  rfl

/-- The grantable requests are let through. -/
theorem letThrough_grantable (queue : List LockRequest) (locks : List Lock) :
    LetThrough locks (grantable locks queue) := by
  induction queue generalizing locks with
  | nil => exact each_nil
  | cons request queue ih =>
      rw [grantable]
      split
      · next hfree => exact letThrough_cons.mpr ⟨hfree, ih _⟩
      · exact each_nil

/-- Whatever is let through from the front of the queue is granted. -/
theorem isPrefix_grantable {front : List LockRequest} (queue : List LockRequest)
    (locks : List Lock) (hfront : front <+: queue) (h : LetThrough locks front) :
    front <+: grantable locks queue := by
  induction front generalizing queue locks with
  | nil => exact List.nil_prefix
  | cons request front ih =>
      obtain ⟨hfree, hrest⟩ := letThrough_cons.mp h
      cases queue with
      | nil => exact absurd (List.prefix_nil.mp hfront) (by simp)
      | cons first queue =>
          obtain ⟨rfl, htail⟩ := List.cons_prefix_cons.mp hfront
          rw [grantable, if_pos hfree]
          exact (List.prefix_cons_inj request).mpr (ih queue _ htail hrest)

theorem grantEvents_eq (queue : List LockRequest) (lm : LockManager) :
    lm.grantEvents r queue = (grantable (lm.locksOn r) queue).map (Event.served r) := by
  induction queue generalizing lm with
  | nil => rfl
  | cons request queue ih =>
      have hlocks : ((lm.grantFront r request queue).locksOn r).Perm
          (request.toLock :: lm.locksOn r) := by
        rw [locksOn_grantFront, if_pos rfl]
        exact perm_insertAt _ _ _
      rw [grantEvents, grantable]
      split
      · rw [List.map_cons, ← grantable_of_perm queue hlocks]
        exact congrArg (Event.served r request :: ·) (ih _)
      · rfl

theorem processEvents_eq (lm : LockManager) (r : Nat) :
    lm.processEvents r =
      (grantable (lm.locksOn r) (lm.queueOn r)).map (Event.served r) := by
  rw [processEvents]
  cases hq : lm.waitQueues[r]? with
  | none =>
      have hnil : lm.queueOn r = [] := by rw [queueOn_of_getElem?, hq, Option.getD_none]
      rw [hnil]
      rfl
  | some queue =>
      have hqueue : lm.queueOn r = queue := by rw [queueOn_of_getElem?, hq, Option.getD_some]
      rw [hqueue, ← locksOn_touchLocks lm r r]
      exact grantEvents_eq queue (lm.touchLocks r)

/-- Over a run, what was appended to a queue is what was granted from it, followed
by what it holds.  Every call of `processWaitQueue` grants the longest front of the
queue in which each request is compatible with the locks there at the call and with
the requests before it. -/
theorem wait_queue_history (alloc : List Nat) (ops : List LockOp) :
    (∀ r, appendedTo r ((empty alloc).queueHistory ops) =
      servedFrom r ((empty alloc).queueHistory ops) ++
        (Runs.run step (empty alloc) ops).queueOn r) ∧
    ∀ (lm : LockManager) (r : Nat), ∃ granted,
      lm.processEvents r = granted.map (Event.served r) ∧
      granted <+: lm.queueOn r ∧ LetThrough (lm.locksOn r) granted ∧
      (∀ front, front <+: lm.queueOn r → LetThrough (lm.locksOn r) front → front <+: granted) ∧
      ((lm.processWaitQueue r).locksOn r).Perm
        (granted.map LockRequest.toLock ++ lm.locksOn r) ∧
      (lm.processWaitQueue r).queueOn r = (lm.queueOn r).drop granted.length := by
  constructor
  · intro r
    have h := follows_run ops (empty alloc) r
    simpa [queueOn, empty] using h
  · intro lm r
    obtain ⟨hlocks, hqueue, _⟩ := lm.processWaitQueue_spec r
    exact ⟨grantable (lm.locksOn r) (lm.queueOn r), lm.processEvents_eq r, grantable_isPrefix _ _,
      letThrough_grantable _ _, fun front hfront h => isPrefix_grantable _ _ hfront h, hlocks,
      hqueue⟩

end LockManager

end TxnEngine
