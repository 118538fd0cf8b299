import TxnEngine.Concurrency.LockViews
import TxnEngine.Library.Runs

/-!
# What the operations of the lock manager do

One lemma for each operation.  `requestLockOnResource_outcome` lists the five
things a request can do to one resource.  `releaseLock` drops the locks of a
completed transaction and wakes the longest prefix of the wait queue that the
other locks let through, `grantable`.  Every operation is a sequence of actions
of the lock table, so what the table keeps, the lock manager keeps.
-/

namespace TxnEngine

open Std LockTable

/-- The lock a request waits for. -/
def LockRequest.toLock (request : LockRequest) : Lock :=
  ⟨request.transactionId, request.lockType⟩

namespace LockManager

variable (lm : LockManager)

/-! ## The tests on held locks -/

theorem existingLock_some {locks : List Lock} {t : Nat} {lock : Lock}
    (h : existingLock locks t = some lock) : lock ∈ locks ∧ lock.transactionId = t :=
  ⟨List.mem_of_find?_eq_some h, by simpa using List.find?_some h⟩

theorem existingLock_none {locks : List Lock} {t : Nat} (h : existingLock locks t = none) :
    ∀ lock ∈ locks, lock.transactionId ≠ t := by
  simpa [existingLock] using h

/-- Erasing the first lock of a transaction takes its existing lock away. -/
theorem perm_existingLock {locks : List Lock} {t : Nat} {lock : Lock}
    (h : existingLock locks t = some lock) :
    locks.Perm (lock :: locks.eraseP fun l => l.transactionId == t) := by
  induction locks with
  | nil => simp [existingLock] at h
  | cons l ls ih =>
      unfold existingLock at h ih
      rw [List.find?_cons] at h
      split at h
      · next hl =>
          rw [List.eraseP_cons_of_pos (by exact hl), Option.some.inj h]
      · next hl =>
          rw [List.eraseP_cons_of_neg (by simp [hl])]
          exact ((ih h).cons l).trans (List.Perm.swap _ _ _)

/-- The locks that stay when the first lock of a transaction is exchanged. -/
theorem others_eq {t r : Nat} {lock : Lock} {others : Multiset (Nat × LockType)}
    (h : existingLock (lm.locksOn r) t = some lock)
    (hsplit : lm.table.held r = lock.entry ::ₘ others) :
    others = ↑(((lm.locksOn r).eraseP fun l => l.transactionId == t).map Lock.entry) := by
  have hperm : lm.table.held r = lock.entry ::ₘ
      ↑(((lm.locksOn r).eraseP fun l => l.transactionId == t).map Lock.entry) :=
    Multiset.coe_eq_coe.mpr ((perm_existingLock h).map Lock.entry)
  rw [hsplit] at hperm
  exact (Multiset.cons_inj_right _).mp hperm

theorem compatible_iff {locks : List Lock} {m : LockType} :
    compatible locks m = true ↔ ∀ lock ∈ locks, Fits lock.lockType m := by
  simp [compatible, admits_iff]

theorem upgradeCompatible_iff {locks : List Lock} {t : Nat} {m : LockType} :
    upgradeCompatible locks t m = true ↔
      ∀ lock ∈ locks, lock.transactionId ≠ t → Fits lock.lockType m := by
  simp only [upgradeCompatible, List.all_eq_true, Bool.or_eq_true, beq_iff_eq, admits_iff]
  exact forall₂_congr fun lock _ => or_iff_not_imp_left

theorem compatible_of_perm {locks locks' : List Lock} (h : locks.Perm locks') (m : LockType) :
    compatible locks m = compatible locks' m := h.all_eq

/-- A fact about all locks of a resource, read in the table. -/
theorem forall_held {r : Nat} {p : Nat × LockType → Prop}
    (h : ∀ lock ∈ lm.locksOn r, p lock.entry) : ∀ q ∈ lm.table.held r, p q := by
  rintro ⟨t, m⟩ hq
  exact h _ (lm.mem_table_held.mp hq)

/-! ## Requests on one resource -/

/-- The entry that `enqueue` appends, if it appends one. -/
theorem enqueue_table (t r : Nat) (m : LockType) :
    (lm.enqueue t r m).table = lm.table ∨
      (∀ p ∈ lm.table.waiting r, p.1 ≠ t) ∧
        (lm.enqueue t r m).table = lm.table.setWaiting r (lm.table.waiting r ++ [(t, m)]) := by
  unfold enqueue
  dsimp only
  rw [queueOn_touchQueue]
  split
  · exact Or.inl (by simp)
  · next hany =>
      refine Or.inr ⟨?_, ?_⟩
      · rintro ⟨t', m'⟩ hmem rfl
        exact hany (List.any_eq_true.mpr ⟨_, (lm.mem_table_waiting).mp hmem, by simp⟩)
      · rw [table_setQueue, table_touchQueue, List.map_append]
        rfl

theorem enqueue_resourceParent (t r : Nat) (m : LockType) :
    (lm.enqueue t r m).resourceParent = lm.resourceParent := by
  unfold enqueue
  dsimp only
  split <;> rfl

/-- The five outcomes of `requestLockOnResource`. -/
inductive RequestOutcome (t r : Nat) (m : LockType) : Bool × LockManager → Prop where
  /-- A completed transaction gets nothing. -/
  | refused (finished : t ∈ lm.completedTransactions) : RequestOutcome t r m (false, lm)
  /-- The lock found is good enough. -/
  | already {h : LockType} {lm' : LockManager} (active : t ∉ lm.completedTransactions)
      (mine : existingLock (lm.locksOn r) t = some ⟨t, h⟩) (enough : h = m ∨ h = .exclusive)
      (same : lm'.table = lm.table) : RequestOutcome t r m (true, lm')
  /-- The lock found is replaced. -/
  | converted {h : LockType} {lm' : LockManager} (others : Multiset (Nat × LockType))
      (active : t ∉ lm.completedTransactions)
      (mine : existingLock (lm.locksOn r) t = some ⟨t, h⟩) (old : h ≠ m) (weak : h ≠ .exclusive)
      (free : upgradeCompatible (lm.locksOn r) t m = true)
      (split : lm.table.held r = (t, h) ::ₘ others)
      (effect : lm'.table = lm.table.exchange t r m others) : RequestOutcome t r m (true, lm')
  /-- A first lock of the transaction on the resource. -/
  | granted {lm' : LockManager} (active : t ∉ lm.completedTransactions)
      (first : existingLock (lm.locksOn r) t = none)
      (free : compatible (lm.locksOn r) m = true)
      (effect : lm'.table = lm.table.hold t r m) : RequestOutcome t r m (true, lm')
  /-- The request waits, unless the transaction already waits for the resource. -/
  | waits {lm' : LockManager} (active : t ∉ lm.completedTransactions)
      (effect : lm'.table = lm.table ∨
        (∀ p ∈ lm.table.waiting r, p.1 ≠ t) ∧
          lm'.table = lm.table.setWaiting r (lm.table.waiting r ++ [(t, m)])) :
      RequestOutcome t r m (false, lm')

theorem requestLockOnResource_outcome (t r : Nat) (m : LockType) :
    lm.RequestOutcome t r m (lm.requestLockOnResource t r m) := by
  have hwait : ∀ (_ : t ∉ lm.completedTransactions),
      lm.RequestOutcome t r m (false, (lm.touchLocks r).enqueue t r m) := by
    intro hactive
    have h := (lm.touchLocks r).enqueue_table t r m
    rw [table_touchLocks] at h
    exact .waits hactive h
  unfold requestLockOnResource
  split
  · next hover => exact .refused hover
  · next hactive =>
      dsimp only
      rw [locksOn_touchLocks]
      split
      · next existing hex =>
          obtain ⟨hmem, hid⟩ := existingLock_some hex
          obtain ⟨t', h⟩ := existing
          obtain rfl : t' = t := hid
          split
          · next henough => exact .already hactive hex henough (lm.table_touchLocks r)
          · next henough =>
              rw [not_or] at henough
              split
              · next hfree =>
                  have hperm := perm_existingLock hex
                  refine .converted ↑(((lm.locksOn r).eraseP fun l =>
                    l.transactionId == t').map Lock.entry) hactive hex henough.1 henough.2
                    hfree ?_ ?_
                  · exact Multiset.coe_eq_coe.mpr (hperm.map Lock.entry)
                  · rw [table_grant]
                    ext1
                    · funext r'
                      by_cases hr : r' = r
                      · subst hr
                        simp [table, Table.hold, Table.exchange, locksOn_setLocks]
                      · have hl := (lm.touchLocks r).locksOn_setLocks r r'
                          ((lm.locksOn r).eraseP fun l => l.transactionId == t')
                        rw [if_neg (Ne.symm hr), locksOn_touchLocks] at hl
                        simp only [table, Table.hold, Table.exchange, Function.update_of_ne hr, hl]
                    · rfl
                    · rfl
                    · rfl
              · exact hwait hactive
      · next hnone =>
          split
          · next hfree =>
              refine .granted hactive hnone hfree ?_
              rw [table_grant, table_touchLocks]
          · exact hwait hactive

theorem requestLockOnResource_resourceParent (t r : Nat) (m : LockType) :
    (lm.requestLockOnResource t r m).2.resourceParent = lm.resourceParent := by
  unfold requestLockOnResource
  split
  · rfl
  · dsimp only
    split
    · split
      · rfl
      · split
        · rfl
        · exact enqueue_resourceParent _ t r m
    · split
      · rfl
      · exact enqueue_resourceParent _ t r m

theorem requestLockOnResource_done (t r : Nat) (m : LockType) :
    (lm.requestLockOnResource t r m).2.table.done = lm.table.done := by
  have hout := lm.requestLockOnResource_outcome t r m
  generalize lm.requestLockOnResource t r m = out at hout
  cases hout with
  | refused => rfl
  | already _ _ _ same => rw [same]
  | converted _ _ _ _ _ _ _ effect => rw [effect, Table.exchange]
  | granted _ _ _ effect => rw [effect, Table.hold]
  | waits _ effect =>
      rcases effect with same | ⟨_, effect⟩
      · rw [same]
      · rw [effect, Table.setWaiting]

/-- The actions by which a request of `t` for mode `m` on `r` changes the table. -/
def RequestAct (t r : Nat) (m : LockType) (a : Act Nat Nat LockType) : Prop :=
  a = .grant t r m ∨ (∃ h, a = .convert t r h m) ∨ a = .enqueue t r m

theorem requestLockOnResource_step (t r : Nat) (m : LockType) :
    (lm.requestLockOnResource t r m).2.table = lm.table ∨
      ∃ a, Step Fits Convertible lm.table a (lm.requestLockOnResource t r m).2.table ∧
        RequestAct t r m a := by
  have hout := lm.requestLockOnResource_outcome t r m
  generalize lm.requestLockOnResource t r m = out at hout
  cases hout with
  | refused => exact Or.inl rfl
  | already _ _ _ same => exact Or.inl same
  | @converted h lm' others active mine old weak free split effect =>
      refine Or.inr ⟨.convert t r h m, ?_, Or.inr (Or.inl ⟨h, rfl⟩)⟩
      simp only [effect]
      exact .convert active split weak (lm.forall_held (upgradeCompatible_iff.mp free))
  | granted active first free effect =>
      refine Or.inr ⟨.grant t r m, ?_, Or.inl rfl⟩
      simp only [effect]
      exact .grant active (lm.forall_held (existingLock_none first))
        (lm.forall_held (compatible_iff.mp free))
  | waits active effect =>
      rcases effect with same | ⟨absent, effect⟩
      · exact Or.inl same
      · refine Or.inr ⟨.enqueue t r m, ?_, Or.inr (Or.inr rfl)⟩
        simp only [effect]
        exact .enqueue active absent

/-- A completed transaction is refused. -/
theorem not_completed_of_granted {t r : Nat} {m : LockType}
    (h : (lm.requestLock t r m).1 = true) : t ∉ lm.completedTransactions := by
  intro hdone
  rw [requestLock, if_pos hdone] at h
  cases h

/-- A granted request leaves a lock of the requested mode, or an exclusive one. -/
theorem held_of_requestLockOnResource {t r : Nat} {m : LockType}
    (h : (lm.requestLockOnResource t r m).1 = true) :
    ∃ m', (t, m') ∈ (lm.requestLockOnResource t r m).2.table.held r ∧
      (m' = m ∨ m' = .exclusive) := by
  have hout := lm.requestLockOnResource_outcome t r m
  generalize lm.requestLockOnResource t r m = out at h hout
  cases hout with
  | refused | waits => simp at h
  | @already held lm' active mine enough same =>
      refine ⟨held, ?_, enough⟩
      simp only [same]
      exact lm.mem_table_held.mpr (existingLock_some mine).1
  | converted others active mine old weak free split effect =>
      exact ⟨m, by simp [effect, Table.exchange], Or.inl rfl⟩
  | granted active first free effect =>
      exact ⟨m, by simp [effect, Table.hold], Or.inl rfl⟩

/-! ## Requests on a chain of resources -/

/-- Everything a request of `t` on the resources `rs` does to the table, action by
action. -/
def ByRequest (t : Nat) (rs : List Nat) (_ : Table Nat Nat LockType)
    (a : Act Nat Nat LockType) : Prop :=
  ∃ r ∈ rs, ∃ m, RequestAct t r m a

theorem ByRequest.mono {t : Nat} {rs rs' : List Nat} (hsub : rs ⊆ rs')
    (T : Table Nat Nat LockType) (a : Act Nat Nat LockType) :
    ByRequest t rs T a → ByRequest t rs' T a
  | ⟨r, hr, hact⟩ => ⟨r, hsub hr, hact⟩

theorem requestLockOnResource_reaches (t r : Nat) (m : LockType) :
    Reaches Fits Convertible (ByRequest t [r]) lm.table
      (lm.requestLockOnResource t r m).2.table := by
  rcases lm.requestLockOnResource_step t r m with same | ⟨a, hstep, hact⟩
  · rw [same]
    exact .refl
  · exact .single hstep ⟨r, List.mem_singleton_self r, m, hact⟩

theorem requestAll_reaches (t : Nat) (m : LockType) (rs : List Nat) (lm : LockManager) :
    Reaches Fits Convertible (ByRequest t rs) lm.table (lm.requestAll t m rs).2.table := by
  induction rs generalizing lm with
  | nil => exact .refl
  | cons r rs ih =>
      have hfirst : Reaches Fits Convertible (ByRequest t (r :: rs)) lm.table _ :=
        (lm.requestLockOnResource_reaches t r m).mono (ByRequest.mono (by simp))
      rw [requestAll]
      cases hreq : lm.requestLockOnResource t r m with
      | mk granted lm' =>
          rw [hreq] at hfirst
          cases granted with
          | false => exact hfirst
          | true =>
              exact hfirst.trans ((ih lm').mono (ByRequest.mono (List.subset_cons_self r rs)))

theorem ensureAncestorIntentionLocks_reaches (t r : Nat) (m : LockType) :
    Reaches Fits Convertible (ByRequest t (r :: lm.ancestors r)) lm.table
      (lm.ensureAncestorIntentionLocks t r m).2.table := by
  rw [ensureAncestorIntentionLocks]
  split
  · exact .refl
  · refine (requestAll_reaches t _ _ lm).mono (ByRequest.mono fun a ha => ?_)
    exact List.mem_cons_of_mem r (List.mem_reverse.mp ha)

theorem requestLock_reaches (t r : Nat) (m : LockType) :
    Reaches Fits Convertible (ByRequest t (r :: lm.ancestors r)) lm.table
      (lm.requestLock t r m).2.table := by
  have hanc := lm.ensureAncestorIntentionLocks_reaches t r m
  rw [requestLock]
  split
  · exact .refl
  · cases hens : lm.ensureAncestorIntentionLocks t r m with
    | mk ok lm' =>
        rw [hens] at hanc
        cases ok with
        | false => exact hanc
        | true =>
            have hlast := lm'.requestLockOnResource_reaches t r m
            exact hanc.trans (hlast.mono (ByRequest.mono (by simp)))

/-- A request completes nobody. -/
theorem mem_requestLock_completed {t r t' : Nat} {m : LockType} :
    t' ∈ (lm.requestLock t r m).2.completedTransactions ↔ t' ∈ lm.completedTransactions := by
  have hdone : (lm.requestLock t r m).2.table.done = lm.table.done := by
    refine (lm.requestLock_reaches t r m).invariant (I := fun T => T.done = lm.table.done) ?_ rfl
    rintro T T' a hs ⟨r', _, m', hact⟩ hT
    refine (hs.done_eq ?_).trans hT
    rintro t'' rfl
    rcases hact with heq | ⟨_, heq⟩ | heq <;> cases heq
  exact Set.ext_iff.mp hdone t'

/-- A granted request leaves a lock of the requested mode, or an exclusive one. -/
theorem held_of_requestLock {t r : Nat} {m : LockType} (h : (lm.requestLock t r m).1 = true) :
    ∃ m', (t, m') ∈ (lm.requestLock t r m).2.table.held r ∧ (m' = m ∨ m' = .exclusive) := by
  unfold requestLock at h ⊢
  split at h
  · simp at h
  · next hactive =>
      rw [if_neg hactive]
      cases hens : lm.ensureAncestorIntentionLocks t r m with
      | mk ok lm' =>
          rw [hens] at h
          cases ok with
          | false => simp at h
          | true => exact lm'.held_of_requestLockOnResource h

/-! ## The wait queue -/

/-- The longest prefix of a wait queue in which every request is compatible with
the locks and with the requests before it. -/
def grantable (locks : List Lock) : List LockRequest → List LockRequest
  | [] => []
  | request :: queue =>
      if compatible locks request.lockType then
        request :: grantable (request.toLock :: locks) queue
      else []

theorem grantable_of_perm (queue : List LockRequest) {locks locks' : List Lock}
    (h : locks.Perm locks') : grantable locks queue = grantable locks' queue := by
  induction queue generalizing locks locks' with
  | nil => rfl
  | cons request queue ih =>
      unfold grantable
      rw [compatible_of_perm h, ih (h.cons request.toLock)]

theorem grantable_isPrefix (queue : List LockRequest) (locks : List Lock) :
    grantable locks queue <+: queue := by
  induction queue generalizing locks with
  | nil => exact List.nil_prefix
  | cons request queue ih =>
      rw [grantable]
      split
      · exact (List.prefix_cons_inj request).mpr (ih _)
      · exact List.nil_prefix

/-- The queue stops at a request that the locks by then do not let through. -/
theorem grantable_stops {queue : List LockRequest} {locks : List Lock} {request : LockRequest}
    (hmem : request ∈ (queue.drop (grantable locks queue).length).head?) :
    compatible ((grantable locks queue).map LockRequest.toLock ++ locks) request.lockType
      = false := by
  induction queue generalizing locks with
  | nil =>
      rw [List.drop_nil] at hmem
      cases hmem
  | cons first queue ih =>
      by_cases hfree : compatible locks first.lockType = true
      · have hgranted : grantable locks (first :: queue)
            = first :: grantable (first.toLock :: locks) queue := if_pos hfree
        rw [hgranted] at hmem ⊢
        have hstops := ih hmem
        rwa [compatible_of_perm List.perm_middle] at hstops
      · have hnone : grantable locks (first :: queue) = [] := if_neg hfree
        rw [hnone] at hmem ⊢
        cases hmem
        exact Bool.eq_false_of_not_eq_true hfree

/-- The lock manager after one grant from the wait queue. -/
def grantFront (r : Nat) (request : LockRequest) (queue : List LockRequest) : LockManager :=
  ((lm.insertLock r request.toLock).indexLock request.transactionId r).setQueue r queue

theorem grantFrom_cons (r : Nat) (request : LockRequest) (queue : List LockRequest) :
    lm.grantFrom r (request :: queue) =
      if compatible (lm.locksOn r) request.lockType then
        (lm.grantFront r request queue).grantFrom r queue
      else lm := rfl

theorem locksOn_grantFront (r r' : Nat) (request : LockRequest) (queue : List LockRequest) :
    (lm.grantFront r request queue).locksOn r' =
      if r = r' then insertAt (lm.alloc.headD 0) request.toLock (lm.locksOn r)
      else lm.locksOn r' :=
  lm.locksOn_insertLock r r' request.toLock

theorem queueOn_grantFront (r r' : Nat) (request : LockRequest) (queue : List LockRequest) :
    (lm.grantFront r request queue).queueOn r' = if r = r' then queue else lm.queueOn r' :=
  queueOn_setQueue _ r r' queue

theorem table_grantFront (r : Nat) (request : LockRequest) (queue : List LockRequest) :
    (lm.grantFront r request queue).table =
      (lm.table.hold request.transactionId r request.lockType).setWaiting r
        (queue.map LockRequest.entry) := by
  unfold grantFront
  rw [table_setQueue, LockRequest.toLock, table_grant]

/-- `processWaitQueue` moves the grantable prefix of the queue to the locks. -/
theorem grantFrom_spec (r : Nat) (queue : List LockRequest) (lm : LockManager)
    (h : lm.queueOn r = queue) :
    ((lm.grantFrom r queue).locksOn r).Perm
        ((grantable (lm.locksOn r) queue).map LockRequest.toLock ++ lm.locksOn r) ∧
      (lm.grantFrom r queue).queueOn r = queue.drop (grantable (lm.locksOn r) queue).length ∧
      ∀ r', r' ≠ r → (lm.grantFrom r queue).locksOn r' = lm.locksOn r' ∧
        (lm.grantFrom r queue).queueOn r' = lm.queueOn r' := by
  induction queue generalizing lm with
  | nil => simp [grantFrom, grantable, h]
  | cons request queue ih =>
      rw [grantFrom_cons, grantable]
      split
      · have hlocks := lm.locksOn_grantFront r r request queue
        rw [if_pos rfl] at hlocks
        have hperm : ((lm.grantFront r request queue).locksOn r).Perm
            (request.toLock :: lm.locksOn r) := hlocks ▸ perm_insertAt _ _ _
        have hqueue := lm.queueOn_grantFront r r request queue
        rw [if_pos rfl] at hqueue
        obtain ⟨ihl, ihq, ihr⟩ := ih (lm.grantFront r request queue) hqueue
        rw [grantable_of_perm queue hperm] at ihl ihq
        refine ⟨?_, ?_, ?_⟩
        · exact (ihl.trans (hperm.append_left _)).trans List.perm_middle
        · simpa using ihq
        · intro r' hr
          obtain ⟨hl, hq⟩ := ihr r' hr
          rw [hl, hq, locksOn_grantFront, queueOn_grantFront, if_neg hr.symm, if_neg hr.symm]
          exact ⟨rfl, rfl⟩
      · simp [h]

theorem grantFrom_reaches (r : Nat) (queue : List LockRequest) (lm : LockManager)
    (h : lm.queueOn r = queue) :
    Reaches Fits Convertible (fun _ a => ∃ t m, a = .wake t r m) lm.table
      (lm.grantFrom r queue).table := by
  induction queue generalizing lm with
  | nil => exact .refl
  | cons request queue ih =>
      rw [grantFrom_cons]
      split
      · next hfree =>
          have hqueue := lm.queueOn_grantFront r r request queue
          rw [if_pos rfl] at hqueue
          have hstep : Step Fits Convertible lm.table
              (.wake request.transactionId r request.lockType)
              (lm.grantFront r request queue).table := by
            rw [table_grantFront]
            refine .wake ?_ (lm.forall_held (compatible_iff.mp hfree))
            simp only [table, h, List.map_cons, LockRequest.entry]
          exact (Runs.Reaches.single hstep ⟨_, _, rfl⟩).trans (ih _ hqueue)
      · exact .refl

theorem queueOn_of_getElem? {r : Nat} :
    lm.queueOn r = (lm.waitQueues[r]?).getD [] := ExtTreeMap.getD_eq_getD_getElem?

theorem locksOn_of_getElem? {r : Nat} :
    lm.locksOn r = (lm.resourceLocks[r]?).getD [] := ExtTreeMap.getD_eq_getD_getElem?

theorem processWaitQueue_spec (r : Nat) :
    ((lm.processWaitQueue r).locksOn r).Perm
      ((grantable (lm.locksOn r) (lm.queueOn r)).map LockRequest.toLock ++ lm.locksOn r) ∧
    (lm.processWaitQueue r).queueOn r =
      (lm.queueOn r).drop (grantable (lm.locksOn r) (lm.queueOn r)).length ∧
    ∀ r', r' ≠ r → (lm.processWaitQueue r).locksOn r' = lm.locksOn r' ∧
      (lm.processWaitQueue r).queueOn r' = lm.queueOn r' := by
  unfold processWaitQueue
  cases hq : lm.waitQueues[r]? with
  | none =>
      have hnil : lm.queueOn r = [] := by rw [queueOn_of_getElem?, hq, Option.getD_none]
      simp [hnil, grantable]
  | some queue =>
      have hqueue : lm.queueOn r = queue := by rw [queueOn_of_getElem?, hq, Option.getD_some]
      rw [hqueue]
      have h := grantFrom_spec r queue (lm.touchLocks r) hqueue
      simp only [locksOn_touchLocks] at h
      exact h

theorem processWaitQueue_reaches (r : Nat) :
    Reaches Fits Convertible (fun _ a => ∃ t m, a = .wake t r m) lm.table
      (lm.processWaitQueue r).table := by
  unfold processWaitQueue
  cases hq : lm.waitQueues[r]? with
  | none => exact .refl
  | some queue =>
      have hqueue : lm.queueOn r = queue := by rw [queueOn_of_getElem?, hq, Option.getD_some]
      have h := grantFrom_reaches r queue (lm.touchLocks r) hqueue
      rwa [table_touchLocks] at h

/-! ## Releases -/

/-- The locks of everybody else. -/
def othersOn (t r : Nat) : List Lock :=
  (lm.locksOn r).filter fun lock => lock.transactionId != t

theorem mem_othersOn {t r : Nat} {lock : Lock} :
    lock ∈ lm.othersOn t r ↔ lock ∈ lm.locksOn r ∧ lock.transactionId ≠ t := by
  simp [othersOn]

/-- The requests that the locks of the others let through once `t` has left. -/
def wokenBy (t r : Nat) : List LockRequest := grantable (lm.othersOn t r) (lm.queueOn r)

theorem hasLock_iff {t r : Nat} :
    lm.hasLock t r = true ↔ ∃ lock ∈ lm.locksOn r, lock.transactionId = t := by
  unfold hasLock
  rw [lm.locksOn_of_getElem?]
  cases lm.resourceLocks[r]? <;> simp

/-- Nobody holds a lock where there are no locks. -/
theorem locksOn_eq_nil_iff {r : Nat} : lm.locksOn r = [] ↔ ∀ t, lm.hasLock t r = false := by
  simp only [Bool.eq_false_iff, Ne, hasLock_iff]
  constructor
  · intro hnil t
    simp [hnil]
  · intro hfree
    refine List.eq_nil_iff_forall_not_mem.mpr fun lock hlock => ?_
    exact hfree lock.transactionId ⟨lock, hlock, rfl⟩

theorem hasLock_iff_table {t r : Nat} :
    lm.hasLock t r = true ↔ ∃ m, (t, m) ∈ lm.table.held r := by
  rw [hasLock_iff]
  constructor
  · intro ⟨⟨t', m⟩, hmem, heq⟩
    obtain rfl : t' = t := heq
    exact ⟨m, lm.mem_table_held.mpr hmem⟩
  · intro ⟨m, hmem⟩
    exact ⟨⟨t, m⟩, lm.mem_table_held.mp hmem, rfl⟩

/-- What `releaseLock` does when it releases something: the lock manager without
the locks of `t` on `r`, and then the wait queue. -/
def dropLocks (t r : Nat) : LockManager :=
  (lm.setLocks r (lm.othersOn t r)).unindexLock t r

theorem releaseLock_eq (t r : Nat) :
    lm.releaseLock t r =
      if t ∈ lm.completedTransactions ∧ lm.hasLock t r = true then
        (true, (((lm.dropLocks t r).processWaitQueue r).dropEmptyLocks r).dropEmptyQueue r)
      else (false, lm) := by
  unfold releaseLock hasLock dropLocks othersOn
  rw [lm.locksOn_of_getElem?]
  by_cases hover : t ∈ lm.completedTransactions
  · cases lm.resourceLocks[r]? with
    | none => simp
    | some locks => simp [hover]
  · simp [hover]

theorem unindexLock_rest (t r : Nat) :
    (lm.unindexLock t r).resourceLocks = lm.resourceLocks ∧
      (lm.unindexLock t r).waitQueues = lm.waitQueues ∧
      (lm.unindexLock t r).completedTransactions = lm.completedTransactions ∧
      (lm.unindexLock t r).resourceParent = lm.resourceParent := by
  unfold unindexLock
  split
  · exact ⟨rfl, rfl, rfl, rfl⟩
  · split <;> exact ⟨rfl, rfl, rfl, rfl⟩

theorem locksOn_dropLocks (t r r' : Nat) :
    (lm.dropLocks t r).locksOn r' = if r = r' then lm.othersOn t r else lm.locksOn r' := by
  have h := lm.locksOn_setLocks r r' (lm.othersOn t r)
  simp only [locksOn, dropLocks, (unindexLock_rest _ t r).1] at h ⊢
  exact h

theorem queueOn_dropLocks (t r r' : Nat) : (lm.dropLocks t r).queueOn r' = lm.queueOn r' := by
  simp only [queueOn, dropLocks, (unindexLock_rest _ t r).2.1, setLocks]

theorem table_dropLocks (t r : Nat) : (lm.dropLocks t r).table = lm.table.drop t r := by
  ext1
  · funext r'
    by_cases hr : r' = r
    · subst hr
      simp only [table, Table.drop, Function.update_self, locksOn_dropLocks, if_pos, othersOn,
        Multiset.filter_coe, Multiset.coe_eq_coe, List.filter_map]
      refine List.Perm.of_eq (congrArg _ (List.filter_congr fun lock _ => ?_))
      rw [Bool.eq_iff_iff, bne_iff_ne, Function.comp_apply, decide_eq_true_iff]
      exact Iff.rfl
    · simp only [table, Table.drop, Function.update_of_ne hr, locksOn_dropLocks,
        if_neg (Ne.symm hr)]
  · funext r'
    simp only [table, Table.drop, queueOn_dropLocks]
  · funext t'
    ext r'
    have h := (lm.setLocks r (lm.othersOn t r)).mem_heldResources_unindexLock t r t' r'
    rw [mem_table_index, dropLocks, h]
    by_cases ht : t' = t
    · subst ht
      simp [Table.drop, heldResources, setLocks, eq_comm]
    · simp [Table.drop, heldResources, setLocks, ht, Ne.symm ht]
  · simp only [table, dropLocks, (unindexLock_rest _ t r).2.2.1, Table.drop, setLocks]

/-- A release drops the locks of `t` on `r` and grants what they kept waiting. -/
theorem releaseLock_spec {t r : Nat} (hover : t ∈ lm.completedTransactions)
    (hheld : lm.hasLock t r = true) :
    ((lm.releaseLock t r).2.locksOn r).Perm
      ((lm.wokenBy t r).map LockRequest.toLock ++ lm.othersOn t r) ∧
    (lm.releaseLock t r).2.queueOn r = (lm.queueOn r).drop (lm.wokenBy t r).length := by
  rw [releaseLock_eq, if_pos ⟨hover, hheld⟩]
  obtain ⟨hl, hq, _⟩ := (lm.dropLocks t r).processWaitQueue_spec r
  rw [locksOn_dropLocks, if_pos rfl, queueOn_dropLocks] at hl hq
  rw [locksOn_dropEmptyQueue, locksOn_dropEmptyLocks, queueOn_dropEmptyQueue,
    queueOn_dropEmptyLocks]
  exact ⟨hl, hq⟩

/-- A release on one resource leaves the others alone. -/
theorem releaseLock_other {t r r' : Nat} (hr : r' ≠ r) :
    (lm.releaseLock t r).2.locksOn r' = lm.locksOn r' ∧
      (lm.releaseLock t r).2.queueOn r' = lm.queueOn r' := by
  rw [releaseLock_eq]
  split
  · obtain ⟨_, _, ho⟩ := (lm.dropLocks t r).processWaitQueue_spec r
    obtain ⟨hl, hq⟩ := ho r' hr
    rw [locksOn_dropLocks, if_neg hr.symm] at hl
    rw [queueOn_dropLocks] at hq
    rw [locksOn_dropEmptyQueue, locksOn_dropEmptyLocks, queueOn_dropEmptyQueue,
      queueOn_dropEmptyLocks]
    exact ⟨hl, hq⟩
  · exact ⟨rfl, rfl⟩

/-- What a release does on `r` depends on the locks and the queue of `r` alone. -/
theorem wokenBy_congr {lm lm' : LockManager} {t r : Nat} (hl : lm'.locksOn r = lm.locksOn r)
    (hq : lm'.queueOn r = lm.queueOn r) :
    lm'.wokenBy t r = lm.wokenBy t r ∧ lm'.hasLock t r = lm.hasLock t r := by
  refine ⟨by simp only [wokenBy, othersOn, hl, hq], ?_⟩
  rw [Bool.eq_iff_iff, hasLock_iff, hasLock_iff, hl]

/-- What completing `t` does to the table, action by action. -/
def ByCompletion (t : Nat) (_ : Table Nat Nat LockType) (a : Act Nat Nat LockType) : Prop :=
  a = .finish t ∨ a = .forget t ∨ (∃ r, a = .release t r) ∨ ∃ t' r m, a = .wake t' r m

theorem releaseLock_reaches (t r : Nat) :
    Reaches Fits Convertible (ByCompletion t) lm.table (lm.releaseLock t r).2.table := by
  rw [releaseLock_eq]
  split
  · next h =>
      have hdrop : Step Fits Convertible lm.table (.release t r) (lm.dropLocks t r).table := by
        rw [table_dropLocks]
        exact .release h.1
      have hwake := (lm.dropLocks t r).processWaitQueue_reaches r
      rw [table_dropEmptyQueue, table_dropEmptyLocks]
      refine (Runs.Reaches.single hdrop (Or.inr (Or.inr (Or.inl ⟨r, rfl⟩)))).trans (hwake.mono ?_)
      rintro _ a ⟨t', m, rfl⟩
      exact Or.inr (Or.inr (Or.inr ⟨t', r, m, rfl⟩))
  · exact .refl

/-! ## Completions -/

/-- The lock manager with a transaction marked completed. -/
def markCompleted (t : Nat) : LockManager :=
  { lm with completedTransactions := lm.completedTransactions.insert t }

theorem mem_markCompleted {t t' : Nat} :
    t' ∈ (lm.markCompleted t).completedTransactions ↔
      t' = t ∨ t' ∈ lm.completedTransactions := by
  simp only [markCompleted, ExtTreeSet.mem_insert, Std.compare_eq_iff_eq]
  rw [eq_comm]

theorem table_markCompleted (t : Nat) : (lm.markCompleted t).table = lm.table.markDone t := by
  ext1
  · rfl
  · rfl
  · rfl
  · ext t'
    rw [mem_table_done, mem_markCompleted]
    rfl

theorem completeTransaction_eq (t : Nat) :
    (lm.completeTransaction t).2 =
      match lm.txnLocks[t]? with
      | none => lm.markCompleted t
      | some held =>
          { ((lm.markCompleted t).releaseAll t held.toList).2 with
            txnLocks := ((lm.markCompleted t).releaseAll t held.toList).2.txnLocks.erase t } := by
  unfold completeTransaction
  dsimp only
  cases lm.txnLocks[t]? <;> rfl

/-- The loop over the held resources is one release after the other. -/
theorem releaseAll_cons (t r : Nat) (rs : List Nat) :
    (lm.releaseAll t (r :: rs)).2 = ((lm.releaseLock t r).2.releaseAll t rs).2 := rfl

theorem grantFrom_rest (r : Nat) (queue : List LockRequest) (lm : LockManager) :
    (lm.grantFrom r queue).completedTransactions = lm.completedTransactions ∧
      (lm.grantFrom r queue).resourceParent = lm.resourceParent := by
  induction queue generalizing lm with
  | nil => exact ⟨rfl, rfl⟩
  | cons request queue ih =>
      rw [grantFrom_cons]
      split
      · exact ih (lm.grantFront r request queue)
      · exact ⟨rfl, rfl⟩

theorem processWaitQueue_rest (r : Nat) :
    (lm.processWaitQueue r).completedTransactions = lm.completedTransactions ∧
      (lm.processWaitQueue r).resourceParent = lm.resourceParent := by
  rw [processWaitQueue]
  cases lm.waitQueues[r]? with
  | none => exact ⟨rfl, rfl⟩
  | some queue => exact grantFrom_rest r queue (lm.touchLocks r)

/-- A release leaves the completed set and the parents alone. -/
theorem releaseLock_rest (t r : Nat) :
    (lm.releaseLock t r).2.completedTransactions = lm.completedTransactions ∧
      (lm.releaseLock t r).2.resourceParent = lm.resourceParent := by
  obtain ⟨_, _, hover, hparent⟩ := (lm.setLocks r (lm.othersOn t r)).unindexLock_rest t r
  obtain ⟨hover', hparent'⟩ := (lm.dropLocks t r).processWaitQueue_rest r
  rw [releaseLock_eq]
  split
  · rw [(dropEmptyQueue_rest _ r).2.2.1, (dropEmptyLocks_rest _ r).2.2.1,
      (dropEmptyQueue_rest _ r).2.2.2, (dropEmptyLocks_rest _ r).2.2.2]
    exact ⟨hover'.trans hover, hparent'.trans hparent⟩
  · exact ⟨rfl, rfl⟩

theorem releaseAll_rest (t : Nat) (rs : List Nat) (lm : LockManager) :
    (lm.releaseAll t rs).2.completedTransactions = lm.completedTransactions ∧
      (lm.releaseAll t rs).2.resourceParent = lm.resourceParent := by
  induction rs generalizing lm with
  | nil => exact ⟨rfl, rfl⟩
  | cons r rs ih =>
      obtain ⟨hover, hparent⟩ := lm.releaseLock_rest t r
      obtain ⟨hover', hparent'⟩ := ih (lm.releaseLock t r).2
      exact ⟨hover'.trans hover, hparent'.trans hparent⟩

theorem nodup_toList (s : ExtTreeSet Nat) : s.toList.Nodup := by
  have hsorted := ExtTreeSet.ordered_toList (t := s)
  refine hsorted.imp fun {a b} hab heq => ?_
  subst heq
  rw [Std.compare_self] at hab
  cases hab

/-- What the loop of `completeTransaction` does to a resource: it releases each
listed resource once, and a release looks at its own resource only. -/
theorem releaseAll_spec {t : Nat} (rs : List Nat) (lm : LockManager) (hnodup : rs.Nodup)
    (hover : t ∈ lm.completedTransactions) (r : Nat) :
    (r ∈ rs ∧ lm.hasLock t r = true →
      ((lm.releaseAll t rs).2.locksOn r).Perm
          ((lm.wokenBy t r).map LockRequest.toLock ++ lm.othersOn t r) ∧
        (lm.releaseAll t rs).2.queueOn r = (lm.queueOn r).drop (lm.wokenBy t r).length) ∧
    (¬ (r ∈ rs ∧ lm.hasLock t r = true) →
      (lm.releaseAll t rs).2.locksOn r = lm.locksOn r ∧
        (lm.releaseAll t rs).2.queueOn r = lm.queueOn r) := by
  induction rs generalizing lm with
  | nil => simp [releaseAll]
  | cons first rs ih =>
      obtain ⟨hnotin, hnodup'⟩ := List.nodup_cons.mp hnodup
      have hover' : t ∈ (lm.releaseLock t first).2.completedTransactions := by
        rwa [(lm.releaseLock_rest t first).1]
      obtain ⟨ihin, ihout⟩ := ih (lm.releaseLock t first).2 hnodup' hover'
      rw [releaseAll_cons]
      by_cases hr : r = first
      · -- the first resource is not listed again
        subst hr
        obtain ⟨hlocks, hqueue⟩ := ihout fun hc => hnotin hc.1
        rw [hlocks, hqueue]
        refine ⟨fun hc => lm.releaseLock_spec hover hc.2, fun hc => ?_⟩
        rw [releaseLock_eq, if_neg fun h => hc ⟨List.mem_cons_self, h.2⟩]
        exact ⟨rfl, rfl⟩
      · obtain ⟨hl, hq⟩ := lm.releaseLock_other (t := t) hr
        obtain ⟨hwoken, hheld⟩ := wokenBy_congr (t := t) hl hq
        have hothers : (lm.releaseLock t first).2.othersOn t r = lm.othersOn t r := by
          rw [othersOn, othersOn, hl]
        rw [hwoken, hothers, hq, hheld] at ihin
        rw [hl, hq, hheld] at ihout
        rw [List.mem_cons, or_iff_right hr]
        exact ⟨ihin, ihout⟩

/-- What a completion does to a resource: it releases the indexed ones. -/
theorem completeTransaction_spec (t r : Nat) :
    (r ∈ lm.heldResources t ∧ lm.hasLock t r = true →
      ((lm.completeTransaction t).2.locksOn r).Perm
          ((lm.wokenBy t r).map LockRequest.toLock ++ lm.othersOn t r) ∧
        (lm.completeTransaction t).2.queueOn r =
          (lm.queueOn r).drop (lm.wokenBy t r).length) ∧
    (¬ (r ∈ lm.heldResources t ∧ lm.hasLock t r = true) →
      (lm.completeTransaction t).2.locksOn r = lm.locksOn r ∧
        (lm.completeTransaction t).2.queueOn r = lm.queueOn r) := by
  have hover : t ∈ (lm.markCompleted t).completedTransactions :=
    lm.mem_markCompleted.mpr (Or.inl rfl)
  rw [completeTransaction_eq]
  cases hheld : lm.txnLocks[t]? with
  | none =>
      refine ⟨fun hc => ?_, fun _ => ⟨rfl, rfl⟩⟩
      have hmem := hc.1
      simp [heldResources, ExtTreeMap.getD_eq_getD_getElem?, hheld] at hmem
  | some held =>
      have hget : lm.heldResources t = held := by
        simp [heldResources, ExtTreeMap.getD_eq_getD_getElem?, hheld]
      rw [hget, ← ExtTreeSet.mem_toList]
      exact releaseAll_spec held.toList (lm.markCompleted t) (nodup_toList held) hover r

/-- A completion adds its transaction to the completed set. -/
theorem mem_completeTransaction_completed {t t' : Nat} :
    t' ∈ (lm.completeTransaction t).2.completedTransactions ↔
      t' = t ∨ t' ∈ lm.completedTransactions := by
  rw [completeTransaction_eq]
  split
  · exact lm.mem_markCompleted
  · dsimp only
    rw [(releaseAll_rest t _ _).1]
    exact lm.mem_markCompleted

theorem completeTransaction_resourceParent (t : Nat) :
    (lm.completeTransaction t).2.resourceParent = lm.resourceParent := by
  rw [completeTransaction_eq]
  split
  · rfl
  · exact (releaseAll_rest t _ _).2

theorem table_eraseIndex (t : Nat) :
    ({ lm with txnLocks := lm.txnLocks.erase t } : LockManager).table = lm.table.clearIndex t := by
  ext1
  · rfl
  · rfl
  · funext t'
    ext r
    by_cases ht : t' = t
    · subst ht
      simp [table, Table.clearIndex, heldResources]
    · simp [table, Table.clearIndex, heldResources, ExtTreeMap.getD_erase, ht, Ne.symm ht]
  · rfl

theorem releaseAll_reaches (t : Nat) (rs : List Nat) (lm : LockManager) :
    Reaches Fits Convertible (ByCompletion t) lm.table (lm.releaseAll t rs).2.table := by
  induction rs generalizing lm with
  | nil => exact .refl
  | cons r rs ih => exact (lm.releaseLock_reaches t r).trans (ih _)

theorem completeTransaction_reaches (t : Nat) :
    Reaches Fits Convertible (ByCompletion t) lm.table (lm.completeTransaction t).2.table := by
  have hmark : Reaches Fits Convertible (ByCompletion t) lm.table (lm.markCompleted t).table := by
    rw [table_markCompleted]
    exact .single .finish (Or.inl rfl)
  rw [completeTransaction_eq]
  cases lm.txnLocks[t]? with
  | none => exact hmark
  | some held =>
      have hall := releaseAll_reaches t held.toList (lm.markCompleted t)
      have hdone : t ∈ ((lm.markCompleted t).releaseAll t held.toList).2.table.done :=
        hall.done_mono (lm.mem_markCompleted.mpr (Or.inl rfl))
      refine (hmark.trans hall).trans ?_
      dsimp only
      rw [table_eraseIndex]
      exact .single (.forget hdone) (Or.inr (Or.inl rfl))

/-! ## Runs -/

/-- Every operation of the lock manager is a sequence of actions of the table. -/
theorem step_reaches (op : LockOp) :
    Reaches Fits Convertible (fun _ _ => True) lm.table (lm.step op).table := by
  cases op with
  | setResourceParent child parent => exact .refl
  | requestLock t r m => exact (lm.requestLock_reaches t r m).mono fun _ _ _ => trivial
  | releaseLock t r => exact (lm.releaseLock_reaches t r).mono fun _ _ _ => trivial
  | completeTransaction t =>
      exact (lm.completeTransaction_reaches t).mono fun _ _ _ => trivial

theorem run_reaches (ops : List LockOp) (lm : LockManager) :
    Reaches Fits Convertible (fun _ _ => True) lm.table (Runs.run step lm ops).table := by
  induction ops generalizing lm with
  | nil => exact .refl
  | cons op ops ih => exact (lm.step_reaches op).trans (ih (lm.step op))

theorem table_empty (alloc : List Nat) :
    (empty alloc).table = ⟨fun _ => 0, fun _ => [], fun _ => ∅, ∅⟩ := by
  ext1
  · funext r
    simp [table, locksOn, empty]
  · funext r
    simp [table, queueOn, empty]
  · funext t
    ext r
    simp [table, heldResources, empty]
  · ext t
    simp [table, empty]

end LockManager

end TxnEngine
