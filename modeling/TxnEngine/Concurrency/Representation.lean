import TxnEngine.Concurrency.Requests

/-!
# The lock tables agree with each other

`resource_locks_`, `wait_queues_` and `txn_locks_` are updated at five places.
`operator[]` makes an entry wherever it looks one up, and a release takes index
entries away before the requests it wakes put new ones in.  In every state that
the operations reach, the index and the locks agree, a transaction waits for a
resource at most once, somebody is in the way of whoever waits, and no map keeps
an entry for nothing (`tables_agree`).
-/

namespace TxnEngine

open Std

namespace LockManager

/-- The agreement of the three maps. -/
structure TablesAgree (lm : LockManager) : Prop where
  /-- The index lists locked resources only. -/
  locked_of_indexed : ∀ t, ∀ r ∈ lm.heldResources t, lm.hasLock t r = true
  /-- The index of a transaction that is not completed lists all it has locked. -/
  indexed_of_locked : ∀ t, t ∉ lm.completedTransactions →
    ∀ r, lm.hasLock t r = true → r ∈ lm.heldResources t
  /-- A transaction waits for a resource once. -/
  waits_once : ∀ r, ((lm.queueOn r).map LockRequest.transactionId).Nodup
  /-- A resource that is waited for is locked. -/
  locked_of_waiting : ∀ r, lm.queueOn r ≠ [] → lm.locksOn r ≠ []
  /-- No resource is kept without a lock. -/
  no_empty_locks : ∀ r : Nat, lm.resourceLocks[r]? ≠ some []
  /-- No wait queue is kept without a request. -/
  no_empty_queue : ∀ r : Nat, lm.waitQueues[r]? ≠ some []
  /-- No transaction is kept without a locked resource. -/
  no_empty_index : ∀ t : Nat, lm.txnLocks[t]? ≠ some ∅

variable {lm : LockManager} {t r : Nat} {m : LockType}

theorem indexSound_iff :
    lm.table.IndexSound ↔ ∀ t, ∀ r ∈ lm.heldResources t, lm.hasLock t r = true := by
  simp only [LockTable.Table.IndexSound, hasLock_iff_table]
  rfl

theorem indexed_iff :
    lm.table.Indexed ↔ ∀ t, t ∉ lm.completedTransactions →
      ∀ r, lm.hasLock t r = true → r ∈ lm.heldResources t := by
  simp only [LockTable.Table.Indexed, hasLock_iff_table, forall_exists_index]
  rfl

theorem waitsOnce_iff :
    lm.table.WaitsOnce ↔ ∀ r, ((lm.queueOn r).map LockRequest.transactionId).Nodup := by
  simp only [LockTable.Table.WaitsOnce, table, List.map_map]
  rfl

/-! ## Somebody is in the way -/

/-- A refused request leaves its resource locked. -/
theorem locksOn_ne_nil_of_request (active : t ∉ lm.completedTransactions) :
    (lm.requestLockOnResource t r m).2.locksOn r ≠ [] := by
  have hout := requestLockOnResource_answered (r := r) (m := m) active
  rw [hout.locks]
  by_cases hex : exchanges (lm.locksOn r) t m = true
  · rw [if_pos ⟨rfl, hex⟩, exchanged, insertAt]
    simp
  · rw [if_neg fun h => hex h.2]
    intro hnil
    -- no lock at all lets everything through
    rw [hnil] at hex
    exact hex rfl

theorem locked_of_waiting_request (active : t ∉ lm.completedTransactions)
    (h : ∀ r, lm.queueOn r ≠ [] → lm.locksOn r ≠ []) :
    ∀ r', (lm.requestLockOnResource t r m).2.queueOn r' ≠ [] →
      (lm.requestLockOnResource t r m).2.locksOn r' ≠ [] := by
  intro r' hqueue
  by_cases hr : r' = r
  · subst hr
    exact locksOn_ne_nil_of_request active
  · obtain ⟨hlocks, hqueue'⟩ := lm.requestLockOnResource_other (t := t) (m := m) hr
    rw [hlocks]
    exact h r' (hqueue' ▸ hqueue)

theorem locked_of_waiting_release (h : ∀ r, lm.queueOn r ≠ [] → lm.locksOn r ≠ []) :
    ∀ r', (lm.releaseLock t r).2.queueOn r' ≠ [] → (lm.releaseLock t r).2.locksOn r' ≠ [] := by
  intro r' hqueue
  by_cases hboth : t ∈ lm.completedTransactions ∧ lm.hasLock t r = true
  · by_cases hr : r' = r
    · subst hr
      obtain ⟨hlocks, hrest⟩ := lm.releaseLock_spec hboth.1 hboth.2
      rw [hrest] at hqueue
      -- the queue stops at a request that some lock holds back
      have hstops := grantable_stops (List.head?_eq_some_head hqueue)
      intro hnil
      rw [hnil, wokenBy] at hlocks
      rw [compatible_of_perm hlocks.symm] at hstops
      cases hstops
    · obtain ⟨hlocks, hsame⟩ := lm.releaseLock_other (t := t) hr
      rw [hlocks]
      exact h r' (hsame ▸ hqueue)
  · rw [releaseLock_eq, if_neg hboth] at hqueue ⊢
    exact h r' hqueue

/-! ## Entries of the maps -/

/-- The entries of two lock managers for one resource are the same. -/
def SameEntries (lm lm' : LockManager) (r : Nat) : Prop :=
  lm'.resourceLocks[r]? = lm.resourceLocks[r]? ∧ lm'.waitQueues[r]? = lm.waitQueues[r]?

/-- A request keeps the entries of the other resources.  If it is granted it keeps
every queue.  It adds to the index of its transaction if to any. -/
theorem requestLockOnResource_entries (lm : LockManager) (t r : Nat) (m : LockType) :
    (∀ r', r ≠ r' → lm.SameEntries (lm.requestLockOnResource t r m).2 r') ∧
      ((lm.requestLockOnResource t r m).1 = true →
        (lm.requestLockOnResource t r m).2.waitQueues = lm.waitQueues) ∧
      ((lm.requestLockOnResource t r m).2.txnLocks = lm.txnLocks ∨
        ∃ held : ExtTreeSet Nat,
          (lm.requestLockOnResource t r m).2.txnLocks = lm.txnLocks.insert t (held.insert r)) := by
  have htouch : ∀ r', r ≠ r' → lm.SameEntries (lm.touchLocks r) r' := by
    intro r' hr
    simp [SameEntries, touchLocks, ExtTreeMap.getElem?_insertIfNew, hr]
  have henqueue : (∀ r', r ≠ r' → lm.SameEntries ((lm.touchLocks r).enqueue t r m) r') ∧
      ((lm.touchLocks r).enqueue t r m).txnLocks = lm.txnLocks := by
    rw [enqueue]
    split
    · refine ⟨fun r' hr => ?_, rfl⟩
      simpa [SameEntries, touchQueue, ExtTreeMap.getElem?_insertIfNew, hr] using htouch r' hr
    · refine ⟨fun r' hr => ?_, rfl⟩
      simpa [SameEntries, touchQueue, setQueue, ExtTreeMap.getElem?_insert,
        ExtTreeMap.getElem?_insertIfNew, hr] using htouch r' hr
  rw [requestLockOnResource]
  split
  · exact ⟨fun _ _ => ⟨rfl, rfl⟩, by simp, Or.inl rfl⟩
  · dsimp only
    split
    · split
      · exact ⟨htouch, fun _ => rfl, Or.inl rfl⟩
      · split
        · refine ⟨fun r' hr => ?_, fun _ => rfl, Or.inr ⟨_, rfl⟩⟩
          simpa [SameEntries, setLocks, insertLock, indexLock, ExtTreeMap.getElem?_insert, hr]
            using htouch r' hr
        · exact ⟨henqueue.1, by simp, Or.inl henqueue.2⟩
    · split
      · refine ⟨fun r' hr => ?_, fun _ => rfl, Or.inr ⟨_, rfl⟩⟩
        simpa [SameEntries, insertLock, indexLock, ExtTreeMap.getElem?_insert, hr]
          using htouch r' hr
      · exact ⟨henqueue.1, by simp, Or.inl henqueue.2⟩

/-- Granting from the queue of a resource keeps the entries of the others. -/
theorem grantFrom_entries {r' : Nat} (hr : r ≠ r') (queue : List LockRequest)
    (lm : LockManager) : lm.SameEntries (lm.grantFrom r queue) r' := by
  induction queue generalizing lm with
  | nil => exact ⟨rfl, rfl⟩
  | cons request queue ih =>
      rw [grantFrom_cons]
      split
      · obtain ⟨hlocks, hqueue⟩ := ih (lm.grantFront r request queue)
        refine ⟨hlocks.trans ?_, hqueue.trans ?_⟩
        · simp [grantFront, insertLock, indexLock, setQueue, ExtTreeMap.getElem?_insert, hr]
        · simp [grantFront, insertLock, indexLock, setQueue, ExtTreeMap.getElem?_insert, hr]
      · exact ⟨rfl, rfl⟩

theorem releaseLock_entries {r' : Nat} (hr : r ≠ r') :
    lm.SameEntries (lm.releaseLock t r).2 r' := by
  rw [releaseLock_eq]
  split
  · have hdrop : lm.SameEntries (lm.dropLocks t r) r' := by
      obtain ⟨hlocks, hqueue, _⟩ := unindexLock_rest (lm.setLocks r (lm.othersOn t r)) t r
      rw [SameEntries, dropLocks, hlocks, hqueue]
      simp [setLocks, ExtTreeMap.getElem?_insert, hr]
    have hprocess : (lm.dropLocks t r).SameEntries ((lm.dropLocks t r).processWaitQueue r) r' := by
      rw [processWaitQueue]
      split
      · exact ⟨rfl, rfl⟩
      · next queue _ =>
          obtain ⟨hlocks, hqueue⟩ := grantFrom_entries hr queue ((lm.dropLocks t r).touchLocks r)
          rw [SameEntries, hlocks, hqueue]
          simp [touchLocks, ExtTreeMap.getElem?_insertIfNew, hr]
    have hempty : ((lm.dropLocks t r).processWaitQueue r).SameEntries
        ((((lm.dropLocks t r).processWaitQueue r).dropEmptyLocks r).dropEmptyQueue r) r' := by
      rw [SameEntries, (dropEmptyQueue_rest _ r).1]
      constructor
      · rw [dropEmptyLocks]
        split <;> simp [touchLocks, ExtTreeMap.getElem?_insertIfNew, ExtTreeMap.getElem?_erase, hr]
      · rw [dropEmptyQueue]
        split <;> simp [touchQueue, (dropEmptyLocks_rest _ r).1, ExtTreeMap.getElem?_insertIfNew,
          ExtTreeMap.getElem?_erase, hr]
    exact ⟨hempty.1.trans (hprocess.1.trans hdrop.1), hempty.2.trans (hprocess.2.trans hdrop.2)⟩
  · exact ⟨rfl, rfl⟩

/-! ## No entry for nothing -/

theorem dropEmptyLocks_entry : (lm.dropEmptyLocks r).resourceLocks[r]? ≠ some [] := by
  rw [dropEmptyLocks]
  split
  · simp
  · next h =>
      intro hnil
      rw [locksOn_of_getElem?, hnil] at h
      exact h rfl

theorem dropEmptyQueue_entry : (lm.dropEmptyQueue r).waitQueues[r]? ≠ some [] := by
  rw [dropEmptyQueue]
  split
  · simp
  · next h =>
      intro hnil
      rw [queueOn_of_getElem?, hnil] at h
      exact h rfl

/-- The maps of locks and queues keep no entry for nothing. -/
def NoEmptyEntry (lm : LockManager) : Prop :=
  ∀ r : Nat, lm.resourceLocks[r]? ≠ some [] ∧ lm.waitQueues[r]? ≠ some []

theorem noEmptyEntry_request (active : t ∉ lm.completedTransactions) (h : lm.NoEmptyEntry) :
    (lm.requestLockOnResource t r m).2.NoEmptyEntry := by
  obtain ⟨hother, hgranted, _⟩ := lm.requestLockOnResource_entries t r m
  intro r'
  by_cases hr : r = r'
  · subst hr
    constructor
    · intro hnil
      refine locksOn_ne_nil_of_request (r := r) (m := m) active ?_
      rw [locksOn_of_getElem?, hnil, Option.getD_some]
    · cases hanswer : (lm.requestLockOnResource t r m).1 with
      | true =>
          rw [hgranted hanswer]
          exact (h r).2
      | false =>
          obtain ⟨request, hmem, _⟩ := requestLockOnResource_waits active hanswer
          intro hnil
          rw [queueOn_of_getElem?, hnil] at hmem
          simp at hmem
  · rw [(hother r' hr).1, (hother r' hr).2]
    exact h r'

theorem noEmptyEntry_release (h : lm.NoEmptyEntry) : (lm.releaseLock t r).2.NoEmptyEntry := by
  intro r'
  by_cases hr : r = r'
  · subst hr
    rw [releaseLock_eq]
    split
    · rw [(dropEmptyQueue_rest _ r).1]
      exact ⟨dropEmptyLocks_entry, dropEmptyQueue_entry⟩
    · exact h r
  · obtain ⟨hlocks, hqueue⟩ : lm.SameEntries (lm.releaseLock t r).2 r' := releaseLock_entries hr
    rw [hlocks, hqueue]
    exact h r'

/-- The index keeps no entry for nothing. -/
def NoEmptyIndex (lm : LockManager) : Prop := ∀ t : Nat, lm.txnLocks[t]? ≠ some ∅

theorem noEmptyIndex_insert {index : ExtTreeMap Nat (ExtTreeSet Nat)}
    (h : ∀ t : Nat, index[t]? ≠ some ∅) {held : ExtTreeSet Nat} (hheld : held ≠ ∅) :
    ∀ t' : Nat, (index.insert t held)[t']? ≠ some ∅ := by
  intro t'
  rw [ExtTreeMap.getElem?_insert]
  split
  · simpa using hheld
  · exact h t'

theorem insert_ne_empty (held : ExtTreeSet Nat) : held.insert r ≠ ∅ := by
  intro hnil
  have hmem : r ∈ held.insert r := ExtTreeSet.mem_insert_self
  rw [hnil] at hmem
  exact ExtTreeSet.not_mem_empty hmem

theorem noEmptyIndex_request (h : lm.NoEmptyIndex) :
    (lm.requestLockOnResource t r m).2.NoEmptyIndex := by
  obtain ⟨_, _, hindex⟩ := lm.requestLockOnResource_entries t r m
  rw [NoEmptyIndex]
  rcases hindex with hsame | ⟨held, hinsert⟩
  · rw [hsame]
    exact h
  · rw [hinsert]
    exact noEmptyIndex_insert h (insert_ne_empty held)

theorem noEmptyIndex_grantFrom (queue : List LockRequest) (lm : LockManager)
    (h : lm.NoEmptyIndex) : (lm.grantFrom r queue).NoEmptyIndex := by
  induction queue generalizing lm with
  | nil => exact h
  | cons request queue ih =>
      rw [grantFrom_cons]
      split
      · exact ih _ (noEmptyIndex_insert h (insert_ne_empty _))
      · exact h

theorem noEmptyIndex_erase {index : ExtTreeMap Nat (ExtTreeSet Nat)}
    (h : ∀ t : Nat, index[t]? ≠ some ∅) (t' : Nat) : (index.erase t)[t']? ≠ some ∅ := by
  rw [ExtTreeMap.getElem?_erase]
  split
  · simp
  · exact h t'

theorem noEmptyIndex_release (h : lm.NoEmptyIndex) : (lm.releaseLock t r).2.NoEmptyIndex := by
  rw [releaseLock_eq]
  split
  · have hdrop : (lm.dropLocks t r).NoEmptyIndex := by
      rw [dropLocks, unindexLock]
      split
      · exact h
      · split
        · exact noEmptyIndex_erase h
        · next hkept =>
            refine noEmptyIndex_insert h fun hnil => hkept ?_
            rw [hnil]
            exact ExtTreeSet.isEmpty_empty
    have hprocess : ((lm.dropLocks t r).processWaitQueue r).NoEmptyIndex := by
      rw [processWaitQueue]
      split
      · exact hdrop
      · exact noEmptyIndex_grantFrom _ _ hdrop
    rw [NoEmptyIndex, (dropEmptyQueue_rest _ r).2.1, (dropEmptyLocks_rest _ r).2.1]
    exact hprocess
  · exact h

/-! ## Runs -/

/-- Every operation keeps the agreement of the tables. -/
theorem tablesAgree_step (lm : LockManager) (op : LockOp) (h : lm.TablesAgree) :
    (lm.step op).TablesAgree := by
  have hreach := lm.step_reaches op
  have hwaiting := step_invariant (I := fun lm => ∀ r, lm.queueOn r ≠ [] → lm.locksOn r ≠ [])
    (fun _ _ _ h => h) (fun _ _ _ _ active h => locked_of_waiting_request active h)
    (fun _ _ _ h => locked_of_waiting_release h) (fun _ _ h => h) (fun _ _ h => h)
    lm op h.locked_of_waiting
  have hentries := step_invariant (I := NoEmptyEntry) (fun _ _ _ h => h)
    (fun _ _ _ _ active h => noEmptyEntry_request active h)
    (fun _ _ _ h => noEmptyEntry_release h) (fun _ _ h => h) (fun _ _ h => h)
    lm op fun r => ⟨h.no_empty_locks r, h.no_empty_queue r⟩
  have hindex := step_invariant (I := NoEmptyIndex) (fun _ _ _ h => h)
    (fun _ _ _ _ _ h => noEmptyIndex_request h) (fun _ _ _ h => noEmptyIndex_release h)
    (fun _ _ h => h) (fun _ _ h => noEmptyIndex_erase h) lm op h.no_empty_index
  exact
    { locked_of_indexed := indexSound_iff.mp (hreach.indexSound
        (indexSound_iff.mpr h.locked_of_indexed))
      indexed_of_locked := indexed_iff.mp (hreach.indexed (indexed_iff.mpr h.indexed_of_locked))
      waits_once := waitsOnce_iff.mp (hreach.waitsOnce (waitsOnce_iff.mpr h.waits_once))
      locked_of_waiting := hwaiting
      no_empty_locks := fun r => (hentries r).1
      no_empty_queue := fun r => (hentries r).2
      no_empty_index := hindex }

theorem tablesAgree_empty (alloc : List Nat) : (empty alloc).TablesAgree where
  locked_of_indexed t r hr := by simp [heldResources, empty] at hr
  indexed_of_locked t _ r hlock := by simp [hasLock, empty] at hlock
  waits_once r := by simp [queueOn, empty]
  locked_of_waiting r hqueue := by simp [queueOn, empty] at hqueue
  no_empty_locks r := by simp [empty]
  no_empty_queue r := by simp [empty]
  no_empty_index t := by simp [empty]

/-- The tables agree in every state of every run. -/
theorem tables_agree (alloc : List Nat) (ops : List LockOp) :
    Runs.Always step TablesAgree (empty alloc) ops := by
  intro js _
  exact Runs.invariant step tablesAgree_step js (tablesAgree_empty alloc)

end LockManager

end TxnEngine
