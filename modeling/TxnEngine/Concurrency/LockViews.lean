import TxnEngine.Concurrency.LockManager
import TxnEngine.Library.LockTable

/-!
# The lock manager as a lock table

`LockManager.table` forgets how the lock manager stores its locks: the pointer
order, the entries with an empty container and the allocator.  Each update of
the maps is an action of the lock table, or changes nothing that the table
shows.
-/

namespace TxnEngine

open Std LockTable

/-- Two modes admit each other. -/
def Fits (a b : LockType) : Prop := isCompatible a b = true ∧ isCompatible b a = true

/-- The modes that `requestLockOnResource` replaces by the requested one. -/
def Convertible (m : LockType) : Prop := m ≠ .exclusive

theorem fits_symm (a b : LockType) (h : Fits a b) : Fits b a := ⟨h.2, h.1⟩

theorem admits_iff (lock : Lock) (m : LockType) : lock.admits m = true ↔ Fits lock.lockType m := by
  simp [Lock.admits, Fits]

/-- Nothing can be held beside an exclusive lock. -/
theorem not_fits_exclusive (m : LockType) : ¬ Fits .exclusive m := by
  simp [Fits, isCompatible]

/-- The holder and the mode of a lock. -/
def Lock.entry (lock : Lock) : Nat × LockType := (lock.transactionId, lock.lockType)

/-- The requester and the mode of a request. -/
def LockRequest.entry (request : LockRequest) : Nat × LockType :=
  (request.transactionId, request.lockType)

namespace LockManager

variable (lm : LockManager)

/-- What the lock manager holds, awaits and has indexed. -/
def table : Table Nat Nat LockType where
  held r := ↑((lm.locksOn r).map Lock.entry)
  waiting r := (lm.queueOn r).map LockRequest.entry
  index t := { r | r ∈ lm.heldResources t }
  done := { t | t ∈ lm.completedTransactions }

@[simp] theorem mem_table_done {t : Nat} : t ∈ lm.table.done ↔ t ∈ lm.completedTransactions :=
  Iff.rfl

@[simp] theorem mem_table_index {t r : Nat} : r ∈ lm.table.index t ↔ r ∈ lm.heldResources t :=
  Iff.rfl

theorem mem_table_held {t r : Nat} {m : LockType} :
    (t, m) ∈ lm.table.held r ↔ (⟨t, m⟩ : Lock) ∈ lm.locksOn r := by
  simp only [table, Multiset.mem_coe, List.mem_map, Lock.entry, Prod.mk.injEq]
  constructor
  · rintro ⟨⟨t', m'⟩, hmem, rfl, rfl⟩
    exact hmem
  · intro hmem
    exact ⟨_, hmem, rfl, rfl⟩

theorem mem_table_waiting {t r : Nat} {m : LockType} :
    (t, m) ∈ lm.table.waiting r ↔ (⟨t, m⟩ : LockRequest) ∈ lm.queueOn r := by
  simp only [table, List.mem_map, LockRequest.entry, Prod.mk.injEq]
  constructor
  · rintro ⟨⟨t', m'⟩, hmem, rfl, rfl⟩
    exact hmem
  · intro hmem
    exact ⟨_, hmem, rfl, rfl⟩

/-! ## Entries that a lookup creates or a release erases -/

@[simp] theorem locksOn_touchLocks (r r' : Nat) :
    (lm.touchLocks r).locksOn r' = lm.locksOn r' := by
  simp only [locksOn, touchLocks, ExtTreeMap.getD_insertIfNew]
  split
  · next h =>
      obtain ⟨hcmp, hnew⟩ := h
      rw [Std.compare_eq_iff_eq] at hcmp
      subst hcmp
      rw [ExtTreeMap.getD_eq_fallback hnew]
  · rfl

@[simp] theorem queueOn_touchQueue (r r' : Nat) :
    (lm.touchQueue r).queueOn r' = lm.queueOn r' := by
  simp only [queueOn, touchQueue, ExtTreeMap.getD_insertIfNew]
  split
  · next h =>
      obtain ⟨hcmp, hnew⟩ := h
      rw [Std.compare_eq_iff_eq] at hcmp
      subst hcmp
      rw [ExtTreeMap.getD_eq_fallback hnew]
  · rfl

@[simp] theorem locksOn_dropEmptyLocks (r r' : Nat) :
    (lm.dropEmptyLocks r).locksOn r' = lm.locksOn r' := by
  unfold dropEmptyLocks
  dsimp only
  split
  · next h =>
      rw [locksOn_touchLocks, List.isEmpty_iff] at h
      rw [← locksOn_touchLocks lm r r']
      by_cases hr : r = r'
      · subst hr
        simp only [locksOn, ExtTreeMap.getD_erase_self]
        rw [← locksOn_touchLocks lm r r] at h
        exact h.symm
      · simp [locksOn, ExtTreeMap.getD_erase, hr]
  · simp

@[simp] theorem queueOn_dropEmptyQueue (r r' : Nat) :
    (lm.dropEmptyQueue r).queueOn r' = lm.queueOn r' := by
  unfold dropEmptyQueue
  dsimp only
  split
  · next h =>
      rw [queueOn_touchQueue, List.isEmpty_iff] at h
      rw [← queueOn_touchQueue lm r r']
      by_cases hr : r = r'
      · subst hr
        simp only [queueOn, ExtTreeMap.getD_erase_self]
        rw [← queueOn_touchQueue lm r r] at h
        exact h.symm
      · simp [queueOn, ExtTreeMap.getD_erase, hr]
  · simp

@[simp] theorem table_touchLocks (r : Nat) : (lm.touchLocks r).table = lm.table := by
  ext1
  · funext r'
    simp [table]
  · rfl
  · rfl
  · rfl

@[simp] theorem table_touchQueue (r : Nat) : (lm.touchQueue r).table = lm.table := by
  ext1
  · rfl
  · funext r'
    simp [table]
  · rfl
  · rfl

theorem dropEmptyLocks_rest (r : Nat) :
    (lm.dropEmptyLocks r).waitQueues = lm.waitQueues ∧
      (lm.dropEmptyLocks r).txnLocks = lm.txnLocks ∧
      (lm.dropEmptyLocks r).completedTransactions = lm.completedTransactions ∧
      (lm.dropEmptyLocks r).resourceParent = lm.resourceParent := by
  unfold dropEmptyLocks
  dsimp only
  split <;> exact ⟨rfl, rfl, rfl, rfl⟩

theorem dropEmptyQueue_rest (r : Nat) :
    (lm.dropEmptyQueue r).resourceLocks = lm.resourceLocks ∧
      (lm.dropEmptyQueue r).txnLocks = lm.txnLocks ∧
      (lm.dropEmptyQueue r).completedTransactions = lm.completedTransactions ∧
      (lm.dropEmptyQueue r).resourceParent = lm.resourceParent := by
  unfold dropEmptyQueue
  dsimp only
  split <;> exact ⟨rfl, rfl, rfl, rfl⟩

@[simp] theorem queueOn_dropEmptyLocks (r r' : Nat) :
    (lm.dropEmptyLocks r).queueOn r' = lm.queueOn r' := by
  rw [queueOn, (lm.dropEmptyLocks_rest r).1, queueOn]

@[simp] theorem locksOn_dropEmptyQueue (r r' : Nat) :
    (lm.dropEmptyQueue r).locksOn r' = lm.locksOn r' := by
  rw [locksOn, (lm.dropEmptyQueue_rest r).1, locksOn]

@[simp] theorem table_dropEmptyLocks (r : Nat) : (lm.dropEmptyLocks r).table = lm.table := by
  obtain ⟨_, hi, hd, _⟩ := lm.dropEmptyLocks_rest r
  ext1
  · funext r'
    simp [table]
  · funext r'
    simp [table]
  · simp only [table, heldResources, hi]
  · simp only [table, hd]

@[simp] theorem table_dropEmptyQueue (r : Nat) : (lm.dropEmptyQueue r).table = lm.table := by
  obtain ⟨_, hi, hd, _⟩ := lm.dropEmptyQueue_rest r
  ext1
  · funext r'
    simp [table]
  · funext r'
    simp [table]
  · simp only [table, heldResources, hi]
  · simp only [table, hd]

/-! ## Updates of the locks -/

theorem perm_insertAt {α : Type} (n : Nat) (a : α) (l : List α) :
    (insertAt n a l).Perm (a :: l) := by
  have h : (l.take n ++ a :: l.drop n).Perm (a :: (l.take n ++ l.drop n)) := List.perm_middle
  rwa [List.take_append_drop] at h

theorem locksOn_insertLock (r r' : Nat) (lock : Lock) :
    (lm.insertLock r lock).locksOn r' =
      if r = r' then insertAt (lm.alloc.headD 0) lock (lm.locksOn r) else lm.locksOn r' := by
  simp [locksOn, insertLock, ExtTreeMap.getD_insert]

theorem locksOn_setLocks (r r' : Nat) (locks : List Lock) :
    (lm.setLocks r locks).locksOn r' = if r = r' then locks else lm.locksOn r' := by
  simp [locksOn, setLocks, ExtTreeMap.getD_insert]

theorem queueOn_setQueue (r r' : Nat) (queue : List LockRequest) :
    (lm.setQueue r queue).queueOn r' = if r = r' then queue else lm.queueOn r' := by
  simp [queueOn, setQueue, ExtTreeMap.getD_insert]

theorem mem_heldResources_indexLock (t r t' r' : Nat) :
    r' ∈ (lm.indexLock t r).heldResources t' ↔
      (t = t' ∧ r = r') ∨ r' ∈ lm.heldResources t' := by
  by_cases ht : t = t'
  · subst ht
    simp [heldResources, indexLock, ExtTreeSet.mem_insert]
  · simp [heldResources, indexLock, ExtTreeMap.getD_insert, ht]

theorem mem_heldResources_unindexLock (t r t' r' : Nat) :
    r' ∈ (lm.unindexLock t r).heldResources t' ↔
      r' ∈ lm.heldResources t' ∧ ¬ (t = t' ∧ r = r') := by
  unfold unindexLock
  cases hheld : lm.txnLocks[t]? with
  | none =>
      have hnil : lm.heldResources t = ∅ := by
        simp [heldResources, ExtTreeMap.getD_eq_getD_getElem?, hheld]
      constructor
      · intro hmem
        refine ⟨hmem, ?_⟩
        rintro ⟨rfl, rfl⟩
        simp [hnil] at hmem
      · exact fun hmem => hmem.1
  | some held =>
      have hget : lm.heldResources t = held := by
        simp [heldResources, ExtTreeMap.getD_eq_getD_getElem?, hheld]
      by_cases ht : t = t'
      · subst ht
        dsimp only
        split
        · next hempty =>
            have hnone : r' ∉ held.erase r := by
              rw [ExtTreeSet.isEmpty_iff] at hempty
              simp [hempty]
            rw [ExtTreeSet.mem_erase] at hnone
            simp only [heldResources, ExtTreeMap.getD_erase_self, ExtTreeSet.not_mem_empty,
              false_iff]
            intro hc
            have hne : r ≠ r' := by simpa using hc.2
            exact hnone ⟨by simpa using hne, hget ▸ hc.1⟩
        · rw [hget]
          simp only [heldResources, ExtTreeMap.getD_insert_self, ExtTreeSet.mem_erase]
          simp [and_comm]
      · dsimp only
        split <;> simp [heldResources, ExtTreeMap.getD_erase, ExtTreeMap.getD_insert, ht]

theorem table_grant (t r : Nat) (m : LockType) :
    ((lm.insertLock r ⟨t, m⟩).indexLock t r).table = lm.table.hold t r m := by
  ext1
  · funext r'
    by_cases hr : r' = r
    · subst hr
      simp only [table, Table.hold, Function.update_self, Multiset.cons_coe, Multiset.coe_eq_coe]
      have hlocks : ((lm.insertLock r' ⟨t, m⟩).indexLock t r').locksOn r' =
          insertAt (lm.alloc.headD 0) ⟨t, m⟩ (lm.locksOn r') := by
        have h := lm.locksOn_insertLock r' r' ⟨t, m⟩
        rwa [if_pos rfl] at h
      rw [hlocks]
      exact (perm_insertAt _ _ _).map Lock.entry
    · have hlocks : ((lm.insertLock r ⟨t, m⟩).indexLock t r).locksOn r' = lm.locksOn r' := by
        have h := lm.locksOn_insertLock r r' ⟨t, m⟩
        rwa [if_neg (Ne.symm hr)] at h
      simp only [table, Table.hold, Function.update_of_ne hr, hlocks]
  · rfl
  · funext t'
    ext r'
    have h := (lm.insertLock r ⟨t, m⟩).mem_heldResources_indexLock t r t' r'
    rw [mem_table_index, h]
    by_cases ht : t' = t
    · subst ht
      simp [Table.hold, eq_comm, heldResources, insertLock]
    · simp [Table.hold, ht, Ne.symm ht, heldResources, insertLock]
  · rfl

theorem table_setQueue (r : Nat) (queue : List LockRequest) :
    (lm.setQueue r queue).table = lm.table.setWaiting r (queue.map LockRequest.entry) := by
  ext1
  · rfl
  · funext r'
    by_cases hr : r' = r
    · subst hr
      simp [table, Table.setWaiting, queueOn_setQueue]
    · simp [table, Table.setWaiting, queueOn_setQueue, hr, Ne.symm hr]
  · rfl
  · rfl

end LockManager

end TxnEngine
