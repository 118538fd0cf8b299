import TxnEngine.Utils.Enums
import Std.Data.ExtTreeMap

/-!
# The transaction manager

`transaction/TransactionManager.cpp` over the id and the state of a
`Transaction`.  Its times, its access counts and its error message are not read
by any other part of the engine.

Ids are `uint32_t` and come round again after `2 ^ 32` transactions.  To tell the
transaction objects apart all the same, each has a `serial`, the number of
transactions begun before it.  Serials are history: no decision reads them.
-/

namespace TxnEngine

open Std

/-- A transaction object. -/
structure Transaction where
  transactionId : Nat
  state : TransactionState
  serial : Nat
deriving DecidableEq, Repr

/-- How a transaction ends. -/
inductive Outcome where
  | commit
  | abort
deriving DecidableEq, Repr

def Outcome.state : Outcome → TransactionState
  | .commit => .committed
  | .abort => .aborted

/-- The state of the transaction manager.  Active transactions are filed under
their id in state `active`, completed ones in a final state. -/
structure TransactionManager where
  activeTransactions : ExtTreeMap Nat Transaction
  completedTransactions : ExtTreeMap Nat Transaction
  nextTransactionId : Nat
  committedCount : Nat
  abortedCount : Nat
  /-- The number of transactions begun. -/
  begun : Nat
  active_filed : ∀ (id : Nat) (txn : Transaction), activeTransactions[id]? = some txn →
    txn.transactionId = id ∧ txn.state = .active
  completed_filed : ∀ (id : Nat) (txn : Transaction), completedTransactions[id]? = some txn →
    txn.transactionId = id ∧ ∃ outcome : Outcome, txn.state = outcome.state

namespace TransactionManager

/-- The transaction manager as it is constructed. -/
def new : TransactionManager where
  activeTransactions := ∅
  completedTransactions := ∅
  nextTransactionId := initialTxnId
  committedCount := 0
  abortedCount := 0
  begun := 0
  active_filed := by simp
  completed_filed := by simp

/-- The transaction that the next `beginTransaction` makes. -/
def nextTransaction (tm : TransactionManager) : Transaction :=
  ⟨tm.nextTransactionId, .active, tm.begun⟩

def beginTransaction (tm : TransactionManager) : Transaction × TransactionManager :=
  (tm.nextTransaction,
    { tm with
      activeTransactions := tm.activeTransactions.insert tm.nextTransactionId tm.nextTransaction
      nextTransactionId := succ32 tm.nextTransactionId
      begun := tm.begun + 1
      active_filed := by
        intro id txn h
        rw [ExtTreeMap.getElem?_insert] at h
        split at h
        · next hid =>
            cases h
            exact ⟨Std.compare_eq_iff_eq.mp hid, rfl⟩
        · exact tm.active_filed id txn h })

/-- Move an active transaction to the history in a final state. -/
def moveToCompleted (tm : TransactionManager) (transactionId : Nat) (txn : Transaction)
    (found : tm.activeTransactions[transactionId]? = some txn) (outcome : Outcome) :
    TransactionManager :=
  { tm with
    completedTransactions :=
      tm.completedTransactions.insert transactionId { txn with state := outcome.state }
    activeTransactions := tm.activeTransactions.erase transactionId
    active_filed := by
      intro id txn' h
      rw [ExtTreeMap.getElem?_erase] at h
      split at h
      · cases h
      · exact tm.active_filed id txn' h
    completed_filed := by
      intro id txn' h
      rw [ExtTreeMap.getElem?_insert] at h
      split at h
      · next hid =>
          cases h
          have hfiled := tm.active_filed transactionId txn found
          exact ⟨hfiled.1.trans (Std.compare_eq_iff_eq.mp hid), outcome, rfl⟩
      · exact tm.completed_filed id txn' h }

/-- The common part of `commitTransaction` and `abortTransaction`. -/
def complete (tm : TransactionManager) (transactionId : Nat) (outcome : Outcome) :
    Bool × TransactionManager :=
  match found : tm.activeTransactions[transactionId]? with
  | none => (false, tm)
  | some txn =>
      let moved := tm.moveToCompleted transactionId txn found outcome
      match outcome with
      | .commit => (true, { moved with committedCount := succ32 tm.committedCount })
      | .abort => (true, { moved with abortedCount := succ32 tm.abortedCount })

def commitTransaction (tm : TransactionManager) (transactionId : Nat) :
    Bool × TransactionManager :=
  tm.complete transactionId .commit

def abortTransaction (tm : TransactionManager) (transactionId : Nat) :
    Bool × TransactionManager :=
  tm.complete transactionId .abort

def getTransaction (tm : TransactionManager) (transactionId : Nat) : Option Transaction :=
  match tm.activeTransactions[transactionId]? with
  | some txn => some txn
  | none => tm.completedTransactions[transactionId]?

def isTransactionActive (tm : TransactionManager) (transactionId : Nat) : Bool :=
  match tm.activeTransactions[transactionId]? with
  | some txn => txn.state = .active
  | none => false

def getActiveTransactionIds (tm : TransactionManager) : List Nat :=
  tm.activeTransactions.toList.map Prod.fst

def getActiveTransactionCount (tm : TransactionManager) : Nat := tm.activeTransactions.size

def abortAllTransactions (tm : TransactionManager) : TransactionManager :=
  tm.getActiveTransactionIds.foldl (fun tm id => (tm.abortTransaction id).2) tm

def clearCompletedTransactions (tm : TransactionManager) : TransactionManager :=
  { tm with completedTransactions := ∅, completed_filed := by simp }

/-! ## What the operations do -/

variable (tm : TransactionManager)

theorem isTransactionActive_iff {id : Nat} :
    tm.isTransactionActive id = true ↔ ∃ txn, tm.activeTransactions[id]? = some txn := by
  rw [isTransactionActive]
  cases h : tm.activeTransactions[id]? with
  | none => simp
  | some txn => simp [(tm.active_filed id txn h).2]

theorem mem_getActiveTransactionIds {id : Nat} :
    id ∈ tm.getActiveTransactionIds ↔ ∃ txn, tm.activeTransactions[id]? = some txn := by
  rw [getActiveTransactionIds, List.mem_map]
  constructor
  · rintro ⟨⟨_, txn⟩, hmem, rfl⟩
    exact ⟨txn, ExtTreeMap.mem_toList_iff_getElem?_eq_some.mp hmem⟩
  · rintro ⟨txn, hget⟩
    exact ⟨(id, txn), ExtTreeMap.mem_toList_iff_getElem?_eq_some.mpr hget, rfl⟩

/-- The active ids come in ascending order. -/
theorem sorted_getActiveTransactionIds : tm.getActiveTransactionIds.Pairwise (· < ·) := by
  rw [getActiveTransactionIds, List.pairwise_map]
  exact ExtTreeMap.ordered_keys_toList.imp fun h => Nat.compare_eq_lt.mp h

/-- What completing an active transaction changes. -/
theorem complete_active {id : Nat} {txn : Transaction} (outcome : Outcome)
    (h : tm.activeTransactions[id]? = some txn) :
    (tm.complete id outcome).1 = true ∧
      (tm.complete id outcome).2.activeTransactions = tm.activeTransactions.erase id ∧
      (tm.complete id outcome).2.completedTransactions =
        tm.completedTransactions.insert id { txn with state := outcome.state } ∧
      (tm.complete id outcome).2.nextTransactionId = tm.nextTransactionId ∧
      (tm.complete id outcome).2.begun = tm.begun := by
  rw [complete]
  split
  · next h' =>
      rw [h] at h'
      cases h'
  · next txn' h' =>
      obtain rfl : txn = txn' := Option.some.inj (h.symm.trans h')
      cases outcome <;> exact ⟨rfl, rfl, rfl, rfl, rfl⟩

theorem complete_inactive {id : Nat} (outcome : Outcome) (h : tm.activeTransactions[id]? = none) :
    tm.complete id outcome = (false, tm) := by
  rw [complete]
  split
  · rfl
  · next txn h' =>
      rw [h] at h'
      cases h'

/-- Exactly an active transaction can be completed. -/
theorem complete_iff {id : Nat} {outcome : Outcome} :
    (tm.complete id outcome).1 = true ↔ ∃ txn, tm.activeTransactions[id]? = some txn := by
  cases h : tm.activeTransactions[id]? with
  | none => simp [tm.complete_inactive outcome h]
  | some txn => simp [(tm.complete_active outcome h).1]

/-- The active transactions after a completion, successful or not. -/
theorem active_complete (id id' : Nat) (outcome : Outcome) :
    (tm.complete id outcome).2.activeTransactions[id']? =
      if id = id' then none else tm.activeTransactions[id']? := by
  cases h : tm.activeTransactions[id]? with
  | none =>
      rw [tm.complete_inactive outcome h]
      split
      · next hid => rw [← hid, h]
      · rfl
  | some txn =>
      rw [(tm.complete_active outcome h).2.1, ExtTreeMap.getElem?_erase]
      simp only [Std.compare_eq_iff_eq]

/-- The history after a completion, successful or not. -/
theorem completed_complete (id id' : Nat) (outcome : Outcome) :
    (tm.complete id outcome).2.completedTransactions[id']? =
      if id = id' then (tm.activeTransactions[id']?.map fun txn =>
        { txn with state := outcome.state }).or tm.completedTransactions[id']?
      else tm.completedTransactions[id']? := by
  cases h : tm.activeTransactions[id]? with
  | none =>
      rw [tm.complete_inactive outcome h]
      split
      · next hid =>
          rw [← hid, h]
          rfl
      · rfl
  | some txn =>
      rw [(tm.complete_active outcome h).2.2.1, ExtTreeMap.getElem?_insert]
      simp only [Std.compare_eq_iff_eq]
      split
      · next hid =>
          rw [← hid, h]
          rfl
      · rfl

theorem complete_counters (id : Nat) (outcome : Outcome) :
    (tm.complete id outcome).2.nextTransactionId = tm.nextTransactionId ∧
      (tm.complete id outcome).2.begun = tm.begun := by
  cases h : tm.activeTransactions[id]? with
  | none =>
      rw [tm.complete_inactive outcome h]
      exact ⟨rfl, rfl⟩
  | some txn => exact (tm.complete_active outcome h).2.2.2

/-- The loop of `abortAllTransactions` over any list of ids. -/
theorem foldl_abort (ids : List Nat) : ∀ (tm : TransactionManager) (id : Nat),
    (ids.foldl (fun tm id => (tm.abortTransaction id).2) tm).activeTransactions[id]? =
        (if id ∈ ids then none else tm.activeTransactions[id]?) ∧
      (ids.foldl (fun tm id => (tm.abortTransaction id).2) tm).completedTransactions[id]? =
        (if id ∈ ids then (tm.activeTransactions[id]?.map fun txn =>
          { txn with state := .aborted }).or tm.completedTransactions[id]?
        else tm.completedTransactions[id]?) ∧
      (ids.foldl (fun tm id => (tm.abortTransaction id).2) tm).nextTransactionId =
        tm.nextTransactionId ∧
      (ids.foldl (fun tm id => (tm.abortTransaction id).2) tm).begun = tm.begun := by
  induction ids with
  | nil => exact fun _ _ => ⟨rfl, rfl, rfl, rfl⟩
  | cons first ids ih =>
      intro tm id
      obtain ⟨ha, hc, hn, hb⟩ := ih (tm.abortTransaction first).2 id
      have hcounters := tm.complete_counters first .abort
      rw [List.foldl_cons]
      refine ⟨ha.trans ?_, hc.trans ?_, hn.trans hcounters.1, hb.trans hcounters.2⟩
      · rw [abortTransaction, active_complete]
        by_cases hid : first = id
        · simp [hid]
        · simp [hid, Ne.symm hid]
      · rw [abortTransaction, active_complete, completed_complete]
        by_cases hid : first = id
        · simp [hid, Outcome.state]
        · simp [hid, Ne.symm hid]

/-- Afterwards nothing is active. -/
theorem active_abortAll (id : Nat) : tm.abortAllTransactions.activeTransactions[id]? = none := by
  rw [abortAllTransactions, (foldl_abort _ tm id).1]
  split
  · rfl
  · next hid =>
      cases h : tm.activeTransactions[id]? with
      | none => rfl
      | some txn => exact absurd (tm.mem_getActiveTransactionIds.mpr ⟨txn, h⟩) hid

/-- The active transactions join the history as aborted. -/
theorem completed_abortAll (id : Nat) :
    tm.abortAllTransactions.completedTransactions[id]? =
      (tm.activeTransactions[id]?.map fun txn => { txn with state := .aborted }).or
        tm.completedTransactions[id]? := by
  rw [abortAllTransactions, (foldl_abort _ tm id).2.1]
  split
  · rfl
  · next hid =>
      cases h : tm.activeTransactions[id]? with
      | none => rfl
      | some txn => exact absurd (tm.mem_getActiveTransactionIds.mpr ⟨txn, h⟩) hid

theorem counters_abortAll : tm.abortAllTransactions.nextTransactionId = tm.nextTransactionId ∧
    tm.abortAllTransactions.begun = tm.begun :=
  (foldl_abort _ tm 0).2.2

/-! ## The active ids -/

theorem mem_activeIds_begin {id : Nat} :
    id ∈ tm.beginTransaction.2.getActiveTransactionIds ↔
      id = tm.nextTransactionId ∨ id ∈ tm.getActiveTransactionIds := by
  rw [mem_getActiveTransactionIds, mem_getActiveTransactionIds]
  show (∃ txn, (tm.activeTransactions.insert _ _)[id]? = some txn) ↔ _
  rw [ExtTreeMap.getElem?_insert]
  simp only [Std.compare_eq_iff_eq]
  split
  · next hid => exact iff_of_true ⟨_, rfl⟩ (Or.inl hid.symm)
  · next hid => rw [or_iff_right (Ne.symm hid)]

theorem mem_activeIds_complete {id id' : Nat} {outcome : Outcome} :
    id' ∈ (tm.complete id outcome).2.getActiveTransactionIds ↔
      id' ≠ id ∧ id' ∈ tm.getActiveTransactionIds := by
  rw [mem_getActiveTransactionIds, mem_getActiveTransactionIds, active_complete]
  split
  · next hid => simp [hid]
  · next hid => rw [and_iff_right (Ne.symm hid)]

theorem activeIds_abortAll {id : Nat} : id ∉ tm.abortAllTransactions.getActiveTransactionIds := by
  rw [mem_getActiveTransactionIds, active_abortAll]
  rintro ⟨_, h⟩
  cases h

theorem nodup_activeIds : tm.getActiveTransactionIds.Nodup :=
  tm.sorted_getActiveTransactionIds.imp Nat.ne_of_lt

end TransactionManager

end TxnEngine
