import TxnEngine.Recovery.RecoveryManager

/-!
# Two runs of recovery

What recovery finds depends on the records of each id alone, not on how the
records of different ids are interleaved (`recovers_interleaved`).

So it can be cut short and run again.  Every ABORT that `undo` logs closes its own
id, and the others stay open, in the same order.  A second run on the log with
some of these ABORTs logs exactly the rest (`recovers_after_cut`).
-/

namespace TxnEngine

open Std

/-- The records of an id, in order. -/
def recordsOf (log : List LogRecord) (id : Nat) : List LogRecord :=
  log.filter fun record => record.transactionId = id

theorem typesOf_eq (log : List LogRecord) (id : Nat) :
    typesOf log id = (recordsOf log id).map LogRecord.logType := rfl

/-- A record without its timestamp. -/
def LogRecord.untimed (record : LogRecord) : Nat × LogType :=
  (record.transactionId, record.logType)

/-- Two ascending lists with the same elements are the same. -/
theorem ascending_ext {l l' : List Nat} (h : l.Pairwise (· < ·)) (h' : l'.Pairwise (· < ·))
    (hmem : ∀ id, id ∈ l ↔ id ∈ l') : l = l' := by
  have hnodup : ∀ {k : List Nat}, k.Pairwise (· < ·) → k.Nodup :=
    fun hk => hk.imp fun hlt => Nat.ne_of_lt hlt
  have hperm : l.Perm l' := (List.perm_ext_iff_of_nodup (hnodup h) (hnodup h')).mpr hmem
  exact hperm.eq_of_pairwise (fun _ _ _ _ hab hba => absurd hab (Nat.lt_asymm hba)) h h'

namespace RecoveryManager

/-! ## Interleavings -/

/-- Two recoveries that differ at most in the order of records of different ids. -/
structure SameFindings (rm rm' : RecoveryManager) : Prop where
  committed : rm.committedTxns = rm'.committedTxns
  incomplete : rm.incompleteTxns = rm'.incompleteTxns
  undo : rm.undoRecords.map LogRecord.untimed = rm'.undoRecords.map LogRecord.untimed
  redo : ∀ id, recordsOf rm.redoRecords id = recordsOf rm'.redoRecords id

theorem abortRecords_untimed (ids : List Nat) (clock : List Int) :
    (abortRecords ids clock).1.map LogRecord.untimed = ids.map fun id => (id, .abort) := by
  induction ids generalizing clock with
  | nil => rfl
  | cons id ids ih => exact congrArg ((id, LogType.abort) :: ·) (ih clock.tail)

/-- The records that `redo` picks, id by id. -/
theorem recordsOf_redoRecords (rm : RecoveryManager) (clock : List Int) (log : List LogRecord)
    (id : Nat) : recordsOf ((rm.onLog log).performRecovery clock).1.redoRecords id =
      (recordsOf log id).filter fun record =>
        decide (.commit ∈ typesOf log id) && isDataModificationType record.logType := by
  rw [performRecovery_redo, recordsOf, recordsOf, List.filter_filter, List.filter_filter]
  apply List.filter_congr
  intro record _
  by_cases hid : record.transactionId = id
  · simp [hid, committedIn_iff]
  · simp [hid]

/-- The two sets agree when the types of the records of each id do. -/
theorem sets_congr (rm rm' : RecoveryManager) (clock clock' : List Int)
    {log log' : List LogRecord} (h : ∀ id, typesOf log id = typesOf log' id) :
    ((rm.onLog log).performRecovery clock).1.committedTxns =
        ((rm'.onLog log').performRecovery clock').1.committedTxns ∧
      ((rm.onLog log).performRecovery clock).1.incompleteTxns =
        ((rm'.onLog log').performRecovery clock').1.incompleteTxns := by
  constructor
  · apply ExtTreeSet.ext_mem
    intro id
    rw [performRecovery_committed, performRecovery_committed, committedIn_iff, committedIn_iff, h]
  · apply ExtTreeSet.ext_mem
    intro id
    rw [performRecovery_incomplete, performRecovery_incomplete, leftOpen_iff, leftOpen_iff, h]

/-- The ABORT records are those of the incomplete ids, in order. -/
theorem undoRecords_untimed (rm : RecoveryManager) (clock : List Int) (log : List LogRecord) :
    ((rm.onLog log).performRecovery clock).1.undoRecords.map LogRecord.untimed =
      ((rm.onLog log).performRecovery clock).1.incompleteTxns.toList.map fun id =>
        (id, .abort) := by
  rw [performRecovery_undoRecords, abortRecords_untimed, performRecovery_eq, undo_eq]
  rfl

/-- Recovery does not depend on how the records of different ids are interleaved. -/
theorem recovers_interleaved (rm rm' : RecoveryManager) (clock clock' : List Int)
    (log log' : List LogRecord) (h : ∀ id, recordsOf log id = recordsOf log' id) :
    SameFindings ((rm.onLog log).performRecovery clock).1
      ((rm'.onLog log').performRecovery clock').1 := by
  have htypes : ∀ id, typesOf log id = typesOf log' id := by
    intro id
    rw [typesOf_eq, typesOf_eq, h]
  obtain ⟨hcommitted, hincomplete⟩ := sets_congr rm rm' clock clock' htypes
  constructor
  case committed => exact hcommitted
  case incomplete => exact hincomplete
  case undo => rw [undoRecords_untimed, undoRecords_untimed, hincomplete]
  case redo =>
    intro id
    rw [recordsOf_redoRecords, recordsOf_redoRecords, h, htypes]

/-- Two transactions, one after the other. -/
def oneByOne : List LogRecord :=
  [⟨1, .begin, 0⟩, ⟨1, .update, 1⟩, ⟨1, .commit, 2⟩, ⟨2, .begin, 3⟩, ⟨2, .update, 4⟩]

/-- The same two transactions, interleaved. -/
def mixed : List LogRecord :=
  [⟨2, .begin, 3⟩, ⟨1, .begin, 0⟩, ⟨2, .update, 4⟩, ⟨1, .update, 1⟩, ⟨1, .commit, 2⟩]

theorem recovers_interleaved_mixed :
    SameFindings (((new (.openOn [])).onLog oneByOne).performRecovery [7]).1
      (((new (.openOn [])).onLog mixed).performRecovery [8]).1 := by
  refine recovers_interleaved _ _ [7] [8] oneByOne mixed fun id => ?_
  by_cases h1 : 1 = id
  · subst h1
    rfl
  · by_cases h2 : 2 = id
    · subst h2
      rfl
    · simp [recordsOf, oneByOne, mixed, h1, h2]

/-! ## Recovery cut short -/

theorem take_abortRecords (k : Nat) (ids : List Nat) (clock : List Int) :
    (abortRecords ids clock).1.take k = (abortRecords (ids.take k) clock).1 := by
  induction ids generalizing k clock with
  | nil =>
      rw [List.take_nil]
      exact List.take_nil
  | cons id ids ih =>
      cases k with
      | zero => rfl
      | succ k => exact congrArg (LogRecord.mk id .abort (clock.headD 0) :: ·) (ih k clock.tail)

/-- The second of two recoveries, after the first was cut short behind `k` of its
ABORT records. -/
structure Resumes (k : Nat) (first second : RecoveryManager) : Prop where
  committed : second.committedTxns = first.committedTxns
  redo : second.redoRecords = first.redoRecords
  undo : second.undoRecords.map LogRecord.untimed =
    (first.undoRecords.drop k).map LogRecord.untimed
  log : second.logManager.readLogs.map LogRecord.untimed =
    first.logManager.readLogs.map LogRecord.untimed

/-- The second of two recoveries finds nothing left to undo. -/
structure FindsNothing (first second : RecoveryManager) : Prop where
  incomplete : second.incompleteTxns = ∅
  undo : second.undoRecords = []
  redo : second.redoRecords = first.redoRecords
  log : second.logManager.readLogs = first.logManager.readLogs

section Cut

variable (rm : RecoveryManager) (clock : List Int) (log : List LogRecord) (k : Nat)

/-- The log that a recovery cut short behind `k` ABORT records leaves. -/
def cutLog : List LogRecord :=
  log ++ ((rm.onLog log).performRecovery clock).1.undoRecords.take k

/-- The ids that the log leaves open, in the order in which `undo` closes them. -/
def openIds : List Nat := ((rm.onLog log).performRecovery clock).1.incompleteTxns.toList

theorem mem_openIds {id : Nat} : id ∈ rm.openIds clock log ↔ LeftOpen log id :=
  ExtTreeSet.mem_toList.trans (rm.performRecovery_incomplete clock log id)

theorem nodup_openIds : (rm.openIds clock log).Nodup :=
  (sortedLT_toList _).imp fun h => Nat.ne_of_lt h

theorem typesOf_cutLog (id : Nat) : typesOf (rm.cutLog clock log k) id =
    typesOf log id ++ if id ∈ (rm.openIds clock log).take k then [.abort] else [] := by
  have hundo : ((rm.onLog log).performRecovery clock).1.undoRecords.take k =
      (abortRecords ((rm.openIds clock log).take k) clock).1 := by
    rw [performRecovery_undoRecords, take_abortRecords, openIds, performRecovery_eq, undo_eq]
    rfl
  have hnodup := (List.take_sublist k _).nodup (rm.nodup_openIds clock log)
  rw [cutLog, typesOf_append, hundo, typesOf_abortRecords id _ clock hnodup]

/-- An ABORT commits nothing. -/
theorem committedIn_cutLog (id : Nat) :
    CommittedIn (rm.cutLog clock log k) id ↔ CommittedIn log id := by
  rw [committedIn_iff, committedIn_iff, typesOf_cutLog]
  split <;> simp

/-- An ABORT closes its own id. -/
theorem leftOpen_cutLog (id : Nat) :
    LeftOpen (rm.cutLog clock log k) id ↔ id ∈ (rm.openIds clock log).drop k := by
  have hnodup := rm.nodup_openIds clock log
  have hsplit : id ∈ rm.openIds clock log ↔
      id ∈ (rm.openIds clock log).take k ∨ id ∈ (rm.openIds clock log).drop k := by
    rw [← List.mem_append, List.take_append_drop]
  rw [← List.take_append_drop k (rm.openIds clock log)] at hnodup
  have hdisjoint := List.disjoint_of_nodup_append hnodup
  rw [leftOpen_iff, typesOf_cutLog]
  split
  · next hclosed =>
      rw [List.foldl_concat]
      exact iff_of_false Bool.false_ne_true (hdisjoint hclosed)
  · next hnot =>
      rw [List.append_nil, ← leftOpen_iff, ← rm.mem_openIds clock log, hsplit, or_iff_right hnot]

/-- The second run finds the rest of the open ids, in the same order. -/
theorem openIds_cutLog (rm' : RecoveryManager) (clock' : List Int) :
    rm'.openIds clock' (rm.cutLog clock log k) = (rm.openIds clock log).drop k := by
  refine ascending_ext (sortedLT_toList _)
    ((sortedLT_toList _).sublist (List.drop_sublist k _)) fun id => ?_
  rw [mem_openIds, leftOpen_cutLog]

/-- The ABORT records are no data records, so `redo` passes over them. -/
theorem redoRecords_cutLog (rm' : RecoveryManager) (clock' : List Int) :
    ((rm'.onLog (rm.cutLog clock log k)).performRecovery clock').1.redoRecords =
      ((rm.onLog log).performRecovery clock).1.redoRecords := by
  have hnone : (((rm.onLog log).performRecovery clock).1.undoRecords.take k).filter
      (fun record => decide (CommittedIn log record.transactionId) &&
        isDataModificationType record.logType) = [] := by
    rw [List.filter_eq_nil_iff]
    intro record hmem
    rw [performRecovery_undoRecords] at hmem
    rw [abortRecords_type _ clock record (List.mem_of_mem_take hmem)]
    simp [isDataModificationType]
  rw [performRecovery_redo, performRecovery_redo]
  simp only [committedIn_cutLog]
  rw [cutLog, List.filter_append, hnone, List.append_nil]

theorem committedTxns_cutLog (rm' : RecoveryManager) (clock' : List Int) :
    ((rm'.onLog (rm.cutLog clock log k)).performRecovery clock').1.committedTxns =
      ((rm.onLog log).performRecovery clock).1.committedTxns := by
  apply ExtTreeSet.ext_mem
  intro id
  rw [performRecovery_committed, performRecovery_committed, committedIn_cutLog]

/-- The second run logs the rest of the ABORT records. -/
theorem undoRecords_cutLog (rm' : RecoveryManager) (clock' : List Int) :
    ((rm'.onLog (rm.cutLog clock log k)).performRecovery clock').1.undoRecords.map
        LogRecord.untimed =
      (((rm.onLog log).performRecovery clock).1.undoRecords.drop k).map LogRecord.untimed := by
  have hids := rm.openIds_cutLog clock log k rm' clock'
  rw [openIds, openIds] at hids
  rw [List.map_drop, undoRecords_untimed, undoRecords_untimed, hids, List.map_drop]

theorem resumes_cutLog (rm' : RecoveryManager) (clock' : List Int) :
    Resumes k ((rm.onLog log).performRecovery clock).1
      ((rm'.onLog (rm.cutLog clock log k)).performRecovery clock').1 := by
  have hundo := rm.undoRecords_cutLog clock log k rm' clock'
  constructor
  case committed => exact rm.committedTxns_cutLog clock log k rm' clock'
  case redo => exact rm.redoRecords_cutLog clock log k rm' clock'
  case undo => exact hundo
  case log =>
    rw [readLogs_performRecovery, readLogs_performRecovery, List.map_append, hundo, cutLog,
      List.map_append, List.map_append, List.append_assoc, ← List.map_append,
      List.take_append_drop]

end Cut

/-- Recovery can be cut short behind any of its ABORT records and run again: the
second run finds the same committed ids and the same records to redo, logs the
rest of the ABORT records, and ends with the same log. -/
theorem recovers_after_cut (rm rm' : RecoveryManager) (clock clock' : List Int)
    (log : List LogRecord) (k : Nat) :
    Resumes k ((rm.onLog log).performRecovery clock).1
        ((rm'.onLog (rm.cutLog clock log k)).performRecovery clock').1 ∧
      FindsNothing ((rm.onLog log).performRecovery clock).1
        ((rm'.onLog ((rm.onLog log).performRecovery clock).1.logManager.readLogs).performRecovery
          clock').1 := by
  refine ⟨rm.resumes_cutLog clock log k rm' clock', ?_⟩
  -- a recovery that was not cut short is one that was cut behind its last record
  have hfull : ((rm.onLog log).performRecovery clock).1.logManager.readLogs =
      rm.cutLog clock log ((rm.onLog log).performRecovery clock).1.undoRecords.length := by
    rw [readLogs_performRecovery, cutLog, List.take_length]
  have hresumes := rm.resumes_cutLog clock log
    ((rm.onLog log).performRecovery clock).1.undoRecords.length rm' clock'
  rw [← hfull] at hresumes
  have hundo : ((rm'.onLog
      ((rm.onLog log).performRecovery clock).1.logManager.readLogs).performRecovery
        clock').1.undoRecords = [] := by
    have h := hresumes.undo
    rw [List.drop_length] at h
    exact List.map_eq_nil_iff.mp h
  constructor
  case incomplete =>
    have hids := undoRecords_untimed rm' clock'
      ((rm.onLog log).performRecovery clock).1.logManager.readLogs
    rw [hundo] at hids
    exact ExtTreeSet.toList_eq_nil_iff.mp (List.map_eq_nil_iff.mp hids.symm)
  case undo => exact hundo
  case redo => exact hresumes.redo
  case log =>
    rw [readLogs_performRecovery, hundo, List.append_nil]

end RecoveryManager

end TxnEngine
