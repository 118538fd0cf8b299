import TxnEngine.Recovery.LogManager
import TxnEngine.Utils.Enums
import Mathlib.Data.List.Sort

/-!
# The recovery manager

`recovery/RecoveryManager.cpp`: an analysis that folds the control records of the
log into two sets, a redo pass that picks the data records of committed
transactions, and an undo pass that logs one ABORT for each incomplete one.

The records that `undo` makes read the clock.  `clock` holds the results of the
next calls of `time(nullptr)`.
-/

namespace TxnEngine

open Std

/-- The state of the recovery manager.  The log manager is shared with its
owner, who reads it back after a recovery. -/
structure RecoveryManager where
  logManager : LogManager
  recoveryState : RecoveryState
  committedTxns : ExtTreeSet Nat
  incompleteTxns : ExtTreeSet Nat
  redoRecords : List LogRecord
  undoRecords : List LogRecord

def isDataModificationType (type : LogType) : Bool :=
  type = .insert ∨ type = .update ∨ type = .delete

/-- `LogRecord(transaction_id, type)`, which reads the clock. -/
def LogRecord.make (clock : List Int) (transactionId : Nat) (type : LogType) :
    LogRecord × List Int :=
  (⟨transactionId, type, clock.headD 0⟩, clock.tail)

/-- One round of the loop of `analyze`, on the committed and the active ids. -/
def analyzeRecord (sets : ExtTreeSet Nat × ExtTreeSet Nat) (record : LogRecord) :
    ExtTreeSet Nat × ExtTreeSet Nat :=
  match record.logType with
  | .begin => (sets.1, sets.2.insert record.transactionId)
  | .commit => (sets.1.insert record.transactionId, sets.2.erase record.transactionId)
  | .abort => (sets.1, sets.2.erase record.transactionId)
  | _ => sets

/-- The ABORT records of `undo`, one for each id, and the clock after them. -/
def abortRecords : List Nat → List Int → List LogRecord × List Int
  | [], clock => ([], clock)
  | txnId :: txnIds, clock =>
      match LogRecord.make clock txnId .abort with
      | (record, clock) =>
          match abortRecords txnIds clock with
          | (records, clock) => (record :: records, clock)

namespace RecoveryManager

/-- The recovery manager as it is constructed. -/
def new (logManager : LogManager) : RecoveryManager := ⟨logManager, .analysis, ∅, ∅, [], []⟩

def analyze (rm : RecoveryManager) : RecoveryManager :=
  let sets := rm.logManager.readLogs.foldl analyzeRecord (∅, ∅)
  { rm with committedTxns := sets.1, incompleteTxns := sets.2 }

def redo (rm : RecoveryManager) : RecoveryManager :=
  { rm with
    redoRecords := rm.logManager.readLogs.filter fun record =>
      decide (record.transactionId ∈ rm.committedTxns) && isDataModificationType record.logType }

def undo (rm : RecoveryManager) (clock : List Int) : RecoveryManager × List Int :=
  let txnIds := rm.incompleteTxns.toList.insertionSort (· ≤ ·)
  match abortRecords txnIds clock with
  | (records, clock) =>
      let logManager := records.foldl LogManager.writeLog rm.logManager
      ({ rm with
        undoRecords := records
        logManager := if txnIds.isEmpty then logManager else logManager.flushLogs }, clock)

def performRecovery (rm : RecoveryManager) (clock : List Int) : RecoveryManager × List Int :=
  let rm := { rm with recoveryState := .analysis }.analyze
  let rm := { rm with recoveryState := .redo }.redo
  match { rm with recoveryState := .undo }.undo clock with
  | (rm, clock) => ({ rm with recoveryState := .complete }, clock)

end RecoveryManager

/-! ## What the analysis computes -/

/-- The log has a COMMIT of the id. -/
def CommittedIn (log : List LogRecord) (id : Nat) : Prop :=
  ∃ record ∈ log, record.transactionId = id ∧ record.logType = .commit

/-- The log has a BEGIN of the id with no COMMIT or ABORT of the id after it. -/
def LeftOpen (log : List LogRecord) (id : Nat) : Prop :=
  ∃ before record after, log = before ++ record :: after ∧ record.transactionId = id ∧
    record.logType = .begin ∧
    ∀ later ∈ after, later.transactionId = id → later.logType ≠ .commit ∧ later.logType ≠ .abort

instance (log : List LogRecord) (id : Nat) : Decidable (CommittedIn log id) :=
  inferInstanceAs (Decidable (∃ record ∈ log, _))

/-- The types of the records of an id, in order. -/
def typesOf (log : List LogRecord) (id : Nat) : List LogType :=
  (log.filter fun record => record.transactionId = id).map LogRecord.logType

/-- Whether a transaction is open after a record, given whether it was before. -/
def LogType.opens (isOpen : Bool) : LogType → Bool
  | .begin => true
  | .commit => false
  | .abort => false
  | _ => isOpen

@[simp] theorem typesOf_nil (id : Nat) : typesOf [] id = [] := rfl

theorem typesOf_cons (record : LogRecord) (log : List LogRecord) (id : Nat) :
    typesOf (record :: log) id =
      if record.transactionId = id then record.logType :: typesOf log id else typesOf log id := by
  by_cases h : record.transactionId = id
  · simp [typesOf, h]
  · simp [typesOf, h]

@[simp] theorem typesOf_append (log log' : List LogRecord) (id : Nat) :
    typesOf (log ++ log') id = typesOf log id ++ typesOf log' id := by
  simp [typesOf]

theorem mem_typesOf {log : List LogRecord} {id : Nat} {type : LogType} :
    type ∈ typesOf log id ↔
      ∃ record ∈ log, record.transactionId = id ∧ record.logType = type := by
  simp [typesOf, and_assoc]

theorem committedIn_iff {log : List LogRecord} {id : Nat} :
    CommittedIn log id ↔ .commit ∈ typesOf log id := mem_typesOf.symm

/-- Open after a list of types: open before it and never closed, or begun in it
and not closed since. -/
theorem foldl_opens_iff (types : List LogType) (isOpen : Bool) :
    types.foldl LogType.opens isOpen = true ↔
      (isOpen = true ∧ .commit ∉ types ∧ .abort ∉ types) ∨
        ∃ before after, types = before ++ .begin :: after ∧ .commit ∉ after ∧ .abort ∉ after := by
  induction types generalizing isOpen with
  | nil => simp
  | cons type types ih =>
      rw [List.foldl_cons, ih]
      constructor
      · rintro (⟨hopen, hc, ha⟩ | ⟨before, after, rfl, hc, ha⟩)
        · cases type with
          | begin => exact Or.inr ⟨[], types, rfl, hc, ha⟩
          | commit | abort => cases hopen
          | _ => exact Or.inl ⟨hopen, by simp [hc], by simp [ha]⟩
        · exact Or.inr ⟨type :: before, after, rfl, hc, ha⟩
      · rintro (⟨rfl, hc, ha⟩ | ⟨before, after, heq, hc, ha⟩)
        · simp only [List.mem_cons, not_or] at hc ha
          refine Or.inl ⟨?_, hc.2, ha.2⟩
          cases type with
          | commit => exact absurd rfl hc.1
          | abort => exact absurd rfl ha.1
          | _ => rfl
        · cases before with
          | nil =>
              obtain ⟨rfl, rfl⟩ := List.cons.inj heq
              exact Or.inl ⟨rfl, hc, ha⟩
          | cons type' before =>
              obtain ⟨rfl, rfl⟩ := List.cons.inj heq
              exact Or.inr ⟨before, after, rfl, hc, ha⟩

/-- A split of the records of an id comes from a split of the log. -/
theorem leftOpen_iff {log : List LogRecord} {id : Nat} :
    LeftOpen log id ↔ (typesOf log id).foldl LogType.opens false = true := by
  rw [foldl_opens_iff]
  simp only [Bool.false_eq_true, false_and, false_or]
  constructor
  · rintro ⟨before, record, after, rfl, hid, htype, hopen⟩
    refine ⟨typesOf before id, typesOf after id, ?_, ?_, ?_⟩
    · rw [typesOf_append, typesOf_cons, if_pos hid, htype]
    · intro hc
      obtain ⟨later, hmem, hid', htype'⟩ := mem_typesOf.mp hc
      exact (hopen later hmem hid').1 htype'
    · intro ha
      obtain ⟨later, hmem, hid', htype'⟩ := mem_typesOf.mp ha
      exact (hopen later hmem hid').2 htype'
  · rintro ⟨before, after, heq, hc, ha⟩
    obtain ⟨before', rest, hfilter, rfl, hrest⟩ := List.map_eq_append_iff.mp heq
    obtain ⟨record, after', rfl, htype, rfl⟩ := List.map_eq_cons_iff.mp hrest
    obtain ⟨log₁, log₂, rfl, _, h₂⟩ := List.filter_eq_append_iff.mp hfilter
    obtain ⟨log₃, log₄, rfl, _, hid, h₄⟩ := List.filter_eq_cons_iff.mp h₂
    refine ⟨log₁ ++ log₃, record, log₄, by simp, by simpa using hid, htype, ?_⟩
    intro later hmem hid'
    have hlater : later.logType ∈ after'.map LogRecord.logType := by
      rw [← h₄]
      exact List.mem_map_of_mem (List.mem_filter.mpr ⟨hmem, by simpa using hid'⟩)
    exact ⟨fun h => hc (h ▸ hlater), fun h => ha (h ▸ hlater)⟩

/-- The fold of `analyze`, from any sets. -/
theorem mem_foldl_analyzeRecord (log : List LogRecord) (id : Nat) :
    ∀ committed active : ExtTreeSet Nat,
      (id ∈ (log.foldl analyzeRecord (committed, active)).1 ↔
        id ∈ committed ∨ CommittedIn log id) ∧
      (id ∈ (log.foldl analyzeRecord (committed, active)).2 ↔
        (typesOf log id).foldl LogType.opens (decide (id ∈ active)) = true) := by
  induction log with
  | nil => simp [CommittedIn]
  | cons record log ih =>
      intro committed active
      obtain ⟨ihc, iha⟩ := ih (analyzeRecord (committed, active) record).1
        (analyzeRecord (committed, active) record).2
      rw [List.foldl_cons]
      refine ⟨ihc.trans ?_, iha.trans ?_⟩
      · rw [committedIn_iff, committedIn_iff, typesOf_cons]
        cases htype : record.logType <;> by_cases hid : record.transactionId = id <;>
          simp [analyzeRecord, htype, hid]
      · rw [typesOf_cons]
        cases htype : record.logType <;> by_cases hid : record.transactionId = id <;>
          simp [analyzeRecord, htype, hid, LogType.opens]

namespace RecoveryManager

variable (rm : RecoveryManager) (clock : List Int)

theorem mem_analyze_committed {id : Nat} :
    id ∈ rm.analyze.committedTxns ↔ CommittedIn rm.logManager.readLogs id := by
  refine (mem_foldl_analyzeRecord rm.logManager.readLogs id ∅ ∅).1.trans ?_
  simp

theorem mem_analyze_incomplete {id : Nat} :
    id ∈ rm.analyze.incompleteTxns ↔ LeftOpen rm.logManager.readLogs id := by
  rw [leftOpen_iff]
  refine (mem_foldl_analyzeRecord rm.logManager.readLogs id ∅ ∅).2.trans ?_
  simp

/-! ## The records of `undo` -/

theorem abortRecords_ids (ids : List Nat) (clock : List Int) :
    (abortRecords ids clock).1.map LogRecord.transactionId = ids := by
  induction ids generalizing clock with
  | nil => rfl
  | cons id ids ih => exact congrArg (id :: ·) (ih clock.tail)

theorem abortRecords_type (ids : List Nat) (clock : List Int) :
    ∀ record ∈ (abortRecords ids clock).1, record.logType = .abort := by
  induction ids generalizing clock with
  | nil =>
      intro record h
      cases h
  | cons id ids ih =>
      intro record h
      cases h with
      | head => rfl
      | tail _ h => exact ih clock.tail record h

/-- The ABORT records of distinct ids, id by id. -/
theorem typesOf_abortRecords (id : Nat) (ids : List Nat) (clock : List Int) (hnodup : ids.Nodup) :
    typesOf (abortRecords ids clock).1 id = if id ∈ ids then [.abort] else [] := by
  induction ids generalizing clock with
  | nil => rfl
  | cons first ids ih =>
      obtain ⟨hnew, hnodup'⟩ := List.nodup_cons.mp hnodup
      show typesOf (⟨first, .abort, clock.headD 0⟩ :: (abortRecords ids clock.tail).1) id = _
      rw [typesOf_cons, ih clock.tail hnodup']
      by_cases hid : first = id
      · subst hid
        simp [hnew]
      · simp [hid, Ne.symm hid]

/-- A set iterates in strictly ascending order. -/
theorem sortedLT_toList (s : ExtTreeSet Nat) : s.toList.Pairwise (· < ·) :=
  ExtTreeSet.ordered_toList.imp fun h => Nat.compare_eq_lt.mp h

/-- The set iterates in ascending order, so sorting its elements changes
nothing. -/
theorem insertionSort_toList (s : ExtTreeSet Nat) :
    s.toList.insertionSort (· ≤ ·) = s.toList :=
  ((sortedLT_toList s).imp Nat.le_of_lt).insertionSort_eq

/-- What `undo` does, with the ids in the order of the set. -/
theorem undo_eq : rm.undo clock =
    ({ rm with
      undoRecords := (abortRecords rm.incompleteTxns.toList clock).1
      logManager :=
        if rm.incompleteTxns.toList.isEmpty then rm.logManager
        else LogManager.openOn
          (rm.logManager.written ++ (abortRecords rm.incompleteTxns.toList clock).1) },
      (abortRecords rm.incompleteTxns.toList clock).2) := by
  rw [undo, insertionSort_toList]
  cases hids : rm.incompleteTxns.toList with
  | nil => rfl
  | cons id ids =>
      simp [LogManager.foldl_writeLog, LogManager.flushLogs, LogManager.openOn,
        LogManager.written]

theorem undo_written :
    (rm.undo clock).1.logManager.written =
      rm.logManager.written ++ (rm.undo clock).1.undoRecords := by
  rw [undo_eq]
  dsimp only
  cases rm.incompleteTxns.toList with
  | nil => exact (List.append_nil _).symm
  | cons id ids => exact LogManager.written_openOn _

/-- Undo leaves nothing unflushed that was flushed before. -/
theorem undo_unflushed (h : rm.logManager.unflushed = []) :
    (rm.undo clock).1.logManager.unflushed = [] := by
  rw [undo_eq]
  dsimp only
  cases rm.incompleteTxns.toList with
  | nil => exact h
  | cons id ids => rfl

theorem performRecovery_eq : rm.performRecovery clock =
    ({ (rm.analyze.redo.undo clock).1 with recoveryState := .complete },
      (rm.analyze.redo.undo clock).2) := rfl

theorem performRecovery_undoRecords : (rm.performRecovery clock).1.undoRecords =
    (abortRecords rm.analyze.incompleteTxns.toList clock).1 := by
  rw [performRecovery_eq, undo_eq]
  rfl

/-- What undo logs for an id: one ABORT if the log leaves it open. -/
theorem typesOf_undoRecords (id : Nat) :
    typesOf (rm.performRecovery clock).1.undoRecords id =
      if (typesOf rm.logManager.readLogs id).foldl LogType.opens false then [.abort] else [] := by
  have hnodup : rm.analyze.incompleteTxns.toList.Nodup :=
    (sortedLT_toList _).imp fun h => Nat.ne_of_lt h
  rw [performRecovery_undoRecords, typesOf_abortRecords id _ clock hnodup]
  refine if_congr ?_ rfl rfl
  rw [ExtTreeSet.mem_toList, mem_analyze_incomplete, leftOpen_iff]

theorem performRecovery_written : (rm.performRecovery clock).1.logManager.written =
    rm.logManager.written ++ (rm.performRecovery clock).1.undoRecords :=
  rm.analyze.redo.undo_written clock

theorem performRecovery_unflushed (h : rm.logManager.unflushed = []) :
    (rm.performRecovery clock).1.logManager.unflushed = [] :=
  rm.analyze.redo.undo_unflushed clock h

/-! ## The classification -/

/-- The recovery manager over a log, whatever it did before. -/
def onLog (log : List LogRecord) : RecoveryManager :=
  { rm with logManager := LogManager.openOn log }

/-- The recovery manager holds the declared classification of a log: the
committed ids, the ids left open, the data records of committed ids in log
order, one ABORT for each id left open in ascending order, and a log that ends
with those records. -/
structure Classifies (log : List LogRecord) : Prop where
  committed : ∀ id, id ∈ rm.committedTxns ↔ CommittedIn log id
  incomplete : ∀ id, id ∈ rm.incompleteTxns ↔ LeftOpen log id
  redo : rm.redoRecords = log.filter fun record =>
    decide (CommittedIn log record.transactionId) && isDataModificationType record.logType
  undo_ascending : (rm.undoRecords.map LogRecord.transactionId).Pairwise (· < ·)
  undo_ids : ∀ id, id ∈ rm.undoRecords.map LogRecord.transactionId ↔ LeftOpen log id
  undo_type : ∀ record ∈ rm.undoRecords, record.logType = .abort
  log_after : rm.logManager.readLogs = log ++ rm.undoRecords

theorem performRecovery_committed (log : List LogRecord) (id : Nat) :
    id ∈ ((rm.onLog log).performRecovery clock).1.committedTxns ↔ CommittedIn log id := by
  rw [performRecovery_eq, undo_eq]
  exact (rm.onLog log).mem_analyze_committed

theorem performRecovery_incomplete (log : List LogRecord) (id : Nat) :
    id ∈ ((rm.onLog log).performRecovery clock).1.incompleteTxns ↔ LeftOpen log id := by
  rw [performRecovery_eq, undo_eq]
  exact (rm.onLog log).mem_analyze_incomplete

theorem performRecovery_redo (log : List LogRecord) :
    ((rm.onLog log).performRecovery clock).1.redoRecords = log.filter fun record =>
      decide (CommittedIn log record.transactionId) && isDataModificationType record.logType := by
  rw [performRecovery_eq, undo_eq]
  refine List.filter_congr fun record _ => ?_
  exact congrArg (· && _) (decide_eq_decide.mpr (rm.onLog log).mem_analyze_committed)

/-- Afterwards the log ends with the ABORT records. -/
theorem readLogs_performRecovery (log : List LogRecord) :
    ((rm.onLog log).performRecovery clock).1.logManager.readLogs =
      log ++ ((rm.onLog log).performRecovery clock).1.undoRecords := by
  have hwritten := (rm.onLog log).performRecovery_written clock
  rw [LogManager.written, performRecovery_unflushed _ _ rfl, List.append_nil] at hwritten
  exact hwritten.trans (congrArg (· ++ _) (LogManager.written_openOn log))

theorem performRecovery_classifies (log : List LogRecord) :
    ((rm.onLog log).performRecovery clock).1.Classifies log := by
  have hundo := (rm.onLog log).performRecovery_undoRecords clock
  have hids : ((rm.onLog log).performRecovery clock).1.undoRecords.map LogRecord.transactionId =
      (rm.onLog log).analyze.incompleteTxns.toList := by
    rw [hundo, abortRecords_ids]
  constructor
  case committed => exact rm.performRecovery_committed clock log
  case incomplete => exact rm.performRecovery_incomplete clock log
  case redo => exact rm.performRecovery_redo clock log
  case undo_ascending =>
    rw [hids]
    exact sortedLT_toList _
  case undo_ids =>
    intro id
    rw [hids]
    exact ExtTreeSet.mem_toList.trans (rm.onLog log).mem_analyze_incomplete
  case undo_type =>
    rw [hundo]
    exact abortRecords_type _ clock
  case log_after => exact rm.readLogs_performRecovery clock log

end RecoveryManager

end TxnEngine
