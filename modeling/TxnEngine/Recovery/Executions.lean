import TxnEngine.Recovery.RecoveryManager

/-!
# Executions in the log

Recovery tells transactions apart by their ids.  A log to which several sessions
were appended may have several executions of one id, each starting with a BEGIN
record of it.  A data record should be redone only if its own execution commits,
that is, if a COMMIT of the id comes after it and before the next BEGIN
(`RedoesCommitted`).

Both that and the disjointness of the two sets can be read off the types of the
records of each id (`redoesCommitted_iff`), from left to right with a `Tally`.
-/

namespace TxnEngine

/-- The record starts an execution of the id. -/
def LogRecord.begins (id : Nat) (record : LogRecord) : Bool :=
  record.transactionId = id ∧ record.logType = .begin

/-- The execution of the id that is running before these records commits. -/
def Commits (id : Nat) (later : List LogRecord) : Prop :=
  ∃ record ∈ later.takeWhile fun record => !record.begins id,
    record.transactionId = id ∧ record.logType = .commit

/-- Recovery redoes only records whose own execution commits, and no id is both
committed and incomplete. -/
structure RecoveryManager.RedoesCommitted (rm : RecoveryManager) (log : List LogRecord) :
    Prop where
  redo : ∀ before record later, log = before ++ record :: later → record ∈ rm.redoRecords →
    Commits record.transactionId later
  disjoint : ∀ id ∈ rm.committedTxns, id ∉ rm.incompleteTxns

/-! ## Types of records -/

/-- A COMMIT comes before the next BEGIN. -/
def Settles (types : List LogType) : Prop := .commit ∈ types.takeWhile (· ≠ .begin)

/-- Every data record is followed by a COMMIT before the next BEGIN. -/
def AllSettle : List LogType → Prop
  | [] => True
  | type :: types => (isDataModificationType type = true → Settles types) ∧ AllSettle types

theorem settles_cons (type : LogType) (types : List LogType) :
    Settles (type :: types) ↔ type ≠ .begin ∧ (type = .commit ∨ Settles types) := by
  cases type <;> simp [Settles]

theorem commits_iff {id : Nat} {later : List LogRecord} :
    Commits id later ↔ Settles (typesOf later id) := by
  induction later with
  | nil => simp [Commits, Settles]
  | cons record later ih =>
      rw [Commits, typesOf_cons]
      by_cases hid : record.transactionId = id
      · rw [if_pos hid, settles_cons, ← ih]
        cases htype : record.logType <;>
          simp [LogRecord.begins, hid, htype, Commits]
      · rw [if_neg hid, ← ih]
        simp [LogRecord.begins, hid, Commits]

/-- Every data record of the id belongs to an execution that commits. -/
theorem allSettle_iff {log : List LogRecord} {id : Nat} :
    AllSettle (typesOf log id) ↔ ∀ before record later, log = before ++ record :: later →
      record.transactionId = id → isDataModificationType record.logType = true →
        Commits id later := by
  induction log with
  | nil => simp [AllSettle]
  | cons first log ih =>
      have hsplit : (∀ before record later, first :: log = before ++ record :: later →
          record.transactionId = id → isDataModificationType record.logType = true →
            Commits id later) ↔
          (first.transactionId = id → isDataModificationType first.logType = true →
            Commits id log) ∧ AllSettle (typesOf log id) := by
        rw [ih]
        constructor
        · intro h
          refine ⟨h [] first log rfl, fun before record later heq => ?_⟩
          exact h (first :: before) record later (congrArg (first :: ·) heq)
        · rintro ⟨hfirst, hrest⟩ before record later heq
          cases before with
          | nil =>
              cases heq
              exact hfirst
          | cons _ before =>
              cases heq
              exact hrest before record later rfl
      rw [hsplit, typesOf_cons]
      by_cases hid : first.transactionId = id
      · rw [if_pos hid, AllSettle, commits_iff]
        simp [hid]
      · rw [if_neg hid]
        simp [hid]

/-! ## Tallies -/

/-- What is known after some records of an id: whether the latest execution has
data records that no COMMIT follows yet, and whether an earlier one had. -/
structure Tally where
  unsettled : Bool
  lost : Bool
deriving DecidableEq, Repr

namespace Tally

def start : Tally := ⟨false, false⟩

def next (t : Tally) : LogType → Tally
  | .begin => ⟨false, t.lost || t.unsettled⟩
  | .insert | .update | .delete => ⟨true, t.lost⟩
  | .commit => ⟨false, t.lost⟩
  | .abort | .checkpoint => t

/-- Some data records have no COMMIT. -/
def Unsettled (t : Tally) : Prop := t.unsettled = true ∨ t.lost = true

theorem lost_begin (t : Tally) : (t.next .begin).lost = true ↔ t.Unsettled := by
  simp [next, Unsettled, or_comm]

theorem unsettled_begin (t : Tally) : (t.next .begin).Unsettled ↔ t.Unsettled := by
  simp [next, Unsettled, or_comm]

theorem unsettled_commit (t : Tally) : (t.next .commit).Unsettled ↔ t.lost = true := by
  simp [next, Unsettled]

theorem unsettled_update (t : Tally) : (t.next .update).Unsettled := Or.inl rfl

end Tally

/-- The tally of the types of records. -/
def tally (types : List LogType) : Tally := types.foldl Tally.next .start

theorem tally_append_singleton (types : List LogType) (type : LogType) :
    tally (types ++ [type]) = (tally types).next type := List.foldl_concat _ _ _ _

theorem unsettled_foldl (types : List LogType) (t : Tally) :
    (types.foldl Tally.next t).Unsettled ↔
      ¬ (t.lost = false ∧ (t.unsettled = true → Settles types) ∧ AllSettle types) := by
  induction types generalizing t with
  | nil =>
      obtain ⟨unsettled, lost⟩ := t
      cases unsettled <;> cases lost <;> simp [Tally.Unsettled, Settles, AllSettle]
  | cons type types ih =>
      rw [List.foldl_cons, ih, AllSettle, settles_cons]
      obtain ⟨unsettled, lost⟩ := t
      cases type <;> cases unsettled <;> cases lost <;>
        simp [Tally.next, isDataModificationType]

/-- No data record is left without a COMMIT exactly when all of them settle. -/
theorem unsettled_tally (types : List LogType) : (tally types).Unsettled ↔ ¬ AllSettle types := by
  rw [tally, unsettled_foldl]
  simp [Tally.start]

/-! ## What recovery makes of executions -/

namespace RecoveryManager

/-- Recovery is right about executions when, for every id with a COMMIT, all its
data records settle and its last execution is over. -/
theorem redoesCommitted_iff (rm : RecoveryManager) (clock : List Int) (log : List LogRecord) :
    ((rm.onLog log).performRecovery clock).1.RedoesCommitted log ↔
      ∀ id, .commit ∈ typesOf log id → ¬ (tally (typesOf log id)).Unsettled ∧
        (typesOf log id).foldl LogType.opens false = false := by
  constructor
  · intro h id hcommit
    rw [unsettled_tally, not_not, allSettle_iff]
    refine ⟨fun before record later heq hid hdata => ?_, ?_⟩
    · have hmem : record ∈ log := heq ▸ List.mem_append_right before List.mem_cons_self
      rw [← hid] at hcommit ⊢
      refine h.redo before record later heq ?_
      rw [performRecovery_redo, List.mem_filter, hdata, Bool.and_true]
      exact ⟨hmem, decide_eq_true (committedIn_iff.mpr hcommit)⟩
    · have hmem := (rm.performRecovery_committed clock log id).mpr (committedIn_iff.mpr hcommit)
      have hnot := h.disjoint id hmem
      rw [performRecovery_incomplete, leftOpen_iff, Bool.not_eq_true] at hnot
      exact hnot
  · intro h
    constructor
    case redo =>
      intro before record later heq hmem
      rw [performRecovery_redo, List.mem_filter, Bool.and_eq_true, decide_eq_true_eq] at hmem
      obtain ⟨_, hcommit, hdata⟩ := hmem
      have hsettle := (h record.transactionId (committedIn_iff.mp hcommit)).1
      rw [unsettled_tally, not_not, allSettle_iff] at hsettle
      exact hsettle before record later heq rfl hdata
    case disjoint =>
      intro id hmem hopen
      rw [performRecovery_committed, committedIn_iff] at hmem
      rw [performRecovery_incomplete, leftOpen_iff, (h id hmem).2] at hopen
      cases hopen

end RecoveryManager

end TxnEngine
