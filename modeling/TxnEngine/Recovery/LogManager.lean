import Mathlib.Data.List.Basic

/-!
# The log

The records of `recovery/LogRecord.h` and the log file of
`recovery/LogManager.cpp`, as a list of records.  A record that `writeLog` puts
into the stream is in the file once the stream is flushed.  The text of the file
is not modelled here: reading gives back the records that were flushed.
-/

namespace TxnEngine

/-- The types of a log record. -/
inductive LogType where
  | begin
  | insert
  | update
  | delete
  | commit
  | abort
  | checkpoint
deriving DecidableEq, Repr

/-- A log record.  The timestamp is what `time(nullptr)` gave when the record was
made. -/
structure LogRecord where
  transactionId : Nat
  logType : LogType
  timestamp : Int
deriving DecidableEq, Repr

/-- The log file and what its stream has not written out yet. -/
structure LogManager where
  logFile : List LogRecord
  unflushed : List LogRecord

namespace LogManager

/-- A log manager opened on a file. -/
def openOn (logFile : List LogRecord) : LogManager := ⟨logFile, []⟩

def writeLog (lm : LogManager) (record : LogRecord) : LogManager :=
  { lm with unflushed := lm.unflushed ++ [record] }

def flushLogs (lm : LogManager) : LogManager :=
  ⟨lm.logFile ++ lm.unflushed, []⟩

def readLogs (lm : LogManager) : List LogRecord := lm.logFile

/-- Everything written so far, flushed or not. -/
def written (lm : LogManager) : List LogRecord := lm.logFile ++ lm.unflushed

@[simp] theorem written_openOn (logFile : List LogRecord) :
    (openOn logFile).written = logFile :=
  List.append_nil logFile

@[simp] theorem written_writeLog (lm : LogManager) (record : LogRecord) :
    (lm.writeLog record).written = lm.written ++ [record] :=
  (List.append_assoc _ _ _).symm

@[simp] theorem written_flushLogs (lm : LogManager) : lm.flushLogs.written = lm.written :=
  List.append_nil _

/-- After a flush, reading gives everything written. -/
@[simp] theorem readLogs_flushLogs (lm : LogManager) : lm.flushLogs.readLogs = lm.written := rfl

/-- The loop of writes. -/
theorem foldl_writeLog (records : List LogRecord) (lm : LogManager) :
    records.foldl writeLog lm = ⟨lm.logFile, lm.unflushed ++ records⟩ := by
  induction records generalizing lm with
  | nil => simp
  | cons record records ih => simp [ih, writeLog]

end LogManager

end TxnEngine
