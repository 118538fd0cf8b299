import TxnEngine.Recovery.LogText

/-!
# The log file

`LogManager` as `recovery/LogManager.cpp` computes it, down to the text of the
file.  A write goes to the buffer of the stream.  The stream may write out the
front of its buffer whenever it likes (`writeOut`), and has written out all of it
after a flush.

On a file whose last line is ended, the file is an append-only list of records
(`LogFile.append_only`).  The log managers of the other modules, which hold records, are
the log files that their text makes (`LogManager.text`).
-/

namespace TxnEngine

open LineLog LogRecord

/-- The loop of `readLogs` over the lines of the file. -/
def readLines : List (List Char) → Except ConversionError (List LogRecord)
  | [] => .ok []
  | line :: rest =>
      if line.isEmpty then readLines rest
      else
        match fromString line with
        | .error e => .error e
        | .ok record => (readLines rest).map fun records => record.toList ++ records

/-- What `readLogs` makes of the text of a file. -/
def readText (s : List Char) : Except ConversionError (List LogRecord) :=
  readLines (getlines '\n' s)

/-- The text that `writeLog` writes for a list of records. -/
abbrev logText (records : List LogRecord) : List Char := text '\n' LogRecord.toString records

/-- The text in the file, and the text that the stream has not written out. -/
structure LogFile where
  file : List Char
  buffer : List Char

namespace LogFile

/-- Opened for appending. -/
def openOn (file : List Char) : LogFile := ⟨file, []⟩

/-- A null record is not written. -/
def writeLog (lf : LogFile) : Option LogRecord → LogFile
  | none => lf
  | some record => { lf with buffer := lf.buffer ++ record.toString ++ ['\n'] }

def readLogs (lf : LogFile) : Except ConversionError (List LogRecord) := readText lf.file

def flushLogs (lf : LogFile) : LogFile := ⟨lf.file ++ lf.buffer, []⟩

/-- The stream is closed, which flushes it, the file is truncated and the stream is
opened again. -/
def clearLogs (_ : LogFile) : LogFile := ⟨[], []⟩

/-- The stream writes out some of its buffer. -/
def writeOut (lf : LogFile) (n : Nat) : LogFile :=
  ⟨lf.file ++ lf.buffer.take n, lf.buffer.drop n⟩

/-- The text written so far, flushed or not. -/
def written (lf : LogFile) : List Char := lf.file ++ lf.buffer

@[simp] theorem written_openOn (file : List Char) : (openOn file).written = file :=
  List.append_nil file

@[simp] theorem written_writeLog (lf : LogFile) (record : LogRecord) :
    (lf.writeLog (some record)).written = lf.written ++ (record.toString ++ ['\n']) := by
  simp only [written, writeLog, List.append_assoc]

@[simp] theorem written_flushLogs (lf : LogFile) : lf.flushLogs.written = lf.written :=
  List.append_nil _

@[simp] theorem written_writeOut (lf : LogFile) (n : Nat) :
    (lf.writeOut n).written = lf.written := by
  simp only [written, writeOut, List.append_assoc, List.take_append_drop]

/-- A list of records, written one after the other. -/
def writeAll (lf : LogFile) (records : List LogRecord) : LogFile :=
  records.foldl (fun lf record => lf.writeLog (some record)) lf

theorem written_writeAll (lf : LogFile) (records : List LogRecord) :
    (lf.writeAll records).written = lf.written ++ logText records := by
  induction records generalizing lf with
  | nil => simp [writeAll]
  | cons record records ih =>
      rw [writeAll, List.foldl_cons, ← writeAll, ih, written_writeLog]
      simp

/-- After a flush, `readLogs` reads everything written. -/
theorem readLogs_flushLogs (lf : LogFile) : lf.flushLogs.readLogs = readText lf.written := rfl

end LogFile

/-! ## Reading line by line -/

theorem readLines_cons {line : List Char} (hne : line ≠ []) (lines : List (List Char)) :
    readLines (line :: lines) =
      match fromString line with
      | .error e => .error e
      | .ok record => (readLines lines).map fun records => record.toList ++ records := by
  cases line with
  | nil => exact absurd rfl hne
  | cons c line => rfl

theorem readLines_append (lines lines' : List (List Char)) :
    readLines (lines ++ lines') =
      match readLines lines with
      | .error e => .error e
      | .ok records => (readLines lines').map fun records' => records ++ records' := by
  induction lines with
  | nil =>
      simp only [List.nil_append, readLines]
      cases readLines lines' with
      | error e => rfl
      | ok records => rfl
  | cons line lines ih =>
      rw [List.cons_append, readLines, readLines]
      split
      · exact ih
      · cases fromString line with
        | error e => rfl
        | ok record =>
            simp only [ih]
            cases readLines lines with
            | error e => rfl
            | ok records =>
                cases readLines lines' with
                | error e => rfl
                | ok records' => simp only [Except.map, List.append_assoc]

/-- The lines of records are read back. -/
theorem readLines_records {records : List LogRecord} (h : ∀ r ∈ records, r.Fits) :
    readLines (records.map LogRecord.toString) = .ok records := by
  induction records with
  | nil => rfl
  | cons r rs ih =>
      have hr : r.Fits := h r List.mem_cons_self
      have hrs : ∀ r ∈ rs, r.Fits := fun x hx => h x (List.mem_cons_of_mem r hx)
      rw [List.map_cons, readLines_cons (toString_ne_nil r), fromString_toString hr]
      simp only [ih hrs, Except.map, Option.toList_some, List.singleton_append]

/-- What follows the lines of records is read on its own. -/
theorem readText_logText_append {records : List LogRecord} (h : ∀ r ∈ records, r.Fits)
    (rest : List Char) :
    readText (logText records ++ rest)
      = (readText rest).map fun records' => records ++ records' := by
  rw [readText, getlines_text newline_not_mem_toString, readLines_append, readLines_records h]
  rfl

theorem readText_logText {records : List LogRecord} (h : ∀ r ∈ records, r.Fits) :
    readText (logText records) = .ok records := by
  have hread := readText_logText_append h []
  rw [List.append_nil] at hread
  rw [hread]
  simp [readText, getlines, readLines, Except.map]

/-- A line appended to ended lines is read after them. -/
theorem readText_closed_append {s : List Char} {records records' : List LogRecord}
    (hs : Closed '\n' s) (hread : readText s = .ok records)
    (hfits : ∀ r ∈ records', r.Fits) :
    readText (s ++ logText records') = .ok (records ++ records') := by
  have hread' := readText_logText hfits
  rw [readText] at hread hread' ⊢
  rw [getlines_closed hs, readLines_append, hread, hread']
  rfl

/-! ## An append-only list -/

/-- A call on the log file, or the stream writing out on its own. -/
inductive LogOp where
  | writeLog (record : Option LogRecord)
  | flushLogs
  | clearLogs
  | writeOut (n : Nat)
deriving DecidableEq, Repr

def LogFile.step (lf : LogFile) : LogOp → LogFile
  | .writeLog record => lf.writeLog record
  | .flushLogs => lf.flushLogs
  | .clearLogs => lf.clearLogs
  | .writeOut n => lf.writeOut n

/-- What a call does to the list of records. -/
def LogOp.append (records : List LogRecord) : LogOp → List LogRecord
  | .writeLog record => records ++ record.toList
  | .clearLogs => []
  | _ => records

/-- A record that the call writes fits its types. -/
def LogOp.Fits : LogOp → Prop
  | .writeLog record => ∀ r ∈ record, r.Fits
  | _ => True

instance : ∀ op : LogOp, Decidable op.Fits
  | .writeLog record => inferInstanceAs (Decidable (∀ r ∈ record, r.Fits))
  | .flushLogs | .clearLogs | .writeOut _ => inferInstanceAs (Decidable True)

/-- The text written so far ends its last line and reads as the records. -/
structure LogFile.Holds (lf : LogFile) (records : List LogRecord) : Prop where
  closed : Closed '\n' lf.written
  reads : readText lf.written = .ok records

theorem LogFile.Holds.congr {lf lf' : LogFile} {records : List LogRecord} (h : lf.Holds records)
    (hwritten : lf'.written = lf.written) : lf'.Holds records := by
  constructor
  · rw [hwritten]
    exact h.closed
  · rw [hwritten]
    exact h.reads

theorem LogFile.Holds.step {lf : LogFile} {records : List LogRecord} (h : lf.Holds records)
    {op : LogOp} (hfits : op.Fits) : (lf.step op).Holds (op.append records) := by
  cases op with
  | writeLog record =>
      cases record with
      | none =>
          rw [LogOp.append, Option.toList_none, List.append_nil]
          exact h
      | some r =>
          have hr : ∀ x ∈ [r], x.Fits := fun x hx => List.mem_singleton.mp hx ▸ hfits r rfl
          have hline : logText [r] = r.toString ++ ['\n'] := by simp
          constructor
          · rw [LogFile.step, LogFile.written_writeLog, ← hline]
            exact h.closed.append (closed_text [r])
          · rw [LogFile.step, LogFile.written_writeLog, ← hline, LogOp.append, Option.toList_some]
            exact readText_closed_append h.closed h.reads hr
  | flushLogs => exact h.congr lf.written_flushLogs
  | clearLogs => exact ⟨closed_nil, rfl⟩
  | writeOut n => exact h.congr (lf.written_writeOut n)

theorem LogFile.Holds.foldl {lf : LogFile} {records : List LogRecord} (h : lf.Holds records)
    {ops : List LogOp} (hfits : ∀ op ∈ ops, op.Fits) :
    (ops.foldl LogFile.step lf).Holds (ops.foldl LogOp.append records) := by
  induction ops generalizing lf records with
  | nil => exact h
  | cons op ops ih =>
      obtain ⟨hop, hops⟩ := List.forall_mem_cons.mp hfits
      exact ih (h.step hop) hops

/-- The log file is an append-only list: opened on a file whose last line is ended
and which reads as `P`, after any calls and a flush it reads as the records
written since the last `clearLogs`, after `P` when there was none. -/
theorem LogFile.append_only {s : List Char} {P : List LogRecord} (hclosed : Closed '\n' s)
    (hread : readText s = .ok P) {ops : List LogOp} (hfits : ∀ op ∈ ops, op.Fits) :
    (ops.foldl LogFile.step (.openOn s)).flushLogs.readLogs = .ok (ops.foldl LogOp.append P) := by
  have hopen : (LogFile.openOn s).Holds P := by
    constructor
    · rw [LogFile.written_openOn]
      exact hclosed
    · rw [LogFile.written_openOn]
      exact hread
  rw [LogFile.readLogs_flushLogs]
  exact (hopen.foldl hfits).reads

theorem LogFile.append_only_begun :
    (List.foldl LogFile.step (.openOn (logText [⟨1, .begin, 5⟩]))
      [.writeLog (some ⟨1, .commit, -7⟩), .writeLog none, .writeOut 4]).flushLogs.readLogs
      = .ok [⟨1, .begin, 5⟩, ⟨1, .commit, -7⟩] := by
  have hbegin : ∀ r ∈ [(⟨1, .begin, 5⟩ : LogRecord)], r.Fits := by decide
  exact LogFile.append_only (closed_text _) (readText_logText hbegin) (by decide)

/-! ## The log of records -/

namespace LogManager

/-- The log file that a log manager's records make. -/
def text (lm : LogManager) : LogFile := ⟨logText lm.logFile, logText lm.unflushed⟩

theorem text_openOn (logFile : List LogRecord) :
    (openOn logFile).text = .openOn (logText logFile) := rfl

theorem text_writeLog (lm : LogManager) (record : LogRecord) :
    (lm.writeLog record).text = lm.text.writeLog (some record) := by
  simp [text, writeLog, LogFile.writeLog]

theorem text_flushLogs (lm : LogManager) : lm.flushLogs.text = lm.text.flushLogs := by
  simp [text, flushLogs, LogFile.flushLogs]

/-- Reading the text gives back the records that were flushed. -/
theorem readLogs_text (lm : LogManager) (h : ∀ r ∈ lm.logFile, r.Fits) :
    lm.text.readLogs = .ok lm.readLogs := readText_logText h

end LogManager

end TxnEngine
