import TxnEngine.Library.Decimal
import TxnEngine.Recovery.LogManager
import TxnEngine.Utils.Text

/-!
# The text of a log record

`LogRecord` as `recovery/LogRecord.cpp` writes and reads it.  A record is one
line of three fields, separated by commas.  Reading splits a line at its commas
and each piece at its first `=`; a later field overrides an earlier one, unknown
fields are skipped, and a line without all three fields is no record.  The
conversions of the standard library throw where they find no number or one out
of range, and nothing in `fromString` catches that.

A record whose fields fit their types is read back (`fromString_toString`).
-/

namespace TxnEngine

open Decimal

/-- `std::stoll`. -/
def stoll (value : List Char) : Except ConversionError Int :=
  match readInt value with
  | none => .error .invalidArgument
  | some n => if -2 ^ 63 ≤ n ∧ n < 2 ^ 63 then .ok n else .error .outOfRange

/-- `std::stoul`, which accepts a sign and negates modulo `2 ^ 64`. -/
def stoul (value : List Char) : Except ConversionError Nat :=
  match readInt value with
  | none => .error .invalidArgument
  | some n => if n.natAbs < 2 ^ 64 then .ok (n % 2 ^ 64).toNat else .error .outOfRange

namespace LogRecord

def logTypeToString : LogType → List Char
  | .begin => ['B', 'E', 'G', 'I', 'N']
  | .insert => ['I', 'N', 'S', 'E', 'R', 'T']
  | .update => ['U', 'P', 'D', 'A', 'T', 'E']
  | .delete => ['D', 'E', 'L', 'E', 'T', 'E']
  | .commit => ['C', 'O', 'M', 'M', 'I', 'T']
  | .abort => ['A', 'B', 'O', 'R', 'T']
  | .checkpoint => ['C', 'H', 'E', 'C', 'K', 'P', 'O', 'I', 'N', 'T']

def stringToLogType (value : List Char) : Option LogType :=
  if value = ['B', 'E', 'G', 'I', 'N'] then some .begin
  else if value = ['I', 'N', 'S', 'E', 'R', 'T'] then some .insert
  else if value = ['U', 'P', 'D', 'A', 'T', 'E'] then some .update
  else if value = ['D', 'E', 'L', 'E', 'T', 'E'] then some .delete
  else if value = ['C', 'O', 'M', 'M', 'I', 'T'] then some .commit
  else if value = ['A', 'B', 'O', 'R', 'T'] then some .abort
  else if value = ['C', 'H', 'E', 'C', 'K', 'P', 'O', 'I', 'N', 'T'] then some .checkpoint
  else none

/-- The keys of the three fields. -/
def timestampKey : List Char := ['t', 'i', 'm', 'e', 's', 't', 'a', 'm', 'p']

def txnKey : List Char := ['t', 'x', 'n']

def typeKey : List Char := ['t', 'y', 'p', 'e']

/-- The decimal text of a `uint32_t`. -/
def printNat (n : Nat) : List Char := Nat.toDigits 10 n

/-- `timestamp=` and the timestamp. -/
def timestampField (timestamp : Int) : List Char := timestampKey ++ '=' :: printInt timestamp

/-- `txn=` and the id. -/
def txnField (txnId : Nat) : List Char := txnKey ++ '=' :: printNat txnId

/-- `type=` and the name of the type. -/
def typeField (t : LogType) : List Char := typeKey ++ '=' :: logTypeToString t

/-- The three fields, with commas between them. -/
def toString (r : LogRecord) : List Char :=
  timestampField r.timestamp ++ ',' :: (txnField r.transactionId ++ ',' :: typeField r.logType)

/-- The fields found so far, each with its `has_` flag. -/
structure Fields where
  timestamp : Option Int
  txnId : Option Nat
  logType : Option LogType
deriving DecidableEq, Repr

/-- The key and the value of a segment, cut at the first `=`. -/
def splitSegment (segment : List Char) : Option (List Char × List Char) :=
  match segment.dropWhile fun c => c ≠ '=' with
  | [] => none
  | _ :: value => some (segment.takeWhile fun c => c ≠ '=', value)

/-- The body of the loop of `fromString`. -/
def readSegment (fields : Fields) (segment : List Char) : Except ConversionError Fields :=
  match splitSegment segment with
  | none => .ok fields
  | some (key, value) =>
      if key = timestampKey then
        (stoll value).map fun timestamp => { fields with timestamp := some timestamp }
      else if key = txnKey then
        (stoul value).map fun n => { fields with txnId := some (n % 2 ^ 32) }
      else if key = typeKey then .ok { fields with logType := stringToLogType value }
      else .ok fields

/-- The loop of `fromString`. -/
def readSegments : List (List Char) → Fields → Except ConversionError Fields
  | [], fields => .ok fields
  | segment :: rest, fields =>
      match readSegment fields segment with
      | .error e => .error e
      | .ok fields' => readSegments rest fields'

/-- A record, once all three fields are there. -/
def Fields.record : Fields → Option LogRecord
  | ⟨some timestamp, some txnId, some logType⟩ => some ⟨txnId, logType, timestamp⟩
  | _ => none

def fromString (serialized : List Char) : Except ConversionError (Option LogRecord) :=
  (readSegments (getlines ',' serialized) ⟨none, none, none⟩).map Fields.record

/-- The fields of a record fit the types that hold them. -/
structure Fits (r : LogRecord) : Prop where
  id_lt : r.transactionId < 2 ^ 32
  le_timestamp : -2 ^ 63 ≤ r.timestamp
  timestamp_lt : r.timestamp < 2 ^ 63

instance (r : LogRecord) : Decidable r.Fits :=
  decidable_of_iff (r.transactionId < 2 ^ 32 ∧ -2 ^ 63 ≤ r.timestamp ∧ r.timestamp < 2 ^ 63)
    ⟨fun ⟨hid, hle, hlt⟩ => ⟨hid, hle, hlt⟩, fun h => ⟨h.id_lt, h.le_timestamp, h.timestamp_lt⟩⟩

/-! ## Conversions -/

theorem stoll_of_readInt {value : List Char} {n : Int} (h : readInt value = some n)
    (hle : -2 ^ 63 ≤ n) (hlt : n < 2 ^ 63) : stoll value = .ok n := by
  rw [stoll, h]
  exact if_pos ⟨hle, hlt⟩

theorem stoul_of_readInt {value : List Char} {n : Nat} (h : readInt value = some (n : Int))
    (hlt : n < 2 ^ 64) : stoul value = .ok n := by
  rw [stoul, h]
  have hmod : ((n : Int) % 2 ^ 64).toNat = n := by omega
  simp only [Int.natAbs_natCast, if_pos hlt, hmod]

theorem readInt_printNat (n : Nat) : readInt (printNat n) = some (n : Int) :=
  readInt_printInt_self n

/-! ## Type names -/

theorem stringToLogType_logTypeToString (t : LogType) :
    stringToLogType (logTypeToString t) = some t := by
  cases t <;> rfl

/-- No type name begins another. -/
theorem logTypeToString_of_isPrefix {t t' : LogType}
    (h : logTypeToString t <+: logTypeToString t') : t = t' := by
  revert h
  cases t <;> cases t' <;> decide

theorem stringToLogType_eq_some {value : List Char} {t : LogType}
    (h : stringToLogType value = some t) : value = logTypeToString t := by
  rw [stringToLogType] at h
  split_ifs at h <;> cases h <;> assumption

/-- A type name cut short is no type name. -/
theorem stringToLogType_of_isPrefix {value : List Char} {t : LogType}
    (h : value <+: logTypeToString t) (hne : value ≠ logTypeToString t) :
    stringToLogType value = none := by
  cases hread : stringToLogType value with
  | none => rfl
  | some t' =>
      have hvalue := stringToLogType_eq_some hread
      rw [hvalue] at h hne
      exact absurd (congrArg logTypeToString (logTypeToString_of_isPrefix h)) hne

/-! ## Segments -/

theorem splitSegment_of_not_mem {segment : List Char} (h : '=' ∉ segment) :
    splitSegment segment = none := by
  have hdrop : (segment.dropWhile fun c => c ≠ '=') = [] := by
    rw [List.dropWhile_eq_nil_iff]
    intro c hc
    exact decide_eq_true fun heq => h (heq ▸ hc)
  rw [splitSegment, hdrop]

theorem splitSegment_append_cons {key : List Char} (h : '=' ∉ key) (value : List Char) :
    splitSegment (key ++ '=' :: value) = some (key, value) := by
  have hkey : ∀ c ∈ key, decide (c ≠ '=') = true :=
    fun c hc => decide_eq_true fun heq => h (heq ▸ hc)
  rw [splitSegment, List.dropWhile_append_of_pos hkey, List.takeWhile_append_of_pos hkey]
  simp

/-- A segment without a value is skipped. -/
theorem readSegment_of_not_mem (fields : Fields) {segment : List Char} (h : '=' ∉ segment) :
    readSegment fields segment = .ok fields := by
  rw [readSegment, splitSegment_of_not_mem h]

/-- A segment with an unknown key is skipped. -/
theorem readSegment_unknown (fields : Fields) {key : List Char} (h : '=' ∉ key)
    (hts : key ≠ timestampKey) (htxn : key ≠ txnKey) (htype : key ≠ typeKey)
    (value : List Char) : readSegment fields (key ++ '=' :: value) = .ok fields := by
  rw [readSegment, splitSegment_append_cons h]
  simp only [if_neg hts, if_neg htxn, if_neg htype]

theorem readSegment_timestamp (fields : Fields) (value : List Char) :
    readSegment fields (timestampKey ++ '=' :: value)
      = (stoll value).map fun timestamp => { fields with timestamp := some timestamp } := by
  rw [readSegment, splitSegment_append_cons (by decide)]
  rfl

theorem readSegment_txn (fields : Fields) (value : List Char) :
    readSegment fields (txnKey ++ '=' :: value)
      = (stoul value).map fun n => { fields with txnId := some (n % 2 ^ 32) } := by
  rw [readSegment, splitSegment_append_cons (by decide)]
  rfl

theorem readSegment_type (fields : Fields) (value : List Char) :
    readSegment fields (typeKey ++ '=' :: value)
      = .ok { fields with logType := stringToLogType value } := by
  rw [readSegment, splitSegment_append_cons (by decide)]
  rfl

/-! ## Round trip -/

variable {r : LogRecord}

theorem readSegment_timestampField (fields : Fields) (h : r.Fits) :
    readSegment fields (timestampField r.timestamp)
      = .ok { fields with timestamp := some r.timestamp } := by
  have hread := readInt_printInt_self r.timestamp
  rw [timestampField, readSegment_timestamp, stoll_of_readInt hread h.le_timestamp h.timestamp_lt]
  rfl

theorem readSegment_txnField (fields : Fields) (h : r.Fits) :
    readSegment fields (txnField r.transactionId)
      = .ok { fields with txnId := some r.transactionId } := by
  have hid := h.id_lt
  have hread := readInt_printNat r.transactionId
  have hmod : r.transactionId % 2 ^ 32 = r.transactionId := Nat.mod_eq_of_lt hid
  rw [txnField, readSegment_txn, stoul_of_readInt hread (by omega), Except.map, hmod]

theorem readSegment_typeField (fields : Fields) (t : LogType) :
    readSegment fields (typeField t) = .ok { fields with logType := some t } := by
  rw [typeField, readSegment_type, stringToLogType_logTypeToString]

/-- The last two segments of a record, whatever was read before. -/
theorem readSegments_txn_type (fields : Fields) (h : r.Fits) :
    readSegments [txnField r.transactionId, typeField r.logType] fields
      = .ok ⟨fields.timestamp, some r.transactionId, some r.logType⟩ := by
  rw [readSegments, readSegment_txnField fields h]
  simp only [readSegments, readSegment_typeField]

/-! ## Separators -/

theorem not_mem_printInt {c : Char} (hdigit : c.isDigit = false) (hminus : c ≠ '-') (n : Int) :
    c ∉ printInt n := by
  intro h
  rcases mem_printInt h with heq | hc
  · exact hminus heq
  · rw [hdigit] at hc
    cases hc

theorem not_mem_printNat {c : Char} (hdigit : c.isDigit = false) (n : Nat) : c ∉ printNat n := by
  intro h
  rw [isDigit_of_mem_toDigits h] at hdigit
  cases hdigit

theorem comma_not_mem_timestampField (timestamp : Int) : ',' ∉ timestampField timestamp := by
  have hnum := not_mem_printInt (c := ',') rfl (by decide) timestamp
  simp [timestampField, timestampKey, hnum]

theorem comma_not_mem_txnField (txnId : Nat) : ',' ∉ txnField txnId := by
  have hnum := not_mem_printNat (c := ',') rfl txnId
  simp [txnField, txnKey, hnum]

theorem comma_not_mem_typeField (t : LogType) : ',' ∉ typeField t := by
  cases t <;> decide

/-- No line of a record is broken. -/
theorem newline_not_mem_toString (r : LogRecord) : '\n' ∉ r.toString := by
  have hts := not_mem_printInt (c := '\n') rfl (by decide) r.timestamp
  have htxn := not_mem_printNat (c := '\n') rfl r.transactionId
  have htype : '\n' ∉ logTypeToString r.logType := by
    cases r.logType <;> decide
  simp [toString, timestampField, txnField, typeField, timestampKey, txnKey, typeKey, hts, htxn,
    htype]

theorem toString_ne_nil (r : LogRecord) : r.toString ≠ [] := List.cons_ne_nil _ _

theorem typeField_ne_nil (t : LogType) : typeField t ≠ [] := List.cons_ne_nil _ _

/-- The segments of a line that ends in the last two fields of a record. -/
theorem getlines_txn_type (txnId : Nat) (t : LogType) :
    getlines ',' (txnField txnId ++ ',' :: typeField t) = [txnField txnId, typeField t] := by
  rw [getlines_append_cons (comma_not_mem_txnField txnId),
    getlines_of_not_mem (comma_not_mem_typeField t) (typeField_ne_nil t)]

/-- A record is read back. -/
theorem fromString_toString (h : r.Fits) : fromString r.toString = .ok (some r) := by
  rw [fromString, toString, getlines_append_cons (comma_not_mem_timestampField _),
    getlines_txn_type, readSegments, readSegment_timestampField _ h]
  simp only [readSegments_txn_type _ h]
  rfl

end LogRecord

end TxnEngine
