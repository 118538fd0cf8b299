import TxnEngine.Library.Decimal
import TxnEngine.Utils.Text
import TxnEngine.Utils.Enums
import Std.Data.ExtTreeMap

/-!
# Records and the data store

`storage/Record.cpp` and `storage/DataStore.cpp`, and the two conversions of
`main.cpp` between an `int` and the payload of a record.  A record also carries
two timestamps, which nothing in the engine reads.

`setData` and `std::stoi` can throw.  The engine only stores payloads that
`intToBytes` made.  `IntStore` is a data store of such payloads, and its
operations never throw (`setData_intToBytes`, `IntStore.bytesToInt_getRecord`).
-/

namespace TxnEngine

open Std

/-- A record of the data store. -/
structure Record where
  recordId : Nat
  data : List UInt8
deriving DecidableEq, Repr

/-! ## Payloads -/

/-- `std::vector<uint8_t>(text.begin(), text.end())`. -/
def textToBytes (text : List Char) : List UInt8 := text.map fun c => c.toNat.toUInt8

/-- `std::string(data.begin(), data.end())`. -/
def bytesToText (data : List UInt8) : List Char := data.map fun b => Char.ofNat b.toNat

def stoi (text : List Char) : Except ConversionError Int32 :=
  match Decimal.readInt text with
  | none => .error .invalidArgument
  | some n => if -2 ^ 31 ≤ n ∧ n < 2 ^ 31 then .ok (Int32.ofInt n) else .error .outOfRange

def intToBytes (value : Int32) : List UInt8 := textToBytes (Decimal.printInt value.toInt)

def bytesToInt (data : List UInt8) : Except ConversionError Int32 :=
  if data.isEmpty then .ok 0 else stoi (bytesToText data)

/-- Text of one-byte characters survives the conversion to bytes. -/
theorem bytesToText_textToBytes {text : List Char} (h : ∀ c ∈ text, c.toNat < 256) :
    bytesToText (textToBytes text) = text := by
  rw [bytesToText, textToBytes, List.map_map]
  refine (List.map_congr_left fun c hc => ?_).trans (List.map_id text)
  have hmod : c.toNat % 256 = c.toNat := Nat.mod_eq_of_lt (h c hc)
  simp [hmod]

theorem toNat_lt_of_isDigit {c : Char} (h : c.isDigit = true) : c.toNat < 256 := by
  simp only [Char.isDigit, Bool.and_eq_true, decide_eq_true_eq] at h
  have hle : c.toNat ≤ 57 := h.2
  omega

/-- Every value survives its payload. -/
theorem bytesToInt_intToBytes (value : Int32) : bytesToInt (intToBytes value) = .ok value := by
  have htext : ∀ c ∈ Decimal.printInt value.toInt, c.toNat < 256 := by
    intro c hc
    rcases Decimal.mem_printInt hc with rfl | hd
    · decide
    · exact toNat_lt_of_isDigit hd
  have hread : Decimal.readInt (Decimal.printInt value.toInt) = some value.toInt := by
    have hend : Decimal.NoDigit [] := by simp [Decimal.NoDigit]
    have h := Decimal.readInt_printInt value.toInt hend
    rwa [List.append_nil] at h
  have hne : (intToBytes value).isEmpty = false := by
    cases htext : Decimal.printInt value.toInt with
    | nil =>
        rw [htext] at hread
        cases hread
    | cons c text => simp [intToBytes, textToBytes, htext]
  have hrange : -2 ^ 31 ≤ value.toInt ∧ value.toInt < 2 ^ 31 :=
    ⟨Int32.le_toInt value, Int32.toInt_lt value⟩
  rw [bytesToInt, hne, if_neg (by simp), intToBytes, bytesToText_textToBytes htext, stoi, hread]
  dsimp only
  rw [if_pos hrange, Int32.ofInt_toInt]

/-- A payload has at most eleven bytes. -/
theorem length_intToBytes_le (value : Int32) : (intToBytes value).length ≤ 11 := by
  have hlow := Int32.le_toInt value
  have hhigh := Int32.toInt_lt value
  have habs : value.toInt.natAbs < 10 ^ 10 := by omega
  rw [intToBytes, textToBytes, List.length_map]
  exact Decimal.length_printInt_le (by decide) habs

/-! ## Records -/

namespace Record

def new (recordId : Nat) : Record := ⟨recordId, []⟩

/-- Replace the payload, or throw `std::invalid_argument` with its message. -/
def setData (record : Record) (data : List UInt8) : Except String Record :=
  if data.length > maxRecordSize then
    .error ("Data size (" ++ toString data.length ++ " bytes) exceeds MAX_RECORD_SIZE (" ++
      toString maxRecordSize ++ " bytes)")
  else .ok { record with data := data }

theorem setData_intToBytes (record : Record) (value : Int32) :
    record.setData (intToBytes value) = .ok { record with data := intToBytes value } := by
  have hle := length_intToBytes_le value
  rw [setData, if_neg]
  rw [maxRecordSize]
  omega

end Record

/-! ## The data store -/

structure DataStore where
  records : ExtTreeMap Nat Record

namespace DataStore

def empty : DataStore := ⟨∅⟩

def insertRecord (store : DataStore) (record : Record) : Bool × DataStore :=
  if record.recordId ∈ store.records then (false, store)
  else (true, ⟨store.records.insert record.recordId record⟩)

def getRecord (store : DataStore) (recordId : Nat) : Option Record := store.records[recordId]?

/-- Replace the payload of a record.  The exception is that of `setData`. -/
def updateRecord (store : DataStore) (recordId : Nat) (data : List UInt8) :
    Except String (Bool × DataStore) :=
  match store.records[recordId]? with
  | none => .ok (false, store)
  | some record =>
      match record.setData data with
      | .error message => .error message
      | .ok record => .ok (true, ⟨store.records.insert recordId record⟩)

theorem getRecord_insertRecord (store : DataStore) (record : Record) (id : Nat) :
    (store.insertRecord record).2.getRecord id =
      if record.recordId = id then some ((store.getRecord id).getD record)
      else store.getRecord id := by
  rw [insertRecord, getRecord, getRecord]
  by_cases hid : record.recordId = id
  · subst hid
    by_cases hmem : record.recordId ∈ store.records
    · rw [if_pos hmem, if_pos rfl]
      obtain ⟨old, hold⟩ := Option.isSome_iff_exists.mp
        (ExtTreeMap.isSome_getElem?_iff_mem.mpr hmem)
      simp [hold]
    · rw [if_neg hmem, if_pos rfl, ExtTreeMap.getElem?_eq_none hmem]
      simp
  · rw [if_neg hid]
    split
    · rfl
    · simp [ExtTreeMap.getElem?_insert, hid]

end DataStore

/-! ## Stores of integers -/

/-- A data store whose payloads are integers. -/
structure IntStore where
  store : DataStore
  decodes : ∀ id record, store.getRecord id = some record →
    ∃ value, record.data = intToBytes value

namespace IntStore

def empty : IntStore := ⟨.empty, by simp [DataStore.empty, DataStore.getRecord]⟩

/-- `bytesToInt(record->getData())` of a record that exists. -/
def valueAt (s : IntStore) (id : Nat) : Option Int32 :=
  (s.store.getRecord id).bind fun record => (bytesToInt record.data).toOption

/-- `bytesToInt` never throws on a record of an integer store. -/
theorem bytesToInt_getRecord (s : IntStore) {id : Nat} {record : Record}
    (h : s.store.getRecord id = some record) :
    ∃ value, bytesToInt record.data = .ok value ∧ s.valueAt id = some value := by
  obtain ⟨value, hdata⟩ := s.decodes id record h
  have hread : bytesToInt record.data = .ok value := by rw [hdata, bytesToInt_intToBytes]
  refine ⟨value, hread, ?_⟩
  rw [valueAt, h, Option.bind_some, hread]
  rfl

theorem valueAt_eq_none_iff (s : IntStore) (id : Nat) :
    s.valueAt id = none ↔ s.store.getRecord id = none := by
  constructor
  · intro h
    cases hget : s.store.getRecord id with
    | none => rfl
    | some record =>
        obtain ⟨value, _, hvalue⟩ := s.bytesToInt_getRecord hget
        rw [hvalue] at h
        cases h
  · intro h
    rw [valueAt, h]
    rfl

/-- Make a record, set its payload and insert it. -/
def insertInt (s : IntStore) (id : Nat) (value : Int32) : IntStore where
  store :=
    match (Record.new id).setData (intToBytes value) with
    | .error _ => s.store
    | .ok record => (s.store.insertRecord record).2
  decodes := by
    intro id' record' h
    rw [Record.setData_intToBytes] at h
    dsimp only at h
    rw [DataStore.getRecord_insertRecord] at h
    split at h
    · cases hget : s.store.getRecord id' with
      | none =>
          rw [hget] at h
          cases h
          exact ⟨value, rfl⟩
      | some old =>
          rw [hget] at h
          cases h
          exact s.decodes id' old hget
    · exact s.decodes id' record' h

/-- `updateRecord(id, intToBytes(value))`. -/
def updateInt (s : IntStore) (id : Nat) (value : Int32) : IntStore where
  store :=
    match s.store.updateRecord id (intToBytes value) with
    | .error _ => s.store
    | .ok (_, store) => store
  decodes := by
    intro id' record' h
    cases hget : s.store.records[id]? with
    | none =>
        rw [DataStore.updateRecord, hget] at h
        exact s.decodes id' record' h
    | some record =>
        rw [DataStore.updateRecord, hget] at h
        dsimp only at h
        rw [Record.setData_intToBytes] at h
        dsimp only [DataStore.getRecord] at h
        rw [ExtTreeMap.getElem?_insert] at h
        split at h
        · cases h
          exact ⟨value, rfl⟩
        · exact s.decodes id' record' h

@[simp] theorem valueAt_empty (id : Nat) : empty.valueAt id = none :=
  (valueAt_eq_none_iff empty id).mpr (by simp [empty, DataStore.empty, DataStore.getRecord])

theorem store_insertInt (s : IntStore) (id : Nat) (value : Int32) :
    (s.insertInt id value).store = (s.store.insertRecord ⟨id, intToBytes value⟩).2 := by
  show (match (Record.new id).setData (intToBytes value) with
    | .error _ => s.store
    | .ok record => (s.store.insertRecord record).2) = _
  rw [Record.setData_intToBytes]
  rfl

theorem store_updateInt (s : IntStore) (id : Nat) (value : Int32) :
    (s.updateInt id value).store =
      match s.store.getRecord id with
      | none => s.store
      | some record => ⟨s.store.records.insert id { record with data := intToBytes value }⟩ := by
  show (match s.store.updateRecord id (intToBytes value) with
    | .error _ => s.store
    | .ok (_, store) => store) = _
  rw [DataStore.updateRecord, DataStore.getRecord]
  cases s.store.records[id]? with
  | none => rfl
  | some record =>
      dsimp only
      rw [Record.setData_intToBytes]

/-- An insertion sets the value of a new record and leaves an old one alone. -/
theorem valueAt_insertInt (s : IntStore) (id id' : Nat) (value : Int32) :
    (s.insertInt id value).valueAt id' =
      if id = id' then some ((s.valueAt id').getD value) else s.valueAt id' := by
  rw [valueAt, store_insertInt, DataStore.getRecord_insertRecord]
  split
  · cases hget : s.store.getRecord id' with
    | none => simp [valueAt, hget, bytesToInt_intToBytes, Except.toOption]
    | some old =>
        obtain ⟨value', hread, hvalue⟩ := s.bytesToInt_getRecord hget
        simp [hvalue, hread, Except.toOption]
  · rfl

/-- An update sets the value of a record that exists. -/
theorem valueAt_updateInt (s : IntStore) (id id' : Nat) (value : Int32) :
    (s.updateInt id value).valueAt id' =
      if id = id' then (s.valueAt id').map fun _ => value else s.valueAt id' := by
  rw [valueAt, store_updateInt]
  cases hget : s.store.getRecord id with
  | none =>
      show s.valueAt id' = _
      by_cases hid : id = id'
      · subst hid
        rw [if_pos rfl, (s.valueAt_eq_none_iff id).mpr hget]
        rfl
      · rw [if_neg hid]
  | some record =>
      obtain ⟨old, _, hvalue⟩ := s.bytesToInt_getRecord hget
      rw [DataStore.getRecord, ExtTreeMap.getElem?_insert]
      by_cases hid : id = id'
      · subst hid
        simp [hvalue, bytesToInt_intToBytes, Except.toOption]
      · rw [if_neg (by simpa [Std.compare_eq_iff_eq] using hid), if_neg hid]
        rfl

end IntStore

end TxnEngine
