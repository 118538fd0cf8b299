import TxnEngine.Recovery.LogText

/-!
# The fields of a line

What `fromString` makes of any line.  The loop over the segments throws where a
timestamp or an id does not convert, and otherwise the last segment of each key
decides (`readSegments_eq_ok_iff`).  So the order of the fields does not matter
and other segments do not either (`fromString_shuffled`).

The conversions skip leading white space, accept signs and ignore what follows
the digits, and the id is cut to 32 bits.  The numbers of a record are the
numerals in its line exactly if the line has digits only there, after a minus sign
of the timestamp at most, and an id that fits (`undamaged_iff`).
-/

namespace TxnEngine

open Decimal

namespace LogRecord

/-! ## Keys and values -/

/-- The values of a key, in their order. -/
def valuesOf (key : List Char) (segments : List (List Char)) : List (List Char) :=
  segments.filterMap fun segment =>
    (splitSegment segment).bind fun field => if field.1 = key then some field.2 else none

/-- The text after the equals sign of the last segment with a key. -/
def lastValue (key line : List Char) : Option (List Char) :=
  (valuesOf key (getlines ',' line)).getLast?

/-- The numbers of the segments convert. -/
def Converts (segments : List (List Char)) : Prop :=
  (∀ value ∈ valuesOf timestampKey segments, ∃ n, stoll value = .ok n) ∧
    ∀ value ∈ valuesOf txnKey segments, ∃ n, stoul value = .ok n

/-- The fields after some segments: what the last value of each key says. -/
def lastFields (segments : List (List Char)) (fields : Fields) : Fields where
  timestamp := (valuesOf timestampKey segments).getLast?.elim fields.timestamp
    fun value => (stoll value).toOption
  txnId := (valuesOf txnKey segments).getLast?.elim fields.txnId
    fun value => (stoul value).toOption.map (· % 2 ^ 32)
  logType := (valuesOf typeKey segments).getLast?.elim fields.logType stringToLogType

variable {segment : List Char} {segments : List (List Char)} {fields fields' : Fields}

theorem valuesOf_append (key : List Char) (segments rest : List (List Char)) :
    valuesOf key (segments ++ rest) = valuesOf key segments ++ valuesOf key rest :=
  List.filterMap_append

theorem valuesOf_cons (key segment : List Char) (segments : List (List Char)) :
    valuesOf key (segment :: segments) = valuesOf key [segment] ++ valuesOf key segments :=
  valuesOf_append key [segment] segments

theorem valuesOf_field {k : List Char} (h : '=' ∉ k) (key value : List Char) :
    valuesOf key [k ++ '=' :: value] = if k = key then [value] else [] := by
  rw [valuesOf, List.filterMap_cons, splitSegment_append_cons h, Option.bind_some]
  split <;> simp_all

theorem valuesOf_of_not_mem (h : '=' ∉ segment) (key : List Char) :
    valuesOf key [segment] = [] := by
  rw [valuesOf, List.filterMap_cons, splitSegment_of_not_mem h]
  rfl

/-- A segment without a key, or with a key of no field. -/
def Foreign (segment : List Char) : Prop :=
  '=' ∉ segment ∨ ∃ key value, segment = key ++ '=' :: value ∧ '=' ∉ key ∧
    key ≠ timestampKey ∧ key ≠ txnKey ∧ key ≠ typeKey

theorem Foreign.valuesOf_eq (h : Foreign segment) {key : List Char}
    (hkey : key ∈ [timestampKey, txnKey, typeKey]) : valuesOf key [segment] = [] := by
  rcases h with hnone | ⟨k, value, rfl, hk, hts, htxn, htype⟩
  · exact valuesOf_of_not_mem hnone key
  · rw [valuesOf_field hk, if_neg]
    rintro rfl
    simp [hts, htxn, htype] at hkey

theorem Foreign.readSegment_eq (h : Foreign segment) (fields : Fields) :
    readSegment fields segment = .ok fields := by
  rcases h with hnone | ⟨key, value, rfl, hkey, hts, htxn, htype⟩
  · exact readSegment_of_not_mem fields hnone
  · exact readSegment_unknown fields hkey hts htxn htype value

/-- A segment says nothing, or it is the value of a field. -/
theorem segment_cases (segment : List Char) :
    Foreign segment ∨ ∃ key ∈ [timestampKey, txnKey, typeKey], ∃ value,
      segment = key ++ '=' :: value := by
  by_cases hmem : '=' ∈ segment
  · obtain ⟨key, value, rfl, hkey⟩ := List.eq_append_cons_of_mem hmem
    by_cases hin : key ∈ [timestampKey, txnKey, typeKey]
    · exact Or.inr ⟨key, hin, value, rfl⟩
    · refine Or.inl (Or.inr ⟨key, value, rfl, hkey, ?_⟩)
      simpa using hin
  · exact Or.inl (Or.inl hmem)

/-! ## The loop -/

/-- One segment is read, if its number converts. -/
theorem readSegment_eq_ok_iff : readSegment fields segment = .ok fields' ↔
    Converts [segment] ∧ fields' = lastFields [segment] fields := by
  rcases segment_cases segment with hforeign | ⟨key, hkey, value, rfl⟩
  · rw [hforeign.readSegment_eq, Converts, lastFields, hforeign.valuesOf_eq (by simp),
      hforeign.valuesOf_eq (by simp), hforeign.valuesOf_eq (by simp), Except.ok.injEq]
    exact ⟨fun h => ⟨⟨nofun, nofun⟩, h.symm⟩, fun h => h.2.symm⟩
  · have hnone : '=' ∉ key := by
      revert hkey key
      decide
    rw [Converts, lastFields, valuesOf_field hnone, valuesOf_field hnone, valuesOf_field hnone]
    simp only [List.mem_cons, List.not_mem_nil, or_false] at hkey
    rcases hkey with rfl | rfl | rfl
    · rw [readSegment_timestamp, if_pos rfl, if_neg (by decide), if_neg (by decide)]
      cases hread : stoll value <;> simp [hread, Except.map, Except.toOption, eq_comm]
    · rw [readSegment_txn, if_pos rfl, if_neg (by decide), if_neg (by decide)]
      cases hread : stoul value <;> simp [hread, Except.map, Except.toOption, eq_comm]
    · rw [readSegment_type, if_pos rfl, if_neg (by decide), if_neg (by decide)]
      simp [eq_comm]

theorem converts_cons :
    Converts (segment :: segments) ↔ Converts [segment] ∧ Converts segments := by
  rw [Converts, Converts, Converts, valuesOf_cons timestampKey segment segments,
    valuesOf_cons txnKey segment segments, List.forall_mem_append, List.forall_mem_append]
  exact and_and_and_comm

theorem lastFields_cons : lastFields (segment :: segments) fields =
    lastFields segments (lastFields [segment] fields) := by
  have hlast : ∀ {α : Type} (first rest : List (List Char)) (start : α) (f : List Char → α),
      (first ++ rest).getLast?.elim start f =
        rest.getLast?.elim (first.getLast?.elim start f) f := by
    intro α first rest start f
    rw [List.getLast?_append]
    cases rest.getLast? <;> rfl
  rw [lastFields, lastFields, lastFields]
  simp only [valuesOf_cons _ segment segments, hlast]

/-- The loop reads the segments if their numbers convert, and the last segment of
each key decides. -/
theorem readSegments_eq_ok_iff : readSegments segments fields = .ok fields' ↔
    Converts segments ∧ fields' = lastFields segments fields := by
  induction segments generalizing fields with
  | nil => simp [readSegments, Converts, lastFields, valuesOf, eq_comm]
  | cons segment segments ih =>
      rw [converts_cons, lastFields_cons, readSegments]
      cases hread : readSegment fields segment with
      | error e =>
          have hnot : ¬ Converts [segment] := by
            intro hconverts
            have hok : readSegment fields segment = .ok (lastFields [segment] fields) :=
              readSegment_eq_ok_iff.mpr ⟨hconverts, rfl⟩
            rw [hread] at hok
            cases hok
          simp [hnot]
      | ok next =>
          obtain ⟨hconverts, rfl⟩ := readSegment_eq_ok_iff.mp hread
          rw [and_iff_right hconverts]
          exact ih

theorem record_eq_some_iff {r : LogRecord} : fields.record = some r ↔
    fields = ⟨some r.timestamp, some r.transactionId, some r.logType⟩ := by
  obtain ⟨timestamp, txnId, logType⟩ := fields
  obtain ⟨id, type, time⟩ := r
  cases timestamp <;> cases txnId <;> cases logType <;>
    simp [Fields.record, and_comm, and_left_comm]

/-- What `fromString` returns, and when. -/
theorem fromString_eq_some_iff {line : List Char} {r : LogRecord} :
    fromString line = .ok (some r) ↔ Converts (getlines ',' line) ∧
      lastFields (getlines ',' line) ⟨none, none, none⟩ =
        ⟨some r.timestamp, some r.transactionId, some r.logType⟩ := by
  have hiff : fromString line = .ok (some r) ↔
      readSegments (getlines ',' line) ⟨none, none, none⟩ =
        .ok ⟨some r.timestamp, some r.transactionId, some r.logType⟩ := by
    rw [fromString]
    cases readSegments (getlines ',' line) ⟨none, none, none⟩ with
    | error e => exact iff_of_false (by simp [Except.map]) (by simp)
    | ok fields => simp [Except.map, record_eq_some_iff]
  rw [hiff, readSegments_eq_ok_iff]
  exact and_congr_right fun _ => eq_comm

/-! ## Numbers -/

theorem stoll_eq_ok_iff {value : List Char} {n : Int} :
    stoll value = .ok n ↔ readInt value = some n ∧ -2 ^ 63 ≤ n ∧ n < 2 ^ 63 := by
  rw [stoll]
  cases readInt value with
  | none => exact iff_of_false (by simp) (by simp)
  | some m =>
      dsimp only
      split <;> grind

/-- Digits are converted to the number they say, or refused. -/
theorem stoul_of_digits {value : List Char} (hdigits : ∀ c ∈ value, c.isDigit = true) {n : Nat}
    (h : stoul value = .ok n) : IsNumeral value n := by
  rw [stoul] at h
  cases hread : readInt value with
  | none =>
      rw [hread] at h
      cases h
  | some m =>
      obtain ⟨k, hk, rfl⟩ := (readInt_eq_some_iff hdigits).mp hread
      rw [hread] at h
      dsimp only at h
      split at h
      · next hlt =>
          have hn : ((k : Int) % 2 ^ 64).toNat = k := by omega
          rw [hn] at h
          cases h
          exact hk
      · cases h

/-- The numbers of a record are the conversions of the last values, the id cut to its type. -/
theorem numbers_of_fromString {line : List Char} {r : LogRecord}
    (h : fromString line = .ok (some r)) :
    (∃ value, lastValue timestampKey line = some value ∧ stoll value = .ok r.timestamp) ∧
      ∃ value n, lastValue txnKey line = some value ∧ stoul value = .ok n ∧
        r.transactionId = n % 2 ^ 32 := by
  obtain ⟨-, hfields⟩ := fromString_eq_some_iff.mp h
  have htimestamp : (lastValue timestampKey line).elim none (fun value => (stoll value).toOption) =
      some r.timestamp := congrArg Fields.timestamp hfields
  have hid : (lastValue txnKey line).elim none
      (fun value => (stoul value).toOption.map (· % 2 ^ 32)) = some r.transactionId :=
    congrArg Fields.txnId hfields
  constructor
  · cases hvalue : lastValue timestampKey line with
    | none =>
        rw [hvalue] at htimestamp
        cases htimestamp
    | some value =>
        rw [hvalue, Option.elim_some] at htimestamp
        cases hread : stoll value with
        | error e =>
            rw [hread] at htimestamp
            cases htimestamp
        | ok n =>
            rw [hread] at htimestamp
            cases htimestamp
            exact ⟨value, rfl, hread⟩
  · cases hvalue : lastValue txnKey line with
    | none =>
        rw [hvalue] at hid
        cases hid
    | some value =>
        rw [hvalue, Option.elim_some] at hid
        cases hread : stoul value with
        | error e =>
            rw [hread] at hid
            cases hid
        | ok n =>
            rw [hread] at hid
            exact ⟨value, n, rfl, hread, (Option.some.inj hid).symm⟩

/-- The id and the timestamp of the record are the numerals that the line has last. -/
structure Undamaged (line : List Char) (r : LogRecord) : Prop where
  txn : ∃ value, lastValue txnKey line = some value ∧ IsNumeral value r.transactionId ∧
    r.transactionId < 2 ^ 32
  timestamp : ∃ value, lastValue timestampKey line = some value ∧
    IsSignedNumeral value r.timestamp ∧ -2 ^ 63 ≤ r.timestamp ∧ r.timestamp < 2 ^ 63

/-- The last id is all digits and below `2 ^ 32`, the last timestamp all digits after a
minus sign at most. -/
def CleanNumbers (line : List Char) : Prop :=
  (∀ value ∈ lastValue txnKey line,
    (∀ c ∈ value, c.isDigit = true) ∧ Nat.ofDigitChars 10 value 0 < 2 ^ 32) ∧
    ∀ value ∈ lastValue timestampKey line, ∀ c ∈ unsigned value, c.isDigit = true

/-- The numbers of an accepted line are those written in it exactly if they are clean.
Otherwise the conversions skip or ignore something, or the cast does. -/
theorem undamaged_iff {line : List Char} {r : LogRecord} (h : fromString line = .ok (some r)) :
    Undamaged line r ↔ CleanNumbers line := by
  constructor
  · intro hundamaged
    obtain ⟨id, hid, hnumeral, hlt⟩ := hundamaged.txn
    obtain ⟨time, htime, hsigned, -⟩ := hundamaged.timestamp
    refine ⟨?_, ?_⟩
    · intro value hvalue
      cases hid.symm.trans hvalue
      exact ⟨hnumeral.digits, hnumeral.value ▸ hlt⟩
    · intro value hvalue
      cases htime.symm.trans hvalue
      exact hsigned.digits
  · rintro ⟨hids, htimes⟩
    obtain ⟨⟨time, htime, hstoll⟩, id, n, hid, hstoul, hcast⟩ := numbers_of_fromString h
    obtain ⟨hdigits, hlt⟩ := hids id hid
    have hnumeral := stoul_of_digits hdigits hstoul
    rw [hnumeral.value] at hlt
    -- the cast loses nothing
    rw [Nat.mod_eq_of_lt hlt] at hcast
    obtain ⟨hread, hle, hbelow⟩ := stoll_eq_ok_iff.mp hstoll
    have hsigned := isSignedNumeral_of_readInt (htimes time htime) hread
    exact ⟨⟨id, hid, hcast ▸ hnumeral, hcast ▸ hlt⟩, ⟨time, htime, hsigned, hle, hbelow⟩⟩

/-- A line as `toString` writes it. -/
theorem undamaged_seven :
    Undamaged ([','].intercalate [timestampField (-5), txnField 7, typeField .commit])
      ⟨7, .commit, -5⟩ := by
  refine (undamaged_iff (by decide)).mpr ⟨?_, ?_⟩
  · intro id hid
    obtain rfl : id = ['7'] := Option.some.inj (hid.symm.trans (by decide))
    have hseven : Nat.ofDigitChars 10 ['7'] 0 = 7 := rfl
    exact ⟨List.forall_mem_singleton.mpr rfl, by omega⟩
  · intro time htime
    obtain rfl : time = ['-', '5'] := Option.some.inj (htime.symm.trans (by decide))
    have hdigits : unsigned ['-', '5'] = ['5'] := rfl
    exact hdigits ▸ List.forall_mem_singleton.mpr rfl

/-- A COMMIT of `7x` is taken for one of transaction 7. -/
theorem damaged_seven : ¬ ∀ line r, fromString line = .ok (some r) → Undamaged line r := by
  intro h
  have hundamaged := h
    ([','].intercalate [timestampField 5, txnKey ++ ['=', '7', 'x'], typeField .commit])
    ⟨7, .commit, 5⟩ (by decide)
  obtain ⟨value, hvalue, hnumeral, -⟩ := hundamaged.txn
  have hvalue' : value = ['7', 'x'] := Option.some.inj (hvalue.symm.trans (by decide))
  exact absurd (hnumeral.digits 'x' (by simp [hvalue'])) (by decide)

/-! ## Fields in any order -/

/-- The fields of a record, in the order of `toString`. -/
def toFields (r : LogRecord) : List (List Char) :=
  [timestampField r.timestamp, txnField r.transactionId, typeField r.logType]

theorem toString_eq (r : LogRecord) : r.toString = [','].intercalate r.toFields := by
  simp [toString, toFields, List.intercalate_cons_cons]

/-- Segments with commas between them are the segments again.  Only an empty one at
the end is lost, which says nothing. -/
theorem readSegments_intercalate (hcomma : ∀ segment ∈ segments, ',' ∉ segment) :
    readSegments (getlines ',' ([','].intercalate segments)) fields =
      readSegments segments fields := by
  induction segments generalizing fields with
  | nil => rfl
  | cons segment segments ih =>
      rw [List.forall_mem_cons] at hcomma
      cases segments with
      | nil =>
          rw [List.intercalate_singleton]
          by_cases hnil : segment = []
          · rw [hnil, readSegments, readSegment_of_not_mem fields List.not_mem_nil]
            rfl
          · rw [getlines_of_not_mem hcomma.1 hnil]
      | cons next segments =>
          rw [List.intercalate_cons_cons, List.append_assoc, List.singleton_append,
            getlines_append_cons hcomma.1, readSegments, readSegments]
          cases readSegment fields segment with
          | error e => rfl
          | ok fields' => exact ih hcomma.2

theorem valuesOf_foreign {key : List Char} (hkey : key ∈ [timestampKey, txnKey, typeKey])
    (hforeign : ∀ segment ∈ segments, Foreign segment) : valuesOf key segments = [] := by
  induction segments with
  | nil => rfl
  | cons segment segments ih =>
      rw [List.forall_mem_cons] at hforeign
      rw [valuesOf_cons, hforeign.1.valuesOf_eq hkey, ih hforeign.2]
      rfl

/-- Each key has its value, in any order and among any foreign segments. -/
theorem valuesOf_shuffled {r : LogRecord} {foreign : List (List Char)}
    (hforeign : ∀ segment ∈ foreign, Foreign segment)
    (hperm : segments.Perm (r.toFields ++ foreign)) :
    valuesOf timestampKey segments = [printInt r.timestamp] ∧
      valuesOf txnKey segments = [printNat r.transactionId] ∧
      valuesOf typeKey segments = [logTypeToString r.logType] := by
  have hvalues : ∀ key ∈ [timestampKey, txnKey, typeKey],
      (valuesOf key segments).Perm (valuesOf key r.toFields) := by
    intro key hkey
    have hall := hperm.filterMap fun segment =>
      (splitSegment segment).bind fun field => if field.1 = key then some field.2 else none
    rw [← valuesOf, ← valuesOf, valuesOf_append, valuesOf_foreign hkey hforeign,
      List.append_nil] at hall
    exact hall
  have hfields : ∀ key, valuesOf key r.toFields =
      (if timestampKey = key then [printInt r.timestamp] else []) ++
        ((if txnKey = key then [printNat r.transactionId] else []) ++
          if typeKey = key then [logTypeToString r.logType] else []) := by
    intro key
    rw [toFields, valuesOf_cons, valuesOf_cons key (txnField _), timestampField, txnField,
      typeField, valuesOf_field (k := timestampKey) (by decide),
      valuesOf_field (k := txnKey) (by decide), valuesOf_field (k := typeKey) (by decide)]
  refine ⟨?_, ?_, ?_⟩
  · exact List.perm_singleton.mp ((hvalues timestampKey (by simp)).trans (.of_eq (hfields _)))
  · exact List.perm_singleton.mp ((hvalues txnKey (by simp)).trans (.of_eq (hfields _)))
  · exact List.perm_singleton.mp ((hvalues typeKey (by simp)).trans (.of_eq (hfields _)))

/-- The fields of a record in any order, among any foreign segments, are read as the
record.  What `toString` writes is the case without a foreign segment. -/
theorem fromString_shuffled {r : LogRecord} (h : r.Fits) {segments foreign : List (List Char)}
    (hcomma : ∀ segment ∈ foreign, ',' ∉ segment) (hforeign : ∀ segment ∈ foreign, Foreign segment)
    (hperm : segments.Perm (r.toFields ++ foreign)) :
    r.toString = [','].intercalate r.toFields ∧
      fromString ([','].intercalate segments) = .ok (some r) := by
  refine ⟨r.toString_eq, ?_⟩
  have hsegments : ∀ segment ∈ segments, ',' ∉ segment := by
    intro segment hmem
    rcases List.mem_append.mp (hperm.mem_iff.mp hmem) with hfield | hother
    · simp only [toFields, List.mem_cons, List.not_mem_nil, or_false] at hfield
      rcases hfield with rfl | rfl | rfl
      · exact comma_not_mem_timestampField _
      · exact comma_not_mem_txnField _
      · exact comma_not_mem_typeField _
    · exact hcomma segment hother
  have hts : stoll (printInt r.timestamp) = .ok r.timestamp :=
    stoll_of_readInt (readInt_printInt_self _) h.le_timestamp h.timestamp_lt
  have htxn : stoul (printNat r.transactionId) = .ok r.transactionId :=
    stoul_of_readInt (readInt_printNat _) (h.id_lt.trans (by decide))
  obtain ⟨hvalues, hids, htypes⟩ := valuesOf_shuffled hforeign hperm
  have hread : readSegments segments ⟨none, none, none⟩ =
      .ok ⟨some r.timestamp, some r.transactionId, some r.logType⟩ := by
    refine readSegments_eq_ok_iff.mpr ⟨?_, ?_⟩
    · rw [Converts, hvalues, hids, List.forall_mem_singleton, List.forall_mem_singleton]
      exact ⟨⟨_, hts⟩, ⟨_, htxn⟩⟩
    · have hmod : r.transactionId % 2 ^ 32 = r.transactionId := Nat.mod_eq_of_lt h.id_lt
      rw [lastFields, hvalues, hids, htypes]
      simp only [List.getLast?_singleton, Option.elim_some, hts, htxn, Except.toOption,
        Option.map_some, hmod, stringToLogType_logTypeToString]
  rw [fromString, readSegments_intercalate hsegments, hread]
  rfl

/-- A line with its fields in another order, a version and an empty segment among them. -/
theorem fromString_shuffled_version :
    fromString ([','].intercalate [['v', '=', '2'], typeField .abort, [], txnField 7,
      timestampField (-5)]) = .ok (some ⟨7, .abort, -5⟩) := by
  refine (@fromString_shuffled ⟨7, .abort, -5⟩ (by decide) _ [['v', '=', '2'], []] (by decide) ?_
    (by decide)).2
  rw [List.forall_mem_cons, List.forall_mem_singleton]
  exact ⟨Or.inr ⟨['v'], ['2'], rfl, by decide⟩, Or.inl List.not_mem_nil⟩

end LogRecord

end TxnEngine
