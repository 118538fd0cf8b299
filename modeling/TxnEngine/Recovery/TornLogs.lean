import TxnEngine.Recovery.LogFile

/-!
# Torn logs

A log file cut short at any byte, as a crash can leave it.  Its last line may be a
piece of a record's text, which breaks off in one of the three fields (`Cut`).

`readLogs` reads the records wholly within such a file, unless the piece breaks
off right where a number should start.  Then a conversion throws, and nothing
catches it (`torn_log_reads_iff`).

The first record appended to such a file lands on the piece.  Its own fields come
later in the line and override those of the piece, except that the last field of
the piece swallows its timestamp (`Cut.fromString_append`).  So the append is
lossless exactly when that timestamp survives or the piece has the same one
(`append_after_crash_iff`).
-/

namespace TxnEngine

open Decimal LineLog

namespace LogRecord

/-! ## The pieces of a record -/

/-- A piece of a record's text: the whole fields in front, the field it breaks off
in, and what reading the front gives. -/
inductive Cut (r : LogRecord) : List Char → List Char → Fields → Prop where
  | timestamp {u} : u <+: timestampField r.timestamp → Cut r [] u ⟨none, none, none⟩
  | txn {u} : u <+: txnField r.transactionId →
      Cut r (timestampField r.timestamp ++ [',']) u ⟨some r.timestamp, none, none⟩
  | type {u} : u <+: typeField r.logType →
      Cut r (timestampField r.timestamp ++ ',' :: (txnField r.transactionId ++ [','])) u
        ⟨some r.timestamp, some r.transactionId, none⟩

/-- The field a line breaks off in. -/
def lastField (line : List Char) : List Char := lastLine ',' line

variable {r : LogRecord} {front u : List Char} {f : Fields}

theorem cut_of_isPrefix {t : List Char} (h : t <+: r.toString) :
    ∃ front u f, t = front ++ u ∧ Cut r front u f := by
  rcases prefix_append_cons h with hts | ⟨w, rfl, hw⟩
  · exact ⟨[], t, _, rfl, .timestamp hts⟩
  · rcases prefix_append_cons hw with htxn | ⟨u, rfl, hu⟩
    · exact ⟨_, w, _, by simp, .txn htxn⟩
    · exact ⟨_, u, _, by simp, .type hu⟩

theorem Cut.comma_not_mem (h : Cut r front u f) : ',' ∉ u := by
  cases h with
  | timestamp hu => exact not_mem_of_isPrefix hu (comma_not_mem_timestampField _)
  | txn hu => exact not_mem_of_isPrefix hu (comma_not_mem_txnField _)
  | type hu => exact not_mem_of_isPrefix hu (comma_not_mem_typeField _)

theorem Cut.lastField_eq (h : Cut r front u f) : lastField (front ++ u) = u := by
  have hclosed : Closed ',' front := by
    cases h with
    | timestamp hu => exact closed_nil
    | txn hu => exact closed_concat _
    | type hu =>
        rw [← List.cons_append, ← List.append_assoc]
        exact closed_concat _
  exact lastLine_append hclosed h.comma_not_mem

/-- The fields in front are read, whatever follows. -/
theorem Cut.fromString_front (h : Cut r front u f) (hr : r.Fits) (w : List Char) :
    fromString (front ++ w) = (readSegments (getlines ',' w) f).map Fields.record := by
  cases h with
  | timestamp hu => rfl
  | txn hu =>
      rw [List.append_assoc, List.singleton_append, fromString,
        getlines_append_cons (comma_not_mem_timestampField _), readSegments,
        readSegment_timestampField _ hr]
  | type hu =>
      simp only [List.append_assoc, List.cons_append, List.nil_append]
      rw [fromString, getlines_append_cons (comma_not_mem_timestampField _),
        getlines_append_cons (comma_not_mem_txnField _), readSegments,
        readSegment_timestampField _ hr]
      simp only
      rw [readSegments, readSegment_txnField _ hr]

/-- The field at the end of a line. -/
theorem readSegments_last (hu : ',' ∉ u) (f : Fields) :
    readSegments (getlines ',' u) f = readSegment f u := by
  by_cases hnil : u = []
  · rw [hnil]
    rfl
  · rw [getlines_of_not_mem hu hnil, readSegments]
    cases readSegment f u with
    | error e => rfl
    | ok g => rfl

theorem Cut.fromString_eq (h : Cut r front u f) (hr : r.Fits) :
    fromString (front ++ u) = (readSegment f u).map Fields.record := by
  rw [h.fromString_front hr, readSegments_last h.comma_not_mem]

/-! ## Reading a piece -/

/-- The field breaks off where a number should start. -/
def BareNumber (u : List Char) : Prop :=
  u = timestampKey ++ ['='] ∨ u = timestampKey ++ ['=', '-'] ∨ u = txnKey ++ ['=']

instance (u : List Char) : Decidable (BareNumber u) := inferInstanceAs (Decidable (_ ∨ _ ∨ _))

theorem bareNumber_timestamp {v : List Char} :
    BareNumber (timestampKey ++ '=' :: v) ↔ v = [] ∨ v = ['-'] := by
  simp [BareNumber, timestampKey, txnKey]

theorem bareNumber_txn {v : List Char} : BareNumber (txnKey ++ '=' :: v) ↔ v = [] := by
  simp [BareNumber, timestampKey, txnKey]

theorem not_bareNumber_type (v : List Char) : ¬ BareNumber (typeKey ++ '=' :: v) := by
  simp [BareNumber, timestampKey, txnKey, typeKey]

theorem timestamp_ne_typeField (v : List Char) (t : LogType) :
    timestampKey ++ '=' :: v ≠ typeField t := by
  simp [typeField, timestampKey, typeKey]

theorem txn_ne_typeField (v : List Char) (t : LogType) : txnKey ++ '=' :: v ≠ typeField t := by
  simp [typeField, txnKey, typeKey]

theorem type_eq_typeField {v : List Char} {t : LogType} :
    typeKey ++ '=' :: v = typeField t ↔ v = logTypeToString t := by
  simp [typeField]

/-- A piece of a printed timestamp, in front of text that adds no digit. -/
theorem stoll_of_isPrefix {v rest : List Char} (hr : r.Fits) (hv : v <+: printInt r.timestamp)
    (hbare : ¬ (v = [] ∨ v = ['-'])) (hrest : NoDigit rest) :
    ∃ n, readInt v = some n ∧ stoll (v ++ rest) = .ok n := by
  obtain ⟨hne, hminus⟩ := not_or.mp hbare
  obtain ⟨n, hn, hbetween⟩ := readInt_of_isPrefix hv hne hminus
  have hle := hr.le_timestamp
  have hlt := hr.timestamp_lt
  exact ⟨n, hn, stoll_of_readInt (readInt_append hn hrest) (by omega) (by omega)⟩

/-- A piece of a printed id, in front of text that adds no digit. -/
theorem stoul_of_isPrefix {v rest : List Char} (hr : r.Fits) (hv : v <+: printNat r.transactionId)
    (hne : v ≠ []) (hrest : NoDigit rest) : ∃ n, stoul (v ++ rest) = .ok n := by
  obtain ⟨n, hn, hle⟩ := readNat_of_isPrefix hv hne
  have hid := hr.id_lt
  cases v with
  | nil => exact absurd rfl hne
  | cons c v =>
      have hc : c.isDigit = true := isDigit_of_mem_toDigits (hv.subset List.mem_cons_self)
      have hread : readInt (c :: v) = some (n : Int) := by rw [readInt_of_isDigit hc, hn]; rfl
      exact ⟨n, stoul_of_readInt (readInt_append hread hrest) (by omega)⟩

/-- A piece of a field is a piece of its key, or the key and a piece of its value. -/
theorem prefix_field {key value : List Char} (hkey : '=' ∉ key) (h : u <+: key ++ '=' :: value) :
    '=' ∉ u ∧ u <+: key ∨ ∃ v, u = key ++ '=' :: v ∧ v <+: value := by
  rcases prefix_append_cons h with hu | hv
  · exact .inl ⟨not_mem_of_isPrefix hu hkey, hu⟩
  · exact .inr hv

theorem BareNumber.eq_mem (h : BareNumber u) : '=' ∈ u := by
  rcases h with rfl | rfl | rfl
  · decide
  · decide
  · decide

theorem eq_mem_typeField (t : LogType) : '=' ∈ typeField t := by
  simp [typeField]

theorem Cut.toString_cut (r : LogRecord) :
    Cut r (timestampField r.timestamp ++ ',' :: (txnField r.transactionId ++ [',']))
      (typeField r.logType) ⟨some r.timestamp, some r.transactionId, none⟩ :=
  .type List.prefix_rfl

theorem lastField_toString (r : LogRecord) : lastField r.toString = typeField r.logType := by
  have hlast := (Cut.toString_cut r).lastField_eq
  rwa [List.append_assoc, List.cons_append, List.append_assoc, List.singleton_append] at hlast

/-- A piece that ends with a type breaks off in the last field. -/
theorem Cut.of_typeField {t : LogType} (h : Cut r front (typeField t) f) :
    t = r.logType ∧
      front = timestampField r.timestamp ++ ',' :: (txnField r.transactionId ++ [',']) := by
  cases h with
  | timestamp hu =>
      have hsecond := (List.cons_prefix_cons.mp (List.cons_prefix_cons.mp hu).2).1
      exact absurd hsecond (by decide)
  | txn hu =>
      have hsecond := (List.cons_prefix_cons.mp (List.cons_prefix_cons.mp hu).2).1
      exact absurd hsecond (by decide)
  | type hu =>
      rw [typeField, typeField, List.prefix_append_right_inj, List.cons_prefix_cons] at hu
      exact ⟨logTypeToString_of_isPrefix hu.2, rfl⟩

/-- A piece is the whole text when it ends with the whole type. -/
theorem Cut.whole_iff (h : Cut r front u f) :
    front ++ u = r.toString ↔ u = typeField r.logType := by
  constructor
  · intro hwhole
    rw [← h.lastField_eq, hwhole, lastField_toString]
  · rintro rfl
    rw [h.of_typeField.2, toString, List.append_assoc, List.cons_append, List.append_assoc,
      List.singleton_append]

/-- A field without a value is skipped, and a piece that ends in one is no record. -/
theorem Cut.readSegment_key (h : Cut r front u f) (hu : '=' ∉ u) :
    ¬ BareNumber u ∧ u ≠ typeField r.logType ∧ readSegment f u = .ok f ∧ f.record = none := by
  refine ⟨fun hbare => hu hbare.eq_mem, fun heq => hu (heq ▸ eq_mem_typeField _),
    readSegment_of_not_mem f hu, ?_⟩
  cases h with
  | timestamp _ => rfl
  | txn _ => rfl
  | type _ => rfl

/-- What the field at the end of a piece reads as: an error exactly when it breaks
off where a number should start, and a record exactly when the piece is whole. -/
theorem Cut.readSegment_cases (h : Cut r front u f) (hr : r.Fits) :
    BareNumber u ∧ readSegment f u = .error .invalidArgument ∨
      ¬ BareNumber u ∧ ∃ g, readSegment f u = .ok g ∧
        g.record = if u = typeField r.logType then some r else none := by
  by_cases hkey : '=' ∉ u
  · obtain ⟨hbare, hne, hread, hrecord⟩ := h.readSegment_key hkey
    exact .inr ⟨hbare, f, hread, by rw [if_neg hne, hrecord]⟩
  cases h with
  | timestamp hu =>
      obtain ⟨hno, -⟩ | ⟨v, rfl, hv⟩ := prefix_field (by decide) hu
      · exact absurd hno hkey
      rw [bareNumber_timestamp, readSegment_timestamp, if_neg (timestamp_ne_typeField v _)]
      by_cases hbare : v = [] ∨ v = ['-']
      · refine .inl ⟨hbare, ?_⟩
        rcases hbare with rfl | rfl
        · rfl
        · rfl
      · obtain ⟨n, -, hn⟩ := stoll_of_isPrefix hr hv hbare noDigit_nil
        rw [List.append_nil] at hn
        exact .inr ⟨hbare, _, by rw [hn]; rfl, rfl⟩
  | txn hu =>
      obtain ⟨hno, -⟩ | ⟨v, rfl, hv⟩ := prefix_field (by decide) hu
      · exact absurd hno hkey
      rw [bareNumber_txn, readSegment_txn, if_neg (txn_ne_typeField v _)]
      by_cases hnil : v = []
      · subst hnil
        exact .inl ⟨rfl, rfl⟩
      · obtain ⟨n, hn⟩ := stoul_of_isPrefix hr hv hnil noDigit_nil
        rw [List.append_nil] at hn
        exact .inr ⟨hnil, _, by rw [hn]; rfl, rfl⟩
  | type hu =>
      obtain ⟨hno, -⟩ | ⟨v, rfl, hv⟩ := prefix_field (by decide) hu
      · exact absurd hno hkey
      refine .inr ⟨not_bareNumber_type v, _, readSegment_type _ v, ?_⟩
      simp only [type_eq_typeField]
      split
      · next hwhole =>
          rw [hwhole, stringToLogType_logTypeToString]
          rfl
      · next hpiece =>
          rw [stringToLogType_of_isPrefix hv hpiece]
          rfl

theorem Cut.fromString_cases (h : Cut r front u f) (hr : r.Fits) :
    BareNumber u ∧ fromString (front ++ u) = .error .invalidArgument ∨
      ¬ BareNumber u ∧
        fromString (front ++ u) = .ok (if front ++ u = r.toString then some r else none) := by
  rw [h.fromString_eq hr]
  simp only [h.whole_iff]
  obtain ⟨hbare, hread⟩ | ⟨hbare, g, hread, hrecord⟩ := h.readSegment_cases hr
  · exact .inl ⟨hbare, by rw [hread]; rfl⟩
  · exact .inr ⟨hbare, by rw [hread, Except.map, hrecord]⟩

/-! ## A record appended to a piece -/

/-- The timestamp at the front of a line. -/
def lineTimestamp (line : List Char) : Option Int :=
  if timestampKey ++ ['='] <+: line then readInt (line.drop 10) else none

theorem lineTimestamp_eq (v : List Char) :
    lineTimestamp (timestampKey ++ '=' :: v) = readInt v := by
  have hstart : timestampKey ++ ['='] <+: timestampKey ++ '=' :: v := ⟨v, by simp⟩
  rw [lineTimestamp, if_pos hstart]
  rfl

/-- A key with a piece of text before it is no key. -/
theorem append_timestampKey_unknown (hne : u ≠ []) :
    u ++ timestampKey ≠ timestampKey ∧ u ++ timestampKey ≠ txnKey ∧
      u ++ timestampKey ≠ typeKey := by
  have hpos := List.length_pos_of_ne_nil hne
  refine ⟨?_, ?_, ?_⟩
  · intro h
    have hlength := congrArg List.length h
    rw [List.length_append] at hlength
    omega
  · intro h
    have hlength := congrArg List.length h
    rw [List.length_append, show timestampKey.length = 9 from rfl,
      show txnKey.length = 3 from rfl] at hlength
    omega
  · intro h
    have hlength := congrArg List.length h
    rw [List.length_append, show timestampKey.length = 9 from rfl,
      show typeKey.length = 4 from rfl] at hlength
    omega

variable {next : LogRecord}

/-- The line that a record appended to a piece makes: the last field of the piece
runs into its timestamp, and its other two fields override. -/
theorem Cut.fromString_next (h : Cut r front u f) (hr : r.Fits) (hnext : next.Fits) :
    fromString (front ++ u ++ next.toString)
      = (readSegment f (u ++ timestampField next.timestamp)).map fun g =>
          Fields.record ⟨g.timestamp, some next.transactionId, some next.logType⟩ := by
  have hcomma : ',' ∉ u ++ timestampField next.timestamp :=
    List.not_mem_append h.comma_not_mem (comma_not_mem_timestampField _)
  rw [toString, List.append_assoc, ← List.append_assoc u, h.fromString_front hr,
    getlines_append_cons hcomma, getlines_txn_type, readSegments]
  cases readSegment f (u ++ timestampField next.timestamp) with
  | error e => rfl
  | ok g => simp only [readSegments_txn_type g hnext]; rfl

/-- The key of the next timestamp, run into a key cut short, is unknown. -/
theorem readSegment_key_append (hkey : '=' ∉ u) (hne : u ≠ []) (f : Fields) (timestamp : Int) :
    readSegment f (u ++ timestampField timestamp) = .ok f := by
  obtain ⟨hts, htxn, htype⟩ := append_timestampKey_unknown hne
  have heq : '=' ∉ u ++ timestampKey := List.not_mem_append hkey (by decide)
  rw [timestampField, ← List.append_assoc, readSegment_unknown f heq hts htxn htype]

theorem noDigit_timestampField (timestamp : Int) : NoDigit (timestampField timestamp) := by
  intro c hc
  cases hc
  rfl

/-- What the field at the end of a piece reads as once the next timestamp has run
into it. -/
theorem Cut.readSegment_append (h : Cut r front u f) (hr : r.Fits) (hbare : ¬ BareNumber u)
    (hne : u ≠ []) (timestamp : Int) :
    ∃ g, readSegment f (u ++ timestampField timestamp) = .ok g ∧
      g.timestamp = lineTimestamp (front ++ u) := by
  have hfront : ∀ rest, lineTimestamp (timestampField r.timestamp ++ ',' :: rest)
      = some r.timestamp := by
    intro rest
    rw [timestampField, List.append_assoc, List.cons_append, lineTimestamp_eq]
    exact readInt_printInt r.timestamp (fun c hc => by cases hc; rfl)
  cases h with
  | timestamp hu =>
      obtain ⟨hkey, -⟩ | ⟨v, rfl, hv⟩ := prefix_field (by decide) hu
      · refine ⟨_, readSegment_key_append hkey hne _ timestamp, ?_⟩
        rw [List.nil_append, lineTimestamp, if_neg]
        exact fun hstart => hkey (hstart.subset (by decide))
      · obtain ⟨n, hn, hread⟩ := stoll_of_isPrefix hr hv (mt bareNumber_timestamp.mpr hbare)
          (noDigit_timestampField timestamp)
        rw [List.append_assoc, List.cons_append, readSegment_timestamp, hread, List.nil_append,
          lineTimestamp_eq, hn]
        exact ⟨_, rfl, rfl⟩
  | txn hu =>
      rw [List.append_assoc, List.singleton_append, hfront]
      obtain ⟨hkey, -⟩ | ⟨v, rfl, hv⟩ := prefix_field (by decide) hu
      · exact ⟨_, readSegment_key_append hkey hne _ timestamp, rfl⟩
      · obtain ⟨n, hread⟩ := stoul_of_isPrefix hr hv (mt bareNumber_txn.mpr hbare)
          (noDigit_timestampField timestamp)
        rw [List.append_assoc, List.cons_append, readSegment_txn, hread]
        exact ⟨_, rfl, rfl⟩
  | type hu =>
      rw [List.append_assoc, List.cons_append, hfront]
      obtain ⟨hkey, -⟩ | ⟨v, rfl, hv⟩ := prefix_field (by decide) hu
      · exact ⟨_, readSegment_key_append hkey hne _ timestamp, rfl⟩
      · rw [List.append_assoc, List.cons_append, readSegment_type]
        exact ⟨_, rfl, rfl⟩

/-- The record that the next record becomes when it is appended to a piece: one
with the timestamp that the line already has. -/
theorem Cut.fromString_append (h : Cut r front u f) (hr : r.Fits) (hnext : next.Fits)
    (hbare : ¬ BareNumber u) (hne : u ≠ []) :
    fromString (front ++ u ++ next.toString)
      = .ok ((lineTimestamp (front ++ u)).map fun timestamp =>
          { next with timestamp := timestamp }) := by
  obtain ⟨g, hread, hts⟩ := h.readSegment_append hr hbare hne next.timestamp
  rw [h.fromString_next hr hnext, hread, Except.map, hts]
  cases lineTimestamp (front ++ u) with
  | none => rfl
  | some timestamp => rfl

/-- After a comma nothing runs into the next record. -/
theorem Cut.fromString_append_nil (h : Cut r front [] f) (hr : r.Fits) (hnext : next.Fits) :
    fromString (front ++ next.toString) = .ok (some next) := by
  have hline := h.fromString_next hr hnext
  rw [List.append_nil, List.nil_append, readSegment_timestampField f hnext] at hline
  exact hline

end LogRecord

/-! ## Torn files -/

open LogRecord

/-- A log torn inside the text of a record. -/
theorem readText_torn {done : List LogRecord} (hdone : ∀ r ∈ done, r.Fits) {piece : List Char}
    (hline : '\n' ∉ piece) (hne : piece ≠ []) :
    readText (logText done ++ piece)
      = (fromString piece).map fun record => done ++ record.toList := by
  rw [readText_logText_append hdone, readText, getlines_of_not_mem hline hne, readLines_cons hne]
  cases fromString piece with
  | error e => rfl
  | ok record => simp [readLines, Except.map]

/-- Reading a torn log: the records wholly within the bytes that survive are read,
exactly when the last line does not break off where a number should start. -/
theorem torn_log_reads_iff {rs : List LogRecord} (hrs : ∀ r ∈ rs, r.Fits) (n : Nat) :
    readText (((LogFile.openOn []).writeAll rs).written.take n)
        = .ok (whollyWithin LogRecord.toString n rs) ↔
      ¬ BareNumber (lastField (lastLine '\n'
        (((LogFile.openOn []).writeAll rs).written.take n))) := by
  rw [LogFile.written_writeAll, LogFile.written_openOn, List.nil_append]
  obtain ⟨done, torn, rest, rfl, htake, hpiece⟩ := take_text (d := '\n') toString_ne_nil rs n
  have hdone : ∀ r ∈ done, r.Fits := fun r hr => hrs r (List.mem_append_left rest hr)
  rw [logText, htake]
  obtain ⟨rfl, hwithin⟩ | ⟨r, hr, hne, hstart, hwithin⟩ := hpiece
  · rw [List.append_nil, (closed_text done).lastLine_eq, hwithin, readText_logText hdone]
    exact iff_of_true rfl (by decide)
  · have hfits : r.Fits := hrs r (List.mem_append_right done hr)
    have hline : '\n' ∉ torn := not_mem_of_isPrefix hstart (newline_not_mem_toString r)
    obtain ⟨front, u, f, rfl, hcut⟩ := cut_of_isPrefix hstart
    rw [lastLine_append (closed_text done) hline, hcut.lastField_eq, hwithin,
      readText_torn hdone hline hne]
    obtain ⟨hbare, hread⟩ | ⟨hbare, hread⟩ := hcut.fromString_cases hfits
    · rw [hread]
      exact iff_of_false nofun (fun h => h hbare)
    · rw [hread, Except.map]
      refine iff_of_true ?_ hbare
      split
      · rfl
      · rfl

theorem torn_log_reads_iff_tornKey :
    readText (((LogFile.openOn []).writeAll [⟨7, .begin, 5⟩, ⟨7, .commit, 6⟩]).written.take 49)
        = .ok (whollyWithin LogRecord.toString 49 [⟨7, .begin, 5⟩, ⟨7, .commit, 6⟩]) ↔
      ¬ BareNumber (lastField (lastLine '\n'
        (((LogFile.openOn []).writeAll [⟨7, .begin, 5⟩, ⟨7, .commit, 6⟩]).written.take 49))) :=
  torn_log_reads_iff (by decide) 49

/-- A log cut right after `timestamp=` cannot be read: the conversion throws. -/
theorem torn_log_reads_fails :
    readText (((LogFile.openOn []).writeAll [⟨1, .begin, 5⟩]).written.take 10)
        = .error .invalidArgument ∧
      whollyWithin LogRecord.toString 10 [⟨1, .begin, 5⟩] = [] :=
  ⟨rfl, rfl⟩

/-! ## Appending to a torn file -/

/-- What a record does when it is appended to a line: the line has nothing in its
last field, or it is no record and its timestamp is the record's own. -/
def Mends (line : List Char) (next : LogRecord) : Prop :=
  lastField line = [] ∨
    (∀ t, lastField line ≠ typeField t) ∧ lineTimestamp line = some next.timestamp

/-- A log whose torn line is ended by the first record appended to it. -/
theorem readText_torn_append {done R : List LogRecord} (hdone : ∀ r ∈ done, r.Fits)
    (hR : ∀ r ∈ R, r.Fits) {line : List Char} (hline : '\n' ∉ line) (hne : line ≠ []) :
    readText (logText done ++ (line ++ '\n' :: logText R))
      = (fromString line).map fun record => done ++ (record.toList ++ R) := by
  have hrest : readLines (getlines '\n' (logText R)) = .ok R := readText_logText hR
  rw [readText_logText_append hdone, readText, getlines_append_cons hline, readLines_cons hne,
    hrest]
  cases fromString line with
  | error e => rfl
  | ok record => rfl

/-- The records of a torn line and of what is appended to it. -/
theorem LogRecord.Cut.append_iff {r next : LogRecord} {front u : List Char} {f : Fields}
    (h : Cut r front u f) (hr : r.Fits) (hnext : next.Fits) (hbare : ¬ BareNumber u) :
    (∃ merged, fromString (front ++ u ++ next.toString) = .ok merged ∧
      merged.toList = (if front ++ u = r.toString then some r else none).toList ++ [next]) ↔
    Mends (front ++ u) next := by
  rw [Mends, h.lastField_eq]
  simp only [h.whole_iff]
  by_cases hnil : u = []
  · subst hnil
    refine iff_of_true ⟨some next, ?_, rfl⟩ (.inl rfl)
    rw [List.append_nil]
    exact h.fromString_append_nil hr hnext
  · rw [h.fromString_append hr hnext hbare hnil]
    by_cases hwhole : u = typeField r.logType
    · refine iff_of_false ?_ ?_
      · rintro ⟨merged, hmerged, hlist⟩
        have hlength := congrArg List.length hlist
        have hle := Option.length_toList_le (o := merged)
        rw [if_pos hwhole] at hlength
        simp only [Option.toList_some, List.length_append, List.length_singleton] at hlength
        omega
      · rintro (hu | ⟨hu, -⟩)
        · exact hnil hu
        · exact hu r.logType hwhole
    · have hnone : ∀ t, u ≠ typeField t := by
        rintro t rfl
        exact hwhole (by rw [h.of_typeField.1])
      rw [if_neg hwhole, Option.toList_none, List.nil_append]
      constructor
      · rintro ⟨merged, hmerged, hlist⟩
        refine .inr ⟨hnone, ?_⟩
        cases hts : lineTimestamp (front ++ u) with
        | none =>
            rw [hts] at hmerged
            cases hmerged
            cases hlist
        | some timestamp =>
            rw [hts] at hmerged
            cases hmerged
            have hsame := congrArg LogRecord.timestamp (List.cons.inj hlist).1
            exact congrArg some hsame
      · rintro (hu | ⟨-, hts⟩)
        · exact absurd hu hnil
        · exact ⟨some next, by rw [hts]; rfl, rfl⟩

/-- Appending to a torn log that can be read gives what it read as and then the new
records, exactly when there are none or the first one mends the last line. -/
theorem append_after_crash_iff {rs : List LogRecord} (hrs : ∀ r ∈ rs, r.Fits) (n : Nat)
    {P R : List LogRecord} (hR : ∀ r ∈ R, r.Fits)
    (hread : (LogFile.openOn
      (((LogFile.openOn []).writeAll rs).written.take n)).readLogs = .ok P) :
    ((LogFile.openOn (((LogFile.openOn []).writeAll rs).written.take n)).writeAll
        R).flushLogs.readLogs = .ok (P ++ R) ↔
      ∀ next ∈ R.head?,
        Mends (lastLine '\n' (((LogFile.openOn []).writeAll rs).written.take n)) next := by
  rw [LogFile.readLogs_flushLogs, LogFile.written_writeAll, LogFile.written_openOn]
  rw [LogFile.readLogs, LogFile.openOn] at hread
  rw [LogFile.written_writeAll, LogFile.written_openOn, List.nil_append] at hread ⊢
  obtain ⟨done, torn, rest, rfl, htake, hpiece⟩ := take_text (d := '\n') toString_ne_nil rs n
  have hdone : ∀ r ∈ done, r.Fits := fun r hr => hrs r (List.mem_append_left rest hr)
  rw [logText, htake] at hread ⊢
  obtain ⟨rfl, -⟩ | ⟨r, hr, hne, hstart, -⟩ := hpiece
  · rw [List.append_nil] at hread ⊢
    refine iff_of_true (readText_closed_append (closed_text done) hread hR) ?_
    intro next _
    rw [(closed_text done).lastLine_eq]
    exact .inl rfl
  · have hfits : r.Fits := hrs r (List.mem_append_right done hr)
    have hline : '\n' ∉ torn := not_mem_of_isPrefix hstart (newline_not_mem_toString r)
    obtain ⟨front, u, f, rfl, hcut⟩ := cut_of_isPrefix hstart
    rw [readText_torn hdone hline hne] at hread
    obtain ⟨-, herror⟩ | ⟨hbare, hok⟩ := hcut.fromString_cases hfits
    · rw [herror] at hread
      cases hread
    rw [hok] at hread
    cases hread
    cases R with
    | nil =>
        rw [logText, text_nil, List.append_nil, List.append_nil, readText_torn hdone hline hne, hok]
        exact iff_of_true rfl nofun
    | cons next R =>
        have hnext : next.Fits := hR next List.mem_cons_self
        have hrest : ∀ r ∈ R, r.Fits := fun x hx => hR x (List.mem_cons_of_mem next hx)
        have hmerged : '\n' ∉ front ++ u ++ next.toString :=
          List.not_mem_append hline (newline_not_mem_toString next)
        have hmerged_ne : front ++ u ++ next.toString ≠ [] :=
          List.append_ne_nil_of_right_ne_nil _ (toString_ne_nil next)
        have hread := readText_torn_append hdone hrest hmerged hmerged_ne
        rw [List.append_assoc] at hread
        rw [logText, text_cons, List.append_assoc, hread, lastLine_append (closed_text done) hline,
          List.head?_cons]
        simp only [Option.mem_some_iff, forall_eq']
        rw [← hcut.append_iff hfits hnext hbare]
        cases fromString (front ++ u ++ next.toString) with
        | error e => exact iff_of_false nofun (fun ⟨merged, hmerged, _⟩ => nomatch hmerged)
        | ok merged =>
            simp only [Except.map, Except.ok.injEq, exists_eq_left']
            rw [← List.singleton_append (x := next), List.append_assoc,
              ← List.append_assoc _ [next], List.append_right_inj, List.append_left_inj]

theorem append_after_crash_iff_sameTime :
    ((LogFile.openOn (((LogFile.openOn []).writeAll [⟨1, .commit, 5⟩]).written.take 20)).writeAll
        [⟨2, .begin, 5⟩]).flushLogs.readLogs = .ok ([] ++ [⟨2, .begin, 5⟩]) ↔
      ∀ next ∈ [(⟨2, .begin, 5⟩ : LogRecord)].head?,
        Mends (lastLine '\n'
          (((LogFile.openOn []).writeAll [⟨1, .commit, 5⟩]).written.take 20)) next :=
  append_after_crash_iff (by decide) 20 (by decide) rfl

/-- A COMMIT record whose newline was cut off is read, and lost once a record is
appended. -/
theorem append_after_crash_fails :
    (LogFile.openOn
        (((LogFile.openOn []).writeAll [⟨1, .commit, 5⟩]).written.take 29)).readLogs
        = .ok [⟨1, .commit, 5⟩] ∧
      ((LogFile.openOn
          (((LogFile.openOn []).writeAll [⟨1, .commit, 5⟩]).written.take 29)).writeAll
          [⟨2, .begin, 6⟩]).flushLogs.readLogs = .ok [⟨2, .begin, 5⟩] :=
  ⟨rfl, rfl⟩

end TxnEngine
