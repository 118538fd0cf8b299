import TxnEngine.Main.Bookkeeping
import TxnEngine.Main.Story
import TxnEngine.Recovery.Reruns

/-!
# What RECOVER counts

On a new log RECOVER prints the number of writes of the committed transactions and
the number of the transactions that it ends (`recovered_counts`).  The log knows
both: the records of an active transaction that redo would pick are its writes
(`Tallied`), and the transactions that the log leaves open are the active ones
(`Story.mem_incomplete`).
-/

namespace TxnEngine

open Std Runs Arrivals

namespace Main

variable {m m' : Main} {cmd : Command} {ledger : Ledger}

/-! ## What redo would pick -/

theorem log_writeLog (m : Main) (txnId : Nat) (type : LogType) :
    (m.writeLog txnId type).logMgr.written =
      m.logMgr.written ++ [⟨txnId, type, m.clock.headD 0⟩] := LogManager.written_writeLog _ _

/-- The number of data records of committed ids. -/
def redoable (log : List LogRecord) : Nat :=
  log.countP fun record =>
    decide (CommittedIn log record.transactionId) && isDataModificationType record.logType

theorem committedIn_concat {log : List LogRecord} {record : LogRecord} {id : Nat} :
    CommittedIn (log ++ [record]) id ↔
      CommittedIn log id ∨ record.transactionId = id ∧ record.logType = .commit := by
  simp only [CommittedIn, List.mem_append, List.mem_singleton, or_and_right, exists_or,
    exists_eq_left]

/-- A record other than COMMIT is picked if its id is committed. -/
theorem redoable_concat {log : List LogRecord} {record : LogRecord}
    (hcommit : record.logType ≠ .commit) : redoable (log ++ [record]) =
      redoable log + if CommittedIn log record.transactionId ∧
        isDataModificationType record.logType = true then 1 else 0 := by
  have hsame : ∀ id, CommittedIn (log ++ [record]) id ↔ CommittedIn log id := fun id =>
    committedIn_concat.trans (or_iff_left fun h => hcommit h.2)
  rw [redoable, List.countP_append]
  simp only [hsame, List.countP_singleton, Bool.and_eq_true, decide_eq_true_eq]
  rfl

/-- Records that are neither COMMITs nor data are not picked. -/
theorem redoable_append {log : List LogRecord} {records : List LogRecord}
    (h : ∀ record ∈ records, record.logType ≠ .commit ∧
      isDataModificationType record.logType = false) :
    redoable (log ++ records) = redoable log := by
  induction records using List.reverseRecOn with
  | nil => rw [List.append_nil]
  | append_singleton records record ih =>
      rw [List.forall_mem_append, List.forall_mem_singleton] at h
      rw [← List.append_assoc, redoable_concat h.2.1, ih h.1, if_neg (by simp [h.2.2]),
        Nat.add_zero]

/-- A COMMIT makes the data records of its id picked. -/
theorem redoable_commit {log : List LogRecord} {record : LogRecord}
    (hcommit : record.logType = .commit) (hopen : ¬ CommittedIn log record.transactionId) :
    redoable (log ++ [record]) =
      redoable log + (typesOf log record.transactionId).countP isDataModificationType := by
  have hdata : isDataModificationType record.logType = false := by rw [hcommit]; rfl
  have hids : ∀ id, CommittedIn (log ++ [record]) id ↔
      CommittedIn log id ∨ id = record.transactionId := fun id => by
    rw [committedIn_concat, and_iff_left hcommit, eq_comm]
  have hown : ∀ r : LogRecord, r.transactionId = record.transactionId →
      ¬ CommittedIn log r.transactionId := fun r hr => hr ▸ hopen
  rw [redoable, List.countP_append, List.countP_singleton, hdata, Bool.and_false,
    if_neg Bool.false_ne_true, Nat.add_zero, typesOf, List.countP_map, List.countP_filter]
  simp only [hids, Bool.decide_or]
  refine countP_or log fun r _ hr => decide_eq_false ?_
  exact hown r (of_decide_eq_true hr)

/-- A running transaction is not committed in the log. -/
theorem Story.not_committedIn (h : Story m) {txnId : Nat}
    (hactive : txnId ∈ m.tm.getActiveTransactionIds) :
    ¬ CommittedIn m.logMgr.written txnId := by
  obtain ⟨txn, hfound⟩ := m.tm.mem_getActiveTransactionIds.mp hactive
  obtain ⟨⟨_, _, _, k, htypes⟩, _⟩ := h.running hfound
  rw [committedIn_iff, htypes, openTypes, List.mem_cons, List.mem_replicate]
  rintro (hbegin | ⟨_, hupdate⟩)
  · cases hbegin
  · cases hupdate

/-! ## The records of the active transactions -/

/-- The data records of an active transaction are its writes, and those of the
committed transactions are counted. -/
structure Tallied (m : Main) (ledger : Ledger) : Prop where
  writes : ∀ {label : Name} {txnId : Nat}, m.ActiveAs label txnId → ledger.writesOf label =
    (typesOf m.logMgr.written txnId).countP isDataModificationType
  redo : ledger.redo = redoable m.logMgr.written

theorem Tallied.congr (h : Tallied m ledger) (htm : m'.tm = m.tm) (hids : m'.txnIds = m.txnIds)
    (hlog : m'.logMgr.written = m.logMgr.written) : Tallied m' ledger where
  writes := by
    simp only [ActiveAs, htm, hids, hlog]
    exact h.writes
  redo := hlog ▸ h.redo

theorem Tallied.read (h : Tallied m ledger) (c : Issued) (txnId id : Nat) (value : Int32) :
    Tallied (m.perform .read c txnId id)
      (ledger.next (.reads c.command.txnLabel c.command.resourceName value)) where
  writes := by
    intro label txnId' hactive
    refine (Ledger.writesOf_concat label _).trans ?_
    rw [if_neg (fun hwrite => by cases hwrite.2), Nat.add_zero]
    exact h.writes hactive
  redo := h.redo

theorem Tallied.write (h : Tallied m ledger) (hlabels : Labels m) {c : Issued} {txnId : Nat}
    (hopen : ¬ CommittedIn m.logMgr.written txnId)
    (hlabel : m.txnIds[c.command.txnLabel]? = some txnId) (id : Nat) (value : Int32) :
    Tallied (m.perform .write c txnId id)
      (ledger.next (.writes c.command.txnLabel c.command.resourceName value)) where
  writes := by
    intro label txnId' hactive
    have hsame : txnId = txnId' ↔ c.command.txnLabel = label := by
      constructor
      · rintro rfl
        exact hlabels.injective hlabel hactive.1
      · rintro rfl
        exact Option.some.inj (hlabel.symm.trans hactive.1)
    have htypes : typesOf (m.perform .write c txnId id).logMgr.written txnId' =
        typesOf m.logMgr.written txnId' ++ if txnId = txnId' then [.update] else [] :=
      typesOf_writeLog _ _ txnId' .update
    refine (Ledger.writesOf_concat label _).trans ?_
    rw [htypes, List.countP_append, ← h.writes hactive]
    by_cases heq : c.command.txnLabel = label
    · rw [if_pos ⟨heq, rfl⟩, if_pos (hsame.mpr heq)]
      rfl
    · rw [if_neg fun hwrite => heq hwrite.1, if_neg fun hid => heq (hsame.mp hid)]
      rfl
  redo := by
    have hlog : (m.perform .write c txnId id).logMgr.written =
        m.logMgr.written ++ [⟨txnId, .update, m.clock.headD 0⟩] := log_writeLog _ txnId .update
    rw [hlog, redoable_concat (fun hcommit => by cases hcommit),
      if_neg (fun hcommitted => hopen hcommitted.1), Nat.add_zero]
    exact h.redo

/-- A label that is new has written nothing, and an id that is new has no records. -/
theorem Tallied.start (h : Tallied m ledger) (hstory : Story m) (hlabels : Labels m)
    (hagrees : Agrees m ledger) (htidy : ledger.Tidy) {label : Name} (fresh : label ∉ m.txnIds) :
    Tallied (m.start label) (ledger.next (.started label)) where
  writes := by
    intro label' txnId hactive
    have htypes : typesOf (m.start label).logMgr.written txnId =
        typesOf m.logMgr.written txnId ++
          if m.tm.nextTransactionId = txnId then [.begin] else [] :=
      typesOf_writeLog _ _ txnId .begin
    rw [htypes, List.countP_append]
    rcases (activeAs_start hlabels fresh label' txnId).mp hactive with hold | ⟨rfl, rfl⟩
    · rw [if_neg (Nat.ne_of_lt (hlabels.known hold.1)).symm]
      exact h.writes hold
    · rw [hstory.nothing _ (Nat.le_refl _), if_pos rfl]
      refine List.countP_eq_zero.mpr fun report hmem hwrite => ?_
      have heq : report.label = label' := (of_decide_eq_true hwrite).1
      exact (hagrees.unknown fresh).1 (heq ▸ htidy.reports report hmem)
  redo := by
    have hlog : (m.start label).logMgr.written =
        m.logMgr.written ++ [⟨m.tm.nextTransactionId, .begin, m.clock.headD 0⟩] :=
      log_writeLog _ _ .begin
    rw [hlog, redoable_concat (fun hcommit => by cases hcommit),
      if_neg (fun hdata => by cases hdata.2), Nat.add_zero]
    exact h.redo

theorem Tallied.finish (h : Tallied m ledger) (hlabels : Labels m) {label : Name} {txnId : Nat}
    (hactive : m.ActiveAs label txnId) (hopen : ¬ CommittedIn m.logMgr.written txnId)
    (outcome : Outcome) :
    Tallied (m.finish txnId outcome) (ledger.next (.completed label outcome)) where
  writes := by
    intro label' txnId' hactive'
    obtain ⟨hold, hne⟩ := (activeAs_finish hlabels hactive.1 outcome label' txnId').mp hactive'
    have hother : txnId ≠ txnId' := by
      rintro rfl
      exact hne (hlabels.injective hold.1 hactive.1)
    have htypes : typesOf (m.finish txnId outcome).logMgr.written txnId' =
        typesOf m.logMgr.written txnId' ++ if txnId = txnId' then [outcome.logType] else [] :=
      typesOf_writeLog _ _ txnId' outcome.logType
    rw [htypes, if_neg hother, List.append_nil]
    exact (Ledger.writesOf_close hne outcome).trans (h.writes hold)
  redo := by
    have hlog : (m.finish txnId outcome).logMgr.written =
        m.logMgr.written ++ [⟨txnId, outcome.logType, m.clock.headD 0⟩] :=
      log_writeLog _ _ outcome.logType
    rw [hlog]
    cases outcome with
    | commit =>
        rw [redoable_commit rfl hopen, ← h.redo, ← h.writes hactive]
        rfl
    | abort =>
        rw [redoable_concat (fun hcommit => by cases hcommit),
          if_neg (fun hdata => by cases hdata.2), Nat.add_zero, ← h.redo]
        rfl

/-- RECOVER logs the ends of the transactions that it aborts. -/
theorem Tallied.recover (h : Tallied m ledger) (redo undo : Nat) :
    Tallied m.recover (ledger.next (.recovered redo undo)) where
  writes := fun hactive => absurd hactive.2 m.tm.activeIds_abortAll
  redo := by
    have hlog : m.recover.logMgr.written = m.logMgr.written ++
        ((RecoveryManager.new m.logMgr.flushLogs).performRecovery m.clock).1.undoRecords := by
      have hwritten := (RecoveryManager.new m.logMgr.flushLogs).performRecovery_written m.clock
      rw [← LogManager.written_flushLogs m.logMgr]
      exact hwritten
    rw [hlog, redoable_append]
    · exact h.redo
    · intro record hrecord
      rw [RecoveryManager.performRecovery_undoRecords] at hrecord
      rw [RecoveryManager.abortRecords_type _ _ record hrecord]
      exact ⟨by simp, rfl⟩

/-- A checkpoint is logged under an id that no transaction has. -/
theorem Tallied.checkpoint (h : Tallied m ledger) (hstory : Story m) :
    Tallied m.checkpoint ledger := by
  have hflush : m.checkpoint.logMgr.written = (m.writeLog 0 .checkpoint).logMgr.written :=
    LogManager.written_flushLogs _
  constructor
  case writes =>
    intro label txnId hactive
    obtain ⟨txn, hfound⟩ := m.tm.mem_getActiveTransactionIds.mp hactive.2
    have hpos := (hstory.running hfound).2.1
    rw [hflush, typesOf_writeLog, if_neg (Nat.ne_of_lt hpos), List.append_nil]
    exact h.writes hactive
  case redo =>
    rw [hflush, log_writeLog, redoable_append (List.forall_mem_singleton.mpr ⟨by simp, rfl⟩)]
    exact h.redo

/-! ## The counts -/

/-- The log leaves open what is active. -/
theorem Story.mem_incomplete (h : Story m) (txnId : Nat) :
    txnId ∈ (RecoveryManager.new (.openOn m.logMgr.written)).analyze.incompleteTxns ↔
      txnId ∈ m.tm.getActiveTransactionIds := by
  have hmem : txnId ∈ m.tm.getActiveTransactionIds ↔ txnId ∈ m.tm.activeTransactions := by
    rw [m.tm.mem_getActiveTransactionIds, ← ExtTreeMap.isSome_getElem?_iff_mem,
      Option.isSome_iff_exists]
  rw [hmem]
  by_cases hrange : 0 < txnId ∧ txnId < m.tm.nextTransactionId
  · rcases h.known txnId hrange.1 hrange.2 with hrun | hended
    · exact hrun.same.log.symm
    · exact hended.same.log.symm
  · obtain ⟨hnone, _, _, htypes⟩ := h.unknown txnId (by omega)
    refine iff_of_false (fun hopen => ?_) ?_
    · have hleft := leftOpen_iff.mp ((RecoveryManager.mem_analyze_incomplete _).mp hopen)
      have hclosed := opens_checkpoints htypes
      exact Bool.noConfusion (hclosed.symm.trans hleft)
    · rw [← ExtTreeMap.isSome_getElem?_iff_mem, hnone]
      exact Bool.false_ne_true

/-- RECOVER reports the writes of the committed transactions and the transactions it
ends. -/
theorem Tallied.recovers (h : Tallied m ledger) (hagrees : Agrees m ledger) (hstory : Story m) :
    ∃ redo undo, m.recover.output = m.output ++ [.recovered redo undo] ∧
      ledger.Recovers (.recovered redo undo) := by
  refine ⟨_, _, rfl, ?_, ?_⟩
  · have hredo := (RecoveryManager.new (.openOn [])).performRecovery_redo m.clock m.logMgr.written
    rw [h.redo, redoable, List.countP_eq_length_filter]
    exact congrArg List.length hredo
  · have hundo :=
      (RecoveryManager.new (.openOn m.logMgr.written)).performRecovery_undoRecords m.clock
    have hlength : ∀ (ids : List Nat) (clock : List Int),
        (abortRecords ids clock).1.length = ids.length := fun ids clock => by
      rw [← List.length_map, RecoveryManager.abortRecords_ids]
    have hids : (RecoveryManager.new
        (.openOn m.logMgr.written)).analyze.incompleteTxns.toList = m.tm.getActiveTransactionIds :=
      ascending_ext (RecoveryManager.sortedLT_toList _) m.tm.sorted_getActiveTransactionIds
        fun txnId => by rw [ExtTreeSet.mem_toList, hstory.mem_incomplete]
    rw [hagrees.count]
    refine (congrArg List.length hundo).trans ?_
    rw [hlength, hids, TransactionManager.getActiveTransactionIds, List.length_map,
      ExtTreeMap.length_toList]

/-- The engine with its books, its log and the counts that it printed. -/
structure Recounts (m : Main) : Prop where
  books : Books m
  story : Story m
  tallied : Tallied m (.of m.output)
  counted : Each (fun before line => (Ledger.of before).Recovers line) m.output

theorem Recounts.quiet (h : Recounts m) (hbooks : Books m') (hstory : Story m')
    (houtput : m'.output = m.output) (htm : m'.tm = m.tm) (hids : m'.txnIds = m.txnIds)
    (hlog : m'.logMgr.written = m.logMgr.written) : Recounts m' :=
  ⟨hbooks, hstory, houtput ▸ h.tallied.congr htm hids hlog, houtput ▸ h.counted⟩

theorem Recounts.prints (h : Recounts m) (hbooks : Books m') (hstory : Story m') {line : Output}
    (houtput : m'.output = m.output ++ [line]) (hrecovers : (Ledger.of m.output).Recovers line)
    (htallied : Tallied m' ((Ledger.of m.output).next line)) : Recounts m' := by
  refine ⟨hbooks, hstory, ?_, ?_⟩
  · rw [houtput, Ledger.of_concat]
    exact htallied
  · rw [houtput]
    exact each_concat.mpr ⟨h.counted, hrecovers⟩

theorem Reply.recovers {line : Output} (h : Reply m cmd line) (ledger : Ledger) :
    ledger.Recovers line := by
  cases h <;> trivial

theorem Move.story (h : Move cmd m m') (few : Few m') (hsane : Sane m) (hstory : Story m) :
    Story m' :=
  h.invariant Story.step (few.room hsane.balanced) hstory

theorem Move.recounts (h : Move cmd m m') (hbooks : Books m') (hstory : Story m')
    (hold : Recounts m) : Recounts m' := by
  have hsame := m.ensureResource_same
  have hlabels := hold.books.labels
  have htidy := hold.books.legal.tidy
  cases h with
  | reply hreply =>
      refine hold.prints hbooks hstory rfl (hreply.recovers _) ?_
      rw [(hreply.allows hold.books.agrees).2]
      exact hold.tallied.congr rfl rfl rfl
  | lookup name =>
      exact hold.quiet hbooks hstory (m.ensureResource_output name) (hsame _).tm (hsame _).txnIds
        (congrArg LogManager.written (hsame _).logMgr)
  | refuse =>
      exact hold.quiet hbooks hstory (m.ensureResource_output _) (hsame _).tm (hsame _).txnIds
        (congrArg LogManager.written (hsame _).logMgr)
  | @execute c before later txnId access waits label active hop granted =>
      have hstart := hold.tallied.congr (hsame c.command.resourceName).tm
        (hsame c.command.resourceName).txnIds
          (congrArg LogManager.written (hsame c.command.resourceName).logMgr)
      have hlookup : Move cmd m (m.ensureResource c.command.resourceName).2 := .lookup _
      have hopen : ¬ CommittedIn m.logMgr.written txnId := hold.story.not_committedIn
        (m.tm.mem_getActiveTransactionIds.mpr (m.tm.isTransactionActive_iff.mp active))
      rw [← (hsame c.command.resourceName).logMgr] at hopen
      rw [← (hsame c.command.resourceName).txnIds] at label
      have hlabels' : Labels (m.ensureResource c.command.resourceName).2 :=
        hlabels.congr (hsame _).txnIds (congrArg TransactionManager.nextTransactionId (hsame _).tm)
      have houtput := m.ensureResource_output c.command.resourceName
      generalize (m.ensureResource c.command.resourceName).1 = id at *
      generalize (m.ensureResource c.command.resourceName).2 = found at *
      cases access with
      | read =>
          refine hold.prints hbooks hstory (congrArg (· ++ _) houtput) trivial ?_
          exact (hstart.read c txnId id _).congr rfl rfl rfl
      | write =>
          refine hold.prints hbooks hstory (congrArg (· ++ _) houtput) trivial ?_
          exact (hstart.write hlabels' hopen label id _).congr rfl rfl rfl
  | drop => exact hold.quiet hbooks hstory rfl rfl rfl rfl
  | start hop full fresh =>
      refine hold.prints hbooks hstory rfl trivial ?_
      have hstart := hold.tallied.start hold.story hlabels hold.books.agrees htidy fresh
      exact hstart.congr rfl rfl rfl
  | issue => exact hold.quiet hbooks hstory rfl rfl rfl rfl
  | @finish outcome txnId txn hop label active =>
      have hactive : m.ActiveAs cmd.txnLabel txnId :=
        ⟨label, m.tm.mem_getActiveTransactionIds.mpr ⟨txn, active⟩⟩
      refine hold.prints hbooks hstory rfl trivial ?_
      have hopen := hold.story.not_committedIn hactive.2
      exact (hold.tallied.finish hlabels hactive hopen outcome).congr rfl rfl rfl
  | shows =>
      have houtput := m.ensureResource_output cmd.resourceName
      refine hold.prints hbooks hstory (congrArg (· ++ _) houtput) trivial ?_
      exact hold.tallied.congr (hsame _).tm (hsame _).txnIds
        (congrArg LogManager.written (hsame _).logMgr)
  | checkpoint =>
      exact hold.prints hbooks hstory rfl trivial (hold.tallied.checkpoint hold.story)
  | recover =>
      obtain ⟨redo, undo, houtput, hrecovers⟩ :=
        hold.tallied.recovers hold.books.agrees hold.story
      exact hold.prints hbooks hstory houtput hrecovers (hold.tallied.recover redo undo)

theorem recounts_init (alloc : List Nat) (clock : List Int) :
    Recounts (init ⟨alloc, clock, []⟩) where
  books := books_init _
  story := story_init alloc clock
  tallied := by
    constructor
    case writes =>
      rintro label txnId ⟨hlabel, _⟩
      simp [init] at hlabel
    case redo => rfl
  counted := by
    have hhelp : Each (fun before line => (Ledger.of before).Recovers line) ([] ++ [.help]) :=
      each_concat.mpr ⟨each_nil, trivial⟩
    exact hhelp

end Main

open Main Ledger

/-- On a new log RECOVER counts the writes of the transactions that the lines before it
commit, and the transactions that they leave open. -/
theorem output_recovered (alloc : List Nat) (clock : List Int) (input : List Command)
    (few : Few (after ⟨alloc, clock, []⟩ input)) {before later : List Output} {redo undo : Nat}
    (h : (after ⟨alloc, clock, []⟩ input).output = before ++ .recovered redo undo :: later) :
    redo = committedWrites before ∧ undo = (openLabels before).length := by
  have hrecounts : Few (after ⟨alloc, clock, []⟩ input) →
      Recounts (after ⟨alloc, clock, []⟩ input) := by
    refine after_moves (I := fun m => Few m → Recounts m) (fun _ hmove ih few => ?_) fun _ => ?_
    · have hold := ih (hmove.few few)
      refine hmove.recounts (hmove.books few hold.books) ?_ hold
      exact hmove.story few hold.books.sane hold.story
    · exact recounts_init alloc clock
  have hlegal := (hrecounts few).books.legal
  have hcounted := (hrecounts few).counted
  rw [h] at hlegal hcounted
  rw [Legal, List.append_cons, each_append] at hlegal
  have hbefore : Legal before := (each_concat.mp hlegal.1).1
  obtain ⟨rfl, rfl⟩ := hcounted before _ later rfl
  exact ⟨Legal.redo_eq hbefore, congrArg List.length (Legal.active_eq hbefore)⟩

/-- The lines before the RECOVER. -/
def linesBeforeRecover : List Output :=
  linesBeforeRead ++ [.reads ['2'] ['B', '.', '.', 'C'] 5, .notActive ['1']]

theorem output_recovered_spelledTwice : 1 = committedWrites linesBeforeRecover ∧
    1 = (openLabels linesBeforeRecover).length := by
  have houtput : (after ⟨[], [], []⟩ spelledTwice).output =
      linesBeforeRecover ++ .recovered 1 1 :: [.status 0 0 1 1] := rfl
  exact output_recovered _ _ spelledTwice (by decide) houtput

end TxnEngine
