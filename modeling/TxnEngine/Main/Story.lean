import TxnEngine.Main.Steps

/-!
# One story in three places

The transaction manager, the lock manager and the log are written separately by
every handler.  They agree all the same: an id is active in the transaction
manager exactly when it is not completed in the lock manager and exactly when
the log leaves it open, and its records are one BEGIN, the UPDATEs of its writes
and at most one record of its outcome (`Story`).

RECOVER aborts the active transactions in the transaction manager, completes
them in the lock manager, and leaves the ABORT records to the recovery manager.
These are the right ones, since the log leaves open exactly what was active.
-/

namespace TxnEngine

open Std Runs

namespace Main

/-! ## The records of an id -/

/-- The types logged by a transaction that is open, after `k` writes. -/
def openTypes (k : Nat) : List LogType := .begin :: List.replicate k .update

/-- The types logged by a transaction that has ended. -/
def closedTypes (k : Nat) (outcome : Outcome) : List LogType := openTypes k ++ [outcome.logType]

theorem openTypes_update (k : Nat) : openTypes k ++ [.update] = openTypes (k + 1) := by
  rw [openTypes, openTypes, List.replicate_succ', List.cons_append]

theorem opens_openTypes (k : Nat) : (openTypes k).foldl LogType.opens false = true := by
  induction k with
  | zero => rfl
  | succ k ih => rw [← openTypes_update, List.foldl_append, ih]; rfl

theorem opens_closedTypes (k : Nat) (outcome : Outcome) :
    (closedTypes k outcome).foldl LogType.opens false = false := by
  rw [closedTypes, List.foldl_append]
  cases outcome <;> rfl

/-- The types of the records of an id once one more record was written. -/
theorem typesOf_writeLog (m : Main) (txnId id : Nat) (type : LogType) :
    typesOf (m.writeLog txnId type).logMgr.written id =
      typesOf m.logMgr.written id ++ if txnId = id then [type] else [] := by
  show typesOf (m.logMgr.writeLog ⟨txnId, type, _⟩).written id = _
  rw [LogManager.written_writeLog, typesOf_append, typesOf_cons, typesOf_nil]

/-! ## The story -/

/-- The three places agree that the transaction is active. -/
def Running (m : Main) (id : Nat) : Prop :=
  (∃ txn, m.tm.activeTransactions[id]? = some txn) ∧ m.tm.completedTransactions[id]? = none ∧
    id ∉ m.lockMgr.completedTransactions ∧ ∃ k, typesOf m.logMgr.written id = openTypes k

/-- The three places agree how the transaction has ended. -/
def Ended (m : Main) (id : Nat) : Prop :=
  ∃ outcome : Outcome, m.tm.activeTransactions[id]? = none ∧
    (∃ txn, m.tm.completedTransactions[id]? = some txn ∧ txn.state = outcome.state) ∧
    id ∈ m.lockMgr.completedTransactions ∧
    ∃ k, typesOf m.logMgr.written id = closedTypes k outcome

/-- No part of the engine knows the id.  Checkpoints are logged under id 0. -/
def Unknown (m : Main) (id : Nat) : Prop :=
  m.tm.activeTransactions[id]? = none ∧ m.tm.completedTransactions[id]? = none ∧
    id ∉ m.lockMgr.completedTransactions ∧ ∀ type ∈ typesOf m.logMgr.written id, type = .checkpoint

/-- Every id handed out is running or ended, and nobody knows the others. -/
structure Story (m : Main) : Prop where
  next_pos : 0 < m.tm.nextTransactionId
  known : ∀ id, 0 < id → id < m.tm.nextTransactionId → Running m id ∨ Ended m id
  unknown : ∀ id, id = 0 ∨ m.tm.nextTransactionId ≤ id → Unknown m id
  nothing : ∀ id, m.tm.nextTransactionId ≤ id → typesOf m.logMgr.written id = []
  began : ∀ id serial, Event.began id serial ∈ m.trace → 0 < id ∧ id < m.tm.nextTransactionId

theorem story_init (alloc : List Nat) (clock : List Int) : Story (init ⟨alloc, clock, []⟩) where
  next_pos := Nat.one_pos
  known := by
    intro id hpos hlt
    have hone : (init ⟨alloc, clock, []⟩).tm.nextTransactionId = 1 := rfl
    omega
  unknown := by
    intro id _
    refine ⟨by simp [init, TransactionManager.new], by simp [init, TransactionManager.new], ?_, ?_⟩
    · simp [init, LockManager.empty]
    · intro type h
      cases h
  nothing := fun _ _ => rfl
  began := by
    intro id serial h
    cases h

/-! ## What the steps tell -/

/-- Only BEGIN hands out an id, the next one. -/
theorem Step.began {m m' : Main} {a : Act} (h : Step m a m') {id serial : Nat}
    (hbegan : Event.began id serial ∈ m'.trace) :
    Event.began id serial ∈ m.trace ∨
      a = .begin ∧ id = m.tm.nextTransactionId ∧ serial = m.tm.begun := by
  cases h with
  | print | refuse | drop | checkpoint => exact Or.inl hbegan
  | create | finish =>
      rcases List.mem_append.mp hbegan with hold | hnew
      · exact Or.inl hold
      · simp at hnew
  | begin =>
      rcases List.mem_append.mp hbegan with hold | hnew
      · exact Or.inl hold
      · rw [List.mem_singleton] at hnew
        cases hnew
        exact Or.inr ⟨rfl, rfl, rfl⟩
  | issue =>
      rcases List.mem_append.mp hbegan with hold | hnew
      · exact Or.inl hold
      · simp at hnew
  | execute access =>
      cases access <;> rcases List.mem_append.mp hbegan with hold | hnew
      · exact Or.inl hold
      · simp at hnew
      · exact Or.inl hold
      · simp at hnew
  | recover =>
      rcases List.mem_append.mp hbegan with hold | hnew
      · exact Or.inl hold
      · simp [mem_recoverEvents] at hnew

/-- Every part of the engine tells the same of the id as before. -/
structure SameAt (m m' : Main) (id : Nat) : Prop where
  active : m'.tm.activeTransactions[id]? = m.tm.activeTransactions[id]?
  completed : m'.tm.completedTransactions[id]? = m.tm.completedTransactions[id]?
  locks : id ∈ m'.lockMgr.completedTransactions ↔ id ∈ m.lockMgr.completedTransactions
  types : typesOf m'.logMgr.written id = typesOf m.logMgr.written id

theorem SameAt.known_iff {m m' : Main} {id : Nat} (h : SameAt m m' id) :
    Running m' id ∨ Ended m' id ↔ Running m id ∨ Ended m id := by
  rw [Running, Ended, Running, Ended, h.active, h.completed, h.locks, h.types]

theorem SameAt.unknown_iff {m m' : Main} {id : Nat} (h : SameAt m m' id) :
    Unknown m' id ↔ Unknown m id := by
  rw [Unknown, Unknown, h.active, h.completed, h.locks, h.types]

/-- The story goes on while no id is handed out and every id is told the same of, or
was handed out and runs or has ended afterwards. -/
theorem Story.touch {m m' : Main} (h : Story m)
    (hnext : m'.tm.nextTransactionId = m.tm.nextTransactionId)
    (hbegan : ∀ id serial, Event.began id serial ∈ m'.trace → Event.began id serial ∈ m.trace)
    (htold : ∀ id, SameAt m m' id ∨
      (0 < id ∧ id < m.tm.nextTransactionId) ∧ (Running m' id ∨ Ended m' id)) : Story m' := by
  constructor
  case next_pos =>
    rw [hnext]
    exact h.next_pos
  case known =>
    intro id hpos hlt
    rcases htold id with hsame | ⟨_, hknown⟩
    · exact hsame.known_iff.mpr (h.known id hpos (hnext ▸ hlt))
    · exact hknown
  case unknown =>
    intro id hid
    rw [hnext] at hid
    rcases htold id with hsame | ⟨hrange, _⟩
    · exact hsame.unknown_iff.mpr (h.unknown id hid)
    · omega
  case nothing =>
    intro id hid
    rw [hnext] at hid
    rcases htold id with hsame | ⟨hrange, _⟩
    · rw [hsame.types]
      exact h.nothing id hid
    · omega
  case began =>
    intro id serial hmem
    rw [hnext]
    exact h.began id serial (hbegan id serial hmem)

/-- The story depends on the transaction manager, the completed set, the records
of each id and the ids handed out. -/
theorem Story.congr {m m' : Main} (h : Story m) (htm : m'.tm = m.tm)
    (hover : ∀ id, id ∈ m'.lockMgr.completedTransactions ↔ id ∈ m.lockMgr.completedTransactions)
    (hlog : ∀ id, typesOf m'.logMgr.written id = typesOf m.logMgr.written id)
    (hbegan : ∀ id serial, Event.began id serial ∈ m'.trace → Event.began id serial ∈ m.trace) :
    Story m' :=
  h.touch (by rw [htm]) hbegan fun id => .inl ⟨by rw [htm], by rw [htm], hover id, hlog id⟩

/-- An active transaction runs. -/
theorem Story.running {m : Main} (h : Story m) {id : Nat} {txn : Transaction}
    (hactive : m.tm.activeTransactions[id]? = some txn) :
    Running m id ∧ 0 < id ∧ id < m.tm.nextTransactionId := by
  have hrange : 0 < id ∧ id < m.tm.nextTransactionId := by
    by_contra hout
    have hno := (h.unknown id (by omega)).1
    rw [hactive] at hno
    cases hno
  rcases h.known id hrange.1 hrange.2 with hrun | ⟨_, hnone, _⟩
  · exact ⟨hrun, hrange⟩
  · rw [hactive] at hnone
    cases hnone

/-- BEGIN hands out the next id, which nobody knew. -/
theorem story_start {m : Main} (h : Story m) {txnLabel : Name}
    (hroom : m.tm.nextTransactionId + 1 < 2 ^ 32) (hstep : Step m .begin (m.start txnLabel)) :
    Story (m.start txnLabel) := by
  have hnext : (m.start txnLabel).tm.nextTransactionId = m.tm.nextTransactionId + 1 :=
    succ32_of_lt hroom
  have hactive : ∀ id, (m.start txnLabel).tm.activeTransactions[id]? =
      if m.tm.nextTransactionId = id then some m.tm.nextTransaction
      else m.tm.activeTransactions[id]? := by
    intro id
    show (m.tm.activeTransactions.insert _ _)[id]? = _
    rw [ExtTreeMap.getElem?_insert]
    simp only [Std.compare_eq_iff_eq]
  have hlog : ∀ id, typesOf (m.start txnLabel).logMgr.written id =
      typesOf m.logMgr.written id ++ if m.tm.nextTransactionId = id then [.begin] else [] :=
    fun id => typesOf_writeLog _ _ id .begin
  have hpos := h.next_pos
  have hother : ∀ id, m.tm.nextTransactionId ≠ id → SameAt m (m.start txnLabel) id := by
    intro id hne
    refine ⟨?_, rfl, Iff.rfl, ?_⟩
    · rw [hactive, if_neg hne]
    · rw [hlog, if_neg hne, List.append_nil]
  constructor
  case next_pos => omega
  case known =>
    intro id hid hlt
    by_cases hne : m.tm.nextTransactionId = id
    · obtain ⟨_, hnew, hover, _⟩ := h.unknown id (Or.inr (Nat.le_of_eq hne))
      refine Or.inl ⟨⟨_, by rw [hactive, if_pos hne]⟩, hnew, hover, 0, ?_⟩
      rw [hlog, if_pos hne, h.nothing id (Nat.le_of_eq hne)]
      rfl
    · exact (hother id hne).known_iff.mpr (h.known id hid (by omega))
  case unknown =>
    intro id hid
    exact (hother id (by omega)).unknown_iff.mpr (h.unknown id (by omega))
  case nothing =>
    intro id hid
    rw [(hother id (by omega)).types]
    exact h.nothing id (by omega)
  case began =>
    intro id serial hmem
    rcases hstep.began hmem with hold | ⟨_, rfl, _⟩
    · have hrange := h.began id serial hold
      omega
    · omega

/-- The end of a transaction is told in all three places. -/
theorem story_finish {m : Main} (h : Story m) {txnId : Nat} {txn : Transaction}
    (outcome : Outcome) (hfound : m.tm.activeTransactions[txnId]? = some txn)
    (hstep : Step m (.finish txnId outcome) (m.finish txnId outcome)) :
    Story (m.finish txnId outcome) := by
  obtain ⟨hrun, hrange⟩ := h.running hfound
  have hactive : ∀ id, (m.finish txnId outcome).tm.activeTransactions[id]? = _ :=
    fun id => m.tm.active_complete txnId id outcome
  have hdone : ∀ id, (m.finish txnId outcome).tm.completedTransactions[id]? = _ :=
    fun id => m.tm.completed_complete txnId id outcome
  have hover : ∀ id, id ∈ (m.finish txnId outcome).lockMgr.completedTransactions ↔
      id = txnId ∨ id ∈ m.lockMgr.completedTransactions :=
    fun _ => m.lockMgr.mem_completeTransaction_completed
  have hlog : ∀ id, typesOf (m.finish txnId outcome).logMgr.written id =
      typesOf m.logMgr.written id ++ if txnId = id then [outcome.logType] else [] :=
    fun id => typesOf_writeLog _ _ id _
  have hended : Ended (m.finish txnId outcome) txnId := by
    obtain ⟨_, _, _, k, htypes⟩ := hrun
    refine ⟨outcome, ?_, ⟨{ txn with state := outcome.state }, ?_, rfl⟩, ?_, k, ?_⟩
    · rw [hactive, if_pos rfl]
    · rw [hdone, if_pos rfl, hfound]
      rfl
    · exact (hover txnId).mpr (Or.inl rfl)
    · rw [hlog, if_pos rfl, htypes, closedTypes]
  refine h.touch (m.tm.complete_counters txnId outcome).1 (fun id serial hmem => ?_) fun id => ?_
  · rcases hstep.began hmem with hold | ⟨heq, _⟩
    · exact hold
    · cases heq
  · by_cases hne : txnId = id
    · subst hne
      exact .inr ⟨hrange, .inr hended⟩
    · refine .inl ⟨?_, ?_, ?_, ?_⟩
      · rw [hactive, if_neg hne]
      · rw [hdone, if_neg hne]
      · rw [hover, or_iff_right (Ne.symm hne)]
      · rw [hlog, if_neg hne, List.append_nil]

/-- A write adds an UPDATE to the records of a running transaction. -/
theorem story_update {m m' : Main} (h : Story m) {txnId : Nat}
    (hactive : m.tm.isTransactionActive txnId = true) (htm : m'.tm = m.tm)
    (hover : ∀ id, id ∈ m'.lockMgr.completedTransactions ↔ id ∈ m.lockMgr.completedTransactions)
    (hlog : ∀ id, typesOf m'.logMgr.written id =
      typesOf m.logMgr.written id ++ if txnId = id then [.update] else [])
    (hbegan : ∀ id serial, Event.began id serial ∈ m'.trace → Event.began id serial ∈ m.trace) :
    Story m' := by
  obtain ⟨txn, hfound⟩ := m.tm.isTransactionActive_iff.mp hactive
  obtain ⟨hrun, hrange⟩ := h.running hfound
  have hruns : Running m' txnId := by
    obtain ⟨ha, hnew, hfree, k, htypes⟩ := hrun
    refine ⟨htm ▸ ha, htm ▸ hnew, fun hc => hfree ((hover txnId).mp hc), k + 1, ?_⟩
    rw [hlog, if_pos rfl, htypes, openTypes_update]
  refine h.touch (by rw [htm]) hbegan fun id => ?_
  by_cases hne : txnId = id
  · subst hne
    exact .inr ⟨hrange, .inl hruns⟩
  · exact .inl ⟨by rw [htm], by rw [htm], hover id, by rw [hlog, if_neg hne, List.append_nil]⟩

/-- A checkpoint is logged under id 0. -/
theorem story_checkpoint {m : Main} (h : Story m) : Story m.checkpoint := by
  have hlog : ∀ id, typesOf m.checkpoint.logMgr.written id =
      typesOf m.logMgr.written id ++ if 0 = id then [.checkpoint] else [] := by
    intro id
    have hflush : m.checkpoint.logMgr.written = (m.writeLog 0 .checkpoint).logMgr.written :=
      LogManager.written_flushLogs _
    rw [hflush, typesOf_writeLog]
  have hother : ∀ id, 0 < id → SameAt m m.checkpoint id := by
    intro id hpos
    refine ⟨rfl, rfl, Iff.rfl, ?_⟩
    rw [hlog, if_neg (by omega), List.append_nil]
  constructor
  case next_pos => exact h.next_pos
  case known =>
    intro id hpos hlt
    exact (hother id hpos).known_iff.mpr (h.known id hpos hlt)
  case unknown =>
    intro id hid
    obtain ⟨ha, hc, hover, htypes⟩ := h.unknown id hid
    refine ⟨ha, hc, hover, fun type htype => ?_⟩
    rw [hlog] at htype
    rcases List.mem_append.mp htype with hold | hnew
    · exact htypes type hold
    · split at hnew
      · exact List.mem_singleton.mp hnew
      · cases hnew
  case nothing =>
    intro id hid
    have hpos : 0 < id := Nat.lt_of_lt_of_le h.next_pos hid
    rw [(hother id hpos).types]
    exact h.nothing id hid
  case began => exact h.began

theorem opens_checkpoints {types : List LogType} (h : ∀ type ∈ types, type = .checkpoint) :
    types.foldl LogType.opens false = false := by
  induction types with
  | nil => rfl
  | cons type types ih =>
      rw [h type List.mem_cons_self]
      exact ih fun type' hmem => h type' (List.mem_cons_of_mem _ hmem)

/-- RECOVER logs an ABORT for each id that its log leaves open. -/
theorem typesOf_recover (m : Main) (id : Nat) : typesOf m.recover.logMgr.written id =
    typesOf m.logMgr.written id ++
      if (typesOf m.logMgr.written id).foldl LogType.opens false then [.abort] else [] := by
  have hwritten : m.recover.logMgr.written = m.logMgr.flushLogs.written ++
      ((RecoveryManager.new m.logMgr.flushLogs).performRecovery m.clock).1.undoRecords :=
    RecoveryManager.performRecovery_written _ _
  have hundo := RecoveryManager.typesOf_undoRecords (RecoveryManager.new m.logMgr.flushLogs)
    m.clock id
  rw [hwritten, typesOf_append, hundo, LogManager.written_flushLogs]
  rfl

/-- RECOVER ends what runs, and nothing else. -/
theorem story_recover {m : Main} (h : Story m) : Story m.recover := by
  have hactive : ∀ id, m.recover.tm.activeTransactions[id]? = none := m.tm.active_abortAll
  have hdone : ∀ id, m.recover.tm.completedTransactions[id]? = _ := m.tm.completed_abortAll
  have hover : ∀ id, id ∈ m.recover.lockMgr.completedTransactions ↔
      (∃ txn, m.tm.activeTransactions[id]? = some txn) ∨
        id ∈ m.lockMgr.completedTransactions := by
    intro id
    rw [← TransactionManager.mem_getActiveTransactionIds]
    exact mem_completeAll
  have hlog := m.typesOf_recover
  have hunknown : ∀ id, Unknown m id → SameAt m m.recover id := by
    intro id ⟨ha, hc, hfree, htypes⟩
    refine ⟨?_, ?_, ?_, ?_⟩
    · rw [hactive, ha]
    · rw [hdone, ha, hc]
      rfl
    · rw [hover, ha]
      exact or_iff_right fun ⟨_, hsome⟩ => nomatch hsome
    · rw [hlog, opens_checkpoints htypes]
      exact List.append_nil _
  have hended : ∀ id, Running m id ∨ Ended m id → Ended m.recover id := by
    rintro id (⟨⟨txn, ha⟩, _, _, k, htypes⟩ | ⟨outcome, ha, ⟨txn, hc, hstate⟩, hmem, k, htypes⟩)
    · refine ⟨.abort, hactive id, ⟨{ txn with state := .aborted }, ?_, rfl⟩, ?_, k, ?_⟩
      · rw [hdone, ha]
        rfl
      · exact (hover id).mpr (Or.inl ⟨txn, ha⟩)
      · rw [hlog, htypes, opens_openTypes]
        rfl
    · refine ⟨outcome, hactive id, ⟨txn, ?_, hstate⟩, (hover id).mpr (Or.inr hmem), k, ?_⟩
      · rw [hdone, ha, hc]
        rfl
      · rw [hlog, htypes, opens_closedTypes]
        exact List.append_nil _
  refine h.touch m.tm.counters_abortAll.1 (fun id serial hmem => ?_) fun id => ?_
  · rcases Step.recover.began hmem with hold | ⟨heq, _⟩
    · exact hold
    · cases heq
  · by_cases hrange : 0 < id ∧ id < m.tm.nextTransactionId
    · exact .inr ⟨hrange, .inr (hended id (h.known id hrange.1 hrange.2))⟩
    · exact .inl (hunknown id (h.unknown id (by omega)))

/-- Every step keeps the story. -/
theorem Story.step {m m' : Main} {a : Act} (hs : Step m a m') (hroom : IdsLeft m a)
    (h : Story m) : Story m' := by
  have hbegan : a ≠ .begin → ∀ id serial, Event.began id serial ∈ m'.trace →
      Event.began id serial ∈ m.trace := by
    intro hne id serial hmem
    rcases hs.began hmem with hold | ⟨heq, _⟩
    · exact hold
    · exact absurd heq hne
  cases hs with
  | print | drop | issue =>
      exact h.congr rfl (fun _ => Iff.rfl) (fun _ => rfl) (hbegan (by simp))
  | create path parent value =>
      have hdone := congrArg LockTable.Table.done (m.createResource_table path parent value)
      exact h.congr rfl (fun id => Set.ext_iff.mp hdone id) (fun _ => rfl) (hbegan (by simp))
  | begin fresh => exact story_start h hroom (.begin fresh)
  | refuse =>
      exact h.congr rfl (fun _ => LockManager.mem_requestLock_completed m.lockMgr) (fun _ => rfl)
        (hbegan (by simp))
  | @execute c before later txnId resourceId access waits label active stored granted =>
      have hover : ∀ id,
          id ∈ (m.lockMgr.requestLock txnId resourceId access.mode).2.completedTransactions ↔
            id ∈ m.lockMgr.completedTransactions :=
        fun _ => LockManager.mem_requestLock_completed m.lockMgr
      cases access with
      | read => exact h.congr rfl hover (fun _ => rfl) (hbegan (by simp))
      | write =>
          refine story_update h active rfl hover (fun id => ?_) (hbegan (by simp))
          exact typesOf_writeLog _ txnId id .update
  | finish active => exact story_finish h _ active (.finish active)
  | checkpoint => exact story_checkpoint h
  | recover => exact story_recover h

/-- Along every run with few transactions on a new log. -/
theorem story_after (alloc : List Nat) (clock : List Int) {input : List Command}
    (hfew : FewBegins input) : Story (after ⟨alloc, clock, []⟩ input) :=
  after_invariant_of_few Story.step (story_init alloc clock) hfew

/-! ## What the three places say of an id -/

/-- The id is active in the transaction manager exactly when it is not completed
in the lock manager and exactly when the analysis of the log finds it
incomplete.  Its records are a BEGIN, UPDATEs and at most one COMMIT or ABORT,
as its state says. -/
structure SameStory (m : Main) (id : Nat) : Prop where
  locks : id ∈ m.tm.activeTransactions ↔ id ∉ m.lockMgr.completedTransactions
  log : id ∈ m.tm.activeTransactions ↔
    id ∈ (RecoveryManager.new (.openOn m.logMgr.written)).analyze.incompleteTxns
  records : ∃ k ending, typesOf m.logMgr.written id = .begin :: List.replicate k .update ++ ending ∧
    (ending = [] ∨ ending = [.commit] ∨ ending = [.abort]) ∧
    (ending = [.commit] ↔ ∃ txn, m.tm.getTransaction id = some txn ∧ txn.state = .committed) ∧
    (ending = [.abort] ↔ ∃ txn, m.tm.getTransaction id = some txn ∧ txn.state = .aborted)

theorem Running.same {m : Main} {id : Nat} (h : Running m id) : SameStory m id := by
  obtain ⟨⟨txn, hactive⟩, _, hover, k, htypes⟩ := h
  have hmem : id ∈ m.tm.activeTransactions :=
    ExtTreeMap.isSome_getElem?_iff_mem.mp (by rw [hactive]; rfl)
  have hget : m.tm.getTransaction id = some txn := by
    rw [TransactionManager.getTransaction, hactive]
  have hstate := (m.tm.active_filed id txn hactive).2
  constructor
  case locks => exact iff_of_true hmem hover
  case log =>
    refine iff_of_true hmem ((RecoveryManager.mem_analyze_incomplete _).mpr (leftOpen_iff.mpr ?_))
    exact htypes ▸ opens_openTypes k
  case records =>
    refine ⟨k, [], by rw [htypes, List.append_nil, openTypes], Or.inl rfl, ?_, ?_⟩
    · simp [hget, hstate]
    · simp [hget, hstate]

theorem Ended.same {m : Main} {id : Nat} (h : Ended m id) : SameStory m id := by
  obtain ⟨outcome, hnone, ⟨txn, hdone, hstate⟩, hover, k, htypes⟩ := h
  have hmem : id ∉ m.tm.activeTransactions := by
    rw [← ExtTreeMap.isSome_getElem?_iff_mem, hnone]
    simp
  have hget : m.tm.getTransaction id = some txn := by
    rw [TransactionManager.getTransaction, hnone]
    exact hdone
  constructor
  case locks => exact iff_of_false hmem (not_not_intro hover)
  case log =>
    refine iff_of_false hmem fun hopen => ?_
    have h := leftOpen_iff.mp ((RecoveryManager.mem_analyze_incomplete _).mp hopen)
    have htypes' : typesOf (LogManager.openOn m.logMgr.written).readLogs id = _ := htypes
    rw [RecoveryManager.new, htypes', opens_closedTypes] at h
    cases h
  case records =>
    refine ⟨k, [outcome.logType], htypes, ?_, ?_, ?_⟩
    · cases outcome <;> simp [Outcome.logType]
    · cases outcome <;> simp [hget, hstate, Outcome.logType, Outcome.state]
    · cases outcome <;> simp [hget, hstate, Outcome.logType, Outcome.state]

/-- The transaction manager, the lock manager and the log tell the same story of
every id that BEGIN handed out. -/
theorem same_story (alloc : List Nat) (clock : List Int) (input : List Command)
    (hfew : FewBegins input) (id serial : Nat)
    (hbegan : Event.began id serial ∈ (after ⟨alloc, clock, []⟩ input).trace) :
    SameStory (after ⟨alloc, clock, []⟩ input) id := by
  have hstory := story_after alloc clock hfew
  obtain ⟨hpos, hlt⟩ := hstory.began id serial hbegan
  rcases hstory.known id hpos hlt with hrun | hended
  · exact hrun.same
  · exact hended.same

/-- Transaction T1 writes A and commits. -/
def oneWrite : List Command :=
  [{ op := .begin, txnLabel := ['T', '1'] },
    { op := .write, txnLabel := ['T', '1'], resourceName := ['A'], value := 5 },
    { op := .commit, txnLabel := ['T', '1'] }]

theorem same_story_oneWrite : SameStory (after ⟨[], [], []⟩ oneWrite) 1 :=
  same_story [] [] oneWrite (by decide) 1 0 (by decide)

end Main

end TxnEngine
