import TxnEngine.Library.Schedule
import TxnEngine.Main.Steps

/-!
# Serial equivalence

The READs and WRITEs that the engine executed, regrouped transaction by
transaction in the order of completion, replay from the initial values: every
READ finds the value it printed, and every record ends with its value
(`serially_equivalent`).  An aborted transaction takes part like a committed
one, since ABORT leaves its writes in place.

The proof has four invariants.  `Ids` says which ids are active, completed and
unknown.  `Locking` says that an executed operation has its lock until its
transaction is completed, and so the history is rigorous (`Strict`).  `Valued`
says that the operations in the order in which they were executed account for
the values of all records.
-/

namespace TxnEngine

open Std Runs Schedule

/-! ## Operations on values -/

/-- The values of the records. -/
abbrev Values : Type := Nat → Option Int32

namespace Operation

/-- Execute an operation again.  A READ fails unless it finds the value that it
found in the run. -/
def exec (values : Values) (op : Operation) : Option Values :=
  match op.access with
  | .read => if (values op.resourceId).getD 0 = op.value then some values else none
  | .write =>
      some (Function.update values op.resourceId ((values op.resourceId).map fun _ => op.value))

/-- Both work on one record, and one of them writes. -/
def Conflict (a b : Operation) : Prop :=
  a.resourceId = b.resourceId ∧ (a.access = .write ∨ b.access = .write)

theorem exec_read {op : Operation} (h : op.access = .read) (values : Values) :
    op.exec values = if (values op.resourceId).getD 0 = op.value then some values else none := by
  rw [exec, h]

theorem exec_write {op : Operation} (h : op.access = .write) (values : Values) :
    op.exec values = some (Function.update values op.resourceId
      ((values op.resourceId).map fun _ => op.value)) := by
  rw [exec, h]

/-- A READ and a WRITE of another record commute. -/
theorem commute_read_write {a b : Operation} (ha : a.access = .read) (hb : b.access = .write)
    (hne : a.resourceId ≠ b.resourceId) : Commute exec a b := by
  intro values
  rw [exec_read ha, exec_write hb, Option.bind_some, exec_read ha, Function.update_of_ne hne]
  split
  · rw [Option.bind_some, exec_write hb]
  · rfl

/-- Operations that do not conflict commute. -/
theorem commute_of_not_conflict {a b : Operation} (h : ¬ a.Conflict b) : Commute exec a b := by
  cases ha : a.access with
  | read =>
      cases hb : b.access with
      | read =>
          intro values
          rw [exec_read ha, exec_read hb]
          split <;> split <;> simp_all [exec_read]
      | write =>
          exact commute_read_write ha hb fun heq => h ⟨heq, Or.inr hb⟩
  | write =>
      have hne : a.resourceId ≠ b.resourceId := fun heq => h ⟨heq, Or.inl ha⟩
      cases hb : b.access with
      | read =>
          intro values
          exact (commute_read_write hb ha hne.symm values).symm
      | write =>
          intro values
          rw [exec_write ha, exec_write hb, Option.bind_some, Option.bind_some, exec_write ha,
            exec_write hb, Function.update_of_ne hne, Function.update_of_ne hne.symm,
            Function.update_comm hne]

/-- An operation does not see a record other than its own. -/
theorem exec_update {op : Operation} {id : Nat} (hne : op.resourceId ≠ id) (values : Values)
    (value : Option Int32) : exec (Function.update values id value) op =
      (exec values op).map fun values => Function.update values id value := by
  cases h : op.access with
  | read =>
      rw [exec_read h, exec_read h, Function.update_of_ne hne]
      split <;> rfl
  | write =>
      rw [exec_write h, exec_write h, Function.update_of_ne hne, Option.map_some,
        Function.update_comm hne]

theorem replay_update {id : Nat} {value : Option Int32} : ∀ {operations : List Operation},
    (∀ op ∈ operations, op.resourceId ≠ id) → ∀ values : Values,
      replay exec (Function.update values id value) operations =
        (replay exec values operations).map fun values => Function.update values id value
  | [], _, _ => rfl
  | op :: operations, hne, values => by
      rw [replay, replay, exec_update (hne op List.mem_cons_self)]
      cases exec values op with
      | none => rfl
      | some values' =>
          exact replay_update (fun op' hop' => hne op' (List.mem_cons_of_mem op hop')) values'

end Operation

/-! ## What the trace says -/

/-- The part of an event in the history of operations and completions. -/
def Event.entry : Event → Option (Entry Nat Operation)
  | .executed op => some (.op op)
  | .completed id _ _ => some (.done id)
  | _ => none

/-- The operations and the completions. -/
def history (trace : List Event) : List (Entry Nat Operation) := trace.filterMap Event.entry

/-- The operations in the order in which they were executed. -/
def operations (trace : List Event) : List Operation := ops (history trace)

/-- The completed transactions in the order of completion. -/
def completions (trace : List Event) : List Nat := dones (history trace)

/-- The value that an event gives to a new record. -/
def Event.initialValue (id : Nat) : Event → Option Int32
  | .created id' value => if id' = id then some value else none
  | _ => none

/-- The values with which the records were created. -/
def initialValues (trace : List Event) : Values :=
  fun id => trace.findSome? (Event.initialValue id)

@[simp] theorem history_append (trace events : List Event) :
    history (trace ++ events) = history trace ++ history events := List.filterMap_append

@[simp] theorem operations_append (trace events : List Event) :
    operations (trace ++ events) = operations trace ++ operations events := by
  rw [operations, history_append, ops_append]
  rfl

theorem mem_operations {trace : List Event} {op : Operation} :
    op ∈ operations trace ↔ Event.executed op ∈ trace := by
  induction trace with
  | nil => exact iff_of_false List.not_mem_nil List.not_mem_nil
  | cons event trace ih =>
      cases event with
      | executed op' =>
          show op ∈ op' :: operations trace ↔ _
          rw [List.mem_cons, List.mem_cons, ih, Event.executed.injEq]
      | _ =>
          show op ∈ operations trace ↔ _
          simp [ih]

theorem initialValues_append (trace events : List Event) (id : Nat) :
    initialValues (trace ++ events) id = (initialValues trace id).or (initialValues events id) :=
  List.findSome?_append

namespace Main

/-! ## The history of a step -/

/-- The operation of a granted command. -/
def operationOf (m : Main) (access : Access) (c : Issued) (txnId resourceId : Nat) : Operation where
  line := c.line
  transactionId := txnId
  serial := m.serialOf txnId
  resourceId := resourceId
  access := access
  value := match access with
    | .read => m.valueOf resourceId
    | .write => c.command.value

theorem trace_perform (m : Main) (access : Access) (c : Issued) (txnId resourceId : Nat) :
    (m.perform access c txnId resourceId).trace =
      m.trace ++ [.executed (m.operationOf access c txnId resourceId)] := by
  cases access <;> rfl

theorem history_perform (m : Main) (access : Access) (c : Issued) (txnId resourceId : Nat) :
    history (m.perform access c txnId resourceId).trace =
      history m.trace ++ [.op (m.operationOf access c txnId resourceId)] := by
  rw [trace_perform, history_append]
  rfl

theorem history_issue (m : Main) (cmd : Command) :
    history (m.issue cmd).2.trace = history m.trace := by
  show history (m.trace ++ ((m.ownerOf cmd.txnLabel).map _).toList) = _
  rw [history_append]
  cases m.ownerOf cmd.txnLabel <;> exact List.append_nil _

theorem history_recover (m : Main) : history m.recover.trace =
    history m.trace ++ m.tm.getActiveTransactionIds.map .done := by
  have hdiscarded : ∀ pending : List Issued,
      history (pending.map fun c => Event.discarded c.line) = [] := by
    intro pending
    induction pending with
    | nil => rfl
    | cons c pending ih => exact ih
  have hcompleted : ∀ ids : List Nat,
      history (ids.map fun id => Event.completed id (m.serialOf id) .abort) = ids.map .done := by
    intro ids
    induction ids with
    | nil => rfl
    | cons id ids ih => exact congrArg (.done id :: ·) ih
  show history (m.trace ++ .recovered :: (_ ++ _)) = _
  rw [history_append]
  refine congrArg _ ?_
  show history (_ ++ _) = _
  rw [history_append, hdiscarded, hcompleted, List.nil_append]

theorem operations_perform (m : Main) (access : Access) (c : Issued) (txnId resourceId : Nat) :
    operations (m.perform access c txnId resourceId).trace =
      operations m.trace ++ [m.operationOf access c txnId resourceId] := by
  rw [trace_perform, operations_append]
  rfl

theorem operations_recover (m : Main) : operations m.recover.trace = operations m.trace := by
  rw [operations, history_recover, ops_append, ops_map_done, List.append_nil]
  rfl

/-- The trace only grows. -/
theorem Step.trace {m m' : Main} {a : Act} (h : Step m a m') :
    ∃ events, m'.trace = m.trace ++ events := by
  cases h with
  | print | drop | checkpoint | refuse => exact ⟨[], (List.append_nil _).symm⟩
  | create | begin | issue | finish | recover => exact ⟨_, rfl⟩
  | execute access => exact ⟨_, trace_perform _ access _ _ _⟩

/-- Only granted commands are operations. -/
theorem Step.operations {m m' : Main} {a : Act} (h : Step m a m')
    (hexecute : ∀ c, a ≠ .execute c) :
    TxnEngine.operations m'.trace = TxnEngine.operations m.trace := by
  cases h with
  | print | drop | checkpoint | refuse => rfl
  | create | begin | finish => exact (operations_append _ _).trans (List.append_nil _)
  | issue => exact congrArg ops (m.history_issue _)
  | execute => exact absurd rfl (hexecute _)
  | recover => exact m.operations_recover

/-! ## Ids -/

/-- Which ids are active, completed and unknown, and in which order they were
completed. -/
structure Ids (m : Main) : Prop where
  open_ids : ∀ id ∈ m.tm.getActiveTransactionIds, id ∉ m.lockMgr.completedTransactions
  known : ∀ id, id ∈ m.tm.getActiveTransactionIds ∨ id ∈ m.lockMgr.completedTransactions →
    id < m.tm.nextTransactionId
  completed : ∀ id, id ∈ completions m.trace ↔ id ∈ m.lockMgr.completedTransactions
  once : (completions m.trace).Nodup
  owned : ∀ op ∈ operations m.trace, op.transactionId ∈ m.tm.getActiveTransactionIds ∨
    op.transactionId ∈ m.lockMgr.completedTransactions

theorem ids_init (env : Environment) : Ids (init env) where
  open_ids := by
    intro id _ hmem
    cases hmem
  known := by
    intro id hid
    rcases hid with hactive | hmem
    · cases hactive
    · cases hmem
  completed := fun id => iff_of_false List.not_mem_nil fun hmem => by cases hmem
  once := List.nodup_nil
  owned := by
    intro op hop
    cases hop

/-- The ids depend on the active ids, the counter, the completed set and the
history. -/
theorem Ids.congr {m m' : Main} (h : Ids m) (htm : m'.tm = m.tm)
    (hover : ∀ id, id ∈ m'.lockMgr.completedTransactions ↔ id ∈ m.lockMgr.completedTransactions)
    (hhist : history m'.trace = history m.trace) : Ids m' where
  open_ids := by
    intro id hid
    rw [hover]
    exact h.open_ids id (htm ▸ hid)
  known := by
    intro id hid
    rw [hover, htm] at hid
    rw [htm]
    exact h.known id hid
  completed := by
    intro id
    rw [hover, completions, hhist]
    exact h.completed id
  once := by
    rw [completions, hhist]
    exact h.once
  owned := by
    intro op hop
    rw [operations, hhist] at hop
    rw [hover, htm]
    exact h.owned op hop

/-- BEGIN makes the next id active. -/
theorem ids_start {m : Main} (h : Ids m) {txnLabel : Name}
    (hroom : m.tm.nextTransactionId + 1 < 2 ^ 32) : Ids (m.start txnLabel) := by
  have hnext : (m.start txnLabel).tm.nextTransactionId = m.tm.nextTransactionId + 1 :=
    succ32_of_lt hroom
  have hactive : ∀ id, id ∈ (m.start txnLabel).tm.getActiveTransactionIds ↔
      id = m.tm.nextTransactionId ∨ id ∈ m.tm.getActiveTransactionIds :=
    fun _ => m.tm.mem_activeIds_begin
  have hhist : history (m.start txnLabel).trace = history m.trace :=
    (history_append _ _).trans (List.append_nil _)
  constructor
  case open_ids =>
    intro id hid hmem
    rcases (hactive id).mp hid with rfl | hold
    · exact Nat.lt_irrefl _ (h.known _ (Or.inr hmem))
    · exact h.open_ids id hold hmem
  case known =>
    intro id hid
    rw [hactive, or_assoc] at hid
    rw [hnext]
    rcases hid with rfl | hold
    · exact Nat.lt_succ_self _
    · exact Nat.lt_succ_of_lt (h.known id hold)
  case completed =>
    intro id
    rw [completions, hhist]
    exact h.completed id
  case once =>
    rw [completions, hhist]
    exact h.once
  case owned =>
    intro op hop
    rw [operations, hhist] at hop
    rw [hactive, or_assoc]
    exact Or.inr (h.owned op hop)

/-- A completion of active ids takes them from the active ones to the completed
ones. -/
theorem Ids.complete {m m' : Main} (h : Ids m) (ids : List Nat) (hids : ids.Nodup)
    (hfrom : ∀ id ∈ ids, id ∈ m.tm.getActiveTransactionIds)
    (hnext : m'.tm.nextTransactionId = m.tm.nextTransactionId)
    (hactive : ∀ id, id ∈ m'.tm.getActiveTransactionIds ↔
      id ∉ ids ∧ id ∈ m.tm.getActiveTransactionIds)
    (hover : ∀ id, id ∈ m'.lockMgr.completedTransactions ↔
      id ∈ ids ∨ id ∈ m.lockMgr.completedTransactions)
    (hhist : history m'.trace = history m.trace ++ ids.map .done) : Ids m' := by
  have hops : operations m'.trace = operations m.trace := by
    rw [operations, hhist, ops_append, ops_map_done, List.append_nil]
    rfl
  have hdones : completions m'.trace = completions m.trace ++ ids := by
    rw [completions, hhist, dones_append, dones_map_done]
    rfl
  constructor
  case open_ids =>
    intro id hid hmem
    obtain ⟨hout, hold⟩ := (hactive id).mp hid
    exact h.open_ids id hold (((hover id).mp hmem).resolve_left hout)
  case known =>
    intro id hid
    rw [hnext]
    rw [hactive, hover] at hid
    rcases hid with ⟨_, hold⟩ | hnew | hold
    · exact h.known id (Or.inl hold)
    · exact h.known id (Or.inl (hfrom id hnew))
    · exact h.known id (Or.inr hold)
  case completed =>
    intro id
    rw [hdones, hover, List.mem_append, h.completed, or_comm]
  case once =>
    rw [hdones]
    refine List.nodup_append'.mpr ⟨h.once, hids, fun id hdone hid => ?_⟩
    exact h.open_ids id (hfrom id hid) ((h.completed id).mp hdone)
  case owned =>
    intro op hop
    rw [hops] at hop
    rw [hactive, hover]
    by_cases hid : op.transactionId ∈ ids
    · exact Or.inr (Or.inl hid)
    · rcases h.owned op hop with hold | hold
      · exact Or.inl ⟨hid, hold⟩
      · exact Or.inr (Or.inr hold)

/-- An operation of an active transaction joins the history. -/
theorem Ids.op {m m' : Main} (h : Ids m) (op : Operation)
    (hid : op.transactionId ∈ m.tm.getActiveTransactionIds) (htm : m'.tm = m.tm)
    (hlocks : m'.lockMgr = m.lockMgr) (hhist : history m'.trace = history m.trace ++ [.op op]) :
    Ids m' := by
  have hops : operations m'.trace = operations m.trace ++ [op] := by
    rw [operations, hhist, ops_append]
    rfl
  have hdones : completions m'.trace = completions m.trace := by
    rw [completions, hhist, dones_append]
    exact List.append_nil _
  constructor
  case open_ids =>
    rw [htm, hlocks]
    exact h.open_ids
  case known =>
    rw [htm, hlocks]
    exact h.known
  case completed =>
    rw [hdones, hlocks]
    exact h.completed
  case once =>
    rw [hdones]
    exact h.once
  case owned =>
    intro op' hop'
    rw [htm, hlocks]
    rw [hops] at hop'
    rcases List.mem_append.mp hop' with hold | hnew
    · exact h.owned op' hold
    · rw [List.mem_singleton.mp hnew]
      exact Or.inl hid

theorem Ids.step {m m' : Main} {a : Act} (hs : Step m a m') (hroom : IdsLeft m a) (h : Ids m) :
    Ids m' := by
  cases hs with
  | print | drop | checkpoint => exact h.congr rfl (fun _ => Iff.rfl) rfl
  | create path parent value =>
      have hdone := congrArg LockTable.Table.done (m.createResource_table path parent value)
      exact h.congr rfl (fun id => Set.ext_iff.mp hdone id)
        ((history_append _ _).trans (List.append_nil _))
  | begin fresh => exact ids_start h hroom
  | issue => exact h.congr rfl (fun _ => Iff.rfl) (m.history_issue _)
  | refuse => exact h.congr rfl (fun _ => m.lockMgr.mem_requestLock_completed) rfl
  | @execute c before later txnId resourceId access waits label active stored granted =>
      have hid : txnId ∈ m.tm.getActiveTransactionIds :=
        m.tm.mem_getActiveTransactionIds.mpr (m.tm.isTransactionActive_iff.mp active)
      have hrequested : Ids (m.requested txnId resourceId access.mode) :=
        h.congr rfl (fun _ => m.lockMgr.mem_requestLock_completed) rfl
      refine hrequested.op ((m.requested txnId resourceId access.mode).operationOf access c
        txnId resourceId) hid ?_ ?_ (history_perform _ access c txnId resourceId)
      · cases access <;> rfl
      · cases access <;> rfl
  | @finish txnId outcome txn active =>
      have hid := m.tm.mem_getActiveTransactionIds.mpr ⟨txn, active⟩
      refine h.complete [txnId] (List.nodup_singleton _) ?_ (m.tm.complete_counters _ _).1 ?_ ?_
        (history_append _ _)
      · simpa using hid
      · intro id
        rw [List.mem_singleton]
        exact m.tm.mem_activeIds_complete
      · intro id
        rw [List.mem_singleton]
        exact m.lockMgr.mem_completeTransaction_completed
  | recover =>
      refine h.complete _ m.tm.nodup_activeIds (fun _ hid => hid) m.tm.counters_abortAll.1 ?_
        (fun _ => mem_completeAll) m.history_recover
      intro id
      exact iff_of_false m.tm.activeIds_abortAll fun hid => hid.1 hid.2

/-! ## Locks -/

/-- The transaction of the operation has a lock on its record, and an exclusive
one if it writes. -/
def Holds (lm : LockManager) (op : Operation) : Prop :=
  (∃ mode, (op.transactionId, mode) ∈ lm.table.held op.resourceId) ∧
    (op.access = .write → (op.transactionId, .exclusive) ∈ lm.table.held op.resourceId)

theorem Holds.mono {lm lm' : LockManager} {op : Operation} (h : Holds lm op)
    (hreach : LocksReach lm.table lm'.table)
    (hopen : op.transactionId ∉ lm'.completedTransactions) : Holds lm' op :=
  ⟨LockTable.Reaches.retains hreach hopen h.1, fun hwrite =>
    LockTable.Reaches.keeps hreach hopen (fun hconv => hconv rfl) (h.2 hwrite)⟩

/-- Two transactions do not both have their locks for conflicting operations. -/
theorem Holds.not_conflict {lm : LockManager} {a b : Operation} (ha : Holds lm a)
    (hb : Holds lm b) (hcompat : lm.table.Compatible Fits)
    (hne : a.transactionId ≠ b.transactionId) : ¬ a.Conflict b := by
  intro hconf
  obtain ⟨hres, hwrites⟩ := hconf
  obtain ⟨⟨mode, hmode⟩, hexcl⟩ := ha
  obtain ⟨⟨mode', hmode'⟩, hexcl'⟩ := hb
  rw [← hres] at hmode' hexcl'
  rcases hwrites with hwrite | hwrite
  · exact not_fits_exclusive mode' (hcompat _ _ _ _ _ (hexcl hwrite) hmode' hne)
  · exact not_fits_exclusive mode (hcompat _ _ _ _ _ (hexcl' hwrite) hmode hne.symm)

/-- A granted operation has its lock. -/
theorem holds_of_granted {lm : LockManager} (op : Operation)
    (granted : (lm.requestLock op.transactionId op.resourceId op.access.mode).1 = true) :
    Holds (lm.requestLock op.transactionId op.resourceId op.access.mode).2 op := by
  obtain ⟨mode, hheld, hmode⟩ := lm.held_of_requestLock granted
  refine ⟨⟨mode, hheld⟩, fun hwrite => ?_⟩
  rw [hwrite] at hheld hmode ⊢
  rcases hmode with rfl | rfl
  · exact hheld
  · exact hheld

/-- Locks are compatible, and operations keep theirs. -/
structure Locking (m : Main) : Prop where
  compatible : m.lockMgr.table.Compatible Fits
  holds : ∀ op ∈ operations m.trace, op.transactionId ∉ m.lockMgr.completedTransactions →
    Holds m.lockMgr op

theorem locking_init (env : Environment) : Locking (init env) where
  compatible := LockManager.compatible_empty env.alloc
  holds := by
    intro op hop
    cases hop

/-- Whatever happens to the locks, the operations so far keep theirs. -/
theorem Locking.move {m m' : Main} (h : Locking m)
    (hreach : LocksReach m.lockMgr.table m'.lockMgr.table)
    (hops : operations m'.trace = operations m.trace) : Locking m' where
  compatible := LockTable.Reaches.compatible fits_symm hreach h.compatible
  holds := by
    intro op hop hopen
    rw [hops] at hop
    exact (h.holds op hop fun hdone => hopen (LockTable.Reaches.done_mono hreach hdone)).mono
      hreach hopen

/-- An operation that has its lock joins the others. -/
theorem Locking.op {m m' : Main} (h : Locking m) {op : Operation} (hop : Holds m.lockMgr op)
    (hlocks : m'.lockMgr = m.lockMgr)
    (hops : operations m'.trace = operations m.trace ++ [op]) : Locking m' where
  compatible := by
    rw [hlocks]
    exact h.compatible
  holds := by
    intro op' hop' hopen
    rw [hlocks] at hopen ⊢
    rw [hops] at hop'
    rcases List.mem_append.mp hop' with hold | hnew
    · exact h.holds op' hold hopen
    · rw [List.mem_singleton.mp hnew]
      exact hop

/-- A lock request moves locks and nothing else. -/
theorem Locking.requested {m : Main} (h : Locking m) (txnId resourceId : Nat)
    (mode : LockType) : Locking (m.requested txnId resourceId mode) :=
  h.move ((m.lockMgr.requestLock_reaches _ _ _).mono fun _ _ _ => trivial) rfl

theorem Locking.step {m m' : Main} {a : Act} (hs : Step m a m') (h : Locking m) :
    Locking m' := by
  have hmove : (∀ c, a ≠ .execute c) → Locking m' :=
    fun hne => h.move hs.locksReach (hs.operations hne)
  cases hs with
  | @execute c before later txnId resourceId access waits label active stored granted =>
      have hop := holds_of_granted ((m.requested txnId resourceId access.mode).operationOf access c
        txnId resourceId) granted
      refine (h.requested txnId resourceId access.mode).op hop ?_
        (operations_perform _ access c txnId resourceId)
      cases access <;> rfl
  | _ =>
      refine hmove fun c heq => ?_
      cases heq

theorem locking_after (env : Environment) (input : List Command) : Locking (after env input) :=
  after_invariant Locking.step (locking_init env) input

/-! ## Rigour -/

/-- The history is rigorous. -/
def Strict (m : Main) : Prop :=
  Rigorous Operation.transactionId Operation.Conflict (history m.trace)

/-- An operation that has its lock comes after the completion of every other
transaction with a conflicting operation. -/
theorem Strict.op {m m' : Main} (h : Strict m) (hids : Ids m) (hlocking : Locking m)
    {op : Operation} (hid : op.transactionId ∈ m.tm.getActiveTransactionIds)
    (hop : Holds m.lockMgr op) (hhist : history m'.trace = history m.trace ++ [.op op]) :
    Strict m' := by
  have hopen := hids.open_ids op.transactionId hid
  rw [Strict, hhist]
  refine Rigorous.op h ⟨fun hdone => hopen ((hids.completed _).mp hdone), ?_⟩
  intro op' hop' hne hconf
  -- an earlier operation whose transaction is not completed still has its lock
  by_contra hnot
  have hheld := hlocking.holds op' hop' fun hdone => hnot ((hids.completed _).mpr hdone)
  exact hheld.not_conflict hop hlocking.compatible hne hconf

theorem Strict.step {m m' : Main} {a : Act} (hs : Step m a m') (hids : Ids m)
    (hlocking : Locking m) (h : Strict m) : Strict m' := by
  have hdones : ∀ ids : List Nat, history m'.trace = history m.trace ++ ids.map .done →
      Strict m' := by
    intro ids hhist
    rw [Strict, hhist]
    exact Rigorous.dones h
  cases hs with
  | print | drop | checkpoint | refuse => exact h
  | create | begin => exact hdones [] (history_append _ _)
  | issue => exact hdones [] ((m.history_issue _).trans (List.append_nil _).symm)
  | @execute c before later txnId resourceId access waits label active stored granted =>
      have hid : txnId ∈ m.tm.getActiveTransactionIds :=
        m.tm.mem_getActiveTransactionIds.mpr (m.tm.isTransactionActive_iff.mp active)
      have hids' : Ids (m.requested txnId resourceId access.mode) :=
        hids.congr rfl (fun _ => m.lockMgr.mem_requestLock_completed) rfl
      have hlocking' := hlocking.requested txnId resourceId access.mode
      have hop := holds_of_granted ((m.requested txnId resourceId access.mode).operationOf access c
        txnId resourceId) granted
      have h' : Strict (m.requested txnId resourceId access.mode) := h
      exact h'.op hids' hlocking' hid hop (history_perform _ access c txnId resourceId)
  | @finish txnId outcome => exact hdones [txnId] (history_append _ _)
  | recover => exact hdones _ m.history_recover

/-! ## Values -/

/-- The operations account for the values of all records. -/
structure Valued (m : Main) : Prop where
  created : ∀ id, (initialValues m.trace id).isSome = (m.resources.dataStore.valueAt id).isSome
  stored : ∀ op ∈ operations m.trace,
    (m.resources.dataStore.valueAt op.resourceId).isSome = true
  replays : replay Operation.exec (initialValues m.trace) (operations m.trace) =
    some m.resources.dataStore.valueAt

theorem valued_init (env : Environment) : Valued (init env) where
  created := fun id => by rw [init, Resources.empty, IntStore.valueAt_empty]; rfl
  stored := by
    intro op hop
    cases hop
  replays := by
    refine congrArg some ?_
    ext1 id
    exact (IntStore.valueAt_empty id).symm

/-- The values depend on the records, their initial values and the operations. -/
theorem Valued.congr {m m' : Main} (h : Valued m)
    (hvalues : m'.resources.dataStore.valueAt = m.resources.dataStore.valueAt)
    (hinit : initialValues m'.trace = initialValues m.trace)
    (hops : operations m'.trace = operations m.trace) : Valued m' where
  created := by
    rw [hinit, hvalues]
    exact h.created
  stored := by
    rw [hops, hvalues]
    exact h.stored
  replays := by
    rw [hinit, hops, hvalues]
    exact h.replays

/-- A record that was not there before has its initial value. -/
theorem Valued.extend {m m' : Main} (h : Valued m) {id : Nat} {value : Int32}
    (hfree : m.resources.dataStore.valueAt id = none)
    (hvalues : m'.resources.dataStore.valueAt =
      Function.update m.resources.dataStore.valueAt id (some value))
    (hinit : initialValues m'.trace = Function.update (initialValues m.trace) id (some value))
    (hops : operations m'.trace = operations m.trace) : Valued m' := by
  constructor
  case created =>
    intro id'
    rw [hvalues, hinit, Function.update_apply, Function.update_apply]
    split
    · rfl
    · exact h.created id'
  case stored =>
    intro op hop
    rw [hops] at hop
    rw [hvalues, Function.update_apply]
    split
    · rfl
    · exact h.stored op hop
  case replays =>
    rw [hvalues, hinit, hops, Operation.replay_update, h.replays]
    · rfl
    · intro op hop heq
      have hstored := h.stored op hop
      rw [heq, hfree] at hstored
      cases hstored

/-- A new record has its initial value.  If the id was in use, the record keeps
its value. -/
theorem valued_create {m : Main} (h : Valued m) (path : Name) (parent : Nat) (value : Int32) :
    Valued (m.createResource path parent value).2 := by
  have hops : operations (m.createResource path parent value).2.trace = operations m.trace :=
    (operations_append _ _).trans (List.append_nil _)
  have hvalues : ∀ id, (m.createResource path parent value).2.resources.dataStore.valueAt id =
      if m.resources.nextResourceId = id then some ((m.resources.dataStore.valueAt id).getD value)
      else m.resources.dataStore.valueAt id :=
    fun id => IntStore.valueAt_insertInt _ _ id value
  have hinit : ∀ id, initialValues (m.createResource path parent value).2.trace id =
      (initialValues m.trace id).or (if m.resources.nextResourceId = id then some value
        else none) := by
    intro id
    refine (initialValues_append _ _ id).trans (congrArg _ ?_)
    show List.findSome? _ [_] = _
    rw [List.findSome?_singleton]
    rfl
  have hused := h.created m.resources.nextResourceId
  cases hold : m.resources.dataStore.valueAt m.resources.nextResourceId with
  | some old =>
      rw [hold, Option.isSome_some] at hused
      refine h.congr (funext fun id => ?_) (funext fun id => ?_) hops
      · rw [hvalues]
        split
        · next heq => rw [← heq, hold, Option.getD_some]
        · rfl
      · rw [hinit]
        split
        · next heq => rw [← heq, Option.or_of_isSome hused]
        · exact Option.or_none
  | none =>
      rw [hold, Option.isSome_none] at hused
      have hvalues' : (m.createResource path parent value).2.resources.dataStore.valueAt =
          Function.update m.resources.dataStore.valueAt m.resources.nextResourceId
            (some value) := by
        ext1 id
        rw [hvalues, Function.update_apply]
        split
        · next heq => rw [if_pos heq.symm, ← heq, hold, Option.getD_none]
        · next hne => rw [if_neg (Ne.symm hne)]
      have hinit' : initialValues (m.createResource path parent value).2.trace =
          Function.update (initialValues m.trace) m.resources.nextResourceId (some value) := by
        ext1 id
        rw [hinit, Function.update_apply]
        split
        · next heq =>
            rw [if_pos heq.symm, ← heq,
              Option.isNone_iff_eq_none.mp (Option.isSome_eq_false_iff.mp hused)]
            rfl
        · next hne => rw [if_neg (Ne.symm hne), Option.or_none]
      exact h.extend hold hvalues' hinit' hops

theorem initialValues_perform (m : Main) (access : Access) (c : Issued)
    (txnId resourceId : Nat) : initialValues (m.perform access c txnId resourceId).trace =
      initialValues m.trace := by
  ext1 id
  rw [trace_perform, initialValues_append]
  exact Option.or_none

/-- A granted command replays. -/
theorem valued_perform {m : Main} (h : Valued m) (access : Access) (c : Issued)
    (txnId resourceId : Nat)
    (hstored : (m.resources.dataStore.valueAt resourceId).isSome = true) :
    Valued (m.perform access c txnId resourceId) := by
  have hinit := m.initialValues_perform access c txnId resourceId
  have hops := m.operations_perform access c txnId resourceId
  have hexec : Operation.exec m.resources.dataStore.valueAt
      (m.operationOf access c txnId resourceId) =
        some (m.perform access c txnId resourceId).resources.dataStore.valueAt := by
    cases access with
    | read =>
        rw [Operation.exec_read rfl]
        exact if_pos rfl
    | write =>
        rw [Operation.exec_write rfl]
        refine congrArg some (funext fun id => ?_)
        refine Eq.trans ?_ (IntStore.valueAt_updateInt _ resourceId id c.command.value).symm
        rw [Function.update_apply]
        show (if id = resourceId then _ else _) = _
        by_cases hid : id = resourceId
        · rw [if_pos hid, if_pos hid.symm, hid]
          rfl
        · rw [if_neg hid, if_neg (Ne.symm hid)]
  have hkeeps : ∀ id, (m.resources.dataStore.valueAt id).isSome = true →
      ((m.perform access c txnId resourceId).resources.dataStore.valueAt id).isSome = true := by
    intro id hid
    cases access with
    | read => exact hid
    | write => exact Resources.isSome_updateInt.trans hid
  constructor
  case created =>
    intro id
    rw [hinit, h.created]
    cases access with
    | read => rfl
    | write => exact Resources.isSome_updateInt.symm
  case stored =>
    intro op hop
    rw [hops] at hop
    rcases List.mem_append.mp hop with hold | hnew
    · exact hkeeps _ (h.stored op hold)
    · rw [List.mem_singleton.mp hnew]
      exact hkeeps _ hstored
  case replays => rw [hinit, hops, replay_concat, h.replays, Option.bind_some, hexec]

theorem Valued.step {m m' : Main} {a : Act} (hs : Step m a m') (h : Valued m) : Valued m' := by
  have hquiet : ∀ {events : List Event}, m'.resources = m.resources →
      m'.trace = m.trace ++ events → (∀ id, initialValues events id = none) →
      operations events = [] → Valued m' := by
    intro events hres htrace hinit hops
    refine h.congr (by rw [hres]) (funext fun id => ?_) ?_
    · rw [htrace, initialValues_append, hinit, Option.or_none]
    · rw [htrace, operations_append, hops, List.append_nil]
  cases hs with
  | print | refuse | drop | checkpoint => exact h.congr rfl rfl rfl
  | create path parent value => exact valued_create h path parent value
  | begin | finish => exact hquiet rfl rfl (fun _ => rfl) rfl
  | @issue cmd =>
      refine hquiet rfl rfl (fun _ => ?_) ?_
      · cases m.ownerOf cmd.txnLabel <;> rfl
      · cases m.ownerOf cmd.txnLabel <;> rfl
  | @execute c before later txnId resourceId access waits label active stored granted =>
      have hrequested : Valued (m.requested txnId resourceId access.mode) := h.congr rfl rfl rfl
      exact (valued_perform hrequested access c txnId resourceId stored).congr rfl rfl rfl
  | recover =>
      refine h.congr rfl (funext fun id => ?_) m.operations_recover
      refine (initialValues_append _ _ id).trans ?_
      have hnone : initialValues m.recoverEvents id = none := by
        rw [initialValues, List.findSome?_eq_none_iff]
        intro event hevent
        rcases mem_recoverEvents.mp hevent with rfl | ⟨_, _, rfl⟩ | ⟨_, _, rfl⟩
        · rfl
        · rfl
        · rfl
      exact (congrArg _ hnone).trans Option.or_none

theorem valued_after (env : Environment) (input : List Command) : Valued (after env input) :=
  after_invariant Valued.step (valued_init env) input

/-! ## The serial trace -/

/-- The transactions in the order of completion, the active ones last in
ascending order. -/
def serialOrder (m : Main) : List Nat := completions m.trace ++ m.tm.getActiveTransactionIds

/-- The operations transaction by transaction, in the serial order. -/
def serialTrace (m : Main) : List Operation :=
  regroup Operation.transactionId m.serialOrder (operations m.trace)

theorem nodup_serialOrder {m : Main} (h : Ids m) : m.serialOrder.Nodup := by
  refine List.nodup_append'.mpr ⟨h.once, m.tm.nodup_activeIds, fun id hdone hactive => ?_⟩
  exact h.open_ids id hactive ((h.completed id).mp hdone)

theorem mem_serialOrder {m : Main} (h : Ids m) :
    ∀ op ∈ operations m.trace, op.transactionId ∈ m.serialOrder := by
  intro op hop
  rcases h.owned op hop with hactive | hdone
  · exact List.mem_append_right _ hactive
  · exact List.mem_append_left _ ((h.completed _).mpr hdone)

/-- The serial trace has the operations of the run.  Replayed from the initial
values, every READ finds the value it found in the run, and every record ends
with its value. -/
theorem serially_equivalent (env : Environment) (input : List Command)
    (hfew : FewBegins input) :
    (after env input).serialTrace.Perm (operations (after env input).trace) ∧
      replay Operation.exec (initialValues (after env input).trace)
        (after env input).serialTrace = some (after env input).resources.dataStore.valueAt := by
  have hinv : Ids (after env input) ∧ Locking (after env input) ∧ Strict (after env input) := by
    refine after_invariant_of_few (I := fun m => Ids m ∧ Locking m ∧ Strict m) ?_
      ⟨ids_init env, locking_init env, rigorous_nil⟩ hfew
    rintro m m' a hs hroom ⟨hids, hlocking, hstrict⟩
    exact ⟨hids.step hs hroom, hlocking.step hs, hstrict.step hs hids hlocking⟩
  obtain ⟨hids, _, hstrict⟩ := hinv
  have hnodup := nodup_serialOrder hids
  have hcover := mem_serialOrder hids
  refine ⟨regroup_perm hnodup hcover, ?_⟩
  have hserial := Rigorous.serial hstrict (fun a b => Operation.commute_of_not_conflict) hnodup
    hcover (initialValues (after env input).trace)
  exact hserial.trans (valued_after env input).replays

/-- T2 waits for the record that T1 wrote, and reads it once T1 aborted. -/
def abortedWrite : List Command :=
  [{ op := .begin, txnLabel := ['T', '1'] }, { op := .begin, txnLabel := ['T', '2'] },
    { op := .write, txnLabel := ['T', '1'], resourceName := ['A'], value := 5 },
    { op := .read, txnLabel := ['T', '2'], resourceName := ['A'] },
    { op := .abort, txnLabel := ['T', '1'] }]

theorem serially_equivalent_abortedWrite :
    replay Operation.exec (initialValues (after ⟨[], [], []⟩ abortedWrite).trace)
        (after ⟨[], [], []⟩ abortedWrite).serialTrace =
      some (after ⟨[], [], []⟩ abortedWrite).resources.dataStore.valueAt :=
  (serially_equivalent ⟨[], [], []⟩ abortedWrite (by decide)).2

end Main

end TxnEngine
