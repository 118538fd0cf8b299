import TxnEngine.Main.Serial

/-!
# Transactions told apart

Ids come round again, so a transaction is an id with a serial.  It is current
while the transaction manager has it as active under its id.  A BEGIN that finds
its id in use puts the new transaction in the place of the old one, which is
then neither current nor completed.

The lock manager knows ids only.  It refuses every request of a completed id, so
a current transaction that has executed an operation has an id that is not
completed (`Serials.locked`).
-/

namespace TxnEngine

open Std Runs

/-- The transaction of an operation. -/
def Operation.transaction (op : Operation) : Nat × Nat := (op.transactionId, op.serial)

/-- The transaction that an event aborts. -/
def Event.abortedTransaction : Event → Option (Nat × Nat)
  | .completed id serial .abort => some (id, serial)
  | _ => none

/-- The transactions that were aborted. -/
def aborted (trace : List Event) : List (Nat × Nat) := trace.filterMap Event.abortedTransaction

namespace Main

/-! ## Current transactions -/

/-- The transaction is active under its id. -/
def Current (m : Main) (t : Nat × Nat) : Prop :=
  ∃ txn, m.tm.activeTransactions[t.1]? = some txn ∧ txn.serial = t.2

theorem Current.congr {m m' : Main} {t : Nat × Nat} (htm : m'.tm = m.tm) :
    Current m' t ↔ Current m t := by rw [Current, Current, htm]

theorem Current.serialOf {m : Main} {t : Nat × Nat} (h : Current m t) :
    m.serialOf t.1 = t.2 := by
  obtain ⟨txn, hfound, hserial⟩ := h
  rw [Main.serialOf, hfound]
  exact hserial

theorem Current.mem_activeIds {m : Main} {t : Nat × Nat} (h : Current m t) :
    t.1 ∈ m.tm.getActiveTransactionIds := by
  obtain ⟨txn, hfound, _⟩ := h
  exact m.tm.mem_getActiveTransactionIds.mpr ⟨txn, hfound⟩

theorem current_of_mem_activeIds {m : Main} {id : Nat}
    (h : id ∈ m.tm.getActiveTransactionIds) : Current m (id, m.serialOf id) := by
  obtain ⟨txn, hfound⟩ := m.tm.mem_getActiveTransactionIds.mp h
  refine ⟨txn, hfound, ?_⟩
  rw [serialOf, hfound]
  rfl

theorem current_of_active {m : Main} {id : Nat} (h : m.tm.isTransactionActive id = true) :
    Current m (id, m.serialOf id) :=
  current_of_mem_activeIds (m.tm.mem_getActiveTransactionIds.mpr
    (m.tm.isTransactionActive_iff.mp h))

/-- An id has one current transaction. -/
theorem Current.unique {m : Main} {t t' : Nat × Nat} (h : Current m t) (h' : Current m t')
    (hid : t.1 = t'.1) : t = t' :=
  Prod.ext hid (by rw [← h.serialOf, ← h'.serialOf, hid])

theorem current_start {m : Main} {txnLabel : Name} {t : Nat × Nat} :
    Current (m.start txnLabel) t ↔ t = (m.tm.nextTransactionId, m.tm.begun) ∨
      t.1 ≠ m.tm.nextTransactionId ∧ Current m t := by
  obtain ⟨id, serial⟩ := t
  show (∃ txn, (m.tm.activeTransactions.insert _ _)[id]? = some txn ∧ txn.serial = serial) ↔ _
  rw [ExtTreeMap.getElem?_insert]
  simp only [Std.compare_eq_iff_eq]
  split
  · next hid =>
      subst hid
      constructor
      · rintro ⟨txn, hfound, hserial⟩
        cases hfound
        exact Or.inl (Prod.ext rfl hserial.symm)
      · rintro (heq | ⟨hne, _⟩)
        · cases heq
          exact ⟨_, rfl, rfl⟩
        · exact absurd rfl hne
  · next hid =>
      constructor
      · exact fun h => Or.inr ⟨Ne.symm hid, h⟩
      · rintro (heq | ⟨_, h⟩)
        · cases heq
          exact absurd rfl hid
        · exact h

theorem current_finish {m : Main} {txnId : Nat} {outcome : Outcome} {t : Nat × Nat} :
    Current (m.finish txnId outcome) t ↔ t.1 ≠ txnId ∧ Current m t := by
  show (∃ txn, (m.tm.complete txnId outcome).2.activeTransactions[t.1]? = some txn ∧
    txn.serial = t.2) ↔ _
  rw [m.tm.active_complete]
  split
  · next hid =>
      constructor
      · rintro ⟨_, hfound, _⟩
        cases hfound
      · rintro ⟨hne, _⟩
        exact absurd hid.symm hne
  · next hid => exact ⟨fun h => ⟨Ne.symm hid, h⟩, fun h => h.2⟩

theorem not_current_recover {m : Main} {t : Nat × Nat} : ¬ Current m.recover t := by
  rintro ⟨txn, hfound, _⟩
  have hnone : m.recover.tm.activeTransactions[t.1]? = none := m.tm.active_abortAll t.1
  rw [hnone] at hfound
  cases hfound

/-- What executing a waiting command does. -/
structure Executes (m m' : Main) (c : Issued) (op : Operation) : Prop where
  line : op.line = c.line
  label : m.txnIds[c.command.txnLabel]? = some op.transactionId
  current : Current m op.transaction
  granted : (m.lockMgr.requestLock op.transactionId op.resourceId op.access.mode).1 = true
  waits : ∃ before later, m.pending = before ++ c :: later ∧ m'.pending = before ++ later
  trace : m'.trace = m.trace ++ [.executed op]
  tm : m'.tm = m.tm
  txnIds : m'.txnIds = m.txnIds

theorem executes_perform {m : Main} {c : Issued} {before later : List Issued}
    {txnId resourceId : Nat} (access : Access) (waits : m.pending = before ++ c :: later)
    (label : m.txnIds[c.command.txnLabel]? = some txnId)
    (active : m.tm.isTransactionActive txnId = true)
    (granted : (m.lockMgr.requestLock txnId resourceId access.mode).1 = true) :
    Executes m (((m.requested txnId resourceId access.mode).perform access c txnId
        resourceId).setPending (before ++ later)) c
      ((m.requested txnId resourceId access.mode).operationOf access c txnId resourceId) := by
  refine ⟨rfl, label, current_of_active active, granted, ⟨before, later, waits, rfl⟩,
    trace_perform _ access _ _ _, ?_, ?_⟩
  · cases access <;> rfl
  · cases access <;> rfl

theorem Step.executes {m m' : Main} {c : Issued} (h : Step m (.execute c) m') :
    ∃ op, Executes m m' c op := by
  cases h with
  | execute access waits label active stored granted =>
      exact ⟨_, executes_perform access waits label active granted⟩

/-- A step other than BEGIN makes no transaction current. -/
theorem Step.current {m m' : Main} {a : Act} (h : Step m a m') {t : Nat × Nat}
    (hcur : Current m' t) :
    Current m t ∨ a = .begin ∧ t = (m.tm.nextTransactionId, m.tm.begun) := by
  cases h with
  | print | create | issue | refuse | drop | checkpoint => exact Or.inl hcur
  | begin =>
      rcases current_start.mp hcur with heq | ⟨_, hold⟩
      · exact Or.inr ⟨rfl, heq⟩
      · exact Or.inl hold
  | execute access => cases access <;> exact Or.inl hcur
  | finish => exact Or.inl (current_finish.mp hcur).2
  | recover => exact absurd hcur not_current_recover

/-! ## Completed transactions -/

theorem mem_aborted {trace : List Event} {t : Nat × Nat} :
    t ∈ aborted trace ↔ Event.completed t.1 t.2 .abort ∈ trace := by
  rw [aborted, List.mem_filterMap]
  constructor
  · rintro ⟨event, hmem, habort⟩
    cases event with
    | completed id serial outcome =>
        cases outcome with
        | commit => cases habort
        | abort =>
            cases habort
            exact hmem
    | _ => cases habort
  · exact fun hmem => ⟨_, hmem, rfl⟩

/-- A step completes transactions that were current, and they are no longer. -/
theorem Step.completes {m m' : Main} {a : Act} (h : Step m a m') {t : Nat × Nat}
    {outcome : Outcome} (ht : Event.completed t.1 t.2 outcome ∈ m'.trace) :
    Event.completed t.1 t.2 outcome ∈ m.trace ∨ Current m t ∧ ¬ Current m' t ∧
      (a = .finish t.1 outcome ∨ a = .recover ∧ outcome = .abort) := by
  have hold : ∀ {events : List Event}, Event.completed t.1 t.2 outcome ∈ m.trace ++ events →
      Event.completed t.1 t.2 outcome ∉ events → Event.completed t.1 t.2 outcome ∈ m.trace :=
    fun hmem hnone => (List.mem_append.mp hmem).resolve_right hnone
  cases h with
  | print | refuse | drop | checkpoint => exact Or.inl ht
  | create | begin => exact Or.inl (hold ht (by simp))
  | @issue cmd =>
      refine Or.inl (hold ht ?_)
      cases m.ownerOf cmd.txnLabel <;> simp
  | execute access => cases access <;> exact Or.inl (hold ht (by simp))
  | @finish txnId outcome' txn active =>
      rcases List.mem_append.mp ht with hmem | hmem
      · exact Or.inl hmem
      · obtain ⟨id, serial⟩ := t
        obtain ⟨hid, hserial, houtcome⟩ := Event.completed.inj (List.mem_singleton.mp hmem)
        obtain rfl : id = txnId := hid
        obtain rfl : serial = m.serialOf id := hserial
        obtain rfl : outcome = outcome' := houtcome
        refine Or.inr ⟨?_, fun hcur => (current_finish.mp hcur).1 rfl, Or.inl rfl⟩
        exact current_of_mem_activeIds (m.tm.mem_getActiveTransactionIds.mpr ⟨txn, active⟩)
  | recover =>
      rcases List.mem_append.mp ht with hmem | hmem
      · exact Or.inl hmem
      · obtain ⟨id, serial⟩ := t
        rcases mem_recoverEvents.mp hmem with heq | ⟨c, _, heq⟩ | ⟨id', hid, heq⟩
        · cases heq
        · cases heq
        · obtain ⟨hid', hserial, houtcome⟩ := Event.completed.inj heq
          obtain rfl : id = id' := hid'
          obtain rfl : serial = m.serialOf id := hserial
          exact Or.inr
            ⟨current_of_mem_activeIds hid, not_current_recover, Or.inr ⟨rfl, houtcome⟩⟩

/-- What happened stays in the history. -/
theorem Step.event_mono {m m' : Main} {a : Act} (h : Step m a m') {event : Event}
    (hmem : event ∈ m.trace) : event ∈ m'.trace := by
  obtain ⟨events, htrace⟩ := h.trace
  rw [htrace]
  exact List.mem_append_left _ hmem

/-! ## The bookkeeping of serials -/

/-- Every transaction heard of was begun, a completed one is over, and a current
one that has executed an operation can still get locks. -/
structure Serials (m : Main) : Prop where
  current_lt : ∀ t, Current m t → t.2 < m.tm.begun
  op_lt : ∀ op ∈ operations m.trace, op.serial < m.tm.begun
  completed_lt : ∀ id serial outcome, Event.completed id serial outcome ∈ m.trace →
    serial < m.tm.begun
  ended : ∀ id serial outcome, Event.completed id serial outcome ∈ m.trace →
    ¬ Current m (id, serial)
  locked : ∀ op ∈ operations m.trace, Current m op.transaction →
    op.transactionId ∉ m.lockMgr.completedTransactions

theorem serials_init (env : Environment) : Serials (init env) where
  current_lt := by
    rintro t ⟨txn, hfound, _⟩
    cases hfound
  op_lt := by
    intro op hop
    cases hop
  completed_lt := by
    intro id serial outcome hmem
    cases hmem
  ended := by
    intro id serial outcome hmem
    cases hmem
  locked := by
    intro op hop
    cases hop

/-- Ids that are completed by a step are those of transactions that it ends. -/
theorem Step.completed_of_current {m m' : Main} {a : Act} (h : Step m a m') {t : Nat × Nat}
    (hcur : Current m' t) (hopen : t.1 ∉ m.lockMgr.completedTransactions) :
    t.1 ∉ m'.lockMgr.completedTransactions := by
  cases h with
  | print | begin | issue | drop | checkpoint => exact hopen
  | create path parent value =>
      have hdone := congrArg LockTable.Table.done (m.createResource_table path parent value)
      exact fun hmem => hopen ((Set.ext_iff.mp hdone t.1).mp hmem)
  | refuse => exact fun hmem => hopen (m.lockMgr.mem_requestLock_completed.mp hmem)
  | execute access =>
      cases access <;>
        exact fun hmem => hopen (m.lockMgr.mem_requestLock_completed.mp hmem)
  | @finish txnId outcome =>
      intro hmem
      rcases m.lockMgr.mem_completeTransaction_completed.mp hmem with heq | hold
      · exact (current_finish.mp hcur).1 heq
      · exact hopen hold
  | recover => exact absurd hcur not_current_recover

theorem Executes.operations {m m' : Main} {c : Issued} {op : Operation}
    (h : Executes m m' c op) :
    TxnEngine.operations m'.trace = TxnEngine.operations m.trace ++ [op] := by
  rw [h.trace, operations_append]
  rfl

/-- The transaction of a new operation is current, and its id not completed. -/
theorem Step.mem_operations {m m' : Main} {a : Act} (h : Step m a m') {op : Operation}
    (hop : op ∈ TxnEngine.operations m'.trace) : op ∈ TxnEngine.operations m.trace ∨
      Current m' op.transaction ∧ op.transactionId ∉ m.lockMgr.completedTransactions := by
  cases a with
  | execute c =>
      obtain ⟨op', hexec⟩ := h.executes
      rw [hexec.operations] at hop
      rcases List.mem_append.mp hop with hold | hnew
      · exact Or.inl hold
      · rw [List.mem_singleton.mp hnew]
        exact Or.inr ⟨(Current.congr hexec.tm).mpr hexec.current,
          m.lockMgr.not_completed_of_granted hexec.granted⟩
  | _ => exact Or.inl (h.operations (fun _ heq => by cases heq) ▸ hop)

theorem Step.begun {m m' : Main} {a : Act} (h : Step m a m') :
    m.tm.begun ≤ m'.tm.begun ∧ (a = .begin → m.tm.begun < m'.tm.begun) := by
  cases h with
  | begin => exact ⟨Nat.le_succ _, fun _ => Nat.lt_succ_self _⟩
  | @finish txnId outcome =>
      exact ⟨Nat.le_of_eq (m.tm.complete_counters txnId outcome).2.symm, fun heq => by cases heq⟩
  | recover => exact ⟨Nat.le_of_eq m.tm.counters_abortAll.2.symm, fun heq => by cases heq⟩
  | execute access => cases access <;> exact ⟨Nat.le_refl _, fun heq => by cases heq⟩
  | _ => exact ⟨Nat.le_refl _, fun heq => by cases heq⟩

/-- A transaction whose serial is in use is not the one just begun. -/
theorem Step.was_current {m m' : Main} {a : Act} (h : Step m a m') {t : Nat × Nat}
    (hlt : t.2 < m.tm.begun) (hcur : Current m' t) : Current m t := by
  rcases h.current hcur with hold | ⟨_, rfl⟩
  · exact hold
  · exact absurd hlt (Nat.lt_irrefl _)

theorem Serials.step {m m' : Main} {a : Act} (hs : Step m a m') (h : Serials m) :
    Serials m' := by
  obtain ⟨hmono, hnew⟩ := hs.begun
  have hcurrent : ∀ t, Current m' t → t.2 < m'.tm.begun := by
    intro t hcur
    rcases hs.current hcur with hold | ⟨hact, rfl⟩
    · exact Nat.lt_of_lt_of_le (h.current_lt t hold) hmono
    · exact hnew hact
  constructor
  case current_lt => exact hcurrent
  case op_lt =>
    intro op hop
    rcases hs.mem_operations hop with hold | ⟨hcur, _⟩
    · exact Nat.lt_of_lt_of_le (h.op_lt op hold) hmono
    · exact hcurrent _ hcur
  case completed_lt =>
    intro id serial outcome hmem
    rcases hs.completes (t := (id, serial)) hmem with hold | ⟨hcur, _⟩
    · exact Nat.lt_of_lt_of_le (h.completed_lt id serial outcome hold) hmono
    · exact Nat.lt_of_lt_of_le (h.current_lt _ hcur) hmono
  case ended =>
    intro id serial outcome hmem hcur
    rcases hs.completes (t := (id, serial)) hmem with hold | ⟨_, hover, _⟩
    · have hlt := h.completed_lt id serial outcome hold
      exact h.ended id serial outcome hold (hs.was_current hlt hcur)
    · exact hover hcur
  case locked =>
    intro op hop hcur
    refine hs.completed_of_current hcur ?_
    rcases hs.mem_operations hop with hbefore | ⟨_, hopen⟩
    · exact h.locked op hbefore (hs.was_current (h.op_lt op hbefore) hcur)
    · exact hopen

theorem serials_after (env : Environment) (input : List Command) : Serials (after env input) :=
  after_invariant Serials.step (serials_init env) input

end Main

end TxnEngine
