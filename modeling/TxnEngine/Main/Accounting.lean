import TxnEngine.Main.Pending

/-!
# Accepted commands are executed once

A READ or WRITE that was accepted for a transaction which is still active has been
executed once, for that transaction, or it waits once.  Every WRITE executed for the
transaction has logged one UPDATE record.  Ids come round again, so the records of
a transaction are those since the last BEGIN of its id.
-/

namespace TxnEngine

open Std Runs

/-- The UPDATE records since the last BEGIN. -/
def updatesSinceBegin (types : List LogType) : Nat :=
  (types.reverse.takeWhile fun type => type ≠ .begin).count .update

theorem updatesSinceBegin_concat (types : List LogType) (type : LogType) :
    updatesSinceBegin (types ++ [type]) =
      if type = .begin then 0 else updatesSinceBegin types + if type = .update then 1 else 0 := by
  rw [updatesSinceBegin, List.reverse_append, List.reverse_singleton, List.singleton_append]
  by_cases hbegin : type = .begin
  · simp [hbegin]
  · simp [hbegin, List.count_cons, updatesSinceBegin]

/-- An entry that occurs once under its key is all that the key selects. -/
theorem filter_eq_singleton {α β : Type} [DecidableEq β] {f : α → β} {l : List α} {a : α}
    (hnodup : (l.map f).Nodup) (ha : a ∈ l) : l.filter (fun x => f x = f a) = [a] := by
  induction l with
  | nil => cases ha
  | cons b l ih =>
      obtain ⟨hnotin, hnodup'⟩ := List.nodup_cons.mp hnodup
      rcases List.mem_cons.mp ha with rfl | ha
      · have hnone : l.filter (fun x => f x = f a) = [] := by
          refine List.filter_eq_nil_iff.mpr fun x hx heq => hnotin ?_
          rw [← of_decide_eq_true heq]
          exact List.mem_map_of_mem hx
        rw [List.filter_cons_of_pos (by simp), hnone]
      · have hne : f b ≠ f a := fun heq => hnotin (heq ▸ List.mem_map_of_mem ha)
        rw [List.filter_cons_of_neg (by simpa using hne), ih hnodup' ha]

namespace Main

/-- The command was executed once, for the transaction, and waits nowhere, or it
waits once, for the transaction, and was not executed. -/
def AccountedFor (m : Main) (line : Nat) (t : Nat × Nat) : Prop :=
  (∃ op, ((operations m.trace).filter fun op => op.line = line) = [op] ∧ op.transaction = t ∧
      (m.pending.filter fun c => c.line = line) = []) ∨
    ((operations m.trace).filter fun op => op.line = line) = [] ∧
      ∃ c, (m.pending.filter fun c => c.line = line) = [c] ∧ c.owner = some t

/-- The WRITEs executed for a transaction. -/
def writes (m : Main) (t : Nat × Nat) : Nat :=
  (operations m.trace).countP fun op => op.transaction = t ∧ op.access = .write

/-! ## Executions -/

/-- Every command was executed once at most, and for the transaction that it was
accepted for if that one is still current. -/
structure ExecutedOnce (m : Main) : Prop where
  nodup : (executedLines m.trace).Nodup
  owner : ∀ line id serial, Event.issued line id serial ∈ m.trace → Current m (id, serial) →
    ∀ op ∈ operations m.trace, op.line = line → op.transaction = (id, serial)

theorem executedOnce_init (env : Environment) : ExecutedOnce (init env) where
  nodup := .nil
  owner := by
    intro line id serial hmem
    cases hmem

/-- A step that executes nothing. -/
theorem ExecutedOnce.quiet {m m' : Main} {a : Act} (h : ExecutedOnce m) (hs : Step m a m')
    (hqueue : Queue m) (hexecute : ∀ c, a ≠ .execute c) (hissue : ∀ c, a ≠ .issue c) :
    ExecutedOnce m' := by
  have hops := hs.operations hexecute
  obtain ⟨_, _, hissued⟩ := hs.shrinks hissue
  constructor
  case nodup =>
    rw [executedLines, hops]
    exact h.nodup
  case owner =>
    intro line id serial hmem hcur op hop
    rw [hops] at hop
    have hold := (hissued line id serial).mp hmem
    exact h.owner line id serial hold
      (hs.was_current (hqueue.serial_lt line id serial hold) hcur) op hop

theorem ExecutedOnce.step {m m' : Main} {a : Act} (h : ExecutedOnce m) (hs : Step m a m')
    (hqueue : Queue m) : ExecutedOnce m' := by
  cases a with
  | execute c =>
      obtain ⟨op, hexec⟩ := hs.executes
      obtain ⟨before, later, hold, _⟩ := hexec.waits
      have hc : c ∈ m.pending := hold ▸ List.mem_append_right before List.mem_cons_self
      constructor
      case nodup =>
        rw [hexec.executedLines]
        refine List.nodup_append.mpr ⟨h.nodup, List.nodup_singleton _, fun line hline l hl => ?_⟩
        rw [List.mem_singleton.mp hl]
        rintro rfl
        exact hqueue.waiting c hc (Or.inl hline)
      case owner =>
        intro line id serial hmem hcur op' hop' hline
        have hmem' : Event.issued line id serial ∈ m.trace := by
          rw [hexec.trace] at hmem
          simpa using hmem
        have hcur' : Current m (id, serial) := (Current.congr hexec.tm).mp hcur
        rw [hexec.operations] at hop'
        rcases List.mem_append.mp hop' with hin | hnew
        · exact h.owner line id serial hmem' hcur' op' hin hline
        · -- the command executed now carries the transaction it was accepted for
          rw [List.mem_singleton] at hnew
          subst hnew
          rw [← hline, hexec.line] at hmem'
          have howner := (hqueue.owned c hc id serial).mp hmem'
          have hlabel := hqueue.labelled c hc _ howner
          rw [hexec.label] at hlabel
          exact hexec.current.unique hcur' (Option.some.inj hlabel)
  | issue c =>
      have hops := hs.operations fun c heq => by cases heq
      cases hs with
      | @issue cmd known =>
          constructor
          case nodup =>
            rw [executedLines, hops]
            exact h.nodup
          case owner =>
            intro line id serial hmem hcur op hop hline
            rw [hops] at hop
            rcases mem_issue_trace.mp hmem with hold | ⟨rfl, _⟩
            · exact h.owner line id serial hold hcur op hop hline
            · -- the number of the new command is new
              have hgone : Gone m.trace op.line :=
                Or.inl (List.mem_map.mpr ⟨op, hop, rfl⟩)
              exact absurd (hqueue.gone_lt _ hgone) (by omega)
  | _ => exact h.quiet hs hqueue (fun c heq => by cases heq) fun c heq => by cases heq

/-! ## The log -/

/-- The session has added records to the log, and among those of a current
transaction is one UPDATE for each of its WRITEs. -/
def UpdatesLogged (log : List LogRecord) (m : Main) : Prop :=
  ∃ records, m.logMgr.written = log ++ records ∧
    ∀ t, Current m t → updatesSinceBegin (typesOf records t.1) = m.writes t

theorem updatesLogged_init (env : Environment) : UpdatesLogged env.logFile (init env) := by
  refine ⟨[], (LogManager.written_openOn _).trans (List.append_nil _).symm, ?_⟩
  rintro t ⟨txn, hfound, _⟩
  cases hfound

/-- A step that logs nothing. -/
theorem UpdatesLogged.same {log : List LogRecord} {m m' : Main} (h : UpdatesLogged log m)
    (hwritten : m'.logMgr.written = m.logMgr.written) (hwrites : ∀ t, m'.writes t = m.writes t)
    (hcur : ∀ t, Current m' t → Current m t) : UpdatesLogged log m' := by
  obtain ⟨records, hlog, hcount⟩ := h
  refine ⟨records, hwritten.trans hlog, fun t ht => ?_⟩
  rw [hwrites, hcount t (hcur t ht)]

/-- The record that `writeLog` adds. -/
theorem written_writeLog (m : Main) (txnId : Nat) (type : LogType) : ∃ timestamp,
    (m.writeLog txnId type).logMgr.written = m.logMgr.written ++ [⟨txnId, type, timestamp⟩] :=
  ⟨_, LogManager.written_writeLog _ _⟩

/-- A step that logs one record. -/
theorem UpdatesLogged.writeLog {log : List LogRecord} {m m' : Main} (h : UpdatesLogged log m)
    {txnId : Nat} {type : LogType} (hwritten : ∃ timestamp,
      m'.logMgr.written = m.logMgr.written ++ [⟨txnId, type, timestamp⟩])
    (hsame : ∀ t, Current m' t → txnId = t.1 → type = .begin ∧ m'.writes t = 0 ∨
      type ≠ .begin ∧ Current m t ∧ m'.writes t = m.writes t + if type = .update then 1 else 0)
    (hother : ∀ t, Current m' t → txnId ≠ t.1 → Current m t ∧ m'.writes t = m.writes t) :
    UpdatesLogged log m' := by
  obtain ⟨records, hlog, hold⟩ := h
  obtain ⟨timestamp, hwritten⟩ := hwritten
  refine ⟨records ++ [⟨txnId, type, timestamp⟩], by rw [hwritten, hlog, List.append_assoc], ?_⟩
  intro t hcur
  rw [typesOf_append, typesOf_cons, typesOf_nil]
  by_cases hid : txnId = t.1
  · rw [if_pos hid, updatesSinceBegin_concat]
    rcases hsame t hcur hid with ⟨hbegin, hnone⟩ | ⟨hbegin, hbefore, hnext⟩
    · rw [if_pos hbegin, hnone]
    · rw [if_neg hbegin, hold t hbefore, hnext]
  · obtain ⟨hbefore, hnext⟩ := hother t hcur hid
    rw [if_neg hid, List.append_nil, hold t hbefore, hnext]

/-- What an execution adds to the WRITEs of a transaction. -/
theorem Executes.writes {m m' : Main} {c : Issued} {op : Operation} (h : Executes m m' c op)
    (t : Nat × Nat) : m'.writes t =
      m.writes t + if op.transaction = t ∧ op.access = .write then 1 else 0 := by
  rw [Main.writes, h.operations, List.countP_append, List.countP_singleton, Main.writes]
  simp only [decide_eq_true_eq]

theorem UpdatesLogged.step {log : List LogRecord} {m m' : Main} {a : Act} (h : UpdatesLogged log m)
    (hs : Step m a m') (hserials : Serials m) : UpdatesLogged log m' := by
  have hops := hs.operations
  have hwrites : (∀ c, a ≠ .execute c) → ∀ t, m'.writes t = m.writes t := by
    intro hexecute t
    rw [writes, hops hexecute, writes]
  cases hs with
  | print | issue | refuse | drop | create =>
      exact h.same rfl (hwrites nofun) fun _ hcur => hcur
  | @begin txnLabel fresh =>
      refine h.writeLog (written_writeLog _ _ _) (fun t hcur hid => ?_) fun t hcur hid => ?_
      · -- the new transaction has a new serial, so it has executed nothing
        obtain rfl := (current_start.mp hcur).resolve_right fun hold => hold.1 hid.symm
        refine Or.inl ⟨rfl, List.countP_eq_zero.mpr fun op hop => ?_⟩
        have hlt := hserials.op_lt op (hops nofun ▸ hop)
        have hserial : op.transaction ≠ (m.tm.nextTransactionId, m.tm.begun) := by
          intro heq
          have hsecond : op.serial = m.tm.begun := congrArg Prod.snd heq
          omega
        simp [hserial]
      · rcases current_start.mp hcur with rfl | ⟨_, hold⟩
        · exact absurd rfl hid
        · exact ⟨hold, hwrites nofun t⟩
  | @execute c before later txnId resourceId access waits label active stored granted =>
      have hexec := executes_perform access waits label active granted
      cases access with
      | read =>
          refine h.same rfl (fun t => ?_) fun t hcur => (Current.congr hexec.tm).mp hcur
          rw [hexec.writes, if_neg fun hc => Access.noConfusion hc.2, Nat.add_zero]
      | write =>
          have hold : ∀ t, Current _ t → Current m t := fun t => (Current.congr hexec.tm).mp
          refine h.writeLog (written_writeLog _ txnId .update) (fun t hcur hid => ?_)
            fun t hcur hid => ?_
          · -- the id has one current transaction
            have hsame := hexec.current.unique (hold t hcur) hid
            rw [hexec.writes, if_pos ⟨hsame, rfl⟩]
            exact Or.inr ⟨nofun, hold t hcur, rfl⟩
          · rw [hexec.writes, if_neg fun hc => hid (congrArg Prod.fst hc.1), Nat.add_zero]
            exact ⟨hold t hcur, rfl⟩
  | @finish txnId outcome txn active =>
      refine h.writeLog (written_writeLog _ _ _) (fun t hcur hid => ?_) fun t hcur hid => ?_
      · exact absurd hid.symm (current_finish.mp hcur).1
      · exact ⟨(current_finish.mp hcur).2, hwrites nofun t⟩
  | checkpoint =>
      have hwritten : ∃ timestamp,
          m.checkpoint.logMgr.written = m.logMgr.written ++ [⟨0, .checkpoint, timestamp⟩] := by
        obtain ⟨timestamp, hlog⟩ := m.written_writeLog 0 .checkpoint
        exact ⟨timestamp, (LogManager.written_flushLogs _).trans hlog⟩
      refine h.writeLog hwritten (fun t hcur _ => ?_) fun t hcur _ => ?_
      · exact Or.inr ⟨nofun, hcur, hwrites nofun t⟩
      · exact ⟨hcur, hwrites nofun t⟩
  | recover =>
      obtain ⟨records, hlog, _⟩ := h
      have hwritten : m.recover.logMgr.written = m.logMgr.written ++ _ :=
        (RecoveryManager.performRecovery_written _ m.clock).trans
          (congrArg (· ++ _) (LogManager.written_flushLogs m.logMgr))
      refine ⟨records ++ _, by rw [hwritten, hlog, List.append_assoc], fun t hcur => ?_⟩
      exact absurd hcur not_current_recover

/-! ## Commands -/

/-- The invariants between commands. -/
structure Accounted (log : List LogRecord) (m : Main) : Prop where
  orderly : Orderly m
  executedOnce : ExecutedOnce m
  logged : UpdatesLogged log m

theorem Accounted.handle {log : List LogRecord} {m : Main} (h : Accounted log m)
    (cmd : Command) : Accounted log (m.handle cmd) := by
  have hall := (m.handle_reaches_any cmd).invariant
    (I := fun m' => (Serials m' ∧ Queue m') ∧ ExecutedOnce m' ∧ UpdatesLogged log m')
    (fun hs hby hm => ⟨h.orderly.during_step hs hby hm.1, hm.2.1.step hs hm.1.2,
      hm.2.2.step hs hm.1.1⟩)
    ⟨⟨h.orderly.serials, h.orderly.queue⟩, h.executedOnce, h.logged⟩
  exact ⟨h.orderly.handle cmd, hall.2.1, hall.2.2⟩

theorem accounted_after (env : Environment) (input : List Command) :
    Accounted env.logFile (after env input) := by
  rw [after_eq_run]
  exact invariant Main.handle (fun _ cmd h => h.handle cmd) _
    ⟨orderly_init env, executedOnce_init env, updatesLogged_init env⟩

/-- A command of a current transaction is accounted for. -/
theorem Accounted.accountedFor {log : List LogRecord} {m : Main} (h : Accounted log m)
    {line : Nat} {t : Nat × Nat} (hissued : Event.issued line t.1 t.2 ∈ m.trace)
    (hcur : Current m t) : m.AccountedFor line t := by
  have hqueue := h.orderly.queue
  rcases hqueue.accounted line t.1 t.2 hissued with hexec | ⟨c, hc, rfl, howner⟩ | hidle | hover
  · obtain ⟨op, hop, rfl⟩ := List.mem_map.mp hexec
    refine Or.inl ⟨op, filter_eq_singleton h.executedOnce.nodup hop,
      h.executedOnce.owner _ _ _ hissued hcur op hop rfl, ?_⟩
    refine List.filter_eq_nil_iff.mpr fun c hc heq => ?_
    exact hqueue.waiting c hc (Or.inl (of_decide_eq_true heq ▸ hexec))
  · refine Or.inr ⟨?_, c, filter_eq_singleton (List.pairwise_map.mpr hqueue.distinct) hc, howner⟩
    refine List.filter_eq_nil_iff.mpr fun op hop heq => ?_
    exact hqueue.waiting c hc (Or.inl (List.mem_map.mpr ⟨op, hop, of_decide_eq_true heq⟩))
  · exact absurd hcur.mem_activeIds hidle
  · exact absurd hcur hover.1

/-- Between commands, every READ and WRITE accepted for an active transaction was
executed once or waits once, and the session has logged one UPDATE for each WRITE
that was executed for it. -/
theorem accepted_executed_once (env : Environment) (input : List Command) (t : Nat × Nat)
    (hcur : Current (after env input) t) :
    (∀ line, Event.issued line t.1 t.2 ∈ (after env input).trace →
      (after env input).AccountedFor line t) ∧
    ∃ records, (after env input).logMgr.written = env.logFile ++ records ∧
      updatesSinceBegin (typesOf records t.1) = (after env input).writes t := by
  have h := accounted_after env input
  obtain ⟨records, hlog, hcount⟩ := h.logged
  exact ⟨fun line hissued => h.accountedFor hissued hcur, records, hlog, hcount t hcur⟩

/-- Transaction T2 writes A, and T1 waits to read it. -/
def oneWaits : List Command :=
  [{ op := .begin, txnLabel := ['T', '1'] }, { op := .begin, txnLabel := ['T', '2'] },
    { op := .write, txnLabel := ['T', '2'], resourceName := ['A'], value := 5 },
    { op := .read, txnLabel := ['T', '1'], resourceName := ['A'] }]

theorem accepted_executed_once_oneWaits :
    (after ⟨[], [], []⟩ oneWaits).AccountedFor 1 (1, 0) ∧
      (after ⟨[], [], []⟩ oneWaits).AccountedFor 0 (2, 1) :=
  ⟨(accepted_executed_once ⟨[], [], []⟩ oneWaits (1, 0) ⟨_, rfl, rfl⟩).1 1 (by decide),
    (accepted_executed_once ⟨[], [], []⟩ oneWaits (2, 1) ⟨_, rfl, rfl⟩).1 0 (by decide)⟩

end Main

end TxnEngine
