import TxnEngine.Main.Steps
import TxnEngine.Recovery.LogFile

/-!
# What a crash leaves of a commit

COMMIT writes its record and reports the commit without flushing the log, so the
record sits in the buffer of the stream until CHECKPOINT, RECOVER or the end of
the session flushes it.  A crash keeps what was flushed and some front part of
the rest.

A crash can come between two commands or in the middle of one.  `CrashPoint`
lists the states that the engine passes through, as far as they differ in the
log or in the commits reported.  A reported commit survives every crash at such a
point exactly when nothing is unflushed there (`durable_iff`): whatever is
unflushed can also be cut so that the log cannot be read at all.
-/

namespace TxnEngine

open Std Runs LogRecord

/-- The numbers that the environment supplies fit the types that hold them. -/
structure Environment.Fits (env : Environment) : Prop where
  clock : ∀ t ∈ env.clock, -2 ^ 63 ≤ t ∧ t < 2 ^ 63
  log : ∀ r ∈ env.logFile, r.Fits

namespace Main

/-! ## Crash points -/

/-- The states after each trial of a pass over the pending commands. -/
def passStates : List Issued → List Issued → List Name → Main → List Main
  | [], _, _, _ => []
  | c :: todo, skipped, resumed, m =>
      if m.labelActive c.command.txnLabel = false then
        passStates todo skipped resumed (m.setPending (skipped ++ todo))
      else
        let announced := m.announce c resumed
        let trial := announced.2.executeCommand c true
        trial.2 ::
          if trial.1 then
            passStates todo skipped announced.1 (trial.2.setPending (skipped ++ todo))
          else passStates todo (skipped ++ [c]) announced.1 trial.2

/-- The states that the passes go through. -/
def loopStates : Nat → List Name → Main → List Main
  | 0, _, _ => []
  | fuel + 1, resumed, m =>
      passStates m.pending [] resumed m ++
        if (processPass m.pending [] resumed m).1 then
          loopStates fuel (processPass m.pending [] resumed m).2.1
            (processPass m.pending [] resumed m).2.2
        else []

/-- The states that COMMIT and ABORT go through: the record is written, the
outcome is printed, the pending commands are tried. -/
def completeStates (m : Main) (cmd : Command) (outcome : Outcome) : List Main :=
  match m.txnIds[cmd.txnLabel]? with
  | none => []
  | some txnId =>
      if (m.tm.complete txnId outcome).1 = false then []
      else
        let printed := (m.finish txnId outcome).print (.completed cmd.txnLabel outcome)
        m.finish txnId outcome :: printed :: loopStates (printed.pending.length + 1) [] printed

/-- The states in which RECOVER has written the first ABORT records. -/
def undoStates (m : Main) : List Main :=
  let records := ((RecoveryManager.new m.logMgr.flushLogs).performRecovery m.clock).1.undoRecords
  (List.range (records.length + 1)).map fun k =>
    { m with logMgr := (records.take k).foldl LogManager.writeLog m.logMgr.flushLogs }

/-- The states that a command goes through.  The other commands write at most one
record and report no commit. -/
def statesDuring (m : Main) (cmd : Command) : List Main :=
  match cmd.op with
  | .commit => m.completeStates cmd .commit
  | .abort => m.completeStates cmd .abort
  | .checkpoint => [m.writeLog 0 .checkpoint]
  | .recover => m.undoStates
  | _ => []

/-- Where a crash can come: between two commands, in the middle of the next one,
or once the loop was left and the log flushed. -/
inductive CrashPoint (env : Environment) : List Command → Main → Prop where
  | between (input : List Command) : CrashPoint env input (after env input)
  | during {input : List Command} {cmd : Command} {m : Main} (running : beforeExit input = input)
      (passed : m ∈ (after env input).statesDuring cmd) : CrashPoint env (input ++ [cmd]) m
  | ended (input : List Command) : CrashPoint env input
      { after env input with logMgr := (after env input).logMgr.flushLogs }

/-- It has been printed that the transaction with the id is committed. -/
def Reported (m : Main) (id : Nat) : Prop :=
  ∃ label : Name, m.txnIds[label]? = some id ∧ .completed label .commit ∈ m.output

/-- Whatever a crash keeps of the unflushed text, the COMMIT record of the id is in
the file, and the analysis of the file classifies the id as committed. -/
def Durable (m : Main) (id : Nat) : Prop :=
  ∀ n, ∃ log, (m.logMgr.text.writeOut n).readLogs = .ok log ∧ CommittedIn log id ∧
    id ∈ (RecoveryManager.new (.openOn log)).analyze.committedTxns

/-! ## Reported commits are logged -/

/-- Every commit that was printed has its record in the log, flushed or not. -/
def Logged (m : Main) : Prop :=
  ∀ label : Name, .completed label .commit ∈ m.output →
    ∃ id, m.txnIds[label]? = some id ∧ CommittedIn m.logMgr.written id

/-- Labels and records stay, and no commit is printed. -/
structure Extends (m m' : Main) : Prop where
  labels : ∀ (label : Name) (id : Nat), m.txnIds[label]? = some id → m'.txnIds[label]? = some id
  records : ∀ r ∈ m.logMgr.written, r ∈ m'.logMgr.written
  reports : ∀ label, .completed label .commit ∈ m'.output → .completed label .commit ∈ m.output

/-- The other variables do not matter. -/
theorem extends_of_same {m m' : Main} (htxnIds : m'.txnIds = m.txnIds) (hlog : m'.logMgr = m.logMgr)
    (houtput : m'.output = m.output) : Extends m m' :=
  ⟨fun _ _ h => htxnIds ▸ h, fun _ h => hlog ▸ h, fun _ h => houtput ▸ h⟩

theorem Extends.refl (m : Main) : Extends m m := extends_of_same rfl rfl rfl

theorem Extends.trans {m m' m'' : Main} (h : Extends m m') (h' : Extends m' m'') : Extends m m'' :=
  ⟨fun label id hid => h'.labels label id (h.labels label id hid),
    fun r hr => h'.records r (h.records r hr),
    fun label hmem => h.reports label (h'.reports label hmem)⟩

theorem Logged.extends {m m' : Main} (h : Logged m) (he : Extends m m') : Logged m' := by
  intro label hmem
  obtain ⟨id, hid, r, hr, hcommit⟩ := h label (he.reports label hmem)
  exact ⟨id, he.labels label id hid, r, he.records r hr, hcommit⟩

theorem extends_print (m : Main) (line : Output)
    (hline : ∀ label, line ≠ .completed label .commit) : Extends m (m.print line) := by
  refine ⟨fun _ _ h => h, fun _ h => h, fun label hmem => ?_⟩
  rcases List.mem_append.mp hmem with hold | hnew
  · exact hold
  · exact absurd (List.mem_singleton.mp hnew).symm (hline label)

theorem extends_writeLog (m : Main) (txnId : Nat) (type : LogType) :
    Extends m (m.writeLog txnId type) := by
  refine ⟨fun _ _ h => h, fun r hr => ?_, fun _ h => h⟩
  show r ∈ (m.logMgr.writeLog ⟨txnId, type, _⟩).written
  rw [LogManager.written_writeLog]
  exact List.mem_append_left _ hr

theorem extends_createResource (m : Main) (path : Name) (parent : Nat) (value : Int32) :
    Extends m (m.createResource path parent value).2 := extends_of_same rfl rfl rfl

theorem extends_ensureSegments (segments : List Name) (path : Name) (lastId : Nat) (m : Main) :
    Extends m (ensureSegments segments path lastId m).2 := by
  induction segments generalizing path lastId m with
  | nil => exact .refl m
  | cons segment rest ih =>
      rw [ensureSegments]
      dsimp only
      split
      · exact ih _ _ m
      · exact (extends_createResource m _ _ _).trans (ih _ _ _)

theorem extends_ensureResource (m : Main) (name : Name) : Extends m (m.ensureResource name).2 := by
  have hsegments := extends_ensureSegments (segments name) [] 0 m
  rw [ensureResource]
  generalize ensureSegments (segments name) [] 0 m = found at hsegments
  obtain ⟨lastId, m'⟩ := found
  dsimp only
  split
  · exact hsegments.trans (extends_createResource m' name 0 0)
  · exact hsegments

theorem extends_lockResource (m : Main) (txnId : Nat) (cmd : Command) (mode : LockType)
    (fromPending : Bool) : Extends m (m.lockResource txnId cmd mode fromPending).2.2 := by
  have hresource := extends_ensureResource m cmd.resourceName
  rw [lockResource]
  generalize m.ensureResource cmd.resourceName = found at hresource
  obtain ⟨resourceId, m'⟩ := found
  dsimp only
  cases m'.lockMgr.requestLock txnId resourceId mode with
  | mk granted lockMgr =>
      have hlocked : Extends m { m' with lockMgr := lockMgr } :=
        hresource.trans (extends_of_same rfl rfl rfl)
      cases granted with
      | true => exact hlocked
      | false =>
          cases fromPending with
          | true => exact hlocked
          | false => exact hlocked.trans (extends_print _ _ (by simp))

theorem extends_perform (m : Main) (access : Access) (c : Issued) (txnId resourceId : Nat) :
    Extends m (m.perform access c txnId resourceId) := by
  cases access with
  | read =>
      have hnoted : Extends m (m.note
          [.executed ⟨c.line, txnId, m.serialOf txnId, resourceId, .read, m.valueOf resourceId⟩]) :=
        extends_of_same rfl rfl rfl
      exact hnoted.trans (extends_print _ _ (by simp))
  | write =>
      let stored := { m with resources := m.resources.updateRecord resourceId c.command.value }
      have hstored : Extends m (stored.writeLog txnId .update) :=
        (extends_of_same rfl rfl rfl : Extends m stored).trans
          (extends_writeLog stored txnId .update)
      have hnoted : Extends m ((stored.writeLog txnId .update).note
          [.executed ⟨c.line, txnId, m.serialOf txnId, resourceId, .write, c.command.value⟩]) :=
        hstored.trans (extends_of_same rfl rfl rfl)
      exact hnoted.trans (extends_print _ _ (by simp))

theorem extends_executeCommand (m : Main) (c : Issued) (fromPending : Bool) :
    Extends m (m.executeCommand c fromPending).2 := by
  rw [executeCommand]
  split
  · exact .refl m
  · next txnId _ =>
      split
      · exact .refl m
      · cases c.command.op with
        | read =>
            have hlock := extends_lockResource m txnId c.command .shared fromPending
            dsimp only
            generalize m.lockResource txnId c.command .shared fromPending = out at hlock
            obtain ⟨granted, resourceId, m'⟩ := out
            cases granted with
            | false => exact hlock
            | true => exact hlock.trans (extends_perform m' .read c txnId resourceId)
        | write =>
            have hlock := extends_lockResource m txnId c.command .exclusive fromPending
            dsimp only
            generalize m.lockResource txnId c.command .exclusive fromPending = out at hlock
            obtain ⟨granted, resourceId, m'⟩ := out
            cases granted with
            | false => exact hlock
            | true => exact hlock.trans (extends_perform m' .write c txnId resourceId)
        | _ => exact .refl m

theorem extends_announce (m : Main) (c : Issued) (resumed : List Name) :
    Extends m (m.announce c resumed).2 := by
  have hresource := extends_ensureResource m c.command.resourceName
  rw [announce]
  split
  · exact .refl m
  · split
    · generalize m.ensureResource c.command.resourceName = found at hresource
      obtain ⟨resourceId, m'⟩ := found
      dsimp only
      split
      · exact hresource.trans (extends_print m' _ (by simp))
      · exact hresource
    · exact .refl m

/-! ## Records that fit -/

/-- Every number that the log holds, or that can get there, fits its type. -/
structure Sized (m : Main) : Prop where
  log : ∀ r ∈ m.logMgr.written, r.Fits
  clock : ∀ t ∈ m.clock, -2 ^ 63 ≤ t ∧ t < 2 ^ 63
  next : m.tm.nextTransactionId < 2 ^ 32
  labels : ∀ (label : Name) (id : Nat), m.txnIds[label]? = some id → id < 2 ^ 32
  active : ∀ (id : Nat) (txn : Transaction), m.tm.activeTransactions[id]? = some txn → id < 2 ^ 32

theorem sized_init {env : Environment} (h : env.Fits) : Sized (init env) where
  log := by
    show ∀ r ∈ (LogManager.openOn env.logFile).written, r.Fits
    rw [LogManager.written_openOn]
    exact h.log
  clock := h.clock
  next := (by decide : 1 < 2 ^ 32)
  labels := by simp [init]
  active := by simp [init, TransactionManager.new]

theorem Sized.congr {m m' : Main} (h : Sized m) (hlog : m'.logMgr.written = m.logMgr.written)
    (hclock : m'.clock = m.clock) (htm : m'.tm = m.tm) (htxnIds : m'.txnIds = m.txnIds) :
    Sized m' where
  log := hlog ▸ h.log
  clock := hclock ▸ h.clock
  next := htm ▸ h.next
  labels := htxnIds ▸ h.labels
  active := htm ▸ h.active

/-- What the clock says next fits. -/
theorem fits_headD {clock : List Int} (h : ∀ t ∈ clock, -2 ^ 63 ≤ t ∧ t < 2 ^ 63) :
    -2 ^ 63 ≤ clock.headD 0 ∧ clock.headD 0 < 2 ^ 63 := by
  cases clock with
  | nil => decide
  | cons t clock => exact h t List.mem_cons_self

theorem Sized.writeLog {m : Main} (h : Sized m) {txnId : Nat} (hid : txnId < 2 ^ 32)
    (type : LogType) : Sized (m.writeLog txnId type) where
  log := by
    intro r hr
    obtain ⟨hle, hlt⟩ := fits_headD h.clock
    have hwritten : r ∈ m.logMgr.written ++ [⟨txnId, type, m.clock.headD 0⟩] := by
      rw [← LogManager.written_writeLog]
      exact hr
    rcases List.mem_append.mp hwritten with hold | hnew
    · exact h.log r hold
    · rw [List.mem_singleton.mp hnew]
      exact ⟨hid, hle, hlt⟩
  clock := fun t ht => h.clock t (List.mem_of_mem_tail ht)
  next := h.next
  labels := h.labels
  active := h.active

theorem Sized.start {m : Main} (h : Sized m) (txnLabel : Name) : Sized (m.start txnLabel) := by
  let begun := { m with
    tm := m.tm.beginTransaction.2
    txnIds := m.txnIds.insert txnLabel m.tm.nextTransactionId }
  have hbegun : Sized begun := by
    refine ⟨h.log, h.clock, Nat.mod_lt _ (by decide), ?_, ?_⟩
    · intro label id hid
      rw [ExtTreeMap.getElem?_insert] at hid
      split at hid
      · cases hid
        exact h.next
      · exact h.labels label id hid
    · intro id txn hid
      rcases m.tm.mem_activeIds_begin.mp
        (m.tm.beginTransaction.2.mem_getActiveTransactionIds.mpr ⟨txn, hid⟩) with rfl | hmem
      · exact h.next
      · obtain ⟨txn', htxn'⟩ := m.tm.mem_getActiveTransactionIds.mp hmem
        exact h.active id txn' htxn'
  exact (hbegun.writeLog h.next .begin).congr rfl rfl rfl rfl

theorem Sized.finish {m : Main} (h : Sized m) {txnId : Nat} {txn : Transaction}
    (active : m.tm.activeTransactions[txnId]? = some txn) (outcome : Outcome) :
    Sized (m.finish txnId outcome) := by
  let finished := { m with
    tm := (m.tm.complete txnId outcome).2
    lockMgr := (m.lockMgr.completeTransaction txnId).2 }
  have hfinished : Sized finished := by
    refine ⟨h.log, h.clock, ?_, h.labels, ?_⟩
    · show (m.tm.complete txnId outcome).2.nextTransactionId < 2 ^ 32
      rw [(m.tm.complete_counters txnId outcome).1]
      exact h.next
    · intro id txn' hid
      have hactive : (m.tm.complete txnId outcome).2.activeTransactions[id]? = some txn' := hid
      rw [m.tm.active_complete] at hactive
      split at hactive
      · cases hactive
      · exact h.active id txn' hactive
  exact (hfinished.writeLog (h.active txnId txn active) outcome.logType).congr rfl rfl rfl rfl

theorem Sized.perform {m : Main} (h : Sized m) {txnId : Nat} (hid : txnId < 2 ^ 32)
    (access : Access) (c : Issued) (resourceId : Nat) :
    Sized (m.perform access c txnId resourceId) := by
  cases access with
  | read => exact h.congr rfl rfl rfl rfl
  | write =>
      let stored := { m with resources := m.resources.updateRecord resourceId c.command.value }
      have hstored : Sized stored := h.congr rfl rfl rfl rfl
      exact (hstored.writeLog hid .update).congr rfl rfl rfl rfl

theorem Sized.requested {m : Main} (h : Sized m) (txnId resourceId : Nat) (mode : LockType) :
    Sized (m.requested txnId resourceId mode) := h.congr rfl rfl rfl rfl

theorem fits_abortRecords {ids : List Nat} {clock : List Int} (hids : ∀ id ∈ ids, id < 2 ^ 32)
    (hclock : ∀ t ∈ clock, -2 ^ 63 ≤ t ∧ t < 2 ^ 63) :
    (∀ r ∈ (abortRecords ids clock).1, r.Fits) ∧
      ∀ t ∈ (abortRecords ids clock).2, -2 ^ 63 ≤ t ∧ t < 2 ^ 63 := by
  induction ids generalizing clock with
  | nil => exact ⟨nofun, hclock⟩
  | cons id ids ih =>
      obtain ⟨hid, hrest⟩ := List.forall_mem_cons.mp hids
      obtain ⟨hle, hlt⟩ := fits_headD hclock
      obtain ⟨hrecords, hclock'⟩ := ih hrest fun t ht => hclock t (List.mem_of_mem_tail ht)
      exact ⟨List.forall_mem_cons.mpr ⟨⟨hid, hle, hlt⟩, hrecords⟩, hclock'⟩

/-- The ABORT records of RECOVER are for ids that the log left open. -/
theorem Sized.undoRecords {m : Main} (h : Sized m) :
    (∀ r ∈ ((RecoveryManager.new m.logMgr.flushLogs).performRecovery m.clock).1.undoRecords,
        r.Fits) ∧
      ∀ t ∈ ((RecoveryManager.new m.logMgr.flushLogs).performRecovery m.clock).2,
        -2 ^ 63 ≤ t ∧ t < 2 ^ 63 := by
  rw [RecoveryManager.performRecovery_eq, RecoveryManager.undo_eq]
  refine fits_abortRecords (fun id hid => ?_) h.clock
  obtain ⟨before, r, later, hlog, hid', -⟩ :=
    (RecoveryManager.mem_analyze_incomplete _).mp (ExtTreeSet.mem_toList.mp hid)
  have hr : r ∈ m.logMgr.written := by
    show r ∈ m.logMgr.flushLogs.readLogs
    rw [show m.logMgr.flushLogs.readLogs = before ++ r :: later from hlog]
    exact List.mem_append_right before List.mem_cons_self
  exact hid' ▸ (h.log r hr).id_lt

theorem Sized.recover {m : Main} (h : Sized m) : Sized m.recover := by
  have hwritten : m.recover.logMgr.written = m.logMgr.flushLogs.written ++
      ((RecoveryManager.new m.logMgr.flushLogs).performRecovery m.clock).1.undoRecords :=
    RecoveryManager.performRecovery_written _ _
  refine ⟨?_, h.undoRecords.2, ?_, h.labels, ?_⟩
  · intro r hr
    rw [hwritten, LogManager.written_flushLogs] at hr
    rcases List.mem_append.mp hr with hold | hnew
    · exact h.log r hold
    · exact h.undoRecords.1 r hnew
  · show m.tm.abortAllTransactions.nextTransactionId < 2 ^ 32
    rw [m.tm.counters_abortAll.1]
    exact h.next
  · intro id txn hid
    have hnone := m.tm.active_abortAll id
    rw [show m.tm.abortAllTransactions.activeTransactions[id]? = some txn from hid] at hnone
    cases hnone

/-! ## Every crash point -/

/-- What crash points keep. -/
structure Sound (m : Main) : Prop where
  sized : Sized m
  logged : Logged m

theorem Sound.setPending {m : Main} (h : Sound m) (pending : List Issued) :
    Sound (m.setPending pending) :=
  ⟨h.sized.congr rfl rfl rfl rfl, h.logged.extends (extends_of_same rfl rfl rfl)⟩

theorem Sound.same {m m' : Main} (h : Sound m) (hsame : SameBut m m') (he : Extends m m') :
    Sound m' :=
  ⟨h.sized.congr (congrArg _ hsame.logMgr) hsame.clock hsame.tm hsame.txnIds, h.logged.extends he⟩

theorem quiet_any : Quiet fun (_ : Main) (_ : Act) => True :=
  ⟨fun _ => trivial, fun _ => trivial, fun _ => trivial, fun _ _ => trivial⟩

theorem Sound.announce {m : Main} (h : Sound m) (c : Issued) (resumed : List Name) :
    Sound (m.announce c resumed).2 :=
  h.same (m.announce_spec quiet_any c resumed).2 (m.extends_announce c resumed)

theorem Sound.executeCommand {m : Main} (h : Sound m) (c : Issued) (fromPending : Bool) :
    Sound (m.executeCommand c fromPending).2 := by
  refine ⟨?_, h.logged.extends (m.extends_executeCommand c fromPending)⟩
  have htrial := m.executeCommand_trial quiet_any c fromPending
  generalize m.executeCommand c fromPending = out at htrial
  cases htrial with
  | failed _ same => exact h.sized.congr (congrArg _ same.logMgr) same.clock same.tm same.txnIds
  | @executed m' access txnId resourceId _ same label =>
      have hm' : Sized m' := h.sized.congr (congrArg _ same.logMgr) same.clock same.tm same.txnIds
      exact (hm'.requested _ _ _).perform (h.sized.labels _ _ label) access c resourceId

/-- The states of a pass, and the one it ends in. -/
theorem Sound.pass {m : Main} (h : Sound m) (todo skipped : List Issued) (resumed : List Name) :
    (∀ m' ∈ passStates todo skipped resumed m, Sound m') ∧
      Sound (processPass todo skipped resumed m).2.2 := by
  induction todo generalizing m skipped resumed with
  | nil => exact ⟨nofun, h⟩
  | cons c todo ih =>
      rw [passStates, processPass_cons]
      split
      · exact ih (h.setPending _) skipped resumed
      · have htrial := (h.announce c resumed).executeCommand c true
        dsimp only
        split
        · obtain ⟨hstates, hend⟩ := ih (htrial.setPending (skipped ++ todo)) skipped
            (m.announce c resumed).1
          exact ⟨List.forall_mem_cons.mpr ⟨htrial, hstates⟩, hend⟩
        · obtain ⟨hstates, hend⟩ := ih htrial (skipped ++ [c]) (m.announce c resumed).1
          exact ⟨List.forall_mem_cons.mpr ⟨htrial, hstates⟩, hend⟩

/-- The states of the passes, and the one they end in. -/
theorem Sound.loop {m : Main} (h : Sound m) (fuel : Nat) (resumed : List Name) :
    (∀ m' ∈ loopStates fuel resumed m, Sound m') ∧ Sound (processLoop fuel resumed m) := by
  induction fuel generalizing m resumed with
  | zero => exact ⟨nofun, h⟩
  | succ fuel ih =>
      obtain ⟨hstates, hend⟩ := h.pass m.pending [] resumed
      rw [loopStates, processLoop]
      generalize processPass m.pending [] resumed m = out at hend ⊢
      obtain ⟨progress, resumed', m'⟩ := out
      cases progress with
      | false =>
          rw [if_neg Bool.false_ne_true, List.append_nil]
          exact ⟨hstates, hend⟩
      | true =>
          obtain ⟨hstates', hend'⟩ := ih hend resumed'
          rw [if_pos rfl, List.forall_mem_append]
          exact ⟨⟨hstates, hstates'⟩, hend'⟩

/-- A transaction that ends, with its record written and the outcome printed. -/
theorem Sound.finished {m : Main} (h : Sound m) {label : Name} {txnId : Nat} {txn : Transaction}
    (hlabel : m.txnIds[label]? = some txnId) (active : m.tm.activeTransactions[txnId]? = some txn)
    (outcome : Outcome) :
    Sound (m.finish txnId outcome) ∧
      Sound ((m.finish txnId outcome).print (.completed label outcome)) := by
  let finished := { m with
    tm := (m.tm.complete txnId outcome).2
    lockMgr := (m.lockMgr.completeTransaction txnId).2 }
  have hextends : Extends m (m.finish txnId outcome) :=
    ((extends_of_same rfl rfl rfl : Extends m finished).trans (extends_writeLog finished _ _)).trans
      (extends_of_same rfl rfl rfl)
  have hfinish : Sound (m.finish txnId outcome) :=
    ⟨h.sized.finish active outcome, h.logged.extends hextends⟩
  refine ⟨hfinish, hfinish.sized.congr rfl rfl rfl rfl, fun label' hmem => ?_⟩
  rcases List.mem_append.mp hmem with hold | hnew
  · exact hfinish.logged label' hold
  · cases List.mem_singleton.mp hnew
    refine ⟨txnId, hlabel, ⟨txnId, .commit, m.clock.headD 0⟩, ?_, rfl, rfl⟩
    have hwritten : (m.finish txnId .commit).logMgr.written
        = m.logMgr.written ++ [⟨txnId, .commit, m.clock.headD 0⟩] :=
      LogManager.written_writeLog _ _
    exact hwritten ▸ List.mem_append_right _ (List.mem_singleton.mpr rfl)

theorem Sound.print {m : Main} (h : Sound m) (line : Output)
    (hline : ∀ label, line ≠ .completed label .commit) : Sound (m.print line) :=
  ⟨h.sized.congr rfl rfl rfl rfl, h.logged.extends (m.extends_print line hline)⟩

theorem Sound.complete {m : Main} (h : Sound m) (cmd : Command) (outcome : Outcome) :
    (∀ m' ∈ m.completeStates cmd outcome, Sound m') ∧ Sound (m.complete cmd outcome) := by
  rw [completeStates, Main.complete]
  cases hlabel : m.txnIds[cmd.txnLabel]? with
  | none => exact ⟨List.forall_mem_nil _, h.print _ (by simp)⟩
  | some txnId =>
      dsimp only
      by_cases hdone : (m.tm.complete txnId outcome).1 = false
      · rw [if_pos hdone, if_pos hdone]
        exact ⟨List.forall_mem_nil _, h.print _ (by simp)⟩
      · rw [if_neg hdone, if_neg hdone]
        obtain ⟨txn, active⟩ := m.tm.complete_iff.mp (Bool.eq_true_of_not_eq_false hdone)
        obtain ⟨hfinish, hprinted⟩ := h.finished hlabel active outcome
        obtain ⟨hstates, hend⟩ := hprinted.loop _ []
        have hstates' := List.forall_mem_cons.mpr ⟨hprinted, hstates⟩
        exact ⟨List.forall_mem_cons.mpr ⟨hfinish, hstates'⟩, hend⟩

theorem Sound.start {m : Main} (h : Sound m) {txnLabel : Name} (fresh : txnLabel ∉ m.txnIds) :
    Sound (m.start txnLabel) := by
  let begun := { m with
    tm := m.tm.beginTransaction.2
    txnIds := m.txnIds.insert txnLabel m.tm.nextTransactionId }
  have hbegun : Extends m begun := by
    refine ⟨fun label id hid => ?_, fun _ hr => hr, fun _ hmem => hmem⟩
    have hne : txnLabel ≠ label := by
      rintro rfl
      exact fresh (ExtTreeMap.mem_iff_isSome_getElem?.mpr (by rw [hid]; rfl))
    show (m.txnIds.insert txnLabel m.tm.nextTransactionId)[label]? = some id
    rw [ExtTreeMap.getElem?_insert, if_neg (fun heq => hne (Std.compare_eq_iff_eq.mp heq)), hid]
  exact ⟨h.sized.start txnLabel, h.logged.extends
    ((hbegun.trans (extends_writeLog begun _ .begin)).trans (extends_of_same rfl rfl rfl))⟩

theorem Sound.submit {m : Main} (h : Sound m) (cmd : Command) (word : String) :
    Sound (m.submit cmd word) := by
  have hissue : Sound (m.issue cmd).2 :=
    ⟨h.sized.congr rfl rfl rfl rfl, h.logged.extends (extends_of_same rfl rfl rfl)⟩
  rw [Main.submit]
  split
  · exact h.print _ (by simp)
  · split
    · exact h.print _ (by simp)
    · dsimp only
      split
      · exact hissue.setPending _
      · have htrial := hissue.executeCommand (m.issue cmd).1 false
        generalize (m.issue cmd).2.executeCommand (m.issue cmd).1 false = out at htrial ⊢
        obtain ⟨executed, m'⟩ := out
        cases executed with
        | true => exact htrial
        | false => exact htrial.setPending _

theorem Sound.writeCheckpoint {m : Main} (h : Sound m) : Sound (m.writeLog 0 .checkpoint) :=
  ⟨h.sized.writeLog (by decide) .checkpoint, h.logged.extends (extends_writeLog m 0 .checkpoint)⟩

/-- A flush moves no record. -/
theorem Sound.flushed {m : Main} (h : Sound m) :
    Sound { m with logMgr := m.logMgr.flushLogs } := by
  have hwritten := m.logMgr.written_flushLogs
  exact ⟨h.sized.congr hwritten rfl rfl rfl,
    h.logged.extends ⟨fun _ _ hid => hid, fun r hr => hwritten ▸ hr, fun _ hmem => hmem⟩⟩

theorem Sound.undo {m : Main} (h : Sound m) : ∀ m' ∈ m.undoStates, Sound m' := by
  intro m' hm'
  obtain ⟨k, -, rfl⟩ := List.mem_map.mp hm'
  generalize hrecords : ((RecoveryManager.new m.logMgr.flushLogs).performRecovery
    m.clock).1.undoRecords = records
  have hfits : ∀ r ∈ records, r.Fits := hrecords ▸ h.sized.undoRecords.1
  have hwritten : ((records.take k).foldl LogManager.writeLog m.logMgr.flushLogs).written
      = m.logMgr.written ++ records.take k := by
    rw [LogManager.foldl_writeLog, ← m.logMgr.written_flushLogs]
    exact (List.append_assoc _ _ _).symm
  constructor
  · refine ⟨fun r hr => ?_, h.sized.clock, h.sized.next, h.sized.labels, h.sized.active⟩
    rw [hwritten] at hr
    rcases List.mem_append.mp hr with hold | hnew
    · exact h.sized.log r hold
    · exact hfits r (List.mem_of_mem_take hnew)
  · refine h.logged.extends ⟨fun _ _ hid => hid, fun r hr => ?_, fun _ hmem => hmem⟩
    rw [hwritten]
    exact List.mem_append_left _ hr

theorem Sound.recover {m : Main} (h : Sound m) : Sound m.recover := by
  have hwritten : m.recover.logMgr.written = m.logMgr.flushLogs.written ++
      ((RecoveryManager.new m.logMgr.flushLogs).performRecovery m.clock).1.undoRecords :=
    RecoveryManager.performRecovery_written _ _
  refine ⟨h.sized.recover,
    h.logged.extends ⟨fun _ _ hid => hid, fun r hr => ?_, fun label hmem => ?_⟩⟩
  · rw [hwritten, LogManager.written_flushLogs]
    exact List.mem_append_left _ hr
  · rcases List.mem_append.mp hmem with hold | hnew
    · exact hold
    · cases List.mem_singleton.mp hnew

theorem Sound.handle {m : Main} (h : Sound m) (cmd : Command) : Sound (m.handle cmd) := by
  rw [Main.handle]
  cases cmd.op with
  | help => exact h.print _ (by simp)
  | exit => exact h
  | begin =>
      dsimp only
      rw [Main.begin]
      split
      · exact h.print _ (by simp)
      · split
        · exact h.print _ (by simp)
        · next fresh => exact (h.start fresh).print _ (by simp)
  | read => exact h.submit cmd _
  | write => exact h.submit cmd _
  | commit => exact (h.complete cmd .commit).2
  | abort => exact (h.complete cmd .abort).2
  | «show» =>
      dsimp only
      rw [showValue]
      split
      · exact h.print _ (by simp)
      · obtain ⟨-, hsame, -⟩ := ensureResource_spec (P := fun _ _ => True) (fun _ => trivial) m
          cmd.resourceName
        have hresource := h.same hsame (m.extends_ensureResource cmd.resourceName)
        exact hresource.print _ (by simp)
  | status => exact h.print _ (by simp)
  | checkpoint => exact h.writeCheckpoint.flushed.print _ (by simp)
  | recover => exact h.recover
  | other => exact h.print _ (by simp)

theorem Sound.during {m : Main} (h : Sound m) (cmd : Command) :
    ∀ m' ∈ m.statesDuring cmd, Sound m' := by
  rw [statesDuring]
  cases cmd.op with
  | commit => exact (h.complete cmd .commit).1
  | abort => exact (h.complete cmd .abort).1
  | checkpoint => exact fun m' hm' => List.mem_singleton.mp hm' ▸ h.writeCheckpoint
  | recover => exact h.undo
  | _ => exact nofun

theorem sound_after {env : Environment} (henv : env.Fits) (input : List Command) :
    Sound (after env input) := by
  have hinit : Sound (init env) := by
    refine ⟨sized_init henv, fun label hmem => ?_⟩
    cases List.mem_singleton.mp hmem
  rw [after_eq_run]
  exact invariant handle (fun _ cmd h => h.handle cmd) (beforeExit input) hinit

theorem CrashPoint.sound {env : Environment} (henv : env.Fits) {input : List Command} {m : Main}
    (h : CrashPoint env input m) : Sound m := by
  cases h with
  | between => exact sound_after henv input
  | @during input cmd _ _ passed => exact (sound_after henv input).during cmd m passed
  | ended => exact (sound_after henv input).flushed

/-! ## Durability -/

/-- A log cut after the first ten bytes of a record cannot be read. -/
theorem readText_unreadable {flushed : List LogRecord} (h : ∀ r ∈ flushed, r.Fits) (r : LogRecord)
    (rest : List Char) :
    readText (logText flushed ++ (r.toString ++ rest).take 10) = .error .invalidArgument := by
  have hkey : (r.toString ++ rest).take 10 = timestampKey ++ ['='] := rfl
  rw [readText_logText_append h, hkey]
  rfl

/-- Every commit passes through a crash point where it is reported and its record
is not flushed. -/
theorem commit_unflushed {env : Environment} {input : List Command} {cmd : Command} {txnId : Nat}
    (running : beforeExit input = input) (hop : cmd.op = .commit)
    (hlabel : (after env input).txnIds[cmd.txnLabel]? = some txnId)
    (hdone : ((after env input).tm.complete txnId .commit).1 = true) :
    ∃ m, CrashPoint env (input ++ [cmd]) m ∧ m.Reported txnId ∧ m.logMgr.unflushed ≠ [] := by
  let printed := ((after env input).finish txnId .commit).print (.completed cmd.txnLabel .commit)
  have hpassed : printed ∈ (after env input).statesDuring cmd := by
    rw [statesDuring, hop]
    show printed ∈ (after env input).completeStates cmd .commit
    rw [completeStates, hlabel]
    dsimp only
    rw [if_neg (by rw [hdone]; exact Bool.noConfusion)]
    exact List.mem_cons_of_mem _ List.mem_cons_self
  have hreported : printed.Reported txnId :=
    ⟨cmd.txnLabel, hlabel, List.mem_append_right _ (List.mem_singleton.mpr rfl)⟩
  exact ⟨printed, .during running hpassed, hreported, List.append_ne_nil_of_right_ne_nil _ nofun⟩

/-- At every crash point, a commit that was reported survives every crash exactly
when everything written to the log was flushed. -/
theorem durable_iff {env : Environment} (henv : env.Fits) {input : List Command} {m : Main}
    (hcrash : CrashPoint env input m) {id : Nat} (hreported : m.Reported id) :
    m.Durable id ↔ m.logMgr.unflushed = [] := by
  obtain ⟨hsized, hlogged⟩ := hcrash.sound henv
  have hflushed : ∀ r ∈ m.logMgr.logFile, r.Fits :=
    fun r hr => hsized.log r (List.mem_append_left _ hr)
  constructor
  · intro hdurable
    cases hunflushed : m.logMgr.unflushed with
    | nil => rfl
    | cons r rest =>
        obtain ⟨log, hread, -⟩ := hdurable 10
        have hfile : (m.logMgr.text.writeOut 10).readLogs = .error .invalidArgument := by
          rw [LogManager.text, hunflushed, logText, logText, LineLog.text_cons]
          exact readText_unreadable hflushed r _
        rw [hfile] at hread
        cases hread
  · intro hunflushed n
    obtain ⟨label, hlabel, hprinted⟩ := hreported
    obtain ⟨id', hlabel', hcommit⟩ := hlogged label hprinted
    cases hlabel.symm.trans hlabel'
    have hfile : (m.logMgr.text.writeOut n).readLogs = .ok m.logMgr.logFile := by
      rw [LogFile.readLogs, LogFile.writeOut, LogManager.text, hunflushed, logText, logText,
        LineLog.text_nil, List.take_nil, List.append_nil]
      exact readText_logText hflushed
    rw [LogManager.written, hunflushed, List.append_nil] at hcommit
    exact ⟨m.logMgr.logFile, hfile, hcommit, (RecoveryManager.mem_analyze_committed _).mpr hcommit⟩

/-- T1 begins and commits. -/
def oneCommit : List Command :=
  [{ op := .begin, txnLabel := ['T', '1'] }, { op := .commit, txnLabel := ['T', '1'] }]

theorem durable_iff_checkpointed :
    (after ⟨[], [], []⟩ (oneCommit ++ [{ op := .checkpoint }])).Durable 1 ↔
      (after ⟨[], [], []⟩ (oneCommit ++ [{ op := .checkpoint }])).logMgr.unflushed = [] :=
  durable_iff ⟨by simp, by simp⟩ (.between _)
    ⟨['T', '1'], rfl,
      List.mem_of_getElem? (rfl : _[2]? = some (Output.completed ['T', '1'] .commit))⟩

/-- Right after the commit was reported, a crash that keeps only what was flushed
leaves an empty file. -/
theorem durable_fails : CrashPoint ⟨[], [], []⟩ oneCommit (after ⟨[], [], []⟩ oneCommit) ∧
    (after ⟨[], [], []⟩ oneCommit).Reported 1 ∧ ¬ (after ⟨[], [], []⟩ oneCommit).Durable 1 := by
  refine ⟨.between oneCommit, ⟨['T', '1'], rfl, List.mem_of_getElem?
    (rfl : _[2]? = some (Output.completed ['T', '1'] .commit))⟩, fun hdurable => ?_⟩
  obtain ⟨log, hread, ⟨r, hr, -⟩, -⟩ := hdurable 0
  have hempty : ((after ⟨[], [], []⟩ oneCommit).logMgr.text.writeOut 0).readLogs = .ok [] := rfl
  rw [hempty] at hread
  cases hread
  cases hr

end Main

end TxnEngine
