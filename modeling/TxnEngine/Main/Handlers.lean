import TxnEngine.Main.State
import TxnEngine.Utils.Text

/-!
# The commands of the engine

The local functions of `main` and the branches of its command loop, in the order
of `main.cpp`.  The two loops of `processPending` are `processPass`, one pass
over the pending commands, and `processLoop`, which repeats it while it makes
progress.  Progress shortens `pending`, so its length is enough fuel
(`processLoop_fuel`).
-/

namespace TxnEngine

open Std

/-- The segments of a key.  Empty ones are skipped. -/
def segments (resourceName : Name) : List Name :=
  (getlines '.' resourceName).filter fun segment => !segment.isEmpty

/-- The type of the record that logs an outcome. -/
def Outcome.logType : Outcome → LogType
  | .commit => .commit
  | .abort => .abort

namespace Main

/-! ## `ensureResource` -/

/-- A new resource with its record, below a parent unless `parent` is 0. -/
def createResource (m : Main) (path : Name) (parent : Nat) (initialValue : Int32) : Nat × Main :=
  let resourceId := m.resources.nextResourceId
  (resourceId,
    { m with
      resources := m.resources.create path initialValue
      lockMgr := if parent = 0 then m.lockMgr else m.lockMgr.setResourceParent resourceId parent
      trace := m.trace ++ [.created resourceId initialValue] })

/-- The loop over the segments of a key, with the path so far and its id. -/
def ensureSegments : List Name → Name → Nat → Main → Nat × Main
  | [], _, lastId, m => (lastId, m)
  | segment :: rest, path, lastId, m =>
      let path := if path.isEmpty then segment else path ++ '.' :: segment
      match m.resources.resourceIds[path]? with
      | some id => ensureSegments rest path id m
      | none =>
          match m.createResource path lastId (if path = ['A'] then 10 else 0) with
          | (resourceId, m) => ensureSegments rest path resourceId m

def ensureResource (m : Main) (resourceName : Name) : Nat × Main :=
  match ensureSegments (segments resourceName) [] 0 m with
  | (lastId, m) => if lastId = 0 then m.createResource resourceName 0 0 else (lastId, m)

/-! ## `executeCommand` -/

/-- The first half of both branches: the resource, and the lock on it.  A refusal
is reported unless the command comes from `pending`. -/
def lockResource (m : Main) (txnId : Nat) (cmd : Command) (mode : LockType)
    (fromPending : Bool) : Bool × Nat × Main :=
  match m.ensureResource cmd.resourceName with
  | (resourceId, m) =>
      match m.lockMgr.requestLock txnId resourceId mode with
      | (true, lockMgr) => (true, resourceId, { m with lockMgr := lockMgr })
      | (false, lockMgr) =>
          let m := { m with lockMgr := lockMgr }
          (false, resourceId,
            if fromPending then m else m.print (.waiting cmd.txnLabel cmd.resourceName))

/-- The value of a record, 0 if there is none. -/
def valueOf (m : Main) (resourceId : Nat) : Int32 :=
  (m.resources.dataStore.valueAt resourceId).getD 0

/-- The second half of READ. -/
def readRecord (m : Main) (c : Issued) (txnId resourceId : Nat) : Main :=
  let value := m.valueOf resourceId
  (m.note [.executed ⟨c.line, txnId, m.serialOf txnId, resourceId, .read, value⟩]).print
    (.reads c.command.txnLabel c.command.resourceName value)

/-- The second half of WRITE. -/
def writeRecord (m : Main) (c : Issued) (txnId resourceId : Nat) : Main :=
  let value := c.command.value
  let stored := { m with resources := m.resources.updateRecord resourceId value }
  ((stored.writeLog txnId .update).note
    [.executed ⟨c.line, txnId, m.serialOf txnId, resourceId, .write, value⟩]).print
    (.writes c.command.txnLabel c.command.resourceName value)

def executeCommand (m : Main) (c : Issued) (fromPending : Bool) : Bool × Main :=
  match m.txnIds[c.command.txnLabel]? with
  | none => (false, m)
  | some txnId =>
      if m.tm.isTransactionActive txnId = false then (false, m)
      else
        match c.command.op with
        | .read =>
            match m.lockResource txnId c.command .shared fromPending with
            | (false, _, m) => (false, m)
            | (true, resourceId, m) => (true, m.readRecord c txnId resourceId)
        | .write =>
            match m.lockResource txnId c.command .exclusive fromPending with
            | (false, _, m) => (false, m)
            | (true, resourceId, m) => (true, m.writeRecord c txnId resourceId)
        | _ => (false, m)

/-! ## `processPending` -/

def hasPendingForTxn (m : Main) (txnLabel : Name) : Bool :=
  m.pending.any fun c => c.command.txnLabel = txnLabel

/-- The transaction of a label is active. -/
def labelActive (m : Main) (txnLabel : Name) : Bool :=
  match m.txnIds[txnLabel]? with
  | none => false
  | some txnId => m.tm.isTransactionActive txnId

/-- The message of the first command of a transaction that holds a lock on its
resource, once a transaction. -/
def announce (m : Main) (c : Issued) (resumed : List Name) : List Name × Main :=
  match m.txnIds[c.command.txnLabel]? with
  | none => (resumed, m)
  | some txnId =>
      if c.command.txnLabel ∉ resumed ∧ c.command.resourceName ≠ [] then
        match m.ensureResource c.command.resourceName with
        | (resourceId, m) =>
            if m.lockMgr.hasLock txnId resourceId then
              (c.command.txnLabel :: resumed, m.print (.resumes c.command.txnLabel))
            else (resumed, m)
      else (resumed, m)

def setPending (m : Main) (pending : List Issued) : Main := { m with pending := pending }

/-- One pass over the pending commands.  The commands before `todo` that were
kept are `skipped`.  The result says whether a command was executed. -/
def processPass : List Issued → List Issued → List Name → Main → Bool × List Name × Main
  | [], _, resumed, m => (false, resumed, m)
  | c :: todo, skipped, resumed, m =>
      if m.labelActive c.command.txnLabel = false then
        processPass todo skipped resumed (m.setPending (skipped ++ todo))
      else
        match m.announce c resumed with
        | (resumed, m) =>
            match m.executeCommand c true with
            | (true, m) =>
                match processPass todo skipped resumed (m.setPending (skipped ++ todo)) with
                | (_, resumed, m) => (true, resumed, m)
            | (false, m) => processPass todo (skipped ++ [c]) resumed m

/-- The passes, while there is progress. -/
def processLoop : Nat → List Name → Main → Main
  | 0, _, m => m
  | fuel + 1, resumed, m =>
      match processPass m.pending [] resumed m with
      | (true, resumed, m) => processLoop fuel resumed m
      | (false, _, m) => m

def processPending (m : Main) : Main := processLoop (m.pending.length + 1) [] m

/-! ## The command loop -/

/-- Begin a transaction under a new label. -/
def start (m : Main) (txnLabel : Name) : Main :=
  match m.tm.beginTransaction with
  | (txn, tm) =>
      let m := { m with tm := tm, txnIds := m.txnIds.insert txnLabel txn.transactionId }
      (m.writeLog txn.transactionId .begin).note [.began txn.transactionId txn.serial]

def begin (m : Main) (cmd : Command) : Main :=
  if cmd.txnLabel.isEmpty then m.print (.invalid "BEGIN")
  else if cmd.txnLabel ∈ m.txnIds then m.print (.alreadyExists cmd.txnLabel)
  else (m.start cmd.txnLabel).print (.started cmd.txnLabel)

/-- Number a command and note the transaction it is accepted for. -/
def issue (m : Main) (cmd : Command) : Issued × Main :=
  let owner := m.ownerOf cmd.txnLabel
  (⟨cmd, m.line, owner⟩,
    { m with
      line := m.line + 1
      trace := m.trace ++ (owner.map fun txn => Event.issued m.line txn.1 txn.2).toList })

/-- The branches of READ and WRITE, which differ in the name they print. -/
def submit (m : Main) (cmd : Command) (word : String) : Main :=
  if cmd.txnLabel.isEmpty ∨ cmd.resourceName.isEmpty then m.print (.invalid word)
  else if cmd.txnLabel ∉ m.txnIds then m.print (.notFound cmd.txnLabel)
  else
    match m.issue cmd with
    | (c, m) =>
        if m.hasPendingForTxn cmd.txnLabel then m.setPending (m.pending ++ [c])
        else
          match m.executeCommand c false with
          | (true, m) => m
          | (false, m) => m.setPending (m.pending ++ [c])

def read (m : Main) (cmd : Command) : Main := m.submit cmd "READ"

def write (m : Main) (cmd : Command) : Main := m.submit cmd "WRITE"

/-- End a transaction that is active: in the transaction manager, in the lock
manager and in the log. -/
def finish (m : Main) (txnId : Nat) (outcome : Outcome) : Main :=
  let finished := { m with
    tm := (m.tm.complete txnId outcome).2
    lockMgr := (m.lockMgr.completeTransaction txnId).2 }
  (finished.writeLog txnId outcome.logType).note
    [.completed txnId (m.serialOf txnId) outcome]

/-- The branches of COMMIT and ABORT, which differ in the call of the transaction
manager, in the type of the log record and in the message. -/
def complete (m : Main) (cmd : Command) (outcome : Outcome) : Main :=
  match m.txnIds[cmd.txnLabel]? with
  | none => m.print (.notFound cmd.txnLabel)
  | some txnId =>
      if (m.tm.complete txnId outcome).1 = false then m.print (.notActive cmd.txnLabel)
      else ((m.finish txnId outcome).print (.completed cmd.txnLabel outcome)).processPending

def commit (m : Main) (cmd : Command) : Main := m.complete cmd .commit

def abort (m : Main) (cmd : Command) : Main := m.complete cmd .abort

def showValue (m : Main) (cmd : Command) : Main :=
  if cmd.resourceName.isEmpty then m.print (.invalid "SHOW")
  else
    match m.ensureResource cmd.resourceName with
    | (resourceId, m) => m.print (.shows cmd.resourceName (m.valueOf resourceId))

def status (m : Main) : Main :=
  m.print (.status m.tm.getActiveTransactionCount m.pending.length m.tm.committedCount
    m.tm.abortedCount)

def checkpoint (m : Main) : Main :=
  let m := m.writeLog 0 .checkpoint
  { m with logMgr := m.logMgr.flushLogs }.print .checkpointWritten

/-- The loop of RECOVER over the transactions that were active. -/
def completeAll (lockMgr : LockManager) (txnIds : List Nat) : LockManager :=
  txnIds.foldl (fun lockMgr txnId => (lockMgr.completeTransaction txnId).2) lockMgr

/-- What RECOVER adds to the history. -/
def recoverEvents (m : Main) : List Event :=
  .recovered :: (m.pending.map (fun c => Event.discarded c.line) ++
    m.tm.getActiveTransactionIds.map fun txnId => Event.completed txnId (m.serialOf txnId) .abort)

def recover (m : Main) : Main :=
  let activeIds := m.tm.getActiveTransactionIds
  match (RecoveryManager.new m.logMgr.flushLogs).performRecovery m.clock with
  | (recoveryMgr, clock) =>
      ({ m with
        tm := m.tm.abortAllTransactions
        lockMgr := completeAll m.lockMgr activeIds
        pending := []
        logMgr := recoveryMgr.logManager
        clock := clock
        trace := m.trace ++ m.recoverEvents } : Main).print
          (.recovered recoveryMgr.redoRecords.length recoveryMgr.undoRecords.length)

/-- One round of the command loop. -/
def handle (m : Main) (cmd : Command) : Main :=
  match cmd.op with
  | .help => m.print .help
  | .exit => m
  | .begin => m.begin cmd
  | .read => m.read cmd
  | .write => m.write cmd
  | .commit => m.commit cmd
  | .abort => m.abort cmd
  | .show => m.showValue cmd
  | .status => m.status
  | .checkpoint => m.checkpoint
  | .recover => m.recover
  | .other _ => m.print (.unknown cmd.op)

/-- The command loop, which EXIT leaves. -/
def loop : Main → List Command → Main
  | m, [] => m
  | m, cmd :: input => if cmd.op = .exit then m else (m.handle cmd).loop input

/-- The commands that the loop handles. -/
def beforeExit (input : List Command) : List Command :=
  input.takeWhile fun cmd => cmd.op ≠ .exit

/-- The state between commands once `input` was read. -/
def after (env : Environment) (input : List Command) : Main := (init env).loop input

/-- The log that a session leaves behind, flushed on the way out. -/
def session (env : Environment) (input : List Command) : List LogRecord :=
  (after env input).logMgr.flushLogs.readLogs

end Main

end TxnEngine
