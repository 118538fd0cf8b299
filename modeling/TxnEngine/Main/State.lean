import TxnEngine.Concurrency.LockManager
import TxnEngine.Recovery.RecoveryManager
import TxnEngine.Storage.DataStore
import TxnEngine.Transaction.TransactionManager

/-!
# The state of the engine

The commands that `main.cpp` reads, the lines it prints and the variables of
`main`.  A command is the struct `Command` with its words already read.

The state also carries history, which no decision reads.  `trace` lists what
happened, `line` counts the READ and WRITE commands, and each pending command
remembers its number and the transaction it was accepted for.  The set
`txn_held_resources` is written by `main` and never read, so it is left out.
-/

namespace TxnEngine

open Std

/-- A word of the input: a label, a key or a segment of a key. -/
abbrev Name := List Char

instance : LawfulBEq Name := inferInstance

/-- The first word of a command. -/
inductive Op where
  | help
  | exit
  | begin
  | read
  | write
  | commit
  | abort
  | show
  | status
  | checkpoint
  | recover
  | other (word : Name)
deriving DecidableEq, Repr

structure Command where
  op : Op
  txnLabel : Name := []
  resourceName : Name := []
  value : Int32 := 0
deriving DecidableEq

/-! ## Output -/

/-- The lines that `main` prints. -/
inductive Output where
  | help
  | waiting (txnLabel resourceName : Name)
  | reads (txnLabel resourceName : Name) (value : Int32)
  | writes (txnLabel resourceName : Name) (value : Int32)
  | resumes (txnLabel : Name)
  | invalid (op : String)
  | alreadyExists (txnLabel : Name)
  | started (txnLabel : Name)
  | notFound (txnLabel : Name)
  | notActive (txnLabel : Name)
  | completed (txnLabel : Name) (outcome : Outcome)
  | shows (resourceName : Name) (value : Int32)
  | status (active pending committed aborted : Nat)
  | checkpointWritten
  | recovered (redo undo : Nat)
  | unknown (op : Op)

def Op.text : Op → String
  | .help => "HELP"
  | .exit => "EXIT"
  | .begin => "BEGIN"
  | .read => "READ"
  | .write => "WRITE"
  | .commit => "COMMIT"
  | .abort => "ABORT"
  | .show => "SHOW"
  | .status => "STATUS"
  | .checkpoint => "CHECKPOINT"
  | .recover => "RECOVER"
  | .other word => String.ofList word

/-- The text of a line. -/
def Output.text : Output → String
  | .help => "Commands: BEGIN <TXN>, READ <TXN> <KEY>, WRITE <TXN> <KEY> <VAL>, COMMIT <TXN>, " ++
      "ABORT <TXN>, SHOW <KEY>, STATUS, CHECKPOINT, RECOVER, HELP, EXIT"
  | .waiting label name => String.ofList label ++ " waiting for lock on " ++ String.ofList name
  | .reads label name value =>
      String.ofList label ++ " reads " ++ String.ofList name ++ " = " ++ toString value
  | .writes label name value =>
      String.ofList label ++ " writes " ++ String.ofList name ++ " = " ++ toString value
  | .resumes label => String.ofList label ++ " resumes"
  | .invalid op => "Invalid " ++ op ++ " command"
  | .alreadyExists label => String.ofList label ++ " already exists"
  | .started label => String.ofList label ++ " started"
  | .notFound label => String.ofList label ++ " not found"
  | .notActive label => String.ofList label ++ " is not active"
  | .completed label .commit => String.ofList label ++ " committed"
  | .completed label .abort => String.ofList label ++ " aborted"
  | .shows name value => String.ofList name ++ " = " ++ toString value
  | .status active pending committed aborted =>
      "active_transactions=" ++ toString active ++ " pending_commands=" ++ toString pending ++
        " committed=" ++ toString committed ++ " aborted=" ++ toString aborted
  | .checkpointWritten => "checkpoint written"
  | .recovered redo undo =>
      "recovery complete: redo=" ++ toString redo ++ " undo=" ++ toString undo
  | .unknown op => "Unknown command: " ++ op.text

/-! ## History -/

inductive Access where
  | read
  | write
deriving DecidableEq, Repr

/-- A READ or WRITE that was executed, with the number of its command, its
transaction, its record and the value read or written. -/
structure Operation where
  line : Nat
  transactionId : Nat
  serial : Nat
  resourceId : Nat
  access : Access
  value : Int32
deriving DecidableEq

/-- What can happen in a run.  A transaction is given by its id and its serial. -/
inductive Event where
  | began (transactionId serial : Nat)
  | issued (line transactionId serial : Nat)
  | created (resourceId : Nat) (initialValue : Int32)
  | executed (operation : Operation)
  | completed (transactionId serial : Nat) (outcome : Outcome)
  | discarded (line : Nat)
  | recovered
deriving DecidableEq

/-- A READ or WRITE command with its number, and the transaction it was accepted
for if that one was active. -/
structure Issued where
  command : Command
  line : Nat
  owner : Option (Nat × Nat)
deriving DecidableEq

/-! ## Resources -/

/-- The named resources and their records: every id that has a name has a
record. -/
structure Resources where
  resourceIds : ExtTreeMap Name Nat
  nextResourceId : Nat
  dataStore : IntStore
  stored : ∀ (path : Name) (id : Nat), resourceIds[path]? = some id →
    (dataStore.valueAt id).isSome = true

namespace Resources

def empty : Resources := ⟨∅, 1, .empty, by simp⟩

theorem isSome_insertInt {store : IntStore} {id id' : Nat} {value : Int32}
    (h : id = id' ∨ (store.valueAt id').isSome = true) :
    ((store.insertInt id value).valueAt id').isSome = true := by
  rw [IntStore.valueAt_insertInt]
  split
  · rfl
  · next hid => exact h.resolve_left hid

theorem isSome_updateInt {store : IntStore} {id id' : Nat} {value : Int32} :
    ((store.updateInt id value).valueAt id').isSome = (store.valueAt id').isSome := by
  rw [IntStore.valueAt_updateInt]
  split
  · rw [Option.isSome_map]
  · rfl

/-- A new id for a path, with a record of the initial value. -/
def create (res : Resources) (path : Name) (initialValue : Int32) : Resources where
  resourceIds := res.resourceIds.insert path res.nextResourceId
  nextResourceId := succ32 res.nextResourceId
  dataStore := res.dataStore.insertInt res.nextResourceId initialValue
  stored := by
    intro path' id h
    rw [ExtTreeMap.getElem?_insert] at h
    split at h
    · exact isSome_insertInt (Or.inl (Option.some.inj h))
    · exact isSome_insertInt (Or.inr (res.stored path' id h))

def updateRecord (res : Resources) (resourceId : Nat) (value : Int32) : Resources where
  resourceIds := res.resourceIds
  nextResourceId := res.nextResourceId
  dataStore := res.dataStore.updateInt resourceId value
  stored := by
    intro path id h
    rw [isSome_updateInt]
    exact res.stored path id h

end Resources

/-! ## The variables of `main` -/

structure Main where
  tm : TransactionManager
  lockMgr : LockManager
  logMgr : LogManager
  resources : Resources
  txnIds : ExtTreeMap Name Nat
  /-- The commands that wait, oldest first. -/
  pending : List Issued
  /-- The lines printed. -/
  output : List Output
  /-- The results of the next calls of `time(nullptr)`. -/
  clock : List Int
  /-- The number of READ and WRITE commands accepted so far. -/
  line : Nat
  /-- What happened so far. -/
  trace : List Event

/-- What the environment decides: where new locks land in memory, what the clock
says, and the log file that earlier runs left. -/
structure Environment where
  alloc : List Nat
  clock : List Int
  logFile : List LogRecord

namespace Main

/-- The variables when the loop starts, the help text printed. -/
def init (env : Environment) : Main where
  tm := .new
  lockMgr := .empty env.alloc
  logMgr := .openOn env.logFile
  resources := .empty
  txnIds := ∅
  pending := []
  output := [.help]
  clock := env.clock
  line := 0
  trace := []

def print (m : Main) (line : Output) : Main := { m with output := m.output ++ [line] }

/-- Add to the history. -/
def note (m : Main) (events : List Event) : Main := { m with trace := m.trace ++ events }

/-- `log_mgr->writeLog(std::make_shared<LogRecord>(id, type))`. -/
def writeLog (m : Main) (transactionId : Nat) (type : LogType) : Main :=
  match LogRecord.make m.clock transactionId type with
  | (record, clock) => { m with logMgr := m.logMgr.writeLog record, clock := clock }

/-- The serial of the active transaction with an id. -/
def serialOf (m : Main) (transactionId : Nat) : Nat :=
  (m.tm.activeTransactions[transactionId]?.map Transaction.serial).getD 0

/-- The active transaction of a label. -/
def ownerOf (m : Main) (txnLabel : Name) : Option (Nat × Nat) :=
  m.txnIds[txnLabel]?.bind fun id =>
    m.tm.activeTransactions[id]?.map fun txn => (id, txn.serial)

end Main

end TxnEngine
