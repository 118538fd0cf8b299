import TxnEngine.Main.Steps

/-!
# The calls that `main` makes

What the local functions of `main` do to the resources and to the locks, call by
call.  The lists of calls follow the control flow of the functions in
`Main/Handlers.lean`, and running the calls gives the resources and the locks
that those functions leave (`directory_after`).  So the prefixes of the list give
every state of the resources and the locks that a run goes through, inside a
command as well.
-/

namespace TxnEngine

open Std Runs

/-- A call for the resource of a name. -/
inductive Call where
  /-- The loop of `ensureResource` makes a resource, below a parent unless it is 0. -/
  | create (path : Name) (parent : Nat) (initialValue : Int32)
  /-- `ensureResource` returns the id that its loop ended at. -/
  | found (resourceName : Name) (resourceId : Nat)
  /-- `ensureResource` makes a resource after its loop and returns its id. -/
  | fallback (resourceName : Name) (resourceId : Nat)
  | request (resourceName : Name) (transactionId resourceId : Nat) (lockType : LockType)
  | read (resourceName : Name) (resourceId : Nat)
  | update (resourceName : Name) (resourceId : Nat) (value : Int32)
  | complete (transactionId : Nat)
deriving DecidableEq

/-- The call makes a resource. -/
def Call.creates : Call → Bool
  | .create .. | .fallback .. => true
  | _ => false

/-- The name and the id of a return of `ensureResource`. -/
def Call.lookup : Call → Option (Name × Nat)
  | .found resourceName resourceId | .fallback resourceName resourceId =>
      some (resourceName, resourceId)
  | _ => none

/-- The name and the id that a call is about. -/
def Call.use : Call → Option (Name × Nat)
  | .found resourceName resourceId | .fallback resourceName resourceId
  | .request resourceName _ resourceId _ | .read resourceName resourceId
  | .update resourceName resourceId _ => some (resourceName, resourceId)
  | .create .. | .complete .. => none

/-- The resources and the locks. -/
structure Directory where
  resources : Resources
  lockMgr : LockManager

namespace Directory

def init (env : Environment) : Directory := ⟨.empty, .empty env.alloc⟩

/-- What a call does. -/
def call (d : Directory) : Call → Directory
  | .create path parent value =>
      ⟨d.resources.create path value,
        if parent = 0 then d.lockMgr
        else d.lockMgr.setResourceParent d.resources.nextResourceId parent⟩
  | .fallback name _ => ⟨d.resources.create name 0, d.lockMgr⟩
  | .request _ t r mode => ⟨d.resources, (d.lockMgr.requestLock t r mode).2⟩
  | .update _ r value => ⟨d.resources.updateRecord r value, d.lockMgr⟩
  | .complete t => ⟨d.resources, (d.lockMgr.completeTransaction t).2⟩
  | .found .. | .read .. => d

/-- The operation of the lock manager that a call makes. -/
def lockOp (d : Directory) : Call → Option LockOp
  | .create _ parent _ =>
      if parent = 0 then none
      else some (.setResourceParent d.resources.nextResourceId parent)
  | .request _ t r mode => some (.requestLock t r mode)
  | .complete t => some (.completeTransaction t)
  | .found .. | .fallback .. | .read .. | .update .. => none

/-- A call is at most one operation of the lock manager. -/
theorem call_invariant {d : Directory} {c : Call} {I : LockManager → Prop} (h : I d.lockMgr)
    (hstep : ∀ op ∈ d.lockOp c, I (d.lockMgr.step op)) : I (d.call c).lockMgr := by
  cases c with
  | create path parent value =>
      rw [lockOp] at hstep
      rw [call]
      dsimp only
      split
      · exact h
      · next hparent => exact hstep _ (by rw [if_neg hparent]; rfl)
  | request name t r mode => exact hstep _ rfl
  | complete t => exact hstep _ rfl
  | found | fallback | read | update => exact h

end Directory

namespace Main

def directory (m : Main) : Directory := ⟨m.resources, m.lockMgr⟩

/-! ## The calls of a command -/

/-- The calls of the loop over the segments. -/
def segmentCalls : List Name → Name → Nat → Main → List Call
  | [], _, _, _ => []
  | segment :: rest, path, lastId, m =>
      let path := if path.isEmpty then segment else path ++ '.' :: segment
      match m.resources.resourceIds[path]? with
      | some id => segmentCalls rest path id m
      | none =>
          let value := if path = ['A'] then 10 else 0
          let created := m.createResource path lastId value
          .create path lastId value :: segmentCalls rest path created.1 created.2

/-- The calls of `ensureResource`. -/
def resourceCalls (m : Main) (name : Name) : List Call :=
  let found := ensureSegments (segments name) [] 0 m
  segmentCalls (segments name) [] 0 m ++
    [if found.1 = 0 then .fallback name found.2.resources.nextResourceId else .found name found.1]

/-- The calls of READ and WRITE. -/
def accessCalls (m : Main) (txnId : Nat) (cmd : Command) (access : Access) : List Call :=
  let name := cmd.resourceName
  let found := m.ensureResource name
  m.resourceCalls name ++ .request name txnId found.1 access.mode ::
    if (found.2.lockMgr.requestLock txnId found.1 access.mode).1 then
      match access with
      | .read => [.read name found.1]
      | .write => [.update name found.1 cmd.value]
    else []

def executeCalls (m : Main) (c : Issued) : List Call :=
  match m.txnIds[c.command.txnLabel]? with
  | none => []
  | some txnId =>
      if m.tm.isTransactionActive txnId = false then []
      else
        match c.command.op with
        | .read => m.accessCalls txnId c.command .read
        | .write => m.accessCalls txnId c.command .write
        | _ => []

def announceCalls (m : Main) (c : Issued) (resumed : List Name) : List Call :=
  match m.txnIds[c.command.txnLabel]? with
  | none => []
  | some _ =>
      if c.command.txnLabel ∉ resumed ∧ c.command.resourceName ≠ [] then
        m.resourceCalls c.command.resourceName
      else []

/-- The calls of one pass over the pending commands. -/
def passCalls : List Issued → List Issued → List Name → Main → List Call
  | [], _, _, _ => []
  | c :: todo, skipped, resumed, m =>
      if m.labelActive c.command.txnLabel = false then
        passCalls todo skipped resumed (m.setPending (skipped ++ todo))
      else
        let announced := m.announce c resumed
        let trial := announced.2.executeCommand c true
        m.announceCalls c resumed ++ (announced.2.executeCalls c ++
          if trial.1 then
            passCalls todo skipped announced.1 (trial.2.setPending (skipped ++ todo))
          else passCalls todo (skipped ++ [c]) announced.1 trial.2)

/-- The calls of the passes. -/
def loopCalls : Nat → List Name → Main → List Call
  | 0, _, _ => []
  | fuel + 1, resumed, m =>
      passCalls m.pending [] resumed m ++
        if (processPass m.pending [] resumed m).1 then
          loopCalls fuel (processPass m.pending [] resumed m).2.1
            (processPass m.pending [] resumed m).2.2
        else []

def submitCalls (m : Main) (cmd : Command) : List Call :=
  if cmd.txnLabel.isEmpty ∨ cmd.resourceName.isEmpty then []
  else if cmd.txnLabel ∉ m.txnIds then []
  else if m.hasPendingForTxn cmd.txnLabel then []
  else (m.issue cmd).2.executeCalls (m.issue cmd).1

def completeCalls (m : Main) (cmd : Command) (outcome : Outcome) : List Call :=
  match m.txnIds[cmd.txnLabel]? with
  | none => []
  | some txnId =>
      if (m.tm.complete txnId outcome).1 = false then []
      else
        let printed := (m.finish txnId outcome).print (.completed cmd.txnLabel outcome)
        .complete txnId :: loopCalls (printed.pending.length + 1) [] printed

def showCalls (m : Main) (cmd : Command) : List Call :=
  if cmd.resourceName.isEmpty then []
  else m.resourceCalls cmd.resourceName ++
    [.read cmd.resourceName (m.ensureResource cmd.resourceName).1]

/-- The calls of one round of the command loop. -/
def handleCalls (m : Main) (cmd : Command) : List Call :=
  match cmd.op with
  | .read | .write => m.submitCalls cmd
  | .commit => m.completeCalls cmd .commit
  | .abort => m.completeCalls cmd .abort
  | .show => m.showCalls cmd
  | .recover => m.tm.getActiveTransactionIds.map .complete
  | .help | .exit | .begin | .status | .checkpoint | .other _ => []

/-- The calls of the command loop. -/
def calls : Main → List Command → List Call
  | _, [] => []
  | m, cmd :: input =>
      if cmd.op = .exit then [] else m.handleCalls cmd ++ calls (m.handle cmd) input

/-- The run makes fewer than `2 ^ 32 - 1` resources. -/
def FewResources (env : Environment) (input : List Command) : Prop :=
  (calls (init env) input).countP Call.creates < 2 ^ 32 - 1

instance (env : Environment) (input : List Command) : Decidable (FewResources env input) :=
  inferInstanceAs (Decidable (_ < _))

/-! ## The functions in terms of their calls -/

/-- The two outcomes of `lockResource`, with the request named. -/
theorem lockResource_eq (m : Main) (txnId : Nat) (cmd : Command) (mode : LockType)
    (fromPending : Bool) : m.lockResource txnId cmd mode fromPending =
      let found := m.ensureResource cmd.resourceName
      let asked := found.2.requested txnId found.1 mode
      if (found.2.lockMgr.requestLock txnId found.1 mode).1 then (true, found.1, asked)
      else (false, found.1,
        if fromPending then asked else asked.print (.waiting cmd.txnLabel cmd.resourceName)) := by
  rw [lockResource]
  generalize m.ensureResource cmd.resourceName = found
  obtain ⟨resourceId, m'⟩ := found
  dsimp only [requested]
  generalize m'.lockMgr.requestLock txnId resourceId mode = answer
  obtain ⟨granted, lockMgr⟩ := answer
  cases granted <;> rfl

/-- READ and WRITE of an active transaction. -/
theorem executeCommand_access {m : Main} {c : Issued} {txnId : Nat} {access : Access}
    (label : m.txnIds[c.command.txnLabel]? = some txnId)
    (active : m.tm.isTransactionActive txnId = true) (hop : c.command.op = access.op)
    (fromPending : Bool) : m.executeCommand c fromPending =
      let found := m.ensureResource c.command.resourceName
      let asked := found.2.requested txnId found.1 access.mode
      if (found.2.lockMgr.requestLock txnId found.1 access.mode).1 then
        (true, asked.perform access c txnId found.1)
      else (false, if fromPending then asked
        else asked.print (.waiting c.command.txnLabel c.command.resourceName)) := by
  rw [executeCommand, label]
  dsimp only
  rw [if_neg (by simp [active]), hop]
  cases hgranted : ((m.ensureResource c.command.resourceName).2.lockMgr.requestLock txnId
      (m.ensureResource c.command.resourceName).1 access.mode).1 with
  | true | false =>
      cases access with
      | read | write =>
          simp only [Access.mode] at hgranted
          simp [Access.op, Access.mode, lockResource_eq, perform, hgranted]

/-- A trial that asks for no lock. -/
theorem executeCommand_idle {m : Main} {c : Issued}
    (idle : m.labelActive c.command.txnLabel = false ∨ ∀ access : Access, c.command.op ≠ access.op)
    (fromPending : Bool) :
    m.executeCommand c fromPending = (false, m) ∧ m.executeCalls c = [] := by
  rw [executeCommand, executeCalls]
  rw [labelActive] at idle
  cases hlabel : m.txnIds[c.command.txnLabel]? with
  | none => exact ⟨rfl, rfl⟩
  | some txnId =>
      rw [hlabel] at idle
      dsimp only at idle ⊢
      by_cases hactive : m.tm.isTransactionActive txnId = false
      · rw [if_pos hactive, if_pos hactive]
        exact ⟨rfl, rfl⟩
      · rw [if_neg hactive, if_neg hactive]
        have hop := idle.resolve_left hactive
        cases hcmd : c.command.op with
        | read => exact absurd hcmd (hop .read)
        | write => exact absurd hcmd (hop .write)
        | _ => exact ⟨rfl, rfl⟩

/-- A trial asks for no lock, or is READ or WRITE of an active transaction. -/
theorem trial_cases (m : Main) (c : Issued) :
    (m.labelActive c.command.txnLabel = false ∨ ∀ access : Access, c.command.op ≠ access.op) ∨
      ∃ txnId access, m.txnIds[c.command.txnLabel]? = some txnId ∧
        m.tm.isTransactionActive txnId = true ∧ c.command.op = Access.op access := by
  by_cases hop : ∃ access : Access, c.command.op = access.op
  · obtain ⟨access, hop⟩ := hop
    rw [labelActive]
    cases m.txnIds[c.command.txnLabel]? with
    | none => exact Or.inl (Or.inl rfl)
    | some txnId =>
        dsimp only
        cases hactive : m.tm.isTransactionActive txnId with
        | false => exact Or.inl (Or.inl rfl)
        | true => exact Or.inr ⟨txnId, access, rfl, hactive, hop⟩
  · exact Or.inl (Or.inr fun access h => hop ⟨access, h⟩)

theorem executeCalls_access {m : Main} {c : Issued} {txnId : Nat} {access : Access}
    (label : m.txnIds[c.command.txnLabel]? = some txnId)
    (active : m.tm.isTransactionActive txnId = true) (hop : c.command.op = access.op) :
    m.executeCalls c = m.accessCalls txnId c.command access := by
  rw [executeCalls, label]
  dsimp only
  rw [if_neg (by simp [active]), hop]
  cases access <;> rfl

/-! ## Running the calls -/

theorem directory_segments : ∀ (segments : List Name) (path : Name) (lastId : Nat) (m : Main),
    (ensureSegments segments path lastId m).2.directory =
      run Directory.call m.directory (segmentCalls segments path lastId m)
  | [], _, _, _ => rfl
  | segment :: rest, path, lastId, m => by
      rw [ensureSegments, segmentCalls]
      dsimp only
      generalize (if path.isEmpty then segment else path ++ '.' :: segment) = path'
      cases m.resources.resourceIds[path']? with
      | some id => exact directory_segments rest path' id m
      | none => exact directory_segments rest path' _ _

theorem directory_ensureResource (m : Main) (name : Name) :
    (m.ensureResource name).2.directory =
      run Directory.call m.directory (m.resourceCalls name) := by
  rw [ensureResource, resourceCalls, run_append, ← directory_segments]
  generalize ensureSegments (segments name) [] 0 m = found
  obtain ⟨lastId, m'⟩ := found
  dsimp only
  split <;> rfl

/-- The second half of a granted command makes one call. -/
theorem directory_perform (m : Main) (access : Access) (c : Issued) (txnId resourceId : Nat) :
    (m.perform access c txnId resourceId).directory =
      m.directory.call (match access with
        | .read => .read c.command.resourceName resourceId
        | .write => .update c.command.resourceName resourceId c.command.value) := by
  cases access <;> rfl

theorem directory_executeCommand (m : Main) (c : Issued) (fromPending : Bool) :
    (m.executeCommand c fromPending).2.directory =
      run Directory.call m.directory (m.executeCalls c) := by
  rcases m.trial_cases c with hidle | ⟨txnId, access, label, active, hop⟩
  · obtain ⟨hout, hcalls⟩ := executeCommand_idle hidle fromPending
    rw [hout, hcalls, run_nil]
  · rw [executeCommand_access label active hop, executeCalls_access label active hop]
    unfold accessCalls
    dsimp only
    rw [run_append, ← directory_ensureResource, run_cons]
    generalize m.ensureResource c.command.resourceName = found
    obtain ⟨resourceId, m'⟩ := found
    dsimp only
    split
    · rw [directory_perform]
      cases access <;> rfl
    · cases fromPending <;> rfl

theorem directory_announce (m : Main) (c : Issued) (resumed : List Name) :
    (m.announce c resumed).2.directory =
      run Directory.call m.directory (m.announceCalls c resumed) := by
  rw [announce, announceCalls]
  cases m.txnIds[c.command.txnLabel]? with
  | none => rfl
  | some txnId =>
      dsimp only
      split
      · rw [← directory_ensureResource]
        split <;> rfl
      · rfl

theorem directory_pass : ∀ (todo skipped : List Issued) (resumed : List Name) (m : Main),
    (processPass todo skipped resumed m).2.2.directory =
      run Directory.call m.directory (passCalls todo skipped resumed m)
  | [], _, _, _ => rfl
  | c :: todo, skipped, resumed, m => by
      rw [processPass_cons, passCalls]
      split
      · exact directory_pass todo skipped resumed (m.setPending (skipped ++ todo))
      · dsimp only
        rw [run_append, run_append, ← directory_announce, ← directory_executeCommand _ c true]
        generalize (m.announce c resumed).2.executeCommand c true = trial
        split
        · exact directory_pass todo skipped _ (trial.2.setPending (skipped ++ todo))
        · exact directory_pass todo (skipped ++ [c]) _ trial.2

theorem directory_loop : ∀ (fuel : Nat) (resumed : List Name) (m : Main),
    (processLoop fuel resumed m).directory =
      run Directory.call m.directory (loopCalls fuel resumed m)
  | 0, _, _ => rfl
  | fuel + 1, resumed, m => by
      rw [processLoop, loopCalls, run_append, ← directory_pass]
      generalize processPass m.pending [] resumed m = pass
      obtain ⟨progress, resumed', m'⟩ := pass
      cases progress with
      | true => exact directory_loop fuel resumed' m'
      | false => rfl

theorem directory_submit (m : Main) (cmd : Command) (word : String) :
    (m.submit cmd word).directory = run Directory.call m.directory (m.submitCalls cmd) := by
  rw [submit_eq, submitCalls]
  split
  · rfl
  · split
    · rfl
    · split
      · rfl
      · have hout := (m.issue cmd).2.directory_executeCommand (m.issue cmd).1 false
        dsimp only
        split
        · exact hout
        · exact hout

theorem directory_complete (m : Main) (cmd : Command) (outcome : Outcome) :
    (m.complete cmd outcome).directory =
      run Directory.call m.directory (m.completeCalls cmd outcome) := by
  rw [complete, completeCalls]
  cases m.txnIds[cmd.txnLabel]? with
  | none => rfl
  | some txnId =>
      dsimp only
      split
      · rfl
      · exact directory_loop _ [] _

theorem completeAll_eq_run (d : Directory) (txnIds : List Nat) :
    run Directory.call d (txnIds.map .complete) =
      ⟨d.resources, completeAll d.lockMgr txnIds⟩ := by
  induction txnIds generalizing d with
  | nil => rfl
  | cons txnId txnIds ih => rw [List.map_cons, run_cons, ih]; rfl

theorem directory_handle (m : Main) (cmd : Command) :
    (m.handle cmd).directory = run Directory.call m.directory (m.handleCalls cmd) := by
  rw [handle, handleCalls]
  cases cmd.op with
  | read => exact m.directory_submit cmd "READ"
  | write => exact m.directory_submit cmd "WRITE"
  | commit => exact m.directory_complete cmd .commit
  | abort => exact m.directory_complete cmd .abort
  | «show» =>
      dsimp only
      rw [showValue, showCalls]
      split
      · rfl
      · rw [run_append, ← directory_ensureResource]
        rfl
  | recover => exact (completeAll_eq_run m.directory m.tm.getActiveTransactionIds).symm
  | begin =>
      dsimp only
      rw [begin]
      split
      · rfl
      · split <;> rfl
  | help | exit | status | checkpoint | other => rfl

theorem directory_calls : ∀ (input : List Command) (m : Main),
    (m.loop input).directory = run Directory.call m.directory (m.calls input)
  | [], _ => rfl
  | cmd :: input, m => by
      rw [loop, calls]
      split
      · rfl
      · rw [run_append, ← directory_handle]
        exact directory_calls input (m.handle cmd)

/-- The calls of a run give the resources and the locks that it leaves. -/
theorem directory_after (env : Environment) (input : List Command) :
    (after env input).directory = run Directory.call (.init env) (calls (init env) input) :=
  directory_calls input (init env)

end Main

end TxnEngine
