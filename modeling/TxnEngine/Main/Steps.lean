import TxnEngine.Concurrency.Compatibility
import TxnEngine.Main.Handlers

/-!
# What a command does, step by step

Every branch of the command loop is a sequence of a few kinds of small steps.
`Step` names them and says what each one finds and what it leaves, and
`handle_reaches` takes a command apart.  An invariant of the engine is then one
case analysis on the kinds of steps.

An accepted command is on `pending` from the step that issues it to the step
that executes or drops it.  The code tries a new command first and appends it
only when that fails, which comes to the same, since a trial does not look at
`pending` (`executeCommand_setPending`).
-/

namespace TxnEngine

open Std Runs

/-- The mode that an access needs. -/
def Access.mode : Access → LockType
  | .read => .shared
  | .write => .exclusive

/-- The word that asks for an access. -/
def Access.op : Access → Op
  | .read => .read
  | .write => .write

def Outcome.op : Outcome → Op
  | .commit => .commit
  | .abort => .abort

namespace Main

/-- The second half of a granted command. -/
def perform (m : Main) (access : Access) (c : Issued) (txnId resourceId : Nat) : Main :=
  match access with
  | .read => m.readRecord c txnId resourceId
  | .write => m.writeRecord c txnId resourceId

/-- The state after a lock request. -/
def requested (m : Main) (txnId resourceId : Nat) (mode : LockType) : Main :=
  { m with lockMgr := (m.lockMgr.requestLock txnId resourceId mode).2 }

/-- The kinds of steps. -/
inductive Act where
  | print
  | create
  | begin
  | issue (c : Issued)
  | refuse
  | execute (c : Issued)
  | drop (c : Issued)
  | finish (txnId : Nat) (outcome : Outcome)
  | checkpoint
  | recover

/-- The steps, with what they find and what they leave. -/
inductive Step : Main → Act → Main → Prop where
  | print {m : Main} (line : Output) : Step m .print (m.print line)
  | create {m : Main} (path : Name) (parent : Nat) (initialValue : Int32) :
      Step m .create (m.createResource path parent initialValue).2
  | begin {m : Main} {txnLabel : Name} (fresh : txnLabel ∉ m.txnIds) :
      Step m .begin (m.start txnLabel)
  | issue {m : Main} {cmd : Command} (known : cmd.txnLabel ∈ m.txnIds) :
      Step m (.issue (m.issue cmd).1)
        ((m.issue cmd).2.setPending (m.pending ++ [(m.issue cmd).1]))
  | refuse {m : Main} {txnId resourceId : Nat} {mode : LockType}
      (denied : (m.lockMgr.requestLock txnId resourceId mode).1 = false) :
      Step m .refuse (m.requested txnId resourceId mode)
  | execute {m : Main} {c : Issued} {before later : List Issued} {txnId resourceId : Nat}
      (access : Access) (waits : m.pending = before ++ c :: later)
      (label : m.txnIds[c.command.txnLabel]? = some txnId)
      (active : m.tm.isTransactionActive txnId = true)
      (stored : (m.resources.dataStore.valueAt resourceId).isSome = true)
      (granted : (m.lockMgr.requestLock txnId resourceId access.mode).1 = true) :
      Step m (.execute c)
        (((m.requested txnId resourceId access.mode).perform access c txnId
          resourceId).setPending (before ++ later))
  | drop {m : Main} {c : Issued} {before later : List Issued}
      (waits : m.pending = before ++ c :: later)
      (inactive : m.labelActive c.command.txnLabel = false) :
      Step m (.drop c) (m.setPending (before ++ later))
  | finish {m : Main} {txnId : Nat} {outcome : Outcome} {txn : Transaction}
      (active : m.tm.activeTransactions[txnId]? = some txn) :
      Step m (.finish txnId outcome) (m.finish txnId outcome)
  | checkpoint {m : Main} : Step m .checkpoint m.checkpoint
  | recover {m : Main} : Step m .recover m.recover

/-! ## What RECOVER adds to the history -/

theorem mem_recoverEvents {m : Main} {event : Event} : event ∈ m.recoverEvents ↔
    event = .recovered ∨ (∃ c ∈ m.pending, event = .discarded c.line) ∨
      ∃ id ∈ m.tm.getActiveTransactionIds, event = .completed id (m.serialOf id) .abort := by
  rw [recoverEvents, List.mem_cons, List.mem_append, List.mem_map, List.mem_map]
  simp only [eq_comm]

/-! ## What the steps do to the locks -/

theorem mem_completeAll {lm : LockManager} {txnIds : List Nat} {id : Nat} :
    id ∈ (completeAll lm txnIds).completedTransactions ↔
      id ∈ txnIds ∨ id ∈ lm.completedTransactions := by
  induction txnIds generalizing lm with
  | nil => simp [completeAll]
  | cons txnId txnIds ih =>
      have hcons : completeAll lm (txnId :: txnIds) =
          completeAll (lm.completeTransaction txnId).2 txnIds := rfl
      rw [hcons, ih, lm.mem_completeTransaction_completed, List.mem_cons]
      tauto

/-- Sequences of actions on the table of the locks. -/
abbrev LocksReach : LockTable.Table Nat Nat LockType → LockTable.Table Nat Nat LockType → Prop :=
  LockTable.Reaches Fits Convertible fun _ _ => True

theorem completeAll_reaches : ∀ (txnIds : List Nat) (lm : LockManager),
    LocksReach lm.table (completeAll lm txnIds).table
  | [], _ => .refl
  | txnId :: txnIds, lm =>
      ((lm.completeTransaction_reaches txnId).mono fun _ _ _ => trivial).trans
        (completeAll_reaches txnIds _)

/-- A new parent moves no lock. -/
theorem createResource_table (m : Main) (path : Name) (parent : Nat) (value : Int32) :
    (m.createResource path parent value).2.lockMgr.table = m.lockMgr.table := by
  rw [createResource]
  dsimp only
  split <;> rfl

/-- Whatever a step does to the locks, the lock manager allows it. -/
theorem Step.locksReach {m m' : Main} {a : Act} (h : Step m a m') :
    LocksReach m.lockMgr.table m'.lockMgr.table := by
  have hrequest : ∀ txnId resourceId mode,
      LocksReach m.lockMgr.table (m.requested txnId resourceId mode).lockMgr.table :=
    fun txnId resourceId mode =>
      (m.lockMgr.requestLock_reaches txnId resourceId mode).mono fun _ _ _ => trivial
  cases h with
  | print | begin | issue | drop | checkpoint => exact .refl
  | create path parent value =>
      rw [createResource_table]
      exact .refl
  | refuse => exact hrequest _ _ _
  | execute access => cases access <;> exact hrequest _ _ _
  | @finish txnId =>
      exact (m.lockMgr.completeTransaction_reaches txnId).mono fun _ _ _ => trivial
  | recover => exact completeAll_reaches _ _

/-! ## `pending` is not looked at -/

theorem ensureSegments_setPending (p : List Issued) : ∀ (segments : List Name) (path : Name)
    (lastId : Nat) (m : Main), ensureSegments segments path lastId (m.setPending p) =
      ((ensureSegments segments path lastId m).1,
        (ensureSegments segments path lastId m).2.setPending p)
  | [], _, _, _ => rfl
  | segment :: rest, path, lastId, m => by
      rw [ensureSegments, ensureSegments]
      dsimp only
      generalize (if path.isEmpty then segment else path ++ '.' :: segment) = path'
      have hresources : (m.setPending p).resources = m.resources := rfl
      rw [hresources]
      cases m.resources.resourceIds[path']? with
      | some id => exact ensureSegments_setPending p rest path' id m
      | none =>
          exact ensureSegments_setPending p rest path' m.resources.nextResourceId
            (m.createResource path' lastId (if path' = ['A'] then 10 else 0)).2

theorem ensureResource_setPending (m : Main) (name : Name) (p : List Issued) :
    (m.setPending p).ensureResource name =
      ((m.ensureResource name).1, (m.ensureResource name).2.setPending p) := by
  rw [ensureResource, ensureSegments_setPending, ensureResource]
  cases ensureSegments (segments name) [] 0 m with
  | mk lastId m' =>
      dsimp only
      split <;> rfl

theorem lockResource_setPending (m : Main) (txnId : Nat) (cmd : Command) (mode : LockType)
    (fromPending : Bool) (p : List Issued) :
    (m.setPending p).lockResource txnId cmd mode fromPending =
      ((m.lockResource txnId cmd mode fromPending).1,
        (m.lockResource txnId cmd mode fromPending).2.1,
        (m.lockResource txnId cmd mode fromPending).2.2.setPending p) := by
  rw [lockResource, ensureResource_setPending, lockResource]
  cases m.ensureResource cmd.resourceName with
  | mk resourceId m' =>
      dsimp only
      have hlocks : (m'.setPending p).lockMgr = m'.lockMgr := rfl
      rw [hlocks]
      cases m'.lockMgr.requestLock txnId resourceId mode with
      | mk granted lockMgr => cases granted <;> cases fromPending <;> rfl

theorem executeCommand_setPending (m : Main) (c : Issued) (fromPending : Bool)
    (p : List Issued) : (m.setPending p).executeCommand c fromPending =
      ((m.executeCommand c fromPending).1, (m.executeCommand c fromPending).2.setPending p) := by
  rw [executeCommand, executeCommand]
  have hids : (m.setPending p).txnIds = m.txnIds := rfl
  rw [hids]
  cases m.txnIds[c.command.txnLabel]? with
  | none => rfl
  | some txnId =>
      dsimp only
      show (if m.tm.isTransactionActive txnId = false then _ else _) = _
      split
      · rfl
      · cases c.command.op with
        | read | write =>
            dsimp only
            rw [lockResource_setPending]
            generalize m.lockResource txnId c.command _ fromPending = outcome
            obtain ⟨granted, resourceId, m'⟩ := outcome
            cases granted <;> rfl
        | _ => rfl

/-! ## Resources -/

/-- What `ensureResource` leaves alone. -/
structure SameBut (m m' : Main) : Prop where
  tm : m'.tm = m.tm
  txnIds : m'.txnIds = m.txnIds
  pending : m'.pending = m.pending
  logMgr : m'.logMgr = m.logMgr
  clock : m'.clock = m.clock
  line : m'.line = m.line

theorem SameBut.trans {m m' m'' : Main} (h : SameBut m m') (h' : SameBut m' m'') :
    SameBut m m'' :=
  ⟨h'.tm.trans h.tm, h'.txnIds.trans h.txnIds, h'.pending.trans h.pending,
    h'.logMgr.trans h.logMgr, h'.clock.trans h.clock, h'.line.trans h.line⟩

theorem createResource_same (m : Main) (path : Name) (parent : Nat) (value : Int32) :
    SameBut m (m.createResource path parent value).2 := ⟨rfl, rfl, rfl, rfl, rfl, rfl⟩

theorem createResource_stored (m : Main) (path : Name) (parent : Nat) (value : Int32) :
    ((m.createResource path parent value).2.resources.dataStore.valueAt
      (m.createResource path parent value).1).isSome = true :=
  Resources.isSome_insertInt (Or.inl rfl)

variable {P : Main → Act → Prop}

/-- What the loop over the segments does: it creates resources, changes nothing
else, and ends at a resource that has a record, unless there was no segment. -/
theorem ensureSegments_spec (hcreate : ∀ m, P m .create) :
    ∀ (segments : List Name) (path : Name) (lastId : Nat) (m : Main),
      (lastId = 0 ∨ (m.resources.dataStore.valueAt lastId).isSome = true) →
      Reaches Step P m (ensureSegments segments path lastId m).2 ∧
        SameBut m (ensureSegments segments path lastId m).2 ∧
        ((ensureSegments segments path lastId m).1 = 0 ∨
          ((ensureSegments segments path lastId m).2.resources.dataStore.valueAt
            (ensureSegments segments path lastId m).1).isSome = true)
  | [], _, _, m, h => ⟨.refl, ⟨rfl, rfl, rfl, rfl, rfl, rfl⟩, h⟩
  | segment :: rest, path, lastId, m, _ => by
      rw [ensureSegments]
      dsimp only
      generalize (if path.isEmpty then segment else path ++ '.' :: segment) = path'
      cases hfind : m.resources.resourceIds[path']? with
      | some id =>
          exact ensureSegments_spec hcreate rest path' id m
            (Or.inr (m.resources.stored path' id hfind))
      | none =>
          generalize (if path' = ['A'] then (10 : Int32) else 0) = value
          have hstored := m.createResource_stored path' lastId value
          obtain ⟨hreach, hsame, hend⟩ := ensureSegments_spec hcreate rest path'
            (m.createResource path' lastId value).1 (m.createResource path' lastId value).2
            (Or.inr hstored)
          refine ⟨?_, (m.createResource_same path' lastId value).trans hsame, hend⟩
          exact (Reaches.single (.create path' lastId value) (hcreate m)).trans hreach

/-- `ensureResource` creates resources, changes nothing else, and gives a
resource that has a record. -/
theorem ensureResource_spec (hcreate : ∀ m, P m .create) (m : Main) (name : Name) :
    Reaches Step P m (m.ensureResource name).2 ∧ SameBut m (m.ensureResource name).2 ∧
      ((m.ensureResource name).2.resources.dataStore.valueAt
        (m.ensureResource name).1).isSome = true := by
  obtain ⟨hreach, hsame, hend⟩ := ensureSegments_spec hcreate (segments name) [] 0 m (Or.inl rfl)
  rw [ensureResource]
  generalize ensureSegments (segments name) [] 0 m = found at hreach hsame hend ⊢
  obtain ⟨lastId, m'⟩ := found
  dsimp only at hreach hsame hend ⊢
  split
  · refine ⟨?_, hsame.trans (m'.createResource_same name 0 0), m'.createResource_stored name 0 0⟩
    exact hreach.trans (.single (.create name 0 0) (hcreate m'))
  · next hne => exact ⟨hreach, hsame, hend.resolve_left hne⟩

/-- A lookup leaves the transactions and the pending commands alone. -/
theorem ensureResource_same (m : Main) (name : Name) : SameBut m (m.ensureResource name).2 :=
  (ensureResource_spec (P := fun _ _ => True) (fun _ => trivial) m name).2.1

/-! ## `executeCommand` -/

/-- The steps that need no permission. -/
structure Quiet (P : Main → Act → Prop) : Prop where
  print : ∀ m, P m .print
  create : ∀ m, P m .create
  refuse : ∀ m, P m .refuse
  drop : ∀ m c, P m (.drop c)

/-- `lockResource` finds the resource, and then asks for the lock in that state. -/
theorem lockResource_spec (hP : Quiet P) (m : Main) (txnId : Nat) (cmd : Command)
    (mode : LockType) (fromPending : Bool) :
    ∃ m' resourceId, Reaches Step P m m' ∧ SameBut m m' ∧
      (m'.resources.dataStore.valueAt resourceId).isSome = true ∧
      ((m'.lockMgr.requestLock txnId resourceId mode).1 = true ∧
          m.lockResource txnId cmd mode fromPending =
            (true, resourceId, m'.requested txnId resourceId mode) ∨
        ∃ m'', Reaches Step P m' m'' ∧ SameBut m' m'' ∧
          m.lockResource txnId cmd mode fromPending = (false, resourceId, m'')) := by
  obtain ⟨hreach, hsame, hstored⟩ := m.ensureResource_spec hP.create cmd.resourceName
  rw [lockResource]
  generalize m.ensureResource cmd.resourceName = found at hreach hsame hstored ⊢
  obtain ⟨resourceId, m'⟩ := found
  dsimp only at hreach hsame hstored ⊢
  refine ⟨m', resourceId, hreach, hsame, hstored, ?_⟩
  cases hreq : m'.lockMgr.requestLock txnId resourceId mode with
  | mk granted lockMgr =>
      have hstate : m'.requested txnId resourceId mode = { m' with lockMgr := lockMgr } := by
        rw [requested, hreq]
      cases granted with
      | true => exact Or.inl ⟨rfl, by rw [hstate]⟩
      | false =>
          have hrefuse : Reaches Step P m' { m' with lockMgr := lockMgr } := by
            rw [← hstate]
            exact .single (.refuse (by rw [hreq])) (hP.refuse m')
          refine Or.inr ?_
          cases fromPending with
          | true => exact ⟨_, hrefuse, ⟨rfl, rfl, rfl, rfl, rfl, rfl⟩, rfl⟩
          | false =>
              refine ⟨_, hrefuse.trans (.single (.print _) (hP.print _)), ?_, rfl⟩
              exact ⟨rfl, rfl, rfl, rfl, rfl, rfl⟩

/-- What a trial of a command does.  If it fails, nothing but locks and resources
changed.  If it succeeds, it was granted its lock in a state like the one it was
tried in. -/
inductive Trial (P : Main → Act → Prop) (m : Main) (c : Issued) : Bool × Main → Prop where
  | failed {m' : Main} (steps : Reaches Step P m m') (same : SameBut m m') : Trial P m c (false, m')
  | executed {m' : Main} {access : Access} {txnId resourceId : Nat} (steps : Reaches Step P m m')
      (same : SameBut m m') (label : m.txnIds[c.command.txnLabel]? = some txnId)
      (active : m.tm.isTransactionActive txnId = true)
      (stored : (m'.resources.dataStore.valueAt resourceId).isSome = true)
      (granted : (m'.lockMgr.requestLock txnId resourceId access.mode).1 = true) :
      Trial P m c
        (true, (m'.requested txnId resourceId access.mode).perform access c txnId resourceId)

theorem executeCommand_trial (hP : Quiet P) (m : Main) (c : Issued) (fromPending : Bool) :
    Trial P m c (m.executeCommand c fromPending) := by
  have hstay : Trial P m c (false, m) := .failed .refl ⟨rfl, rfl, rfl, rfl, rfl, rfl⟩
  rw [executeCommand]
  cases hlabel : m.txnIds[c.command.txnLabel]? with
  | none => exact hstay
  | some txnId =>
      dsimp only
      split
      · exact hstay
      · next hactive =>
          -- both accesses ask for their lock and then go on
          have hboth : ∀ access : Access, ∃ granted resourceId m',
              m.lockResource txnId c.command access.mode fromPending = (granted, resourceId, m') ∧
                Trial P m c (granted,
                  if granted then m'.perform access c txnId resourceId else m') := by
            intro access
            obtain ⟨m', resourceId, hreach, hsame, hstored, ⟨hgranted, hout⟩ | hdenied⟩ :=
              lockResource_spec hP m txnId c.command access.mode fromPending
            · exact ⟨true, _, _, hout,
                .executed hreach hsame hlabel (by simpa using hactive) hstored hgranted⟩
            · obtain ⟨m'', hreach', hsame', hout⟩ := hdenied
              exact ⟨false, _, _, hout, .failed (hreach.trans hreach') (hsame.trans hsame')⟩
          cases c.command.op with
          | read =>
              obtain ⟨granted, resourceId, m', hout, htrial⟩ := hboth .read
              rw [Access.mode] at hout
              dsimp only
              rw [hout]
              cases granted <;> exact htrial
          | write =>
              obtain ⟨granted, resourceId, m', hout, htrial⟩ := hboth .write
              rw [Access.mode] at hout
              dsimp only
              rw [hout]
              cases granted <;> exact htrial
          | _ => exact hstay

/-- A trial of a waiting command: if it fails, the command still waits, and if
it succeeds, taking the command off `pending` completes the step. -/
theorem executeCommand_reaches (hP : Quiet P) {m : Main} {c : Issued} (fromPending : Bool)
    {before later : List Issued} (waits : m.pending = before ++ c :: later)
    (hexec : (m.executeCommand c fromPending).1 = true →
      ∀ m', m'.pending = m.pending → P m' (.execute c)) :
    Reaches Step P m ((m.executeCommand c fromPending).2.setPending
      (if (m.executeCommand c fromPending).1 then before ++ later else before ++ c :: later)) := by
  have hout := m.executeCommand_trial hP c fromPending
  generalize m.executeCommand c fromPending = out at hexec hout
  cases hout with
  | @failed m' steps same =>
      have hsame : m'.setPending (before ++ c :: later) = m' := by
        rw [setPending, ← waits, ← same.pending]
      rw [if_neg (by simp), hsame]
      exact steps
  | @executed m' access txnId resourceId steps same label active stored granted =>
      rw [if_pos rfl]
      refine steps.trans (.single (.execute access ?_ ?_ ?_ stored granted) ?_)
      · rw [same.pending, waits]
      · rw [same.txnIds, label]
      · rw [same.tm, active]
      · exact hexec rfl m' same.pending

/-- What a trial leaves alone. -/
theorem executeCommand_frame (m : Main) (c : Issued) (fromPending : Bool) :
    (m.executeCommand c fromPending).2.tm = m.tm ∧
      (m.executeCommand c fromPending).2.txnIds = m.txnIds ∧
      (m.executeCommand c fromPending).2.pending = m.pending := by
  have hout := m.executeCommand_trial (P := fun _ _ => True)
    ⟨fun _ => trivial, fun _ => trivial, fun _ => trivial, fun _ _ => trivial⟩ c fromPending
  generalize m.executeCommand c fromPending = out at hout
  cases hout with
  | failed steps same => exact ⟨same.tm, same.txnIds, same.pending⟩
  | @executed m' access _ _ steps same =>
      cases access with
      | read | write => exact ⟨same.tm, same.txnIds, same.pending⟩

/-! ## `processPending` -/

theorem announce_spec (hP : Quiet P) (m : Main) (c : Issued) (resumed : List Name) :
    Reaches Step P m (m.announce c resumed).2 ∧ SameBut m (m.announce c resumed).2 := by
  have hstay : Reaches Step P m m ∧ SameBut m m := ⟨.refl, ⟨rfl, rfl, rfl, rfl, rfl, rfl⟩⟩
  obtain ⟨hreach, hsame, _⟩ := m.ensureResource_spec hP.create c.command.resourceName
  rw [announce]
  cases m.txnIds[c.command.txnLabel]? with
  | none => exact hstay
  | some txnId =>
      dsimp only
      split
      · split
        · refine ⟨hreach.trans (.single (.print _) (hP.print _)), hsame.trans ?_⟩
          exact ⟨rfl, rfl, rfl, rfl, rfl, rfl⟩
        · exact ⟨hreach, hsame⟩
      · exact hstay

/-- Every command that the pass executes meets `E`, which sees the commands
waiting at that moment. -/
def PassMeets (E : List Issued → Issued → Prop) :
    List Issued → List Issued → List Name → Main → Prop
  | [], _, _, _ => True
  | c :: todo, skipped, resumed, m =>
      if m.labelActive c.command.txnLabel = false then
        PassMeets E todo skipped resumed (m.setPending (skipped ++ todo))
      else
        let announced := m.announce c resumed
        let trial := announced.2.executeCommand c true
        if trial.1 then
          E (skipped ++ c :: todo) c ∧
            PassMeets E todo skipped announced.1 (trial.2.setPending (skipped ++ todo))
        else PassMeets E todo (skipped ++ [c]) announced.1 trial.2

/-- Every command that the passes execute meets `E`. -/
def LoopMeets (E : List Issued → Issued → Prop) : Nat → List Name → Main → Prop
  | 0, _, _ => True
  | fuel + 1, resumed, m =>
      PassMeets E m.pending [] resumed m ∧
        ((processPass m.pending [] resumed m).1 = true →
          LoopMeets E fuel (processPass m.pending [] resumed m).2.1
            (processPass m.pending [] resumed m).2.2)

/-- Every command that `processPending` executes meets `E`. -/
def PendingMeets (E : List Issued → Issued → Prop) (m : Main) : Prop :=
  LoopMeets E (m.pending.length + 1) [] m

variable {E : List Issued → Issued → Prop}

theorem processPass_cons (c : Issued) (todo skipped : List Issued) (resumed : List Name)
    (m : Main) : processPass (c :: todo) skipped resumed m =
      if m.labelActive c.command.txnLabel = false then
        processPass todo skipped resumed (m.setPending (skipped ++ todo))
      else
        let announced := m.announce c resumed
        let trial := announced.2.executeCommand c true
        if trial.1 then
          (true, (processPass todo skipped announced.1
            (trial.2.setPending (skipped ++ todo))).2)
        else processPass todo (skipped ++ [c]) announced.1 trial.2 := by
  rw [processPass]
  split
  · rfl
  · dsimp only
    generalize (m.announce c resumed).2.executeCommand c true = trial
    obtain ⟨executed, m'⟩ := trial
    cases executed <;> rfl

/-- A pass is a sequence of steps that take commands off `pending`. -/
theorem processPass_reaches (hP : Quiet P)
    (hexec : ∀ m c, E m.pending c → P m (.execute c)) :
    ∀ (todo skipped : List Issued) (resumed : List Name) (m : Main),
      m.pending = skipped ++ todo → PassMeets E todo skipped resumed m →
      Reaches Step P m (processPass todo skipped resumed m).2.2
  | [], _, _, m, _, _ => .refl
  | c :: todo, skipped, resumed, m, waits, hmeets => by
      rw [processPass_cons]
      rw [PassMeets] at hmeets
      split
      · next hinactive =>
          rw [if_pos hinactive] at hmeets
          have hdrop : Reaches Step P m (m.setPending (skipped ++ todo)) :=
            .single (.drop waits hinactive) (hP.drop m c)
          exact hdrop.trans (processPass_reaches hP hexec todo skipped resumed _ rfl hmeets)
      · next hactive =>
          rw [if_neg hactive] at hmeets
          obtain ⟨hann, hsame⟩ := m.announce_spec hP c resumed
          dsimp only at hmeets ⊢
          generalize m.announce c resumed = announced at hann hsame hmeets ⊢
          obtain ⟨resumed', m'⟩ := announced
          dsimp only at hann hsame hmeets ⊢
          have waits' : m'.pending = skipped ++ c :: todo := hsame.pending.trans waits
          have hframe := m'.executeCommand_frame c true
          have htrial := executeCommand_reaches hP true waits'
          generalize m'.executeCommand c true = trial at hmeets hframe htrial ⊢
          obtain ⟨executed, m''⟩ := trial
          cases executed with
          | true =>
              rw [if_pos rfl] at hmeets ⊢
              have hstep := htrial fun _ m₁ hpending => hexec m₁ c (by
                rw [hpending, waits']
                exact hmeets.1)
              rw [if_pos rfl] at hstep
              exact (hann.trans hstep).trans
                (processPass_reaches hP hexec todo skipped resumed' _ rfl hmeets.2)
          | false =>
              rw [if_neg (by simp)] at hmeets ⊢
              have hstep := htrial fun h => by cases h
              have hpending : m''.pending = skipped ++ c :: todo := hframe.2.2.trans waits'
              have hstay : m''.setPending (skipped ++ c :: todo) = m'' := by
                rw [setPending, ← hpending]
              rw [if_neg (by simp), hstay] at hstep
              refine (hann.trans hstep).trans ?_
              exact processPass_reaches hP hexec todo (skipped ++ [c]) resumed' m''
                (by rw [hpending, List.append_assoc]; rfl) hmeets

theorem processLoop_reaches (hP : Quiet P) (hexec : ∀ m c, E m.pending c → P m (.execute c)) :
    ∀ (fuel : Nat) (resumed : List Name) (m : Main), LoopMeets E fuel resumed m →
      Reaches Step P m (processLoop fuel resumed m)
  | 0, _, _, _ => .refl
  | fuel + 1, resumed, m, hmeets => by
      obtain ⟨hpass, hrest⟩ := hmeets
      have hreach := processPass_reaches hP hexec m.pending [] resumed m rfl hpass
      rw [processLoop]
      generalize processPass m.pending [] resumed m = pass at hreach hrest
      obtain ⟨progress, resumed', m'⟩ := pass
      cases progress with
      | false => exact hreach
      | true => exact hreach.trans (processLoop_reaches hP hexec fuel resumed' m' (hrest rfl))

theorem processPending_reaches (hP : Quiet P) (hexec : ∀ m c, E m.pending c → P m (.execute c))
    {m : Main} (hmeets : m.PendingMeets E) : Reaches Step P m m.processPending :=
  processLoop_reaches hP hexec _ [] m hmeets

/-! ## The commands -/

/-- If the new command is executed at once, it meets `E`. -/
def SubmitMeets (E : List Issued → Issued → Prop) (m : Main) (cmd : Command) : Prop :=
  m.hasPendingForTxn cmd.txnLabel = false →
    ((m.issue cmd).2.executeCommand (m.issue cmd).1 false).1 = true →
      E (m.pending ++ [(m.issue cmd).1]) (m.issue cmd).1

/-- Every command that the end of a transaction lets through meets `E`. -/
def CompleteMeets (E : List Issued → Issued → Prop) (m : Main) (cmd : Command)
    (outcome : Outcome) : Prop :=
  ∀ txnId ∈ m.txnIds[cmd.txnLabel]?, m.tm.isTransactionActive txnId = true →
    ((m.finish txnId outcome).print (.completed cmd.txnLabel outcome)).PendingMeets E

/-- Every command that is executed while `cmd` is handled meets `E`. -/
def Meets (E : List Issued → Issued → Prop) (m : Main) (cmd : Command) : Prop :=
  match cmd.op with
  | .read => SubmitMeets E m cmd
  | .write => SubmitMeets E m cmd
  | .commit => CompleteMeets E m cmd .commit
  | .abort => CompleteMeets E m cmd .abort
  | _ => True

/-- The steps of handling `cmd` in the state `start`. -/
def By (E : List Issued → Issued → Prop) (start : Main) (cmd : Command) (m : Main) :
    Act → Prop
  | .begin => m = start ∧ cmd.op = .begin
  | .issue _ => m = start
  | .execute c => E m.pending c
  | .finish txnId outcome => m = start ∧ cmd.op = outcome.op ∧
      start.txnIds[cmd.txnLabel]? = some txnId
  | .recover => m = start ∧ cmd.op = .recover
  | _ => True

theorem quiet_by (start : Main) (cmd : Command) : Quiet (By E start cmd) :=
  ⟨fun _ => trivial, fun _ => trivial, fun _ => trivial, fun _ _ => trivial⟩

theorem by_execute (start : Main) (cmd : Command) (m : Main) (c : Issued) (h : E m.pending c) :
    By E start cmd m (.execute c) := h

theorem print_reaches (start : Main) (cmd : Command) (m : Main) (line : Output) :
    Reaches Step (By E start cmd) m (m.print line) :=
  .single (.print line) trivial

/-- The branches of READ and WRITE, with the outcome of the trial named. -/
theorem submit_eq (m : Main) (cmd : Command) (word : String) : m.submit cmd word =
    if cmd.txnLabel.isEmpty ∨ cmd.resourceName.isEmpty then m.print (.invalid word)
    else if cmd.txnLabel ∉ m.txnIds then m.print (.notFound cmd.txnLabel)
    else if m.hasPendingForTxn cmd.txnLabel then
      (m.issue cmd).2.setPending (m.pending ++ [(m.issue cmd).1])
    else
      let trial := (m.issue cmd).2.executeCommand (m.issue cmd).1 false
      if trial.1 then trial.2 else trial.2.setPending (trial.2.pending ++ [(m.issue cmd).1]) := by
  have hpending : (m.issue cmd).2.hasPendingForTxn cmd.txnLabel =
      m.hasPendingForTxn cmd.txnLabel := rfl
  have hqueue : (m.issue cmd).2.pending = m.pending := rfl
  rw [submit, ← hpending, ← hqueue]
  generalize m.issue cmd = issued
  obtain ⟨c, m'⟩ := issued
  dsimp only
  generalize m'.executeCommand c false = trial
  obtain ⟨executed, m''⟩ := trial
  cases executed <;> rfl

theorem submit_reaches (m : Main) (cmd : Command) (word : String) (hmeets : SubmitMeets E m cmd) :
    Reaches Step (By E m cmd) m (m.submit cmd word) := by
  rw [submit_eq]
  split
  · exact print_reaches m cmd m _
  · split
    · exact print_reaches m cmd m _
    · next hknown =>
        have hissue : Reaches Step (By E m cmd) m
            ((m.issue cmd).2.setPending (m.pending ++ [(m.issue cmd).1])) :=
          .single (.issue (by simpa using hknown)) rfl
        split
        · exact hissue
        · next hnone =>
            -- the trial of the new command, as one of a command that waits last
            have htrial := executeCommand_reaches (quiet_by (E := E) m cmd) (c := (m.issue cmd).1)
              (m := (m.issue cmd).2.setPending (m.pending ++ [(m.issue cmd).1])) false
              (show _ = m.pending ++ (m.issue cmd).1 :: [] from rfl)
            have hmeets' := hmeets (by simpa using hnone)
            have hframe := (m.issue cmd).2.executeCommand_frame (m.issue cmd).1 false
            rw [executeCommand_setPending] at htrial
            generalize (m.issue cmd).2.executeCommand (m.issue cmd).1 false = trial
              at htrial hmeets' hframe ⊢
            obtain ⟨executed, m'⟩ := trial
            have hpending : m'.pending = m.pending := hframe.2.2
            have hstep := htrial fun hdone m₁ heq => by_execute m cmd m₁ _ (heq ▸ hmeets' hdone)
            refine hissue.trans ?_
            cases executed with
            | true =>
                have hstay : m'.setPending m.pending = m' := by rw [setPending, ← hpending]
                rw [if_pos rfl, List.append_nil] at hstep
                dsimp only
                rw [if_pos rfl, ← hstay]
                exact hstep
            | false =>
                rw [if_neg (by simp)] at hstep
                dsimp only
                rw [if_neg (by simp), hpending]
                exact hstep

/-- COMMIT and ABORT end an active transaction and try the pending commands, or
do nothing but print. -/
theorem complete_cases (m : Main) (cmd : Command) (outcome : Outcome) :
    (∃ line, m.complete cmd outcome = m.print line) ∧
        (∀ txnId ∈ m.txnIds[cmd.txnLabel]?, m.tm.isTransactionActive txnId = false) ∨
      ∃ txnId txn, m.txnIds[cmd.txnLabel]? = some txnId ∧
        m.tm.activeTransactions[txnId]? = some txn ∧ m.complete cmd outcome =
          ((m.finish txnId outcome).print (.completed cmd.txnLabel outcome)).processPending := by
  rw [complete]
  cases hlabel : m.txnIds[cmd.txnLabel]? with
  | none => exact Or.inl ⟨⟨_, rfl⟩, fun txnId hid => by cases hid⟩
  | some txnId =>
      dsimp only
      split
      · next hfailed =>
          refine Or.inl ⟨⟨_, rfl⟩, fun txnId' hid => ?_⟩
          cases hid
          by_contra hactive
          have hdone : (m.tm.complete txnId outcome).1 = true := m.tm.complete_iff.mpr
            (m.tm.isTransactionActive_iff.mp (Bool.eq_true_of_not_eq_false hactive))
          exact Bool.noConfusion (hfailed.symm.trans hdone)
      · next hdone =>
          obtain ⟨txn, hactive⟩ := m.tm.complete_iff.mp (Bool.eq_true_of_not_eq_false hdone)
          exact Or.inr ⟨txnId, txn, rfl, hactive, rfl⟩

theorem complete_reaches (m : Main) (cmd : Command) (outcome : Outcome)
    (hop : cmd.op = outcome.op) (hmeets : CompleteMeets E m cmd outcome) :
    Reaches Step (By E m cmd) m (m.complete cmd outcome) := by
  rcases m.complete_cases cmd outcome with ⟨⟨line, heq⟩, _⟩ | ⟨txnId, txn, hlabel, hactive, heq⟩
  · rw [heq]
    exact print_reaches m cmd m line
  · have hfinish : Reaches Step (By E m cmd) m (m.finish txnId outcome) :=
      .single (.finish hactive) ⟨rfl, hop, hlabel⟩
    have hpending := hmeets txnId hlabel (m.tm.isTransactionActive_iff.mpr ⟨txn, hactive⟩)
    rw [heq]
    refine (hfinish.trans (print_reaches m cmd _ (.completed cmd.txnLabel outcome))).trans ?_
    exact processPending_reaches (quiet_by m cmd) (by_execute m cmd) hpending

/-- Handling a command is a sequence of steps. -/
theorem handle_reaches (m : Main) (cmd : Command) (hmeets : Meets E m cmd) :
    Reaches Step (By E m cmd) m (m.handle cmd) := by
  rw [handle]
  rw [Meets] at hmeets
  cases hop : cmd.op with
  | help => exact print_reaches m cmd m _
  | exit => exact .refl
  | begin =>
      show Reaches Step (By E m cmd) m (m.begin cmd)
      rw [begin]
      split
      · exact print_reaches m cmd m _
      · split
        · exact print_reaches m cmd m _
        · next hfresh =>
            have hstart : Reaches Step (By E m cmd) m (m.start cmd.txnLabel) :=
              .single (.begin hfresh) ⟨rfl, hop⟩
            exact hstart.trans (print_reaches m cmd _ _)
  | read =>
      rw [hop] at hmeets
      exact submit_reaches m cmd _ hmeets
  | write =>
      rw [hop] at hmeets
      exact submit_reaches m cmd _ hmeets
  | commit =>
      rw [hop] at hmeets
      exact complete_reaches m cmd .commit hop hmeets
  | abort =>
      rw [hop] at hmeets
      exact complete_reaches m cmd .abort hop hmeets
  | «show» =>
      show Reaches Step (By E m cmd) m (m.showValue cmd)
      rw [showValue]
      split
      · exact print_reaches m cmd m _
      · obtain ⟨hreach, _⟩ := m.ensureResource_spec (quiet_by m cmd).create cmd.resourceName
        exact hreach.trans (print_reaches m cmd _ _)
  | status => exact print_reaches m cmd m _
  | checkpoint => exact .single .checkpoint trivial
  | recover => exact .single .recover ⟨rfl, hop⟩
  | other => exact print_reaches m cmd m _

/-! ## Without a condition on executions -/

/-- The condition that every execution meets. -/
def Any (_ : List Issued) (_ : Issued) : Prop := True

theorem passMeets_any : ∀ (todo skipped : List Issued) (resumed : List Name) (m : Main),
    PassMeets Any todo skipped resumed m
  | [], _, _, _ => trivial
  | c :: todo, skipped, resumed, m => by
      rw [PassMeets]
      split
      · exact passMeets_any todo skipped resumed _
      · dsimp only
        split
        · exact ⟨trivial, passMeets_any todo skipped _ _⟩
        · exact passMeets_any todo _ _ _

theorem loopMeets_any : ∀ (fuel : Nat) (resumed : List Name) (m : Main),
    LoopMeets Any fuel resumed m
  | 0, _, _ => trivial
  | fuel + 1, _, m => ⟨passMeets_any m.pending [] _ m, fun _ => loopMeets_any fuel _ _⟩

theorem meets_any (m : Main) (cmd : Command) : Meets Any m cmd := by
  rw [Meets]
  cases cmd.op with
  | read | write => exact fun _ _ => trivial
  | commit | abort => exact fun _ _ _ => loopMeets_any _ [] _
  | _ => trivial

/-- Every command is a sequence of steps. -/
theorem handle_reaches_any (m : Main) (cmd : Command) :
    Reaches Step (By Any m cmd) m (m.handle cmd) :=
  m.handle_reaches cmd (m.meets_any cmd)

/-! ## The loop -/

theorem loop_eq_run : ∀ (input : List Command) (m : Main),
    m.loop input = run handle m (beforeExit input)
  | [], _ => rfl
  | cmd :: input, m => by
      rw [loop, beforeExit, List.takeWhile_cons]
      by_cases hexit : cmd.op = .exit
      · simp [hexit]
      · rw [if_neg hexit, loop_eq_run input, if_pos (by simpa using hexit), run_cons, beforeExit]

theorem after_eq_run (env : Environment) (input : List Command) :
    after env input = run handle (init env) (beforeExit input) :=
  loop_eq_run input (init env)

/-- The invariant rule for the engine. -/
theorem after_invariant {I : Main → Prop} (hstep : ∀ {m m' a}, Step m a m' → I m → I m')
    {env : Environment} (hinit : I (init env)) (input : List Command) : I (after env input) := by
  rw [after_eq_run]
  refine invariant handle (fun m cmd h => ?_) _ hinit
  exact (m.handle_reaches_any cmd).invariant (fun hs _ hI => hstep hs hI) h

/-! ## Runs with few transactions -/

/-- There are fewer than `2 ^ 32 - 1` BEGIN commands. -/
def FewBegins (input : List Command) : Prop :=
  input.countP (fun cmd => cmd.op = .begin) < 2 ^ 32 - 1

instance (input : List Command) : Decidable (FewBegins input) :=
  inferInstanceAs (Decidable (_ < _))

/-- The id counter does not come round. -/
def IdsLeft (m : Main) : Act → Prop
  | .begin => m.tm.nextTransactionId + 1 < 2 ^ 32
  | _ => True

theorem Step.nextTransactionId {m m' : Main} {a : Act} (h : Step m a m') :
    m'.tm.nextTransactionId = m.tm.nextTransactionId ∨
      a = .begin ∧ m'.tm.nextTransactionId = succ32 m.tm.nextTransactionId := by
  cases h with
  | begin => exact Or.inr ⟨rfl, rfl⟩
  | @finish txnId outcome txn active => exact Or.inl (m.tm.complete_counters txnId outcome).1
  | recover => exact Or.inl m.tm.counters_abortAll.1
  | execute access => cases access <;> exact Or.inl rfl
  | _ => exact Or.inl rfl

/-- Only BEGIN advances the id counter, by one. -/
theorem nextTransactionId_handle (m : Main) (cmd : Command) :
    (m.handle cmd).tm.nextTransactionId = m.tm.nextTransactionId ∨
      cmd.op = .begin ∧
        (m.handle cmd).tm.nextTransactionId = succ32 m.tm.nextTransactionId := by
  by_cases hop : cmd.op = .begin
  · have hhandle : m.handle cmd = m.begin cmd := by rw [handle, hop]
    rw [hhandle, begin]
    split
    · exact Or.inl rfl
    · split
      · exact Or.inl rfl
      · exact Or.inr ⟨hop, rfl⟩
  · refine Or.inl ((m.handle_reaches_any cmd).invariant
      (I := fun m' => m'.tm.nextTransactionId = m.tm.nextTransactionId) ?_ rfl)
    intro m₁ m₂ a hs hby h
    rcases hs.nextTransactionId with hsame | ⟨rfl, _⟩
    · exact hsame.trans h
    · exact absurd hby.2 hop

/-- With few BEGIN commands every one finds a new id. -/
theorem guarded_idsLeft (input : List Command) (m : Main)
    (h : m.tm.nextTransactionId + input.countP (fun cmd => cmd.op = .begin) < 2 ^ 32) :
    Guarded handle (fun m cmd => cmd.op = .begin → m.tm.nextTransactionId + 1 < 2 ^ 32) m
      input := by
  have hcount : ∀ (m : Main) (cmd : Command), (m.handle cmd).tm.nextTransactionId ≤
      m.tm.nextTransactionId + if decide (cmd.op = .begin) then 1 else 0 := by
    intro m cmd
    rcases m.nextTransactionId_handle cmd with hsame | ⟨hop, hnext⟩
    · rw [hsame]
      exact Nat.le_add_right _ _
    · rw [hnext, if_pos (decide_eq_true hop)]
      exact Nat.mod_le _ _
  have hguarded : Guarded handle (fun m cmd => decide (cmd.op = .begin) = true →
      m.tm.nextTransactionId + 1 < 2 ^ 32) m input := guarded_of_countP hcount input m h
  exact hguarded.mono fun m cmd hroom hop => hroom (decide_eq_true hop)

/-- In a run with few BEGIN commands every one finds a new id. -/
theorem guarded_of_fewBegins (env : Environment) {input : List Command} (hfew : FewBegins input) :
    Guarded handle (fun m cmd => cmd.op = .begin → m.tm.nextTransactionId + 1 < 2 ^ 32) (init env)
      (beforeExit input) := by
  have hcount : (beforeExit input).countP (fun cmd => cmd.op = .begin) ≤
      input.countP fun cmd => cmd.op = .begin := (List.takeWhile_sublist _).countP_le
  have hfirst : (init env).tm.nextTransactionId = 1 := rfl
  refine guarded_idsLeft _ _ ?_
  rw [FewBegins] at hfew
  omega

/-- The invariant rule for one command that finds a new id. -/
theorem handle_invariant_of_room {I : Main → Prop}
    (hstep : ∀ {m m' a}, Step m a m' → IdsLeft m a → I m → I m') {m : Main} {cmd : Command}
    (hroom : cmd.op = .begin → m.tm.nextTransactionId + 1 < 2 ^ 32) (h : I m) :
    I (m.handle cmd) := by
  refine (m.handle_reaches_any cmd).invariant (fun {m₁ _ a} hs hby hI => hstep hs ?_ hI) h
  cases a with
  | begin =>
      obtain ⟨rfl, hop⟩ := hby
      exact hroom hop
  | _ => trivial

/-- The invariant rule for runs with few transactions. -/
theorem after_invariant_of_few {I : Main → Prop}
    (hstep : ∀ {m m' a}, Step m a m' → IdsLeft m a → I m → I m') {env : Environment}
    (hinit : I (init env)) {input : List Command} (hfew : FewBegins input) :
    I (after env input) := by
  rw [after_eq_run]
  exact (guarded_of_fewBegins env hfew).invariant
    (fun _ _ h hroom => handle_invariant_of_room hstep hroom h) hinit

end Main

end TxnEngine
