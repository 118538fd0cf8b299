import TxnEngine.Concurrency.Addresses
import TxnEngine.Main.Passes

/-!
# What the engine sees of addresses

Two runs of `main` on the same input can differ in the addresses of their locks.
`Alike` relates states that differ in nothing else.  Every function of `main` keeps
states alike, as long as no transaction has two locks on a resource, and prints the
same lines (`alike_after`).  A transaction gets a second lock only in a completion that
wakes one of its own requests while it still holds a lock (`WakesNewcomers`), and then
the lines can depend on the addresses (`dependsOnAddresses_pending`).
-/

namespace TxnEngine

open Std Runs

namespace Main

/-- The state with other locks. -/
def withLocks (m : Main) (lockMgr : LockManager) : Main := { m with lockMgr := lockMgr }

/-- The states differ at most in the addresses of locks. -/
def Alike (m m' : Main) : Prop :=
  ∃ lockMgr, m' = m.withLocks lockMgr ∧ m.lockMgr.Alike lockMgr

variable {m m' : Main} {c : Issued} {cmd : Command}

theorem alike_init (alloc alloc' : List Nat) (clock : List Int) (logFile : List LogRecord) :
    Alike (init ⟨alloc, clock, logFile⟩) (init ⟨alloc', clock, logFile⟩) :=
  ⟨.empty alloc', rfl, LockManager.alike_empty alloc alloc'⟩

/-- A change of other variables. -/
theorem Alike.map (h : Alike m m') {f : Main → Main}
    (hf : ∀ m lockMgr, f (m.withLocks lockMgr) = (f m).withLocks lockMgr)
    (hlocks : ∀ m, (f m).lockMgr = m.lockMgr) : Alike (f m) (f m') := by
  obtain ⟨lockMgr, rfl, halike⟩ := h
  exact ⟨lockMgr, hf m lockMgr, hlocks m ▸ halike⟩

theorem Alike.print (h : Alike m m') (line : Output) : Alike (m.print line) (m'.print line) :=
  h.map (f := fun m => m.print line) (fun _ _ => rfl) fun _ => rfl

theorem Alike.setPending (h : Alike m m') (pending : List Issued) :
    Alike (m.setPending pending) (m'.setPending pending) :=
  h.map (f := fun m => m.setPending pending) (fun _ _ => rfl) fun _ => rfl

theorem Alike.perform (h : Alike m m') (access : Access) (c : Issued) (txnId resourceId : Nat) :
    Alike (m.perform access c txnId resourceId) (m'.perform access c txnId resourceId) := by
  cases access with
  | read =>
      exact h.map (f := fun m => m.readRecord c txnId resourceId) (fun _ _ => rfl) fun _ => rfl
  | write =>
      exact h.map (f := fun m => m.writeRecord c txnId resourceId) (fun _ _ => rfl) fun _ => rfl

/-! ## Lookups and trials -/

theorem Alike.createResource (h : Alike m m') (path : Name) (parent : Nat) (value : Int32) :
    (m'.createResource path parent value).1 = (m.createResource path parent value).1 ∧
      Alike (m.createResource path parent value).2 (m'.createResource path parent value).2 := by
  obtain ⟨lockMgr, rfl, halike⟩ := h
  refine ⟨rfl, _, rfl, ?_⟩
  show LockManager.Alike (if parent = 0 then m.lockMgr else _) (if parent = 0 then lockMgr else _)
  split
  · exact halike
  · refine ⟨halike.locks, halike.queue, halike.index, halike.completed, ?_⟩
    show lockMgr.resourceParent.insert _ _ = m.lockMgr.resourceParent.insert _ _
    rw [halike.parents]
    rfl

theorem Alike.ensureSegments : ∀ (segments : List Name) (path : Name) (lastId : Nat)
    {m m' : Main}, Alike m m' →
    (ensureSegments segments path lastId m').1 = (ensureSegments segments path lastId m).1 ∧
      Alike (ensureSegments segments path lastId m).2 (ensureSegments segments path lastId m').2
  | [], _, _, _, _, h => ⟨rfl, h⟩
  | segment :: rest, path, lastId, m, m', h => by
      have hresources : m'.resources = m.resources := by
        obtain ⟨lockMgr, rfl, _⟩ := h
        rfl
      rw [Main.ensureSegments, Main.ensureSegments, hresources]
      generalize (if path.isEmpty then segment else path ++ '.' :: segment) = path'
      dsimp only
      split
      · exact h.ensureSegments rest path' _
      · have hcreate := h.createResource path' lastId (if path' = ['A'] then 10 else 0)
        generalize m.createResource path' lastId _ = created at hcreate ⊢
        generalize m'.createResource path' lastId _ = created' at hcreate ⊢
        obtain ⟨id, m₁⟩ := created
        obtain ⟨id', m₁'⟩ := created'
        obtain ⟨hid, halike⟩ := hcreate
        dsimp only at hid halike ⊢
        rw [hid]
        exact halike.ensureSegments rest path' id

theorem Alike.ensureResource (h : Alike m m') (name : Name) :
    (m'.ensureResource name).1 = (m.ensureResource name).1 ∧
      Alike (m.ensureResource name).2 (m'.ensureResource name).2 := by
  have hfound := h.ensureSegments (segments name) [] 0
  rw [Main.ensureResource, Main.ensureResource]
  generalize Main.ensureSegments (segments name) [] 0 m = found at hfound ⊢
  generalize Main.ensureSegments (segments name) [] 0 m' = found' at hfound ⊢
  obtain ⟨id, m₁⟩ := found
  obtain ⟨id', m₁'⟩ := found'
  obtain ⟨hid, halike⟩ := hfound
  dsimp only at hid halike ⊢
  rw [hid]
  split
  · exact halike.createResource name 0 0
  · exact ⟨rfl, halike⟩

/-! ## Locks that stay unique -/

/-- The tables of the lock manager agree, and no transaction has two locks on a
resource. -/
def Single (d : Directory) : Prop := d.lockMgr.TablesAgree ∧ d.lockMgr.OneLockEach

/-- A completion wakes newcomers only. -/
def CompletesWell (d : Directory) : Call → Prop
  | .complete txnId => d.lockMgr.NewcomerGuard (.completeTransaction txnId)
  | _ => True

instance (d : Directory) : (c : Call) → Decidable (CompletesWell d c)
  | .complete txnId =>
      inferInstanceAs (Decidable (d.lockMgr.NewcomerGuard (.completeTransaction txnId)))
  | .create .. | .found .. | .fallback .. | .request .. | .read .. | .update .. => isTrue trivial

theorem Single.call {d : Directory} (h : Single d) {c : Call} (well : CompletesWell d c) :
    Single (d.call c) := by
  have hguard : ∀ op ∈ d.lockOp c, d.lockMgr.NewcomerGuard op := by
    intro op hop
    cases c with
    | create path parent value =>
        rw [Directory.lockOp] at hop
        split at hop <;> cases hop
        trivial
    | request => cases hop; trivial
    | complete => cases hop; exact well
    | found | fallback | read | update => cases hop
  exact Directory.call_invariant
    (I := fun lm => lm.TablesAgree ∧ lm.OneLockEach) h fun op hop =>
      ⟨LockManager.tablesAgree_step _ op h.1,
        (LockManager.oneLockEach_step h.1 h.2 op).mpr (hguard op hop)⟩

theorem Single.run {d : Directory} (h : Single d) {calls : List Call}
    (well : Guarded Directory.call CompletesWell d calls) : Single (run Directory.call d calls) :=
  well.invariant (fun _ _ hd hcall => hd.call hcall) h

/-- Calls that complete nothing keep the locks unique. -/
theorem Single.continues (h : Single m.directory) {calls : List Call}
    (hcalls : Continues m m' calls) : Single m'.directory := by
  rw [hcalls.directory]
  refine h.run (guarded_of_mem fun c hc d => ?_)
  have hrunning := hcalls.running c hc
  cases c with
  | complete => cases hrunning
  | _ => trivial

theorem Alike.requested (h : Alike m m') (hone : m.lockMgr.OneLockEach) (txnId id : Nat)
    (mode : LockType) :
    (m'.lockMgr.requestLock txnId id mode).1 = (m.lockMgr.requestLock txnId id mode).1 ∧
      Alike (m.requested txnId id mode) (m'.requested txnId id mode) := by
  obtain ⟨lockMgr, rfl, halike⟩ := h
  obtain ⟨hanswer, hlocks⟩ := halike.requestLock hone txnId id mode
  exact ⟨hanswer, _, rfl, hlocks⟩

theorem Alike.executeCommand (h : Alike m m') (hsingle : Single m.directory) (c : Issued)
    (fromPending : Bool) :
    (m'.executeCommand c fromPending).1 = (m.executeCommand c fromPending).1 ∧
      Alike (m.executeCommand c fromPending).2 (m'.executeCommand c fromPending).2 := by
  have hsame : m'.txnIds = m.txnIds ∧ m'.tm = m.tm := by
    obtain ⟨lockMgr, rfl, _⟩ := h
    exact ⟨rfl, rfl⟩
  rcases m.trial_cases c with hidle | ⟨txnId, access, label, active, hop⟩
  · have hidle' : m'.labelActive c.command.txnLabel = false ∨
        ∀ access : Access, c.command.op ≠ access.op :=
      hidle.imp_left (labelActive_congr hsame.2 hsame.1 _).trans
    rw [(executeCommand_idle hidle fromPending).1, (executeCommand_idle hidle' fromPending).1]
    exact ⟨rfl, h⟩
  · obtain ⟨hid, hfound⟩ := h.ensureResource c.command.resourceName
    have hone : (m.ensureResource c.command.resourceName).2.lockMgr.OneLockEach :=
      (hsingle.continues (continues_ensureResource m c.command.resourceName)).2
    obtain ⟨hanswer, hasked⟩ := hfound.requested hone txnId
      (m.ensureResource c.command.resourceName).1 access.mode
    rw [executeCommand_access label active hop, executeCommand_access (hsame.1 ▸ label)
      (hsame.2 ▸ active) hop]
    dsimp only
    rw [hid, hanswer]
    split
    · exact ⟨rfl, hasked.perform access c txnId _⟩
    · refine ⟨rfl, ?_⟩
      cases fromPending with
      | true => exact hasked
      | false => exact hasked.print _

/-! ## `processPending` -/

theorem Alike.announce (h : Alike m m') (c : Issued) (resumed : List Name) :
    (m'.announce c resumed).1 = (m.announce c resumed).1 ∧
      Alike (m.announce c resumed).2 (m'.announce c resumed).2 := by
  have hids : m'.txnIds = m.txnIds := by
    obtain ⟨lockMgr, rfl, _⟩ := h
    rfl
  obtain ⟨hid, hfound⟩ := h.ensureResource c.command.resourceName
  rw [Main.announce, Main.announce, hids]
  cases m.txnIds[c.command.txnLabel]? with
  | none => exact ⟨rfl, h⟩
  | some txnId =>
      dsimp only
      split
      · generalize m.ensureResource c.command.resourceName = found at hid hfound ⊢
        generalize m'.ensureResource c.command.resourceName = found' at hid hfound ⊢
        obtain ⟨id, m₁⟩ := found
        obtain ⟨id', m₁'⟩ := found'
        dsimp only at hid hfound ⊢
        have hlock : m₁'.lockMgr.hasLock txnId id' = m₁.lockMgr.hasLock txnId id := by
          obtain ⟨lockMgr, rfl, halike⟩ := hfound
          rw [hid]
          exact halike.hasLock txnId id
        rw [hlock]
        split
        · exact ⟨rfl, hfound.print _⟩
        · exact ⟨rfl, hfound⟩
      · exact ⟨rfl, h⟩

theorem Alike.processPass : ∀ (todo skipped : List Issued) (resumed : List Name) {m m' : Main},
    Alike m m' → Single m.directory →
    (processPass todo skipped resumed m').1 = (processPass todo skipped resumed m).1 ∧
      (processPass todo skipped resumed m').2.1 = (processPass todo skipped resumed m).2.1 ∧
      Alike (processPass todo skipped resumed m).2.2 (processPass todo skipped resumed m').2.2
  | [], _, _, _, _, h, _ => ⟨rfl, rfl, h⟩
  | c :: todo, skipped, resumed, m, m', h, hsingle => by
      have hactive : m'.labelActive c.command.txnLabel = m.labelActive c.command.txnLabel := by
        obtain ⟨lockMgr, rfl, _⟩ := h
        rfl
      rw [processPass_cons, processPass_cons, hactive]
      split
      · exact (h.setPending _).processPass todo skipped resumed hsingle
      · obtain ⟨hresumed, hannounced⟩ := h.announce c resumed
        have hsingle₁ := hsingle.continues (continues_announce m c resumed)
        obtain ⟨hanswer, htried⟩ := hannounced.executeCommand hsingle₁ c true
        have hsingle₂ := hsingle₁.continues
          (continues_executeCommand (m.announce c resumed).2 c true)
        dsimp only
        rw [hresumed, hanswer]
        split
        · have hrest := (htried.setPending (skipped ++ todo)).processPass todo skipped
            (m.announce c resumed).1 hsingle₂
          exact ⟨rfl, hrest.2⟩
        · exact htried.processPass todo _ _ hsingle₂

theorem Alike.processLoop : ∀ {fuel : Nat} {resumed : List Name} {m m' : Main}, Alike m m' →
    Single m.directory → Alike (processLoop fuel resumed m) (processLoop fuel resumed m')
  | 0, _, _, _, h, _ => h
  | fuel + 1, resumed, m, m', h, hsingle => by
      have hpending : m'.pending = m.pending := by
        obtain ⟨lockMgr, rfl, _⟩ := h
        rfl
      have hpass := h.processPass m.pending [] resumed hsingle
      have hsingle' : Single (Main.processPass m.pending [] resumed m).2.2.directory :=
        hsingle.continues (continues_pass m.pending [] resumed m rfl)
      rw [Main.processLoop, Main.processLoop, hpending]
      generalize Main.processPass m.pending [] resumed m = pass at hpass hsingle' ⊢
      generalize Main.processPass m.pending [] resumed m' = pass' at hpass ⊢
      obtain ⟨progress, resumed₁, m₁⟩ := pass
      obtain ⟨progress', resumed₁', m₁'⟩ := pass'
      obtain ⟨hprogress, hresumed, halike⟩ := hpass
      dsimp only at hprogress hresumed halike hsingle' ⊢
      subst hprogress hresumed
      cases progress' with
      | true => exact halike.processLoop hsingle'
      | false => exact halike

/-! ## Commands -/

theorem Alike.submit (h : Alike m m') (hsingle : Single m.directory) (word : String) :
    Alike (m.submit cmd word) (m'.submit cmd word) := by
  have hissue : (m'.issue cmd).1 = (m.issue cmd).1 ∧ Alike (m.issue cmd).2 (m'.issue cmd).2 := by
    obtain ⟨lockMgr, rfl, halike⟩ := h
    exact ⟨rfl, lockMgr, rfl, halike⟩
  have hsame : m'.txnIds = m.txnIds ∧ m'.pending = m.pending := by
    obtain ⟨lockMgr, rfl, _⟩ := h
    exact ⟨rfl, rfl⟩
  have hissued : Single (m.issue cmd).2.directory := hsingle
  obtain ⟨hanswer, htried⟩ := hissue.2.executeCommand hissued (m.issue cmd).1 false
  have hwaits : m'.hasPendingForTxn cmd.txnLabel = m.hasPendingForTxn cmd.txnLabel := by
    rw [hasPendingForTxn, hsame.2, hasPendingForTxn]
  rw [submit_eq, submit_eq, hsame.1, hwaits, hissue.1, hsame.2]
  dsimp only
  rw [hanswer]
  split
  · exact h.print _
  · split
    · exact h.print _
    · split
      · exact hissue.2.setPending _
      · split
        · exact htried
        · have hpending : ((m'.issue cmd).2.executeCommand (m.issue cmd).1 false).2.pending =
              ((m.issue cmd).2.executeCommand (m.issue cmd).1 false).2.pending := by
            obtain ⟨lockMgr, heq, _⟩ := htried
            rw [heq]
            rfl
          rw [hpending]
          exact htried.setPending _

theorem Alike.complete (h : Alike m m') (hsingle : Single m.directory) {outcome : Outcome}
    (well : Guarded Directory.call CompletesWell m.directory (m.completeCalls cmd outcome)) :
    Alike (m.complete cmd outcome) (m'.complete cmd outcome) := by
  have hsame : m'.txnIds = m.txnIds ∧ m'.tm = m.tm := by
    obtain ⟨lockMgr, rfl, _⟩ := h
    exact ⟨rfl, rfl⟩
  rw [completeCalls] at well
  rw [Main.complete, Main.complete, hsame.1, hsame.2]
  cases hlabel : m.txnIds[cmd.txnLabel]? with
  | none => exact h.print _
  | some txnId =>
      rw [hlabel] at well
      dsimp only at well ⊢
      split
      · exact h.print _
      · next hdone =>
          rw [if_neg hdone] at well
          have hfinish : Alike ((m.finish txnId outcome).print (.completed cmd.txnLabel outcome))
              ((m'.finish txnId outcome).print (.completed cmd.txnLabel outcome)) := by
            obtain ⟨lockMgr, rfl, halike⟩ := h
            exact ⟨_, rfl, halike.completeTransaction txnId⟩
          have hsingle' : Single ((m.finish txnId outcome).print
              (.completed cmd.txnLabel outcome)).directory :=
            hsingle.call (c := .complete txnId) well.1
          have hpending : ((m'.finish txnId outcome).print
              (.completed cmd.txnLabel outcome)).pending =
                ((m.finish txnId outcome).print (.completed cmd.txnLabel outcome)).pending := by
            obtain ⟨lockMgr, rfl, _⟩ := h
            rfl
          rw [processPending, processPending, hpending]
          exact hfinish.processLoop hsingle'

theorem alike_completeAll : ∀ (txnIds : List Nat) {lm lm' : LockManager}, lm.Alike lm' →
    (completeAll lm txnIds).Alike (completeAll lm' txnIds)
  | [], _, _, h => h
  | txnId :: txnIds, _, _, h => alike_completeAll txnIds (h.completeTransaction txnId)

theorem Alike.begin (h : Alike m m') (cmd : Command) : Alike (m.begin cmd) (m'.begin cmd) := by
  have hids : m'.txnIds = m.txnIds := by
    obtain ⟨lockMgr, rfl, _⟩ := h
    rfl
  have hstart : Alike (m.start cmd.txnLabel) (m'.start cmd.txnLabel) :=
    h.map (f := fun m => m.start cmd.txnLabel) (fun _ _ => rfl) fun _ => rfl
  rw [Main.begin, Main.begin, hids]
  split
  · exact h.print _
  · split
    · exact h.print _
    · exact hstart.print _

theorem Alike.showValue (h : Alike m m') (cmd : Command) :
    Alike (m.showValue cmd) (m'.showValue cmd) := by
  obtain ⟨hid, hfound⟩ := h.ensureResource cmd.resourceName
  rw [Main.showValue, Main.showValue]
  split
  · exact h.print _
  · generalize m.ensureResource cmd.resourceName = found at hid hfound ⊢
    generalize m'.ensureResource cmd.resourceName = found' at hid hfound ⊢
    obtain ⟨id, m₁⟩ := found
    obtain ⟨id', m₁'⟩ := found'
    obtain ⟨lockMgr, rfl, halike⟩ := hfound
    dsimp only at hid
    subst hid
    exact ⟨lockMgr, rfl, halike⟩

theorem Alike.handle (h : Alike m m') (hsingle : Single m.directory)
    (well : Guarded Directory.call CompletesWell m.directory (m.handleCalls cmd)) :
    Alike (m.handle cmd) (m'.handle cmd) := by
  rw [handleCalls] at well
  rw [Main.handle, Main.handle]
  cases hop : cmd.op with
  | help | other => exact h.print _
  | exit => exact h
  | begin => exact h.begin cmd
  | read => exact h.submit hsingle "READ"
  | write => exact h.submit hsingle "WRITE"
  | commit =>
      rw [hop] at well
      exact h.complete hsingle well
  | abort =>
      rw [hop] at well
      exact h.complete hsingle well
  | «show» => exact h.showValue cmd
  | status => exact h.map (f := status) (fun _ _ => rfl) fun _ => rfl
  | checkpoint => exact h.map (f := checkpoint) (fun _ _ => rfl) fun _ => rfl
  | recover =>
      obtain ⟨lockMgr, rfl, halike⟩ := h
      exact ⟨_, rfl, alike_completeAll _ halike⟩

/-! ## Runs -/

theorem Single.handle (h : Single m.directory)
    (well : Guarded Directory.call CompletesWell m.directory (m.handleCalls cmd)) :
    Single (m.handle cmd).directory := by
  rw [directory_handle]
  exact h.run well

theorem alike_loop : ∀ (input : List Command) {m m' : Main}, Alike m m' → Single m.directory →
    Guarded Directory.call CompletesWell m.directory (calls m input) →
    Alike (m.loop input) (m'.loop input)
  | [], _, _, h, _, _ => h
  | cmd :: input, m, m', h, hsingle, well => by
      rw [calls] at well
      rw [loop, loop]
      split
      · exact h
      · next hgo =>
          rw [if_neg hgo, guarded_append, ← directory_handle] at well
          exact alike_loop input (h.handle hsingle well.1) (hsingle.handle well.1) well.2

theorem single_init (env : Environment) : Single (.init env) :=
  ⟨LockManager.tablesAgree_empty env.alloc, LockManager.oneLockEach_empty env.alloc⟩

/-- As long as completions wake newcomers only, what `main` prints, logs, stores and lets
wait does not depend on the addresses of its locks. -/
theorem alike_after (alloc alloc' : List Nat) (clock : List Int) (logFile : List LogRecord)
    (input : List Command) (well : Guarded Directory.call CompletesWell
      (.init ⟨alloc, clock, logFile⟩) (calls (init ⟨alloc, clock, logFile⟩) input)) :
    ∃ lockMgr, after ⟨alloc', clock, logFile⟩ input =
        (after ⟨alloc, clock, logFile⟩ input).withLocks lockMgr ∧
      (after ⟨alloc, clock, logFile⟩ input).lockMgr.Alike lockMgr :=
  alike_loop input (alike_init alloc alloc' clock logFile) (single_init _) well

/-- A writer waits for a reader, and goes on when the reader has committed. -/
def writerWaits : List Command :=
  [⟨.begin, ['T'], [], 0⟩, ⟨.begin, ['U'], [], 0⟩, ⟨.read, ['T'], ['a', '.', 'x'], 0⟩,
    ⟨.write, ['U'], ['a', '.', 'x'], 1⟩, ⟨.commit, ['T'], [], 0⟩, ⟨.commit, ['U'], [], 0⟩]

theorem alike_after_writerWaits :
    ∃ lockMgr, after ⟨[3, 1], [], []⟩ writerWaits =
        (after ⟨[], [], []⟩ writerWaits).withLocks lockMgr ∧
      (after ⟨[], [], []⟩ writerWaits).lockMgr.Alike lockMgr :=
  alike_after [] [3, 1] [] [] writerWaits (by decide)

/-- T reads below `a` and waits to write there while U reads `a`.  When U commits, T gets
a second lock on `a`.  Its next READ exchanges the first of the two. -/
def dependsOnAddresses : List Command :=
  [⟨.begin, ['T'], [], 0⟩, ⟨.begin, ['U'], [], 0⟩, ⟨.begin, ['V'], [], 0⟩,
    ⟨.read, ['T'], ['a', '.', 'x'], 0⟩, ⟨.read, ['U'], ['a'], 0⟩,
    ⟨.write, ['T'], ['a', '.', 'y'], 1⟩, ⟨.commit, ['U'], [], 0⟩,
    ⟨.read, ['T'], ['a', '.', 'x'], 0⟩, ⟨.read, ['V'], ['a'], 0⟩]

/-- If new locks land in front, V reads `a` beside the writer below it.  If they land at
the end, V waits. -/
theorem dependsOnAddresses_pending :
    (after ⟨[], [], []⟩ dependsOnAddresses).pending.length = 0 ∧
      (after ⟨List.replicate 9 9, [], []⟩ dependsOnAddresses).pending.length = 1 := by
  decide

end Main

end TxnEngine
