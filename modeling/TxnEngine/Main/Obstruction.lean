import TxnEngine.Main.Holders
import TxnEngine.Main.Waiting

/-!
# What keeps a command from being executed

READ and WRITE ask for a lock on their key and for intention locks above it.  The locks
held are compatible with each other, so a request is refused exactly if somebody else
holds a lock that is not compatible with it.  As long as completions wake no completed
transaction, that somebody is active (`executed_iff_unobstructed`).  So a transaction
that is the only active one never waits (`lone_never_waits`).
-/

namespace TxnEngine

open Std Runs PathTree LockTable

namespace Main

open Directory

variable {m m' : Main} {c : Issued} {cmd : Command} {txnId : Nat} {access : Access}

/-! ## One trial -/

/-- Another active transaction holds a lock on the key or above it that is not
compatible with the access. -/
def Obstructs (m : Main) (name : Name) (access : Access) (t u : Nat) : Prop :=
  u ≠ t ∧ m.tm.isTransactionActive u = true ∧
    ∃ path id, path <+: segments name ∧ m.directory.tree.idOf path = some id ∧
      ∃ lock ∈ m.lockMgr.locksOn id, lock.transactionId = u ∧
        isCompatible lock.lockType (modeAt path name access) = false

/-- What is known of the locks. -/
structure Overview (m : Main) : Prop where
  sound : m.directory.Sound
  isOpen : Open m
  owners : ActiveOwners m
  accountable : Accountable m.directory

/-- Calls that end no transaction. -/
theorem Overview.continues (h : Overview m) {calls : List Call}
    (hcalls : Continues m m' calls) (hasks : Asks m.tm calls)
    (allowed : Guarded Directory.call Allowed m.directory calls) : Overview m' where
  sound := hcalls.directory ▸ h.sound.run allowed
  isOpen := h.isOpen.continues hcalls
  owners := h.owners.continues hcalls hasks
  accountable := by
    rw [hcalls.directory]
    refine h.accountable.run (guarded_of_mem fun c hc d => ?_)
    have hrunning := hcalls.running c hc
    cases c with
    | complete => cases hrunning
    | _ => trivial

/-- Lookups and trials keep what is known of the locks. -/
theorem known_overview : Known Allowed Overview where
  quiet := fun h hcont hquiet allowed => h.continues hcont (asks_of_none hquiet) allowed
  trial := fun {m c} h _ _ allowed =>
    h.continues (continues_executeCommand m c true) (m.asks_executeCalls c) allowed

/-- What is in the way of a command is a lock of another active transaction. -/
theorem bars_iff_obstructs (h : Overview m) (hop : c.command.op = access.op) (t : Nat) :
    m.directory.Bars t c.command ↔ ∃ u, m.Obstructs c.command.resourceName access t u := by
  constructor
  · rintro ⟨need, hneed, id, hid, lock, hlock, hother, hincompatible⟩
    obtain ⟨hpath, hmode⟩ := (Command.mem_needs hop).mp hneed
    have hactive := h.owners.active_of_hasLock h.accountable.free
      (m.lockMgr.hasLock_iff.mpr ⟨lock, hlock, rfl⟩)
    exact ⟨lock.transactionId, hother, hactive, need.1, id, (mem_prefixes hpath).2, hid, lock,
      hlock, rfl, hmode ▸ hincompatible⟩
  · rintro ⟨u, hother, _, path, id, hpath, hid, lock, hlock, rfl, hincompatible⟩
    have hne : path ≠ [] := (isKey_of_idOf hid).1
    refine ⟨(path, modeAt path c.command.resourceName access), ?_, id, hid, lock, hlock, hother,
      hincompatible⟩
    exact (Command.mem_needs hop).mpr ⟨mem_prefixes_iff.mpr ⟨hne, hpath⟩, rfl⟩

/-- A trial of READ or WRITE fails exactly if another active transaction is in the way. -/
theorem executed_iff_obstructs (h : Overview m)
    (label : m.txnIds[c.command.txnLabel]? = some txnId)
    (active : m.tm.isTransactionActive txnId = true) (hop : c.command.op = access.op)
    (allowed : Guarded Directory.call Allowed m.directory
      (m.resourceCalls c.command.resourceName)) (fromPending : Bool) :
    (m.executeCommand c fromPending).1 = true ↔
      ¬ ∃ u, m.Obstructs c.command.resourceName access txnId u := by
  rw [executed_iff h.sound h.accountable.compatible label active hop allowed,
    and_iff_right (h.isOpen txnId active), bars_iff_obstructs h hop]

/-! ## A single active transaction -/

/-- At most one transaction is active. -/
def Lone (m : Main) : Prop :=
  ∀ t u, m.tm.isTransactionActive t = true → m.tm.isTransactionActive u = true → t = u

theorem Lone.executes (h : Overview m) (hlone : Lone m)
    (hactive : m.labelActive c.command.txnLabel = true) (hop : c.command.op = access.op)
    (allowed : Guarded Directory.call Allowed m.directory (m.executeCalls c))
    (fromPending : Bool) : (m.executeCommand c fromPending).1 = true := by
  obtain ⟨txnId, label, active⟩ := labelActive_iff.mp hactive
  rw [executeCalls_access label active hop] at allowed
  have hresource := ((guarded_append _ _ _).mp allowed).1
  refine (executed_iff_obstructs h label active hop hresource fromPending).mpr ?_
  rintro ⟨u, hother, hu, _⟩
  exact hother (hlone u txnId hu active)

theorem Lone.continues {calls : List Call} (h : Lone m) (hcont : Continues m m' calls) :
    Lone m' := by
  rw [Lone, hcont.tm]
  exact h

/-- While one transaction is active no trial fails. -/
theorem lasting_lone : Lasting Allowed (fun m => Overview m ∧ Lone m)
    (fun _ c => ∀ access : Access, c.command.op ≠ access.op) where
  quiet := fun hI hcont hquiet allowed =>
    ⟨known_overview.quiet hI.1 hcont hquiet allowed, hI.2.continues hcont⟩
  trial := fun hI hc hactive allowed =>
    ⟨known_overview.trial hI.1 hc hactive allowed, hI.2.continues (continues_executeCommand _ _ _)⟩
  kept := fun _ _ _ _ hop => hop
  keptByTrial := fun _ _ _ _ _ hop => hop
  failed := by
    rintro m c ⟨h, hlone⟩ _ hactive allowed failed access hop
    rw [hlone.executes h hactive hop allowed] at failed
    contradiction

/-- What holds between commands. -/
structure Tended (m : Main) : Prop where
  overview : Overview m
  ids : Ids m
  listed : Listed m
  accesses : ∀ c ∈ m.pending, ∃ access : Access, c.command.op = access.op
  idle : Lone m → ∀ c ∈ m.pending, m.labelActive c.command.txnLabel = false

/-- A new transaction has no pending command, and if it is the only one nobody has. -/
theorem idle_start (h : Tended m) {txnLabel : Name} (fresh : txnLabel ∉ m.txnIds)
    (hlone : Lone (m.start txnLabel)) :
    ∀ c ∈ m.pending, (m.start txnLabel).labelActive c.command.txnLabel = false := by
  intro c hc
  rw [Bool.eq_false_iff]
  intro hactive
  obtain ⟨txnId, hid, active⟩ := labelActive_iff.mp hactive
  have hnew : (m.start txnLabel).tm.isTransactionActive m.tm.nextTransactionId = true := by
    rw [TransactionManager.isTransactionActive_iff,
      ← TransactionManager.mem_getActiveTransactionIds]
    exact m.tm.mem_activeIds_begin.mpr (Or.inl rfl)
  obtain rfl := hlone _ _ active hnew
  have hold : txnLabel ≠ c.command.txnLabel := by
    rintro rfl
    exact fresh (h.listed.labelled c hc)
  rw [txnIds_start, if_neg hold] at hid
  exact absurd (h.listed.given _ _ hid) (Nat.lt_irrefl _)

theorem submit_same (m : Main) (cmd : Command) (word : String) :
    (m.submit cmd word).tm = m.tm ∧ (m.submit cmd word).txnIds = m.txnIds := by
  by_cases accepted : m.Accepts cmd
  · obtain ⟨htm, hids, _⟩ := submit_pending accepted word
    exact ⟨htm, hids⟩
  · obtain ⟨line, hprint⟩ := submit_rejected accepted word
    rw [hprint]
    exact ⟨rfl, rfl⟩

/-- READ and WRITE of the only active transaction are executed. -/
theorem idle_submit (h : Tended m) (hop : cmd.op = access.op) (word : String)
    (allowed : Guarded Directory.call Allowed m.directory (m.submitCalls cmd)) (hlone : Lone m) :
    ∀ c ∈ (m.submit cmd word).pending, m.labelActive c.command.txnLabel = false := by
  intro c hc
  by_cases accepted : m.Accepts cmd
  · by_cases hactive : m.labelActive cmd.txnLabel = true
    · have hnone : m.hasPendingForTxn cmd.txnLabel = false := by
        rw [Bool.eq_false_iff, Ne, hasPendingForTxn, List.any_eq_true]
        rintro ⟨c', hc', hlabel⟩
        have hidle := h.idle hlone c' hc'
        rw [of_decide_eq_true hlabel, hactive] at hidle
        contradiction
      rw [submitCalls_accepted accepted, hnone] at allowed
      have hissued : Overview (m.issue cmd).2 :=
        ⟨h.overview.sound, h.overview.isOpen, h.overview.owners, h.overview.accountable⟩
      have hexecuted := hlone.executes (c := (m.issue cmd).1) hissued hactive hop allowed false
      have hpending := ((m.issue cmd).2.executeCommand_frame (m.issue cmd).1 false).2.2
      rw [submit_accepted accepted, hnone, if_neg Bool.false_ne_true] at hc
      dsimp only at hc
      rw [if_pos hexecuted, hpending] at hc
      exact h.idle hlone c hc
    · rcases mem_pending_submit word hc with hold | rfl
      · exact h.idle hlone c hold
      · exact Bool.eq_false_of_not_eq_true hactive
  · obtain ⟨line, hprint⟩ := submit_rejected accepted word
    rw [hprint] at hc
    exact h.idle hlone c hc

/-- A COMMIT or ABORT that leaves one active transaction executes all its commands. -/
theorem idle_complete (h : Tended m) (outcome : Outcome)
    (allowed : Guarded Directory.call Allowed m.directory (m.completeCalls cmd outcome))
    (clean : Guarded Directory.call CompletesCleanly m.directory (m.completeCalls cmd outcome))
    (hlone : Lone (m.complete cmd outcome)) :
    ∀ c ∈ (m.complete cmd outcome).pending,
      (m.complete cmd outcome).labelActive c.command.txnLabel = false := by
  rcases m.complete_cases cmd outcome with ⟨⟨line, hprint⟩, _⟩ | ⟨txnId, txn, label, active, _⟩
  · rw [hprint] at hlone ⊢
    exact h.idle hlone
  · obtain ⟨hcomplete, hcalls⟩ :=
      complete_active outcome label (m.tm.isTransactionActive_iff.mpr ⟨txn, active⟩)
    rw [hcalls] at allowed clean
    have hids : Ids (m.ended cmd outcome txnId) :=
      (h.ids.step (.finish active) trivial).step (.print _) trivial
    have hended : Overview (m.ended cmd outcome txnId) :=
      { sound := h.overview.sound.call allowed.1.1 allowed.1.2
        isOpen := hids.isOpen
        owners := h.overview.owners.finish txnId outcome
        accountable := h.overview.accountable.call clean.1 }
    have hloop := continues_loop ((m.ended cmd outcome txnId).pending.length + 1) []
      (m.ended cmd outcome txnId)
    have htm : (m.ended cmd outcome txnId).processPending.tm = (m.ended cmd outcome txnId).tm :=
      hloop.tm
    have hlone' : Lone (m.ended cmd outcome txnId) := by
      rw [hcomplete, Lone, htm] at hlone
      exact hlone
    obtain ⟨resumed, last, hknown, hlast, hnone, hend⟩ :=
      processLoop_last ((m.ended cmd outcome txnId).pending.length + 1) []
        (m.ended cmd outcome txnId) (Nat.lt_succ_self _) allowed.2
    obtain ⟨_, hleft⟩ := lasting_lone.pass last.pending [] resumed last rfl
      (hknown lasting_lone.toKnown ⟨hended, hlone'⟩) hlast hnone (List.forall_mem_nil _)
    rw [hcomplete, processPending, ← hend]
    intro c hc
    have hold : c ∈ (m.ended cmd outcome txnId).pending := by
      refine mem_pending_processPending ?_
      rw [processPending, ← hend]
      exact hc
    obtain ⟨access, hop⟩ := h.accesses c hold
    exact absurd hop (hleft c hc access)

theorem idle_begin (h : Tended m) (cmd : Command) (hlone : Lone (m.begin cmd)) :
    ∀ c ∈ (m.begin cmd).pending, (m.begin cmd).labelActive c.command.txnLabel = false := by
  revert hlone
  rw [Main.begin]
  split
  · exact h.idle
  · split
    · exact h.idle
    · next fresh => exact idle_start h fresh

theorem idle_show (h : Tended m) (cmd : Command) (hlone : Lone (m.showValue cmd)) :
    ∀ c ∈ (m.showValue cmd).pending,
      (m.showValue cmd).labelActive c.command.txnLabel = false := by
  have hsame := m.ensureResource_same cmd.resourceName
  revert hlone
  rw [showValue]
  split
  · exact h.idle
  · intro hlone c hc
    have hlone' : Lone (m.ensureResource cmd.resourceName).2 := hlone
    rw [Lone, hsame.tm] at hlone'
    have hold : c ∈ (m.ensureResource cmd.resourceName).2.pending := hc
    rw [hsame.pending] at hold
    exact (labelActive_congr hsame.tm hsame.txnIds _).trans (h.idle hlone' c hold)

/-- After every command, nobody waits if there is only one who could. -/
theorem idle_handle (h : Tended m)
    (allowed : Guarded Directory.call Allowed m.directory (m.handleCalls cmd))
    (clean : Guarded Directory.call CompletesCleanly m.directory (m.handleCalls cmd))
    (hlone : Lone (m.handle cmd)) :
    ∀ c ∈ (m.handle cmd).pending, (m.handle cmd).labelActive c.command.txnLabel = false := by
  have hsubmit : ∀ (access : Access) (word : String), cmd.op = access.op →
      Guarded Directory.call Allowed m.directory (m.submitCalls cmd) →
      Lone (m.submit cmd word) → ∀ c ∈ (m.submit cmd word).pending,
        (m.submit cmd word).labelActive c.command.txnLabel = false := by
    intro access word hop allowed hlone c hc
    obtain ⟨htm, hids⟩ := submit_same m cmd word
    rw [Lone, htm] at hlone
    exact (labelActive_congr htm hids _).trans (idle_submit h hop word allowed hlone c hc)
  rw [handleCalls] at allowed clean
  rw [Main.handle] at hlone ⊢
  revert allowed clean hlone
  cases hop : cmd.op with
  | help | exit | status | checkpoint | other => exact fun _ _ hlone => h.idle hlone
  | begin => exact fun _ _ hlone => idle_begin h cmd hlone
  | read => exact fun allowed _ hlone => hsubmit .read "READ" hop allowed hlone
  | write => exact fun allowed _ hlone => hsubmit .write "WRITE" hop allowed hlone
  | commit => exact fun allowed clean hlone => idle_complete h .commit allowed clean hlone
  | abort => exact fun allowed clean hlone => idle_complete h .abort allowed clean hlone
  | «show» => exact fun _ _ hlone => idle_show h cmd hlone
  | recover => exact fun _ _ _ => List.forall_mem_nil _

/-! ## Runs -/

theorem Tended.handle (h : Tended m)
    (hroom : cmd.op = .begin → m.tm.nextTransactionId + 1 < 2 ^ 32)
    (allowed : Guarded Directory.call Allowed m.directory (m.handleCalls cmd))
    (clean : Guarded Directory.call CompletesCleanly m.directory (m.handleCalls cmd)) :
    Tended (m.handle cmd) := by
  have hids : Ids (m.handle cmd) :=
    handle_invariant_of_room (fun hs hroom hids => hids.step hs hroom) hroom h.ids
  exact {
    overview := {
      sound := m.directory_handle cmd ▸ h.overview.sound.run allowed
      isOpen := hids.isOpen
      owners := h.overview.owners.handle cmd
      accountable := m.directory_handle cmd ▸ h.overview.accountable.run clean }
    ids := hids
    listed := handle_invariant_of_room (fun hs hroom hlisted => hlisted.step hs hroom) hroom
      h.listed
    accesses := accesses_handle h.accesses cmd
    idle := idle_handle h allowed clean }

theorem tended_init (env : Environment) : Tended (init env) where
  overview := {
    sound := sound_init env
    isOpen := (ids_init env).isOpen
    owners := activeOwners_init env
    accountable := accountable_init env }
  ids := ids_init env
  listed := listed_init env
  accesses := List.forall_mem_nil _
  idle := fun _ => List.forall_mem_nil _

theorem always_tended {env : Environment} {input : List Command} (fewBegins : FewBegins input)
    (fewResources : FewResources env input)
    (clean : Guarded Directory.call CompletesCleanly (.init env) (calls (init env) input)) :
    Always handle Tended (init env) (beforeExit input) := by
  have allowed := guarded_handleCalls input (init env) (allowed_calls fewResources)
  have hclean := guarded_handleCalls input (init env) clean
  have guarded := (guarded_of_fewBegins env fewBegins).and (allowed.and hclean)
  exact guarded.always (fun _ _ h hg => h.handle hg.1 hg.2.1 hg.2.2) (tended_init env)

/-- As long as completions wake no completed transaction, a READ or WRITE of an active
transaction is executed at once exactly if no other active transaction holds an
incompatible lock on the key or above it. -/
theorem executed_iff_unobstructed (env : Environment) (input : List Command)
    (fewBegins : FewBegins input) (fewResources : FewResources env input)
    (clean : Guarded Directory.call CompletesCleanly (.init env) (calls (init env) input))
    (c : Issued) (txnId : Nat) (access : Access) (hop : c.command.op = access.op)
    (label : (after env input).txnIds[c.command.txnLabel]? = some txnId)
    (active : (after env input).tm.isTransactionActive txnId = true)
    (room : (after env input).resources.nextResourceId +
      ((after env input).resourceCalls c.command.resourceName).countP Call.creates < 2 ^ 32)
    (fromPending : Bool) :
    ((after env input).executeCommand c fromPending).1 = true ↔
      ¬ ∃ u, (after env input).Obstructs c.command.resourceName access txnId u := by
  have htended := (always_tended fewBegins fewResources clean).last
  rw [← after_eq_run] at htended
  have allowed := ((after env input).lawful_ensureResource c.command.resourceName).1
    htended.overview.sound (guarded_hasRoom room)
  exact executed_iff_obstructs htended.overview label active hop allowed fromPending

/-- T has read a key that U is about to write. -/
def readFirst : List Command :=
  [⟨.begin, ['T'], [], 0⟩, ⟨.begin, ['U'], [], 0⟩, ⟨.read, ['T'], ['a', '.', 'x'], 0⟩]

theorem executed_iff_unobstructed_readFirst :
    ∃ u, (after ⟨[], [], []⟩ readFirst).Obstructs ['a', '.', 'x'] .write 2 u := by
  by_contra hnone
  have hexecuted := (executed_iff_unobstructed ⟨[], [], []⟩ readFirst (by decide) (by decide)
    (by decide) ⟨⟨.write, ['U'], ['a', '.', 'x'], 1⟩, 1, none⟩ 2 .write rfl (by decide)
    (by decide) (by decide) false).mpr hnone
  exact absurd hexecuted (by decide)

/-- As long as completions wake no completed transaction, a transaction that is the only
active one never has a command pending between two commands. -/
theorem lone_never_waits (env : Environment) (input : List Command)
    (fewBegins : FewBegins input) (fewResources : FewResources env input)
    (clean : Guarded Directory.call CompletesCleanly (.init env) (calls (init env) input)) :
    Always handle (fun m => Lone m → ∀ c ∈ m.pending, m.labelActive c.command.txnLabel = false)
      (init env) (beforeExit input) := fun js hjs =>
  (always_tended fewBegins fewResources clean js hjs).idle

theorem lone_never_waits_handover :
    Always handle (fun m => Lone m → ∀ c ∈ m.pending, m.labelActive c.command.txnLabel = false)
      (init ⟨[], [], []⟩) (beforeExit handover) :=
  lone_never_waits ⟨[], [], []⟩ handover (by decide) (by decide) (by decide)

/-- After a transaction has left a lock behind, another writes the key. -/
def meetsNobody : List Command :=
  leaves ++ [⟨.begin, ['V'], [], 0⟩, ⟨.write, ['V'], ['a'], 3⟩]

/-- It is the only active transaction, and it waits. -/
theorem meetsNobody_waits :
    (after ⟨[], [], []⟩ meetsNobody).tm.getActiveTransactionIds = [3] ∧
      (after ⟨[], [], []⟩ meetsNobody).pending.map Issued.command =
        [⟨.write, ['V'], ['a'], 3⟩] := by
  decide

end Main

end TxnEngine
