import TxnEngine.Concurrency.Compatibility
import TxnEngine.Concurrency.Completion
import TxnEngine.Concurrency.Retention
import TxnEngine.Main.Addresses

/-!
# Who holds locks

`main` asks for locks for active transactions only, and COMMIT, ABORT and RECOVER
complete in the lock manager what they end in the transaction manager.  So whoever
holds or awaits a lock is active or completed (`Owned`).  As long as completions wake
no completed transaction, every lock is one of an active transaction, and when the
last transaction has ended the lock manager is as it was constructed but for the
parents (`held_by_active`).
-/

namespace TxnEngine

open Std Runs LockTable

/-! ## Requests and completions -/

namespace LockManager

variable {lm : LockManager} {t r u : Nat} {m : LockType}

theorem involves_requestLock (h : (lm.requestLock t r m).2.table.Involves u) :
    lm.table.Involves u ∨ u = t := by
  by_cases hu : u = t
  · exact Or.inr hu
  · refine Or.inl ((lm.requestLock_reaches t r m).involves (fun T a hact => ?_) h)
    rw [hact.owner]
    exact fun heq => hu (Option.some.inj heq).symm

theorem involves_completeTransaction (h : (lm.completeTransaction t).2.table.Involves u) :
    lm.table.Involves u ∨ u = t := by
  by_cases hu : u = t
  · exact Or.inr hu
  · refine Or.inl ((lm.completeTransaction_reaches t).involves (fun T a hact => ?_) h)
    rcases hact.owner with howner | howner <;> rw [howner]
    · exact fun heq => hu (Option.some.inj heq).symm
    · exact Option.some_ne_none u |>.symm

theorem involves_of_hasLock (h : lm.hasLock t r = true) : lm.table.Involves t := by
  obtain ⟨m, hm⟩ := lm.hasLock_iff_table.mp h
  exact ⟨r, m, Or.inl hm⟩

/-- Nobody holds or awaits anything. -/
def Idle (lm : LockManager) : Prop :=
  lm.resourceLocks = ∅ ∧ lm.waitQueues = ∅ ∧ lm.txnLocks = ∅

/-- Where nothing is locked nothing is left in the tables. -/
theorem TablesAgree.idle (h : lm.TablesAgree) (hfree : ∀ t r, lm.hasLock t r = false) :
    lm.Idle := by
  have hlocks : ∀ r, lm.locksOn r = [] := fun r => lm.locksOn_eq_nil_iff.mpr fun t => hfree t r
  refine ⟨?_, ?_, ?_⟩
  · refine ExtTreeMap.ext_getElem? fun r => ?_
    have hempty := h.no_empty_locks r
    have hr := hlocks r
    rw [locksOn_of_getElem?] at hr
    cases hfind : lm.resourceLocks[r]? with
    | none => simp
    | some locks =>
        rw [hfind] at hr hempty
        exact absurd (congrArg some hr) hempty
  · refine ExtTreeMap.ext_getElem? fun r => ?_
    have hempty := h.no_empty_queue r
    have hr : lm.queueOn r = [] := by
      by_contra hwaits
      exact h.locked_of_waiting r hwaits (hlocks r)
    rw [queueOn_of_getElem?] at hr
    cases hfind : lm.waitQueues[r]? with
    | none => simp
    | some queue =>
        rw [hfind] at hr hempty
        exact absurd (congrArg some hr) hempty
  · refine ExtTreeMap.ext_getElem? fun t => ?_
    have hempty := h.no_empty_index t
    have hnone : ∀ r, r ∉ lm.heldResources t := by
      intro r hr
      have hlock := h.locked_of_indexed t r hr
      rw [hfree] at hlock
      contradiction
    cases hfind : lm.txnLocks[t]? with
    | none => simp
    | some held =>
        rw [hfind] at hempty
        refine absurd (congrArg some (ExtTreeSet.ext_mem fun r => ?_)) hempty
        have := hnone r
        rw [heldResources, ExtTreeMap.getD_eq_getD_getElem?, hfind] at this
        simpa using this

end LockManager

/-! ## Calls -/

namespace Directory

variable {d : Directory} {P Q : Nat → Prop}

/-- Whoever holds or awaits a lock has the property or is completed. -/
def Owned (d : Directory) (P : Nat → Prop) : Prop :=
  ∀ t, d.lockMgr.table.Involves t → P t ∨ t ∈ d.lockMgr.completedTransactions

theorem Owned.mono (h : d.Owned P)
    (himp : ∀ t, P t → Q t ∨ t ∈ d.lockMgr.completedTransactions) : d.Owned Q := by
  intro t ht
  rcases h t ht with hp | hover
  · exact himp t hp
  · exact Or.inr hover

theorem Owned.call (h : d.Owned P) {c : Call} (hc : ∀ t, c.requester = some t → P t) :
    (d.call c).Owned P := by
  have hrequest : ∀ t r mode, .requestLock t r mode ∈ d.lockOp c → P t := by
    cases c <;> simp_all [lockOp, Call.requester]
  refine call_invariant (I := fun lm => ∀ t, lm.table.Involves t →
    P t ∨ t ∈ lm.completedTransactions) h fun op hop u hu => ?_
  cases op with
  | setResourceParent => exact h u hu
  | requestLock t r mode =>
      rcases LockManager.involves_requestLock hu with hold | rfl
      · exact (h u hold).imp_right d.lockMgr.mem_requestLock_completed.mpr
      · exact Or.inl (hrequest u r mode hop)
  | releaseLock t r => cases c <;> simp [lockOp] at hop
  | completeTransaction t =>
      have hcompleted : u ∈ (d.lockMgr.completeTransaction t).2.completedTransactions ↔
          u = t ∨ u ∈ d.lockMgr.completedTransactions :=
        d.lockMgr.mem_completeTransaction_completed
      rcases LockManager.involves_completeTransaction hu with hold | rfl
      · exact (h u hold).imp_right fun hover => hcompleted.mpr (Or.inr hover)
      · exact Or.inr (hcompleted.mpr (Or.inl rfl))

theorem Owned.run (h : d.Owned P) {calls : List Call}
    (hcalls : ∀ c ∈ calls, ∀ t, c.requester = some t → P t) :
    (Runs.run Directory.call d calls).Owned P := by
  have hguard : Guarded Directory.call (fun _ c => ∀ t, c.requester = some t → P t) d calls :=
    guarded_of_mem fun c hc _ => hcalls c hc
  exact hguard.invariant (I := fun d : Directory => d.Owned P)
    (fun _ _ hd hc => hd.call hc) h

end Directory

namespace Main

open Directory

variable {m m' m'' : Main} {cs cs' : List Call}

/-! ## What `main` asks for -/

/-- The calls ask for locks for active transactions only. -/
def Asks (tm : TransactionManager) (cs : List Call) : Prop :=
  ∀ call ∈ cs, ∀ t, call.requester = some t → tm.isTransactionActive t = true

theorem Asks.append {tm : TransactionManager} (h : Asks tm cs) (h' : Asks tm cs') :
    Asks tm (cs ++ cs') := List.forall_mem_append.mpr ⟨h, h'⟩

theorem asks_of_none {tm : TransactionManager} (h : ∀ call ∈ cs, call.requester = none) :
    Asks tm cs := by
  intro call hcall t ht
  rw [h call hcall] at ht
  contradiction

theorem asks_completions (tm : TransactionManager) (txnIds : List Nat) :
    Asks tm (txnIds.map .complete) := asks_of_none (by simp [Call.requester])

theorem asks_executeCalls (m : Main) (c : Issued) : Asks m.tm (m.executeCalls c) := by
  rcases m.trial_cases c with hidle | ⟨txnId, access, label, active, hop⟩
  · rw [(executeCommand_idle hidle true).2]
    exact List.forall_mem_nil _
  · rw [executeCalls_access label active hop]
    unfold accessCalls
    refine Asks.append (asks_of_none (m.resourceCalls_requester _)) ?_
    refine List.forall_mem_cons.mpr ⟨?_, asks_of_none ?_⟩
    · intro t ht
      obtain rfl : txnId = t := Option.some.inj ht
      exact active
    · cases access with
      | read | write => split <;> simp [Call.requester]

/-! ## Who owns locks -/

/-- Whoever holds or awaits a lock is active or completed. -/
def ActiveOwners (m : Main) : Prop :=
  m.directory.Owned fun t => m.tm.isTransactionActive t = true

theorem ActiveOwners.continues (h : ActiveOwners m) (hcalls : Continues m m' cs)
    (hasks : Asks m.tm cs) : ActiveOwners m' := by
  rw [ActiveOwners, hcalls.directory, hcalls.tm]
  exact h.run hasks

/-- Lookups and trials keep the owners of locks active or completed. -/
theorem known_activeOwners {guard : Directory → Call → Prop} : Known guard ActiveOwners where
  quiet := fun h hcont hquiet _ => h.continues hcont (asks_of_none hquiet)
  trial := fun {m c} h _ _ _ =>
    h.continues (continues_executeCommand m c true) (m.asks_executeCalls c)

theorem ActiveOwners.start (h : ActiveOwners m) (txnLabel : Name) :
    ActiveOwners (m.start txnLabel) := by
  refine Owned.mono h fun t active => Or.inl ?_
  rw [TransactionManager.isTransactionActive_iff,
    ← TransactionManager.mem_getActiveTransactionIds] at active ⊢
  exact m.tm.mem_activeIds_begin.mpr (Or.inr active)

theorem ActiveOwners.submit (h : ActiveOwners m) (cmd : Command) (word : String) :
    ActiveOwners (m.submit cmd word) := by
  have htrial : ActiveOwners ((m.issue cmd).2.executeCommand (m.issue cmd).1 false).2 :=
    ActiveOwners.continues (m := (m.issue cmd).2) h (continues_executeCommand _ _ _)
      (asks_executeCalls _ _)
  rw [submit_eq]
  dsimp only
  split
  · exact h
  · split
    · exact h
    · split
      · exact h
      · split <;> exact htrial

/-- What ends in the transaction manager is completed in the lock manager. -/
theorem ActiveOwners.finish (h : ActiveOwners m) (txnId : Nat) (outcome : Outcome) :
    ActiveOwners (m.finish txnId outcome) := by
  have hcall : (m.directory.call (.complete txnId)).Owned fun t =>
      m.tm.isTransactionActive t = true := Owned.call h nofun
  refine hcall.mono fun t active => ?_
  by_cases ht : t = txnId
  · exact Or.inr (m.lockMgr.mem_completeTransaction_completed.mpr (Or.inl ht))
  · left
    rw [TransactionManager.isTransactionActive_iff,
      ← TransactionManager.mem_getActiveTransactionIds] at active ⊢
    exact m.tm.mem_activeIds_complete.mpr ⟨ht, active⟩

theorem ActiveOwners.complete (h : ActiveOwners m) (cmd : Command) (outcome : Outcome) :
    ActiveOwners (m.complete cmd outcome) := by
  rw [Main.complete]
  cases m.txnIds[cmd.txnLabel]? with
  | none => exact h
  | some txnId =>
      dsimp only
      split
      · exact h
      · have hfinish : ActiveOwners ((m.finish txnId outcome).print
            (.completed cmd.txnLabel outcome)) := h.finish txnId outcome
        have hguarded : ∀ d calls, Guarded Directory.call (fun _ _ => True) d calls :=
          fun _ _ => guarded_of_mem fun _ _ _ => trivial
        exact known_activeOwners.loop _ [] hfinish (hguarded _ _)

theorem ActiveOwners.recover (h : ActiveOwners m) : ActiveOwners m.recover := by
  have hrun := Owned.run h (asks_completions m.tm m.tm.getActiveTransactionIds)
  rw [completeAll_eq_run] at hrun
  refine hrun.mono fun t active => Or.inr ?_
  rw [TransactionManager.isTransactionActive_iff,
    ← TransactionManager.mem_getActiveTransactionIds] at active
  exact mem_completeAll.mpr (Or.inl active)

theorem ActiveOwners.begin (h : ActiveOwners m) (cmd : Command) : ActiveOwners (m.begin cmd) := by
  rw [Main.begin]
  split
  · exact h
  · split
    · exact h
    · exact h.start cmd.txnLabel

theorem ActiveOwners.showValue (h : ActiveOwners m) (cmd : Command) :
    ActiveOwners (m.showValue cmd) := by
  have hfound := h.continues (continues_ensureResource m cmd.resourceName)
    (asks_of_none (m.resourceCalls_requester _))
  rw [Main.showValue]
  split
  · exact h
  · exact hfound

/-- Every command keeps the owners of locks active or completed. -/
theorem ActiveOwners.handle (h : ActiveOwners m) (cmd : Command) :
    ActiveOwners (m.handle cmd) := by
  rw [Main.handle]
  cases cmd.op with
  | help | exit | status | checkpoint | other => exact h
  | begin => exact h.begin cmd
  | read => exact h.submit cmd "READ"
  | write => exact h.submit cmd "WRITE"
  | commit => exact h.complete cmd .commit
  | abort => exact h.complete cmd .abort
  | «show» => exact h.showValue cmd
  | recover => exact h.recover

theorem activeOwners_init (env : Environment) : ActiveOwners (init env) := by
  rintro t ⟨r, m, hheld | hwaits⟩
  · exact absurd hheld (by simp [directory, init, LockManager.table_empty])
  · exact absurd hwaits (by simp [directory, init, LockManager.table_empty])

theorem activeOwners_after (env : Environment) (input : List Command) :
    ActiveOwners (after env input) := by
  rw [after_eq_run]
  exact invariant handle (fun _ cmd h => h.handle cmd) _ (activeOwners_init env)

/-! ## Completions that leave nothing behind -/

/-- The tables of the lock manager agree, no completed transaction holds a lock, and
the locks of different transactions are compatible. -/
structure Accountable (d : Directory) : Prop where
  agree : d.lockMgr.TablesAgree
  free : d.lockMgr.CompletedHoldNothing
  compatible : d.lockMgr.table.Compatible Fits

/-- A completion wakes no completed transaction. -/
def CompletesCleanly (d : Directory) : Call → Prop
  | .complete txnId => d.lockMgr.CompletionGuard (.completeTransaction txnId)
  | _ => True

instance (d : Directory) : (c : Call) → Decidable (CompletesCleanly d c)
  | .complete txnId =>
      decidable_of_iff (∀ r ∈ d.lockMgr.resourceLocks.keys, d.lockMgr.hasLock txnId r = true →
          ∀ request ∈ d.lockMgr.wokenBy txnId r, request.transactionId ≠ txnId ∧
            request.transactionId ∉ d.lockMgr.completedTransactions) (by
        refine forall_congr' fun r => ⟨fun h hlock => h ?_ hlock, fun h _ => h⟩
        rw [ExtTreeMap.mem_keys]
        by_contra hnone
        rw [LockManager.hasLock, ExtTreeMap.getElem?_eq_none hnone] at hlock
        contradiction)
  | .create .. | .found .. | .fallback .. | .request .. | .read .. | .update .. => isTrue trivial

theorem Accountable.call {d : Directory} (h : Accountable d) {c : Call}
    (clean : CompletesCleanly d c) : Accountable (d.call c) := by
  have hguard : ∀ op ∈ d.lockOp c, d.lockMgr.CompletionGuard op := by
    intro op hop
    cases c with
    | create path parent value =>
        rw [Directory.lockOp] at hop
        split at hop <;> cases hop
        trivial
    | request => cases hop; trivial
    | complete => cases hop; exact clean
    | found | fallback | read | update => cases hop
  have hindex := LockManager.indexed_iff.mpr h.agree.indexed_of_locked
  exact {
    agree := call_invariant h.agree fun op _ => LockManager.tablesAgree_step _ op h.agree
    free := call_invariant h.free fun op hop =>
      (LockManager.completedHoldNothing_step hindex h.free op).mpr (hguard op hop)
    compatible := call_invariant (I := fun lm => lm.table.Compatible Fits) h.compatible
      fun op _ => (d.lockMgr.step_reaches op).compatible fits_symm h.compatible }

theorem Accountable.run {d : Directory} (h : Accountable d)
    (clean : Guarded Directory.call CompletesCleanly d cs) :
    Accountable (run Directory.call d cs) :=
  clean.invariant (fun _ _ hd hcall => hd.call hcall) h

theorem accountable_init (env : Environment) : Accountable (.init env) := by
  refine ⟨LockManager.tablesAgree_empty env.alloc, fun t ht => ?_,
    LockManager.compatible_empty env.alloc⟩
  simp [Directory.init, LockManager.empty] at ht

theorem accountable_after {env : Environment} {input : List Command}
    (clean : Guarded Directory.call CompletesCleanly (.init env) (calls (init env) input)) :
    Accountable (after env input).directory := by
  rw [directory_after]
  exact (accountable_init env).run clean

/-- A lock that nobody completed holds is one of an active transaction. -/
theorem ActiveOwners.active_of_hasLock (h : ActiveOwners m)
    (haccount : m.lockMgr.CompletedHoldNothing) {t r : Nat}
    (hlock : m.lockMgr.hasLock t r = true) : m.tm.isTransactionActive t = true := by
  rcases h t (LockManager.involves_of_hasLock hlock) with active | hover
  · exact active
  · have hnone := haccount t hover r
    rw [hlock] at hnone
    contradiction

/-- As long as completions wake no completed transaction, every lock is one of an active
transaction, and where no transaction is active nobody holds or awaits anything. -/
theorem held_by_active (env : Environment) (input : List Command)
    (clean : Guarded Directory.call CompletesCleanly (.init env) (calls (init env) input)) :
    (∀ t r, (after env input).lockMgr.hasLock t r = true →
      (after env input).tm.isTransactionActive t = true) ∧
    ((after env input).tm.getActiveTransactionCount = 0 → (after env input).lockMgr.Idle) := by
  have haccount := accountable_after clean
  have hheld : ∀ t r, (after env input).lockMgr.hasLock t r = true →
      (after env input).tm.isTransactionActive t = true := fun t r hlock =>
    (activeOwners_after env input).active_of_hasLock haccount.free hlock
  refine ⟨hheld, fun hcount => haccount.agree.idle fun t r => ?_⟩
  rw [Bool.eq_false_iff]
  intro hlock
  obtain ⟨txn, htxn⟩ := TransactionManager.isTransactionActive_iff _ |>.mp (hheld t r hlock)
  have hempty : (after env input).tm.activeTransactions = ∅ :=
    ExtTreeMap.eq_empty_iff_size_eq_zero.mpr hcount
  rw [hempty] at htxn
  simp at htxn

/-- A writer waits for another, and both commit in turn. -/
def handover : List Command :=
  [⟨.begin, ['T'], [], 0⟩, ⟨.begin, ['U'], [], 0⟩, ⟨.write, ['T'], ['a', '.', 'x'], 1⟩,
    ⟨.write, ['U'], ['a', '.', 'x'], 2⟩, ⟨.commit, ['T'], [], 0⟩, ⟨.commit, ['U'], [], 0⟩]

theorem held_by_active_handover :
    (after ⟨[], [], []⟩ handover).tm.getActiveTransactionCount = 0 ∧
      (after ⟨[], [], []⟩ handover).lockMgr.Idle :=
  ⟨by decide, (held_by_active ⟨[], [], []⟩ handover (by decide)).2 (by decide)⟩

/-- The second writer commits while it waits. -/
def leaves : List Command :=
  [⟨.begin, ['T'], [], 0⟩, ⟨.begin, ['U'], [], 0⟩, ⟨.write, ['T'], ['a'], 1⟩,
    ⟨.write, ['U'], ['a'], 2⟩, ⟨.commit, ['U'], [], 0⟩, ⟨.commit, ['T'], [], 0⟩]

/-- It is given the lock that it waited for when the first one commits, and nobody is
left to release it. -/
theorem leaves_locked :
    (after ⟨[], [], []⟩ leaves).tm.getActiveTransactionCount = 0 ∧
      (after ⟨[], [], []⟩ leaves).lockMgr.hasLock 2 1 = true := by
  decide

end Main

end TxnEngine
