import TxnEngine.Main.Passes

/-!
# Who waits in `pending`

READ and WRITE append their command to `pending` when `executeCommand` returns
false, and it does so for a refused lock as well as for a transaction that is not
active.  COMMIT, ABORT and `processPending` ask for the transaction themselves.  So
every pending command is one of an active transaction exactly if every READ and
WRITE is, and then each waits for a lock, or is behind one of its transaction that
does (`pending_live`).
-/

namespace TxnEngine

open Std Runs PathTree

/-! ## Waiting for a lock -/

/-- A request takes nobody out of a queue. -/
theorem LockManager.mem_queueOn_requestLock {lm : LockManager} {t r r' : Nat} {m : LockType}
    {request : LockRequest} (h : request ∈ lm.queueOn r') :
    request ∈ (lm.requestLock t r m).2.queueOn r' := by
  refine requestLock_invariant (I := fun lm => request ∈ lm.queueOn r') ?_ lm h
  intro lm r m active hmem
  rw [(requestLockOnResource_answered active).queue]
  split
  · next hjoins => exact List.mem_append_left _ (hjoins.1 ▸ hmem)
  · exact hmem

theorem LockManager.requested_congr {lm lm' : LockManager} {r : Nat} {m : LockType}
    (h : lm'.ancestors r = lm.ancestors r) : lm'.requested r m = lm.requested r m := by
  rw [requested, requested, h]

namespace Directory

/-- The transaction is in the queue of a resource that it needs for the key. -/
def Queued (d : Directory) (name : Name) (t : Nat) (m : LockType) : Prop :=
  ∃ id, d.tree.idOf (segments name) = some id ∧
    ∃ r ∈ d.lockMgr.requested id m, ∃ request ∈ d.lockMgr.queueOn r, request.transactionId = t

variable {d : Directory} {name : Name} {t r : Nat} {m : LockType}

/-- Only the end of a transaction takes somebody out of a queue. -/
theorem Queued.call {c : Call} (h : d.Sound) (allowed : d.Allowed c)
    (running : c.completes = false) (queued : d.Queued name t m) :
    (d.call c).Queued name t m := by
  obtain ⟨id, hid, r, hr, request, hmem, howner⟩ := queued
  have hgrows := call_grows h allowed.1 allowed.2
  have habove := ancestors_grows h (h.call allowed.1 allowed.2) hgrows hid
  refine ⟨id, hgrows.idOf hid, r, ?_, request, ?_, howner⟩
  · rw [LockManager.requested_congr habove]
    exact hr
  · cases c with
    | create path parent value =>
        show request ∈ (if parent = 0 then _ else _ : LockManager).queueOn r
        split <;> exact hmem
    | request => exact LockManager.mem_queueOn_requestLock hmem
    | complete => cases running
    | found | fallback | read | update => exact hmem

theorem Queued.run {calls : List Call} (h : d.Sound) (running : ∀ c ∈ calls, c.completes = false)
    (allowed : Guarded Directory.call Allowed d calls) (queued : d.Queued name t m) :
    (Runs.run Directory.call d calls).Queued name t m := by
  induction calls generalizing d with
  | nil => exact queued
  | cons c calls ih =>
      rw [List.forall_mem_cons] at running
      exact ih (h.call allowed.1.1 allowed.1.2) running.2 allowed.2
        (queued.call h allowed.1 running.1)

/-- Whoever is refused is in a queue. -/
theorem queued_of_refused (h : d.Sound) (named : d.Names name r) (hname : segments name ≠ [])
    (active : t ∉ d.lockMgr.completedTransactions)
    (refused : (d.lockMgr.requestLock t r m).1 = false) :
    (d.call (.request name t r m)).Queued name t m := by
  have plain : r ∉ d.lockMgr.ancestors r := fun habove =>
    Nat.lt_irrefl _ (lt_of_mem_ancestors h habove)
  obtain ⟨before, a, after, hrequested, hqueue, _⟩ :=
    LockManager.requestLock_stops active refused plain
  have hparents : (d.call (.request name t r m)).lockMgr.ancestors r = d.lockMgr.ancestors r :=
    congrFun (LockManager.ancestors_congr (requestLock_resourceParent d.lockMgr t r m)) r
  refine ⟨r, (names_iff hname).mp named, a, ?_, hqueue⟩
  rw [LockManager.requested_congr hparents, hrequested]
  exact List.mem_append_right _ List.mem_cons_self

end Directory

namespace Main

open Directory

/-! ## Active transactions -/

/-- What READ and WRITE check: a label, a key, and a transaction of that label. -/
def Accepts (m : Main) (cmd : Command) : Prop :=
  cmd.txnLabel ≠ [] ∧ cmd.resourceName ≠ [] ∧ cmd.txnLabel ∈ m.txnIds

instance (m : Main) (cmd : Command) : Decidable (Accepts m cmd) :=
  inferInstanceAs (Decidable (_ ∧ _))

/-- A READ or WRITE that is accepted is one of an active transaction. -/
def ForActive (m : Main) (cmd : Command) : Prop :=
  cmd.op = .read ∨ cmd.op = .write → m.Accepts cmd → m.labelActive cmd.txnLabel = true

instance (m : Main) (cmd : Command) : Decidable (ForActive m cmd) :=
  inferInstanceAs (Decidable (_ → _))

instance (m : Main) : Decidable (AllActive m) := inferInstanceAs (Decidable (∀ c ∈ m.pending, _))

variable {m m' : Main} {cmd : Command}

/-- BEGIN ends no transaction. -/
theorem labelActive_start {newLabel txnLabel : Name} (fresh : newLabel ∉ m.txnIds)
    (h : m.labelActive txnLabel = true) : (m.start newLabel).labelActive txnLabel = true := by
  obtain ⟨txnId, hid, hactive⟩ := labelActive_iff.mp h
  refine labelActive_iff.mpr ⟨txnId, (Step.begin fresh).txnIds hid, ?_⟩
  rw [TransactionManager.isTransactionActive_iff, ← TransactionManager.mem_getActiveTransactionIds]
    at hactive ⊢
  exact m.tm.mem_activeIds_begin.mpr (Or.inr hactive)

theorem AllActive.mono (h : AllActive m) (hpending : m'.pending = m.pending)
    (hlabels : ∀ l, m.labelActive l = true → m'.labelActive l = true) : AllActive m' :=
  fun c hc => hlabels _ (h c (hpending ▸ hc))

theorem submit_rejected (rejected : ¬ m.Accepts cmd) (word : String) :
    ∃ line, m.submit cmd word = m.print line := by
  rw [submit_eq]
  split
  · exact ⟨_, rfl⟩
  · next hvalid =>
      rw [not_or] at hvalid
      refine ⟨.notFound cmd.txnLabel, if_pos fun known => rejected ⟨?_, ?_, known⟩⟩
      · simpa using hvalid.1
      · simpa using hvalid.2

/-- A READ or WRITE that is accepted, with the outcome of the trial named. -/
theorem submit_accepted (accepted : m.Accepts cmd) (word : String) : m.submit cmd word =
    if m.hasPendingForTxn cmd.txnLabel then
      (m.issue cmd).2.setPending (m.pending ++ [(m.issue cmd).1])
    else
      let trial := (m.issue cmd).2.executeCommand (m.issue cmd).1 false
      if trial.1 then trial.2 else trial.2.setPending (trial.2.pending ++ [(m.issue cmd).1]) := by
  obtain ⟨hlabel, hname, known⟩ := accepted
  rw [submit_eq, if_neg (by simp [hlabel, hname]), if_neg (not_not_intro known)]

/-- The command is appended unless it is executed, and then it is one of an active
transaction. -/
theorem submit_pending (accepted : m.Accepts cmd) (word : String) :
    (m.submit cmd word).tm = m.tm ∧ (m.submit cmd word).txnIds = m.txnIds ∧
      ((m.submit cmd word).pending = m.pending ++ [(m.issue cmd).1] ∨
        (m.submit cmd word).pending = m.pending ∧ m.labelActive cmd.txnLabel = true) := by
  rw [submit_accepted accepted]
  split
  · exact ⟨rfl, rfl, Or.inl rfl⟩
  · obtain ⟨htm, hids, hpending⟩ := (m.issue cmd).2.executeCommand_frame (m.issue cmd).1 false
    dsimp only
    split
    · next hexecuted =>
        refine ⟨htm, hids, Or.inr ⟨hpending, ?_⟩⟩
        by_contra hinactive
        have hidle := executeCommand_idle (m := (m.issue cmd).2) (c := (m.issue cmd).1)
          (Or.inl (Bool.eq_false_of_not_eq_true hinactive)) false
        rw [hidle.1] at hexecuted
        cases hexecuted
    · exact ⟨htm, hids, Or.inl (congrArg (· ++ [(m.issue cmd).1]) hpending)⟩

theorem submitCalls_accepted (accepted : m.Accepts cmd) : m.submitCalls cmd =
    if m.hasPendingForTxn cmd.txnLabel then []
    else (m.issue cmd).2.executeCalls (m.issue cmd).1 := by
  obtain ⟨hlabel, hname, known⟩ := accepted
  rw [submitCalls, if_neg (by simp [hlabel, hname]), if_neg (not_not_intro known)]

theorem mem_pending_submit {c : Issued} (word : String) (hc : c ∈ (m.submit cmd word).pending) :
    c ∈ m.pending ∨ c = (m.issue cmd).1 := by
  by_cases accepted : m.Accepts cmd
  · rcases (submit_pending accepted word).2.2 with hpending | ⟨hpending, _⟩
    · rw [hpending, List.mem_append, List.mem_singleton] at hc
      exact hc
    · exact Or.inl (hpending ▸ hc)
  · obtain ⟨line, hprint⟩ := submit_rejected accepted word
    rw [hprint] at hc
    exact Or.inl hc

theorem allActive_submit (h : AllActive m) (word : String) : AllActive (m.submit cmd word) ↔
    (m.Accepts cmd → m.labelActive cmd.txnLabel = true) := by
  by_cases accepted : m.Accepts cmd
  · obtain ⟨htm, hids, hpending⟩ := submit_pending accepted word
    have hactive : ∀ l, (m.submit cmd word).labelActive l = m.labelActive l :=
      labelActive_congr htm hids
    rw [AllActive]
    simp only [hactive]
    rcases hpending with hpending | ⟨hpending, hlive⟩
    · rw [hpending, List.forall_mem_append, List.forall_mem_singleton]
      exact ⟨fun hall _ => hall.2, fun hlive => ⟨h, hlive accepted⟩⟩
    · rw [hpending]
      exact iff_of_true h fun _ => hlive
  · obtain ⟨line, hprint⟩ := submit_rejected accepted word
    rw [hprint]
    exact iff_of_true h fun haccepted => absurd haccepted accepted

theorem allActive_complete (h : AllActive m) (cmd : Command) (outcome : Outcome) :
    AllActive (m.complete cmd outcome) := by
  rcases m.complete_cases cmd outcome with ⟨⟨line, heq⟩, _⟩ | ⟨_, _, _, _, heq⟩
  · rw [heq]
    exact h
  · rw [heq]
    exact processPending_leaves _

/-- The commands by what they do to `pending`. -/
inductive Handled (m : Main) (cmd : Command) : Prop where
  | submit (access : Access) (word : String) (hop : cmd.op = access.op)
      (state : m.handle cmd = m.submit cmd word) (calls : m.handleCalls cmd = m.submitCalls cmd)
  | complete (outcome : Outcome) (hop : cmd.op = outcome.op)
      (state : m.handle cmd = m.complete cmd outcome)
      (calls : m.handleCalls cmd = m.completeCalls cmd outcome)
  | recover (hop : cmd.op = .recover) (none : (m.handle cmd).pending = [])
  | other (idle : ∀ access : Access, cmd.op ≠ access.op)
      (same : (m.handle cmd).pending = m.pending)
      (labels : ∀ l, m.labelActive l = true → (m.handle cmd).labelActive l = true)
      (running : ∀ call ∈ m.handleCalls cmd, call.completes = false)

theorem showCalls_running (m : Main) (cmd : Command) :
    ∀ call ∈ m.showCalls cmd, call.completes = false := by
  rw [showCalls]
  split
  · exact List.forall_mem_nil _
  · exact List.forall_mem_append.mpr
      ⟨m.resourceCalls_running cmd.resourceName, List.forall_mem_singleton.mpr rfl⟩

theorem handled (m : Main) (cmd : Command) : Handled m cmd := by
  cases hop : cmd.op with
  | read => exact .submit .read "READ" hop (by rw [handle, hop]; rfl) (by rw [handleCalls, hop])
  | write => exact .submit .write "WRITE" hop (by rw [handle, hop]; rfl) (by rw [handleCalls, hop])
  | commit => exact .complete .commit hop (by rw [handle, hop]; rfl) (by rw [handleCalls, hop])
  | abort => exact .complete .abort hop (by rw [handle, hop]; rfl) (by rw [handleCalls, hop])
  | recover => exact .recover hop (by rw [handle, hop]; rfl)
  | begin =>
      have hhandle : m.handle cmd = m.begin cmd := by rw [handle, hop]
      have hcalls : m.handleCalls cmd = [] := by rw [handleCalls, hop]
      refine .other (fun access => by cases access <;> simp [hop, Access.op]) ?_ ?_
        (hcalls ▸ List.forall_mem_nil _)
      · rw [hhandle, begin]
        split
        · rfl
        · split <;> rfl
      · intro l hl
        rw [hhandle, begin]
        split
        · exact hl
        · split
          · exact hl
          · next fresh => exact labelActive_start fresh hl
  | «show» =>
      have hhandle : m.handle cmd = m.showValue cmd := by rw [handle, hop]
      have hcalls : m.handleCalls cmd = m.showCalls cmd := by rw [handleCalls, hop]
      obtain ⟨_, hsame, _⟩ := m.ensureResource_spec (P := fun _ _ => True) (fun _ => trivial)
        cmd.resourceName
      refine .other (fun access => by cases access <;> simp [hop, Access.op]) ?_ ?_
        (hcalls ▸ m.showCalls_running cmd)
      · rw [hhandle, showValue]
        split
        · rfl
        · exact hsame.pending
      · intro l hl
        rw [hhandle, showValue]
        split
        · exact hl
        · exact (labelActive_congr hsame.tm hsame.txnIds l).trans hl
  | help | exit | status | checkpoint | other =>
      have hcalls : m.handleCalls cmd = [] := by rw [handleCalls, hop]
      refine .other (fun access => by cases access <;> simp [hop, Access.op]) ?_ ?_
        (hcalls ▸ List.forall_mem_nil _)
      · rw [handle, hop] <;> rfl
      · intro l hl
        rw [handle, hop]
        exact hl

/-- If all pending commands are those of active transactions, they are afterwards
exactly if the new one is. -/
theorem allActive_handle (h : AllActive m) (cmd : Command) :
    AllActive (m.handle cmd) ↔ ForActive m cmd := by
  rw [ForActive]
  cases m.handled cmd with
  | submit access word hop state calls =>
      rw [state, allActive_submit h word, hop]
      cases access <;> simp [Access.op]
  | complete outcome hop state calls =>
      rw [state, hop]
      refine iff_of_true (allActive_complete h cmd outcome) ?_
      cases outcome <;> simp [Outcome.op]
  | recover hop none => exact iff_of_true (fun c hc => by simp [none] at hc) (by simp [hop])
  | other idle same labels running =>
      refine iff_of_true (h.mono same labels) ?_
      rintro (hop | hop)
      · exact absurd hop (idle .read)
      · exact absurd hop (idle .write)

/-! ## Pending commands that wait -/

/-- The command waits for a lock. -/
def Awaits (m : Main) (c : Issued) : Prop :=
  ∃ txnId access, m.txnIds[c.command.txnLabel]? = some txnId ∧ c.command.op = Access.op access ∧
    m.directory.Queued c.command.resourceName txnId access.mode

/-- Every pending command waits for a lock, or is behind one of its transaction that
does. -/
def AllAwait (m : Main) : Prop :=
  ∀ before c later, m.pending = before ++ c :: later →
    m.Awaits c ∨ ∃ c' ∈ before, c'.command.txnLabel = c.command.txnLabel ∧ m.Awaits c'

/-- No active transaction is one that the lock manager has seen end. -/
def Open (m : Main) : Prop :=
  ∀ txnId, m.tm.isTransactionActive txnId = true → txnId ∉ m.lockMgr.completedTransactions

variable {c : Issued} {calls : List Call}

/-- Calls that end no transaction leave whoever waits waiting. -/
theorem Awaits.run (h : m.directory.Sound)
    (hids : ∀ {l : Name} {id : Nat}, m.txnIds[l]? = some id → m'.txnIds[l]? = some id)
    (hrun : m'.directory = Runs.run Directory.call m.directory calls)
    (running : ∀ call ∈ calls, call.completes = false)
    (allowed : Guarded Directory.call Allowed m.directory calls) (hwaits : m.Awaits c) :
    m'.Awaits c := by
  obtain ⟨txnId, access, label, hop, queued⟩ := hwaits
  refine ⟨txnId, access, hids label, hop, ?_⟩
  rw [hrun]
  exact queued.run h running allowed

theorem Awaits.continues (h : m.directory.Sound) (hcont : Continues m m' calls)
    (allowed : Guarded Directory.call Allowed m.directory calls) (hwaits : m.Awaits c) :
    m'.Awaits c :=
  hwaits.run h (hcont.txnIds ▸ ·) hcont.directory hcont.running allowed

theorem Open.continues (h : Open m) (hcont : Continues m m' calls) : Open m' := by
  intro txnId active hover
  have hover' : txnId ∈ m'.directory.lockMgr.completedTransactions := hover
  rw [hcont.directory, mem_completed_run hcont.running] at hover'
  exact h txnId (hcont.tm ▸ active) hover'

/-- A READ or WRITE of an active transaction that fails waits for a lock. -/
theorem awaits_of_failed (h : m.directory.Sound) (hopen : Open m)
    (hactive : m.labelActive c.command.txnLabel = true) {access : Access}
    (hop : c.command.op = access.op)
    (allowed : Guarded Directory.call Allowed m.directory (m.executeCalls c)) {fromPending : Bool}
    (failed : (m.executeCommand c fromPending).1 = false) :
    (m.executeCommand c fromPending).2.Awaits c := by
  obtain ⟨txnId, label, active⟩ := labelActive_iff.mp hactive
  obtain ⟨refused, hcalls⟩ := executeCommand_refused label active hop failed
  have hstate : run Directory.call m.directory (m.resourceCalls c.command.resourceName) =
      (m.ensureResource c.command.resourceName).2.directory :=
    (m.directory_ensureResource c.command.resourceName).symm
  rw [hcalls, guarded_append, hstate] at allowed
  have hsound : (m.ensureResource c.command.resourceName).2.directory.Sound :=
    hstate ▸ h.run allowed.1
  have hrunning : txnId ∉
      (m.ensureResource c.command.resourceName).2.lockMgr.completedTransactions := by
    rw [ensureResource_completed]
    exact hopen txnId active
  have hname := (segments_of_refused h refused).resolve_left hrunning
  refine ⟨txnId, access, (m.executeCommand_frame c fromPending).2.1 ▸ label, hop, ?_⟩
  rw [directory_executeCommand, hcalls, run_concat, hstate]
  exact queued_of_refused hsound allowed.2.1.1 hname hrunning refused

/-- What a failed trial of a pass says about a READ or WRITE. -/
theorem lasting_awaits : Lasting Allowed (fun m => m.directory.Sound ∧ Open m)
    (fun m c => (∃ access : Access, c.command.op = access.op) → m.Awaits c) where
  toKnown := known_of_continues fun hI hcont allowed =>
    ⟨hcont.directory ▸ hI.1.run allowed, hI.2.continues hcont⟩
  kept := fun hI hcont _ allowed hwaits hop => (hwaits hop).continues hI.1 hcont allowed
  keptByTrial := fun hI _ _ allowed _ hwaits hop =>
    (hwaits hop).continues hI.1 (continues_executeCommand _ _ true) allowed
  failed := by
    rintro m c ⟨h, hopen⟩ _ hactive allowed failed ⟨access, hop⟩
    exact awaits_of_failed h hopen hactive hop allowed failed

/-! ## Every command -/

theorem AllAwait.mono (h : AllAwait m) (hpending : m'.pending = m.pending)
    (hkeep : ∀ c, m.Awaits c → m'.Awaits c) : AllAwait m' := by
  intro before c later hsplit
  rcases h before c later (hpending ▸ hsplit) with hwaits | ⟨c', hc', hlabel, hwaits⟩
  · exact Or.inl (hkeep c hwaits)
  · exact Or.inr ⟨c', hc', hlabel, hkeep c' hwaits⟩

/-- A command that joins the others waits itself or is behind one of its transaction. -/
theorem AllAwait.append (h : AllAwait m) (hpending : m'.pending = m.pending ++ [c])
    (hkeep : ∀ c, m.Awaits c → m'.Awaits c)
    (hnew : m'.Awaits c ∨ ∃ c' ∈ m.pending, c'.command.txnLabel = c.command.txnLabel) :
    AllAwait m' := by
  intro before c₀ later hsplit
  rw [hpending] at hsplit
  rcases List.eq_nil_or_concat later with rfl | ⟨later, last, rfl⟩
  · obtain ⟨rfl, hlast⟩ := List.append_inj' hsplit rfl
    obtain rfl := (List.cons.inj hlast).1
    refine hnew.imp_right ?_
    rintro ⟨c', hc', hlabel⟩
    obtain ⟨first, rest, hc'⟩ := List.append_of_mem hc'
    rcases h first c' rest hc' with hwaits | ⟨c'', hc'', hlabel', hwaits⟩
    · exact ⟨c', by simp [hc'], hlabel, hkeep c' hwaits⟩
    · exact ⟨c'', by simp [hc', hc''], hlabel'.trans hlabel, hkeep c'' hwaits⟩
  · rw [List.concat_eq_append, ← List.cons_append, ← List.append_assoc] at hsplit
    obtain ⟨hold, _⟩ := List.append_inj' hsplit rfl
    rcases h before c₀ later hold with hwaits | ⟨c', hc', hlabel, hwaits⟩
    · exact Or.inl (hkeep c₀ hwaits)
    · exact Or.inr ⟨c', hc', hlabel, hkeep c' hwaits⟩

/-- What holds between commands. -/
structure Attended (m : Main) : Prop where
  ids : Ids m
  sound : m.directory.Sound
  accesses : ∀ c ∈ m.pending, ∃ access : Access, c.command.op = access.op
  awaits : AllAwait m

theorem Ids.isOpen (h : Ids m) : Open m := by
  intro txnId active
  refine h.open_ids txnId ?_
  rw [TransactionManager.mem_getActiveTransactionIds, ← TransactionManager.isTransactionActive_iff]
  exact active

theorem attended_init (env : Environment) : Attended (init env) where
  ids := ids_init env
  sound := sound_init env
  accesses := List.forall_mem_nil _
  awaits := by
    intro before c later hsplit
    simp [init] at hsplit

theorem AllAwait.submit (h : Attended m) {access : Access} (hop : cmd.op = access.op)
    (word : String)
    (hkeep : ∀ c, m.Awaits c → (m.submit cmd word).Awaits c)
    (allowed : Guarded Directory.call Allowed m.directory (m.submitCalls cmd))
    (hlive : m.Accepts cmd → m.labelActive cmd.txnLabel = true) :
    AllAwait (m.submit cmd word) := by
  by_cases accepted : m.Accepts cmd
  · rw [submit_accepted accepted] at hkeep ⊢
    rw [submitCalls_accepted accepted] at allowed
    split
    · next hbusy =>
        rw [if_pos hbusy] at hkeep
        have hbehind : ∃ c' ∈ m.pending, c'.command.txnLabel = cmd.txnLabel := by
          simpa [hasPendingForTxn] using hbusy
        exact h.awaits.append rfl hkeep (Or.inr hbehind)
    · next hfree =>
        rw [if_neg hfree] at hkeep allowed
        have hpending := ((m.issue cmd).2.executeCommand_frame (m.issue cmd).1 false).2.2
        dsimp only at hkeep ⊢
        split
        · next hexecuted =>
            rw [if_pos hexecuted] at hkeep
            exact h.awaits.mono hpending hkeep
        · next hrefused =>
            rw [if_neg hrefused] at hkeep
            refine h.awaits.append (congrArg (· ++ _) hpending) hkeep (Or.inl ?_)
            exact awaits_of_failed (m := (m.issue cmd).2) (c := (m.issue cmd).1) h.sound
              h.ids.isOpen (hlive accepted) hop allowed (Bool.eq_false_of_not_eq_true hrefused)
  · obtain ⟨line, hprint⟩ := submit_rejected accepted word
    rw [hprint]
    exact h.awaits

/-- The last pass of COMMIT and ABORT tries every command that it leaves. -/
theorem AllAwait.complete (h : Attended m) (outcome : Outcome)
    (allowed : Guarded Directory.call Allowed m.directory (m.completeCalls cmd outcome)) :
    AllAwait (m.complete cmd outcome) := by
  rcases m.complete_cases cmd outcome with ⟨⟨line, hprint⟩, _⟩ | ⟨txnId, txn, label, active, _⟩
  · rw [hprint]
    exact h.awaits
  · obtain ⟨hcomplete, hcalls⟩ :=
      complete_active outcome label (m.tm.isTransactionActive_iff.mpr ⟨txn, active⟩)
    rw [hcalls] at allowed
    have hended : (m.ended cmd outcome txnId).directory.Sound :=
      h.sound.call allowed.1.1 allowed.1.2
    have hids : Ids (m.ended cmd outcome txnId) :=
      (h.ids.step (.finish active) trivial).step (.print _) trivial
    obtain ⟨resumed, last, hknown, hlast, hnone, hend⟩ :=
      processLoop_last ((m.ended cmd outcome txnId).pending.length + 1) []
        (m.ended cmd outcome txnId) (Nat.lt_succ_self _) allowed.2
    obtain ⟨_, hwaits⟩ := lasting_awaits.pass last.pending [] resumed last rfl
      (hknown lasting_awaits.toKnown ⟨hended, hids.isOpen⟩) hlast hnone (List.forall_mem_nil _)
    rw [hend] at hwaits
    rw [hcomplete]
    intro before c later hsplit
    have hc : c ∈ (m.ended cmd outcome txnId).processPending.pending :=
      hsplit ▸ List.mem_append_right before List.mem_cons_self
    have hold : c ∈ (m.ended cmd outcome txnId).pending := mem_pending_processPending hc
    exact Or.inl (hwaits c hc (h.accesses c hold))

theorem submitCalls_running (m : Main) (cmd : Command) :
    ∀ call ∈ m.submitCalls cmd, call.completes = false := by
  rw [submitCalls]
  split
  · exact List.forall_mem_nil _
  · split
    · exact List.forall_mem_nil _
    · split
      · exact List.forall_mem_nil _
      · exact executeCalls_running _ _

/-- A command that ends no transaction leaves whoever waits waiting. -/
theorem Awaits.handle (h : m.directory.Sound)
    (allowed : Guarded Directory.call Allowed m.directory (m.handleCalls cmd))
    (running : ∀ call ∈ m.handleCalls cmd, call.completes = false) (hwaits : m.Awaits c) :
    (m.handle cmd).Awaits c := by
  refine hwaits.run h (fun {l id} hid => ?_) (m.directory_handle cmd) running allowed
  exact (m.handle_reaches_any cmd).invariant (I := fun m' => m'.txnIds[l]? = some id)
    (fun hs _ h => hs.txnIds h) hid

theorem AllAwait.handle (h : Attended m)
    (allowed : Guarded Directory.call Allowed m.directory (m.handleCalls cmd))
    (hlive : ForActive m cmd) : AllAwait (m.handle cmd) := by
  cases m.handled cmd with
  | submit access word hop state calls =>
      have hkeep : ∀ c, m.Awaits c → (m.handle cmd).Awaits c := fun c =>
        Awaits.handle h.sound allowed (calls ▸ m.submitCalls_running cmd)
      rw [state] at hkeep ⊢
      rw [calls] at allowed
      have haccess : cmd.op = .read ∨ cmd.op = .write := by
        rw [hop]
        cases access <;> simp [Access.op]
      exact AllAwait.submit h hop word hkeep allowed (hlive haccess)
  | complete outcome hop state calls =>
      rw [state]
      exact AllAwait.complete h outcome (calls ▸ allowed)
  | recover hop none =>
      intro before c later hsplit
      simp [none] at hsplit
  | other idle same labels running =>
      exact h.awaits.mono same fun c => Awaits.handle h.sound allowed running

/-- Only READ and WRITE join the pending commands. -/
theorem accesses_handle (h : ∀ c ∈ m.pending, ∃ access : Access, c.command.op = access.op)
    (cmd : Command) :
    ∀ c ∈ (m.handle cmd).pending, ∃ access : Access, c.command.op = access.op := by
  intro c hc
  cases m.handled cmd with
  | submit access word hop state calls =>
      rw [state] at hc
      rcases mem_pending_submit word hc with hold | rfl
      · exact h c hold
      · exact ⟨access, hop⟩
  | complete outcome hop state calls =>
      rw [state] at hc
      rcases m.complete_cases cmd outcome with ⟨⟨line, hprint⟩, _⟩ | ⟨txnId, _, _, _, hstate⟩
      · rw [hprint] at hc
        exact h c hc
      · rw [hstate] at hc
        have hold : c ∈ (m.ended cmd outcome txnId).pending := mem_pending_processPending hc
        exact h c hold
  | recover hop none => simp [none] at hc
  | other idle same labels running => exact h c (same ▸ hc)

theorem accesses_after (env : Environment) (input : List Command) :
    ∀ c ∈ (after env input).pending, ∃ access : Access, c.command.op = access.op := by
  rw [after_eq_run]
  exact Runs.invariant handle
    (I := fun m => ∀ c ∈ m.pending, ∃ access : Access, c.command.op = access.op)
    (fun _ cmd h => accesses_handle h cmd) _ (List.forall_mem_nil _)

theorem Attended.handle (h : Attended m)
    (hroom : cmd.op = .begin → m.tm.nextTransactionId + 1 < 2 ^ 32)
    (allowed : Guarded Directory.call Allowed m.directory (m.handleCalls cmd))
    (hlive : ForActive m cmd) : Attended (m.handle cmd) where
  ids := handle_invariant_of_room (fun hs hroom hids => hids.step hs hroom) hroom h.ids
  sound := m.directory_handle cmd ▸ h.sound.run allowed
  accesses := accesses_handle h.accesses cmd
  awaits := AllAwait.handle h allowed hlive

/-! ## Labels -/

/-- Labels have ids that were given out, each its own, and pending commands have
labels. -/
structure Listed (m : Main) : Prop where
  given : ∀ (txnLabel : Name) (txnId : Nat), m.txnIds[txnLabel]? = some txnId →
    txnId < m.tm.nextTransactionId
  distinct : ∀ (txnLabel txnLabel' : Name) (txnId : Nat), m.txnIds[txnLabel]? = some txnId →
    m.txnIds[txnLabel']? = some txnId → txnLabel = txnLabel'
  labelled : ∀ c ∈ m.pending, c.command.txnLabel ∈ m.txnIds

theorem listed_init (env : Environment) : Listed (init env) where
  given := by simp [init]
  distinct := by simp [init]
  labelled := List.forall_mem_nil _

theorem Listed.congr (h : Listed m) (hids : m'.txnIds = m.txnIds)
    (hnext : m'.tm.nextTransactionId = m.tm.nextTransactionId)
    (hsub : m'.pending ⊆ m.pending) : Listed m' where
  given := by
    rw [hids, hnext]
    exact h.given
  distinct := hids ▸ h.distinct
  labelled := by
    rw [hids]
    exact fun c hc => h.labelled c (hsub hc)

/-- A new label gets a new id. -/
theorem Listed.start (h : Listed m) (txnLabel : Name)
    (room : m.tm.nextTransactionId + 1 < 2 ^ 32) : Listed (m.start txnLabel) := by
  have hnext : (m.start txnLabel).tm.nextTransactionId = m.tm.nextTransactionId + 1 :=
    succ32_of_lt room
  have hold : ∀ l txnId, (m.start txnLabel).txnIds[l]? = some txnId →
      l = txnLabel ∧ txnId = m.tm.nextTransactionId ∨
        m.txnIds[l]? = some txnId ∧ txnId < m.tm.nextTransactionId := by
    intro l txnId hl
    rw [txnIds_start] at hl
    split at hl
    · next heq => exact Or.inl ⟨heq.symm, (Option.some.inj hl).symm⟩
    · exact Or.inr ⟨hl, h.given l txnId hl⟩
  constructor
  case given =>
    intro l txnId hl
    rcases hold l txnId hl with ⟨_, rfl⟩ | ⟨_, hlt⟩ <;> omega
  case distinct =>
    intro l l' txnId hl hl'
    rcases hold l txnId hl with ⟨rfl, rfl⟩ | ⟨hl, hlt⟩ <;>
      rcases hold l' _ hl' with ⟨rfl, hid⟩ | ⟨hl', hlt'⟩
    · rfl
    · exact absurd hlt' (Nat.lt_irrefl _)
    · exact absurd hid (Nat.ne_of_lt hlt)
    · exact h.distinct l l' txnId hl hl'
  case labelled => exact fun c hc => ExtTreeMap.mem_insert.mpr (Or.inr (h.labelled c hc))

theorem Listed.step {a : Act} (h : Listed m) (hs : Step m a m') (room : IdsLeft m a) :
    Listed m' := by
  have hsame : a ≠ .begin → m'.tm.nextTransactionId = m.tm.nextTransactionId := fun hbegin =>
    hs.nextTransactionId.resolve_right fun hnew => hbegin hnew.1
  cases hs with
  | begin => exact h.start _ room
  | issue known =>
      refine ⟨h.given, h.distinct, fun c hc => ?_⟩
      rcases List.mem_append.mp hc with hold | hnew
      · exact h.labelled c hold
      · rw [List.mem_singleton.mp hnew]
        exact known
  | print | create | refuse | finish | checkpoint =>
      exact h.congr rfl (hsame (by simp)) (List.Subset.refl _)
  | drop waits =>
      refine h.congr rfl (hsame (by simp)) ?_
      rw [waits]
      exact (List.Sublist.append_left (List.sublist_cons_self _ _) _).subset
  | execute access waits =>
      refine h.congr ?_ (hsame (by simp)) ?_
      · cases access <;> rfl
      · rw [waits]
        exact (List.Sublist.append_left (List.sublist_cons_self _ _) _).subset
  | recover => exact h.congr rfl (hsame (by simp)) (List.nil_subset _)

/-! ## Runs -/

/-- All pending commands are those of active transactions, between any two commands,
exactly if every READ and WRITE that is accepted is.  Then each of them waits for a
lock, or is behind one of its transaction that does. -/
theorem pending_live (env : Environment) (input : List Command) :
    (Always handle AllActive (init env) (beforeExit input) ↔
      Guarded handle ForActive (init env) (beforeExit input)) ∧
    (FewBegins input → FewResources env input →
      (Always handle (fun m => AllActive m ∧ AllAwait m) (init env) (beforeExit input) ↔
        Guarded handle ForActive (init env) (beforeExit input))) := by
  have hactive : Always handle AllActive (init env) (beforeExit input) ↔
      Guarded handle ForActive (init env) (beforeExit input) :=
    always_iff_guarded (I := fun _ => True) (fun _ _ _ => trivial)
      (fun _ cmd _ h => allActive_handle h cmd) _ trivial
      (List.forall_mem_nil _)
  refine ⟨hactive, fun fewBegins fewResources => ⟨?_, fun hlive => ?_⟩⟩
  · exact fun hboth => hactive.mp fun js hjs => (hboth js hjs).1
  · have allowed := guarded_handleCalls input (init env) (allowed_calls fewResources)
    have guarded := (guarded_of_fewBegins env fewBegins).and (allowed.and hlive)
    have hattended := guarded.always (I := Attended)
      (fun _ _ h hg => h.handle hg.1 hg.2.1 hg.2.2) (attended_init env)
    exact fun js hjs => ⟨hactive.mpr hlive js hjs, (hattended js hjs).awaits⟩

/-- Two writers wait behind a third. -/
def writers : List Command :=
  [⟨.begin, ['T'], [], 0⟩, ⟨.begin, ['U'], [], 0⟩, ⟨.begin, ['V'], [], 0⟩,
    ⟨.write, ['T'], ['a'], 1⟩, ⟨.write, ['U'], ['a'], 2⟩, ⟨.write, ['V'], ['a'], 3⟩]

/-- The third of three writers reads another key while its WRITE waits. -/
def waiters : List Command := writers ++ [⟨.read, ['V'], ['b'], 0⟩]

/-- Two commands wait for a lock and one is behind them. -/
theorem pending_live_waiters : (after ⟨[], [], []⟩ waiters).pending.length = 3 ∧
    Always handle (fun m => AllActive m ∧ AllAwait m) (init ⟨[], [], []⟩) (beforeExit waiters) :=
  ⟨by decide, ((pending_live ⟨[], [], []⟩ waiters).2 (by decide) (by decide)).mpr (by decide)⟩

/-- A READ after the end of its transaction. -/
def lateRead : List Command :=
  [⟨.begin, ['T'], [], 0⟩, ⟨.commit, ['T'], [], 0⟩, ⟨.read, ['T'], ['A'], 0⟩]

/-- It is pending although no transaction is active and no queue has anybody in it. -/
theorem pending_live_fails : (after ⟨[], [], []⟩ lateRead).pending.length = 1 ∧
    (after ⟨[], [], []⟩ lateRead).lockMgr.waitQueues.isEmpty = true ∧
    ¬ ∀ env input, Always handle AllActive (init env) (beforeExit input) := by
  refine ⟨by decide, by decide, fun h => ?_⟩
  exact absurd (h ⟨[], [], []⟩ lateRead).last (by decide)

end Main

end TxnEngine
