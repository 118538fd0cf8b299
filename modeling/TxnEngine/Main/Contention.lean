import TxnEngine.Main.Passes

/-!
# Who can get in the way of a pending command

When a transaction ends, `processPending` tries the pending commands, one pass after the
other.  Which locks there are at a trial depends on the trials before it.  But no trial
brings a lock that is not foreseen in the state before the end: every lock that is then
held on a part of a key was left by the transaction that ended, or waited for in the
queue there, or is needed there by a pending command (`Main.contenders`).  And a lock
stays, unless it is not exclusive and its transaction exchanges it for one that a pending
command of it needs (`Main.Persists`).
-/

namespace TxnEngine

open Std Runs PathTree

/-! ## The end of a transaction -/

namespace LockManager

/-- The locks on a resource that the end of a transaction leaves. -/
def locksLeft (lm : LockManager) (t r : Nat) : List Lock :=
  if r ∈ lm.heldResources t then lm.othersOn t r else lm.locksOn r

variable {lm : LockManager} {t r : Nat} {lock : Lock}

theorem othersOn_of_not_hasLock (h : lm.hasLock t r = false) :
    lm.othersOn t r = lm.locksOn r := by
  refine List.filter_eq_self.mpr fun lock hlock => ?_
  rw [bne_iff_ne]
  intro howner
  rw [lm.hasLock_iff.mpr ⟨lock, hlock, howner⟩] at h
  contradiction

/-- After the end of a transaction the locks are those that it leaves and requests that
waited. -/
theorem mem_locksOn_completeTransaction : lock ∈ (lm.completeTransaction t).2.locksOn r ↔
    lock ∈ lm.locksLeft t r ∨ r ∈ lm.heldResources t ∧ lm.hasLock t r = true ∧
      lock ∈ (lm.wokenBy t r).map LockRequest.toLock := by
  obtain ⟨hin, hout⟩ := lm.completeTransaction_spec t r
  rw [locksLeft]
  by_cases hheld : r ∈ lm.heldResources t
  · by_cases hlock : lm.hasLock t r = true
    · rw [(hin ⟨hheld, hlock⟩).1.mem_iff, List.mem_append, if_pos hheld, or_comm]
      simp [hheld, hlock]
    · have hsame := othersOn_of_not_hasLock (Bool.eq_false_of_not_eq_true hlock)
      rw [(hout fun hc => hlock hc.2).1, if_pos hheld, hsame]
      simp [hlock]
  · rw [(hout fun hc => hheld hc.1).1, if_neg hheld]
    simp [hheld]

end LockManager

namespace Main

open Directory

/-! ## Contenders -/

/-- The transaction of a label, if it is active. -/
def transactionOf (m : Main) (txnLabel : Name) : Option Nat :=
  m.txnIds[txnLabel]?.filter m.tm.isTransactionActive

/-- The locks on a part of a key that the end of `t` leaves. -/
def locksLeft (m : Main) (t : Nat) (path : List Name) : List Lock :=
  (m.directory.tree.idOf path).elim [] (m.lockMgr.locksLeft t)

/-- The locks on a part of a key that its wait queue asks for. -/
def awaited (m : Main) (path : List Name) : List Lock :=
  (m.directory.tree.idOf path).elim [] fun id =>
    (m.lockMgr.queueOn id).map LockRequest.toLock

/-- The locks on a part of a key that the pending commands of active transactions other
than `t` need. -/
def askers (m : Main) (t : Nat) (path : List Name) : List Lock :=
  m.pending.flatMap fun c =>
    match m.transactionOf c.command.txnLabel with
    | none => []
    | some u =>
        if u = t then []
        else (c.command.needs.filter fun need => need.1 = path).map fun need => ⟨u, need.2⟩

/-- The locks that there can be on a part of a key once `t` has ended. -/
def contenders (m : Main) (t : Nat) (path : List Name) : List Lock :=
  m.locksLeft t path ++ m.awaited path ++ m.askers t path

/-- Once `t` has ended, a lock on a part of a key keeps the mode out for good: it is
exclusive, or no pending command of its transaction can exchange it for one that goes with
the mode. -/
def KeepsOut (m : Main) (t : Nat) (path : List Name) (lock : Lock) (mode : LockType) : Prop :=
  isCompatible lock.lockType mode = false ∧
    (lock.lockType = .exclusive ∨ ∀ asker ∈ m.askers t path,
      asker.transactionId = lock.transactionId → isCompatible asker.lockType mode = false)

instance (m : Main) (t : Nat) (path : List Name) (lock : Lock) (mode : LockType) :
    Decidable (KeepsOut m t path lock mode) := inferInstanceAs (Decidable (_ ∧ _))

/-- The command is a READ or WRITE of an active transaction. -/
structure Live (m : Main) (c : Issued) (txnId : Nat) (access : Access) : Prop where
  label : m.txnIds[c.command.txnLabel]? = some txnId
  active : m.tm.isTransactionActive txnId = true
  op : c.command.op = access.op

variable {m m₀ : Main} {c : Issued} {cmd : Command} {t t₀ u : Nat} {path : List Name} {lock : Lock}

theorem transactionOf_eq_some {txnLabel : Name} : m.transactionOf txnLabel = some t ↔
    m.txnIds[txnLabel]? = some t ∧ m.tm.isTransactionActive t = true := by
  rw [transactionOf, Option.filter_eq_some_iff]

theorem Continues.transactionOf {m' : Main} {calls : List Call} (h : Continues m m' calls)
    (txnLabel : Name) : m'.transactionOf txnLabel = m.transactionOf txnLabel := by
  rw [Main.transactionOf, Main.transactionOf, h.tm, h.txnIds]

theorem Live.transactionOf {access : Access} (h : m.Live c t access) :
    m.transactionOf c.command.txnLabel = some t :=
  transactionOf_eq_some.mpr ⟨h.label, h.active⟩

/-- The calls of a trial begin with those of its lookup. -/
theorem Live.guarded_lookup {guard : Directory → Call → Prop} {access : Access}
    (h : m.Live c t access)
    (guarded : Guarded Directory.call guard m.directory (m.executeCalls c)) :
    Guarded Directory.call guard m.directory (m.resourceCalls c.command.resourceName) := by
  rw [executeCalls_access h.label h.active h.op] at guarded
  exact ((guarded_append _ _ _).mp guarded).1

theorem mem_askers : lock ∈ m.askers t₀ path ↔
    lock.transactionId ≠ t₀ ∧ ∃ c ∈ m.pending,
      m.transactionOf c.command.txnLabel = some lock.transactionId ∧
        (path, lock.lockType) ∈ c.command.needs := by
  obtain ⟨u, mode⟩ := lock
  rw [askers, List.mem_flatMap]
  constructor
  · rintro ⟨c, hc, hlock⟩
    cases hlabel : m.transactionOf c.command.txnLabel with
    | none => simp [hlabel] at hlock
    | some u' =>
        rw [hlabel] at hlock
        dsimp only at hlock
        split at hlock
        · cases hlock
        · next hne =>
            simp only [List.mem_map, List.mem_filter, decide_eq_true_eq, Lock.mk.injEq] at hlock
            obtain ⟨⟨path', mode'⟩, ⟨hneed, rfl⟩, rfl, rfl⟩ := hlock
            exact ⟨hne, c, hc, hlabel, hneed⟩
  · rintro ⟨hne, c, hc, hlabel, hneed⟩
    refine ⟨c, hc, ?_⟩
    dsimp only at hne hlabel hneed
    rw [hlabel]
    dsimp only
    rw [if_neg hne]
    exact List.mem_map.mpr ⟨(path, mode), List.mem_filter.mpr ⟨hneed, by simp⟩, rfl⟩

/-! ## What the passes keep -/

/-- A lock on a part of a key is there, or one of its transaction that a pending command
needs has taken its place. -/
def Persists (m₀ : Main) (t₀ : Nat) (path : List Name) (old : Lock) (d : Directory) : Prop :=
  ∃ id, d.tree.idOf path = some id ∧ ∃ lock ∈ d.lockMgr.locksOn id,
    lock.transactionId = old.transactionId ∧
      (lock.lockType = old.lockType ∨ old.lockType ≠ .exclusive ∧ lock ∈ m₀.askers t₀ path)

/-- What is known of the locks on the parts of keys once `t₀` has ended in the state
`m₀`. -/
structure Contested (m₀ : Main) (t₀ : Nat) (d : Directory) : Prop where
  sound : d.Sound
  fits : d.lockMgr.table.Compatible Fits
  within : ∀ {path id}, d.tree.idOf path = some id → ∀ lock ∈ d.lockMgr.locksOn id,
    lock ∈ m₀.contenders t₀ path
  stays : ∀ {path old}, old ∈ m₀.locksLeft t₀ path → Persists m₀ t₀ path old d

/-- Once `t₀` has ended in the state `m₀`, pending commands are tried. -/
structure Contending (m₀ : Main) (t₀ : Nat) (m : Main) : Prop where
  contested : Contested m₀ t₀ m.directory
  txnIds : m.txnIds = m₀.txnIds
  active : ∀ t, m.tm.isTransactionActive t = true ↔
    t ≠ t₀ ∧ m₀.tm.isTransactionActive t = true
  pending : m.pending ⊆ m₀.pending

variable {d : Directory} {calls : List Call}

/-- The locks that a call asks for on parts of keys are needed by pending commands. -/
def NeedsOnly (m₀ : Main) (t₀ : Nat) (d : Directory) (t r : Nat) (mode : LockType) : Prop :=
  ∀ path a k, d.tree.idOf path = some a → (a, k) ∈ d.lockMgr.requests r mode →
    ⟨t, k⟩ ∈ m₀.askers t₀ path

section Calls

variable {old : Lock} {name : Name} {r : Nat} {mode : LockType}

theorem Persists.quiet (hold : Persists m₀ t₀ path old d) (h : d.Sound)
    (allowed : Guarded Directory.call Allowed d calls) (hask : ∀ c ∈ calls, c.requester = none)
    (running : ∀ c ∈ calls, c.completes = false) :
    Persists m₀ t₀ path old (run Directory.call d calls) := by
  obtain ⟨id, hid, hlock⟩ := hold
  refine ⟨id, (idOf_run h allowed (h.tree.issued hid).2 path).mpr hid, ?_⟩
  rw [locksOn_run hask running]
  exact hlock

theorem Persists.request (hold : Persists m₀ t₀ path old d)
    (hasked : NeedsOnly m₀ t₀ d t r mode) :
    Persists m₀ t₀ path old (d.call (.request name t r mode)) := by
  obtain ⟨id, hid, hheld⟩ := hold
  refine ⟨id, hid, LockManager.exists_requestLock hheld fun k hk lock howner hweak hlock => ?_⟩
  -- the lock that is exchanged is not exclusive, so neither was the old one
  obtain ⟨hsame, hmode⟩ := hlock
  refine ⟨howner.symm.trans hsame, Or.inr ⟨?_, hasked path id k hid hk⟩⟩
  rcases hmode with hmode | hmode
  · exact hmode ▸ hweak
  · exact hmode.1

/-- Calls that ask for no lock. -/
theorem Contested.quiet (h : Contested m₀ t₀ d) (allowed : Guarded Directory.call Allowed d calls)
    (hask : ∀ c ∈ calls, c.requester = none) (running : ∀ c ∈ calls, c.completes = false) :
    Contested m₀ t₀ (run Directory.call d calls) where
  sound := h.sound.run allowed
  fits := compatible_run h.fits
  within := by
    intro path id hid lock hlock
    rw [locksOn_run hask running] at hlock
    have hold : id < d.tree.next :=
      h.sound.used _ ⟨lock.entry, Or.inl (d.lockMgr.mem_table_held.mpr hlock)⟩
    exact h.within ((idOf_run h.sound allowed hold path).mp hid) lock hlock
  stays := fun hold => (h.stays hold).quiet h.sound allowed hask running

/-- A request for locks that pending commands need. -/
theorem Contested.request (h : Contested m₀ t₀ d) (named : d.Names name r)
    (hasked : NeedsOnly m₀ t₀ d t r mode) :
    Contested m₀ t₀ (d.call (.request name t r mode)) where
  sound := h.sound.call named nofun
  fits := compatible_call h.fits _
  within := by
    intro path id hid
    have hid' : d.tree.idOf path = some id := hid
    refine LockManager.forall_requestLock (h.within hid') fun k hk => ?_
    exact List.mem_append_right _ (hasked path id k hid' hk)
  stays := fun hold => (h.stays hold).request hasked

end Calls

theorem Contending.transactionOf_iff (h : Contending m₀ t₀ m) {txnLabel : Name} :
    m.transactionOf txnLabel = some t ↔ t ≠ t₀ ∧ m₀.transactionOf txnLabel = some t := by
  rw [transactionOf_eq_some, transactionOf_eq_some, h.txnIds, h.active]
  exact and_left_comm

theorem Contending.live (h : Contending m₀ t₀ m)
    (accesses : ∀ c ∈ m₀.pending, ∃ access : Access, c.command.op = access.op)
    (hc : c ∈ m.pending) (hactive : m.labelActive c.command.txnLabel = true) :
    ∃ t access, m.Live c t access := by
  obtain ⟨t, label, active⟩ := labelActive_iff.mp hactive
  obtain ⟨access, hop⟩ := accesses c (h.pending hc)
  exact ⟨t, access, label, active, hop⟩

/-- What a pending command asks for is a contender. -/
theorem Contending.asked (h : Contending m₀ t₀ m) (hc : c ∈ m.pending) {access : Access}
    (hlive : m.Live c t access) {path : List Name} {k : LockType}
    (hneed : (path, k) ∈ c.command.needs) : ⟨t, k⟩ ∈ m₀.askers t₀ path := by
  obtain ⟨hne, hold⟩ := h.transactionOf_iff.mp hlive.transactionOf
  exact mem_askers.mpr ⟨hne, c, h.pending hc, hold, hneed⟩

/-- A trial asks for what its command needs. -/
theorem Contending.tried (h : Contending m₀ t₀ m) (hc : c ∈ m.pending) {access : Access}
    (hlive : m.Live c t access)
    (allowed : Guarded Directory.call Allowed m.directory
      (m.resourceCalls c.command.resourceName)) :
    NeedsOnly m₀ t₀ (m.ensureResource c.command.resourceName).2.directory t
      (m.ensureResource c.command.resourceName).1 access.mode := by
  intro path a k hid hmem
  change (a, k) ∈ (m.ensureResource c.command.resourceName).2.lockMgr.requests _ _ at hmem
  have hsound : (m.ensureResource c.command.resourceName).2.directory.Sound := by
    rw [directory_ensureResource]
    exact h.contested.sound.run allowed
  by_cases hname : segments c.command.resourceName = []
  · obtain ⟨orphan, _⟩ := ensureResource_fresh h.contested.sound hname
    rw [LockManager.requests_of_orphan orphan, List.mem_singleton] at hmem
    obtain ⟨rfl, _⟩ := Prod.mk.inj hmem
    exact absurd hid (idOf_ensureResource_ne h.contested.sound hname path)
  · have hself := idOf_ensureResource h.contested.sound hname allowed
    obtain ⟨⟨path', k'⟩, hneed, hid', rfl⟩ := (mem_requests_iff hsound hlive.op hself _).mp hmem
    obtain rfl := hsound.tree.injective hid hid'
    exact h.asked hc hlive hneed

theorem Contending.continues {m' : Main} (h : Contending m₀ t₀ m) (hcont : Continues m m' calls)
    (hcontested : Contested m₀ t₀ m'.directory) : Contending m₀ t₀ m' where
  contested := hcontested
  txnIds := hcont.txnIds.trans h.txnIds
  active := hcont.tm ▸ h.active
  pending := List.Subset.trans hcont.pending.subset h.pending

/-- What the calls of a trial keep. -/
theorem Contending.trial_invariant {P : Directory → Prop} (h : Contending m₀ t₀ m)
    (hc : c ∈ m.pending)
    (allowed : Guarded Directory.call Allowed m.directory (m.executeCalls c))
    (hquiet : ∀ {d calls}, Contested m₀ t₀ d → P d → Guarded Directory.call Allowed d calls →
      (∀ c ∈ calls, c.requester = none) → (∀ c ∈ calls, c.completes = false) →
      P (run Directory.call d calls))
    (hrequest : ∀ {d t r mode} name, Contested m₀ t₀ d → P d → NeedsOnly m₀ t₀ d t r mode →
      P (d.call (.request name t r mode))) (hP : P m.directory) :
    Contested m₀ t₀ (m.executeCommand c true).2.directory ∧
      P (m.executeCommand c true).2.directory := by
  rcases m.trial_cases c with hidle | ⟨txnId, access, label, active, hop⟩
  · rw [(executeCommand_idle hidle true).1]
    exact ⟨h.contested, hP⟩
  · rw [directory_executeCommand]
    rw [executeCalls_access label active hop] at allowed ⊢
    unfold accessCalls at allowed ⊢
    dsimp only at allowed ⊢
    rw [guarded_append, ← directory_ensureResource] at allowed
    obtain ⟨hlookup, hnamed, htail⟩ := allowed
    have hnone := m.resourceCalls_requester c.command.resourceName
    have hrunning := m.resourceCalls_running c.command.resourceName
    have hfound := h.contested.quiet hlookup hnone hrunning
    have hP' := hquiet h.contested hP hlookup hnone hrunning
    rw [← directory_ensureResource] at hfound hP'
    have hneeds := h.tried hc ⟨label, active, hop⟩ hlookup
    have hasked := hfound.request hnamed.1 hneeds
    have hP'' := hrequest c.command.resourceName hfound hP' hneeds
    rw [run_append, ← directory_ensureResource, run_cons]
    refine ⟨hasked.quiet htail ?_ ?_, hquiet hasked hP'' htail ?_ ?_⟩
    all_goals cases access <;> split <;> simp [Call.requester, Call.completes]

/-- Lookups and trials bring no lock that was not foreseen. -/
theorem known_contending : Known Allowed (Contending m₀ t₀) where
  quiet := fun h hcont hask allowed => h.continues hcont
    (hcont.directory ▸ h.contested.quiet allowed hask hcont.running)
  trial := fun {m c} h hc _ allowed => h.continues (m.continues_executeCommand c true)
    (h.trial_invariant hc allowed (P := fun _ => True) (fun _ _ _ _ _ => trivial)
      (fun _ _ _ _ => trivial) trivial).1

theorem Contending.persists_trial {old : Lock} (h : Contending m₀ t₀ m) (hc : c ∈ m.pending)
    (allowed : Guarded Directory.call Allowed m.directory (m.executeCalls c))
    (hold : Persists m₀ t₀ path old m.directory) :
    Persists m₀ t₀ path old (m.executeCommand c true).2.directory :=
  (h.trial_invariant hc allowed (fun h hold => hold.quiet h.sound) (fun _ _ hold => hold.request)
    hold).2

/-- What the end of a transaction leaves. -/
theorem contending_ended (h : m.directory.Sound) (hfit : m.lockMgr.table.Compatible Fits)
    (outcome : Outcome) (t : Nat) (cmd : Command) : Contending m t (m.ended cmd outcome t) where
  contested := {
    sound := h.call (c := .complete t) trivial nofun
    fits := compatible_call (d := m.directory) hfit (.complete t)
    within := by
      intro path id hid lock hlock
      have hid' : m.directory.tree.idOf path = some id := hid
      have hlock' : lock ∈ (m.lockMgr.completeTransaction t).2.locksOn id := hlock
      refine List.mem_append_left _ ?_
      rw [locksLeft, awaited, hid', List.mem_append]
      rcases LockManager.mem_locksOn_completeTransaction.mp hlock' with hleft | ⟨_, _, hwoken⟩
      · exact Or.inl hleft
      · exact Or.inr (List.map_subset _ (LockManager.grantable_isPrefix _ _).subset hwoken)
    stays := by
      intro path old hold
      rw [locksLeft] at hold
      cases hid : m.directory.tree.idOf path with
      | none => simp [hid] at hold
      | some id =>
          rw [hid] at hold
          refine ⟨id, hid, old, ?_, rfl, Or.inl rfl⟩
          exact LockManager.mem_locksOn_completeTransaction.mpr (Or.inl hold) }
  txnIds := rfl
  active := by
    intro u
    rw [TransactionManager.isTransactionActive_iff, TransactionManager.isTransactionActive_iff,
      ← TransactionManager.mem_getActiveTransactionIds,
      ← TransactionManager.mem_getActiveTransactionIds]
    exact m.tm.mem_activeIds_complete
  pending := List.Subset.refl _

/-! ## What the trials answer -/

/-- A trial is refused by a lock that was foreseen. -/
theorem Contending.failed (h : Contending m₀ t₀ m) {access : Access} (hlive : m.Live c t access)
    (active : t ∉ m.lockMgr.completedTransactions)
    (allowed : Guarded Directory.call Allowed m.directory (m.executeCalls c))
    (failed : (m.executeCommand c true).1 = false) : ∃ need ∈ c.command.needs,
      ∃ lock ∈ m₀.contenders t₀ need.1, lock.transactionId ≠ t ∧
        isCompatible lock.lockType need.2 = false ∧ Persists m₀ t₀ need.1 lock m.directory := by
  have hiff := executed_iff h.contested.sound h.contested.fits hlive.label hlive.active hlive.op
    (hlive.guarded_lookup allowed) true
  rw [← Bool.not_eq_true, hiff, and_iff_right active, not_not] at failed
  obtain ⟨need, hneed, id, hid, lock, hlock, hother, hincompatible⟩ := failed
  exact ⟨need, hneed, lock, h.contested.within hid lock hlock, hother, hincompatible,
    id, hid, lock, hlock, rfl, Or.inl rfl⟩

/-- A lock that persists and keeps out what a command needs refuses its trials. -/
theorem Contending.kept_out (h : Contending m₀ t₀ m) {access : Access} (hlive : m.Live c t access)
    (allowed : Guarded Directory.call Allowed m.directory (m.executeCalls c))
    {need : List Name × LockType} (hneed : need ∈ c.command.needs) {old : Lock}
    (hother : old.transactionId ≠ t) (hold : Persists m₀ t₀ need.1 old m.directory)
    (hkeeps : m₀.KeepsOut t₀ need.1 old need.2) : (m.executeCommand c true).1 = false := by
  have hiff := executed_iff h.contested.sound h.contested.fits hlive.label hlive.active hlive.op
    (hlive.guarded_lookup allowed) true
  rw [← Bool.not_eq_true, hiff]
  rintro ⟨_, hfree⟩
  obtain ⟨id, hid, lock, hlock, hsame, hmode⟩ := hold
  refine hfree ⟨need, hneed, id, hid, lock, hlock, hsame ▸ hother, ?_⟩
  rcases hmode with hmode | ⟨hweak, hasked⟩
  · exact hmode ▸ hkeeps.1
  · exact hkeeps.2.resolve_left hweak lock hasked hsame

end Main

end TxnEngine
