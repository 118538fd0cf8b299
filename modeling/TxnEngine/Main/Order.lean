import TxnEngine.Main.Contention
import TxnEngine.Main.Waiting

/-!
# Program order

READ and WRITE queue behind the pending commands of their transaction.
`processPending` does not: when it cannot execute a command it goes on, and may
execute a later command of the same transaction in the same pass.

It can do so only where two commands of a transaction are pending, no lock is sure to
keep the newer one out, and something that can refuse the older one does not keep the
newer one out as well (`OrderGuard`).  Runs in which no COMMIT or ABORT finds that
execute the commands of each transaction in the order in which they were issued
(`executed_in_order`).
-/

namespace TxnEngine

open Std Runs

/-- A command is executed after the commands that were issued before it for the
same transaction. -/
def InOrder (trace : List Event) : Prop :=
  Arrivals.Each (fun before event => ∀ op, event = .executed op →
    ∀ line id serial, Event.issued op.line id serial ∈ before →
      Event.issued line id serial ∈ before → line < op.line → line ∈ executedLines before) trace

/-- No older command of the same transaction waits. -/
def Oldest (pending : List Issued) (c : Issued) : Prop :=
  ∀ c' ∈ pending, c.owner ≠ none → c'.owner = c.owner → c.line ≤ c'.line

namespace Main

open Directory

/-- A lock that the end of `t` leaves keeps a command of `u` out for good. -/
def StaysRefused (m : Main) (t u : Nat) (cmd : Command) : Prop :=
  ∃ need ∈ cmd.needs, ∃ lock ∈ m.locksLeft t need.1,
    lock.transactionId ≠ u ∧ m.KeepsOut t need.1 lock need.2

/-- Once `t` has ended, every lock that can refuse the one command of `u` keeps the other
one out for good. -/
def RefusedTogether (m : Main) (t u : Nat) (cmd cmd' : Command) : Prop :=
  ∀ need ∈ cmd.needs, ∀ lock ∈ m.contenders t need.1, lock.transactionId ≠ u →
    isCompatible lock.lockType need.2 = false →
      ∃ need' ∈ cmd'.needs, need'.1 = need.1 ∧ m.KeepsOut t need.1 lock need'.2

/-- When COMMIT or ABORT ends `t` and another transaction has two pending commands, the
newer one is kept out for good, at least by what refuses the older one. -/
def OrderGuard (m : Main) (cmd : Command) : Prop :=
  cmd.op = .commit ∨ cmd.op = .abort → ∀ t ∈ m.transactionOf cmd.txnLabel,
    ∀ c ∈ m.pending, ∀ c' ∈ m.pending, c.line < c'.line →
      ∀ u ∈ m.transactionOf c.command.txnLabel,
        m.transactionOf c'.command.txnLabel = some u → u ≠ t →
          m.StaysRefused t u c'.command ∨ m.RefusedTogether t u c.command c'.command

instance (m : Main) (t u : Nat) (cmd : Command) : Decidable (m.StaysRefused t u cmd) :=
  inferInstanceAs (Decidable (∃ need ∈ _, _))

instance (m : Main) (t u : Nat) (cmd cmd' : Command) :
    Decidable (m.RefusedTogether t u cmd cmd') :=
  inferInstanceAs (Decidable (∀ need ∈ _, _))

instance (m : Main) (cmd : Command) : Decidable (OrderGuard m cmd) :=
  inferInstanceAs (Decidable (_ → _))

/-- Only an execution can break the order. -/
theorem Step.inOrder {m m' : Main} {a : Act} (h : Step m a m') (hexecute : ∀ c, a ≠ .execute c)
    (horder : InOrder m.trace) : InOrder m'.trace := by
  have hadd : ∀ {events : List Event}, (∀ op, .executed op ∉ events) →
      InOrder (m.trace ++ events) := by
    intro events hnone
    refine (Arrivals.each_append_of fun event hevent before op heq => ?_).mpr horder
    rw [heq] at hevent
    exact absurd hevent (hnone op)
  cases h with
  | print | refuse | drop | checkpoint => exact horder
  | create | begin | finish => exact hadd (by simp)
  | @issue cmd =>
      refine hadd fun op => ?_
      cases m.ownerOf cmd.txnLabel <;> simp
  | execute => exact absurd rfl (hexecute _)
  | recover => exact hadd (by simp [mem_recoverEvents])

/-- The oldest command of its transaction comes in order. -/
theorem Executes.inOrder {m m' : Main} {c : Issued} {op : Operation} (h : Executes m m' c op)
    (hqueue : Queue m) (holdest : Oldest m.pending c) (horder : InOrder m.trace) :
    InOrder m'.trace := by
  obtain ⟨before, later, hpending, _⟩ := h.waits
  have hc : c ∈ m.pending := hpending ▸ List.mem_append_right before List.mem_cons_self
  rw [h.trace]
  refine Arrivals.each_concat.mpr ⟨horder, fun op' heq line id serial hissued hearlier hlt => ?_⟩
  cases heq
  rw [h.line] at hissued hlt
  have howner := (hqueue.owned c hc id serial).mp hissued
  have hid : op.transactionId = id :=
    Option.some.inj (h.label.symm.trans (hqueue.labelled c hc _ howner))
  have hactive : op.transactionId ∈ m.tm.getActiveTransactionIds := h.current.mem_activeIds
  rcases hqueue.accounted line id serial hearlier with hexec | ⟨c', hc', rfl, heq⟩ | hidle | hover
  · exact hexec
  · -- an older command that waits
    have hle := holdest c' hc' (by rw [howner]; simp) (heq.trans howner.symm)
    exact absurd hlt (Nat.not_lt.mpr hle)
  · exact absurd (hid ▸ hactive) hidle
  · exact absurd howner (hover.2 c hc)

/-! ## What the guard says of one command -/

/-- What holds between commands. -/
structure Prepared (m : Main) : Prop where
  orderly : Orderly m
  ids : Ids m
  listed : Listed m
  sound : m.directory.Sound
  fits : m.lockMgr.table.Compatible Fits
  accesses : ∀ c ∈ m.pending, ∃ access : Access, c.command.op = access.op
  sorted : m.pending.Pairwise fun c c' => c.line < c'.line

variable {m m' : Main} {cmd : Command}

/-- READ and WRITE are executed at once only where nothing of their transaction is
pending. -/
theorem submitMeets_oldest (h : Prepared m) : SubmitMeets Oldest m cmd := by
  intro hnone _ c' hc' hactive howner
  rcases List.mem_append.mp hc' with hold | hnew
  · obtain ⟨t, ht⟩ := Option.ne_none_iff_exists'.mp hactive
    have hlabel := h.orderly.queue.labelled c' hold t (howner.trans ht)
    have hsame := h.listed.distinct _ _ _ hlabel (ownerOf_spec ht).1
    have hwaits : m.hasPendingForTxn cmd.txnLabel = true :=
      List.any_eq_true.mpr ⟨c', hold, by simpa using hsame⟩
    rw [hnone] at hwaits
    cases hwaits
  · rw [List.mem_singleton.mp hnew]

/-- Once `t` has ended in the state `m`, what a refused trial says of its command: a lock
that can refuse it was there, and neither it nor what takes its place has gone since. -/
def Refused (m : Main) (t : Nat) (m' : Main) (c : Issued) : Prop :=
  c ∈ m.pending ∧ ∀ u ∈ m.transactionOf c.command.txnLabel, u ≠ t ∧
    ∃ need ∈ c.command.needs, ∃ lock ∈ m.contenders t need.1, lock.transactionId ≠ u ∧
      isCompatible lock.lockType need.2 = false ∧ Persists m t need.1 lock m'.directory

theorem Refused.imp {t : Nat} {m₁ m₂ : Main} {c : Issued} (h : Refused m t m₁ c)
    (hkept : ∀ {path lock}, Persists m t path lock m₁.directory →
      Persists m t path lock m₂.directory) : Refused m t m₂ c := by
  refine ⟨h.1, fun u hu => ?_⟩
  obtain ⟨hother, need, hneed, lock, hlock, howner, hincompatible, hpersists⟩ := h.2 u hu
  exact ⟨hother, need, hneed, lock, hlock, howner, hincompatible, hkept hpersists⟩

/-- What is known of the state during the passes. -/
structure Passing (m : Main) (t : Nat) (m' : Main) : Prop where
  contending : Contending m t m'
  isOpen : Open m'
  sorted : m'.pending.Pairwise fun c c' => c.line < c'.line

/-- Under the guard a command that is pending behind a refused one of its transaction is
refused as well. -/
theorem Passing.refused_newer {t u : Nat} (hI : Passing m t m') {c c' : Issued}
    {access : Access} (hlive : m'.Live c' u access) (hc : Refused m t m' c)
    (hlabel : m.transactionOf c.command.txnLabel = some u)
    (allowed : Guarded Directory.call Allowed m'.directory (m'.executeCalls c'))
    (guard : m.StaysRefused t u c'.command ∨ m.RefusedTogether t u c.command c'.command) :
    (m'.executeCommand c' true).1 = false := by
  rcases guard with ⟨need, hneed, lock, hlock, hother, hkeeps⟩ | htogether
  · have hpersists := hI.contending.contested.stays hlock
    exact hI.contending.kept_out hlive allowed hneed hother hpersists hkeeps
  · obtain ⟨_, need, hneed, lock, hlock, hother, hincompatible, hpersists⟩ := hc.2 u hlabel
    obtain ⟨need', hneed', hpath, hkeeps⟩ := htogether need hneed lock hlock hother hincompatible
    rw [← hpath] at hpersists hkeeps
    exact hI.contending.kept_out hlive allowed hneed' hother hpersists hkeeps

/-- Under the guard no pass executes a command past an older one of its transaction. -/
theorem overtakes_oldest (h : Prepared m) {t : Nat} (ht : m.transactionOf cmd.txnLabel = some t)
    (hop : cmd.op = .commit ∨ cmd.op = .abort) (guard : OrderGuard m cmd) :
    Overtakes Allowed (Passing m t) (Refused m t) Oldest where
  quiet := fun hI hcont hask allowed =>
    ⟨known_contending.quiet hI.contending hcont hask allowed, hI.isOpen.continues hcont,
      hI.sorted.sublist hcont.pending⟩
  trial := fun {m' c} hI hc hactive allowed =>
    have hcont := continues_executeCommand m' c true
    ⟨known_contending.trial hI.contending hc hactive allowed, hI.isOpen.continues hcont,
      hI.sorted.sublist hcont.pending⟩
  kept := fun hI hcont hask allowed hrefused => hrefused.imp fun hpersists =>
    hcont.directory ▸ hpersists.quiet hI.contending.contested.sound allowed hask hcont.running
  keptByTrial := fun hI hc _ allowed _ hrefused => hrefused.imp fun hpersists =>
    hI.contending.persists_trial hc allowed hpersists
  keptByExecution := fun hI hc _ allowed _ hrefused => hrefused.imp fun hpersists =>
    hI.contending.persists_trial hc allowed hpersists
  failed := by
    intro m' c hI hc hactive allowed failed
    obtain ⟨u, access, hlive⟩ := hI.contending.live h.accesses hc hactive
    obtain ⟨hother, hlabel⟩ := hI.contending.transactionOf_iff.mp hlive.transactionOf
    refine ⟨hI.contending.pending hc, fun u' hu' => ?_⟩
    obtain rfl := Option.some.inj (hlabel.symm.trans hu')
    obtain ⟨need, hneed, lock, hlock, howner, hincompatible, hpersists⟩ :=
      hI.contending.failed hlive (hI.isOpen u hlive.active) allowed failed
    exact ⟨hother, need, hneed, lock, hlock, howner, hincompatible,
      hI.contending.persists_trial hc allowed hpersists⟩
  executed := by
    intro m' c skipped todo hI hwaits hactive allowed executed hskipped c' hc' hcurrent howner
    by_contra hnewer
    rw [Nat.not_le] at hnewer
    have hc : c ∈ m'.pending := hwaits ▸ List.mem_append_right _ List.mem_cons_self
    have hsorted := hI.sorted
    rw [hwaits, List.pairwise_append, List.pairwise_cons] at hsorted
    -- an older command is one that the pass has skipped
    have hold : c' ∈ skipped := by
      rcases List.mem_append.mp hc' with hold | hrest
      · exact hold
      · rcases List.mem_cons.mp hrest with rfl | hlater
        · exact absurd hnewer (Nat.lt_irrefl _)
        · exact absurd (hsorted.2.1.1 c' hlater) (Nat.lt_asymm hnewer)
    have hrefused := hskipped c' hold
    obtain ⟨u, access, hlive⟩ := hI.contending.live h.accesses hc hactive
    obtain ⟨hother, hlabel⟩ := hI.contending.transactionOf_iff.mp hlive.transactionOf
    have hlabel' : m.transactionOf c'.command.txnLabel = some u := by
      obtain ⟨o, ho⟩ := Option.ne_none_iff_exists'.mp hcurrent
      have hqueue := h.orderly.queue
      have hid := hqueue.labelled c (hI.contending.pending hc) o ho
      have hid' := hqueue.labelled c' hrefused.1 o (howner.trans ho)
      rw [transactionOf, hid', ← hid, ← transactionOf]
      exact hlabel
    have hnewerRefused := hI.refused_newer hlive hrefused hlabel' allowed
      (guard hop t ht c' hrefused.1 c (hI.contending.pending hc) hnewer u hlabel' hlabel hother)
    rw [hnewerRefused] at executed
    cases executed

theorem completeMeets_oldest (h : Prepared m) (outcome : Outcome) (hop : cmd.op = outcome.op)
    (guard : OrderGuard m cmd)
    (allowed : Guarded Directory.call Allowed m.directory (m.completeCalls cmd outcome)) :
    CompleteMeets Oldest m cmd outcome := by
  intro t label active
  have hcommand : cmd.op = .commit ∨ cmd.op = .abort := by
    rw [hop]
    cases outcome <;> simp [Outcome.op]
  rw [(complete_active outcome label active).2] at allowed
  have ht := transactionOf_eq_some.mpr ⟨label, active⟩
  have hstart : Passing m t (m.ended cmd outcome t) := by
    obtain ⟨txn, htxn⟩ := m.tm.isTransactionActive_iff.mp active
    have hids : Ids (m.ended cmd outcome t) :=
      (h.ids.step (.finish htxn) trivial).step (.print _) trivial
    exact ⟨contending_ended h.sound h.fits outcome t cmd, hids.isOpen, h.sorted⟩
  exact ((overtakes_oldest h ht hcommand guard).loop _ [] _ hstart allowed.2).1

theorem meets_oldest (h : Prepared m) (guard : OrderGuard m cmd)
    (allowed : Guarded Directory.call Allowed m.directory (m.handleCalls cmd)) :
    Meets Oldest m cmd := by
  rw [Meets]
  rw [handleCalls] at allowed
  revert allowed
  cases hop : cmd.op with
  | read | write => exact fun _ => submitMeets_oldest h
  | commit => exact fun allowed => completeMeets_oldest h .commit hop guard allowed
  | abort => exact fun allowed => completeMeets_oldest h .abort hop guard allowed
  | _ => exact fun _ => trivial

/-! ## Runs -/

/-- A new command is the last in the queue. -/
theorem sorted_handle (h : Prepared m) :
    (m.handle cmd).pending.Pairwise fun c c' => c.line < c'.line := by
  have hinv : (Serials (m.handle cmd) ∧ Queue (m.handle cmd)) ∧
      (m.handle cmd).pending.Pairwise fun c c' => c.line < c'.line := by
    refine (m.handle_reaches_any cmd).invariant
      (I := fun m' => (Serials m' ∧ Queue m') ∧
        m'.pending.Pairwise fun c c' => c.line < c'.line) ?_
      ⟨⟨h.orderly.serials, h.orderly.queue⟩, h.sorted⟩
    rintro m₁ m₂ a hs hby ⟨hqueue, hsorted⟩
    refine ⟨h.orderly.during_step hs hby hqueue, ?_⟩
    cases a with
    | issue c =>
        cases hs
        refine List.pairwise_append.mpr ⟨hsorted, List.pairwise_singleton _ _, ?_⟩
        intro c hc c' hc'
        rw [List.mem_singleton.mp hc']
        exact hqueue.2.pending_lt c hc
    | _ => exact hsorted.sublist (hs.shrinks (fun c heq => by cases heq)).1
  exact hinv.2

theorem inOrder_handle (h : Orderly m) (horder : InOrder m.trace)
    (hmeets : Meets Oldest m cmd) : InOrder (m.handle cmd).trace := by
  have hinv : (Serials (m.handle cmd) ∧ Queue (m.handle cmd)) ∧ InOrder (m.handle cmd).trace := by
    refine (m.handle_reaches cmd hmeets).invariant
      (I := fun m' => (Serials m' ∧ Queue m') ∧ InOrder m'.trace) ?_
      ⟨⟨h.serials, h.queue⟩, horder⟩
    rintro m₁ m₂ a hs hby ⟨hqueue, horder'⟩
    refine ⟨h.during_step hs hby hqueue, ?_⟩
    cases a with
    | execute c =>
        obtain ⟨op, hexec⟩ := hs.executes
        exact hexec.inOrder hqueue.2 hby horder'
    | _ => exact hs.inOrder (fun c heq => by cases heq) horder'
  exact hinv.2

theorem Prepared.handle (h : Prepared m)
    (hroom : cmd.op = .begin → m.tm.nextTransactionId + 1 < 2 ^ 32)
    (allowed : Guarded Directory.call Allowed m.directory (m.handleCalls cmd)) :
    Prepared (m.handle cmd) where
  orderly := h.orderly.handle cmd
  ids := handle_invariant_of_room (fun hs hroom hids => hids.step hs hroom) hroom h.ids
  listed := handle_invariant_of_room (fun hs hroom hlisted => hlisted.step hs hroom) hroom h.listed
  sound := m.directory_handle cmd ▸ h.sound.run allowed
  fits := by
    have hfit : (m.handle cmd).directory.lockMgr.table.Compatible Fits := by
      rw [directory_handle]
      exact compatible_run h.fits
    exact hfit
  accesses := accesses_handle h.accesses cmd
  sorted := sorted_handle h

theorem prepared_init (env : Environment) : Prepared (init env) where
  orderly := orderly_init env
  ids := ids_init env
  listed := listed_init env
  sound := sound_init env
  fits := LockManager.compatible_empty env.alloc
  accesses := List.forall_mem_nil _
  sorted := List.Pairwise.nil

/-- A run in which every COMMIT and ABORT meets the guard in the state before it executes
the commands of every transaction in order. -/
theorem executed_in_order (env : Environment) (input : List Command)
    (fewBegins : FewBegins input) (fewResources : FewResources env input)
    (h : Guarded handle OrderGuard (init env) (beforeExit input)) :
    InOrder (after env input).trace := by
  have allowed := guarded_handleCalls input (init env) (allowed_calls fewResources)
  have guarded := (guarded_of_fewBegins env fewBegins).and (allowed.and h)
  rw [after_eq_run]
  have hinv := guarded.invariant (I := fun m => Prepared m ∧ InOrder m.trace)
    (fun m cmd hm hg => ⟨hm.1.handle hg.1 hg.2.1,
      inOrder_handle hm.1.orderly hm.2 (meets_oldest hm.1 hg.2.2 hg.2.1)⟩)
    ⟨prepared_init env, Arrivals.each_nil⟩
  exact hinv.2

/-- Two commands of T2 wait for the record that T1 wrote, and go through when T1
commits. -/
def resumedInOrder : List Command :=
  [{ op := .begin, txnLabel := ['T', '1'] }, { op := .begin, txnLabel := ['T', '2'] },
    { op := .write, txnLabel := ['T', '1'], resourceName := ['A'], value := 5 },
    { op := .write, txnLabel := ['T', '2'], resourceName := ['A'], value := 6 },
    { op := .read, txnLabel := ['T', '2'], resourceName := ['A'] },
    { op := .commit, txnLabel := ['T', '1'] }]

theorem executed_in_order_resumed : InOrder (after ⟨[], [], []⟩ resumedInOrder).trace :=
  executed_in_order ⟨[], [], []⟩ resumedInOrder (by decide) (by decide) (by decide)

/-- The WRITE of T2 waits for T1, and its READ of another record waits behind it
when T3 commits. -/
def overtaken : List Command :=
  [{ op := .begin, txnLabel := ['T', '1'] }, { op := .begin, txnLabel := ['T', '2'] },
    { op := .begin, txnLabel := ['T', '3'] },
    { op := .write, txnLabel := ['T', '1'], resourceName := ['A'], value := 5 },
    { op := .write, txnLabel := ['T', '2'], resourceName := ['A'], value := 6 },
    { op := .read, txnLabel := ['T', '2'], resourceName := ['B'] },
    { op := .commit, txnLabel := ['T', '3'] }]

/-- The READ, number 2, is executed before the WRITE, number 1. -/
theorem executed_in_order_fails : ¬ InOrder (after ⟨[], [], []⟩ overtaken).trace := by
  intro h
  have hsplit : (after ⟨[], [], []⟩ overtaken).trace =
      (after ⟨[], [], []⟩ overtaken).trace.dropLast ++ .executed ⟨2, 2, 1, 2, .read, 0⟩ :: [] := by
    decide
  have hexecuted := h _ _ _ hsplit _ rfl 1 2 1 (by decide) (by decide) (by decide)
  revert hexecuted
  decide

end Main

end TxnEngine
