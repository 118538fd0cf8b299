import TxnEngine.Main.Pending

/-!
# What a COMMIT leaves undone

COMMIT does not look at the pending commands.  It loses none exactly when no
command that was accepted for its transaction waits, and the runs that lose no
command are exactly those whose COMMITs are all like that
(`commits_lose_nothing_iff`).
-/

namespace TxnEngine

open Std Runs

/-- Every command that was accepted for a transaction is gone by the time the
transaction is committed. -/
def NoneLost (trace : List Event) : Prop :=
  Arrivals.Each (fun before event => ∀ id serial, event = .completed id serial .commit →
    ∀ line, Event.issued line id serial ∈ before → Gone before line) trace

namespace Main

/-- If the command commits a transaction, no command accepted for it waits. -/
def NoneWaits (m : Main) (cmd : Command) : Prop :=
  cmd.op = .commit → ∀ id ∈ m.txnIds[cmd.txnLabel]?, m.tm.isTransactionActive id = true →
    ∀ c ∈ m.pending, c.owner ≠ some (id, m.serialOf id)

/-- Only the end of a transaction that commits can lose commands. -/
theorem Step.noneLost {m m' : Main} {a : Act} (h : Step m a m')
    (hcommit : ∀ txnId, a ≠ .finish txnId .commit) :
    NoneLost m'.trace ↔ NoneLost m.trace := by
  have hadd : ∀ {events : List Event}, (∀ id serial, .completed id serial .commit ∉ events) →
      (NoneLost (m.trace ++ events) ↔ NoneLost m.trace) := by
    intro events hnone
    refine Arrivals.each_append_of fun event hevent before id serial heq => ?_
    rw [heq] at hevent
    exact absurd hevent (hnone id serial)
  cases h with
  | print | refuse | drop | checkpoint => exact Iff.rfl
  | create | begin => exact hadd (by simp)
  | @issue cmd =>
      refine hadd fun id serial => ?_
      cases m.ownerOf cmd.txnLabel <;> simp
  | execute access => cases access <;> exact hadd (by simp)
  | @finish txnId outcome =>
      cases outcome with
      | commit => exact absurd rfl (hcommit txnId)
      | abort => exact hadd (by simp)
  | recover => exact hadd (by simp [mem_recoverEvents])

/-- A commit loses the commands of its transaction that wait. -/
theorem noneLost_finish {m : Main} (h : Orderly m) {txnId : Nat}
    (hactive : m.tm.isTransactionActive txnId = true) :
    NoneLost (m.finish txnId .commit).trace ↔
      NoneLost m.trace ∧ ∀ c ∈ m.pending, c.owner ≠ some (txnId, m.serialOf txnId) := by
  have hcur := current_of_active hactive
  refine Arrivals.each_concat.trans (and_congr_right fun _ => ?_)
  constructor
  · intro hgone c hc howner
    have hissued := (h.queue.owned c hc _ _).mpr howner
    exact h.queue.waiting c hc (hgone _ _ rfl c.line hissued)
  · intro hnone id serial heq line hissued
    cases heq
    rcases h.queue.accounted line _ _ hissued with hexec | ⟨c, hc, _, howner⟩ | hidle | hover
    · exact Or.inl hexec
    · exact absurd howner (hnone c hc)
    · exact absurd hcur.mem_activeIds hidle
    · exact absurd hcur hover.1

/-- Trying the pending commands loses none. -/
theorem noneLost_processPending (m : Main) :
    NoneLost m.processPending.trace ↔ NoneLost m.trace := by
  have hquiet : Quiet fun (_ : Main) a => ∀ txnId, a ≠ .finish txnId .commit := by
    constructor
    case print | create | refuse =>
      intro m txnId heq
      cases heq
    case drop =>
      intro m c txnId heq
      cases heq
  have hreach := processPending_reaches (E := Any) hquiet
    (fun m c _ txnId heq => by cases heq) (m.loopMeets_any _ [])
  refine hreach.invariant (I := fun m' => NoneLost m'.trace ↔ NoneLost m.trace) ?_ Iff.rfl
  exact fun hs hne hI => (hs.noneLost hne).trans hI

theorem noneLost_handle {m : Main} (h : Orderly m) (cmd : Command) :
    NoneLost (m.handle cmd).trace ↔ NoneLost m.trace ∧ NoneWaits m cmd := by
  by_cases hop : cmd.op = .commit
  · have hhandle : m.handle cmd = m.complete cmd .commit := by rw [handle, hop]; rfl
    rw [hhandle]
    rcases m.complete_cases cmd .commit with
      ⟨⟨line, heq⟩, hinactive⟩ | ⟨txnId, txn, hlabel, hfound, heq⟩
    · rw [heq]
      refine (and_iff_left fun _ id hid hactive => ?_).symm
      exact Bool.noConfusion ((hinactive id hid).symm.trans hactive)
    · have hactive := m.tm.isTransactionActive_iff.mpr ⟨txn, hfound⟩
      rw [heq, noneLost_processPending]
      refine (noneLost_finish h hactive).trans (and_congr_right fun _ => ?_)
      constructor
      · intro hnone _ id hid _
        cases hlabel.symm.trans hid
        exact hnone
      · exact fun hwaits => hwaits hop txnId hlabel hactive
  · have hnone : NoneWaits m cmd := fun heq => absurd heq hop
    rw [and_iff_left hnone]
    refine (m.handle_reaches_any cmd).invariant
      (I := fun m' => NoneLost m'.trace ↔ NoneLost m.trace) (fun hs hby hI => ?_) Iff.rfl
    refine (hs.noneLost ?_).trans hI
    rintro txnId rfl
    exact hop hby.2.1

/-- The runs in which no COMMIT loses a command are exactly those in which every
COMMIT of an active transaction finds none of its commands waiting. -/
theorem commits_lose_nothing_iff (env : Environment) (input : List Command) :
    NoneLost (after env input).trace ↔
      Guarded handle NoneWaits (init env) (beforeExit input) := by
  rw [after_eq_run]
  refine (run_iff_guarded (I := Orderly) (P := fun m => NoneLost m.trace)
    (fun _ cmd h => h.handle cmd) (fun _ cmd h => noneLost_handle h cmd) _
    (orderly_init env)).trans ?_
  exact and_iff_right Arrivals.each_nil

/-- T2 commits while its WRITE waits for the lock of T1. -/
def lostWrite : List Command :=
  [{ op := .begin, txnLabel := ['T', '1'] }, { op := .begin, txnLabel := ['T', '2'] },
    { op := .write, txnLabel := ['T', '1'], resourceName := ['A'], value := 1 },
    { op := .write, txnLabel := ['T', '2'], resourceName := ['A'], value := 2 },
    { op := .commit, txnLabel := ['T', '2'] }]

/-- The WRITE of T2, number 1, was neither executed nor dropped by RECOVER. -/
theorem commits_lose_nothing_fails : ¬ NoneLost (after ⟨[], [], []⟩ lostWrite).trace := by
  intro h
  have hsplit : (after ⟨[], [], []⟩ lostWrite).trace =
      (after ⟨[], [], []⟩ lostWrite).trace.dropLast ++ .completed 2 1 .commit :: [] := by decide
  have hgone := h _ _ _ hsplit 2 1 rfl 1 (by decide)
  revert hgone
  decide

end Main

end TxnEngine
