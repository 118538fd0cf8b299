import TxnEngine.Main.Transactions

/-!
# Atomicity of abort

ABORT and RECOVER leave the writes of an aborted transaction in place.  So a
record has the value of its last surviving WRITE only as long as every
transaction that is aborted has left each record that it wrote with the value
from before its first WRITE (`NothingToUndo`).  Runs in which this holds are
atomic in every state between commands (`abort_atomic`), and the smallest run in
which it does not is not (`abort_atomic_fails`).

The invariant is `Settled`: the writes on a record are those of transactions
that are over, which the surviving ones account for, and then those of at most
one current transaction.  It rests on the locks, since a transaction that has
written a record keeps the others from writing it.
-/

namespace TxnEngine

open Std Runs Schedule

/-- The WRITEs on a record, in the order in which they were executed. -/
def writesOn (trace : List Event) (id : Nat) : List Operation :=
  (operations trace).filter fun op => op.access = .write ∧ op.resourceId = id

/-- The value that WRITEs leave in a record. -/
def lastValue : Option Int32 → List Operation → Option Int32
  | value, [] => value
  | _, op :: writes => lastValue (some op.value) writes

/-- The transaction of the operation was not aborted. -/
def survives (trace : List Event) (op : Operation) : Bool := op.transaction ∉ aborted trace

/-- The value of a record before the first WRITE of a transaction on it. -/
def beforeImage (trace : List Event) (t : Nat × Nat) (id : Nat) : Option Int32 :=
  lastValue (initialValues trace id) ((writesOn trace id).takeWhile fun op => op.transaction ≠ t)

theorem mem_writesOn {trace : List Event} {id : Nat} {op : Operation} :
    op ∈ writesOn trace id ↔
      op ∈ operations trace ∧ op.access = .write ∧ op.resourceId = id := by
  rw [writesOn, List.mem_filter, decide_eq_true_eq]

theorem lastValue_append (value : Option Int32) (writes writes' : List Operation) :
    lastValue value (writes ++ writes') = lastValue (lastValue value writes) writes' := by
  induction writes generalizing value with
  | nil => rfl
  | cons op writes ih => exact ih (some op.value)

/-- A replay leaves the last value in every record that exists. -/
theorem replay_lastValue (id : Nat) : ∀ {operations : List Operation} {values values' : Values},
    replay Operation.exec values operations = some values' → (values id).isSome = true →
      values' id = lastValue (values id)
        (operations.filter fun op => op.access = .write ∧ op.resourceId = id)
  | [], _, _, h, _ => by
      cases h
      rfl
  | op :: operations, values, values', h, hsome => by
      obtain ⟨values₁, hexec, hrest⟩ := Option.bind_eq_some_iff.mp h
      cases haccess : op.access with
      | read =>
          rw [Operation.exec_read haccess] at hexec
          split at hexec
          · cases hexec
            rw [List.filter_cons_of_neg (by simp [haccess])]
            exact replay_lastValue id hrest hsome
          · cases hexec
      | write =>
          rw [Operation.exec_write haccess] at hexec
          cases hexec
          by_cases hid : op.resourceId = id
          · subst hid
            obtain ⟨old, hold⟩ := Option.isSome_iff_exists.mp hsome
            have hrest' := replay_lastValue op.resourceId hrest (by simp [hold])
            rw [List.filter_cons_of_pos (by simp [haccess]), lastValue, hrest']
            simp [hold]
          · rw [List.filter_cons_of_neg (by simp [hid])]
            have hrest' := replay_lastValue id hrest
            rw [Function.update_of_ne (Ne.symm hid)] at hrest'
            exact hrest' hsome

namespace Main

/-- Every record has the value of the last WRITE on it by a transaction that was
not aborted, and its initial value if there is none. -/
def Atomic (m : Main) : Prop :=
  ∀ id, m.resources.dataStore.valueAt id =
    lastValue (initialValues m.trace id) ((writesOn m.trace id).filter (survives m.trace))

/-- Every record that the transaction wrote has the value from before its first
WRITE. -/
def NothingWritten (m : Main) (t : Nat × Nat) : Prop :=
  ∀ op ∈ operations m.trace, op.transaction = t → op.access = .write →
    m.resources.dataStore.valueAt op.resourceId = beforeImage m.trace t op.resourceId

instance (m : Main) (t : Nat × Nat) : Decidable (NothingWritten m t) :=
  inferInstanceAs (Decidable (∀ op ∈ operations m.trace, _))

/-- If the command aborts transactions, they have left nothing written. -/
def NothingToUndo (m : Main) (cmd : Command) : Prop :=
  (cmd.op = .abort → ∀ id ∈ m.txnIds[cmd.txnLabel]?, m.tm.isTransactionActive id = true →
    NothingWritten m (id, m.serialOf id)) ∧
  (cmd.op = .recover → ∀ id ∈ m.tm.getActiveTransactionIds, NothingWritten m (id, m.serialOf id))

instance (m : Main) (cmd : Command) : Decidable (NothingToUndo m cmd) :=
  inferInstanceAs (Decidable ((_ → ∀ id ∈ m.txnIds[cmd.txnLabel]?, _ → _) ∧
    (_ → ∀ id ∈ m.tm.getActiveTransactionIds, _)))

/-! ## All writes -/

theorem writesOn_eq_nil {m : Main} (h : Valued m) {id : Nat}
    (hnone : m.resources.dataStore.valueAt id = none) : writesOn m.trace id = [] := by
  refine List.eq_nil_iff_forall_not_mem.mpr fun op hop => ?_
  obtain ⟨hmem, _, rfl⟩ := mem_writesOn.mp hop
  have hstored := h.stored op hmem
  rw [hnone] at hstored
  cases hstored

/-- A record has the value of the last WRITE on it, aborted or not. -/
theorem Valued.lastValue {m : Main} (h : Valued m) (id : Nat) :
    m.resources.dataStore.valueAt id =
      TxnEngine.lastValue (initialValues m.trace id) (writesOn m.trace id) := by
  cases hvalue : m.resources.dataStore.valueAt id with
  | none =>
      have hinit := h.created id
      rw [hvalue, Option.isSome_none] at hinit
      rw [writesOn_eq_nil h hvalue]
      exact (Option.isNone_iff_eq_none.mp (Option.isSome_eq_false_iff.mp hinit)).symm
  | some value =>
      rw [← hvalue]
      exact replay_lastValue id h.replays (by rw [h.created, hvalue]; rfl)

/-! ## The layers of a record -/

/-- The writes on a record: `earlier` ones of transactions that are over, and
`latest` ones of the transaction `t`. -/
structure Layers (m : Main) (id : Nat) (t : Nat × Nat) (earlier latest : List Operation) :
    Prop where
  writes : writesOn m.trace id = earlier ++ latest
  ended : ∀ op ∈ earlier, ¬ Current m op.transaction
  running : ∀ op ∈ latest, op.transaction = t ∧ Current m t
  settled : lastValue (initialValues m.trace id) (earlier.filter (survives m.trace)) =
    lastValue (initialValues m.trace id) earlier

/-- The writes on every record have two layers. -/
def Settled (m : Main) : Prop := ∀ id, ∃ t earlier latest, Layers m id t earlier latest

theorem settled_init (env : Environment) : Settled (init env) := by
  intro id
  refine ⟨(0, 0), [], [], rfl, ?_, ?_, rfl⟩
  · intro op hop
    cases hop
  · intro op hop
    cases hop

/-- The writes of current transactions survive. -/
theorem filter_survives_latest {m : Main} {t : Nat × Nat} {latest : List Operation}
    (hrunning : ∀ op ∈ latest, op.transaction = t) (ht : t ∉ aborted m.trace) :
    latest.filter (survives m.trace) = latest := by
  refine List.filter_eq_self.mpr fun op hop => ?_
  rw [survives, hrunning op hop]
  exact decide_eq_true ht

/-- In a settled state the surviving writes account for the values. -/
theorem Settled.atomic {m : Main} (h : Settled m) (hvalued : Valued m) (hserials : Serials m) :
    Atomic m := by
  intro id
  obtain ⟨t, earlier, latest, hlayers⟩ := h id
  have hlatest : latest.filter (survives m.trace) = latest := by
    refine List.filter_eq_self.mpr fun op hop => ?_
    obtain ⟨heq, hcur⟩ := hlayers.running op hop
    rw [survives, heq]
    exact decide_eq_true fun hab => hserials.ended _ _ _ (mem_aborted.mp hab) hcur
  rw [hvalued.lastValue, hlayers.writes, List.filter_append, hlatest, lastValue_append,
    lastValue_append, hlayers.settled]

/-! ## What keeps a state settled -/

/-- The surviving ones among the writes of transactions that are over stay the
same. -/
theorem filter_survives_earlier {m m' : Main} {a : Act} (hs : Step m a m')
    {earlier : List Operation} (hover : ∀ op ∈ earlier, ¬ Current m op.transaction) :
    earlier.filter (survives m'.trace) = earlier.filter (survives m.trace) := by
  refine List.filter_congr fun op hop => ?_
  have hiff : op.transaction ∈ aborted m'.trace ↔ op.transaction ∈ aborted m.trace := by
    constructor
    · intro hab
      rcases hs.completes (mem_aborted.mp hab) with hold | ⟨hcur, _⟩
      · exact mem_aborted.mpr hold
      · exact absurd hcur (hover op hop)
    · exact fun hab => mem_aborted.mpr (hs.event_mono (mem_aborted.mp hab))
  rw [survives, survives]
  simp only [hiff]

/-- The latest writes join the earlier ones when their transaction is over. -/
theorem Layers.close {m m' : Main} {a : Act} {id : Nat} {t : Nat × Nat}
    {earlier latest : List Operation} (h : Layers m id t earlier latest) (hs : Step m a m')
    (hvalued : Valued m) (hcur : Current m t) (hover : ¬ Current m' t)
    (hsame : ∀ op ∈ operations m.trace, Current m' op.transaction → Current m op.transaction)
    (hops : operations m'.trace = operations m.trace)
    (hinit : initialValues m'.trace id = initialValues m.trace id)
    (hundo : t ∈ aborted m'.trace → NothingWritten m t) :
    Layers m' id t (earlier ++ latest) [] := by
  have hwrites : writesOn m'.trace id = earlier ++ latest := by
    rw [writesOn, hops]
    exact h.writes
  have hbefore := filter_survives_earlier hs h.ended
  have hmem : ∀ op ∈ earlier ++ latest, op ∈ operations m.trace := by
    intro op hop
    rw [← h.writes] at hop
    exact (mem_writesOn.mp hop).1
  constructor
  case writes => rw [hwrites, List.append_nil]
  case ended =>
    intro op hop hcur'
    rcases List.mem_append.mp hop with hearly | hlate
    · exact h.ended op hearly (hsame op (hmem op hop) hcur')
    · rw [(h.running op hlate).1] at hcur'
      exact hover hcur'
  case running =>
    intro op hop
    cases hop
  case settled =>
    rw [hinit, List.filter_append, hbefore]
    cases latest with
    | nil => rw [List.filter_nil, List.append_nil, List.append_nil, h.settled]
    | cons op latest =>
        by_cases hab : t ∈ aborted m'.trace
        · -- the writes do not survive, so they must have restored the value
          have hgone : (op :: latest).filter (survives m'.trace) = [] := by
            refine List.filter_eq_nil_iff.mpr fun op' hop' => ?_
            rw [survives, (h.running op' hop').1]
            simpa using hab
          have himage : beforeImage m.trace t id =
              lastValue (initialValues m.trace id) earlier := by
            have htake : (earlier ++ op :: latest).takeWhile (fun op => op.transaction ≠ t) =
                earlier := by
              rw [List.takeWhile_append_of_pos, List.takeWhile_cons_of_neg, List.append_nil]
              · simp [(h.running op List.mem_cons_self).1]
              · intro op' hop'
                refine decide_eq_true fun heq => h.ended op' hop' ?_
                rw [heq]
                exact hcur
            rw [beforeImage, h.writes, htake]
          obtain ⟨hop, hwrite, hid⟩ := mem_writesOn.mp (h.writes ▸
            List.mem_append_right earlier List.mem_cons_self)
          have hvalue := hundo hab op hop (h.running op List.mem_cons_self).1 hwrite
          rw [hid, himage, hvalued.lastValue, h.writes] at hvalue
          rw [hgone, List.append_nil, h.settled, hvalue]
        · have hkept : (op :: latest).filter (survives m'.trace) = op :: latest :=
            filter_survives_latest (fun op' hop' => (h.running op' hop').1) hab
          rw [hkept, lastValue_append, lastValue_append, h.settled]

/-- Layers last while their transaction does. -/
theorem Layers.keep {m m' : Main} {a : Act} {id : Nat} {t : Nat × Nat}
    {earlier latest : List Operation} (h : Layers m id t earlier latest) (hs : Step m a m')
    (hcur : ∀ op ∈ latest, Current m' t)
    (hsame : ∀ op ∈ operations m.trace, Current m' op.transaction → Current m op.transaction)
    (hops : operations m'.trace = operations m.trace)
    (hinit : initialValues m'.trace id = initialValues m.trace id) :
    Layers m' id t earlier latest where
  writes := by
    rw [writesOn, hops]
    exact h.writes
  ended := by
    intro op hop hcur'
    have hmem : op ∈ writesOn m.trace id := h.writes ▸ List.mem_append_left latest hop
    exact h.ended op hop (hsame op (mem_writesOn.mp hmem).1 hcur')
  running := fun op hop => ⟨(h.running op hop).1, hcur op hop⟩
  settled := by rw [hinit, filter_survives_earlier hs h.ended, h.settled]

/-- The initial value of a record that was written is known for good. -/
theorem initialValues_step {m m' : Main} {a : Act} (hs : Step m a m') (h : Valued m)
    {op : Operation} {id : Nat} (hop : op ∈ writesOn m.trace id) :
    initialValues m'.trace id = initialValues m.trace id := by
  obtain ⟨hmem, _, rfl⟩ := mem_writesOn.mp hop
  obtain ⟨events, htrace⟩ := hs.trace
  have hsome := (h.created op.resourceId).trans (h.stored op hmem)
  rw [htrace, initialValues_append, Option.or_of_isSome hsome]

/-- A step that executes nothing keeps the state settled, if the transactions
that it aborts have left nothing written. -/
theorem Settled.move {m m' : Main} {a : Act} (h : Settled m) (hs : Step m a m')
    (hexecute : ∀ c, a ≠ .execute c) (hvalued : Valued m) (hserials : Serials m)
    (hundo : ∀ t ∈ aborted m'.trace, Current m t → NothingWritten m t) : Settled m' := by
  intro id
  obtain ⟨t, earlier, latest, hlayers⟩ := h id
  have hops := hs.operations hexecute
  have hsame : ∀ op ∈ operations m.trace, Current m' op.transaction →
      Current m op.transaction :=
    fun op hop => hs.was_current (hserials.op_lt op hop)
  cases hwrites : writesOn m.trace id with
  | nil =>
      refine ⟨t, [], [], ?_, ?_, ?_, rfl⟩
      · rw [writesOn, hops]
        exact hwrites
      · intro op hop
        cases hop
      · intro op hop
        cases hop
  | cons first rest =>
      have hinit := initialValues_step hs hvalued (hwrites ▸ List.mem_cons_self)
      by_cases hkeep : ∀ op ∈ latest, Current m' t
      · exact ⟨t, earlier, latest, hlayers.keep hs hkeep hsame hops hinit⟩
      · obtain ⟨op, hop, hover⟩ := not_forall₂.mp hkeep
        have hcur := (hlayers.running op hop).2
        exact ⟨t, earlier ++ latest, [],
          hlayers.close hs hvalued hcur hover hsame hops hinit fun hab => hundo t hab hcur⟩

/-- Whoever has written a record and is still current is the one that is granted
its next WRITE. -/
theorem Executes.writer {m m' : Main} {c : Issued} {op op' : Operation}
    (h : Executes m m' c op) (hlocking : Locking m)
    (hserials : Serials m) (hop' : op' ∈ writesOn m.trace op.resourceId)
    (hcur : Current m op'.transaction) : op'.transaction = op.transaction := by
  obtain ⟨hmem, hwrite', hid⟩ := mem_writesOn.mp hop'
  have hrequested := hlocking.requested op.transactionId op.resourceId op.access.mode
  have hheld := hrequested.holds op' hmem fun hdone =>
    hserials.locked op' hmem hcur (m.lockMgr.mem_requestLock_completed.mp hdone)
  by_contra hne
  refine hheld.not_conflict (holds_of_granted op h.granted) hrequested.compatible ?_
    ⟨hid, Or.inl hwrite'⟩
  exact fun heq => hne (hcur.unique h.current heq)

theorem Executes.writesOn {m m' : Main} {c : Issued} {op : Operation} (h : Executes m m' c op)
    (id : Nat) : writesOn m'.trace id = TxnEngine.writesOn m.trace id ++
      if op.access = .write ∧ op.resourceId = id then [op] else [] := by
  rw [TxnEngine.writesOn, h.operations, List.filter_append]
  refine congrArg _ ?_
  split
  · next hnew => exact List.filter_cons_of_pos (by simpa using hnew)
  · next hother => exact List.filter_cons_of_neg (by simpa using hother)

/-- An executed command keeps the state settled: a WRITE joins the latest ones of
its record. -/
theorem Settled.execute {m m' : Main} {c : Issued} (h : Settled m) (hs : Step m (.execute c) m')
    (hlocking : Locking m) (hserials : Serials m) : Settled m' := by
  obtain ⟨op, hexec⟩ := hs.executes
  have hcur : ∀ t, Current m' t ↔ Current m t := fun t => Current.congr hexec.tm
  have hinit : initialValues m'.trace = initialValues m.trace := by
    ext1 id
    rw [hexec.trace, initialValues_append]
    exact Option.or_none
  intro id
  obtain ⟨t, earlier, latest, hlayers⟩ := h id
  have hwrites := hexec.writesOn id
  have hover : ∀ op' ∈ earlier, ¬ Current m' op'.transaction :=
    fun op' hop' => mt (hcur _).mp (hlayers.ended op' hop')
  have hsettled : lastValue (initialValues m'.trace id) (earlier.filter (survives m'.trace)) =
      lastValue (initialValues m'.trace id) earlier := by
    rw [hinit, filter_survives_earlier hs hlayers.ended, hlayers.settled]
  split at hwrites
  · next hnew =>
      obtain ⟨hwrite, rfl⟩ := hnew
      rw [hlayers.writes, List.append_assoc] at hwrites
      -- the latest writes are of the same transaction
      refine ⟨op.transaction, earlier, latest ++ [op], hwrites, hover, ?_, hsettled⟩
      intro op' hop'
      refine ⟨?_, (hcur _).mpr hexec.current⟩
      rcases List.mem_append.mp hop' with hlate | hlast
      · obtain ⟨heq, hrunning⟩ := hlayers.running op' hlate
        have hmem : op' ∈ TxnEngine.writesOn m.trace op.resourceId :=
          hlayers.writes ▸ List.mem_append_right earlier hlate
        exact hexec.writer hlocking hserials hmem (heq ▸ hrunning)
      · rw [List.mem_singleton.mp hlast]
  · rw [List.append_nil, hlayers.writes] at hwrites
    refine ⟨t, earlier, latest, hwrites, hover, ?_, hsettled⟩
    intro op' hop'
    obtain ⟨heq, hrunning⟩ := hlayers.running op' hop'
    exact ⟨heq, (hcur t).mpr hrunning⟩

/-! ## Runs -/

/-- What holds along a run that has nothing to undo. -/
structure Restored (m : Main) : Prop where
  valued : Valued m
  locking : Locking m
  serials : Serials m
  settled : Settled m

theorem restored_init (env : Environment) : Restored (init env) :=
  ⟨valued_init env, locking_init env, serials_init env, settled_init env⟩

/-- The transactions that a command with nothing to undo aborts. -/
theorem nothingWritten_of_aborted {start m m' : Main} {cmd : Command} {a : Act}
    (hs : Step m a m') (hby : By Any start cmd m a) (hundo : NothingToUndo start cmd)
    (hserials : Serials m) : ∀ t ∈ aborted m'.trace, Current m t → NothingWritten m t := by
  intro t ht hcur
  rcases hs.completes (mem_aborted.mp ht) with hold | ⟨_, _, rfl | ⟨rfl, _⟩⟩
  · exact absurd hcur (hserials.ended _ _ _ hold)
  · obtain ⟨rfl, hop, hlabel⟩ := hby
    have hactive := m.tm.isTransactionActive_iff.mpr
      (m.tm.mem_getActiveTransactionIds.mp hcur.mem_activeIds)
    have hwritten := hundo.1 hop t.1 hlabel hactive
    rw [hcur.serialOf] at hwritten
    exact hwritten
  · obtain ⟨rfl, hop⟩ := hby
    have hwritten := hundo.2 hop t.1 hcur.mem_activeIds
    rw [hcur.serialOf] at hwritten
    exact hwritten

/-- One step of a command that has nothing to undo. -/
theorem Restored.step {start m m' : Main} {cmd : Command} {a : Act} (hs : Step m a m')
    (hby : By Any start cmd m a) (hundo : NothingToUndo start cmd) (h : Restored m) :
    Restored m' := by
  refine ⟨h.valued.step hs, h.locking.step hs, h.serials.step hs, ?_⟩
  have hwritten := nothingWritten_of_aborted hs hby hundo h.serials
  cases a with
  | execute c => exact h.settled.execute hs h.locking h.serials
  | _ => exact h.settled.move hs (fun c heq => by cases heq) h.valued h.serials hwritten

theorem Restored.handle {m : Main} {cmd : Command} (h : Restored m)
    (hundo : NothingToUndo m cmd) : Restored (m.handle cmd) :=
  (m.handle_reaches_any cmd).invariant (fun hs hby hI => hI.step hs hby hundo) h

/-- A run whose ABORTs and RECOVERs have nothing to undo is atomic in every state
between commands. -/
theorem abort_atomic (env : Environment) (input : List Command)
    (h : Guarded Main.handle NothingToUndo (init env) (beforeExit input)) :
    Always Main.handle Atomic (init env) (beforeExit input) := by
  intro input' hprefix
  have hrestored : Restored (run Main.handle (init env) input') :=
    (h.of_prefix hprefix).invariant (fun m cmd hm hundo => hm.handle hundo) (restored_init env)
  exact hrestored.settled.atomic hrestored.valued hrestored.serials

/-- T1 overwrites the 10 in A, writes it back and aborts. -/
def restoredWrite : List Command :=
  [{ op := .begin, txnLabel := ['T', '1'] },
    { op := .write, txnLabel := ['T', '1'], resourceName := ['A'], value := 5 },
    { op := .write, txnLabel := ['T', '1'], resourceName := ['A'], value := 10 },
    { op := .abort, txnLabel := ['T', '1'] }]

theorem abort_atomic_restoredWrite :
    Always Main.handle Atomic (init ⟨[], [], []⟩) (beforeExit restoredWrite) :=
  abort_atomic ⟨[], [], []⟩ restoredWrite (by decide)

/-- T1 overwrites the 10 in A and aborts. -/
def lostImage : List Command :=
  [{ op := .begin, txnLabel := ['T', '1'] },
    { op := .write, txnLabel := ['T', '1'], resourceName := ['A'], value := 5 },
    { op := .abort, txnLabel := ['T', '1'] }]

/-- A still has the value that the aborted transaction wrote. -/
theorem abort_atomic_fails :
    ¬ Always Main.handle Atomic (init ⟨[], [], []⟩) (beforeExit lostImage) := by
  intro h
  have hvalue := h.last 1
  revert hvalue
  decide

end Main

end TxnEngine
