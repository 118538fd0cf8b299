import TxnEngine.Main.Story
import TxnEngine.Main.Transactions
import TxnEngine.Recovery.Executions

/-!
# Sessions on one log

Every process hands out its ids from 1 again, and opens the log of the earlier
ones for append.  So one id may stand for a transaction of every session, and
recovery, which knows ids only, mixes them up.  It is right about executions
exactly when no id that a session commits was used by another execution that
wrote and did not commit, or that was left active (`recovery_sound_iff`).

What a session adds to the log is tallied id by id against what happened in the
session (`Appends`).
-/

namespace TxnEngine

open Std Runs

/-- What the environment and the user give to one process. -/
structure Session where
  alloc : List Nat
  clock : List Int
  input : List Command

namespace Session

/-- The variables of `main` at the end, on the log that the earlier sessions left. -/
def final (log : List LogRecord) (s : Session) : Main := Main.after ⟨s.alloc, s.clock, log⟩ s.input

/-- One more session: the log that it leaves, and its variables at the end. -/
def next (before : List LogRecord × List Main) (s : Session) : List LogRecord × List Main :=
  (Main.session ⟨s.alloc, s.clock, before.1⟩ s.input, before.2 ++ [s.final before.1])

/-- Sessions one after the other, on a new log. -/
def all (sessions : List Session) : List LogRecord × List Main := run next ([], []) sessions

end Session

namespace Main

/-! ## What happened to an id in a session -/

/-- The session committed a transaction under the id. -/
def CommitsId (m : Main) (id : Nat) : Prop :=
  ∃ serial, Event.completed id serial .commit ∈ m.trace

/-- The session used the id. -/
def BeginsId (m : Main) (id : Nat) : Prop := ∃ serial, Event.began id serial ∈ m.trace

/-- The operation is a WRITE of a transaction that the session did not commit. -/
def Lost (m : Main) (op : Operation) : Prop :=
  op.access = .write ∧ Event.completed op.transactionId op.serial .commit ∉ m.trace

/-- A transaction under the id wrote and was not committed. -/
def LosesId (m : Main) (id : Nat) : Prop :=
  ∃ op ∈ operations m.trace, op.transactionId = id ∧ Lost m op

/-- A session left the id active, and no later one used it or handled RECOVER. -/
def LeftActive (sessions : List Main) (id : Nat) : Prop :=
  ∃ before m later, sessions = before ++ m :: later ∧ id ∈ m.tm.getActiveTransactionIds ∧
    ∀ m' ∈ later, ¬ BeginsId m' id ∧ .recovered ∉ m'.trace

theorem leftActive_concat {sessions : List Main} {m : Main} {id : Nat} :
    LeftActive (sessions ++ [m]) id ↔ id ∈ m.tm.getActiveTransactionIds ∨
      LeftActive sessions id ∧ ¬ BeginsId m id ∧ .recovered ∉ m.trace := by
  constructor
  · rintro ⟨before, m', later, heq, hactive, hlater⟩
    rcases List.eq_nil_or_concat later with rfl | ⟨later', last, rfl⟩
    · obtain ⟨_, hlast⟩ := List.append_inj' heq rfl
      cases hlast
      exact Or.inl hactive
    · rw [List.concat_eq_append] at heq hlater
      have hsplit : sessions ++ [m] = (before ++ m' :: later') ++ [last] := by
        rw [heq, List.append_assoc]
        rfl
      obtain ⟨hsessions, hlast⟩ := List.append_inj' hsplit rfl
      cases hlast
      refine Or.inr ⟨⟨before, m', later', hsessions, hactive, fun m'' hm'' => ?_⟩, ?_⟩
      · exact hlater m'' (List.mem_append_left _ hm'')
      · exact hlater m (List.mem_append_right _ List.mem_cons_self)
  · rintro (hactive | ⟨⟨before, m', later, rfl, hactive, hlater⟩, hlast⟩)
    · exact ⟨sessions, m, [], rfl, hactive, fun m' hm' => by cases hm'⟩
    · refine ⟨before, m', later ++ [m], by rw [List.append_assoc]; rfl, hactive, fun m'' hm'' => ?_⟩
      rcases List.mem_append.mp hm'' with hin | hin
      · exact hlater m'' hin
      · rw [List.mem_singleton.mp hin]
        exact hlast

/-! ## What a session adds to the log -/

/-- The types of the records of an id so far. -/
def wordOf (m : Main) (id : Nat) : List LogType := typesOf m.logMgr.written id

/-- What the records of an id say, and what happened to the id in the session. -/
structure Appends (log : List LogRecord) (m : Main) (id : Nat) : Prop where
  commits : .commit ∈ m.wordOf id ↔ .commit ∈ typesOf log id ∨ CommitsId m id
  unsettled : (tally (m.wordOf id)).Unsettled ↔
    (tally (typesOf log id)).Unsettled ∨ LosesId m id
  opens : (m.wordOf id).foldl LogType.opens false = true ↔
    id ∈ m.tm.getActiveTransactionIds ∨ (typesOf log id).foldl LogType.opens false = true ∧
      ¬ BeginsId m id ∧ .recovered ∉ m.trace
  began : id ∈ m.tm.getActiveTransactionIds → BeginsId m id
  running : ∀ serial, Current m (id, serial) →
    ((tally (m.wordOf id)).unsettled = true ↔
      ∃ op ∈ operations m.trace, op.transaction = (id, serial) ∧ op.access = .write) ∧
    ((tally (m.wordOf id)).lost = true ↔ (tally (typesOf log id)).Unsettled ∨
      ∃ op ∈ operations m.trace, op.transactionId = id ∧ op.serial ≠ serial ∧ Lost m op)

theorem appends_init (alloc : List Nat) (clock : List Int) (log : List LogRecord) (id : Nat) :
    Appends log (init ⟨alloc, clock, log⟩) id := by
  have hword : (init ⟨alloc, clock, log⟩).wordOf id = typesOf log id :=
    congrArg (typesOf · id) (LogManager.written_openOn log)
  have hinactive : id ∉ (init ⟨alloc, clock, log⟩).tm.getActiveTransactionIds := List.not_mem_nil
  constructor
  case commits =>
    rw [hword, or_iff_left]
    rintro ⟨serial, hmem⟩
    cases hmem
  case unsettled =>
    rw [hword, or_iff_left]
    rintro ⟨op, hop, _⟩
    cases hop
  case opens =>
    rw [hword, or_iff_right hinactive, and_iff_left]
    refine ⟨?_, List.not_mem_nil⟩
    rintro ⟨serial, hmem⟩
    cases hmem
  case began => exact fun hactive => absurd hactive hinactive
  case running => exact fun serial hcur => absurd hcur.mem_activeIds hinactive

/-- What a step does not do to an id, the records and the history of the id do
not show. -/
structure Untouched (m m' : Main) (id : Nat) : Prop where
  commits : .commit ∈ m'.wordOf id ↔ .commit ∈ m.wordOf id
  tally : tally (m'.wordOf id) = tally (m.wordOf id)
  opens : (m'.wordOf id).foldl LogType.opens false = (m.wordOf id).foldl LogType.opens false
  current : ∀ serial, Current m' (id, serial) ↔ Current m (id, serial)
  writes : ∀ op, op.transactionId = id → op.access = .write →
    (op ∈ operations m'.trace ↔ op ∈ operations m.trace)
  completed : ∀ serial,
    Event.completed id serial .commit ∈ m'.trace ↔ Event.completed id serial .commit ∈ m.trace
  began : ∀ serial, Event.began id serial ∈ m'.trace ↔ Event.began id serial ∈ m.trace
  recovered : Event.recovered ∈ m'.trace ↔ Event.recovered ∈ m.trace

theorem Untouched.lost {m m' : Main} {id : Nat} (h : Untouched m m' id) {op : Operation}
    (hid : op.transactionId = id) : op ∈ operations m'.trace ∧ Lost m' op ↔
      op ∈ operations m.trace ∧ Lost m op := by
  subst hid
  rw [Lost, Lost, h.completed]
  constructor
  · rintro ⟨hop, hwrite, hnot⟩
    exact ⟨(h.writes op rfl hwrite).mp hop, hwrite, hnot⟩
  · rintro ⟨hop, hwrite, hnot⟩
    exact ⟨(h.writes op rfl hwrite).mpr hop, hwrite, hnot⟩

theorem mem_activeIds_iff {m : Main} {id : Nat} :
    id ∈ m.tm.getActiveTransactionIds ↔ ∃ serial, Current m (id, serial) :=
  ⟨fun h => ⟨_, current_of_mem_activeIds h⟩, fun ⟨_, h⟩ => h.mem_activeIds⟩

theorem Appends.untouched {log : List LogRecord} {m m' : Main} {id : Nat} (h : Appends log m id)
    (hsame : Untouched m m' id) : Appends log m' id := by
  have hbegins : BeginsId m' id ↔ BeginsId m id := exists_congr hsame.began
  have hactive : id ∈ m'.tm.getActiveTransactionIds ↔ id ∈ m.tm.getActiveTransactionIds := by
    rw [mem_activeIds_iff, mem_activeIds_iff]
    exact exists_congr hsame.current
  constructor
  case commits => exact hsame.commits.trans (h.commits.trans (or_congr_right
    (exists_congr fun serial => (hsame.completed serial).symm)))
  case unsettled =>
    rw [hsame.tally, h.unsettled]
    refine or_congr_right (exists_congr fun op => ?_)
    constructor
    · rintro ⟨hop, hid, hl⟩
      obtain ⟨hop', hl'⟩ := (hsame.lost hid).mpr ⟨hop, hl⟩
      exact ⟨hop', hid, hl'⟩
    · rintro ⟨hop, hid, hl⟩
      obtain ⟨hop', hl'⟩ := (hsame.lost hid).mp ⟨hop, hl⟩
      exact ⟨hop', hid, hl'⟩
  case opens => rw [hsame.opens, h.opens, hactive, hbegins, hsame.recovered]
  case began =>
    rw [hactive, hbegins]
    exact h.began
  case running =>
    intro serial hcur
    obtain ⟨hunsettled, hlost⟩ := h.running serial ((hsame.current serial).mp hcur)
    rw [hsame.tally, hunsettled, hlost]
    constructor
    · refine exists_congr fun op => and_congr_left fun ⟨htxn, hwrite⟩ => ?_
      exact (hsame.writes op (congrArg Prod.fst htxn) hwrite).symm
    · refine or_congr_right (exists_congr fun op => ?_)
      constructor
      · rintro ⟨hop, hid, hne, hl⟩
        obtain ⟨hop', hl'⟩ := (hsame.lost hid).mpr ⟨hop, hl⟩
        exact ⟨hop', hid, hne, hl'⟩
      · rintro ⟨hop, hid, hne, hl⟩
        obtain ⟨hop', hl'⟩ := (hsame.lost hid).mp ⟨hop, hl⟩
        exact ⟨hop', hid, hne, hl'⟩

/-! ## Steps that leave an id alone -/

/-- The event says nothing that matters to the id. -/
def Irrelevant (id : Nat) : Event → Prop
  | .executed op => op.transactionId = id → op.access = .read
  | .completed id' _ outcome => id' = id → outcome = .abort
  | .began id' _ => id' ≠ id
  | .recovered => False
  | _ => True

theorem untouched_of_events {m m' : Main} {id : Nat} {events : List Event}
    (hword : m'.wordOf id = m.wordOf id ∨ m'.wordOf id = m.wordOf id ++ [.checkpoint])
    (hcur : ∀ serial, Current m' (id, serial) ↔ Current m (id, serial))
    (htrace : m'.trace = m.trace ++ events) (hevents : ∀ event ∈ events, Irrelevant id event) :
    Untouched m m' id := by
  have hmem : ∀ event, ¬ Irrelevant id event → (event ∈ m'.trace ↔ event ∈ m.trace) := by
    intro event hrelevant
    rw [htrace, List.mem_append, or_iff_left fun hin => hrelevant (hevents event hin)]
  constructor
  case commits =>
    rcases hword with heq | heq
    · rw [heq]
    · simp [heq]
  case tally =>
    rcases hword with heq | heq
    · rw [heq]
    · rw [heq, tally_append_singleton]
      rfl
  case opens =>
    rcases hword with heq | heq
    · rw [heq]
    · rw [heq, List.foldl_concat]
      rfl
  case current => exact hcur
  case writes =>
    intro op hid hwrite
    rw [mem_operations, mem_operations]
    refine hmem _ fun hread => ?_
    rw [hread hid] at hwrite
    cases hwrite
  case completed =>
    intro serial
    refine hmem _ fun habort => ?_
    cases habort rfl
  case began => exact fun serial => hmem _ fun hne => hne rfl
  case recovered => exact hmem _ fun hfalse => hfalse

/-! ## The records of a step -/

theorem wordOf_start (m : Main) (txnLabel : Name) (id : Nat) : (m.start txnLabel).wordOf id =
    m.wordOf id ++ if m.tm.nextTransactionId = id then [.begin] else [] :=
  typesOf_writeLog _ _ id .begin

theorem wordOf_finish (m : Main) (txnId : Nat) (outcome : Outcome) (id : Nat) :
    (m.finish txnId outcome).wordOf id =
      m.wordOf id ++ if txnId = id then [outcome.logType] else [] :=
  typesOf_writeLog _ _ id _

theorem wordOf_checkpoint (m : Main) (id : Nat) :
    m.checkpoint.wordOf id = m.wordOf id ++ if 0 = id then [.checkpoint] else [] := by
  have hflush : m.checkpoint.logMgr.written = (m.writeLog 0 .checkpoint).logMgr.written :=
    LogManager.written_flushLogs _
  rw [wordOf, hflush]
  exact typesOf_writeLog m 0 id .checkpoint

/-! ## Steps that work on an id -/

/-- The same commits, and the same writes. -/
theorem lost_congr {m m' : Main} {op : Operation}
    (hcommits : ∀ id serial, Event.completed id serial .commit ∈ m'.trace ↔
      Event.completed id serial .commit ∈ m.trace) : Lost m' op ↔ Lost m op := by
  rw [Lost, Lost, hcommits]

theorem losesId_congr {m m' : Main} {id : Nat}
    (hcommits : ∀ id serial, Event.completed id serial .commit ∈ m'.trace ↔
      Event.completed id serial .commit ∈ m.trace)
    (hops : operations m'.trace = operations m.trace) : LosesId m' id ↔ LosesId m id := by
  rw [LosesId, LosesId, hops]
  simp only [lost_congr hcommits]

/-- BEGIN starts the next execution of its id. -/
theorem appends_start {log : List LogRecord} {m : Main} (hserials : Serials m)
    (h : Appends log m m.tm.nextTransactionId) (txnLabel : Name) :
    Appends log (m.start txnLabel) m.tm.nextTransactionId := by
  have hword : (m.start txnLabel).wordOf m.tm.nextTransactionId =
      m.wordOf m.tm.nextTransactionId ++ [.begin] := by rw [wordOf_start, if_pos rfl]
  have hops : operations (m.start txnLabel).trace = operations m.trace :=
    (operations_append _ _).trans (List.append_nil _)
  have hcommits : ∀ id serial, Event.completed id serial .commit ∈ (m.start txnLabel).trace ↔
      Event.completed id serial .commit ∈ m.trace := by
    intro id serial
    show _ ∈ m.trace ++ [_] ↔ _
    simp
  have hactive : m.tm.nextTransactionId ∈ (m.start txnLabel).tm.getActiveTransactionIds :=
    m.tm.mem_activeIds_begin.mpr (Or.inl rfl)
  constructor
  case commits =>
    rw [hword, CommitsId]
    simp only [hcommits, List.mem_append, List.mem_singleton, reduceCtorEq, or_false]
    exact h.commits
  case unsettled =>
    rw [hword, tally_append_singleton, losesId_congr hcommits hops, ← h.unsettled]
    exact Tally.unsettled_begin _
  case opens =>
    rw [hword, List.foldl_concat]
    exact iff_of_true rfl (Or.inl hactive)
  case began => exact fun _ => ⟨m.tm.begun, List.mem_append_right _ List.mem_cons_self⟩
  case running =>
    intro serial hcur
    obtain rfl : serial = m.tm.begun := by
      rcases current_start.mp hcur with heq | ⟨hne, _⟩
      · exact congrArg Prod.snd heq
      · exact absurd rfl hne
    have hnew : ∀ op ∈ operations m.trace, op.serial ≠ m.tm.begun :=
      fun op hop => Nat.ne_of_lt (hserials.op_lt op hop)
    rw [hword, tally_append_singleton, hops]
    constructor
    · refine iff_of_false (by simp [Tally.next]) ?_
      rintro ⟨op, hop, htxn, _⟩
      exact hnew op hop (congrArg Prod.snd htxn)
    · rw [Tally.lost_begin, h.unsettled]
      refine or_congr_right (exists_congr fun op => ?_)
      rw [lost_congr hcommits]
      constructor
      · rintro ⟨hop, hid, hl⟩
        exact ⟨hop, hid, hnew op hop, hl⟩
      · rintro ⟨hop, hid, _, hl⟩
        exact ⟨hop, hid, hl⟩

/-- An UPDATE is not settled until its transaction commits. -/
theorem appends_update {log : List LogRecord} {m m' : Main} {c : Issued} {op : Operation}
    (hserials : Serials m) (h : Appends log m op.transactionId) (hexec : Executes m m' c op)
    (hwrite : op.access = .write)
    (hword : m'.wordOf op.transactionId = m.wordOf op.transactionId ++ [.update]) :
    Appends log m' op.transactionId := by
  have hops := hexec.operations
  have hevent : ∀ event, (∀ op', event ≠ .executed op') →
      (event ∈ m'.trace ↔ event ∈ m.trace) := by
    intro event hne
    rw [hexec.trace, List.mem_append, or_iff_left fun hin => hne op (List.mem_singleton.mp hin)]
  have hcommits : ∀ id serial, Event.completed id serial .commit ∈ m'.trace ↔
      Event.completed id serial .commit ∈ m.trace := fun id serial => hevent _ (by simp)
  have hbegins : BeginsId m' op.transactionId ↔ BeginsId m op.transactionId :=
    exists_congr fun serial => hevent _ (by simp)
  have hlost : Lost m' op := by
    refine ⟨hwrite, fun hmem => ?_⟩
    exact hserials.ended _ _ _ ((hcommits _ _).mp hmem) hexec.current
  have hmem : op ∈ operations m'.trace := hops ▸ List.mem_append_right _ List.mem_cons_self
  constructor
  case commits =>
    rw [hword, CommitsId]
    simp only [hcommits, List.mem_append, List.mem_singleton, reduceCtorEq, or_false]
    exact h.commits
  case unsettled =>
    rw [hword, tally_append_singleton]
    exact iff_of_true (Tally.unsettled_update _) (Or.inr ⟨op, hmem, rfl, hlost⟩)
  case opens =>
    rw [hword, List.foldl_concat, hexec.tm, hbegins, hevent .recovered (by simp)]
    exact h.opens
  case began =>
    rw [hexec.tm, hbegins]
    exact h.began
  case running =>
    intro serial hcur
    have hserial : op.serial = serial :=
      congrArg Prod.snd (hexec.current.unique ((Current.congr hexec.tm).mp hcur) rfl)
    have hold := (h.running serial ((Current.congr hexec.tm).mp hcur)).2
    rw [hword, tally_append_singleton]
    constructor
    · exact iff_of_true rfl ⟨op, hmem, Prod.ext rfl hserial, hwrite⟩
    · refine hold.trans (or_congr_right (exists_congr fun op' => ?_))
      rw [hops, List.mem_append, List.mem_singleton, lost_congr hcommits]
      constructor
      · exact fun hin => ⟨Or.inl hin.1, hin.2⟩
      · rintro ⟨hin | rfl, hid, hne, hl⟩
        · exact ⟨hin, hid, hne, hl⟩
        · exact absurd hserial hne

/-- An id that is not active has no execution that could go on. -/
theorem appends_over {log : List LogRecord} {m : Main} {id : Nat}
    (hcommits : .commit ∈ m.wordOf id ↔ .commit ∈ typesOf log id ∨ CommitsId m id)
    (hunsettled : (tally (m.wordOf id)).Unsettled ↔
      (tally (typesOf log id)).Unsettled ∨ LosesId m id)
    (hclosed : (m.wordOf id).foldl LogType.opens false = false)
    (hinactive : id ∉ m.tm.getActiveTransactionIds)
    (hused : BeginsId m id ∨ .recovered ∈ m.trace) : Appends log m id where
  commits := hcommits
  unsettled := hunsettled
  opens := by
    rw [hclosed]
    refine iff_of_false Bool.false_ne_true ?_
    rintro (hactive | ⟨_, hunused, hnot⟩)
    · exact hinactive hactive
    · exact hused.elim hunused hnot
  began := fun hactive => absurd hactive hinactive
  running := fun _ hcur => absurd hcur.mem_activeIds hinactive

/-- The end of a transaction: a COMMIT settles what it wrote. -/
theorem appends_finish {log : List LogRecord} {m : Main} {txnId : Nat} {txn : Transaction}
    (h : Appends log m txnId) (outcome : Outcome)
    (hfound : m.tm.activeTransactions[txnId]? = some txn) :
    Appends log (m.finish txnId outcome) txnId := by
  have hactive : txnId ∈ m.tm.getActiveTransactionIds :=
    m.tm.mem_getActiveTransactionIds.mpr ⟨txn, hfound⟩
  have hword : (m.finish txnId outcome).wordOf txnId = m.wordOf txnId ++ [outcome.logType] := by
    rw [wordOf_finish, if_pos rfl]
  have hops : operations (m.finish txnId outcome).trace = operations m.trace :=
    (operations_append _ _).trans (List.append_nil _)
  have hmem : ∀ event, event ∈ (m.finish txnId outcome).trace ↔
      event ∈ m.trace ∨ event = .completed txnId (m.serialOf txnId) outcome := by
    intro event
    show event ∈ m.trace ++ [_] ↔ _
    rw [List.mem_append, List.mem_singleton]
  obtain ⟨serial, hbegan⟩ := h.began hactive
  refine appends_over ?_ ?_ ?_ ?_ (Or.inl ⟨serial, (hmem _).mpr (Or.inl hbegan)⟩)
  · cases outcome with
    | commit =>
        refine iff_of_true ?_ (Or.inr ⟨_, (hmem _).mpr (Or.inr rfl)⟩)
        exact hword ▸ List.mem_append_right _ List.mem_cons_self
    | abort =>
        rw [hword, CommitsId]
        simp only [hmem, Event.completed.injEq, reduceCtorEq, and_false, or_false,
          Outcome.logType, List.mem_append, List.mem_singleton]
        exact h.commits
  · rw [hword, tally_append_singleton]
    cases outcome with
    | commit =>
        have hlost := (h.running _ (current_of_mem_activeIds hactive)).2
        refine (Tally.unsettled_commit _).trans (hlost.trans ?_)
        refine or_congr_right (exists_congr fun op => ?_)
        rw [hops, Lost, Lost, hmem]
        constructor
        · rintro ⟨hop, hid, hne, hwrite, hnot⟩
          refine ⟨hop, hid, hwrite, ?_⟩
          rintro (hold | heq)
          · exact hnot hold
          · exact hne (Event.completed.inj heq).2.1
        · rintro ⟨hop, hid, hwrite, hnot⟩
          refine ⟨hop, hid, fun heq => hnot (Or.inr ?_), hwrite, fun hold => hnot (Or.inl hold)⟩
          rw [hid, heq]
    | abort =>
        have hcommits : ∀ id serial, Event.completed id serial .commit ∈
            (m.finish txnId .abort).trace ↔ Event.completed id serial .commit ∈ m.trace := by
          intro id serial
          simp [hmem]
        rw [losesId_congr hcommits hops]
        exact h.unsettled
  · rw [hword, List.foldl_concat]
    cases outcome <;> rfl
  · intro hstill
    exact (current_finish.mp (current_of_mem_activeIds hstill)).1 rfl

/-- RECOVER logs an ABORT of an id that is open, and settles nothing. -/
theorem appends_recover {log : List LogRecord} {m : Main} {id : Nat} (h : Appends log m id) :
    Appends log m.recover id := by
  have hword : m.recover.wordOf id = m.wordOf id ++
      if (m.wordOf id).foldl LogType.opens false then [.abort] else [] := m.typesOf_recover id
  have hops : operations m.recover.trace = operations m.trace := Step.recover.operations (by simp)
  have hcommits : ∀ id serial, Event.completed id serial .commit ∈ m.recover.trace ↔
      Event.completed id serial .commit ∈ m.trace := by
    intro id serial
    show _ ∈ m.trace ++ m.recoverEvents ↔ _
    simp [mem_recoverEvents]
  refine appends_over ?_ ?_ ?_ ?_ (Or.inr ?_)
  · rw [hword, CommitsId]
    simp only [hcommits]
    rw [← CommitsId, ← h.commits]
    split <;> simp
  · have htally : tally (m.recover.wordOf id) = tally (m.wordOf id) := by
      rw [hword]
      split
      · exact tally_append_singleton _ _
      · rw [List.append_nil]
    rw [htally, losesId_congr hcommits hops]
    exact h.unsettled
  · rw [hword]
    split
    · exact List.foldl_concat _ _ _ _
    · next hclosed => rw [List.append_nil, Bool.eq_false_of_not_eq_true hclosed]
  · exact fun hactive => not_current_recover (current_of_mem_activeIds hactive)
  · exact List.mem_append_right _ List.mem_cons_self

/-- Every step keeps the account of every id. -/
theorem Appends.step {log : List LogRecord} {m m' : Main} {a : Act} {id : Nat} (hs : Step m a m')
    (hserials : Serials m) (h : Appends log m id) : Appends log m' id := by
  cases hs with
  | print | refuse | drop =>
      refine h.untouched (untouched_of_events (Or.inl rfl) (fun _ => Iff.rfl)
        (List.append_nil _).symm fun event hnone => ?_)
      cases hnone
  | create =>
      refine h.untouched (untouched_of_events (Or.inl rfl) (fun _ => Iff.rfl) rfl ?_)
      simp [Irrelevant]
  | @issue cmd =>
      refine h.untouched (untouched_of_events (Or.inl rfl) (fun _ => Iff.rfl) rfl ?_)
      cases m.ownerOf cmd.txnLabel <;> simp [Irrelevant]
  | @begin txnLabel =>
      by_cases hid : m.tm.nextTransactionId = id
      · subst hid
        exact appends_start hserials h txnLabel
      · refine h.untouched (untouched_of_events (Or.inl ?_) (fun serial => ?_) rfl ?_)
        · rw [wordOf_start, if_neg hid, List.append_nil]
        · rw [current_start]
          simp [Ne.symm hid]
        · intro event hbegan
          cases hbegan with
          | head => exact hid
          | tail _ hnone => cases hnone
  | @execute c before later txnId resourceId access waits label active stored granted =>
      cases access with
      | read =>
          refine h.untouched (untouched_of_events (Or.inl rfl) (fun _ => Iff.rfl) rfl ?_)
          simp [Irrelevant]
      | write =>
          have hword := fun id =>
            typesOf_writeLog (m.requested txnId resourceId .exclusive) txnId id .update
          by_cases hid : txnId = id
          · subst hid
            refine appends_update hserials h (executes_perform .write waits label active granted)
              rfl ((hword txnId).trans ?_)
            rw [if_pos rfl]
            rfl
          · refine h.untouched (untouched_of_events (Or.inl ((hword id).trans ?_))
              (fun _ => Iff.rfl) rfl ?_)
            · rw [if_neg hid, List.append_nil]
              rfl
            · simp [Irrelevant, hid]
  | @finish txnId outcome txn active =>
      by_cases hid : txnId = id
      · subst hid
        exact appends_finish h outcome active
      · refine h.untouched (untouched_of_events (Or.inl ?_) (fun serial => ?_) rfl ?_)
        · rw [wordOf_finish, if_neg hid, List.append_nil]
        · rw [current_finish]
          simp [Ne.symm hid]
        · simp [Irrelevant, hid]
  | checkpoint =>
      refine h.untouched (untouched_of_events ?_ (fun _ => Iff.rfl)
        (List.append_nil _).symm fun event hnone => ?_)
      · rw [wordOf_checkpoint]
        split
        · exact Or.inr rfl
        · exact Or.inl (List.append_nil _)
      · cases hnone
  | recover => exact appends_recover h

/-- Along every session. -/
theorem appends_after (env : Environment) (input : List Command) (id : Nat) :
    Appends env.logFile (after env input) id := by
  have hboth : Serials (after env input) ∧ Appends env.logFile (after env input) id := by
    refine after_invariant (I := fun m => Serials m ∧ Appends env.logFile m id) ?_ ?_ input
    · rintro m m' a hs ⟨hserials, h⟩
      exact ⟨hserials.step hs, h.step hs hserials⟩
    · exact ⟨serials_init env, appends_init env.alloc env.clock env.logFile id⟩
  exact hboth.2

/-! ## All sessions together -/

/-- The records of an id account for what happened to it in the sessions. -/
structure Accounts (id : Nat) (log : List LogRecord) (sessions : List Main) : Prop where
  commits : .commit ∈ typesOf log id ↔ ∃ m ∈ sessions, CommitsId m id
  unsettled : (tally (typesOf log id)).Unsettled ↔ ∃ m ∈ sessions, LosesId m id
  opens : (typesOf log id).foldl LogType.opens false = true ↔ LeftActive sessions id

theorem accounts_nil (id : Nat) : Accounts id [] [] where
  commits := by simp
  unsettled := by simp [tally, Tally.Unsettled, Tally.start]
  opens := by
    refine iff_of_false Bool.false_ne_true ?_
    rintro ⟨before, m, later, heq, _⟩
    cases before <;> cases heq

/-- One more session on the log of the others. -/
theorem Accounts.next {id : Nat} {before : List LogRecord × List Main}
    (h : Accounts id before.1 before.2) (s : Session) :
    Accounts id (s.next before).1 (s.next before).2 := by
  have hnew : Appends before.1 (s.final before.1) id :=
    appends_after ⟨s.alloc, s.clock, before.1⟩ s.input id
  have hlog : typesOf (s.next before).1 id = (s.final before.1).wordOf id := rfl
  have hsessions : (s.next before).2 = before.2 ++ [s.final before.1] := rfl
  constructor
  case commits =>
    rw [hlog, hnew.commits, h.commits, hsessions]
    simp only [List.mem_append, List.mem_singleton, or_and_right, exists_or, exists_eq_left]
  case unsettled =>
    rw [hlog, hnew.unsettled, h.unsettled, hsessions]
    simp only [List.mem_append, List.mem_singleton, or_and_right, exists_or, exists_eq_left]
  case opens => rw [hlog, hnew.opens, h.opens, hsessions, leftActive_concat]

end Main

namespace Session

theorem accounts_all (sessions : List Session) (id : Nat) :
    Main.Accounts id (all sessions).1 (all sessions).2 :=
  invariant next (I := fun before => Main.Accounts id before.1 before.2)
    (fun _ s h => h.next s) sessions (Main.accounts_nil id)

/-- Recovery of the log that sessions leave one after the other redoes only
records of executions that commit, and has no id that is both committed and
incomplete, exactly when no id that some session commits was used by a
transaction that wrote and was not committed, or was left active by the last
session that used it without a RECOVER since. -/
theorem recovery_sound_iff (sessions : List Session) (rm : RecoveryManager) (clock : List Int) :
    ((rm.onLog (all sessions).1).performRecovery clock).1.RedoesCommitted (all sessions).1 ↔
      ∀ id, (∃ m ∈ (all sessions).2, m.CommitsId id) →
        (∀ m ∈ (all sessions).2, ¬ m.LosesId id) ∧ ¬ Main.LeftActive (all sessions).2 id := by
  rw [RecoveryManager.redoesCommitted_iff]
  refine forall_congr' fun id => ?_
  have haccounts := accounts_all sessions id
  rw [haccounts.commits, haccounts.unsettled, ← Bool.not_eq_true, haccounts.opens]
  simp only [not_exists, not_and]

/-- T1 writes A and is left active. -/
def leftWriting : Session :=
  ⟨[], [], [{ op := .begin, txnLabel := ['T', '1'] },
    { op := .write, txnLabel := ['T', '1'], resourceName := ['A'], value := 5 }, { op := .exit }]⟩

/-- T1 commits, without a write. -/
def onlyCommits : Session :=
  ⟨[], [], [{ op := .begin, txnLabel := ['T', '1'] },
    { op := .commit, txnLabel := ['T', '1'] }, { op := .exit }]⟩

/-- The UPDATE of the first session is redone for the COMMIT of the second. -/
theorem recovery_sound_fails :
    ¬ (((RecoveryManager.new (.openOn [])).onLog (all [leftWriting, onlyCommits]).1).performRecovery
      []).1.RedoesCommitted (all [leftWriting, onlyCommits]).1 := by
  rw [RecoveryManager.redoesCommitted_iff]
  intro h
  have hwords : typesOf (all [leftWriting, onlyCommits]).1 1 =
      [.begin, .update, .begin, .commit] := by decide
  refine (h 1 ?_).1 ?_
  · rw [hwords]
    decide
  · rw [hwords]
    exact Or.inr rfl

end Session

end TxnEngine
