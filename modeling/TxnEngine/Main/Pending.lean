import TxnEngine.Main.Transactions

/-!
# The pending commands

What becomes of a READ or WRITE once it was accepted.  `Queue` is the invariant:
a command that waits was issued once and was neither executed nor dropped, and a
command issued for a transaction was executed, or waits, or its transaction is
over (`accounted`).

`processPending` drops the commands of transactions that are over pass by pass,
so the last case has an intermediate form in which the id of the transaction is
not active.  Between commands only transactions that are active have commands
that wait (`Clean`), so a BEGIN that uses an id again finds none.
-/

namespace TxnEngine

open Std Runs

/-- The numbers of the commands that were executed. -/
def executedLines (trace : List Event) : List Nat := (operations trace).map Operation.line

/-- The command was executed, or dropped by RECOVER. -/
def Gone (trace : List Event) (line : Nat) : Prop :=
  line ∈ executedLines trace ∨ Event.discarded line ∈ trace

instance (trace : List Event) (line : Nat) : Decidable (Gone trace line) :=
  inferInstanceAs (Decidable (_ ∨ _))

namespace Main

/-! ## What `processPending` leaves -/

theorem labelActive_iff {m : Main} {txnLabel : Name} : m.labelActive txnLabel = true ↔
    ∃ txnId, m.txnIds[txnLabel]? = some txnId ∧ m.tm.isTransactionActive txnId = true := by
  rw [labelActive]
  cases m.txnIds[txnLabel]? <;> simp

theorem labelActive_congr {m m' : Main} (htm : m'.tm = m.tm) (hids : m'.txnIds = m.txnIds)
    (txnLabel : Name) : m'.labelActive txnLabel = m.labelActive txnLabel := by
  rw [labelActive, labelActive, htm, hids]

/-- The transaction of every pending command is active. -/
def AllActive (m : Main) : Prop := ∀ c ∈ m.pending, m.labelActive c.command.txnLabel = true

/-- What a pass leaves: commands of active transactions, no more than it found,
and fewer if it made progress. -/
theorem processPass_leaves : ∀ (todo skipped : List Issued) (resumed : List Name) (m : Main),
    m.pending = skipped ++ todo → (∀ c ∈ skipped, m.labelActive c.command.txnLabel = true) →
      AllActive (processPass todo skipped resumed m).2.2 ∧
        (processPass todo skipped resumed m).2.2.pending.length ≤ m.pending.length ∧
        ((processPass todo skipped resumed m).1 = true →
          (processPass todo skipped resumed m).2.2.pending.length < m.pending.length)
  | [], skipped, resumed, m, waits, hskipped => by
      rw [List.append_nil] at waits
      exact ⟨fun c hc => hskipped c (waits ▸ hc), Nat.le_refl _, fun h => by cases h⟩
  | c :: todo, skipped, resumed, m, waits, hskipped => by
      have hshorter : (skipped ++ todo).length < m.pending.length := by
        rw [waits, List.length_append, List.length_append, List.length_cons]
        omega
      rw [processPass_cons]
      split
      · obtain ⟨hall, hle, hlt⟩ := processPass_leaves todo skipped resumed
          (m.setPending (skipped ++ todo)) rfl hskipped
        exact ⟨hall, Nat.le_trans hle (Nat.le_of_lt hshorter),
          fun h => Nat.lt_trans (hlt h) hshorter⟩
      · next hactive =>
          obtain ⟨_, hsame⟩ := m.announce_spec (quiet_by (E := Any) m c.command) c resumed
          have hframe := (m.announce c resumed).2.executeCommand_frame c true
          dsimp only
          generalize (m.announce c resumed).2.executeCommand c true = trial at hframe ⊢
          obtain ⟨executed, m'⟩ := trial
          obtain ⟨htm, hids, hpending⟩ := hframe
          have hlabel : ∀ l, m'.labelActive l = m.labelActive l :=
            labelActive_congr (htm.trans hsame.tm) (hids.trans hsame.txnIds)
          have hskipped' : ∀ c' ∈ skipped, m'.labelActive c'.command.txnLabel = true :=
            fun c' hc' => (hlabel _).trans (hskipped c' hc')
          cases executed with
          | true =>
              obtain ⟨hall, hle, _⟩ := processPass_leaves todo skipped (m.announce c resumed).1
                (m'.setPending (skipped ++ todo)) rfl hskipped'
              rw [if_pos rfl]
              exact ⟨hall, Nat.le_trans hle (Nat.le_of_lt hshorter),
                fun _ => Nat.lt_of_le_of_lt hle hshorter⟩
          | false =>
              have waits' : m'.pending = skipped ++ [c] ++ todo := by
                rw [List.append_assoc]
                exact hpending.trans (hsame.pending.trans waits)
              have hlength : m'.pending.length = m.pending.length := by
                rw [waits', waits, List.append_assoc]
                rfl
              rw [if_neg (by simp), ← hlength]
              refine processPass_leaves todo (skipped ++ [c]) _ m' waits' fun c' hc' => ?_
              rcases List.mem_append.mp hc' with hold | hnew
              · exact hskipped' c' hold
              · rw [List.mem_singleton.mp hnew, hlabel]
                exact Bool.eq_true_of_not_eq_false hactive

theorem processLoop_leaves : ∀ (fuel : Nat) (resumed : List Name) (m : Main),
    0 < fuel ∨ AllActive m → AllActive (processLoop fuel resumed m)
  | 0, _, _, h => h.resolve_left (Nat.lt_irrefl 0)
  | fuel + 1, resumed, m, _ => by
      obtain ⟨hall, _⟩ := processPass_leaves m.pending [] resumed m rfl (fun c hc => by cases hc)
      rw [processLoop]
      generalize processPass m.pending [] resumed m = pass at hall
      obtain ⟨progress, resumed', m'⟩ := pass
      cases progress with
      | false => exact hall
      | true => exact processLoop_leaves fuel resumed' m' (Or.inr hall)

/-- Afterwards only active transactions have pending commands. -/
theorem processPending_leaves (m : Main) : AllActive m.processPending :=
  processLoop_leaves _ [] m (Or.inl (Nat.succ_pos _))

/-- More fuel than pending commands changes nothing: every pass but the last one
makes progress. -/
theorem processLoop_fuel (extra : Nat) : ∀ (fuel : Nat) (resumed : List Name) (m : Main),
    m.pending.length < fuel → processLoop (fuel + extra) resumed m = processLoop fuel resumed m
  | 0, _, _, h => absurd h (Nat.not_lt_zero _)
  | fuel + 1, resumed, m, h => by
      obtain ⟨_, _, hlt⟩ :=
        processPass_leaves m.pending [] resumed m rfl (fun c hc => by cases hc)
      rw [Nat.add_right_comm, processLoop, processLoop]
      generalize processPass m.pending [] resumed m = pass at hlt
      obtain ⟨progress, resumed', m'⟩ := pass
      cases progress with
      | false => rfl
      | true =>
          have hless : m'.pending.length < m.pending.length := hlt rfl
          exact processLoop_fuel extra fuel resumed' m' (by omega)

/-! ## What the steps do to the queue -/

/-- Labels keep their ids. -/
theorem Step.txnIds {m m' : Main} {a : Act} (h : Step m a m') {txnLabel : Name} {id : Nat}
    (hid : m.txnIds[txnLabel]? = some id) : m'.txnIds[txnLabel]? = some id := by
  cases h with
  | print | create | issue | refuse | drop | finish | checkpoint | recover => exact hid
  | @begin newLabel fresh =>
      show (m.txnIds.insert _ _)[txnLabel]? = _
      rw [ExtTreeMap.getElem?_insert]
      split
      · next heq =>
          obtain rfl := Std.compare_eq_iff_eq.mp heq
          rw [ExtTreeMap.getElem?_eq_none fresh] at hid
          cases hid
      · exact hid
  | execute access => cases access <;> exact hid

theorem txnIds_start (m : Main) (label label' : Name) : (m.start label).txnIds[label']? =
    if label = label' then some m.tm.nextTransactionId else m.txnIds[label']? := by
  show (m.txnIds.insert label m.tm.nextTransactionId)[label']? = _
  rw [ExtTreeMap.getElem?_insert]
  simp only [Std.compare_eq_iff_eq]

/-- An id becomes active by BEGIN. -/
theorem Step.activeIds {m m' : Main} {a : Act} (h : Step m a m') {id : Nat}
    (hid : id ∈ m'.tm.getActiveTransactionIds) :
    id ∈ m.tm.getActiveTransactionIds ∨ a = .begin := by
  rcases h.current (current_of_mem_activeIds hid) with hcur | ⟨hbegin, _⟩
  · exact Or.inl hcur.mem_activeIds
  · exact Or.inr hbegin

/-- Only a new command joins the queue, and only then a command is numbered. -/
theorem Step.shrinks {m m' : Main} {a : Act} (h : Step m a m') (hissue : ∀ c, a ≠ .issue c) :
    m'.pending.Sublist m.pending ∧ m'.line = m.line ∧
      ∀ line id serial, Event.issued line id serial ∈ m'.trace ↔
        Event.issued line id serial ∈ m.trace := by
  have hadd : ∀ {events : List Event}, (∀ line id serial, .issued line id serial ∉ events) →
      ∀ line id serial, Event.issued line id serial ∈ m.trace ++ events ↔
        Event.issued line id serial ∈ m.trace :=
    fun hnone line id serial => by
      rw [List.mem_append, or_iff_left (hnone line id serial)]
  cases h with
  | print | refuse | checkpoint => exact ⟨.refl _, rfl, fun _ _ _ => Iff.rfl⟩
  | create | begin | finish => exact ⟨.refl _, rfl, hadd (by simp)⟩
  | issue => exact absurd rfl (hissue _)
  | @drop c before later waits inactive =>
      refine ⟨?_, rfl, fun _ _ _ => Iff.rfl⟩
      rw [waits]
      exact (List.sublist_cons_self c later).append_left before
  | @execute c before later txnId resourceId access waits label active stored granted =>
      have hsub : (before ++ later).Sublist m.pending := by
        rw [waits]
        exact (List.sublist_cons_self c later).append_left before
      cases access with
      | read => exact ⟨hsub, rfl, hadd (by simp)⟩
      | write => exact ⟨hsub, rfl, hadd (by simp)⟩
  | recover =>
      exact ⟨List.nil_sublist _, rfl, hadd (by simp [mem_recoverEvents])⟩

theorem Executes.executedLines {m m' : Main} {c : Issued} {op : Operation}
    (h : Executes m m' c op) :
    TxnEngine.executedLines m'.trace = TxnEngine.executedLines m.trace ++ [c.line] := by
  rw [TxnEngine.executedLines, h.operations, List.map_append, ← h.line]
  rfl

/-- A command leaves the queue when it is executed, or when its transaction is
over. -/
theorem Step.leaves {m m' : Main} {a : Act} (h : Step m a m') {c : Issued}
    (hc : c ∈ m.pending) : c ∈ m'.pending ∨ c.line ∈ executedLines m'.trace ∨
      ∀ id, m.txnIds[c.command.txnLabel]? = some id → id ∉ m'.tm.getActiveTransactionIds := by
  cases a with
  | execute c' =>
      obtain ⟨op, hexec⟩ := h.executes
      obtain ⟨before, later, hold, hnew⟩ := hexec.waits
      rw [hold] at hc
      rcases List.mem_append.mp hc with hin | hin
      · exact Or.inl (hnew ▸ List.mem_append_left later hin)
      · rcases List.mem_cons.mp hin with rfl | hin
        · refine Or.inr (Or.inl ?_)
          rw [hexec.executedLines]
          exact List.mem_append_right _ List.mem_cons_self
        · exact Or.inl (hnew ▸ List.mem_append_right before hin)
  | drop c' =>
      cases h with
      | @drop _ before later waits inactive =>
          rw [waits] at hc
          rcases List.mem_append.mp hc with hin | hin
          · exact Or.inl (List.mem_append_left later hin)
          · rcases List.mem_cons.mp hin with rfl | hin
            · refine Or.inr (Or.inr fun id hid hactive => ?_)
              have hact := m.tm.isTransactionActive_iff.mpr
                (m.tm.mem_getActiveTransactionIds.mp hactive)
              rw [labelActive, hid] at inactive
              exact Bool.noConfusion (inactive.symm.trans hact)
            · exact Or.inl (List.mem_append_right before hin)
  | recover =>
      cases h
      exact Or.inr (Or.inr fun id _ => m.tm.activeIds_abortAll)
  | issue c' =>
      cases h
      exact Or.inl (List.mem_append_left _ hc)
  | _ =>
      cases h
      exact Or.inl hc

/-- Only RECOVER drops commands that were accepted. -/
theorem Step.discarded {m m' : Main} {a : Act} (h : Step m a m') {line : Nat}
    (hmem : Event.discarded line ∈ m'.trace) :
    Event.discarded line ∈ m.trace ∨ a = .recover ∧ ∃ c ∈ m.pending, c.line = line := by
  have hold : ∀ {events : List Event}, Event.discarded line ∈ m.trace ++ events →
      Event.discarded line ∉ events → Event.discarded line ∈ m.trace :=
    fun hmem hnone => (List.mem_append.mp hmem).resolve_right hnone
  cases h with
  | print | refuse | drop | checkpoint => exact Or.inl hmem
  | create | begin | finish => exact Or.inl (hold hmem (by simp))
  | @issue cmd =>
      refine Or.inl (hold hmem ?_)
      cases m.ownerOf cmd.txnLabel <;> simp
  | execute access => cases access <;> exact Or.inl (hold hmem (by simp))
  | recover =>
      rcases List.mem_append.mp hmem with hmem | hmem
      · exact Or.inl hmem
      · rcases mem_recoverEvents.mp hmem with heq | ⟨c, hc, heq⟩ | ⟨id, _, heq⟩
        · cases heq
        · cases heq
          exact Or.inr ⟨rfl, c, hc, rfl⟩
        · cases heq

/-- What is gone after a step was gone, or has left the queue. -/
theorem Step.gone {m m' : Main} {a : Act} (h : Step m a m')
    (hdistinct : m.pending.Pairwise fun c c' => c.line ≠ c'.line) {line : Nat}
    (hgone : Gone m'.trace line) : Gone m.trace line ∨
      (∃ c ∈ m.pending, c.line = line) ∧ ∀ c ∈ m'.pending, c.line ≠ line := by
  rcases hgone with hexecuted | hdiscarded
  · cases a with
    | execute c =>
        obtain ⟨op, hexec⟩ := h.executes
        obtain ⟨before, later, hold, hnew⟩ := hexec.waits
        rw [hexec.executedLines] at hexecuted
        rcases List.mem_append.mp hexecuted with hmem | hmem
        · exact Or.inl (Or.inl hmem)
        · obtain rfl := List.mem_singleton.mp hmem
          rw [hold, List.pairwise_middle Ne.symm] at hdistinct
          refine Or.inr ⟨⟨c, hold ▸ by simp, rfl⟩, fun c' hc' => ?_⟩
          exact Ne.symm ((List.pairwise_cons.mp hdistinct).1 c' (hnew ▸ hc'))
    | _ =>
        rw [executedLines, h.operations fun c heq => by cases heq] at hexecuted
        exact Or.inl (Or.inl hexecuted)
  · rcases h.discarded hdiscarded with hold | ⟨rfl, hin⟩
    · exact Or.inl (Or.inr hold)
    · cases h
      exact Or.inr ⟨hin, fun c hc => by cases hc⟩

/-- What is gone stays gone. -/
theorem Step.executedLines_mono {m m' : Main} {a : Act} (h : Step m a m') {line : Nat}
    (hline : line ∈ executedLines m.trace) : line ∈ executedLines m'.trace := by
  obtain ⟨events, htrace⟩ := h.trace
  rw [executedLines, htrace, operations_append, List.map_append]
  exact List.mem_append_left _ hline

/-! ## The invariant -/

/-- Only active transactions have commands that wait. -/
def Clean (m : Main) : Prop :=
  ∀ c ∈ m.pending, ∀ t, c.owner = some t → t.1 ∈ m.tm.getActiveTransactionIds

/-- What is known of the commands that were issued. -/
structure Queue (m : Main) : Prop where
  owned : ∀ c ∈ m.pending, ∀ id serial,
    Event.issued c.line id serial ∈ m.trace ↔ c.owner = some (id, serial)
  labelled : ∀ c ∈ m.pending, ∀ t, c.owner = some t → m.txnIds[c.command.txnLabel]? = some t.1
  distinct : m.pending.Pairwise fun c c' => c.line ≠ c'.line
  waiting : ∀ c ∈ m.pending, ¬ Gone m.trace c.line
  serial_lt : ∀ line id serial, Event.issued line id serial ∈ m.trace → serial < m.tm.begun
  issued_lt : ∀ line id serial, Event.issued line id serial ∈ m.trace → line < m.line
  pending_lt : ∀ c ∈ m.pending, c.line < m.line
  gone_lt : ∀ line, Gone m.trace line → line < m.line
  accounted : ∀ line id serial, Event.issued line id serial ∈ m.trace →
    line ∈ executedLines m.trace ∨
      (∃ c ∈ m.pending, c.line = line ∧ c.owner = some (id, serial)) ∨
      id ∉ m.tm.getActiveTransactionIds ∨
      ¬ Current m (id, serial) ∧ ∀ c ∈ m.pending, c.owner ≠ some (id, serial)

theorem queue_init (env : Environment) : Queue (init env) := by
  constructor
  case distinct => exact .nil
  case gone_lt =>
    rintro line (hmem | hmem)
    · cases hmem
    · cases hmem
  case owned | labelled | waiting | pending_lt =>
    intro c hc
    cases hc
  case serial_lt | issued_lt | accounted =>
    intro line id serial hmem
    cases hmem

/-- A step that issues nothing keeps the queue in order. -/
theorem Queue.shrink {m m' : Main} {a : Act} (h : Queue m) (hs : Step m a m')
    (hissue : ∀ c, a ≠ .issue c) (hclean : a = .begin → Clean m) : Queue m' := by
  obtain ⟨hsub, hline, hissued⟩ := hs.shrinks hissue
  constructor
  case owned =>
    intro c hc id serial
    rw [hissued]
    exact h.owned c (hsub.subset hc) id serial
  case labelled => exact fun c hc t ht => hs.txnIds (h.labelled c (hsub.subset hc) t ht)
  case distinct => exact h.distinct.sublist hsub
  case waiting =>
    intro c hc hgone
    rcases hs.gone h.distinct hgone with hold | ⟨_, hleft⟩
    · exact h.waiting c (hsub.subset hc) hold
    · exact hleft c hc rfl
  case serial_lt =>
    intro line id serial hmem
    exact Nat.lt_of_lt_of_le (h.serial_lt line id serial ((hissued _ _ _).mp hmem)) hs.begun.1
  case issued_lt =>
    intro line id serial hmem
    rw [hline]
    exact h.issued_lt line id serial ((hissued _ _ _).mp hmem)
  case pending_lt =>
    intro c hc
    rw [hline]
    exact h.pending_lt c (hsub.subset hc)
  case gone_lt =>
    intro line hgone
    rw [hline]
    rcases hs.gone h.distinct hgone with hold | ⟨⟨c, hc, rfl⟩, _⟩
    · exact h.gone_lt line hold
    · exact h.pending_lt c hc
  case accounted =>
    intro line id serial hmem
    have hmem' := (hissued _ _ _).mp hmem
    have hover : ¬ Current m (id, serial) → ¬ Current m' (id, serial) :=
      mt (hs.was_current (h.serial_lt line id serial hmem'))
    rcases h.accounted line id serial hmem' with hexec | ⟨c, hc, rfl, howner⟩ | hidle | hover'
    · exact Or.inl (hs.executedLines_mono hexec)
    · rcases hs.leaves hc with hin | hexec | hgone
      · exact Or.inr (Or.inl ⟨c, hin, rfl, howner⟩)
      · exact Or.inl hexec
      · exact Or.inr (Or.inr (Or.inl (hgone id (h.labelled c hc _ howner))))
    · by_cases hactive : id ∈ m'.tm.getActiveTransactionIds
      · -- the id is used again
        have hbegin := (hs.activeIds hactive).resolve_left hidle
        refine Or.inr (Or.inr (Or.inr ⟨hover fun hcur => hidle hcur.mem_activeIds, ?_⟩))
        exact fun c hc howner => hidle (hclean hbegin c (hsub.subset hc) _ howner)
      · exact Or.inr (Or.inr (Or.inl hactive))
    · obtain ⟨hover', hnone⟩ := hover'
      exact Or.inr (Or.inr (Or.inr ⟨hover hover', fun c hc => hnone c (hsub.subset hc)⟩))

theorem ownerOf_spec {m : Main} {txnLabel : Name} {t : Nat × Nat}
    (h : m.ownerOf txnLabel = some t) : m.txnIds[txnLabel]? = some t.1 ∧ Current m t := by
  obtain ⟨id, hid, howner⟩ := Option.bind_eq_some_iff.mp h
  obtain ⟨txn, hfound, rfl⟩ := Option.map_eq_some_iff.mp howner
  exact ⟨hid, txn, hfound, rfl⟩

/-- The event of a new command. -/
theorem mem_issue_trace {m : Main} {cmd : Command} {line id serial : Nat} :
    Event.issued line id serial ∈ (m.issue cmd).2.trace ↔ Event.issued line id serial ∈ m.trace ∨
      line = m.line ∧ m.ownerOf cmd.txnLabel = some (id, serial) := by
  show _ ∈ m.trace ++ ((m.ownerOf cmd.txnLabel).map _).toList ↔ _
  rw [List.mem_append]
  refine or_congr_right ?_
  cases m.ownerOf cmd.txnLabel with
  | none => simp
  | some t =>
      obtain ⟨id', serial'⟩ := t
      simp only [Option.map_some, Option.toList_some, List.mem_singleton, Event.issued.injEq,
        Option.some.injEq, Prod.mk.injEq]
      tauto

/-- A new command is the last in the queue. -/
theorem queue_issue {m : Main} (h : Queue m) (hserials : Serials m) {cmd : Command}
    (hs : Step m (.issue (m.issue cmd).1)
      ((m.issue cmd).2.setPending (m.pending ++ [(m.issue cmd).1]))) :
    Queue ((m.issue cmd).2.setPending (m.pending ++ [(m.issue cmd).1])) := by
  have hissued : ∀ {line id serial}, Event.issued line id serial ∈ (m.issue cmd).2.trace ↔ _ :=
    mem_issue_trace
  have hexecuted : executedLines (m.issue cmd).2.trace = executedLines m.trace :=
    congrArg (List.map _) (hs.operations fun c heq => by cases heq)
  have hgone : ∀ line, Gone (m.issue cmd).2.trace line → Gone m.trace line := by
    rintro line (hmem | hmem)
    · exact Or.inl (hexecuted ▸ hmem)
    · rcases hs.discarded hmem with hold | ⟨heq, _⟩
      · exact Or.inr hold
      · cases heq
  have hpending : ∀ {c}, c ∈ m.pending ++ [(m.issue cmd).1] →
      c ∈ m.pending ∨ c = (m.issue cmd).1 := by
    intro c hc
    rcases List.mem_append.mp hc with hold | hnew
    · exact Or.inl hold
    · exact Or.inr (List.mem_singleton.mp hnew)
  constructor
  case owned =>
    intro c hc id serial
    refine hissued.trans ?_
    rcases hpending hc with hold | rfl
    · have hne : c.line ≠ m.line := Nat.ne_of_lt (h.pending_lt c hold)
      rw [or_iff_left fun hnew => hne hnew.1]
      exact h.owned c hold id serial
    · show Event.issued m.line id serial ∈ m.trace ∨ m.line = m.line ∧ _ ↔ _
      rw [or_iff_right fun hold => Nat.lt_irrefl _ (h.issued_lt _ id serial hold)]
      exact and_iff_right rfl
  case labelled =>
    intro c hc t ht
    rcases hpending hc with hold | rfl
    · exact h.labelled c hold t ht
    · exact (ownerOf_spec ht).1
  case distinct =>
    refine List.pairwise_append.mpr ⟨h.distinct, List.pairwise_singleton _ _, ?_⟩
    intro c hc c' hc'
    rw [List.mem_singleton.mp hc']
    exact Nat.ne_of_lt (h.pending_lt c hc)
  case waiting =>
    intro c hc hmem
    rcases hpending hc with hold | rfl
    · exact h.waiting c hold (hgone _ hmem)
    · exact Nat.lt_irrefl _ (h.gone_lt _ (hgone _ hmem))
  case serial_lt =>
    intro line id serial hmem
    rcases hissued.mp hmem with hold | ⟨_, howner⟩
    · exact h.serial_lt line id serial hold
    · exact hserials.current_lt _ (ownerOf_spec howner).2
  case issued_lt =>
    intro line id serial hmem
    rcases hissued.mp hmem with hold | ⟨rfl, _⟩
    · exact Nat.lt_succ_of_lt (h.issued_lt line id serial hold)
    · exact Nat.lt_succ_self _
  case pending_lt =>
    intro c hc
    rcases hpending hc with hold | rfl
    · exact Nat.lt_succ_of_lt (h.pending_lt c hold)
    · exact Nat.lt_succ_self _
  case gone_lt => exact fun line hmem => Nat.lt_succ_of_lt (h.gone_lt line (hgone line hmem))
  case accounted =>
    intro line id serial hmem
    rcases hissued.mp hmem with hold | ⟨rfl, howner⟩
    · rcases h.accounted line id serial hold with hexec | ⟨c, hc, heq⟩ | hidle | ⟨hover, hnone⟩
      · exact Or.inl (hexecuted ▸ hexec)
      · exact Or.inr (Or.inl ⟨c, List.mem_append_left _ hc, heq⟩)
      · exact Or.inr (Or.inr (Or.inl hidle))
      · refine Or.inr (Or.inr (Or.inr ⟨hover, fun c hc howner => ?_⟩))
        rcases hpending hc with hin | rfl
        · exact hnone c hin howner
        · exact hover (ownerOf_spec howner).2
    · exact Or.inr (Or.inl ⟨_, List.mem_append_right _ List.mem_cons_self, rfl, howner⟩)

theorem Queue.step {m m' : Main} {a : Act} (h : Queue m) (hs : Step m a m')
    (hserials : Serials m) (hclean : a = .begin → Clean m) : Queue m' := by
  cases a with
  | issue c =>
      cases hs with
      | issue known => exact queue_issue h hserials (.issue known)
  | _ => exact h.shrink hs (fun c heq => by cases heq) hclean

/-- A step that ends no single transaction leaves the queue clean. -/
theorem Clean.step {m m' : Main} {a : Act} (h : Clean m) (hs : Step m a m')
    (hfinish : ∀ txnId outcome, a ≠ .finish txnId outcome) : Clean m' := by
  have hsub := hs.shrinks
  cases hs with
  | print | create | refuse | checkpoint => exact h
  | begin =>
      intro c hc t ht
      exact m.tm.mem_activeIds_begin.mpr (Or.inr (h c hc t ht))
  | issue =>
      intro c hc t ht
      rcases List.mem_append.mp hc with hold | hnew
      · exact h c hold t ht
      · rw [List.mem_singleton.mp hnew] at ht
        exact (ownerOf_spec ht).2.mem_activeIds
  | execute access =>
      have hin := (hsub fun c heq => by cases heq).1
      intro c hc t ht
      have hold := h c (hin.subset hc) t ht
      cases access <;> exact hold
  | drop =>
      have hin := (hsub fun c heq => by cases heq).1
      exact fun c hc => h c (hin.subset hc)
  | finish => exact absurd rfl (hfinish _ _)
  | recover =>
      intro c hc
      cases hc

/-- When only active transactions have pending commands, the queue is clean. -/
theorem clean_of_allActive {m : Main} (h : Queue m) (hall : AllActive m) : Clean m := by
  intro c hc t ht
  have hactive := hall c hc
  rw [labelActive, h.labelled c hc t ht] at hactive
  exact m.tm.mem_getActiveTransactionIds.mpr (m.tm.isTransactionActive_iff.mp hactive)

/-! ## Commands -/

/-- The queue between commands. -/
structure Orderly (m : Main) : Prop where
  serials : Serials m
  queue : Queue m
  clean : Clean m

theorem orderly_init (env : Environment) : Orderly (init env) := by
  refine ⟨serials_init env, queue_init env, fun c hc => ?_⟩
  cases hc

/-- While a command is handled, every step keeps the queue in order. -/
theorem Orderly.during_step {start m m' : Main} {cmd : Command} {a : Act}
    {E : List Issued → Issued → Prop} (h : Orderly start) (hs : Step m a m')
    (hby : By E start cmd m a) (hm : Serials m ∧ Queue m) : Serials m' ∧ Queue m' := by
  refine ⟨hm.1.step hs, hm.2.step hs hm.1 ?_⟩
  rintro rfl
  obtain ⟨rfl, _⟩ := hby
  exact h.clean

theorem Orderly.during {m m' : Main} {cmd : Command} {E : List Issued → Issued → Prop}
    (h : Orderly m) (hreach : Reaches Step (By E m cmd) m m') : Serials m' ∧ Queue m' :=
  hreach.invariant (I := fun m' => Serials m' ∧ Queue m')
    (fun hs hby hm => h.during_step hs hby hm) ⟨h.serials, h.queue⟩

/-- A command other than COMMIT and ABORT ends no single transaction. -/
theorem Clean.handle {m : Main} (h : Clean m) {cmd : Command}
    (hop : ∀ outcome : Outcome, cmd.op ≠ outcome.op) : Clean (m.handle cmd) := by
  refine (m.handle_reaches_any cmd).invariant (I := Clean) ?_ h
  intro m₁ m₂ a hs hby hclean
  refine hclean.step hs ?_
  rintro txnId outcome rfl
  exact hop outcome hby.2.1

theorem Clean.complete {m : Main} (h : Clean m) {cmd : Command} {outcome : Outcome}
    (hqueue : Queue (m.complete cmd outcome)) : Clean (m.complete cmd outcome) := by
  rcases m.complete_cases cmd outcome with ⟨⟨line, heq⟩, _⟩ | ⟨_, _, _, _, heq⟩
  · rw [heq]
    exact h
  · refine clean_of_allActive hqueue ?_
    rw [heq]
    exact processPending_leaves _

theorem Orderly.handle {m : Main} (h : Orderly m) (cmd : Command) : Orderly (m.handle cmd) := by
  obtain ⟨hserials, hqueue⟩ := h.during (m.handle_reaches_any cmd)
  refine ⟨hserials, hqueue, ?_⟩
  cases hop : cmd.op with
  | commit | abort =>
      rw [Main.handle, hop] at hqueue ⊢
      exact h.clean.complete hqueue
  | _ =>
      refine h.clean.handle fun outcome heq => ?_
      rw [hop] at heq
      cases outcome <;> cases heq

theorem orderly_after (env : Environment) (input : List Command) : Orderly (after env input) := by
  rw [after_eq_run]
  exact invariant Main.handle (fun _ cmd h => h.handle cmd) _ (orderly_init env)

end Main

end TxnEngine
