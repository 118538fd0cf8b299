import TxnEngine.Main.Trials

/-!
# The passes of `processPending`

A pass makes the calls of its lookups and trials, and ends no transaction
(`Continues`).  What lookups and trials keep, the passes keep (`Known.loop`).

Two more rules go through a pass step by step (`PassStep`).  `Lasting.pass` is about a
pass that executes nothing: what a failing trial says of its command, and later failing
trials do not change, holds of every command that is left.  `Overtakes.pass` is about the
commands that a pass executes past others, which it has found refused before.
-/

namespace TxnEngine

open Std Runs

namespace Main

open Directory

variable {m m' m'' : Main} {c : Issued} {calls calls' : List Call}

/-! ## Calls that end no transaction -/

/-- The state after calls that end no transaction. -/
structure Continues (m m' : Main) (calls : List Call) : Prop where
  directory : m'.directory = run Directory.call m.directory calls
  tm : m'.tm = m.tm
  txnIds : m'.txnIds = m.txnIds
  pending : m'.pending.Sublist m.pending
  running : ∀ call ∈ calls, call.completes = false

theorem Continues.trans (h : Continues m m' calls) (h' : Continues m' m'' calls') :
    Continues m m'' (calls ++ calls') where
  directory := by rw [run_append, ← h.directory, h'.directory]
  tm := h'.tm.trans h.tm
  txnIds := h'.txnIds.trans h.txnIds
  pending := h'.pending.trans h.pending
  running := List.forall_mem_append.mpr ⟨h.running, h'.running⟩

theorem Continues.refl (m : Main) : Continues m m [] :=
  ⟨rfl, rfl, rfl, .refl _, List.forall_mem_nil _⟩

theorem continues_setPending {pending : List Issued} (hsub : pending.Sublist m.pending) :
    Continues m (m.setPending pending) [] :=
  ⟨rfl, rfl, rfl, hsub, List.forall_mem_nil _⟩

theorem continues_ensureResource (m : Main) (name : Name) :
    Continues m (m.ensureResource name).2 (m.resourceCalls name) := by
  have hsame := m.ensureResource_same name
  exact ⟨m.directory_ensureResource name, hsame.tm, hsame.txnIds, hsame.pending ▸ .refl _,
    m.resourceCalls_running name⟩

theorem continues_announce (m : Main) (c : Issued) (resumed : List Name) :
    Continues m (m.announce c resumed).2 (m.announceCalls c resumed) := by
  obtain ⟨_, hsame⟩ := m.announce_spec (quiet_by (E := Any) m c.command) c resumed
  exact ⟨m.directory_announce c resumed, hsame.tm, hsame.txnIds, hsame.pending ▸ .refl _,
    m.announceCalls_running c resumed⟩

theorem continues_executeCommand (m : Main) (c : Issued) (fromPending : Bool) :
    Continues m (m.executeCommand c fromPending).2 (m.executeCalls c) := by
  obtain ⟨htm, hids, hpending⟩ := m.executeCommand_frame c fromPending
  exact ⟨m.directory_executeCommand c fromPending, htm, hids, hpending ▸ .refl _,
    m.executeCalls_running c⟩

/-- What a pass and its calls have to do with each other. -/
theorem continues_pass : ∀ (todo skipped : List Issued) (resumed : List Name) (m : Main),
    m.pending = skipped ++ todo →
      Continues m (processPass todo skipped resumed m).2.2 (passCalls todo skipped resumed m)
  | [], _, _, m, _ => .refl m
  | c :: todo, skipped, resumed, m, waits => by
      have hless : (skipped ++ todo).Sublist (skipped ++ c :: todo) :=
        (List.sublist_cons_self c todo).append_left skipped
      rw [processPass_cons, passCalls]
      split
      · exact (continues_setPending (waits ▸ hless)).trans
          (continues_pass todo skipped resumed _ rfl)
      · have hannounce := continues_announce m c resumed
        obtain ⟨_, hsame⟩ := m.announce_spec (quiet_by (E := Any) m c.command) c resumed
        have hpending := ((m.announce c resumed).2.executeCommand_frame c true).2.2
        have hfirst := hannounce.trans (continues_executeCommand (m.announce c resumed).2 c true)
        have hwaits := hpending.trans (hsame.pending.trans waits)
        dsimp only
        rw [← List.append_assoc]
        generalize (m.announce c resumed).2.executeCommand c true = trial at hfirst hwaits ⊢
        split
        · have hset : Continues trial.2 (trial.2.setPending (skipped ++ todo)) [] :=
            continues_setPending (hwaits ▸ hless)
          exact hfirst.trans (hset.trans (continues_pass todo skipped _ _ rfl))
        · exact hfirst.trans (continues_pass todo (skipped ++ [c]) _ _
            (by rw [hwaits, List.append_assoc]; rfl))

theorem processLoop_succ (fuel : Nat) (resumed : List Name) (m : Main) :
    processLoop (fuel + 1) resumed m =
      if (processPass m.pending [] resumed m).1 then
        processLoop fuel (processPass m.pending [] resumed m).2.1
          (processPass m.pending [] resumed m).2.2
      else (processPass m.pending [] resumed m).2.2 := by
  rw [processLoop]
  generalize processPass m.pending [] resumed m = pass
  obtain ⟨progress, resumed', m'⟩ := pass
  cases progress <;> rfl

theorem continues_loop : ∀ (fuel : Nat) (resumed : List Name) (m : Main),
    Continues m (processLoop fuel resumed m) (loopCalls fuel resumed m)
  | 0, _, m => .refl m
  | fuel + 1, resumed, m => by
      have hpass := continues_pass m.pending [] resumed m rfl
      rw [processLoop_succ, loopCalls]
      generalize processPass m.pending [] resumed m = pass at hpass ⊢
      split
      · exact hpass.trans (continues_loop fuel pass.2.1 pass.2.2)
      · rw [List.append_nil]
        exact hpass

theorem mem_pending_processPending (hc : c ∈ m.processPending.pending) : c ∈ m.pending :=
  (continues_loop (m.pending.length + 1) [] m).pending.subset hc

/-! ## Rules for a pass -/

section Rules

variable {guard : Directory → Call → Prop} {I : Main → Prop} {K : Main → Issued → Prop}
  {E : List Issued → Issued → Prop}

/-- How a pass comes to try a command: the calls of the announcement lead to a state in
which the command waits and its label is active. -/
structure Tries (guard : Directory → Call → Prop) (waiting : List Issued) (c : Issued)
    (m m' : Main) (calls : List Call) : Prop where
  announced : Continues m m' calls
  quiet : ∀ call ∈ calls, call.requester = none
  guarded : Guarded Directory.call guard m.directory calls
  waits : m'.pending = waiting
  active : m'.labelActive c.command.txnLabel = true
  guardedTrial : Guarded Directory.call guard m'.directory (m'.executeCalls c)

/-- What a pass does with its next command, and how it goes on. -/
inductive PassStep (guard : Directory → Call → Prop) (E : List Issued → Issued → Prop)
    (c : Issued) (todo skipped : List Issued) (resumed : List Name) (m : Main) : Prop where
  | drop (gone : Continues m (m.setPending (skipped ++ todo)) [])
      (state : processPass (c :: todo) skipped resumed m =
        processPass todo skipped resumed (m.setPending (skipped ++ todo)))
      (meets : PassMeets E todo skipped resumed (m.setPending (skipped ++ todo)) →
        PassMeets E (c :: todo) skipped resumed m)
      (guarded : Guarded Directory.call guard m.directory
        (passCalls todo skipped resumed (m.setPending (skipped ++ todo))))
  | fail {m' : Main} {calls : List Call} {resumed' : List Name}
      (tries : Tries guard (skipped ++ c :: todo) c m m' calls)
      (failed : (m'.executeCommand c true).1 = false)
      (state : processPass (c :: todo) skipped resumed m =
        processPass todo (skipped ++ [c]) resumed' (m'.executeCommand c true).2)
      (meets : PassMeets E todo (skipped ++ [c]) resumed' (m'.executeCommand c true).2 →
        PassMeets E (c :: todo) skipped resumed m)
      (guarded : Guarded Directory.call guard (m'.executeCommand c true).2.directory
        (passCalls todo (skipped ++ [c]) resumed' (m'.executeCommand c true).2))
  | execute {m' : Main} {calls : List Call} {resumed' : List Name}
      (tries : Tries guard (skipped ++ c :: todo) c m m' calls)
      (executed : (m'.executeCommand c true).1 = true)
      (gone : Continues (m'.executeCommand c true).2
        ((m'.executeCommand c true).2.setPending (skipped ++ todo)) [])
      (state : processPass (c :: todo) skipped resumed m = (true, (processPass todo skipped resumed'
        ((m'.executeCommand c true).2.setPending (skipped ++ todo))).2))
      (meets : E (skipped ++ c :: todo) c → PassMeets E todo skipped resumed'
        ((m'.executeCommand c true).2.setPending (skipped ++ todo)) →
          PassMeets E (c :: todo) skipped resumed m)
      (guarded : Guarded Directory.call guard (m'.executeCommand c true).2.directory
        (passCalls todo skipped resumed'
          ((m'.executeCommand c true).2.setPending (skipped ++ todo))))

theorem passStep {todo skipped : List Issued} (resumed : List Name)
    (waits : m.pending = skipped ++ c :: todo)
    (guarded : Guarded Directory.call guard m.directory
      (passCalls (c :: todo) skipped resumed m)) : PassStep guard E c todo skipped resumed m := by
  have hless : (skipped ++ todo).Sublist (skipped ++ c :: todo) :=
    (List.sublist_cons_self c todo).append_left skipped
  have hstate := processPass_cons c todo skipped resumed m
  rw [passCalls] at guarded
  by_cases hinactive : m.labelActive c.command.txnLabel = false
  · rw [if_pos hinactive] at hstate guarded
    refine .drop (continues_setPending (waits ▸ hless)) hstate (fun hmeets => ?_) guarded
    rw [PassMeets, if_pos hinactive]
    exact hmeets
  · have hannounce := m.continues_announce c resumed
    obtain ⟨_, hsame⟩ := m.announce_spec (quiet_by (E := Any) m c.command) c resumed
    rw [if_neg hinactive] at hstate guarded
    dsimp only at hstate guarded
    rw [guarded_append, guarded_append, ← hannounce.directory, ← directory_executeCommand]
      at guarded
    have tries : Tries guard (skipped ++ c :: todo) c m (m.announce c resumed).2
        (m.announceCalls c resumed) :=
      { announced := hannounce
        quiet := m.announceCalls_requester c resumed
        guarded := guarded.1
        waits := hsame.pending.trans waits
        active := by
          rw [labelActive_congr hannounce.tm hannounce.txnIds]
          exact Bool.eq_true_of_not_eq_false hinactive
        guardedTrial := guarded.2.1 }
    by_cases hdone : ((m.announce c resumed).2.executeCommand c true).1 = true
    · have hpending := ((m.announce c resumed).2.executeCommand_frame c true).2.2
      rw [if_pos hdone] at hstate guarded
      refine .execute tries hdone (continues_setPending ?_) hstate (fun hc hmeets => ?_)
        guarded.2.2
      · rw [hpending, tries.waits]
        exact hless
      · rw [PassMeets, if_neg hinactive, if_pos hdone]
        exact ⟨hc, hmeets⟩
    · rw [if_neg hdone] at hstate guarded
      refine .fail tries (Bool.eq_false_of_not_eq_true hdone) hstate (fun hmeets => ?_) guarded.2.2
      rw [PassMeets, if_neg hinactive, if_neg hdone]
      exact hmeets

/-- What lookups and trials that meet the guard keep. -/
structure Known (guard : Directory → Call → Prop) (I : Main → Prop) : Prop where
  quiet : ∀ {m m' : Main} {calls : List Call}, I m → Continues m m' calls →
    (∀ call ∈ calls, call.requester = none) →
    Guarded Directory.call guard m.directory calls → I m'
  trial : ∀ {m : Main} {c : Issued}, I m → c ∈ m.pending →
    m.labelActive c.command.txnLabel = true →
    Guarded Directory.call guard m.directory (m.executeCalls c) → I (m.executeCommand c true).2

theorem known_of_continues (h : ∀ {m m' : Main} {calls : List Call}, I m → Continues m m' calls →
    Guarded Directory.call guard m.directory calls → I m') : Known guard I where
  quiet := fun hI hcont _ guarded => h hI hcont guarded
  trial := fun hI _ _ guarded => h hI (continues_executeCommand _ _ true) guarded

/-- What a trial that fails says about its command, and neither lookups nor other trials
that fail change. -/
structure Lasting (guard : Directory → Call → Prop) (I : Main → Prop)
    (K : Main → Issued → Prop) : Prop extends Known guard I where
  kept : ∀ {m m' : Main} {calls : List Call} {c : Issued}, I m → Continues m m' calls →
    (∀ call ∈ calls, call.requester = none) → Guarded Directory.call guard m.directory calls →
    K m c → K m' c
  keptByTrial : ∀ {m : Main} {c c' : Issued}, I m → c' ∈ m.pending →
    m.labelActive c'.command.txnLabel = true →
    Guarded Directory.call guard m.directory (m.executeCalls c') →
    (m.executeCommand c' true).1 = false → K m c → K (m.executeCommand c' true).2 c
  failed : ∀ {m : Main} {c : Issued}, I m → c ∈ m.pending →
    m.labelActive c.command.txnLabel = true →
    Guarded Directory.call guard m.directory (m.executeCalls c) →
    (m.executeCommand c true).1 = false → K (m.executeCommand c true).2 c

/-- What a trial that fails leaves known: `K` of the commands before it, and of its own. -/
theorem Lasting.fails (h : Lasting guard I K) {skipped todo : List Issued} {calls : List Call}
    (tries : Tries guard (skipped ++ c :: todo) c m m' calls)
    (failed : (m'.executeCommand c true).1 = false) (hI : I m) (hskipped : ∀ c ∈ skipped, K m c) :
    (m'.executeCommand c true).2.pending = skipped ++ [c] ++ todo ∧
      I (m'.executeCommand c true).2 ∧
      ∀ c' ∈ skipped ++ [c], K (m'.executeCommand c true).2 c' := by
  obtain ⟨hannounce, hquiet, guarded, waits, hactive, guardedTrial⟩ := tries
  have hI' := h.quiet hI hannounce hquiet guarded
  have hc : c ∈ m'.pending := waits ▸ List.mem_append_right _ List.mem_cons_self
  refine ⟨?_, h.trial hI' hc hactive guardedTrial,
    List.forall_mem_append.mpr ⟨fun c' hc' => ?_, List.forall_mem_singleton.mpr ?_⟩⟩
  · rw [(m'.executeCommand_frame c true).2.2, waits, List.append_assoc]
    rfl
  · have hkept := h.kept hI hannounce hquiet guarded (hskipped c' hc')
    exact h.keptByTrial hI' hc hactive guardedTrial failed hkept
  · exact h.failed hI' hc hactive guardedTrial failed

/-- It holds of every command that is left by a pass which executes nothing. -/
theorem Lasting.pass (h : Lasting guard I K) :
    ∀ (todo skipped : List Issued) (resumed : List Name) (m : Main),
      m.pending = skipped ++ todo → I m →
      Guarded Directory.call guard m.directory (passCalls todo skipped resumed m) →
      (processPass todo skipped resumed m).1 = false → (∀ c ∈ skipped, K m c) →
      I (processPass todo skipped resumed m).2.2 ∧
        ∀ c ∈ (processPass todo skipped resumed m).2.2.pending,
          K (processPass todo skipped resumed m).2.2 c
  | [], skipped, resumed, m, waits, hI, _, _, hskipped => by
      rw [List.append_nil] at waits
      exact ⟨hI, fun c hc => hskipped c (waits ▸ hc)⟩
  | c :: todo, skipped, resumed, m, waits, hI, guarded, hnone, hskipped => by
      have hstep : PassStep guard Any c todo skipped resumed m := passStep resumed waits guarded
      cases hstep with
      | drop gone state _ guarded =>
          rw [state] at hnone ⊢
          exact h.pass todo skipped resumed _ rfl (h.quiet hI gone (List.forall_mem_nil _) trivial)
            guarded hnone
            fun c' hc' => h.kept hI gone (List.forall_mem_nil _) trivial (hskipped c' hc')
      | fail tries failed state _ guarded =>
          rw [state] at hnone ⊢
          obtain ⟨hwaits, hI', hleft⟩ := h.fails tries failed hI hskipped
          exact h.pass todo (skipped ++ [c]) _ _ hwaits hI' guarded hnone hleft
      | execute _ _ _ state => rw [state] at hnone; cases hnone

/-- What the executions of a pass meet: `E`, given what `K` says of the commands that the
pass has left behind, which executions do not change either. -/
structure Overtakes (guard : Directory → Call → Prop) (I : Main → Prop)
    (K : Main → Issued → Prop) (E : List Issued → Issued → Prop) : Prop
    extends Lasting guard I K where
  keptByExecution : ∀ {m : Main} {c c' : Issued}, I m → c' ∈ m.pending →
    m.labelActive c'.command.txnLabel = true →
    Guarded Directory.call guard m.directory (m.executeCalls c') →
    (m.executeCommand c' true).1 = true → K m c → K (m.executeCommand c' true).2 c
  executed : ∀ {m : Main} {c : Issued} {skipped todo : List Issued}, I m →
    m.pending = skipped ++ c :: todo → m.labelActive c.command.txnLabel = true →
    Guarded Directory.call guard m.directory (m.executeCalls c) →
    (m.executeCommand c true).1 = true → (∀ c' ∈ skipped, K m c') → E (skipped ++ c :: todo) c

theorem Overtakes.pass (h : Overtakes guard I K E) :
    ∀ (todo skipped : List Issued) (resumed : List Name) (m : Main),
      m.pending = skipped ++ todo → I m →
      Guarded Directory.call guard m.directory (passCalls todo skipped resumed m) →
      (∀ c ∈ skipped, K m c) →
      PassMeets E todo skipped resumed m ∧ I (processPass todo skipped resumed m).2.2
  | [], _, _, _, _, hI, _, _ => ⟨trivial, hI⟩
  | c :: todo, skipped, resumed, m, waits, hI, guarded, hskipped => by
      have hnone : ∀ call ∈ ([] : List Call), call.requester = none := List.forall_mem_nil _
      have hstep : PassStep guard E c todo skipped resumed m := passStep resumed waits guarded
      cases hstep with
      | drop gone state meets guarded =>
          obtain ⟨hmeets, hend⟩ := h.pass todo skipped resumed _ rfl
            (h.quiet hI gone hnone trivial) guarded
            fun c' hc' => h.kept hI gone hnone trivial (hskipped c' hc')
          exact ⟨meets hmeets, state ▸ hend⟩
      | fail tries failed state meets guarded =>
          obtain ⟨hwaits, hI', hleft⟩ := h.fails tries failed hI hskipped
          obtain ⟨hmeets, hend⟩ := h.pass todo (skipped ++ [c]) _ _ hwaits hI' guarded hleft
          exact ⟨meets hmeets, state ▸ hend⟩
      | execute tries executed gone state meets guarded =>
          obtain ⟨hannounce, hquiet, guardedAnnounce, hwaits, hactive, guardedTrial⟩ := tries
          have hI' := h.quiet hI hannounce hquiet guardedAnnounce
          have hc : c ∈ _ := hwaits ▸ List.mem_append_right _ List.mem_cons_self
          have hI'' := h.trial hI' hc hactive guardedTrial
          have hkept := fun c' hc' =>
            h.kept hI hannounce hquiet guardedAnnounce (hskipped c' hc')
          obtain ⟨hmeets, hend⟩ := h.pass todo skipped _ _ rfl (h.quiet hI'' gone hnone trivial)
            guarded fun c' hc' => h.kept hI'' gone hnone trivial
              (h.keptByExecution hI' hc hactive guardedTrial executed (hkept c' hc'))
          have hexecuted := h.executed hI' hwaits hactive guardedTrial executed hkept
          exact ⟨meets hexecuted hmeets, state ▸ hend⟩

theorem Overtakes.loop (h : Overtakes guard I K E) : ∀ (fuel : Nat) (resumed : List Name)
    (m : Main), I m → Guarded Directory.call guard m.directory (loopCalls fuel resumed m) →
      LoopMeets E fuel resumed m ∧ I (processLoop fuel resumed m)
  | 0, _, _, hI, _ => ⟨trivial, hI⟩
  | fuel + 1, resumed, m, hI, guarded => by
      rw [loopCalls, guarded_append] at guarded
      obtain ⟨hmeets, hend⟩ := h.pass m.pending [] resumed m rfl hI guarded.1
        (List.forall_mem_nil _)
      have hpass := continues_pass m.pending [] resumed m rfl
      rw [LoopMeets, processLoop_succ]
      by_cases hprogress : (processPass m.pending [] resumed m).1 = true
      · have hrest := guarded.2
        rw [if_pos hprogress, ← hpass.directory] at hrest
        obtain ⟨hmeets', hend'⟩ := h.loop fuel _ _ hend hrest
        rw [if_pos hprogress]
        exact ⟨⟨hmeets, fun _ => hmeets'⟩, hend'⟩
      · rw [if_neg hprogress]
        exact ⟨⟨hmeets, fun hdone => absurd hdone hprogress⟩, hend⟩

theorem Known.overtakes (h : Known guard I) : Overtakes guard I (fun _ _ => True) Any where
  toKnown := h
  kept := fun _ _ _ _ _ => trivial
  keptByTrial := fun _ _ _ _ _ _ => trivial
  failed := fun _ _ _ _ _ => trivial
  keptByExecution := fun _ _ _ _ _ _ => trivial
  executed := fun _ _ _ _ _ _ => trivial

theorem Known.pass (h : Known guard I) (resumed : List Name) (hI : I m)
    (guarded : Guarded Directory.call guard m.directory (passCalls m.pending [] resumed m)) :
    I (processPass m.pending [] resumed m).2.2 :=
  (h.overtakes.pass m.pending [] resumed m rfl hI guarded (List.forall_mem_nil _)).2

theorem Known.loop (h : Known guard I) (fuel : Nat) (resumed : List Name) (hI : I m)
    (guarded : Guarded Directory.call guard m.directory (loopCalls fuel resumed m)) :
    I (processLoop fuel resumed m) :=
  (h.overtakes.loop fuel resumed m hI guarded).2

/-- The loop makes some calls and then a last pass, which executes nothing. -/
theorem processLoop_last : ∀ (fuel : Nat) (resumed : List Name) (m : Main),
    m.pending.length < fuel → Guarded Directory.call guard m.directory (loopCalls fuel resumed m) →
      ∃ resumed' last, (∀ {I : Main → Prop}, Known guard I → I m → I last) ∧
        Guarded Directory.call guard last.directory (passCalls last.pending [] resumed' last) ∧
        (processPass last.pending [] resumed' last).1 = false ∧
        (processPass last.pending [] resumed' last).2.2 = processLoop fuel resumed m
  | 0, _, _, h, _ => absurd h (Nat.not_lt_zero _)
  | fuel + 1, resumed, m, h, guarded => by
      obtain ⟨_, _, hlt⟩ := processPass_leaves m.pending [] resumed m rfl (List.forall_mem_nil _)
      have hpass := continues_pass m.pending [] resumed m rfl
      rw [loopCalls, guarded_append, ← hpass.directory] at guarded
      rw [processLoop_succ]
      by_cases hprogress : (processPass m.pending [] resumed m).1 = true
      · have hless := hlt hprogress
        have hrest := guarded.2
        rw [if_pos hprogress] at hrest
        obtain ⟨resumed', last, hknown, hlast⟩ :=
          processLoop_last fuel (processPass m.pending [] resumed m).2.1
            (processPass m.pending [] resumed m).2.2 (by omega) hrest
        rw [if_pos hprogress]
        exact ⟨resumed', last, fun h hI => hknown h (h.pass resumed hI guarded.1), hlast⟩
      · rw [if_neg hprogress]
        exact ⟨resumed, m, fun _ hI => hI, guarded.1, Bool.eq_false_of_not_eq_true hprogress, rfl⟩

end Rules

/-! ## COMMIT and ABORT -/

/-- The state in which COMMIT and ABORT of an active transaction try the pending
commands. -/
def ended (m : Main) (cmd : Command) (outcome : Outcome) (txnId : Nat) : Main :=
  (m.finish txnId outcome).print (.completed cmd.txnLabel outcome)

theorem complete_active {m : Main} {cmd : Command} {txnId : Nat} (outcome : Outcome)
    (label : m.txnIds[cmd.txnLabel]? = some txnId)
    (active : m.tm.isTransactionActive txnId = true) :
    m.complete cmd outcome = (m.ended cmd outcome txnId).processPending ∧
      m.completeCalls cmd outcome = .complete txnId ::
        loopCalls ((m.ended cmd outcome txnId).pending.length + 1) []
          (m.ended cmd outcome txnId) := by
  have hdone : (m.tm.complete txnId outcome).1 = true :=
    m.tm.complete_iff.mpr (m.tm.isTransactionActive_iff.mp active)
  rw [complete, completeCalls, label]
  dsimp only
  rw [if_neg (by simp [hdone]), if_neg (by simp [hdone])]
  exact ⟨rfl, rfl⟩

/-- Where no command is EXIT, one more command is handled after the others. -/
theorem run_concat_of_running : ∀ {input : List Command} (m : Main) {cmd : Command},
    beforeExit input = input → cmd.op ≠ .exit →
      m.loop (input ++ [cmd]) = (m.loop input).handle cmd ∧
        m.calls (input ++ [cmd]) = m.calls input ++ (m.loop input).handleCalls cmd
  | [], m, cmd, _, hop => by
      simp [loop, Main.calls, hop]
  | first :: input, m, cmd, running, hop => by
      rw [beforeExit, List.takeWhile_cons] at running
      split at running
      · next hfirst =>
          have hfirst : first.op ≠ .exit := by simpa using hfirst
          obtain ⟨hloop, hcalls⟩ :=
            run_concat_of_running (m.handle first) (List.cons.inj running).2 hop
          rw [List.cons_append, loop, if_neg hfirst, loop, if_neg hfirst, Main.calls,
            if_neg hfirst, Main.calls, if_neg hfirst, hcalls, List.append_assoc]
          exact ⟨hloop, rfl⟩
      · cases running

/-- What guards the calls of a run guards the calls of each command. -/
theorem guarded_handleCalls {guard : Directory → Call → Prop} :
    ∀ (input : List Command) (m : Main), Guarded Directory.call guard m.directory (m.calls input) →
      Guarded handle (fun m cmd => Guarded Directory.call guard m.directory (m.handleCalls cmd)) m
        (beforeExit input)
  | [], _, _ => trivial
  | cmd :: input, m, allowed => by
      rw [Main.calls] at allowed
      rw [beforeExit, List.takeWhile_cons]
      by_cases hexit : cmd.op = .exit
      · rw [if_neg (by simpa using hexit)]
        trivial
      · rw [if_neg hexit, guarded_append, ← directory_handle] at allowed
        rw [if_pos (by simpa using hexit)]
        exact ⟨allowed.1, guarded_handleCalls input (m.handle cmd) allowed.2⟩

end Main

end TxnEngine
