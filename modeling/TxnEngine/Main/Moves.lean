import TxnEngine.Main.Calls
import TxnEngine.Main.Pending

/-!
# What a command does and prints, move by move

The moves are larger than the steps of `Main/Steps.lean`.  A move finds its
resource, changes the state and prints its line at once, so it says which line is
printed in which state.  `handle_moves` takes a command apart.  An invariant about
the lines is then one case analysis on the moves, and every move is a sequence of
steps (`Move.reaches`), so the invariants of the steps hold between moves.
-/

namespace TxnEngine

open Std Runs

namespace Main

/-- The lines that report and change nothing, with the state they are printed in. -/
inductive Reply (m : Main) (cmd : Command) : Output → Prop where
  | help (hop : cmd.op = .help) : Reply m cmd .help
  | unknown {word : Name} (hop : cmd.op = .other word) : Reply m cmd (.unknown cmd.op)
  | invalid {word : String} (hword : word ∈ ["BEGIN", "READ", "WRITE", "SHOW"]) :
      Reply m cmd (.invalid word)
  | alreadyExists (full : cmd.txnLabel ≠ []) (known : cmd.txnLabel ∈ m.txnIds) :
      Reply m cmd (.alreadyExists cmd.txnLabel)
  | notFound (unknown : cmd.txnLabel ∉ m.txnIds) : Reply m cmd (.notFound cmd.txnLabel)
  | notActive (known : cmd.txnLabel ∈ m.txnIds) (ended : m.labelActive cmd.txnLabel = false) :
      Reply m cmd (.notActive cmd.txnLabel)
  | status : Reply m cmd (.status m.tm.getActiveTransactionCount m.pending.length
      m.tm.committedCount m.tm.abortedCount)
  | waiting {c : Issued} (waits : c ∈ m.pending)
      (active : m.labelActive c.command.txnLabel = true) :
      Reply m cmd (.waiting c.command.txnLabel c.command.resourceName)
  | resumes {c : Issued} (waits : c ∈ m.pending)
      (active : m.labelActive c.command.txnLabel = true) :
      Reply m cmd (.resumes c.command.txnLabel)

/-- The moves of handling a command. -/
inductive Move (cmd : Command) : Main → Main → Prop where
  | reply {m : Main} {line : Output} (h : Reply m cmd line) : Move cmd m (m.print line)
  | lookup {m : Main} (name : Name) : Move cmd m (m.ensureResource name).2
  | refuse {m : Main} {c : Issued} {txnId : Nat} {access : Access} (waits : c ∈ m.pending)
      (label : m.txnIds[c.command.txnLabel]? = some txnId)
      (active : m.tm.isTransactionActive txnId = true) (hop : c.command.op = access.op)
      (denied : ((m.ensureResource c.command.resourceName).2.lockMgr.requestLock txnId
        (m.ensureResource c.command.resourceName).1 access.mode).1 = false) :
      Move cmd m ((m.ensureResource c.command.resourceName).2.requested txnId
        (m.ensureResource c.command.resourceName).1 access.mode)
  | execute {m : Main} {c : Issued} {before later : List Issued} {txnId : Nat} {access : Access}
      (waits : m.pending = before ++ c :: later)
      (label : m.txnIds[c.command.txnLabel]? = some txnId)
      (active : m.tm.isTransactionActive txnId = true) (hop : c.command.op = access.op)
      (granted : ((m.ensureResource c.command.resourceName).2.lockMgr.requestLock txnId
        (m.ensureResource c.command.resourceName).1 access.mode).1 = true) :
      Move cmd m ((((m.ensureResource c.command.resourceName).2.requested txnId
        (m.ensureResource c.command.resourceName).1 access.mode).perform access c txnId
          (m.ensureResource c.command.resourceName).1).setPending (before ++ later))
  | drop {m : Main} {c : Issued} {before later : List Issued}
      (waits : m.pending = before ++ c :: later)
      (inactive : m.labelActive c.command.txnLabel = false) :
      Move cmd m (m.setPending (before ++ later))
  | start {m : Main} (hop : cmd.op = .begin) (full : cmd.txnLabel ≠ [])
      (fresh : cmd.txnLabel ∉ m.txnIds) :
      Move cmd m ((m.start cmd.txnLabel).print (.started cmd.txnLabel))
  | issue {m : Main} {access : Access} (hop : cmd.op = access.op) (label : cmd.txnLabel ≠ [])
      (name : cmd.resourceName ≠ []) (known : cmd.txnLabel ∈ m.txnIds) :
      Move cmd m ((m.issue cmd).2.setPending (m.pending ++ [(m.issue cmd).1]))
  | finish {m : Main} {outcome : Outcome} {txnId : Nat} {txn : Transaction}
      (hop : cmd.op = outcome.op) (label : m.txnIds[cmd.txnLabel]? = some txnId)
      (active : m.tm.activeTransactions[txnId]? = some txn) :
      Move cmd m ((m.finish txnId outcome).print (.completed cmd.txnLabel outcome))
  | shows {m : Main} (hop : cmd.op = .show) (full : cmd.resourceName ≠ []) :
      Move cmd m ((m.ensureResource cmd.resourceName).2.print (.shows cmd.resourceName
        ((m.ensureResource cmd.resourceName).2.valueOf (m.ensureResource cmd.resourceName).1)))
  | checkpoint {m : Main} (hop : cmd.op = .checkpoint) : Move cmd m m.checkpoint
  | recover {m : Main} (hop : cmd.op = .recover) : Move cmd m m.recover

/-- Sequences of moves. -/
abbrev Moves (cmd : Command) : Main → Main → Prop := Relation.ReflTransGen (Move cmd)

variable {m : Main} {cmd : Command} {c : Issued}

/-! ## Trials -/

theorem labelActive_of_label {txnLabel : Name} {txnId : Nat}
    (label : m.txnIds[txnLabel]? = some txnId) :
    m.labelActive txnLabel = m.tm.isTransactionActive txnId := by
  rw [labelActive, label]

theorem ensureSegments_output : ∀ (segments : List Name) (path : Name) (lastId : Nat) (m : Main),
    (ensureSegments segments path lastId m).2.output = m.output
  | [], _, _, _ => rfl
  | segment :: rest, path, lastId, m => by
      rw [ensureSegments]
      dsimp only
      split
      · exact ensureSegments_output rest _ _ m
      · exact ensureSegments_output rest _ _ _

/-- A lookup prints nothing. -/
theorem ensureResource_output (m : Main) (name : Name) :
    (m.ensureResource name).2.output = m.output := by
  rw [ensureResource]
  dsimp only
  split
  · exact ensureSegments_output _ _ _ m
  · exact ensureSegments_output _ _ _ m

/-- A trial of a waiting command: if it fails, the command still waits. -/
theorem executeCommand_moves {before later : List Issued} (fromPending : Bool)
    (waits : m.pending = before ++ c :: later) :
    Moves cmd m ((m.executeCommand c fromPending).2.setPending
      (if (m.executeCommand c fromPending).1 then before ++ later
        else before ++ c :: later)) := by
  rcases m.trial_cases c with hidle | ⟨txnId, access, label, active, hop⟩
  · rw [(executeCommand_idle hidle fromPending).1, if_neg (by simp), setPending, ← waits]
  · have hsame := m.ensureResource_same c.command.resourceName
    have hmem : c ∈ m.pending := waits ▸ List.mem_append_right before List.mem_cons_self
    rw [executeCommand_access label active hop]
    dsimp only
    by_cases hanswer : ((m.ensureResource c.command.resourceName).2.lockMgr.requestLock txnId
        (m.ensureResource c.command.resourceName).1 access.mode).1 = true
    · rw [if_pos hanswer, if_pos rfl]
      exact .single (.execute waits label active hop hanswer)
    · have hrefuse : Move cmd m _ := .refuse hmem label active hop (Bool.eq_false_iff.mpr hanswer)
      rw [if_neg hanswer, if_neg Bool.false_ne_true]
      have htm := hsame.tm
      have hids := hsame.txnIds
      have hpending : ((m.ensureResource c.command.resourceName).2.requested txnId
          (m.ensureResource c.command.resourceName).1 access.mode).pending =
            before ++ c :: later := hsame.pending.trans waits
      generalize hasked : (m.ensureResource c.command.resourceName).2.requested txnId
        (m.ensureResource c.command.resourceName).1 access.mode = asked at hrefuse hpending ⊢
      have hstay : asked.setPending (before ++ c :: later) = asked := by
        rw [setPending, ← hpending]
      cases fromPending with
      | true =>
          dsimp only
          rw [if_pos rfl, hstay]
          exact .single hrefuse
      | false =>
          have hactive : asked.labelActive c.command.txnLabel = true := by
            rw [← hasked]
            refine (labelActive_congr htm hids _).trans ?_
            rw [labelActive_of_label label, active]
          have hwaits : c ∈ asked.pending := hpending ▸ waits ▸ hmem
          have hreply : Move cmd asked _ := .reply (.waiting hwaits hactive)
          dsimp only
          rw [if_neg Bool.false_ne_true]
          show Moves cmd m ((asked.setPending (before ++ c :: later)).print _)
          rw [hstay]
          exact (Relation.ReflTransGen.single hrefuse).tail hreply

/-! ## `processPending` -/

theorem announce_moves {resumed : List Name} (waits : c ∈ m.pending)
    (active : m.labelActive c.command.txnLabel = true) :
    Moves cmd m (m.announce c resumed).2 ∧ SameBut m (m.announce c resumed).2 := by
  have hsame := m.ensureResource_same c.command.resourceName
  have hlookup : Move cmd m _ := .lookup c.command.resourceName
  have hstay : SameBut m m := ⟨rfl, rfl, rfl, rfl, rfl, rfl⟩
  rw [announce]
  cases m.txnIds[c.command.txnLabel]? with
  | none => exact ⟨.refl, hstay⟩
  | some txnId =>
      dsimp only
      split
      · split
        · have hwaits : c ∈ (m.ensureResource c.command.resourceName).2.pending :=
            hsame.pending ▸ waits
          have hactive := (labelActive_congr hsame.tm hsame.txnIds c.command.txnLabel).trans active
          have hreply : Move cmd _ _ := .reply (.resumes hwaits hactive)
          refine ⟨(Relation.ReflTransGen.single hlookup).tail hreply, hsame.trans ?_⟩
          exact ⟨rfl, rfl, rfl, rfl, rfl, rfl⟩
        · exact ⟨.single hlookup, hsame⟩
      · exact ⟨.refl, hstay⟩

theorem processPass_moves : ∀ (todo skipped : List Issued) (resumed : List Name) (m : Main),
    m.pending = skipped ++ todo → Moves cmd m (processPass todo skipped resumed m).2.2
  | [], _, _, _, _ => .refl
  | c :: todo, skipped, resumed, m, waits => by
      rw [processPass_cons]
      split
      · next hinactive =>
          have hdrop : Move cmd m _ := .drop waits hinactive
          exact .head hdrop (processPass_moves todo skipped resumed _ rfl)
      · next hactive =>
          have hmem : c ∈ m.pending := waits ▸ List.mem_append_right skipped List.mem_cons_self
          have hannounce : Moves cmd m (m.announce c resumed).2 ∧
              SameBut m (m.announce c resumed).2 :=
            announce_moves hmem (Bool.eq_true_of_not_eq_false hactive)
          obtain ⟨hann, hsame⟩ := hannounce
          dsimp only
          generalize m.announce c resumed = announced at hann hsame ⊢
          obtain ⟨resumed', m'⟩ := announced
          dsimp only at hann hsame ⊢
          have waits' : m'.pending = skipped ++ c :: todo := hsame.pending.trans waits
          have hframe := m'.executeCommand_frame c true
          have htrial : Moves cmd m' _ := executeCommand_moves true waits'
          generalize m'.executeCommand c true = trial at hframe htrial ⊢
          obtain ⟨executed, m''⟩ := trial
          cases executed with
          | true =>
              rw [if_pos rfl] at htrial ⊢
              exact (hann.trans htrial).trans (processPass_moves todo skipped resumed' _ rfl)
          | false =>
              have hpending : m''.pending = skipped ++ c :: todo := hframe.2.2.trans waits'
              have hstay : m''.setPending (skipped ++ c :: todo) = m'' := by
                rw [setPending, ← hpending]
              rw [if_neg (by simp), hstay] at htrial
              rw [if_neg (by simp)]
              refine (hann.trans htrial).trans (processPass_moves todo _ resumed' m'' ?_)
              rw [hpending, List.append_assoc, List.singleton_append]

theorem processLoop_moves : ∀ (fuel : Nat) (resumed : List Name) (m : Main),
    Moves cmd m (processLoop fuel resumed m)
  | 0, _, _ => .refl
  | fuel + 1, resumed, m => by
      have hpass : Moves cmd m _ := processPass_moves m.pending [] resumed m rfl
      rw [processLoop]
      generalize processPass m.pending [] resumed m = pass at hpass
      obtain ⟨progress, resumed', m'⟩ := pass
      cases progress with
      | false => exact hpass
      | true => exact hpass.trans (processLoop_moves fuel resumed' m')

/-! ## The commands -/

theorem submit_moves (m : Main) {access : Access} (hop : cmd.op = access.op) {word : String}
    (hword : word ∈ ["BEGIN", "READ", "WRITE", "SHOW"]) : Moves cmd m (m.submit cmd word) := by
  rw [submit_eq]
  split
  · exact .single (.reply (.invalid hword))
  · next hfull =>
      rw [not_or, List.isEmpty_iff, List.isEmpty_iff] at hfull
      split
      · next hunknown => exact .single (.reply (.notFound hunknown))
      · next hknown =>
          rw [not_not] at hknown
          have hissue : Move cmd m _ := .issue hop hfull.1 hfull.2 hknown
          split
          · exact .single hissue
          · -- the trial of the new command, as one of a command that waits last
            have htrial :
                Moves cmd ((m.issue cmd).2.setPending (m.pending ++ [(m.issue cmd).1])) _ :=
              executeCommand_moves false (show _ = m.pending ++ (m.issue cmd).1 :: [] from rfl)
            have hframe := (m.issue cmd).2.executeCommand_frame (m.issue cmd).1 false
            rw [executeCommand_setPending] at htrial
            generalize (m.issue cmd).2.executeCommand (m.issue cmd).1 false = trial
              at htrial hframe ⊢
            obtain ⟨executed, m'⟩ := trial
            have hpending : m'.pending = m.pending := hframe.2.2
            refine .head hissue ?_
            cases executed with
            | true =>
                have hstay : m'.setPending m.pending = m' := by rw [setPending, ← hpending]
                rw [if_pos rfl, List.append_nil] at htrial
                dsimp only
                rw [if_pos rfl, ← hstay]
                exact htrial
            | false =>
                rw [if_neg (by simp)] at htrial
                dsimp only
                rw [if_neg (by simp), hpending]
                exact htrial

theorem complete_moves (m : Main) {outcome : Outcome} (hop : cmd.op = outcome.op) :
    Moves cmd m (m.complete cmd outcome) := by
  rw [complete]
  cases hlabel : m.txnIds[cmd.txnLabel]? with
  | none =>
      have hunknown : cmd.txnLabel ∉ m.txnIds := by
        intro hmem
        rw [← ExtTreeMap.isSome_getElem?_iff_mem, hlabel] at hmem
        cases hmem
      exact .single (.reply (.notFound hunknown))
  | some txnId =>
      dsimp only
      split
      · next hfailed =>
          have hknown : cmd.txnLabel ∈ m.txnIds := by
            rw [← ExtTreeMap.isSome_getElem?_iff_mem, hlabel]
            rfl
          have hover : m.labelActive cmd.txnLabel = false := by
            rw [labelActive_of_label hlabel, Bool.eq_false_iff]
            intro hactive
            have hdone : (m.tm.complete txnId outcome).1 = true :=
              m.tm.complete_iff.mpr (m.tm.isTransactionActive_iff.mp hactive)
            exact Bool.noConfusion (hfailed.symm.trans hdone)
          exact .single (.reply (.notActive hknown hover))
      · next hdone =>
          obtain ⟨txn, hactive⟩ := m.tm.complete_iff.mp (Bool.eq_true_of_not_eq_false hdone)
          exact .head (.finish hop hlabel hactive) (processLoop_moves _ _ _)

/-- Handling a command is a sequence of moves. -/
theorem handle_moves (m : Main) (cmd : Command) : Moves cmd m (m.handle cmd) := by
  rw [handle]
  cases hop : cmd.op with
  | help => exact .single (.reply (.help hop))
  | exit => exact .refl
  | begin =>
      show Moves cmd m (m.begin cmd)
      rw [begin]
      split
      · exact .single (.reply (.invalid (by simp)))
      · next hfull =>
          rw [List.isEmpty_iff] at hfull
          split
          · next hknown => exact .single (.reply (.alreadyExists hfull hknown))
          · next hfresh => exact .single (.start hop hfull hfresh)
  | read => exact m.submit_moves (show cmd.op = Access.op .read from hop) (by simp)
  | write => exact m.submit_moves (show cmd.op = Access.op .write from hop) (by simp)
  | commit => exact m.complete_moves hop
  | abort => exact m.complete_moves hop
  | «show» =>
      show Moves cmd m (m.showValue cmd)
      rw [showValue]
      split
      · exact .single (.reply (.invalid (by simp)))
      · next hfull => exact .single (.shows hop (by simpa using hfull))
  | status => exact .single (.reply .status)
  | checkpoint => exact .single (.checkpoint hop)
  | recover => exact .single (.recover hop)
  | other word => exact .single (.reply (hop ▸ .unknown hop))

/-! ## Moves as steps -/

/-- A move is a sequence of steps.  BEGIN is one of them only if the move begins a
transaction. -/
theorem Move.reaches {P : Main → Act → Prop} (hP : ∀ m a, a ≠ .begin → P m a) {m' : Main}
    (h : Move cmd m m') (hbegin : m'.tm.begun = m.tm.begun + 1 → P m .begin) :
    Reaches Step P m m' := by
  have hcreate : ∀ m, P m .create := fun m => hP m _ (by simp)
  have hlookup : ∀ name, Reaches Step P m (m.ensureResource name).2 := fun name =>
    (m.ensureResource_spec hcreate name).1
  have hprint : ∀ (m : Main) (line : Output), Reaches Step P m (m.print line) := fun m line =>
    .single (.print line) (hP m _ (by simp))
  cases h with
  | reply _ => exact hprint _ _
  | lookup name => exact hlookup name
  | refuse _ _ _ _ denied => exact (hlookup _).trans (.single (.refuse denied) (hP _ _ (by simp)))
  | @execute c before later txnId access waits label active hop granted =>
      obtain ⟨hfound, hsame, hstored⟩ := m.ensureResource_spec hcreate c.command.resourceName
      refine hfound.trans (.single (.execute access ?_ ?_ ?_ hstored granted) (hP _ _ (by simp)))
      · rw [hsame.pending, waits]
      · rw [hsame.txnIds, label]
      · rw [hsame.tm, active]
  | drop waits inactive => exact .single (.drop waits inactive) (hP _ _ (by simp))
  | start hop _ fresh =>
      have hstart : Reaches Step P m (m.start cmd.txnLabel) := .single (.begin fresh) (hbegin rfl)
      exact hstart.trans (hprint _ _)
  | issue _ _ _ known => exact .single (.issue known) (hP _ _ (by simp))
  | finish _ _ active =>
      exact Reaches.trans (.single (.finish active) (hP _ _ (by simp))) (hprint _ _)
  | shows => exact (hlookup _).trans (hprint _ _)
  | checkpoint => exact .single .checkpoint (hP _ _ (by simp))
  | recover => exact .single .recover (hP _ _ (by simp))

/-- The history only grows. -/
theorem Move.trace {m' : Main} (h : Move cmd m m') : ∃ events, m'.trace = m.trace ++ events := by
  refine (h.reaches (P := fun _ _ => True) (fun _ _ _ => trivial) fun _ => trivial).invariant
    (I := fun m' => ∃ events, m'.trace = m.trace ++ events) ?_ ⟨[], (List.append_nil _).symm⟩
  rintro m₁ m₂ a hs - ⟨events, htrace⟩
  obtain ⟨more, hmore⟩ := hs.trace
  exact ⟨events ++ more, by rw [hmore, htrace, List.append_assoc]⟩

/-- The invariants of steps hold between moves. -/
theorem Move.invariant {I : Main → Prop}
    (hstep : ∀ {m m' a}, Step m a m' → IdsLeft m a → I m → I m') {m' : Main} (h : Move cmd m m')
    (hroom : m'.tm.begun = m.tm.begun + 1 → m.tm.nextTransactionId + 1 < 2 ^ 32) (hI : I m) :
    I m' := by
  refine (h.reaches (P := IdsLeft) (fun m a ha => ?_) hroom).invariant hstep hI
  cases a with
  | begin => exact absurd rfl ha
  | _ => trivial

/-- The invariant rule for moves. -/
theorem after_moves {I : Main → Prop} {env : Environment} {input : List Command}
    (hstep : ∀ {cmd m m'}, cmd ∈ beforeExit input → Move cmd m m' → I m → I m')
    (hinit : I (init env)) : I (after env input) := by
  rw [after_eq_run]
  generalize hcmds : beforeExit input = cmds at hstep
  clear hcmds
  generalize init env = m at hinit
  induction cmds generalizing m with
  | nil => exact hinit
  | cons cmd cmds ih =>
      rw [run_cons]
      refine ih (fun hmem => hstep (List.mem_cons_of_mem _ hmem)) _ ?_
      have hmoves := m.handle_moves cmd
      generalize m.handle cmd = m' at hmoves
      clear ih
      induction hmoves with
      | refl => exact hinit
      | tail _ hlast hI => exact hstep List.mem_cons_self hlast hI

end Main

end TxnEngine
