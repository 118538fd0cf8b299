import TxnEngine.Main.Contention
import TxnEngine.Main.Waiting

/-!
# What COMMIT and ABORT leave pending

`processPending` stops after a pass that executed nothing.  Every command left was
refused once in that pass, by a lock of somebody else.  A later trial can fail and still
take this lock away: it exchanges the lock, on a part of its key above the one where it
is refused.  Nothing else can.  So where no pending command can come to do that
(`Frees`), COMMIT and ABORT leave only commands that cannot be executed
(`complete_stuck`).
-/

namespace TxnEngine

open Std Runs PathTree

namespace Directory

variable {d : Directory} {calls : List Call} {cmd : Command} {t u : Nat}

/-! ## Refused commands -/

/-- The command was refused, and nothing has changed about it: its transaction is over,
or there is a resource for its key and somebody in the way. -/
def Waits (d : Directory) (t : Nat) (cmd : Command) : Prop :=
  t ∈ d.lockMgr.completedTransactions ∨
    (∃ id, d.tree.idOf (segments cmd.resourceName) = some id) ∧ d.Bars t cmd

theorem Waits.quiet (h : d.Sound) (allowed : Guarded Directory.call Allowed d calls)
    (hask : ∀ c ∈ calls, c.requester = none) (running : ∀ c ∈ calls, c.completes = false)
    (hwaits : d.Waits t cmd) : (run Directory.call d calls).Waits t cmd := by
  rcases hwaits with hover | ⟨⟨id, hid⟩, hbars⟩
  · exact Or.inl ((mem_completed_run running).mpr hover)
  · refine Or.inr ⟨⟨id, ?_⟩, (bars_run h allowed hask running t cmd).mpr hbars⟩
    exact (idOf_run h allowed (h.tree.issued hid).2 _).mpr hid

/-- Nobody is kept out by a lock of his own. -/
theorem Waits.request {name : Name} {r : Nat} {mode : LockType} (hwaits : d.Waits t cmd) :
    (d.call (.request name t r mode)).Waits t cmd := by
  rcases hwaits with hover | ⟨hid, need, hneed, id, hidOf, hblocked⟩
  · exact Or.inl (d.lockMgr.mem_requestLock_completed.mpr hover)
  · refine Or.inr ⟨hid, need, hneed, id, hidOf, ?_⟩
    exact LockManager.exists_requestLock hblocked fun k _ lock howner _ hlock =>
      absurd howner hlock.1

/-! ## Requests from the top down -/

/-- What is above a path has a smaller id. -/
theorem lt_of_isPrefix (h : d.Sound) {path above : List Name} {id id' : Nat}
    (hid : d.tree.idOf path = some id) (hid' : d.tree.idOf above = some id')
    (hshorter : above <+: path) (hne : above ≠ path) : id' < id := by
  have hmem : some id' ∈ (prefixes path).map d.tree.idOf :=
    hid' ▸ List.mem_map_of_mem (mem_prefixes_iff.mpr ⟨(isKey_of_idOf hid').1, hshorter⟩)
  rw [← (h.ancestors hid).1, List.mem_map_of_injective (Option.some_injective _),
    List.mem_cons] at hmem
  rcases hmem with rfl | habove
  · exact absurd (h.tree.injective hid' hid) hne
  · exact lt_of_mem_ancestors h habove

/-- A call asks for the resources from the top down. -/
theorem requests_ascend (h : d.Sound) {path : List Name} {id : Nat}
    (hid : d.tree.idOf path = some id) (mode : LockType) :
    (d.lockMgr.requests id mode).Pairwise fun request request' => request.1 < request'.1 := by
  have hchain : List.IsChain (fun a b => b < a) (id :: d.lockMgr.ancestors id) :=
    (h.ancestors hid).2.1.imp fun _ _ hparent => (h.tree.below hparent).1
  have hbelow := List.pairwise_cons.mp (List.isChain_iff_pairwise.mp hchain)
  rw [← List.pairwise_map, LockManager.requests_eq, LockManager.requested]
  split
  · exact List.pairwise_singleton _ _
  · rw [List.pairwise_append, List.pairwise_reverse]
    refine ⟨hbelow.2, List.pairwise_singleton _ _, fun a ha b hb => ?_⟩
    rw [List.mem_singleton.mp hb]
    exact hbelow.1 a (List.mem_reverse.mp ha)

/-- A refused call that takes away what is in the way of another command exchanges the
lock, and is refused further down its key. -/
theorem freed_of_refused (h : d.Sound) (hfit : d.lockMgr.table.Compatible Fits)
    {access : Access} (hop : cmd.op = access.op) {r : Nat}
    (hid : d.tree.idOf (segments cmd.resourceName) = some r)
    (refused : (d.lockMgr.requestLock t r access.mode).1 = false) {path : List Name} {a : Nat}
    (ha : d.tree.idOf path = some a) {mode : LockType}
    (blocked : Blocked (d.lockMgr.locksOn a) ⟨u, mode⟩)
    (lost : ¬ Blocked ((d.lockMgr.requestLock t r access.mode).2.locksOn a) ⟨u, mode⟩) :
    t ≠ u ∧ ∃ k, (path, k) ∈ cmd.needs ∧ isCompatible k mode = true ∧
      (∃ lock ∈ d.lockMgr.locksOn a, lock.transactionId = t ∧ lock.lockType ≠ .exclusive ∧
        isCompatible lock.lockType mode = false) ∧
      ∃ need ∈ cmd.needs, path.length < need.1.length ∧
        ∃ id ∈ d.tree.idOf need.1, Blocked (d.lockMgr.locksOn id) ⟨t, need.2⟩ := by
  have plain : r ∉ d.lockMgr.ancestors r := fun hmem =>
    Nat.lt_irrefl _ (lt_of_mem_ancestors h hmem)
  obtain ⟨before, k, after, hsplit, hloses, request, hrequest, hstops⟩ :=
    LockManager.lost_of_refused plain refused blocked lost
  obtain ⟨lock, hlock, howner, hweak, hother, hincompatible⟩ := hloses.existing
  have hne : t ≠ u := fun heq => hother (howner.trans heq)
  have hgone : isCompatible k mode = true := by
    by_contra hnot
    exact hloses.2.2.1 ⟨hne, Bool.eq_false_of_not_eq_true hnot⟩
  have hasked : (a, k) ∈ d.lockMgr.requests r access.mode :=
    hsplit ▸ List.mem_append_right _ List.mem_cons_self
  have hlater : request ∈ d.lockMgr.requests r access.mode :=
    hsplit ▸ List.mem_append_right _ (List.mem_cons_of_mem _ hrequest)
  obtain ⟨⟨path', _⟩, hneed, hpath, rfl⟩ := (mem_requests_iff h hop hid _).mp hasked
  obtain rfl : path = path' := h.tree.injective ha hpath
  obtain ⟨⟨below, k'⟩, hneed', hid', hmode⟩ := (mem_requests_iff h hop hid _).mp hlater
  refine ⟨hne, _, hneed, hgone, ⟨lock, hlock, howner, hweak, hincompatible⟩, _, hneed', ?_, _,
    hid', ?_⟩
  · -- both are parts of the key, and the later one has the greater id
    have hascend := requests_ascend h hid access.mode
    rw [hsplit, List.pairwise_append, List.pairwise_cons] at hascend
    have hlt := hascend.2.1.1 request hrequest
    have hpart := (mem_prefixes ((Command.mem_needs hop).mp hneed).1).2
    have hpart' := (mem_prefixes ((Command.mem_needs hop).mp hneed').1).2
    by_contra hlength
    have hshorter := List.prefix_of_prefix_length_le hpart' hpart (Nat.not_lt.mp hlength)
    by_cases heq : below = path
    · subst heq
      have hsame : a = request.1 := Option.some.inj (ha.symm.trans hid')
      exact absurd hlt (hsame ▸ Nat.lt_irrefl _)
    · exact Nat.lt_asymm hlt (lt_of_isPrefix h ha hid' hshorter heq)
  · dsimp only at hmode
    rw [← hmode]
    by_contra hfree
    rw [(LockManager.admitsRequest_iff hfit).mpr hfree] at hstops
    cases hstops

end Directory

namespace Main

open Directory

/-- No pending command can be executed. -/
def Stuck (m : Main) : Prop :=
  ∀ c ∈ m.pending, ∀ fromPending, (m.executeCommand c fromPending).1 = false

instance (m : Main) : Decidable (Stuck m) :=
  inferInstanceAs (Decidable (∀ c ∈ m.pending, ∀ _ : Bool, _))

/-- Every pending command of an active transaction meets a lock of somebody else, unless
its transaction is completed. -/
def AllBarred (m : Main) : Prop :=
  ∀ c ∈ m.pending, ∀ t ∈ m.transactionOf c.command.txnLabel,
    t ∈ m.lockMgr.completedTransactions ∨ m.directory.Bars t c.command

/-- Once `t₀` has ended, a pending command of `t` can exchange a lock that is in the way
of a pending command of somebody else for one that is not, and meet an incompatible lock
further down its key. -/
def Frees (m : Main) (t₀ : Nat) : Prop :=
  ∃ c ∈ m.pending, ∃ t ∈ m.transactionOf c.command.txnLabel, t ≠ t₀ ∧
    ∃ need ∈ c.command.needs,
      (∃ asker ∈ m.askers t₀ need.1, asker.transactionId ≠ t ∧
        isCompatible need.2 asker.lockType = true ∧
        ∃ lock ∈ m.contenders t₀ need.1, lock.transactionId = t ∧ lock.lockType ≠ .exclusive ∧
          isCompatible lock.lockType asker.lockType = false) ∧
      ∃ need' ∈ c.command.needs, need.1.length < need'.1.length ∧
        Blocked (m.contenders t₀ need'.1) ⟨t, need'.2⟩

instance (m : Main) (t₀ : Nat) : Decidable (m.Frees t₀) :=
  inferInstanceAs (Decidable (∃ c ∈ m.pending, _))

/-- A command that was pending when `t₀` ended, and was refused since. -/
def StillWaits (m₀ m : Main) (c : Issued) : Prop :=
  c ∈ m₀.pending ∧ ∀ t ∈ m.transactionOf c.command.txnLabel, m.directory.Waits t c.command

variable {m m' m₀ : Main} {c c' : Issued} {cmd : Command} {t t₀ u : Nat}

theorem StillWaits.imp {calls : List Call} (h : StillWaits m₀ m c) (hcont : Continues m m' calls)
    (hkept : ∀ {t}, m.transactionOf c.command.txnLabel = some t →
      m.directory.Waits t c.command → m'.directory.Waits t c.command) : StillWaits m₀ m' c :=
  ⟨h.1, fun t ht => by
    rw [hcont.transactionOf] at ht
    exact hkept ht (h.2 t ht)⟩

/-! ## Trials that fail -/

/-- The calls of a trial that fails: a lookup and a refused request. -/
theorem Live.directory_failed {access : Access} (h : m.Live c t access)
    (failed : (m.executeCommand c true).1 = false) : (m.executeCommand c true).2.directory =
      (m.ensureResource c.command.resourceName).2.directory.call (.request c.command.resourceName t
        (m.ensureResource c.command.resourceName).1 access.mode) := by
  rw [directory_executeCommand, (executeCommand_refused h.label h.active h.op failed).2,
    run_concat, ← directory_ensureResource]

/-- The command of a trial that fails waits. -/
theorem waits_of_failed (h : Contending m₀ t₀ m) {access : Access} (hlive : m.Live c t access)
    (allowed : Guarded Directory.call Allowed m.directory (m.executeCalls c))
    (failed : (m.executeCommand c true).1 = false) :
    (m.executeCommand c true).2.directory.Waits t c.command := by
  have hlookup := hlive.guarded_lookup allowed
  rw [hlive.directory_failed failed]
  refine Waits.request ?_
  have hrefused := failed
  rw [← Bool.not_eq_true, executed_iff h.contested.sound h.contested.fits hlive.label
    hlive.active hlive.op hlookup, not_and_or, not_not, not_not] at hrefused
  rcases hrefused with hover | hbars
  · exact Or.inl (m.ensureResource_completed _ ▸ hover)
  · have hname : segments c.command.resourceName ≠ [] := by
      intro hnil
      obtain ⟨need, hneed, _⟩ := hbars
      rw [needs_eq_nil hnil] at hneed
      cases hneed
    refine Or.inr ⟨⟨_, idOf_ensureResource h.contested.sound hname hlookup⟩, ?_⟩
    rw [directory_ensureResource]
    exact (bars_run h.contested.sound hlookup (m.resourceCalls_requester _)
      (m.resourceCalls_running _) t c.command).mpr hbars

/-- Where no pending command frees another one, a trial that fails lets nobody through. -/
theorem waits_trial (h : Contending m₀ t₀ m) (considerate : ¬ m₀.Frees t₀) {access : Access}
    (hc' : c' ∈ m.pending) (hlive : m.Live c' t access)
    (allowed : Guarded Directory.call Allowed m.directory (m.executeCalls c'))
    (failed : (m.executeCommand c' true).1 = false) (hc : c ∈ m₀.pending)
    (hu : m.transactionOf c.command.txnLabel = some u) (hwaits : m.directory.Waits u c.command) :
    (m.executeCommand c' true).2.directory.Waits u c.command := by
  have hlookup := hlive.guarded_lookup allowed
  have hnone := m.resourceCalls_requester c'.command.resourceName
  have hrunning := m.resourceCalls_running c'.command.resourceName
  have hfound := h.contested.quiet hlookup hnone hrunning
  have hwaits' := hwaits.quiet h.contested.sound hlookup hnone hrunning
  rw [← directory_ensureResource] at hfound hwaits'
  have hrefused := (executeCommand_refused hlive.label hlive.active hlive.op failed).1
  rw [hlive.directory_failed failed]
  rcases hwaits' with hover | ⟨hid, need, hneed, a, ha, hblocked⟩
  · exact Or.inl ((LockManager.mem_requestLock_completed _).mpr hover)
  · refine Or.inr ⟨hid, need, hneed, a, ha, ?_⟩
    by_contra hlost
    rcases segments_of_refused h.contested.sound hrefused with hover | hname
    · -- a completed transaction is refused before it asks
      refine hlost ?_
      change Blocked (((m.ensureResource _).2.lockMgr.requestLock t _ access.mode).2.locksOn a) _
      rw [LockManager.requestLock, if_pos hover]
      exact hblocked
    · have hself := idOf_ensureResource h.contested.sound hname hlookup
      obtain ⟨hne, k, hk, hgone, ⟨lock, hlock, howner, hweak, hincompatible⟩, need', hneed',
        hlength, id, hid', hblocked'⟩ := freed_of_refused hfound.sound hfound.fits hlive.op hself
          hrefused ha hblocked hlost
      obtain ⟨hother, hlabel⟩ := h.transactionOf_iff.mp hlive.transactionOf
      obtain ⟨hother', hlabel'⟩ := h.transactionOf_iff.mp hu
      have hasker : ⟨u, need.2⟩ ∈ m₀.askers t₀ need.1 :=
        mem_askers.mpr ⟨hother', c, hc, hlabel', hneed⟩
      exact considerate ⟨c', h.pending hc', t, hlabel, hother, (need.1, k), hk,
        ⟨⟨u, need.2⟩, hasker, hne.symm, hgone, lock, hfound.within ha lock hlock, howner, hweak,
          hincompatible⟩, need', hneed', hlength, hblocked'.mono (hfound.within hid')⟩

/-- What a trial that fails says of its command lasts. -/
theorem lasting_stillWaits
    (accesses : ∀ c ∈ m₀.pending, ∃ access : Access, c.command.op = access.op)
    (considerate : ¬ m₀.Frees t₀) : Lasting Allowed (Contending m₀ t₀) (StillWaits m₀) where
  toKnown := known_contending
  kept := fun h hcont hask allowed hwaits => hwaits.imp hcont fun _ hrefused =>
    hcont.directory ▸ hrefused.quiet h.contested.sound allowed hask hcont.running
  keptByTrial := by
    intro m c c' h hc' hactive allowed failed hwaits
    obtain ⟨t, access, hlive⟩ := h.live accesses hc' hactive
    exact hwaits.imp (m.continues_executeCommand c' true) fun hu hrefused =>
      waits_trial h considerate hc' hlive allowed failed hwaits.1 hu hrefused
  failed := by
    intro m c h hc hactive allowed failed
    obtain ⟨t, access, hlive⟩ := h.live accesses hc hactive
    refine ⟨h.pending hc, fun u hu => ?_⟩
    rw [(m.continues_executeCommand c true).transactionOf, hlive.transactionOf] at hu
    obtain rfl := Option.some.inj hu
    exact waits_of_failed h hlive allowed failed

/-! ## Trials that are repeated -/

/-- The loop over the segments of a path that is there finds it. -/
theorem ensureSegments_found : ∀ (rest dir : List Name) (lastId : Nat) (m : Main),
    m.directory.Sound →
      (∀ p, p ≠ [] → p <+: dir ++ rest → ∃ id, m.directory.tree.idOf p = some id) →
      (dir = [] ∧ lastId = 0 ∨ m.directory.tree.idOf dir = some lastId) →
      (ensureSegments rest (joined dir) lastId m).2 = m
  | [], _, _, _, _, _, _ => rfl
  | segment :: rest, dir, lastId, m, h, hthere, hlast => by
      have hsplit : dir ++ segment :: rest = dir ++ [segment] ++ rest := by simp
      obtain ⟨id, hid⟩ := hthere (dir ++ [segment]) (by simp) (hsplit ▸ List.prefix_append _ _)
      have hfind : m.resources.resourceIds[joined (dir ++ [segment])]? = some id :=
        (idOf_tree (isKey_of_idOf hid).1 (isKey_of_idOf hid).2).symm.trans hid
      rw [ensureSegments, ← joined_concat]
      dsimp only
      rw [hfind]
      exact ensureSegments_found rest (dir ++ [segment]) id m h (hsplit ▸ hthere) (Or.inr hid)

/-- `ensureResource` finds a resource with segments again. -/
theorem ensureResource_found {name : Name} {id : Nat} (h : m.directory.Sound)
    (hid : m.directory.tree.idOf (segments name) = some id) : m.ensureResource name = (id, m) := by
  have hkey := isKey_segments name
  have hname := (isKey_of_idOf hid).1
  have hsame : (ensureSegments (segments name) [] 0 m).2 = m :=
    ensureSegments_found (segments name) [] 0 m h
      (fun p hne hp => h.tree.of_prefix hid hp hne) (Or.inl ⟨rfl, rfl⟩)
  have hend := (lawful_segments (segments name) [] 0 m hkey (Or.inl ⟨rfl, rfl⟩)).2.resolve_left
    fun hnil => hname hnil.1
  rw [List.nil_append, show joined [] = [] from rfl, hsame, hid] at hend
  have hlast : (ensureSegments (segments name) [] 0 m).1 = id := (Option.some.inj hend).symm
  have hzero : id ≠ 0 := Nat.ne_of_gt (h.tree.issued hid).1
  rw [ensureResource]
  generalize ensureSegments (segments name) [] 0 m = found at hsame hlast
  obtain ⟨lastId, m'⟩ := found
  obtain rfl : m' = m := hsame
  obtain rfl : lastId = id := hlast
  exact if_neg hzero

/-- A command that waits cannot be executed. -/
theorem not_executed_of_waits (h : m.directory.Sound) (hfit : m.lockMgr.table.Compatible Fits)
    {access : Access} (hlive : m.Live c t access) (hwaits : m.directory.Waits t c.command)
    (fromPending : Bool) : (m.executeCommand c fromPending).1 = false := by
  rw [executed_iff_granted hlive.label hlive.active hlive.op]
  by_cases hover : t ∈ m.lockMgr.completedTransactions
  · rw [LockManager.requestLock, if_pos (m.ensureResource_completed _ ▸ hover)]
  · obtain ⟨⟨id, hid⟩, hbars⟩ := hwaits.resolve_left hover
    rw [ensureResource_found h hid, ← Bool.not_eq_true]
    exact fun hgranted => (requestLock_iff_bars h hfit hlive.op hid hover).mp hgranted hbars

/-- What cannot be executed is a command of no active transaction, or one that waits. -/
theorem not_executed (h : m.directory.Sound) (hfit : m.lockMgr.table.Compatible Fits)
    (hwaits : ∀ t ∈ m.transactionOf c.command.txnLabel, m.directory.Waits t c.command)
    (fromPending : Bool) : (m.executeCommand c fromPending).1 = false := by
  rcases m.trial_cases c with hidle | ⟨t, access, label, active, hop⟩
  · rw [(executeCommand_idle hidle fromPending).1]
  · exact not_executed_of_waits h hfit ⟨label, active, hop⟩
      (hwaits t (transactionOf_eq_some.mpr ⟨label, active⟩)) fromPending

/-- Where no pending command frees another one, the end of a transaction leaves only
commands that cannot be executed. -/
theorem ended_stuck (h : m.directory.Sound) (hfit : m.lockMgr.table.Compatible Fits)
    (accesses : ∀ c ∈ m.pending, ∃ access : Access, c.command.op = access.op)
    (considerate : ¬ m.Frees t) (outcome : Outcome)
    (allowed : Guarded Directory.call Allowed (m.ended cmd outcome t).directory
      (loopCalls (m.pending.length + 1) [] (m.ended cmd outcome t))) :
    Stuck (m.ended cmd outcome t).processPending := by
  obtain ⟨resumed, last, hknown, hlast, hnone, hend⟩ :=
    processLoop_last (m.pending.length + 1) [] (m.ended cmd outcome t) (Nat.lt_succ_self _) allowed
  have hstart := contending_ended h hfit outcome t cmd
  obtain ⟨hcontending, hleft⟩ := (lasting_stillWaits accesses considerate).pass last.pending []
    resumed last rfl (hknown known_contending hstart) hlast hnone (List.forall_mem_nil _)
  rw [hend] at hcontending hleft
  exact fun c hc => not_executed hcontending.contested.sound hcontending.contested.fits
    (hleft c hc).2

/-! ## COMMIT and ABORT -/

/-- A printed line changes nothing about the calls of `ensureResource`. -/
theorem segments_print (line : Output) : ∀ (segments : List Name) (path : Name) (lastId : Nat)
    (m : Main), ensureSegments segments path lastId (m.print line) =
        ((ensureSegments segments path lastId m).1,
          (ensureSegments segments path lastId m).2.print line) ∧
      segmentCalls segments path lastId (m.print line) = segmentCalls segments path lastId m
  | [], _, _, _ => ⟨rfl, rfl⟩
  | segment :: rest, path, lastId, m => by
      rw [ensureSegments, ensureSegments, segmentCalls, segmentCalls]
      dsimp only
      generalize (if path.isEmpty then segment else path ++ '.' :: segment) = path'
      rw [show (m.print line).resources = m.resources from rfl]
      cases m.resources.resourceIds[path']? with
      | some id => exact segments_print line rest path' id m
      | none =>
          generalize (if path' = ['A'] then (10 : Int32) else 0) = value
          obtain ⟨hstate, hcalls⟩ := segments_print line rest path'
            (m.createResource path' lastId value).1 (m.createResource path' lastId value).2
          exact ⟨hstate, congrArg _ hcalls⟩

theorem resourceCalls_print (m : Main) (line : Output) (name : Name) :
    (m.print line).resourceCalls name = m.resourceCalls name := by
  obtain ⟨hstate, hcalls⟩ := segments_print line (segments name) [] 0 m
  rw [resourceCalls, resourceCalls, hstate, hcalls]
  rfl

/-- Where there is room for the resources of the pending commands, a command that only
prints leaves nothing to execute exactly if everything pending meets a lock. -/
theorem stuck_print (h : m.directory.Sound) (hfit : m.lockMgr.table.Compatible Fits)
    (accesses : ∀ c ∈ m.pending, ∃ access : Access, c.command.op = access.op)
    (room : ∀ c ∈ m.pending, m.resources.nextResourceId +
      (m.resourceCalls c.command.resourceName).countP Call.creates < 2 ^ 32) (line : Output) :
    Stuck (m.print line) ↔ m.AllBarred := by
  refine forall₂_congr fun c hc => ?_
  have allowed := (m.lawful_ensureResource c.command.resourceName).1 h (guarded_hasRoom (room c hc))
  rw [← resourceCalls_print m line] at allowed
  obtain ⟨access, hop⟩ := accesses c hc
  constructor
  · intro hstuck t ht
    obtain ⟨label, active⟩ := transactionOf_eq_some.mp ht
    have hiff := executed_iff (m := m.print line) h hfit label active hop allowed true
    rw [hstuck true, ← not_iff_not, not_and_or, not_not, not_not] at hiff
    exact hiff.mp Bool.false_ne_true
  · intro hbarred fromPending
    rcases (m.print line).trial_cases c with hidle | ⟨t, access', label, active, hop'⟩
    · rw [(executeCommand_idle hidle fromPending).1]
    · have hwaits := hbarred t (transactionOf_eq_some.mpr ⟨label, active⟩)
      rw [← Bool.not_eq_true, executed_iff (m := m.print line) h hfit label active hop' allowed]
      rintro ⟨hgoes, hfree⟩
      exact hwaits.elim hgoes hfree

theorem handle_outcome {outcome : Outcome} (hop : cmd.op = outcome.op) (m : Main) :
    m.handle cmd = m.complete cmd outcome ∧ m.handleCalls cmd = m.completeCalls cmd outcome := by
  rw [handle, handleCalls, hop]
  cases outcome <;> exact ⟨rfl, rfl⟩

/-- COMMIT or ABORT of an active transaction leaves only commands that cannot be executed,
if no pending command frees another one.  A COMMIT or ABORT that is refused does so
exactly if everything pending meets a lock. -/
theorem complete_stuck (env : Environment) (input : List Command) (cmd : Command)
    (outcome : Outcome) (running : beforeExit input = input) (hop : cmd.op = outcome.op)
    (few : FewResources env (input ++ [cmd])) :
    (∀ t ∈ (after env input).transactionOf cmd.txnLabel, ¬ (after env input).Frees t →
      Stuck (after env (input ++ [cmd]))) ∧
    ((after env input).transactionOf cmd.txnLabel = none →
      (∀ c ∈ (after env input).pending, (after env input).resources.nextResourceId +
        ((after env input).resourceCalls c.command.resourceName).countP Call.creates < 2 ^ 32) →
      (Stuck (after env (input ++ [cmd])) ↔ (after env input).AllBarred)) := by
  have hexit : cmd.op ≠ .exit := by
    rw [hop]
    cases outcome <;> simp [Outcome.op]
  obtain ⟨hloop, hcalls⟩ := run_concat_of_running (init env) running hexit
  obtain ⟨hhandle, hhandleCalls⟩ := handle_outcome hop (after env input)
  have hstate : after env (input ++ [cmd]) = (after env input).complete cmd outcome :=
    hloop.trans hhandle
  have allowed := allowed_calls few
  rw [hcalls, guarded_append, ← directory_after,
    show (init env).loop input = after env input from rfl, hhandleCalls] at allowed
  have hsound : (after env input).directory.Sound := by
    rw [directory_after]
    exact (sound_init env).run allowed.1
  have hfit := (locking_after env input).compatible
  have accesses := accesses_after env input
  rw [hstate]
  constructor
  · intro t ht considerate
    obtain ⟨label, active⟩ := transactionOf_eq_some.mp ht
    obtain ⟨hcomplete, hcompleteCalls⟩ := complete_active outcome label active
    rw [hcompleteCalls] at allowed
    rw [hcomplete]
    exact ended_stuck hsound hfit accesses considerate outcome allowed.2.2
  · intro inactive room
    rcases (after env input).complete_cases cmd outcome with
      ⟨⟨line, hprint⟩, _⟩ | ⟨t, txn, label, active, _⟩
    · rw [hprint]
      exact stuck_print hsound hfit accesses room line
    · have hactive := transactionOf_eq_some.mpr
        ⟨label, (after env input).tm.isTransactionActive_iff.mpr ⟨txn, active⟩⟩
      rw [inactive] at hactive
      cases hactive

/-- After the third of three writers has committed one of the two others goes on
waiting. -/
theorem complete_stuck_writers :
    (after ⟨[], [], []⟩ (writers ++ [⟨.commit, ['T'], [], 0⟩])).pending.length = 1 ∧
      Stuck (after ⟨[], [], []⟩ (writers ++ [⟨.commit, ['T'], [], 0⟩])) :=
  ⟨by decide,
    (complete_stuck ⟨[], [], []⟩ writers ⟨.commit, ['T'], [], 0⟩ .commit (by decide) (by decide)
      (by decide)).1 1 (by decide) (by decide)⟩

/-- A reader of a key and a reader of the key under it write under it, each kept
off by the other or by a third reader. -/
def readers : List Command :=
  [⟨.begin, ['T'], [], 0⟩, ⟨.begin, ['U'], [], 0⟩, ⟨.begin, ['V'], [], 0⟩, ⟨.begin, ['W'], [], 0⟩,
    ⟨.read, ['V'], ['a', '.', 'y'], 0⟩, ⟨.read, ['U'], ['a'], 0⟩, ⟨.read, ['W'], ['a'], 0⟩,
    ⟨.write, ['T'], ['a', '.', 'x'], 1⟩, ⟨.write, ['U'], ['a', '.', 'y'], 2⟩,
    ⟨.commit, ['W'], [], 0⟩]

/-- The last trial replaces the shared lock of `U` on `a`, the one lock in the way of
`T`, by an intention lock, and fails. -/
theorem complete_stuck_fails : FewResources ⟨[], [], []⟩ readers ∧
    (after ⟨[], [], []⟩ readers).pending.length = 2 ∧ ¬ Stuck (after ⟨[], [], []⟩ readers) := by
  decide

end Main

end TxnEngine
