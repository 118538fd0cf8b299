import TxnEngine.Concurrency.Refusals
import TxnEngine.Main.KeyTree
import TxnEngine.Main.Pending

/-!
# When a trial succeeds

READ and WRITE ask for a lock on their key and for intention locks above it
(`Command.needs`).  The locks held are compatible with each other, so
`executeCommand` executes the command of an active transaction exactly if nobody else
has a lock on a part of the key that is not compatible with what is needed there
(`executed_iff`).  A key without segments gets a resource of its own, and nothing is
in its way.
-/

namespace TxnEngine

open Std Runs PathTree

/-! ## What a command needs -/

namespace Directory

/-- The mode in which an access to a key needs a part of it. -/
def modeAt (path : List Name) (name : Name) (access : Access) : LockType :=
  if path = segments name then access.mode else getAncestorIntentionType access.mode

end Directory

/-- The parts of its key that a READ or WRITE locks, the whole key first, with the
modes. -/
def Command.needs (cmd : Command) : List (List Name × LockType) :=
  let parts := prefixes (segments cmd.resourceName)
  match cmd.op with
  | .read => parts.map fun path => (path, Directory.modeAt path cmd.resourceName .read)
  | .write => parts.map fun path => (path, Directory.modeAt path cmd.resourceName .write)
  | _ => []

theorem Command.mem_needs {cmd : Command} {access : Access} (hop : cmd.op = access.op)
    {need : List Name × LockType} : need ∈ cmd.needs ↔
      need.1 ∈ prefixes (segments cmd.resourceName) ∧
        need.2 = Directory.modeAt need.1 cmd.resourceName access := by
  obtain ⟨path, mode⟩ := need
  rw [needs, hop]
  cases access <;> simp only [Access.op, List.mem_map, Prod.mk.injEq]
  all_goals
    constructor
    · rintro ⟨_, hpath, rfl, rfl⟩
      exact ⟨hpath, rfl⟩
    · rintro ⟨hpath, rfl⟩
      exact ⟨path, hpath, rfl, rfl⟩

/-! ## Calls -/

/-- The call ends a transaction. -/
def Call.completes : Call → Bool
  | .complete _ => true
  | _ => false

/-- The transaction that a call asks for a lock for. -/
def Call.requester : Call → Option Nat
  | .request _ t _ _ => some t
  | _ => none

namespace Directory

variable {d d' : Directory} {calls : List Call}

/-- The ancestors of a path stay when the tree grows. -/
theorem ancestors_grows (h : d.Sound) (h' : d'.Sound) (hgrows : Grows d.tree d'.tree)
    {path : List Name} {id : Nat} (hid : d.tree.idOf path = some id) :
    d'.lockMgr.ancestors id = d.lockMgr.ancestors id := by
  have hold := (h.ancestors hid).1
  have hnew := (h'.ancestors (hgrows.idOf hid)).1
  have hsame : (prefixes path).map d'.tree.idOf = (prefixes path).map d.tree.idOf := by
    refine List.map_congr_left fun p hp => ?_
    have hmem : d.tree.idOf p ∈ (id :: d.lockMgr.ancestors id).map some :=
      hold ▸ List.mem_map_of_mem hp
    obtain ⟨x, _, hx⟩ := List.mem_map.mp hmem
    rw [← hx]
    exact hgrows.idOf hx.symm
  rw [hsame, ← hold] at hnew
  exact (List.cons.inj (List.map_injective_iff.mpr (Option.some_injective _) hnew)).2

/-- A call that ends no transaction leaves the ended ones as they are. -/
theorem mem_completed_call {c : Call} (running : c.completes = false) {t : Nat} :
    t ∈ (d.call c).lockMgr.completedTransactions ↔ t ∈ d.lockMgr.completedTransactions := by
  cases c with
  | create path parent value =>
      show t ∈ (if parent = 0 then _ else _ : LockManager).completedTransactions ↔ _
      split <;> rfl
  | request => exact d.lockMgr.mem_requestLock_completed
  | complete => cases running
  | found | fallback | read | update => rfl

theorem mem_completed_run (running : ∀ call ∈ calls, call.completes = false) {t : Nat} :
    ∀ {d : Directory}, t ∈ (run call d calls).lockMgr.completedTransactions ↔
      t ∈ d.lockMgr.completedTransactions := by
  induction calls with
  | nil => exact Iff.rfl
  | cons c calls ih =>
      rw [List.forall_mem_cons] at running
      exact (ih running.2).trans (mem_completed_call running.1)

/-- Ids that were given out keep their paths along a run. -/
theorem idOf_run (h : d.Sound) (allowed : Guarded call Allowed d calls) {id : Nat}
    (hold : id < d.tree.next) (path : List Name) :
    (Runs.run call d calls).tree.idOf path = some id ↔ d.tree.idOf path = some id := by
  refine (allowed.invariant (I := fun d' => d'.Sound ∧ d.tree.next ≤ d'.tree.next ∧
    (d'.tree.idOf path = some id ↔ d.tree.idOf path = some id)) ?_ ⟨h, le_rfl, Iff.rfl⟩).2.2
  rintro d' c ⟨hd, hnext, hsame⟩ hc
  have hgrows := call_grows hd hc.1 hc.2
  refine ⟨hd.call hc.1 hc.2, hnext.trans hgrows.next_le, Iff.trans ⟨fun hid => ?_, ?_⟩ hsame⟩
  · rcases hgrows.idOf_inv hid with hid | rfl
    · exact hid
    · exact absurd hold (Nat.not_lt_of_le hnext)
  · exact hgrows.idOf

/-- Calls that ask for no lock and end no transaction move no lock. -/
theorem locksOn_run (hask : ∀ c ∈ calls, c.requester = none)
    (running : ∀ c ∈ calls, c.completes = false) (r : Nat) :
    (Runs.run call d calls).lockMgr.locksOn r = d.lockMgr.locksOn r := by
  have hquiet : Guarded call (fun _ c => c.requester = none ∧ c.completes = false) d calls :=
    guarded_of_mem fun c hc _ => ⟨hask c hc, running c hc⟩
  refine hquiet.invariant (I := fun d' => d'.lockMgr.locksOn r = d.lockMgr.locksOn r) ?_ rfl
  rintro d' c hsame ⟨hnone, hrunning⟩
  refine call_invariant (I := fun lm => lm.locksOn r = d.lockMgr.locksOn r) hsame ?_
  intro op hop
  cases c with
  | create path parent value =>
      rw [lockOp] at hop
      split at hop <;> cases hop
      exact hsame
  | request | complete => contradiction
  | found | fallback | read | update => cases hop

/-- Calls keep the locks of different transactions compatible. -/
theorem compatible_call (h : d.lockMgr.table.Compatible Fits) (c : Call) :
    (d.call c).lockMgr.table.Compatible Fits :=
  call_invariant (I := fun lm => lm.table.Compatible Fits) h
    fun op _ => (d.lockMgr.step_reaches op).compatible fits_symm h

theorem compatible_run (h : d.lockMgr.table.Compatible Fits) :
    (Runs.run call d calls).lockMgr.table.Compatible Fits :=
  Runs.invariant call (I := fun d : Directory => d.lockMgr.table.Compatible Fits)
    (fun _ c hd => compatible_call hd c) calls h

/-! ## The requests for a key -/

/-- READ and WRITE ask for the resources of the parts of their key. -/
theorem mem_requests_iff (h : d.Sound) {cmd : Command} {access : Access}
    (hop : cmd.op = access.op) {id : Nat}
    (hid : d.tree.idOf (segments cmd.resourceName) = some id) (request : Nat × LockType) :
    request ∈ d.lockMgr.requests id access.mode ↔
      ∃ need ∈ cmd.needs, d.tree.idOf need.1 = some request.1 ∧ request.2 = need.2 := by
  have hintention : getAncestorIntentionType access.mode ≠ .none := by
    cases access <;> simp [Access.mode, getAncestorIntentionType]
  have hself : id ∉ d.lockMgr.ancestors id := fun hmem =>
    Nat.lt_irrefl _ (lt_of_mem_ancestors h hmem)
  have hchain : ∀ a, a ∈ id :: d.lockMgr.ancestors id ↔
      ∃ path ∈ prefixes (segments cmd.resourceName), d.tree.idOf path = some a := by
    intro a
    have hmap := (h.ancestors hid).1
    rw [← List.mem_map_of_injective (Option.some_injective _), hmap, List.mem_map]
  have hmem : request ∈ d.lockMgr.requests id access.mode ↔
      request.1 ∈ d.lockMgr.ancestors id ∧ request.2 = getAncestorIntentionType access.mode ∨
        request.1 = id ∧ request.2 = access.mode := by
    obtain ⟨a, k⟩ := request
    rw [LockManager.requests, LockManager.ancestorRequests, if_neg hintention]
    simp only [List.mem_append, List.mem_map, List.mem_reverse, List.mem_singleton,
      Prod.mk.injEq]
    constructor
    · rintro (⟨_, ha, rfl, rfl⟩ | hlast)
      · exact Or.inl ⟨ha, rfl⟩
      · exact Or.inr hlast
    · rintro (⟨ha, rfl⟩ | hlast)
      · exact Or.inl ⟨a, ha, rfl, rfl⟩
      · exact Or.inr hlast
  simp only [Command.mem_needs hop, hmem]
  constructor
  · rintro (⟨ha, hk⟩ | ⟨ha, hk⟩)
    · obtain ⟨path, hpath, hidOf⟩ := (hchain _).mp (List.mem_cons_of_mem _ ha)
      have hne : path ≠ segments cmd.resourceName := by
        rintro rfl
        obtain rfl := Option.some.inj (hid.symm.trans hidOf)
        exact hself ha
      exact ⟨(path, request.2), ⟨hpath, by rw [hk, modeAt, if_neg hne]⟩, hidOf, rfl⟩
    · have hne : segments cmd.resourceName ≠ [] := (isKey_of_idOf hid).1
      refine ⟨(segments cmd.resourceName, request.2), ⟨?_, ?_⟩, ha ▸ hid, rfl⟩
      · exact mem_prefixes_iff.mpr ⟨hne, List.prefix_rfl⟩
      · rw [hk, modeAt, if_pos rfl]
  · rintro ⟨⟨path, mode⟩, ⟨hpath, hmode⟩, hidOf, hk⟩
    dsimp only at hpath hmode hidOf hk
    rw [hmode] at hk
    by_cases hwhole : path = segments cmd.resourceName
    · subst hwhole
      rw [modeAt, if_pos rfl] at hk
      exact Or.inr ⟨(Option.some.inj (hid.symm.trans hidOf)).symm, hk⟩
    · rw [modeAt, if_neg hwhole] at hk
      rcases List.mem_cons.mp ((hchain _).mpr ⟨path, hpath, hidOf⟩) with ha | ha
      · exact absurd (h.tree.injective (ha ▸ hidOf) hid) hwhole
      · exact Or.inl ⟨ha, hk⟩

/-- Somebody other than `t` has a lock on a part of the key that is not compatible with
what the command needs there. -/
def Bars (d : Directory) (t : Nat) (cmd : Command) : Prop :=
  ∃ need ∈ cmd.needs, ∃ id ∈ d.tree.idOf need.1, Blocked (d.lockMgr.locksOn id) ⟨t, need.2⟩

instance (d : Directory) (t : Nat) (cmd : Command) : Decidable (d.Bars t cmd) :=
  inferInstanceAs (Decidable (∃ need ∈ cmd.needs, _))

/-- Making resources puts nothing in the way of a command and nothing out of it. -/
theorem bars_run (h : d.Sound) (allowed : Guarded call Allowed d calls)
    (hask : ∀ c ∈ calls, c.requester = none) (running : ∀ c ∈ calls, c.completes = false)
    (t : Nat) (cmd : Command) : (Runs.run call d calls).Bars t cmd ↔ d.Bars t cmd := by
  refine exists_congr fun need => and_congr_right fun _ => exists_congr fun id => ?_
  rw [locksOn_run hask running]
  refine and_congr_left fun hblocked => ?_
  obtain ⟨lock, hlock, _⟩ := hblocked
  have hold : id < d.tree.next :=
    h.used _ ⟨lock.entry, Or.inl (d.lockMgr.mem_table_held.mpr hlock)⟩
  exact idOf_run h allowed hold need.1

/-- A call for the key is granted exactly if nothing is in its way. -/
theorem requestLock_iff_bars (h : d.Sound) (hfit : d.lockMgr.table.Compatible Fits)
    {cmd : Command} {access : Access} (hop : cmd.op = access.op) {id t : Nat}
    (hid : d.tree.idOf (segments cmd.resourceName) = some id)
    (active : t ∉ d.lockMgr.completedTransactions) :
    (d.lockMgr.requestLock t id access.mode).1 = true ↔ ¬ d.Bars t cmd := by
  have plain : id ∉ d.lockMgr.ancestors id := fun hmem =>
    Nat.lt_irrefl _ (lt_of_mem_ancestors h hmem)
  rw [LockManager.requestLock_iff active plain hfit, Bars]
  simp only [mem_requests_iff h hop hid]
  push Not
  constructor
  · intro hfree need hneed id' hid'
    exact hfree (id', need.2) ⟨need, hneed, hid', rfl⟩
  · rintro hfree ⟨id', mode⟩ ⟨need, hneed, hid', rfl⟩
    exact hfree need hneed id' hid'

end Directory

namespace Main

open Directory

/-! ## The calls of a trial -/

/-- A resource without segments is new. -/
theorem ensureResource_fresh {m : Main} {name : Name} (h : m.directory.Sound)
    (hname : segments name = []) :
    (m.ensureResource name).2.lockMgr.resourceParent[(m.ensureResource name).1]? = none ∧
      ¬ (m.ensureResource name).2.lockMgr.table.Used (m.ensureResource name).1 := by
  have hcreate : m.ensureResource name = m.createResource name 0 0 := by
    rw [ensureResource, hname]
    rfl
  rw [hcreate]
  exact ⟨parent_eq_none h le_rfl, fun hused => Nat.lt_irrefl _ (h.used _ hused)⟩

/-- A resource without segments is not one of a path. -/
theorem idOf_ensureResource_ne {m : Main} {name : Name} (h : m.directory.Sound)
    (hname : segments name = []) (path : List Name) :
    (m.ensureResource name).2.directory.tree.idOf path ≠ some (m.ensureResource name).1 := by
  have hcreate : m.ensureResource name = m.createResource name 0 0 := by
    rw [ensureResource, hname]
    rfl
  rw [hcreate]
  intro hid
  obtain ⟨hne, hkey⟩ := isKey_of_idOf hid
  rw [idOf_tree hne hkey] at hid
  change (m.resources.resourceIds.insert name m.resources.nextResourceId)[joined path]? =
    some m.resources.nextResourceId at hid
  rw [ExtTreeMap.getElem?_insert] at hid
  split at hid
  · next heq =>
      -- the name would have the segments of the path
      have hsame : name = joined path := compare_eq_iff_eq.mp heq
      rw [hsame, segments_joined hkey] at hname
      exact hne hname
  · exact Nat.lt_irrefl _ (h.issued _ _ hid).2

theorem ensureResource_completed (m : Main) (name : Name) :
    (m.ensureResource name).2.lockMgr.completedTransactions = m.lockMgr.completedTransactions := by
  obtain ⟨hreach, _⟩ := m.ensureResource_spec (P := fun _ a => a = .create) (fun _ => rfl) name
  refine hreach.invariant (I := fun m' =>
    m'.lockMgr.completedTransactions = m.lockMgr.completedTransactions) ?_ rfl
  rintro m₁ m₂ _ hs rfl h
  cases hs with
  | create path parent value =>
      rw [createResource]
      dsimp only
      split <;> exact h

theorem segmentCalls_running : ∀ (segments : List Name) (path : Name) (lastId : Nat) (m : Main),
    ∀ c ∈ segmentCalls segments path lastId m, c.completes = false
  | [], _, _, _ => List.forall_mem_nil _
  | segment :: rest, path, lastId, m => by
      rw [segmentCalls]
      dsimp only
      split
      · exact segmentCalls_running rest _ _ m
      · exact List.forall_mem_cons.mpr ⟨rfl, segmentCalls_running rest _ _ _⟩

theorem resourceCalls_running (m : Main) (name : Name) :
    ∀ c ∈ m.resourceCalls name, c.completes = false := by
  rw [resourceCalls]
  refine List.forall_mem_append.mpr ⟨segmentCalls_running _ _ _ m, ?_⟩
  rw [List.forall_mem_singleton]
  split <;> rfl

theorem accessCalls_running (m : Main) (txnId : Nat) (cmd : Command) (access : Access) :
    ∀ c ∈ m.accessCalls txnId cmd access, c.completes = false := by
  unfold accessCalls
  refine List.forall_mem_append.mpr ⟨m.resourceCalls_running cmd.resourceName, ?_⟩
  refine List.forall_mem_cons.mpr ⟨rfl, ?_⟩
  cases access with
  | read | write => split <;> simp [Call.completes]

theorem executeCalls_running (m : Main) (c : Issued) :
    ∀ call ∈ m.executeCalls c, call.completes = false := by
  rcases m.trial_cases c with hidle | ⟨txnId, access, label, active, hop⟩
  · rw [(executeCommand_idle hidle true).2]
    exact List.forall_mem_nil _
  · rw [executeCalls_access label active hop]
    exact m.accessCalls_running txnId c.command access

theorem announceCalls_running (m : Main) (c : Issued) (resumed : List Name) :
    ∀ call ∈ m.announceCalls c resumed, call.completes = false := by
  rw [announceCalls]
  cases m.txnIds[c.command.txnLabel]? with
  | none => exact List.forall_mem_nil _
  | some txnId =>
      dsimp only
      split
      · exact m.resourceCalls_running c.command.resourceName
      · exact List.forall_mem_nil _

theorem segmentCalls_requester : ∀ (segments : List Name) (path : Name) (lastId : Nat)
    (m : Main), ∀ call ∈ segmentCalls segments path lastId m, call.requester = none
  | [], _, _, _ => List.forall_mem_nil _
  | segment :: rest, path, lastId, m => by
      rw [segmentCalls]
      dsimp only
      split
      · exact segmentCalls_requester rest _ _ m
      · exact List.forall_mem_cons.mpr ⟨rfl, segmentCalls_requester rest _ _ _⟩

theorem resourceCalls_requester (m : Main) (name : Name) :
    ∀ call ∈ m.resourceCalls name, call.requester = none := by
  rw [resourceCalls]
  refine List.forall_mem_append.mpr ⟨segmentCalls_requester _ _ _ m, ?_⟩
  rw [List.forall_mem_singleton]
  split <;> rfl

theorem announceCalls_requester (m : Main) (c : Issued) (resumed : List Name) :
    ∀ call ∈ m.announceCalls c resumed, call.requester = none := by
  rw [announceCalls]
  cases m.txnIds[c.command.txnLabel]? with
  | none => exact List.forall_mem_nil _
  | some txnId =>
      dsimp only
      split
      · exact m.resourceCalls_requester c.command.resourceName
      · exact List.forall_mem_nil _

/-! ## The answer of a trial -/

variable {m : Main} {c : Issued} {txnId : Nat} {access : Access}

/-- The lookup of a trial finds the resource of the key. -/
theorem idOf_ensureResource (h : m.directory.Sound) {name : Name} (hname : segments name ≠ [])
    (allowed : Guarded Directory.call Allowed m.directory (m.resourceCalls name)) :
    (m.ensureResource name).2.directory.tree.idOf (segments name) =
      some (m.ensureResource name).1 := by
  have hroom : Guarded Directory.call HasRoom m.directory (m.resourceCalls name) :=
    allowed.mono fun _ _ hc => hc.2
  exact (names_iff hname).mp ((m.lawful_ensureResource name).2 h hroom)

/-- A command needs something if its key has segments. -/
theorem needs_eq_nil {cmd : Command} (hname : segments cmd.resourceName = []) :
    cmd.needs = [] := by
  rw [Command.needs, hname]
  cases cmd.op <;> rfl

/-- The call that a trial of READ or WRITE makes is granted exactly if the transaction is
not completed and nothing is in the way of the command. -/
theorem requested_iff (h : m.directory.Sound) (hfit : m.lockMgr.table.Compatible Fits)
    (hop : c.command.op = access.op) (txnId : Nat)
    (allowed : Guarded Directory.call Allowed m.directory
      (m.resourceCalls c.command.resourceName)) :
    ((m.ensureResource c.command.resourceName).2.lockMgr.requestLock txnId
        (m.ensureResource c.command.resourceName).1 access.mode).1 = true ↔
      txnId ∉ m.lockMgr.completedTransactions ∧ ¬ m.directory.Bars txnId c.command := by
  have hstate := m.directory_ensureResource c.command.resourceName
  have hsound : (m.ensureResource c.command.resourceName).2.directory.Sound :=
    hstate ▸ h.run allowed
  have hfits : (m.ensureResource c.command.resourceName).2.directory.lockMgr.table.Compatible
      Fits := hstate ▸ compatible_run hfit
  have hcompleted := m.ensureResource_completed c.command.resourceName
  by_cases hover : txnId ∈ m.lockMgr.completedTransactions
  · rw [LockManager.requestLock, if_pos (hcompleted ▸ hover)]
    simp [hover]
  have active : txnId ∉
      (m.ensureResource c.command.resourceName).2.lockMgr.completedTransactions :=
    hcompleted ▸ hover
  rw [and_iff_right hover]
  by_cases hname : segments c.command.resourceName = []
  · obtain ⟨orphan, unused⟩ := ensureResource_fresh h hname
    refine iff_of_true (LockManager.requestLock_unused active orphan unused) ?_
    rw [Bars, needs_eq_nil hname]
    simp
  · have hid := idOf_ensureResource h hname allowed
    have hbars : (m.ensureResource c.command.resourceName).2.directory.Bars txnId c.command ↔
        m.directory.Bars txnId c.command := by
      rw [hstate]
      exact bars_run h allowed (m.resourceCalls_requester _) (m.resourceCalls_running _) _ _
    rw [← hbars]
    exact requestLock_iff_bars hsound hfits hop hid active

/-- A trial of READ or WRITE succeeds exactly if its call is granted. -/
theorem executed_iff_granted (label : m.txnIds[c.command.txnLabel]? = some txnId)
    (active : m.tm.isTransactionActive txnId = true) (hop : c.command.op = access.op)
    (fromPending : Bool) : (m.executeCommand c fromPending).1 =
      ((m.ensureResource c.command.resourceName).2.lockMgr.requestLock txnId
        (m.ensureResource c.command.resourceName).1 access.mode).1 := by
  rw [executeCommand_access label active hop]
  dsimp only
  split
  · next hgranted => exact hgranted.symm
  · next hrefused => exact (Bool.eq_false_of_not_eq_true hrefused).symm

/-- A trial of READ or WRITE succeeds exactly if its transaction is not completed and
nothing is in the way of the command. -/
theorem executed_iff (h : m.directory.Sound) (hfit : m.lockMgr.table.Compatible Fits)
    (label : m.txnIds[c.command.txnLabel]? = some txnId)
    (active : m.tm.isTransactionActive txnId = true) (hop : c.command.op = access.op)
    (allowed : Guarded Directory.call Allowed m.directory
      (m.resourceCalls c.command.resourceName)) (fromPending : Bool) :
    (m.executeCommand c fromPending).1 = true ↔
      txnId ∉ m.lockMgr.completedTransactions ∧ ¬ m.directory.Bars txnId c.command := by
  rw [executed_iff_granted label active hop]
  exact requested_iff h hfit hop txnId allowed

/-- A trial of READ or WRITE that fails ends with a refused request. -/
theorem executeCommand_refused (label : m.txnIds[c.command.txnLabel]? = some txnId)
    (active : m.tm.isTransactionActive txnId = true) (hop : c.command.op = access.op)
    {fromPending : Bool} (failed : (m.executeCommand c fromPending).1 = false) :
    ((m.ensureResource c.command.resourceName).2.lockMgr.requestLock txnId
        (m.ensureResource c.command.resourceName).1 access.mode).1 = false ∧
      m.executeCalls c = m.resourceCalls c.command.resourceName ++
        [.request c.command.resourceName txnId (m.ensureResource c.command.resourceName).1
          access.mode] := by
  rw [executed_iff_granted label active hop] at failed
  rw [executeCalls_access label active hop]
  unfold accessCalls
  dsimp only
  rw [if_neg (by simp [failed])]
  exact ⟨failed, rfl⟩

/-- Only a key with segments is refused to a transaction that goes on: without any
the resource would be new. -/
theorem segments_of_refused (h : m.directory.Sound) {name : Name} {t : Nat} {mode : LockType}
    (refused : ((m.ensureResource name).2.lockMgr.requestLock t (m.ensureResource name).1
      mode).1 = false) :
    t ∈ (m.ensureResource name).2.lockMgr.completedTransactions ∨ segments name ≠ [] := by
  by_cases hname : segments name = []
  · obtain ⟨orphan, unused⟩ := ensureResource_fresh h hname
    refine Or.inl (by_contra fun hactive => ?_)
    have hgranted := LockManager.requestLock_unused (m := mode) hactive orphan unused
    exact Bool.noConfusion (refused.symm.trans hgranted)
  · exact Or.inr hname

end Main

end TxnEngine
