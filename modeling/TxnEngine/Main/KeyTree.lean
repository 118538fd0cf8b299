import TxnEngine.Main.Keys

/-!
# The lock hierarchy follows the keys

The parents that `ensureResource` gives the lock manager mirror the segments of
the keys.  In every state of a run, between the calls inside a command as well,
the parents of the id of a path are the ids of its shorter prefixes
(`Directory.Mirrors`), so the intention locks of `requestLock` go exactly where
the key says.  A link is made together with its child, before any request
concerns the child, and stays (`Linked`).
-/

namespace TxnEngine

open Std Runs PathTree

namespace Directory

/-- The parents of the id of a path with segments are the ids of its shorter
prefixes, the longest first, and the walk of the lock manager finds exactly
these.  Parents are smaller than their children.  Every id that has a name has a
record of that id. -/
structure Mirrors (d : Directory) : Prop where
  chain : ∀ (path : Name) (id : Nat), d.resources.resourceIds[path]? = some id →
    segments path ≠ [] → ∃ ids,
      (id :: ids).map some =
        (prefixes (segments path)).map (fun segs => d.resources.resourceIds[joined segs]?) ∧
      List.IsChain (IsParent d.lockMgr.resourceParent) (id :: ids) ∧
      (∀ top ∈ (id :: ids).getLast?, d.lockMgr.resourceParent[top]? = none) ∧
      d.lockMgr.ancestors id = ids
  forest : ∀ child parent, IsParent d.lockMgr.resourceParent child parent → parent < child
  stored : ∀ (path : Name) (id : Nat), d.resources.resourceIds[path]? = some id →
    ∃ record, d.resources.dataStore.store.getRecord id = some record ∧ record.recordId = id

variable {d : Directory}

/-- The walk of the lock manager finds the ids of the shorter prefixes. -/
theorem Sound.ancestors (h : d.Sound) {path : List Name} {id : Nat}
    (hid : d.tree.idOf path = some id) :
    (id :: d.lockMgr.ancestors id).map some = (prefixes path).map d.tree.idOf ∧
      List.IsChain (IsParent d.lockMgr.resourceParent) (id :: d.lockMgr.ancestors id) ∧
      ∀ top ∈ (id :: d.lockMgr.ancestors id).getLast?, d.lockMgr.resourceParent[top]? = none := by
  obtain ⟨ids, hids, hchain, htop⟩ := h.tree.chain hid
  have hwalk : d.lockMgr.ancestors id = ids :=
    (d.lockMgr.parentWalk_ancestors id).unique
      (parentWalk_of_chain (fun _ _ hparent => (h.tree.below hparent).1) hchain htop nofun)
  rw [hwalk]
  exact ⟨hids, hchain, htop⟩

theorem Sound.mirrors (h : d.Sound) : d.Mirrors := by
  constructor
  case forest => exact fun child parent hparent => (h.tree.below hparent).1
  case chain =>
    intro path id hid hne
    have hkey := isKey_segments path
    rw [(h.filed path id hid).resolve_left hne, ← idOf_tree hne hkey] at hid
    obtain ⟨hids, hchain, htop⟩ := h.ancestors hid
    have hprefixes : (prefixes (segments path)).map d.tree.idOf =
        (prefixes (segments path)).map fun segs => d.resources.resourceIds[joined segs]? := by
      refine List.map_congr_left fun segs hmem => ?_
      obtain ⟨hsegs, hstart⟩ := mem_prefixes hmem
      exact idOf_tree hsegs fun segment hsegment => hkey segment (hstart.subset hsegment)
    exact ⟨_, hids.trans hprefixes, hchain, htop, rfl⟩
  case stored =>
    intro path id hid
    obtain ⟨value, hvalue⟩ := Option.isSome_iff_exists.mp (d.resources.stored path id hid)
    obtain ⟨record, hrecord, _⟩ := Option.bind_eq_some_iff.mp hvalue
    exact ⟨record, hrecord, h.records id record hrecord⟩

/-! ## When a link is made -/

/-- The link of `child` changes only in the call that makes `child`.  Until then it
had none, and no request was for it or for a resource below it.  It stays. -/
structure Linked (start : Directory) (before : List Call) (c : Call) (later : List Call)
    (child : Nat) : Prop where
  creates : ∃ path parent value, c = .create path parent value
  created : child = (run call start before).resources.nextResourceId
  none_before : (run call start before).lockMgr.resourceParent[child]? = none
  unrequested : ∀ earlier between name t r m, before = earlier ++ .request name t r m :: between →
    child ≠ r ∧ child ∉ (run call start earlier).lockMgr.ancestors r
  stays : ∀ js, js <+: later →
    (run call start (before ++ c :: js)).lockMgr.resourceParent[child]? =
      (run call start (before ++ [c])).lockMgr.resourceParent[child]?

variable {calls : List Call}

/-- Ids that were given out keep their parents along a run. -/
theorem parent_run (h : d.Sound) (allowed : Guarded call Allowed d calls) {child : Nat}
    (hold : child < d.tree.next) : d.tree.next ≤ (Runs.run call d calls).tree.next ∧
      (Runs.run call d calls).tree.parent child = d.tree.parent child := by
  refine (allowed.invariant (I := fun d' => d'.Sound ∧ d.tree.next ≤ d'.tree.next ∧
    d'.tree.parent child = d.tree.parent child) ?_ ⟨h, le_rfl, rfl⟩).2
  rintro d' c ⟨hd, hnext, hparent⟩ hc
  have hgrows := call_grows hd hc.1 hc.2
  exact ⟨hd.call hc.1 hc.2, hnext.trans hgrows.next_le,
    (hgrows.parent (hold.trans_le hnext)).trans hparent⟩

/-- A call that changes the link of a resource makes the resource. -/
theorem created_of_changed (h : d.Sound) {c : Call} (allowed : d.Allowed c) {child : Nat}
    (changed : (d.call c).tree.parent child ≠ d.tree.parent child) :
    (∃ path parent value, c = .create path parent value) ∧ child = d.tree.next := by
  have hgrows := call_grows h allowed.1 allowed.2
  have hnew : d.tree.next ≤ child := Nat.le_of_not_lt fun hold => changed (hgrows.parent hold)
  have hissued : child < (d.call c).tree.next :=
    Nat.lt_of_not_le fun hle => changed
      ((parent_eq_none (h.call allowed.1 allowed.2) hle).trans (parent_eq_none h hnew).symm)
  rcases d.resourceIds_call c with ⟨_, hnext, _⟩ | ⟨_, _, hcreates, _, hnext⟩
  · exact absurd (hissued.trans_eq hnext) (Nat.not_lt_of_le hnew)
  · have hchild : child = d.tree.next := by
      have hlt : child < d.resources.nextResourceId + 1 :=
        hissued.trans_eq (hnext.trans (succ32_of_lt (allowed.2 hcreates)))
      exact Nat.le_antisymm (Nat.le_of_lt_succ hlt) hnew
    cases c with
    | create path parent value => exact ⟨⟨path, parent, value, rfl⟩, hchild⟩
    | fallback => exact absurd rfl changed
    | found | request | read | update | complete => cases hcreates

theorem linked_of_changed {start : Directory} {before later : List Call} {c : Call} {child : Nat}
    (h : start.Sound) (allowed : Guarded call Allowed start (before ++ c :: later))
    (changed : (Runs.run call start (before ++ [c])).lockMgr.resourceParent[child]? ≠
      (Runs.run call start before).lockMgr.resourceParent[child]?) :
    Linked start before c later child := by
  have hbefore := ((guarded_append start before (c :: later)).mp allowed).1
  have hrest := ((guarded_append start before (c :: later)).mp allowed).2
  have hsound := h.run hbefore
  rw [run_concat] at changed
  obtain ⟨hcreates, hchild⟩ := created_of_changed hsound hrest.1 changed
  constructor
  case creates => exact hcreates
  case created => exact hchild
  case none_before => exact parent_eq_none hsound hchild.ge
  case unrequested =>
    rintro earlier between name t r m rfl
    have hsplit := (guarded_append start earlier (.request name t r m :: between)).mp hbefore
    have hearlier := h.run hsplit.1
    -- the resource asked for was made before, and so was everything above it
    have hissued : r < (Runs.run call start earlier).tree.next :=
      (hearlier.issued _ r hsplit.2.1.1).2
    have hlater := (parent_run hearlier hsplit.2 hissued).1
    rw [← run_append, ← hchild] at hlater
    have hr : r < child := hissued.trans_le hlater
    exact ⟨Nat.ne_of_gt hr, fun hmem =>
      Nat.lt_irrefl _ ((lt_of_mem_ancestors hearlier hmem).trans hr)⟩
  case stays =>
    intro js hjs
    have hcall := hsound.call hrest.1.1 hrest.1.2
    have hafter := hrest.2
    have hmade : child < ((Runs.run call start before).call c).tree.next := by
      obtain ⟨path, parent, value, rfl⟩ := hcreates
      have hnext : ((Runs.run call start before).call (.create path parent value)).tree.next =
          (Runs.run call start before).tree.next + 1 := succ32_of_lt (hrest.1.2 rfl)
      rw [hchild, hnext]
      exact Nat.lt_succ_self _
    have hstays := (parent_run hcall (hafter.of_prefix hjs) hmade).2
    rw [run_concat, run_append, run_cons]
    exact hstays

end Directory

namespace Main

open Directory

/-- In every state between two commands and between two calls inside a command, the
parents mirror the keys.  A link is made with its child. -/
theorem hierarchy_mirrors_keys (env : Environment) (input : List Command)
    (few : FewResources env input) :
    (after env input).directory.Mirrors ∧
      Always Directory.call Mirrors (.init env) ((init env).calls input) ∧
      ∀ before c later child, (init env).calls input = before ++ c :: later →
        (run Directory.call (.init env) (before ++ [c])).lockMgr.resourceParent[child]? ≠
          (run Directory.call (.init env) before).lockMgr.resourceParent[child]? →
        Linked (.init env) before c later child := by
  have allowed := allowed_calls few
  have hinit := sound_init env
  refine ⟨?_, fun js hjs => (hinit.run (allowed.of_prefix hjs)).mirrors, ?_⟩
  · rw [directory_after]
    exact (hinit.run allowed).mirrors
  · intro before c later child hcalls changed
    rw [hcalls] at allowed
    exact linked_of_changed hinit allowed changed

theorem hierarchy_mirrors_keys_spellings :
    (after ⟨[], [], []⟩ spellings).directory.Mirrors ∧
      (after ⟨[], [], []⟩ spellings).lockMgr.ancestors 2 = [1] :=
  ⟨(hierarchy_mirrors_keys ⟨[], [], []⟩ spellings (by decide)).1, by decide⟩

end Main

end TxnEngine
