import TxnEngine.Concurrency.Hierarchy
import TxnEngine.Concurrency.Requests
import TxnEngine.Library.PathTree
import TxnEngine.Main.Calls

/-!
# What a key names

A key is a list of segments, and the resources with their parents are a tree of
such paths (`Directory.tree`).  Every call that `main` makes is one that grows
the tree, or looks a name up in it and uses the id that it finds (`Meant`).

A key without segments is not in the tree.  `ensureResource` files it under its
name but never looks that name up, so every call makes a resource of its own.
Two calls give the same id exactly when their keys have the same segments, unless
both keys have none (`lookups_same_id_iff`).
-/

namespace TxnEngine

open Std Runs PathTree

/-! ## Paths of segments -/

/-- The segments are not empty and have no dot. -/
def IsKey (segments : List Name) : Prop := ∀ segment ∈ segments, segment ≠ [] ∧ '.' ∉ segment

instance (segments : List Name) : Decidable (IsKey segments) :=
  inferInstanceAs (Decidable (∀ segment ∈ segments, _))

/-- The path that the loop of `ensureResource` builds from segments. -/
def joined (segments : List Name) : Name :=
  segments.foldl (fun path segment => if path.isEmpty then segment else path ++ '.' :: segment) []

theorem isKey_segments (name : Name) : IsKey (segments name) := by
  intro segment hmem
  obtain ⟨hpiece, hne⟩ := List.mem_filter.mp hmem
  exact ⟨by simpa using hne, not_mem_of_mem_getlines hpiece⟩

theorem IsKey.left {dir rest : List Name} (h : IsKey (dir ++ rest)) : IsKey dir :=
  fun segment hmem => h segment (List.mem_append_left _ hmem)

theorem joined_concat (dir : List Name) (segment : Name) : joined (dir ++ [segment]) =
    if (joined dir).isEmpty then segment else joined dir ++ '.' :: segment :=
  List.foldl_append

theorem joined_ne_nil {path : List Name} (h : IsKey path) (hne : path ≠ []) : joined path ≠ [] := by
  induction path using List.reverseRecOn with
  | nil => exact absurd rfl hne
  | append_singleton dir segment _ =>
      rw [joined_concat]
      split
      · exact (h segment (by simp)).1
      · simp

theorem joined_concat_of_ne {dir : List Name} (h : IsKey dir) (hne : dir ≠ []) (segment : Name) :
    joined (dir ++ [segment]) = joined dir ++ '.' :: segment := by
  rw [joined_concat, if_neg (by simpa using joined_ne_nil h hne)]

/-- The pieces of a path in front of any rest. -/
theorem getlines_joined {path : List Name} (h : IsKey path) (hne : path ≠ []) :
    ∀ rest, getlines '.' (joined path ++ '.' :: rest) = path ++ getlines '.' rest := by
  induction path using List.reverseRecOn with
  | nil => exact absurd rfl hne
  | append_singleton dir segment ih =>
      intro rest
      have hdot := (h segment (by simp)).2
      by_cases hdir : dir = []
      · subst hdir
        exact getlines_append_cons hdot rest
      · rw [joined_concat_of_ne h.left hdir, List.append_assoc, List.cons_append,
          ih h.left hdir, getlines_append_cons hdot, List.append_assoc]
        rfl

/-- A path has the segments that it was built from. -/
theorem segments_joined {path : List Name} (h : IsKey path) : segments (joined path) = path := by
  have hpieces : getlines '.' (joined path) = path := by
    induction path using List.reverseRecOn with
    | nil => rfl
    | append_singleton dir segment _ =>
        obtain ⟨hne, hdot⟩ := h segment (by simp)
        by_cases hdir : dir = []
        · subst hdir
          exact getlines_of_not_mem hdot hne
        · rw [joined_concat_of_ne h.left hdir, getlines_joined h.left hdir,
            getlines_of_not_mem hdot hne]
  rw [segments, hpieces, List.filter_eq_self]
  exact fun segment hmem => by simpa using (h segment hmem).1

theorem joined_injective {path path' : List Name} (h : IsKey path) (h' : IsKey path')
    (heq : joined path = joined path') : path = path' := by
  rw [← segments_joined h, heq, segments_joined h']

/-- Where `ensureResource` files the resource of a name. -/
def keyPath (name : Name) : Name := if segments name = [] then name else joined (segments name)

/-! ## The tree of the resources -/

namespace Directory

variable {d : Directory}

/-- The resources that have segments, with their parents. -/
def tree (d : Directory) : PathTree.Tree Name where
  idOf path := if path ≠ [] ∧ IsKey path then d.resources.resourceIds[joined path]? else none
  parent id := d.lockMgr.resourceParent[id]?
  next := d.resources.nextResourceId

theorem idOf_tree {path : List Name} (hne : path ≠ []) (h : IsKey path) :
    d.tree.idOf path = d.resources.resourceIds[joined path]? := if_pos ⟨hne, h⟩

theorem isKey_of_idOf {path : List Name} {id : Nat} (h : d.tree.idOf path = some id) :
    path ≠ [] ∧ IsKey path := by
  by_contra hnot
  rw [tree] at h
  dsimp only at h
  rw [if_neg hnot] at h
  cases h

/-- The resource of a name is on file with the id. -/
def Names (d : Directory) (name : Name) (id : Nat) : Prop :=
  d.resources.resourceIds[keyPath name]? = some id

theorem names_iff {name : Name} {id : Nat} (h : segments name ≠ []) :
    d.Names name id ↔ d.tree.idOf (segments name) = some id := by
  rw [Names, keyPath, if_neg h, idOf_tree h (isKey_segments name)]

/-- What `main` keeps of its resources. -/
structure Sound (d : Directory) : Prop where
  tree : d.tree.Sound
  issued : ∀ (path : Name) (id : Nat), d.resources.resourceIds[path]? = some id →
    0 < id ∧ id < d.resources.nextResourceId
  filed : ∀ (path : Name) (id : Nat), d.resources.resourceIds[path]? = some id →
    segments path = [] ∨ path = joined (segments path)
  records : ∀ (id : Nat) (record : Record),
    d.resources.dataStore.store.getRecord id = some record → record.recordId = id
  used : ∀ r, d.lockMgr.table.Used r → r < d.resources.nextResourceId

/-- What a call finds. -/
def Meant (d : Directory) : Call → Prop
  | .create path parent _ => ∃ dir segment, IsKey (dir ++ [segment]) ∧
      path = joined (dir ++ [segment]) ∧ d.tree.idOf (dir ++ [segment]) = none ∧
      (dir = [] ∧ parent = 0 ∨ d.tree.idOf dir = some parent)
  | .found name id => segments name ≠ [] ∧ d.Names name id
  | .fallback name id => segments name = [] ∧ id = d.resources.nextResourceId
  | .request name _ id _ | .read name id | .update name id _ => d.Names name id
  | .complete _ => True

/-- The numbers do not come round. -/
def HasRoom (d : Directory) (c : Call) : Prop :=
  c.creates = true → d.resources.nextResourceId + 1 < 2 ^ 32

/-! ## Calls grow the tree -/

theorem sound_init (env : Environment) : (init env).Sound := by
  have hids : ∀ path : Name, (init env).resources.resourceIds[path]? = none := by
    simp [init, Resources.empty]
  have hidOf : ∀ path, (init env).tree.idOf path = none := by
    intro path
    by_cases h : path ≠ [] ∧ IsKey path
    · rw [idOf_tree h.1 h.2, hids]
    · exact if_neg h
  have hparent : ∀ id, (init env).tree.parent id = none := by
    simp [init, tree, LockManager.empty]
  constructor
  case tree =>
    constructor <;> simp_all [init, tree, Resources.empty]
  case issued => simp [hids]
  case filed => simp [hids]
  case records =>
    simp [init, Resources.empty, IntStore.empty, DataStore.empty, DataStore.getRecord]
  case used =>
    rintro r ⟨p, hheld⟩
    simp [init, LockManager.table_empty] at hheld

theorem requestLock_resourceParent (lm : LockManager) (t r : Nat) (m : LockType) :
    (lm.requestLock t r m).2.resourceParent = lm.resourceParent :=
  LockManager.requestLock_invariant (I := fun lm' => lm'.resourceParent = lm.resourceParent)
    (fun lm' r m _ h => (lm'.requestLockOnResource_resourceParent t r m).trans h) lm rfl

/-- A resource that is not made yet has no parent. -/
theorem parent_eq_none (h : d.Sound) {child : Nat} (hnew : d.tree.next ≤ child) :
    d.tree.parent child = none := by
  by_contra hsome
  obtain ⟨parent, hparent⟩ := Option.ne_none_iff_exists'.mp hsome
  exact Nat.not_le_of_lt (h.tree.below hparent).2 hnew

/-- The ids after the resource of a path was made. -/
theorem idOf_create {dir : List Name} {segment : Name} (hkey : IsKey (dir ++ [segment]))
    (parent : Nat) (value : Int32) (path : List Name) :
    (d.call (.create (joined (dir ++ [segment])) parent value)).tree.idOf path =
      if path = dir ++ [segment] then some d.tree.next else d.tree.idOf path := by
  by_cases hpath : path ≠ [] ∧ IsKey path
  · rw [idOf_tree hpath.1 hpath.2, idOf_tree hpath.1 hpath.2]
    show (d.resources.resourceIds.insert (joined (dir ++ [segment])) _)[joined path]? = _
    rw [ExtTreeMap.getElem?_insert]
    by_cases heq : path = dir ++ [segment]
    · rw [if_pos heq, if_pos (by rw [heq, Std.compare_eq_iff_eq])]
      rfl
    · have hne : joined (dir ++ [segment]) ≠ joined path :=
        fun hjoined => heq (joined_injective hpath.2 hkey hjoined.symm)
      rw [if_neg heq, if_neg (by rwa [Std.compare_eq_iff_eq])]
  · have hne : path ≠ dir ++ [segment] := by
      rintro rfl
      exact hpath ⟨by simp, hkey⟩
    rw [if_neg hne]
    exact (if_neg hpath).trans (if_neg hpath).symm

/-- The parents after a resource below another was made. -/
theorem parent_create {parent : Nat} (hzero : parent ≠ 0) (path : Name) (value : Int32)
    (child : Nat) : (d.call (.create path parent value)).tree.parent child =
      if child = d.tree.next then some parent else d.tree.parent child := by
  have hlinks : (d.call (.create path parent value)).tree.parent child =
      (d.lockMgr.resourceParent.insert d.resources.nextResourceId parent)[child]? := by
    show (if parent = 0 then _ else _ : LockManager).resourceParent[child]? = _
    rw [if_neg hzero]
    rfl
  rw [hlinks, ExtTreeMap.getElem?_insert]
  by_cases hchild : child = d.tree.next
  · rw [if_pos hchild, if_pos (by rw [hchild, Std.compare_eq_iff_eq]; rfl)]
  · have hne : d.resources.nextResourceId ≠ child := Ne.symm hchild
    rw [if_neg hchild, if_neg (by rwa [Std.compare_eq_iff_eq])]
    rfl

/-- Making the resource of a new path adds the path. -/
theorem tree_create (h : d.Sound) {dir : List Name} {segment : Name} {parent : Nat}
    (hkey : IsKey (dir ++ [segment]))
    (hparent : dir = [] ∧ parent = 0 ∨ d.tree.idOf dir = some parent)
    (room : d.resources.nextResourceId + 1 < 2 ^ 32) (value : Int32) :
    (d.call (.create (joined (dir ++ [segment])) parent value)).tree = d.tree.add dir segment := by
  refine PathTree.Tree.ext (funext fun path => ?_) (funext fun child => ?_) (succ32_of_lt room)
  · rw [Tree.idOf_add]
    exact idOf_create hkey parent value path
  · rw [Tree.parent_add]
    rcases hparent with ⟨rfl, rfl⟩ | hdir
    · rw [h.tree.root]
      split
      · next hchild => exact parent_eq_none h hchild.ge
      · rfl
    · rw [parent_create (Nat.ne_of_gt (h.tree.issued hdir).1), hdir]

/-- Making a resource without segments adds no path. -/
theorem tree_fallback {name : Name} (hname : segments name = [])
    (room : d.resources.nextResourceId + 1 < 2 ^ 32) (id : Nat) :
    (d.call (.fallback name id)).tree = d.tree.skip := by
  refine PathTree.Tree.ext (funext fun path => ?_) rfl (succ32_of_lt room)
  by_cases hpath : path ≠ [] ∧ IsKey path
  · have hne : name ≠ joined path := by
      rintro rfl
      exact hpath.1 ((segments_joined hpath.2).symm.trans hname)
    rw [idOf_tree hpath.1 hpath.2]
    show (d.resources.resourceIds.insert name _)[joined path]? = _
    rw [ExtTreeMap.getElem?_insert, if_neg (by rwa [Std.compare_eq_iff_eq])]
    exact (idOf_tree hpath.1 hpath.2).symm
  · exact (if_neg hpath).trans (if_neg hpath).symm

/-- A call that is meant grows the tree. -/
theorem call_grows {c : Call} (h : d.Sound) (meant : d.Meant c) (room : d.HasRoom c) :
    Grows d.tree (d.call c).tree := by
  cases c with
  | create path parent value =>
      obtain ⟨dir, segment, hkey, rfl, fresh, hparent⟩ := meant
      rw [tree_create h hkey hparent (room rfl)]
      exact .add fresh (hparent.imp And.left fun hdir => ⟨parent, hdir⟩)
  | fallback name id =>
      rw [tree_fallback meant.1 (room rfl)]
      exact .skip _
  | request name t r m =>
      have hsame : (d.call (.request name t r m)).tree = d.tree :=
        PathTree.Tree.ext rfl (by rw [tree, call, requestLock_resourceParent]; rfl) rfl
      exact hsame ▸ .same _
  | complete t =>
      have hsame : (d.call (.complete t)).tree = d.tree :=
        PathTree.Tree.ext rfl
          (by rw [tree, call, d.lockMgr.completeTransaction_resourceParent]; rfl) rfl
      exact hsame ▸ .same _
  | found | read | update => exact .same _

/-- A call that makes a resource files it under a path with the next number. -/
theorem resourceIds_call (d : Directory) (c : Call) :
    (d.call c).resources.resourceIds = d.resources.resourceIds ∧
        (d.call c).resources.nextResourceId = d.resources.nextResourceId ∧ c.creates = false ∨
      ∃ path, (d.call c).resources.resourceIds =
          d.resources.resourceIds.insert path d.resources.nextResourceId ∧
        c.creates = true ∧
        (d.Meant c → segments path = [] ∨ path = joined (segments path)) ∧
        (d.call c).resources.nextResourceId = succ32 d.resources.nextResourceId := by
  cases c with
  | create path parent value =>
      refine Or.inr ⟨path, rfl, rfl, ?_, rfl⟩
      rintro ⟨dir, segment, hkey, rfl, _⟩
      rw [segments_joined hkey]
      exact Or.inr rfl
  | fallback name id => exact Or.inr ⟨name, rfl, rfl, fun meant => Or.inl meant.1, rfl⟩
  | found | read | update | request | complete => exact Or.inl ⟨rfl, rfl, rfl⟩

/-- A record that is inserted carries the id that it is stored under. -/
theorem recordId_insertInt {store : IntStore} (h : ∀ (id : Nat) (record : Record),
      store.store.getRecord id = some record → record.recordId = id) (new : Nat) (value : Int32)
    (id : Nat) (record : Record)
    (hrecord : (store.insertInt new value).store.getRecord id = some record) :
    record.recordId = id := by
  rw [IntStore.store_insertInt, DataStore.getRecord_insertRecord] at hrecord
  split at hrecord
  · next hid =>
      cases hold : store.store.getRecord id with
      | none =>
          rw [hold] at hrecord
          cases hrecord
          exact hid
      | some old =>
          rw [hold] at hrecord
          cases hrecord
          exact h id old hold
  · exact h id record hrecord

/-- A record that is updated keeps the id that it is stored under. -/
theorem recordId_updateInt {store : IntStore} (h : ∀ (id : Nat) (record : Record),
      store.store.getRecord id = some record → record.recordId = id) (r : Nat) (value : Int32)
    (id : Nat) (record : Record)
    (hrecord : (store.updateInt r value).store.getRecord id = some record) :
    record.recordId = id := by
  rw [IntStore.store_updateInt] at hrecord
  cases hold : store.store.getRecord r with
  | none =>
      rw [hold] at hrecord
      exact h id record hrecord
  | some old =>
      rw [hold] at hrecord
      dsimp only [DataStore.getRecord] at hrecord
      rw [ExtTreeMap.getElem?_insert] at hrecord
      split at hrecord
      · next hid =>
          cases hrecord
          exact (h r old hold).trans (Std.compare_eq_iff_eq.mp hid)
      · exact h id record hrecord

/-- A record carries the id that it is stored under. -/
theorem records_call {c : Call} (h : ∀ (id : Nat) (record : Record),
      d.resources.dataStore.store.getRecord id = some record → record.recordId = id)
    {id : Nat} {record : Record}
    (hrecord : (d.call c).resources.dataStore.store.getRecord id = some record) :
    record.recordId = id := by
  cases c with
  | create path parent value => exact recordId_insertInt h _ _ id record hrecord
  | fallback name _ => exact recordId_insertInt h _ _ id record hrecord
  | update name r value => exact recordId_updateInt h r value id record hrecord
  | found | read | request | complete => exact h id record hrecord

/-- What is above a resource is smaller. -/
theorem lt_of_mem_ancestors (h : d.Sound) {r a : Nat} (hmem : a ∈ d.lockMgr.ancestors r) :
    a < r := by
  have habove := d.lockMgr.mem_ancestors_iff.mp hmem
  clear hmem
  induction habove with
  | single hparent => exact (h.tree.below hparent).1
  | tail _ hparent ih => exact (h.tree.below hparent).1.trans ih

/-- Locks are on resources that were made. -/
theorem used_call {c : Call} (h : d.Sound) (meant : d.Meant c) {r : Nat}
    (hused : (d.call c).lockMgr.table.Used r) : r < d.resources.nextResourceId := by
  cases c with
  | create path parent value =>
      have hsame : (d.call (.create path parent value)).lockMgr.table = d.lockMgr.table := by
        rw [call]
        dsimp only
        split <;> rfl
      exact h.used r (hsame ▸ hused)
  | request name t r' m =>
      have hrequest : (d.lockMgr.step (.requestLock t r' m)).table.Used r := hused
      rcases LockManager.used_step hrequest with hold | hasked
      · exact h.used r hold
      · have hr' := (h.issued _ r' meant).2
        rcases List.mem_cons.mp hasked with rfl | habove
        · exact hr'
        · exact (lt_of_mem_ancestors h habove).trans hr'
  | complete t =>
      have hcomplete : (d.lockMgr.step (.completeTransaction t)).table.Used r := hused
      rcases LockManager.used_step hcomplete with hold | hasked
      · exact h.used r hold
      · cases hasked
  | found | fallback | read | update => exact h.used r hused

/-- A call that is meant keeps the resources sound. -/
theorem Sound.call {c : Call} (h : d.Sound) (meant : d.Meant c) (room : d.HasRoom c) :
    (d.call c).Sound := by
  have hids : ∀ (path : Name) (id : Nat), (d.call c).resources.resourceIds[path]? = some id →
      (0 < id ∧ id < (d.call c).resources.nextResourceId) ∧
        (segments path = [] ∨ path = joined (segments path)) := by
    intro path id hid
    rcases d.resourceIds_call c with ⟨hsame, hnext, _⟩ | ⟨new, hinsert, hcreates, hnew, hnext⟩
    · rw [hsame] at hid
      rw [hnext]
      exact ⟨h.issued path id hid, h.filed path id hid⟩
    · rw [hnext, succ32_of_lt (room hcreates)]
      rw [hinsert, ExtTreeMap.getElem?_insert] at hid
      split at hid
      · next heq =>
          cases hid
          rw [← Std.compare_eq_iff_eq.mp heq]
          exact ⟨⟨h.tree.positive, Nat.lt_succ_self _⟩, hnew meant⟩
      · obtain ⟨hpos, hlt⟩ := h.issued path id hid
        exact ⟨⟨hpos, hlt.trans (Nat.lt_succ_self _)⟩, h.filed path id hid⟩
  have hgrows := call_grows h meant room
  exact ⟨hgrows.sound h.tree, fun path id hid => (hids path id hid).1,
    fun path id hid => (hids path id hid).2, fun id record => records_call h.records,
    fun r hused => (used_call h meant hused).trans_le hgrows.next_le⟩

/-! ## Lawful lists of calls -/

def Allowed (d : Directory) (c : Call) : Prop := d.Meant c ∧ d.HasRoom c

theorem Sound.run {calls : List Call} (h : d.Sound)
    (allowed : Guarded Directory.call Allowed d calls) : (Runs.run Directory.call d calls).Sound :=
  allowed.invariant (fun _ _ hd hc => hd.call hc.1 hc.2) h

/-- As long as there is room, every call is meant. -/
def Lawful (d : Directory) (calls : List Call) : Prop :=
  d.Sound → Guarded call HasRoom d calls → Guarded call Allowed d calls

/-- Few calls that make a resource all find a new number. -/
theorem guarded_hasRoom {calls : List Call}
    (h : d.resources.nextResourceId + calls.countP Call.creates < 2 ^ 32) :
    Guarded Directory.call HasRoom d calls := by
  refine guarded_of_countP ?_ calls d h
  intro d c
  rcases d.resourceIds_call c with ⟨_, hnext, _⟩ | ⟨_, _, hcreates, _, hnext⟩
  · rw [hnext]
    exact Nat.le_add_right _ _
  · rw [hnext, if_pos hcreates]
    exact Nat.mod_le _ _

theorem Lawful.nil : Lawful d [] := fun _ _ => trivial

theorem Lawful.cons {c : Call} {calls : List Call} (meant : d.Sound → d.Meant c)
    (rest : Lawful (d.call c) calls) : Lawful d (c :: calls) :=
  fun h room => ⟨⟨meant h, room.1⟩, rest (h.call (meant h) room.1) room.2⟩

theorem Lawful.append {first rest : List Call} (hfirst : Lawful d first)
    (hrest : Lawful (run call d first) rest) : Lawful d (first ++ rest) := by
  intro h room
  rw [guarded_append] at room ⊢
  have allowed := hfirst h room.1
  exact ⟨allowed, hrest (h.run allowed) room.2⟩

end Directory

/-! ## The calls of `main` are lawful -/

namespace Main

open Directory

/-- The loop over the segments ends at the resource of their path. -/
theorem lawful_segments : ∀ (rest dir : List Name) (lastId : Nat) (m : Main), IsKey (dir ++ rest) →
    (dir = [] ∧ lastId = 0 ∨ m.directory.tree.idOf dir = some lastId) →
    Lawful m.directory (segmentCalls rest (joined dir) lastId m) ∧
      (dir ++ rest = [] ∧ (ensureSegments rest (joined dir) lastId m).1 = 0 ∨
        (ensureSegments rest (joined dir) lastId m).2.directory.tree.idOf (dir ++ rest) =
          some (ensureSegments rest (joined dir) lastId m).1)
  | [], dir, lastId, m, _, hlast => by
      rw [List.append_nil]
      exact ⟨.nil, hlast⟩
  | segment :: rest, dir, lastId, m, hkey, hlast => by
      have hsplit : dir ++ segment :: rest = dir ++ [segment] ++ rest := by simp
      rw [hsplit] at hkey ⊢
      have hidOf (m' : Main) : m'.directory.tree.idOf (dir ++ [segment]) =
          m'.resources.resourceIds[joined (dir ++ [segment])]? :=
        idOf_tree (by simp) hkey.left
      rw [segmentCalls, ensureSegments, ← joined_concat]
      dsimp only
      cases hfind : m.resources.resourceIds[joined (dir ++ [segment])]? with
      | some id =>
          exact lawful_segments rest (dir ++ [segment]) id m hkey
            (Or.inr ((hidOf m).trans hfind))
      | none =>
          dsimp only
          generalize (if joined (dir ++ [segment]) = ['A'] then (10 : Int32) else 0) = value
          have hnew := hidOf (m.createResource (joined (dir ++ [segment])) lastId value).2
          obtain ⟨hlawful, hend⟩ := lawful_segments rest (dir ++ [segment])
            m.resources.nextResourceId (m.createResource (joined (dir ++ [segment])) lastId value).2
            hkey (Or.inr (hnew.trans ExtTreeMap.getElem?_insert_self))
          refine ⟨.cons (fun _ => ?_) hlawful, hend⟩
          exact ⟨dir, segment, hkey.left, rfl, (hidOf m).trans hfind, hlast⟩

theorem lawful_ensureResource (m : Main) (name : Name) :
    Lawful m.directory (m.resourceCalls name) ∧
      (m.directory.Sound → Guarded Directory.call HasRoom m.directory (m.resourceCalls name) →
        (m.ensureResource name).2.directory.Names name (m.ensureResource name).1) := by
  obtain ⟨hlawful, hend⟩ := lawful_segments (segments name) [] 0 m (isKey_segments name)
    (Or.inl ⟨rfl, rfl⟩)
  rw [List.nil_append] at hend
  have hrun := directory_segments (segments name) [] 0 m
  rw [resourceCalls, ensureResource]
  rw [show joined [] = [] from rfl] at hlawful hend
  generalize ensureSegments (segments name) [] 0 m = found at hend hrun ⊢
  obtain ⟨lastId, m'⟩ := found
  dsimp only at hend hrun ⊢
  -- ids are positive, so the loop ends at 0 only if there was no segment
  have hzero : m'.directory.Sound → lastId = 0 → segments name = [] := by
    intro h hlast
    rcases hend with ⟨hnil, _⟩ | hid
    · exact hnil
    · exact absurd hlast (Nat.ne_of_gt (h.tree.issued hid).1)
  have hfound : lastId ≠ 0 → segments name ≠ [] ∧ m'.directory.Names name lastId := by
    intro hlast
    have hid := hend.resolve_left fun hnil => hlast hnil.2
    exact ⟨(isKey_of_idOf hid).1, (names_iff (isKey_of_idOf hid).1).mpr hid⟩
  constructor
  · refine hlawful.append (.cons (fun h => ?_) .nil)
    rw [← hrun] at h ⊢
    split
    · next hlast => exact ⟨hzero h hlast, rfl⟩
    · next hlast => exact hfound hlast
  · intro h room
    rw [guarded_append] at room
    have h' : m'.directory.Sound := hrun ▸ h.run (hlawful h room.1)
    split
    · next hlast =>
        rw [Names, keyPath, if_pos (hzero h' hlast)]
        exact ExtTreeMap.getElem?_insert_self
    · next hlast => exact (hfound hlast).2

theorem lawful_access (m : Main) (txnId : Nat) (cmd : Command) (access : Access) :
    Lawful m.directory (m.accessCalls txnId cmd access) := by
  intro h room
  unfold accessCalls at room ⊢
  dsimp only at room ⊢
  obtain ⟨hlawful, hnames⟩ := m.lawful_ensureResource cmd.resourceName
  rw [guarded_append] at room ⊢
  have hname := hnames h room.1
  refine ⟨hlawful h room.1, ?_⟩
  rw [← directory_ensureResource] at room ⊢
  refine ⟨⟨hname, room.2.1⟩, ?_⟩
  split
  · cases access with
    | read | write => exact ⟨⟨hname, nofun⟩, trivial⟩
  · trivial

theorem lawful_executeCommand (m : Main) (c : Issued) :
    Lawful m.directory (m.executeCalls c) := by
  rcases m.trial_cases c with hidle | ⟨txnId, access, label, active, hop⟩
  · rw [(executeCommand_idle hidle true).2]
    exact .nil
  · rw [executeCalls_access label active hop]
    exact m.lawful_access txnId c.command access

theorem lawful_announce (m : Main) (c : Issued) (resumed : List Name) :
    Lawful m.directory (m.announceCalls c resumed) := by
  rw [announceCalls]
  cases m.txnIds[c.command.txnLabel]? with
  | none => exact .nil
  | some txnId =>
      dsimp only
      split
      · exact (m.lawful_ensureResource c.command.resourceName).1
      · exact .nil

theorem lawful_pass : ∀ (todo skipped : List Issued) (resumed : List Name) (m : Main),
    Lawful m.directory (passCalls todo skipped resumed m)
  | [], _, _, _ => .nil
  | c :: todo, skipped, resumed, m => by
      rw [passCalls]
      split
      · exact lawful_pass todo skipped resumed (m.setPending (skipped ++ todo))
      · dsimp only
        refine (m.lawful_announce c resumed).append ?_
        rw [← directory_announce]
        refine (lawful_executeCommand _ c).append ?_
        rw [← directory_executeCommand _ c true]
        generalize (m.announce c resumed).2.executeCommand c true = trial
        split
        · exact lawful_pass todo skipped _ (trial.2.setPending (skipped ++ todo))
        · exact lawful_pass todo (skipped ++ [c]) _ trial.2

theorem lawful_loop : ∀ (fuel : Nat) (resumed : List Name) (m : Main),
    Lawful m.directory (loopCalls fuel resumed m)
  | 0, _, _ => .nil
  | fuel + 1, resumed, m => by
      rw [loopCalls]
      refine (lawful_pass m.pending [] resumed m).append ?_
      rw [← directory_pass]
      split
      · exact lawful_loop fuel _ _
      · exact .nil

theorem lawful_complete (m : Main) (cmd : Command) (outcome : Outcome) :
    Lawful m.directory (m.completeCalls cmd outcome) := by
  rw [completeCalls]
  cases m.txnIds[cmd.txnLabel]? with
  | none => exact .nil
  | some txnId =>
      dsimp only
      split
      · exact .nil
      · exact .cons (fun _ => trivial)
          (lawful_loop _ [] ((m.finish txnId outcome).print (.completed cmd.txnLabel outcome)))

theorem lawful_submit (m : Main) (cmd : Command) : Lawful m.directory (m.submitCalls cmd) := by
  rw [submitCalls]
  split
  · exact .nil
  · split
    · exact .nil
    · split
      · exact .nil
      · exact lawful_executeCommand (m.issue cmd).2 (m.issue cmd).1

theorem lawful_show (m : Main) (cmd : Command) : Lawful m.directory (m.showCalls cmd) := by
  rw [showCalls]
  split
  · exact .nil
  · intro h room
    obtain ⟨hlawful, hnames⟩ := m.lawful_ensureResource cmd.resourceName
    rw [guarded_append] at room ⊢
    refine ⟨hlawful h room.1, ?_⟩
    rw [← directory_ensureResource]
    exact ⟨⟨hnames h room.1, by simp [HasRoom, Call.creates]⟩, trivial⟩

theorem lawful_completions (d : Directory) (txnIds : List Nat) :
    Lawful d (txnIds.map .complete) := by
  induction txnIds generalizing d with
  | nil => exact .nil
  | cons txnId txnIds ih => exact .cons (fun _ => trivial) (ih _)

theorem lawful_handle (m : Main) (cmd : Command) : Lawful m.directory (m.handleCalls cmd) := by
  rw [handleCalls]
  cases cmd.op with
  | read | write => exact m.lawful_submit cmd
  | commit => exact m.lawful_complete cmd .commit
  | abort => exact m.lawful_complete cmd .abort
  | «show» => exact m.lawful_show cmd
  | recover => exact lawful_completions _ _
  | help | exit | begin | status | checkpoint | other => exact .nil

theorem lawful_calls : ∀ (input : List Command) (m : Main), Lawful m.directory (m.calls input)
  | [], _ => .nil
  | cmd :: input, m => by
      rw [calls]
      split
      · exact .nil
      · refine (m.lawful_handle cmd).append ?_
        rw [← directory_handle]
        exact lawful_calls input (m.handle cmd)

/-- In a run that makes few resources every call is meant. -/
theorem allowed_calls {env : Environment} {input : List Command} (hfew : FewResources env input) :
    Guarded Directory.call Allowed (.init env) (calls (init env) input) := by
  have hbound : (Directory.init env).resources.nextResourceId +
      (calls (init env) input).countP Call.creates < 2 ^ 32 := by
    have hfirst : (Directory.init env).resources.nextResourceId = 1 := rfl
    rw [FewResources] at hfew
    omega
  exact lawful_calls input (init env) (sound_init env) (guarded_hasRoom hbound)

/-! ## One resource for one list of segments -/

/-- What the calls of `ensureResource` return, with the names. -/
def lookups (calls : List Call) : List (Name × Nat) := calls.filterMap Call.lookup

/-- The ids that are returned, locked, read and written, with the names. -/
def uses (calls : List Call) : List (Name × Nat) := calls.filterMap Call.use

/-- The id belongs to the segments of the name, or to no segments at all. -/
def Assigned (d : Directory) (a : Name × Nat) : Prop :=
  if segments a.1 = [] then d.tree.Unnamed a.2 else d.tree.idOf (segments a.1) = some a.2

theorem assigned_iff {d : Directory} (h : d.Sound) {a b : Name × Nat} (ha : Assigned d a)
    (hb : Assigned d b) (hne : ¬ (segments a.1 = [] ∧ segments b.1 = [])) :
    a.2 = b.2 ↔ segments a.1 = segments b.1 := by
  rw [Assigned] at ha hb
  by_cases hsa : segments a.1 = []
  · have hsb : segments b.1 ≠ [] := fun hsb => hne ⟨hsa, hsb⟩
    rw [if_pos hsa] at ha
    rw [if_neg hsb] at hb
    constructor
    · intro heq
      exact absurd (heq ▸ hb) (ha.2 _)
    · intro heq
      exact absurd (heq ▸ hsa) hsb
  · rw [if_neg hsa] at ha
    by_cases hsb : segments b.1 = []
    · rw [if_pos hsb] at hb
      constructor
      · intro heq
        exact absurd (heq ▸ ha) (hb.2 _)
      · intro heq
        exact absurd (heq.trans hsb) hsa
    · rw [if_neg hsb] at hb
      constructor
      · intro heq
        exact h.tree.injective (heq ▸ ha) hb
      · intro heq
        exact Option.some.inj ((heq ▸ ha).symm.trans hb)

theorem Assigned.grows {d d' : Directory} (h : Grows d.tree d'.tree) {a : Name × Nat}
    (ha : Assigned d a) : Assigned d' a := by
  rw [Assigned] at ha ⊢
  split at ha
  · next hs => rw [if_pos hs]; exact h.unnamed ha
  · next hs => rw [if_neg hs]; exact h.idOf ha

variable {d : Directory} {calls : List Call}

/-- What a call returns is assigned from then on. -/
theorem assigned_lookups (h : d.Sound) (allowed : Guarded Directory.call Allowed d calls) :
    ∀ a ∈ lookups calls, Assigned (run Directory.call d calls) a := by
  refine allowed.of_mem (fun d c hd hc => hd.call hc.1 hc.2) ?_
    (fun d c a hd hc ha => ha.grows (call_grows hd hc.1 hc.2)) h
  intro d c a hd hc hlookup
  rw [Assigned]
  cases c with
  | found name id =>
      cases hlookup
      rw [if_neg hc.1.1]
      exact (names_iff hc.1.1).mp hc.1.2
  | fallback name id =>
      cases hlookup
      obtain ⟨hname, rfl⟩ := hc.1
      rw [if_pos hname, tree_fallback hname (hc.2 rfl)]
      exact ⟨Nat.lt_succ_self _, fun path hpath => Nat.lt_irrefl _ (hd.tree.issued hpath).2⟩
  | create | request | read | update | complete => cases hlookup

/-- A name with segments is used with the id of the segments. -/
theorem named_uses (h : d.Sound) (allowed : Guarded Directory.call Allowed d calls) :
    ∀ a ∈ uses calls, segments a.1 ≠ [] →
      (run Directory.call d calls).tree.idOf (segments a.1) = some a.2 := by
  refine allowed.of_mem (P := fun (d : Directory) (a : Name × Nat) =>
      segments a.1 ≠ [] → d.tree.idOf (segments a.1) = some a.2)
    (fun d c hd hc => hd.call hc.1 hc.2) ?_
    (fun d c a hd hc ha hne => (call_grows hd hc.1 hc.2).idOf (ha hne)) h
  intro d c a hd hc huse hne
  have hgrows := call_grows hd hc.1 hc.2
  cases c with
  | found name id =>
      cases huse
      exact (names_iff hne).mp hc.1.2
  | fallback name id =>
      cases huse
      exact absurd hc.1.1 hne
  | request | read | update =>
      cases huse
      exact hgrows.idOf ((names_iff hne).mp hc.1)
  | create | complete => cases huse

/-- Names without segments get new ids, and never the same one twice. -/
theorem fallback_ids : ∀ {calls : List Call} {d : Directory}, d.Sound →
    Guarded Directory.call Allowed d calls →
      (∀ a ∈ lookups calls, segments a.1 = [] → d.tree.next ≤ a.2) ∧
      (lookups calls).Pairwise fun a b => segments a.1 = [] → segments b.1 = [] → a.2 ≠ b.2
  | [], _, _, _ => ⟨nofun, .nil⟩
  | c :: calls, d, h, allowed => by
      have hgrows := call_grows h allowed.1.1 allowed.1.2
      obtain ⟨hlater, hpairs⟩ := fallback_ids (h.call allowed.1.1 allowed.1.2) allowed.2
      have hrest : ∀ a ∈ lookups calls, segments a.1 = [] → d.tree.next ≤ a.2 :=
        fun a hmem hs => hgrows.next_le.trans (hlater a hmem hs)
      cases c with
      | fallback name id =>
          obtain ⟨hname, rfl⟩ := allowed.1.1
          rw [tree_fallback hname (allowed.1.2 rfl)] at hlater
          refine ⟨fun a hmem hs => ?_, .cons (fun b hmem _ hs => ?_) hpairs⟩
          · rcases List.mem_cons.mp hmem with rfl | hmem
            · exact le_rfl
            · exact hrest a hmem hs
          · exact Nat.ne_of_lt (hlater b hmem hs)
      | found name id =>
          have hname := allowed.1.1.1
          refine ⟨fun a hmem hs => ?_, .cons (fun _ _ hs _ => absurd hs hname) hpairs⟩
          rcases List.mem_cons.mp hmem with rfl | hmem
          · exact absurd hs hname
          · exact hrest a hmem hs
      | create | request | read | update | complete => exact ⟨hrest, hpairs⟩

/-- Two calls of `ensureResource` return the same id exactly when their names have
the same segments, unless neither name has a segment.  Names with the same
segments stand for the same lock and the same record. -/
theorem lookups_same_id_iff (env : Environment) (input : List Command)
    (few : FewResources env input) :
    ((lookups ((init env).calls input)).Pairwise fun a b =>
        (a.2 = b.2 ↔ segments a.1 = segments b.1) ↔ ¬ (segments a.1 = [] ∧ segments b.1 = [])) ∧
      ∀ a ∈ uses ((init env).calls input), ∀ b ∈ uses ((init env).calls input),
        segments a.1 ≠ [] → segments b.1 ≠ [] →
          (a.2 = b.2 ↔ segments a.1 = segments b.1) := by
  have allowed := allowed_calls few
  have hinit := sound_init env
  have hsound := hinit.run allowed
  constructor
  · have hassigned := assigned_lookups hinit allowed
    refine (fallback_ids hinit allowed).2.imp_of_mem fun {a b} ha hb hdiffer => ?_
    by_cases hempty : segments a.1 = [] ∧ segments b.1 = []
    · have hids := hdiffer hempty.1 hempty.2
      simp [hempty, hids]
    · exact iff_of_true (assigned_iff hsound (hassigned a ha) (hassigned b hb) hempty) hempty
  · intro a ha b hb hsa hsb
    have hida := named_uses hinit allowed a ha hsa
    have hidb := named_uses hinit allowed b hb hsb
    refine assigned_iff hsound ?_ ?_ fun h => hsa h.1
    · rw [Assigned, if_neg hsa]
      exact hida
    · rw [Assigned, if_neg hsb]
      exact hidb

/-- Two transactions write under a key, and then under another spelling of it. -/
def spellings : List Command :=
  [⟨.begin, ['T'], [], 0⟩, ⟨.write, ['T'], ['a', '.', 'b'], 1⟩, ⟨.show, [], ['.', 'a'], 0⟩,
    ⟨.begin, ['U'], [], 0⟩, ⟨.write, ['U'], ['a', '.', '.', 'b', '.'], 2⟩]

theorem lookups_same_id_iff_spellings :
    (lookups ((init ⟨[], [], []⟩).calls spellings) =
        [(['a', '.', 'b'], 2), (['.', 'a'], 1), (['a', '.', '.', 'b', '.'], 2)]) ∧
      (lookups ((init ⟨[], [], []⟩).calls spellings)).Pairwise fun a b =>
        (a.2 = b.2 ↔ segments a.1 = segments b.1) ↔ ¬ (segments a.1 = [] ∧ segments b.1 = []) :=
  ⟨by decide, (lookups_same_id_iff ⟨[], [], []⟩ spellings (by decide)).1⟩

/-- Two transactions write under a key without segments. -/
def dots : List Command :=
  [⟨.begin, ['T'], [], 0⟩, ⟨.begin, ['U'], [], 0⟩, ⟨.write, ['T'], ['.'], 1⟩,
    ⟨.write, ['U'], ['.'], 2⟩]

/-- Both writes are granted, each on a resource of its own. -/
theorem lookups_same_id_fails : FewResources ⟨[], [], []⟩ dots ∧
    (after ⟨[], [], []⟩ dots).pending = [] ∧
    lookups ((init ⟨[], [], []⟩).calls dots) = [(['.'], 1), (['.'], 2)] ∧
    ¬ (lookups ((init ⟨[], [], []⟩).calls dots)).Pairwise fun a b =>
      a.2 = b.2 ↔ segments a.1 = segments b.1 := by
  decide

end Main

end TxnEngine
