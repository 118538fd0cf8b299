import TxnEngine.Main.Keys
import TxnEngine.Main.Ledger
import TxnEngine.Main.Serial

/-!
# What a key is worth

The value of a key is the value of its resource, and that of a key without a
resource is the value that its record would be made with.  Looking a name up can
make resources, but it changes the value of no key (`Filed.lookup`), and a write
changes the value of the keys with the segments of its own (`keyValue_update`).
-/

namespace TxnEngine

open Std Runs PathTree

namespace Directory

/-- The value of the resource of a key. -/
def keyValue (d : Directory) (key : List Name) : Int32 :=
  match d.tree.idOf key with
  | none => initialValue key
  | some id => (d.resources.dataStore.valueAt id).getD 0

/-- The resources are sound, and there is no record with a number that is still to be
given out. -/
structure Filed (d : Directory) : Prop where
  sound : d.Sound
  records : ∀ id, (d.resources.dataStore.valueAt id).isSome = true →
    id < d.resources.nextResourceId

/-- A call of `ensureResource`, with the initial value that it uses. -/
def Searches : Call → Prop
  | .create path _ value => value = if path = ['A'] then 10 else 0
  | .found .. | .fallback .. => True
  | _ => False

variable {d : Directory}

/-- A key has the value of its record. -/
theorem keyValue_congr {d' : Directory} {key : List Name}
    (hid : d'.tree.idOf key = d.tree.idOf key)
    (hstore : d'.resources.dataStore = d.resources.dataStore) :
    d'.keyValue key = d.keyValue key := by
  rw [keyValue, keyValue, hid, hstore]

/-- What a lookup leaves: keys keep their ids and their values. -/
structure Searched (d d' : Directory) : Prop where
  filed : d'.Filed
  ids : ∀ (key : List Name) (id : Nat), d.tree.idOf key = some id → d'.tree.idOf key = some id
  values : d'.keyValue = d.keyValue

theorem Searched.refl (h : d.Filed) : Searched d d := ⟨h, fun _ _ hid => hid, rfl⟩

theorem Searched.trans {d' d'' : Directory} (h : Searched d d') (h' : Searched d' d'') :
    Searched d d'' :=
  ⟨h'.filed, fun key id hid => h'.ids key id (h.ids key id hid), h'.values.trans h.values⟩

theorem initialValue_of_path {path : List Name} (h : IsKey path) :
    initialValue path = if joined path = ['A'] then 10 else 0 := by
  have hkey : IsKey [['A']] := by decide
  have hjoined : joined path = ['A'] ↔ path = [['A']] :=
    ⟨fun heq => joined_injective h hkey heq, fun heq => heq ▸ rfl⟩
  rw [initialValue]
  simp only [hjoined]

/-- A record that is new has its initial value, and the others keep theirs. -/
theorem valueAt_create (h : d.Filed) (path : Name) (value : Int32) (id : Nat) :
    (d.resources.create path value).dataStore.valueAt id =
      if d.resources.nextResourceId = id then some value
      else d.resources.dataStore.valueAt id := by
  have hfree : d.resources.dataStore.valueAt d.resources.nextResourceId = none := by
    rw [← Option.not_isSome_iff_eq_none]
    exact fun hsome => Nat.lt_irrefl _ (h.records _ hsome)
  show (d.resources.dataStore.insertInt d.resources.nextResourceId value).valueAt id = _
  rw [IntStore.valueAt_insertInt]
  split
  · next heq => rw [← heq, hfree, Option.getD_none]
  · rfl

theorem records_create (h : d.Filed) (path : Name) (value : Int32)
    (room : d.resources.nextResourceId + 1 < 2 ^ 32) (id : Nat)
    (hsome : ((d.resources.create path value).dataStore.valueAt id).isSome = true) :
    id < (d.resources.create path value).nextResourceId := by
  have hnext : (d.resources.create path value).nextResourceId = d.resources.nextResourceId + 1 :=
    succ32_of_lt room
  rw [hnext]
  rw [valueAt_create h] at hsome
  split at hsome
  · next heq => omega
  · exact (h.records id hsome).trans (Nat.lt_succ_self _)

/-- A call of `ensureResource` changes no key. -/
theorem searched_call {c : Call} (h : d.Filed) (allowed : d.Allowed c) (hc : Searches c) :
    Searched d (d.call c) := by
  have hsound := h.sound.call allowed.1 allowed.2
  have hids : ∀ (key : List Name) (id : Nat), d.tree.idOf key = some id →
      (d.call c).tree.idOf key = some id := fun _ _ hid =>
    (call_grows h.sound allowed.1 allowed.2).idOf hid
  obtain ⟨meant, room⟩ := allowed
  cases c with
  | create path parent value =>
      obtain ⟨dir, segment, hkey, rfl, fresh, hparent⟩ := meant
      refine ⟨⟨hsound, records_create h _ value (room rfl)⟩, hids, ?_⟩
      funext key
      rw [keyValue, idOf_create hkey, keyValue]
      by_cases hnew : key = dir ++ [segment]
      · rw [if_pos hnew, hnew, fresh]
        show ((d.resources.create _ value).dataStore.valueAt d.resources.nextResourceId).getD 0 = _
        rw [valueAt_create h, if_pos rfl, Option.getD_some, initialValue_of_path hkey]
        exact hc
      · rw [if_neg hnew]
        cases hid : d.tree.idOf key with
        | none => rfl
        | some id =>
            have hlt : id < d.resources.nextResourceId := (h.sound.tree.issued hid).2
            show ((d.resources.create _ value).dataStore.valueAt id).getD 0 = _
            rw [valueAt_create h, if_neg (Nat.ne_of_gt hlt)]
  | fallback name id =>
      refine ⟨⟨hsound, records_create h name 0 (room rfl)⟩, hids, ?_⟩
      funext key
      rw [keyValue, tree_fallback meant.1 (room rfl), keyValue]
      show (match d.tree.idOf key with
        | none => initialValue key
        | some id => ((d.resources.create name 0).dataStore.valueAt id).getD 0) = _
      cases hid : d.tree.idOf key with
      | none => rfl
      | some id =>
          have hlt : id < d.resources.nextResourceId := (h.sound.tree.issued hid).2
          dsimp only
          rw [valueAt_create h, if_neg (Nat.ne_of_gt hlt)]
  | found => exact .refl h
  | request | read | update | complete => exact hc.elim

theorem searched_run : ∀ {calls : List Call} {d : Directory}, d.Filed →
    Guarded call Allowed d calls → (∀ c ∈ calls, Searches c) → Searched d (run call d calls)
  | [], _, h, _, _ => .refl h
  | c :: calls, d, h, allowed, hcalls => by
      rw [List.forall_mem_cons] at hcalls
      have hfirst := searched_call h allowed.1 hcalls.1
      exact hfirst.trans (searched_run hfirst.filed allowed.2 hcalls.2)

/-- Calls that make no resource keep everything filed. -/
theorem Filed.run : ∀ {calls : List Call} {d : Directory}, d.Filed →
    Guarded call Allowed d calls → (∀ c ∈ calls, c.creates = false) →
      (Runs.run call d calls).Filed
  | [], _, h, _, _ => h
  | c :: calls, d, h, allowed, hcalls => by
      rw [List.forall_mem_cons] at hcalls
      have hfirst : (d.call c).Filed := by
        refine ⟨h.sound.call allowed.1.1 allowed.1.2, fun id hsome => ?_⟩
        cases c with
        | update name r value => exact h.records id (Resources.isSome_updateInt ▸ hsome)
        | create | fallback => cases hcalls.1
        | found | request | read | complete => exact h.records id hsome
      exact hfirst.run allowed.2 hcalls.2

/-- The next number after calls that find room. -/
theorem next_run : ∀ {calls : List Call} {d : Directory}, Guarded call HasRoom d calls →
    (run call d calls).resources.nextResourceId =
      d.resources.nextResourceId + calls.countP Call.creates
  | [], _, _ => rfl
  | c :: calls, d, room => by
      have hfirst : (d.call c).resources.nextResourceId =
          d.resources.nextResourceId + if c.creates then 1 else 0 := by
        rcases d.resourceIds_call c with ⟨_, hnext, hcreates⟩ | ⟨_, _, hcreates, _, hnext⟩
        · rw [hnext, if_neg (by simp [hcreates]), Nat.add_zero]
        · rw [hnext, if_pos hcreates, succ32_of_lt (room.1 hcreates)]
      rw [run_cons, next_run room.2, hfirst, List.countP_cons]
      omega

end Directory

/-- The event of a new resource. -/
def Event.creates : Event → Bool
  | .created .. => true
  | _ => false

namespace Main

open Directory

/-! ## Lookups -/

theorem searches_segmentCalls : ∀ (segments : List Name) (path : Name) (lastId : Nat) (m : Main),
    ∀ c ∈ segmentCalls segments path lastId m, Searches c
  | [], _, _, _ => List.forall_mem_nil _
  | segment :: rest, path, lastId, m => by
      rw [segmentCalls]
      dsimp only
      split
      · exact searches_segmentCalls rest _ _ m
      · exact List.forall_mem_cons.mpr ⟨rfl, searches_segmentCalls rest _ _ _⟩

theorem searches_resourceCalls (m : Main) (name : Name) :
    ∀ c ∈ m.resourceCalls name, Searches c := by
  rw [resourceCalls]
  refine List.forall_mem_append.mpr ⟨searches_segmentCalls _ _ _ m, ?_⟩
  rw [List.forall_mem_singleton]
  split
  · trivial
  · trivial

variable {m m' : Main}

/-- The number of resources made so far. -/
def resourcesMade (m : Main) : Nat := m.trace.countP Event.creates

theorem resourcesMade_createResource (m : Main) (path : Name) (parent : Nat) (value : Int32) :
    (m.createResource path parent value).2.resourcesMade = m.resourcesMade + 1 := by
  show (m.trace ++ [Event.created m.resources.nextResourceId value]).countP Event.creates = _
  rw [List.countP_append]
  rfl

theorem resourcesMade_ensureSegments : ∀ (segments : List Name) (path : Name) (lastId : Nat)
    (m : Main), (ensureSegments segments path lastId m).2.resourcesMade =
      m.resourcesMade + (segmentCalls segments path lastId m).countP Call.creates
  | [], _, _, _ => rfl
  | segment :: rest, path, lastId, m => by
      rw [ensureSegments, segmentCalls]
      dsimp only
      generalize (if path.isEmpty then segment else path ++ '.' :: segment) = path'
      cases m.resources.resourceIds[path']? with
      | some id => exact resourcesMade_ensureSegments rest path' id m
      | none =>
          dsimp only
          rw [List.countP_cons_of_pos rfl, resourcesMade_ensureSegments rest,
            resourcesMade_createResource]
          omega

/-- The history counts the resources that a lookup makes. -/
theorem resourcesMade_ensureResource (m : Main) (name : Name) :
    (m.ensureResource name).2.resourcesMade =
      m.resourcesMade + (m.resourceCalls name).countP Call.creates := by
  have hsegments := resourcesMade_ensureSegments (segments name) [] 0 m
  rw [ensureResource, resourceCalls, List.countP_append]
  generalize ensureSegments (segments name) [] 0 m = found at hsegments ⊢
  obtain ⟨lastId, m'⟩ := found
  dsimp only at hsegments ⊢
  split
  · rw [resourcesMade_createResource, hsegments]
    rfl
  · rw [hsegments]
    rfl

/-- The resources are filed, and the next number is one more than the number of
resources made. -/
structure Filed (m : Main) : Prop where
  directory : m.directory.Filed
  next : m.resources.nextResourceId = m.resourcesMade + 1

theorem filed_init (env : Environment) : Filed (init env) where
  directory := by
    refine ⟨sound_init env, fun id hsome => ?_⟩
    have hnone : (init env).directory.resources.dataStore.valueAt id = none :=
      IntStore.valueAt_empty id
    rw [hnone] at hsome
    cases hsome
  next := rfl

/-- The value of a key. -/
def keyValue (m : Main) (key : List Name) : Int32 := m.directory.keyValue key

/-- The id of the resource of a key. -/
def idOf (m : Main) (key : List Name) : Option Nat := m.directory.tree.idOf key

/-- What a lookup of a name does: it changes no key, and it finds the resource of the
key, or a new one with value 0 if the key has no segments. -/
structure Found (m : Main) (name : Name) : Prop where
  filed : Filed (m.ensureResource name).2
  ids : ∀ (key : List Name) (id : Nat), m.idOf key = some id →
    (m.ensureResource name).2.idOf key = some id
  values : (m.ensureResource name).2.keyValue = m.keyValue
  finds : segments name ≠ [] →
    (m.ensureResource name).2.idOf (segments name) = some (m.ensureResource name).1
  value : (m.ensureResource name).2.valueOf (m.ensureResource name).1 =
    m.keyValue (segments name)
  unnamed : segments name = [] → ∀ key,
    (m.ensureResource name).2.idOf key ≠ some (m.ensureResource name).1
  names : (m.ensureResource name).2.directory.Names name (m.ensureResource name).1

theorem Filed.keyValue_nil {m : Main} (h : Filed m) : m.keyValue [] = 0 := by
  rw [keyValue, Directory.keyValue, h.directory.sound.tree.root]
  rfl

theorem ensureResource_fallback (m : Main) {name : Name} (hname : segments name = []) :
    m.ensureResource name = m.createResource name 0 0 := by
  rw [ensureResource, hname]
  rfl

/-- The new resource of a name without segments has value 0. -/
theorem Filed.value_fallback {m : Main} (h : Filed m) {name : Name} (hname : segments name = []) :
    (m.ensureResource name).2.valueOf (m.ensureResource name).1 = 0 := by
  rw [m.ensureResource_fallback hname]
  show ((m.directory.resources.create name 0).dataStore.valueAt
    m.directory.resources.nextResourceId).getD 0 = 0
  rw [valueAt_create h.directory, if_pos rfl, Option.getD_some]

theorem Filed.lookup {m : Main} (h : Filed m) (name : Name)
    (few : (m.ensureResource name).2.resourcesMade + 1 < 2 ^ 32) : Found m name := by
  have hmade := m.resourcesMade_ensureResource name
  have hnext := h.next
  have hroom : Guarded call HasRoom m.directory (m.resourceCalls name) := by
    refine guarded_hasRoom ?_
    show m.resources.nextResourceId + _ < 2 ^ 32
    omega
  obtain ⟨hlawful, hnames⟩ := m.lawful_ensureResource name
  have hsearched := searched_run h.directory (hlawful h.directory.sound hroom)
    (m.searches_resourceCalls name)
  have hrun := m.directory_ensureResource name
  rw [← hrun] at hsearched
  have hfinds : segments name ≠ [] →
      (m.ensureResource name).2.idOf (segments name) = some (m.ensureResource name).1 :=
    fun hne => (names_iff hne).mp (hnames h.directory.sound hroom)
  refine ⟨⟨hsearched.filed, ?_⟩, hsearched.ids, hsearched.values, hfinds, ?_, ?_,
    hnames h.directory.sound hroom⟩
  · have hcount := next_run hroom
    rw [← hrun] at hcount
    rw [hmade, ← Nat.add_right_comm, ← hnext]
    exact hcount
  · by_cases hname : segments name = []
    · rw [h.value_fallback hname, hname, h.keyValue_nil]
    · have hid : (m.ensureResource name).2.directory.tree.idOf (segments name) = _ := hfinds hname
      have hvalue := congrFun hsearched.values (segments name)
      rw [Directory.keyValue, hid] at hvalue
      exact hvalue
  · intro hname key hid
    have hroom : m.resources.nextResourceId + 1 < 2 ^ 32 := by
      rw [m.ensureResource_fallback hname, resourcesMade_createResource] at few
      omega
    have htree := tree_fallback (d := m.directory) hname hroom 0
    rw [m.ensureResource_fallback hname] at hid
    have hold : m.directory.tree.idOf key = some m.resources.nextResourceId :=
      (congrFun (congrArg PathTree.Tree.idOf htree) key).symm.trans hid
    exact Nat.lt_irrefl _ (h.directory.sound.tree.issued hold).2

/-! ## Calls that make no resource -/

theorem Filed.still (h : Filed m) {calls : List Call}
    (allowed : Guarded call Allowed m.directory calls) (hcalls : ∀ c ∈ calls, c.creates = false)
    (hdirectory : m'.directory = run call m.directory calls)
    (hmade : m'.resourcesMade = m.resourcesMade) : Filed m' where
  directory := hdirectory ▸ h.directory.run allowed hcalls
  next := by
    have hnext := next_run (allowed.mono fun _ _ hc => hc.2)
    have hnone : calls.countP Call.creates = 0 :=
      List.countP_eq_zero.mpr fun c hc => by rw [hcalls c hc]; exact Bool.false_ne_true
    rw [← hdirectory, hnone, Nat.add_zero] at hnext
    rw [hmade, ← h.next]
    exact hnext

theorem Filed.one (h : Filed m) {c : Call} (meant : m.directory.Meant c)
    (hc : c.creates = false) (hdirectory : m'.directory = m.directory.call c)
    (hmade : m'.resourcesMade = m.resourcesMade) : Filed m' := by
  have hroom : m.directory.HasRoom c := fun hcreates => by rw [hc] at hcreates; cases hcreates
  have allowed : Guarded call Allowed m.directory [c] := ⟨⟨meant, hroom⟩, trivial⟩
  exact h.still allowed (List.forall_mem_singleton.mpr hc) hdirectory hmade

theorem Filed.same (h : Filed m) (hdirectory : m'.directory = m.directory)
    (hmade : m'.resourcesMade = m.resourcesMade) : Filed m' := by
  have allowed : Guarded call Allowed m.directory [] := trivial
  exact h.still allowed (List.forall_mem_nil _) hdirectory hmade

theorem Filed.requested (h : Filed m) {name : Name} {id : Nat} (hname : m.directory.Names name id)
    (txnId : Nat) (mode : LockType) : Filed (m.requested txnId id mode) :=
  h.one (c := .request name txnId id mode) hname rfl rfl rfl

/-- Events that make no resource do not count. -/
theorem resourcesMade_append {events : List Event} (htrace : m'.trace = m.trace ++ events)
    (hnone : ∀ event ∈ events, event.creates = false) : m'.resourcesMade = m.resourcesMade := by
  have hzero : events.countP Event.creates = 0 :=
    List.countP_eq_zero.mpr fun event hmem => by rw [hnone event hmem]; exact Bool.false_ne_true
  rw [resourcesMade, htrace, List.countP_append, hzero, Nat.add_zero, resourcesMade]

theorem resourcesMade_perform (m : Main) (access : Access) (c : Issued) (txnId id : Nat) :
    (m.perform access c txnId id).resourcesMade = m.resourcesMade :=
  resourcesMade_append (m.trace_perform access c txnId id) (List.forall_mem_singleton.mpr rfl)

theorem Filed.perform (h : Filed m) {c : Issued} {id : Nat}
    (hname : m.directory.Names c.command.resourceName id) (access : Access) (txnId : Nat) :
    Filed (m.perform access c txnId id) := by
  have hmade := m.resourcesMade_perform access c txnId id
  cases access with
  | read => exact h.one (c := .read c.command.resourceName id) hname rfl rfl hmade
  | write =>
      exact h.one (c := .update c.command.resourceName id c.command.value) hname rfl rfl hmade

/-! ## Writes -/

/-- A write to the resource of a name changes the key of the name and no other. -/
theorem keyValue_update {d : Directory} (h : d.Sound) {name : Name} {id : Nat} (value : Int32)
    (hid : segments name ≠ [] → d.tree.idOf (segments name) = some id)
    (hname : segments name = [] → ∀ key, d.tree.idOf key ≠ some id) (key : List Name) :
    Directory.keyValue ⟨d.resources.updateRecord id value, d.lockMgr⟩ key =
      if segments name = key ∧ key ≠ [] then value else d.keyValue key := by
  show (match d.tree.idOf key with
    | none => initialValue key
    | some id' => ((d.resources.dataStore.updateInt id value).valueAt id').getD 0) = _
  rw [Directory.keyValue]
  cases hkey : d.tree.idOf key with
  | none =>
      rw [if_neg]
      rintro ⟨rfl, hne⟩
      rw [hid hne] at hkey
      cases hkey
  | some id' =>
      dsimp only
      rw [IntStore.valueAt_updateInt]
      by_cases heq : id = id'
      · have hne : segments name ≠ [] := fun hnil => hname hnil key (heq ▸ hkey)
        have hsame : segments name = key := h.tree.injective (hid hne) (heq ▸ hkey)
        have hpath := isKey_of_idOf hkey
        rw [idOf_tree hpath.1 hpath.2] at hkey
        have hstored := d.resources.stored _ _ hkey
        rw [if_pos heq, if_pos ⟨hsame, hsame ▸ hne⟩]
        cases hvalue : d.resources.dataStore.valueAt id' with
        | none =>
            rw [hvalue] at hstored
            cases hstored
        | some old => rfl
      · rw [if_neg heq, if_neg]
        rintro ⟨rfl, hne⟩
        rw [hid hne] at hkey
        exact heq (Option.some.inj hkey)

end Main

end TxnEngine
