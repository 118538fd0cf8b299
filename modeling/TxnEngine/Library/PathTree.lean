import Mathlib.Data.List.Infix
import Mathlib.Logic.Function.Basic

/-!
# Trees of paths

A path is a list of parts.  A tree gives ids to paths, the next unused number to
each new path, and records for each id the id of its parent.  It may also use up
a number without a path.

A tree only grows (`Grows`).  Growth keeps it sound, keeps the ids that paths
have and the parents that ids have, and gives no path an id that was passed over.
In a sound tree the parents of the id of a path are the ids of its shorter
prefixes, the longest first, and they end at the path of one part
(`Sound.chain`).
-/

namespace PathTree

variable {α : Type*}

@[ext]
structure Tree (α : Type*) where
  idOf : List α → Option ℕ
  parent : ℕ → Option ℕ
  /-- The next number to give out. -/
  next : ℕ

/-- The prefixes of a path that are not empty, the longest first. -/
def prefixes (path : List α) : List (List α) := path.inits.tail.reverse

@[simp] theorem prefixes_nil : prefixes ([] : List α) = [] := rfl

@[simp] theorem prefixes_concat (dir : List α) (a : α) :
    prefixes (dir ++ [a]) = (dir ++ [a]) :: prefixes dir := by
  have hinits : (dir ++ [a]).inits = dir.inits ++ [dir ++ [a]] := by
    rw [List.inits_append]
    rfl
  have hne : dir.inits ≠ [] := by cases dir <;> simp
  rw [prefixes, hinits, List.tail_append_of_ne_nil hne, List.reverse_append]
  rfl

theorem mem_prefixes {path p : List α} (h : p ∈ prefixes path) : p ≠ [] ∧ p <+: path := by
  induction path using List.reverseRecOn with
  | nil => simp at h
  | append_singleton dir a ih =>
      rw [prefixes_concat] at h
      rcases List.mem_cons.mp h with rfl | h
      · exact ⟨by simp, List.prefix_rfl⟩
      · exact ⟨(ih h).1, (ih h).2.trans (List.prefix_append dir [a])⟩

theorem mem_prefixes_iff {path p : List α} : p ∈ prefixes path ↔ p ≠ [] ∧ p <+: path := by
  refine ⟨mem_prefixes, ?_⟩
  rintro ⟨hne, hprefix⟩
  induction path using List.reverseRecOn with
  | nil => exact absurd (List.prefix_nil.mp hprefix) hne
  | append_singleton dir a ih =>
      rw [prefixes_concat]
      rcases List.prefix_concat_iff.mp hprefix with rfl | hdir
      · exact List.mem_cons_self
      · exact List.mem_cons_of_mem _ (ih hdir)

namespace Tree

/-- A new path below one that is there. -/
def add [DecidableEq α] (t : Tree α) (dir : List α) (a : α) : Tree α where
  idOf := Function.update t.idOf (dir ++ [a]) (some t.next)
  parent := Function.update t.parent t.next (t.idOf dir)
  next := t.next + 1

theorem idOf_add [DecidableEq α] (t : Tree α) (dir path : List α) (a : α) :
    (t.add dir a).idOf path = if path = dir ++ [a] then some t.next else t.idOf path :=
  Function.update_apply ..

theorem parent_add [DecidableEq α] (t : Tree α) (dir : List α) (a : α) (child : ℕ) :
    (t.add dir a).parent child = if child = t.next then t.idOf dir else t.parent child :=
  Function.update_apply ..

/-- A number without a path. -/
def skip (t : Tree α) : Tree α := { t with next := t.next + 1 }

structure Sound (t : Tree α) : Prop where
  positive : 0 < t.next
  issued : ∀ {path id}, t.idOf path = some id → 0 < id ∧ id < t.next
  injective : ∀ {path path' id}, t.idOf path = some id → t.idOf path' = some id → path = path'
  root : t.idOf [] = none
  parent_eq : ∀ {dir a id}, t.idOf (dir ++ [a]) = some id → t.parent id = t.idOf dir
  closed : ∀ {dir a id}, t.idOf (dir ++ [a]) = some id → dir ≠ [] → ∃ above, t.idOf dir = some above
  below : ∀ {child parent}, t.parent child = some parent → parent < child ∧ child < t.next

/-- The number was given out, but not to a path. -/
def Unnamed (t : Tree α) (id : ℕ) : Prop := id < t.next ∧ ∀ path, t.idOf path ≠ some id

end Tree

/-- How a tree changes. -/
inductive Grows [DecidableEq α] : Tree α → Tree α → Prop where
  | same (t : Tree α) : Grows t t
  | add {t : Tree α} {dir : List α} {a : α} (fresh : t.idOf (dir ++ [a]) = none)
      (above : dir = [] ∨ ∃ id, t.idOf dir = some id) : Grows t (t.add dir a)
  | skip (t : Tree α) : Grows t t.skip

section Growth

variable [DecidableEq α] {t t' : Tree α}

theorem Grows.next_le (h : Grows t t') : t.next ≤ t'.next := by
  cases h with
  | same => exact le_rfl
  | add | skip => exact Nat.le_succ _

/-- A path keeps its id. -/
theorem Grows.idOf (h : Grows t t') {path : List α} {id : ℕ} (hid : t.idOf path = some id) :
    t'.idOf path = some id := by
  cases h with
  | same | skip => exact hid
  | @add dir a fresh above =>
      have hne : path ≠ dir ++ [a] := by
        rintro rfl
        rw [hid] at fresh
        cases fresh
      rw [Tree.idOf_add, if_neg hne, hid]

/-- A path that has an id had it before or has the number just given out. -/
theorem Grows.idOf_inv (h : Grows t t') {path : List α} {id : ℕ} (hid : t'.idOf path = some id) :
    t.idOf path = some id ∨ id = t.next := by
  cases h with
  | same | skip => exact Or.inl hid
  | add fresh above =>
      rw [Tree.idOf_add] at hid
      split at hid
      · exact Or.inr (Option.some.inj hid).symm
      · exact Or.inl hid

/-- An id that was given out keeps its parent. -/
theorem Grows.parent (h : Grows t t') {child : ℕ} (hold : child < t.next) :
    t'.parent child = t.parent child := by
  cases h with
  | same | skip => rfl
  | add => rw [Tree.parent_add, if_neg (Nat.ne_of_lt hold)]

/-- No path gets an id that was passed over. -/
theorem Grows.unnamed (h : Grows t t') {id : ℕ} (hid : t.Unnamed id) : t'.Unnamed id := by
  refine ⟨hid.1.trans_le h.next_le, fun path hpath => ?_⟩
  rcases h.idOf_inv hpath with hold | hnew
  · exact hid.2 path hold
  · exact absurd hnew (Nat.ne_of_lt hid.1)

theorem Tree.Sound.add (h : t.Sound) {dir : List α} {a : α} (fresh : t.idOf (dir ++ [a]) = none)
    (above : dir = [] ∨ ∃ id, t.idOf dir = some id) : (t.add dir a).Sound := by
  have hgrows : Grows t (t.add dir a) := .add fresh above
  have hnew : (t.add dir a).idOf (dir ++ [a]) = some t.next := by rw [t.idOf_add, if_pos rfl]
  have hold : ∀ {path id}, path ≠ dir ++ [a] → (t.add dir a).idOf path = some id →
      t.idOf path = some id := by
    intro path id hne hid
    rwa [t.idOf_add, if_neg hne] at hid
  constructor
  case positive => exact Nat.succ_pos _
  case issued =>
    intro path id hid
    rcases hgrows.idOf_inv hid with hid | rfl
    · exact ⟨(h.issued hid).1, (h.issued hid).2.trans (Nat.lt_succ_self _)⟩
    · exact ⟨h.positive, Nat.lt_succ_self _⟩
  case injective =>
    -- the new number belongs to the new path only
    have honly : ∀ {path}, (t.add dir a).idOf path = some t.next → path = dir ++ [a] := by
      intro path hid
      by_contra hne
      exact Nat.lt_irrefl _ (h.issued (hold hne hid)).2
    intro path path' id hid hid'
    by_cases hpath : path = dir ++ [a]
    · rw [hpath, hnew] at hid
      cases hid
      exact hpath.trans (honly hid').symm
    · by_cases hpath' : path' = dir ++ [a]
      · rw [hpath', hnew] at hid'
        cases hid'
        exact absurd (honly hid) hpath
      · exact h.injective (hold hpath hid) (hold hpath' hid')
  case root =>
    rw [t.idOf_add, if_neg (by simp), h.root]
  case parent_eq =>
    -- a path above is shorter, so it is not the new one
    have hdir : ∀ {dir' : List α} {b id}, t.idOf (dir' ++ [b]) = some id →
        (t.add dir a).idOf dir' = t.idOf dir' := by
      intro dir' b id hid
      rw [t.idOf_add, if_neg]
      rintro rfl
      obtain ⟨above', habove⟩ := h.closed hid (by simp)
      rw [fresh] at habove
      cases habove
    intro dir' b id hid
    by_cases hpath : dir' ++ [b] = dir ++ [a]
    · rw [hpath, hnew] at hid
      cases hid
      obtain ⟨rfl, ⟨⟩⟩ := List.append_inj' hpath rfl
      rw [t.parent_add, if_pos rfl, t.idOf_add, if_neg (by simp)]
    · have hid' := hold hpath hid
      rw [hgrows.parent (h.issued hid').2, h.parent_eq hid', hdir hid']
  case closed =>
    intro dir' b id hid hne
    by_cases hpath : dir' ++ [b] = dir ++ [a]
    · have hdir' : dir' = dir := (List.append_inj' hpath rfl).1
      obtain ⟨id', hid'⟩ := above.resolve_left (hdir' ▸ hne)
      exact ⟨id', hgrows.idOf (hdir' ▸ hid')⟩
    · obtain ⟨id', hid'⟩ := h.closed (hold hpath hid) hne
      exact ⟨id', hgrows.idOf hid'⟩
  case below =>
    intro child parent hparent
    rw [t.parent_add] at hparent
    split at hparent
    · next hchild =>
        rw [hchild]
        exact ⟨(h.issued hparent).2, Nat.lt_succ_self _⟩
    · exact ⟨(h.below hparent).1, (h.below hparent).2.trans (Nat.lt_succ_self _)⟩

/-- A tree that grows stays sound. -/
theorem Grows.sound (h : Grows t t') (hsound : t.Sound) : t'.Sound := by
  cases h with
  | same => exact hsound
  | add fresh above => exact hsound.add fresh above
  | skip =>
      exact ⟨Nat.succ_pos _,
        fun hid => ⟨(hsound.issued hid).1, (hsound.issued hid).2.trans (Nat.lt_succ_self _)⟩,
        hsound.injective, hsound.root, hsound.parent_eq, hsound.closed,
        fun hp => ⟨(hsound.below hp).1, (hsound.below hp).2.trans (Nat.lt_succ_self _)⟩⟩

end Growth

/-- The parents of the id of a path, followed to their end. -/
theorem Tree.Sound.chain {t : Tree α} (h : t.Sound) {path : List α} :
    ∀ {id : ℕ}, t.idOf path = some id →
      ∃ ids, (id :: ids).map some = (prefixes path).map t.idOf ∧
        List.IsChain (fun child parent => t.parent child = some parent) (id :: ids) ∧
        ∀ top ∈ (id :: ids).getLast?, t.parent top = none := by
  induction path using List.reverseRecOn with
  | nil =>
      intro id hid
      rw [h.root] at hid
      cases hid
  | append_singleton dir a ih =>
      intro id hid
      have hparent := h.parent_eq hid
      by_cases hdir : dir = []
      · subst hdir
        have htop : t.parent id = none := hparent.trans h.root
        refine ⟨[], ?_, .singleton _, fun top hmem => Option.some.inj hmem ▸ htop⟩
        rw [prefixes_concat, List.map_cons, List.map_cons, hid]
        rfl
      · obtain ⟨above, habove⟩ := h.closed hid hdir
        obtain ⟨ids, hids, hchain, htop⟩ := ih habove
        refine ⟨above :: ids, ?_, .cons_cons (hparent.trans habove) hchain, htop⟩
        rw [prefixes_concat, List.map_cons, List.map_cons (f := t.idOf), hid, hids]

/-- Every part of a path that is there is there. -/
theorem Tree.Sound.of_prefix {t : Tree α} (h : t.Sound) {path : List α} :
    ∀ {id : ℕ} {p : List α}, t.idOf path = some id → p <+: path → p ≠ [] →
      ∃ id', t.idOf p = some id' := by
  induction path using List.reverseRecOn with
  | nil => exact fun _ hp hne => absurd (List.prefix_nil.mp hp) hne
  | append_singleton dir a ih =>
      intro id p hid hp hne
      rcases List.prefix_concat_iff.mp hp with rfl | hp
      · exact ⟨id, hid⟩
      · have hdir : dir ≠ [] := by
          rintro rfl
          exact hne (List.prefix_nil.mp hp)
        obtain ⟨above, habove⟩ := h.closed hid hdir
        exact ih habove hp hne

end PathTree
