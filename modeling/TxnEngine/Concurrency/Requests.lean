import TxnEngine.Concurrency.Ancestors
import TxnEngine.Concurrency.LockSteps

/-!
# What the answer of a request means

`requestLock` walks up the parent map and then asks for one resource after the
other, the farthest ancestor first and the resource itself last, until it is
refused.  The walk ends on every parent map and visits every resource of the
parent chain once.  A request on one resource leaves every other resource alone,
so what a granted request left is still there at the end of the call
(`requestLock_answer`).
-/

namespace TxnEngine

open Std

/-! ## The walk up the parent map -/

/-- The loop of `ensureAncestorIntentionLocks` that collects the ancestors, run to
its end. -/
inductive ParentWalk (parents : ExtTreeMap Nat Nat) : Nat → List Nat → List Nat → Prop where
  | root {r : Nat} {seen : List Nat} (orphan : parents[r]? = none) :
      ParentWalk parents r seen []
  | cycle {r parent : Nat} {seen : List Nat} (next : parents[r]? = some parent)
      (old : parent ∈ seen) : ParentWalk parents r seen []
  | up {r parent : Nat} {seen ancestors : List Nat} (next : parents[r]? = some parent)
      (new : parent ∉ seen) (rest : ParentWalk parents parent (parent :: seen) ancestors) :
      ParentWalk parents r seen (parent :: ancestors)

variable {parents : ExtTreeMap Nat Nat}

/-- One resource is the parent of another. -/
def IsParent (parents : ExtTreeMap Nat Nat) (child parent : Nat) : Prop :=
  parents[child]? = some parent

/-- The walk has one end. -/
theorem ParentWalk.unique {r : Nat} {seen ancestors ancestors' : List Nat}
    (walk : ParentWalk parents r seen ancestors) (walk' : ParentWalk parents r seen ancestors') :
    ancestors = ancestors' := by
  induction walk generalizing ancestors' with
  | root orphan => cases walk' <;> simp_all
  | cycle next old => cases walk' <;> simp_all
  | up next new rest ih =>
      cases walk' with
      | root orphan => simp_all
      | cycle next' old => simp_all
      | up next' new' rest' =>
          rw [next] at next'
          cases next'
          rw [ih rest']

/-- Where parents are smaller than their children, the walk follows them to the
end. -/
theorem parentWalk_of_chain
    (hbelow : ∀ child parent, IsParent parents child parent → parent < child) {ids : List Nat} :
    ∀ {r : Nat} {seen : List Nat},
      List.IsChain (IsParent parents) (r :: ids) →
      (∀ top ∈ (r :: ids).getLast?, parents[top]? = none) → (∀ s ∈ seen, r ≤ s) →
      ParentWalk parents r seen ids := by
  induction ids with
  | nil => exact fun _ htop _ => .root (htop _ rfl)
  | cons parent ids ih =>
      intro r seen hchain htop hseen
      obtain ⟨hparent, hrest⟩ := List.isChain_cons_cons.mp hchain
      have hlt := hbelow r parent hparent
      refine .up hparent (fun hmem => ?_) (ih hrest htop fun s hmem => ?_)
      · exact Nat.not_le_of_lt hlt (hseen parent hmem)
      · rcases List.mem_cons.mp hmem with rfl | hmem
        · exact le_rfl
        · exact hlt.le.trans (hseen s hmem)

/-- The walk visits a resource once. -/
theorem ParentWalk.nodup {r : Nat} {seen ancestors : List Nat}
    (walk : ParentWalk parents r seen ancestors) :
    ancestors.Nodup ∧ ∀ a ∈ ancestors, a ∉ seen := by
  induction walk with
  | root | cycle => simp
  | up next new rest ih =>
      obtain ⟨hnodup, hfresh⟩ := ih
      refine ⟨List.nodup_cons.mpr ⟨fun hmem => hfresh _ hmem List.mem_cons_self, hnodup⟩, ?_⟩
      intro a ha
      rcases List.mem_cons.mp ha with rfl | ha
      · exact new
      · exact fun hseen => hfresh a ha (List.mem_cons_of_mem _ hseen)

/-- What the walk visits is above its start. -/
theorem ParentWalk.above {r : Nat} {seen ancestors : List Nat}
    (walk : ParentWalk parents r seen ancestors) :
    ∀ a ∈ ancestors, Relation.TransGen (IsParent parents) r a := by
  induction walk with
  | root | cycle => simp
  | up next new rest ih =>
      intro a ha
      rcases List.mem_cons.mp ha with rfl | ha
      · exact .single next
      · exact .head next (ih a ha)

/-- The parents of what is visited or seen are visited or seen, once those of the
resources seen before the start are. -/
theorem ParentWalk.closed {r : Nat} {seen ancestors : List Nat}
    (walk : ParentWalk parents r seen ancestors)
    (hseen : ∀ s ∈ seen, s ≠ r → ∀ p, IsParent parents s p → p ∈ seen) :
    ∀ s, s = r ∨ s ∈ ancestors ∨ s ∈ seen → ∀ p, IsParent parents s p →
      p ∈ ancestors ∨ p ∈ seen := by
  induction walk with
  | @root r seen orphan =>
      intro s hs p hp
      by_cases hr : s = r
      · rw [hr, IsParent, orphan] at hp
        cases hp
      · exact Or.inr (hseen s (by simpa [hr] using hs) hr p hp)
  | @cycle r parent seen next old =>
      intro s hs p hp
      by_cases hr : s = r
      · rw [hr, IsParent, next] at hp
        exact Or.inr (Option.some.inj hp ▸ old)
      · exact Or.inr (hseen s (by simpa [hr] using hs) hr p hp)
  | @up r parent seen ancestors next new rest ih =>
      have hseen' : ∀ s ∈ parent :: seen, s ≠ parent → ∀ p, IsParent parents s p →
          p ∈ parent :: seen := by
        intro s hs hne p hp
        have hs : s ∈ seen := (List.mem_cons.mp hs).resolve_left hne
        by_cases hr : s = r
        · rw [hr, IsParent, next] at hp
          exact Option.some.inj hp ▸ List.mem_cons_self
        · exact List.mem_cons_of_mem _ (hseen s hs hr p hp)
      intro s hs p hp
      have hcase : p ∈ ancestors ∨ p ∈ parent :: seen := by
        by_cases hr : s = r
        · rw [hr, IsParent, next] at hp
          exact Or.inr (Option.some.inj hp ▸ List.mem_cons_self)
        · refine ih hseen' s ?_ p hp
          simp only [List.mem_cons] at hs ⊢
          tauto
      simp only [List.mem_cons] at hcase ⊢
      tauto

/-- A walk that comes back to a resource whose parent it has seen ends there. -/
theorem ParentWalk.ends {x r parent : Nat} {seen ancestors : List Nat}
    (walk : ParentWalk parents x seen ancestors) (next : IsParent parents r parent)
    (hparent : parent ∈ seen) (hmem : r ∈ ancestors) : ancestors.getLast? = some r := by
  induction walk with
  | root | cycle => simp at hmem
  | @up x p seen ancestors hnext new rest ih =>
      rcases List.mem_cons.mp hmem with rfl | hmem
      · -- the parent of `r` was seen, so nothing follows
        cases rest with
        | root orphan =>
            rw [IsParent, orphan] at next
            cases next
        | cycle => rfl
        | up next' new' _ =>
            rw [IsParent, next'] at next
            exact absurd (List.mem_cons_of_mem _ (Option.some.inj next ▸ hparent)) new'
      · rw [List.getLast?_cons, ih (List.mem_cons_of_mem _ hparent) hmem, Option.getD_some]

namespace LockManager

variable (lm : LockManager)

/-- The walk of the model is the loop run to its end. -/
theorem parentWalk_ancestorsFrom : ∀ {fuel : Nat} (r : Nat) {seen : List Nat}, seen.Nodup →
    (∀ p ∈ seen, ∃ c : Nat, parents[c]? = some p) → parents.size < fuel + seen.length →
    ParentWalk parents r seen (ancestorsFrom parents fuel r seen)
  | 0, r, seen, hnodup, hsub, hfuel => by
      have hle := length_le_size_of_parents hnodup hsub
      omega
  | fuel + 1, r, seen, hnodup, hsub, hfuel => by
      rw [ancestorsFrom]
      cases hp : parents[r]? with
      | none => exact .root hp
      | some parent =>
          dsimp only
          split
          · next hold => exact .cycle hp hold
          · next hnew =>
              refine .up hp hnew (parentWalk_ancestorsFrom parent
                (List.nodup_cons.mpr ⟨hnew, hnodup⟩) ?_ ?_)
              · intro p hmem
                rcases List.mem_cons.mp hmem with rfl | hmem
                · exact ⟨r, hp⟩
                · exact hsub p hmem
              · rw [List.length_cons]
                omega

theorem parentWalk_ancestors (r : Nat) :
    ParentWalk lm.resourceParent r [] (lm.ancestors r) :=
  parentWalk_ancestorsFrom r List.nodup_nil (by simp) (by simp)

theorem ancestors_nodup (r : Nat) : (lm.ancestors r).Nodup := (lm.parentWalk_ancestors r).nodup.1

/-- The ancestors of a resource are what the parent map reaches from it. -/
theorem mem_ancestors_iff {r a : Nat} :
    a ∈ lm.ancestors r ↔ Relation.TransGen (IsParent lm.resourceParent) r a := by
  have hwalk := lm.parentWalk_ancestors r
  refine ⟨hwalk.above a, fun h => ?_⟩
  have hclosed : ∀ s, s = r ∨ s ∈ lm.ancestors r → ∀ p, IsParent lm.resourceParent s p →
      p ∈ lm.ancestors r := by
    simpa using hwalk.closed (by simp)
  induction h with
  | single hp => exact hclosed r (Or.inl rfl) _ hp
  | tail _ hp ih => exact hclosed _ (Or.inr ih) _ hp

/-- A resource on its own ancestor cycle is the last the walk visits. -/
theorem ancestors_getLast_of_mem {r : Nat} (h : r ∈ lm.ancestors r) :
    (lm.ancestors r).getLast? = some r := by
  have hwalk := lm.parentWalk_ancestors r
  generalize lm.ancestors r = as at h hwalk ⊢
  cases hwalk with
  | root | cycle => simp at h
  | @up _ parent _ rest next new walk =>
      by_cases hr : r = parent
      · subst hr
        cases walk with
        | root | cycle => rfl
        | up next' new' _ =>
            rw [next] at next'
            exact absurd (Option.some.inj next' ▸ List.mem_cons_self) new'
      · have hrest : r ∈ rest := (List.mem_cons.mp h).resolve_left hr
        rw [List.getLast?_cons, walk.ends next List.mem_cons_self hrest, Option.getD_some]

/-! ## One request -/

/-- The lock found is good enough. -/
def holdsEnough (locks : List Lock) (t : Nat) (m : LockType) : Bool :=
  (existingLock locks t).any fun lock => lock.lockType = m ∨ lock.lockType = .exclusive

/-- The request puts a new lock in the place of the one found, if one is found.
Where the transaction has no lock, the locks of the others are all there are. -/
def exchanges (locks : List Lock) (t : Nat) (m : LockType) : Bool :=
  !holdsEnough locks t m && upgradeCompatible locks t m

/-- The answer of `requestLockOnResource` to a transaction that is not completed. -/
def admitsRequest (locks : List Lock) (t : Nat) (m : LockType) : Bool :=
  holdsEnough locks t m || upgradeCompatible locks t m

/-- The locks on the resource once the transaction has a new one there. -/
def exchanged (t r : Nat) (m : LockType) : List Lock :=
  insertAt (lm.alloc.headD 0) ⟨t, m⟩
    ((lm.locksOn r).eraseP fun lock => lock.transactionId == t)

theorem compatible_eq_upgradeCompatible {locks : List Lock} {t : Nat} {m : LockType}
    (h : existingLock locks t = none) : compatible locks m = upgradeCompatible locks t m := by
  rw [Bool.eq_iff_iff, compatible_iff, upgradeCompatible_iff]
  have hnone := existingLock_none h
  exact forall₂_congr fun lock hmem => by simp [hnone lock hmem]

theorem eraseP_of_existingLock_none {locks : List Lock} {t : Nat}
    (h : existingLock locks t = none) :
    (locks.eraseP fun lock => lock.transactionId == t) = locks :=
  List.eraseP_of_forall_not fun lock hmem => by simpa using existingLock_none h lock hmem

variable {lm} {t r : Nat} {m : LockType}

theorem queueOn_enqueue (r' : Nat) :
    (lm.enqueue t r m).queueOn r' =
      if r = r' ∧ ∀ request ∈ lm.queueOn r, request.transactionId ≠ t then
        lm.queueOn r ++ [⟨t, m⟩]
      else lm.queueOn r' := by
  rw [enqueue, queueOn_touchQueue]
  by_cases hany : (lm.queueOn r).any fun request => request.transactionId == t
  · rw [if_pos hany, queueOn_touchQueue, if_neg]
    simp only [List.any_eq_true, beq_iff_eq] at hany
    obtain ⟨request, hmem, hid⟩ := hany
    exact fun h => h.2 request hmem hid
  · rw [if_neg hany, queueOn_setQueue, queueOn_touchQueue]
    have hnew : ∀ request ∈ lm.queueOn r, request.transactionId ≠ t := by simpa using hany
    by_cases hr : r = r'
    · rw [if_pos hr, if_pos ⟨hr, hnew⟩]
    · rw [if_neg hr, if_neg fun h => hr h.1]

theorem locksOn_enqueue (r' : Nat) : (lm.enqueue t r m).locksOn r' = lm.locksOn r' := by
  rw [enqueue]
  split <;> rfl

/-- What a request on one resource answers, and what it does to the locks and the
queues. -/
structure Answered (lm : LockManager) (t r : Nat) (m : LockType) (out : Bool × LockManager) :
    Prop where
  answer : out.1 = admitsRequest (lm.locksOn r) t m
  locks : ∀ r', out.2.locksOn r' =
    if r = r' ∧ exchanges (lm.locksOn r) t m = true then lm.exchanged t r m else lm.locksOn r'
  queue : ∀ r', out.2.queueOn r' =
    if r = r' ∧ admitsRequest (lm.locksOn r) t m = false ∧
        ∀ request ∈ lm.queueOn r, request.transactionId ≠ t then
      lm.queueOn r ++ [⟨t, m⟩]
    else lm.queueOn r'

/-- The lock found is good enough, and nothing changes. -/
theorem answered_enough (h : holdsEnough (lm.locksOn r) t m = true) :
    lm.Answered t r m (true, lm.touchLocks r) := by
  have hadmits : admitsRequest (lm.locksOn r) t m = true := by rw [admitsRequest, h, Bool.true_or]
  have hno : exchanges (lm.locksOn r) t m = false := by rw [exchanges, h]; rfl
  refine ⟨hadmits.symm, fun r' => ?_, fun r' => ?_⟩
  · rw [locksOn_touchLocks, hno]
    simp
  · rw [hadmits]
    simp only [Bool.true_eq_false, false_and, and_false, if_false]
    rfl

/-- A new lock stands where the first lock of the transaction was. -/
theorem answered_exchange {lm' : LockManager} (hnot : holdsEnough (lm.locksOn r) t m = false)
    (hfree : upgradeCompatible (lm.locksOn r) t m = true) (halloc : lm'.alloc = lm.alloc)
    (hlocks : lm'.locksOn r = (lm.locksOn r).eraseP fun lock => lock.transactionId == t)
    (hother : ∀ b, b ≠ r → lm'.locksOn b = lm.locksOn b)
    (hqueue : ∀ b, lm'.queueOn b = lm.queueOn b) :
    lm.Answered t r m (true, (lm'.insertLock r ⟨t, m⟩).indexLock t r) := by
  have hadmits : admitsRequest (lm.locksOn r) t m = true := by
    rw [admitsRequest, hfree, Bool.or_true]
  have hexchanges : exchanges (lm.locksOn r) t m = true := by rw [exchanges, hnot, hfree]; rfl
  refine ⟨hadmits.symm, fun r' => ?_, fun r' => ?_⟩
  · refine (lm'.locksOn_insertLock r r' ⟨t, m⟩).trans ?_
    by_cases hr : r = r'
    · rw [if_pos hr, if_pos ⟨hr, hexchanges⟩, hlocks, halloc, exchanged]
    · rw [if_neg hr, if_neg fun h => hr h.1, hother r' (Ne.symm hr)]
  · rw [hadmits]
    simp only [Bool.true_eq_false, false_and, and_false, if_false]
    exact hqueue r'

/-- A request that is not let through waits. -/
theorem answered_wait (hnot : holdsEnough (lm.locksOn r) t m = false)
    (hbusy : upgradeCompatible (lm.locksOn r) t m ≠ true) :
    lm.Answered t r m (false, (lm.touchLocks r).enqueue t r m) := by
  have hbusy : upgradeCompatible (lm.locksOn r) t m = false := Bool.eq_false_of_not_eq_true hbusy
  have hrefused : admitsRequest (lm.locksOn r) t m = false := by
    rw [admitsRequest, hnot, hbusy]
    rfl
  have hno : exchanges (lm.locksOn r) t m = false := by rw [exchanges, hbusy, Bool.and_false]
  refine ⟨hrefused.symm, fun r' => ?_, fun r' => ?_⟩
  · rw [locksOn_enqueue, locksOn_touchLocks, hno]
    simp
  · rw [queueOn_enqueue]
    simp only [hrefused, true_and]
    rfl

theorem requestLockOnResource_answered (active : t ∉ lm.completedTransactions) :
    lm.Answered t r m (lm.requestLockOnResource t r m) := by
  rw [requestLockOnResource, if_neg active]
  dsimp only
  rw [locksOn_touchLocks]
  split
  · next existing hex =>
      have henough : holdsEnough (lm.locksOn r) t m = true ↔
          existing.lockType = m ∨ existing.lockType = .exclusive := by
        simp [holdsEnough, hex]
      split
      · next hyes => exact answered_enough (henough.mpr hyes)
      · next hno =>
          have hnot : holdsEnough (lm.locksOn r) t m = false :=
            Bool.eq_false_of_not_eq_true fun h => hno (henough.mp h)
          split
          · next hfree =>
              refine answered_exchange hnot hfree rfl ?_ ?_ fun _ => rfl
              · rw [locksOn_setLocks, if_pos rfl]
              · intro b hb
                rw [locksOn_setLocks, if_neg hb.symm, locksOn_touchLocks]
          · next hbusy => exact answered_wait hnot hbusy
  · next hnone =>
      have hnot : holdsEnough (lm.locksOn r) t m = false := by simp [holdsEnough, hnone]
      rw [compatible_eq_upgradeCompatible hnone]
      split
      · next hfree =>
          refine answered_exchange hnot hfree rfl ?_ (fun b _ => locksOn_touchLocks _ r b)
            fun _ => rfl
          rw [locksOn_touchLocks, eraseP_of_existingLock_none hnone]
      · next hbusy => exact answered_wait hnot hbusy

/-- Erasing a lock of the transaction leaves the locks of the others. -/
theorem filter_eraseP (locks : List Lock) :
    ((locks.eraseP fun lock => lock.transactionId == t).filter fun lock =>
      lock.transactionId != t) = locks.filter fun lock => lock.transactionId != t := by
  induction locks with
  | nil => rfl
  | cons lock locks ih =>
      by_cases hid : lock.transactionId = t
      · simp [hid]
      · simp [hid, ih]

/-- A request on one resource leaves the others alone. -/
theorem requestLockOnResource_other {r' : Nat} (hr : r' ≠ r) :
    (lm.requestLockOnResource t r m).2.locksOn r' = lm.locksOn r' ∧
      (lm.requestLockOnResource t r m).2.queueOn r' = lm.queueOn r' := by
  by_cases active : t ∈ lm.completedTransactions
  · rw [requestLockOnResource, if_pos active]
    exact ⟨rfl, rfl⟩
  · have h := requestLockOnResource_answered (r := r) (m := m) active
    rw [h.locks, h.queue, if_neg fun hc => hr hc.1.symm, if_neg fun hc => hr hc.1.symm]
    exact ⟨rfl, rfl⟩

/-- A refused request changes no lock. -/
theorem requestLockOnResource_refused (h : (lm.requestLockOnResource t r m).1 = false) (r' : Nat) :
    (lm.requestLockOnResource t r m).2.locksOn r' = lm.locksOn r' := by
  by_cases active : t ∈ lm.completedTransactions
  · rw [requestLockOnResource, if_pos active]
  · have hout := requestLockOnResource_answered (r := r) (m := m) active
    rw [hout.answer, admitsRequest, Bool.or_eq_false_iff] at h
    rw [hout.locks, exchanges, h.2, Bool.and_false, if_neg (by simp)]

/-- A refused request waits. -/
theorem requestLockOnResource_waits (active : t ∉ lm.completedTransactions)
    (h : (lm.requestLockOnResource t r m).1 = false) :
    ∃ request ∈ (lm.requestLockOnResource t r m).2.queueOn r, request.transactionId = t := by
  have hout := requestLockOnResource_answered (r := r) (m := m) active
  rw [hout.answer] at h
  rw [hout.queue]
  by_cases hnew : ∀ request ∈ lm.queueOn r, request.transactionId ≠ t
  · rw [if_pos ⟨rfl, h, hnew⟩]
    exact ⟨⟨t, m⟩, by simp, rfl⟩
  · rw [if_neg fun hc => hnew hc.2.2]
    simpa using hnew

/-- A request leaves the locks of the others as they are, in their order. -/
theorem requestLockOnResource_othersOn (r' : Nat) :
    (lm.requestLockOnResource t r m).2.othersOn t r' = lm.othersOn t r' := by
  by_cases active : t ∈ lm.completedTransactions
  · rw [requestLockOnResource, if_pos active]
  · have hout := requestLockOnResource_answered (r := r) (m := m) active
    rw [othersOn, hout.locks]
    split
    · next h =>
        rw [exchanged, insertAt, List.filter_append, List.filter_cons_of_neg (by simp),
          ← List.filter_append, List.take_append_drop, ← h.1]
        exact filter_eraseP _
    · rfl

/-- The transaction holds the mode on the resource, or an exclusive lock. -/
def Granted (lm : LockManager) (t r : Nat) (m : LockType) : Prop :=
  ∃ lock ∈ lm.locksOn r, lock.transactionId = t ∧ (lock.lockType = m ∨ lock.lockType = .exclusive)

theorem Granted.congr {lm lm' : LockManager} (h : lm.Granted t r m)
    (hlocks : lm'.locksOn r = lm.locksOn r) : lm'.Granted t r m := by
  rw [Granted, hlocks]
  exact h

theorem granted_of_requestLockOnResource (h : (lm.requestLockOnResource t r m).1 = true) :
    (lm.requestLockOnResource t r m).2.Granted t r m := by
  obtain ⟨m', hmem, hmode⟩ := lm.held_of_requestLockOnResource h
  exact ⟨⟨t, m'⟩, (mem_table_held _).mp hmem, rfl, hmode⟩

theorem mem_requestLockOnResource_completed {t' : Nat} :
    t' ∈ (lm.requestLockOnResource t r m).2.completedTransactions ↔
      t' ∈ lm.completedTransactions :=
  Set.ext_iff.mp (lm.requestLockOnResource_done t r m) t'

/-- A request ends no transaction. -/
theorem active_requestLockOnResource (active : t ∉ lm.completedTransactions) :
    t ∉ (lm.requestLockOnResource t r m).2.completedTransactions :=
  fun hmem => active (mem_requestLockOnResource_completed.mp hmem)

/-! ## The requests of one call -/

/-- Requests one after the other, up to the first that is refused. -/
def requestEach (lm : LockManager) (t : Nat) : List (Nat × LockType) → Bool × LockManager
  | [] => (true, lm)
  | (r, m) :: requests =>
      match lm.requestLockOnResource t r m with
      | (true, lm) => lm.requestEach t requests
      | (false, lm) => (false, lm)

theorem requestEach_cons (request : Nat × LockType) (requests : List (Nat × LockType)) :
    lm.requestEach t (request :: requests) =
      if (lm.requestLockOnResource t request.1 request.2).1 = true then
        (lm.requestLockOnResource t request.1 request.2).2.requestEach t requests
      else lm.requestLockOnResource t request.1 request.2 := by
  rw [requestEach]
  cases lm.requestLockOnResource t request.1 request.2 with
  | mk granted lm' => cases granted <;> rfl

/-- The requests that `requestLock` makes on the ancestors. -/
def ancestorRequests (lm : LockManager) (r : Nat) (m : LockType) : List (Nat × LockType) :=
  if getAncestorIntentionType m = .none then []
  else (lm.ancestors r).reverse.map fun a => (a, getAncestorIntentionType m)

/-- The requests that `requestLock` makes, in its order. -/
def requests (lm : LockManager) (r : Nat) (m : LockType) : List (Nat × LockType) :=
  lm.ancestorRequests r m ++ [(r, m)]

theorem ancestorRequests_nodup : ((lm.ancestorRequests r m).map Prod.fst).Nodup := by
  rw [ancestorRequests]
  split
  · simp
  · rw [List.map_map]
    simpa [Function.comp_def] using lm.ancestors_nodup r

theorem requestAll_eq (rs : List Nat) (lm : LockManager) :
    lm.requestAll t m rs = lm.requestEach t (rs.map fun r => (r, m)) := by
  induction rs generalizing lm with
  | nil => rfl
  | cons r rs ih =>
      rw [List.map_cons, requestAll, requestEach]
      cases lm.requestLockOnResource t r m with
      | mk granted lm' =>
          cases granted with
          | true => exact ih lm'
          | false => rfl

theorem requestEach_append (first second : List (Nat × LockType)) (lm : LockManager) :
    lm.requestEach t (first ++ second) =
      if (lm.requestEach t first).1 = true then (lm.requestEach t first).2.requestEach t second
      else lm.requestEach t first := by
  induction first generalizing lm with
  | nil => rfl
  | cons request first ih =>
      rw [List.cons_append, requestEach_cons, requestEach_cons]
      split
      · exact ih _
      · rfl

theorem requestEach_single (r : Nat) (m : LockType) :
    lm.requestEach t [(r, m)] = lm.requestLockOnResource t r m := by
  rw [requestEach_cons]
  split
  · next hgranted => exact Prod.ext hgranted.symm rfl
  · rfl

/-- `requestLock` makes its requests one after the other. -/
theorem requestLock_eq (active : t ∉ lm.completedTransactions) :
    lm.requestLock t r m = lm.requestEach t (lm.requests r m) := by
  have hens : lm.ensureAncestorIntentionLocks t r m =
      lm.requestEach t (lm.ancestorRequests r m) := by
    rw [ensureAncestorIntentionLocks, ancestorRequests]
    split
    · rfl
    · exact requestAll_eq _ lm
  rw [requestLock, if_neg active, hens, requests, requestEach_append]
  cases lm.requestEach t (lm.ancestorRequests r m) with
  | mk granted lm' =>
      cases granted with
      | true => exact (requestEach_single r m).symm
      | false => rfl

/-- The invariant rule for requests one after the other. -/
theorem requestEach_invariant {I : LockManager → Prop} {requests : List (Nat × LockType)}
    (hrequest : ∀ lm, ∀ request ∈ requests, t ∉ lm.completedTransactions → I lm →
      I (lm.requestLockOnResource t request.1 request.2).2) (lm : LockManager) (h : I lm) :
    I (lm.requestEach t requests).2 := by
  induction requests generalizing lm with
  | nil => exact h
  | cons request requests ih =>
      have hfirst : I (lm.requestLockOnResource t request.1 request.2).2 := by
        by_cases active : t ∈ lm.completedTransactions
        · rwa [requestLockOnResource, if_pos active]
        · exact hrequest lm request List.mem_cons_self active h
      rw [requestEach_cons]
      split
      · exact ih (fun lm q hq => hrequest lm q (List.mem_cons_of_mem _ hq)) _ hfirst
      · exact hfirst

theorem active_requestEach (requests : List (Nat × LockType))
    (active : t ∉ lm.completedTransactions) :
    t ∉ (lm.requestEach t requests).2.completedTransactions :=
  requestEach_invariant (I := fun lm => t ∉ lm.completedTransactions)
    (fun _ _ _ _ hactive => active_requestLockOnResource hactive) lm active

/-- Requests leave the resources they do not ask for alone. -/
theorem requestEach_other {r' : Nat} (requests : List (Nat × LockType)) (lm : LockManager)
    (hr : ∀ request ∈ requests, request.1 ≠ r') :
    (lm.requestEach t requests).2.locksOn r' = lm.locksOn r' ∧
      (lm.requestEach t requests).2.queueOn r' = lm.queueOn r' := by
  refine requestEach_invariant
    (I := fun lm' => lm'.locksOn r' = lm.locksOn r' ∧ lm'.queueOn r' = lm.queueOn r')
    (fun lm' request hmem _ h => ?_) lm ⟨rfl, rfl⟩
  obtain ⟨hlocks, hqueue⟩ :=
    lm'.requestLockOnResource_other (t := t) (m := request.2) (hr request hmem).symm
  exact ⟨hlocks.trans h.1, hqueue.trans h.2⟩

/-- Requests leave the locks of the others as they are, in their order. -/
theorem requestEach_othersOn (r' : Nat) (requests : List (Nat × LockType)) (lm : LockManager) :
    (lm.requestEach t requests).2.othersOn t r' = lm.othersOn t r' :=
  requestEach_invariant (I := fun lm' => lm'.othersOn t r' = lm.othersOn t r')
    (fun lm' _ _ _ h => (lm'.requestLockOnResource_othersOn r').trans h) lm rfl

/-- Requests that are all granted leave each resource granted, in the mode in which
it was asked for last. -/
theorem requestEach_granted {before after : List (Nat × LockType)}
    (h : (lm.requestEach t (before ++ (r, m) :: after)).1 = true)
    (hlast : ∀ request ∈ after, request.1 ≠ r) :
    (lm.requestEach t (before ++ (r, m) :: after)).2.Granted t r m := by
  rw [requestEach_append] at h ⊢
  split at h
  · next hbefore =>
      rw [if_pos hbefore]
      rw [← List.singleton_append, requestEach_append, requestEach_single] at h ⊢
      split at h
      · next hreq =>
          rw [if_pos hreq]
          exact (granted_of_requestLockOnResource hreq).congr (requestEach_other _ _ hlast).1
      · next hreq => exact absurd h hreq
  · next hbefore => exact absurd h hbefore

/-- Where a sequence of requests stops. -/
theorem requestEach_refused (requests : List (Nat × LockType)) (lm : LockManager)
    (h : (lm.requestEach t requests).1 = false) :
    ∃ before r m after, requests = before ++ (r, m) :: after ∧
      (lm.requestEach t before).1 = true ∧
      ((lm.requestEach t before).2.requestLockOnResource t r m).1 = false ∧
      (lm.requestEach t requests).2 =
        ((lm.requestEach t before).2.requestLockOnResource t r m).2 := by
  induction requests generalizing lm with
  | nil => cases h
  | cons request requests ih =>
      rw [requestEach_cons] at h ⊢
      split at h
      · next hgranted =>
          obtain ⟨before, r, m, after, heq, hbefore, hrefused, hstate⟩ := ih _ h
          refine ⟨request :: before, r, m, after, by rw [heq, List.cons_append], ?_⟩
          rw [requestEach_cons, if_pos hgranted, if_pos hgranted]
          exact ⟨hbefore, hrefused, hstate⟩
      · next hrefused =>
          rw [if_neg hrefused]
          exact ⟨[], request.1, request.2, requests, rfl, rfl, h, rfl⟩

/-- Requests on distinct resources are granted when each is admitted by the locks
there are before the first of them. -/
theorem requestEach_fst (requests : List (Nat × LockType)) (lm : LockManager)
    (active : t ∉ lm.completedTransactions) (hnodup : (requests.map Prod.fst).Nodup) :
    (lm.requestEach t requests).1 = true ↔
      ∀ request ∈ requests, admitsRequest (lm.locksOn request.1) t request.2 = true := by
  induction requests generalizing lm with
  | nil => simp [requestEach]
  | cons request requests ih =>
      obtain ⟨r, m⟩ := request
      obtain ⟨hout, hrest⟩ := List.nodup_cons.mp hnodup
      have hanswer := (requestLockOnResource_answered (r := r) (m := m) active).answer
      have hothers : ∀ request ∈ requests, (lm.requestLockOnResource t r m).2.locksOn request.1 =
          lm.locksOn request.1 := by
        intro request hmem
        have hin : request.1 ∈ requests.map Prod.fst := List.mem_map_of_mem hmem
        have hne : request.1 ≠ r := ne_of_mem_of_not_mem hin hout
        exact (requestLockOnResource_other hne).1
      rw [List.forall_mem_cons, ← hanswer, requestEach_cons]
      split
      · next hgranted =>
          refine (ih _ (active_requestLockOnResource active) hrest).trans ?_
          rw [and_iff_right hgranted]
          exact forall₂_congr fun request hmem => by rw [hothers request hmem]
      · next hrefused => exact iff_of_false hrefused fun h => hrefused h.1

/-- A lock held before a sequence of requests leaves a lock after it. -/
theorem requestEach_retains (requests : List (Nat × LockType)) (lm : LockManager) {b : Nat}
    (h : lm.hasLock t b = true) : (lm.requestEach t requests).2.hasLock t b = true := by
  refine requestEach_invariant (I := fun lm => lm.hasLock t b = true)
    (fun lm request _ active hheld => ?_) lm h
  rw [hasLock_iff_table] at hheld ⊢
  exact (lm.requestLockOnResource_reaches t request.1 request.2).retains
    (active_requestLockOnResource active) hheld

/-! ## Invariants -/

section Invariants

variable {I : LockManager → Prop}

theorem requestLock_invariant
    (hrequest : ∀ lm r m, t ∉ lm.completedTransactions → I lm →
      I (lm.requestLockOnResource t r m).2) (lm : LockManager) (h : I lm) :
    I (lm.requestLock t r m).2 := by
  by_cases active : t ∈ lm.completedTransactions
  · rwa [requestLock, if_pos active]
  · rw [requestLock_eq active]
    exact requestEach_invariant (fun lm request _ => hrequest lm request.1 request.2) lm h

theorem releaseAll_invariant
    (hrelease : ∀ lm r, I lm → I (lm.releaseLock t r).2) (rs : List Nat) (lm : LockManager)
    (h : I lm) : I (lm.releaseAll t rs).2 := by
  induction rs generalizing lm with
  | nil => exact h
  | cons r rs ih => exact ih _ (hrelease lm r h)

/-- The invariant rule for the operations: a new parent, a request of a transaction
that is not completed on one resource, a release, and the two ends of a
completion. -/
theorem step_invariant
    (hparent : ∀ lm child parent, I lm → I (lm.setResourceParent child parent))
    (hrequest : ∀ lm t r m, t ∉ lm.completedTransactions → I lm →
      I (lm.requestLockOnResource t r m).2)
    (hrelease : ∀ lm t r, I lm → I (lm.releaseLock t r).2)
    (hmark : ∀ lm t, I lm → I (lm.markCompleted t))
    (hforget : ∀ (lm : LockManager) t, I lm → I { lm with txnLocks := lm.txnLocks.erase t })
    (lm : LockManager) (op : LockOp) (h : I lm) : I (lm.step op) := by
  cases op with
  | setResourceParent child parent => exact hparent lm child parent h
  | requestLock t r m => exact requestLock_invariant (fun lm => hrequest lm t) lm h
  | releaseLock t r => exact hrelease lm t r h
  | completeTransaction t =>
      rw [step, completeTransaction_eq]
      cases lm.txnLocks[t]? with
      | none => exact hmark lm t h
      | some held =>
          exact hforget _ t (releaseAll_invariant (fun lm => hrelease lm t) _ _ (hmark lm t h))

end Invariants

/-! ## The answer of a call -/

/-- The resources that `requestLock` asks for, in its order. -/
def requested (lm : LockManager) (r : Nat) (m : LockType) : List Nat :=
  (if getAncestorIntentionType m = .none then [] else (lm.ancestors r).reverse) ++ [r]

theorem requests_eq (lm : LockManager) (r : Nat) (m : LockType) :
    (lm.requests r m).map Prod.fst = lm.requested r m := by
  rw [requests, ancestorRequests, requested]
  split <;> simp [Function.comp_def]

theorem mem_requested {a : Nat} (h : a ∈ lm.requested r m) : a = r ∨ a ∈ lm.ancestors r := by
  rw [requested] at h
  split at h
  · exact Or.inl (by simpa using h)
  · simpa [or_comm] using h

theorem requested_nodup (hr : r ∉ lm.ancestors r) : (lm.requested r m).Nodup := by
  rw [requested]
  split
  · simp
  · rw [List.nodup_append, List.nodup_reverse]
    refine ⟨lm.ancestors_nodup r, List.nodup_singleton r, fun a ha b hb heq => hr ?_⟩
    rw [heq, List.mem_singleton.mp hb] at ha
    exact List.mem_reverse.mp ha

theorem getAncestorIntentionType_eq_none {m : LockType} :
    getAncestorIntentionType m = .none ↔ m = .none := by
  cases m <;> decide

/-- On an ancestor cycle the first request is for the resource itself. -/
theorem ancestorRequests_of_cycle (hm : m ≠ .none) (hr : r ∈ lm.ancestors r) :
    ∃ rest, lm.ancestorRequests r m = (r, getAncestorIntentionType m) :: rest := by
  have hlast := lm.ancestors_getLast_of_mem hr
  rw [← List.head?_reverse] at hlast
  obtain ⟨rest, hrest⟩ := List.head?_eq_some_iff.mp hlast
  rw [ancestorRequests, if_neg fun h => hm (getAncestorIntentionType_eq_none.mp h), hrest]
  exact ⟨_, rfl⟩

/-- Off ancestor cycles the resource itself is asked for last only. -/
theorem ancestorRequests_ne (hplain : ¬ (m ≠ .none ∧ r ∈ lm.ancestors r)) :
    ∀ request ∈ lm.ancestorRequests r m, request.1 ≠ r := by
  intro request hmem heq
  rw [ancestorRequests] at hmem
  split at hmem
  · simp at hmem
  · next hm =>
      obtain ⟨a, ha, rfl⟩ := List.mem_map.mp hmem
      obtain rfl : a = r := heq
      exact hplain ⟨fun h => hm (getAncestorIntentionType_eq_none.mpr h), List.mem_reverse.mp ha⟩

/-- What is asked for before the last request is asked for in the intention mode. -/
theorem mode_of_mem_requests {before after : List (Nat × LockType)} {request q : Nat × LockType}
    (h : lm.requests r m = before ++ request :: after) (hq : q ∈ before) :
    q.2 = getAncestorIntentionType m := by
  have hmem : q ∈ lm.ancestorRequests r m := by
    rw [requests] at h
    have hdrop := congrArg List.dropLast h
    rw [List.dropLast_concat, List.dropLast_append_of_ne_nil (by simp)] at hdrop
    rw [hdrop]
    exact List.mem_append_left _ hq
  rw [ancestorRequests] at hmem
  split at hmem
  · simp at hmem
  · obtain ⟨a, _, rfl⟩ := List.mem_map.mp hmem
    rfl

/-- A granted call leaves every resource of the chain granted. -/
theorem requestLock_granted (active : t ∉ lm.completedTransactions)
    (h : (lm.requestLock t r m).1 = true) :
    (lm.requestLock t r m).2.Granted t r m ∧
      (m ≠ .none → ∀ a ∈ lm.ancestors r, a ≠ r →
        (lm.requestLock t r m).2.Granted t a (getAncestorIntentionType m)) := by
  rw [requestLock_eq active] at h ⊢
  refine ⟨requestEach_granted h (by simp), fun hm a ha hne => ?_⟩
  have hancestors : lm.ancestorRequests r m =
      (lm.ancestors r).reverse.map fun a => (a, getAncestorIntentionType m) :=
    if_neg fun hnone => hm (getAncestorIntentionType_eq_none.mp hnone)
  -- the request on `a` comes once, before the one on `r`
  obtain ⟨below, above, hsplit⟩ := List.append_of_mem (List.mem_reverse.mpr ha)
  have hnodup := List.nodup_reverse.mpr (lm.ancestors_nodup r)
  rw [hsplit] at hnodup
  rw [requests, hancestors, hsplit, List.map_append, List.map_cons, List.append_assoc,
    List.cons_append] at h ⊢
  refine requestEach_granted h fun request hreq heq => ?_
  rcases List.mem_append.mp hreq with hmem | hmem
  · obtain ⟨b, hb, rfl⟩ := List.mem_map.mp hmem
    have hcons := (List.nodup_append.mp hnodup).2.1
    exact (List.nodup_cons.mp hcons).1 (heq ▸ hb)
  · rw [List.mem_singleton.mp hmem] at heq
    exact hne heq.symm

/-- A refused call stops at a resource it waits for.  What it asked for before is
granted, and from there on no lock changes. -/
theorem requestLock_stops (active : t ∉ lm.completedTransactions)
    (h : (lm.requestLock t r m).1 = false) (hr : r ∉ lm.ancestors r) :
    ∃ before a after, lm.requested r m = before ++ a :: after ∧
      (∃ request ∈ (lm.requestLock t r m).2.queueOn a, request.transactionId = t) ∧
      (∀ b ∈ before, (lm.requestLock t r m).2.Granted t b (getAncestorIntentionType m)) ∧
      ∀ b ∈ a :: after, (lm.requestLock t r m).2.locksOn b = lm.locksOn b := by
  rw [requestLock_eq active] at h ⊢
  obtain ⟨before, a, k, after, hsplit, hbefore, hrefused, hstate⟩ := requestEach_refused _ lm h
  have hrequested : lm.requested r m =
      before.map Prod.fst ++ a :: after.map Prod.fst := by
    rw [← requests_eq, hsplit, List.map_append, List.map_cons]
  have hnodup := requested_nodup (m := m) hr
  rw [hrequested] at hnodup
  have hlocks := requestLockOnResource_refused hrefused
  refine ⟨_, a, _, hrequested, ?_, ?_, ?_⟩
  · rw [hstate]
    exact requestLockOnResource_waits (active_requestEach before active) hrefused
  · intro b hb
    obtain ⟨⟨b, k'⟩, hmem, rfl⟩ := List.mem_map.mp hb
    obtain ⟨first, second, rfl⟩ := List.append_of_mem hmem
    have hmode : k' = getAncestorIntentionType m := mode_of_mem_requests hsplit hmem
    rw [hstate]
    refine Granted.congr ?_ (hlocks b)
    rw [← hmode]
    refine requestEach_granted hbefore fun q hq heq => ?_
    have hleft := (List.nodup_append.mp hnodup).1
    rw [List.map_append, List.map_cons] at hleft
    have hcons := (List.nodup_append.mp hleft).2.1
    exact (List.nodup_cons.mp hcons).1 (List.mem_map.mpr ⟨q, hq, heq⟩)
  · intro b hb
    rw [hstate, hlocks b]
    refine (requestEach_other before lm fun q hq heq => ?_).1
    exact (List.nodup_append.mp hnodup).2.2 _ (List.mem_map.mpr ⟨q, hq, heq⟩) b hb rfl

/-- The walk of every call ends and visits each ancestor once.  The answer says
which resources of the chain the transaction now holds, or the first it waits for.
Locks off the chain and locks of others stay as they are. -/
theorem requestLock_answer (lm : LockManager) (t r : Nat) (m : LockType)
    (active : t ∉ lm.completedTransactions) :
    (ParentWalk lm.resourceParent r [] (lm.ancestors r) ∧ (lm.ancestors r).Nodup ∧
      ∀ a, a ∈ lm.ancestors r ↔ Relation.TransGen (IsParent lm.resourceParent) r a) ∧
    ((lm.requestLock t r m).1 = true →
      (lm.requestLock t r m).2.Granted t r m ∧
        (m ≠ .none → ∀ a ∈ lm.ancestors r, a ≠ r →
          (lm.requestLock t r m).2.Granted t a (getAncestorIntentionType m))) ∧
    ((lm.requestLock t r m).1 = false → r ∉ lm.ancestors r →
      ∃ before a after, lm.requested r m = before ++ a :: after ∧
        (∃ request ∈ (lm.requestLock t r m).2.queueOn a, request.transactionId = t) ∧
        (∀ b ∈ before, (lm.requestLock t r m).2.Granted t b (getAncestorIntentionType m)) ∧
        ∀ b ∈ a :: after, (lm.requestLock t r m).2.locksOn b = lm.locksOn b) ∧
    (∀ b, b ≠ r → b ∉ lm.ancestors r → (lm.requestLock t r m).2.locksOn b = lm.locksOn b) ∧
    ∀ b, (lm.requestLock t r m).2.othersOn t b = lm.othersOn t b := by
  refine ⟨⟨lm.parentWalk_ancestors r, lm.ancestors_nodup r, fun _ => lm.mem_ancestors_iff⟩,
    requestLock_granted active, requestLock_stops active, ?_, ?_⟩
  · intro b hb hout
    rw [requestLock_eq active]
    refine (requestEach_other _ lm fun q hq heq => ?_).1
    have hmem : b ∈ lm.requested r m := by
      rw [← requests_eq, ← heq]
      exact List.mem_map.mpr ⟨q, hq, rfl⟩
    exact (mem_requested hmem).elim hb hout
  · intro b
    rw [requestLock_eq active]
    exact requestEach_othersOn b _ lm

/-- Resource 3 lies on its own ancestor cycle, and transaction 1 is not completed. -/
theorem requestLock_answer_cycle :
    ((empty []).setResourceParent 3 4 |>.setResourceParent 4 3).ancestors 3 = [4, 3] ∧
      (((empty []).setResourceParent 3 4 |>.setResourceParent 4 3).requestLock 1 3
        .exclusive).2.Granted 1 4 .intentionExclusive := by
  refine ⟨by decide, ?_⟩
  exact ((requestLock_answer _ 1 3 .exclusive (by decide)).2.1 (by decide)).2 (by decide) 4
    (by decide) (by decide)

end LockManager

end TxnEngine
