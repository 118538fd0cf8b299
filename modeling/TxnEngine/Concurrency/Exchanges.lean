import TxnEngine.Concurrency.Requests

/-!
# What a call does to the locks on a resource

A call exchanges locks, on one resource after the other.  What one of the locks on a
resource does, such as keeping a certain request waiting, is lost when the only lock
that does it is exchanged for one that does not (`Loses`).  A call keeps it exactly
when none of its exchanges loses it, or the exchange on the resource itself, which
comes last, brings it back (`keeps_iff`).
-/

namespace TxnEngine

namespace LockManager

/-- The request exchanges the only lock with the property for one without it. -/
def Loses (p : Lock → Prop) (locks : List Lock) (t : Nat) (m : LockType) : Prop :=
  exchanges locks t m = true ∧ (∃ lock ∈ locks, p lock) ∧ ¬ p ⟨t, m⟩ ∧
    ¬ ∃ lock ∈ locks.eraseP fun lock => lock.transactionId == t, p lock

/-- The locks held before the call admit the requests. -/
def AllAdmitted (lm : LockManager) (t : Nat) (requests : List (Nat × LockType)) : Prop :=
  ∀ request ∈ requests, admitsRequest (lm.locksOn request.1) t request.2 = true

/-- The locks on the resource itself when its turn comes.  The call has changed them
only if the resource is on its own ancestor cycle. -/
def locksAtTurn (lm : LockManager) (t r : Nat) (m : LockType) : List Lock :=
  if (m ≠ .none ∧ r ∈ lm.ancestors r) ∧
      exchanges (lm.locksOn r) t (getAncestorIntentionType m) = true then
    lm.exchanged t r (getAncestorIntentionType m)
  else lm.locksOn r

/-- On resource `a` no exchange of the call loses the property, unless `a` is the
resource itself, on its own ancestor cycle, and its own request brings it back. -/
def LosesNone (lm : LockManager) (t r : Nat) (m : LockType) (a : Nat) (p : Lock → Prop) : Prop :=
  (∀ before i after, lm.ancestorRequests r m = before ++ (a, i) :: after →
    lm.AllAdmitted t before → Loses p (lm.locksOn a) t i →
      a = r ∧ lm.AllAdmitted t (lm.ancestorRequests r m) ∧
        exchanges (lm.locksAtTurn t r m) t m = true ∧ p ⟨t, m⟩) ∧
  (a = r → lm.AllAdmitted t (lm.ancestorRequests r m) → (∃ lock ∈ lm.locksOn r, p lock) →
    ¬ Loses p (lm.locksAtTurn t r m) t m)

variable {lm : LockManager} {t r a : Nat} {m : LockType} {p : Lock → Prop}

/-- What one request leaves of a property on its resource. -/
theorem exists_requestLockOnResource (active : t ∉ lm.completedTransactions) :
    (∃ lock ∈ (lm.requestLockOnResource t r m).2.locksOn r, p lock) ↔
      if exchanges (lm.locksOn r) t m = true then p ⟨t, m⟩ ∨
        ∃ lock ∈ (lm.locksOn r).eraseP fun lock => lock.transactionId == t, p lock
      else ∃ lock ∈ lm.locksOn r, p lock := by
  rw [(requestLockOnResource_answered active).locks]
  by_cases hex : exchanges (lm.locksOn r) t m = true
  · rw [if_pos ⟨rfl, hex⟩, if_pos hex]
    simp only [exchanged, (perm_insertAt _ _ _).mem_iff, List.mem_cons, exists_eq_or_imp]
  · rw [if_neg fun h => hex h.2, if_neg hex]

/-- One request keeps a property on its resource exactly if it does not lose it. -/
theorem keeps_requestLockOnResource (active : t ∉ lm.completedTransactions) :
    ((∃ lock ∈ lm.locksOn r, p lock) →
      ∃ lock ∈ (lm.requestLockOnResource t r m).2.locksOn r, p lock) ↔
      ¬ Loses p (lm.locksOn r) t m := by
  rw [exists_requestLockOnResource active, Loses]
  by_cases hex : exchanges (lm.locksOn r) t m = true
  · rw [if_pos hex]
    simp only [hex, true_and, not_and, not_not]
    exact imp_congr_right fun _ => or_iff_not_imp_left
  · simp [hex]

/-- The first request alone decides about its resource. -/
theorem locksOn_requestEach_first {after : List (Nat × LockType)}
    (hafter : ∀ request ∈ after, request.1 ≠ r) :
    (lm.requestEach t ((r, m) :: after)).2.locksOn r =
      (lm.requestLockOnResource t r m).2.locksOn r := by
  rw [requestEach_cons]
  split
  · exact (requestEach_other after _ hafter).1
  · rfl

/-- A property on one of a sequence of distinct resources. -/
theorem keeps_requestEach {before after : List (Nat × LockType)}
    (active : t ∉ lm.completedTransactions)
    (hnodup : ((before ++ (r, m) :: after).map Prod.fst).Nodup) :
    ((∃ lock ∈ lm.locksOn r, p lock) →
      ∃ lock ∈ (lm.requestEach t (before ++ (r, m) :: after)).2.locksOn r, p lock) ↔
      (lm.AllAdmitted t before → ¬ Loses p (lm.locksOn r) t m) := by
  rw [List.map_append, List.map_cons, List.nodup_append] at hnodup
  obtain ⟨hbefore, hafter, hapart⟩ := hnodup
  have hnotBefore : ∀ request ∈ before, request.1 ≠ r :=
    fun request hmem => hapart _ (List.mem_map_of_mem hmem) r List.mem_cons_self
  have hnotAfter : ∀ request ∈ after, request.1 ≠ r := fun request hmem =>
    ne_of_mem_of_not_mem (List.mem_map_of_mem (f := Prod.fst) hmem) (List.nodup_cons.mp hafter).1
  have hsame := (requestEach_other before lm hnotBefore (t := t)).1
  have hactive := active_requestEach before active
  rw [requestEach_append, AllAdmitted, ← requestEach_fst before lm active hbefore]
  split
  · next hgranted =>
      rw [locksOn_requestEach_first hnotAfter, ← hsame, keeps_requestLockOnResource hactive]
      simp [hgranted]
  · next hrefused => simp [hsame, hrefused]

/-- The locks on the resource itself once the ancestors have been asked for. -/
theorem locksOn_requestEach_ancestors (active : t ∉ lm.completedTransactions) :
    (lm.requestEach t (lm.ancestorRequests r m)).2.locksOn r = lm.locksAtTurn t r m := by
  rw [locksAtTurn]
  by_cases hcycle : m ≠ .none ∧ r ∈ lm.ancestors r
  · obtain ⟨rest, hrest⟩ := ancestorRequests_of_cycle hcycle.1 hcycle.2
    have hnodup := lm.ancestorRequests_nodup (r := r) (m := m)
    rw [hrest, List.map_cons] at hnodup
    have hnotRest : ∀ request ∈ rest, request.1 ≠ r := fun request hmem =>
      ne_of_mem_of_not_mem (List.mem_map_of_mem (f := Prod.fst) hmem)
        (List.nodup_cons.mp hnodup).1
    rw [hrest, locksOn_requestEach_first hnotRest, (requestLockOnResource_answered active).locks]
    by_cases hex : exchanges (lm.locksOn r) t (getAncestorIntentionType m) = true
    · rw [if_pos ⟨rfl, hex⟩, if_pos ⟨hcycle, hex⟩]
    · rw [if_neg fun h => hex h.2, if_neg fun h => hex h.2]
  · rw [if_neg fun h => hcycle h.1]
    exact (requestEach_other _ lm (ancestorRequests_ne hcycle)).1

/-- The requests on the ancestors keep a property on a resource exactly if the one
request that concerns it does not lose it. -/
theorem keeps_ancestorRequests (active : t ∉ lm.completedTransactions) :
    ((∃ lock ∈ lm.locksOn a, p lock) →
      ∃ lock ∈ (lm.requestEach t (lm.ancestorRequests r m)).2.locksOn a, p lock) ↔
      ∀ before i after, lm.ancestorRequests r m = before ++ (a, i) :: after →
        lm.AllAdmitted t before → ¬ Loses p (lm.locksOn a) t i := by
  have hnodup := lm.ancestorRequests_nodup (r := r) (m := m)
  constructor
  · intro hkeeps before i after hsplit hbefore
    rw [hsplit] at hkeeps hnodup
    exact (keeps_requestEach active hnodup).mp hkeeps hbefore
  · intro hguard
    by_cases hmem : a ∈ (lm.ancestorRequests r m).map Prod.fst
    · obtain ⟨⟨a, i⟩, hrequest, rfl⟩ := List.mem_map.mp hmem
      obtain ⟨before, after, hsplit⟩ := List.append_of_mem hrequest
      rw [hsplit] at hnodup ⊢
      exact (keeps_requestEach active hnodup).mpr fun hbefore =>
        hguard before i after hsplit hbefore
    · have hother : ∀ request ∈ lm.ancestorRequests r m, request.1 ≠ a := fun request hrequest =>
        ne_of_mem_of_not_mem (List.mem_map_of_mem (f := Prod.fst) hrequest) hmem
      rw [(requestEach_other _ lm hother (t := t)).1]
      exact id

/-- A call keeps a property on a resource other than its own exactly if the request on
it does not lose it. -/
theorem keeps_ancestor (active : t ∉ lm.completedTransactions) (ha : a ≠ r) :
    ((∃ lock ∈ lm.locksOn a, p lock) →
      ∃ lock ∈ (lm.requestLock t r m).2.locksOn a, p lock) ↔
      ∀ before i after, lm.ancestorRequests r m = before ++ (a, i) :: after →
        lm.AllAdmitted t before → ¬ Loses p (lm.locksOn a) t i := by
  have hlocks : (lm.requestLock t r m).2.locksOn a =
      (lm.requestEach t (lm.ancestorRequests r m)).2.locksOn a := by
    rw [requestLock_eq active, requests, requestEach_append]
    split
    · rw [requestEach_single]
      exact (requestLockOnResource_other ha).1
    · rfl
  rw [hlocks]
  exact keeps_ancestorRequests active

/-- A call keeps a property on its own resource exactly if its own exchange does not
lose it and brings back what an exchange for a cycle lost. -/
theorem keeps_itself (active : t ∉ lm.completedTransactions) :
    ((∃ lock ∈ lm.locksOn r, p lock) →
      ∃ lock ∈ (lm.requestLock t r m).2.locksOn r, p lock) ↔
      ((∃ lock ∈ lm.locksOn r, p lock) → (¬ ∃ lock ∈ lm.locksAtTurn t r m, p lock) →
        lm.AllAdmitted t (lm.ancestorRequests r m) ∧
          exchanges (lm.locksAtTurn t r m) t m = true ∧ p ⟨t, m⟩) ∧
      (lm.AllAdmitted t (lm.ancestorRequests r m) → (∃ lock ∈ lm.locksOn r, p lock) →
        ¬ Loses p (lm.locksAtTurn t r m) t m) := by
  have hturn := locksOn_requestEach_ancestors (r := r) (m := m) active
  have hadmitted := requestEach_fst _ lm active (lm.ancestorRequests_nodup (r := r) (m := m))
  have hactive := active_requestEach (lm.ancestorRequests r m) active
  rw [requestLock_eq active, requests, requestEach_append, AllAdmitted, ← hadmitted]
  split
  · next hgranted =>
      have hkeeps := keeps_requestLockOnResource (p := p) (m := m) (r := r) hactive
      have hafter := exists_requestLockOnResource (p := p) (m := m) (r := r) hactive
      rw [hturn] at hkeeps hafter
      rw [requestEach_single]
      simp only [hgranted, true_and, forall_const]
      constructor
      · intro hall
        refine ⟨fun hheld hlost => ?_, fun hheld => hkeeps.mp fun _ => hall hheld⟩
        have hfinal := hafter.mp (hall hheld)
        split at hfinal
        · next hex =>
            refine ⟨hex, hfinal.resolve_right ?_⟩
            rintro ⟨lock, hmem, hp⟩
            exact hlost ⟨lock, List.mem_of_mem_eraseP hmem, hp⟩
        · exact absurd hfinal hlost
      · rintro ⟨hback, hown⟩ hheld
        by_cases hkept : ∃ lock ∈ lm.locksAtTurn t r m, p lock
        · exact hkeeps.mpr (hown hheld) hkept
        · obtain ⟨hex, hp⟩ := hback hheld hkept
          rw [hafter, if_pos hex]
          exact Or.inl hp
  · next hrefused =>
      rw [hturn]
      constructor
      · intro hall
        exact ⟨fun hheld hlost => absurd (hall hheld) hlost,
          fun hgranted => absurd hgranted hrefused⟩
      · rintro ⟨hback, _⟩ hheld
        by_contra hlost
        exact hrefused (hback hheld hlost).1

/-- A call keeps a property of one of the locks on a resource exactly if no exchange
loses it. -/
theorem keeps_iff (active : t ∉ lm.completedTransactions) :
    ((∃ lock ∈ lm.locksOn a, p lock) →
      ∃ lock ∈ (lm.requestLock t r m).2.locksOn a, p lock) ↔ lm.LosesNone t r m a p := by
  rw [LosesNone]
  by_cases ha : a = r
  · subst ha
    have hturn := keeps_ancestorRequests (r := a) (m := m) (a := a) (p := p) active
    rw [locksOn_requestEach_ancestors active] at hturn
    rw [keeps_itself active]
    simp only [true_and, forall_const]
    refine and_congr_left fun _ => ⟨fun hback before i after hsplit hbefore hloses => ?_, ?_⟩
    · refine hback hloses.2.1 fun hkept => ?_
      exact hturn.mp (fun _ => hkept) before i after hsplit hbefore hloses
    · intro hguard hheld hlost
      by_contra hnot
      exact hlost (hturn.mpr (fun before i after hsplit hbefore hloses =>
        hnot (hguard before i after hsplit hbefore hloses)) hheld)
  · rw [keeps_ancestor active ha]
    simp only [ha, false_and, false_implies, and_true]

end LockManager

end TxnEngine
