import TxnEngine.Concurrency.Compatibility
import TxnEngine.Concurrency.WakeUps

/-!
# What refuses a request

Among compatible locks a request is refused exactly if somebody else has a lock that
is not compatible with it (`admitsRequest_iff`).  Calls only add locks and exchange
locks of their own transaction, other than exclusive ones, so only an exchange can
take that lock away.  A call that is itself refused can do so as well, on a resource
that it asks for before the one where it is refused (`lost_of_refused`).
-/

namespace TxnEngine

open Std

namespace LockManager

variable {lm : LockManager} {t r a : Nat} {m k : LockType} {p : Lock → Prop}

/-- Among compatible locks a request is admitted exactly if nobody else has a lock that
is not compatible with it. -/
theorem admitsRequest_iff (h : lm.table.Compatible Fits) :
    admitsRequest (lm.locksOn r) t m = true ↔ ¬ Blocked (lm.locksOn r) ⟨t, m⟩ := by
  rw [← upgradeCompatible_eq_false_iff, Bool.not_eq_false, admitsRequest, Bool.or_eq_true,
    or_iff_right_iff_imp]
  intro henough
  rw [holdsEnough, Option.any_eq_true] at henough
  obtain ⟨mine, hmine, hmode⟩ := henough
  obtain ⟨hmem, hid⟩ := existingLock_some hmine
  rw [upgradeCompatible_iff]
  intro lock hlock hother
  have hfits := (mutuallyCompatible_iff lm).mpr h r mine hmem lock hlock
    (fun heq => hother (heq.symm.trans hid))
  rcases of_decide_eq_true hmode with hm | hx
  · rw [hm] at hfits
    exact ⟨hfits.2, hfits.1⟩
  · rw [hx] at hfits
    simp [isCompatible] at hfits

/-- Off ancestor cycles a call is granted exactly if none of its requests meets an
incompatible lock of somebody else. -/
theorem requestLock_iff (active : t ∉ lm.completedTransactions) (plain : r ∉ lm.ancestors r)
    (h : lm.table.Compatible Fits) : (lm.requestLock t r m).1 = true ↔
      ∀ request ∈ lm.requests r m, ¬ Blocked (lm.locksOn request.1) ⟨t, request.2⟩ := by
  have hnodup : ((lm.requests r m).map Prod.fst).Nodup := by
    rw [requests_eq]
    exact requested_nodup plain
  rw [requestLock_eq active, requestEach_fst _ lm active hnodup]
  exact forall₂_congr fun request _ => admitsRequest_iff h

/-- A resource without a parent is all that is asked for. -/
theorem requests_of_orphan (orphan : lm.resourceParent[r]? = none) :
    lm.requests r m = [(r, m)] := by
  have hwalk : lm.ancestors r = [] := (lm.parentWalk_ancestors r).unique (.root orphan)
  rw [requests, ancestorRequests, hwalk]
  split <;> rfl

/-- A resource that nobody uses and that has no parent is granted. -/
theorem requestLock_unused (active : t ∉ lm.completedTransactions)
    (orphan : lm.resourceParent[r]? = none) (unused : ¬ lm.table.Used r) :
    (lm.requestLock t r m).1 = true := by
  have hlocks : lm.locksOn r = [] := by
    by_contra hne
    obtain ⟨lock, hlock⟩ := List.exists_mem_of_ne_nil _ hne
    exact unused ⟨_, Or.inl (lm.mem_table_held.mpr hlock)⟩
  rw [requestLock_eq active, requests_of_orphan orphan, requestEach_single,
    (requestLockOnResource_answered active).answer, hlocks]
  rfl

/-! ## What calls do to locks -/

/-- An exchange that loses a property gives up a lock that is not exclusive. -/
theorem Loses.existing {locks : List Lock} (h : Loses p locks t k) :
    ∃ lock ∈ locks, lock.transactionId = t ∧ lock.lockType ≠ .exclusive ∧ p lock := by
  obtain ⟨hex, ⟨lock, hlock, hp⟩, _, hlost⟩ := h
  cases hfind : existingLock locks t with
  | none => exact absurd ⟨lock, (eraseP_of_existingLock_none hfind).symm ▸ hlock, hp⟩ hlost
  | some mine =>
      obtain ⟨hmine, hid⟩ := existingLock_some hfind
      have hold : lock = mine := by
        rcases List.mem_cons.mp ((perm_existingLock hfind).mem_iff.mp hlock) with heq | hrest
        · exact heq
        · exact absurd ⟨lock, hrest, hp⟩ hlost
      refine ⟨mine, hmine, hid, fun hexclusive => ?_, hold ▸ hp⟩
      rw [exchanges, holdsEnough, hfind, Option.any_some, Bool.and_eq_true] at hex
      simp [hexclusive] at hex

/-- An exchange is one that the locks admit. -/
theorem Loses.admits {locks : List Lock} (h : Loses p locks t k) :
    admitsRequest locks t k = true := by
  have hex := h.1
  rw [exchanges, Bool.and_eq_true] at hex
  rw [admitsRequest, hex.2, Bool.or_true]

/-- The locks on a resource after a call are old or asked for. -/
theorem forall_requestLock (h : ∀ lock ∈ lm.locksOn a, p lock)
    (hnew : ∀ k, (a, k) ∈ lm.requests r m → p ⟨t, k⟩) :
    ∀ lock ∈ (lm.requestLock t r m).2.locksOn a, p lock := by
  by_cases active : t ∈ lm.completedTransactions
  · rwa [requestLock, if_pos active]
  rw [requestLock_eq active]
  refine requestEach_invariant (I := fun lm => ∀ lock ∈ lm.locksOn a, p lock) ?_ lm h
  intro lm' request hmem hactive hold lock hlock
  rw [(requestLockOnResource_answered hactive).locks] at hlock
  split at hlock
  · next hex =>
      rw [exchanged, (perm_insertAt _ _ _).mem_iff, List.mem_cons] at hlock
      rcases hlock with rfl | hlock
      · exact hnew request.2 (hex.1 ▸ hmem)
      · exact hold lock (hex.1 ▸ List.mem_of_mem_eraseP hlock)
  · exact hold lock hlock

/-- A call keeps what one of the locks on a resource does, if the locks that it asks for
do it wherever they can take the place of one that does. -/
theorem exists_requestLock (h : ∃ lock ∈ lm.locksOn a, p lock)
    (hnew : ∀ k, (a, k) ∈ lm.requests r m → ∀ lock, lock.transactionId = t →
      lock.lockType ≠ .exclusive → p lock → p ⟨t, k⟩) :
    ∃ lock ∈ (lm.requestLock t r m).2.locksOn a, p lock := by
  by_cases active : t ∈ lm.completedTransactions
  · rwa [requestLock, if_pos active]
  rw [requestLock_eq active]
  refine requestEach_invariant (I := fun lm => ∃ lock ∈ lm.locksOn a, p lock) ?_ lm h
  rintro lm' ⟨a', k⟩ hmem hactive hold
  by_cases ha : a' = a
  · subst ha
    refine (keeps_requestLockOnResource hactive).mpr (fun hloses => ?_) hold
    obtain ⟨lock, _, howner, hweak, hp⟩ := hloses.existing
    exact hloses.2.2.1 (hnew k hmem lock howner hweak hp)
  · rw [(requestLockOnResource_other (Ne.symm ha)).1]
    exact hold

/-- Where a call that is refused loses a property of the locks on a resource: one of its
requests exchanges a lock there, and a later one is refused. -/
theorem lost_of_refused (plain : r ∉ lm.ancestors r) (refused : (lm.requestLock t r m).1 = false)
    (held : ∃ lock ∈ lm.locksOn a, p lock)
    (lost : ¬ ∃ lock ∈ (lm.requestLock t r m).2.locksOn a, p lock) :
    ∃ before k after, lm.requests r m = before ++ (a, k) :: after ∧ Loses p (lm.locksOn a) t k ∧
      ∃ request ∈ after, admitsRequest (lm.locksOn request.1) t request.2 = false := by
  have active : t ∉ lm.completedTransactions := by
    intro hover
    rw [requestLock, if_pos hover] at lost
    exact lost held
  have hnodup : ((lm.requests r m).map Prod.fst).Nodup := by
    rw [requests_eq]
    exact requested_nodup plain
  rw [requestLock_eq active] at refused lost
  have hrefused := (Bool.eq_false_iff.mp refused).imp (requestEach_fst _ lm active hnodup).mpr
  push Not at hrefused
  obtain ⟨request, hrequest, hstops⟩ := hrefused
  by_cases hmem : a ∈ (lm.requests r m).map Prod.fst
  · obtain ⟨⟨a, k⟩, hasked, rfl⟩ := List.mem_map.mp hmem
    obtain ⟨before, after, hsplit⟩ := List.append_of_mem hasked
    rw [hsplit] at lost hnodup hrequest
    have hkeeps := mt (keeps_requestEach (p := p) active hnodup).mpr fun hkept => lost (hkept held)
    rw [Classical.not_imp, not_not] at hkeeps
    obtain ⟨hbefore, hloses⟩ := hkeeps
    refine ⟨before, k, after, hsplit, hloses, request, ?_, Bool.eq_false_of_not_eq_true hstops⟩
    rcases List.mem_append.mp hrequest with hearly | hlate
    · exact absurd (hbefore request hearly) hstops
    · rcases List.mem_cons.mp hlate with rfl | hlater
      · exact absurd hloses.admits hstops
      · exact hlater
  · have hother : ∀ request ∈ lm.requests r m, request.1 ≠ a := fun request hrequest =>
      ne_of_mem_of_not_mem (List.mem_map_of_mem (f := Prod.fst) hrequest) hmem
    rw [(requestEach_other _ lm hother (t := t)).1] at lost
    exact absurd held lost

end LockManager

end TxnEngine
