import TxnEngine.Concurrency.LockSteps

/-!
# Locks are kept, and nobody else's are touched

Strict two-phase locking, call by call and in every state.  An operation for one
transaction leaves the locks of the others in place, and a transaction that gains
a lock that way was waiting for it in that mode.  Only its completion takes a
lock from a transaction that is not completed (`strict_retention`).
-/

namespace TxnEngine

open LockTable

/-- The transaction an operation is called for. -/
def LockOp.transaction : LockOp → Option Nat
  | .setResourceParent _ _ => none
  | .requestLock t _ _ | .releaseLock t _ | .completeTransaction t => some t

namespace LockManager

/-- The modes of the locks of a transaction on a resource. -/
def modesOf (lm : LockManager) (t r : Nat) : Multiset LockType :=
  ((lm.locksOn r).filter fun lock => lock.transactionId = t).map Lock.lockType

/-- The modes in which a transaction waits for a resource. -/
def awaitedModes (lm : LockManager) (t r : Nat) : Multiset LockType :=
  ((lm.queueOn r).filter fun request => request.transactionId = t).map LockRequest.lockType

theorem modesOf_eq (lm : LockManager) (t r : Nat) :
    lm.modesOf t r = (lm.table.heldBy t r).map Prod.snd := by
  rw [modesOf, Table.heldBy, table, Multiset.filter_coe, List.filter_map, Multiset.map_coe,
    List.map_map]
  rfl

theorem awaitedModes_eq (lm : LockManager) (t r : Nat) :
    lm.awaitedModes t r = (lm.table.awaitedBy t r).map Prod.snd := by
  rw [awaitedModes, Table.awaitedBy, table, Multiset.filter_coe, List.filter_map,
    Multiset.map_coe, List.map_map]
  rfl

/-! ## Other transactions -/

theorem ByRequest.owner {t : Nat} {rs : List Nat} {T : Table Nat Nat LockType}
    {a : Act Nat Nat LockType} (h : ByRequest t rs T a) : a.owner = some t := by
  obtain ⟨r, _, m, rfl | ⟨_, rfl⟩ | rfl⟩ := h <;> rfl

theorem ByCompletion.owner {t : Nat} {T : Table Nat Nat LockType} {a : Act Nat Nat LockType}
    (h : ByCompletion t T a) : a.owner = some t ∨ a.owner = none := by
  obtain rfl | rfl | ⟨r, rfl⟩ | ⟨t', r, m, rfl⟩ := h
  · exact Or.inl rfl
  · exact Or.inl rfl
  · exact Or.inl rfl
  · exact Or.inr rfl

theorem undisturbed_step (lm : LockManager) {op : LockOp} {t : Nat}
    (hop : op.transaction ≠ some t) : Undisturbed t lm.table (lm.step op).table := by
  have hcompletion : ∀ {t'}, t' ≠ t → ∀ (T : Table Nat Nat LockType) a, ByCompletion t' T a →
      a.owner ≠ some t := by
    intro t' hne T a hact heq
    rcases hact.owner with hown | hown
    · exact hne (Option.some.inj (hown.symm.trans heq))
    · cases hown.symm.trans heq
  cases op with
  | setResourceParent child parent => exact Undisturbed.refl t lm.table
  | requestLock t' r m =>
      refine (lm.requestLock_reaches t' r m).undisturbed fun T a hact heq => ?_
      exact hop (hact.owner.symm.trans heq)
  | releaseLock t' r =>
      exact (lm.releaseLock_reaches t' r).undisturbed
        (hcompletion fun heq => hop (by rw [heq]; rfl))
  | completeTransaction t' =>
      exact (lm.completeTransaction_reaches t').undisturbed
        (hcompletion fun heq => hop (by rw [heq]; rfl))

/-! ## Transactions that are not completed -/

/-- Only its own completion completes a transaction. -/
theorem not_completed_step (lm : LockManager) {op : LockOp} {t : Nat}
    (ht : t ∉ lm.completedTransactions) (hop : op ≠ .completeTransaction t) :
    t ∉ (lm.step op).completedTransactions := by
  cases op with
  | setResourceParent child parent => exact ht
  | requestLock t' r m => exact fun hmem => ht (lm.mem_requestLock_completed.mp hmem)
  | releaseLock t' r =>
      rw [step, (lm.releaseLock_rest t' r).1]
      exact ht
  | completeTransaction t' =>
      intro hmem
      rcases lm.mem_completeTransaction_completed.mp hmem with heq | hold
      · exact hop (by rw [heq])
      · exact ht hold

/-- Somebody else's operation, or a new parent, leaves every lock in place, and a
lock gained is one that was waited for. -/
def LeavesOthers (lm : LockManager) (op : LockOp) : Prop :=
  ∀ t, op.transaction ≠ some t → ∀ r, ∃ gained,
    (lm.step op).modesOf t r = lm.modesOf t r + gained ∧ gained ≤ lm.awaitedModes t r

/-- A transaction that is not completed keeps a lock wherever it has one, and an
exclusive lock as it is, unless it is completed now. -/
def KeepsLocks (lm : LockManager) (op : LockOp) : Prop :=
  ∀ t, t ∉ lm.completedTransactions → op ≠ .completeTransaction t → ∀ r,
    (lm.hasLock t r = true → (lm.step op).hasLock t r = true) ∧
      (.exclusive ∈ lm.modesOf t r → .exclusive ∈ (lm.step op).modesOf t r)

theorem leavesOthers (lm : LockManager) (op : LockOp) : lm.LeavesOthers op := by
  intro t hop r
  obtain ⟨gained, heq, hle⟩ := (lm.undisturbed_step hop).gained r
  refine ⟨gained.map Prod.snd, ?_, ?_⟩
  · rw [modesOf_eq, modesOf_eq, heq, Multiset.map_add]
  · rw [awaitedModes_eq]
    exact Multiset.map_le_map hle

theorem mem_modesOf (lm : LockManager) {t r : Nat} {m : LockType} :
    m ∈ lm.modesOf t r ↔ (t, m) ∈ lm.table.held r := by
  rw [modesOf_eq, Multiset.mem_map]
  constructor
  · intro ⟨p, hmem, hsnd⟩
    obtain ⟨hheld, hfst⟩ := Multiset.mem_filter.mp hmem
    rwa [← hsnd, ← hfst]
  · exact fun hmem => ⟨(t, m), Multiset.mem_filter.mpr ⟨hmem, rfl⟩, rfl⟩

theorem keepsLocks (lm : LockManager) (op : LockOp) : lm.KeepsLocks op := by
  intro t ht hop r
  have ht' := lm.not_completed_step ht hop
  have hreach := lm.step_reaches op
  refine ⟨fun hlock => ?_, fun hlock => ?_⟩
  · rw [hasLock_iff_table] at hlock ⊢
    exact hreach.retains ht' hlock
  · rw [mem_modesOf] at hlock ⊢
    exact hreach.keeps ht' (fun hconvertible => hconvertible rfl) hlock

/-- Locks of transactions that are not completed are kept, and calls for one
transaction leave the locks of the others alone, whatever state the lock manager
is in.  A release before the completion is refused and changes nothing. -/
theorem strict_retention (lm : LockManager) :
    (∀ op, lm.LeavesOthers op) ∧ (∀ op, lm.KeepsLocks op) ∧
      ∀ t r, t ∉ lm.completedTransactions → lm.releaseLock t r = (false, lm) := by
  refine ⟨lm.leavesOthers, lm.keepsLocks, fun t r ht => ?_⟩
  rw [releaseLock_eq, if_neg fun h => ht h.1]

/-- The lock manager once transaction 1 has locked resource 5. -/
def oneLocked : LockManager := (empty []).step (.requestLock 1 5 .exclusive)

theorem strict_retention_oneLocked : oneLocked.releaseLock 1 5 = (false, oneLocked) :=
  oneLocked.strict_retention.2.2 1 5 (by decide)

end LockManager

end TxnEngine
