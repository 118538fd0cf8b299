import TxnEngine.Library.Runs
import TxnEngine.Transaction.TransactionManager

/-!
# The life of a transaction

Any sequence of operations of the transaction manager with fewer than `2 ^ 32 - 1`
transactions keeps its books right: the ids count up from 1, the two maps share no
id, and every transaction begun was committed, was aborted or is active
(`Balanced`).  An id that is no longer active stays so, and what the history says
of it changes no more, except that the history can be cleared (`StaysEnded`).
-/

namespace TxnEngine

open Std Runs

/-- The operations of the transaction manager that change it. -/
inductive TxnOp where
  | beginTransaction
  | commitTransaction (transactionId : Nat)
  | abortTransaction (transactionId : Nat)
  | abortAllTransactions
  | clearCompletedTransactions
deriving DecidableEq, Repr

/-- The operation begins a transaction. -/
def TxnOp.begins (op : TxnOp) : Bool := op = .beginTransaction

namespace TransactionManager

/-- One operation. -/
def step (tm : TransactionManager) : TxnOp → TransactionManager
  | .beginTransaction => tm.beginTransaction.2
  | .commitTransaction id => (tm.commitTransaction id).2
  | .abortTransaction id => (tm.abortTransaction id).2
  | .abortAllTransactions => tm.abortAllTransactions
  | .clearCompletedTransactions => tm.clearCompletedTransactions

/-- The state after a sequence of operations. -/
def after (ops : List TxnOp) : TransactionManager := run step new ops

/-- The ids that `beginTransaction` hands out. -/
def handedOut (tm : TransactionManager) : List TxnOp → List Nat
  | [] => []
  | .beginTransaction :: ops =>
      tm.beginTransaction.1.transactionId :: handedOut tm.beginTransaction.2 ops
  | op :: ops => handedOut (tm.step op) ops

/-- There are fewer than `2 ^ 32 - 1` transactions. -/
def FewTransactions (ops : List TxnOp) : Prop := ops.countP TxnOp.begins < 2 ^ 32 - 1

/-! ## The books -/

/-- The books are right. -/
structure Balanced (tm : TransactionManager) : Prop where
  next : tm.nextTransactionId = tm.begun + 1
  active_lt : ∀ (id : Nat) txn, tm.activeTransactions[id]? = some txn → id < tm.nextTransactionId
  disjoint : ∀ (id : Nat) txn, tm.activeTransactions[id]? = some txn →
    tm.completedTransactions[id]? = none
  completed_lt : ∀ (id : Nat) txn, tm.completedTransactions[id]? = some txn →
    id < tm.nextTransactionId
  balance : tm.committedCount + tm.abortedCount + tm.activeTransactions.size = tm.begun
  few : tm.begun < 2 ^ 32 - 1

theorem balanced_new : Balanced new where
  next := rfl
  active_lt := by simp [new]
  disjoint := by simp [new]
  completed_lt := by simp [new]
  balance := rfl
  few := by simp [new]

/-- The size of the active map after a completion. -/
theorem size_erase_active {tm : TransactionManager} {id : Nat} {txn : Transaction}
    (h : tm.activeTransactions[id]? = some txn) :
    (tm.activeTransactions.erase id).size + 1 = tm.activeTransactions.size := by
  have hmem : id ∈ tm.activeTransactions :=
    ExtTreeMap.isSome_getElem?_iff_mem.mp (by rw [h]; rfl)
  have hpos : tm.activeTransactions.size ≠ 0 := by
    intro hzero
    rw [← ExtTreeMap.eq_empty_iff_size_eq_zero] at hzero
    rw [hzero] at hmem
    exact ExtTreeMap.not_mem_empty hmem
  rw [ExtTreeMap.size_erase, if_pos (ExtTreeMap.contains_iff_mem.mpr hmem)]
  omega

/-- The counts after completing an active transaction. -/
theorem counts_complete {tm : TransactionManager} {id : Nat} {txn : Transaction}
    (outcome : Outcome) (h : tm.activeTransactions[id]? = some txn) :
    (tm.complete id outcome).2.committedCount =
        (match outcome with
          | .commit => succ32 tm.committedCount
          | .abort => tm.committedCount) ∧
      (tm.complete id outcome).2.abortedCount =
        (match outcome with
          | .commit => tm.abortedCount
          | .abort => succ32 tm.abortedCount) := by
  rw [complete]
  split
  · next h' =>
      rw [h] at h'
      cases h'
  · cases outcome <;> exact ⟨rfl, rfl⟩

theorem Balanced.complete {tm : TransactionManager} (h : Balanced tm) (id : Nat)
    (outcome : Outcome) : Balanced (tm.complete id outcome).2 := by
  cases hfound : tm.activeTransactions[id]? with
  | none =>
      rw [tm.complete_inactive outcome hfound]
      exact h
  | some txn =>
      obtain ⟨hnext, hbegun⟩ := tm.complete_counters id outcome
      obtain ⟨_, hactive, _, _⟩ := tm.complete_active outcome hfound
      have hsize := size_erase_active hfound
      obtain ⟨hcommitted, haborted⟩ := counts_complete outcome hfound
      have hbalance := h.balance
      have hfew := h.few
      have hlt := h.active_lt id txn hfound
      constructor
      case next => rw [hnext, hbegun, h.next]
      case active_lt =>
        intro id' txn' hfound'
        rw [active_complete] at hfound'
        rw [hnext]
        split at hfound'
        · cases hfound'
        · exact h.active_lt id' txn' hfound'
      case disjoint =>
        intro id' txn' hfound'
        rw [active_complete] at hfound'
        rw [completed_complete]
        split at hfound'
        · cases hfound'
        · next hne =>
            rw [if_neg hne]
            exact h.disjoint id' txn' hfound'
      case completed_lt =>
        intro id' txn' hfound'
        rw [completed_complete] at hfound'
        rw [hnext]
        split at hfound'
        · next heq => exact heq ▸ hlt
        · exact h.completed_lt id' txn' hfound'
      case balance =>
        rw [hcommitted, haborted, hactive, hbegun]
        cases outcome with
        | commit =>
            have hsucc : succ32 tm.committedCount = tm.committedCount + 1 :=
              succ32_of_lt (by omega)
            simp only [hsucc]
            omega
        | abort =>
            have hsucc : succ32 tm.abortedCount = tm.abortedCount + 1 := succ32_of_lt (by omega)
            simp only [hsucc]
            omega
      case few => rwa [hbegun]

theorem Balanced.abortAll {tm : TransactionManager} (h : Balanced tm) :
    Balanced tm.abortAllTransactions := by
  rw [abortAllTransactions]
  exact invariant (I := Balanced) (fun tm id => (tm.abortTransaction id).2)
    (fun _ id hI => hI.complete id .abort) tm.getActiveTransactionIds h

theorem Balanced.clear {tm : TransactionManager} (h : Balanced tm) :
    Balanced tm.clearCompletedTransactions where
  next := h.next
  active_lt := h.active_lt
  disjoint := by simp [clearCompletedTransactions]
  completed_lt := by simp [clearCompletedTransactions]
  balance := h.balance
  few := h.few

theorem Balanced.begin {tm : TransactionManager} (h : Balanced tm)
    (hroom : tm.begun + 1 < 2 ^ 32 - 1) : Balanced tm.beginTransaction.2 := by
  have hnext : succ32 tm.nextTransactionId = tm.nextTransactionId + 1 := by
    have := h.next
    exact succ32_of_lt (by omega)
  have hnew : tm.nextTransactionId ∉ tm.activeTransactions := by
    rw [← ExtTreeMap.isSome_getElem?_iff_mem]
    intro hsome
    obtain ⟨txn, hfound⟩ := Option.isSome_iff_exists.mp hsome
    exact Nat.lt_irrefl _ (h.active_lt _ txn hfound)
  have hactive : ∀ id, tm.beginTransaction.2.activeTransactions[id]? =
      if tm.nextTransactionId = id then some tm.nextTransaction
      else tm.activeTransactions[id]? := by
    intro id
    show (tm.activeTransactions.insert _ _)[id]? = _
    rw [ExtTreeMap.getElem?_insert]
    simp only [Std.compare_eq_iff_eq]
  constructor
  case next =>
    show succ32 tm.nextTransactionId = tm.begun + 1 + 1
    rw [hnext, h.next]
  case active_lt =>
    intro id txn hfound
    show id < succ32 tm.nextTransactionId
    rw [hactive] at hfound
    rw [hnext]
    split at hfound
    · omega
    · have := h.active_lt id txn hfound
      omega
  case disjoint =>
    intro id txn hfound
    rw [hactive] at hfound
    show tm.completedTransactions[id]? = none
    split at hfound
    · next heq =>
        cases hdone : tm.completedTransactions[id]? with
        | none => rfl
        | some txn' =>
            have := h.completed_lt id txn' hdone
            omega
    · exact h.disjoint id txn hfound
  case completed_lt =>
    intro id txn hfound
    show id < succ32 tm.nextTransactionId
    have := h.completed_lt id txn hfound
    omega
  case balance =>
    show tm.committedCount + tm.abortedCount + (tm.activeTransactions.insert _ _).size =
      tm.begun + 1
    have hcontains : ¬ tm.activeTransactions.contains tm.nextTransactionId = true :=
      fun hc => hnew (ExtTreeMap.contains_iff_mem.mp hc)
    rw [ExtTreeMap.size_insert, if_neg hcontains, ← h.balance]
    omega
  case few => exact hroom

/-- The number of transactions begun stays in range. -/
def RoomLeft (tm : TransactionManager) (op : TxnOp) : Prop :=
  op.begins = true → tm.begun + 1 < 2 ^ 32 - 1

theorem Balanced.step {tm : TransactionManager} (h : Balanced tm) (op : TxnOp)
    (hroom : tm.RoomLeft op) : Balanced (tm.step op) := by
  cases op with
  | beginTransaction => exact h.begin (hroom rfl)
  | commitTransaction id => exact h.complete id .commit
  | abortTransaction id => exact h.complete id .abort
  | abortAllTransactions => exact h.abortAll
  | clearCompletedTransactions => exact h.clear

theorem begun_step (tm : TransactionManager) (op : TxnOp) :
    (tm.step op).begun = tm.begun + if op.begins then 1 else 0 := by
  cases op with
  | beginTransaction => rfl
  | commitTransaction id => exact (tm.complete_counters id .commit).2
  | abortTransaction id => exact (tm.complete_counters id .abort).2
  | abortAllTransactions => exact tm.counters_abortAll.2
  | clearCompletedTransactions => rfl

/-- With few transactions every one finds a new id. -/
theorem guarded_roomLeft {tm : TransactionManager} {ops : List TxnOp}
    (h : tm.begun + ops.countP TxnOp.begins < 2 ^ 32 - 1) : Guarded step RoomLeft tm ops :=
  guarded_of_countP (fun tm op => Nat.le_of_eq (tm.begun_step op)) ops tm h

theorem Balanced.run {tm : TransactionManager} (h : Balanced tm) {ops : List TxnOp}
    (hfew : tm.begun + ops.countP TxnOp.begins < 2 ^ 32 - 1) :
    Balanced (run TransactionManager.step tm ops) :=
  (guarded_roomLeft hfew).invariant (fun _ op hI hroom => hI.step op hroom) h

theorem begun_run (tm : TransactionManager) (ops : List TxnOp) :
    (run step tm ops).begun = tm.begun + ops.countP TxnOp.begins := by
  induction ops generalizing tm with
  | nil => rfl
  | cons op ops ih =>
      rw [run_cons, ih, begun_step, List.countP_cons]
      omega

/-! ## Ids handed out -/

theorem handedOut_cons (tm : TransactionManager) (op : TxnOp) (ops : List TxnOp) :
    tm.handedOut (op :: ops) =
      (if op.begins then [tm.nextTransactionId] else []) ++ (tm.step op).handedOut ops := by
  cases op <;> rfl

/-- The ids count up. -/
theorem handedOut_eq {tm : TransactionManager} (h : Balanced tm) {ops : List TxnOp}
    (hfew : tm.begun + ops.countP TxnOp.begins < 2 ^ 32 - 1) :
    tm.handedOut ops = List.range' tm.nextTransactionId (ops.countP TxnOp.begins) := by
  induction ops generalizing tm with
  | nil => rfl
  | cons op ops ih =>
      have hguard := (guarded_roomLeft hfew).1
      have hstep := h.step op hguard
      have hbegun := tm.begun_step op
      have hnext : (tm.step op).nextTransactionId =
          tm.nextTransactionId + if op.begins then 1 else 0 := by
        rw [hstep.next, hbegun, h.next]
        omega
      rw [List.countP_cons] at hfew ⊢
      rw [handedOut_cons, ih hstep (by omega), hnext]
      cases op.begins with
      | false => rfl
      | true => exact (List.range'_succ).symm

/-! ## Transactions that have ended -/

/-- What is said of an id that is no longer active: it is not active later, and the
history says the same of it, if it has not been cleared. -/
structure StaysEnded (id : Nat) (tm tm' : TransactionManager) : Prop where
  inactive : tm'.activeTransactions[id]? = none
  final : ∀ txn, tm'.completedTransactions[id]? = some txn →
    tm.completedTransactions[id]? = some txn

theorem StaysEnded.trans {id : Nat} {tm tm' tm'' : TransactionManager}
    (h : StaysEnded id tm tm') (h' : StaysEnded id tm' tm'') : StaysEnded id tm tm'' :=
  ⟨h'.inactive, fun txn hfound => h.final txn (h'.final txn hfound)⟩

/-- Only `beginTransaction` makes an id active, the next one. -/
theorem staysEnded_step {tm : TransactionManager} {id : Nat}
    (hinactive : tm.activeTransactions[id]? = none) (hlt : id < tm.nextTransactionId)
    (op : TxnOp) : StaysEnded id tm (tm.step op) := by
  have hcomplete : ∀ id' outcome, StaysEnded id tm (tm.complete id' outcome).2 := by
    intro id' outcome
    constructor
    case inactive => rw [active_complete, hinactive, ite_self]
    case final =>
      intro txn hfound
      rw [completed_complete, hinactive] at hfound
      split at hfound <;> exact hfound
  cases op with
  | beginTransaction =>
      refine ⟨?_, fun txn hfound => hfound⟩
      show (tm.activeTransactions.insert _ _)[id]? = none
      rw [ExtTreeMap.getElem?_insert, if_neg, hinactive]
      rw [Std.compare_eq_iff_eq]
      omega
  | commitTransaction id' => exact hcomplete id' .commit
  | abortTransaction id' => exact hcomplete id' .abort
  | abortAllTransactions =>
      refine ⟨tm.active_abortAll id, fun txn hfound => ?_⟩
      have hsame := tm.completed_abortAll id
      rw [hinactive] at hsame
      exact hsame.symm.trans hfound
  | clearCompletedTransactions =>
      refine ⟨hinactive, fun txn hfound => ?_⟩
      have hnone : tm.clearCompletedTransactions.completedTransactions[id]? = none := by
        simp [clearCompletedTransactions]
      cases hnone.symm.trans hfound

theorem staysEnded_run {tm : TransactionManager} (h : Balanced tm) {id : Nat}
    (hinactive : tm.activeTransactions[id]? = none) (hlt : id < tm.nextTransactionId)
    {ops : List TxnOp} (hfew : tm.begun + ops.countP TxnOp.begins < 2 ^ 32 - 1) :
    StaysEnded id tm (run step tm ops) := by
  induction ops generalizing tm with
  | nil => exact ⟨hinactive, fun _ hfound => hfound⟩
  | cons op ops ih =>
      have hbalanced := h.step op (guarded_roomLeft hfew).1
      have hbegun := tm.begun_step op
      have hended := staysEnded_step hinactive hlt op
      have hlt' : id < (tm.step op).nextTransactionId := by
        rw [hbalanced.next]
        have := h.next
        omega
      rw [List.countP_cons] at hfew
      exact hended.trans (ih hbalanced hended.inactive hlt' (by omega))

/-! ## The books of a run -/

/-- The books of a run are right. -/
structure Accounted (ops : List TxnOp) (tm : TransactionManager) : Prop where
  disjoint : ∀ id, id ∈ tm.activeTransactions → id ∉ tm.completedTransactions
  active : ∀ (id : Nat) txn, tm.activeTransactions[id]? = some txn →
    txn.transactionId = id ∧ txn.state = .active
  completed : ∀ (id : Nat) txn, tm.completedTransactions[id]? = some txn →
    txn.transactionId = id ∧ (txn.state = .committed ∨ txn.state = .aborted)
  distinct : (new.handedOut ops).Nodup
  below : ∀ id ∈ new.handedOut ops, id < tm.nextTransactionId
  balance : tm.committedCount + tm.abortedCount + tm.getActiveTransactionCount =
    ops.countP TxnOp.begins
  failing_commit : ∀ id, (tm.commitTransaction id).1 = false → (tm.commitTransaction id).2 = tm
  failing_abort : ∀ id, (tm.abortTransaction id).1 = false → (tm.abortTransaction id).2 = tm
  abortAll_active : tm.abortAllTransactions.getActiveTransactionCount = 0
  abortAll_aborted : tm.abortAllTransactions.abortedCount =
    tm.abortedCount + tm.getActiveTransactionCount

/-- A completion that fails changes nothing. -/
theorem complete_failed {tm : TransactionManager} {id : Nat} {outcome : Outcome}
    (h : (tm.complete id outcome).1 = false) : (tm.complete id outcome).2 = tm := by
  cases hfound : tm.activeTransactions[id]? with
  | none => rw [tm.complete_inactive outcome hfound]
  | some txn =>
      rw [(tm.complete_active outcome hfound).1] at h
      cases h

/-- Aborting commits nothing. -/
theorem committedCount_abortAll (tm : TransactionManager) :
    tm.abortAllTransactions.committedCount = tm.committedCount := by
  rw [abortAllTransactions]
  refine invariant (I := fun tm' : TransactionManager => tm'.committedCount = tm.committedCount)
    (fun tm id => (tm.abortTransaction id).2) (fun tm' id hI => ?_) tm.getActiveTransactionIds rfl
  cases hfound : tm'.activeTransactions[id]? with
  | none =>
      rw [abortTransaction, tm'.complete_inactive .abort hfound]
      exact hI
  | some txn => exact (counts_complete .abort hfound).1.trans hI

theorem size_abortAll (tm : TransactionManager) :
    tm.abortAllTransactions.activeTransactions.size = 0 := by
  rw [← ExtTreeMap.eq_empty_iff_size_eq_zero]
  apply ExtTreeMap.ext_getElem?
  intro id
  rw [active_abortAll]
  simp

theorem accounted_after {ops : List TxnOp} (hfew : FewTransactions ops) :
    Accounted ops (after ops) := by
  have hfew' : new.begun + ops.countP TxnOp.begins < 2 ^ 32 - 1 := by
    rw [FewTransactions] at hfew
    exact Nat.lt_of_le_of_lt (Nat.le_of_eq (Nat.zero_add _)) hfew
  have h : Balanced (after ops) := balanced_new.run hfew'
  have hbegun : (after ops).begun = ops.countP TxnOp.begins :=
    (begun_run new ops).trans (Nat.zero_add _)
  have hids := handedOut_eq balanced_new hfew'
  constructor
  case disjoint =>
    intro id hactive hdone
    rw [← ExtTreeMap.isSome_getElem?_iff_mem] at hactive hdone
    obtain ⟨txn, hfound⟩ := Option.isSome_iff_exists.mp hactive
    rw [h.disjoint id txn hfound] at hdone
    cases hdone
  case active => exact (after ops).active_filed
  case completed =>
    intro id txn hfound
    obtain ⟨hid, outcome, hstate⟩ := (after ops).completed_filed id txn hfound
    refine ⟨hid, ?_⟩
    cases outcome with
    | commit => exact Or.inl hstate
    | abort => exact Or.inr hstate
  case distinct =>
    rw [hids]
    exact List.nodup_range'
  case below =>
    intro id hid
    rw [hids] at hid
    have hrange := List.mem_range'_1.mp hid
    rw [h.next, hbegun]
    have hfirst : new.nextTransactionId = 1 := rfl
    omega
  case balance => exact h.balance.trans hbegun
  case failing_commit => exact fun id => complete_failed
  case failing_abort => exact fun id => complete_failed
  case abortAll_active => exact size_abortAll _
  case abortAll_aborted =>
    have hafter := h.abortAll.balance
    rw [committedCount_abortAll, size_abortAll, (counters_abortAll _).2, ← h.balance] at hafter
    have hcount : (after ops).getActiveTransactionCount =
      (after ops).activeTransactions.size := rfl
    omega

/-- In every sequence of operations with few transactions the books are right, and
an id that has left the active map never returns to it, with a final state that
never changes. -/
theorem transactions_accounted (ops later : List TxnOp) (hfew : FewTransactions (ops ++ later)) :
    Accounted ops (after ops) ∧
      ∀ id ∈ new.handedOut ops, id ∉ (after ops).activeTransactions →
        StaysEnded id (after ops) (after (ops ++ later)) := by
  have hcount : ops.countP TxnOp.begins + later.countP TxnOp.begins < 2 ^ 32 - 1 := by
    rw [FewTransactions, List.countP_append] at hfew
    exact hfew
  have haccounted : Accounted ops (after ops) := accounted_after (by
    rw [FewTransactions]
    omega)
  refine ⟨haccounted, fun id hid hnot => ?_⟩
  have hbegun : (after ops).begun = ops.countP TxnOp.begins :=
    (begun_run new ops).trans (Nat.zero_add _)
  have hbalanced : Balanced (after ops) := by
    refine balanced_new.run ?_
    have hzero : new.begun = 0 := rfl
    omega
  have hinactive : (after ops).activeTransactions[id]? = none := by
    cases hfound : (after ops).activeTransactions[id]? with
    | none => rfl
    | some txn => exact absurd (ExtTreeMap.isSome_getElem?_iff_mem.mp (by rw [hfound]; rfl)) hnot
  have hrun : after (ops ++ later) = run step (after ops) later := run_append step new ops later
  rw [hrun]
  exact staysEnded_run hbalanced hinactive (haccounted.below id hid) (by rw [hbegun]; exact hcount)

/-- Two transactions, a commit that fails, and the history cleared. -/
def twoTransactions : List TxnOp :=
  [.beginTransaction, .beginTransaction, .commitTransaction 2, .commitTransaction 2]

theorem transactions_accounted_two : StaysEnded 2 (after twoTransactions)
    (after (twoTransactions ++ [.clearCompletedTransactions, .abortAllTransactions])) :=
  (transactions_accounted twoTransactions [.clearCompletedTransactions, .abortAllTransactions]
    (by rw [FewTransactions]; decide)).2 2 (by decide) (by decide)

end TransactionManager

end TxnEngine
