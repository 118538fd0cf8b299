import Mathlib.Algebra.Order.Ring.Int
import Mathlib.Data.List.Basic

/-!
# Enumerations and constants

The enumerations of `utils/enums.h` and the constants of `utils/constants.h`
that the engine reads.  Counters of the engine are `uint32_t`, so they are
natural numbers advanced modulo `2 ^ 32`.
-/

namespace TxnEngine

/-- The state of a transaction. -/
inductive TransactionState where
  | active
  | committed
  | aborted
  | waiting
deriving DecidableEq, Repr

/-- The modes of a lock.  `none` is a mode that can be requested like the
others, not the absence of a lock. -/
inductive LockType where
  | none
  | shared
  | exclusive
  | intentionShared
  | intentionExclusive
deriving DecidableEq, Repr

/-- The phases of recovery. -/
inductive RecoveryState where
  | analysis
  | redo
  | undo
  | complete
deriving DecidableEq, Repr

/-- `INITIAL_TXN_ID`, the first transaction id. -/
def initialTxnId : Nat := 1

/-- `MAX_RECORD_SIZE`, the largest payload of a record in bytes. -/
def maxRecordSize : Nat := 1024 * 1024

/-- `++` on a `uint32_t` counter. -/
def succ32 (n : Nat) : Nat := (n + 1) % 2 ^ 32

theorem succ32_of_lt {n : Nat} (h : n + 1 < 2 ^ 32) : succ32 n = n + 1 :=
  Nat.mod_eq_of_lt h

end TxnEngine
