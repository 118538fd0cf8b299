import Mathlib.Data.List.Basic

/-!
# Histories of queues

Queues for resources `ρ` with entries `α`.  A history lists, in order, the entries
appended to the queues and the entries served from them.  `Follows` relates the
queues before and after a history: what was in a queue, followed by what was
appended, is what was served, followed by what is left.  So nothing is lost,
duplicated or reordered.
-/

namespace Fifo

variable {ρ α : Type*} [DecidableEq ρ]

/-- What happens to a queue. -/
inductive Event (ρ α : Type*) where
  | appended (r : ρ) (x : α)
  | served (r : ρ) (x : α)
deriving DecidableEq, Repr

/-- The entry, if the event appends it to the queue of `r`. -/
def Event.appendedTo (r : ρ) : Event ρ α → Option α
  | .appended r' x => if r' = r then some x else none
  | .served _ _ => none

/-- The entry, if the event serves it from the queue of `r`. -/
def Event.servedFrom (r : ρ) : Event ρ α → Option α
  | .appended _ _ => none
  | .served r' x => if r' = r then some x else none

/-- The entries appended to a queue, in order of arrival. -/
def appendedTo (r : ρ) (history : List (Event ρ α)) : List α :=
  history.filterMap (Event.appendedTo r)

/-- The entries served from a queue, in order. -/
def servedFrom (r : ρ) (history : List (Event ρ α)) : List α :=
  history.filterMap (Event.servedFrom r)

/-- The queues before and after a history. -/
def Follows (before : ρ → List α) (history : List (Event ρ α)) (after : ρ → List α) : Prop :=
  ∀ r, before r ++ appendedTo r history = servedFrom r history ++ after r

variable {queues queues' queues'' : ρ → List α} {history history' : List (Event ρ α)}

theorem follows_nil (h : ∀ r, queues' r = queues r) : Follows queues [] queues' := by
  intro r
  simp [appendedTo, servedFrom, h r]

theorem Follows.trans (h : Follows queues history queues')
    (h' : Follows queues' history' queues'') : Follows queues (history ++ history') queues'' := by
  intro r
  calc queues r ++ appendedTo r (history ++ history')
      = (queues r ++ appendedTo r history) ++ appendedTo r history' := by
        rw [appendedTo, List.filterMap_append, List.append_assoc]
        rfl
    _ = servedFrom r history ++ (queues' r ++ appendedTo r history') := by
        rw [h r, List.append_assoc]
    _ = servedFrom r (history ++ history') ++ queues'' r := by
        rw [h' r, ← List.append_assoc, servedFrom, servedFrom, servedFrom, List.filterMap_append]

/-- One entry appended. -/
theorem follows_append {r : ρ} {x : α}
    (h : ∀ r', queues' r' = if r = r' then queues r ++ [x] else queues r') :
    Follows queues [.appended r x] queues' := by
  intro r'
  rw [h]
  by_cases hr : r = r'
  · subst hr
    simp [appendedTo, servedFrom, Event.appendedTo, Event.servedFrom]
  · simp [appendedTo, servedFrom, Event.appendedTo, Event.servedFrom, hr]

/-- The front entry served. -/
theorem follows_serve {r : ρ} {x : α} {rest : List α} (hfront : queues r = x :: rest)
    (h : ∀ r', queues' r' = if r = r' then rest else queues r') :
    Follows queues [.served r x] queues' := by
  intro r'
  rw [h]
  by_cases hr : r = r'
  · subst hr
    simp [appendedTo, servedFrom, Event.appendedTo, Event.servedFrom, hfront]
  · simp [appendedTo, servedFrom, Event.appendedTo, Event.servedFrom, hr]

end Fifo
