import Mathlib.Data.List.Induction
import Mathlib.Data.List.Nodup
import Mathlib.Data.List.Flatten
import TxnEngine.Library.Arrivals

/-!
# Rigorous schedules are serial in the order of completion

Operations of several transactions run interleaved over a state.  An operation
is partial: replaying it elsewhere may fail, for instance because a read finds
another value.  Two operations that commute as partial functions may change
places, so a list of operations may be regrouped by transaction if every pair
that is put out of its order commutes (`replay_regroup`).

A history also lists when transactions are done.  It is rigorous when an
operation comes before its own transaction is done, and after every other
transaction with an earlier conflicting operation is done.  The operations of a
rigorous history can be regrouped in the order in which the transactions are
done, those that are not done last in any order (`Rigorous.serial`).
-/

namespace Schedule

variable {σ ι τ : Type*}

/-! ## Replaying -/

/-- The state after a list of operations, if each of them succeeds. -/
def replay (exec : σ → ι → Option σ) : σ → List ι → Option σ
  | s, [] => some s
  | s, i :: is => (exec s i).bind fun s' => replay exec s' is

/-- The two operations have the same effect in both orders. -/
def Commute (exec : σ → ι → Option σ) (i j : ι) : Prop :=
  ∀ s, (exec s i).bind (exec · j) = (exec s j).bind (exec · i)

variable {exec : σ → ι → Option σ}

theorem replay_append (s : σ) (is js : List ι) :
    replay exec s (is ++ js) = (replay exec s is).bind fun s' => replay exec s' js := by
  induction is generalizing s with
  | nil => rfl
  | cons i is ih =>
      rw [List.cons_append, replay, replay, Option.bind_assoc]
      exact congrArg _ (funext fun s' => ih s')

theorem replay_concat (s : σ) (is : List ι) (i : ι) :
    replay exec s (is ++ [i]) = (replay exec s is).bind (exec · i) := by
  rw [replay_append]
  refine congrArg _ (funext fun s' => ?_)
  exact Option.bind_fun_some _

/-- An operation that commutes with all before it may go first. -/
theorem replay_move {i : ι} {is : List ι} (h : ∀ j ∈ is, Commute exec i j) (s : σ)
    (js : List ι) : replay exec s (is ++ i :: js) = replay exec s (i :: (is ++ js)) := by
  induction is generalizing s with
  | nil => rfl
  | cons j is ih =>
      have hswap := h j List.mem_cons_self s
      have hrest := ih fun k hk => h k (List.mem_cons_of_mem j hk)
      calc replay exec s (j :: is ++ i :: js)
          = (exec s j).bind fun s' => replay exec s' (i :: (is ++ js)) :=
            congrArg _ (funext fun s' => hrest s')
        _ = ((exec s j).bind (exec · i)).bind fun s' => replay exec s' (is ++ js) := by
            rw [Option.bind_assoc]
            rfl
        _ = ((exec s i).bind (exec · j)).bind fun s' => replay exec s' (is ++ js) := by
            rw [hswap]
        _ = replay exec s (i :: (j :: is ++ js)) := by
            rw [Option.bind_assoc]
            rfl

/-- The operations that satisfy `p` may go first if they commute with the others
before them. -/
theorem replay_filter {p : ι → Bool} {is : List ι}
    (h : is.Pairwise fun i j => p i = false → p j = true → Commute exec i j) (s : σ) :
    replay exec s (is.filter p ++ is.filter fun i => !p i) = replay exec s is := by
  induction is generalizing s with
  | nil => rfl
  | cons i is ih =>
      obtain ⟨hhead, htail⟩ := List.pairwise_cons.mp h
      cases hp : p i with
      | true =>
          rw [List.filter_cons_of_pos hp, List.filter_cons_of_neg (by simp [hp]), List.cons_append,
            replay, replay]
          exact congrArg _ (funext fun s' => ih htail s')
      | false =>
          have hcomm : ∀ j ∈ is.filter p, Commute exec i j := by
            intro j hj
            obtain ⟨hmem, hpj⟩ := List.mem_filter.mp hj
            exact hhead j hmem hp hpj
          rw [List.filter_cons_of_neg (by simp [hp]), List.filter_cons_of_pos (by simp [hp]),
            replay_move hcomm, replay, replay]
          exact congrArg _ (funext fun s' => ih htail s')

/-! ## Regrouping -/

variable [DecidableEq τ] {tx : ι → τ}

/-- The operations transaction by transaction, each in its own order. -/
def regroup (tx : ι → τ) (order : List τ) (is : List ι) : List ι :=
  order.flatMap fun t => is.filter fun i => tx i = t

/-- Other transactions do not matter to a group. -/
theorem regroup_filter_ne {t : τ} {order : List τ} (ht : t ∉ order) (is : List ι) :
    regroup tx order (is.filter fun i => !decide (tx i = t)) = regroup tx order is := by
  refine List.flatMap_congr fun t' ht' => ?_
  rw [List.filter_filter]
  refine List.filter_congr fun i _ => ?_
  have hne : tx i = t' → tx i ≠ t := fun heq heq' => ht (heq' ▸ heq ▸ ht')
  by_cases heq : tx i = t'
  · simp [heq, heq ▸ hne heq]
  · simp [heq]

/-- The first group, and the others. -/
theorem regroup_cons {t : τ} {order : List τ} (ht : t ∉ order) (is : List ι) :
    regroup tx (t :: order) is = (is.filter fun i => decide (tx i = t)) ++
      regroup tx order (is.filter fun i => !decide (tx i = t)) := by
  rw [regroup_filter_ne ht, regroup, List.flatMap_cons]
  rfl

/-- What is not of the first transaction is of a later one. -/
theorem mem_order_of_filter {t : τ} {order : List τ} {is : List ι}
    (hcover : ∀ i ∈ is, tx i ∈ t :: order) :
    ∀ i ∈ is.filter fun i => !decide (tx i = t), tx i ∈ order := by
  intro i hi
  obtain ⟨hmem, hne⟩ := List.mem_filter.mp hi
  rcases List.mem_cons.mp (hcover i hmem) with heq | hin
  · simp [heq] at hne
  · exact hin

/-- If every two operations commute, belong together or have their transactions
in this order, regrouping changes nothing. -/
theorem replay_regroup {order : List τ} (hnodup : order.Nodup) :
    ∀ {is : List ι}, (∀ i ∈ is, tx i ∈ order) →
      is.Pairwise (fun i j => Commute exec i j ∨ tx i = tx j ∨ [tx i, tx j].Sublist order) →
      ∀ s, replay exec s (regroup tx order is) = replay exec s is := by
  induction order with
  | nil =>
      intro is hcover _ s
      cases is with
      | nil => rfl
      | cons i is => cases hcover i List.mem_cons_self
  | cons t order ih =>
      intro is hcover hpairs s
      obtain ⟨ht, hnodup'⟩ := List.nodup_cons.mp hnodup
      -- what follows an operation of another transaction cannot be of the first one
      have hfirst : is.Pairwise fun i j =>
          decide (tx i = t) = false → decide (tx j = t) = true → Commute exec i j := by
        refine hpairs.imp fun {i j} h hi hj => ?_
        rw [decide_eq_false_iff_not] at hi
        rw [decide_eq_true_eq] at hj
        rcases h with hcomm | heq | hsub
        · exact hcomm
        · exact absurd (heq.trans hj) hi
        · cases hsub with
          | cons _ hsub' => exact absurd (hj ▸ hsub'.subset (by simp)) ht
          | cons_cons => exact absurd rfl hi
      have hrest : ∀ i ∈ is.filter fun i => !decide (tx i = t), tx i ∈ order :=
        mem_order_of_filter hcover
      have hpairs' : (is.filter fun i => !decide (tx i = t)).Pairwise fun i j =>
          Commute exec i j ∨ tx i = tx j ∨ [tx i, tx j].Sublist order := by
        refine (List.Pairwise.and_mem.mp (hpairs.filter _)).imp fun {i j} h => ?_
        obtain ⟨hi, _, hcomm | heq | hsub⟩ := h
        · exact Or.inl hcomm
        · exact Or.inr (Or.inl heq)
        · cases hsub with
          | cons _ hsub' => exact Or.inr (Or.inr hsub')
          | cons_cons => simp at hi
      rw [regroup_cons ht, replay_append]
      calc ((replay exec s (is.filter fun i => decide (tx i = t))).bind fun s' =>
            replay exec s' (regroup tx order (is.filter fun i => !decide (tx i = t))))
          = (replay exec s (is.filter fun i => decide (tx i = t))).bind fun s' =>
              replay exec s' (is.filter fun i => !decide (tx i = t)) :=
            congrArg _ (funext fun s' => ih hnodup' hrest hpairs' s')
        _ = replay exec s is := by rw [← replay_append, replay_filter hfirst]

/-- Regrouping only changes the order, if every transaction has its place. -/
theorem regroup_perm {order : List τ} (hnodup : order.Nodup) :
    ∀ {is : List ι}, (∀ i ∈ is, tx i ∈ order) → (regroup tx order is).Perm is := by
  induction order with
  | nil =>
      intro is hcover
      cases is with
      | nil => exact .refl _
      | cons i is => cases hcover i List.mem_cons_self
  | cons t order ih =>
      intro is hcover
      obtain ⟨ht, hnodup'⟩ := List.nodup_cons.mp hnodup
      have hrest : ∀ i ∈ is.filter fun i => !decide (tx i = t), tx i ∈ order :=
        mem_order_of_filter hcover
      rw [regroup_cons ht]
      exact ((ih hnodup' hrest).append_left _).trans (List.filter_append_perm _ is)

/-! ## Histories -/

/-- An entry of a history: an operation, or the end of a transaction. -/
inductive Entry (τ ι : Type*) where
  | op (i : ι)
  | done (t : τ)

/-- The operations of a history. -/
def ops : List (Entry τ ι) → List ι
  | [] => []
  | .op i :: h => i :: ops h
  | .done _ :: h => ops h

/-- The transactions that a history ends, in order. -/
def dones : List (Entry τ ι) → List τ
  | [] => []
  | .op _ :: h => dones h
  | .done t :: h => t :: dones h

omit [DecidableEq τ] in
@[simp] theorem ops_append (h h' : List (Entry τ ι)) : ops (h ++ h') = ops h ++ ops h' := by
  induction h with
  | nil => rfl
  | cons e h ih =>
      cases e with
      | op i => exact congrArg (i :: ·) ih
      | done t => exact ih

omit [DecidableEq τ] in
@[simp] theorem dones_append (h h' : List (Entry τ ι)) :
    dones (h ++ h') = dones h ++ dones h' := by
  induction h with
  | nil => rfl
  | cons e h ih =>
      cases e with
      | op i => exact ih
      | done t => exact congrArg (t :: ·) ih

omit [DecidableEq τ] in
@[simp] theorem ops_map_done (ts : List τ) : ops (ts.map (Entry.done (ι := ι))) = [] := by
  induction ts with
  | nil => rfl
  | cons t ts ih => exact ih

omit [DecidableEq τ] in
@[simp] theorem dones_map_done (ts : List τ) : dones (ts.map (Entry.done (ι := ι))) = ts := by
  induction ts with
  | nil => rfl
  | cons t ts ih => exact congrArg (t :: ·) ih

/-- The operation comes before its transaction is done, and after every other
transaction with a conflicting operation is done. -/
def Admissible (tx : ι → τ) (conflict : ι → ι → Prop) (h : List (Entry τ ι)) (i : ι) : Prop :=
  tx i ∉ dones h ∧ ∀ j ∈ ops h, tx j ≠ tx i → conflict j i → tx j ∈ dones h

/-- Every operation of the history was admissible when it came. -/
def Rigorous (tx : ι → τ) (conflict : ι → ι → Prop) (h : List (Entry τ ι)) : Prop :=
  Arrivals.Each (fun before e => ∀ i, e = .op i → Admissible tx conflict before i) h

variable {conflict : ι → ι → Prop}

omit [DecidableEq τ] in
theorem rigorous_nil : Rigorous tx conflict ([] : List (Entry τ ι)) := Arrivals.each_nil

omit [DecidableEq τ] in
theorem Rigorous.op {h : List (Entry τ ι)} {i : ι} (hr : Rigorous tx conflict h)
    (hi : Admissible tx conflict h i) : Rigorous tx conflict (h ++ [.op i]) := by
  refine Arrivals.each_concat.mpr ⟨hr, fun j heq => ?_⟩
  cases heq
  exact hi

omit [DecidableEq τ] in
theorem Rigorous.dones {h : List (Entry τ ι)} {ts : List τ} (hr : Rigorous tx conflict h) :
    Rigorous tx conflict (h ++ ts.map .done) := by
  refine (Arrivals.each_append_of fun e he before i heq => ?_).mpr hr
  obtain ⟨t, _, rfl⟩ := List.mem_map.mp he
  cases heq

omit [DecidableEq τ] in
/-- Conflicting operations have their transactions in the order of the ends. -/
theorem Rigorous.pairwise {rest : List τ} {h : List (Entry τ ι)} (hr : Rigorous tx conflict h)
    (hcover : ∀ i ∈ ops h, tx i ∈ Schedule.dones h ++ rest) :
    ∀ {before later : List (Entry τ ι)}, h = before ++ later → (ops before).Pairwise fun i j =>
      conflict i j → tx i ≠ tx j → [tx i, tx j].Sublist (Schedule.dones h ++ rest) := by
  intro before
  induction before using List.reverseRecOn with
  | nil => exact fun _ => .nil
  | append_singleton before e ih =>
      intro later heq
      have heq' : h = before ++ e :: later := by rw [heq, List.append_assoc]; rfl
      cases e with
      | done t =>
          rw [ops_append]
          simpa [ops] using ih heq'
      | op j =>
          obtain ⟨hactive, hearlier⟩ := hr before _ later heq' j rfl
          have hj : tx j ∈ Schedule.dones (.op j :: later) ++ rest := by
            have hmem := hcover j (by rw [heq', ops_append]; simp [ops])
            rw [heq', dones_append, List.append_assoc] at hmem
            exact (List.mem_append.mp hmem).resolve_left hactive
          rw [ops_append]
          refine List.pairwise_append.mpr ⟨ih heq', List.pairwise_singleton _ _, ?_⟩
          intro i hi j' hj' hconf hne
          obtain rfl := List.mem_singleton.mp hj'
          have hi' := hearlier i hi hne hconf
          rw [heq', dones_append, List.append_assoc]
          exact (List.singleton_sublist.mpr hi').append (List.singleton_sublist.mpr hj)

/-- A rigorous history replays serially, in the order in which the transactions
are done. -/
theorem Rigorous.serial {rest : List τ} {h : List (Entry τ ι)} (hr : Rigorous tx conflict h)
    (hcommute : ∀ i j, ¬ conflict i j → Commute exec i j)
    (hnodup : (Schedule.dones h ++ rest).Nodup)
    (hcover : ∀ i ∈ ops h, tx i ∈ Schedule.dones h ++ rest) (s : σ) :
    replay exec s (regroup tx (Schedule.dones h ++ rest) (ops h)) = replay exec s (ops h) := by
  refine replay_regroup hnodup hcover ?_ s
  refine (hr.pairwise hcover (List.append_nil h).symm).imp fun {i j} hpair => ?_
  by_cases hconf : conflict i j
  · by_cases heq : tx i = tx j
    · exact Or.inr (Or.inl heq)
    · exact Or.inr (Or.inr (hpair hconf heq))
  · exact Or.inl (hcommute i j hconf)

end Schedule
