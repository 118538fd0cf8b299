import Mathlib.Data.List.DropRight

/-!
# Logs of lines

A log whose text is the text of its records, each followed by a terminator that
occurs in none of them.  A log cut short anywhere is some whole lines and a
piece of the next one (`take_text`).
-/

namespace LineLog

variable {α ρ : Type*}

/-- The text of a log. -/
def text (d : α) (f : ρ → List α) (rs : List ρ) : List α := rs.flatMap fun r => f r ++ [d]

/-- The text is empty or ends with the terminator. -/
def Closed (d : α) (s : List α) : Prop := ∀ c ∈ s.getLast?, c = d

/-- What follows the last terminator. -/
def lastLine [DecidableEq α] (d : α) (s : List α) : List α := s.rtakeWhile fun c => c ≠ d

/-- The records whose text lies within the first `n` symbols. -/
def whollyWithin (f : ρ → List α) : Nat → List ρ → List ρ
  | _, [] => []
  | n, r :: rs =>
      if (f r).length ≤ n then r :: whollyWithin f (n - ((f r).length + 1)) rs else []

variable {d : α} {f : ρ → List α}

@[simp] theorem text_nil : text d f [] = [] := rfl

@[simp] theorem text_cons (r : ρ) (rs : List ρ) : text d f (r :: rs) = f r ++ d :: text d f rs := by
  simp [text]

@[simp] theorem text_append (rs rs' : List ρ) :
    text d f (rs ++ rs') = text d f rs ++ text d f rs' := by
  simp [text]

/-! ## Closed texts -/

@[simp] theorem closed_nil : Closed d [] := nofun

theorem Closed.of_cons {c : α} {s : List α} (h : Closed d (c :: s)) (hne : s ≠ []) :
    Closed d s := by
  intro x hx
  apply h x
  rwa [List.getLast?_cons, List.getLast?_eq_some_getLast hne, Option.getD_some,
    ← List.getLast?_eq_some_getLast hne]

theorem Closed.append {s t : List α} (hs : Closed d s) (ht : Closed d t) : Closed d (s ++ t) := by
  intro c hc
  rw [List.getLast?_append] at hc
  cases htail : t.getLast? with
  | none =>
      rw [htail] at hc
      exact hs c hc
  | some x =>
      rw [htail] at hc
      exact ht c (htail ▸ hc)

theorem closed_concat (s : List α) : Closed d (s ++ [d]) := by
  intro c hc
  rw [List.getLast?_concat] at hc
  exact (Option.some.inj hc).symm

theorem closed_text (rs : List ρ) : Closed d (text d f rs) := by
  induction rs with
  | nil => exact closed_nil
  | cons r rs ih =>
      have hcons : text d f (r :: rs) = (f r ++ [d]) ++ text d f rs := by simp
      rw [hcons]
      exact (closed_concat (f r)).append ih

section LastLine

variable [DecidableEq α]

/-- The last line of a closed text is empty. -/
theorem Closed.lastLine_eq {s : List α} (hs : Closed d s) : lastLine d s = [] := by
  rw [lastLine, List.rtakeWhile_eq_nil_iff]
  intro hne
  have hlast := hs (s.getLast hne) (List.getLast?_eq_some_getLast hne)
  simp [hlast]

/-- A piece without a terminator after a closed text is its last line. -/
theorem lastLine_append {s torn : List α} (hs : Closed d s) (h : d ∉ torn) :
    lastLine d (s ++ torn) = torn := by
  induction torn using List.reverseRecOn with
  | nil => rw [List.append_nil, hs.lastLine_eq]
  | append_singleton torn c ih =>
      have hc : d ∉ torn ∧ c ≠ d := by
        rw [List.mem_append, List.mem_singleton] at h
        exact ⟨fun hmem => h (.inl hmem), fun heq => h (.inr heq.symm)⟩
      rw [lastLine] at ih ⊢
      rw [← List.append_assoc, List.rtakeWhile_concat_pos _ _ _ (by simp [hc.2]), ih hc.1]

end LastLine

/-! ## Cut logs -/

theorem not_mem_of_isPrefix {a t : List α} (h : t <+: a) (hd : d ∉ a) : d ∉ t :=
  fun hmem => hd (h.subset hmem)

/-- A piece of two texts with a separator between them. -/
theorem prefix_append_cons {a b t : List α} (h : t <+: a ++ d :: b) :
    t <+: a ∨ ∃ u, t = a ++ d :: u ∧ u <+: b := by
  obtain ⟨rest, hrest⟩ := h
  rcases List.append_eq_append_iff.mp hrest with ⟨a', ha, -⟩ | ⟨u, rfl, hu⟩
  · exact .inl ⟨a', ha.symm⟩
  · cases u with
    | nil =>
        rw [List.append_nil]
        exact .inl List.prefix_rfl
    | cons c u =>
        rw [List.cons_append, List.cons.injEq] at hu
        exact .inr ⟨u, by rw [hu.1], rest, hu.2.symm⟩

theorem whollyWithin_zero (hne : ∀ r, f r ≠ []) (rs : List ρ) : whollyWithin f 0 rs = [] := by
  cases rs with
  | nil => rfl
  | cons r rs =>
      have hpos := List.length_pos_of_ne_nil (hne r)
      rw [whollyWithin, if_neg (by omega)]

/-- A log cut short is some whole lines and a piece of the next.  The records
wholly within it are those lines, and the next record if the piece lacks only the
terminator. -/
theorem take_text [DecidableEq α] (hne : ∀ r, f r ≠ []) (rs : List ρ) (n : Nat) :
    ∃ done torn rest, rs = done ++ rest ∧ (text d f rs).take n = text d f done ++ torn ∧
      (torn = [] ∧ whollyWithin f n rs = done ∨
        ∃ r ∈ rest, torn ≠ [] ∧ torn <+: f r ∧
          whollyWithin f n rs = done ++ if torn = f r then [r] else []) := by
  induction rs generalizing n with
  | nil => exact ⟨[], [], [], rfl, by simp, .inl ⟨rfl, rfl⟩⟩
  | cons r rs ih =>
      by_cases hn : (f r).length < n
      · obtain ⟨done, torn, rest, hrs, htake, hwithin⟩ := ih (n - ((f r).length + 1))
        have hunfold : whollyWithin f n (r :: rs)
            = r :: whollyWithin f (n - ((f r).length + 1)) rs := by
          rw [whollyWithin, if_pos (by omega)]
        refine ⟨r :: done, torn, rest, by rw [hrs, List.cons_append], ?_, ?_⟩
        · have hsplit : n - (f r).length = (n - ((f r).length + 1)) + 1 := by omega
          rw [text_cons, List.take_append, List.take_of_length_le (by omega), hsplit,
            List.take_succ_cons, htake, text_cons, List.append_assoc, List.cons_append]
        · rcases hwithin with ⟨rfl, hdone⟩ | ⟨r', hr', htorn, hstart, hdone⟩
          · exact .inl ⟨rfl, by rw [hunfold, hdone]⟩
          · exact .inr ⟨r', hr', htorn, hstart, by rw [hunfold, hdone, List.cons_append]⟩
      · have htake : (text d f (r :: rs)).take n = (f r).take n := by
          rw [text_cons, List.take_append_of_le_length (by omega)]
        refine ⟨[], (f r).take n, r :: rs, rfl, htake, ?_⟩
        cases n with
        | zero => exact .inl ⟨rfl, whollyWithin_zero hne (r :: rs)⟩
        | succ n =>
            have hpiece : (f r).take (n + 1) ≠ [] := by simp [hne r]
            refine .inr ⟨r, List.mem_cons_self, hpiece, List.take_prefix _ _, ?_⟩
            rw [whollyWithin, List.nil_append]
            by_cases hwhole : (f r).length = n + 1
            · have htakeAll : (f r).take (n + 1) = f r := List.take_of_length_le (by omega)
              rw [if_pos (by omega), if_pos htakeAll, hwhole,
                show n + 1 - (n + 1 + 1) = 0 by omega, whollyWithin_zero hne rs]
            · have hshort : (f r).take (n + 1) ≠ f r := by
                intro heq
                have hlength := congrArg List.length heq
                rw [List.length_take] at hlength
                omega
              rw [if_neg (by omega), if_neg hshort]

end LineLog
