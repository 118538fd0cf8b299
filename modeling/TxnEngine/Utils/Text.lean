import TxnEngine.Library.LineLog

/-!
# Text

What the standard library does with text: the exceptions of its conversions, and
`std::getline` with a delimiter, applied until it fails.  A delimiter at the very
end of the text is not followed by an empty piece.
-/

namespace TxnEngine

open LineLog

/-- The exceptions of `std::stoi`, `std::stoll` and `std::stoul`. -/
inductive ConversionError where
  | invalidArgument
  | outOfRange
deriving DecidableEq, Repr

/-- The pieces that `std::getline` with a delimiter gives, one after the other. -/
def getlines (delimiter : Char) : List Char → List (List Char)
  | [] => []
  | c :: cs =>
      if c = delimiter then [] :: getlines delimiter cs
      else
        match getlines delimiter cs with
        | [] => [[c]]
        | segment :: segments => (c :: segment) :: segments

variable {d : Char}

theorem getlines_ne_nil {s : List Char} (h : s ≠ []) : getlines d s ≠ [] := by
  cases s with
  | nil => exact absurd rfl h
  | cons c cs =>
      rw [getlines]
      split
      · exact List.cons_ne_nil _ _
      · split
        · exact List.cons_ne_nil _ _
        · exact List.cons_ne_nil _ _

theorem not_mem_of_mem_getlines {s piece : List Char} (h : piece ∈ getlines d s) : d ∉ piece := by
  induction s generalizing piece with
  | nil => cases h
  | cons c cs ih =>
      rw [getlines] at h
      split at h
      · rcases List.mem_cons.mp h with rfl | h
        · exact List.not_mem_nil
        · exact ih h
      · next hc =>
          split at h
          · rw [List.mem_singleton.mp h, List.mem_singleton]
            exact fun heq => hc heq.symm
          · next hlines =>
              rcases List.mem_cons.mp h with rfl | h
              · rw [List.mem_cons, not_or]
                exact ⟨fun heq => hc heq.symm, ih (hlines ▸ List.mem_cons_self)⟩
              · exact ih (hlines ▸ List.mem_cons_of_mem _ h)

/-- A piece up to a delimiter. -/
theorem getlines_append_cons {line : List Char} (h : d ∉ line) (rest : List Char) :
    getlines d (line ++ d :: rest) = line :: getlines d rest := by
  induction line with
  | nil => rw [List.nil_append, getlines, if_pos rfl]
  | cons c line ih =>
      rw [List.mem_cons, not_or] at h
      rw [List.cons_append, getlines, if_neg (fun heq => h.1 heq.symm), ih h.2]

/-- The piece at the end of the text. -/
theorem getlines_of_not_mem {line : List Char} (h : d ∉ line) (hne : line ≠ []) :
    getlines d line = [line] := by
  induction line with
  | nil => exact absurd rfl hne
  | cons c line ih =>
      rw [List.mem_cons, not_or] at h
      rw [getlines, if_neg (fun heq => h.1 heq.symm)]
      cases line with
      | nil => rfl
      | cons c' line => rw [ih h.2 (List.cons_ne_nil _ _)]

/-- What follows a delimiter is cut on its own. -/
theorem getlines_closed {s : List Char} (h : Closed d s) (rest : List Char) :
    getlines d (s ++ rest) = getlines d s ++ getlines d rest := by
  induction s with
  | nil => rfl
  | cons c cs ih =>
      rw [List.cons_append, getlines, getlines]
      by_cases hc : c = d
      · rw [if_pos hc, if_pos hc]
        by_cases hne : cs = []
        · rw [hne]
          rfl
        · rw [ih (h.of_cons hne), List.cons_append]
      · have hne : cs ≠ [] := by
          intro hnil
          rw [hnil] at h
          exact hc (h c rfl)
        rw [if_neg hc, if_neg hc, ih (h.of_cons hne)]
        cases hlines : getlines d cs with
        | nil => exact absurd hlines (getlines_ne_nil hne)
        | cons segment segments => rfl

/-- The lines of a log are the texts of its records. -/
theorem getlines_text_of_mem {ρ : Type*} {f : ρ → List Char} (rest : List Char) (rs : List ρ)
    (hd : ∀ r ∈ rs, d ∉ f r) : getlines d (text d f rs ++ rest) = rs.map f ++ getlines d rest := by
  induction rs with
  | nil => rfl
  | cons r rs ih =>
      rw [List.forall_mem_cons] at hd
      rw [text_cons, List.append_assoc, List.cons_append, getlines_append_cons hd.1, ih hd.2,
        List.map_cons, List.cons_append]

theorem getlines_text {ρ : Type*} {f : ρ → List Char} (hd : ∀ r, d ∉ f r) (rest : List Char)
    (rs : List ρ) : getlines d (text d f rs ++ rest) = rs.map f ++ getlines d rest :=
  getlines_text_of_mem rest rs fun r _ => hd r

end TxnEngine
