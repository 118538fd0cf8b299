import Mathlib.Data.List.Basic

/-!
# Words of a text

Texts over any alphabet, read word by word.  A word is a longest run of symbols
that are not white space.  `next` takes the next word off a text, and `words`
takes them all.

`Spells` relates a list of words to the texts that have these words, with white
space around and between them.  Every text spells its words and no others
(`spells_iff`).
-/

namespace Words

variable {α : Type*} (space : α → Bool)

/-- The next word, empty if there is none, and what follows it. -/
def next (text : List α) : List α × List α :=
  let text := text.dropWhile space
  (text.takeWhile fun c => !space c, text.dropWhile fun c => !space c)

/-- The words of a text. -/
def words : List α → List (List α)
  | [] => []
  | c :: text =>
      if space c then words text
      else if text.head?.all space then [c] :: words text
      else
        match words text with
        | [] => [[c]]
        | word :: rest => (c :: word) :: rest

structure IsWord (word : List α) : Prop where
  ne_nil : word ≠ []
  solid : ∀ c ∈ word, space c = false

/-- The text has these words. -/
inductive Spells : List (List α) → List α → Prop where
  | nil {gap : List α} (blank : ∀ c ∈ gap, space c = true) : Spells [] gap
  | cons {gap word text : List α} {rest : List (List α)} (blank : ∀ c ∈ gap, space c = true)
      (solid : IsWord space word) (apart : ∀ c ∈ text.head?, space c = true)
      (spells : Spells rest text) : Spells (word :: rest) (gap ++ (word ++ text))

variable {space} {word text : List α} {ws rest : List (List α)} {c : α}

/-! ## Every text spells its words -/

/-- A text may start with a word. -/
theorem Spells.start (h : Spells space rest text) (solid : IsWord space word)
    (apart : ∀ c ∈ text.head?, space c = true) : Spells space (word :: rest) (word ++ text) := by
  rw [← List.nil_append (word ++ text)]
  exact .cons (List.forall_mem_nil _) solid apart h

theorem Spells.blank_cons (h : Spells space ws text) (hc : space c = true) :
    Spells space ws (c :: text) := by
  cases h with
  | nil blank => exact .nil (List.forall_mem_cons.mpr ⟨hc, blank⟩)
  | cons blank solid apart spells =>
      rw [← List.cons_append]
      exact .cons (List.forall_mem_cons.mpr ⟨hc, blank⟩) solid apart spells

/-- A symbol in front of a word joins it. -/
theorem Spells.extend {c' : α} (h : Spells space ws (c' :: text)) (hc : space c = false)
    (hc' : space c' = false) :
    ∃ word rest, ws = word :: rest ∧ Spells space ((c :: word) :: rest) (c :: c' :: text) := by
  generalize htext : c' :: text = whole at h
  cases h with
  | nil blank =>
      have hspace := blank c' (htext ▸ List.mem_cons_self)
      rw [hc'] at hspace
      cases hspace
  | @cons gap word tail rest blank solid apart spells =>
      cases gap with
      | cons d gap =>
          obtain ⟨rfl, _⟩ := List.cons.inj htext
          have hspace := blank c' List.mem_cons_self
          rw [hc'] at hspace
          cases hspace
      | nil =>
          refine ⟨word, rest, rfl, ?_⟩
          have hsolid : IsWord space (c :: word) :=
            ⟨List.cons_ne_nil _ _, List.forall_mem_cons.mpr ⟨hc, solid.solid⟩⟩
          exact spells.start hsolid apart

theorem spells_words : ∀ text : List α, Spells space (words space text) text
  | [] => .nil (List.forall_mem_nil _)
  | c :: text => by
      have ih := spells_words text
      rw [words]
      by_cases hc : space c = true
      · rw [if_pos hc]
        exact ih.blank_cons hc
      · rw [if_neg hc]
        rw [Bool.not_eq_true] at hc
        have hsolid : IsWord space [c] := ⟨List.cons_ne_nil _ _, by simpa using hc⟩
        cases text with
        | nil =>
            have hall : ([] : List α).head?.all space = true := rfl
            rw [if_pos hall]
            exact ih.start hsolid (by simp)
        | cons c' text =>
            by_cases hc' : space c' = true
            · rw [if_pos (by simpa using hc')]
              exact ih.start hsolid (by simpa using hc')
            · rw [if_neg (by simpa using hc')]
              rw [Bool.not_eq_true] at hc'
              obtain ⟨word, rest, hwords, hspells⟩ := ih.extend hc hc'
              rw [hwords]
              exact hspells

/-! ## And no others -/

theorem words_blank_append {gap : List α} (blank : ∀ c ∈ gap, space c = true) (text : List α) :
    words space (gap ++ text) = words space text := by
  induction gap with
  | nil => rfl
  | cons c gap ih =>
      rw [List.forall_mem_cons] at blank
      rw [List.cons_append, words, if_pos blank.1, ih blank.2]

theorem words_word_append (apart : ∀ c ∈ text.head?, space c = true) :
    ∀ {word : List α}, word ≠ [] → (∀ c ∈ word, space c = false) →
      words space (word ++ text) = word :: words space text
  | [], hne, _ => absurd rfl hne
  | [c], _, solid => by
      have hc := solid c List.mem_cons_self
      have hall : text.head?.all space = true := by
        cases hhead : text.head? with
        | none => rfl
        | some d => exact apart d hhead
      rw [List.cons_append, List.nil_append, words, if_neg (by simp [hc]), if_pos hall]
  | c :: d :: word, _, solid => by
      rw [List.forall_mem_cons] at solid
      have hd := solid.2 d List.mem_cons_self
      have ih := words_word_append apart (List.cons_ne_nil d word) solid.2
      rw [List.cons_append, words, if_neg (by simp [solid.1]), if_neg (by simp [hd]), ih]

theorem words_of_spells (h : Spells space ws text) : words space text = ws := by
  induction h with
  | nil blank =>
      have hblank := words_blank_append blank []
      rwa [List.append_nil] at hblank
  | cons blank solid apart _ ih =>
      rw [words_blank_append blank, words_word_append apart solid.ne_nil solid.solid, ih]

/-- A text spells its words and no others. -/
theorem spells_iff : Spells space ws text ↔ words space text = ws :=
  ⟨words_of_spells, fun h => h ▸ spells_words text⟩

theorem Spells.isWord (h : Spells space ws text) (hmem : word ∈ ws) : IsWord space word := by
  induction h with
  | nil => cases hmem
  | cons _ solid _ _ ih =>
      rcases List.mem_cons.mp hmem with rfl | hmem
      · exact solid
      · exact ih hmem

theorem isWord_of_mem_words (h : word ∈ words space text) : IsWord space word :=
  (spells_words text).isWord h

/-! ## Word by word -/

theorem takeWhile_solid (solid : ∀ c ∈ word, space c = false)
    (apart : ∀ c ∈ text.head?, space c = true) :
    (word ++ text).takeWhile (fun c => !space c) = word ∧
      (word ++ text).dropWhile (fun c => !space c) = text := by
  have hsolid : ∀ c ∈ word, (!space c) = true := fun c hc => by simp [solid c hc]
  rw [List.takeWhile_append_of_pos hsolid, List.dropWhile_append_of_pos hsolid]
  cases text with
  | nil => simp
  | cons c text =>
      have hc := apart c rfl
      simp [hc]

/-- A text without words has no next one. -/
theorem next_of_spells_nil (h : Spells space [] text) : next space text = ([], []) := by
  cases h with
  | nil blank =>
      rw [next, ← List.append_nil text, List.dropWhile_append_of_pos blank]
      rfl

/-- The next word is the first, and what follows it spells the others. -/
theorem next_of_spells_cons (h : Spells space (word :: rest) text) :
    ∃ text', next space text = (word, text') ∧ Spells space rest text' := by
  cases h with
  | @cons gap _ tail _ blank solid apart spells =>
      refine ⟨tail, ?_, spells⟩
      obtain ⟨c, word', hword⟩ := List.exists_cons_of_ne_nil solid.ne_nil
      have hc : space c = false := solid.solid c (hword ▸ List.mem_cons_self)
      have hdrop : (gap ++ (word ++ tail)).dropWhile space = word ++ tail := by
        rw [List.dropWhile_append_of_pos blank, hword, List.cons_append,
          List.dropWhile_cons_of_neg (by simp [hc])]
      obtain ⟨htake, hrest⟩ := takeWhile_solid solid.solid apart
      rw [next, hdrop, htake, hrest]

theorem next_word (text : List α) : (next space text).1 = (words space text).headD [] := by
  have h : Spells space (words space text) text := spells_words text
  cases hwords : words space text with
  | nil =>
      rw [hwords] at h
      rw [next_of_spells_nil h]
      rfl
  | cons word rest =>
      rw [hwords] at h
      obtain ⟨text', hnext, _⟩ := next_of_spells_cons h
      rw [hnext]
      rfl

theorem words_next (text : List α) :
    words space (next space text).2 = (words space text).tail := by
  have h : Spells space (words space text) text := spells_words text
  cases hwords : words space text with
  | nil =>
      rw [hwords] at h
      rw [next_of_spells_nil h]
      rfl
  | cons word rest =>
      rw [hwords] at h
      obtain ⟨text', hnext, hrest⟩ := next_of_spells_cons h
      rw [hnext]
      exact words_of_spells hrest

/-! ## Words with a separator -/

/-- Words with a symbol of white space after each of them. -/
theorem spells_text {sep : α} (hsep : space sep = true) :
    ∀ {ws : List (List α)}, (∀ word ∈ ws, IsWord space word) →
      Spells space ws (ws.flatMap fun word => word ++ [sep])
  | [], _ => .nil (List.forall_mem_nil _)
  | word :: rest, hwords => by
      rw [List.forall_mem_cons] at hwords
      have ih := (spells_text hsep hwords.2).blank_cons hsep
      rw [List.flatMap_cons, List.append_assoc]
      exact ih.start hwords.1 (by simpa using hsep)

end Words
