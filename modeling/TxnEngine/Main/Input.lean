import Mathlib.Data.List.TakeWhile
import TxnEngine.Library.Words
import TxnEngine.Main.Handlers

/-!
# Lines of input

`main` reads its input line by line and skips the lines that are empty.  It
takes a line apart with `>>`, which skips white space and takes the next word.
A word that is missing leaves the field of the command empty.  A number that is
missing or does not start like one leaves 0, and one out of range becomes the
nearest `int`.

`readCommand` follows the branches of the command loop, and `Entered` says which
commands can come out of it (`entered_iff`).  A line that has the words of such a
command is read as the command, whatever white space is between the words
(`readCommand_spelled`).
-/

namespace TxnEngine

open Decimal Words

/-- `>>` into an empty string. -/
def nextWord (text : List Char) : Name × List Char := next isSpace text

/-- `>>` into an `int` that holds 0. -/
def nextValue (text : List Char) : Int32 :=
  match readInt text with
  | none => 0
  | some n => Int32.ofInt (max (-2 ^ 31) (min n (2 ^ 31 - 1)))

def Op.ofWord (word : Name) : Op :=
  if word = ['H', 'E', 'L', 'P'] then .help
  else if word = ['E', 'X', 'I', 'T'] then .exit
  else if word = ['B', 'E', 'G', 'I', 'N'] then .begin
  else if word = ['R', 'E', 'A', 'D'] then .read
  else if word = ['W', 'R', 'I', 'T', 'E'] then .write
  else if word = ['C', 'O', 'M', 'M', 'I', 'T'] then .commit
  else if word = ['A', 'B', 'O', 'R', 'T'] then .abort
  else if word = ['S', 'H', 'O', 'W'] then .show
  else if word = ['S', 'T', 'A', 'T', 'U', 'S'] then .status
  else if word = ['C', 'H', 'E', 'C', 'K', 'P', 'O', 'I', 'N', 'T'] then .checkpoint
  else if word = ['R', 'E', 'C', 'O', 'V', 'E', 'R'] then .recover
  else .other word

/-- The fields that the branches of the command loop read from the rest of a line. -/
def readFields (op : Op) (rest : List Char) : Command :=
  match op with
  | .begin => { op := .begin, txnLabel := (nextWord rest).1 }
  | .read =>
      match nextWord rest with
      | (txnLabel, rest) =>
          { op := .read, txnLabel := txnLabel, resourceName := (nextWord rest).1 }
  | .write =>
      match nextWord rest with
      | (txnLabel, rest) =>
          match nextWord rest with
          | (resourceName, rest) =>
              { op := .write, txnLabel := txnLabel, resourceName := resourceName,
                value := nextValue rest }
  | .commit => { op := .commit, txnLabel := (nextWord rest).1 }
  | .abort => { op := .abort, txnLabel := (nextWord rest).1 }
  | .show => { op := .show, resourceName := (nextWord rest).1 }
  | op => { op := op }

/-- The command of a line. -/
def readCommand (line : List Char) : Command :=
  match nextWord line with
  | (word, rest) => readFields (Op.ofWord word) rest

/-- The commands of a text, read with `std::getline`. -/
def readCommands (text : List Char) : List Command :=
  ((getlines '\n' text).filter fun line => !line.isEmpty).map readCommand

namespace Main

/-- The state once the whole input was read. -/
def program (env : Environment) (text : List Char) : Main := after env (readCommands text)

end Main

/-! ## The words of a command -/

def Op.word : Op → Name
  | .help => ['H', 'E', 'L', 'P']
  | .exit => ['E', 'X', 'I', 'T']
  | .begin => ['B', 'E', 'G', 'I', 'N']
  | .read => ['R', 'E', 'A', 'D']
  | .write => ['W', 'R', 'I', 'T', 'E']
  | .commit => ['C', 'O', 'M', 'M', 'I', 'T']
  | .abort => ['A', 'B', 'O', 'R', 'T']
  | .show => ['S', 'H', 'O', 'W']
  | .status => ['S', 'T', 'A', 'T', 'U', 'S']
  | .checkpoint => ['C', 'H', 'E', 'C', 'K', 'P', 'O', 'I', 'N', 'T']
  | .recover => ['R', 'E', 'C', 'O', 'V', 'E', 'R']
  | .other word => word

/-- The command takes a label. -/
def Op.takesLabel : Op → Bool
  | .begin | .read | .write | .commit | .abort => true
  | _ => false

/-- The command takes a key. -/
def Op.takesName : Op → Bool
  | .read | .write | .show => true
  | _ => false

/-- The command takes a value. -/
def Op.takesValue : Op → Bool
  | .write => true
  | _ => false

/-- A command that a line can give: every field is one that the command takes, is a
word, and comes after fields that are there. -/
structure Entered (c : Command) : Prop where
  op : Op.ofWord c.op.word = c.op
  word : c.op.word ≠ [] → IsWord isSpace c.op.word
  label : c.txnLabel ≠ [] → c.op.takesLabel = true ∧ IsWord isSpace c.txnLabel
  name : c.resourceName ≠ [] → c.op.takesName = true ∧ IsWord isSpace c.resourceName ∧
    (c.op.takesLabel = true → c.txnLabel ≠ [])
  value : c.value ≠ 0 → c.op.takesValue = true ∧ c.resourceName ≠ []

/-- The words of a command after the first one. -/
def Command.fieldWords (c : Command) : List Name :=
  [c.txnLabel, c.resourceName].filter (fun word => !word.isEmpty) ++
    if c.op.takesValue = true ∧ c.resourceName ≠ [] then [printInt c.value.toInt] else []

/-- The words of a command. -/
def Command.words (c : Command) : List Name :=
  if c.op.word = [] then [] else c.op.word :: c.fieldWords

/-- No field of the command is missing. -/
structure Command.Complete (c : Command) : Prop where
  word : c.op.word ≠ []
  label : c.op.takesLabel = true → c.txnLabel ≠ []
  name : c.op.takesName = true → c.resourceName ≠ []

/-- The command that the words after the first one give. -/
def Command.ofFields (op : Op) (fields : List Name) : Command where
  op := op
  txnLabel := if op.takesLabel then fields.headD [] else []
  resourceName :=
    if op.takesName then (if op.takesLabel then fields.tail else fields).headD [] else []
  value := if op.takesValue then nextValue (fields.tail.tail.headD []) else 0

/-- The command that a list of words gives. -/
def Command.ofWords (ws : List Name) : Command := .ofFields (Op.ofWord (ws.headD [])) ws.tail

/-! ## A line is read by its words -/

theorem nextWord_fst (text : List Char) : (nextWord text).1 = (words isSpace text).headD [] :=
  next_word text

theorem words_nextWord (text : List Char) :
    words isSpace (nextWord text).2 = (words isSpace text).tail :=
  words_next text

/-- Digits go on no further than the word. -/
theorem readNat_takeWhile (text : List Char) :
    readNat (text.takeWhile fun c => !isSpace c) = readNat text := by
  have htake : (text.takeWhile fun c => !isSpace c).takeWhile Char.isDigit =
      text.takeWhile Char.isDigit := by
    rw [List.takeWhile_takeWhile]
    congr 1
    funext c
    cases hc : c.isDigit with
    | false => rfl
    | true => simp [(isDigit_not_special hc).1]
  rw [readNat, htake, readNat]

/-- A number is read from the next word. -/
theorem readInt_nextWord (text : List Char) : readInt (nextWord text).1 = readInt text := by
  rw [nextWord, next]
  cases hrest : text.dropWhile isSpace with
  | nil => simp [readInt, hrest]
  | cons c rest =>
      have hc : isSpace c = false := by
        have hhead := List.head?_dropWhile_not isSpace text
        rw [hrest] at hhead
        exact hhead
      have htake : (c :: rest).takeWhile (fun c => !isSpace c) =
          c :: rest.takeWhile fun c => !isSpace c := by simp [hc]
      have hnat : readNat (c :: rest.takeWhile fun c => !isSpace c) = readNat (c :: rest) := by
        rw [← htake, readNat_takeWhile]
      dsimp only
      rw [htake, readInt, List.dropWhile_cons_of_neg (by simp [hc]), readInt, hrest]
      dsimp only
      rw [readNat_takeWhile, hnat]

theorem nextValue_nextWord (text : List Char) : nextValue (nextWord text).1 = nextValue text := by
  rw [nextValue, readInt_nextWord, nextValue]

theorem readFields_eq (op : Op) (rest : List Char) :
    readFields op rest = .ofFields op (words isSpace rest) := by
  have hlabel := nextWord_fst rest
  have hname : (nextWord (nextWord rest).2).1 = (words isSpace rest).tail.headD [] := by
    rw [nextWord_fst, words_nextWord]
  have hvalue : nextValue (nextWord (nextWord rest).2).2 =
      nextValue ((words isSpace rest).tail.tail.headD []) := by
    rw [← nextValue_nextWord, nextWord_fst, words_nextWord, words_nextWord]
  cases op with
  | begin | commit | abort | «show» =>
      rw [readFields, hlabel]
      rfl
  | read =>
      dsimp only [readFields]
      rw [hlabel, hname]
      rfl
  | write =>
      dsimp only [readFields]
      rw [hlabel, hname, hvalue]
      rfl
  | help | exit | status | checkpoint | recover | other word => rfl

/-- White space does not matter to a command. -/
theorem readCommand_eq (line : List Char) :
    readCommand line = .ofWords (words isSpace line) := by
  show readFields (Op.ofWord (nextWord line).1) (nextWord line).2 = _
  rw [readFields_eq, nextWord_fst, words_nextWord, Command.ofWords]

/-! ## The commands that lines give -/

theorem word_ofWord (word : Name) : (Op.ofWord word).word = word := by
  unfold Op.ofWord
  repeat' split
  all_goals first
    | rfl
    | exact Eq.symm (by assumption)

theorem Op.takesName_of_takesValue {op : Op} (h : op.takesValue = true) :
    op.takesName = true ∧ op.takesLabel = true := by
  cases op <;> simp [takesValue, takesName, takesLabel] at h ⊢

theorem nextValue_nil : nextValue [] = 0 := rfl

/-- The words after the first one fill the fields from the left. -/
theorem entered_ofFields {op : Op} {fields : List Name} (hop : Op.ofWord op.word = op)
    (hword : op.word ≠ [] → IsWord isSpace op.word)
    (hfields : ∀ word ∈ fields, IsWord isSpace word) : Entered (.ofFields op fields) where
  op := hop
  word := hword
  label := by
    intro hne
    rw [Command.ofFields] at hne ⊢
    cases htakes : op.takesLabel with
    | false => simp [htakes] at hne
    | true =>
        cases fields with
        | nil => simp at hne
        | cons label fields => exact ⟨rfl, by simpa using hfields label List.mem_cons_self⟩
  name := by
    intro hne
    rw [Command.ofFields] at hne ⊢
    cases hname : op.takesName with
    | false => simp [hname] at hne
    | true =>
        rw [hname] at hne
        refine ⟨rfl, ?_⟩
        cases htakes : op.takesLabel with
        | false =>
            cases fields with
            | nil => simp [htakes] at hne
            | cons name fields =>
                exact ⟨by simpa [htakes] using hfields name List.mem_cons_self, by simp⟩
        | true =>
            match fields with
            | [] => simp [htakes] at hne
            | [label] => simp [htakes] at hne
            | label :: name :: fields =>
                have hlabel := (hfields label List.mem_cons_self).ne_nil
                have hwords := hfields name (List.mem_cons_of_mem _ List.mem_cons_self)
                exact ⟨by simpa [htakes] using hwords, by simpa [htakes] using hlabel⟩
  value := by
    intro hne
    rw [Command.ofFields] at hne ⊢
    cases hvalue : op.takesValue with
    | false => simp [hvalue] at hne
    | true =>
        obtain ⟨hname, hlabel⟩ := Op.takesName_of_takesValue hvalue
        match fields with
        | [] => simp [hvalue, nextValue_nil] at hne
        | [label] => simp [hvalue, nextValue_nil] at hne
        | label :: name :: fields =>
            have hwords := hfields name (List.mem_cons_of_mem _ List.mem_cons_self)
            exact ⟨rfl, by simpa [hname, hlabel] using hwords.ne_nil⟩

/-- Every line gives a command that can be entered. -/
theorem entered_readCommand (line : List Char) : Entered (readCommand line) := by
  have hwords : ∀ word ∈ words isSpace line, IsWord isSpace word := fun word hmem =>
    isWord_of_mem_words hmem
  rw [readCommand_eq, Command.ofWords]
  refine entered_ofFields ?_ ?_ fun word hmem => hwords word (List.mem_of_mem_tail hmem)
  · rw [word_ofWord]
  · rw [word_ofWord]
    intro hne
    cases hline : words isSpace line with
    | nil => simp [hline] at hne
    | cons word rest => exact hwords word (hline ▸ List.mem_cons_self)

/-! ## The line of a command -/

/-- A printed value is read back. -/
theorem nextValue_printInt (value : Int32) : nextValue (printInt value.toInt) = value := by
  have hle := Int32.le_toInt value
  have hlt := Int32.toInt_lt value
  have hclamp : max (-2 ^ 31) (min value.toInt (2 ^ 31 - 1)) = value.toInt := by omega
  rw [nextValue, readInt_printInt_self]
  dsimp only
  rw [hclamp, Int32.ofInt_toInt]

/-- The fields of a command are found again, in front of further words if none is
missing. -/
theorem ofFields_fieldWords {c : Command} (h : Entered c) {extra : List Name}
    (hextra : extra = [] ∨ c.Complete) : .ofFields c.op (c.fieldWords ++ extra) = c := by
  obtain ⟨op, txnLabel, resourceName, value⟩ := c
  have hlabel := h.label
  have hname := h.name
  have hvalue := h.value
  have hcomplete : extra = [] ∨ (op.takesLabel = true → txnLabel ≠ []) ∧
      (op.takesName = true → resourceName ≠ []) :=
    hextra.imp_right fun h => ⟨h.label, h.name⟩
  have hnone : op.takesName = false → op.takesValue = false := by
    intro hn
    by_contra hv
    rw [Bool.not_eq_false] at hv
    rw [(Op.takesName_of_takesValue hv).1] at hn
    cases hn
  have hlabelled : op.takesLabel = false → op.takesValue = false := by
    intro hl
    by_contra hv
    rw [Bool.not_eq_false] at hv
    rw [(Op.takesName_of_takesValue hv).2] at hl
    cases hl
  dsimp only at hlabel hname hvalue ⊢
  rw [Command.ofFields, Command.fieldWords]
  by_cases hn : resourceName = []
  · have hv : value = 0 := by
      by_contra hne
      exact (hvalue hne).2 hn
    subst hn hv
    cases hcn : op.takesName with
    | true =>
        obtain rfl : extra = [] := hcomplete.resolve_right fun h => h.2 hcn rfl
        by_cases hl : txnLabel = []
        · simp [hl, nextValue_nil]
        · simp [hl, (hlabel hl).1, nextValue_nil]
    | false =>
        by_cases hl : txnLabel = []
        · subst hl
          cases hcl : op.takesLabel with
          | true =>
              obtain rfl : extra = [] := hcomplete.resolve_right fun h => h.1 hcl rfl
              simp [hnone hcn]
          | false => simp [hnone hcn]
        · simp [hl, (hlabel hl).1, hnone hcn]
  · obtain ⟨hcn, _, hbefore⟩ := hname hn
    cases hcl : op.takesLabel with
    | true =>
        have hl := hbefore hcl
        cases hcv : op.takesValue with
        | true => simp [hl, hn, hcn, nextValue_printInt]
        | false =>
            have hv : value = 0 := by
              by_contra hne
              rw [(hvalue hne).1] at hcv
              cases hcv
            simp [hl, hn, hcn, hv]
    | false =>
        have hl : txnLabel = [] := by
          by_contra hne
          rw [(hlabel hne).1] at hcl
          cases hcl
        have hv : value = 0 := by
          by_contra hne
          have htakes := (hvalue hne).1
          rw [hlabelled hcl] at htakes
          cases htakes
        simp [hl, hn, hcn, hv, hlabelled hcl]

theorem fieldWords_other {c : Command} (h : Entered c) {word : Name} (hop : c.op = .other word) :
    c.fieldWords = [] := by
  have hlabel : c.txnLabel = [] := by
    by_contra hne
    have htakes := (h.label hne).1
    rw [hop] at htakes
    cases htakes
  have hname : c.resourceName = [] := by
    by_contra hne
    have htakes := (h.name hne).1
    rw [hop] at htakes
    cases htakes
  simp [Command.fieldWords, hlabel, hname]

/-- The words of a command give the command.  Further words are skipped if no field is
missing. -/
theorem Entered.ofWords {c : Command} (h : Entered c) {extra : List Name}
    (hextra : extra = [] ∨ c.Complete) : Command.ofWords (c.words ++ extra) = c := by
  rw [Command.ofWords, Command.words]
  split
  · next hword =>
      obtain rfl : extra = [] := hextra.resolve_right fun h => h.word hword
      have hop : c.op = .other [] := by
        rw [← h.op, hword]
        rfl
      have hfields := ofFields_fieldWords h hextra
      rw [fieldWords_other h hop, hop] at hfields
      exact hfields
  · rw [List.cons_append, List.headD_cons, h.op, List.tail_cons, ofFields_fieldWords h hextra]

/-- A line with the words of a command gives the command, whatever white space is
between them.  Further words are skipped if no field is missing. -/
theorem readCommand_spelled {c : Command} (h : Entered c) {extra : List Name}
    (hextra : extra = [] ∨ c.Complete) {line : List Char}
    (hline : Spells isSpace (c.words ++ extra) line) : readCommand line = c := by
  rw [readCommand_eq, words_of_spells hline]
  exact h.ofWords hextra

/-- A WRITE between tabs, with a word too many and a carriage return. -/
theorem readCommand_spelled_write : readCommand
    ['\t', 'W', 'R', 'I', 'T', 'E', ' ', 'T', '\t', 'A', ' ', '-', '5', ' ', 'x', '\r'] =
      ⟨.write, ['T'], ['A'], -5⟩ := by
  have hentered : Entered ⟨.write, ['T'], ['A'], -5⟩ :=
    entered_readCommand ['W', 'R', 'I', 'T', 'E', ' ', 'T', ' ', 'A', ' ', '-', '5']
  have hcomplete : Command.Complete ⟨.write, ['T'], ['A'], -5⟩ :=
    ⟨by decide, fun _ => by decide, fun _ => by decide⟩
  have hextra : [['x']] = [] ∨ Command.Complete ⟨.write, ['T'], ['A'], -5⟩ := .inr hcomplete
  exact readCommand_spelled hentered hextra (spells_iff.mpr rfl)

theorem isWord_printInt (n : Int) : IsWord isSpace (printInt n) := by
  refine ⟨?_, fun c hc => ?_⟩
  · intro hnil
    have hread := readInt_printInt_self n
    rw [hnil] at hread
    cases hread
  · rcases mem_printInt hc with rfl | hdigit
    · rfl
    · exact (isDigit_not_special hdigit).1

theorem Entered.isWord {c : Command} (h : Entered c) : ∀ word ∈ c.words, IsWord isSpace word := by
  intro word hmem
  rw [Command.words] at hmem
  split at hmem
  · cases hmem
  · next hne =>
      rcases List.mem_cons.mp hmem with rfl | hmem
      · exact h.word hne
      · rcases List.mem_append.mp hmem with hmem | hmem
        · obtain ⟨hfield, hfull⟩ := List.mem_filter.mp hmem
          have hfull : word ≠ [] := by simpa using hfull
          rcases List.mem_cons.mp hfield with rfl | hfield
          · exact (h.label hfull).2
          · obtain rfl := List.mem_singleton.mp hfield
            exact (h.name hfull).2.1
        · split at hmem
          · rw [List.mem_singleton.mp hmem]
            exact isWord_printInt _
          · cases hmem

/-- A line for a command. -/
def Command.line (c : Command) : List Char := ' ' :: c.words.flatMap fun word => word ++ [' ']

theorem Entered.spells_line {c : Command} (h : Entered c) : Spells isSpace c.words c.line :=
  (spells_text rfl h.isWord).blank_cons rfl

theorem Entered.readCommand_line {c : Command} (h : Entered c) : readCommand c.line = c := by
  have hwords := h.ofWords (Or.inl rfl)
  rw [List.append_nil] at hwords
  rw [readCommand_eq, words_of_spells h.spells_line, hwords]

theorem Entered.newline_not_mem {c : Command} (h : Entered c) : '\n' ∉ c.line := by
  rw [Command.line, List.mem_cons, List.mem_flatMap]
  rintro (hspace | ⟨word, hmem, hchar⟩)
  · exact absurd hspace (by decide)
  · rcases List.mem_append.mp hchar with hchar | hchar
    · have hsolid := (h.isWord word hmem).solid '\n' hchar
      cases hsolid
    · exact absurd (List.mem_singleton.mp hchar) (by decide)

/-- The commands that lines can give. -/
theorem entered_iff {c : Command} :
    Entered c ↔ ∃ line, line ≠ [] ∧ '\n' ∉ line ∧ readCommand line = c := by
  constructor
  · exact fun h => ⟨c.line, List.cons_ne_nil _ _, h.newline_not_mem, h.readCommand_line⟩
  · rintro ⟨line, _, _, rfl⟩
    exact entered_readCommand line

theorem readCommands_cons {line : List Char} (hne : line ≠ []) (hline : '\n' ∉ line)
    (rest : List Char) :
    readCommands (line ++ '\n' :: rest) = readCommand line :: readCommands rest := by
  rw [readCommands, getlines_append_cons hline, List.filter_cons_of_pos (by simpa using hne),
    List.map_cons, readCommands]

/-- The lists of commands that a text can give. -/
theorem readCommands_iff {cmds : List Command} :
    (∃ text, readCommands text = cmds) ↔ ∀ c ∈ cmds, Entered c := by
  constructor
  · rintro ⟨text, rfl⟩ c hc
    obtain ⟨line, _, rfl⟩ := List.mem_map.mp hc
    exact entered_readCommand line
  · intro h
    induction cmds with
    | nil => exact ⟨[], rfl⟩
    | cons c cmds ih =>
        rw [List.forall_mem_cons] at h
        obtain ⟨text, htext⟩ := ih h.2
        have hne : c.line ≠ [] := List.cons_ne_nil _ _
        refine ⟨c.line ++ '\n' :: text, ?_⟩
        rw [readCommands_cons hne h.1.newline_not_mem, h.1.readCommand_line, htext]

end TxnEngine
