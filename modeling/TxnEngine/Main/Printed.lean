import TxnEngine.Main.Input
import TxnEngine.Main.Moves

/-!
# The printed text

`main` writes every line to `std::cout` and ends it with `'\n'`.  The labels and
keys in a line come from the input unescaped.  They are words, so a line splits
at its spaces into its pieces again, and the pieces tell which line it is.

`program_read_back` says that the text of every run can be read back: cut at the
line ends and read by `Output.ofLine`, it gives the lines that were printed.  No
label and no key makes a line look like another one.
-/

namespace TxnEngine

open Decimal Words Runs Std

namespace Output

/-! ## Pieces -/

/-- The pieces of the help text. -/
def helpPieces : List String :=
  ["Commands:", "BEGIN", "<TXN>,", "READ", "<TXN>", "<KEY>,", "WRITE", "<TXN>", "<KEY>", "<VAL>,",
    "COMMIT", "<TXN>,", "ABORT", "<TXN>,", "SHOW", "<KEY>,", "STATUS,", "CHECKPOINT,", "RECOVER,",
    "HELP,", "EXIT"]

/-- What a line has between its spaces. -/
def pieces : Output → List Name
  | .help => helpPieces.map String.toList
  | .waiting label name =>
      [label, "waiting".toList, "for".toList, "lock".toList, "on".toList, name]
  | .reads label name value => [label, "reads".toList, name, "=".toList, printInt value.toInt]
  | .writes label name value => [label, "writes".toList, name, "=".toList, printInt value.toInt]
  | .resumes label => [label, "resumes".toList]
  | .invalid op => ["Invalid".toList, op.toList, "command".toList]
  | .alreadyExists label => [label, "already".toList, "exists".toList]
  | .started label => [label, "started".toList]
  | .notFound label => [label, "not".toList, "found".toList]
  | .notActive label => [label, "is".toList, "not".toList, "active".toList]
  | .completed label .commit => [label, "committed".toList]
  | .completed label .abort => [label, "aborted".toList]
  | .shows name value => [name, "=".toList, printInt value.toInt]
  | .status active pending committed aborted =>
      ["active_transactions=".toList ++ Nat.toDigits 10 active,
        "pending_commands=".toList ++ Nat.toDigits 10 pending,
        "committed=".toList ++ Nat.toDigits 10 committed,
        "aborted=".toList ++ Nat.toDigits 10 aborted]
  | .checkpointWritten => ["checkpoint".toList, "written".toList]
  | .recovered redo undo =>
      ["recovery".toList, "complete:".toList, "redo=".toList ++ Nat.toDigits 10 redo,
        "undo=".toList ++ Nat.toDigits 10 undo]
  | .unknown op => ["Unknown".toList, "command:".toList, op.text.toList]

/-- The number after the first `=`. -/
def numberIn (piece : Name) : Nat := (readNat (piece.dropWhile fun c => c ≠ '=').tail).getD 0

/-- The line that has these pieces. -/
def ofPieces : List Name → Output
  | [first, second] =>
      if second = "resumes".toList then .resumes first
      else if second = "started".toList then .started first
      else if second = "committed".toList then .completed first .commit
      else if second = "aborted".toList then .completed first .abort
      else .checkpointWritten
  | [first, second, third] =>
      if second = "already".toList then .alreadyExists first
      else if second = "not".toList then .notFound first
      else if second = "=".toList then .shows first (nextValue third)
      else if second = "command:".toList then .unknown (.other third)
      else .invalid (String.ofList second)
  | [first, second, third, fourth] =>
      if second = "is".toList then .notActive first
      else if second = "complete:".toList then .recovered (numberIn third) (numberIn fourth)
      else .status (numberIn first) (numberIn second) (numberIn third) (numberIn fourth)
  | [label, verb, name, _, value] =>
      if verb = "reads".toList then .reads label name (nextValue value)
      else .writes label name (nextValue value)
  | [label, _, _, _, _, name] => .waiting label name
  | _ => .help

/-- Read a line. -/
def ofLine (line : List Char) : Output := ofPieces (line.splitOn ' ')

/-! ## The text of the pieces -/

theorem toList_toString_value (value : Int32) :
    (toString value).toList = printInt value.toInt := by
  show (Int.repr value.toInt).toList = _
  cases value.toInt with
  | ofNat n => simp [Int.repr, printInt, Nat.repr]
  | negSucc n => simp [Int.repr, printInt, Nat.repr]

set_option maxRecDepth 4000 in
theorem help_text : Output.text .help = " ".intercalate helpPieces := by decide

/-- A line is its pieces with a space between them. -/
theorem toList_text (line : Output) : line.text.toList = [' '].intercalate line.pieces := by
  cases line with
  | help =>
      rw [help_text, String.toList_intercalate]
      rfl
  | waiting label name =>
      show (String.ofList label ++ " waiting for lock on " ++ String.ofList name).toList = _
      simp [pieces]
  | reads label name value =>
      show (String.ofList label ++ " reads " ++ String.ofList name ++ " = " ++
        toString value).toList = _
      simp [pieces, toList_toString_value]
  | writes label name value =>
      show (String.ofList label ++ " writes " ++ String.ofList name ++ " = " ++
        toString value).toList = _
      simp [pieces, toList_toString_value]
  | resumes label =>
      show (String.ofList label ++ " resumes").toList = _
      simp [pieces]
  | invalid op =>
      show ("Invalid " ++ op ++ " command").toList = _
      simp [pieces]
  | alreadyExists label =>
      show (String.ofList label ++ " already exists").toList = _
      simp [pieces]
  | started label =>
      show (String.ofList label ++ " started").toList = _
      simp [pieces]
  | notFound label =>
      show (String.ofList label ++ " not found").toList = _
      simp [pieces]
  | notActive label =>
      show (String.ofList label ++ " is not active").toList = _
      simp [pieces]
  | completed label outcome =>
      cases outcome with
      | commit =>
          show (String.ofList label ++ " committed").toList = _
          simp [pieces]
      | abort =>
          show (String.ofList label ++ " aborted").toList = _
          simp [pieces]
  | shows name value =>
      show (String.ofList name ++ " = " ++ toString value).toList = _
      simp [pieces, toList_toString_value]
  | status active pending committed aborted =>
      show ("active_transactions=" ++ toString active ++ " pending_commands=" ++
        toString pending ++ " committed=" ++ toString committed ++ " aborted=" ++
        toString aborted).toList = _
      simp [pieces]
  | checkpointWritten =>
      show "checkpoint written".toList = _
      simp [pieces]
  | recovered redo undo =>
      show ("recovery complete: redo=" ++ toString redo ++ " undo=" ++ toString undo).toList = _
      simp [pieces]
  | unknown op =>
      show ("Unknown command: " ++ op.text).toList = _
      simp [pieces]

/-! ## Lines that split again -/

/-- No white space in a name. -/
def Solid (name : Name) : Prop := ∀ c ∈ name, isSpace c = false

/-- The labels and keys in a line. -/
def names : Output → List Name
  | .waiting label name | .reads label name _ | .writes label name _ => [label, name]
  | .resumes label | .alreadyExists label | .started label | .notFound label
  | .notActive label | .completed label _ => [label]
  | .shows name _ => [name]
  | _ => []

/-- The names in a line are solid, and the commands in it are some that can be. -/
def Plain : Output → Prop
  | .invalid word => word ∈ ["BEGIN", "READ", "WRITE", "SHOW"]
  | .unknown op => ∃ word, op = .other word ∧ Solid word
  | line => ∀ name ∈ line.names, Solid name

theorem solid_toDigits (n : Nat) : Solid (Nat.toDigits 10 n) := by
  intro c hc
  exact (isDigit_not_special (isDigit_of_mem_toDigits hc)).1

theorem solid_printInt (n : Int) : Solid (printInt n) := (isWord_printInt n).solid

theorem Solid.append {name name' : Name} (h : Solid name) (h' : Solid name') :
    Solid (name ++ name') := by
  intro c hc
  rcases List.mem_append.mp hc with hc | hc
  · exact h c hc
  · exact h' c hc

theorem solid_helpPieces : ∀ piece ∈ helpPieces, Solid piece.toList := by
  have hall : (helpPieces.all fun piece => piece.toList.all fun c => !isSpace c) = true := by
    decide
  intro piece hpiece c hc
  have hpiece := List.all_eq_true.mp (List.all_eq_true.mp hall piece hpiece) c hc
  simpa using hpiece

theorem solid_literal {word : String} (h : (word.toList.all fun c => !isSpace c) = true) :
    Solid word.toList := by
  intro c hc
  simpa using List.all_eq_true.mp h c hc

theorem Plain.solid_pieces {line : Output} (h : line.Plain) :
    ∀ piece ∈ line.pieces, Solid piece := by
  have hdigits : ∀ {word : String} (n : Nat), (word.toList.all fun c => !isSpace c) = true →
      Solid (word.toList ++ Nat.toDigits 10 n) := fun n hword =>
    (solid_literal hword).append (solid_toDigits n)
  cases line with
  | help =>
      intro piece hpiece
      obtain ⟨word, hword, rfl⟩ := List.mem_map.mp hpiece
      exact solid_helpPieces word hword
  | invalid op =>
      have hop : Solid op.toList := by
        simp only [Plain, List.mem_cons, List.not_mem_nil, or_false] at h
        rcases h with rfl | rfl | rfl | rfl
        all_goals exact solid_literal (by decide)
      simp (disch := decide) only [pieces, List.forall_mem_cons, solid_literal, hop]
      simp
  | unknown op =>
      obtain ⟨word, rfl, hword⟩ := h
      have hpiece : Solid (Op.text (.other word)).toList := by
        rw [Op.text, String.toList_ofList]
        exact hword
      simp (disch := decide) only [pieces, List.forall_mem_cons, solid_literal, hpiece]
      simp
  | completed label outcome =>
      have hlabel : Solid label := h label List.mem_cons_self
      cases outcome
      all_goals
        simp (disch := decide) only [pieces, List.forall_mem_cons, solid_literal, hlabel]
        simp
  | waiting | reads | writes | resumes | alreadyExists | started | notFound | notActive | shows
  | status | checkpointWritten | recovered =>
      simp only [Plain, names, List.forall_mem_cons] at h
      simp (disch := decide) only [pieces, List.forall_mem_cons, solid_literal, solid_printInt,
        hdigits, h]
      simp

theorem pieces_ne_nil (line : Output) : line.pieces ≠ [] := by
  cases line with
  | completed label outcome => cases outcome <;> exact List.cons_ne_nil _ _
  | _ => exact List.cons_ne_nil _ _

/-- The pieces of a line are found again. -/
theorem Plain.splitOn_text {line : Output} (h : line.Plain) :
    line.text.toList.splitOn ' ' = line.pieces := by
  rw [toList_text]
  refine List.splitOn_intercalate ' ' (fun piece hpiece hmem => ?_) line.pieces_ne_nil
  exact Bool.noConfusion (h.solid_pieces piece hpiece ' ' hmem)

theorem numberIn_digits {word : Name} (h : '=' ∉ word) (n : Nat) :
    numberIn ((word ++ ['=']) ++ Nat.toDigits 10 n) = n := by
  have hread := readNat_toDigits n noDigit_nil
  rw [List.append_nil] at hread
  have hword : ∀ c ∈ word, decide (c ≠ '=') = true := by
    intro c hc
    rw [decide_eq_true_eq]
    rintro rfl
    exact h hc
  rw [numberIn, List.append_assoc, List.dropWhile_append_of_pos hword]
  show (readNat (Nat.toDigits 10 n)).getD 0 = n
  rw [hread, Option.getD_some]

/-- A line is found again from its pieces. -/
theorem Plain.ofPieces {line : Output} (h : line.Plain) : ofPieces line.pieces = line := by
  cases line with
  | help => rfl
  | invalid op =>
      simp only [Plain, List.mem_cons, List.not_mem_nil, or_false] at h
      rcases h with rfl | rfl | rfl | rfl
      all_goals rfl
  | unknown op =>
      obtain ⟨word, rfl, -⟩ := h
      show Output.unknown (.other (Op.text (.other word)).toList) = _
      rw [Op.text, String.toList_ofList]
  | completed label outcome =>
      cases outcome
      all_goals rfl
  | reads label name value =>
      show Output.reads label name (nextValue (printInt value.toInt)) = _
      rw [nextValue_printInt]
  | writes label name value =>
      show Output.writes label name (nextValue (printInt value.toInt)) = _
      rw [nextValue_printInt]
  | shows name value =>
      show Output.shows name (nextValue (printInt value.toInt)) = _
      rw [nextValue_printInt]
  | status active pending committed aborted =>
      show Output.status
        (numberIn (("active_transactions".toList ++ ['=']) ++ Nat.toDigits 10 active))
        (numberIn (("pending_commands".toList ++ ['=']) ++ Nat.toDigits 10 pending))
        (numberIn (("committed".toList ++ ['=']) ++ Nat.toDigits 10 committed))
        (numberIn (("aborted".toList ++ ['=']) ++ Nat.toDigits 10 aborted)) = _
      rw [numberIn_digits (by decide), numberIn_digits (by decide), numberIn_digits (by decide),
        numberIn_digits (by decide)]
  | recovered redo undo =>
      show Output.recovered (numberIn (("redo".toList ++ ['=']) ++ Nat.toDigits 10 redo))
        (numberIn (("undo".toList ++ ['=']) ++ Nat.toDigits 10 undo)) = _
      rw [numberIn_digits (by decide), numberIn_digits (by decide)]
  | waiting | resumes | alreadyExists | started | notFound | notActive | checkpointWritten => rfl

/-- A line is found again from its text. -/
theorem Plain.ofLine {line : Output} (h : line.Plain) : ofLine line.text.toList = line := by
  rw [Output.ofLine, h.splitOn_text, h.ofPieces]

theorem mem_intercalate {c : Char} {sep : List Char} {pieces : List Name}
    (h : c ∈ sep.intercalate pieces) : c ∈ sep ∨ ∃ piece ∈ pieces, c ∈ piece := by
  induction pieces with
  | nil => cases h
  | cons piece pieces ih =>
      cases pieces with
      | nil =>
          rw [List.intercalate_singleton] at h
          exact .inr ⟨piece, List.mem_cons_self, h⟩
      | cons piece' pieces =>
          rw [List.intercalate_cons_cons, List.append_assoc, List.mem_append,
            List.mem_append] at h
          rcases h with h | h | h
          · exact .inr ⟨piece, List.mem_cons_self, h⟩
          · exact .inl h
          · refine (ih h).imp_right ?_
            rintro ⟨later, hlater, hc⟩
            exact ⟨later, List.mem_cons_of_mem _ hlater, hc⟩

/-- No line end in a line. -/
theorem Plain.newline_not_mem {line : Output} (h : line.Plain) : '\n' ∉ line.text.toList := by
  rw [toList_text]
  intro hmem
  rcases mem_intercalate hmem with hc | ⟨piece, hpiece, hc⟩
  · exact absurd (List.mem_singleton.mp hc) (by decide)
  · exact Bool.noConfusion (h.solid_pieces piece hpiece '\n' hc)

end Output

/-! ## What is printed is plain -/

theorem Entered.solid_label {c : Command} (h : Entered c) : Output.Solid c.txnLabel := by
  by_cases hne : c.txnLabel = []
  · rw [hne]
    exact List.forall_mem_nil _
  · exact (h.label hne).2.solid

theorem Entered.solid_name {c : Command} (h : Entered c) : Output.Solid c.resourceName := by
  by_cases hne : c.resourceName = []
  · rw [hne]
    exact List.forall_mem_nil _
  · exact (h.name hne).2.1.solid

namespace Main

/-- The names kept for later are solid, and the lines so far are plain. -/
structure Plain (m : Main) : Prop where
  labels : ∀ label ∈ m.txnIds, Output.Solid label
  waiting : ∀ c ∈ m.pending, Output.Solid c.command.txnLabel ∧ Output.Solid c.command.resourceName
  lines : ∀ line ∈ m.output, line.Plain

theorem plain_init (env : Environment) : Plain (init env) where
  labels := fun label hmem => absurd hmem (by simp [init])
  waiting := fun c hmem => absurd hmem (by simp [init])
  lines := by
    intro line hline
    rw [List.mem_singleton.mp hline]
    exact List.forall_mem_nil _

variable {m m' : Main} {cmd : Command}

theorem Plain.congr (h : Plain m) (hids : m'.txnIds = m.txnIds)
    (hpending : ∀ c ∈ m'.pending, c ∈ m.pending) (houtput : m'.output = m.output) : Plain m' where
  labels := hids ▸ h.labels
  waiting := fun c hc => h.waiting c (hpending c hc)
  lines := houtput ▸ h.lines

theorem Plain.grow (h : Plain m) {line : Output} (hids : m'.txnIds = m.txnIds)
    (hpending : ∀ c ∈ m'.pending, c ∈ m.pending) (houtput : m'.output = m.output ++ [line])
    (hline : line.Plain) : Plain m' where
  labels := hids ▸ h.labels
  waiting := fun c hc => h.waiting c (hpending c hc)
  lines := by
    intro line' hmem
    rw [houtput] at hmem
    rcases List.mem_append.mp hmem with hmem | hmem
    · exact h.lines line' hmem
    · rw [List.mem_singleton.mp hmem]
      exact hline

theorem Plain.print (h : Plain m) {line : Output} (hline : line.Plain) : Plain (m.print line) :=
  h.grow rfl (fun _ hc => hc) rfl hline

theorem Plain.ensureResource (h : Plain m) (name : Name) : Plain (m.ensureResource name).2 := by
  have hsame := m.ensureResource_same name
  exact h.congr hsame.txnIds (fun c hc => hsame.pending ▸ hc) (m.ensureResource_output name)

theorem Plain.perform (h : Plain m) (access : Access) {c : Issued} (txnId resourceId : Nat)
    (hc : c ∈ m.pending) : Plain (m.perform access c txnId resourceId) := by
  obtain ⟨hlabel, hname⟩ := h.waiting c hc
  have hboth : ∀ name ∈ [c.command.txnLabel, c.command.resourceName], Output.Solid name :=
    List.forall_mem_cons.mpr ⟨hlabel, List.forall_mem_singleton.mpr hname⟩
  cases access with
  | read | write => exact h.grow rfl (fun _ hc => hc) rfl hboth

/-- A move of a command that was entered keeps everything plain. -/
theorem Plain.move (hs : Move cmd m m') (hentered : Entered cmd) (h : Plain m) : Plain m' := by
  have hlabel := hentered.solid_label
  have hname := hentered.solid_name
  cases hs with
  | @reply line hreply =>
      refine h.print ?_
      cases hreply with
      | help | status => exact List.forall_mem_nil _
      | invalid hword => exact hword
      | @unknown word hop =>
          refine ⟨word, hop, ?_⟩
          have hword := hentered.word
          rw [hop] at hword
          by_cases hne : word = []
          · rw [hne]
            exact List.forall_mem_nil _
          · exact (hword hne).solid
      | alreadyExists | notFound | notActive => exact List.forall_mem_singleton.mpr hlabel
      | waiting waits =>
          obtain ⟨hfirst, hsecond⟩ := h.waiting _ waits
          exact List.forall_mem_cons.mpr ⟨hfirst, List.forall_mem_singleton.mpr hsecond⟩
      | resumes waits => exact List.forall_mem_singleton.mpr (h.waiting _ waits).1
  | lookup name => exact h.ensureResource name
  | refuse => exact (h.ensureResource _).congr rfl (fun _ hc => hc) rfl
  | @execute c before later txnId access waits =>
      have hasked : Plain ((m.ensureResource c.command.resourceName).2.requested txnId
          (m.ensureResource c.command.resourceName).1 access.mode) :=
        (h.ensureResource _).congr rfl (fun _ hc => hc) rfl
      have hpending := (m.ensureResource_same c.command.resourceName).pending
      have hmem : c ∈ (m.ensureResource c.command.resourceName).2.pending := by
        rw [hpending, waits]
        exact List.mem_append_right before List.mem_cons_self
      refine (hasked.perform access txnId _ hmem).congr rfl (fun c' hc' => ?_) rfl
      have hkept : c' ∈ (m.ensureResource c.command.resourceName).2.pending := by
        rw [hpending, waits]
        exact (List.mem_append.mp hc').elim (List.mem_append_left _)
          fun hlater => List.mem_append_right before (List.mem_cons_of_mem c hlater)
      cases access <;> exact hkept
  | @drop c before later waits =>
      refine h.congr rfl (fun c' hc' => ?_) rfl
      rw [waits]
      exact (List.mem_append.mp hc').elim (List.mem_append_left _)
        fun hlater => List.mem_append_right before (List.mem_cons_of_mem c hlater)
  | start hop full fresh =>
      have hstarted : Plain (m.start cmd.txnLabel) :=
        { labels := by
            intro label hmem
            rcases ExtTreeMap.mem_insert.mp hmem with heq | hmem
            · rw [← LawfulEqCmp.compare_eq_iff_eq.mp heq]
              exact hlabel
            · exact h.labels label hmem
          waiting := h.waiting
          lines := h.lines }
      exact hstarted.print (List.forall_mem_singleton.mpr hlabel)
  | issue hop label name known =>
      refine { labels := h.labels, waiting := fun c hc => ?_, lines := h.lines }
      rcases List.mem_append.mp hc with hc | hc
      · exact h.waiting c hc
      · rw [List.mem_singleton.mp hc]
        exact ⟨hlabel, hname⟩
  | @finish outcome txnId =>
      have hfinished : Plain (m.finish txnId outcome) := h.congr rfl (fun _ hc => hc) rfl
      exact hfinished.print (List.forall_mem_singleton.mpr hlabel)
  | shows => exact (h.ensureResource _).print (List.forall_mem_singleton.mpr hname)
  | checkpoint => exact h.grow rfl (fun _ hc => hc) rfl (List.forall_mem_nil _)
  | recover =>
      exact h.grow rfl (fun _ hc => absurd hc List.not_mem_nil) rfl (List.forall_mem_nil _)

theorem plain_after {env : Environment} {input : List Command}
    (hentered : ∀ cmd ∈ input, Entered cmd) : Plain (after env input) :=
  after_moves (fun hcmd hs h => h.move hs (hentered _ (List.takeWhile_subset _ hcmd)))
    (plain_init env)

/-- What `main` has written to `std::cout`. -/
def stdout (m : Main) : List Char := LineLog.text '\n' (fun line => line.text.toList) m.output

/-- The text that a program prints, cut at the line ends and read line by line, gives
the lines that it printed, whatever its input is. -/
theorem program_read_back (env : Environment) (text : List Char) :
    (getlines '\n' (program env text).stdout).map Output.ofLine = (program env text).output := by
  have hplain : Plain (program env text) :=
    plain_after fun cmd hcmd => readCommands_iff.mp ⟨text, rfl⟩ cmd hcmd
  have hlines := getlines_text_of_mem [] (program env text).output fun line hline =>
    (hplain.lines line hline).newline_not_mem
  rw [List.append_nil, getlines, List.append_nil] at hlines
  rw [stdout, hlines, List.map_map]
  have hread : ∀ line ∈ (program env text).output,
      (Output.ofLine ∘ fun line => line.text.toList) line = id line := fun line hline =>
    (hplain.lines line hline).ofLine
  rw [List.map_congr_left hread, List.map_id]

end Main

end TxnEngine
