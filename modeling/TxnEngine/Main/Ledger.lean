import TxnEngine.Library.Arrivals
import TxnEngine.Main.Handlers

/-!
# What the lines mean

The engine seen from outside: the lines that it prints, with their meaning, and
no ids, locks, queues or log records.  A ledger holds what the lines so far say of
the transactions and the keys.  `Ledger.Allows` says which line may come next, and
a list of lines is `Legal` if each of them is allowed by the ledger of the lines
before it.

This module says what a legal list of lines promises: a value that is read or
shown is the last one written, conflicting accesses of two transactions have the end of the
first one between them, a transaction does nothing before it starts and after it has
ended, and the counts are those of the lines before.
`Main/Bookkeeping.lean` proves that what the engine prints is legal.
-/

namespace TxnEngine

open Arrivals

/-- An access that a line reports.  The key is taken apart, so that all spellings of
it are one. -/
structure Report where
  label : Name
  key : List Name
  access : Access
deriving DecidableEq

/-- Two transactions on one key, and one of them writes.  Keys without segments do
not name a resource together. -/
def Report.Conflict (a b : Report) : Prop :=
  a.label ≠ b.label ∧ a.key = b.key ∧ a.key ≠ [] ∧ (a.access = .write ∨ b.access = .write)

instance (a b : Report) : Decidable (a.Conflict b) :=
  inferInstanceAs (Decidable (_ ∧ _ ∧ _ ∧ (_ ∨ _)))

/-- The access that a line reports. -/
def Output.report : Output → Option Report
  | .reads label name _ => some ⟨label, segments name, .read⟩
  | .writes label name _ => some ⟨label, segments name, .write⟩
  | _ => none

/-- The value that a line gives to a key. -/
def Output.gives (key : List Name) : Output → Option Int32
  | .writes _ name value => if segments name = key ∧ key ≠ [] then some value else none
  | _ => none

/-- The value that a line reports of a key. -/
def Output.finds : Output → Option (List Name × Int32)
  | .reads _ name value | .shows name value => some (segments name, value)
  | _ => none

/-- The line ends the transaction, if it is active. -/
def Output.Ends (label : Name) : Output → Prop
  | .completed label' _ => label' = label
  | .recovered _ _ => True
  | _ => False

/-- The line tells that the transaction does something. -/
def Output.Acts (label : Name) : Output → Prop
  | .started label' | .waiting label' _ | .resumes label' | .reads label' _ _
  | .writes label' _ _ | .completed label' _ => label' = label
  | _ => False

instance (label : Name) : (line : Output) → Decidable (line.Ends label)
  | .completed label' _ => inferInstanceAs (Decidable (label' = label))
  | .recovered _ _ => isTrue trivial
  | .help | .started _ | .alreadyExists _ | .notFound _ | .notActive _ | .invalid _ | .unknown _
  | .waiting _ _ | .resumes _ | .reads _ _ _ | .writes _ _ _ | .shows _ _ | .status _ _ _ _
  | .checkpointWritten => isFalse id

/-- The transaction that a line starts. -/
def Output.starts : Output → Option Name
  | .started label => some label
  | _ => none

/-- The transaction that a line reports a write of. -/
def Output.writer : Output → Option Name
  | .writes label _ _ => some label
  | _ => none

/-- The transaction that a line commits. -/
def Output.commits : Output → Option Name
  | .completed label .commit => some label
  | _ => none

/-- The value of a key that nobody has written. -/
def initialValue (key : List Name) : Int32 := if key = [['A']] then 10 else 0

/-- What the lines so far say. -/
structure Ledger where
  active : List Name
  ended : List Name
  value : List Name → Int32
  /-- What the active transactions have read and written. -/
  reports : List Report
  committed : Nat
  aborted : Nat
  /-- The number of writes of the committed transactions. -/
  redo : Nat

namespace Ledger

def empty : Ledger := ⟨[], [], initialValue, [], 0, 0, 0⟩

/-- The number of writes that an active transaction has reported. -/
def writesOf (ledger : Ledger) (label : Name) : Nat :=
  ledger.reports.countP fun report => report.label = label ∧ report.access = .write

/-- A transaction has ended. -/
def close (ledger : Ledger) (label : Name) (outcome : Outcome) : Ledger where
  active := ledger.active.erase label
  ended := ledger.ended ++ [label]
  value := ledger.value
  reports := ledger.reports.filter fun report => report.label ≠ label
  committed := ledger.committed + if outcome = .commit then 1 else 0
  aborted := ledger.aborted + if outcome = .abort then 1 else 0
  redo := ledger.redo + if outcome = .commit then ledger.writesOf label else 0

/-- One more line. -/
def next (ledger : Ledger) : Output → Ledger
  | .started label => { ledger with active := ledger.active ++ [label] }
  | .reads label name _ =>
      { ledger with reports := ledger.reports ++ [⟨label, segments name, .read⟩] }
  | .writes label name value =>
      { ledger with
        value := fun key =>
          if segments name = key ∧ key ≠ [] then value else ledger.value key
        reports := ledger.reports ++ [⟨label, segments name, .write⟩] }
  | .completed label outcome => ledger.close label outcome
  | .recovered _ _ =>
      { ledger with
        active := []
        ended := ledger.ended ++ ledger.active
        reports := []
        aborted := ledger.aborted + ledger.active.length }
  | _ => ledger

/-- The ledger of a list of lines. -/
def of (lines : List Output) : Ledger := lines.foldl next empty

/-- Nobody else has an access that conflicts. -/
def Grants (ledger : Ledger) (report : Report) : Prop :=
  ∀ earlier ∈ ledger.reports, ¬ earlier.Conflict report

/-- The line may come next. -/
def Allows (ledger : Ledger) : Output → Prop
  | .help | .invalid _ | .unknown _ | .checkpointWritten | .recovered _ _ => True
  | .started label | .notFound label => label ∉ ledger.active ∧ label ∉ ledger.ended
  | .alreadyExists label => label ∈ ledger.active ∨ label ∈ ledger.ended
  | .notActive label => label ∈ ledger.ended
  | .waiting label _ | .resumes label | .completed label _ => label ∈ ledger.active
  | .reads label name value =>
      label ∈ ledger.active ∧ value = ledger.value (segments name) ∧
        ledger.Grants ⟨label, segments name, .read⟩
  | .writes label name _ =>
      label ∈ ledger.active ∧ ledger.Grants ⟨label, segments name, .write⟩
  | .shows name value => value = ledger.value (segments name)
  | .status active _ committed aborted =>
      active = ledger.active.length ∧ committed = ledger.committed ∧ aborted = ledger.aborted

/-- The counts that RECOVER prints. -/
def Recovers (ledger : Ledger) : Output → Prop
  | .recovered redo undo => redo = ledger.redo ∧ undo = ledger.active.length
  | _ => True

/-- Every line is allowed by the lines before it. -/
def Legal (lines : List Output) : Prop := Each (fun before line => (of before).Allows line) lines

theorem of_concat (lines : List Output) (line : Output) :
    of (lines ++ [line]) = (of lines).next line := by
  rw [of, List.foldl_concat]
  rfl

theorem legal_concat {lines : List Output} {line : Output} :
    Legal (lines ++ [line]) ↔ Legal lines ∧ (of lines).Allows line := each_concat

/-! ## Transactions and their accesses -/

/-- A label is not both active and ended, and accesses are of active transactions. -/
structure Tidy (ledger : Ledger) : Prop where
  once : ledger.active.Nodup
  apart : ∀ label ∈ ledger.active, label ∉ ledger.ended
  reports : ∀ report ∈ ledger.reports, report.label ∈ ledger.active

variable {ledger : Ledger} {line : Output}

theorem tidy_empty : Tidy empty where
  once := .nil
  apart := fun _ hmem => absurd hmem List.not_mem_nil
  reports := fun _ hmem => absurd hmem List.not_mem_nil

/-- An active transaction accesses a key. -/
theorem Tidy.access (h : ledger.Tidy) {label : Name} (hactive : label ∈ ledger.active)
    (value : List Name → Int32) (key : List Name) (access : Access) :
    Tidy { ledger with value := value, reports := ledger.reports ++ [⟨label, key, access⟩] } where
  once := h.once
  apart := h.apart
  reports := by
    intro report hmem
    rcases List.mem_append.mp hmem with hmem | hmem
    · exact h.reports report hmem
    · rw [List.mem_singleton.mp hmem]
      exact hactive

theorem Tidy.next (h : ledger.Tidy) (hallows : ledger.Allows line) : (ledger.next line).Tidy := by
  cases line with
  | started label =>
      refine ⟨?_, ?_, fun report hmem => List.mem_append_left _ (h.reports report hmem)⟩
      · exact List.nodup_append.mpr ⟨h.once, List.nodup_singleton label, by
          intro other hother label' hlabel heq
          rw [List.mem_singleton.mp hlabel] at heq
          exact hallows.1 (heq ▸ hother)⟩
      · intro other hother
        rcases List.mem_append.mp hother with hother | hother
        · exact h.apart other hother
        · rw [List.mem_singleton.mp hother]
          exact hallows.2
  | reads label name value => exact h.access hallows.1 _ _ _
  | writes label name value => exact h.access hallows.1 _ _ _
  | completed label outcome =>
      refine ⟨h.once.erase label, ?_, ?_⟩
      · intro other hother
        rw [Ledger.next, close] at hother ⊢
        obtain ⟨hne, hother⟩ := (h.once.mem_erase_iff).mp hother
        rw [List.mem_append, List.mem_singleton]
        exact fun hmem => hmem.elim (h.apart other hother) hne
      · intro report hmem
        obtain ⟨hmem, hne⟩ := List.mem_filter.mp hmem
        have hne : report.label ≠ label := by simpa using hne
        exact (h.once.mem_erase_iff).mpr ⟨hne, h.reports report hmem⟩
  | recovered redo undo =>
      exact ⟨.nil, fun _ hmem => absurd hmem List.not_mem_nil,
        fun _ hmem => absurd hmem List.not_mem_nil⟩
  | _ => exact h

theorem Legal.tidy {lines : List Output} (h : Legal lines) : (of lines).Tidy := by
  induction lines using List.reverseRecOn with
  | nil => exact tidy_empty
  | append_singleton lines line ih =>
      obtain ⟨hlines, hallows⟩ := legal_concat.mp h
      rw [of_concat]
      exact (ih hlines).next hallows

/-- A transaction that has ended stays ended. -/
theorem ended_next {label : Name} (h : label ∈ ledger.ended) :
    label ∈ (ledger.next line).ended := by
  cases line with
  | completed | recovered => exact List.mem_append_left _ h
  | _ => exact h

theorem ended_append {lines : List Output} {label : Name} (h : label ∈ (of lines).ended) :
    ∀ more, label ∈ (of (lines ++ more)).ended := by
  intro more
  induction more using List.reverseRecOn with
  | nil => rwa [List.append_nil]
  | append_singleton more line ih =>
      rw [← List.append_assoc, of_concat]
      exact ended_next ih

/-- A label is known from its first line on. -/
theorem known_next {label : Name} (h : label ∈ ledger.active ∨ label ∈ ledger.ended) :
    label ∈ (ledger.next line).active ∨ label ∈ (ledger.next line).ended := by
  cases line with
  | started => exact h.imp_left (List.mem_append_left _)
  | completed label' outcome =>
      by_cases heq : label = label'
      · exact .inr (List.mem_append_right _ (List.mem_singleton.mpr heq))
      · exact h.imp ((List.mem_erase_of_ne heq).mpr) (List.mem_append_left _)
  | recovered => exact .inr (h.elim (List.mem_append_right _) (List.mem_append_left _))
  | _ => exact h

/-- A transaction that has done something is known. -/
theorem Legal.known_of_acts {lines : List Output} (h : Legal lines) {line : Output}
    (hmem : line ∈ lines) {label : Name} (hacts : line.Acts label) :
    label ∈ (of lines).active ∨ label ∈ (of lines).ended := by
  induction lines using List.reverseRecOn with
  | nil => cases hmem
  | append_singleton lines last ih =>
      obtain ⟨hlines, hallows⟩ := legal_concat.mp h
      rw [of_concat]
      rcases List.mem_append.mp hmem with hmem | hmem
      · exact known_next (ih hlines hmem)
      · rw [List.mem_singleton.mp hmem] at hacts
        cases last with
        | started => exact .inl (List.mem_append_right _ (List.mem_singleton.mpr hacts.symm))
        | waiting | resumes => exact .inl (hacts ▸ hallows)
        | reads | writes => exact .inl (hacts ▸ hallows.1)
        | completed => exact .inr (List.mem_append_right _ (List.mem_singleton.mpr hacts.symm))
        | _ => exact hacts.elim

/-! ## Conflicts -/

theorem mem_reports_next {report : Report} (h : line.report = some report) :
    report ∈ (ledger.next line).reports := by
  cases line with
  | reads | writes =>
      cases h
      exact List.mem_append_right _ List.mem_cons_self
  | _ => cases h

/-- An access is remembered until its transaction ends. -/
theorem reports_next {report : Report} (hmem : report ∈ ledger.reports)
    (hends : ¬ line.Ends report.label) : report ∈ (ledger.next line).reports := by
  cases line with
  | reads | writes => exact List.mem_append_left _ hmem
  | completed label outcome =>
      have hne : report.label ≠ label := fun heq => hends heq.symm
      exact List.mem_filter.mpr ⟨hmem, by simpa using hne⟩
  | recovered => exact absurd trivial hends
  | _ => exact hmem

theorem reports_append {lines : List Output} {report : Report}
    (hmem : report ∈ (of lines).reports) {more : List Output}
    (hends : ∀ line ∈ more, ¬ line.Ends report.label) :
    report ∈ (of (lines ++ more)).reports := by
  induction more using List.reverseRecOn with
  | nil => rwa [List.append_nil]
  | append_singleton more line ih =>
      rw [List.forall_mem_append, List.forall_mem_singleton] at hends
      rw [← List.append_assoc, of_concat]
      exact reports_next (ih hends.1) hends.2

theorem grants_of_allows {report : Report} (hallows : ledger.Allows line)
    (hreport : line.report = some report) : ledger.Grants report := by
  cases line with
  | reads =>
      cases hreport
      exact hallows.2.2
  | writes =>
      cases hreport
      exact hallows.2
  | _ => cases hreport

/-- Between conflicting accesses of two transactions the first one ends. -/
theorem Legal.ends_between {before between later : List Output} {first second : Output}
    {a b : Report} (h : Legal (before ++ first :: between ++ second :: later))
    (ha : first.report = some a) (hb : second.report = some b) (hconflict : a.Conflict b) :
    ∃ line ∈ between, line.Ends a.label := by
  by_contra hnone
  have hkept : ∀ line ∈ between, ¬ line.Ends a.label := fun line hmem hends =>
    hnone ⟨line, hmem, hends⟩
  rw [Legal, List.append_cons, each_append, each_concat] at h
  have hmem : a ∈ (of (before ++ first :: between)).reports := by
    rw [List.append_cons]
    refine reports_append ?_ hkept
    rw [of_concat]
    exact mem_reports_next ha
  exact grants_of_allows h.1.2 hb a hmem hconflict

/-! ## Values -/

/-- The last value that the lines give to a key. -/
def latestValue (lines : List Output) (key : List Name) : Int32 :=
  (lines.reverse.findSome? (Output.gives key)).getD (initialValue key)

theorem value_next (key : List Name) :
    (ledger.next line).value key = (line.gives key).getD (ledger.value key) := by
  cases line with
  | writes label name value =>
      show (if segments name = key ∧ key ≠ [] then value else ledger.value key) =
        (if segments name = key ∧ key ≠ [] then some value else none).getD (ledger.value key)
      split
      · rfl
      · rfl
  | _ => rfl

theorem value_of (lines : List Output) (key : List Name) :
    (of lines).value key = latestValue lines key := by
  induction lines using List.reverseRecOn with
  | nil => rfl
  | append_singleton lines line ih =>
      rw [of_concat, value_next, latestValue, List.reverse_concat, List.findSome?_cons, ih]
      cases line.gives key with
      | some value => rfl
      | none => rfl

/-- What is read or shown of a key is the last value that was written to it. -/
theorem Legal.finds_last {before later : List Output} {line : Output} {key : List Name}
    {value : Int32} (h : Legal (before ++ line :: later))
    (hfinds : line.finds = some (key, value)) :
    value = latestValue before key := by
  rw [Legal, List.append_cons, each_append, each_concat] at h
  have hallows := h.1.2
  rw [← value_of]
  cases line with
  | reads =>
      cases hfinds
      exact hallows.2.1
  | shows =>
      cases hfinds
      exact hallows
  | _ => cases hfinds

/-! ## Counts -/

/-- The labels that have started and have not ended. -/
def openLabels : List Output → List Name
  | [] => []
  | line :: lines =>
      (line.starts.filter fun label => ∀ later ∈ lines, ¬ later.Ends label).toList ++
        openLabels lines

/-- The lines tell that the transaction has committed. -/
def Committed (lines : List Output) (label : Name) : Prop :=
  ∃ line ∈ lines, line.commits = some label

instance (lines : List Output) (label : Name) : Decidable (Committed lines label) :=
  inferInstanceAs (Decidable (∃ line ∈ lines, line.commits = some label))

/-- The number of writes of the transactions that have committed. -/
def committedWrites (lines : List Output) : Nat :=
  lines.countP fun line => line.writer.any fun label => Committed lines label

theorem openLabels_concat (lines : List Output) (line : Output) : openLabels (lines ++ [line]) =
    (openLabels lines).filter (fun label => ¬ line.Ends label) ++ line.starts.toList := by
  induction lines with
  | nil => cases line <;> rfl
  | cons first lines ih =>
      rw [List.cons_append, openLabels, ih, openLabels, List.filter_append, List.append_assoc]
      congr 1
      cases first.starts with
      | none => rfl
      | some label =>
          simp only [List.forall_mem_append, List.forall_mem_singleton, Option.filter]
          by_cases hends : line.Ends label
          · simp [hends]
          · simp only [hends, not_false_eq_true, and_true]
            split
            · simp [hends]
            · rfl

/-- The active transactions of the ledger. -/
theorem Legal.active_eq {lines : List Output} (h : Legal lines) :
    (of lines).active = openLabels lines := by
  induction lines using List.reverseRecOn with
  | nil => rfl
  | append_singleton lines line ih =>
      obtain ⟨hlines, hallows⟩ := legal_concat.mp h
      rw [of_concat, openLabels_concat, ← ih hlines]
      cases line with
      | completed label outcome =>
          have herase := hlines.tidy.once.erase_eq_filter label
          refine herase.trans (Eq.trans ?_ (List.append_nil _).symm)
          refine List.filter_congr fun other _ => ?_
          rw [Bool.eq_iff_iff, bne_iff_ne, decide_eq_true_eq]
          exact not_congr eq_comm
      | recovered => simp [next, Output.Ends, Output.starts]
      | _ => simp [next, Output.Ends, Output.starts]

/-- A transaction only does something while it is open, or when it starts. -/
theorem Legal.lives {before later : List Output} {line : Output} {label : Name}
    (h : Legal (before ++ line :: later)) (hacts : line.Acts label) :
    label ∈ openLabels before ∨
      line = .started label ∧ ∀ earlier ∈ before, ¬ earlier.Acts label := by
  rw [Legal, List.append_cons, each_append, each_concat] at h
  obtain ⟨⟨hbefore, hallows⟩, -⟩ := h
  rw [← Legal.active_eq hbefore]
  cases line with
  | started label' =>
      cases hacts
      refine .inr ⟨rfl, fun earlier hmem hearlier => ?_⟩
      exact (Legal.known_of_acts hbefore hmem hearlier).elim hallows.1 hallows.2
  | waiting | resumes | completed => exact .inl (hacts ▸ hallows)
  | reads | writes => exact .inl (hacts ▸ hallows.1)
  | _ => exact hacts.elim

theorem started_of_known {lines : List Output} {label : Name}
    (h : label ∈ (of lines).active ∨ label ∈ (of lines).ended) (hlegal : Legal lines) :
    .started label ∈ lines := by
  induction lines using List.reverseRecOn with
  | nil => cases h <;> contradiction
  | append_singleton lines line ih =>
      obtain ⟨hlines, hallows⟩ := legal_concat.mp hlegal
      rw [List.mem_append, List.mem_singleton]
      rw [of_concat] at h
      cases line with
      | started label' =>
          rcases h with hactive | hended
          · rcases List.mem_append.mp hactive with hold | hnew
            · exact .inl (ih (.inl hold) hlines)
            · exact .inr (List.mem_singleton.mp hnew ▸ rfl)
          · exact .inl (ih (.inr hended) hlines)
      | completed label' outcome =>
          rcases h with hactive | hended
          · exact .inl (ih (.inl (List.mem_of_mem_erase hactive)) hlines)
          · rcases List.mem_append.mp hended with hold | hnew
            · exact .inl (ih (.inr hold) hlines)
            · exact .inl (ih (.inl (List.mem_singleton.mp hnew ▸ hallows)) hlines)
      | recovered redo undo =>
          rcases h with hactive | hended
          · cases hactive
          · exact .inl (ih (List.mem_append.mp hended).symm hlines)
      | _ => exact .inl (ih h hlines)

/-- The messages about labels are true: a label is not found if it has not started,
it exists if it has, and it is not active if it has ended. -/
theorem Legal.answers {before later : List Output} {line : Output} {label : Name}
    (h : Legal (before ++ line :: later)) :
    (line = .notFound label → .started label ∉ before) ∧
      (line = .alreadyExists label → .started label ∈ before) ∧
      (line = .notActive label → .started label ∈ before ∧ label ∉ openLabels before) := by
  rw [Legal, List.append_cons, each_append, each_concat] at h
  obtain ⟨⟨hbefore, hallows⟩, -⟩ := h
  rw [← Legal.active_eq hbefore]
  refine ⟨?_, ?_, ?_⟩
  · rintro rfl hmem
    exact (Legal.known_of_acts hbefore hmem rfl).elim hallows.1 hallows.2
  · rintro rfl
    exact started_of_known hallows hbefore
  · rintro rfl
    exact ⟨started_of_known (.inr hallows) hbefore, fun hactive =>
      (Legal.tidy hbefore).apart label hactive hallows⟩

/-- The ledger counts the lines that commit. -/
theorem committed_of (lines : List Output) :
    (of lines).committed = lines.countP fun line => line.commits.isSome := by
  induction lines using List.reverseRecOn with
  | nil => rfl
  | append_singleton lines line ih =>
      rw [of_concat, List.countP_append, List.countP_singleton, ← ih]
      cases line with
      | completed label outcome => cases outcome <;> rfl
      | _ => rfl

/-- Every transaction that has started is active, committed or aborted. -/
theorem Legal.balance {lines : List Output} (h : Legal lines) :
    (of lines).active.length + (of lines).committed + (of lines).aborted =
      lines.countP fun line => line.starts.isSome := by
  induction lines using List.reverseRecOn with
  | nil => rfl
  | append_singleton lines line ih =>
      obtain ⟨hlines, hallows⟩ := legal_concat.mp h
      rw [of_concat, List.countP_append, List.countP_singleton, ← ih hlines]
      cases line with
      | started label => simp [next, Output.starts]; omega
      | completed label outcome =>
          have hlength := List.length_erase_of_mem hallows
          have hpos := List.length_pos_of_mem hallows
          simp only [next, close, hlength, Output.starts]
          cases outcome <;> simp <;> omega
      | recovered redo undo => simp [next, Output.starts]; omega
      | _ => rfl

theorem writesOf_concat (label : Name) (report : Report) :
    writesOf { ledger with reports := ledger.reports ++ [report] } label =
      ledger.writesOf label + if report.label = label ∧ report.access = .write then 1 else 0 := by
  rw [writesOf, List.countP_append, List.countP_singleton, writesOf]
  simp only [decide_eq_true_eq]

theorem writesOf_close {label label' : Name} (hne : label' ≠ label) (outcome : Outcome) :
    (ledger.close label outcome).writesOf label' = ledger.writesOf label' := by
  rw [writesOf, close, List.countP_filter, writesOf]
  refine List.countP_congr fun report _ => ?_
  rw [Bool.and_eq_true, decide_eq_true_eq, decide_eq_true_eq]
  exact and_iff_left_of_imp fun hwrite heq => hne (hwrite.1.symm.trans heq)

theorem ended_of_committed {lines : List Output} {label : Name} (h : Committed lines label) :
    label ∈ (of lines).ended := by
  obtain ⟨line, hmem, hcommits⟩ := h
  obtain ⟨before, later, rfl⟩ := List.append_of_mem hmem
  rw [List.append_cons]
  refine ended_append ?_ later
  rw [of_concat]
  cases line with
  | completed label' outcome =>
      cases outcome with
      | commit =>
          cases hcommits
          exact List.mem_append_right _ List.mem_cons_self
      | abort => cases hcommits
  | _ => cases hcommits

/-- The writes of an active transaction are the lines that report one. -/
theorem Legal.writesOf_eq {lines : List Output} (h : Legal lines) {label : Name}
    (hactive : label ∈ (of lines).active) :
    (of lines).writesOf label = lines.countP fun line => line.writer = some label := by
  induction lines using List.reverseRecOn with
  | nil => cases hactive
  | append_singleton lines line ih =>
      obtain ⟨hlines, hallows⟩ := legal_concat.mp h
      rw [List.countP_append, List.countP_singleton]
      rw [of_concat] at hactive ⊢
      cases line with
      | started label' =>
          rcases List.mem_append.mp hactive with hold | hnew
          · exact ih hlines hold
          · -- a transaction that starts has reported nothing before
            rw [List.mem_singleton] at hnew
            subst hnew
            have hreports : (of lines).writesOf label = 0 :=
              List.countP_eq_zero.mpr fun report hmem hwrite =>
                hallows.1 ((of_decide_eq_true hwrite).1 ▸ hlines.tidy.reports report hmem)
            have hwrites : lines.countP (fun line => line.writer = some label) = 0 := by
              refine List.countP_eq_zero.mpr fun line hmem hwriter => ?_
              have hacts : line.Acts label := by
                cases line with
                | writes label' name value => exact Option.some.inj (of_decide_eq_true hwriter)
                | _ => cases of_decide_eq_true hwriter
              rcases hlines.known_of_acts hmem hacts with hknown | hknown
              · exact hallows.1 hknown
              · exact hallows.2 hknown
            rw [hwrites]
            exact hreports
      | reads label' name value =>
          refine (writesOf_concat label _).trans ?_
          rw [if_neg (fun hwrite => by cases hwrite.2)]
          exact ih hlines hactive
      | writes label' name value =>
          refine (writesOf_concat label _).trans ?_
          have hold := ih hlines hactive
          rw [← hold]
          simp [Output.writer]
      | completed label' outcome =>
          obtain ⟨hne, hold⟩ := hlines.tidy.once.mem_erase_iff.mp hactive
          exact (writesOf_close hne outcome).trans (ih hlines hold)
      | recovered => cases hactive
      | _ => exact ih hlines hactive

theorem committed_concat {lines : List Output} {line : Output} {label : Name} :
    Committed (lines ++ [line]) label ↔ Committed lines label ∨ line.commits = some label := by
  simp only [Committed, List.mem_append, List.mem_singleton, or_and_right, exists_or,
    exists_eq_left]

theorem committedWrites_concat (lines : List Output) {line : Output} (h : line.commits = none) :
    committedWrites (lines ++ [line]) = committedWrites lines +
      if line.writer.any fun label => Committed lines label then 1 else 0 := by
  have hsame : ∀ label, Committed (lines ++ [line]) label ↔ Committed lines label := fun label => by
    rw [committed_concat, h]
    simp
  simp only [committedWrites, hsame, List.countP_append, List.countP_singleton]

/-- A COMMIT adds the writes of its transaction. -/
theorem committedWrites_commit (lines : List Output) {line : Output} {label : Name}
    (h : line.commits = some label) (hwriter : line.writer = none)
    (hopen : ¬ Committed lines label) : committedWrites (lines ++ [line]) =
      committedWrites lines + lines.countP fun line => line.writer = some label := by
  have hsplit : ∀ l : Output,
      (l.writer.any fun label' => Committed (lines ++ [line]) label') =
        (((l.writer.any fun label' => Committed lines label') ||
          decide (l.writer = some label)) && true) := fun l => by
    cases l.writer <;> simp [committed_concat, h, eq_comm]
  have hnew : ∀ l ∈ lines, decide (l.writer = some label) = true →
      (l.writer.any fun label' => Committed lines label') = false := fun l _ hl => by
    rw [of_decide_eq_true hl, Option.any_some, decide_eq_false hopen]
  rw [committedWrites, List.countP_append, List.countP_singleton, hwriter, Option.any_none,
    if_neg Bool.false_ne_true, Nat.add_zero]
  simp only [hsplit]
  rw [countP_or lines hnew]
  simp [committedWrites]

/-- The ledger counts the writes of the transactions that have committed. -/
theorem Legal.redo_eq {lines : List Output} (h : Legal lines) :
    (of lines).redo = committedWrites lines := by
  induction lines using List.reverseRecOn with
  | nil => rfl
  | append_singleton lines line ih =>
      obtain ⟨hlines, hallows⟩ := legal_concat.mp h
      have hopen : ∀ {label}, label ∈ (of lines).active → ¬ Committed lines label :=
        fun hactive hcommitted => hlines.tidy.apart _ hactive (ended_of_committed hcommitted)
      rw [of_concat]
      cases line with
      | completed label outcome =>
          cases outcome with
          | commit =>
              have hnot : ¬ Committed lines label := hopen hallows
              rw [committedWrites_commit lines rfl rfl hnot,
                ← ih hlines, ← hlines.writesOf_eq hallows]
              rfl
          | abort =>
              rw [committedWrites_concat lines rfl, ← ih hlines]
              rfl
      | writes label name value =>
          have hnot := hopen hallows.1
          rw [committedWrites_concat lines rfl, ← ih hlines]
          simp [Output.writer, hnot, next]
      | _ =>
          rw [committedWrites_concat lines rfl, ← ih hlines]
          rfl

end Ledger

end TxnEngine
