import Mathlib.Algebra.Order.Ring.Int
import Mathlib.Data.List.Basic

/-!
# Decimal text

Integers as decimal text: printing, and reading the way the conversion functions
of C do.  Reading skips leading white space, takes an optional sign and the
longest run of digits after it, and ignores what follows.  A printed integer is
read back, also in front of text that does not start with a digit
(`readInt_printInt`).
-/

namespace Decimal

/-- The white space of the C locale. -/
def isSpace (c : Char) : Bool := [' ', '\t', '\n', '\x0b', '\x0c', '\r'].contains c

/-- The decimal text of an integer. -/
def printInt : Int → List Char
  | .ofNat n => Nat.toDigits 10 n
  | .negSucc n => '-' :: Nat.toDigits 10 (n + 1)

/-- The value of the digits at the front, if there are any. -/
def readNat (text : List Char) : Option Nat :=
  match text.takeWhile Char.isDigit with
  | [] => none
  | digits => some (Nat.ofDigitChars 10 digits 0)

/-- The value of the integer at the front, if there is one. -/
def readInt (text : List Char) : Option Int :=
  match text.dropWhile isSpace with
  | [] => none
  | c :: rest =>
      if c = '-' then (readNat rest).map fun n => -(n : Int)
      else if c = '+' then (readNat rest).map fun n => (n : Int)
      else (readNat (c :: rest)).map fun n => (n : Int)

/-- The text does not start with a digit. -/
def NoDigit (text : List Char) : Prop := ∀ c ∈ text.head?, c.isDigit = false

theorem noDigit_nil : NoDigit [] := nofun

theorem isDigit_of_mem_toDigits {c : Char} {n : Nat} (h : c ∈ Nat.toDigits 10 n) :
    c.isDigit = true :=
  Nat.isDigit_of_mem_toDigits (by decide) (by decide) h

theorem takeWhile_isDigit {digits rest : List Char} (hd : ∀ c ∈ digits, c.isDigit = true)
    (hrest : NoDigit rest) : (digits ++ rest).takeWhile Char.isDigit = digits := by
  rw [List.takeWhile_append_of_pos hd]
  cases rest with
  | nil => exact List.append_nil digits
  | cons c rest =>
      have hc := hrest c rfl
      simp [hc]

theorem readNat_toDigits (n : Nat) {rest : List Char} (hrest : NoDigit rest) :
    readNat (Nat.toDigits 10 n ++ rest) = some n := by
  have htake := takeWhile_isDigit (fun c => isDigit_of_mem_toDigits (n := n)) hrest
  have hvalue := Nat.ofDigitChars_ten_toDigits (n := n)
  have hne : Nat.toDigits 10 n ≠ [] := List.ne_nil_of_length_pos Nat.length_toDigits_pos
  rw [readNat, htake]
  revert hvalue hne
  cases Nat.toDigits 10 n with
  | nil => exact fun _ hne => absurd rfl hne
  | cons c digits => exact fun hvalue _ => congrArg some hvalue

/-- A digit is neither white space nor a sign. -/
theorem isDigit_not_special {c : Char} (h : c.isDigit = true) :
    isSpace c = false ∧ c ≠ '-' ∧ c ≠ '+' := by
  refine ⟨?_, ?_, ?_⟩
  · rw [Bool.eq_false_iff]
    intro hs
    have hspaces : [' ', '\t', '\n', '\x0b', '\x0c', '\r'].any Char.isDigit = false := rfl
    exact List.any_eq_false.mp hspaces c (List.contains_iff_mem.mp hs) h
  · rintro rfl
    revert h
    decide
  · rintro rfl
    revert h
    decide

theorem readInt_of_isDigit {c : Char} {text : List Char} (hc : c.isDigit = true) :
    readInt (c :: text) = (readNat (c :: text)).map fun n => (n : Int) := by
  obtain ⟨hspace, hminus, hplus⟩ := isDigit_not_special hc
  rw [readInt, List.dropWhile_cons_of_neg (by simp [hspace])]
  simp only [if_neg hminus, if_neg hplus]

/-- A printed integer is read back. -/
theorem readInt_printInt (n : Int) {rest : List Char} (hrest : NoDigit rest) :
    readInt (printInt n ++ rest) = some n := by
  cases n with
  | ofNat n =>
      have hread := readNat_toDigits n hrest
      rw [printInt]
      cases hdigits : Nat.toDigits 10 n with
      | nil => exact absurd hdigits (List.ne_nil_of_length_pos Nat.length_toDigits_pos)
      | cons c digits =>
          have hc : c.isDigit = true := isDigit_of_mem_toDigits (hdigits ▸ List.mem_cons_self)
          rw [hdigits, List.cons_append] at hread
          rw [List.cons_append, readInt_of_isDigit hc, hread]
          rfl
  | negSucc n =>
      have hread := readNat_toDigits (n + 1) hrest
      have hspace : isSpace '-' = false := by decide
      rw [printInt, readInt, List.cons_append, List.dropWhile_cons_of_neg (by simp [hspace])]
      simp only [if_true, hread]
      rfl

theorem readInt_printInt_self (n : Int) : readInt (printInt n) = some n := by
  have hread := readInt_printInt n noDigit_nil
  rwa [List.append_nil] at hread

/-! ## Text cut short and text continued -/

theorem takeWhile_isDigit_append (text : List Char) {rest : List Char} (hrest : NoDigit rest) :
    (text ++ rest).takeWhile Char.isDigit = text.takeWhile Char.isDigit := by
  have hnone : rest.takeWhile Char.isDigit = [] := by
    exact takeWhile_isDigit (List.forall_mem_nil _) hrest
  rw [List.takeWhile_append, hnone, List.append_nil]
  split
  · next hall => exact ((List.takeWhile_prefix Char.isDigit).eq_of_length hall).symm
  · rfl

/-- Text that does not start with a digit does not change the number before it. -/
theorem readInt_append {text rest : List Char} {n : Int} (h : readInt text = some n)
    (hrest : NoDigit rest) : readInt (text ++ rest) = some n := by
  have hnat : ∀ digits, readNat (digits ++ rest) = readNat digits := by
    intro digits
    rw [readNat, readNat, takeWhile_isDigit_append digits hrest]
  rw [readInt] at h ⊢
  cases hstart : text.dropWhile isSpace with
  | nil =>
      rw [hstart] at h
      cases h
  | cons c digits =>
      rw [hstart] at h
      have hne : (text.dropWhile isSpace).isEmpty = false := by rw [hstart]; rfl
      rw [List.dropWhile_append, if_neg (by rw [hne]; exact Bool.false_ne_true), hstart,
        List.cons_append]
      simp only [← List.cons_append, hnat]
      exact h

theorem le_ofDigitChars (digits : List Char) (n : Nat) : n ≤ Nat.ofDigitChars 10 digits n := by
  induction digits generalizing n with
  | nil => simp
  | cons c digits ih =>
      rw [Nat.ofDigitChars_cons]
      exact Nat.le_trans (by omega) (ih _)

/-- The digits at the front of a printed number are a smaller number. -/
theorem readNat_of_isPrefix {text : List Char} {n : Nat} (h : text <+: Nat.toDigits 10 n)
    (hne : text ≠ []) : ∃ m, readNat text = some m ∧ m ≤ n := by
  obtain ⟨rest, hrest⟩ := h
  have hdigits : ∀ c ∈ text, c.isDigit = true := by
    intro c hc
    exact isDigit_of_mem_toDigits (hrest ▸ List.mem_append_left rest hc)
  have htake : text.takeWhile Char.isDigit = text := by
    simpa using takeWhile_isDigit hdigits noDigit_nil
  refine ⟨Nat.ofDigitChars 10 text 0, ?_, ?_⟩
  · rw [readNat, htake]
    cases text with
    | nil => exact absurd rfl hne
    | cons c text => rfl
  · have hvalue := Nat.ofDigitChars_ten_toDigits (n := n)
    rw [← hrest, Nat.ofDigitChars_append] at hvalue
    exact hvalue ▸ le_ofDigitChars rest _

/-- A printed integer cut short after a digit is an integer between it and zero. -/
theorem readInt_of_isPrefix {text : List Char} {n : Int} (h : text <+: printInt n) (hne : text ≠ [])
    (hminus : text ≠ ['-']) : ∃ m, readInt text = some m ∧ (0 ≤ m ∧ m ≤ n ∨ n ≤ m ∧ m ≤ 0) := by
  cases n with
  | ofNat n =>
      rw [printInt] at h
      obtain ⟨m, hm, hle⟩ := readNat_of_isPrefix h hne
      cases text with
      | nil => exact absurd rfl hne
      | cons c text =>
          have hc : c.isDigit = true := isDigit_of_mem_toDigits (h.subset List.mem_cons_self)
          refine ⟨m, by rw [readInt_of_isDigit hc, hm]; rfl, .inl ?_⟩
          simp only [Int.ofNat_eq_natCast]
          omega
  | negSucc n =>
      rw [printInt] at h
      cases text with
      | nil => exact absurd rfl hne
      | cons c text =>
          obtain ⟨rfl, hdigits⟩ := List.cons_prefix_cons.mp h
          have htext : text ≠ [] := fun hnil => hminus (by rw [hnil])
          obtain ⟨m, hm, hle⟩ := readNat_of_isPrefix hdigits htext
          refine ⟨-(m : Int), ?_, .inr ?_⟩
          · rw [readInt, List.dropWhile_cons_of_neg (by decide)]
            simp only [if_true, hm]
            rfl
          · omega

/-- The length of a printed integer. -/
theorem length_printInt_le {n : Int} {k : Nat} (hk : 0 < k) (h : n.natAbs < 10 ^ k) :
    (printInt n).length ≤ k + 1 := by
  cases n with
  | ofNat n =>
      have hle := (Nat.length_toDigits_le_iff (b := 10) (n := n) (by decide) hk).mpr h
      exact Nat.le_succ_of_le hle
  | negSucc n =>
      have hle := (Nat.length_toDigits_le_iff (b := 10) (n := n + 1) (by decide) hk).mpr h
      exact Nat.succ_le_succ hle

/-- A printed integer consists of digits, after a minus sign if it is negative. -/
theorem mem_printInt {c : Char} {n : Int} (h : c ∈ printInt n) : c = '-' ∨ c.isDigit = true := by
  cases n with
  | ofNat n => exact Or.inr (isDigit_of_mem_toDigits h)
  | negSucc n =>
      rcases List.mem_cons.mp h with hc | hc
      · exact Or.inl hc
      · exact Or.inr (isDigit_of_mem_toDigits hc)

/-! ## Numerals -/

/-- The text is a complete decimal numeral of the number. -/
structure IsNumeral (text : List Char) (n : Nat) : Prop where
  ne_nil : text ≠ []
  digits : ∀ c ∈ text, c.isDigit = true
  value : Nat.ofDigitChars 10 text 0 = n

/-- A numeral with an optional minus sign. -/
inductive IsSignedNumeral : List Char → Int → Prop where
  | plain {text : List Char} {n : Nat} (numeral : IsNumeral text n) : IsSignedNumeral text n
  | minus {text : List Char} {n : Nat} (numeral : IsNumeral text n) :
      IsSignedNumeral ('-' :: text) (-(n : Int))

/-- The text without a minus sign at its front. -/
def unsigned : List Char → List Char
  | '-' :: text => text
  | text => text

theorem readNat_eq_some_iff {text : List Char} (hdigits : ∀ c ∈ text, c.isDigit = true) {n : Nat} :
    readNat text = some n ↔ IsNumeral text n := by
  have htake : text.takeWhile Char.isDigit = text := by
    simpa using takeWhile_isDigit hdigits noDigit_nil
  rw [readNat, htake]
  cases text with
  | nil => exact iff_of_false (by simp) fun h => h.ne_nil rfl
  | cons c text =>
      exact ⟨fun h => ⟨List.cons_ne_nil _ _, hdigits, Option.some.inj h⟩,
        fun h => congrArg some h.value⟩

/-- The conversion reads digits as the numeral that they are. -/
theorem readInt_eq_some_iff {text : List Char} (hdigits : ∀ c ∈ text, c.isDigit = true) {n : Int} :
    readInt text = some n ↔ ∃ k : Nat, IsNumeral text k ∧ n = k := by
  cases text with
  | nil => exact iff_of_false (by simp [readInt]) fun ⟨_, h, _⟩ => h.ne_nil rfl
  | cons c text =>
      rw [readInt_of_isDigit (hdigits c List.mem_cons_self)]
      simp only [← readNat_eq_some_iff hdigits]
      cases readNat (c :: text) <;> simp [eq_comm]

theorem isSignedNumeral_of_readInt {text : List Char}
    (hdigits : ∀ c ∈ unsigned text, c.isDigit = true) {n : Int} (h : readInt text = some n) :
    IsSignedNumeral text n := by
  rw [unsigned.eq_def] at hdigits
  split at hdigits
  · next text =>
      rw [readInt, List.dropWhile_cons_of_neg (by decide)] at h
      dsimp only at h
      rw [if_pos rfl] at h
      cases hread : readNat text with
      | none =>
          rw [hread] at h
          cases h
      | some k =>
          rw [hread] at h
          cases h
          exact .minus ((readNat_eq_some_iff hdigits).mp hread)
  · obtain ⟨k, hk, rfl⟩ := (readInt_eq_some_iff hdigits).mp h
    exact .plain hk

/-- A numeral has no characters but digits, after its sign. -/
theorem IsSignedNumeral.digits {text : List Char} {n : Int} (h : IsSignedNumeral text n) :
    ∀ c ∈ unsigned text, c.isDigit = true := by
  cases h with
  | minus numeral => exact numeral.digits
  | plain numeral =>
      have hsame : unsigned text = text := by
        rw [unsigned.eq_def]
        split
        · exact absurd (numeral.digits '-' List.mem_cons_self) (by decide)
        · rfl
      rw [hsame]
      exact numeral.digits

end Decimal
