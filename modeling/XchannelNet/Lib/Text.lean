import Mathlib.Data.List.DropRight
import Mathlib.Data.Nat.Digits.Defs

/-!
# Text — lines, keys and numbers

Reading text as the standard library of the source language does: in lines, cut at
a separator, without the blanks around it, and as an unsigned number. What was
written as a number is read back as that number.
-/

namespace Text

/-- The characters with the property White_Space. -/
def isWhiteSpace (c : Char) : Bool :=
  let n := c.toNat
  (9 ≤ n && n ≤ 13) || n == 0x20 || n == 0x85 || n == 0xA0 || n == 0x1680 ||
    (0x2000 ≤ n && n ≤ 0x200A) || n == 0x2028 || n == 0x2029 || n == 0x202F || n == 0x205F ||
    n == 0x3000

def trim (s : List Char) : List Char := (s.dropWhile isWhiteSpace).rdropWhile isWhiteSpace

/-- The parts between line feeds, also the empty one after the last. -/
def lines (s : List Char) : List (List Char) := s.splitOnP (· == '\n')

/-- What is before the first separator, and what is after it. -/
def splitOnce (sep : Char) : List Char → Option (List Char × List Char)
  | [] => none
  | c :: s => if c = sep then some ([], s) else (splitOnce sep s).map fun kv => (c :: kv.1, kv.2)

/-- Digits, with or without a plus sign, of a number of 64 bits. -/
def parseU64 (s : List Char) : Option UInt64 :=
  let digits := if s.head? = some '+' then s.tail else s
  let n := Nat.ofDigitChars 10 digits 0
  if digits ≠ [] ∧ digits.all Char.isDigit ∧ n < 2 ^ 64 then some (UInt64.ofNat n) else none

/-- A number as it is written. -/
def decimal (n : UInt64) : List Char := Nat.toDigits 10 n.toNat

theorem trim_of_forall {s : List Char} (h : ∀ c ∈ s, isWhiteSpace c = false) : trim s = s := by
  have hfront : s.dropWhile isWhiteSpace = s := by
    cases s with
    | nil => rfl
    | cons c s => rw [List.dropWhile_cons_of_neg (by simp [h c])]
  rw [trim, hfront, List.rdropWhile_eq_self_iff]
  intro hne
  simp [h _ (List.getLast_mem hne)]

theorem lines_cons {line : List Char} (h : '\n' ∉ line) (rest : List Char) :
    lines (line ++ '\n' :: rest) = line :: lines rest := by
  refine List.splitOnP_append_cons_of_forall_mem (fun c hc => ?_) _ (by simp) _
  rw [beq_eq_false_iff_ne]
  rintro rfl
  exact h hc

theorem splitOnce_append {sep : Char} {key : List Char} (h : sep ∉ key) (value : List Char) :
    splitOnce sep (key ++ sep :: value) = some (key, value) := by
  induction key with
  | nil => simp [splitOnce]
  | cons c key ih =>
      have hc : c ≠ sep := fun heq => h (heq ▸ List.mem_cons_self)
      have hkey := ih fun hmem => h (List.mem_cons_of_mem _ hmem)
      simp [splitOnce, hc, hkey]

theorem isDigit_of_mem_decimal {n : UInt64} {c : Char} (h : c ∈ decimal n) : c.isDigit = true :=
  Nat.isDigit_of_mem_toDigits (by decide) (by decide) h

theorem isWhiteSpace_of_isDigit {c : Char} (h : c.isDigit = true) : isWhiteSpace c = false := by
  have hrange : 48 ≤ c.toNat ∧ c.toNat ≤ 57 := by
    simpa [Char.isDigit, Char.le_def, UInt32.le_iff_toNat_le] using h
  obtain ⟨hlow, hhigh⟩ := hrange
  simp only [isWhiteSpace, Bool.or_eq_false_iff, Bool.and_eq_false_iff, decide_eq_false_iff_not,
    beq_eq_false_iff_ne]
  omega

/-- A character that is no digit is in no number. -/
theorem not_mem_decimal {c : Char} (h : c.isDigit = false) (n : UInt64) : c ∉ decimal n := by
  intro hmem
  rw [isDigit_of_mem_decimal hmem] at h
  cases h

theorem trim_decimal (n : UInt64) : trim (decimal n) = decimal n :=
  trim_of_forall fun _ hc => isWhiteSpace_of_isDigit (isDigit_of_mem_decimal hc)

theorem parseU64_decimal (n : UInt64) : parseU64 (decimal n) = some n := by
  have hne : decimal n ≠ [] := Nat.toDigits_ne_nil
  have hsign : (decimal n).head? ≠ some '+' := by
    intro hhead
    exact not_mem_decimal (by decide) n (List.mem_of_head? hhead)
  have hvalue : Nat.ofDigitChars 10 (decimal n) 0 = n.toNat := Nat.ofDigitChars_ten_toDigits
  have hall : (decimal n).all Char.isDigit = true :=
    List.all_eq_true.mpr fun _ hc => isDigit_of_mem_decimal hc
  have hlt : n.toNat < 2 ^ 64 := n.toNat_lt
  simp only [parseU64, if_neg hsign, hvalue]
  rw [if_pos ⟨hne, hall, hlt⟩, UInt64.ofNat_toNat]

end Text
