import Mathlib.Data.List.Lex
import Mathlib.Data.String.Basic

/-!
# Utf8 — the order of strings and the order of their bytes

Strings are ordered by their characters. What encodes a character is below what
encodes any later one, whatever follows the two, so the bytes of strings are in
the order of the strings. No character's bytes begin another's, so one string
begins with another where its bytes do.
-/

namespace Utf8

/-! ## Words and their codes -/

section Words

variable {α β : Type*} [LT α] [LT β] {e : α → List β}

theorem append_lt_append (s : List β) {t u : List β} (h : t < u) : s ++ t < s ++ u := by
  induction s with
  | nil => exact h
  | cons b s ih => exact List.cons_lt_cons_iff.mpr (.inr ⟨rfl, ih⟩)

/-- A code that keeps the order of letters, whatever follows them, keeps that of
words. -/
theorem flatMap_lt_flatMap (hne : ∀ a, e a ≠ [])
    (he : ∀ a b, a < b → ∀ s t, e a ++ s < e b ++ t) {s t : List α} (h : s < t) :
    s.flatMap e < t.flatMap e := by
  induction s generalizing t with
  | nil =>
      cases t with
      | nil => exact absurd h (List.not_lt_nil _)
      | cons b t =>
          obtain ⟨x, l, hx⟩ := List.exists_cons_of_ne_nil (hne b)
          rw [List.flatMap_nil, List.flatMap_cons, hx]
          exact List.nil_lt_cons _ _
  | cons a s ih =>
      cases t with
      | nil => exact absurd h (List.not_lt_nil _)
      | cons b t =>
          rw [List.flatMap_cons, List.flatMap_cons]
          rcases List.cons_lt_cons_iff.mp h with hlt | ⟨rfl, hlt⟩
          · exact he a b hlt _ _
          · exact append_lt_append _ (ih hlt)

end Words

/-! ## One character -/

theorem toNat_lt (c : Char) : c.val.toNat < 0x110000 := by
  rcases c.valid with h | h <;> omega

theorem ofNat_lt_ofNat {m n : ℕ} (hm : m < 256) (hn : n < 256) :
    UInt8.ofNat m < UInt8.ofNat n ↔ m < n := by
  rw [UInt8.lt_iff_toNat_lt, UInt8.toNat_ofNat', UInt8.toNat_ofNat', Nat.mod_eq_of_lt hm,
    Nat.mod_eq_of_lt hn]

theorem ofNat_inj {m n : ℕ} (hm : m < 256) (hn : n < 256) :
    UInt8.ofNat m = UInt8.ofNat n ↔ m = n := by
  rw [← UInt8.toNat_inj, UInt8.toNat_ofNat', UInt8.toNat_ofNat', Nat.mod_eq_of_lt hm,
    Nat.mod_eq_of_lt hn]

/-- Of two numbers, the first digit to base 64 in which they differ decides. -/
theorem lex_of_lt {m n : ℕ} (h : m < n) :
    m / 262144 < n / 262144 ∨ m / 262144 = n / 262144 ∧
      (m / 4096 % 64 < n / 4096 % 64 ∨ m / 4096 % 64 = n / 4096 % 64 ∧
        (m / 64 % 64 < n / 64 % 64 ∨ m / 64 % 64 = n / 64 % 64 ∧ m % 64 < n % 64)) := by
  have hdigit : ∀ m n : ℕ, m < n → m / 64 < n / 64 ∨ m / 64 = n / 64 ∧ m % 64 < n % 64 := by
    intro m n h
    omega
  have hdiv : ∀ m : ℕ, m / 4096 = m / 64 / 64 ∧ m / 262144 = m / 64 / 64 / 64 := by
    intro m
    constructor
    · rw [Nat.div_div_eq_div_mul]
    · rw [Nat.div_div_eq_div_mul, Nat.div_div_eq_div_mul]
  rw [(hdiv m).1, (hdiv n).1, (hdiv m).2, (hdiv n).2]
  rcases hdigit m n h with h1 | ⟨h1, h0⟩
  · rcases hdigit _ _ h1 with h2 | ⟨h2, h1⟩
    · rcases hdigit _ _ h2 with h3 | ⟨h3, h2⟩
      · exact .inl h3
      · exact .inr ⟨h3, .inl h2⟩
    · rw [h2]
      exact .inr ⟨rfl, .inr ⟨rfl, .inl h1⟩⟩
  · rw [h1]
    exact .inr ⟨rfl, .inr ⟨rfl, .inr ⟨rfl, h0⟩⟩⟩

/-- Longer codes have greater first bytes; codes of one length are compared
digit by digit. -/
theorem utf8EncodeChar_lt {c d : Char} (h : c < d) (s t : List UInt8) :
    String.utf8EncodeChar c ++ s < String.utf8EncodeChar d ++ t := by
  have hlt : c.val.toNat < d.val.toNat := h
  have hc := toNat_lt c
  have hd := toNat_lt d
  unfold String.utf8EncodeChar
  generalize c.val.toNat = m at *
  generalize d.val.toNat = n at *
  have hlex := lex_of_lt hlt
  have hm : m / 262144 % 8 = m / 262144 := Nat.mod_eq_of_lt (by omega)
  have hn : n / 262144 % 8 = n / 262144 := Nat.mod_eq_of_lt (by omega)
  dsimp only
  rw [hm, hn]
  split_ifs <;>
    simp (disch := omega) only [List.cons_append, List.cons_lt_cons_iff, ofNat_lt_ofNat,
      ofNat_inj] <;>
    omega

/-! ## Strings -/

theorem data_toUTF8 (s : String) :
    s.toUTF8.data.toList = s.toList.flatMap String.utf8EncodeChar := by
  rw [String.toUTF8, ← String.utf8Encode_toList, List.utf8Encode, List.toList_data_toByteArray]

theorem toUTF8_lt_toUTF8 {s t : String} :
    s.toUTF8.data.toList < t.toUTF8.data.toList ↔ s < t := by
  have hmono : ∀ {s t : String}, s < t → s.toUTF8.data.toList < t.toUTF8.data.toList := by
    intro s t h
    rw [data_toUTF8, data_toUTF8]
    exact flatMap_lt_flatMap (fun _ => String.utf8EncodeChar_ne_nil)
      (fun _ _ => utf8EncodeChar_lt) (String.lt_iff_toList_lt.mp h)
  refine ⟨fun h => ?_, hmono⟩
  rcases lt_trichotomy s t with hlt | rfl | hgt
  · exact hlt
  · exact absurd h (List.lt_irrefl _)
  · exact absurd h (List.lt_asymm (hmono hgt))

theorem toUTF8_isPrefix_toUTF8 {s t : String} :
    s.toUTF8.data.toList <+: t.toUTF8.data.toList ↔ s.toList <+: t.toList := by
  constructor
  · rintro ⟨u, hu⟩
    refine List.isPrefix_of_utf8Encode_append_eq_utf8Encode ⟨u.toArray⟩ ?_
    rw [String.utf8Encode_toList, String.utf8Encode_toList]
    apply ByteArray.ext
    apply Array.ext'
    simpa [String.toUTF8] using hu
  · rintro ⟨u, hu⟩
    rw [data_toUTF8, data_toUTF8, ← hu, List.flatMap_append]
    exact List.prefix_append _ _

end Utf8
