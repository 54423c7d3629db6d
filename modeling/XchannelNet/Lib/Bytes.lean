import Mathlib.Data.Nat.Basic
import Mathlib.Algebra.Order.Group.Nat
import Mathlib.Tactic.Ring

/-!
# Bytes — little-endian integers and reading from the front

Fixed-width little-endian integers as byte lists, with the one fact every
format needs: what was written is read back, if it fitted. `take` reads a
fixed number of bytes off the front and is what a decoder is made of.
-/

namespace Bytes

/-- The low `w` bytes of `n`, least significant first. -/
def encode : ℕ → ℕ → List UInt8
  | 0, _ => []
  | w + 1, n => UInt8.ofNat n :: encode w (n / 256)

/-- The number a little-endian byte list denotes. -/
def decode : List UInt8 → ℕ
  | [] => 0
  | b :: bs => b.toNat + 256 * decode bs

@[simp] theorem length_encode (w n : ℕ) : (encode w n).length = w := by
  induction w generalizing n with
  | zero => rfl
  | succ w ih => simp [encode, ih]

theorem decode_encode (w n : ℕ) : decode (encode w n) = n % 256 ^ w := by
  induction w generalizing n with
  | zero => simp [encode, decode, Nat.mod_one]
  | succ w ih =>
      have hbyte : (UInt8.ofNat n).toNat = n % 256 := UInt8.toNat_ofNat'
      rw [encode, decode, ih, hbyte, pow_succ', Nat.mod_mul]

/-- What fits is read back. -/
theorem decode_encode_of_lt {w n : ℕ} (h : n < 256 ^ w) : decode (encode w n) = n := by
  rw [decode_encode, Nat.mod_eq_of_lt h]

@[simp] theorem decode_uint16 (x : UInt16) : UInt16.ofNat (decode (encode 2 x.toNat)) = x := by
  rw [decode_encode_of_lt (by have := x.toNat_lt; omega), UInt16.ofNat_toNat]

@[simp] theorem decode_uint32 (x : UInt32) : UInt32.ofNat (decode (encode 4 x.toNat)) = x := by
  rw [decode_encode_of_lt (by have := x.toNat_lt; omega), UInt32.ofNat_toNat]

@[simp] theorem decode_uint64 (x : UInt64) : UInt64.ofNat (decode (encode 8 x.toNat)) = x := by
  rw [decode_encode_of_lt (by have := x.toNat_lt; omega), UInt64.ofNat_toNat]

@[simp] theorem encode_take {w k : ℕ} (h : w ≤ k) (n : ℕ) : (encode w n).take k = encode w n :=
  List.take_of_length_le (by simpa using h)

@[simp] theorem encode_drop {w k : ℕ} (h : w ≤ k) (n : ℕ) : (encode w n).drop k = [] :=
  List.drop_eq_nil_of_le (by simpa using h)

/-- Read `n` bytes off the front. -/
def take (n : ℕ) (b : List UInt8) : Option (List UInt8 × List UInt8) :=
  if b.length < n then none else some (b.take n, b.drop n)

theorem take_append {n : ℕ} {xs : List UInt8} (h : xs.length = n) (ys : List UInt8) :
    take n (xs ++ ys) = some (xs, ys) := by
  rw [take, if_neg (by simp [h])]
  simp [← h]

@[simp] theorem take_encode (w n : ℕ) (ys : List UInt8) :
    take w (encode w n ++ ys) = some (encode w n, ys) :=
  take_append (length_encode w n) ys

/-- Of bytes that were cut off, a field is missing, or it is there and what
follows it was cut off. -/
theorem take_of_cut {n : ℕ} {xs ys b t : List UInt8} (hxs : xs.length = n)
    (h : b ++ t = xs ++ ys) :
    take n b = none ∨ ∃ b', b' ++ t = ys ∧ take n b = some (xs, b') := by
  rcases List.append_eq_append_iff.mp h with ⟨u, hx, ht⟩ | ⟨u, hb, hy⟩
  · cases u with
    | nil =>
        rw [List.append_nil] at hx
        have htake := take_append hxs []
        rw [List.append_nil] at htake
        exact .inr ⟨[], ht, hx ▸ htake⟩
    | cons x u =>
        refine .inl (if_pos ?_)
        rw [← hxs, hx, List.length_append, List.length_cons]
        omega
  · exact .inr ⟨u, hy.symm, hb ▸ take_append hxs u⟩

end Bytes
