/-!
# Byte strings

Keys and values are strings of bytes that the table never interprets.

* `Bytes.writeOver`: bytes written in place over a string of fixed length;
* `Bytes.ofNat`, `Bytes.toNat`: little-endian numbers, which undo each other by `toNat_ofNat` and
  `ofNat_toNat`.
-/

namespace TagTable

/-- A string of bytes, such as a key or a value. -/
abbrev Bytes := List UInt8

namespace Bytes

/-- The string `old` after `new` is written over its beginning; its length stays. -/
def writeOver (old new : Bytes) : Bytes := new.take old.length ++ old.drop new.length

/-- The `width` low bytes of a number, least significant first. -/
def ofNat : Nat → Nat → Bytes
  | 0, _ => []
  | width + 1, n => UInt8.ofNat n :: ofNat width (n / 256)

/-- The number whose bytes, least significant first, are given. -/
def toNat : Bytes → Nat
  | [] => 0
  | b :: rest => b.toNat + 256 * toNat rest

@[simp] theorem length_writeOver (old new : Bytes) : (writeOver old new).length = old.length := by
  simp only [writeOver, List.length_append, List.length_take, List.length_drop]
  omega

theorem writeOver_of_length_eq {old new : Bytes} (h : new.length = old.length) :
    writeOver old new = new := by
  simp [writeOver, ← h]

@[simp] theorem length_ofNat (width n : Nat) : (ofNat width n).length = width := by
  induction width generalizing n with
  | zero => rfl
  | succ width ih => simp [ofNat, ih]

theorem toNat_lt (b : Bytes) : toNat b < Nat.pow 256 b.length := by
  induction b with
  | nil => simp [toNat]
  | cons x rest ih =>
    have hx := x.toNat_lt
    simp only [toNat, List.length_cons, Nat.pow_eq, Nat.pow_succ] at ih ⊢
    omega

theorem toNat_ofNat (width n : Nat) : toNat (ofNat width n) = n % Nat.pow 256 width := by
  rw [Nat.pow_eq]
  induction width generalizing n with
  | zero => simp [ofNat, toNat, Nat.mod_one]
  | succ width ih =>
    rw [ofNat, toNat, ih, Nat.pow_succ, Nat.mul_comm (256 ^ width), Nat.mod_mul]
    simp

theorem toNat_ofNat_of_lt {width n : Nat} (h : n < Nat.pow 256 width) :
    toNat (ofNat width n) = n := by
  rw [toNat_ofNat, Nat.mod_eq_of_lt h]

theorem ofNat_toNat (b : Bytes) : ofNat b.length (toNat b) = b := by
  induction b with
  | nil => rfl
  | cons x rest ih =>
    have hx := x.toNat_lt
    have hd : (x.toNat + 256 * toNat rest) / 256 = toNat rest := by omega
    have hm : UInt8.ofNat (x.toNat + 256 * toNat rest) = x := by
      apply UInt8.toNat_inj.1
      rw [UInt8.toNat_ofNat']
      omega
    rw [List.length_cons, toNat, ofNat, hd, ih, hm]

theorem toNat_lt_of_length {b : Bytes} {width : Nat} (h : b.length = width) :
    toNat b < Nat.pow 256 width := h ▸ toNat_lt b

theorem ofNat_toNat_of_length {b : Bytes} {width : Nat} (h : b.length = width) :
    ofNat width (toNat b) = b := h ▸ ofNat_toNat b

end Bytes

end TagTable
