import Mathlib.Algebra.BigOperators.Fin
import Mathlib.Data.Nat.ModEq
import TagTable.Keys.Digest

/-!
# Hashes as polynomials

Both hashes of 32 bits append a byte to the state as a digit: they multiply the state by a base and add
the byte, however they compute it.

* `Digest.append`: the digit appended; **`Digest.djb2_eq_foldl`**, **`Digest.sdbm_eq_foldl`**: the two
  hashes do nothing else;
* `Bytes.polynomial`, **`Digest.toNat_foldl_append`**: digits appended one after the other;
* **`digests_are_polynomials`**: the two hashes of a key.
-/

namespace TagTable

namespace Digest

/-! ## Rounds -/

/-- The state with a byte for its last digit in the given base. -/
def append (base hash : UInt32) (byte : UInt8) : UInt32 := hash * base + byte.toUInt32

theorem djb2_round (hash : UInt32) (byte : UInt8) :
    (hash <<< 5) + hash + byte.toUInt32 = append 33 hash byte := by
  apply UInt32.toNat_inj.1
  simp only [append, UInt32.toNat_add, UInt32.toNat_mul, UInt32.toNat_shiftLeft, Nat.shiftLeft_eq,
    UInt32.reduceToNat, Nat.reduceMod, Nat.reducePow]
  omega

theorem sdbm_round (hash : UInt32) (byte : UInt8) :
    byte.toUInt32 + (hash <<< 6) + (hash <<< 16) - hash = append 65599 hash byte := by
  have hlt := hash.toNat_lt
  apply UInt32.toNat_inj.1
  simp only [append, UInt32.toNat_sub, UInt32.toNat_add, UInt32.toNat_mul, UInt32.toNat_shiftLeft,
    Nat.shiftLeft_eq, UInt32.reduceToNat, Nat.reduceMod, Nat.reducePow]
  omega

theorem djb2_eq_foldl (key : Bytes) : djb2 key = (key.foldl (append 33) 5381).toUInt64 := by
  simp only [djb2, djb2_round]

theorem sdbm_eq_foldl (key : Bytes) : sdbm key = (key.foldl (append 65599) 0).toUInt64 := by
  simp only [sdbm, sdbm_round]

end Digest

/-! ## Keys as numbers -/

/-- The number whose digits in the given base are the bytes, the first byte foremost. -/
def Bytes.polynomial (base : Nat) (key : Bytes) : Nat :=
  ∑ i : Fin key.length, key[i].toNat * base ^ (key.length - 1 - i)

theorem Bytes.polynomial_cons (base : Nat) (byte : UInt8) (key : Bytes) :
    polynomial base (byte :: key) = byte.toNat * base ^ key.length + polynomial base key := by
  rw [polynomial, polynomial]
  simp only [List.length_cons, Fin.sum_univ_succ]
  refine congrArg₂ (· + ·) rfl (Finset.sum_congr rfl fun i _ => ?_)
  rw [Fin.val_succ, show key.length + 1 - 1 - (i + 1) = key.length - 1 - i by omega]
  rfl

namespace Digest

theorem toNat_append (base hash : UInt32) (byte : UInt8) :
    (append base hash byte).toNat = (hash.toNat * base.toNat + byte.toNat) % 2 ^ 32 := by
  rw [append, UInt32.toNat_add, UInt32.toNat_mul, UInt8.toNat_toUInt32, Nat.mod_add_mod]

/-- **Digits appended one after the other make the polynomial of the key**, reduced to 32 bits. -/
theorem toNat_foldl_append (base start : UInt32) (key : Bytes) :
    (key.foldl (append base) start).toNat =
      (start.toNat * base.toNat ^ key.length + Bytes.polynomial base.toNat key) % 2 ^ 32 := by
  induction key generalizing start with
  | nil => simp [Bytes.polynomial]
  | cons byte key ih =>
    -- The state after the first byte is reduced, and then counts with the power of what follows.
    have hfirst : (append base start byte).toNat ≡
        start.toNat * base.toNat + byte.toNat [MOD 2 ^ 32] := by
      rw [toNat_append]
      exact Nat.mod_modEq _ _
    calc ((byte :: key).foldl (append base) start).toNat
        = ((append base start byte).toNat * base.toNat ^ key.length +
            Bytes.polynomial base.toNat key) % 2 ^ 32 := ih _
      _ = ((start.toNat * base.toNat + byte.toNat) * base.toNat ^ key.length +
            Bytes.polynomial base.toNat key) % 2 ^ 32 := (hfirst.mul_right _).add_right _
      _ = (start.toNat * base.toNat ^ (byte :: key).length +
            Bytes.polynomial base.toNat (byte :: key)) % 2 ^ 32 := by
          rw [Bytes.polynomial_cons, List.length_cons, pow_succ' base.toNat, Nat.add_mul, Nat.mul_assoc,
            Nat.add_assoc]

end Digest

/-- **The two hashes of 32 bits are polynomials of the key** modulo `2 ^ 32`, although each round drops
bits and wraps around. -/
theorem digests_are_polynomials (key : Bytes) :
    ((Strategy.djb2.hash key).toNat = (5381 * 33 ^ key.length +
        ∑ i : Fin key.length, key[i].toNat * 33 ^ (key.length - 1 - i)) % 2 ^ 32 ∧
      (Strategy.djb2.hash key).toNat < 2 ^ 32) ∧
    (Strategy.sdbm.hash key).toNat =
        (∑ i : Fin key.length, key[i].toNat * 65599 ^ (key.length - 1 - i)) % 2 ^ 32 ∧
      (Strategy.sdbm.hash key).toNat < 2 ^ 32 := by
  have hdjb2 : (Strategy.djb2.hash key).toNat =
      (5381 * 33 ^ key.length + Bytes.polynomial 33 key) % 2 ^ 32 := by
    show (Digest.djb2 key).toNat = _
    rw [Digest.djb2_eq_foldl, UInt32.toNat_toUInt64, Digest.toNat_foldl_append]
    rfl
  have hsdbm : (Strategy.sdbm.hash key).toNat = Bytes.polynomial 65599 key % 2 ^ 32 := by
    show (Digest.sdbm key).toNat = _
    rw [Digest.sdbm_eq_foldl, UInt32.toNat_toUInt64, Digest.toNat_foldl_append, UInt32.toNat_zero,
      Nat.zero_mul, Nat.zero_add]
    rfl
  refine ⟨⟨hdjb2, ?_⟩, hsdbm, ?_⟩
  · rw [hdjb2]
    exact Nat.mod_lt _ (by decide)
  · rw [hsdbm]
    exact Nat.mod_lt _ (by decide)

/-- The hashes of a key of two bytes. -/
example : Strategy.djb2.hash [1, 255] = 5381 * 33 * 33 + 33 + 255 ∧
    Strategy.sdbm.hash [1, 255] = 65599 + 255 := by decide

end TagTable
