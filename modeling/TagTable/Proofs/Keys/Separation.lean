import Mathlib.Data.List.Basic
import Mathlib.Data.UInt
import TagTable.Proofs.Keys.Polynomial

/-!
# Keys that differ in one byte

A round of a hash that loses neither the state nor the byte tells keys apart that differ in one byte,
whatever comes before and after it.

* `DifferOnce`, `DifferOnce.exists_append`: two keys with one position at which they differ;
* `Separating`, **`Separating.foldl_ne`**: rounds that lose nothing, one after the other;
* `Digest.separating_fnv1a`, `Digest.separating_append`: multiplications by odd numbers lose nothing;
* **`single_changes_never_collide`**: the hashes of two such keys.
-/

namespace TagTable

/-- Two keys of the same length with exactly one position at which they differ. -/
structure DifferOnce (a b : Bytes) : Prop where
  length : a.length = b.length
  position : ∃! i : Nat, a[i]? ≠ b[i]?

theorem DifferOnce.exists_append {a b : Bytes} (h : DifferOnce a b) :
    ∃ before x y after, x ≠ y ∧ a = before ++ x :: after ∧ b = before ++ y :: after := by
  obtain ⟨i, hne, hunique⟩ := h.position
  have ha : i < a.length := by
    by_contra hge
    rw [List.getElem?_eq_none (Nat.le_of_not_lt hge),
      List.getElem?_eq_none (h.length ▸ Nat.le_of_not_lt hge)] at hne
    exact hne rfl
  have hb : i < b.length := h.length ▸ ha
  have hset : a.set i b[i] = b := by
    refine List.ext_getElem? fun j => ?_
    rw [List.getElem?_set]
    split_ifs with hij
    · rw [← hij, List.getElem?_eq_getElem hb]
    · by_contra hdiffer
      exact hij (hunique j hdiffer).symm
  rw [List.set_eq_take_append_cons_drop, if_pos ha] at hset
  refine ⟨a.take i, a[i], b[i], a.drop (i + 1), fun heq => hne ?_, ?_, hset.symm⟩
  · rw [List.getElem?_eq_getElem ha, List.getElem?_eq_getElem hb, heq]
  · rw [List.getElem_cons_drop, List.take_append_drop]

/-! ## Rounds that lose nothing -/

variable {σ : Type}

/-- Neither two states nor two bytes lead to the same next state. -/
structure Separating (round : σ → UInt8 → σ) : Prop where
  state : ∀ byte, Function.Injective (round · byte)
  byte : ∀ state, Function.Injective (round state)

namespace Separating

variable {round : σ → UInt8 → σ} (h : Separating round)

include h

theorem foldl_injective (key : Bytes) : Function.Injective fun state => key.foldl round state := by
  induction key with
  | nil => exact Function.injective_id
  | cons byte key ih => exact ih.comp (h.state byte)

/-- **Keys that differ in one byte lead to different states.** -/
theorem foldl_ne {a b : Bytes} (hab : DifferOnce a b) (start : σ) :
    a.foldl round start ≠ b.foldl round start := by
  obtain ⟨before, x, y, after, hxy, rfl, rfl⟩ := hab.exists_append
  rw [List.foldl_append, List.foldl_append]
  exact (h.foldl_injective after).ne ((h.byte _).ne hxy)

end Separating

namespace Digest

theorem isUnit_fnvPrime : IsUnit fnvPrime := .of_mul_eq_one 0xce965057aff6957b (by decide)

theorem separating_fnv1a :
    Separating fun (hash : UInt64) byte => (hash ^^^ byte.toUInt64) * fnvPrime where
  state _ _ _ h := (UInt64.xor_left_inj _).1 (isUnit_fnvPrime.mul_left_inj.1 h)
  byte _ _ _ h :=
    UInt8.toUInt64_inj.1 ((UInt64.xor_right_inj _).1 (isUnit_fnvPrime.mul_left_inj.1 h))

theorem separating_append {base : UInt32} (hbase : IsUnit base) : Separating (append base) where
  state _ _ _ h := hbase.mul_left_inj.1 ((UInt32.add_left_inj _).1 h)
  byte _ _ _ h := UInt8.toUInt32_inj.1 ((UInt32.add_right_inj _).1 h)

end Digest

/-- **A change of a single byte always changes the hash**, for keys of any length. -/
theorem single_changes_never_collide {a b : Bytes} (h : DifferOnce a b) :
    Strategy.fnv1a.hash a ≠ Strategy.fnv1a.hash b ∧ Strategy.djb2.hash a ≠ Strategy.djb2.hash b ∧
      Strategy.sdbm.hash a ≠ Strategy.sdbm.hash b := by
  have h33 : IsUnit (33 : UInt32) := .of_mul_eq_one 0x3e0f83e1 (by decide)
  have h65599 : IsUnit (65599 : UInt32) := .of_mul_eq_one 0x8e7aefbf (by decide)
  refine ⟨Digest.separating_fnv1a.foldl_ne h _, fun heq => ?_, fun heq => ?_⟩
  · change Digest.djb2 a = Digest.djb2 b at heq
    rw [Digest.djb2_eq_foldl, Digest.djb2_eq_foldl] at heq
    exact (Digest.separating_append h33).foldl_ne h _ (UInt32.toUInt64_inj.1 heq)
  · change Digest.sdbm a = Digest.sdbm b at heq
    rw [Digest.sdbm_eq_foldl, Digest.sdbm_eq_foldl] at heq
    exact (Digest.separating_append h65599).foldl_ne h _ (UInt32.toUInt64_inj.1 heq)

/-- Two keys of five bytes that differ in the fourth. -/
theorem single_changes_never_collide_fourth :
    DifferOnce [0, 255, 7, 0, 9] [0, 255, 7, 128, 9] ∧
      Strategy.fnv1a.hash [0, 255, 7, 0, 9] ≠ Strategy.fnv1a.hash [0, 255, 7, 128, 9] ∧
      Strategy.djb2.hash [0, 255, 7, 0, 9] ≠ Strategy.djb2.hash [0, 255, 7, 128, 9] ∧
      Strategy.sdbm.hash [0, 255, 7, 0, 9] ≠ Strategy.sdbm.hash [0, 255, 7, 128, 9] := by
  have hone : DifferOnce [0, 255, 7, 0, 9] [0, 255, 7, 128, 9] := by
    refine ⟨rfl, 3, by decide, fun i hi => ?_⟩
    rcases i with _ | _ | _ | _ | _ | i
    case succ.succ.succ.zero => rfl
    all_goals exact absurd rfl hi
  exact ⟨hone, single_changes_never_collide hone⟩

end TagTable
