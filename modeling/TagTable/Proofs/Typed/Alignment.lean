import TagTable.Proofs.Memory.Alignment
import TagTable.Typed.Compound

/-!
# Aligned references

In the buffer of a map every key and every value is at an address that its type allows.

* `EntryLayout.Regular`, `Plain.Aligned`: sizes that are multiples of the alignments, as those of types
  are;
* `Geometry.align_dvd_keyAddress`, `Geometry.align_dvd_valueAddress`;
* **`references_aligned`**: the addresses of all keys and values.
-/

namespace TagTable

/-- Alignments are powers of two, and sizes are multiples of them. -/
structure EntryLayout.Regular (e : EntryLayout) : Prop where
  keyAlign : e.keyAlign.isPowerOfTwo
  keySize : e.keyAlign ∣ e.keySize
  valueAlign : e.valueAlign.isPowerOfTwo
  valueSize : e.valueAlign ∣ e.valueSize

/-- A type whose values can stand side by side in memory. -/
class Plain.Aligned (α : Type) [Plain α] : Prop where
  isPowerOfTwo_align : (Plain.align α).isPowerOfTwo
  align_dvd_size : Plain.align α ∣ Plain.size α

instance : Plain.Aligned UInt8 := ⟨⟨0, rfl⟩, by decide⟩
instance : Plain.Aligned UInt16 := ⟨⟨1, rfl⟩, by decide⟩
instance : Plain.Aligned UInt32 := ⟨⟨2, rfl⟩, by decide⟩
instance : Plain.Aligned UInt64 := ⟨⟨3, rfl⟩, by decide⟩
instance : Plain.Aligned Int32 := ⟨⟨2, rfl⟩, by decide⟩
instance : Plain.Aligned Int64 := ⟨⟨3, rfl⟩, by decide⟩
instance : Plain.Aligned Binary64 := ⟨⟨3, rfl⟩, by decide⟩
instance : Plain.Aligned Unit := ⟨⟨0, rfl⟩, by decide⟩
instance {n : Nat} : Plain.Aligned (Vector UInt8 n) := ⟨⟨0, rfl⟩, Nat.one_dvd n⟩
instance : Plain.Aligned Point := ⟨⟨2, rfl⟩, by decide⟩

theorem EntryLayout.regular_ofTypes (K V : Type) [Plain K] [Plain V] [Plain.Aligned K]
    [Plain.Aligned V] : (ofTypes K V).Regular :=
  ⟨Plain.Aligned.isPowerOfTwo_align, Plain.Aligned.align_dvd_size, Plain.Aligned.isPowerOfTwo_align,
    Plain.Aligned.align_dvd_size⟩

namespace Geometry

variable {e : EntryLayout} {x : Geometry}

theorem keyPad_eq (hr : e.Regular) (h0 : 0 < e.keySize) : keyPad e = e.keySize :=
  Nat.max_eq_right (Nat.le_of_dvd h0 hr.keySize)

theorem valueAlign_dvd_valuePad (hr : e.Regular) : e.valueAlign ∣ valuePad e := by
  have hpos := Nat.pos_of_isPowerOfTwo hr.valueAlign
  rw [valuePad, Nat.max_eq_left (Nat.le_trans hpos (Nat.le_max_left ..))]
  rcases Nat.eq_zero_or_pos e.valueSize with h0 | h0
  · exact ⟨1, by rw [h0, Nat.max_zero, Nat.mul_one]⟩
  · rw [Nat.max_eq_right (Nat.le_of_dvd h0 hr.valueSize)]
    exact hr.valueSize

theorem keyAlign_dvd_align (h : ofEntry e = .ok x) (hr : e.Regular) : e.keyAlign ∣ x.align := by
  obtain ⟨h0, -, -⟩ := ofEntry_eq_ok.1 h
  exact dvd_align_of_dvd_keyPad h hr.keyAlign (keyPad_eq hr h0 ▸ hr.keySize)

theorem valueAlign_dvd_align (h : ofEntry e = .ok x) (hr : e.Regular) : e.valueAlign ∣ x.align :=
  dvd_align_of_dvd_valuePad h hr.valueAlign (valueAlign_dvd_valuePad hr)

theorem dvd_element {a start offset size : Nat} (hstart : a ∣ start) (hoffset : a ∣ offset)
    (hsize : a ∣ size) (slot : Nat) : a ∣ start + offset + slot * size :=
  Nat.dvd_add (Nat.dvd_add hstart hoffset) (Nat.dvd_mul_left_of_dvd hsize slot)

theorem align_dvd_keyAddress (h : ofEntry e = .ok x) (hr : e.Regular) (group slot : Nat) :
    e.keyAlign ∣ x.keyAddress group slot := by
  obtain ⟨h0, -, -⟩ := ofEntry_eq_ok.1 h
  have hgroup := Nat.dvd_trans (keyAlign_dvd_align h hr) (align_dvd_groupAddress h group)
  have hoffset := keyPad_dvd_keyOffset h
  rw [keyPad_eq hr h0] at hoffset
  refine dvd_element hgroup (Nat.dvd_trans hr.keySize hoffset) ?_ slot
  rw [keySize_of_ofEntry h]
  exact hr.keySize

theorem align_dvd_valueAddress (h : ofEntry e = .ok x) (hr : e.Regular) (group slot : Nat) :
    e.valueAlign ∣ x.valueAddress group slot := by
  have hgroup := Nat.dvd_trans (valueAlign_dvd_align h hr) (align_dvd_groupAddress h group)
  have hoffset := Nat.dvd_trans (valueAlign_dvd_valuePad hr) (valuePad_dvd_valueOffset h)
  refine dvd_element hgroup hoffset ?_ slot
  rw [valueSize_of_ofEntry h]
  exact hr.valueSize

end Geometry

/-- **Every reference to a key or a value is aligned.** In an accepted geometry for regular entries,
such as those of two types, the alignment of a group and all offsets in it are multiples of the
alignments. -/
theorem references_aligned {e : EntryLayout} {x : Geometry} (h : Geometry.ofEntry e = .ok x)
    (hr : e.Regular) :
    (e.keyAlign ∣ x.align ∧ e.valueAlign ∣ x.align) ∧
      (∀ group slot : Nat, e.keyAlign ∣ x.keyAddress group slot ∧
        e.valueAlign ∣ x.valueAddress group slot) ∧
      ∀ buffer : Nat, x.align ∣ buffer → ∀ group slot : Nat,
        e.keyAlign ∣ buffer + x.keyAddress group slot ∧
          e.valueAlign ∣ buffer + x.valueAddress group slot := by
  have hkey := Geometry.keyAlign_dvd_align h hr
  have hvalue := Geometry.valueAlign_dvd_align h hr
  have hoffsets := fun group slot =>
    And.intro (Geometry.align_dvd_keyAddress h hr group slot)
      (Geometry.align_dvd_valueAddress h hr group slot)
  refine ⟨⟨hkey, hvalue⟩, hoffsets, fun buffer hb group slot => ?_⟩
  obtain ⟨hk, hv⟩ := hoffsets group slot
  exact ⟨Nat.dvd_add (Nat.dvd_trans hkey hb) hk, Nat.dvd_add (Nat.dvd_trans hvalue hb) hv⟩

/-- Points as keys, with values that take no bytes. -/
theorem references_aligned_points :
    (EntryLayout.ofTypes Point Unit).Regular ∧
      Geometry.ofEntry (EntryLayout.ofTypes Point Unit) = .ok ⟨8, 0, 16, 144, 144, 16⟩ ∧
      (⟨8, 0, 16, 144, 144, 16⟩ : Geometry).keyAddress 3 5 = 488 ∧ 4 ∣ 4096 + 488 := by
  have hx : Geometry.ofEntry (EntryLayout.ofTypes Point Unit) = .ok ⟨8, 0, 16, 144, 144, 16⟩ := by
    decide +kernel
  have hr := EntryLayout.regular_ofTypes Point Unit
  exact ⟨hr, hx, rfl, ((references_aligned hx hr).2.2 4096 (by decide) 3 5).1⟩

/-- Keys of 48 bytes that are to be aligned to 32 are not. -/
example : Geometry.ofEntry ⟨48, 32, 1, 1⟩ = .ok ⟨48, 1, 48, 816, 832, 16⟩ ∧
    ¬ 32 ∣ (⟨48, 1, 48, 816, 832, 16⟩ : Geometry).keyAddress 0 0 := by
  decide +kernel

end TagTable
