import TagTable.Proofs.Memory.Geometry
import TagTable.Proofs.Memory.Rounding

/-!
# Alignments of groups

The alignment of a group is a power of two that divides the start of every group, and so does every
power of two that one of the two pads allows.

* `Geometry.isPowerOfTwo_align`, `Geometry.groupSize_le_align`, **`Geometry.align_dvd_stride`**: the
  alignment of an accepted geometry;
* `Geometry.keyPad_lt`, `Geometry.valuePad_lt`: its pads are words;
* **`Geometry.dvd_align_of_dvd_keyPad`**, `Geometry.dvd_align_of_dvd_valuePad`: what divides the
  alignment.
-/

namespace TagTable

namespace Geometry

variable {e : EntryLayout} {x : Geometry} {a : Nat}

/-! ## The alignment -/

theorem isPowerOfTwo_alignFor (e : EntryLayout) : (alignFor e).isPowerOfTwo :=
  isPowerOfTwo_max (isPowerOfTwo_max ⟨4, rfl⟩ (isPowerOfTwo_powerOfTwoIn _))
    (isPowerOfTwo_powerOfTwoIn _)

theorem isPowerOfTwo_align (h : ofEntry e = .ok x) : x.align.isPowerOfTwo := by
  obtain ⟨-, rfl, -⟩ := ofEntry_eq_ok.1 h
  exact isPowerOfTwo_alignFor e

theorem groupSize_le_align (h : ofEntry e = .ok x) : groupSize ≤ x.align := by
  obtain ⟨-, rfl, -⟩ := ofEntry_eq_ok.1 h
  exact Nat.le_trans (Nat.le_max_left ..) (Nat.le_max_left ..)

/-- **Every group starts at a multiple of the alignment.** -/
theorem align_dvd_stride (h : ofEntry e = .ok x) : x.align ∣ x.stride := by
  obtain ⟨-, rfl, -⟩ := ofEntry_eq_ok.1 h
  exact dvd_nextMultiple (Nat.pos_of_isPowerOfTwo (isPowerOfTwo_alignFor e))

theorem align_dvd_groupAddress (h : ofEntry e = .ok x) (group : Nat) :
    x.align ∣ x.groupAddress group :=
  Nat.dvd_mul_left_of_dvd (align_dvd_stride h) group

/-! ## The pads -/

theorem keyPad_pos (h : 0 < e.keySize) : 0 < keyPad e := Nat.lt_of_lt_of_le h (Nat.le_max_right ..)

theorem valuePad_pos (e : EntryLayout) : 0 < valuePad e :=
  Nat.lt_of_lt_of_le Nat.one_pos (Nat.le_max_right ..)

theorem keyPad_dvd_keyOffset (h : ofEntry e = .ok x) : keyPad e ∣ x.keyOffset := by
  obtain ⟨hk, rfl, -⟩ := ofEntry_eq_ok.1 h
  exact dvd_nextMultiple (keyPad_pos hk)

theorem valuePad_dvd_valueOffset (h : ofEntry e = .ok x) : valuePad e ∣ x.valueOffset := by
  obtain ⟨-, rfl, -⟩ := ofEntry_eq_ok.1 h
  exact dvd_nextMultiple (valuePad_pos e)

theorem offsets_of_ofEntry (h : ofEntry e = .ok x) :
    groupSize ≤ x.keyOffset ∧ x.keyOffset + groupSize * x.keySize ≤ x.valueOffset ∧
      x.valueOffset + groupSize * x.valueSize ≤ x.stride ∧ x.stride < wordBound := by
  obtain ⟨-, rfl, hlt⟩ := ofEntry_eq_ok.1 h
  obtain ⟨htags, hkeys, hvalues⟩ := le_stride_exact e
  rw [Nat.add_comm, Nat.mul_comm] at hkeys hvalues
  exact ⟨htags, hkeys, hvalues, hlt⟩

theorem keyPad_lt (h : ofEntry e = .ok x) : keyPad e < wordBound := by
  obtain ⟨htags, hkeys, hvalues, hlt⟩ := offsets_of_ofEntry h
  have hpos : 0 < x.keyOffset := Nat.lt_of_lt_of_le (by decide) htags
  have hle := Nat.le_of_dvd hpos (keyPad_dvd_keyOffset h)
  omega

theorem valuePad_lt (h : ofEntry e = .ok x) : valuePad e < wordBound := by
  obtain ⟨htags, hkeys, hvalues, hlt⟩ := offsets_of_ofEntry h
  have hpos : 0 < x.valueOffset :=
    Nat.lt_of_lt_of_le (by decide) (htags.trans ((Nat.le_add_right ..).trans hkeys))
  have hle := Nat.le_of_dvd hpos (valuePad_dvd_valueOffset h)
  omega

theorem dvd_alignFor_of_dvd_pad {pad : Nat} (ha : a.isPowerOfTwo) (hd : a ∣ pad) (h0 : 0 < pad)
    (hlt : pad < wordBound) (hle : powerOfTwoIn pad ≤ alignFor e) : a ∣ alignFor e :=
  dvd_of_isPowerOfTwo_of_le ha (isPowerOfTwo_alignFor e)
    (((isGreatest_powerOfTwoIn h0 hlt).2 ⟨ha, hd⟩).trans hle)

/-- **A power of two that divides the pad of the keys divides the alignment.** -/
theorem dvd_align_of_dvd_keyPad (h : ofEntry e = .ok x) (ha : a.isPowerOfTwo) (hd : a ∣ keyPad e) :
    a ∣ x.align := by
  have hlt := keyPad_lt h
  obtain ⟨hk, rfl, -⟩ := ofEntry_eq_ok.1 h
  exact dvd_alignFor_of_dvd_pad ha hd (keyPad_pos hk) hlt
    (Nat.le_trans (Nat.le_max_right ..) (Nat.le_max_left ..))

theorem dvd_align_of_dvd_valuePad (h : ofEntry e = .ok x) (ha : a.isPowerOfTwo)
    (hd : a ∣ valuePad e) : a ∣ x.align := by
  have hlt := valuePad_lt h
  obtain ⟨-, rfl, -⟩ := ofEntry_eq_ok.1 h
  exact dvd_alignFor_of_dvd_pad ha hd (valuePad_pos e) hlt (Nat.le_max_right ..)

end Geometry

end TagTable
