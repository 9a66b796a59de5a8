import TagTable.Proofs.Memory.Alignment

/-!
# Tight geometries

The geometry of given entries wastes no more room than its alignments ask for, and it is refused only
when it does not fit into words.

* `EntryLayout.InWords`: sizes and alignments that are 64-bit words;
* `Geometry.Tightest`, `Geometry.Tightest.unique`, **`Geometry.tightest_exact`**: the geometry in which
  everything starts as early as it may;
* **`Geometry.bufferBlock_eq`**: the blocks that can be asked for;
* **`geometry_tightest`**: the geometries and the blocks as they are computed.
-/

namespace TagTable

/-- Sizes and alignments that are 64-bit words. -/
structure EntryLayout.InWords (e : EntryLayout) : Prop where
  keySize : e.keySize < wordBound
  keyAlign : e.keyAlign < wordBound
  valueSize : e.valueSize < wordBound
  valueAlign : e.valueAlign < wordBound

namespace Geometry

/-- **Everything starts as early as its pad and what precedes it allow**, in unbounded arithmetic. -/
structure Tightest (e : EntryLayout) (x : Geometry) : Prop where
  keySize : x.keySize = e.keySize
  valueSize : x.valueSize = e.valueSize
  /-- The keys start at the least multiple of their pad after the tags. -/
  keyOffset : IsLeast {n | max e.keyAlign e.keySize ∣ n ∧ 16 ≤ n} x.keyOffset
  /-- The values start at the least multiple of theirs after the keys. -/
  valueOffset :
    IsLeast {n | max (max e.valueAlign e.valueSize) 1 ∣ n ∧ x.keyOffset + 16 * e.keySize ≤ n}
      x.valueOffset
  /-- The alignment is the largest among that of the tags and the powers of two in the pads. -/
  align : ∃ keys values,
    IsGreatest {q | q.isPowerOfTwo ∧ q ∣ max e.keyAlign e.keySize} keys ∧
      IsGreatest {q | q.isPowerOfTwo ∧ q ∣ max (max e.valueAlign e.valueSize) 1} values ∧
        x.align = max (max 16 keys) values
  /-- The next group starts at the least multiple of the alignment after the values. -/
  stride : IsLeast {n | x.align ∣ n ∧ x.valueOffset + 16 * e.valueSize ≤ n} x.stride

variable {e : EntryLayout} {x y : Geometry}

theorem Tightest.unique (hx : Tightest e x) (hy : Tightest e y) : x = y := by
  obtain ⟨keys, values, hkeys, hvalues, hxa⟩ := hx.align
  obtain ⟨keys', values', hkeys', hvalues', hya⟩ := hy.align
  have halign : x.align = y.align := by
    rw [hxa, hya, hkeys.unique hkeys', hvalues.unique hvalues']
  have hkey : x.keyOffset = y.keyOffset := hx.keyOffset.unique hy.keyOffset
  have hvalue : x.valueOffset = y.valueOffset := (hkey ▸ hx.valueOffset).unique hy.valueOffset
  have hstride : x.stride = y.stride := (halign ▸ hvalue ▸ hx.stride).unique hy.stride
  have hsizes : x.keySize = y.keySize ∧ x.valueSize = y.valueSize :=
    ⟨hx.keySize.trans hy.keySize.symm, hx.valueSize.trans hy.valueSize.symm⟩
  cases x
  cases y
  simp_all

theorem keyPad_lt_of_inWords (hw : e.InWords) : keyPad e < wordBound :=
  Nat.max_lt.2 ⟨hw.keyAlign, hw.keySize⟩

theorem valuePad_lt_of_inWords (hw : e.InWords) : valuePad e < wordBound :=
  Nat.max_lt.2 ⟨Nat.max_lt.2 ⟨hw.valueAlign, hw.valueSize⟩, by decide⟩

/-- **The geometry in unbounded arithmetic is the tightest one.** -/
theorem tightest_exact (hw : e.InWords) (h0 : 0 < e.keySize) : Tightest e (exact e) where
  keySize := rfl
  valueSize := rfl
  keyOffset := isLeast_nextMultiple (keyPad_pos h0)
  valueOffset := by
    have h : (exact e).valueOffset =
        nextMultiple ((exact e).keyOffset + 16 * e.keySize) (valuePad e) := by
      rw [Nat.add_comm, Nat.mul_comm]
      rfl
    exact h ▸ isLeast_nextMultiple (valuePad_pos e)
  align := ⟨_, _, isGreatest_powerOfTwoIn (keyPad_pos h0) (keyPad_lt_of_inWords hw),
    isGreatest_powerOfTwoIn (valuePad_pos e) (valuePad_lt_of_inWords hw), rfl⟩
  stride := by
    have h : (exact e).stride =
        nextMultiple ((exact e).valueOffset + 16 * e.valueSize) (alignFor e) := by
      rw [Nat.add_comm, Nat.mul_comm]
      rfl
    exact h ▸ isLeast_nextMultiple (Nat.pos_of_isPowerOfTwo (isPowerOfTwo_alignFor e))

theorem ofEntry_eq_error (h : ∀ x, ofEntry e ≠ .ok x) : ofEntry e = .error .invalidArgument := by
  cases hx : ofEntry e with
  | ok x => exact absurd hx (h x)
  | error error =>
    rw [ofEntry] at hx
    split_ifs at hx
    · exact hx.symm
    · cases hc : compute? e with
      | none =>
        rw [hc] at hx
        exact hx.symm
      | some x =>
        rw [hc] at hx
        exact absurd hx (by simp)

theorem nextMultiple_bufferSize (h : ofEntry e = .ok x) (groups : Nat) :
    nextMultiple (groups * x.stride) x.align = groups * x.stride :=
  nextMultiple_eq_self (Nat.dvd_mul_left_of_dvd (align_dvd_stride h) groups)

/-- **The block of a number of groups**, which is as large as they are, if that is not too large. -/
theorem bufferBlock_eq (h : ofEntry e = .ok x) (groups : Nat) :
    x.bufferBlock groups =
      if groups * x.stride ≤ maxBlockSize then .ok ⟨groups * x.stride, x.align⟩
      else .error .outOfMemory := by
  have hround := nextMultiple_bufferSize h groups
  rw [bufferBlock, Nat.mul_comm]
  by_cases hle : groups * x.stride ≤ maxBlockSize
  · have hword : groups * x.stride < wordBound := Nat.lt_of_le_of_lt hle (by decide)
    rw [checked_eq_some_iff.2 ⟨hword, rfl⟩, if_pos hle]
    simp only [Block.ofSizeAlign?, hround, if_pos hle]
  · rw [if_neg hle]
    cases hsize : checked (groups * x.stride) with
    | none => rfl
    | some size =>
      obtain ⟨-, rfl⟩ := checked_eq_some_iff.1 hsize
      simp only [Block.ofSizeAlign?, hround, if_neg hle]

end Geometry

/-- **Geometries are tight and refused only when they must be.** What is computed is the one tightest
geometry, if its stride is a word, and a buffer has the size of its groups, if a block may have that
size. -/
theorem geometry_tightest {e : EntryLayout} (hw : e.InWords) :
    (e.keySize = 0 → Geometry.ofEntry e = .error .invalidArgument) ∧
      (0 < e.keySize → ∃ x, Geometry.Tightest e x ∧ (∀ y, Geometry.Tightest e y → y = x) ∧
        Geometry.ofEntry e = if x.stride < 2 ^ 64 then .ok x else .error .invalidArgument) ∧
      ∀ x, Geometry.ofEntry e = .ok x → ∀ groups : Nat,
        nextMultiple (groups * x.stride) x.align = groups * x.stride ∧
          x.bufferBlock groups =
            if groups * x.stride ≤ 2 ^ 63 - 1 then .ok ⟨groups * x.stride, x.align⟩
            else .error .outOfMemory := by
  refine ⟨fun h0 => ?_, fun h0 => ?_, fun x hx groups => ?_⟩
  · rw [Geometry.ofEntry, if_pos h0]
  · have hx := Geometry.tightest_exact hw h0
    refine ⟨Geometry.exact e, hx, fun y hy => hy.unique hx, ?_⟩
    split_ifs with hlt
    · exact Geometry.ofEntry_eq_ok.2 ⟨h0, rfl, hlt⟩
    · exact Geometry.ofEntry_eq_error fun x hx => hlt (Geometry.ofEntry_eq_ok.1 hx).2.2
  · have hmax : (2 : Nat) ^ 63 - 1 = maxBlockSize := by decide
    rw [hmax]
    exact ⟨Geometry.nextMultiple_bufferSize hx groups, Geometry.bufferBlock_eq hx groups⟩

/-- Keys whose pad is their size, and values whose size is odd. -/
theorem geometry_tightest_oddValues :
    (⟨96, 1, 7, 2⟩ : EntryLayout).InWords ∧
      Geometry.Tightest ⟨96, 1, 7, 2⟩ ⟨96, 7, 96, 1638, 1760, 32⟩ ∧
        (⟨96, 7, 96, 1638, 1760, 32⟩ : Geometry).bufferBlock 3 = .ok ⟨5280, 32⟩ ∧
          (⟨96, 7, 96, 1638, 1760, 32⟩ : Geometry).bufferBlock (2 ^ 63 - 1) =
            .error .outOfMemory := by
  have hw : (⟨96, 1, 7, 2⟩ : EntryLayout).InWords := ⟨by decide, by decide, by decide, by decide⟩
  have hok : Geometry.ofEntry ⟨96, 1, 7, 2⟩ = .ok ⟨96, 7, 96, 1638, 1760, 32⟩ := by decide +kernel
  obtain ⟨-, hsome, hblock⟩ := geometry_tightest hw
  obtain ⟨x, hx, -, heq⟩ := hsome (by decide)
  have hxe : x = ⟨96, 7, 96, 1638, 1760, 32⟩ := by
    rw [hok] at heq
    split_ifs at heq
    exact (Except.ok.inj heq).symm
  exact ⟨hw, hxe ▸ hx, (hblock _ hok 3).2.trans (if_pos (by decide)),
    (hblock _ hok (2 ^ 63 - 1)).2.trans (if_neg (by decide))⟩

end TagTable
