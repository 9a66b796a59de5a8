import TagTable.Proofs.Memory.Alignment
import TagTable.Proofs.Run.Reachable
import TagTable.Table.Stats

/-!
# Statistics of memory

What the statistics say about the memory of a table, and that computing it never leaves the words.

* `Geometry.entries_add_tags_le_stride`: a group has room for its tags and for sixteen entries;
* `Stats.Consistent`: what the statistics of one table have to do with each other;
* `Table.totalBytes_eq`, **`Table.liveBytes_add_tags_le`**: the bytes of the buffer, and those in use;
* `Table.wastedBytes?`, **`Table.wastedBytes?_eq_some`**: the other bytes as they are computed in words;
* **`memory_accounted`**: every byte is accounted for.
-/

namespace TagTable

theorem Geometry.entries_add_tags_le_stride {e : EntryLayout} {x : Geometry}
    (h : ofEntry e = .ok x) : groupSize * (x.keySize + x.valueSize) + groupSize ≤ x.stride := by
  obtain ⟨htags, hkeys, hvalues, -⟩ := offsets_of_ofEntry h
  rw [Nat.mul_add]
  omega

/-- **The statistics agree with each other** when the key and the value of an entry have `entrySize`
bytes. -/
structure Stats.Consistent (s : Stats) (entrySize : Nat) : Prop where
  total : s.totalBytes = s.groups * s.stride
  total_le : s.totalBytes ≤ 2 ^ 63 - 1
  room : s.entries * entrySize + 16 * s.groups ≤ s.totalBytes
  wasted : s.wastedBytes + s.entries * entrySize = s.totalBytes
  /-- The tags are among the bytes that hold no entry. -/
  tags : 16 * s.groups ≤ s.wastedBytes
  capacity : s.capacity = 16 * s.groups
  load : s.entries + s.tombstones ≤ s.loadLimit
  limit : s.loadLimit ≤ s.capacity

namespace Table

/-- The bytes that hold neither a key nor a value of an entry, each step of whose computation has to
stay a 64-bit word. -/
def wastedBytes? (t : Table) : Option Nat := do
  let entrySize ← checked (t.geometry.keySize + t.geometry.valueSize)
  let live ← checked (t.count * entrySize)
  if live ≤ t.totalBytes then some (t.totalBytes - live) else none

variable {t : Table}

theorem totalBytes_eq (hi : t.Invariant) :
    t.totalBytes = t.groups.size * t.geometry.stride ∧ t.totalBytes ≤ maxBlockSize := by
  rw [totalBytes]
  rcases hb : t.geometry.bufferBlock t.groups.size with error | block
  · have h0 : t.groups.size = 0 := by
      by_contra hne
      obtain ⟨block, hok⟩ := hi.block hne
      rw [hb] at hok
      exact absurd hok (by simp)
    rw [h0, Nat.zero_mul]
    exact ⟨rfl, Nat.zero_le _⟩
  · obtain ⟨rfl, hle⟩ := Geometry.bufferBlock_eq_ok hb
    exact ⟨Nat.mul_comm .., hle⟩

/-- **The buffer has room for the entries and for the tags.** -/
theorem liveBytes_add_tags_le (hi : t.Invariant) :
    t.liveBytes + groupSize * t.groups.size ≤ t.totalBytes := by
  have hcount : t.count ≤ groupSize * t.groups.size :=
    (Nat.le_add_right ..).trans (hi.load.trans (loadLimit_le _))
  calc t.liveBytes + groupSize * t.groups.size
      ≤ groupSize * t.groups.size * (t.geometry.keySize + t.geometry.valueSize) +
          groupSize * t.groups.size := Nat.add_le_add_right (Nat.mul_le_mul_right _ hcount) _
    _ = t.groups.size *
          (groupSize * (t.geometry.keySize + t.geometry.valueSize) + groupSize) := by
        rw [Nat.mul_add t.groups.size, Nat.mul_comm groupSize t.groups.size, Nat.mul_assoc]
    _ ≤ t.groups.size * t.geometry.stride :=
        Nat.mul_le_mul_left _ (Geometry.entries_add_tags_le_stride hi.geometry)
    _ = t.totalBytes := (totalBytes_eq hi).1.symm

/-- **Computing the bytes without an entry never leaves the words.** -/
theorem wastedBytes?_eq_some (hi : t.Invariant) :
    t.wastedBytes? = some (t.totalBytes - t.liveBytes) := by
  have hgroup := Geometry.entries_add_tags_le_stride hi.geometry
  obtain ⟨-, -, -, hstride⟩ := Geometry.offsets_of_ofEntry hi.geometry
  have hlive : t.liveBytes ≤ t.totalBytes := (Nat.le_add_right ..).trans (liveBytes_add_tags_le hi)
  have hmax : maxBlockSize < wordBound := by decide
  have hword : t.liveBytes < wordBound := (hlive.trans (totalBytes_eq hi).2).trans_lt hmax
  have hentry : t.geometry.keySize + t.geometry.valueSize < wordBound := by
    unfold groupSize at hgroup
    omega
  rw [wastedBytes?, checked_eq_some_iff.2 ⟨hentry, rfl⟩]
  show (checked t.liveBytes).bind _ = _
  rw [checked_eq_some_iff.2 ⟨hword, rfl⟩]
  exact if_pos hlive

theorem consistent_stats (hi : t.Invariant) :
    t.stats.Consistent (t.geometry.keySize + t.geometry.valueSize) := by
  obtain ⟨htotal, hle⟩ := totalBytes_eq hi
  have hroom := liveBytes_add_tags_le hi
  have hwasted : t.stats.wastedBytes = t.totalBytes - t.liveBytes := rfl
  have hlive : t.stats.entries * (t.geometry.keySize + t.geometry.valueSize) = t.liveBytes := rfl
  exact
    { total := htotal
      total_le := hle
      room := hroom
      wasted := by
        rw [hwasted, hlive]
        exact Nat.sub_add_cancel ((Nat.le_add_right ..).trans hroom)
      tags := by
        rw [hwasted]
        exact Nat.le_sub_of_add_le' hroom
      capacity := rfl
      load := hi.load
      limit := loadLimit_le _ }

end Table

/-- **The statistics account for every byte of a table, and computing them never leaves the words**,
however large its keys and values are. -/
theorem memory_accounted {t : Table} (ht : Reachable t) :
    t.stats.Consistent (t.entryLayout.keySize + t.entryLayout.valueSize) ∧
      t.wastedBytes? = some t.stats.wastedBytes := by
  have hi := ht.invariant
  rw [← Geometry.keySize_of_ofEntry hi.geometry, ← Geometry.valueSize_of_ofEntry hi.geometry]
  exact ⟨Table.consistent_stats hi, Table.wastedBytes?_eq_some hi⟩

/-- A table without a buffer, for keys of which sixteen are more than any block of memory. -/
def unbuyable : Table :=
  .vacant ⟨2 ^ 59, 1, 3, 1⟩
    ⟨2 ^ 59, 3, 2 ^ 59, 9799832789158199298, 10376293541461622784, 2 ^ 59⟩
    (Strategy.ofHash "" fun _ => 0)

theorem reachable_unbuyable : Reachable unbuyable := by
  have hx : Geometry.ofEntry unbuyable.entryLayout = .ok unbuyable.geometry := by decide +kernel
  have hmake := Origin.make_of_ok (A := Allocator.unlimited) hx unbuyable.strategy .empty ()
  exact .make (congrArg Construction.answer hmake)

/-- Of the forty-eight bytes of a group with two entries of two bytes forty-four hold no entry. -/
theorem memory_accounted_tripled :
    (tripled.stats.Consistent 2 ∧ tripled.stats.totalBytes = 48 ∧ tripled.stats.tombstones = 1 ∧
      tripled.wastedBytes? = some 44) ∧
    unbuyable.stats.Consistent (2 ^ 59 + 3) ∧ unbuyable.wastedBytes? = some 0 := by
  have hbytes : tripled.entryLayout.keySize + tripled.entryLayout.valueSize = 2 ∧
      tripled.stats.totalBytes = 48 ∧ tripled.stats.tombstones = 1 ∧
        tripled.stats.wastedBytes = 44 := by decide +kernel
  obtain ⟨haccounted, hwords⟩ := memory_accounted reachable_tripled
  obtain ⟨hsize, htotal, htombstones, hwasted⟩ := hbytes
  rw [hsize] at haccounted
  rw [hwasted] at hwords
  obtain ⟨hgiant, hnone⟩ := memory_accounted reachable_unbuyable
  have h0 : unbuyable.stats.wastedBytes = 0 := by decide +kernel
  rw [h0] at hnone
  exact ⟨⟨haccounted, htotal, htombstones, hwords⟩, hgiant, hnone⟩

end TagTable
