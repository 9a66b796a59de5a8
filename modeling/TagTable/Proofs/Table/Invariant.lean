import TagTable.Proofs.Table.Arrangement
import TagTable.Proofs.Table.Reservation
import TagTable.Proofs.Table.Traversal

/-!
# The invariant of a table

* `Table.Invariant`: capacity, counters, load, arrangement of the slots and sizes of the entries;
* `Table.Invariant.of_trimmed`: removals and edits of values keep it;
* **`Table.Invariant.rehash`**, **`Table.Invariant.occupy`**: so do rehashes and new entries;
* `Table.Invariant.bury`, `overwrite`, `each`, `filter`, `clear`, `setStrategy`: and all other changes.
-/

namespace TagTable

namespace Table

/-- **The invariant of a table**, whatever its strategy. -/
structure Invariant (t : Table) : Prop where
  geometry : Geometry.ofEntry t.entryLayout = .ok t.geometry
  /-- There is no buffer, or the number of slots is a power of two. -/
  capacity : t.capacity = 0 ∧ t.count = 0 ∧ t.tombstones = 0 ∨
    16 ≤ t.capacity ∧ t.capacity.isPowerOfTwo
  /-- The buffer is a block that can exist. -/
  block : t.groups.size ≠ 0 → ∃ block, t.geometry.bufferBlock t.groups.size = .ok block
  count : t.count = liveCount t.groups
  tombstones : t.tombstones = buriedCount t.groups
  load : t.count + t.tombstones ≤ loadLimit t.capacity
  arranged : Arranged t.strategy.hash t.groups
  /-- The stored keys and values have the sizes of the table. -/
  sizes : ∀ p e, stored t.groups p = some e →
    e.key.length = t.geometry.keySize ∧ e.value.length = t.geometry.valueSize

variable {t t' : Table}

/-! ## Capacities -/

theorem capacity_of_isPowerOfTwo (h : t.groups.size.isPowerOfTwo) :
    16 ≤ t.capacity ∧ t.capacity.isPowerOfTwo := by
  obtain ⟨k, hk⟩ := h
  refine ⟨?_, k + 4, by rw [capacity, hk, groupSize, Nat.pow_add, Nat.mul_comm]⟩
  rw [capacity, groupSize, hk]
  exact Nat.le_mul_of_pos_right 16 (Nat.two_pow_pos k)

theorem capacity_cases (hs : t.groups.size = 0 ∨ t.groups.size.isPowerOfTwo)
    (hload : t.count + t.tombstones ≤ loadLimit t.capacity) :
    t.capacity = 0 ∧ t.count = 0 ∧ t.tombstones = 0 ∨
      16 ≤ t.capacity ∧ t.capacity.isPowerOfTwo := by
  rcases hs with h0 | hpow
  · have hcap : t.capacity = 0 := by rw [capacity, h0, Nat.mul_zero]
    rw [hcap, show loadLimit 0 = 0 from rfl] at hload
    exact .inl ⟨hcap, by omega, by omega⟩
  · exact .inr (capacity_of_isPowerOfTwo hpow)

namespace Invariant

theorem size_cases (hi : t.Invariant) : t.groups.size = 0 ∨ t.groups.size.isPowerOfTwo := by
  rcases hi.capacity with ⟨h0, -⟩ | ⟨hle, k, hk⟩
  · rw [Table.capacity, groupSize] at h0
    exact .inl (by omega)
  · rw [Table.capacity, groupSize] at hle hk
    have h4 : 4 ≤ k := by
      by_contra hlt
      have := Nat.pow_lt_pow_right (show 1 < 2 by decide) (Nat.lt_of_not_le hlt)
      omega
    refine .inr ⟨k - 4, ?_⟩
    have hpow : 2 ^ k = 16 * 2 ^ (k - 4) := by
      rw [show 16 = 2 ^ 4 from rfl, ← Nat.pow_add, Nat.add_sub_cancel' h4]
    omega

theorem size_isPowerOfTwo (hi : t.Invariant) {g : Nat} (hg : g < t.groups.size) :
    t.groups.size.isPowerOfTwo :=
  hi.size_cases.resolve_left (Nat.ne_of_gt (Nat.zero_lt_of_lt hg))

theorem capacity_le (hi : t.Invariant) : t.capacity ≤ maxBlockSize := by
  by_cases h0 : t.groups.size = 0
  · rw [Table.capacity, h0, Nat.mul_zero]
    exact Nat.zero_le _
  · obtain ⟨block, hblock⟩ := hi.block h0
    exact Geometry.size_le_of_bufferBlock hi.geometry hblock

theorem count_eq_length (hi : t.Invariant) : t.count = t.entries.length := by
  rw [hi.count, entries_eq, length_entriesIn]

theorem entry_sizes (hi : t.Invariant) {e : Entry} (he : e ∈ t.entries) :
    e.key.length = t.geometry.keySize ∧ e.value.length = t.geometry.valueSize := by
  obtain ⟨p, hp⟩ := mem_entriesIn.1 he
  exact hi.sizes p e hp

end Invariant

/-! ## New tables and rehashes -/

theorem tagIn_replicate (n : Nat) (p : Position) :
    tagIn (Array.replicate n Group.empty) p = Tag.empty := by
  rw [tagIn, Array.getD_eq_getD_getElem?, Array.getElem?_replicate]
  split_ifs <;> simp [Group.empty, TagRow.empty]

theorem countTags_replicate {P : UInt8 → Bool} (hP : P Tag.empty = false) (n : Nat) :
    countTags P (Array.replicate n Group.empty) = 0 := by
  rw [countTags, List.countP_eq_zero]
  intro p _
  rw [tagIn_replicate, hP]
  exact Bool.false_ne_true

theorem entriesIn_replicate (n : Nat) : entriesIn (Array.replicate n Group.empty) = [] := by
  rw [← List.length_eq_zero_iff, length_entriesIn, liveCount, countTags_replicate rfl]

/-- A table without a buffer. -/
def vacant (e : EntryLayout) (x : Geometry) (s : Strategy) : Table :=
  { entryLayout := e, geometry := x, strategy := s, groups := #[], count := 0, tombstones := 0 }

theorem create_eq (e : EntryLayout) (s : Strategy) :
    create e s = (Geometry.ofEntry e).map fun x => vacant e x s := by
  rw [create]
  cases Geometry.ofEntry e <;> rfl

theorem invariant_vacant {e : EntryLayout} {x : Geometry} (hx : Geometry.ofEntry e = .ok x)
    (s : Strategy) : (vacant e x s).Invariant := by
  have hempty : ∀ p, tagIn #[] p = Tag.empty := fun p => tagIn_of_size_le (Nat.zero_le _)
  exact
    { geometry := hx
      capacity := .inl ⟨rfl, rfl, rfl⟩
      block := fun h0 => absurd rfl h0
      count := rfl
      tombstones := rfl
      load := Nat.zero_le _
      arranged := Arranged.of_empty s.hash hempty
      sizes := fun p e hp => by
        rw [stored_eq_some, show (vacant _ x s).groups = #[] from rfl, hempty] at hp
        exact absurd hp.1 TagRow.not_two_le_empty }

theorem redistribute_replicate {n : Nat} (hash : Bytes → UInt64) {l : List Entry}
    (hn : n.isPowerOfTwo) (hl : l.length ≤ 16 * n) :
    Arranged hash (redistribute (l.map fun e => (hash e.key, e)) (Array.replicate n Group.empty)) ∧
      buriedCount
        (redistribute (l.map fun e => (hash e.key, e)) (Array.replicate n Group.empty)) = 0 ∧
      (entriesIn
        (redistribute (l.map fun e => (hash e.key, e)) (Array.replicate n Group.empty))).Perm l := by
  have hs : (Array.replicate n Group.empty).size = n := Array.size_replicate
  have hlive : liveCount (Array.replicate n Group.empty) = 0 := countTags_replicate rfl n
  have hburied : buriedCount (Array.replicate n Group.empty) = 0 := countTags_replicate rfl n
  obtain ⟨harr, hb, hperm⟩ := redistribute_spec hash l (hs.symm ▸ hn)
    (Arranged.of_empty hash (tagIn_replicate n)) (by omega)
  rw [entriesIn_replicate, List.append_nil] at hperm
  exact ⟨harr, hb.trans hburied, hperm⟩

theorem size_rehash (t : Table) (n : Nat) : (t.rehash n).answer.groups.size = n :=
  (size_redistribute _ _).trans Array.size_replicate

namespace Invariant

theorem length_entries_le (hi : t.Invariant) {n : Nat} (hroom : t.count ≤ loadLimit (groupSize * n)) :
    t.entries.length ≤ 16 * n := by
  rw [← hi.count_eq_length]
  exact hroom.trans (loadLimit_le _)

theorem entries_rehash (hi : t.Invariant) {n : Nat} (hn : n.isPowerOfTwo)
    (hroom : t.count ≤ loadLimit (groupSize * n)) :
    (t.rehash n).answer.entries.Perm t.entries :=
  (redistribute_replicate t.strategy.hash hn (hi.length_entries_le hroom)).2.2

/-- **A rehash into a buffer with room keeps the invariant.** -/
theorem rehash (hi : t.Invariant) {n : Nat} (hn : n.isPowerOfTwo)
    (hroom : t.count ≤ loadLimit (groupSize * n))
    (hblock : ∃ block, t.geometry.bufferBlock n = .ok block) : (t.rehash n).answer.Invariant := by
  obtain ⟨harr, hburied, hperm⟩ :=
    redistribute_replicate t.strategy.hash hn (hi.length_entries_le hroom)
  have hs := t.size_rehash n
  have hcap : (t.rehash n).answer.capacity = groupSize * n := congrArg (groupSize * ·) hs
  have hload : (t.rehash n).answer.count + (t.rehash n).answer.tombstones ≤
      loadLimit (t.rehash n).answer.capacity := by
    rw [hcap]
    exact hroom
  exact
    { geometry := hi.geometry
      capacity := capacity_cases (.inr (hs.symm ▸ hn)) hload
      block := fun _ => hs.symm ▸ hblock
      count := by
        rw [← length_entriesIn, ← entries_eq, (hi.entries_rehash hn hroom).length_eq]
        exact hi.count_eq_length
      tombstones := hburied.symm
      load := hload
      arranged := harr
      sizes := fun p e hp => hi.entry_sizes (hperm.mem_iff.1 (mem_entriesIn.2 ⟨p, hp⟩)) }

/-! ## New entries -/

/-- **A new entry in the first empty slot on the way of its hash keeps the invariant.** -/
theorem occupy (hi : t.Invariant) {p : Position} {key value : Bytes}
    (hv : FirstVacancy t.groups ((t.strategy.hash key).toNat % t.groups.size) p)
    (hload : t.count + 1 + t.tombstones ≤ loadLimit t.capacity)
    (hkey : key.length = t.geometry.keySize) (hvalue : value.length = t.geometry.valueSize) :
    (t.occupy p (Tag.ofHash (t.strategy.hash key)) ⟨key, value⟩).Invariant := by
  have hs := t.size_occupy p (Tag.ofHash (t.strategy.hash key)) ⟨key, value⟩
  have hload' : (t.occupy p (Tag.ofHash (t.strategy.hash key)) ⟨key, value⟩).count +
      (t.occupy p (Tag.ofHash (t.strategy.hash key)) ⟨key, value⟩).tombstones ≤
        loadLimit (t.occupy p (Tag.ofHash (t.strategy.hash key)) ⟨key, value⟩).capacity := by
    rw [Table.capacity, hs]
    exact hload
  exact
    { geometry := hi.geometry
      capacity := capacity_cases (hs ▸ hi.size_cases) hload'
      block := fun h0 => by
        rw [hs] at h0 ⊢
        exact hi.block h0
      count := ((liveCount_occupy hv _).trans (congrArg (· + 1) hi.count.symm)).symm
      tombstones := ((buriedCount_occupy hv _).trans hi.tombstones.symm).symm
      load := hload'
      arranged := hi.arranged.occupy (e := ⟨key, value⟩) hv
      sizes := fun q e hq => by
        have hq' := (stored_occupy hv.group_lt (t.strategy.hash key) q (e := ⟨key, value⟩)).symm.trans hq
        split_ifs at hq'
        · obtain rfl := Option.some.inj hq'
          exact ⟨hkey, hvalue⟩
        · exact hi.sizes q e hq' }

/-! ## Removals and edits -/

/-- **Entries may be removed and values edited as long as no slot becomes empty.** -/
theorem of_trimmed (hi : t.Invariant) (hl : t'.entryLayout = t.entryLayout)
    (hx : t'.geometry = t.geometry) (hstrategy : t'.strategy = t.strategy)
    (hs : t'.groups.size = t.groups.size)
    (hempty : ∀ p, tagIn t'.groups p = Tag.empty ↔ tagIn t.groups p = Tag.empty)
    (hlive : ∀ p, 2 ≤ tagIn t'.groups p → tagIn t'.groups p = tagIn t.groups p ∧
      (cellIn t'.groups p).key = (cellIn t.groups p).key ∧
        (cellIn t'.groups p).value.length = (cellIn t.groups p).value.length)
    (hcount : t'.count = liveCount t'.groups)
    (hsum : t'.count + t'.tombstones = t.count + t.tombstones) : t'.Invariant := by
  -- The empty slots are the same, so entries and tombstones together are as many as before.
  have hused : countTags (fun b => decide (b ≠ Tag.empty)) t'.groups =
      countTags (fun b => decide (b ≠ Tag.empty)) t.groups := by
    rw [countTags, countTags, hs]
    exact List.countP_congr fun p _ => by simp [hempty p]
  rw [countTags_used, countTags_used, ← hi.count, ← hi.tombstones] at hused
  have hload : t'.count + t'.tombstones ≤ loadLimit t'.capacity := by
    rw [hsum, Table.capacity, hs]
    exact hi.load
  exact
    { geometry := by rw [hl, hx]; exact hi.geometry
      capacity := capacity_cases (hs.symm ▸ hi.size_cases) hload
      block := by rw [hs, hx]; exact hi.block
      count := hcount
      tombstones := by omega
      load := hload
      arranged := hstrategy.symm ▸ hi.arranged.of_keys hs hempty fun p hp =>
        ⟨(hlive p hp).1, (hlive p hp).2.1⟩
      sizes := fun p e hp => by
        obtain ⟨h2, rfl⟩ := stored_eq_some.1 hp
        obtain ⟨ht, hk, hv⟩ := hlive p h2
        rw [hx, hk, hv]
        exact hi.sizes p _ (stored_eq_some.2 ⟨ht ▸ h2, rfl⟩) }

theorem bury (hi : t.Invariant) {p : Position} (hp : 2 ≤ tagIn t.groups p) : (t.bury p).Invariant := by
  have hg := group_lt_of_two_le hp
  have htag : ∀ q, tagIn (t.bury p).groups q = if q = p then Tag.tombstone else tagIn t.groups q :=
    tagIn_bury hg
  have hc := countTags_change (fun b => decide (2 ≤ b)) (t.size_bury p) hg fun q hq => by
    rw [htag, if_neg hq]
  rw [htag, if_pos rfl, decide_eq_true hp, decide_eq_false TagRow.not_two_le_tombstone] at hc
  have hcount : liveCount (t.bury p).groups + 1 = t.count := hc.trans hi.count.symm
  refine hi.of_trimmed rfl rfl rfl (t.size_bury p) (fun q => ?_) (fun q hq => ?_) ?_ ?_
  · rw [htag]
    split_ifs with hqp
    · rw [hqp]
      exact iff_of_false TagRow.tombstone_ne_empty ((TagRow.two_le_iff _).1 hp).1
    · exact Iff.rfl
  · have hcell : cellIn (t.bury p).groups q = cellIn t.groups q := cellIn_bury hg q
    rw [htag] at hq ⊢
    split_ifs at hq ⊢ with hqp
    · exact absurd hq TagRow.not_two_le_tombstone
    · rw [hcell]
      exact ⟨rfl, rfl, rfl⟩
  · rw [show (t.bury p).count = t.count - 1 from rfl]
    omega
  · rw [show (t.bury p).count = t.count - 1 from rfl,
      show (t.bury p).tombstones = t.tombstones + 1 from rfl]
    omega

theorem overwrite (hi : t.Invariant) {p : Position} (hp : p.group < t.groups.size) (value : Bytes) :
    (t.overwrite p value).Invariant := by
  have htag : ∀ q, tagIn (t.overwrite p value).groups q = tagIn t.groups q := tagIn_overwrite hp value
  have hcell : ∀ q, cellIn (t.overwrite p value).groups q = if q = p then
      { cellIn t.groups p with value := Bytes.writeOver (cellIn t.groups p).value value }
      else cellIn t.groups q := cellIn_overwrite hp value
  refine hi.of_trimmed rfl rfl rfl (t.size_overwrite p value) (fun q => by rw [htag]) (fun q _ => ⟨htag q, ?_⟩) ?_ rfl
  · rw [hcell]
    split_ifs with hqp
    · rw [hqp]
      exact ⟨rfl, Bytes.length_writeOver _ _⟩
    · exact ⟨rfl, rfl⟩
  · rw [show (t.overwrite p value).count = t.count from rfl, hi.count, liveCount, liveCount,
      countTags, countTags, t.size_overwrite]
    exact List.countP_congr fun q _ => by rw [htag]

section

variable {τ : Type}

theorem each (hi : t.Invariant) (visitor : τ → Bytes → Bytes → Visit τ) (state : τ) :
    (t.each visitor state).after.Invariant := by
  obtain ⟨hrew, -⟩ := eachGroup_spec visitor t.groups.toList state
  have hgroup : ∀ g, Group.Rewritten (t.groups.getD g Group.empty)
      ((t.each visitor state).after.groups.getD g Group.empty) :=
    getD_of_forall₂ (Group.Rewritten.refl _) hrew
  have htag : ∀ q, tagIn (t.each visitor state).after.groups q = tagIn t.groups q := fun q => by
    rw [tagIn, (hgroup q.group).tags, tagIn]
  refine hi.of_trimmed rfl rfl rfl (t.size_each visitor state) (fun q => by rw [htag])
    (fun q _ => ⟨htag q, (hgroup q.group).key q.slot, (hgroup q.group).length q.slot⟩) ?_ rfl
  rw [show (t.each visitor state).after.count = t.count from rfl, hi.count, liveCount, liveCount,
    countTags, countTags, t.size_each]
  exact List.countP_congr fun q _ => by rw [htag]

theorem filter (hi : t.Invariant) (keep : τ → Bytes → Bytes → Bool × τ) (state : τ) :
    (t.filter keep state).after.Invariant := by
  obtain ⟨htrim, -⟩ := filterGroups_spec keep t.groups.toList state
  have hgroup : ∀ g, Group.Trimmed (t.groups.getD g Group.empty)
      ((t.filter keep state).after.groups.getD g Group.empty) :=
    getD_of_forall₂ (Group.Trimmed.refl _) htrim
  have hlen := length_selectEntries keep t.entries state
  rw [selectEntries_entries, ← hi.count_eq_length] at hlen
  have hcount : liveCount (t.filter keep state).after.groups + (t.filter keep state).removed =
      t.count := by
    rw [← length_entriesIn]
    exact hlen
  refine hi.of_trimmed rfl rfl rfl (t.size_filter keep state) (fun q => ?_) (fun q hq => ?_) ?_ ?_
  · rw [tagIn, tagIn]
    rcases (hgroup q.group).tags q.slot with h | ⟨h2, h⟩
    · rw [h]
    · rw [h]
      exact iff_of_false TagRow.tombstone_ne_empty ((TagRow.two_le_iff _).1 h2).1
  · rcases (hgroup q.group).tags q.slot with h | ⟨h2, h⟩
    · rw [cellIn, (hgroup q.group).cells]
      exact ⟨h, rfl, rfl⟩
    · rw [tagIn, h] at hq
      exact absurd hq TagRow.not_two_le_tombstone
  · rw [show (t.filter keep state).after.count = t.count - (t.filter keep state).removed from rfl]
    omega
  · rw [show (t.filter keep state).after.count = t.count - (t.filter keep state).removed from rfl,
      show (t.filter keep state).after.tombstones =
        t.tombstones + (t.filter keep state).removed from rfl]
    omega

end

theorem clear (hi : t.Invariant) : t.clear.Invariant := by
  have hs := t.size_clear
  have hempty : ∀ p, tagIn t.clear.groups p = Tag.empty := fun p => by
    rw [tagIn, Array.getD_eq_getD_getElem?, Table.clear, Array.getElem?_map]
    cases t.groups[p.group]? <;> simp [Group.wipe, Group.empty, TagRow.empty]
  have hcount : ∀ P : UInt8 → Bool, P Tag.empty = false → countTags P t.clear.groups = 0 :=
    fun P hP => List.countP_eq_zero.2 fun p _ => by rw [hempty, hP]; exact Bool.false_ne_true
  have hload : t.clear.count + t.clear.tombstones ≤ loadLimit t.clear.capacity := Nat.zero_le _
  exact
    { geometry := hi.geometry
      capacity := capacity_cases (hs.symm ▸ hi.size_cases) hload
      block := by rw [hs]; exact hi.block
      count := (hcount _ rfl).symm
      tombstones := (hcount _ rfl).symm
      load := hload
      arranged := Arranged.of_empty _ hempty
      sizes := fun p e hp => by
        rw [stored_eq_some, hempty] at hp
        exact absurd hp.1 TagRow.not_two_le_empty }

/-- An empty table may take any strategy, even if it holds tombstones. -/
theorem setStrategy (hi : t.Invariant) {s : Strategy} (h : t.setStrategy s = .ok t') :
    t'.Invariant := by
  unfold Table.setStrategy at h
  split_ifs at h with h0
  obtain rfl := Except.ok.inj h
  have hdead : ∀ p, ¬ 2 ≤ tagIn t.groups p := fun p hp => by
    have hmem := mem_entriesIn.2 ⟨p, stored_eq_some.2 ⟨hp, rfl⟩⟩
    have hlen := List.length_pos_of_mem hmem
    rw [length_entriesIn, ← hi.count] at hlen
    omega
  exact { hi with arranged := Arranged.of_not_live s.hash hi.arranged.suffix hdead }

end Invariant

end Table

end TagTable
