import Mathlib.Order.Interval.Finset.Fin
import TagTable.Proofs.Table.ProbeLength

/-!
# Occupancy

Which slots are in use in a table without tombstones. Entries are parked around the row of groups, so
the keys alone decide about that, whatever the order in which they came.

* `Table.residents_seats`: the number of entries of a group;
* `Table.Invariant.tagAt_eq_empty_iff`: which slots are empty when there are that many;
* **`Table.Invariant.parking`**: the entries of a table without tombstones are parked;
* **`Table.occupancy_eq`**: two tables with the same keys have the same empty slots and the same
  total probe length.
-/

namespace TagTable

theorem lt_card_filter_iff {m : Nat} {used : Fin m → Prop} [DecidablePred used]
    (h : ∀ i j, i ≤ j → used j → used i) (i : Fin m) :
    i.val < (Finset.univ.filter used).card ↔ used i := by
  constructor
  · intro hlt
    by_contra hi
    have hsub : Finset.univ.filter used ⊆ Finset.Iio i := fun j hj =>
      Finset.mem_Iio.2 (lt_of_not_ge fun hij => hi (h i j hij (Finset.mem_filter.1 hj).2))
    have hcard := Finset.card_le_card hsub
    rw [Fin.card_Iio] at hcard
    omega
  · intro hi
    have hsub : Finset.Iic i ⊆ Finset.univ.filter used := fun j hj =>
      Finset.mem_filter.2 ⟨Finset.mem_univ j, h j i (Finset.mem_Iic.1 hj) hi⟩
    have hcard := Finset.card_le_card hsub
    rw [Fin.card_Iic] at hcard
    omega

theorem two_le_of_buriedCount_eq_zero {groups : Array Group} (h0 : buriedCount groups = 0)
    {p : Position} (hp : tagIn groups p ≠ Tag.empty) : 2 ≤ tagIn groups p := by
  have hnone := List.countP_eq_zero.1 h0 p (mem_positions.2 (group_lt_of_tag_ne_empty hp))
  exact (TagRow.two_le_iff _).2 ⟨hp, fun h => hnone (decide_eq_true h)⟩

namespace Group

theorem length_entries (g : Group) :
    g.entries.length = (Finset.univ.filter fun i : SlotIndex => 2 ≤ g.tags.bytes[i]).card := by
  rw [entries, List.length_map, live_eq_filter]
  rfl

end Group

namespace Table

variable {t u : Table}

theorem residents_seats {g : Nat} (hg : g < t.groups.size) :
    residents t.seats g = (t.groupAt g).entries.length := by
  have hcount : ∀ n, ((List.range n).flatMap fun g' => (t.groupAt g').entries.map (g', ·)).countP
      (fun x => x.1 = g) = if g < n then (t.groupAt g).entries.length else 0 := by
    intro n
    induction n with
    | zero => rfl
    | succ n ih =>
      rw [List.range_succ, List.flatMap_append, List.countP_append, ih, List.flatMap_singleton,
        List.countP_map]
      rcases Nat.lt_trichotomy g n with h | rfl | h
      · rw [if_pos h, if_pos (by omega), List.countP_eq_zero.2 fun _ _ => by simp [h.ne'],
          Nat.add_zero]
      · rw [if_neg (by omega), if_pos (by omega), Nat.zero_add]
        exact List.countP_eq_length.2 fun _ _ => decide_eq_true rfl
      · rw [if_neg (by omega), if_neg (by omega), List.countP_eq_zero.2 fun _ _ => by simp [h.ne]]
  rw [residents, seats, List.countP_map]
  exact (hcount _).trans (if_pos hg)

theorem mem_seats {s : Seat} (hs : s ∈ t.seats) : ∃ p, 2 ≤ t.tagAt p ∧ p.group = s.group ∧
    s.home = (t.strategy.hash (t.entryAt p).key).toNat % t.groups.size := by
  obtain ⟨⟨g, e⟩, hmem, rfl⟩ := List.mem_map.1 hs
  obtain ⟨-, he⟩ := mem_entriesByGroup.1 hmem
  obtain ⟨i, hi, rfl⟩ := List.mem_map.1 he
  exact ⟨⟨g, i⟩, Group.mem_live.1 hi, rfl, rfl⟩

theorem seats_eq_nil (hs : t.groups.size = 0) : t.seats = [] := by
  rw [seats, entriesByGroup, hs]
  rfl

theorem map_home_seats (t : Table) : t.seats.map Seat.home =
    t.entries.map fun e => (t.strategy.hash e.key).toNat % t.groups.size := by
  rw [seats, List.map_map, entriesByGroup, entries, toList_eq_map_getD, List.flatMap_map,
    List.map_flatMap, List.map_flatMap]
  simp only [List.map_map]
  rfl

namespace Invariant

variable (hi : t.Invariant) (h0 : t.tombstones = 0)

include hi h0

theorem two_le_tagAt_iff (p : Position) : 2 ≤ t.tagAt p ↔ t.tagAt p ≠ Tag.empty :=
  ⟨fun h => ((TagRow.two_le_iff _).1 h).1,
    two_le_of_buriedCount_eq_zero (hi.tombstones.symm.trans h0)⟩

/-- **The empty slots of a group are those behind its entries.** -/
theorem tagAt_eq_empty_iff {p : Position} (hp : p.group < t.groups.size) :
    t.tagAt p = Tag.empty ↔ residents t.seats p.group ≤ p.slot := by
  have hused := hi.two_le_tagAt_iff h0
  have hfirst : ∀ i j : SlotIndex, i ≤ j → 2 ≤ t.tagAt ⟨p.group, j⟩ → 2 ≤ t.tagAt ⟨p.group, i⟩ := by
    intro i j hij hj
    rw [hused] at hj ⊢
    exact fun hempty => hj (hi.arranged.suffix p.group i j hij hempty)
  have hlt := lt_card_filter_iff hfirst p.slot
  rw [residents_seats hp, Group.length_entries, ← not_lt]
  exact iff_not_comm.1 (hlt.trans (hused p))

theorem residents_eq_of_full {g : Nat} (hg : g < t.groups.size) (hfull : Full t.groups g) :
    residents t.seats g = groupSize := by
  rw [residents_seats hg, Group.length_entries, Finset.filter_true_of_mem]
  · rfl
  · exact fun i _ => (hi.two_le_tagAt_iff h0 ⟨g, i⟩).2 (hfull i)

/-- **The entries of a table without tombstones are parked.** -/
theorem parking (hs : t.groups.size ≠ 0) : Parking t.groups.size t.seats := by
  have hpos := Nat.pos_of_ne_zero hs
  constructor
  · intro s hmem
    obtain ⟨p, hp, hgroup, hhome⟩ := mem_seats hmem
    rw [hhome, ← hgroup]
    exact ⟨Nat.mod_lt _ hpos, group_lt_of_two_le hp⟩
  · intro g hg
    rw [residents_seats hg, Group.length_entries]
    exact (Finset.card_le_univ _).trans_eq (Fintype.card_fin 16)
  · intro s hmem g hg hpast
    obtain ⟨p, hp, hgroup, hhome⟩ := mem_seats hmem
    have hhomelt : s.home < t.groups.size := hhome ▸ Nat.mod_lt _ hpos
    obtain ⟨d, hd, hreached, hfull⟩ : OnPath t.groups s.home s.group :=
      hhome ▸ hgroup ▸ hi.arranged.path p hp
    rw [hreached, distance_add_mod hhomelt hd] at hpast
    exact hi.residents_eq_of_full h0 hg (add_distance_mod hhomelt hg ▸ hfull _ hpast)
  · have hload := hi.load
    have hlimit : loadLimit t.capacity < 16 * t.groups.size := by
      rw [loadLimit, Table.capacity, groupSize]
      omega
    rw [hi.count, hi.tombstones] at hload
    obtain ⟨g, hg, hroom⟩ := exists_not_full (Nat.lt_of_le_of_lt hload hlimit)
    obtain ⟨i, hempty⟩ := not_forall_not.1 hroom
    have hle := (hi.tagAt_eq_empty_iff h0 (p := ⟨g, i⟩) hg).1 hempty
    exact ⟨g, hg, hle.trans_lt i.isLt⟩

end Invariant

/-- **The keys of a table without tombstones decide about its empty slots and its total probe length.**
-/
theorem occupancy_eq (ht : t.Invariant) (hu : u.Invariant) (ht0 : t.tombstones = 0)
    (hu0 : u.tombstones = 0) (hsize : t.groups.size = u.groups.size)
    (hstrategy : t.strategy = u.strategy)
    (hkeys : (t.entries.map Entry.key).Perm (u.entries.map Entry.key)) :
    (∀ p, t.tagAt p = Tag.empty ↔ u.tagAt p = Tag.empty) ∧
      t.totalProbeLength = u.totalProbeLength := by
  have hhomes : (t.seats.map Seat.home).Perm (u.seats.map Seat.home) := by
    rw [map_home_seats, map_home_seats, ← hsize, ← hstrategy]
    have hmap := hkeys.map fun key => (t.strategy.hash key).toNat % t.groups.size
    rwa [List.map_map, List.map_map] at hmap
  have hpark : t.groups.size ≠ 0 →
      Parking t.groups.size t.seats ∧ Parking t.groups.size u.seats := fun hs =>
    ⟨ht.parking ht0 hs, hsize ▸ hu.parking hu0 (hsize ▸ hs)⟩
  constructor
  · intro p
    rcases Nat.lt_or_ge p.group t.groups.size with hp | hp
    · obtain ⟨h, h'⟩ := hpark (by omega)
      rw [ht.tagAt_eq_empty_iff ht0 hp, hu.tagAt_eq_empty_iff hu0 (hsize ▸ hp),
        h.residents_eq h' hhomes hp]
    · exact iff_of_true (tagIn_of_size_le hp) (tagIn_of_size_le (hsize ▸ hp))
  · rw [totalProbeLength_eq ht, totalProbeLength_eq hu, ← hsize]
    rcases eq_or_ne t.groups.size 0 with hs | hs
    · rw [seats_eq_nil hs, seats_eq_nil (hsize ▸ hs)]
    · exact (hpark hs).1.distances_eq (hpark hs).2 hhomes

end Table

end TagTable
