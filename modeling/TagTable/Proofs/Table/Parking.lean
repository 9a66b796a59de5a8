import Mathlib.Algebra.BigOperators.Group.Finset.Basic
import Mathlib.Algebra.BigOperators.Intervals
import TagTable.Proofs.Table.Walk

/-!
# Parking around a row

Items are parked in a row of groups with sixteen places each. Every item has a home group and went
around the row from there, past groups that are full, to the group in which it is. How many items
are in each group does not depend on the order in which they came.

* `distance`: the number of steps from one group to another;
* `Seat`, `arrivals`, `residents`, `passers`: where items want to be, are, and went past;
* `passers_add_arrivals`: what goes into a group and what goes out of it or stays;
* `Parking`, `Parking.passers_succ`: full groups are the only ones that items went past;
* **`Parking.residents_eq`**, **`Parking.distances_eq`**: the homes decide about the number of items
  in each group and about the sum of all distances.
-/

namespace TagTable

/-! ## Distances -/

/-- The number of steps from group `home` to group `g` around a row of `n` groups. -/
def distance (n home g : Nat) : Nat := if home ≤ g then g - home else g + n - home

section

variable {n home g : Nat}

theorem succ_mod_eq (hg : g < n) : (g + 1) % n = if g + 1 = n then 0 else g + 1 := by
  split_ifs with h
  · rw [h, Nat.mod_self]
  · exact Nat.mod_eq_of_lt (by omega)

theorem distance_lt (hh : home < n) (hg : g < n) : distance n home g < n := by
  unfold distance
  split_ifs <;> omega

theorem distance_add_mod (hh : home < n) {d : Nat} (hd : d < n) :
    distance n home ((home + d) % n) = d := by
  unfold distance
  rcases Nat.lt_or_ge (home + d) n with h | h
  · rw [Nat.mod_eq_of_lt h, if_pos (Nat.le_add_right ..)]
    omega
  · rw [Nat.mod_eq_sub_mod h, Nat.mod_eq_of_lt (by omega), if_neg (by omega)]
    omega

theorem add_distance_mod (hh : home < n) (hg : g < n) : (home + distance n home g) % n = g := by
  unfold distance
  split_ifs with h
  · rw [Nat.add_sub_cancel' h, Nat.mod_eq_of_lt hg]
  · rw [Nat.add_sub_cancel' (by omega), Nat.add_mod_right, Nat.mod_eq_of_lt hg]

theorem distance_inj (hh : home < n) (hg : g < n) {g' : Nat} (hg' : g' < n) :
    distance n home g = distance n home g' ↔ g = g' := by
  refine ⟨fun h => ?_, fun h => by rw [h]⟩
  rw [← add_distance_mod hh hg, h, add_distance_mod hh hg']

theorem distance_succ_mod (hh : home < n) (hg : g < n) (hne : home ≠ (g + 1) % n) :
    distance n home ((g + 1) % n) = distance n home g + 1 := by
  rw [succ_mod_eq hg] at hne ⊢
  unfold distance
  split_ifs at hne ⊢ <;> omega

theorem distance_before_home (hg : g < n) : distance n ((g + 1) % n) g + 1 = n := by
  rw [succ_mod_eq hg]
  unfold distance
  split_ifs <;> omega

theorem card_distance_lt (hh : home < n) {k : Nat} (hk : k ≤ n) :
    ((Finset.range n).filter fun g => distance n home g < k).card = k := by
  refine (Finset.card_nbij' (distance n home) (fun d => (home + d) % n) ?_ ?_ ?_ ?_).trans
    (Finset.card_range k)
  · intro g hg
    exact Finset.mem_coe.2 (Finset.mem_range.2 (Finset.mem_filter.1 hg).2)
  · intro d hd
    have hd' := Finset.mem_range.1 hd
    have hmod : (home + d) % n < n := Nat.mod_lt _ (by omega)
    exact Finset.mem_filter.2 ⟨Finset.mem_range.2 hmod, by rwa [distance_add_mod hh (by omega)]⟩
  · intro g hg
    exact add_distance_mod hh (Finset.mem_range.1 (Finset.mem_filter.1 hg).1)
  · intro d hd
    have hd' := Finset.mem_range.1 hd
    exact distance_add_mod hh (by omega)

end

/-! ## What goes through a group -/

/-- The home group of an item and the group in which it is. -/
structure Seat where
  home : Nat
  group : Nat

/-- The number of items whose home is group `g`. -/
def arrivals (seats : List Seat) (g : Nat) : Nat := seats.countP fun s => s.home = g

/-- The number of items in group `g`. -/
def residents (seats : List Seat) (g : Nat) : Nat := seats.countP fun s => s.group = g

/-- The number of items that went past group `g` in a row of `n` groups. -/
def passers (n : Nat) (seats : List Seat) (g : Nat) : Nat :=
  seats.countP fun s => distance n s.home g < distance n s.home s.group

/-- The sum of the distances of all items from their homes. -/
def distances (n : Nat) (seats : List Seat) : Nat :=
  (seats.map fun s => distance n s.home s.group).sum

/-- Homes and groups in a row of `n` groups. -/
def InRow (n : Nat) (seats : List Seat) : Prop := ∀ s ∈ seats, s.home < n ∧ s.group < n

variable {n g : Nat} {seats seats' : List Seat}

theorem arrivals_eq_of_perm (hhomes : (seats.map Seat.home).Perm (seats'.map Seat.home)) (g : Nat) :
    arrivals seats g = arrivals seats' g := by
  have hcount := hhomes.countP_eq fun x => x = g
  rwa [List.countP_map, List.countP_map] at hcount

theorem passes_add_arrives {home group : Nat} (hhome : home < n) (hgroup : group < n) (hg : g < n) :
    (if distance n home g < distance n home group then 1 else 0) +
        (if home = (g + 1) % n then 1 else 0) =
      (if distance n home ((g + 1) % n) < distance n home group then 1 else 0) +
        if group = (g + 1) % n then 1 else 0 := by
  have hsame := distance_inj hhome hgroup (Nat.mod_lt (g + 1) (show n > 0 by omega))
  have hlt := distance_lt hhome hgroup
  rcases eq_or_ne home ((g + 1) % n) with rfl | hne
  · have hlast := distance_before_home hg
    have hzero : distance n ((g + 1) % n) ((g + 1) % n) = 0 := by simp [distance]
    split_ifs <;> omega
  · have hsucc := distance_succ_mod hhome hg hne
    split_ifs <;> omega

/-- **What goes past a group or has its home in the next one goes past that or stays in it.** -/
theorem passers_add_arrivals (h : InRow n seats) (hg : g < n) :
    passers n seats g + arrivals seats ((g + 1) % n) =
      passers n seats ((g + 1) % n) + residents seats ((g + 1) % n) := by
  induction seats with
  | nil => rfl
  | cons s seats ih =>
    obtain ⟨hhome, hgroup⟩ := h s (List.mem_cons_self ..)
    have hone := passes_add_arrives hhome hgroup hg
    have hrest := ih fun s hs => h s (List.mem_cons_of_mem _ hs)
    simp only [passers, arrivals, residents, List.countP_cons, decide_eq_true_eq] at hrest ⊢
    omega

/-- **The sum of all distances counts the passers of all groups.** -/
theorem distances_eq_sum (h : InRow n seats) :
    distances n seats = ∑ g ∈ Finset.range n, passers n seats g := by
  induction seats with
  | nil => simp [distances, passers]
  | cons s seats ih =>
    obtain ⟨hhome, hgroup⟩ := h s (List.mem_cons_self ..)
    have hone := card_distance_lt hhome (distance_lt hhome hgroup).le
    have hrest := ih fun s hs => h s (List.mem_cons_of_mem _ hs)
    simp only [distances, passers, List.map_cons, List.sum_cons, List.countP_cons,
      decide_eq_true_eq, Finset.sum_add_distrib, ← Finset.card_filter] at hrest ⊢
    omega

/-! ## Parked items -/

/-- Items that went past full groups only, in a row with some room left. -/
structure Parking (n : Nat) (seats : List Seat) : Prop where
  inRow : InRow n seats
  residents_le : ∀ g < n, residents seats g ≤ groupSize
  /-- A group that some item went past is full. -/
  full : ∀ s ∈ seats, ∀ g < n, distance n s.home g < distance n s.home s.group →
    residents seats g = groupSize
  room : ∃ g < n, residents seats g < groupSize

namespace Parking

theorem residents_of_passers (h : Parking n seats) (hg : g < n) (hp : 0 < passers n seats g) :
    residents seats g = groupSize := by
  obtain ⟨s, hs, hpast⟩ := List.countP_pos_iff.1 hp
  exact h.full s hs g hg (of_decide_eq_true hpast)

/-- **What does not fit into a group goes past it.** -/
theorem passers_succ (h : Parking n seats) (hg : g < n) : passers n seats ((g + 1) % n) =
    passers n seats g + arrivals seats ((g + 1) % n) - groupSize := by
  have hflow := passers_add_arrivals h.inRow hg
  have hle := h.residents_le ((g + 1) % n) (Nat.mod_lt _ (by omega))
  rcases Nat.eq_zero_or_pos (passers n seats ((g + 1) % n)) with hzero | hpos
  · omega
  · have hfull := h.residents_of_passers (Nat.mod_lt _ (by omega)) hpos
    omega

/-- From a group with room on, no more items go past than in any other parking of the same homes. -/
theorem passers_le (h : Parking n seats) (h' : Parking n seats')
    (harrivals : ∀ g, arrivals seats g = arrivals seats' g) (hg : g < n) :
    passers n seats g ≤ passers n seats' g := by
  obtain ⟨first, hfirst, hroom⟩ := h.room
  obtain ⟨d, -, rfl⟩ := exists_steps hfirst hg
  clear hg
  induction d with
  | zero =>
    rw [Nat.add_zero, Nat.mod_eq_of_lt hfirst]
    rcases Nat.eq_zero_or_pos (passers n seats first) with hzero | hpos
    · omega
    · exact absurd (h.residents_of_passers hfirst hpos) hroom.ne
  | succ d ih =>
    have hmod : (first + d) % n < n := Nat.mod_lt _ (by omega)
    rw [← Nat.add_assoc, ← Nat.mod_add_mod, h.passers_succ hmod, h'.passers_succ hmod, harrivals]
    omega

section

variable (h : Parking n seats) (h' : Parking n seats')
  (hhomes : (seats.map Seat.home).Perm (seats'.map Seat.home))

include h h' hhomes

theorem passers_eq (hg : g < n) : passers n seats g = passers n seats' g :=
  Nat.le_antisymm (h.passers_le h' (arrivals_eq_of_perm hhomes) hg)
    (h'.passers_le h (fun g => (arrivals_eq_of_perm hhomes g).symm) hg)

/-- **The homes decide how many items are in each group.** -/
theorem residents_eq (hg : g < n) : residents seats g = residents seats' g := by
  -- The group before `g` is reached by a step less than a full turn.
  have hlt : (g + (n - 1)) % n < n := Nat.mod_lt _ (by omega)
  have hnext : ((g + (n - 1)) % n + 1) % n = g := by
    rw [Nat.mod_add_mod, show g + (n - 1) + 1 = g + n by omega, Nat.add_mod_right,
      Nat.mod_eq_of_lt hg]
  have hflow := passers_add_arrivals h.inRow hlt
  have hflow' := passers_add_arrivals h'.inRow hlt
  rw [hnext] at hflow hflow'
  rw [passers_eq h h' hhomes hlt, passers_eq h h' hhomes hg, arrivals_eq_of_perm hhomes] at hflow
  omega

/-- **The homes decide about the sum of all distances.** -/
theorem distances_eq : distances n seats = distances n seats' := by
  rw [distances_eq_sum h.inRow, distances_eq_sum h'.inRow]
  exact Finset.sum_congr rfl fun g hg => passers_eq h h' hhomes (Finset.mem_range.1 hg)

end

end Parking

end TagTable
