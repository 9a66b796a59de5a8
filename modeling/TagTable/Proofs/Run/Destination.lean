import Mathlib.Order.Nat
import TagTable.Proofs.Memory.Tightness
import TagTable.Proofs.Run.Promise
import TagTable.Proofs.Table.Fitting

/-!
# Destinations of reservations

Where a reservation moves the entries, said in unbounded arithmetic, and when the words or the memory
do not reach so far.

* `Doubling`: the search for a capacity as a loop with no bound on its rounds, all in words;
  `Doubling.unique`, **`doubling_grownCapacity`**: it ends, and with what is computed;
* `Spacious`, **`Doubling.eq_some_iff`**: the search finds the least capacity with room if that is a word;
* `Table.Destination`, `Table.exists_destination`, `Table.Destination.unique`;
* **`Table.reserve_of_destination`**, `Table.moveTo_of_block`: the reservation is a move there;
* **`reserve_exact`**: all that a reservation does.
-/

namespace TagTable

/-! ## The search for a capacity -/

/-- The search for a capacity with room for some entries, from a first one on: it ends at a capacity
with room, or where twice a capacity is no longer a word. -/
inductive Doubling (entries : Nat) : Nat → Option Nat → Prop
  | roomy {capacity : Nat} (h : entries ≤ loadLimit capacity) :
    Doubling entries capacity (some capacity)
  | outOfWords {capacity : Nat} (h : loadLimit capacity < entries)
    (hword : wordBound ≤ capacity * 2) : Doubling entries capacity none
  | double {capacity : Nat} {found : Option Nat} (h : loadLimit capacity < entries)
    (hword : capacity * 2 < wordBound) (hrest : Doubling entries (capacity * 2) found) :
    Doubling entries capacity found

variable {entries start : Nat}

theorem Doubling.unique {found other : Option Nat} (h : Doubling entries start found)
    (h' : Doubling entries start other) : other = found := by
  induction h with
  | roomy h =>
    cases h' with
    | roomy => rfl
    | outOfWords hlt | double hlt => omega
  | outOfWords h hword =>
    cases h' with
    | roomy hle => omega
    | outOfWords => rfl
    | double _ hlt => omega
  | double h hword _ ih =>
    cases h' with
    | roomy hle => omega
    | outOfWords _ hle => omega
    | double _ _ hrest => exact ih hrest

theorem doubling_doubleUntil {doublings : Nat} (hstart : start < wordBound)
    (hlast : wordBound ≤ start * 2 ^ doublings) :
    Doubling entries start (doubleUntil entries doublings start) := by
  induction doublings generalizing start with
  | zero => omega
  | succ doublings ih =>
    rw [doubleUntil]
    split_ifs with hlt
    · cases hd : checked (start * 2) with
      | none => exact .outOfWords hlt (checked_eq_none_iff.1 hd)
      | some doubled =>
        obtain ⟨hword, rfl⟩ := checked_eq_some_iff.1 hd
        rw [Nat.pow_succ', ← Nat.mul_assoc] at hlast
        exact .double hlt hword (ih hword hlast)
    · exact .roomy (Nat.le_of_not_lt hlt)

theorem doubling_grownCapacity {current : Nat} (hword : current * 2 < wordBound) :
    Doubling entries (max (current * 2) groupSize) (grownCapacity entries current) := by
  rw [grownCapacity, checked_eq_some_iff.2 ⟨hword, rfl⟩]
  refine doubling_doubleUntil (Nat.max_lt.2 ⟨hword, by decide⟩) ?_
  calc wordBound ≤ groupSize * 2 ^ 65 := by decide
    _ ≤ max (current * 2) groupSize * 2 ^ 65 := Nat.mul_le_mul_right _ (Nat.le_max_right ..)

/-- The powers of two from a first one on that have room for some entries. -/
def Spacious (entries start : Nat) : Set Nat :=
  {c | c.isPowerOfTwo ∧ start ≤ c ∧ entries ≤ loadLimit c}

theorem spacious_double (hpow : start.isPowerOfTwo) (h : loadLimit start < entries) :
    Spacious entries (start * 2) = Spacious entries start := by
  ext c
  constructor
  · rintro ⟨hc, hle, hroom⟩
    exact ⟨hc, by omega, hroom⟩
  · rintro ⟨hc, hle, hroom⟩
    have hlt : start < c := by
      refine Nat.lt_of_le_of_ne hle fun heq => ?_
      rw [heq] at h
      omega
    exact ⟨hc, two_mul_le_of_isPowerOfTwo hpow hc hlt, hroom⟩

/-- **The search finds the least capacity with room, if that is a word.** -/
theorem Doubling.eq_some_iff {found : Option Nat} (h : Doubling entries start found)
    (hpow : start.isPowerOfTwo) (hstart : start < wordBound) (c : Nat) :
    found = some c ↔ IsLeast (Spacious entries start) c ∧ c < wordBound := by
  induction h with
  | roomy h =>
    have hleast : IsLeast (Spacious entries _) _ := ⟨⟨hpow, le_rfl, h⟩, fun d hd => hd.2.1⟩
    constructor
    · intro heq
      exact Option.some.inj heq ▸ ⟨hleast, hstart⟩
    · rintro ⟨hc, -⟩
      exact congrArg some (hleast.unique hc)
  | outOfWords h hword =>
    refine iff_of_false (by simp) fun ⟨hc, hlt⟩ => ?_
    rw [← spacious_double hpow h] at hc
    have := hc.1.2.1
    omega
  | double h hword _ ih =>
    rw [← spacious_double hpow h]
    exact ih (Nat.isPowerOfTwo_mul_two_of_isPowerOfTwo hpow) hword

theorem exists_isLeast_spacious (hpow : start.isPowerOfTwo) (hgroup : groupSize ≤ start)
    (entries : Nat) : ∃ c, IsLeast (Spacious entries start) c := by
  have hmem : start * 2 ^ entries ∈ Spacious entries start := by
    obtain ⟨k, hk⟩ := hpow
    refine ⟨⟨k + entries, by rw [hk, Nat.pow_add]⟩,
      Nat.le_mul_of_pos_right _ (Nat.two_pow_pos entries), ?_⟩
    have hlt : entries < 2 ^ entries := Nat.lt_two_pow_self
    have hle : 16 * 2 ^ entries ≤ start * 2 ^ entries := Nat.mul_le_mul_right _ hgroup
    rw [loadLimit]
    omega
  classical
  exact ⟨_, Nat.isLeast_find ⟨_, hmem⟩⟩

namespace Table

variable {σ : Type} (A : Allocator σ) {t : Table} {n capacity : Nat}

/-! ## Destinations -/

/-- The capacity to which a reservation of `n` entries moves those of the table, in unbounded
arithmetic: the present one if they fit into half its limit, or else the least power of two with room,
from one group and from twice the present capacity on. -/
def Destination (t : Table) (n capacity : Nat) : Prop :=
  t.count + n ≤ loadLimit t.capacity / 2 ∧ capacity = t.capacity ∨
    loadLimit t.capacity / 2 < t.count + n ∧
      IsLeast (Spacious (t.count + n) (max (t.capacity * 2) groupSize)) capacity

theorem Destination.unique {other : Nat} (h : t.Destination n capacity)
    (h' : t.Destination n other) : other = capacity := by
  rcases h with ⟨hle, rfl⟩ | ⟨hlt, hleast⟩ <;> rcases h' with ⟨hle', rfl⟩ | ⟨hlt', hleast'⟩
  · rfl
  · omega
  · omega
  · exact hleast'.unique hleast

theorem Invariant.start_isPowerOfTwo (hi : t.Invariant) :
    (max (t.capacity * 2) groupSize).isPowerOfTwo ∧ t.capacity * 2 < wordBound := by
  have hle := hi.capacity_le
  refine ⟨?_, by rw [maxBlockSize] at hle; rw [wordBound]; omega⟩
  rcases hi.capacity with ⟨h0, -⟩ | ⟨hgroup, hpow⟩
  · rw [h0]
    exact ⟨4, rfl⟩
  · rw [Nat.max_eq_left (by rw [groupSize]; omega)]
    exact Nat.isPowerOfTwo_mul_two_of_isPowerOfTwo hpow

theorem exists_destination (hi : t.Invariant) (n : Nat) : ∃ capacity, t.Destination n capacity := by
  by_cases hhalf : t.count + n ≤ loadLimit t.capacity / 2
  · exact ⟨t.capacity, .inl ⟨hhalf, rfl⟩⟩
  · obtain ⟨c, hc⟩ :=
      exists_isLeast_spacious hi.start_isPowerOfTwo.1 (Nat.le_max_right ..) (t.count + n)
    exact ⟨c, .inr ⟨Nat.lt_of_not_le hhalf, hc⟩⟩

theorem Destination.le_loadLimit (h : t.Destination n capacity) :
    t.count + n ≤ loadLimit capacity := by
  rcases h with ⟨hle, rfl⟩ | ⟨-, hleast⟩
  · omega
  · exact hleast.1.2.2

theorem grownCapacity_eq_some_iff (hi : t.Invariant) (entries c : Nat) :
    grownCapacity entries t.capacity = some c ↔
      IsLeast (Spacious entries (max (t.capacity * 2) groupSize)) c ∧ c < wordBound := by
  obtain ⟨hpow, hword⟩ := hi.start_isPowerOfTwo
  exact (doubling_grownCapacity hword).eq_some_iff hpow (Nat.max_lt.2 ⟨hword, by decide⟩) c

theorem Destination.growthTarget (hi : t.Invariant) (h : t.Destination n capacity)
    (hshort : loadLimit t.capacity < t.count + n + t.tombstones) (hword : capacity < wordBound) :
    t.GrowthTarget capacity := by
  rcases h with ⟨hle, rfl⟩ | ⟨-, hleast⟩
  · have hload := hi.load
    refine .inl ⟨fun h0 => ?_, rfl⟩
    have hzero : loadLimit t.capacity = 0 := by rw [h0]; rfl
    omega
  · obtain ⟨j, hc, -⟩ :=
      grownCapacity_eq_some ((grownCapacity_eq_some_iff hi _ _).2 ⟨hleast, hword⟩)
    exact .inr ⟨j, hc⟩

/-- The sum with the tombstones, which stops at the largest word, is compared as if it did not. -/
theorem saturating_le_iff (hi : t.Invariant) (used : Nat) :
    saturating used ≤ loadLimit t.capacity ↔ used ≤ loadLimit t.capacity := by
  have hcap := hi.capacity_le
  have hlimit := loadLimit_le t.capacity
  unfold maxBlockSize at hcap
  unfold saturating wordBound
  omega

/-- **A reservation that has no room moves the entries to its destination, if that is a word.** -/
theorem reserve_of_destination (hi : t.Invariant) (h : t.Destination n capacity)
    (hshort : loadLimit t.capacity < t.count + n + t.tombstones) (heap : σ) :
    t.reserve A n heap =
      if capacity < wordBound then t.moveTo A capacity heap else .fail .outOfMemory t heap := by
  have hroom := h.le_loadLimit
  have hlimit := loadLimit_le capacity
  rw [reserve]
  cases hneed : checked (t.count + n) with
  | none =>
    have hword := checked_eq_none_iff.1 hneed
    rw [if_neg (by omega)]
  | some needed =>
    obtain ⟨-, rfl⟩ := checked_eq_some_iff.1 hneed
    dsimp only
    simp only [saturating_le_iff hi]
    rw [if_neg (by omega)]
    rcases h with ⟨hhalf, rfl⟩ | ⟨hhalf, hleast⟩
    · have hcap : t.capacity < wordBound := Nat.lt_of_le_of_lt hi.capacity_le (by decide)
      rw [if_pos hhalf, if_pos hcap]
    · rw [if_neg (by omega)]
      by_cases hword : capacity < wordBound
      · rw [if_pos hword, (grownCapacity_eq_some_iff hi _ _).2 ⟨hleast, hword⟩]
      · rw [if_neg hword]
        cases hgrown : grownCapacity (t.count + n) t.capacity with
        | none => rfl
        | some c =>
          obtain ⟨hc, hlt⟩ := (grownCapacity_eq_some_iff hi _ _).1 hgrown
          exact absurd (hleast.unique hc ▸ hlt) hword

/-- **A move asks for one block, and what follows is the allocator's answer.** -/
theorem moveTo_of_block (hi : t.Invariant) (hc : t.GrowthTarget capacity) {block : Block}
    (hblock : t.geometry.bufferBlock (capacity / groupSize) = .ok block) (heap : σ) :
    (t.moveTo A capacity heap).trace.heap.filter HeapEvent.isRequest =
        [if (A.request block heap).1 then .granted block else .refused block] ∧
      ((A.request block heap).1 = true → (t.moveTo A capacity heap).result = .ok () ∧
        Resettled t (t.moveTo A capacity heap).after ∧
        (t.moveTo A capacity heap).after.capacity = capacity ∧
        (t.moveTo A capacity heap).after.tombstones = 0) ∧
      ((A.request block heap).1 = false → (t.moveTo A capacity heap).result = .error .outOfMemory ∧
        (t.moveTo A capacity heap).after = t) := by
  have hreleased : (t.giveBack A (A.request block heap).2).1.filter HeapEvent.isRequest = [] := by
    rw [giveBack]
    split_ifs
    · rfl
    · split <;> rfl
  have hspec := moveTo_spec A hi hc heap
  rw [moveTo, hblock] at hspec ⊢
  dsimp only at hspec ⊢
  generalize A.request block heap = answer at hspec hreleased ⊢
  obtain ⟨granted, heap'⟩ := answer
  cases granted with
  | false => exact ⟨rfl, fun h0 => absurd h0 Bool.false_ne_true, fun _ => ⟨rfl, rfl⟩⟩
  | true =>
    rcases hspec with ⟨hfail, -⟩ | hmoved
    · exact absurd hfail (by simp)
    · exact ⟨congrArg (HeapEvent.granted block :: ·) hreleased, fun _ => hmoved,
        fun h0 => absurd h0.symm Bool.false_ne_true⟩

theorem moveTo_of_too_large (hi : t.Invariant)
    (h : 2 ^ 63 - 1 < capacity / groupSize * t.geometry.stride) (heap : σ) :
    t.moveTo A capacity heap = ⟨.error .outOfMemory, t, heap, { log := [.overflow capacity] }⟩ := by
  have hmax : (2 : Nat) ^ 63 - 1 = maxBlockSize := by decide
  rw [moveTo, Geometry.bufferBlock_eq hi.geometry, if_neg (by omega)]

end Table

/-- **All that a reservation does.** Without room it asks for one block, that of its destination, and
moves the entries there if the block is granted; if the destination or the block is too large, nothing
is asked for or changed. -/
theorem reserve_exact {σ : Type} (A : Allocator σ) {t : Table} (ht : Reachable t) (n : Nat)
    (heap : σ) :
    t.reserve A 0 heap = ⟨.ok (), t, heap, .empty⟩ ∧
    (t.count + n + t.tombstones ≤ loadLimit t.capacity →
      t.reserve A n heap = ⟨.ok (), t, heap, .empty⟩) ∧
    (loadLimit t.capacity < t.count + n + t.tombstones → ∃ capacity block,
      t.Destination n capacity ∧ (∀ other, t.Destination n other → other = capacity) ∧
      block = ⟨capacity / 16 * t.geometry.stride, t.geometry.align⟩ ∧
      (2 ^ 64 ≤ t.count + n ∨ 2 ^ 64 ≤ capacity ∨ 2 ^ 63 - 1 < block.size →
        (t.reserve A n heap).result = .error .outOfMemory ∧ (t.reserve A n heap).after = t ∧
          (t.reserve A n heap).heap = heap ∧ (t.reserve A n heap).trace.heap = []) ∧
      (t.count + n < 2 ^ 64 → capacity < 2 ^ 64 → block.size ≤ 2 ^ 63 - 1 →
        (t.reserve A n heap).trace.heap.filter HeapEvent.isRequest =
            [if (A.request block heap).1 then .granted block else .refused block] ∧
          ((A.request block heap).1 = true → (t.reserve A n heap).result = .ok () ∧
            (t.reserve A n heap).after.capacity = capacity ∧
            (t.reserve A n heap).after.tombstones = 0 ∧
            (t.reserve A n heap).after.count = t.count ∧
            t.count + n + (t.reserve A n heap).after.tombstones ≤
              loadLimit (t.reserve A n heap).after.capacity) ∧
          ((A.request block heap).1 = false →
            (t.reserve A n heap).result = .error .outOfMemory ∧
              (t.reserve A n heap).after = t))) ∧
    ∀ entries found, Doubling entries (max (t.capacity * 2) groupSize) found ↔
      found = grownCapacity entries t.capacity := by
  have hi := ht.invariant
  have hready : ∀ m, t.count + m + t.tombstones ≤ loadLimit t.capacity →
      t.reserve A m heap = ⟨.ok (), t, heap, .empty⟩ := fun m hroom =>
    Table.reserve_of_room A hi hroom heap
  refine ⟨hready 0 hi.load, hready n, fun hshort => ?_, fun entries found => ?_⟩
  · obtain ⟨capacity, hd⟩ := Table.exists_destination hi n
    have hreserve := Table.reserve_of_destination A hi hd hshort heap
    refine ⟨capacity, _, hd, fun other ho => hd.unique ho, rfl, fun hover => ?_,
      fun hneeded hword hsize => ?_⟩
    · have hroom := hd.le_loadLimit
      have hlimit := loadLimit_le capacity
      rw [hreserve]
      split_ifs with hword
      · unfold wordBound at hword
        have hlarge : 2 ^ 63 - 1 < capacity / groupSize * t.geometry.stride :=
          (hover.resolve_left (by omega)).resolve_left (by omega)
        rw [Table.moveTo_of_too_large A hi hlarge]
        exact ⟨rfl, rfl, rfl, rfl⟩
      · exact ⟨rfl, rfl, rfl, rfl⟩
    · have hcapacity : capacity < wordBound := hword
      rw [hreserve, if_pos hcapacity]
      have hblock : t.geometry.bufferBlock (capacity / groupSize) =
          .ok ⟨capacity / 16 * t.geometry.stride, t.geometry.align⟩ := by
        rw [Geometry.bufferBlock_eq hi.geometry]
        exact if_pos hsize
      obtain ⟨hrequests, hgranted, hrefused⟩ :=
        Table.moveTo_of_block A hi (hd.growthTarget hi hshort hcapacity) hblock heap
      refine ⟨hrequests, fun h => ?_, hrefused⟩
      obtain ⟨hok, hre, hcap, htomb⟩ := hgranted h
      rw [hcap, htomb]
      exact ⟨hok, rfl, rfl, hre.count, hd.le_loadLimit⟩
  · have hends : Doubling entries _ (grownCapacity entries t.capacity) :=
      doubling_grownCapacity hi.start_isPowerOfTwo.2
    exact ⟨fun h => hends.unique h, fun h => h ▸ hends⟩

/-- Room for a hundred entries beside eleven in sixteen slots doubles the capacity four times at once.
-/
theorem reserve_exact_brimful :
    brimful.Destination 100 256 ∧
    ((brimful.reserve Allocator.quota 100 (sparing 1)).result = .ok () ∧
      (brimful.reserve Allocator.quota 100 (sparing 1)).after.capacity = 256 ∧
      (brimful.reserve Allocator.quota 100 (sparing 1)).after.count = 11) ∧
    (brimful.reserve Allocator.quota 100 (sparing 0)).after = brimful ∧
    (brimful.reserve Allocator.quota (2 ^ 64 - 11) (sparing 1)).trace.heap = [] := by
  have hcount : brimful.count = 11 := by decide +kernel
  have hcap : brimful.capacity = 16 := by decide +kernel
  have hgeometry : brimful.geometry = ⟨1, 1, 16, 32, 48, 16⟩ := by decide +kernel
  have hleast : IsLeast (Spacious (11 + 100) (max (16 * 2) groupSize)) 256 := by
    refine ⟨⟨⟨8, rfl⟩, by decide, by decide⟩, fun d ⟨hd, _, hroom⟩ => ?_⟩
    by_contra hlt
    have hhalf := two_mul_le_of_isPowerOfTwo hd ⟨8, rfl⟩ (Nat.lt_of_not_le hlt)
    have hlimit : loadLimit d ≤ loadLimit 128 := loadLimit_mono (by omega)
    exact absurd (hroom.trans hlimit) (by decide)
  have hd : brimful.Destination 100 256 := by
    rw [Table.Destination, hcount, hcap]
    exact .inr ⟨by decide, hleast⟩
  have hshort : loadLimit brimful.capacity < brimful.count + 100 + brimful.tombstones := by
    decide +kernel
  obtain ⟨_, _, -, hunique, rfl, -, hwords⟩ :=
    (reserve_exact Allocator.quota reachable_brimful 100 (sparing 1)).2.2.1 hshort
  obtain rfl := hunique 256 hd
  obtain ⟨_, _, -, hunique', rfl, -, hwords'⟩ :=
    (reserve_exact Allocator.quota reachable_brimful 100 (sparing 0)).2.2.1 hshort
  obtain rfl := hunique' 256 hd
  rw [hgeometry, hcount] at hwords hwords'
  obtain ⟨hok, hcapacity, -, hsame, -⟩ :=
    (hwords (by decide) (by decide) (by decide)).2.1 (by decide)
  have hafter := (hwords' (by decide) (by decide) (by decide)).2.2 (by decide)
  obtain ⟨_, _, -, -, -, hover, -⟩ :=
    (reserve_exact Allocator.quota reachable_brimful (2 ^ 64 - 11) (sparing 1)).2.2.1
      (by decide +kernel)
  exact ⟨hd, ⟨hok, hcapacity, hsame⟩, hafter.2, (hover (.inl (by omega))).2.2.2⟩

end TagTable
