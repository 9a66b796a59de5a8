import TagTable.Proofs.Map.Lawful
import TagTable.Proofs.Table.Histogram
import TagTable.Proofs.Table.Visits

/-!
# The cost of lookups

What the histogram of probe lengths tells about lookups.

* `Represents.eq_of_equal`, **`Represents.found_key`**: the key of an entry is found at the entry's slot;
* `Table.Displaced.unique`, `Table.visited_of_displaced`: the groups that the search visits before;
* `Table.Lookup`, **`probe_lengths_tell_cost`**: one group more than the probe length.
-/

namespace TagTable

variable {t : Table} {d : Dictionary} {p q : Position}

theorem Table.Invariant.length_key (hi : t.Invariant) (hp : p ∈ t.slots) :
    (t.entryAt p).key.length = t.geometry.keySize :=
  (hi.sizes p _ (stored_eq_some.2 ⟨(t.mem_slots p).1 hp, rfl⟩)).1

namespace Represents

theorem eq_of_equal (hr : Represents t d) (hp : p ∈ t.slots) (hq : q ∈ t.slots)
    (h : t.strategy.equal (t.entryAt p).key (t.entryAt q).key = true) : p = q := by
  have hdistinct : Distinct t.strategy.equal t.entries := hr.own.distinct
  rw [Distinct, Table.entries_eq_map_slots, List.pairwise_map, List.pairwise_map] at hdistinct
  by_contra hne
  have hsymm : Std.Symm fun p q : Position =>
      t.strategy.equal (t.entryAt p).key (t.entryAt q).key = false ∧
        t.strategy.equal (t.entryAt q).key (t.entryAt p).key = false := ⟨fun _ _ hab => hab.symm⟩
  have hfalse := (hdistinct.forall hp hq hne).1
  rw [h] at hfalse
  exact absurd hfalse (by decide)

/-- **The key of an entry is found where the entry is.** -/
theorem found_key (hr : Represents t d) (hp : p ∈ t.slots) :
    (t.probe (t.entryAt p).key).found = some p := by
  have hi := hr.invariant
  have hl : t.strategy.Lawful t.geometry.keySize := hr.keySize ▸ hr.lawful
  have hsize := hi.length_key hp
  cases hfound : (t.probe (t.entryAt p).key).found with
  | none =>
    have hmem : t.entryAt p ∈ t.entries := by
      rw [Table.entries_eq_map_slots]
      exact List.mem_map_of_mem hp
    have hfalse := Table.not_equal_of_found_eq_none hi hl hsize hfound hmem
    rw [hl.refl _ hsize] at hfalse
    exact absurd hfalse (by decide)
  | some q =>
    obtain ⟨hq, hequal⟩ := Table.found_eq_some hi hfound
    exact congrArg some (hr.eq_of_equal ((t.mem_slots q).2 hq) hp hequal)

end Represents

namespace Table

theorem Displaced.unique {a b : Nat} (ha : t.Displaced a p) (hb : t.Displaced b p) : a = b := by
  have hmod : a ≡ b [MOD t.groups.size] := Nat.ModEq.add_left_cancel' _ (ha.2.trans hb.2.symm)
  exact hmod.eq_of_lt_of_lt ha.1 hb.1

theorem visited_of_displaced (hi : t.Invariant) {steps : Nat} (hd : t.Displaced steps p)
    (hfound : (t.probe (t.entryAt p).key).found = some p) :
    (t.probe (t.entryAt p).key).walk.visited =
      (List.range (steps + 1)).map fun i => (t.homeAt p + i) % t.groups.size := by
  have hpow := hi.size_isPowerOfTwo hd.1
  have hvisited : ∃ k ≤ t.groups.size, (t.probe (t.entryAt p).key).walk.visited =
      (List.range k).map fun i => (t.homeAt p + i) % t.groups.size :=
    walkFrom_visited hpow (homeGroup_lt hpow _) _
  have hlast : (t.probe (t.entryAt p).key).walk.visited.getLast? = some p.group :=
    getLast?_visited (found_eq_some_iff.1 hfound)
  obtain ⟨k, hk, hvisited⟩ := hvisited
  rw [hvisited] at hlast ⊢
  cases k with
  | zero => exact absurd hlast (by simp)
  | succ k =>
    rw [List.range_succ, List.map_append, List.map_singleton, List.getLast?_concat] at hlast
    obtain rfl := hd.unique ⟨hk, Option.some.inj hlast⟩
    rfl

/-- Looking up the key of an entry visits a number of groups and ends at the entry. -/
structure Lookup (t : Table) (p : Position) (visits : Nat) : Prop where
  find : (t.find (t.entryAt p).key).answer = some p
  get : (t.get (t.entryAt p).key).answer = some (t.entryAt p).value
  length : (t.probe (t.entryAt p).key).walk.visited.length = visits
  /-- The groups are those from the home group on, one after the other. -/
  visited : (t.probe (t.entryAt p).key).walk.visited =
    (List.range visits).map fun i => (t.homeAt p + i) % t.groups.size

end Table

/-- **The histogram of probe lengths tells what lookups cost.** Bin `d` counts the entries that lie `d`
groups after their home group, and under a lawful strategy a lookup of such an entry visits `d + 1`
groups. -/
theorem probe_lengths_tell_cost {t : Table} (ht : Reachable t) :
    t.Histogram t.probeLengths.answer ∧
      (t.strategy.Lawful t.geometry.keySize →
        ∀ d, ∀ p ∈ t.slots, t.Displaced d p → t.Lookup p (d + 1)) := by
  have hi := ht.invariant
  refine ⟨Table.histogram_probeLengths hi, fun hl d p hp hd => ?_⟩
  have hfound := (ht.represents hl).found_key hp
  have hvisited := Table.visited_of_displaced hi hd hfound
  have hfind : (t.find (t.entryAt p).key).answer = some p := by
    rw [Table.find, if_pos (hi.length_key hp)]
    exact hfound
  exact
    { find := hfind
      get := congrArg (Option.map fun q => (t.entryAt q).value) hfind
      length := by rw [hvisited, List.length_map, List.length_range]
      visited := hvisited }

/-- Room for seventeen keys in two groups, and their additions. -/
def crowding : List Command :=
  .reserve 17 :: (List.range 17).map fun i => .insert [UInt8.ofNat i] [0]

/-- A table in which all keys have the second group for their home; the last of them is in the first. -/
def wrapped : Table :=
  ((bytewise (Strategy.ofHash "" fun _ => 1)).run Allocator.unlimited crowding ()).1

theorem reachable_wrapped : Reachable wrapped :=
  Reachable.run _ _ _ (reachable_bytewise _)

theorem lawful_wrapped : wrapped.strategy.Lawful wrapped.geometry.keySize := by
  have hkept : ∀ c ∈ crowding, ∀ s, c ≠ .setStrategy s := by simp [crowding]
  rw [wrapped]
  exact Table.lawful_run Allocator.unlimited (reachable_bytewise _).invariant hkept ()
    (Strategy.lawful_ofHash "" (fun _ => 1) 1)

theorem probe_lengths_tell_cost_wrapped :
    wrapped.probeLengths.answer = [16, 1] ∧ wrapped.slots.countP (wrapped.Displaced 1) = 1 ∧
      wrapped.entryAt ⟨0, 0⟩ = ⟨[16], [0]⟩ ∧ wrapped.Lookup ⟨0, 0⟩ 2 := by
  obtain ⟨hhistogram, hlookup⟩ := probe_lengths_tell_cost reachable_wrapped
  have hlast : wrapped.probeLengths.answer = [16, 1] ∧ wrapped.entryAt ⟨0, 0⟩ = ⟨[16], [0]⟩ ∧
      2 ≤ wrapped.tagAt ⟨0, 0⟩ ∧ wrapped.Displaced 1 ⟨0, 0⟩ := by decide +kernel
  obtain ⟨hbins, hentry, hlive, hdisplaced⟩ := hlast
  have hcount := hhistogram.bin 1
  rw [hbins] at hcount
  exact ⟨hbins, hcount.symm, hentry,
    hlookup lawful_wrapped 1 ⟨0, 0⟩ ((wrapped.mem_slots _).2 hlive) hdisplaced⟩

end TagTable
