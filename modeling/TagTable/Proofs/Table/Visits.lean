import TagTable.Proofs.Table.Search

/-!
# Groups that a search visits

* **`walkFrom_visited`**: a walk visits one group after the other from its first one on;
* `getLast?_visited`: and the last of them is the one that has the key, if there is one;
* `nodup_map_add_mod`, **`Table.visited_spec`**: so a search comes to no group twice;
* `Table.Settled`, **`Table.settled_of_room`**: a search in a table with room ends at an entry or at an
  empty slot.
-/

namespace TagTable

variable {groups : Array Group} {tag : UInt8} {test : Bytes → Bool} {n g : Nat}

/-- **A walk visits the groups from its first one on**, at most as many as it may. -/
theorem walkFrom_visited (hn : groups.size.isPowerOfTwo) (hg : g < groups.size) (visits : Nat) :
    ∃ k ≤ visits, (walkFrom groups tag test visits g).visited =
      (List.range k).map fun d => (g + d) % groups.size := by
  induction visits generalizing g with
  | zero => exact ⟨0, le_rfl, rfl⟩
  | succ visits ih =>
    have hhere : [g] = (List.range 1).map fun d => (g + d) % groups.size := by
      simp [Nat.mod_eq_of_lt hg]
    have hstep := walkFrom_step groups tag test visits g
    generalize walkFrom groups tag test (visits + 1) g = walk at hstep ⊢
    cases hstep with
    | occupied | vacant => exact ⟨1, by omega, hhere⟩
    | next =>
      obtain ⟨k, hk, hvisited⟩ := ih (nextGroup_lt hn g)
      refine ⟨k + 1, by omega, ?_⟩
      dsimp only
      rw [hvisited, List.range_succ_eq_map, List.map_cons, List.map_map, Nat.add_zero,
        Nat.mod_eq_of_lt hg]
      exact congrArg (g :: ·) (List.map_congr_left fun d _ => nextGroup_add_mod hn g d)

theorem getLast?_visited {p : Position} {visits : Nat}
    (h : (walkFrom groups tag test visits g).ending = .occupied p) :
    (walkFrom groups tag test visits g).visited.getLast? = some p.group := by
  induction visits generalizing g with
  | zero => exact absurd h (by simp [walkFrom])
  | succ visits ih =>
    have hstep := walkFrom_step groups tag test visits g
    generalize walkFrom groups tag test (visits + 1) g = walk at hstep h ⊢
    cases hstep with
    | occupied hslots =>
      obtain rfl := Ending.occupied.inj h
      have hmem := hslots.subset (List.mem_append_right _ (List.mem_singleton_self _))
      exact congrArg some (mem_taggedSlots.1 hmem).1.symm
    | vacant => exact absurd h (by simp)
    | next =>
      rw [List.getLast?_cons, ih h]
      rfl

theorem nodup_map_add_mod {k : Nat} (hk : k ≤ n) (g : Nat) :
    ((List.range k).map fun d => (g + d) % n).Nodup := by
  refine List.nodup_range.map_on fun a ha b hb hab => ?_
  have hmod : a ≡ b [MOD n] := Nat.ModEq.add_left_cancel' g hab
  exact hmod.eq_of_lt_of_lt (by rw [List.mem_range] at ha; omega)
    (by rw [List.mem_range] at hb; omega)

namespace Table

variable {t : Table}

/-- **A search visits groups of the table, and none of them twice.** -/
theorem visited_spec (hi : t.Invariant) (key : Bytes) :
    (t.probe key).walk.visited.Nodup ∧ (t.probe key).walk.visited.length ≤ t.groups.size ∧
      ∀ g ∈ (t.probe key).walk.visited, g < t.groups.size := by
  rcases hi.size_cases with h0 | hpow
  · rw [walk_of_size_eq_zero h0]
    exact ⟨.nil, Nat.zero_le _, fun g hg => absurd hg List.not_mem_nil⟩
  · have hvisited : ∃ k ≤ t.groups.size, (t.probe key).walk.visited = (List.range k).map fun d =>
        (homeGroup t.groups.size (t.strategy.hash key) + d) % t.groups.size :=
      walkFrom_visited hpow (homeGroup_lt hpow _) _
    obtain ⟨k, hk, heq⟩ := hvisited
    rw [heq]
    refine ⟨nodup_map_add_mod hk _, by simpa using hk, fun g hg => ?_⟩
    obtain ⟨d, -, rfl⟩ := List.mem_map.1 hg
    exact Nat.mod_lt _ (Nat.pos_of_isPowerOfTwo hpow)

/-- The search for a key visits no group twice and ends at an entry or at an empty slot. -/
structure Settled (t : Table) (key : Bytes) : Prop where
  nodup : (t.probe key).walk.visited.Nodup
  visits : (t.probe key).walk.visited.length ≤ t.groups.size
  ending : match (t.probe key).walk.ending with
    | .occupied p => p.group < t.groups.size ∧ 2 ≤ t.tagAt p
    | .vacant p => p.group < t.groups.size ∧ t.tagAt p = Tag.empty
    | .exhausted => False

/-- **A search in a table with room ends at an entry or at an empty slot**, whatever the strategy. -/
theorem settled_of_room (hi : t.Invariant) (hroom : t.count + t.tombstones < t.capacity)
    (key : Bytes) : t.Settled key := by
  obtain ⟨hnodup, hvisits, -⟩ := visited_spec hi key
  refine ⟨hnodup, hvisits, ?_⟩
  rcases probe_cases hi hroom key with ⟨p, hend, hfound⟩ | ⟨p, hend, -, hv⟩
  · rw [hend]
    have hlive := (found_eq_some hi hfound).1
    exact ⟨group_lt_of_two_le hlive, hlive⟩
  · rw [hend]
    exact ⟨hv.group_lt, hv.tag_eq⟩

end Table

end TagTable
