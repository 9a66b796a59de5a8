import TagTable.Proofs.Table.Visits

/-!
# Comparisons of keys

What a search compares a key with.

* **`walkFrom_path`**: a walk compares keys up to the first group with the key or an empty slot;
* **`walkFrom_verdicts`**: of the keys that are compared only the last one may be the key;
* **`nodup_compared`**: no slot is compared twice;
* `Table.Compared`, **`Table.compared_probe`**: the comparisons of a search in a table.
-/

namespace TagTable

variable {groups : Array Group} {tag : UInt8} {test : Bytes → Bool} {g : Nat}

/-- The slot at which a walk found the key. -/
def Ending.found : Ending → Option Position
  | .occupied slot => some slot
  | .vacant _ | .exhausted => none

theorem Probe.found_eq (p : Probe) : p.found = p.walk.ending.found := by
  rw [Probe.found]
  cases p.walk.ending <;> rfl

/-- **A walk compares keys of groups on its way only.** -/
theorem walkFrom_path (hn : groups.size.isPowerOfTwo) (hg : g < groups.size) {visits : Nat}
    {p : Position} (h : p ∈ (walkFrom groups tag test visits g).compared) :
    ∃ d < visits, p.group = (g + d) % groups.size ∧
      ∀ d' < d, Passed groups tag test ((g + d') % groups.size) := by
  induction visits generalizing g with
  | zero => simp [walkFrom] at h
  | succ visits ih =>
    have hhere : p ∈ taggedSlots groups tag g →
        ∃ d < visits + 1, p.group = (g + d) % groups.size ∧
          ∀ d' < d, Passed groups tag test ((g + d') % groups.size) := fun hp =>
      ⟨0, Nat.succ_pos visits, (mem_taggedSlots.1 hp).1.trans (Nat.mod_eq_of_lt hg).symm,
        fun d' h0 => absurd h0 (Nat.not_lt_zero d')⟩
    have hstep := walkFrom_step groups tag test visits g
    generalize walkFrom groups tag test (visits + 1) g = walk at hstep h
    cases hstep with
    | occupied hslots => exact hhere (hslots.subset h)
    | vacant => exact hhere h
    | next hpassed =>
      rcases List.mem_append.1 h with h | h
      · exact hhere h
      · obtain ⟨d, hd, hp, hbefore⟩ := ih (nextGroup_lt hn g) h
        exact ⟨d + 1, by omega, by rw [hp, nextGroup_add_mod hn], passed_of_next hn hg hpassed hbefore⟩

/-- **Of the keys that a walk compares only the last one may pass the test.** -/
theorem walkFrom_verdicts (visits g : Nat) :
    ∃ missed, (walkFrom groups tag test visits g).compared =
        missed ++ (walkFrom groups tag test visits g).ending.found.toList ∧
      ∀ p ∈ missed, test (cellIn groups p).key = false := by
  induction visits generalizing g with
  | zero => exact ⟨[], rfl, fun p hp => absurd hp List.not_mem_nil⟩
  | succ visits ih =>
    have hstep := walkFrom_step groups tag test visits g
    generalize walkFrom groups tag test (visits + 1) g = walk at hstep ⊢
    cases hstep with
    | occupied _ _ hmissed => exact ⟨_, rfl, hmissed⟩
    | vacant _ hmissed => exact ⟨_, (List.append_nil _).symm, missed_iff.1 hmissed⟩
    | next hpassed =>
      obtain ⟨later, hrest, hlater⟩ := ih (nextGroup groups.size g)
      refine ⟨taggedSlots groups tag g ++ later, ?_,
        List.forall_mem_append.2 ⟨missed_iff.1 hpassed.2, hlater⟩⟩
      dsimp only
      rw [hrest, List.append_assoc]

theorem nodup_compared {visits : Nat} (h : (walkFrom groups tag test visits g).visited.Nodup) :
    (walkFrom groups tag test visits g).compared.Nodup := by
  refine (compared_sublist visits g).nodup (List.nodup_flatMap.2 ⟨fun g _ => ?_, h.imp ?_⟩)
  · exact (SlotSet.nodup_toList _).map fun i j hij => (Position.mk.inj hij).2
  · exact fun hab p ha hb => hab ((mem_taggedSlots.1 ha).1.symm.trans (mem_taggedSlots.1 hb).1)

namespace Table

/-- The slots with whose keys a search in a table compares a key, in order. -/
structure Compared (t : Table) (key : Bytes) (slots : List Position) (found : Bool) : Prop where
  nodup : slots.Nodup
  live : ∀ p ∈ slots, 2 ≤ t.tagAt p
  tag : ∀ p ∈ slots, t.tagAt p = Tag.ofHash (t.strategy.hash key)
  /-- They are in groups on the way from the home group; all groups before are full and have no key that
  is equal to the given one behind its tag. -/
  path : ∀ p ∈ slots, ∃ d < t.groups.size,
    p.group = (homeGroup t.groups.size (t.strategy.hash key) + d) % t.groups.size ∧
      ∀ d' < d, Passed t.groups (Tag.ofHash (t.strategy.hash key)) (t.strategy.equal · key)
        ((homeGroup t.groups.size (t.strategy.hash key) + d') % t.groups.size)
  /-- A key that is found is equal to the last stored key and to none before. -/
  last : found = true → ∃ missed p, slots = missed ++ [p] ∧
    t.strategy.equal (t.entryAt p).key key = true ∧
      ∀ q ∈ missed, t.strategy.equal (t.entryAt q).key key = false
  none : found = false → ∀ p ∈ slots, t.strategy.equal (t.entryAt p).key key = false

variable {t : Table}

/-- **The comparisons of a search**, for every strategy. -/
theorem compared_probe (hi : t.Invariant) (key : Bytes) :
    t.Compared key (t.probe key).walk.compared (t.probe key).found.isSome := by
  have htag : ∀ p ∈ (t.probe key).walk.compared, t.tagAt p = Tag.ofHash (t.strategy.hash key) :=
    fun p hp => tagIn_of_mem_compared hp
  have hverdicts : ∃ missed, (t.probe key).walk.compared =
        missed ++ (t.probe key).walk.ending.found.toList ∧
      ∀ p ∈ missed, t.strategy.equal (cellIn t.groups p).key key = false := walkFrom_verdicts _ _
  obtain ⟨missed, hcompared, hfalse⟩ := hverdicts
  rw [← Probe.found_eq] at hcompared
  refine
    { nodup := nodup_compared (visited_spec hi key).1
      live := fun p hp => htag p hp ▸ Tag.two_le_ofHash _
      tag := htag
      path := fun p hp => ?_
      last := fun h => ?_
      none := fun h => ?_ }
  · have hlive : 2 ≤ t.tagAt p := htag p hp ▸ Tag.two_le_ofHash _
    have hpow := hi.size_isPowerOfTwo (group_lt_of_two_le hlive)
    exact walkFrom_path hpow (homeGroup_lt hpow _) hp
  · obtain ⟨p, hp⟩ := Option.isSome_iff_exists.1 h
    exact ⟨missed, p, by rw [hcompared, hp, Option.toList_some], (found_eq_some hi hp).2, hfalse⟩
  · rw [Option.isSome_eq_false_iff, Option.isNone_iff_eq_none] at h
    rw [hcompared, h, Option.toList_none, List.append_nil]
    exact hfalse

end Table

end TagTable
