import Mathlib.Data.Nat.ModEq
import TagTable.Proofs.Table.Row
import TagTable.Table.Growth
import TagTable.Table.Probe

/-!
# Walks around a row

From its home a search visits the groups one after the other, around the end of the row.

* `homeGroup_eq_mod`, `nextGroup_eq_mod`, `exists_steps`: the groups visited, in arithmetic;
* `OnPath`, `FirstVacancy`, **`vacancyFrom_eq_some`**, `exists_vacancyFrom`: the first empty slot on a walk;
* `Missed`, `Passed`, `taggedSlots`, **`walkFrom_step`**: what a search does at a group;
* `Ending.Means`, **`walkFrom_means`**: what its ending tells;
* `compared_sublist`, `tagIn_of_mem_compared`: what it compares.
-/

namespace TagTable

/-! ## The order of the groups -/

variable {n g : Nat}

theorem homeGroup_eq_mod (hn : n.isPowerOfTwo) (hash : UInt64) :
    homeGroup n hash = hash.toNat % n := by
  obtain ⟨k, rfl⟩ := hn
  exact Nat.and_two_pow_sub_one_eq_mod hash.toNat k

theorem nextGroup_eq_mod (hn : n.isPowerOfTwo) (g : Nat) : nextGroup n g = (g + 1) % n := by
  obtain ⟨k, rfl⟩ := hn
  exact Nat.and_two_pow_sub_one_eq_mod (g + 1) k

theorem homeGroup_lt (hn : n.isPowerOfTwo) (hash : UInt64) : homeGroup n hash < n := by
  rw [homeGroup_eq_mod hn]
  exact Nat.mod_lt _ (Nat.pos_of_isPowerOfTwo hn)

theorem nextGroup_lt (hn : n.isPowerOfTwo) (g : Nat) : nextGroup n g < n := by
  rw [nextGroup_eq_mod hn]
  exact Nat.mod_lt _ (Nat.pos_of_isPowerOfTwo hn)

theorem nextGroup_add_mod (hn : n.isPowerOfTwo) (g d : Nat) :
    (nextGroup n g + d) % n = (g + (d + 1)) % n := by
  rw [nextGroup_eq_mod hn, Nat.mod_add_mod, show g + 1 + d = g + (d + 1) by omega]

theorem exists_steps {home : Nat} (hh : home < n) (hg : g < n) : ∃ d < n, (home + d) % n = g := by
  rcases Nat.lt_or_ge g home with h | h
  · refine ⟨n - home + g, by omega, ?_⟩
    rw [show home + (n - home + g) = g + n by omega, Nat.add_mod_right, Nat.mod_eq_of_lt hg]
  · exact ⟨g - home, by omega, by rw [Nat.add_sub_cancel' h, Nat.mod_eq_of_lt hg]⟩

/-! ## The first empty slot -/

variable {groups : Array Group} {p : Position}

theorem full_iff : Full groups g ↔ (groups.getD g Group.empty).tags.vacant.lowest = none := by
  rw [TagRow.lowest_vacant_eq_none]
  exact Iff.rfl

/-- On the walk from group `home` all groups before group `g` are full. -/
def OnPath (groups : Array Group) (home g : Nat) : Prop :=
  ∃ d < groups.size, g = (home + d) % groups.size ∧
    ∀ d' < d, Full groups ((home + d') % groups.size)

theorem OnPath.mono {groups' : Array Group} {home : Nat} (h : OnPath groups home g)
    (hs : groups'.size = groups.size) (hfull : ∀ g, Full groups g → Full groups' g) :
    OnPath groups' home g := by
  obtain ⟨d, hd, hg, hbefore⟩ := h
  exact ⟨d, by omega, by rw [hs, hg], fun d' hd' => by rw [hs]; exact hfull _ (hbefore d' hd')⟩

/-- The first empty slot on the walk from group `home`. -/
structure FirstVacancy (groups : Array Group) (home : Nat) (p : Position) : Prop where
  lowest : (groups.getD p.group Group.empty).tags.vacant.lowest = some p.slot
  onPath : OnPath groups home p.group

namespace FirstVacancy

variable {home : Nat}

theorem tag_eq (h : FirstVacancy groups home p) : tagIn groups p = Tag.empty :=
  (TagRow.lowest_vacant_eq_some.1 h.lowest).1

theorem tag_ne (h : FirstVacancy groups home p) {i : SlotIndex} (hi : i < p.slot) :
    tagIn groups ⟨p.group, i⟩ ≠ Tag.empty :=
  (TagRow.lowest_vacant_eq_some.1 h.lowest).2 i hi

theorem group_lt (h : FirstVacancy groups home p) : p.group < groups.size := by
  obtain ⟨d, hd, hp, -⟩ := h.onPath
  rw [hp]
  exact Nat.mod_lt _ (by omega)

end FirstVacancy

theorem vacancyFrom_eq_some_steps {visits : Nat} (hn : groups.size.isPowerOfTwo)
    (hg : g < groups.size) (h : vacancyFrom groups visits g = some p) :
    (groups.getD p.group Group.empty).tags.vacant.lowest = some p.slot ∧
      ∃ d < visits, p.group = (g + d) % groups.size ∧
        ∀ d' < d, Full groups ((g + d') % groups.size) := by
  induction visits generalizing g with
  | zero => simp [vacancyFrom] at h
  | succ visits ih =>
    rw [vacancyFrom] at h
    split at h
    · rename_i i hi
      obtain rfl := Option.some.inj h
      exact ⟨hi, 0, by omega, (Nat.mod_eq_of_lt hg).symm, fun _ h0 => absurd h0 (Nat.not_lt_zero _)⟩
    · -- The first group is full, so what lies `d` steps from the next one lies `d + 1` from here.
      rename_i hnone
      obtain ⟨hl, d, hd, hp, hfull⟩ := ih (nextGroup_lt hn g) h
      refine ⟨hl, d + 1, by omega, by rw [hp, nextGroup_add_mod hn], fun d' hd' => ?_⟩
      cases d' with
      | zero => rw [Nat.add_zero, Nat.mod_eq_of_lt hg]; exact full_iff.2 hnone
      | succ d' => rw [← nextGroup_add_mod hn]; exact hfull d' (by omega)

/-- **The slot found on a full turn is the first empty one.** -/
theorem vacancyFrom_eq_some (hn : groups.size.isPowerOfTwo) (hg : g < groups.size)
    (h : vacancyFrom groups groups.size g = some p) : FirstVacancy groups g p :=
  ⟨(vacancyFrom_eq_some_steps hn hg h).1, (vacancyFrom_eq_some_steps hn hg h).2⟩

theorem vacancyFrom_eq_none {visits : Nat} (hn : groups.size.isPowerOfTwo) (hg : g < groups.size)
    (h : vacancyFrom groups visits g = none) :
    ∀ d < visits, Full groups ((g + d) % groups.size) := by
  induction visits generalizing g with
  | zero => exact fun d hd => absurd hd (Nat.not_lt_zero d)
  | succ visits ih =>
    rw [vacancyFrom] at h
    split at h
    · simp at h
    · rename_i hnone
      intro d hd
      cases d with
      | zero => rw [Nat.add_zero, Nat.mod_eq_of_lt hg]; exact full_iff.2 hnone
      | succ d => rw [← nextGroup_add_mod hn]; exact ih (nextGroup_lt hn g) h d (by omega)

/-- **If some group is not full, a full turn from any group finds an empty slot.** -/
theorem exists_vacancyFrom (hn : groups.size.isPowerOfTwo) (hg : g < groups.size)
    (h : ∃ g' < groups.size, ¬ Full groups g') :
    ∃ p, vacancyFrom groups groups.size g = some p := by
  obtain ⟨g', hg', hnot⟩ := h
  cases hv : vacancyFrom groups groups.size g with
  | some p => exact ⟨p, rfl⟩
  | none =>
    obtain ⟨d, hd, rfl⟩ := exists_steps hg hg'
    exact absurd (vacancyFrom_eq_none hn hg hv d hd) hnot

/-! ## The search for a key -/

variable {tag : UInt8} {test : Bytes → Bool}

/-- No key of the group that is stored behind the tag passes the test. -/
def Missed (groups : Array Group) (tag : UInt8) (test : Bytes → Bool) (g : Nat) : Prop :=
  ∀ i : SlotIndex, tagIn groups ⟨g, i⟩ = tag → test (cellIn groups ⟨g, i⟩).key = false

/-- The search goes past the group. -/
def Passed (groups : Array Group) (tag : UInt8) (test : Bytes → Bool) (g : Nat) : Prop :=
  Full groups g ∧ Missed groups tag test g

/-- What the ending of a walk from group `g` over at most `visits` groups tells. -/
def Ending.Means (groups : Array Group) (tag : UInt8) (test : Bytes → Bool) (visits g : Nat) :
    Ending → Prop
  | .occupied p => tagIn groups p = tag ∧ test (cellIn groups p).key = true ∧
    ∃ d < visits, p.group = (g + d) % groups.size ∧
      ∀ d' < d, Passed groups tag test ((g + d') % groups.size)
  | .vacant p => (groups.getD p.group Group.empty).tags.vacant.lowest = some p.slot ∧
    Missed groups tag test p.group ∧ ∃ d < visits, p.group = (g + d) % groups.size ∧
      ∀ d' < d, Passed groups tag test ((g + d') % groups.size)
  | .exhausted => ∀ d < visits, Passed groups tag test ((g + d) % groups.size)

/-- The slots of a group whose tag is `tag`. -/
def taggedSlots (groups : Array Group) (tag : UInt8) (g : Nat) : List Position :=
  ((groups.getD g Group.empty).tags.slotsWith tag).toList.map (Position.mk g)

theorem mem_taggedSlots : p ∈ taggedSlots groups tag g ↔ p.group = g ∧ tagIn groups p = tag := by
  constructor
  · intro hp
    obtain ⟨i, hi, rfl⟩ := List.mem_map.1 hp
    exact ⟨rfl, TagRow.mem_slotsWith.1 hi⟩
  · rintro ⟨rfl, htag⟩
    exact List.mem_map_of_mem (TagRow.mem_slotsWith.2 htag)

theorem missed_iff : Missed groups tag test g ↔
    ∀ q ∈ taggedSlots groups tag g, test (cellIn groups q).key = false := by
  simp only [mem_taggedSlots]
  constructor
  · rintro h q ⟨rfl, htag⟩
    exact h q.slot htag
  · exact fun h i htag => h ⟨g, i⟩ ⟨rfl, htag⟩

theorem searchSlots_cases (test : SlotIndex → Bool) (l : List SlotIndex) :
    (∃ missed i, searchSlots test l = (missed ++ [i], some i) ∧ (missed ++ [i]).Sublist l ∧
      test i = true ∧ ∀ j ∈ missed, test j = false) ∨
    (searchSlots test l = (l, none) ∧ ∀ j ∈ l, test j = false) := by
  induction l with
  | nil => exact .inr ⟨rfl, fun j hj => absurd hj List.not_mem_nil⟩
  | cons i l ih =>
    rw [searchSlots]
    by_cases h : test i = true
    · rw [if_pos h]
      exact .inl ⟨[], i, rfl, (List.nil_sublist l).cons_cons i, h, fun j hj =>
        absurd hj List.not_mem_nil⟩
    · rw [if_neg h]
      have hi : test i = false := Bool.eq_false_iff.2 h
      rcases ih with ⟨missed, k, hsearch, hslots, hk, hmissed⟩ | ⟨hsearch, hmissed⟩
      · exact .inl ⟨i :: missed, k, by rw [hsearch]; rfl, hslots.cons_cons i, hk,
          List.forall_mem_cons.2 ⟨hi, hmissed⟩⟩
      · exact .inr ⟨by rw [hsearch], List.forall_mem_cons.2 ⟨hi, hmissed⟩⟩

/-- What a walk does at group `g`, given the walk from the next group. -/
inductive WalkStep (groups : Array Group) (tag : UInt8) (test : Bytes → Bool) (g : Nat)
    (rest : Walk) : Walk → Prop
  | occupied {missed : List Position} {p : Position}
    (hslots : (missed ++ [p]).Sublist (taggedSlots groups tag g))
    (hkey : test (cellIn groups p).key = true)
    (hmissed : ∀ q ∈ missed, test (cellIn groups q).key = false) :
    WalkStep groups tag test g rest ⟨.occupied p, missed ++ [p], [g]⟩
  | vacant {i : SlotIndex} (hlowest : (groups.getD g Group.empty).tags.vacant.lowest = some i)
    (hmissed : Missed groups tag test g) :
    WalkStep groups tag test g rest ⟨.vacant ⟨g, i⟩, taggedSlots groups tag g, [g]⟩
  | next (hpassed : Passed groups tag test g) :
    WalkStep groups tag test g rest
      ⟨rest.ending, taggedSlots groups tag g ++ rest.compared, g :: rest.visited⟩

/-- **A walk finds the key in its first group, ends there at an empty slot, or goes on past it.** -/
theorem walkFrom_step (groups : Array Group) (tag : UInt8) (test : Bytes → Bool) (visits g : Nat) :
    WalkStep groups tag test g (walkFrom groups tag test visits (nextGroup groups.size g))
      (walkFrom groups tag test (visits + 1) g) := by
  rw [walkFrom]
  rcases searchSlots_cases (fun i => test (groups.getD g Group.empty).cells[i].key)
    ((groups.getD g Group.empty).tags.slotsWith tag).toList with
    ⟨missed, i, hsearch, hslots, hkey, hmissed⟩ | ⟨hsearch, hmissed⟩
  · have htagged := hslots.map (Position.mk g)
    rw [List.map_append] at htagged
    rw [hsearch]
    dsimp only
    rw [List.map_append]
    exact .occupied htagged hkey (List.forall_mem_map.2 hmissed)
  · have hmiss : Missed groups tag test g := missed_iff.2 (List.forall_mem_map.2 hmissed)
    rw [hsearch]
    dsimp only
    split
    · rename_i i hi
      exact .vacant hi hmiss
    · rename_i hfull
      exact .next ⟨full_iff.2 hfull, hmiss⟩

theorem passed_of_next (hn : groups.size.isPowerOfTwo) (hg : g < groups.size)
    (hpass : Passed groups tag test g) {d : Nat}
    (h : ∀ d' < d, Passed groups tag test ((nextGroup groups.size g + d') % groups.size)) :
    ∀ d' < d + 1, Passed groups tag test ((g + d') % groups.size) := by
  intro d' hd'
  cases d' with
  | zero => rwa [Nat.add_zero, Nat.mod_eq_of_lt hg]
  | succ d' => rw [← nextGroup_add_mod hn]; exact h d' (by omega)

theorem Ending.Means.of_next {visits : Nat} (hn : groups.size.isPowerOfTwo) (hg : g < groups.size)
    (hpass : Passed groups tag test g) {ending : Ending}
    (h : ending.Means groups tag test visits (nextGroup groups.size g)) :
    ending.Means groups tag test (visits + 1) g := by
  cases ending with
  | occupied p =>
    obtain ⟨ht, he, d, hd, hp, hbefore⟩ := h
    exact ⟨ht, he, d + 1, by omega, by rw [hp, nextGroup_add_mod hn],
      passed_of_next hn hg hpass hbefore⟩
  | vacant p =>
    obtain ⟨hl, hm, d, hd, hp, hbefore⟩ := h
    exact ⟨hl, hm, d + 1, by omega, by rw [hp, nextGroup_add_mod hn],
      passed_of_next hn hg hpass hbefore⟩
  | exhausted => exact passed_of_next hn hg hpass h

/-- **The ending of a search tells where the key is, or that it is absent.** -/
theorem walkFrom_means (hn : groups.size.isPowerOfTwo) (hg : g < groups.size) (visits : Nat) :
    (walkFrom groups tag test visits g).ending.Means groups tag test visits g := by
  induction visits generalizing g with
  | zero => exact fun d hd => absurd hd (Nat.not_lt_zero d)
  | succ visits ih =>
    have hhere : g = (g + 0) % groups.size := (Nat.mod_eq_of_lt hg).symm
    have hnone : ∀ d' < 0, Passed groups tag test ((g + d') % groups.size) := fun d' h0 =>
      absurd h0 (Nat.not_lt_zero d')
    have hstep := walkFrom_step groups tag test visits g
    generalize walkFrom groups tag test (visits + 1) g = walk at hstep ⊢
    cases hstep with
    | occupied hslots hkey =>
      obtain ⟨hgroup, htag⟩ := mem_taggedSlots.1
        (hslots.subset (List.mem_append_right _ (List.mem_singleton_self _)))
      exact ⟨htag, hkey, 0, Nat.succ_pos visits, hgroup.trans hhere, hnone⟩
    | vacant hlowest hmissed => exact ⟨hlowest, hmissed, 0, Nat.succ_pos visits, hhere, hnone⟩
    | next hpassed => exact (ih (nextGroup_lt hn g)).of_next hn hg hpassed

theorem compared_sublist (visits g : Nat) :
    (walkFrom groups tag test visits g).compared.Sublist
      ((walkFrom groups tag test visits g).visited.flatMap (taggedSlots groups tag)) := by
  induction visits generalizing g with
  | zero => exact .slnil
  | succ visits ih =>
    have hstep := walkFrom_step groups tag test visits g
    generalize walkFrom groups tag test (visits + 1) g = walk at hstep ⊢
    cases hstep with
    | occupied hslots => rwa [List.flatMap_singleton]
    | vacant => rw [List.flatMap_singleton]
    | next => exact (List.Sublist.refl _).append (ih _)

theorem tagIn_of_mem_compared {visits : Nat}
    (h : p ∈ (walkFrom groups tag test visits g).compared) : tagIn groups p = tag := by
  obtain ⟨g', -, hp⟩ := List.mem_flatMap.1 ((compared_sublist visits g).subset h)
  exact (mem_taggedSlots.1 hp).2

end TagTable
