import TagTable.Proofs.Table.Walk

/-!
# Arranged rows

In an arranged row every entry is where a search for its key finds it.

* `Arranged`: the empty slots of a group come last, a live slot has the tag of its key, and on the
  way from its home group to its group all groups are full;
* `Arranged.of_keys`, **`Arranged.occupy`**: the changes that keep a row arranged;
* `place_eq`, `size_redistribute`, **`redistribute_spec`**: entries put into a row one after the other.
-/

namespace TagTable

/-- **The arrangement of a row by a hash function.** -/
structure Arranged (hash : Bytes → UInt64) (groups : Array Group) : Prop where
  /-- In every group the empty slots come last. -/
  suffix : ∀ g (i j : SlotIndex), i ≤ j → tagIn groups ⟨g, i⟩ = Tag.empty →
    tagIn groups ⟨g, j⟩ = Tag.empty
  /-- The tag of a live slot is made from the hash of its key. -/
  tag : ∀ p, 2 ≤ tagIn groups p → tagIn groups p = Tag.ofHash (hash (cellIn groups p).key)
  /-- No group before that of a live slot, from its home group on, has an empty slot. -/
  path : ∀ p, 2 ≤ tagIn groups p →
    OnPath groups ((hash (cellIn groups p).key).toNat % groups.size) p.group

variable {hash : Bytes → UInt64} {groups groups' : Array Group} {p : Position}

namespace Arranged

theorem of_not_live (hash : Bytes → UInt64)
    (hsuffix : ∀ g (i j : SlotIndex), i ≤ j → tagIn groups ⟨g, i⟩ = Tag.empty →
      tagIn groups ⟨g, j⟩ = Tag.empty)
    (h : ∀ p, ¬ 2 ≤ tagIn groups p) : Arranged hash groups :=
  ⟨hsuffix, fun p hp => absurd hp (h p), fun p hp => absurd hp (h p)⟩

theorem of_empty (hash : Bytes → UInt64) (h : ∀ p, tagIn groups p = Tag.empty) :
    Arranged hash groups :=
  of_not_live hash (fun g _ j _ _ => h ⟨g, j⟩) fun p => by rw [h p]; exact TagRow.not_two_le_empty

theorem of_keys (ha : Arranged hash groups) (hs : groups'.size = groups.size)
    (hempty : ∀ p, tagIn groups' p = Tag.empty ↔ tagIn groups p = Tag.empty)
    (hlive : ∀ p, 2 ≤ tagIn groups' p →
      tagIn groups' p = tagIn groups p ∧ (cellIn groups' p).key = (cellIn groups p).key) :
    Arranged hash groups' where
  suffix g i j hij hi := (hempty _).2 (ha.suffix g i j hij ((hempty _).1 hi))
  tag p hp := by
    obtain ⟨ht, hk⟩ := hlive p hp
    rw [ht, hk]
    exact ha.tag p (ht ▸ hp)
  path p hp := by
    obtain ⟨ht, hk⟩ := hlive p hp
    rw [hs, hk]
    exact (ha.path p (ht ▸ hp)).mono hs fun g hg i hi => hg i ((hempty _).1 hi)

end Arranged

/-! ## A new entry in the first empty slot -/

section Occupy

variable {e : Entry} {home : Nat}

theorem liveCount_occupy (hv : FirstVacancy groups home p) (h : UInt64) :
    liveCount (groups.modify p.group (·.occupy p.slot (Tag.ofHash h) e)) = liveCount groups + 1 := by
  have hc := countTags_change (fun b => decide (2 ≤ b)) Array.size_modify hv.group_lt fun q hq => by
    rw [tagIn_occupy hv.group_lt (Tag.ofHash h) e q, if_neg hq]
  rw [tagIn_occupy hv.group_lt, if_pos rfl, hv.tag_eq, decide_eq_true (Tag.two_le_ofHash h),
    decide_eq_false TagRow.not_two_le_empty] at hc
  exact hc

theorem buriedCount_occupy (hv : FirstVacancy groups home p) (h : UInt64) :
    buriedCount (groups.modify p.group (·.occupy p.slot (Tag.ofHash h) e)) = buriedCount groups := by
  have hc := countTags_change (fun b => decide (b = Tag.tombstone)) Array.size_modify hv.group_lt
    fun q hq => by rw [tagIn_occupy hv.group_lt (Tag.ofHash h) e q, if_neg hq]
  rw [tagIn_occupy hv.group_lt, if_pos rfl, hv.tag_eq,
    decide_eq_false ((TagRow.two_le_iff _).1 (Tag.two_le_ofHash h)).2,
    decide_eq_false TagRow.tombstone_ne_empty.symm] at hc
  exact hc

theorem stored_occupy (hp : p.group < groups.size) (h : UInt64) (q : Position) :
    stored (groups.modify p.group (·.occupy p.slot (Tag.ofHash h) e)) q =
      if q = p then some e else stored groups q := by
  rw [stored, tagIn_occupy hp, cellIn_occupy hp]
  split_ifs with hq h2
  · rfl
  · exact absurd (Tag.two_le_ofHash h) h2
  all_goals simp_all [stored]

theorem entriesIn_occupy (hv : FirstVacancy groups home p) (h : UInt64) :
    (entriesIn (groups.modify p.group (·.occupy p.slot (Tag.ofHash h) e))).Perm
      (e :: entriesIn groups) := by
  obtain ⟨l₁, l₂, hold, hnew⟩ := entriesIn_change Array.size_modify hv.group_lt fun q hq => by
    rw [stored_occupy hv.group_lt h q (e := e), if_neg hq]
  rw [stored_eq_none.2 (by rw [hv.tag_eq]; exact TagRow.not_two_le_empty)] at hold
  rw [stored_occupy hv.group_lt, if_pos rfl] at hnew
  rw [hold, hnew, Option.toList_some, Option.toList_none, List.append_nil, List.append_assoc]
  exact List.perm_middle

/-- **An entry put into the first empty slot on the way of its hash keeps a row arranged.** -/
theorem Arranged.occupy (ha : Arranged hash groups)
    (hv : FirstVacancy groups ((hash e.key).toNat % groups.size) p) :
    Arranged hash (groups.modify p.group (·.occupy p.slot (Tag.ofHash (hash e.key)) e)) := by
  have hp := hv.group_lt
  have htag := tagIn_occupy hp (Tag.ofHash (hash e.key)) e
  have hcell := cellIn_occupy hp (Tag.ofHash (hash e.key)) e
  have hne : Tag.ofHash (hash e.key) ≠ Tag.empty :=
    ((TagRow.two_le_iff _).1 (Tag.two_le_ofHash _)).1
  have hfull : ∀ g, Full groups g →
      Full (groups.modify p.group (·.occupy p.slot (Tag.ofHash (hash e.key)) e)) g := by
    intro g hg i
    rw [htag]
    split_ifs
    · exact hne
    · exact hg i
  constructor
  · intro g i j hij hi
    rw [htag] at hi ⊢
    split_ifs at hi with hip
    · exact absurd hi hne
    · have hj := ha.suffix g i j hij hi
      have hjp : (⟨g, j⟩ : Position) ≠ p := by
        rintro rfl
        have hlt : i < j := lt_of_le_of_ne hij fun e => hip (by rw [e])
        exact hv.tag_ne hlt hi
      rw [if_neg hjp, hj]
  · intro q hq
    rw [htag, hcell] at *
    split_ifs at hq ⊢
    · rfl
    · exact ha.tag q hq
  · intro q hq
    rw [htag] at hq
    rw [hcell, Array.size_modify]
    split_ifs at hq ⊢ with hqp
    · rw [hqp]
      exact hv.onPath.mono Array.size_modify hfull
    · exact (ha.path q hq).mono Array.size_modify hfull

end Occupy

/-! ## Entries put in one after the other -/

theorem place_eq (hn : groups.size.isPowerOfTwo)
    (hroom : liveCount groups + buriedCount groups < 16 * groups.size) (h : UInt64) (e : Entry) :
    ∃ p, vacancyFrom groups groups.size (homeGroup groups.size h) = some p ∧
      FirstVacancy groups (h.toNat % groups.size) p ∧
      place groups h e = groups.modify p.group (·.occupy p.slot (Tag.ofHash h) e) := by
  have hlt := homeGroup_lt hn h
  obtain ⟨p, hp⟩ := exists_vacancyFrom hn hlt (exists_not_full hroom)
  exact ⟨p, hp, homeGroup_eq_mod hn h ▸ vacancyFrom_eq_some hn hlt hp, by rw [place, hp]⟩

theorem size_place (groups : Array Group) (h : UInt64) (e : Entry) :
    (place groups h e).size = groups.size := by
  unfold place
  split
  · exact Array.size_modify
  · rfl

theorem size_redistribute (l : List (UInt64 × Entry)) (groups : Array Group) :
    (redistribute l groups).size = groups.size := by
  unfold redistribute
  induction l generalizing groups with
  | nil => rfl
  | cons x l ih => exact (ih _).trans (size_place groups x.1 x.2)

/-- **Entries put into an arranged row with room for them leave it arranged and are its new entries.**
-/
theorem redistribute_spec (hash : Bytes → UInt64) (l : List Entry) (hn : groups.size.isPowerOfTwo)
    (ha : Arranged hash groups)
    (hroom : liveCount groups + buriedCount groups + l.length ≤ 16 * groups.size) :
    Arranged hash (redistribute (l.map fun e => (hash e.key, e)) groups) ∧
      buriedCount (redistribute (l.map fun e => (hash e.key, e)) groups) = buriedCount groups ∧
      (entriesIn (redistribute (l.map fun e => (hash e.key, e)) groups)).Perm
        (l ++ entriesIn groups) := by
  -- On the list, for all rows: placing one entry leaves an arranged row with room for the others.
  induction l generalizing groups with
  | nil => exact ⟨ha, rfl, List.Perm.refl _⟩
  | cons e l ih =>
    rw [List.length_cons] at hroom
    obtain ⟨p, -, hv, hplace⟩ := place_eq hn (by omega) (hash e.key) e
    have hs := size_place groups (hash e.key) e
    have hlive := liveCount_occupy hv (hash e.key) (e := e)
    have hburied := buriedCount_occupy hv (hash e.key) (e := e)
    have hperm := entriesIn_occupy hv (hash e.key) (e := e)
    rw [← hplace] at hlive hburied hperm
    obtain ⟨harr, hb, hl⟩ := ih (hs ▸ hn) (hplace ▸ ha.occupy hv) (by rw [hlive, hburied, hs]; omega)
    refine ⟨harr, hb.trans hburied, hl.trans ?_⟩
    exact (hperm.append_left l).trans List.perm_middle

end TagTable
