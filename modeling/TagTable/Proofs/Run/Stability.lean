import TagTable.Proofs.Run.Amortised
import TagTable.Proofs.Run.Rehash
import TagTable.Proofs.Table.SlotLife

/-!
# Stable slots

Between two buffers and two clearings, keys stay where they are, and tombstones only become more.

* `Step.replaces`, `Table.replaces_apply`: whether an operation replaced the buffer;
* `Table.slotIn_prepare`: if not, its reservation left all slots as they were;
* **`Table.apply_steady`**, `Table.tombstones_apply`: an operation that does not replace the buffer;
* `Table.removals`, **`Table.run_steady`**: a run in which none does;
* `Table.OrderKept`, `Table.apply_orderKept`: the order of an iteration;
* **`slots_stable`**: the two together.
-/

namespace TagTable

variable {σ : Type}

/-- Whether a block was given back. -/
def HeapEvent.isRelease : HeapEvent → Bool
  | .released _ => true
  | .granted _ | .refused _ => false

/-- Whether a step replaced the buffer: whether it gave the old one back. -/
def Step.replaces (s : Step σ) : Bool := s.trace.heap.any HeapEvent.isRelease

/-- Whether an operation removes entries one by one. -/
def Command.removes : Command → Bool
  | .remove _ | .filter _ _ => true
  | _ => false

namespace Table

variable (A : Allocator σ) {t : Table} {c : Command} {heap : σ}

/-! ## Buffers that are kept -/

theorem replaces_apply (hi : t.Invariant) (c : Command) (heap : σ) :
    (t.apply A c heap).replaces = true ↔
      t.groups.size ≠ 0 ∧ (t.apply A c heap).trace.heap.any HeapEvent.isGrant = true := by
  have h := apply_orderly A hi c heap
  rw [Step.replaces]
  generalize (t.apply A c heap).trace.heap = events at h ⊢
  generalize (t.apply A c heap).after.block? = new at h
  generalize hold : t.block? = old at h
  cases h with
  | quiet => simp
  | refused => simp [HeapEvent.isRelease, HeapEvent.isGrant]
  | granted =>
    by_cases h0 : t.groups.size = 0
    · simp [← hold, block?_of_size_eq_zero h0, HeapEvent.isRelease, h0]
    · obtain ⟨block, -, hblock⟩ := hi.block?_eq_some h0
      simp [← hold, hblock, HeapEvent.isRelease, HeapEvent.isGrant, h0]

theorem slotIn_replicate (n : Nat) (p : Position) :
    slotIn (Array.replicate n Group.empty) p = Group.empty.slot p.slot := by
  rw [slotIn, Array.getD_eq_getD_getElem?, Array.getElem?_replicate]
  split_ifs <;> rfl

theorem rehash_of_size_eq_zero (hi : t.Invariant) (h0 : t.groups.size = 0) (n : Nat) :
    slotIn (t.rehash n).answer.groups = slotIn t.groups ∧
      (t.rehash n).answer.tombstones = t.tombstones := by
  have hnone : t.groups = #[] := Array.size_eq_zero_iff.1 h0
  have hload := hi.load
  rw [capacity, h0, Nat.mul_zero, show loadLimit 0 = 0 from rfl] at hload
  refine ⟨funext fun p => ?_, show 0 = t.tombstones by omega⟩
  rw [groups_rehash, entries_eq, hnone]
  exact slotIn_replicate n p

theorem slotIn_moveTo (hi : t.Invariant) {capacity : Nat} (hc : t.GrowthTarget capacity)
    (h : (t.moveTo A capacity heap).trace.heap.any HeapEvent.isRelease = false) :
    slotIn (t.moveTo A capacity heap).after.groups = slotIn t.groups ∧
      (t.moveTo A capacity heap).after.tombstones = t.tombstones := by
  rcases t.moveTo_cases A capacity heap with ⟨-, hafter⟩ | ⟨hok, hafter, -⟩
  · rw [hafter]
    exact ⟨rfl, rfl⟩
  · rcases moveTo_requests A hi hc heap with ⟨hfail, -⟩ | ⟨-, block, -, hevents⟩
    · simp [hok] at hfail
    · -- A granted buffer without one given back: there was none.
      have h0 : t.groups.size = 0 := by
        by_contra h0
        obtain ⟨old, -, hold⟩ := hi.block?_eq_some h0
        simp [hevents, hold, HeapEvent.isRelease] at h
      rw [hafter]
      exact rehash_of_size_eq_zero hi h0 _

theorem slotIn_prepare (hi : t.Invariant) (h : (t.apply A c heap).replaces = false) :
    slotIn (t.prepare A c heap).after.groups = slotIn t.groups ∧
      (t.prepare A c heap).after.tombstones = t.tombstones := by
  obtain ⟨⟨-, hevents, -⟩, -⟩ := shape_apply hi A c heap
  rw [Step.replaces, hevents] at h
  rw [prepare] at h ⊢
  cases hd : t.demand c with
  | none => exact ⟨rfl, rfl⟩
  | some n =>
    rw [hd] at h
    dsimp only at h ⊢
    rcases t.reserve_cases A n heap hi.capacity_le hi.load with
      hr | ⟨hr, -⟩ | ⟨capacity, hc, -, hr⟩
    · rw [hr]
      exact ⟨rfl, rfl⟩
    · rw [hr]
      exact ⟨rfl, rfl⟩
    · rw [hr] at h ⊢
      exact slotIn_moveTo A hi hc h

/-! ## One operation -/

theorem store_steady (hi : t.Invariant) {removes : Bool}
    (present : Table → Position → Except Error Unit × Table)
    (hpresent : ∀ u p, 2 ≤ tagIn u.groups p →
      Steady true removes (slotIn u.groups) (slotIn (present u p).2.groups))
    {key value : Bytes} (hd : t.demand c = if t.fits key value then some 1 else none)
    (h : slotIn (t.prepare A c heap).after.groups = slotIn t.groups) :
    Steady true removes (slotIn t.groups)
      (slotIn (t.store A present key value heap).after.groups) := by
  rw [← h, prepare, hd]
  by_cases hfit : t.fits key value = true
  · rw [if_pos hfit]
    rcases reserve_spec A hi 1 heap with ⟨hfail, -⟩ | ⟨hok, hre, -⟩
    · rw [store_of_error A hfit hfail]
      exact .refl _
    · rcases store_cases A hi present hfit hok rfl with ⟨p, hfound, hstore⟩ | ⟨p, -, hv, -, hstore⟩
      · rw [hstore]
        exact hpresent _ p (found_eq_some hre.invariant hfound).1
      · rw [hstore]
        exact steady_occupy hv _ _
  · rw [if_neg hfit, store_of_not_fits A (Bool.not_eq_true _ ▸ hfit)]
    exact .refl _

/-- **An operation that does not replace the buffer takes every slot one step further at most**, unless
it clears the table. -/
theorem apply_steady (hi : t.Invariant) (hc : c ≠ .clear) (h : (t.apply A c heap).replaces = false) :
    Steady c.adds c.removes (slotIn t.groups) (slotIn (t.apply A c heap).after.groups) := by
  have hprepare := (slotIn_prepare A hi h).1
  cases c with
  | insert key value =>
    exact store_steady A hi (fun t _ => (.error .alreadyExists, t)) (fun _ _ _ => .refl _) rfl hprepare
  | set key value =>
    exact store_steady A hi (fun t slot => (.ok (), t.overwrite slot value))
      (fun _ _ hp => steady_overwrite hp value) rfl hprepare
  | get | contains | iterate => exact .refl _
  | modify key edit =>
    show Steady _ _ _ (slotIn (t.modify key edit).answer.2.groups)
    rw [modify, Reply.map]
    cases hfind : (t.find key).answer with
    | none => exact .refl _
    | some p => exact steady_overwrite (hi.find hfind) _
  | remove key =>
    show Steady _ _ _ (slotIn (t.remove key).answer.2.groups)
    rw [remove, Reply.map, take]
    split_ifs
    · dsimp only
      cases hfound : (t.probe key).found with
      | none => exact .refl _
      | some p => exact steady_bury (found_eq_some hi hfound).1
    · exact .refl _
  | reserve additional =>
    have hafter : (t.apply A (.reserve additional) heap).after =
        (t.prepare A (.reserve additional) heap).after := rfl
    rw [hafter, hprepare]
    exact .refl _
  | clear => exact absurd rfl hc
  | each visitor state => exact steady_each t visitor state
  | filter keep state => exact steady_filter t keep state
  | setStrategy s =>
    rw [apply, setStrategy]
    split_ifs <;> exact .refl _

/-- How many entries an operation removes one by one. -/
def removedBy (t : Table) (c : Command) (heap : σ) : Nat :=
  bif c.removes then t.entries.length - (t.apply A c heap).after.entries.length else 0

/-- **Every entry that is removed leaves a tombstone**, and nothing else does. -/
theorem tombstones_apply (hi : t.Invariant) (hc : c ≠ .clear)
    (h : (t.apply A c heap).replaces = false) :
    (t.apply A c heap).after.tombstones = t.tombstones + t.removedBy A c heap := by
  obtain ⟨-, hshape⟩ := shape_apply hi A c heap
  have hkept := (slotIn_prepare A hi h).2
  have hcount := count_prepare A hi c heap
  have hle := count_apply_le A hi c heap
  have htombs := (Shape.mk.inj hshape).2.2.2
  rw [removedBy, ← hi.count_eq_length, ← (hi.apply A c heap).count_eq_length, htombs, hkept, hcount]
  -- Entries and tombstones stay the same in sum, so every entry less is a tombstone more.
  cases c with
  | remove | filter =>
    simp only [Command.tombstonesLeft, Command.removes, Command.adds, Bool.toNat_false,
      cond_true] at hle ⊢
    omega
  | clear => exact absurd rfl hc
  | _ => rfl

/-! ## Runs -/

/-- How many entries operations one after the other remove one by one. -/
def removals : List Command → Table → σ → Nat
  | [], _, _ => 0
  | c :: rest, t, heap =>
    t.removedBy A c heap + removals rest (t.apply A c heap).after (t.apply A c heap).heap

/-- **In a run without a rehash or a clearing every slot gets further**, and every removal leaves a
tombstone. -/
theorem run_steady (hi : t.Invariant) {cs : List Command} (hcs : .clear ∉ cs)
    (h : ∀ x ∈ t.trail A cs heap, x.2.replaces = false) :
    (∀ p, Slot.Later (slotIn t.groups p) (slotIn (t.run A cs heap).1.groups p)) ∧
      (t.run A cs heap).1.tombstones = t.tombstones + t.removals A cs heap := by
  induction cs generalizing t heap with
  | nil => exact ⟨fun _ => .refl, rfl⟩
  | cons c cs ih =>
    have hc : c ≠ .clear := fun e => hcs (e ▸ List.mem_cons_self ..)
    have hfirst := h _ (List.mem_cons_self ..)
    have hsteady := apply_steady A hi hc hfirst
    have htombs := tombstones_apply A hi hc hfirst
    obtain ⟨hslots, hrest⟩ := ih (hi.apply A c heap) (fun hm => hcs (List.mem_cons_of_mem c hm))
      fun x hx => h x (List.mem_cons_of_mem _ hx)
    refine ⟨fun p => .head ((hsteady.step p).mono (fun _ => rfl) fun _ => rfl) (hslots p), ?_⟩
    show (run A cs _ _).1.tombstones = t.tombstones + (t.removedBy A c heap + _)
    omega

/-- **An iteration shows the entries that survive in the order in which it did before**: what adds no
entry leaves a part of the old order, and what removes none leaves all of it. Keys are told apart by
their slots, as they need not be different. -/
structure OrderKept (adds removes : Bool) (t u : Table) : Prop where
  before : (rollIn t.groups).map Prod.snd = t.cursor.drain.map Entry.key
  after : (rollIn u.groups).map Prod.snd = u.cursor.drain.map Entry.key
  all : removes = false → (rollIn t.groups).Sublist (rollIn u.groups)
  part : adds = false → (rollIn u.groups).Sublist (rollIn t.groups)

theorem apply_orderKept (hi : t.Invariant) (hc : c ≠ .clear)
    (h : (t.apply A c heap).replaces = false) :
    t.OrderKept c.adds c.removes (t.apply A c heap).after := by
  have hsteady := apply_steady A hi hc h
  have hafter := hi.apply A c heap
  refine ⟨map_snd_rollIn hi.count_eq_length, map_snd_rollIn hafter.count_eq_length, fun hr => ?_,
    fun ha => ?_⟩
  · rw [hr] at hsteady
    exact hsteady.inPlace.rollIn_sublist
  · rw [ha] at hsteady
    exact hsteady.inPlace_left.rollIn_sublist

end Table

/-- **Slots are stable between rehashes.** An operation takes every slot one step further at most, from
empty to the tag of a key to a tombstone, which stays; and the entries that survive keep their order. -/
theorem slots_stable {t : Table} (ht : Reachable t) {σ : Type} (A : Allocator σ) :
    (∀ (c : Command) (heap : σ), c ≠ .clear → (t.apply A c heap).replaces = false →
      Steady c.adds c.removes (slotIn t.groups) (slotIn (t.apply A c heap).after.groups) ∧
        t.OrderKept c.adds c.removes (t.apply A c heap).after) ∧
      ∀ (cs : List Command) (heap : σ), .clear ∉ cs →
        (∀ x ∈ t.trail A cs heap, x.2.replaces = false) →
        (∀ p, Slot.Later (slotIn t.groups p) (slotIn (t.run A cs heap).1.groups p) ∧
          (tagIn t.groups p = Tag.tombstone →
            slotIn (t.run A cs heap).1.groups p = slotIn t.groups p) ∧
          (2 ≤ tagIn t.groups p →
            (tagIn (t.run A cs heap).1.groups p = tagIn t.groups p ∨
                tagIn (t.run A cs heap).1.groups p = Tag.tombstone) ∧
              (cellIn (t.run A cs heap).1.groups p).key = (cellIn t.groups p).key)) ∧
        (t.run A cs heap).1.tombstones = t.tombstones + t.removals A cs heap ∧
          (t.run A cs heap).1.tombstones = buriedCount (t.run A cs heap).1.groups := by
  have hi := ht.invariant
  refine ⟨fun c heap hc h => ⟨t.apply_steady A hi hc h, t.apply_orderKept A hi hc h⟩,
    fun cs heap hcs h => ?_⟩
  obtain ⟨hslots, htombs⟩ := Table.run_steady A hi hcs h
  exact ⟨fun p => ⟨hslots p, (hslots p).eq_of_tombstone, (hslots p).of_live⟩, htombs,
    (ht.run A cs heap).invariant.tombstones⟩

/-- One more entry, values written over up to the second one, all entries removed but the new one, and
another entry after that. -/
def editing : List Command :=
  [.insert [2] [5], .each (fun (n : Nat) _ value => ⟨n + 1, value, n == 1⟩) 0,
    .filter (fun _ key _ => (key == [2], ())) (), .set [1] [6]]

theorem slots_stable_tripled :
    (∀ x ∈ tripled.trail Allocator.unlimited editing (), x.2.replaces = false) ∧
      (tripled.run Allocator.unlimited editing ()).1.tombstones = 1 + 2 ∧
      slotIn (tripled.run Allocator.unlimited editing ()).1.groups ⟨0, 1⟩ =
        ⟨Tag.tombstone, ⟨[1], [3]⟩⟩ ∧
      Steady true false (slotIn tripled.groups)
        (slotIn (tripled.apply Allocator.unlimited (.insert [2] [5]) ()).after.groups) := by
  have hkept : ∀ x ∈ tripled.trail Allocator.unlimited editing (), x.2.replaces = false := by
    decide +kernel
  have hremoved : tripled.removals Allocator.unlimited editing () = 2 := by decide +kernel
  have hcount : tripled.tombstones = 1 := by decide +kernel
  have htag : tagIn tripled.groups ⟨0, 1⟩ = Tag.tombstone := by decide +kernel
  have hcell : cellIn tripled.groups ⟨0, 1⟩ = ⟨[1], [3]⟩ := by decide +kernel
  obtain ⟨hstep, hrun⟩ := slots_stable reachable_tripled Allocator.unlimited
  obtain ⟨hslots, htombs, -⟩ := hrun editing () (by simp [editing]) hkept
  rw [hremoved, hcount] at htombs
  refine ⟨hkept, htombs, ?_, (hstep (.insert [2] [5]) () (by simp) (by decide +kernel)).1⟩
  rw [(hslots ⟨0, 1⟩).2.1 htag, slotIn_eq, htag, hcell]

end TagTable
