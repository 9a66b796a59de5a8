import TagTable.Proofs.Run.Failure
import TagTable.Proofs.Table.InPlace

/-!
# Reserved room

A reservation holds for as many additions as it was made for, whatever else is done in between.

* `Table.prepare_of_room`: an operation that finds room makes no request;
* **`Table.count_apply_le`**, `Table.used_apply_le_prepare`, `Table.used_apply_le`: it uses up at most one
  slot;
* **`Table.apply_inPlace`**: it moves no entry;
* `Table.Room`, `Table.Room.prepare`, **`Table.Room.apply`**, `Table.Room.trail`: a step and a run in
  reserved room;
* `Table.Reserved`, **`reservation_is_promise`**: the room after a reservation.
-/

namespace TagTable

variable {σ : Type}

/-- Whether an operation may add an entry. -/
def Command.adds : Command → Bool
  | .insert _ _ | .set _ _ => true
  | _ => false

namespace Table

variable (A : Allocator σ) {t : Table} {heap : σ}

/-! ## Operations that find room -/

theorem reserve_of_room (hi : t.Invariant) {n : Nat}
    (hroom : t.count + n + t.tombstones ≤ loadLimit t.capacity) (heap : σ) :
    t.reserve A n heap = ⟨.ok (), t, heap, .empty⟩ := by
  have hword : t.count + n + t.tombstones < wordBound := by
    have hcap := hi.capacity_le
    have hlimit := loadLimit_le t.capacity
    unfold maxBlockSize at hcap
    unfold wordBound
    omega
  have hneed : checked (t.count + n) = some (t.count + n) :=
    checked_eq_some_iff.2 ⟨by omega, rfl⟩
  have hsat : saturating (t.count + n + t.tombstones) ≤ loadLimit t.capacity :=
    Nat.le_trans (Nat.min_le_left ..) hroom
  rw [reserve, hneed]
  exact if_pos ⟨by omega, hsat⟩

theorem prepare_of_room (hi : t.Invariant) {c : Command}
    (hroom : ∀ n, t.demand c = some n → t.count + n + t.tombstones ≤ loadLimit t.capacity)
    (heap : σ) : t.prepare A c heap = ⟨.ok (), t, heap, .empty⟩ := by
  rw [prepare]
  cases hd : t.demand c with
  | none => rfl
  | some n => exact reserve_of_room A hi (hroom n hd) heap

theorem store_count_le (hi : t.Invariant) {present : Table → Position → Except Error Unit × Table}
    (hpresent : ∀ u p, (present u p).2.count = u.count) (key value : Bytes) (heap : σ) :
    (t.store A present key value heap).after.count ≤ t.count + 1 := by
  rcases store_after A hi present key value heap with h | ⟨u, hre, p, ⟨-, h⟩ | ⟨-, -, -, h⟩⟩
  · rw [h]
    exact Nat.le_succ _
  · rw [h, hpresent, hre.count]
    exact Nat.le_succ _
  · rw [h]
    exact Nat.succ_le_succ (Nat.le_of_eq hre.count)

/-- **No operation adds more than one entry**, and only additions add any. -/
theorem count_apply_le (hi : t.Invariant) (c : Command) (heap : σ) :
    (t.apply A c heap).after.count ≤ t.count + c.adds.toNat := by
  cases c with
  | insert key value => exact store_count_le A hi (fun _ _ => rfl) key value heap
  | set key value => exact store_count_le A hi (fun _ _ => rfl) key value heap
  | get | contains | iterate | each => exact Nat.le_refl _
  | modify key edit => exact Nat.le_of_eq (Shape.mk.inj (t.shape_modify key edit)).2.2.1
  | remove key =>
    show (t.remove key).answer.2.count ≤ t.count
    rw [remove, Reply.map, take]
    split_ifs
    · dsimp only
      cases (t.probe key).found with
      | none => exact Nat.le_refl _
      | some p => exact Nat.sub_le ..
    · exact Nat.le_refl _
  | reserve n =>
    rcases reserve_spec A hi n heap with ⟨-, hafter⟩ | ⟨-, hre, -⟩
    · exact Nat.le_of_eq (congrArg count hafter)
    · exact Nat.le_of_eq hre.count
  | clear => exact Nat.zero_le _
  | filter keep state => exact Nat.sub_le ..
  | setStrategy s =>
    rw [apply, setStrategy]
    split_ifs <;> exact Nat.le_refl _

theorem count_prepare (hi : t.Invariant) (c : Command) (heap : σ) :
    (t.prepare A c heap).after.count = t.count := (resettled_prepare A hi c heap).count

theorem used_apply_le_prepare (hi : t.Invariant) (c : Command) (heap : σ) :
    (t.apply A c heap).after.count + (t.apply A c heap).after.tombstones ≤
      t.count + (t.prepare A c heap).after.tombstones + ((t.apply A c heap).after.count - t.count) := by
  have hcount := count_apply_le A hi c heap
  have hprepare := count_prepare A hi c heap
  obtain ⟨-, hshape⟩ := shape_apply hi A c heap
  obtain ⟨-, -, -, htombs⟩ := Shape.mk.inj hshape
  rw [htombs]
  cases c with
  | remove | filter =>
    simp only [Command.tombstonesLeft, Command.adds, Bool.toNat_false] at hcount ⊢
    omega
  | _ =>
    simp only [Command.tombstonesLeft]
    omega

theorem used_apply_le (hi : t.Invariant) {c : Command}
    (h : t.prepare A c heap = ⟨.ok (), t, heap, .empty⟩) :
    (t.apply A c heap).after.count + (t.apply A c heap).after.tombstones ≤
      t.count + t.tombstones + c.adds.toNat := by
  have hcount := count_apply_le A hi c heap
  have hused := used_apply_le_prepare A hi c heap
  rw [h] at hused
  dsimp only at hused
  omega

theorem store_inPlace (hi : t.Invariant) {present : Table → Position → Except Error Unit × Table}
    (hpresent : ∀ p, 2 ≤ tagIn t.groups p → t.InPlace (present t p).2) {key value : Bytes}
    (h : t.fits key value = true → t.reserve A 1 heap = ⟨.ok (), t, heap, .empty⟩) :
    t.InPlace (t.store A present key value heap).after := by
  by_cases hfit : t.fits key value = true
  · have hok : (t.reserve A 1 heap).result = .ok () := by rw [h hfit]
    have hafter : (t.reserve A 1 heap).after = t := by rw [h hfit]
    rcases store_cases A hi present hfit hok hafter with ⟨p, hfound, hstore⟩ | ⟨p, -, hv, -, hstore⟩
    · rw [hstore]
      exact hpresent p (found_eq_some hi hfound).1
    · rw [hstore]
      exact inPlace_occupy hv _ _
  · rw [store_of_not_fits A (Bool.not_eq_true _ ▸ hfit)]
    exact .refl t

/-- **Without a growth no entry moves.** -/
theorem apply_inPlace (hi : t.Invariant) {c : Command}
    (h : t.prepare A c heap = ⟨.ok (), t, heap, .empty⟩) :
    t.InPlace (t.apply A c heap).after ∨ (t.apply A c heap).after.InPlace t := by
  have hready : ∀ key value, t.demand c = (if t.fits key value then some 1 else none) →
      t.fits key value = true → t.reserve A 1 heap = ⟨.ok (), t, heap, .empty⟩ := by
    intro key value hd hfit
    rwa [prepare, hd, if_pos hfit] at h
  cases c with
  | insert key value =>
    exact .inl (store_inPlace A hi (fun _ _ => .refl t) (hready key value rfl))
  | set key value =>
    refine .inl (store_inPlace A hi (fun p hp => ?_) (hready key value rfl))
    exact (inPlace_overwrite (group_lt_of_two_le hp) value).1
  | get | contains | iterate => exact .inl (.refl t)
  | modify key edit =>
    refine .inl ?_
    show t.InPlace (t.modify key edit).answer.2
    rw [modify, Reply.map]
    cases hfind : (t.find key).answer with
    | none => exact .refl t
    | some p => exact (inPlace_overwrite (group_lt_of_two_le (hi.find hfind)) _).1
  | remove key =>
    refine .inr ?_
    show (t.remove key).answer.2.InPlace t
    rw [remove, Reply.map, take]
    split_ifs
    · dsimp only
      cases hfound : (t.probe key).found with
      | none => exact .refl t
      | some p => exact inPlace_bury (group_lt_of_two_le (found_eq_some hi hfound).1)
    · exact .refl t
  | reserve n =>
    have hafter : (t.apply A (.reserve n) heap).after = t := congrArg Outcome.after h
    rw [hafter]
    exact .inl (.refl t)
  | clear => exact .inr t.inPlace_clear
  | each visitor state => exact .inr (t.inPlace_each visitor state)
  | filter keep state => exact .inr (t.inPlace_filter keep state)
  | setStrategy s =>
    refine .inl ?_
    rw [apply, setStrategy]
    split_ifs <;> exact .refl t

/-! ## Reserved room -/

/-- Room for a number of additions, removed entries included. -/
def Room (t : Table) (additions : Nat) : Prop :=
  t.Invariant ∧ t.count + additions + t.tombstones ≤ loadLimit t.capacity

/-- **What a reservation promises of a step**, given with the table that it found. -/
structure Undisturbed (capacity : Nat) (heap : σ) (x : Table × Step σ) : Prop where
  /-- Nothing is asked of the allocator, and nothing given back. -/
  events : x.2.trace.heap = []
  heap : x.2.heap = heap
  capacity : x.2.after.capacity = capacity
  answer : x.2.answer ≠ .done (.error .outOfMemory)
  /-- No entry moves: either every old entry is still in its slot, or every entry that is left was in
  its slot before. -/
  entries : x.1.InPlace x.2.after ∨ x.2.after.InPlace x.1

theorem Room.prepare {additions : Nat} (hr : t.Room additions) {c : Command}
    (hadds : c.adds.toNat ≤ additions) (hreserve : ∀ n, c = .reserve n → n = 0) (heap : σ) :
    t.prepare A c heap = ⟨.ok (), t, heap, .empty⟩ := by
  obtain ⟨hi, hroom⟩ := hr
  refine prepare_of_room A hi (fun n hd => ?_) heap
  cases c with
  | insert | set =>
    simp only [demand, Option.ite_none_right_eq_some, Option.some.injEq] at hd
    simp only [Command.adds, Bool.toNat_true] at hadds
    omega
  | reserve k =>
    have hk := hreserve k rfl
    simp only [demand, Option.some.injEq] at hd
    omega
  | _ => simp [demand] at hd

/-- **A step of a run in reserved room** asks nothing of the allocator and leaves the room for the other
additions. -/
theorem Room.apply {additions : Nat} (hr : t.Room additions) {c : Command}
    (hadds : c.adds.toNat ≤ additions) (hreserve : ∀ n, c = .reserve n → n = 0) (heap : σ) :
    Undisturbed t.capacity heap (t, t.apply A c heap) ∧
      (t.apply A c heap).after.Room (additions - c.adds.toNat) := by
  have hready := hr.prepare A hadds hreserve heap
  obtain ⟨hi, hroom⟩ := hr
  obtain ⟨⟨hheap, hevents, -⟩, hshape⟩ := shape_apply hi A c heap
  rw [hready] at hheap hevents hshape
  have hsize : (t.apply A c heap).after.groups.size = t.groups.size := (Shape.mk.inj hshape).2.1
  have hcap : (t.apply A c heap).after.capacity = t.capacity := congrArg (groupSize * ·) hsize
  refine ⟨⟨hevents, hheap, hcap, ?_, apply_inPlace A hi hready⟩, hi.apply A c heap, ?_⟩
  · rw [Ne, apply_eq_outOfMemory A hi, hready]
    simp
  · have hused := used_apply_le A hi hready
    rw [hcap]
    omega

theorem Room.trail {additions : Nat} (hr : t.Room additions) {cs : List Command}
    (hadds : cs.countP Command.adds ≤ additions) (hreserve : ∀ n, .reserve n ∈ cs → n = 0)
    (heap : σ) : ∀ x ∈ t.trail A cs heap, Undisturbed t.capacity heap x := by
  induction cs generalizing t additions with
  | nil => exact fun x hx => absurd hx List.not_mem_nil
  | cons c cs ih =>
    have hsplit : cs.countP Command.adds + c.adds.toNat ≤ additions := by
      rw [List.countP_cons] at hadds
      cases hc : c.adds <;> simpa [hc] using hadds
    obtain ⟨hkept, hrest⟩ := hr.apply A (c := c) (by omega)
      (fun n hn => hreserve n (hn ▸ List.mem_cons_self ..)) heap
    have hstep : (t.apply A c heap).heap = heap := hkept.heap
    intro x hx
    rw [trail, hstep] at hx
    rcases List.mem_cons.1 hx with rfl | hx
    · exact hkept
    · have h := ih hrest (by omega) (fun n hn => hreserve n (List.mem_cons_of_mem c hn)) x hx
      rwa [hkept.capacity] at h

/-- The tables in which room for a number of entries has just been reserved, or which were made with
it. -/
inductive Reserved (n : Nat) : Table → Prop
  | reserve {σ : Type} {A : Allocator σ} {heap : σ} {t : Table} (ht : Reachable t)
    (h : (t.reserve A n heap).result = .ok ()) : Reserved n (t.reserve A n heap).after
  | withRoom {σ : Type} {A : Allocator σ} {e : EntryLayout} {s : Strategy} {heap : σ} {t : Table}
    (h : (Table.withRoom A e n s heap).answer = .ok t) : Reserved n t

theorem Reserved.room {n : Nat} (h : t.Reserved n) : t.Room n := by
  have hroom : ∀ {τ : Type} {A : Allocator τ} {heap : τ} {t : Table}, t.Invariant →
      (t.reserve A n heap).result = .ok () → (t.reserve A n heap).after.Room n := by
    intro τ A heap t hi hok
    rcases reserve_spec A hi n heap with ⟨hfail, -⟩ | ⟨-, hre, hload⟩
    · rw [hok] at hfail
      exact absurd hfail (by simp)
    · exact ⟨hre.invariant, hload⟩
  cases h with
  | reserve ht hok => exact hroom ht.invariant hok
  | @withRoom _ A e s heap _ h =>
    cases hx : Geometry.ofEntry e with
    | error error => simp [Table.withRoom, create_eq, hx, Except.map] at h
    | ok x =>
      rw [Table.withRoom, create_eq, hx] at h
      cases hr : ((vacant e x s).reserve A n heap).result with
      | error error => simp [Except.map, hr] at h
      | ok _ =>
        simp only [Except.map, hr, Except.ok.injEq] at h
        exact h ▸ hroom (invariant_vacant hx s) hr

end Table

/-- **A reservation is a promise.** In a run with no more additions than room was reserved for, and no
other reservations, no step makes a request, changes the capacity, runs out of memory or moves an entry.
-/
theorem reservation_is_promise {n : Nat} {t : Table} (ht : t.Reserved n) {cs : List Command}
    (hadds : cs.countP Command.adds ≤ n) (hreserve : ∀ k, .reserve k ∈ cs → k = 0) {σ : Type}
    (A : Allocator σ) (heap : σ) :
    ∀ x ∈ t.trail A cs heap, Table.Undisturbed t.capacity heap x :=
  ht.room.trail A hadds hreserve heap

/-- Eleven additions, among which all entries are removed twice. -/
def elevenAdditions : List Command :=
  ((List.range 10).flatMap fun i => [.set [UInt8.ofNat i] [1], .remove [UInt8.ofNat i]]) ++
    [.clear, .setStrategy (.ofHash "" fun _ => 1), .reserve 0, .insert [1] [2],
      .filter (fun _ _ _ => (false, ())) ()]

theorem reservation_is_promise_eleven :
    ((bytewise (.ofHash "" fun _ => 0)).reserve Allocator.quota 11 (sparing 1)).result = .ok () ∧
      elevenAdditions.countP Command.adds = 11 ∧
      ∀ x ∈ ((bytewise (.ofHash "" fun _ => 0)).reserve Allocator.quota 11 (sparing 1)).after.trail
        Allocator.quota elevenAdditions (sparing 0), Table.Undisturbed 16 (sparing 0) x := by
  have hok : ((bytewise (.ofHash "" fun _ => 0)).reserve Allocator.quota 11 (sparing 1)).result =
      .ok () := by decide +kernel
  have hadds : elevenAdditions.countP Command.adds = 11 := by decide +kernel
  have hreserve : ∀ k, .reserve k ∈ elevenAdditions → k = 0 := by simp [elevenAdditions]
  exact ⟨hok, hadds, reservation_is_promise (.reserve (reachable_bytewise _) hok)
    (Nat.le_of_eq hadds) hreserve Allocator.quota (sparing 0)⟩

end TagTable
