import TagTable.Proofs.Run.Reachable

/-!
# Shapes of tables

What a reservation looks at: the geometry and the counters, but neither the entries nor where they
are.

* `Shape`, `Table.shape`; `Outcome.seen`: what an operation shows, with the shape it leaves;
* **`Table.reserve_seen`**, `Table.copy_seen`: tables of one shape are treated alike;
* `Command.tombstonesLeft`, **`Table.shape_apply`**, `Table.capacity_apply_eq`: the effects and the shape of
  an operation are those of its reservation, but for the numbers of entries and tombstones.
-/

namespace TagTable

/-- What a reservation looks at. -/
structure Shape where
  geometry : Geometry
  groups : Nat
  count : Nat
  tombstones : Nat

/-- The shape of a table. -/
def Table.shape (t : Table) : Shape := ⟨t.geometry, t.groups.size, t.count, t.tombstones⟩

variable {σ : Type}

/-- An outcome without the uses of the strategy, and with the shape of what was changed in its
place. -/
def Outcome.seen (o : Outcome σ Table) :
    Except Error Unit × Shape × σ × List HeapEvent × List LogLine :=
  (o.result, o.after.shape, o.heap, o.trace.heap, o.trace.log)

namespace Table

variable (A : Allocator σ) {t u : Table}

theorem shape_rehash (t : Table) (n : Nat) :
    (t.rehash n).answer.shape = ⟨t.geometry, n, t.count, 0⟩ := by
  rw [shape, size_rehash]
  rfl

theorem giveBack_congr (h : t.shape = u.shape) (heap : σ) :
    t.giveBack A heap = u.giveBack A heap := by
  obtain ⟨hx, hs, -, -⟩ := Shape.mk.inj h
  rw [giveBack, giveBack, hx, hs]

theorem moveTo_seen (h : t.shape = u.shape) (capacity : Nat) (heap : σ) :
    (t.moveTo A capacity heap).seen = (u.moveTo A capacity heap).seen := by
  obtain ⟨hx, hs, hc, hb⟩ := Shape.mk.inj h
  have hre : (t.rehash (capacity / groupSize)).answer.shape =
      (u.rehash (capacity / groupSize)).answer.shape := by
    rw [shape_rehash, shape_rehash, hx, hc]
  rw [moveTo, moveTo, hx]
  cases u.geometry.bufferBlock (capacity / groupSize) with
  | error error => simp only [Outcome.seen, h]
  | ok block =>
    dsimp only
    cases A.request block heap with
    | mk granted heap =>
      cases granted with
      | false => simp only [Outcome.seen, h]
      | true => simp only [Outcome.seen, hre, giveBack_congr A h, Table.capacity, hs, hc, hb]

/-- **A reservation depends on the shape of a table only.** -/
theorem reserve_seen (h : t.shape = u.shape) (n : Nat) (heap : σ) :
    (t.reserve A n heap).seen = (u.reserve A n heap).seen := by
  obtain ⟨-, hs, hc, hb⟩ := Shape.mk.inj h
  have hcap : t.capacity = u.capacity := congrArg (groupSize * ·) hs
  rw [reserve, reserve, hc, hb, hcap]
  cases checked (u.count + n) with
  | none => simp only [Outcome.fail, Outcome.seen, h]
  | some needed =>
    dsimp only
    split_ifs
    · simp only [Outcome.seen, h]
    · exact moveTo_seen A h _ heap
    · cases grownCapacity needed u.capacity with
      | none => simp only [Outcome.fail, Outcome.seen, h]
      | some capacity => exact moveTo_seen A h capacity heap

theorem prepare_seen (h : t.shape = u.shape) {c c' : Command} (hd : t.demand c = u.demand c')
    (heap : σ) : (t.prepare A c heap).seen = (u.prepare A c' heap).seen := by
  rw [prepare, prepare, hd]
  cases u.demand c' with
  | none => simp only [Outcome.seen, h]
  | some n => exact reserve_seen A h n heap

theorem copy_seen (h : t.shape = u.shape) (heap : σ) :
    ((∃ error, (t.copy A heap).answer = .error error ∧ (u.copy A heap).answer = .error error) ∨
        (t.copy A heap).answer = .ok t ∧ (u.copy A heap).answer = .ok u) ∧
      (t.copy A heap).heap = (u.copy A heap).heap ∧
      (t.copy A heap).trace = (u.copy A heap).trace := by
  obtain ⟨hx, hs, -, -⟩ := Shape.mk.inj h
  rw [copy, copy, hx, hs]
  split_ifs
  · exact ⟨.inr ⟨rfl, rfl⟩, rfl, rfl⟩
  · cases u.geometry.bufferBlock u.groups.size with
    | error error => exact ⟨.inl ⟨error, rfl, rfl⟩, rfl, rfl⟩
    | ok block =>
      dsimp only
      cases A.request block heap with
      | mk granted heap =>
        cases granted with
        | false => exact ⟨.inl ⟨_, rfl, rfl⟩, rfl, rfl⟩
        | true => exact ⟨.inr ⟨rfl, rfl⟩, rfl, rfl⟩

/-! ## Operations -/

theorem apply_store (present : Table → Position → Except Error Unit × Table)
    (hpresent : ∀ u p, (present u p).2.shape = u.shape) {key value : Bytes} {c : Command}
    (hc : t.demand c = if t.fits key value then some 1 else none) (heap : σ) :
    ((t.store A present key value heap).heap = (t.prepare A c heap).heap ∧
      (t.store A present key value heap).trace.heap = (t.prepare A c heap).trace.heap ∧
      (t.store A present key value heap).trace.log = (t.prepare A c heap).trace.log) ∧
    (t.store A present key value heap).after.shape = { (t.prepare A c heap).after.shape with
      count := (t.store A present key value heap).after.count } := by
  rw [prepare, hc, store]
  by_cases hfit : t.fits key value = true
  · rw [if_pos hfit, if_pos hfit]
    dsimp only
    generalize t.reserve A 1 heap = room
    obtain ⟨result, u, heap', trace⟩ := room
    cases result with
    | error error => exact ⟨⟨rfl, rfl, rfl⟩, rfl⟩
    | ok _ =>
      dsimp only
      cases (u.probe key).walk.ending with
      | occupied p =>
        refine ⟨⟨rfl, rfl, rfl⟩, ?_⟩
        have hcount : (present u p).2.count = u.count := (Shape.mk.inj (hpresent u p)).2.2.1
        rw [hpresent, hcount]
        rfl
      | vacant p =>
        refine ⟨⟨rfl, rfl, rfl⟩, ?_⟩
        rw [shape, u.size_occupy]
        rfl
      | exhausted => exact ⟨⟨rfl, rfl, rfl⟩, rfl⟩
  · rw [if_neg hfit, if_neg hfit]
    exact ⟨⟨rfl, rfl, rfl⟩, rfl⟩

theorem shape_overwrite (t : Table) (p : Position) (value : Bytes) :
    (t.overwrite p value).shape = t.shape := by
  rw [shape, t.size_overwrite]
  rfl

theorem shape_modify (t : Table) (key : Bytes) (edit : Bytes → Bytes) :
    (t.modify key edit).answer.2.shape = t.shape := by
  rw [modify, Reply.map]
  cases (t.find key).answer with
  | none => rfl
  | some p => exact t.shape_overwrite p _

theorem shape_remove (hi : t.Invariant) (key : Bytes) :
    (t.remove key).answer.2.shape = { t.shape with
      count := (t.remove key).answer.2.count
      tombstones := t.count + t.tombstones - (t.remove key).answer.2.count } := by
  have hnone : t.shape = { t.shape with tombstones := t.count + t.tombstones - t.count } := by
    rw [Nat.add_sub_cancel_left]
    rfl
  rw [remove, Reply.map, take]
  split_ifs
  · dsimp only
    cases hfound : (t.probe key).found with
    | none => exact hnone
    | some p =>
      have hlive := (found_eq_some hi hfound).1
      have hpos : 0 < t.count := by
        rw [hi.count_eq_length]
        exact List.length_pos_of_mem (mem_entriesIn.2 ⟨p, stored_eq_some.2 ⟨hlive, rfl⟩⟩)
      have hsum : t.count + t.tombstones - (t.count - 1) = t.tombstones + 1 := by omega
      dsimp only
      rw [shape, t.size_bury, show (t.bury p).count = t.count - 1 from rfl, hsum]
      rfl
  · exact hnone

theorem shape_each {τ : Type} (t : Table) (visitor : τ → Bytes → Bytes → Visit τ) (state : τ) :
    (t.each visitor state).after.shape = t.shape := by
  rw [shape, t.size_each]
  rfl

theorem shape_filter {τ : Type} (hi : t.Invariant) (keep : τ → Bytes → Bytes → Bool × τ) (state : τ) :
    (t.filter keep state).after.shape = { t.shape with
      count := (t.filter keep state).after.count
      tombstones := t.count + t.tombstones - (t.filter keep state).after.count } := by
  have hlen := length_selectEntries keep t.entries state
  rw [selectEntries_entries, ← hi.count_eq_length] at hlen
  have hsum : t.count + t.tombstones - (t.count - (t.filter keep state).removed) =
      t.tombstones + (t.filter keep state).removed := by
    dsimp only at hlen
    omega
  rw [shape, t.size_filter,
    show (t.filter keep state).after.count = t.count - (t.filter keep state).removed from rfl, hsum]
  rfl

end Table

/-- The tombstones that an operation leaves, given the numbers of entries and tombstones after its
reservation and the number of entries in the end. -/
def Command.tombstonesLeft (count tombstones left : Nat) : Command → Nat
  | .clear => 0
  | .remove _ | .filter _ _ => count + tombstones - left
  | _ => tombstones

/-- **The shape that an operation leaves** is that of its reservation, but for the counters. -/
theorem Table.shape_apply {t : Table} (hi : t.Invariant) (A : Allocator σ) (c : Command) (heap : σ) :
    ((t.apply A c heap).heap = (t.prepare A c heap).heap ∧
      (t.apply A c heap).trace.heap = (t.prepare A c heap).trace.heap ∧
      (t.apply A c heap).trace.log = (t.prepare A c heap).trace.log) ∧
    (t.apply A c heap).after.shape = { (t.prepare A c heap).after.shape with
      count := (t.apply A c heap).after.count
      tombstones := c.tombstonesLeft (t.prepare A c heap).after.count
        (t.prepare A c heap).after.tombstones (t.apply A c heap).after.count } := by
  have hkept : ∀ {u : Table}, u.shape = t.shape →
      u.shape = { t.shape with count := u.count, tombstones := t.tombstones } := by
    intro u h
    rw [h, show u.count = t.count from (Shape.mk.inj h).2.2.1]
    rfl
  cases c with
  | insert key value =>
    exact apply_store A (fun t _ => (.error .alreadyExists, t)) (fun _ _ => rfl) rfl heap
  | set key value =>
    exact apply_store A (fun t slot => (.ok (), t.overwrite slot value))
      (fun u p => u.shape_overwrite p value) rfl heap
  | get | contains | reserve | iterate => exact ⟨⟨rfl, rfl, rfl⟩, rfl⟩
  | modify key edit => exact ⟨⟨rfl, rfl, rfl⟩, hkept (t.shape_modify key edit)⟩
  | remove key => exact ⟨⟨rfl, rfl, rfl⟩, shape_remove hi key⟩
  | clear =>
    refine ⟨⟨rfl, rfl, rfl⟩, ?_⟩
    rw [show (t.apply A .clear heap).after = t.clear from rfl, shape, t.size_clear]
    rfl
  | each visitor state => exact ⟨⟨rfl, rfl, rfl⟩, hkept (t.shape_each visitor state)⟩
  | filter keep state => exact ⟨⟨rfl, rfl, rfl⟩, shape_filter hi keep state⟩
  | setStrategy s =>
    rw [apply, setStrategy]
    split_ifs <;> exact ⟨⟨rfl, rfl, rfl⟩, rfl⟩

theorem Table.capacity_apply_eq {t : Table} (hi : t.Invariant) (A : Allocator σ) (c : Command)
    (heap : σ) : (t.apply A c heap).after.capacity = (t.prepare A c heap).after.capacity := by
  obtain ⟨-, hshape⟩ := shape_apply hi A c heap
  exact congrArg (groupSize * ·) (Shape.mk.inj hshape).2.1

end TagTable
