import TagTable.Proofs.Run.Shape
import TagTable.Proofs.Table.Cursor
import TagTable.Proofs.Table.Stale

/-!
# Tables that differ in stale bytes

* `Table.Agree`: the same table but for what slots without an entry store;
* `Table.Agree.probe_eq`, `find_eq`, `entries_eq`: searches and traversals show the same;
* `Table.Agree.occupy`, `overwrite`, `bury`, **`reserve`**, **`store`**: changes keep it;
* **`Table.Agree.apply`**: every operation does the same on both tables.
-/

namespace TagTable

namespace Table

/-- The same table, but for what slots without an entry store. -/
inductive Agree (t : Table) : Table → Prop
  | intro {groups : Array Group} (h : RowsAgree t.groups groups) : Agree t { t with groups := groups }

namespace Agree

variable {σ : Type} (A : Allocator σ) {t u : Table} {p : Position}

theorem refl (t : Table) : t.Agree t := .intro (.refl t.groups)

theorem groups (h : t.Agree u) : RowsAgree t.groups u.groups := by
  obtain ⟨h⟩ := h
  exact h

/-! ## What is read -/

theorem capacity_eq (h : t.Agree u) : u.capacity = t.capacity :=
  congrArg (groupSize * ·) h.groups.size_eq

theorem shape_eq (h : t.Agree u) : t.shape = u.shape := by
  obtain ⟨h⟩ := h
  rw [shape, shape, h.size_eq]

theorem entries_eq (h : t.Agree u) : u.entries = t.entries := h.groups.entriesIn_eq

theorem entryAt_eq (h : t.Agree u) (hp : 2 ≤ tagIn t.groups p) : u.entryAt p = t.entryAt p :=
  h.groups.cellIn_eq hp

theorem probe_eq (h : t.Agree u) (key : Bytes) : u.probe key = t.probe key := by
  obtain ⟨h⟩ := h
  rw [probe, probe]
  dsimp only
  rw [h.walkFrom_eq (Tag.two_le_ofHash _), h.size_eq]

theorem calls_eq (h : t.Agree u) (key : Bytes) :
    (u.probe key).calls u = (t.probe key).calls t := by
  rw [h.probe_eq, Probe.calls, Probe.calls]
  congr 1
  refine List.map_congr_left fun p hp => ?_
  rw [h.entryAt_eq]
  exact (tagIn_of_mem_compared hp).symm ▸ Tag.two_le_ofHash _

theorem find_eq (h : t.Agree u) (key : Bytes) : u.find key = t.find key := by
  have hcalls := h.calls_eq key
  have hprobe := h.probe_eq key
  obtain ⟨h⟩ := h
  rw [find, find]
  dsimp only
  rw [hcalls, hprobe]

theorem get_eq (h : t.Agree u) (hi : t.Invariant) (key : Bytes) : u.get key = t.get key := by
  rw [get, get, h.find_eq, Reply.map, Reply.map]
  cases hfind : (t.find key).answer with
  | none => rfl
  | some p => rw [Option.map_some, Option.map_some, h.entryAt_eq (hi.find hfind)]

theorem drain_eq (h : t.Agree u) (hi : t.Invariant) : u.cursor.drain = t.cursor.drain := by
  have hcount := hi.count_eq_length
  have hentries := h.entries_eq
  rw [t.drain_cursor hcount, u.drain_cursor, hentries]
  rw [hentries, ← hcount]
  obtain ⟨h⟩ := h
  rfl

/-! ## Changes of slots -/

theorem occupy (h : t.Agree u) (p : Position) (tag : UInt8) (e : Entry) :
    (t.occupy p tag e).Agree (u.occupy p tag e) := by
  obtain ⟨h⟩ := h
  exact .intro (t := t.occupy p tag e) (h.modify fun g' hg => hg.occupy p.slot tag e)

theorem bury (h : t.Agree u) (p : Position) : (t.bury p).Agree (u.bury p) := by
  obtain ⟨h⟩ := h
  exact .intro (t := t.bury p) (h.modify fun g' hg => hg.bury p.slot)

theorem overwrite (h : t.Agree u) (hp : 2 ≤ tagIn t.groups p) (value : Bytes) :
    (t.overwrite p value).Agree (u.overwrite p value) := by
  obtain ⟨h⟩ := h
  exact .intro (t := t.overwrite p value) (h.modify fun g' hg => hg.overwrite hp value)

theorem clear (h : t.Agree u) : t.clear.Agree u.clear := by
  obtain ⟨h⟩ := h
  exact .intro (t := t.clear) (.wipe h.size_eq)

/-! ## Reservations -/

theorem rehash_eq (h : t.Agree u) (n : Nat) : u.rehash n = t.rehash n := by
  have hentries := h.entries_eq
  obtain ⟨h⟩ := h
  rw [rehash, rehash, hashedEntries, hashedEntries, hentries]

theorem moveTo (h : t.Agree u) (capacity : Nat) (heap : σ) :
    ∃ v, (t.moveTo A capacity heap).after.Agree v ∧
      u.moveTo A capacity heap = { t.moveTo A capacity heap with after := v } := by
  have hrehash := h.rehash_eq (capacity / groupSize)
  have hcapacity := h.capacity_eq
  have hback := giveBack_congr A h.shape_eq
  obtain ⟨h⟩ := h
  rw [Table.moveTo, Table.moveTo, hcapacity, hrehash]
  dsimp only
  cases t.geometry.bufferBlock (capacity / groupSize) with
  | error error => exact ⟨_, .intro h, rfl⟩
  | ok block =>
    dsimp only
    rcases A.request block heap with ⟨_ | _, heap⟩
    · exact ⟨_, .intro h, rfl⟩
    · refine ⟨_, .refl _, ?_⟩
      dsimp only
      rw [hback]

theorem reserve (h : t.Agree u) (n : Nat) (heap : σ) :
    ∃ v, (t.reserve A n heap).after.Agree v ∧
      u.reserve A n heap = { t.reserve A n heap with after := v } := by
  have hmove := h.moveTo A
  have hcapacity := h.capacity_eq
  obtain ⟨hrow⟩ := h
  rw [Table.reserve, Table.reserve, hcapacity]
  dsimp only
  cases checked (t.count + n) with
  | none => exact ⟨_, .intro hrow, rfl⟩
  | some needed =>
    dsimp only
    split_ifs
    · exact ⟨_, .intro hrow, rfl⟩
    · exact hmove t.capacity heap
    · cases grownCapacity needed t.capacity with
      | none => exact ⟨_, .intro hrow, rfl⟩
      | some capacity => exact hmove capacity heap

/-! ## Operations -/

theorem store (h : t.Agree u) (hi : t.Invariant)
    (present : Table → Position → Except Error Unit × Table)
    (hpresent : ∀ {t u : Table} {p : Position}, t.Agree u → 2 ≤ tagIn t.groups p →
      ∃ v, (present t p).2.Agree v ∧ present u p = ((present t p).1, v))
    (key value : Bytes) (heap : σ) :
    ∃ v, (t.store A present key value heap).after.Agree v ∧
      u.store A present key value heap = { t.store A present key value heap with after := v } := by
  obtain ⟨v, hv, hreserve⟩ := h.reserve A 1 heap
  have hi' := hi.reserve A 1 heap
  have hfits : u.fits key value = t.fits key value := by
    obtain ⟨h⟩ := h
    rfl
  rw [Table.store, Table.store, hreserve, hfits]
  split_ifs
  · dsimp only
    generalize t.reserve A 1 heap = room at hv hi' ⊢
    obtain ⟨result, w, heap', trace⟩ := room
    cases result with
    | error error => exact ⟨v, hv, rfl⟩
    | ok _ =>
      dsimp only at hv hi' ⊢
      rw [hv.calls_eq, hv.probe_eq]
      cases hend : (w.probe key).walk.ending with
      | occupied p =>
        obtain ⟨v', hv', heq⟩ := hpresent hv (found_eq_some hi' (found_eq_some_iff.2 hend)).1
        exact ⟨v', hv', by dsimp only; rw [heq]⟩
      | vacant p => exact ⟨_, hv.occupy p _ _, rfl⟩
      | exhausted => exact ⟨v, hv, rfl⟩
  · exact ⟨u, h, rfl⟩

theorem modify (h : t.Agree u) (hi : t.Invariant) (key : Bytes) (edit : Bytes → Bytes) :
    ∃ v, (t.modify key edit).answer.2.Agree v ∧
      u.modify key edit = ⟨((t.modify key edit).answer.1, v), (t.modify key edit).calls⟩ := by
  rw [Table.modify, Table.modify, h.find_eq, Reply.map, Reply.map]
  cases hfind : (t.find key).answer with
  | none => exact ⟨u, h, rfl⟩
  | some p =>
    have hp := hi.find hfind
    dsimp only
    rw [h.entryAt_eq hp]
    exact ⟨_, h.overwrite hp _, rfl⟩

theorem take (h : t.Agree u) (hi : t.Invariant) (key : Bytes) :
    ∃ v, (t.take key).answer.2.Agree v ∧
      u.take key = ⟨((t.take key).answer.1, v), (t.take key).calls⟩ := by
  have hcalls := h.calls_eq key
  have hprobe := h.probe_eq key
  have hx : u.geometry = t.geometry := (Shape.mk.inj h.shape_eq).1.symm
  rw [Table.take, Table.take, hx]
  split_ifs
  · dsimp only
    rw [hcalls, hprobe]
    cases hfound : (t.probe key).found with
    | none => exact ⟨u, h, rfl⟩
    | some p =>
      dsimp only
      rw [h.entryAt_eq (found_eq_some hi hfound).1]
      exact ⟨_, h.bury p, rfl⟩
  · exact ⟨u, h, rfl⟩

section

variable {τ : Type}

theorem each (h : t.Agree u) (visitor : τ → Bytes → Bytes → Visit τ) (state : τ) :
    ∃ v, (t.each visitor state).after.Agree v ∧
      u.each visitor state = { t.each visitor state with after := v } := by
  obtain ⟨h⟩ := h
  obtain ⟨hstate, hstopped, hafter⟩ := h.each visitor state
  refine ⟨_, .intro (t := (t.each visitor state).after) hafter, ?_⟩
  rw [Table.each, Table.each]
  dsimp only
  rw [hstate, hstopped]

theorem filter (h : t.Agree u) (keep : τ → Bytes → Bytes → Bool × τ) (state : τ) :
    ∃ v, (t.filter keep state).after.Agree v ∧
      u.filter keep state = { t.filter keep state with after := v } := by
  obtain ⟨h⟩ := h
  obtain ⟨hstate, hremoved, hafter⟩ := h.filter keep state
  refine ⟨_, .intro (t := (t.filter keep state).after) hafter, ?_⟩
  rw [Table.filter, Table.filter]
  dsimp only
  rw [hstate, hremoved]

end

/-- **Every operation does the same on both tables.** -/
theorem apply (h : t.Agree u) (hi : t.Invariant) (c : Command) (heap : σ) :
    ∃ v, (t.apply A c heap).after.Agree v ∧
      u.apply A c heap = { t.apply A c heap with after := v } := by
  cases c with
  | insert key value =>
    obtain ⟨v, hv, heq⟩ := h.store A hi (fun t _ => (.error .alreadyExists, t))
      (fun hw _ => ⟨_, hw, rfl⟩) key value heap
    exact ⟨v, hv, by rw [Table.apply, Table.insert, heq]; rfl⟩
  | set key value =>
    obtain ⟨v, hv, heq⟩ := h.store A hi (fun t slot => (.ok (), t.overwrite slot value))
      (fun hw hp => ⟨_, hw.overwrite hp value, rfl⟩) key value heap
    exact ⟨v, hv, by rw [Table.apply, Table.set, heq]; rfl⟩
  | get key => exact ⟨u, h, by rw [Table.apply, h.get_eq hi]; rfl⟩
  | modify key edit =>
    obtain ⟨v, hv, heq⟩ := h.modify hi key edit
    exact ⟨v, hv, by rw [Table.apply, heq]; rfl⟩
  | contains key => exact ⟨u, h, by rw [Table.apply, contains, h.get_eq hi]; rfl⟩
  | remove key =>
    obtain ⟨v, hv, heq⟩ := h.take hi key
    exact ⟨v, hv, by rw [Table.apply, Table.remove, heq]; rfl⟩
  | reserve n =>
    obtain ⟨v, hv, heq⟩ := h.reserve A n heap
    exact ⟨v, hv, by rw [Table.apply, heq]; rfl⟩
  | clear => exact ⟨_, h.clear, rfl⟩
  | each visitor state =>
    obtain ⟨v, hv, heq⟩ := h.each visitor state
    exact ⟨v, hv, by rw [Table.apply, heq]; rfl⟩
  | filter keep state =>
    obtain ⟨v, hv, heq⟩ := h.filter keep state
    exact ⟨v, hv, by rw [Table.apply, heq]; rfl⟩
  | iterate => exact ⟨u, h, by rw [Table.apply, h.drain_eq hi]; rfl⟩
  | setStrategy s =>
    obtain ⟨h⟩ := h
    rw [Table.apply, Table.apply, Table.setStrategy, Table.setStrategy]
    dsimp only
    split_ifs
    · exact ⟨_, .intro (t := { t with strategy := s }) h, rfl⟩
    · exact ⟨_, .intro h, rfl⟩

end Agree

end Table

end TagTable
