import TagTable.Proofs.Run.Shape

/-!
# Requests to the allocator

What operations ask of the allocator and give back to it.

* `Table.block?`: the block of a table's buffer; `Table.Invariant.block?_eq_some`: there is one
  whenever there is a buffer, so `Table.giveBack_eq` never skips it;
* `Orderly`: at most one request, and nothing given back before it was granted;
* **`Table.reserve_requests`**: the ways in which a reservation may go;
* **`Table.apply_orderly`**, `Table.copy_orderly`, `Origin.make_orderly`: every operation is orderly;
* `Origin.make_events`: what a table that is made asked for;
* `Table.reserve_of_granted`: a reservation whose request is granted succeeds.
-/

namespace TagTable

/-- Whether something was asked for, granted or not. -/
def HeapEvent.isRequest : HeapEvent → Bool
  | .granted _ | .refused _ => true
  | .released _ => false

/-- What an operation may do at the allocator, where the block of a table was one and becomes
another: nothing, a request that is refused, or one that is granted, after which the old block is given
back. -/
inductive Orderly (old : Option Block) : Option Block → List HeapEvent → Prop
  | quiet : Orderly old old []
  | refused (block : Block) : Orderly old old [.refused block]
  | granted (block : Block) :
    Orderly old (some block) (.granted block :: (old.map .released).toList)

theorem Orderly.countP_isRequest_le {old new : Option Block} {events : List HeapEvent}
    (h : Orderly old new events) : events.countP HeapEvent.isRequest ≤ 1 := by
  cases h with
  | quiet => exact Nat.zero_le 1
  | refused => exact Nat.le_refl 1
  | granted => cases old <;> exact Nat.le_refl 1

variable {σ : Type} (A : Allocator σ)

namespace Table

variable {t u : Table}

/-- The block of the buffer of a table, if it has one. -/
def block? (t : Table) : Option Block :=
  if t.capacity = 0 then none else (t.geometry.bufferBlock (t.capacity / groupSize)).toOption

theorem block?_congr (hx : u.geometry = t.geometry) (hs : u.groups.size = t.groups.size) :
    u.block? = t.block? := by
  rw [block?, block?, capacity, capacity, hx, hs]

theorem toOption_ok_bind (t : Table) :
    (Except.ok t : Except Error Table).toOption.bind block? = t.block? := rfl

theorem capacity_div (t : Table) : t.capacity / groupSize = t.groups.size :=
  Nat.mul_div_cancel_left _ (by decide)

theorem block?_of_size_eq_zero (h0 : t.groups.size = 0) : t.block? = none := by
  have hc : t.capacity = 0 := by rw [capacity, h0, Nat.mul_zero]
  rw [block?, if_pos hc]

theorem block?_of_ok {block : Block} (h0 : t.groups.size ≠ 0)
    (h : t.geometry.bufferBlock t.groups.size = .ok block) : t.block? = some block := by
  have hc : t.capacity ≠ 0 := Nat.mul_ne_zero (by decide) h0
  rw [block?, if_neg hc, capacity_div, h]
  rfl

/-- **The block of a buffer can be computed again from the number of its groups.** -/
theorem Invariant.block?_eq_some (hi : t.Invariant) (h0 : t.groups.size ≠ 0) :
    ∃ block, t.geometry.bufferBlock t.groups.size = .ok block ∧ t.block? = some block := by
  obtain ⟨block, hblock⟩ := hi.block h0
  exact ⟨block, hblock, block?_of_ok h0 hblock⟩

theorem Invariant.bufferBlock_eq_ok (hi : t.Invariant) :
    ∃ block, t.geometry.bufferBlock t.groups.size = .ok block := by
  by_cases h0 : t.groups.size = 0
  · exact ⟨⟨0, t.geometry.align⟩, by rw [h0]; rfl⟩
  · exact hi.block h0

theorem giveBack_eq (hi : t.Invariant) (heap : σ) :
    (t.giveBack A heap).1 = (t.block?.map .released).toList := by
  by_cases h0 : t.groups.size = 0
  · rw [giveBack, if_pos h0, block?_of_size_eq_zero h0]
    rfl
  · obtain ⟨block, hblock, hsome⟩ := hi.block?_eq_some h0
    rw [giveBack, if_neg h0, hblock, hsome]
    rfl

/-! ## Reservations -/

theorem moveTo_requests (hi : t.Invariant) {capacity : Nat} (hc : t.GrowthTarget capacity)
    (heap : σ) :
    (t.moveTo A capacity heap).result = .error .outOfMemory ∧ (t.moveTo A capacity heap).after = t ∧
        ((t.moveTo A capacity heap).trace.heap = [] ∨
          ∃ block, (t.moveTo A capacity heap).trace.heap = [.refused block]) ∨
      (t.moveTo A capacity heap).result = .ok () ∧
        ∃ block, (t.moveTo A capacity heap).after.block? = some block ∧
          (t.moveTo A capacity heap).trace.heap =
            .granted block :: (t.block?.map .released).toList := by
  obtain ⟨n, hn, -, hdiv⟩ := hc.exists_groups hi.size_cases
  rw [moveTo, hdiv]
  cases hblock : t.geometry.bufferBlock n with
  | error error =>
    rw [Geometry.bufferBlock_eq_error hblock]
    exact .inl ⟨rfl, rfl, .inl rfl⟩
  | ok block =>
    dsimp only
    cases A.request block heap with
    | mk granted heap' =>
      cases granted with
      | false => exact .inl ⟨rfl, rfl, .inr ⟨block, rfl⟩⟩
      | true =>
        have hs := t.size_rehash n
        have hn0 : n ≠ 0 := (Nat.pos_of_isPowerOfTwo hn).ne'
        refine .inr ⟨rfl, block, block?_of_ok (hs.symm ▸ hn0) (hs.symm ▸ hblock), ?_⟩
        exact congrArg (HeapEvent.granted block :: ·) (giveBack_eq A hi heap')

/-- **A reservation fails, finds room already, or takes a new block and then gives the old one back.**
-/
theorem reserve_requests (hi : t.Invariant) (n : Nat) (heap : σ) :
    (t.reserve A n heap).result = .error .outOfMemory ∧ (t.reserve A n heap).after = t ∧
        ((t.reserve A n heap).trace.heap = [] ∨
          ∃ block, (t.reserve A n heap).trace.heap = [.refused block]) ∨
      t.reserve A n heap = ⟨.ok (), t, heap, .empty⟩ ∨
      (t.reserve A n heap).result = .ok () ∧
        ∃ block, (t.reserve A n heap).after.block? = some block ∧
          (t.reserve A n heap).trace.heap =
            .granted block :: (t.block?.map .released).toList := by
  rcases t.reserve_cases A n heap hi.capacity_le hi.load with h | ⟨h, -⟩ | ⟨capacity, hc, -, h⟩
  · rw [h]
    exact .inl ⟨rfl, rfl, .inl rfl⟩
  · exact .inr (.inl h)
  · rw [h]
    rcases moveTo_requests A hi hc heap with hfail | hmoved
    · exact .inl hfail
    · exact .inr (.inr hmoved)

theorem reserve_orderly (hi : t.Invariant) (n : Nat) (heap : σ) :
    Orderly t.block? (t.reserve A n heap).after.block? (t.reserve A n heap).trace.heap := by
  rcases reserve_requests A hi n heap with
    ⟨-, hafter, hnone | ⟨block, hrefused⟩⟩ | h | ⟨-, block, hnew, hevents⟩
  · rw [hafter, hnone]
    exact .quiet
  · rw [hafter, hrefused]
    exact .refused block
  · rw [h]
    exact .quiet
  · rw [hnew, hevents]
    exact .granted block

theorem moveTo_of_granted {τ : Type} {A' : Allocator τ} {capacity : Nat} {block : Block} {heap : σ}
    {heap' : τ} (h : (t.moveTo A capacity heap).trace.heap = [.refused block])
    (hg : (A'.request block heap').1 = true) : (t.moveTo A' capacity heap').result = .ok () := by
  rw [moveTo] at h ⊢
  cases hblock : t.geometry.bufferBlock (capacity / groupSize) with
  | error error => simp [hblock] at h
  | ok asked =>
    rw [hblock] at h
    dsimp only at h ⊢
    cases hreq : A.request asked heap with
    | mk granted rest =>
      rw [hreq] at h
      cases granted with
      | true => exact absurd (List.cons.inj h).1 (by simp)
      | false =>
        obtain rfl := HeapEvent.refused.inj (List.cons.inj h).1
        cases hreq' : A'.request asked heap' with
        | mk granted' rest' =>
          rw [hreq'] at hg
          obtain rfl : granted' = true := hg
          rfl

/-- **The block that a reservation asks for does not depend on the allocator.** -/
theorem reserve_of_granted {τ : Type} {A' : Allocator τ} {n : Nat} {block : Block} {heap : σ}
    {heap' : τ} (h : (t.reserve A n heap).trace.heap = [.refused block])
    (hg : (A'.request block heap').1 = true) : (t.reserve A' n heap').result = .ok () := by
  rw [reserve] at h ⊢
  cases hneed : checked (t.count + n) with
  | none => simp [hneed, Outcome.fail, Trace.empty] at h
  | some needed =>
    rw [hneed] at h
    dsimp only at h ⊢
    split_ifs at h ⊢
    · rfl
    · exact moveTo_of_granted A h hg
    · cases hgrown : grownCapacity needed t.capacity with
      | none => simp [hgrown, Outcome.fail, Trace.empty] at h
      | some capacity =>
        rw [hgrown] at h
        exact moveTo_of_granted A h hg

/-! ## Operations -/

/-- **Every operation is orderly.** -/
theorem apply_orderly (hi : t.Invariant) (c : Command) (heap : σ) :
    Orderly t.block? (t.apply A c heap).after.block? (t.apply A c heap).trace.heap := by
  obtain ⟨⟨-, hevents, -⟩, hshape⟩ := shape_apply hi A c heap
  obtain ⟨hx, hs, -, -⟩ := Shape.mk.inj hshape
  rw [hevents, block?_congr hx hs, prepare]
  cases t.demand c with
  | none => exact .quiet
  | some n => exact reserve_orderly A hi n heap

theorem copy_orderly (hi : t.Invariant) (heap : σ) :
    Orderly none ((t.copy A heap).answer.toOption.bind block?) (t.copy A heap).trace.heap := by
  by_cases h0 : t.groups.size = 0
  · rw [copy, if_pos h0, toOption_ok_bind, block?_of_size_eq_zero h0]
    exact .quiet
  · obtain ⟨block, hblock, hsome⟩ := hi.block?_eq_some h0
    rw [copy, if_neg h0, hblock]
    dsimp only
    cases A.request block heap with
    | mk granted heap' =>
      cases granted with
      | false => exact .refused block
      | true =>
        rw [toOption_ok_bind, hsome]
        exact .granted block

end Table

theorem Origin.make_orderly (e : EntryLayout) (s : Strategy) (o : Origin) (heap : σ) :
    Orderly none ((o.make A e s heap).answer.toOption.bind Table.block?)
      (o.make A e s heap).trace.heap := by
  cases hx : Geometry.ofEntry e with
  | error error =>
    rw [make_of_error hx]
    exact .quiet
  | ok x =>
    have hvacant : (Table.vacant e x s).block? = none := Table.block?_of_size_eq_zero rfl
    rw [make_of_ok hx]
    cases o with
    | empty =>
      rw [Table.toOption_ok_bind, hvacant]
      exact .quiet
    | withRoom n =>
      have h := Table.reserve_orderly A (Table.invariant_vacant hx s) n heap
      rw [hvacant] at h
      dsimp only
      rcases Table.reserve_spec A (Table.invariant_vacant hx s) n heap with
        ⟨hfail, hafter⟩ | ⟨hok, -⟩
      · rw [hfail]
        rwa [hafter, hvacant] at h
      · rw [hok]
        exact h

theorem Origin.make_events {e : EntryLayout} {s : Strategy} {o : Origin} {heap : σ} {t : Table}
    (h : (o.make A e s heap).answer = .ok t) :
    (o.make A e s heap).trace.heap = (t.block?.map .granted).toList := by
  obtain ⟨x, hx, -⟩ := make_eq_ok h
  have hvacant : (Table.vacant e x s).block? = none := Table.block?_of_size_eq_zero rfl
  rw [make_of_ok hx] at h ⊢
  cases o with
  | empty =>
    obtain rfl := Except.ok.inj h
    rw [hvacant]
    rfl
  | withRoom n =>
    dsimp only at h ⊢
    rcases Table.reserve_requests A (Table.invariant_vacant hx s) n heap with
      ⟨hfail, -⟩ | hroom | ⟨hok, block, hblock, hevents⟩
    · simp [hfail, Except.map] at h
    · rw [hroom] at h ⊢
      obtain rfl := Except.ok.inj h
      rw [hvacant]
      rfl
    · rw [hok] at h
      obtain rfl := Except.ok.inj h
      rw [hevents, hvacant, hblock]
      rfl

end TagTable
