import TagTable.Proofs.Run.Promise

/-!
# What rehashing costs

The entries that a run moves to fresh buffers, against those that it adds.

* `Table.Regrowth.one`: a reservation of one entry at most doubles the capacity, and leaves a table
  that is at most half full;
* `Table.relocated`, `Table.prepare_relocated`: the entries that an operation moves;
* `Tally`, `Table.effort`, `Table.tally`: what a run has done;
* `Table.potential`, **`Table.relocated_add_potential_le`**: every move is paid for by what was added
  since the last one;
* **`rehashing_amortised`**: a run as a whole.
-/

namespace TagTable

namespace Table

variable {t : Table}

/-! ## Reservations of one entry -/

theorem Regrowth.one (hload : t.count + t.tombstones ≤ loadLimit t.capacity) {capacity : Nat}
    (h : t.Regrowth 1 capacity) :
    capacity = t.capacity ∧ t.count + 1 ≤ loadLimit t.capacity / 2 ∨
      capacity = max (t.capacity * 2) groupSize ∧ loadLimit t.capacity / 2 < t.count + 1 := by
  cases h with
  | same h => exact .inl ⟨rfl, h⟩
  | @doubled j h _ hbefore =>
    refine .inr ⟨?_, h⟩
    cases j with
    | zero => rw [Nat.pow_zero, Nat.mul_one]
    | succ j =>
      -- The first doubling has room already.
      have hfirst := hbefore 0 (Nat.succ_pos j)
      rw [Nat.pow_zero, Nat.mul_one] at hfirst
      unfold loadLimit groupSize at *
      omega

theorem Regrowth.two_mul_count_le (hload : t.count + t.tombstones ≤ loadLimit t.capacity)
    {capacity : Nat} (h : t.Regrowth 1 capacity) : 2 * t.count ≤ loadLimit capacity := by
  rcases h.one hload with ⟨rfl, hhalf⟩ | ⟨rfl, -⟩
  · omega
  · unfold loadLimit groupSize at *
    omega

end Table

/-- Whether a block was handed out. -/
def HeapEvent.isGrant : HeapEvent → Bool
  | .granted _ => true
  | .refused _ | .released _ => false

/-- Whether a hash was taken. -/
def Call.isHash : Call → Bool
  | .hash _ => true
  | .equal _ _ _ => false

/-- Whether an operation looks for a key. -/
def Command.keyed : Command → Bool
  | .insert _ _ | .set _ _ | .get _ | .modify _ _ | .contains _ | .remove _ => true
  | _ => false

namespace Table

variable {σ : Type} (A : Allocator σ) {t : Table} {c : Command} {heap : σ}

/-- The entries that an operation puts into a fresh buffer, if its reservation was granted one. -/
def relocated (t : Table) (c : Command) (heap : σ) : List Entry :=
  bif (t.prepare A c heap).trace.heap.any HeapEvent.isGrant then t.entries else []

theorem moveTo_grant (t : Table) (capacity : Nat) (heap : σ) :
    (t.moveTo A capacity heap).trace.heap.any HeapEvent.isGrant = false ∧
        (t.moveTo A capacity heap).after = t ∧ (t.moveTo A capacity heap).trace.calls = [] ∨
      (t.moveTo A capacity heap).trace.heap.any HeapEvent.isGrant = true ∧
        (t.moveTo A capacity heap).after = (t.rehash (capacity / groupSize)).answer ∧
        (t.moveTo A capacity heap).trace.calls = t.entries.map fun e => .hash e.key := by
  rw [moveTo]
  cases t.geometry.bufferBlock (capacity / groupSize) with
  | error error => exact .inl ⟨rfl, rfl, rfl⟩
  | ok block =>
    dsimp only
    cases A.request block heap with
    | mk granted heap' =>
      cases granted with
      | false => exact .inl ⟨rfl, rfl, rfl⟩
      | true => exact .inr ⟨rfl, rfl, rfl⟩

/-- **A reservation moves nothing, or all entries**, and takes the hash of each of them once. -/
theorem prepare_relocated (hi : t.Invariant) (c : Command) (heap : σ) :
    t.relocated A c heap = [] ∧ (t.prepare A c heap).after = t ∧
        (t.prepare A c heap).trace.calls = [] ∨
      ∃ n capacity, t.demand c = some n ∧ t.Regrowth n capacity ∧
        loadLimit t.capacity < t.count + n + t.tombstones ∧ t.relocated A c heap = t.entries ∧
        (t.prepare A c heap).after = (t.rehash (capacity / groupSize)).answer ∧
        (t.prepare A c heap).trace.calls = (t.relocated A c heap).map fun e => .hash e.key := by
  rw [relocated, prepare]
  cases t.demand c with
  | none => exact .inl ⟨rfl, rfl, rfl⟩
  | some n =>
    dsimp only
    rcases t.reserve_regrowth A n heap hi.capacity_le with h | ⟨h, -⟩ | ⟨capacity, hgrowth, hshort, h⟩
    · rw [h]
      exact .inl ⟨rfl, rfl, rfl⟩
    · rw [h]
      exact .inl ⟨rfl, rfl, rfl⟩
    · rw [h]
      rcases t.moveTo_grant A capacity heap with ⟨hgrant, hafter, hcalls⟩ | ⟨hgrant, hafter, hcalls⟩
      · rw [hgrant]
        exact .inl ⟨rfl, hafter, hcalls⟩
      · rw [hgrant]
        exact .inr ⟨n, capacity, rfl, hgrowth, hshort, rfl, hafter, hcalls⟩

theorem GrowthTarget.capacity_rehash (hi : t.Invariant) {capacity : Nat}
    (h : t.GrowthTarget capacity) : (t.rehash (capacity / groupSize)).answer.capacity = capacity := by
  obtain ⟨n, -, hcap, hdiv⟩ := h.exists_groups hi.size_cases
  rw [Table.capacity, size_rehash, hdiv, hcap]

theorem demand_eq_one (hc : ∀ n, c ≠ .reserve n) {n : Nat} (h : t.demand c = some n) : n = 1 := by
  cases c with
  | insert | set =>
    simp only [demand, Option.ite_none_right_eq_some, Option.some.injEq] at h
    exact h.2.symm
  | reserve additional => exact absurd rfl (hc additional)
  | _ => simp [demand] at h

end Table

/-! ## Tallies -/

/-- What a number of operations did. -/
structure Tally where
  /-- The additions that left one entry more. -/
  added : Nat
  /-- The entries that were put into a fresh buffer, each as often as it was. -/
  relocated : Nat
  /-- The hashes that were taken. -/
  hashes : Nat
deriving DecidableEq

instance : Add Tally :=
  ⟨fun x y => ⟨x.added + y.added, x.relocated + y.relocated, x.hashes + y.hashes⟩⟩

namespace Table

variable {σ : Type} (A : Allocator σ) {t : Table} {c : Command} {heap : σ}

/-- What one operation does. -/
def effort (t : Table) (c : Command) (heap : σ) : Tally :=
  { added := (c.adds && t.count < (t.apply A c heap).after.count).toNat
    relocated := (t.relocated A c heap).length
    hashes := (t.apply A c heap).trace.calls.countP Call.isHash }

/-- What operations one after the other do. -/
def tally : List Command → Table → σ → Tally
  | [], _, _ => ⟨0, 0, 0⟩
  | c :: rest, t, heap =>
    t.effort A c heap + tally rest (t.apply A c heap).after (t.apply A c heap).heap

/-! ## Entries -/

/-- Twice the slots in use, as far as they pass the limit: what has been put aside for the next
move. -/
def potential (t : Table) : Nat := 2 * (t.count + t.tombstones) - loadLimit t.capacity

/-- **Moving entries uses up what was put aside, and an addition puts two aside.** -/
theorem relocated_add_potential_le (hi : t.Invariant) (hc : ∀ n, c ≠ .reserve n) (heap : σ) :
    (t.effort A c heap).relocated + (t.apply A c heap).after.potential ≤
      t.potential + 2 * (t.effort A c heap).added := by
  have hload := hi.load
  have hused := used_apply_le_prepare A hi c heap
  have hadded : (t.apply A c heap).after.count - t.count ≤ (t.effort A c heap).added := by
    have hcount := count_apply_le A hi c heap
    rw [effort]
    cases hadds : c.adds with
    | false => simp only [hadds, Bool.toNat_false] at hcount ⊢; omega
    | true =>
      simp only [hadds, Bool.toNat_true, Bool.true_and] at hcount ⊢
      by_cases hlt : t.count < (t.apply A c heap).after.count
      · rw [decide_eq_true hlt, Bool.toNat_true]
        omega
      · omega
  have hcap := capacity_apply_eq hi A c heap
  have hrelocated : (t.effort A c heap).relocated = (t.relocated A c heap).length := rfl
  rw [potential, potential, hcap, hrelocated]
  rcases t.prepare_relocated A hi c heap with
    ⟨hnone, hafter, -⟩ | ⟨n, capacity, hd, hgrowth, hshort, hall, hafter, -⟩
  · rw [hafter] at hused ⊢
    rw [hnone, List.length_nil]
    omega
  · obtain rfl := demand_eq_one hc hd
    have hhalf := hgrowth.two_mul_count_le hload
    have hcapacity := GrowthTarget.capacity_rehash hi (hgrowth.target hload hshort).1
    rw [hafter] at hused ⊢
    rw [hall, ← hi.count_eq_length, hcapacity]
    have htombs : (t.rehash (capacity / groupSize)).answer.tombstones = 0 := rfl
    omega

theorem relocated_tally_le (hi : t.Invariant) {cs : List Command} (hcs : ∀ n, .reserve n ∉ cs)
    (heap : σ) : (t.tally A cs heap).relocated ≤ t.potential + 2 * (t.tally A cs heap).added := by
  induction cs generalizing t heap with
  | nil => exact Nat.zero_le _
  | cons c cs ih =>
    have hc : ∀ n, c ≠ .reserve n := fun n h => hcs n (h ▸ List.mem_cons_self ..)
    have hstep := relocated_add_potential_le A hi hc heap
    have hrest := ih (hi.apply A c heap) (fun n h => hcs n (List.mem_cons_of_mem c h))
      (t.apply A c heap).heap
    show (t.effort A c heap).relocated + _ ≤ t.potential + 2 * ((t.effort A c heap).added + _)
    omega

/-! ## Hashes -/

theorem hashes_calls (p : Probe) (t : Table) : (p.calls t).countP Call.isHash = 1 := by
  rw [Probe.calls, List.countP_cons, List.countP_map]
  simp [Call.isHash, Function.comp_def]

theorem hashes_find_le (t : Table) (key : Bytes) : (t.find key).calls.countP Call.isHash ≤ 1 := by
  rw [find]
  split_ifs
  · exact Nat.le_of_eq (hashes_calls _ t)
  · exact Nat.zero_le 1

theorem hashes_take_le (t : Table) (key : Bytes) : (t.take key).calls.countP Call.isHash ≤ 1 := by
  rw [take]
  split_ifs
  · exact Nat.le_of_eq (hashes_calls _ t)
  · exact Nat.zero_le 1

theorem hashes_store_le (t : Table) (present : Table → Position → Except Error Unit × Table)
    {key value : Bytes} (hd : t.demand c = if t.fits key value then some 1 else none) (heap : σ) :
    (t.store A present key value heap).trace.calls.countP Call.isHash ≤
      1 + (t.prepare A c heap).trace.calls.countP Call.isHash := by
  rw [store, prepare, hd]
  split_ifs
  · dsimp only
    generalize t.reserve A 1 heap = room
    obtain ⟨result, u, heap', trace⟩ := room
    have hcalls : (trace.addCalls ((u.probe key).calls u)).calls.countP Call.isHash =
        trace.calls.countP Call.isHash + 1 := by
      rw [Trace.addCalls, List.countP_append, hashes_calls]
    cases result with
    | error error => exact Nat.le_add_left ..
    | ok _ =>
      dsimp only
      cases (u.probe key).walk.ending <;> exact Nat.le_of_eq (hcalls.trans (Nat.add_comm ..))
  · exact Nat.zero_le _

/-- **An operation takes the hash of its key, and those of the entries that it moves.** -/
theorem hashes_effort_le (hi : t.Invariant) (c : Command) (heap : σ) :
    (t.effort A c heap).hashes ≤ c.keyed.toNat + (t.effort A c heap).relocated := by
  have hprepare : (t.prepare A c heap).trace.calls.countP Call.isHash =
      (t.relocated A c heap).length := by
    rcases t.prepare_relocated A hi c heap with ⟨hnone, -, hcalls⟩ | ⟨-, -, -, -, -, -, -, hcalls⟩
    · rw [hcalls, hnone]
      rfl
    · rw [hcalls, List.countP_map]
      exact List.countP_eq_length.2 fun e _ => rfl
  show (t.apply A c heap).trace.calls.countP Call.isHash ≤ _ + (t.relocated A c heap).length
  rw [← hprepare]
  cases c with
  | insert key value => exact t.hashes_store_le A _ rfl heap
  | set key value => exact t.hashes_store_le A _ rfl heap
  | get key => exact (t.hashes_find_le key).trans (Nat.le_add_right ..)
  | modify key edit => exact (t.hashes_find_le key).trans (Nat.le_add_right ..)
  | contains key => exact (t.hashes_find_le key).trans (Nat.le_add_right ..)
  | remove key => exact (t.hashes_take_le key).trans (Nat.le_add_right ..)
  | reserve => exact Nat.le_add_left ..
  | clear | each | filter | iterate => exact Nat.zero_le _
  | setStrategy s =>
    rw [apply]
    cases t.setStrategy s <;> exact Nat.zero_le _

theorem hashes_tally_le (hi : t.Invariant) (cs : List Command) (heap : σ) :
    (t.tally A cs heap).hashes ≤ cs.countP Command.keyed + (t.tally A cs heap).relocated := by
  induction cs generalizing t heap with
  | nil => exact Nat.zero_le _
  | cons c cs ih =>
    have hstep := hashes_effort_le A hi c heap
    have hrest := ih (hi.apply A c heap) (t.apply A c heap).heap
    have hcount : (c :: cs).countP Command.keyed = c.keyed.toNat + cs.countP Command.keyed := by
      rw [List.countP_cons]
      cases c.keyed <;> simp [Nat.add_comm]
    rw [hcount]
    show (t.effort A c heap).hashes + _ ≤ _ + ((t.effort A c heap).relocated + _)
    omega

end Table

theorem Origin.potential_make {σ : Type} {A : Allocator σ} {e : EntryLayout} {s : Strategy}
    {o : Origin} {heap heap' : σ} {trace : Trace} {t : Table}
    (h : o.make A e s heap = ⟨.ok t, heap', trace⟩) : t.potential = 0 ∧ trace.calls = [] := by
  have hanswer := congrArg Construction.answer h
  have htrace := congrArg Construction.trace h
  obtain ⟨x, hx, -⟩ := make_eq_ok hanswer
  rw [make_of_ok hx] at hanswer htrace
  cases o with
  | empty =>
    obtain rfl := Except.ok.inj hanswer
    exact ⟨Nat.zero_sub _, congrArg Trace.calls htrace.symm⟩
  | withRoom n =>
    have hi := Table.invariant_vacant hx s
    have hused : ((Table.vacant e x s).reserve A n heap).after.count = 0 ∧
        ((Table.vacant e x s).reserve A n heap).after.tombstones = 0 ∧
        ((Table.vacant e x s).reserve A n heap).trace.calls = [] := by
      have hcount := Table.count_prepare A hi (.reserve n) heap
      rcases (Table.vacant e x s).prepare_relocated A hi (.reserve n) heap with
        ⟨-, hafter, hcalls⟩ | ⟨-, capacity, -, -, -, hall, hafter, hcalls⟩
      · exact ⟨hcount, congrArg Table.tombstones hafter, hcalls⟩
      · rw [hall] at hcalls
        exact ⟨hcount, congrArg Table.tombstones hafter, hcalls⟩
    dsimp only at hanswer htrace
    rw [htrace] at hused
    cases hr : ((Table.vacant e x s).reserve A n heap).result with
    | error error => simp [hr, Except.map] at hanswer
    | ok _ =>
      rw [hr] at hanswer
      obtain rfl := Except.ok.inj hanswer
      obtain ⟨hcount, htombs, hcalls⟩ := hused
      exact ⟨by rw [Table.potential, hcount, htombs]; exact Nat.zero_sub _, hcalls⟩

/-- **Rehashing is amortised against insertions.** In a run that reserves room by additions only, at
most two entries are moved for each one that is added, and no more hashes are taken than these two and
one for each operation that looks for a key. -/
theorem rehashing_amortised {σ : Type} (A : Allocator σ) {e : EntryLayout} {s : Strategy} {o : Origin}
    {heap heap' : σ} {trace : Trace} {t : Table} (hmake : o.make A e s heap = ⟨.ok t, heap', trace⟩)
    {cs : List Command} (hcs : ∀ n, .reserve n ∉ cs) :
    (t.tally A cs heap').relocated ≤ 2 * (t.tally A cs heap').added ∧
      trace.calls.countP Call.isHash + (t.tally A cs heap').hashes ≤
        cs.countP Command.keyed + 2 * (t.tally A cs heap').added := by
  have hi := Origin.invariant_make (congrArg Construction.answer hmake)
  obtain ⟨hpotential, hcalls⟩ := Origin.potential_make hmake
  have hmoved := Table.relocated_tally_le A hi hcs heap'
  have hhashes := Table.hashes_tally_le A hi cs heap'
  rw [hpotential, Nat.zero_add] at hmoved
  rw [hcalls]
  exact ⟨hmoved, by rw [List.countP_nil]; omega⟩

/-- Eleven entries of which seven are removed, and another one, which has the others moved to a buffer of
the same size; then seven more, the last of which has eleven moved to a larger one. -/
def twiceMoved : List Command :=
  ((List.range 11).map fun i => .insert [UInt8.ofNat i] [7]) ++
    ((List.range 7).map fun i => .remove [UInt8.ofNat i]) ++
      ((List.range 8).map fun i => .set [UInt8.ofNat (i + 20)] [7])

theorem rehashing_amortised_twice :
    (bytewise (.ofHash "" fun _ => 0)).tally Allocator.unlimited twiceMoved () = ⟨19, 15, 41⟩ ∧
      15 ≤ 2 * 19 ∧ 41 ≤ twiceMoved.countP Command.keyed + 2 * 19 := by
  have htally : (bytewise (.ofHash "" fun _ => 0)).tally Allocator.unlimited twiceMoved () =
      ⟨19, 15, 41⟩ := by decide +kernel
  have hcs : ∀ n, .reserve n ∉ twiceMoved := by simp [twiceMoved]
  have h := rehashing_amortised Allocator.unlimited (e := ⟨1, 1, 1, 1⟩) (o := .empty)
    (show Origin.make Allocator.unlimited ⟨1, 1, 1, 1⟩ (.ofHash "" fun _ => 0) .empty () =
      ⟨.ok (bytewise _), (), .empty⟩ from rfl) hcs
  rw [htally] at h
  exact ⟨htally, h.1, by simpa [Trace.empty] using h.2⟩

end TagTable
