import TagTable.Proofs.Run.Amortised

/-!
# Capacities under churn

However often entries come and go, the capacity is bounded by the largest number of entries that were
there at one time.

* **`Table.capacity_apply`**: an operation keeps the capacity, or doubles it for want of room;
* `Table.Warranted`, `Table.Warranted.apply`: a capacity that so many entries account for;
* **`churn_bounded`**: a run as a whole.
-/

namespace TagTable

namespace Table

variable {σ : Type} (A : Allocator σ) {t : Table} {c : Command} {bound : Nat}

/-- **An operation keeps the capacity, or doubles it** when the entries fill half of what it allows. -/
theorem capacity_apply (hi : t.Invariant) (hc : ∀ n, c ≠ .reserve n) (heap : σ) :
    (t.apply A c heap).after.capacity = t.capacity ∨
      (t.apply A c heap).after.capacity = max (t.capacity * 2) groupSize ∧
        loadLimit t.capacity / 2 < t.count + 1 := by
  rw [capacity_apply_eq hi]
  rcases t.prepare_relocated A hi c heap with
    ⟨-, hafter, -⟩ | ⟨n, capacity, hd, hgrowth, hshort, -, hafter, -⟩
  · exact .inl (congrArg capacity hafter)
  · obtain rfl := demand_eq_one hc hd
    rw [hafter, GrowthTarget.capacity_rehash hi (hgrowth.target hi.load hshort).1]
    rcases hgrowth.one hi.load with ⟨hsame, -⟩ | hdoubled
    · exact .inl hsame
    · exact .inr hdoubled

/-- The capacity is no more than one group, or half of it allows no more than about twice as many
entries as there ever were. -/
def Warranted (bound : Nat) (t : Table) : Prop :=
  t.capacity ≤ groupSize ∨ loadLimit (t.capacity / 2) ≤ 2 * bound + 1

theorem Warranted.apply (hw : t.Warranted bound) (hi : t.Invariant) (hc : ∀ n, c ≠ .reserve n)
    (hcount : t.count ≤ bound) (heap : σ) : (t.apply A c heap).after.Warranted bound := by
  rcases capacity_apply A hi hc heap with hsame | ⟨hdoubled, hfull⟩
  · rwa [Warranted, hsame]
  · rw [Warranted, hdoubled]
    rcases Nat.le_total (t.capacity * 2) groupSize with hle | hle
    · exact .inl (Nat.max_le.2 ⟨hle, Nat.le_refl _⟩)
    · right
      rw [Nat.max_eq_left hle, Nat.mul_div_cancel _ (by decide)]
      omega

theorem Warranted.trail (hw : t.Warranted bound) (hi : t.Invariant) (hcount : t.count ≤ bound)
    {cs : List Command} (hcs : ∀ n, .reserve n ∉ cs) {heap : σ}
    (hbound : ∀ x ∈ t.trail A cs heap, x.2.after.count ≤ bound) :
    ∀ x ∈ t.trail A cs heap, x.2.after.Warranted bound ∧
      (x.2.after.capacity = x.1.capacity ∨
        x.2.after.capacity = max (x.1.capacity * 2) groupSize) := by
  induction cs generalizing t heap with
  | nil => exact fun x hx => absurd hx List.not_mem_nil
  | cons c cs ih =>
    have hc : ∀ n, c ≠ .reserve n := fun n h => hcs n (h ▸ List.mem_cons_self ..)
    have hfirst := hw.apply A hi hc hcount heap
    have hrest := ih hfirst (hi.apply A c heap) (hbound _ (List.mem_cons_self ..))
      (fun n h => hcs n (List.mem_cons_of_mem c h)) fun x hx => hbound x (List.mem_cons_of_mem _ hx)
    intro x hx
    rcases List.mem_cons.1 hx with rfl | hx
    · exact ⟨hfirst, (capacity_apply A hi hc heap).imp id And.left⟩
    · exact hrest x hx

end Table

/-- **Churn cannot blow up memory.** In a run that reserves room by additions only, the capacity is
bounded by the largest number of entries, and every operation keeps it or doubles it. -/
theorem churn_bounded {σ : Type} (A : Allocator σ) {e : EntryLayout} {s : Strategy} {heap : σ}
    {t : Table} (ht : Table.create e s = .ok t) {cs : List Command} (hcs : ∀ n, .reserve n ∉ cs)
    {bound : Nat} (hbound : ∀ x ∈ t.trail A cs heap, x.2.after.count ≤ bound) :
    ∀ x ∈ t.trail A cs heap,
      (x.2.after.capacity ≤ 16 ∨ loadLimit (x.2.after.capacity / 2) ≤ 2 * bound + 1) ∧
        (x.2.after.capacity = x.1.capacity ∨ x.2.after.capacity = max (x.1.capacity * 2) 16) := by
  rw [Table.create_eq] at ht
  cases hx : Geometry.ofEntry e with
  | error error => simp [hx, Except.map] at ht
  | ok geometry =>
    rw [hx] at ht
    obtain rfl := Except.ok.inj ht
    exact Table.Warranted.trail A (.inl (Nat.zero_le _)) (Table.invariant_vacant hx s)
      (Nat.zero_le bound) hcs hbound

/-- Entries that come and go, two at a time. -/
def comingAndGoing : List Command :=
  (List.range 40).flatMap fun i =>
    [.insert [UInt8.ofNat i] [7], .set [UInt8.ofNat (i + 1)] [7], .remove [UInt8.ofNat i]]

theorem churn_bounded_coming :
    ((bytewise (.ofHash "" fun _ => 0)).run Allocator.unlimited comingAndGoing ()).1.capacity = 16 ∧
      ∀ x ∈ (bytewise (.ofHash "" fun _ => 0)).trail Allocator.unlimited comingAndGoing (),
        x.2.after.capacity ≤ 16 ∨ loadLimit (x.2.after.capacity / 2) ≤ 2 * 2 + 1 := by
  have hcs : ∀ n, .reserve n ∉ comingAndGoing := by simp [comingAndGoing]
  have hbound : ∀ x ∈ (bytewise (.ofHash "" fun _ => 0)).trail Allocator.unlimited comingAndGoing (),
      x.2.after.count ≤ 2 := by decide +kernel
  exact ⟨by decide +kernel, fun x hx =>
    (churn_bounded Allocator.unlimited (create_bytewise _) hcs hbound x hx).1⟩

end TagTable
