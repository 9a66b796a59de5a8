import TagTable.Proofs.Run.Command
import TagTable.Proofs.Table.Update

/-!
# Reachable tables

* `Origin.invariant_make`, `Table.Invariant.apply`, `Reachable.invariant`: the invariant holds of first
  tables, and every operation keeps it; `Table.resettled_prepare`: its reservation keeps the entries;
* **`reachable_invariant`**: the two together.
-/

namespace TagTable

variable {σ : Type} {t : Table}

/-- **Every operation keeps the invariant**, whether it succeeds or fails. -/
theorem Table.Invariant.apply (hi : t.Invariant) (A : Allocator σ) (c : Command) (heap : σ) :
    (t.apply A c heap).after.Invariant := by
  cases c with
  | insert key value => exact hi.insert A key value heap
  | set key value => exact hi.set A key value heap
  | get key => exact hi
  | modify key edit => exact hi.modify key edit
  | contains key => exact hi
  | remove key => exact hi.remove key
  | reserve additional => exact hi.reserve A additional heap
  | clear => exact hi.clear
  | each visitor state => exact hi.each visitor state
  | filter keep state => exact hi.filter keep state
  | iterate => exact hi
  | setStrategy s =>
    cases h : t.setStrategy s with
    | ok t' => simpa only [Table.apply, h] using hi.setStrategy h
    | error error => simpa only [Table.apply, h] using hi

theorem Table.resettled_prepare (A : Allocator σ) (hi : t.Invariant) (c : Command) (heap : σ) :
    t.Resettled (t.prepare A c heap).after := by
  rw [prepare]
  cases t.demand c with
  | none => exact .refl hi
  | some n =>
    rcases reserve_spec A hi n heap with ⟨-, hafter⟩ | ⟨-, hre, -⟩
    · exact hafter.symm ▸ .refl hi
    · exact hre

theorem Origin.make_of_error {A : Allocator σ} {e : EntryLayout} {error : Error}
    (hx : Geometry.ofEntry e = .error error) (s : Strategy) (o : Origin) (heap : σ) :
    o.make A e s heap = ⟨.error error, heap, .empty⟩ := by
  have hc : Table.create e s = .error error := by rw [Table.create_eq, hx]; rfl
  cases o with
  | empty => rw [make, hc]
  | withRoom capacity => rw [make, Table.withRoom, hc]

theorem Origin.make_of_ok {A : Allocator σ} {e : EntryLayout} {x : Geometry}
    (hx : Geometry.ofEntry e = .ok x) (s : Strategy) (o : Origin) (heap : σ) :
    o.make A e s heap = match o with
      | .empty => ⟨.ok (.vacant e x s), heap, .empty⟩
      | .withRoom n =>
        ⟨((Table.vacant e x s).reserve A n heap).result.map fun _ =>
            ((Table.vacant e x s).reserve A n heap).after,
          ((Table.vacant e x s).reserve A n heap).heap,
          ((Table.vacant e x s).reserve A n heap).trace⟩ := by
  have hc : Table.create e s = .ok (.vacant e x s) := by rw [Table.create_eq, hx]; rfl
  cases o with
  | empty => rw [make, hc]
  | withRoom capacity => rw [make, Table.withRoom, hc]

theorem Origin.make_eq_ok {A : Allocator σ} {e : EntryLayout} {s : Strategy} {o : Origin} {heap : σ}
    (h : (o.make A e s heap).answer = .ok t) : ∃ x, Geometry.ofEntry e = .ok x ∧
      (t = .vacant e x s ∨ ∃ n, t = ((Table.vacant e x s).reserve A n heap).after) := by
  cases hx : Geometry.ofEntry e with
  | error error => simp [make_of_error hx] at h
  | ok x =>
    refine ⟨x, rfl, ?_⟩
    rw [make_of_ok hx] at h
    cases o with
    | empty => exact .inl (Except.ok.inj h).symm
    | withRoom n =>
      dsimp only at h
      cases hr : ((Table.vacant e x s).reserve A n heap).result with
      | error error => simp [hr, Except.map] at h
      | ok _ =>
        rw [hr] at h
        exact .inr ⟨n, (Except.ok.inj h).symm⟩

theorem Origin.invariant_make {A : Allocator σ} {e : EntryLayout} {s : Strategy} {o : Origin}
    {heap : σ} (h : (o.make A e s heap).answer = .ok t) : t.Invariant := by
  obtain ⟨x, hx, rfl | ⟨n, rfl⟩⟩ := make_eq_ok h
  · exact Table.invariant_vacant hx s
  · exact (Table.invariant_vacant hx s).reserve A n heap

theorem Reachable.invariant (h : Reachable t) : t.Invariant := by
  induction h with
  | make h => exact Origin.invariant_make h
  | apply _ A c heap ih => exact ih.apply A c heap
  | copy _ h ih => exact ih.copy _ h

/-- **Every reachable table satisfies the invariant, and every operation and every copy keeps it**,
for all strategies and allocators. -/
theorem reachable_invariant :
    (∀ t : Table, Reachable t → t.Invariant) ∧
      (∀ (σ : Type) (A : Allocator σ) (t : Table) (c : Command) (heap : σ), t.Invariant →
        (t.apply A c heap).after.Invariant) ∧
      ∀ (σ : Type) (A : Allocator σ) (t u : Table) (heap : σ), t.Invariant →
        (t.copy A heap).answer = .ok u → u.Invariant :=
  ⟨fun _ h => h.invariant, fun _ A _ c heap hi => hi.apply A c heap,
    fun _ A _ _ _ hi h => hi.copy A h⟩

/-- A table without a buffer for keys and values of one byte. -/
def bytewise (s : Strategy) : Table := .vacant ⟨1, 1, 1, 1⟩ ⟨1, 1, 16, 32, 48, 16⟩ s

theorem create_bytewise (s : Strategy) : Table.create ⟨1, 1, 1, 1⟩ s = .ok (bytewise s) := rfl

theorem reachable_bytewise (s : Strategy) : Reachable (bytewise s) :=
  .make (show (Origin.empty.make Allocator.unlimited ⟨1, 1, 1, 1⟩ s ()).answer = .ok (bytewise s) from
    create_bytewise s)

/-- A table for which no two keys are equal and all hashes are the same, after a key was stored three
times and one of the three entries removed. -/
def tripled : Table :=
  ((bytewise ⟨"", fun _ => 0, fun _ _ => false⟩).run Allocator.unlimited
    [.insert [1] [2], .insert [1] [3], .insert [1] [4],
      .filter (fun _ _ value => (value != [3], ())) ()] ()).1

theorem reachable_tripled : Reachable tripled :=
  Reachable.run _ _ _ (reachable_bytewise _)

theorem reachable_invariant_tripled :
    (tripled.count = 2 ∧ tripled.tombstones = 1 ∧ tripled.Invariant) ∧
      (tripled.apply Allocator.unlimited (.reserve 10) ()).after.Invariant ∧
      ∃ u, (tripled.copy Allocator.unlimited ()).answer = .ok u ∧ u.Invariant := by
  have hi := reachable_invariant.1 tripled reachable_tripled
  refine ⟨⟨by decide +kernel, by decide +kernel, hi⟩,
    reachable_invariant.2.1 _ _ _ (.reserve 10) () hi, ?_⟩
  cases h : (tripled.copy Allocator.unlimited ()).answer with
  | ok u => exact ⟨u, rfl, reachable_invariant.2.2 _ _ _ _ _ hi h⟩
  | error error =>
    have hok : (tripled.copy Allocator.unlimited ()).answer.isOk = true := by decide +kernel
    rw [h] at hok
    exact absurd hok Bool.false_ne_true

end TagTable
