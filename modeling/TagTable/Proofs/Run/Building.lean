import TagTable.Proofs.Run.Promise
import TagTable.Proofs.Table.Fitting
import TagTable.Proofs.Table.Occupancy

/-!
# Tables that are built by insertions

Entries are inserted one after the other into a new table, which grows step by step, or into one that
was made with room for all of them.

* `Table.Built`: the tables that result when no step runs out of memory;
* `Table.Holds`, **`Table.Holds.insert`**, `Table.Holds.run`: what is known of them after each step;
* **`occupancy_order_independent`**: neither the order nor the way of building matters for the
  capacity, the empty slots and the total probe length.
-/

namespace TagTable

/-- The insertion of an entry. -/
def Entry.insertion (x : Entry) : Command := .insert x.key x.value

theorem Origin.make_withRoom {σ : Type} {A : Allocator σ} {heap : σ} {e : EntryLayout} {x : Geometry}
    (hx : Geometry.ofEntry e = .ok x) {s : Strategy} {n : Nat}
    (hok : ((Table.vacant e x s).reserve A n heap).result = .ok ()) :
    (Origin.withRoom n).make A e s heap =
      ⟨.ok ((Table.vacant e x s).reserve A n heap).after,
        ((Table.vacant e x s).reserve A n heap).heap,
        ((Table.vacant e x s).reserve A n heap).trace⟩ := by
  rw [make_of_ok hx]
  dsimp only
  rw [hok]
  rfl

namespace Table

/-- The tables for given entries after their insertion, which starts with a new table without a buffer
or with room for all of them and never runs out of memory. -/
inductive Built (e : EntryLayout) (s : Strategy) (l : List Entry) : Table → Prop
  | insertAll {σ : Type} {A : Allocator σ} {heap heap' : σ} {trace : Trace} {o : Origin}
      {first : Table} (ho : o = .empty ∨ o = .withRoom l.length)
      (hmake : o.make A e s heap = ⟨.ok first, heap', trace⟩)
      (hmemory : ∀ x ∈ first.trail A (l.map Entry.insertion) heap',
        x.2.answer ≠ .done (.error .outOfMemory)) :
      Built e s l (first.run A (l.map Entry.insertion) heap').1

theorem Built.of_room {σ : Type} {A : Allocator σ} {heap heap' : σ} {trace : Trace}
    {e : EntryLayout} {s : Strategy} {l : List Entry} {first : Table}
    (hmake : (Origin.withRoom l.length).make A e s heap = ⟨.ok first, heap', trace⟩) :
    Built e s l (first.run A (l.map Entry.insertion) heap').1 := by
  have hroom : first.Room l.length := (Reserved.withRoom (congrArg Construction.answer hmake)).room
  have hadds : (l.map Entry.insertion).countP Command.adds ≤ l.length :=
    List.countP_le_length.trans_eq (List.length_map _)
  have hreserve : ∀ n, .reserve n ∈ l.map Entry.insertion → n = 0 := fun n hn => by
    obtain ⟨x, -, hx⟩ := List.mem_map.1 hn
    exact absurd hx (by simp [Entry.insertion])
  exact .insertAll (.inr rfl) hmake fun x hx => (hroom.trail A hadds hreserve heap' x hx).answer

/-- A table without tombstones that holds the entries of a list, and whose capacity fits them or the
number of entries for which room was reserved at first. -/
structure Holds (s : Strategy) (x : Geometry) (reserved : Nat) (l : List Entry) (t : Table) :
    Prop where
  invariant : t.Invariant
  geometry : t.geometry = x
  strategy : t.strategy = s
  tombstones : t.tombstones = 0
  entries : t.entries.Perm l
  capacity : FittingCapacity (max reserved l.length) t.capacity

variable {σ : Type} (A : Allocator σ) {s : Strategy} {x : Geometry} {reserved : Nat}
  {l done : List Entry} {t : Table}

/-- **An insertion of a new key that does not run out of memory adds the entry.** -/
theorem Holds.insert (h : t.Holds s x reserved l) {key value : Bytes}
    (hkey : key.length = x.keySize) (hvalue : value.length = x.valueSize)
    (hnew : ∀ e ∈ l, s.equal e.key key = false) {heap : σ}
    (hmemory : (t.insert A key value heap).result ≠ .error .outOfMemory) :
    (t.insert A key value heap).after.Holds s x reserved (l ++ [⟨key, value⟩]) := by
  obtain ⟨hi, rfl, rfl, htomb, hentries, hcap⟩ := h
  have hfit : t.fits key value = true := fits_eq_true.2 ⟨hkey, hvalue⟩
  rcases reserve_spec A hi 1 heap with ⟨hfail, -⟩ | ⟨hok, hre, -⟩
  · rw [Table.insert, store_of_error A hfit hfail] at hmemory
    exact absurd hfail hmemory
  · obtain ⟨htomb', hcap'⟩ := reserve_fitting A hi htomb hcap hok
    generalize hu : (t.reserve A 1 heap).after = u at hre htomb' hcap'
    rcases store_cases A hi (fun u _ => (.error .alreadyExists, u)) hfit hok hu with
      ⟨p, hfound, -⟩ | ⟨p, -, hv, hload, hstore⟩
    · -- The key would be equal to one that is stored.
      obtain ⟨hlive, hequal⟩ := found_eq_some hre.invariant hfound
      have hmem : cellIn u.groups p ∈ u.entries := mem_entriesIn.2 ⟨p, stored_eq_some.2 ⟨hlive, rfl⟩⟩
      rw [hre.strategy, hnew _ ((hre.entries.trans hentries).mem_iff.1 hmem)] at hequal
      exact absurd hequal Bool.false_ne_true
    · rw [Table.insert, hstore]
      exact
        { invariant := hre.invariant.occupy hv hload (hre.geometry ▸ hkey) (hre.geometry ▸ hvalue)
          geometry := hre.geometry
          strategy := hre.strategy
          tombstones := htomb'
          entries := ((entries_occupy hv _ _).trans ((hre.entries.trans hentries).cons _)).trans
            (List.perm_append_singleton _ _).symm
          capacity := by
            rw [hi.count_eq_length, hentries.length_eq] at hcap'
            rw [Table.capacity, size_occupy, List.length_append, List.length_singleton]
            rwa [Nat.max_assoc, Nat.max_eq_right (Nat.le_add_right ..)] at hcap' }

theorem Holds.run (h : t.Holds s x reserved done)
    (hsizes : ∀ e ∈ l, e.key.length = x.keySize ∧ e.value.length = x.valueSize)
    (hne : (done ++ l).Pairwise fun a b => s.equal a.key b.key = false) {heap : σ}
    (hmemory : ∀ y ∈ t.trail A (l.map Entry.insertion) heap,
      y.2.answer ≠ .done (.error .outOfMemory)) :
    (t.run A (l.map Entry.insertion) heap).1.Holds s x reserved (done ++ l) := by
  induction l generalizing t done heap with
  | nil => rwa [List.append_nil]
  | cons e l ih =>
    obtain ⟨hkey, hvalue⟩ := hsizes e (List.mem_cons_self ..)
    have hnew : ∀ d ∈ done, s.equal d.key e.key = false := fun d hd =>
      (List.pairwise_append.1 hne).2.2 d hd e (List.mem_cons_self ..)
    have hfirst := hmemory _ (List.mem_cons_self ..)
    have hstep : (t.apply A e.insertion heap).after.Holds s x reserved (done ++ [e]) :=
      h.insert A hkey hvalue hnew fun hfail => hfirst (congrArg Answer.done hfail)
    rw [List.append_cons] at hne ⊢
    exact ih hstep (fun d hd => hsizes d (List.mem_cons_of_mem e hd)) hne fun y hy =>
      hmemory y (List.mem_cons_of_mem _ hy)

theorem holds_withRoom {e : EntryLayout} (hx : Geometry.ofEntry e = .ok x) {n : Nat} {heap : σ}
    (hmake : ((Origin.withRoom n).make A e s heap).answer = .ok t) : t.Holds s x n [] := by
  have hi := invariant_vacant hx s
  have hnone : FittingCapacity 0 (vacant e x s).capacity := .inl ⟨rfl, rfl⟩
  rw [Origin.make_of_ok hx] at hmake
  dsimp only at hmake
  rcases reserve_spec A hi n heap with ⟨hfail, -⟩ | ⟨hok, hre, -⟩
  · simp [hfail, Except.map] at hmake
  · obtain ⟨htomb, hcap⟩ := reserve_fitting A hi rfl hnone hok
    rw [hok] at hmake
    obtain rfl := Except.ok.inj hmake
    rw [Nat.zero_max, show (vacant e x s).count + n = n from Nat.zero_add n] at hcap
    refine ⟨hre.invariant, hre.geometry, hre.strategy, htomb, hre.entries, ?_⟩
    rwa [List.length_nil, Nat.max_zero]

theorem holds_make {e : EntryLayout} (hx : Geometry.ofEntry e = .ok x) {o : Origin} {n : Nat}
    (ho : o = .empty ∨ o = .withRoom n) {heap : σ}
    (hmake : (o.make A e s heap).answer = .ok t) : ∃ reserved ≤ n, t.Holds s x reserved [] := by
  rcases ho with rfl | rfl
  · rw [Origin.make_of_ok hx] at hmake
    obtain rfl := Except.ok.inj hmake
    exact ⟨0, Nat.zero_le n, invariant_vacant hx s, rfl, rfl, rfl, .refl _, .inl ⟨rfl, rfl⟩⟩
  · exact ⟨n, Nat.le_refl n, holds_withRoom A hx hmake⟩

theorem Built.holds {e : EntryLayout} (h : Built e s l t)
    (hsizes : ∀ y ∈ l, y.key.length = e.keySize ∧ y.value.length = e.valueSize)
    (hne : l.Pairwise fun a b => s.equal a.key b.key = false) :
    ∃ x, t.Holds s x l.length l := by
  obtain ⟨ho, hmake, hmemory⟩ := h
  replace hmake := congrArg Construction.answer hmake
  obtain ⟨x, hx, -⟩ := Origin.make_eq_ok hmake
  obtain ⟨reserved, hle, hfirst⟩ := holds_make _ hx ho hmake
  rw [← Geometry.keySize_of_ofEntry hx, ← Geometry.valueSize_of_ofEntry hx] at hsizes
  have hlast := hfirst.run _ hsizes hne hmemory
  have hcap := hlast.capacity
  rw [List.nil_append, Nat.max_eq_right hle, ← Nat.max_self l.length] at hcap
  exact ⟨x, { hlast with capacity := hcap }⟩

end Table

/-- **Occupancy depends neither on the order of insertions nor on how the capacity was reached.** Tables
with the same keys, inserted without running out of memory, have the capacity that fits, the same empty
slots and the same total probe length. -/
theorem occupancy_order_independent {e : EntryLayout} {s : Strategy} {l l' : List Entry}
    {t t' : Table} (hkeys : (l.map Entry.key).Perm (l'.map Entry.key))
    (hsizes : ∀ x ∈ l ++ l', x.key.length = e.keySize ∧ x.value.length = e.valueSize)
    (hne : (l.map Entry.key).Pairwise fun a b => s.equal a b = false ∧ s.equal b a = false)
    (ht : Table.Built e s l t) (ht' : Table.Built e s l' t') :
    (t.capacity = t'.capacity ∧ FittingCapacity l.length t.capacity) ∧
      (∀ p, t.tagAt p = Tag.empty ↔ t'.tagAt p = Tag.empty) ∧
        t.totalProbeLength = t'.totalProbeLength := by
  have hne' := hne.perm hkeys fun h => h.symm
  have hlen : l'.length = l.length := by
    have := hkeys.length_eq
    rw [List.length_map, List.length_map] at this
    exact this.symm
  obtain ⟨x, h⟩ := ht.holds (fun y hy => hsizes y (List.mem_append_left _ hy))
    ((List.pairwise_map.1 hne).imp And.left)
  obtain ⟨x', h'⟩ := ht'.holds (fun y hy => hsizes y (List.mem_append_right _ hy))
    ((List.pairwise_map.1 hne').imp And.left)
  have hcap := h.capacity
  have hcap' := h'.capacity
  rw [Nat.max_self] at hcap hcap'
  rw [hlen] at hcap'
  have hequal := hcap.unique hcap'
  refine ⟨⟨hequal, hcap⟩, Table.occupancy_eq h.invariant h'.invariant h.tombstones h'.tombstones
    (Nat.eq_of_mul_eq_mul_left (by decide) hequal) (h.strategy.trans h'.strategy.symm) ?_⟩
  exact ((h.entries.map _).trans hkeys).trans (h'.entries.map _).symm

/-- Whether an answer is a given result. -/
instance decidableEqDone (answer : Answer) (result : Except Error Unit) :
    Decidable (answer = .done result) :=
  match answer with
  | .done other => decidable_of_iff (other = result) (by simp)
  | .value _ | .present _ | .swept _ _ | .selected _ | .listed _ => isFalse (by simp)

/-- A hash that gives all keys the same home. -/
def sameHome : Strategy := .ofHash "" fun _ => 1

/-- One entry more than a group holds. -/
def seventeen : List Entry := (List.range 17).map fun i => ⟨[UInt8.ofNat i], [7]⟩

/-- The entries inserted into a table that grows step by step. -/
def grown : Table × Unit :=
  (bytewise sameHome).run Allocator.unlimited (seventeen.map Entry.insertion) ()

/-- The entries inserted, last one first, into a table that was made with room for all of them. -/
def roomy : Table × Unit :=
  ((bytewise sameHome).reserve Allocator.unlimited 17 ()).after.run Allocator.unlimited
    (seventeen.reverse.map Entry.insertion) ()

theorem built_grown : Table.Built ⟨1, 1, 1, 1⟩ sameHome seventeen grown.1 :=
  .insertAll (.inl rfl) (Origin.make_of_ok (x := ⟨1, 1, 16, 32, 48, 16⟩) rfl sameHome .empty ())
    (by decide +kernel)

theorem built_roomy : Table.Built ⟨1, 1, 1, 1⟩ sameHome seventeen.reverse roomy.1 :=
  .of_room (Origin.make_withRoom (x := ⟨1, 1, 16, 32, 48, 16⟩) rfl (n := 17) rfl)

theorem occupancy_order_independent_seventeen :
    (grown.1.capacity = roomy.1.capacity ∧ FittingCapacity 17 grown.1.capacity) ∧
      (∀ p, grown.1.tagAt p = Tag.empty ↔ roomy.1.tagAt p = Tag.empty) ∧
        grown.1.totalProbeLength = roomy.1.totalProbeLength ∧ grown.1.totalProbeLength = 1 := by
  have hsizes : ∀ x ∈ seventeen ++ seventeen.reverse, x.key.length = 1 ∧ x.value.length = 1 := by
    decide
  have hne : (seventeen.map Entry.key).Pairwise fun a b =>
      sameHome.equal a b = false ∧ sameHome.equal b a = false := by decide
  obtain ⟨hcap, hempty, htotal⟩ := occupancy_order_independent
    ((List.reverse_perm seventeen).map Entry.key).symm hsizes hne built_grown built_roomy
  exact ⟨hcap, hempty, htotal, by decide +kernel⟩

end TagTable
