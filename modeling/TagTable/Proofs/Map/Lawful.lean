import TagTable.Proofs.Map.Refinement
import TagTable.Proofs.Run.Fresh
import TagTable.Proofs.Run.Shape

/-!
# Tables with lawful strategies

A strategy is replaced on an empty table only, so a table whose strategy is lawful holds one entry for
each class of equal keys, whatever its earlier strategies were.

* `Table.geometry_apply`, `Table.strategy_apply`, `Table.lawful_run`: what operations leave alone;
* `Table.dictionary`: the dictionary of a table's own entries;
* **`Reachable.represents`**: a reachable table with a lawful strategy represents it;
* `Represents.get_eq_some`, `not_equal_of_append`, `get_eq_none`: what a search for a key then answers.
-/

namespace TagTable

variable {σ : Type} (A : Allocator σ)

namespace Table

variable {t : Table} {c : Command} {heap : σ}

theorem geometry_apply (hi : t.Invariant) (c : Command) (heap : σ) :
    (t.apply A c heap).after.geometry = t.geometry := by
  obtain ⟨-, hshape⟩ := shape_apply hi A c heap
  exact (Shape.mk.inj hshape).1.trans (resettled_prepare A hi c heap).geometry

theorem strategy_store (hi : t.Invariant) {present : Table → Position → Except Error Unit × Table}
    (hpresent : ∀ u p, (present u p).2.strategy = u.strategy) (key value : Bytes) :
    (t.store A present key value heap).after.strategy = t.strategy := by
  rcases store_after A hi present key value heap with h | ⟨u, hre, p, ⟨-, h⟩ | ⟨-, -, -, h⟩⟩
  · rw [h]
  · rw [h, hpresent]
    exact hre.strategy
  · rw [h]
    exact hre.strategy

theorem strategy_apply (hi : t.Invariant) (hc : ∀ s, c ≠ .setStrategy s) :
    (t.apply A c heap).after.strategy = t.strategy := by
  cases c with
  | insert key value => exact strategy_store A hi (fun _ _ => rfl) key value
  | set key value => exact strategy_store A hi (fun _ _ => rfl) key value
  | get | contains | iterate | clear | each | filter => rfl
  | modify key edit =>
    show (t.modify key edit).answer.2.strategy = t.strategy
    rw [modify, Reply.map]
    cases (t.find key).answer <;> rfl
  | remove key =>
    show (t.remove key).answer.2.strategy = t.strategy
    rw [remove, Reply.map, take]
    split_ifs
    · dsimp only
      cases (t.probe key).found <;> rfl
    · rfl
  | reserve n =>
    rcases reserve_spec A hi n heap with ⟨-, hafter⟩ | ⟨-, hre, -⟩
    · exact congrArg strategy hafter
    · exact hre.strategy
  | setStrategy s => exact absurd rfl (hc s)

theorem lawful_run (hi : t.Invariant) {cs : List Command} (hcs : ∀ c ∈ cs, ∀ s, c ≠ .setStrategy s)
    (heap : σ) (hl : t.strategy.Lawful t.geometry.keySize) :
    (t.run A cs heap).1.strategy.Lawful (t.run A cs heap).1.geometry.keySize := by
  induction cs generalizing t heap with
  | nil => exact hl
  | cons c cs ih =>
    refine ih (hi.apply A c heap) (fun c' hc' => hcs c' (List.mem_cons_of_mem c hc')) _ ?_
    rwa [strategy_apply A hi (hcs c (List.mem_cons_self ..)), geometry_apply A hi]

/-- The dictionary of a table's own entries. -/
def dictionary (t : Table) : Dictionary :=
  { keySize := t.geometry.keySize
    valueSize := t.geometry.valueSize
    equal := t.strategy.equal
    pairs := t.entries }

end Table

namespace Represents

variable {t : Table} {d : Dictionary} {key : Bytes} {e : Entry}

theorem own (hr : Represents t d) : Represents t t.dictionary where
  invariant := hr.invariant
  lawful := by
    have hl := hr.lawful
    rwa [← hr.keySize] at hl
  keySize := rfl
  valueSize := rfl
  equal _ _ _ _ := rfl
  entries := .refl _
  distinct := by
    have hd := hr.distinct.perm hr.entries.symm
    refine hd.congr (fun e he => hr.length_key e (hr.entries.mem_iff.1 he)) fun a b ha hb => ?_
    exact (hr.equal a b ha hb).symm

theorem of_count_eq_zero (hi : t.Invariant) (hl : t.strategy.Lawful t.geometry.keySize)
    (h0 : t.count = 0) : Represents t t.dictionary where
  invariant := hi
  lawful := hl
  keySize := rfl
  valueSize := rfl
  equal _ _ _ _ := rfl
  entries := .refl _
  distinct := by
    have hnil : t.entries = [] := List.length_eq_zero_iff.1 (hi.count_eq_length.symm.trans h0)
    show Distinct _ t.entries
    rw [hnil]
    exact List.Pairwise.nil

/-! ## Searches -/

/-- **A key that is equal to a stored one has the value that is stored with it.** -/
theorem get_eq_some (hr : Represents t d) (he : e ∈ d.pairs) (hk : key.length = d.keySize)
    (heq : d.equal e.key key = true) : (t.get key).answer = some e.value := by
  obtain ⟨l₁, l₂, hl⟩ := List.append_of_mem he
  have hdistinct := hr.distinct
  have hsize := hr.length_key
  rw [hl] at hdistinct hsize
  have hfind := hr.find key
  rw [Dictionary.find, if_pos hk, hl, hdistinct.find?_eq hr.equivalenceOn hsize hk heq] at hfind
  show (t.find key).answer.map (fun p => (cellIn t.groups p).value) = some e.value
  have hvalue := congrArg (Option.map Entry.value) hfind
  rw [Option.map_map] at hvalue
  exact hvalue.symm

theorem not_equal_of_append (hr : Represents t d) {l₁ l₂ : List Entry} (hl : d.pairs = l₁ ++ e :: l₂)
    (hk : key.length = d.keySize) (heq : d.equal e.key key = true) :
    ∀ e' ∈ l₁ ++ l₂, d.equal e'.key key = false := by
  have hdistinct := hr.distinct
  have hsize := hr.length_key
  rw [hl] at hdistinct hsize
  exact hdistinct.not_equal hr.equivalenceOn hsize hk heq

theorem get_eq_none (hr : Represents t d) (h : ∀ e ∈ d.pairs, d.equal e.key key = false) :
    (t.get key).answer = none := by
  have hnone : d.find key = none := by
    rw [Dictionary.find]
    split_ifs
    · exact List.find?_eq_none.2 fun e he => Bool.eq_false_iff.1 (h e he)
    · rfl
  rw [hr.find] at hnone
  rw [Table.get, Reply.map, Option.map_eq_none_iff.1 hnone]
  rfl

end Represents

/-- **A reachable table whose strategy is lawful represents the dictionary of its entries.** -/
theorem Reachable.represents {t : Table} (h : Reachable t)
    (hl : t.strategy.Lawful t.geometry.keySize) : Represents t t.dictionary := by
  induction h with
  | make h =>
    have hi := Origin.invariant_make h
    obtain ⟨x, n, -, rfl⟩ := Origin.make_fresh h
    exact .of_count_eq_zero hi hl rfl
  | @apply σ t ht A c heap ih =>
    have hi := ht.invariant
    by_cases hc : ∃ s, c = .setStrategy s
    · obtain ⟨s, rfl⟩ := hc
      by_cases h0 : t.count = 0
      · refine .of_count_eq_zero (hi.apply A _ heap) hl ?_
        rw [Table.apply, Table.setStrategy, if_pos h0]
        exact h0
      · have hafter : (t.apply A (.setStrategy s) heap).after = t := by
          rw [Table.apply, Table.setStrategy, if_neg h0]
        rw [hafter] at hl ⊢
        exact ih hl
    · have hc' : ∀ s, c ≠ .setStrategy s := fun s hs => hc ⟨s, hs⟩
      rw [Table.strategy_apply A hi hc', Table.geometry_apply A hi] at hl
      have hlawful : c.Lawful t.dictionary.keySize := by
        cases c with
        | setStrategy s => exact absurd rfl (hc' s)
        | _ => trivial
      exact ((ih hl).apply A hlawful heap).2.own
  | @copy σ A heap t u ht h ih =>
    obtain ⟨hcopy, -⟩ := Table.copy_seen A (t := t) rfl heap
    rcases hcopy with ⟨error, herror, -⟩ | ⟨hok, -⟩
    · rw [herror] at h
      exact absurd h (by simp)
    · obtain rfl := Except.ok.inj (hok.symm.trans h)
      exact ih hl

end TagTable
