import Mathlib.Data.List.Pairwise
import TagTable.Proofs.Run.Command
import TagTable.Proofs.Table.Traversal

/-!
# Dictionaries

The finite map that a table stands for. It holds one pair of a stored key and a value for each class
of equal keys, and it knows neither hashes nor slots. Two things it cannot know are given to it: the
order in which it shows its pairs, and whether a reservation succeeds.

* `Distinct`, `Dictionary`, `Dictionary.find`: the pairs, and the one of a key;
* **`Dictionary.step`**: an operation;
* `Exchange`, **`Dictionary.Allows`**: the histories that a dictionary can have;
* `EquivalenceOn`, `Distinct.not_equal`, `find?_eq`, `map_eq`, `filter_eq`: the one pair of a key.
-/

namespace TagTable

/-- No two entries of the list have equal keys. -/
def Distinct (equal : Bytes → Bytes → Bool) (l : List Entry) : Prop :=
  (l.map Entry.key).Pairwise fun a b => equal a b = false ∧ equal b a = false

/-- A finite map with keys and values of given sizes. -/
structure Dictionary where
  keySize : Nat
  valueSize : Nat
  equal : Bytes → Bytes → Bool
  /-- The stored keys with their values, in no particular order. -/
  pairs : List Entry

namespace Dictionary

/-- A dictionary without pairs. -/
def empty (e : EntryLayout) (equal : Bytes → Bytes → Bool) : Dictionary :=
  { keySize := e.keySize, valueSize := e.valueSize, equal, pairs := [] }

variable (d : Dictionary)

/-- The pair of a key; a key of the wrong length has none. -/
def find (key : Bytes) : Option Entry :=
  if key.length = d.keySize then d.pairs.find? fun e => d.equal e.key key else none

/-- Whether a key and a value have the right lengths. -/
def fits (key value : Bytes) : Bool :=
  key.length == d.keySize && value.length == d.valueSize

/-- The dictionary with the pair of a key changed by `f`. -/
def adjust (key : Bytes) (f : Entry → Entry) : Dictionary :=
  { d with pairs := d.pairs.map fun e => if d.equal e.key key then f e else e }

/-- The dictionary without the pair of a key. -/
def erase (key : Bytes) : Dictionary :=
  { d with pairs := d.pairs.filter fun e => !d.equal e.key key }

/-- The answer to an addition, and the dictionary afterwards: `present` is the outcome for a key that
has a pair. -/
def store (room : Bool) (present : Except Error Unit × Dictionary) (key value : Bytes) :
    Answer × Dictionary :=
  if d.fits key value then
    if room then
      match d.find key with
      | some _ => (.done present.1, present.2)
      | none => (.done (.ok ()), { d with pairs := ⟨key, value⟩ :: d.pairs })
    else (.done (.error .outOfMemory), d)
  else (.done (.error .invalidArgument), d)

/-- **What an operation answers and makes of a dictionary**, given the order in which the pairs are
shown and whether the reservation that the operation makes succeeds. -/
def step (order : List Entry) (room : Bool) (d : Dictionary) : Command → Answer × Dictionary
  | .insert key value => d.store room (.error .alreadyExists, d) key value
  | .set key value =>
    d.store room (.ok (), d.adjust key fun e => { e with value := value }) key value
  | .get key => (.value ((d.find key).map Entry.value), d)
  | .modify key edit =>
    match d.find key with
    | some e => (.value (some e.value), d.adjust key fun e => e.write (edit e.value))
    | none => (.value none, d)
  | .contains key => (.present (d.find key).isSome, d)
  | .remove key =>
    if key.length = d.keySize then
      match d.find key with
      | some _ => (.done (.ok ()), d.erase key)
      | none => (.done (.error .notFound), d)
    else (.done (.error .invalidArgument), d)
  | .reserve _ => (.done (if room then .ok () else .error .outOfMemory), d)
  | .clear => (.done (.ok ()), { d with pairs := [] })
  | .each visitor state =>
    let sweep := visitEntries visitor order state
    (.swept sweep.state sweep.result, { d with pairs := sweep.after })
  | .filter keep state =>
    let selection := selectEntries keep order state
    (.selected selection.state, { d with pairs := selection.after })
  | .iterate => (.listed order, d)
  | .setStrategy s =>
    if d.pairs.isEmpty then (.done (.ok ()), { d with equal := s.equal })
    else (.done (.error .invalidArgument), d)

theorem keySize_store (room : Bool) {present : Except Error Unit × Dictionary}
    (h : present.2.keySize = d.keySize) (key value : Bytes) :
    (d.store room present key value).2.keySize = d.keySize := by
  rw [store]
  split_ifs
  · cases d.find key with
    | some e => exact h
    | none => rfl
  · rfl
  · rfl

theorem keySize_step (order : List Entry) (room : Bool) (c : Command) :
    (d.step order room c).2.keySize = d.keySize := by
  cases c with
  | insert key value => exact d.keySize_store room rfl key value
  | set key value => exact d.keySize_store room rfl key value
  | modify key edit =>
    rw [step]
    cases d.find key <;> rfl
  | remove key =>
    rw [step]
    split_ifs
    · cases d.find key <;> rfl
    · rfl
  | setStrategy s =>
    rw [step]
    split_ifs <;> rfl
  | get | contains | reserve | clear | each | filter | iterate => rfl

end Dictionary

/-- An operation, whether its reservation succeeded, and its answer. -/
structure Exchange : Type 1 where
  command : Command
  room : Bool
  answer : Answer

/-- **The histories of a dictionary**, from one state to another. At each operation the pairs may be
shown in any order. -/
inductive Dictionary.Allows : Dictionary → List Exchange → Dictionary → Prop
  | nil (d : Dictionary) : Allows d [] d
  | cons {d d' : Dictionary} {order : List Entry} {room : Bool} {c : Command}
      {history : List Exchange} (horder : order.Perm d.pairs)
      (h : Allows (d.step order room c).2 history d') :
      Allows d (⟨c, room, (d.step order room c).1⟩ :: history) d'

namespace Table

variable {σ : Type} (A : Allocator σ)

/-- The exchanges of operations one after the other. -/
def history : List Command → Table → σ → List Exchange
  | [], _, _ => []
  | c :: rest, t, heap =>
    ⟨c, (t.prepare A c heap).result.isOk, (t.apply A c heap).answer⟩ ::
      history rest (t.apply A c heap).after (t.apply A c heap).heap

end Table

/-! ## The pair of a key -/

/-- The test of equality is an equivalence on keys of one size. -/
structure EquivalenceOn (size : Nat) (equal : Bytes → Bytes → Bool) : Prop where
  refl : ∀ a : Bytes, a.length = size → equal a a = true
  symm : ∀ a b : Bytes, a.length = size → b.length = size → equal a b = true → equal b a = true
  trans : ∀ a b c : Bytes, a.length = size → b.length = size → c.length = size →
    equal a b = true → equal b c = true → equal a c = true

theorem EquivalenceOn.congr {size : Nat} {equal equal' : Bytes → Bytes → Bool}
    (h : EquivalenceOn size equal)
    (heq : ∀ a b : Bytes, a.length = size → b.length = size → equal' a b = equal a b) :
    EquivalenceOn size equal' where
  refl a ha := (heq a a ha ha).trans (h.refl a ha)
  symm a b ha hb hab := (heq b a hb ha).trans (h.symm a b ha hb ((heq a b ha hb).symm.trans hab))
  trans a b c ha hb hc hab hbc := (heq a c ha hc).trans
    (h.trans a b c ha hb hc ((heq a b ha hb).symm.trans hab) ((heq b c hb hc).symm.trans hbc))

theorem Strategy.Lawful.equivalenceOn {s : Strategy} {size : Nat} (h : s.Lawful size) :
    EquivalenceOn size s.equal := ⟨h.refl, h.symm, h.trans⟩

namespace Distinct

variable {equal : Bytes → Bytes → Bool} {size : Nat} {l l₁ l₂ : List Entry} {e : Entry}
  {key : Bytes}

theorem perm (h : Distinct equal l₁) (hp : l₁.Perm l₂) : Distinct equal l₂ :=
  (hp.map Entry.key).pairwise h And.symm

theorem congr {equal' : Bytes → Bytes → Bool} (h : Distinct equal l)
    (hsize : ∀ e ∈ l, e.key.length = size)
    (heq : ∀ a b : Bytes, a.length = size → b.length = size → equal' a b = equal a b) :
    Distinct equal' l := by
  rw [Distinct, List.pairwise_map] at *
  refine h.imp_of_mem fun {a b} ha hb hab => ?_
  rw [heq _ _ (hsize a ha) (hsize b hb), heq _ _ (hsize b hb) (hsize a ha)]
  exact hab

section

variable (hs : EquivalenceOn size equal) (h : Distinct equal (l₁ ++ e :: l₂))
  (hsize : ∀ e' ∈ l₁ ++ e :: l₂, e'.key.length = size) (hk : key.length = size)
  (he : equal e.key key = true)

include hs h hsize hk he

theorem not_equal : ∀ e' ∈ l₁ ++ l₂, equal e'.key key = false := by
  intro e' he'
  have hperm : (l₁ ++ e :: l₂).Perm (e :: (l₁ ++ l₂)) := List.perm_middle
  have hd := h.perm hperm
  rw [Distinct, List.map_cons, List.pairwise_cons] at hd
  have hfalse := (hd.1 e'.key (List.mem_map_of_mem he')).1
  have hlen := hsize e' (hperm.mem_iff.2 (List.mem_cons_of_mem e he'))
  have hlen₀ := hsize e (hperm.mem_iff.2 (List.mem_cons_self ..))
  -- Otherwise both `e` and `e'` would have the key, and so the keys of two entries would be equal.
  by_contra hne
  rw [Bool.not_eq_false] at hne
  have htrue := hs.trans _ _ _ hlen₀ hk hlen he (hs.symm _ _ hlen hk hne)
  rw [htrue] at hfalse
  exact absurd hfalse (by decide)

theorem find?_eq : (l₁ ++ e :: l₂).find? (fun e => equal e.key key) = some e := by
  have hne := not_equal hs h hsize hk he
  have hnone : l₁.find? (fun e => equal e.key key) = none :=
    List.find?_eq_none.2 fun e' he' => Bool.eq_false_iff.1 (hne e' (List.mem_append_left l₂ he'))
  rw [List.find?_append, hnone, Option.none_or]
  exact List.find?_cons_of_pos he

theorem map_eq (f : Entry → Entry) :
    ((l₁ ++ e :: l₂).map fun e => if equal e.key key then f e else e) = l₁ ++ f e :: l₂ := by
  have hne := not_equal hs h hsize hk he
  have hfix : ∀ l : List Entry, (∀ e' ∈ l, e' ∈ l₁ ++ l₂) →
      (l.map fun e => if equal e.key key then f e else e) = l := by
    intro l hl
    refine (List.map_congr_left fun e' he' => ?_).trans (List.map_id l)
    rw [hne e' (hl e' he')]
    rfl
  rw [List.map_append, List.map_cons, if_pos he, hfix l₁ fun _ => List.mem_append_left l₂,
    hfix l₂ fun _ => List.mem_append_right l₁]

theorem filter_eq : ((l₁ ++ e :: l₂).filter fun e => !equal e.key key) = l₁ ++ l₂ := by
  have hne := not_equal hs h hsize hk he
  have hkeep : ∀ l : List Entry, (∀ e' ∈ l, e' ∈ l₁ ++ l₂) →
      (l.filter fun e => !equal e.key key) = l := by
    intro l hl
    refine List.filter_eq_self.2 fun e' he' => ?_
    rw [hne e' (hl e' he')]
    rfl
  rw [List.filter_append, List.filter_cons, he, hkeep l₁ fun _ => List.mem_append_left l₂,
    hkeep l₂ fun _ => List.mem_append_right l₁]
  rfl

end

end Distinct

end TagTable
