import Mathlib.Data.List.Nodup
import Mathlib.Logic.Function.Basic
import TagTable.Proofs.Typed.Command

/-!
# Finite maps

The reference for typed maps: a function to optional values, with no bytes in it. Two things it
cannot know are given to it, as to a dictionary: the order in which it shows its pairs, and whether a
reservation succeeds.

* `FiniteMap`, `Lists`, `FiniteMap.ofList`: a function, and the lists of its pairs;
* `visitPairs`, `selectPairs`, **`FiniteMap.step`**: an operation;
* `Map.Exchange`, **`FiniteMap.Allows`**: the histories that a finite map can have;
* `FiniteMap.ofList_cons`, `ofList_adjust`, `ofList_erase`: changes of a list change its function.
-/

namespace TagTable

variable {K V τ : Type}

/-- The value of each key that has one. -/
abbrev FiniteMap (K V : Type) := K → Option V

/-- The list has exactly the pairs of the map, each of them once. -/
structure Lists (l : List (K × V)) (f : FiniteMap K V) : Prop where
  nodup : (l.map Prod.fst).Nodup
  mem_iff : ∀ key value, (key, value) ∈ l ↔ f key = some value

/-- A visitor at the pairs of a list, until it stops. -/
def visitPairs (visitor : τ → K → V → Map.Visit τ V) : List (K × V) → τ → Sweep τ (List (K × V))
  | [], state => ⟨state, [], false⟩
  | (key, value) :: rest, state =>
    let visit := visitor state key value
    if visit.stop then ⟨visit.state, (key, visit.value) :: rest, true⟩
    else
      let others := visitPairs visitor rest visit.state
      { others with after := (key, visit.value) :: others.after }

/-- The pairs of a list that a predicate keeps. -/
def selectPairs (keep : τ → K → V → Bool × τ) :
    List (K × V) → τ → Selection τ (List (K × V))
  | [], state => ⟨state, [], 0⟩
  | (key, value) :: rest, state =>
    match keep state key value with
    | (true, state) =>
      let others := selectPairs keep rest state
      { others with after := (key, value) :: others.after }
    | (false, state) =>
      let others := selectPairs keep rest state
      { others with removed := others.removed + 1 }

namespace FiniteMap

variable [DecidableEq K]

/-- A map without pairs. -/
def empty : FiniteMap K V := fun _ => none

/-- The map of a list of pairs; of a key that repeats the first value counts. -/
def ofList (l : List (K × V)) : FiniteMap K V := fun key => l.lookup key

/-- **What an operation answers and makes of a finite map**, given the order in which the pairs are
shown and whether the reservation that the operation makes succeeds. -/
def step (order : List (K × V)) (room : Bool) (f : FiniteMap K V) :
    Map.Command K V → Map.Answer V × FiniteMap K V
  | .insert key value =>
    if room then
      match f key with
      | some _ => (.done (.error .alreadyExists), f)
      | none => (.done (.ok ()), Function.update f key (some value))
    else (.done (.error .outOfMemory), f)
  | .set key value =>
    if room then (.done (.ok ()), Function.update f key (some value))
    else (.done (.error .outOfMemory), f)
  | .get key => (.value (f key), f)
  | .modify key edit => (.value (f key), Function.update f key ((f key).map edit))
  | .contains key => (.present (f key).isSome, f)
  | .remove key =>
    match f key with
    | some value => (.removed (.ok value), Function.update f key none)
    | none => (.removed (.error .notFound), f)
  | .reserve _ => (.done (if room then .ok () else .error .outOfMemory), f)
  | .clear => (.done (.ok ()), empty)
  | .each visitor state =>
    let sweep := visitPairs visitor order state
    (.swept sweep.state sweep.result, ofList sweep.after)
  | .filter keep state =>
    let selection := selectPairs keep order state
    (.selected selection.state, ofList selection.after)
  | .iterate view => (.listed (order.map view), f)

end FiniteMap

/-- An operation on a map, whether its reservation succeeded, and its answer. -/
structure Map.Exchange (K V : Type) : Type 1 where
  command : Map.Command K V
  room : Bool
  answer : Map.Answer V

/-- **The histories of a finite map**, from one state to another. At each operation the pairs may be
shown in any order. -/
inductive FiniteMap.Allows [DecidableEq K] :
    FiniteMap K V → List (Map.Exchange K V) → FiniteMap K V → Prop
  | nil (f : FiniteMap K V) : Allows f [] f
  | cons {f f' : FiniteMap K V} {order : List (K × V)} {room : Bool} {c : Map.Command K V}
      {history : List (Map.Exchange K V)} (horder : Lists order f)
      (h : Allows (f.step order room c).2 history f') :
      Allows f (⟨c, room, (f.step order room c).1⟩ :: history) f'

/-- The exchanges of operations on a map one after the other. -/
def Map.history {σ : Type} [Plain K] [Plain V] (A : Allocator σ) :
    List (Map.Command K V) → Map K V → σ → List (Map.Exchange K V)
  | [], _, _ => []
  | c :: rest, m, heap =>
    ⟨c, (m.table.prepare A c.bytes heap).result.isOk, (m.apply A c heap).answer⟩ ::
      history A rest (m.apply A c heap).after (m.apply A c heap).heap

/-! ## Lists of pairs -/

section

variable [DecidableEq K] {l l' : List (K × V)} {f : FiniteMap K V}

namespace FiniteMap

theorem ofList_cons (key : K) (value : V) (l : List (K × V)) :
    ofList ((key, value) :: l) = Function.update (ofList l) key (some value) := by
  funext k
  rw [ofList, List.lookup_cons, Function.update_apply]
  by_cases h : k = key
  · rw [h, beq_self_eq_true, if_pos rfl]
  · rw [beq_eq_false_iff_ne.2 h, if_neg h]
    rfl

theorem ofList_adjust (key : K) (edit : V → V) (l : List (K × V)) :
    ofList (l.map fun p => if p.1 = key then (p.1, edit p.2) else p) =
      Function.update (ofList l) key ((ofList l key).map edit) := by
  induction l with
  | nil => exact (Function.update_eq_self key empty).symm
  | cons p l ih =>
    obtain ⟨key', value⟩ := p
    rw [List.map_cons, ofList_cons]
    by_cases h : key' = key
    · subst h
      rw [if_pos rfl, ofList_cons, ih, Function.update_idem, Function.update_idem,
        Function.update_self, Option.map_some]
    · rw [if_neg h, ofList_cons, ih, Function.update_of_ne (Ne.symm h), Function.update_comm h]

theorem ofList_erase (key : K) (l : List (K × V)) :
    ofList (l.filter fun p => p.1 ≠ key) = Function.update (ofList l) key none := by
  induction l with
  | nil => exact (Function.update_eq_self key empty).symm
  | cons p l ih =>
    obtain ⟨key', value⟩ := p
    rw [List.filter_cons, ofList_cons]
    by_cases h : key' = key
    · subst h
      rw [if_neg (by simp), ih, Function.update_idem]
    · rw [if_pos (by simpa using h), ofList_cons, ih, Function.update_comm h]

theorem ofList_eq_none {key : K} (h : key ∉ l.map Prod.fst) : ofList l key = none :=
  List.lookup_eq_none_iff.2 fun _ hp =>
    bne_iff_ne.2 fun heq => h (heq ▸ List.mem_map_of_mem hp)

end FiniteMap

theorem lists_ofList (h : (l.map Prod.fst).Nodup) : Lists l (FiniteMap.ofList l) := by
  refine ⟨h, fun key value => ?_⟩
  induction l with
  | nil => simp [FiniteMap.ofList]
  | cons p l ih =>
    obtain ⟨key', value'⟩ := p
    obtain ⟨hne, hl⟩ := List.nodup_cons.1 (List.map_cons ▸ h)
    rw [FiniteMap.ofList_cons, List.mem_cons, ih hl, Function.update_apply]
    by_cases heq : key = key'
    · subst heq
      rw [FiniteMap.ofList_eq_none hne]
      simp [eq_comm]
    · simp [heq]

namespace Lists

theorem eq_ofList (h : Lists l f) : f = FiniteMap.ofList l := by
  funext key
  refine Option.ext fun value => ?_
  exact (h.mem_iff key value).symm.trans ((lists_ofList h.nodup).mem_iff key value)

omit [DecidableEq K] in
theorem perm (h : Lists l f) (hp : l.Perm l') : Lists l' f :=
  ⟨(hp.map Prod.fst).nodup_iff.1 h.nodup, fun key value => hp.mem_iff.symm.trans (h.mem_iff key value)⟩

end Lists

end

end TagTable
