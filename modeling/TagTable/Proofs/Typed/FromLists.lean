import Mathlib.Data.List.Dedup
import TagTable.Proofs.Run.Building
import TagTable.Proofs.Typed.Refinement

/-!
# Maps from lists

A map of two lists is made with room for as many entries as there are keys, and then all pairs are set
one after the other.

* **`Map.set_of_room`**, **`Map.setAll_of_room`**: a pair, and all pairs, set in reserved room;
* `Map.withRoom_ok`: what is known of a map that is made with room;
* `Lists.keys_perm`: the pairs of a map have the distinct keys of any other list for it;
* `Map.Collected`: what the map of two lists is; `Map.collected_of_room`;
* **`ofLists_last_wins`**: the last value of every key, in one allocation.
-/

namespace TagTable

variable {K V σ : Type} [Plain K] [Plain V]

namespace Map

section

variable [Plain.Lawful K] [Plain.Lawful V] [DecidableEq K] (A : Allocator σ)

/-- **A pair is set in reserved room without a request.** -/
theorem set_of_room {m : Map K V} {done : List (K × V)} (hm : Depicts m (.ofList done)) {n : Nat}
    (hroom : m.table.Room (n + 1)) (key : K) (value : V) (heap : σ) : ∃ m' calls,
      m.set A key value heap = ⟨.ok (), m', heap, { calls := calls }⟩ ∧
        Depicts m' (.ofList ((key, value) :: done)) ∧ m'.table.Room n ∧
        m'.table.shape = { m.table.shape with count := m'.table.count } := by
  let c : Map.Command K V := .set key value
  have hready := hroom.prepare A (c := c.bytes) (Nat.le_add_left 1 n) (fun _ h => by cases h) heap
  have hleft := (hroom.apply A (c := c.bytes) (Nat.le_add_left 1 n) (fun _ h => by cases h) heap).2
  obtain ⟨⟨hheap, hevents, hlog⟩, hshape⟩ := Table.shape_apply hroom.1 A c.bytes heap
  have hanswer := hm.answer A c heap
  have hafter := hm.after A c heap
  rw [hready] at hheap hevents hlog hshape hanswer hafter
  rw [FiniteMap.ofList_cons]
  refine ⟨(m.set A key value heap).after, (m.set A key value heap).trace.calls, ?_, hafter, hleft,
    hshape⟩
  have hok : (m.set A key value heap).result = .ok () := Map.Answer.done.inj hanswer
  have hsame : (m.set A key value heap).heap = heap := hheap
  have htrace : (m.set A key value heap).trace = { calls := (m.set A key value heap).trace.calls } :=
    congrArg₂ (Trace.mk · · (m.set A key value heap).trace.calls) hevents hlog
  exact (congr (congr (congrArg (Outcome.mk · (m.set A key value heap).after) hok) hsame) htrace :)

/-- **All pairs are set in reserved room without a request.** -/
theorem setAll_of_room {m : Map K V} {done : List (K × V)} (hm : Depicts m (.ofList done))
    {pairs : List (K × V)} (hroom : m.table.Room pairs.length) (heap : σ) : ∃ m' calls,
      setAll A pairs m heap = ⟨.ok m', heap, { calls := calls }⟩ ∧
        Depicts m' (.ofList (pairs.reverse ++ done)) ∧
        m'.table.shape = { m.table.shape with count := m'.table.count } := by
  induction pairs generalizing m done with
  | nil => exact ⟨m, [], rfl, hm, rfl⟩
  | cons pair pairs ih =>
    obtain ⟨key, value⟩ := pair
    obtain ⟨m₁, calls, hset, hm₁, hroom₁, hshape₁⟩ := set_of_room A hm hroom key value heap
    obtain ⟨m', calls', hsetAll, hm', hshape'⟩ := ih hm₁ hroom₁
    refine ⟨m', calls ++ calls', ?_, ?_, ?_⟩
    · rw [setAll, hset]
      dsimp only
      rw [hsetAll]
      rfl
    · rwa [List.reverse_cons, List.append_assoc]
    · rw [hshape', hshape₁]

end

theorem withRoom_ok {A : Allocator σ} {label : String} {hash : Bytes → UInt64} {n : Nat} {heap : σ}
    {m : Map K V} (h : (withRoom K V A n (.ofHash label hash) heap).answer = .ok m) :
    m.table.Room n ∧ m.table.tombstones = 0 ∧ FittingCapacity n m.table.capacity ∧
      (withRoom K V A n (.ofHash label hash) heap).trace.heap =
        (m.table.block?.map .granted).toList := by
  have hmake : ((Origin.withRoom n).make A (.ofTypes K V) (.ofHash label hash) heap).answer =
      .ok m.table := Origin.make_of_makeMap (o := .withRoom n) h
  obtain ⟨x, hx, -⟩ := Origin.make_eq_ok hmake
  have hholds := Table.holds_withRoom A hx hmake
  refine ⟨(Table.Reserved.withRoom hmake).room, hholds.tombstones, ?_, Origin.make_events A hmake⟩
  exact Nat.max_zero n ▸ hholds.capacity

end Map

omit [Plain K] [Plain V] in
theorem Lists.keys_perm [DecidableEq K] {l l' : List (K × V)} (h : Lists l (FiniteMap.ofList l')) :
    (l.map Prod.fst).Perm (l'.map Prod.fst).dedup := by
  refine (List.perm_ext_iff_of_nodup h.nodup (List.nodup_dedup _)).2 fun key => ?_
  rw [List.mem_dedup]
  constructor
  · intro hkey
    obtain ⟨⟨key, value⟩, hp, rfl⟩ := List.mem_map.1 hkey
    by_contra hnone
    have hvalue := (h.mem_iff key value).1 hp
    rw [FiniteMap.ofList_eq_none hnone] at hvalue
    exact absurd hvalue (by simp)
  · intro hkey
    obtain ⟨⟨key, value⟩, hp, rfl⟩ := List.mem_map.1 hkey
    cases hvalue : FiniteMap.ofList l' key with
    | some value' => exact List.mem_map.2 ⟨(key, value'), (h.mem_iff key value').2 hvalue, rfl⟩
    | none => exact absurd (List.lookup_eq_none_iff.1 hvalue _ hp) (by simp)

namespace Map

/-- What the map of two lists is, and what was done for it, given how a map with room for as many
entries is made. -/
structure Collected [DecidableEq K] (keys : List K) (values : List V) (made done : Construction σ (Map K V))
    (m : Map K V) : Prop where
  /-- The value of a key is the one at its last place. -/
  last : ∀ l₁ l₂ key value, keys.zip values = l₁ ++ (key, value) :: l₂ → key ∉ l₂.map Prod.fst →
    (m.get key).answer = some value
  absent : ∀ key, key ∉ keys → (m.get key).answer = none
  size : m.size = keys.dedup.length
  tombstones : m.table.tombstones = 0
  /-- The map has the buffer that it was made with. -/
  capacity : ∃ first, made.answer = .ok first ∧ m.table.capacity = first.table.capacity
  fitting : FittingCapacity keys.length m.table.capacity
  /-- Nothing was asked of the allocator but the block of that buffer. -/
  events : done.trace.heap = made.trace.heap ∧
    made.trace.heap = (m.table.block?.map .granted).toList
  heap : done.heap = made.heap
  log : done.trace.log = made.trace.log

section

variable [Plain.Lawful K] [Plain.Lawful V] [DecidableEq K] {A : Allocator σ}

theorem collected_of_room {label : String} {hash : Bytes → UInt64} {keys : List K} {values : List V}
    (hlength : keys.length = values.length) {heap : σ} {first : Map K V}
    (h : (withRoom K V A keys.length (.ofHash label hash) heap).answer = .ok first) : ∃ m,
      (ofLists A keys values (.ofHash label hash) heap).answer = .ok m ∧
        Collected keys values (withRoom K V A keys.length (.ofHash label hash) heap)
          (ofLists A keys values (.ofHash label hash) heap) m := by
  obtain ⟨hroom, htombstones, hfitting, hevents⟩ := withRoom_ok h
  have hpairs : (keys.zip values).length = keys.length := by
    rw [List.length_zip, hlength, Nat.min_self]
  have hkeys : (keys.zip values).map Prod.fst = keys := List.map_fst_zip hlength.le
  have hempty : Depicts first (.ofList []) := Origin.depicts (o := .withRoom keys.length) h
  obtain ⟨m, calls, hset, hm, hshape⟩ := setAll_of_room A hempty (hpairs.symm ▸ hroom)
    (withRoom K V A keys.length (.ofHash label hash) heap).heap
  obtain ⟨hgeometry, hgroups, -, hburied⟩ := Shape.mk.inj hshape
  rw [List.append_nil] at hm
  have hget : ∀ key, (m.get key).answer = (keys.zip values).reverse.lookup key := fun key =>
    (Option.map_map _ _ _).trans (hm.found key)
  have hlists : ofLists A keys values (.ofHash label hash) heap =
      ⟨.ok m, (withRoom K V A keys.length (.ofHash label hash) heap).heap,
        (withRoom K V A keys.length (.ofHash label hash) heap).trace ++ { calls := calls }⟩ := by
    rw [ofLists, if_pos hlength]
    dsimp only
    rw [h]
    dsimp only
    rw [hset]
  refine ⟨m, congrArg Construction.answer hlists, ?_⟩
  have hcap : m.table.capacity = first.table.capacity := congrArg (groupSize * ·) hgroups
  rw [hlists]
  exact
    { last := fun l₁ l₂ key value hsplit hlater => by
        have hnone : l₂.reverse.lookup key = none :=
          FiniteMap.ofList_eq_none (by rwa [List.map_reverse, List.mem_reverse])
        rw [hget, hsplit, List.reverse_append, List.reverse_cons, List.append_assoc,
          List.lookup_append, hnone, Option.none_or, List.singleton_append, List.lookup_cons_self]
      absent := fun key hkey => by
        rw [hget]
        exact FiniteMap.ofList_eq_none (by rwa [List.map_reverse, List.mem_reverse, hkeys])
      size := by
        have hperm := hm.lists.keys_perm.length_eq
        rw [List.length_map, List.map_reverse, hkeys, (List.reverse_perm keys).dedup.length_eq] at hperm
        exact (hm.represents.count_eq.trans (List.length_map _)).trans hperm
      tombstones := hburied.trans htombstones
      capacity := ⟨first, h, hcap⟩
      fitting := hcap ▸ hfitting
      events := ⟨List.append_nil _, hevents.trans (by rw [Table.block?_congr hgeometry hgroups])⟩
      heap := rfl
      log := List.append_nil _ }

end

theorem ofLists_of_error {keys : List K} {values : List V} (hlength : keys.length = values.length)
    {A : Allocator σ} {s : Strategy} {heap : σ} {error : Error}
    (h : (withRoom K V A keys.length s heap).answer = .error error) :
    ofLists A keys values s heap = withRoom K V A keys.length s heap := by
  rw [ofLists, if_pos hlength]
  dsimp only
  rw [h]

theorem withRoom_of_size_eq_zero (h0 : Plain.size K = 0) (A : Allocator σ) (n : Nat) (s : Strategy)
    (heap : σ) : (withRoom K V A n s heap).answer = .error .invalidArgument := by
  have hx : Geometry.ofEntry (.ofTypes K V) = .error .invalidArgument := if_pos h0
  rw [withRoom, Table.withRoom, Table.create_eq, hx]
  rfl

end Map

/-- **The map of two lists has the last value of every key, in one allocation.** Once room for as many
entries as there are keys is reserved, no pair fails to be set, whatever keys repeat. -/
theorem ofLists_last_wins [Plain.Lawful K] [Plain.Lawful V] [DecidableEq K] (A : Allocator σ)
    (label : String) (hash : Bytes → UInt64) (keys : List K) (values : List V) (heap : σ) :
    (keys.length ≠ values.length → Map.ofLists A keys values (.ofHash label hash) heap =
        ⟨.error .invalidArgument, heap, .empty⟩) ∧
      (Plain.size K = 0 →
        (Map.ofLists A keys values (.ofHash label hash) heap).answer = .error .invalidArgument) ∧
      (keys.length = values.length →
        (∀ error, (Map.withRoom K V A keys.length (.ofHash label hash) heap).answer = .error error →
          Map.ofLists A keys values (.ofHash label hash) heap =
            Map.withRoom K V A keys.length (.ofHash label hash) heap) ∧
        ∀ first, (Map.withRoom K V A keys.length (.ofHash label hash) heap).answer = .ok first →
          ∃ m, (Map.ofLists A keys values (.ofHash label hash) heap).answer = .ok m) ∧
      ∀ m, (Map.ofLists A keys values (.ofHash label hash) heap).answer = .ok m →
        keys.length = values.length ∧
          Map.Collected keys values (Map.withRoom K V A keys.length (.ofHash label hash) heap)
            (Map.ofLists A keys values (.ofHash label hash) heap) m := by
  have hdiffer : keys.length ≠ values.length →
      Map.ofLists A keys values (.ofHash label hash) heap =
        ⟨.error .invalidArgument, heap, .empty⟩ := fun h => if_neg h
  refine ⟨hdiffer, fun h0 => ?_, fun hlength =>
    ⟨fun error h => Map.ofLists_of_error hlength h, fun first h => ?_⟩, fun m hm => ?_⟩
  · by_cases hlength : keys.length = values.length
    · have herror := Map.withRoom_of_size_eq_zero (V := V) h0 A keys.length (.ofHash label hash) heap
      rw [Map.ofLists_of_error hlength herror, herror]
    · rw [hdiffer hlength]
  · obtain ⟨m, hm, -⟩ := Map.collected_of_room hlength h
    exact ⟨m, hm⟩
  · by_cases hlength : keys.length = values.length
    · refine ⟨hlength, ?_⟩
      cases h : (Map.withRoom K V A keys.length (.ofHash label hash) heap).answer with
      | error error =>
        rw [Map.ofLists_of_error hlength h, h] at hm
        exact absurd hm (by simp)
      | ok first =>
        obtain ⟨m', hm', hcollected⟩ := Map.collected_of_room hlength h
        obtain rfl := Except.ok.inj (hm'.symm.trans hm)
        exact hcollected
    · rw [hdiffer hlength] at hm
      exact absurd hm (by simp)

/-- Three pairs of which two have the same key, with an allocator that grants a single buffer. -/
theorem ofLists_last_wins_three :
    (∃ m : Map UInt8 UInt16,
      (Map.ofLists Allocator.quota [1, 2, 1] [10, 20, 30] (.ofHash "" fun _ => 0) (sparing 1)).answer =
          .ok m ∧
        (m.get 1).answer = some 30 ∧ (m.get 3).answer = none ∧ m.size = 2 ∧ m.table.tombstones = 0) ∧
    (Map.ofLists Allocator.quota [(1 : UInt8)] ([] : List UInt16) (.ofHash "" fun _ => 0)
      (sparing 1)).answer = .error .invalidArgument ∧
    (Map.ofLists Allocator.quota [()] [(7 : UInt8)] (.ofHash "" fun _ => 0) (sparing 1)).answer =
      .error .invalidArgument := by
  obtain ⟨-, -, hmade, hlast⟩ := ofLists_last_wins (K := UInt8) (V := UInt16) Allocator.quota ""
    (fun _ => 0) [1, 2, 1] [10, 20, 30] (sparing 1)
  obtain ⟨hdiffer, -⟩ := ofLists_last_wins (K := UInt8) (V := UInt16) Allocator.quota "" (fun _ => 0)
    [1] [] (sparing 1)
  obtain ⟨-, hunit, -⟩ := ofLists_last_wins (K := Unit) (V := UInt8) Allocator.quota "" (fun _ => 0)
    [()] [7] (sparing 1)
  have hok : (Map.withRoom UInt8 UInt16 Allocator.quota 3 (.ofHash "" fun _ => 0)
      (sparing 1)).answer.isOk = true := by decide +kernel
  refine ⟨?_, congrArg Construction.answer (hdiffer (by decide)), hunit rfl⟩
  cases h : (Map.withRoom UInt8 UInt16 Allocator.quota 3 (.ofHash "" fun _ => 0)
      (sparing 1)).answer with
  | error error =>
    rw [h] at hok
    exact absurd hok Bool.false_ne_true
  | ok first =>
    obtain ⟨m, hm⟩ := (hmade rfl).2 first h
    obtain ⟨-, hcollected⟩ := hlast m hm
    exact ⟨m, hm, hcollected.last [(1, 10), (2, 20)] [] 1 30 rfl List.not_mem_nil,
      hcollected.absent 3 (by decide), hcollected.size.trans (by decide), hcollected.tombstones⟩

end TagTable
