import TagTable.Proofs.Run.Stability
import TagTable.Proofs.Table.Comparisons

/-!
# Uses of the strategy

Each use of the strategy in an operation, for every strategy: the hashes of the entries that are moved,
then the hash of the key that is looked for and the comparisons with it.

* `Command.looksFor`, `Command.stores`, `Table.sought`: the key that an operation looks for, and whether
  it comes to do so; `Step.found`: whether it found that key;
* `Table.moved`, **`Table.calls_prepare`**: the hashes of a reservation;
* **`Table.calls_of_sought`**, `Table.calls_of_not_sought`: what an operation uses the strategy for;
* `Table.Accounted`, **`Table.accounted_apply`**: the same with all comparisons;
* **`strategy_calls_accounted`**: what follows for each operation.
-/

namespace TagTable

variable {σ : Type}

/-- The key of a lookup or a removal. -/
def Command.looksFor : Command → Option Bytes
  | .get key | .modify key _ | .contains key | .remove key => some key
  | _ => none

/-- The entry of an addition. -/
def Command.stores : Command → Option Entry
  | .insert key value | .set key value => some ⟨key, value⟩
  | _ => none

/-- The key that a command is about, if it is about one. -/
def Command.key? (c : Command) : Option Bytes := c.looksFor.or (c.stores.map Entry.key)

/-- Whether an operation on a table found its key. An addition that replaces a value is one that leaves
no entry more. -/
def Step.found (t : Table) (c : Command) (s : Step σ) : Bool :=
  match c, s.answer with
  | .get _, .value value | .modify _ _, .value value => value.isSome
  | .contains _, .present present => present
  | .remove _, .done (.ok ()) => true
  | .insert _ _, .done (.error .alreadyExists) => true
  | .set _ _, .done (.ok ()) => s.after.count == t.count
  | _, _ => false

namespace Table

variable (A : Allocator σ) {t : Table} {c : Command} {heap : σ}

/-- The key that an operation comes to look for: sizes must be right, and an addition needs room. -/
def sought (t : Table) (c : Command) (heap : σ) : Option Bytes :=
  match c with
  | .get key | .modify key _ | .contains key | .remove key =>
    if key.length = t.geometry.keySize then some key else none
  | .insert key value | .set key value =>
    if t.fits key value = true ∧ (t.reserve A 1 heap).result = .ok () then some key else none
  | _ => none

theorem sought_of_looksFor {key : Bytes} (h : c.looksFor = some key) (heap : σ) :
    t.sought A c heap = if key.length = t.geometry.keySize then some key else none := by
  cases c with
  | get | modify | contains | remove => cases h; rfl
  | _ => simp [Command.looksFor] at h

theorem sought_of_stores {e : Entry} (h : c.stores = some e) (heap : σ) : t.sought A c heap =
    if t.fits e.key e.value = true ∧ (t.reserve A 1 heap).result = .ok () then some e.key else none := by
  cases c with
  | insert | set => cases h; rfl
  | _ => simp [Command.stores] at h

theorem demand_of_stores {e : Entry} (h : c.stores = some e) :
    t.demand c = if t.fits e.key e.value then some 1 else none := by
  cases c with
  | insert | set => cases h; rfl
  | _ => simp [Command.stores] at h

/-- The hashes that a step took of the entries of a table because it replaced the buffer. -/
def moved (t : Table) (s : Step σ) : List Call :=
  bif s.replaces then t.entries.map fun e => .hash e.key else []

/-- **A reservation takes the hashes of all entries just when it replaces the buffer.** -/
theorem calls_prepare (hi : t.Invariant) (c : Command) (heap : σ) :
    (t.prepare A c heap).trace.calls = t.moved (t.apply A c heap) := by
  have hreplaces := replaces_apply A hi c heap
  have hcalls : (t.prepare A c heap).trace.calls =
      (t.relocated A c heap).map fun e => .hash e.key := by
    rcases t.prepare_relocated A hi c heap with ⟨hnone, -, hcalls⟩ | ⟨-, -, -, -, -, -, -, hcalls⟩
    · rw [hcalls, hnone, List.map_nil]
    · exact hcalls
  rw [(shape_apply hi A c heap).1.2.1] at hreplaces
  rw [hcalls, relocated, moved]
  cases hgrant : (t.prepare A c heap).trace.heap.any HeapEvent.isGrant with
  | false =>
    rw [hgrant] at hreplaces
    rw [Bool.eq_false_iff.2 fun h => Bool.false_ne_true (hreplaces.1 h).2]
    rfl
  | true =>
    by_cases h0 : t.groups.size = 0
    · -- A first buffer: there are no entries to move.
      have hnone : t.entries = [] := by rw [entries, Array.size_eq_zero_iff.1 h0]; rfl
      rw [hnone]
      cases (t.apply A c heap).replaces <;> rfl
    · rw [hreplaces.2 ⟨h0, hgrant⟩]
      rfl

theorem moved_of_not_replaces {s : Step σ} (h : s.replaces = false) : t.moved s = [] := by
  rw [moved, h]
  rfl

theorem replaces_of_error (hi : t.Invariant) (h : (t.prepare A c heap).result ≠ .ok ()) :
    (t.apply A c heap).replaces = false := by
  rw [Step.replaces, (shape_apply hi A c heap).1.2.1]
  rw [prepare] at h ⊢
  cases hd : t.demand c with
  | none =>
    rw [hd] at h
    exact absurd rfl h
  | some n =>
    rw [hd] at h
    dsimp only at h ⊢
    rcases reserve_requests A hi n heap with
      ⟨-, -, hnone | ⟨block, hrefused⟩⟩ | hroom | ⟨hok, -⟩
    · rw [hnone]
      rfl
    · rw [hrefused]
      rfl
    · rw [hroom] at h
      exact absurd rfl h
    · exact absurd hok h

/-! ## Searches -/

theorem find_of_length {key : Bytes} (hk : key.length = t.geometry.keySize) :
    t.find key = ⟨(t.probe key).found, (t.probe key).calls t⟩ := if_pos hk

theorem find_of_length_ne {key : Bytes} (hk : key.length ≠ t.geometry.keySize) :
    t.find key = ⟨none, []⟩ := if_neg hk

theorem prepare_of_fits {key value : Bytes} (hfit : t.fits key value = true)
    (hd : t.demand c = if t.fits key value then some 1 else none) :
    t.prepare A c heap = t.reserve A 1 heap := by
  rw [prepare, hd, if_pos hfit]

theorem calls_store {present : Table → Position → Except Error Unit × Table} {key value : Bytes}
    (hfit : t.fits key value = true) (hok : (t.reserve A 1 heap).result = .ok ()) :
    (t.store A present key value heap).trace.calls = (t.reserve A 1 heap).trace.calls ++
      ((t.reserve A 1 heap).after.probe key).calls (t.reserve A 1 heap).after := by
  rw [store, if_pos hfit]
  simp only [hok]
  cases ((t.reserve A 1 heap).after.probe key).walk.ending <;> rfl

/-- **An operation that comes to its search uses the strategy for moves and for that search.** -/
theorem calls_of_sought (hi : t.Invariant) {key : Bytes} (h : t.sought A c heap = some key) :
    (t.apply A c heap).trace.calls = t.moved (t.apply A c heap) ++
        ((t.prepare A c heap).after.probe key).calls (t.prepare A c heap).after ∧
      (t.apply A c heap).found t c = ((t.prepare A c heap).after.probe key).found.isSome := by
  have hmoved := calls_prepare A hi c heap
  have hcount := count_prepare A hi c heap
  cases c with
  | get key | contains key =>
    rw [sought, Option.ite_none_right_eq_some] at h
    obtain ⟨hk, ⟨⟩⟩ := h
    have hfind := find_of_length hk
    exact ⟨congrArg Reply.calls hfind, Option.isSome_map.trans (by rw [hfind]; rfl)⟩
  | modify key edit =>
    rw [sought, Option.ite_none_right_eq_some] at h
    obtain ⟨hk, ⟨⟩⟩ := h
    have hfind := find_of_length hk
    refine ⟨congrArg Reply.calls hfind, ?_⟩
    rw [apply, modify, hfind]
    show _ = (t.probe key).found.isSome
    dsimp only [Reply.map]
    cases (t.probe key).found <;> rfl
  | remove key =>
    rw [sought, Option.ite_none_right_eq_some] at h
    obtain ⟨hk, ⟨⟩⟩ := h
    rw [apply, remove, Reply.map, take, if_pos hk]
    refine ⟨rfl, ?_⟩
    show _ = (t.probe key).found.isSome
    dsimp only
    cases (t.probe key).found <;> rfl
  | insert key value =>
    rw [sought, Option.ite_none_right_eq_some] at h
    obtain ⟨⟨hfit, hok⟩, ⟨⟩⟩ := h
    rw [prepare_of_fits A hfit rfl] at hmoved hcount ⊢
    refine ⟨(calls_store A hfit hok).trans (by rw [hmoved]), ?_⟩
    rcases store_cases A hi (fun t _ => (.error .alreadyExists, t)) hfit hok rfl with
      ⟨p, hfound, hstore⟩ | ⟨p, hfound, -, -, hstore⟩
    · rw [apply, insert, hstore, hfound]
      rfl
    · rw [apply, insert, hstore, hfound]
      rfl
  | set key value =>
    rw [sought, Option.ite_none_right_eq_some] at h
    obtain ⟨⟨hfit, hok⟩, ⟨⟩⟩ := h
    rw [prepare_of_fits A hfit rfl] at hmoved hcount ⊢
    refine ⟨(calls_store A hfit hok).trans (by rw [hmoved]), ?_⟩
    rcases store_cases A hi (fun t slot => (.ok (), t.overwrite slot value)) hfit hok rfl with
      ⟨p, hfound, hstore⟩ | ⟨p, hfound, -, -, hstore⟩
    · rw [apply, set, hstore, hfound]
      exact beq_iff_eq.2 hcount
    · rw [apply, set, hstore, hfound]
      refine beq_eq_false_iff_ne.2 ?_
      show (t.reserve A 1 heap).after.count + 1 ≠ t.count
      omega
  | _ => simp [sought] at h

theorem calls_store_of_not (present : Table → Position → Except Error Unit × Table)
    {key value : Bytes} (hi : t.Invariant) (hd : t.demand c = if t.fits key value then some 1 else none)
    (h : (if t.fits key value = true ∧ (t.reserve A 1 heap).result = .ok () then some key else none) =
      none) :
    (t.store A present key value heap).trace.calls = (t.prepare A c heap).trace.calls ∧
      ((t.store A present key value heap).result = .error .invalidArgument ∨
        (t.store A present key value heap).result = .error .outOfMemory) := by
  by_cases hfit : t.fits key value = true
  · rcases reserve_spec A hi 1 heap with ⟨hfail, -⟩ | ⟨hok, -⟩
    · rw [store_of_error A hfit hfail, prepare_of_fits A hfit hd]
      exact ⟨rfl, .inr hfail⟩
    · rw [if_pos ⟨hfit, hok⟩] at h
      exact absurd h (Option.some_ne_none _)
  · rw [store_of_not_fits A (Bool.not_eq_true _ ▸ hfit), prepare, hd, if_neg hfit]
    exact ⟨rfl, .inl rfl⟩

theorem calls_of_not_sought (hi : t.Invariant) (h : t.sought A c heap = none) :
    (t.apply A c heap).trace.calls = t.moved (t.apply A c heap) ∧
      (t.apply A c heap).found t c = false := by
  have hmoved := calls_prepare A hi c heap
  cases c with
  | get key | contains key =>
    have hk : key.length ≠ t.geometry.keySize := by simpa [sought] using h
    have hfind := find_of_length_ne hk
    exact ⟨congrArg Reply.calls hfind, Option.isSome_map.trans (by rw [hfind]; rfl)⟩
  | modify key edit =>
    have hk : key.length ≠ t.geometry.keySize := by simpa [sought] using h
    rw [apply, modify, find_of_length_ne hk]
    exact ⟨rfl, rfl⟩
  | remove key =>
    have hk : key.length ≠ t.geometry.keySize := by simpa [sought] using h
    rw [apply, remove, take, if_neg hk]
    exact ⟨rfl, rfl⟩
  | insert key value =>
    obtain ⟨hcalls, hresult⟩ := calls_store_of_not A (fun t _ => (.error .alreadyExists, t))
      (c := .insert key value) hi rfl h
    refine ⟨hcalls.trans hmoved, ?_⟩
    rw [apply, insert]
    rcases hresult with hresult | hresult <;> rw [hresult] <;> rfl
  | set key value =>
    obtain ⟨hcalls, hresult⟩ := calls_store_of_not A (fun t slot => (.ok (), t.overwrite slot value))
      (c := .set key value) hi rfl h
    refine ⟨hcalls.trans hmoved, ?_⟩
    rw [apply, set]
    rcases hresult with hresult | hresult <;> rw [hresult] <;> rfl
  | setStrategy s =>
    rw [apply]
    cases t.setStrategy s <;> exact ⟨rfl, rfl⟩
  | _ => exact ⟨hmoved, rfl⟩

/-- The uses of the strategy in a step from a table, whose reservation left the table `u`: the hashes of
the entries that were moved, and after them a search in `u` if it came to one. -/
inductive Accounted (t u : Table) (c : Command) (s : Step σ) : Prop
  | moves (hcalls : s.trace.calls = t.moved s) (hfound : s.found t c = false) : Accounted t u c s
  | search {key : Bytes} {slots : List Position} (hkey : c.key? = some key)
    (hcalls : s.trace.calls = t.moved s ++
      .hash key :: slots.map fun p => .equal p (u.entryAt p).key key)
    (hcompared : u.Compared key slots (s.found t c)) : Accounted t u c s

theorem key?_of_sought {key : Bytes} (h : t.sought A c heap = some key) : c.key? = some key := by
  cases c with
  | get | modify | contains | remove | insert | set =>
    rw [sought, Option.ite_none_right_eq_some] at h
    exact h.2
  | _ => simp [sought] at h

/-- **The uses of the strategy in any operation.** -/
theorem accounted_apply (hi : t.Invariant) (c : Command) (heap : σ) :
    t.Accounted (t.prepare A c heap).after c (t.apply A c heap) := by
  cases h : t.sought A c heap with
  | none =>
    obtain ⟨hcalls, hfound⟩ := calls_of_not_sought A hi h
    exact .moves hcalls hfound
  | some key =>
    obtain ⟨hcalls, hfound⟩ := calls_of_sought A hi h
    refine .search (key?_of_sought A h) hcalls ?_
    rw [hfound]
    exact compared_probe (resettled_prepare A hi c heap).invariant key

/-! ## Counts -/

theorem hashes_moved (hi : t.Invariant) (s : Step σ) :
    (t.moved s).countP Call.isHash = bif s.replaces then t.count else 0 := by
  rw [moved]
  cases s.replaces with
  | false => rfl
  | true =>
    rw [cond_true, cond_true, List.countP_map, hi.count_eq_length]
    exact List.countP_eq_length.2 fun e _ => rfl

theorem hashes_of_sought (hi : t.Invariant) {key : Bytes} (h : t.sought A c heap = some key) :
    (t.apply A c heap).trace.calls.countP Call.isHash =
      1 + bif (t.apply A c heap).replaces then t.count else 0 := by
  rw [(calls_of_sought A hi h).1, List.countP_append, hashes_moved hi, hashes_calls, Nat.add_comm]

end Table

/-- **The uses of the strategy are exactly accounted for**, whatever the strategy and the allocator: one
hash of the key of a search, those of all entries just when the buffer is replaced, and the comparisons
of the search. -/
theorem strategy_calls_accounted {t : Table} (ht : Reachable t) (A : Allocator σ) (heap : σ) :
    (∀ c key, c.looksFor = some key →
      (key.length = t.geometry.keySize → (t.apply A c heap).trace.calls.countP Call.isHash = 1) ∧
        (key.length ≠ t.geometry.keySize → (t.apply A c heap).trace.calls = [])) ∧
    (∀ c e, c.stores = some e → t.fits e.key e.value = true →
      ((t.prepare A c heap).result ≠ .ok () → (t.apply A c heap).trace.calls = []) ∧
        ((t.prepare A c heap).result = .ok () →
          (t.apply A c heap).trace.calls.countP Call.isHash =
            1 + bif (t.apply A c heap).replaces then t.count else 0)) ∧
    (∀ n, (t.apply A (.reserve n) heap).trace.calls = t.moved (t.apply A (.reserve n) heap)) ∧
    (∀ n, ∀ call ∈ (t.rehash n).calls, call.isHash = true) ∧
    ∀ c, t.Accounted (t.prepare A c heap).after c (t.apply A c heap) ∧
      (t.prepare A c heap).after.strategy = t.strategy := by
  have hi := ht.invariant
  refine ⟨fun c key hc => ?_, fun c e hc hfit => ?_, fun n => ?_, fun n call hcall => ?_, fun c => ?_⟩
  · have hkept : (t.apply A c heap).replaces = false := by
      cases c <;> first | rfl | simp [Command.looksFor] at hc
    refine ⟨fun hk => ?_, fun hk => ?_⟩
    · have hsought := (Table.sought_of_looksFor A hc heap).trans (if_pos hk)
      rw [Table.hashes_of_sought A hi hsought, hkept]
      rfl
    · have hsought := (Table.sought_of_looksFor A hc heap).trans (if_neg hk)
      rw [(Table.calls_of_not_sought A hi hsought).1, Table.moved_of_not_replaces hkept]
  · have hsought := Table.sought_of_stores A (t := t) hc heap
    have hprepare : t.prepare A c heap = t.reserve A 1 heap :=
      Table.prepare_of_fits A hfit (Table.demand_of_stores hc)
    rw [← hprepare] at hsought
    refine ⟨fun hfail => ?_, fun hok => ?_⟩
    · rw [if_neg fun h => hfail h.2] at hsought
      rw [(Table.calls_of_not_sought A hi hsought).1,
        Table.moved_of_not_replaces (Table.replaces_of_error A hi hfail)]
    · rw [if_pos ⟨hfit, hok⟩] at hsought
      exact Table.hashes_of_sought A hi hsought
  · exact (Table.calls_of_not_sought A hi (c := .reserve n) rfl).1
  · obtain ⟨e, -, rfl⟩ := List.mem_map.1 hcall
    rfl
  · exact ⟨Table.accounted_apply A hi c heap, (Table.resettled_prepare A hi c heap).strategy⟩

/-- A twelfth entry moves eleven others, and a key that equals no other is compared with two. -/
theorem strategy_calls_accounted_brimful :
    (brimful.apply Allocator.unlimited (.insert [11] [7]) ()).trace.calls.countP Call.isHash = 12 ∧
      (brimful.apply Allocator.unlimited (.remove [4]) ()).trace.calls.countP Call.isHash = 1 ∧
      (brimful.apply Allocator.unlimited (.get [1, 2]) ()).trace.calls = [] ∧
      (brimful.apply Allocator.quota (.insert [11] [7]) (sparing 0)).trace.calls = [] ∧
      tripled.Accounted (tripled.prepare Allocator.unlimited (.get [1]) ()).after (.get [1])
        (tripled.apply Allocator.unlimited (.get [1]) ()) ∧
      (tripled.apply Allocator.unlimited (.get [1]) ()).trace.calls.length = 3 := by
  obtain ⟨hlookup, hstore, -⟩ := strategy_calls_accounted reachable_brimful Allocator.unlimited ()
  obtain ⟨-, hrefused, -⟩ := strategy_calls_accounted reachable_brimful Allocator.quota (sparing 0)
  obtain ⟨-, -, -, -, htripled⟩ := strategy_calls_accounted reachable_tripled Allocator.unlimited ()
  have hsize : brimful.geometry.keySize = 1 ∧ brimful.fits [11] [7] = true := by decide +kernel
  have hok : (brimful.prepare Allocator.unlimited (.insert [11] [7]) ()).result = .ok () := by
    decide +kernel
  have hfail : (brimful.prepare Allocator.quota (.insert [11] [7]) (sparing 0)).result ≠ .ok () := by
    decide +kernel
  have hreplaces : (brimful.apply Allocator.unlimited (.insert [11] [7]) ()).replaces = true ∧
      brimful.count = 11 := by decide +kernel
  refine ⟨?_, ((hlookup (.remove [4]) [4] rfl).1 hsize.1.symm),
    (hlookup (.get [1, 2]) [1, 2] rfl).2 (by rw [hsize.1]; decide),
    (hrefused (.insert [11] [7]) ⟨[11], [7]⟩ rfl hsize.2).1 hfail, (htripled (.get [1])).1,
    by decide +kernel⟩
  rw [(hstore (.insert [11] [7]) ⟨[11], [7]⟩ rfl hsize.2).2 hok, hreplaces.1, hreplaces.2]
  rfl

end TagTable
