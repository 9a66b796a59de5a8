import TagTable.Proofs.Run.Command
import TagTable.Typed.MapCursor

/-!
# Commands on typed maps

* `Map.Command`, `Map.Answer`, `Map.Step`, **`Map.apply`**: one operation on a map;
* `Map.run`: one operation after the other;
* `Map.Command.bytes`: the operation on the table under the map; `Map.table_apply`,
  `Map.reachable_run`;
* `Origin.makeMap`: a first map; `Origin.make_of_makeMap`.
-/

namespace TagTable

namespace Map

/-- An operation on a map. -/
inductive Command (K V : Type) : Type 1 where
  | insert (key : K) (value : V)
  | set (key : K) (value : V)
  | get (key : K)
  | modify (key : K) (edit : V → V)
  | contains (key : K)
  | remove (key : K)
  | reserve (additional : Nat)
  | clear
  | each {τ : Type} (visitor : τ → K → V → Map.Visit τ V) (state : τ)
  | filter {τ : Type} (keep : τ → K → V → Bool × τ) (state : τ)
  /-- An iteration over a part of the entries: the whole with `id`, the keys with `Prod.fst`, the
  values with `Prod.snd`. -/
  | iterate {α : Type} (view : K × V → α)

/-- What an operation answers. -/
inductive Answer (V : Type) : Type 1 where
  | done (result : Except Error Unit)
  | value (value : Option V)
  | present (present : Bool)
  | removed (result : Except Error V)
  /-- The visitor's last state, and whether the traversal went to its end. -/
  | swept {τ : Type} (state : τ) (result : Except Error Unit)
  /-- The predicate's last state. -/
  | selected {τ : Type} (state : τ)
  | listed {α : Type} (views : List α)

/-- What an operation leaves behind. -/
structure Step (σ K V : Type) : Type 1 where
  answer : Answer V
  after : Map K V
  heap : σ
  trace : Trace

variable {K V σ α : Type} [Plain K] [Plain V]

/-- The views of the next `steps` entries, or of as many as there are. -/
def Cursor.takeViews (view : K × V → α) : Nat → Cursor K V → List α
  | 0, _ => []
  | steps + 1, c =>
    match c.nextView view with
    | (some a, c) => a :: takeViews view steps c
    | (none, _) => []

/-- One operation on a map. -/
def apply (A : Allocator σ) (m : Map K V) (c : Command K V) (heap : σ) : Step σ K V :=
  match c with
  | .insert key value =>
    let o := m.insert A key value heap
    ⟨.done o.result, o.after, o.heap, o.trace⟩
  | .set key value =>
    let o := m.set A key value heap
    ⟨.done o.result, o.after, o.heap, o.trace⟩
  | .get key =>
    let r := m.get key
    ⟨.value r.answer, m, heap, { calls := r.calls }⟩
  | .modify key edit =>
    let r := m.modify key edit
    ⟨.value r.answer.1, r.answer.2, heap, { calls := r.calls }⟩
  | .contains key =>
    let r := m.contains key
    ⟨.present r.answer, m, heap, { calls := r.calls }⟩
  | .remove key =>
    let r := m.remove key
    ⟨.removed r.answer.1, r.answer.2, heap, { calls := r.calls }⟩
  | .reserve additional =>
    let o := m.reserve A additional heap
    ⟨.done o.result, o.after, o.heap, o.trace⟩
  | .clear => ⟨.done (.ok ()), m.clear, heap, .empty⟩
  | .each visitor state =>
    let sweep := m.each visitor state
    ⟨.swept sweep.state sweep.result, sweep.after, heap, .empty⟩
  | .filter keep state =>
    let selection := m.filter keep state
    ⟨.selected selection.state, selection.after, heap, .empty⟩
  | .iterate view => ⟨.listed (m.cursor.takeViews view m.cursor.remaining), m, heap, .empty⟩

/-- The map and the allocator's state after operations one after the other. -/
def run (A : Allocator σ) : List (Command K V) → Map K V → σ → Map K V × σ
  | [], m, heap => (m, heap)
  | c :: rest, m, heap => run A rest (m.apply A c heap).after (m.apply A c heap).heap

/-! ## Operations on the table under a map -/

/-- A visitor of a map at the bytes of an entry. -/
def Visit.bytes {τ : Type} (visitor : τ → K → V → Map.Visit τ V) (state : τ) (key value : Bytes) :
    TagTable.Visit τ :=
  let visit := visitor state (Plain.decode key) (Plain.decode value)
  ⟨visit.state, Plain.encode visit.value, visit.stop⟩

/-- The operation on the table that an operation on a map makes. -/
def Command.bytes : Command K V → TagTable.Command
  | .insert key value => .insert (Plain.encode key) (Plain.encode value)
  | .set key value => .set (Plain.encode key) (Plain.encode value)
  | .get key => .get (Plain.encode key)
  | .modify key edit => .modify (Plain.encode key) fun b => Plain.encode (edit (Plain.decode b))
  | .contains key => .contains (Plain.encode key)
  | .remove key => .remove (Plain.encode key)
  | .reserve additional => .reserve additional
  | .clear => .clear
  | .each visitor state => .each (Visit.bytes visitor) state
  | .filter keep state =>
    .filter (fun state key value => keep state (Plain.decode key) (Plain.decode value)) state
  | .iterate _ => .iterate

/-- **An operation on a map is one on its table.** -/
theorem table_apply (A : Allocator σ) (m : Map K V) (c : Command K V) (heap : σ) :
    (m.apply A c heap).after.table = (m.table.apply A c.bytes heap).after ∧
      (m.apply A c heap).heap = (m.table.apply A c.bytes heap).heap ∧
      (m.apply A c heap).trace = (m.table.apply A c.bytes heap).trace := by
  cases c <;> exact ⟨rfl, rfl, rfl⟩

theorem reachable_run (A : Allocator σ) (cs : List (Command K V)) {m : Map K V} (heap : σ)
    (hm : Reachable m.table) : Reachable (m.run A cs heap).1.table := by
  induction cs generalizing m heap with
  | nil => exact hm
  | cons c cs ih =>
    refine ih _ ?_
    rw [(m.table_apply A c heap).1]
    exact hm.apply A c.bytes heap

end Map

/-- A first map. -/
def Origin.makeMap {σ : Type} (A : Allocator σ) (K V : Type) [Plain K] [Plain V] (s : Strategy)
    (o : Origin) (heap : σ) : Construction σ (Map K V) :=
  match o with
  | .empty => ⟨Map.create K V s, heap, .empty⟩
  | .withRoom capacity => Map.withRoom K V A capacity s heap

theorem Origin.makeMap_eq {σ : Type} (A : Allocator σ) (K V : Type) [Plain K] [Plain V] (s : Strategy)
    (o : Origin) (heap : σ) :
    o.makeMap A K V s heap = (o.make A (.ofTypes K V) s heap).map Map.mk := by
  cases o <;> rfl

theorem Origin.make_of_makeMap {σ : Type} {A : Allocator σ} {K V : Type} [Plain K] [Plain V]
    {s : Strategy} {o : Origin} {heap : σ} {m : Map K V}
    (h : (o.makeMap A K V s heap).answer = .ok m) :
    (o.make A (.ofTypes K V) s heap).answer = .ok m.table := by
  rw [makeMap_eq, Construction.map] at h
  cases ht : (o.make A (.ofTypes K V) s heap).answer with
  | error error => simp [ht, Except.map] at h
  | ok t =>
    rw [ht] at h
    obtain rfl : Map.mk t = m := Except.ok.inj h
    rfl

end TagTable
