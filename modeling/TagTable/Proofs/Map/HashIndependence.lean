import Mathlib.Data.List.Forall2
import TagTable.Proofs.Map.Refinement
import TagTable.Proofs.Run.Session
import TagTable.Proofs.Run.Shape

/-!
# The hash shows in the order of the slots only

Two tables of one shape that represent the same dictionary stay so under twin operations, whatever
their hashes.

* `visitEntries_eq_map`, `selectEntries_eq_filter`: traversals that do not depend on the order;
* **`Dictionary.step_of_perm`**: operations that do not show an order do not depend on it;
* `Alike`, **`Alike.apply`**, `Session.Alike`, `Session.Alike.run`: the simulation;
* **`hash_independence`**: two sessions that differ in their hashes.
-/

namespace TagTable

/-! ## Operations that do not show an order -/

section

variable {τ : Type} {visitor : τ → Bytes → Bytes → Visit τ} {keep : τ → Bytes → Bytes → Bool × τ}

theorem visitEntries_eq_map {update : Bytes → Bytes → Bytes}
    (h : ∀ state key value, visitor state key value = ⟨state, update key value, false⟩)
    (l : List Entry) (state : τ) :
    visitEntries visitor l state = ⟨state, l.map fun e => e.write (update e.key e.value), false⟩ := by
  induction l with
  | nil => rfl
  | cons e l ih =>
    rw [visitEntries, h]
    dsimp only
    rw [if_neg Bool.false_ne_true, ih, List.map_cons]

theorem selectEntries_eq_filter {test : Bytes → Bytes → Bool}
    (h : ∀ state key value, keep state key value = (test key value, state)) (l : List Entry)
    (state : τ) : (selectEntries keep l state).state = state ∧
      (selectEntries keep l state).after = l.filter fun e => test e.key e.value := by
  induction l with
  | nil => exact ⟨rfl, rfl⟩
  | cons e l ih =>
    rw [selectEntries, h, List.filter_cons]
    cases test e.key e.value with
    | false => exact ih
    | true => exact ⟨ih.1, congrArg (e :: ·) ih.2⟩

end

/-- **An operation that does not show an order does not depend on it.** -/
theorem Dictionary.step_of_perm (d : Dictionary) {c : Command} (hc : c.OrderFree)
    {order order' : List Entry} (h : order.Perm order') (room : Bool) :
    (d.step order room c).1 = (d.step order' room c).1 ∧
      ∃ l, l.Perm (d.step order' room c).2.pairs ∧
        (d.step order room c).2 = { (d.step order' room c).2 with pairs := l } := by
  cases c with
  | each visitor state =>
    obtain ⟨update, hupdate⟩ := hc
    rw [step, step, visitEntries_eq_map hupdate, visitEntries_eq_map hupdate]
    exact ⟨rfl, _, h.map _, rfl⟩
  | filter keep state =>
    obtain ⟨test, htest⟩ := hc
    obtain ⟨hstate, hafter⟩ := selectEntries_eq_filter htest order state
    obtain ⟨hstate', hafter'⟩ := selectEntries_eq_filter htest order' state
    rw [step, step]
    refine ⟨?_, _, ?_, rfl⟩
    · rw [hstate, hstate']
    · rw [hafter, hafter']
      exact h.filter _
  | iterate => exact hc.elim
  | setStrategy s => exact hc.elim
  | _ => exact ⟨rfl, _, .refl _, rfl⟩

/-! ## Two tables -/

/-- Tables of one shape that hold the same pairs, but for the order of their slots. -/
def Alike (size : Nat) (t u : Table) : Prop :=
  t.shape = u.shape ∧ ∃ d : Dictionary, d.keySize = size ∧ Represents t d ∧ Represents u d

theorem Command.Twin.lawful {size : Nat} {c c' : Command} (h : c.Twin size c') :
    c.Lawful size ∧ c'.Lawful size := by
  cases h with
  | same h =>
    cases c with
    | setStrategy s => exact h.elim
    | _ => exact ⟨trivial, trivial⟩
  | setStrategy h => exact ⟨h.left, h.right⟩

theorem Represents.step_twin {d : Dictionary} {c c' : Command} (hc : c.Twin d.keySize c')
    {order order' : List Entry} (h : order.Perm order') (room : Bool) :
    (d.step order room c).1 = (d.step order' room c').1 ∧
      ∀ u, Represents u (d.step order' room c').2 → Represents u (d.step order room c).2 := by
  cases hc with
  | same hfree =>
    obtain ⟨hanswer, l, hl, hstep⟩ := d.step_of_perm hfree h room
    refine ⟨hanswer, fun u hu => ?_⟩
    rw [hstep]
    exact hu.of_perm hl
  | setStrategy hs =>
    rw [Dictionary.step, Dictionary.step]
    split_ifs with h0
    · exact ⟨rfl, fun u hu => hu.of_equal hs.equal⟩
    · exact ⟨rfl, fun u hu => hu⟩

namespace Alike

variable {σ : Type} (A : Allocator σ) {size : Nat} {t u : Table} {c c' : Command}

theorem sizes_eq (h : Alike size t u) : t.sizes = u.sizes := by
  obtain ⟨-, hs, hc, hb⟩ := Shape.mk.inj h.1
  rw [Table.sizes, Table.sizes, Table.capacity, Table.capacity, hs, hc, hb]

theorem drain_perm (h : Alike size t u) : t.cursor.drain.Perm u.cursor.drain := by
  obtain ⟨-, d, -, hr, hr'⟩ := h
  rw [t.drain_cursor hr.invariant.count_eq_length, u.drain_cursor hr'.invariant.count_eq_length]
  exact hr.entries.trans hr'.entries.symm

theorem demand_eq (h : Alike size t u) (hc : c.Twin size c') : t.demand c = u.demand c' := by
  have hfits : ∀ key value, t.fits key value = u.fits key value := by
    intro key value
    rw [Table.fits, Table.fits, show t.geometry = u.geometry from (Shape.mk.inj h.1).1]
  cases hc with
  | same => cases c <;> simp only [Table.demand, hfits]
  | setStrategy => rfl

/-- **Twin operations answer alike and leave tables that are alike.** -/
theorem apply (h : Alike size t u) (hc : c.Twin size c') (heap : σ) :
    (t.apply A c heap).answer = (u.apply A c' heap).answer ∧
      (t.apply A c heap).heap = (u.apply A c' heap).heap ∧
      (t.apply A c heap).trace.heap = (u.apply A c' heap).trace.heap ∧
      (t.apply A c heap).trace.log = (u.apply A c' heap).trace.log ∧
      Alike size (t.apply A c heap).after (u.apply A c' heap).after := by
  have hseen := Table.prepare_seen A h.1 (h.demand_eq hc) heap
  simp only [Outcome.seen, Prod.mk.injEq] at hseen
  obtain ⟨hresult, hshape, hheap, hevents, hlog⟩ := hseen
  obtain ⟨-, d, rfl, hr, hr'⟩ := h
  obtain ⟨hanswer, hafter⟩ := hr.apply A hc.lawful.1 heap
  obtain ⟨hanswer', hafter'⟩ := hr'.apply A hc.lawful.2 heap
  obtain ⟨⟨hh, he, hl⟩, hs⟩ := Table.shape_apply hr.invariant A c heap
  obtain ⟨⟨hh', he', hl'⟩, hs'⟩ := Table.shape_apply hr'.invariant A c' heap
  obtain ⟨hstep, htwin⟩ := Represents.step_twin hc (hr.entries.trans hr'.entries.symm)
    (t.prepare A c heap).result.isOk
  rw [← hresult] at hanswer' hafter'
  have hboth := htwin _ hafter'
  refine ⟨by rw [hanswer, hanswer', hstep], by rw [hh, hh', hheap], by rw [he, he', hevents],
    by rw [hl, hl', hlog], ?_, _, Dictionary.keySize_step .., hafter, hboth⟩
  -- The shapes afterwards are those of the reservations but for two counters, and these follow from
  -- the number of pairs, which the tables share.
  obtain ⟨-, -, hcount, htombs⟩ := Shape.mk.inj hshape
  have hleft : ∀ count tombstones left, c.tombstonesLeft count tombstones left =
      c'.tombstonesLeft count tombstones left := by
    intro count tombstones left
    cases hc <;> rfl
  rw [hs, hs', hafter.count_eq, hboth.count_eq, hshape, hcount, htombs, hleft]

end Alike

/-! ## Two sessions -/

/-- Two ways of making a table that fail with the same error or give tables that are alike, and do the
same to the allocator and the log. -/
def Construction.Alike {σ : Type} (size : Nat) (m m' : Construction σ Table) : Prop :=
  m.heap = m'.heap ∧ m.trace.heap = m'.trace.heap ∧ m.trace.log = m'.trace.log ∧
    ((∃ error, m.answer = .error error ∧ m'.answer = .error error) ∨
      ∃ t u, m.answer = .ok t ∧ m'.answer = .ok u ∧ TagTable.Alike size t u)

/-- Sessions with the same state of the allocator, table by table alike. -/
def Session.Alike {σ : Type} (size : Nat) (w w' : Session σ) : Prop :=
  w.heap = w'.heap ∧ List.Forall₂ (TagTable.Alike size) w.tables w'.tables

section

variable {σ : Type} (A : Allocator σ) {size : Nat}

theorem Alike.copy {t u : Table} (h : Alike size t u) (heap : σ) :
    (t.copy A heap).Alike size (u.copy A heap) := by
  obtain ⟨hanswer, hheap, htrace⟩ := Table.copy_seen A h.1 heap
  refine ⟨hheap, by rw [htrace], by rw [htrace], ?_⟩
  rcases hanswer with herror | ⟨ht, hu⟩
  · exact .inl herror
  · exact .inr ⟨t, u, ht, hu, h⟩

theorem Origin.make_twin {e : EntryLayout} {s s' : Strategy} (hs : s.Twin e.keySize s') (o : Origin)
    (heap : σ) : (o.make A e s heap).Alike e.keySize (o.make A e s' heap) := by
  cases hx : Geometry.ofEntry e with
  | error error =>
    rw [make_of_error hx, make_of_error hx]
    exact ⟨rfl, rfl, rfl, .inl ⟨error, rfl, rfl⟩⟩
  | ok x =>
    have hr := represents_vacant hs.left hx
    have hr' := (represents_vacant hs.right hx).of_equal hs.equal
    rw [make_of_ok hx, make_of_ok hx]
    cases o with
    | empty => exact ⟨rfl, rfl, rfl, .inr ⟨_, _, rfl, rfl, rfl, _, rfl, hr, hr'⟩⟩
    | withRoom n =>
      have hseen := Table.reserve_seen A (t := .vacant e x s) (u := .vacant e x s') rfl n heap
      simp only [Outcome.seen, Prod.mk.injEq] at hseen
      obtain ⟨hresult, hshape, hheap, hevents, hlog⟩ := hseen
      dsimp only
      refine ⟨hheap, hevents, hlog, ?_⟩
      rw [hresult]
      cases ((Table.vacant e x s').reserve A n heap).result with
      | error error => exact .inl ⟨error, rfl, rfl⟩
      | ok _ =>
        exact .inr ⟨_, _, rfl, rfl, hshape, _, rfl, hr.reserve A n heap, hr'.reserve A n heap⟩

theorem forall₂_getElem? {α : Type} {R : α → α → Prop} {l l' : List α} (h : List.Forall₂ R l l')
    (i : Nat) : l[i]? = none ∧ l'[i]? = none ∨ ∃ a b, l[i]? = some a ∧ l'[i]? = some b ∧ R a b := by
  induction h generalizing i with
  | nil => exact .inl ⟨rfl, rfl⟩
  | cons hab _ ih =>
    cases i with
    | zero => exact .inr ⟨_, _, rfl, rfl, hab⟩
    | succ i => exact ih i

theorem forall₂_set {α : Type} {R : α → α → Prop} {l l' : List α} {a b : α}
    (h : List.Forall₂ R l l') (hab : R a b) (i : Nat) :
    List.Forall₂ R (l.set i a) (l'.set i b) := by
  induction h generalizing i with
  | nil => exact .nil
  | cons hhead htail ih =>
    cases i with
    | zero => exact .cons hab htail
    | succ i => exact .cons hhead (ih i)

namespace Session

variable {w w' : Session σ} {a a' : Action} {as as' : List Action}

theorem Alike.report_eq (h : w.Alike size w') (answer : Option Answer) {trace trace' : Trace}
    (hheap : trace.heap = trace'.heap) (hlog : trace.log = trace'.log) :
    w.report answer trace = w'.report answer trace' := by
  have hsizes : ∀ {l l' : List Table}, List.Forall₂ (TagTable.Alike size) l l' →
      l.map Table.sizes = l'.map Table.sizes := by
    intro l l' h
    induction h with
    | nil => rfl
    | cons hab _ ih => rw [List.map_cons, List.map_cons, hab.sizes_eq, ih]
  rw [report, report, hheap, hlog, hsizes h.2]

theorem extend_alike {tables tables' : List Table} {m m' : Construction σ Table}
    (h : List.Forall₂ (TagTable.Alike size) tables tables') (hm : m.Alike size m') :
    (extend tables m).1 = (extend tables' m').1 ∧
      (extend tables m).2.Alike size (extend tables' m').2 := by
  obtain ⟨hheap, hevents, hlog, hanswer⟩ := hm
  have hresult : m.answer.map (fun _ => ()) = m'.answer.map (fun _ => ()) := by
    rcases hanswer with ⟨error, ht, hu⟩ | ⟨t, u, ht, hu, -⟩
    · rw [ht, hu]
    · rw [ht, hu]
      rfl
  have hnew : List.Forall₂ (TagTable.Alike size) m.answer.toOption.toList
      m'.answer.toOption.toList := by
    rcases hanswer with ⟨error, ht, hu⟩ | ⟨t, u, ht, hu, htu⟩
    · rw [ht, hu]
      exact .nil
    · rw [ht, hu]
      exact .cons htu .nil
  have hw : (extend tables m).2.Alike size (extend tables' m').2 :=
    ⟨hheap, List.rel_append h hnew⟩
  refine ⟨?_, hw⟩
  have hreport := hw.report_eq (some (.done (m.answer.map fun _ => ()))) hevents hlog
  rw [extend, extend, ← hresult]
  exact hreport

theorem start_alike {e : EntryLayout} {s s' : Strategy} (hs : s.Twin e.keySize s') (o : Origin)
    (heap : σ) : (start A e s o heap).1 = (start A e s' o heap).1 ∧
      (start A e s o heap).2.Alike e.keySize (start A e s' o heap).2 :=
  extend_alike .nil (o.make_twin A hs heap)

theorem act_alike (h : w.Alike size w') (ha : a.Twin size a') :
    (w.act A a).1 = (w'.act A a').1 ∧ (w.act A a).2.Alike size (w'.act A a').2 := by
  cases ha with
  | on i hc =>
    rw [act, act]
    rcases forall₂_getElem? h.2 i with ⟨ht, hu⟩ | ⟨t, u, ht, hu, htu⟩
    · rw [ht, hu]
      exact ⟨h.report_eq none rfl rfl, h⟩
    · obtain ⟨hanswer, hheap, hevents, hlog, hafter⟩ := htu.apply A hc w.heap
      rw [ht, hu, ← h.1]
      dsimp only
      have hw : Session.Alike size ⟨w.tables.set i _, _⟩ ⟨w'.tables.set i _, _⟩ :=
        ⟨hheap, forall₂_set h.2 hafter i⟩
      rw [hanswer]
      exact ⟨hw.report_eq _ hevents hlog, hw⟩
  | copy i =>
    rw [act, act]
    rcases forall₂_getElem? h.2 i with ⟨ht, hu⟩ | ⟨t, u, ht, hu, htu⟩
    · rw [ht, hu]
      exact ⟨h.report_eq none rfl rfl, h⟩
    · rw [ht, hu, ← h.1]
      exact extend_alike h.2 (htu.copy A w.heap)

theorem run_alike (h : w.Alike size w') (has : List.Forall₂ (Action.Twin size) as as') :
    (run A as w).1 = (run A as' w').1 ∧ (run A as w).2.Alike size (run A as' w').2 := by
  induction has generalizing w w' with
  | nil => exact ⟨rfl, h⟩
  | cons ha _ ih =>
    obtain ⟨hreport, hw⟩ := act_alike A h ha
    obtain ⟨hreports, hlast⟩ := ih hw
    rw [run, run, hreport, hreports]
    exact ⟨rfl, hlast⟩

end Session

end

/-- **The hash shows in the order of the slots only.** Sessions with twin strategies give the same
reports, and in the end their tables list the same entries, each in an order of its own. -/
theorem hash_independence {σ : Type} (A : Allocator σ) {e : EntryLayout} {s s' : Strategy}
    (hs : s.Twin e.keySize s') (o : Origin) (heap : σ) {as as' : List Action}
    (has : List.Forall₂ (Action.Twin e.keySize) as as') :
    (Session.start A e s o heap).1 = (Session.start A e s' o heap).1 ∧
      ((Session.start A e s o heap).2.run A as).1 = ((Session.start A e s' o heap).2.run A as').1 ∧
      ((Session.start A e s o heap).2.run A as).2.heap =
        ((Session.start A e s' o heap).2.run A as').2.heap ∧
      List.Forall₂ (fun t u : Table => t.cursor.drain.Perm u.cursor.drain)
        ((Session.start A e s o heap).2.run A as).2.tables
        ((Session.start A e s' o heap).2.run A as').2.tables := by
  obtain ⟨hreport, hstart⟩ := Session.start_alike A hs o heap
  obtain ⟨hreports, hheap, htables⟩ := Session.run_alike A hstart has
  exact ⟨hreport, hreports, hheap, htables.imp fun t u h => h.drain_perm⟩

/-- Two keys are stored and the table is copied; the copy loses one of them, and the first table takes
a new strategy. -/
def copyingActions (s : Strategy) : List Action :=
  [.on 0 (.insert [1] [2]), .on 0 (.insert [3] [4]), .copy 0,
    .on 1 (.each (fun _ _ value => ⟨(), value.map (· + 1), false⟩) ()),
    .on 1 (.filter (fun _ key _ => (key != [1], ())) ()), .on 0 .clear, .on 0 (.setStrategy s),
    .on 0 (.set [5] [6]), .on 2 (.get [5])]

theorem hash_independence_copying :
    ((Session.start Allocator.unlimited ⟨1, 1, 1, 1⟩ (.ofHash "" fun _ => 0) .empty ()).2.run
        Allocator.unlimited (copyingActions (.ofHash "" fun _ => 7))).1 =
      ((Session.start Allocator.unlimited ⟨1, 1, 1, 1⟩
        (.ofHash "" fun key => (key.headD 0).toUInt64) .empty ()).2.run
          Allocator.unlimited (copyingActions (.ofHash "" fun key => (key.headD 1).toUInt64))).1 := by
  have htwin : ∀ hash hash' : Bytes → UInt64,
      (Strategy.ofHash "" hash).Twin 1 (Strategy.ofHash "" hash') := fun hash hash' =>
    ⟨Strategy.lawful_ofHash "" hash 1, Strategy.lawful_ofHash "" hash' 1, fun _ _ _ _ => rfl⟩
  have has : ∀ s s' : Strategy, s.Twin 1 s' →
      List.Forall₂ (Action.Twin 1) (copyingActions s) (copyingActions s') := fun s s' h =>
    .cons (.on 0 (.same trivial)) <| .cons (.on 0 (.same trivial)) <| .cons (.copy 0) <|
      .cons (.on 1 (.same ⟨fun _ value => value.map (· + 1), fun _ _ _ => rfl⟩)) <|
      .cons (.on 1 (.same ⟨fun key _ => key != [1], fun _ _ _ => rfl⟩)) <|
      .cons (.on 0 (.same trivial)) <| .cons (.on 0 (.setStrategy h)) <|
      .cons (.on 0 (.same trivial)) <| .cons (.on 2 (.same trivial)) .nil
  exact (hash_independence Allocator.unlimited (htwin _ _) .empty () (has _ _ (htwin _ _))).2.1

end TagTable
