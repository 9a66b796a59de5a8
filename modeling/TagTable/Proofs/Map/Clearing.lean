import TagTable.Proofs.Map.HashIndependence
import TagTable.Proofs.Run.Agreement
import TagTable.Proofs.Run.Fresh
import TagTable.Proofs.Run.Requests
import TagTable.Proofs.Table.CursorAgreement
import TagTable.Table.Debug
import TagTable.Table.ProbeLength
import TagTable.Table.Stats

/-!
# Clearing forgets

A cleared table cannot be told from one that never held an entry.

* `Table.Sight`, `Table.sight`: all that a table shows without being changed; `Table.Agree.sight_eq`;
* `Session.Frame`, `Session.frame`, **`Session.film`**: all that actions on tables show;
* **`Session.Agree.frame`**, `Session.Agree.film_eq`: tables that differ in stale bytes show the same;
* **`clearing_forgets`**: so do a cleared table and a fresh one.
-/

namespace TagTable

/-! ## What a table shows -/

/-- All that a table shows without being changed. -/
structure Table.Sight where
  entryLayout : EntryLayout
  geometry : Geometry
  strategy : Strategy
  /-- The number of entries, the capacity and the number of tombstones. -/
  sizes : Nat × Nat × Nat
  /-- The block of the buffer, which is given back in the end. -/
  block : Option Block
  stats : Stats
  /-- The entries in the order of an iteration. -/
  entries : List Entry
  /-- What uses of a new cursor show. -/
  cursor : List Cursor.Move → List (Cursor.Find × Nat × (Style → String))
  probeLengths : Reply (List Nat)
  probeReport : Reply (List String)
  debugText : Style → String

namespace Table

/-- All that can be seen of a table. -/
def sight (t : Table) : Sight :=
  { entryLayout := t.entryLayout
    geometry := t.geometry
    strategy := t.strategy
    sizes := t.sizes
    block := t.block?
    stats := t.stats
    entries := t.cursor.drain
    cursor := fun moves => t.cursor.watch moves
    probeLengths := t.probeLengths
    probeReport := t.probeReport
    debugText := fun style => t.debugText style }

namespace Agree

variable {t u : Table}

theorem sizes_eq (h : t.Agree u) : u.sizes = t.sizes := by
  have hcapacity := h.capacity_eq
  obtain ⟨h⟩ := h
  rw [sizes, sizes, hcapacity]

theorem cursor (h : t.Agree u) : t.cursor.Agree u.cursor := by
  have hnone : SlotSet.none.toList = [] := SlotSet.any_eq_false.1 rfl
  obtain ⟨h⟩ := h
  refine .intro (c := t.cursor) h fun _ i hi => ?_
  rw [show t.cursor.current = SlotSet.none from rfl, hnone] at hi
  exact absurd hi List.not_mem_nil

theorem entriesByGroup_eq (h : t.Agree u) : u.entriesByGroup = t.entriesByGroup := by
  rw [entriesByGroup, entriesByGroup, h.groups.size_eq]
  congr 1
  funext g
  rw [groupAt, (h.groups.getD g).entries_eq, groupAt]

theorem probeLengths_eq (h : t.Agree u) : u.probeLengths = t.probeLengths := by
  have hentries := h.entriesByGroup_eq
  have hsize := h.groups.size_eq
  obtain ⟨h⟩ := h
  rw [probeLengths, probeLengths]
  dsimp only at hsize ⊢
  rw [hentries, hsize]

theorem slotsTexts_eq (h : t.Agree u) :
    u.groups.toList.map (fun g => quote g.tags.slotsText) =
      t.groups.toList.map fun g => quote g.tags.slotsText := by
  have hrow := h.groups
  rw [RowsAgree] at hrow
  generalize t.groups.toList = gs, u.groups.toList = gs' at hrow
  induction hrow with
  | nil => rfl
  | cons hgroup _ ih => rw [List.map_cons, List.map_cons, hgroup.tags, ih]

theorem debugText_eq (h : t.Agree u) (style : Style) : u.debugText style = t.debugText style := by
  have htexts := h.slotsTexts_eq
  have hcapacity := h.capacity_eq
  obtain ⟨h⟩ := h
  rw [debugText, debugText, hcapacity, htexts]

theorem stats_eq (h : t.Agree u) : u.stats = t.stats := by
  have hsize := h.groups.size_eq
  obtain ⟨h⟩ := h
  rw [stats, stats, totalBytes, totalBytes, capacity, capacity, hsize]
  rfl

theorem sight_eq (h : t.Agree u) (hi : t.Invariant) : u.sight = t.sight := by
  have hblock : u.block? = t.block? :=
    block?_congr (Shape.mk.inj h.shape_eq).1.symm h.groups.size_eq
  have hcursor : (fun moves => u.cursor.watch moves) = fun moves => t.cursor.watch moves :=
    funext fun moves => h.cursor.watch_eq moves
  have hreport : u.probeReport = t.probeReport := by
    rw [probeReport, probeReport, h.probeLengths_eq, (Shape.mk.inj h.shape_eq).2.2.1]
  have htext : (fun style => u.debugText style) = fun style => t.debugText style :=
    funext h.debugText_eq
  rw [sight, h.sizes_eq, hblock, h.stats_eq, h.drain_eq hi, hcursor, h.probeLengths_eq, hreport, htext]
  obtain ⟨h⟩ := h
  rfl

end Agree

end Table

/-! ## What actions show -/

namespace Session

variable {σ : Type} (A : Allocator σ)

/-- The uses of a strategy that an action makes. -/
def calls (w : Session σ) : Action → List Call
  | .on i c =>
    match w.tables[i]? with
    | none => []
    | some t => (t.apply A c w.heap).trace.calls
  | .copy i =>
    match w.tables[i]? with
    | none => []
    | some t => (t.copy A w.heap).trace.calls

/-- All that an action shows: its report, the uses of a strategy, the state of the allocator and what
the tables show afterwards. -/
structure Frame (σ : Type) : Type 1 where
  report : Report
  calls : List Call
  heap : σ
  tables : List Table.Sight

/-- What an action at a session shows. -/
def frame (w : Session σ) (a : Action) : Frame σ :=
  { report := (w.act A a).1
    calls := w.calls A a
    heap := (w.act A a).2.heap
    tables := (w.act A a).2.tables.map Table.sight }

/-- **All that actions one after the other show.** -/
def film : List Action → Session σ → List (Frame σ)
  | [], _ => []
  | a :: rest, w => w.frame A a :: film rest (w.act A a).2

/-- Sessions with the same state of the allocator, whose tables differ in stale bytes only. -/
structure Agree (w w' : Session σ) : Prop where
  heap : w'.heap = w.heap
  tables : List.Forall₂ (fun t u : Table => t.Invariant ∧ t.Agree u) w.tables w'.tables

namespace Agree

variable {A} {w w' : Session σ}

theorem sights_eq (h : w.Agree w') : w'.tables.map Table.sight = w.tables.map Table.sight := by
  have htables := h.tables
  generalize w.tables = l, w'.tables = l' at htables ⊢
  induction htables with
  | nil => rfl
  | cons hab _ ih => rw [List.map_cons, List.map_cons, hab.2.sight_eq hab.1, ih]

theorem report_eq (h : w.Agree w') (answer : Option Answer) (trace : Trace) :
    w'.report answer trace = w.report answer trace := by
  have hsizes := congrArg (List.map Table.Sight.sizes) h.sights_eq
  rw [List.map_map, List.map_map] at hsizes
  exact congrArg (Report.mk answer trace.heap trace.log) hsizes

theorem copy {t u : Table} (h : w.Agree w') (hi : t.Invariant) (htu : t.Agree u) :
    (extend w'.tables (u.copy A w.heap)).1 = (extend w.tables (t.copy A w.heap)).1 ∧
      (extend w.tables (t.copy A w.heap)).2.Agree (extend w'.tables (u.copy A w.heap)).2 := by
  obtain ⟨hanswer, hheap, htrace⟩ := Table.copy_seen A htu.shape_eq w.heap
  have hnew : List.Forall₂ (fun t u : Table => t.Invariant ∧ t.Agree u)
      (t.copy A w.heap).answer.toOption.toList (u.copy A w.heap).answer.toOption.toList := by
    rcases hanswer with ⟨error, ht, hu⟩ | ⟨ht, hu⟩
    · rw [ht, hu]
      exact .nil
    · rw [ht, hu]
      exact .cons ⟨hi, htu⟩ .nil
  have hresult : (u.copy A w.heap).answer.map (fun _ => ()) =
      (t.copy A w.heap).answer.map fun _ => () := by
    rcases hanswer with ⟨error, ht, hu⟩ | ⟨ht, hu⟩
    · rw [ht, hu]
    · rw [ht, hu]
      rfl
  have hw : Session.Agree (extend w.tables (t.copy A w.heap)).2
      (extend w'.tables (u.copy A w.heap)).2 :=
    ⟨hheap.symm, List.rel_append h.tables hnew⟩
  have hreport := hw.report_eq (some (.done ((t.copy A w.heap).answer.map fun _ => ())))
    (t.copy A w.heap).trace
  refine ⟨?_, hw⟩
  rw [extend, extend, hresult, ← htrace]
  exact hreport

/-- **An action does the same in both sessions.** -/
theorem act (h : w.Agree w') (a : Action) :
    (w'.act A a).1 = (w.act A a).1 ∧ w'.calls A a = w.calls A a ∧
      (w.act A a).2.Agree (w'.act A a).2 := by
  cases a with
  | on i c =>
    rw [Session.act, Session.act, calls, calls]
    rcases forall₂_getElem? h.tables i with ⟨ht, hu⟩ | ⟨t, u, ht, hu, hi, htu⟩
    · rw [ht, hu]
      exact ⟨h.report_eq none .empty, rfl, h⟩
    · obtain ⟨v, hv, heq⟩ := htu.apply A hi c w.heap
      rw [ht, hu, h.heap]
      dsimp only
      rw [heq]
      have hw : Session.Agree ⟨w.tables.set i (t.apply A c w.heap).after, (t.apply A c w.heap).heap⟩
          ⟨w'.tables.set i v, (t.apply A c w.heap).heap⟩ :=
        ⟨rfl, forall₂_set h.tables ⟨hi.apply A c w.heap, hv⟩ i⟩
      exact ⟨hw.report_eq _ _, rfl, hw⟩
  | copy i =>
    rw [Session.act, Session.act, calls, calls]
    rcases forall₂_getElem? h.tables i with ⟨ht, hu⟩ | ⟨t, u, ht, hu, hi, htu⟩
    · rw [ht, hu]
      exact ⟨h.report_eq none .empty, rfl, h⟩
    · have htrace := (Table.copy_seen A htu.shape_eq w.heap).2.2
      rw [ht, hu, h.heap]
      dsimp only
      rw [← htrace]
      exact ⟨(h.copy hi htu).1, rfl, (h.copy hi htu).2⟩

/-- **All that actions show is the same in both sessions.** -/
theorem film_eq (h : w.Agree w') (as : List Action) : w'.film A as = w.film A as := by
  induction as generalizing w w' with
  | nil => rfl
  | cons a as ih =>
    obtain ⟨hreport, hcalls, hact⟩ := h.act a
    rw [film, film, frame, frame, hreport, hcalls, hact.heap, hact.sights_eq, ih hact]

end Agree

end Session

/-! ## Cleared tables -/

/-- A cleared table and a fresh one of its layout, strategy and capacity differ in stale bytes only. -/
theorem Table.clear_agree_fresh {σ : Type} {A : Allocator σ} {o : Origin} {heap : σ} {t u : Table}
    (hi : t.Invariant) (hu : (o.make A t.entryLayout t.strategy heap).answer = .ok u)
    (hcapacity : u.capacity = t.capacity) : t.clear.Agree u := by
  obtain ⟨x, n, hx, rfl⟩ := Origin.make_fresh hu
  obtain rfl : t.geometry = x := Except.ok.inj (hi.geometry.symm.trans hx)
  have hn : n = t.groups.size := by
    rw [capacity, Array.size_replicate, capacity, groupSize] at hcapacity
    omega
  have hrow : RowsAgree (t.groups.map Group.wipe) ((Array.replicate n Group.empty).map Group.wipe) :=
    RowsAgree.wipe (by rw [Array.size_replicate, hn])
  rw [Array.map_replicate] at hrow
  exact .intro (t := t.clear) hrow

/-- **Clearing forgets everything.** A cleared table shows what a first table of its layout, strategy
and capacity shows, of which there is one, and so do all further actions on it and on its copies. -/
theorem clearing_forgets {t : Table} (ht : Reachable t) :
    (∃ o u, (Origin.make Allocator.unlimited t.entryLayout t.strategy o ()).answer = .ok u ∧
      u.capacity = t.capacity) ∧
    ∀ (σ : Type) (A : Allocator σ) (o : Origin) (heap : σ) (u : Table),
      (o.make A t.entryLayout t.strategy heap).answer = .ok u → u.capacity = t.capacity →
      t.clear.sight = u.sight ∧
        ∀ (υ : Type) (B : Allocator υ) (as : List Action) (heap : υ),
          Session.film B as ⟨[t.clear], heap⟩ = Session.film B as ⟨[u], heap⟩ := by
  have hi := ht.invariant
  refine ⟨hi.exists_fresh, fun σ A o heap u hu hcapacity => ?_⟩
  have hagree := Table.clear_agree_fresh hi hu hcapacity
  refine ⟨(hagree.sight_eq hi.clear).symm, fun υ B as heap => ?_⟩
  have hsessions : Session.Agree ⟨[t.clear], heap⟩ ⟨[u], heap⟩ :=
    ⟨rfl, .cons ⟨hi.clear, hagree⟩ .nil⟩
  exact (hsessions.film_eq as).symm

/-- A table of one group for keys that are never equal, with slots that never held an entry. -/
def untouched : Table :=
  { bytewise ⟨"", fun _ => 0, fun _ _ => false⟩ with groups := Array.replicate 1 Group.empty }

theorem clearing_forgets_tripled :
    (tripled.clear.entryAt ⟨0, 0⟩ = ⟨[1], [2]⟩ ∧ untouched.entryAt ⟨0, 0⟩ = ⟨[], []⟩) ∧
      tripled.clear.sight = untouched.sight ∧
      Session.film Allocator.unlimited [.on 0 (.insert [1] [5]), .copy 0, .on 1 (.remove [1])]
          ⟨[tripled.clear], ()⟩ =
        Session.film Allocator.unlimited [.on 0 (.insert [1] [5]), .copy 0, .on 1 (.remove [1])]
          ⟨[untouched], ()⟩ := by
  have hmade : ((Origin.withRoom 1).make Allocator.unlimited tripled.entryLayout tripled.strategy
      ()).answer = .ok untouched := by
    with_unfolding_all rfl
  have h := (clearing_forgets reachable_tripled).2 Unit Allocator.unlimited (.withRoom 1) ()
    untouched hmade (by decide +kernel)
  exact ⟨by decide +kernel, h.1, h.2 Unit _ _ ()⟩

end TagTable
