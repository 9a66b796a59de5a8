import TagTable.Proofs.Run.Reading
import TagTable.Proofs.Table.SlotOrder
import TagTable.Proofs.Typed.Command
import TagTable.Typed.Number

/-!
# Skips against steps

Skips of cursors agree with steps one after the other, for tables and for maps.

* `Map.Cursor.Move`, `Map.Cursor.move`, `Map.Cursor.moveView`: the uses of a cursor of a map, and those of
  a part of its entries;
* `Map.Cursor.Before`: a cursor of a map before the pairs of a list; `Map.Cursor.Before.next`, `nth`;
* `Map.Cursor.Before.nthView`, **`Map.Cursor.reports_moveView`**: parts of entries;
* **`skips_agree_with_steps`**: the skips of all cursors of reachable tables.
-/

namespace TagTable

namespace Map

namespace Cursor

/-- A use of a cursor of a map. -/
inductive Move where
  | next
  | nth (n : Nat)

/-- The number of pairs that a use passes over. -/
def Move.skipped : Move → Nat
  | .next => 0
  | .nth n => n

variable {K V α : Type} [Plain K] [Plain V]

/-- A use of a typed cursor. -/
def move (c : Cursor K V) : Move → Option (K × V) × Cursor K V
  | .next => c.next
  | .nth n => c.nth n

/-- A use of a cursor that shows a part of the pairs only. -/
def moveView (view : K × V → α) (c : Cursor K V) : Move → Option α × Cursor K V
  | .next => c.nextView view
  | .nth n => nthView view n c

/-- A cursor that has the pairs of a list yet to pass, and counts them. -/
inductive Before : Cursor K V → List (K × V) → Prop
  | intro {c : Cursor K V} {size : Nat} {l : List Entry} (h : c.raw.Before size l) :
    Before c (l.map (decodeEntry K V))

variable {c : Cursor K V} {pairs : List (K × V)}

theorem passes_decode {size n : Nat} {l : List Entry} {step : Option Entry × TagTable.Cursor}
    (h : Passes (TagTable.Cursor.Before size) l n step) :
    Passes Before (l.map (decodeEntry K V)) n (step.1.map (decodeEntry K V), ⟨step.2⟩) := by
  refine ⟨?_, ?_⟩
  · rw [h.found, List.getElem?_map]
  · rw [← List.map_drop]
    exact .intro h.rest

namespace Before

theorem counted (h : c.Before pairs) : c.remaining = pairs.length := by
  obtain ⟨h⟩ := h
  exact h.counted.trans (List.length_map _).symm

theorem next (h : c.Before pairs) : Passes Before pairs 0 c.next := by
  obtain ⟨h⟩ := h
  exact passes_decode h.next

theorem nth (h : c.Before pairs) (n : Nat) : Passes Before pairs n (c.nth n) := by
  obtain ⟨h⟩ := h
  exact passes_decode (h.nth n)

theorem move (h : c.Before pairs) (m : Move) : Passes Before pairs m.skipped (c.move m) := by
  cases m with
  | next => exact h.next
  | nth n => exact h.nth n

theorem iterates :
    Iterates Cursor.next Cursor.nth Cursor.remaining (Before : Cursor K V → List (K × V) → Prop) :=
  ⟨fun h => h.next, fun h n => h.nth n, fun h => h.counted⟩

theorem nthView (view : K × V → α) (h : c.Before pairs) (n : Nat) :
    (Cursor.nthView view n c).1 = pairs[n]?.map view ∧
      (Cursor.nthView view n c).2.Before (pairs.drop (n + 1)) := by
  obtain ⟨hfound, hrest⟩ := h.next
  induction n generalizing c pairs with
  | zero => exact ⟨congrArg (Option.map view) hfound, hrest⟩
  | succ n ih =>
    rw [Cursor.nthView]
    generalize c.next = step at hfound hrest
    obtain ⟨_, d⟩ := step
    obtain rfl := hfound
    cases pairs with
    | nil => exact ⟨rfl, hrest⟩
    | cons pair pairs => exact ih hrest hrest.next.found hrest.next.rest

theorem moveView (view : K × V → α) (h : c.Before pairs) (m : Move) :
    (c.moveView view m).1 = pairs[m.skipped]?.map view ∧
      (c.moveView view m).2.Before (pairs.drop (m.skipped + 1)) := by
  cases m with
  | next => exact h.nthView view 0
  | nth n => exact h.nthView view n

end Before

/-- **The uses of a part of the pairs report that part of what the uses of the pairs report.** -/
theorem reports_moveView (view : K × V → α) (h : c.Before pairs) (ms : List Move) :
    reports (moveView view) remaining ms c =
      (reports move remaining ms c).map fun r => (r.1.map view, r.2) := by
  refine reports_map (Option.map view)
    (S := fun c d : Cursor K V => ∃ pairs, c.Before pairs ∧ d.Before pairs) ?_ ?_ ms ⟨pairs, h, h⟩
  · rintro c d m ⟨pairs, h, h'⟩
    obtain ⟨hshown, hrest⟩ := h'.moveView view m
    exact ⟨hshown.trans (congrArg _ (h.move m).found.symm), _, (h.move m).rest, hrest⟩
  · rintro c d ⟨pairs, h, h'⟩
    exact h'.counted.trans h.counted.symm

end Cursor

theorem before_cursor {K V : Type} [Plain K] [Plain V] (m : Map K V) (hi : m.table.Invariant) :
    m.cursor.Before (m.table.entries.map (decodeEntry K V)) :=
  .intro hi.before_cursor

end Map

/-- **Skips agree with steps.** After any uses of a cursor a skip over `n` entries gives what the last
of `n + 1` steps gives, and no later uses tell the two apart; and so it is with the cursors of a map,
their keys and their values. -/
theorem skips_agree_with_steps :
    (∀ t : Table, Reachable t →
      (t.slots.Pairwise Position.Precedes ∧ ∀ p, p ∈ t.slots ↔ 2 ≤ t.tagAt p) ∧
      Yields Cursor.next Cursor.remaining (t.slots.map t.entryAt) t.cursor ∧
      ∀ ms : List Cursor.Move,
        let c := after Cursor.move ms t.cursor
        let p := Cursor.consumed t.geometry.valueSize ms t.count
        Yields Cursor.next Cursor.remaining ((t.slots.map t.entryAt).drop p) c ∧
        Skips Cursor.move Cursor.remaining Cursor.next Cursor.nth c) ∧
    ∀ (K V : Type) [Plain K] [Plain V] (m : Map K V), Reachable m.table →
      ∀ ms : List Map.Cursor.Move,
        let pairs := (m.table.slots.map m.table.entryAt).map (Map.decodeEntry K V)
        let c := after Map.Cursor.move ms m.cursor
        let p := (ms.map fun u => u.skipped + 1).sum
        Yields Map.Cursor.next Map.Cursor.remaining (pairs.drop p) c ∧
        Skips Map.Cursor.move Map.Cursor.remaining Map.Cursor.next Map.Cursor.nth c ∧
        ∀ (α : Type) (view : K × V → α),
          reports (Map.Cursor.moveView view) Map.Cursor.remaining ms m.cursor =
            (reports Map.Cursor.move Map.Cursor.remaining ms m.cursor).map fun r =>
              (r.1.map view, r.2) := by
  refine ⟨fun t ht => ?_, fun K V _ _ m hm ms => ?_⟩
  · have hbefore := ht.invariant.before_cursor
    rw [ht.invariant.count_eq_length, ← t.entries_eq_map_slots]
    refine ⟨⟨t.slots_precede, t.mem_slots⟩, hbefore.yields, fun ms => ?_⟩
    exact ⟨(hbefore.after ms).yields, (hbefore.after ms).skips⟩
  · have hbefore := m.before_cursor hm.invariant
    rw [← m.table.entries_eq_map_slots]
    have hafter := Passes.after (R := Map.Cursor.Before) (fun h u => h.move u) hbefore ms
    exact ⟨Map.Cursor.Before.iterates.yields hafter,
      Map.Cursor.Before.iterates.skips (fun h u => ⟨(h.move u).found, (h.move u).rest⟩) hafter,
      fun α view => Map.Cursor.reports_moveView view hbefore ms⟩

/-- A map of bytes with five entries in three of four groups, and with a tombstone. A key is its own
hash. -/
def scattered : Map UInt8 UInt8 :=
  (Map.run Allocator.unlimited
    [.reserve 30, .insert 0 10, .insert 4 14, .insert 8 18, .insert 2 12, .insert 6 16, .insert 3 13,
      .remove 4] ⟨bytewise (.ofHash "" fun key => (key.headD 0).toUInt64)⟩ ()).1

theorem reachable_scattered : Reachable scattered.table :=
  Map.reachable_run _ _ _ (reachable_bytewise _)

theorem skips_agree_with_steps_scattered :
    let c := after Cursor.move [.next] scattered.table.cursor
    (c.remaining = 4 ∧ (c.nth 2).1 = some ⟨[6], [16]⟩) ∧
      (stepOver Cursor.next 2 c).1 = some ⟨[6], [16]⟩ ∧
      (stepOver Cursor.next 2 c).2.remaining = 1 ∧
      reports (Map.Cursor.moveView Prod.fst) Map.Cursor.remaining [.nth 1, .next, .nth 7]
        scattered.cursor = [(some 8, 3), (some 2, 2), (none, 0)] := by
  intro c
  have hc : c.remaining = 4 ∧ (c.nth 2).1 = some ⟨[6], [16]⟩ ∧ (c.nth 2).2.remaining = 1 := by
    decide +kernel
  have hiter : reports Map.Cursor.move Map.Cursor.remaining [.nth 1, .next, .nth 7] scattered.cursor =
      [(some (8, 18), 3), (some (2, 12), 2), (none, 0)] := by
    decide +kernel
  obtain ⟨-, -, hskips⟩ := skips_agree_with_steps.1 _ reachable_scattered
  obtain ⟨-, -, hviews⟩ := skips_agree_with_steps.2 UInt8 UInt8 _ reachable_scattered
    [.nth 1, .next, .nth 7]
  obtain ⟨-, hfound, halike⟩ := hskips [.next]
  refine ⟨⟨hc.1, hc.2.1⟩, (hfound 2).symm.trans hc.2.1, (halike 2).counted.symm.trans hc.2.2, ?_⟩
  rw [hviews, hiter]
  rfl

end TagTable
