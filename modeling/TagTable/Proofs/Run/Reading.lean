import TagTable.Proofs.Run.Reachable
import TagTable.Proofs.Table.Counters

/-!
# Reading with a cursor

Every use of a cursor as an access to the list of the entries that are left.

* `Cursor.Move.find`, `Cursor.Move.takes`: what a use finds in a list, and how many entries it takes;
  `Cursor.consumed`: what several uses take;
* `Table.Invariant.groups_lt_wordBound`: the groups of a table are fewer than there are words;
* `Cursor.Before.readValue_ok`, `readValue_short`, `readValue_size`: the outcomes of a read;
* **`Cursor.Before.move`**, `Cursor.Before.after`, `Cursor.Before.yields`: one use, several, and what is
  left then;
* **`reads_by_position`**: reads from a reachable table; `gapped`: a table with entries in three of its
  four groups.
-/

namespace TagTable

namespace Cursor

/-- The number of entries that a use takes, of those that are left. -/
def Move.takes (size left : Nat) : Move → Nat
  | .next => min 1 left
  | .nth n => min (n + 1) left
  | .readValue buffer skip => if buffer.length = size then min (skip + 1) left else 0

/-- What a use finds when the entries of a list are left. -/
def Move.find (size : Nat) (l : List Entry) : Move → Find
  | .next => .entry l[0]?
  | .nth n => .entry l[n]?
  | .readValue buffer skip =>
    if buffer.length = size then
      match l[skip]? with
      | some e => .value (.ok ()) e.value
      | none => .value (.error .noMoreData) buffer
    else .value (.error .invalidArgument) buffer

/-- The number of entries that uses one after the other take. -/
def consumed (size : Nat) : List Move → Nat → Nat
  | [], _ => 0
  | m :: ms, left => m.takes size left + consumed size ms (left - m.takes size left)

theorem consumed_le (size : Nat) (ms : List Move) (left : Nat) : consumed size ms left ≤ left := by
  induction ms generalizing left with
  | nil => exact Nat.zero_le left
  | cons m ms ih =>
    have htakes : m.takes size left ≤ left := by
      cases m with
      | next | nth => exact Nat.min_le_right ..
      | readValue buffer skip =>
        rw [Move.takes]
        split_ifs <;> omega
    have hrest := ih (left - m.takes size left)
    rw [consumed]
    omega

variable {c : Cursor} {size : Nat} {l : List Entry}

namespace Before

theorem readValue_size (h : c.Before size l) {buffer : Bytes} (hsize : buffer.length ≠ size)
    (skip : Nat) : c.readValue buffer skip = (.error .invalidArgument, buffer, c) := by
  rw [Cursor.readValue, h.sized, if_neg hsize]

theorem readValue_short (h : c.Before size l) {buffer : Bytes} (hsize : buffer.length = size)
    {skip : Nat} (hshort : l.length ≤ skip) :
    ∃ d, c.readValue buffer skip = (.error .noMoreData, buffer, d) ∧ d.Before size [] := by
  obtain ⟨hfound, hrest⟩ := h.nth skip
  rw [List.getElem?_eq_none hshort] at hfound
  rw [List.drop_of_length_le (by omega)] at hrest
  rw [Cursor.readValue, h.sized, if_pos hsize]
  generalize c.nth skip = step at hfound hrest
  obtain ⟨_, d⟩ := step
  obtain rfl := hfound
  exact ⟨d, rfl, hrest⟩

theorem readValue_ok (h : c.Before size l) {buffer : Bytes} (hsize : buffer.length = size)
    {skip : Nat} (hlt : skip < l.length) :
    ∃ d, c.readValue buffer skip = (.ok (), l[skip].value, d) ∧
      d.Before size (l.drop (skip + 1)) := by
  obtain ⟨hfound, hrest⟩ := h.nth skip
  have hlength : l[skip].value.length = buffer.length :=
    (h.sizes _ (List.getElem_mem hlt)).trans hsize.symm
  rw [List.getElem?_eq_getElem hlt] at hfound
  rw [Cursor.readValue, h.sized, if_pos hsize]
  generalize c.nth skip = step at hfound hrest
  obtain ⟨_, d⟩ := step
  obtain rfl := hfound
  exact ⟨d, by rw [← Bytes.writeOver_of_length_eq hlength], hrest⟩

/-- **A use finds what it should in the list, and takes its entries from it.** -/
theorem move (h : c.Before size l) (m : Move) :
    (c.move m).1 = m.find size l ∧
      (c.move m).2.Before size (l.drop (m.takes size l.length)) := by
  cases m with
  | next =>
    rw [Move.takes, ← List.drop_eq_drop_min]
    exact ⟨congrArg Find.entry h.next.found, h.next.rest⟩
  | nth n =>
    rw [Move.takes, ← List.drop_eq_drop_min]
    exact ⟨congrArg Find.entry (h.nth n).found, (h.nth n).rest⟩
  | readValue buffer skip =>
    rw [Cursor.move, Move.find, Move.takes]
    by_cases hsize : buffer.length = size
    · rw [if_pos hsize, if_pos hsize, ← List.drop_eq_drop_min]
      rcases Nat.lt_or_ge skip l.length with hlt | hge
      · obtain ⟨d, hread, hrest⟩ := h.readValue_ok hsize hlt
        rw [hread, List.getElem?_eq_getElem hlt]
        exact ⟨rfl, hrest⟩
      · obtain ⟨d, hread, hrest⟩ := h.readValue_short hsize hge
        rw [hread, List.getElem?_eq_none hge, List.drop_of_length_le (by omega)]
        exact ⟨rfl, hrest⟩
    · rw [if_neg hsize, if_neg hsize, h.readValue_size hsize]
      exact ⟨rfl, h⟩

theorem after (h : c.Before size l) (ms : List Move) :
    (TagTable.after Cursor.move ms c).Before size (l.drop (consumed size ms l.length)) := by
  induction ms generalizing c l with
  | nil => exact h
  | cons m ms ih =>
    have hrest := ih (h.move m).2
    rwa [List.length_drop, List.drop_drop] at hrest

theorem yields (h : c.Before size l) : Yields Cursor.next Cursor.remaining l c := iterates.yields h

theorem skips (h : c.Before size l) :
    Skips Cursor.move Cursor.remaining Cursor.next Cursor.nth c :=
  iterates.skips (fun h m => h.move m) h

end Before

end Cursor

/-- A buffer of so many groups would be larger than any block of memory. -/
theorem Table.Invariant.groups_lt_wordBound {t : Table} (hi : t.Invariant) :
    t.groups.size < wordBound := by
  have hle := hi.capacity_le
  unfold Table.capacity groupSize maxBlockSize at hle
  unfold wordBound
  omega

/-- **A read is an access to the list of entries by position.** After uses of a cursor that took `p`
entries in all, a read refuses a buffer of another size, finds no more data, or fills the buffer with
the value at position `p + skip`; and no counter leaves the 64-bit words. -/
theorem reads_by_position {t : Table} (ht : Reachable t) (ms : List Cursor.Move) :
    let size := t.geometry.valueSize
    let c := after Cursor.move ms t.cursor
    let p := Cursor.consumed size ms t.entries.length
    (p + c.remaining = t.entries.length ∧
      Yields Cursor.next Cursor.remaining (t.entries.drop p) c) ∧
    (∀ (buffer : Bytes) (skip : Nat),
      (buffer.length ≠ size → c.readValue buffer skip = (.error .invalidArgument, buffer, c)) ∧
      (buffer.length = size → c.remaining < skip + 1 →
        ∃ d, c.readValue buffer skip = (.error .noMoreData, buffer, d) ∧
          Yields Cursor.next Cursor.remaining [] d) ∧
      (buffer.length = size → ∀ hlt : p + skip < t.entries.length,
        ∃ d, c.readValue buffer skip = (.ok (), t.entries[p + skip].value, d) ∧
          Yields Cursor.next Cursor.remaining (t.entries.drop (p + (skip + 1))) d)) ∧
    ∀ m : Cursor.Move, c.moveInWords m = some (c.move m) := by
  intro size c p
  have hbefore : c.Before size (t.entries.drop p) := ht.invariant.before_cursor.after ms
  have hcounted : c.remaining = t.entries.length - p := hbefore.counted.trans List.length_drop
  have hle : p ≤ t.entries.length := Cursor.consumed_le size ms t.entries.length
  have hword : c.groups.size < wordBound := by
    rw [Cursor.after_move_groups]
    exact ht.invariant.groups_lt_wordBound
  refine ⟨⟨by omega, hbefore.yields⟩, fun buffer skip =>
    ⟨fun hsize => hbefore.readValue_size hsize skip, fun hsize hshort => ?_, fun hsize hlt => ?_⟩,
    Cursor.moveInWords_eq hword⟩
  · have hfew : (t.entries.drop p).length ≤ skip := by
      rw [← hbefore.counted]
      omega
    obtain ⟨d, hread, hrest⟩ := hbefore.readValue_short hsize hfew
    exact ⟨d, hread, hrest.yields⟩
  · have hmany : skip < (t.entries.drop p).length := by
      rw [← hbefore.counted]
      omega
    obtain ⟨d, hread, hrest⟩ := hbefore.readValue_ok hsize hmany
    rw [List.getElem_drop] at hread
    rw [List.drop_drop] at hrest
    exact ⟨d, hread, hrest.yields⟩

/-- Five entries in three of four groups, with a tombstone between the first two. A key is its own hash. -/
def gapped : Table :=
  ((bytewise (.ofHash "" fun key => (key.headD 0).toUInt64)).run Allocator.unlimited
    [.reserve 30, .insert [0] [10], .insert [4] [14], .insert [8] [18], .insert [2] [12],
      .insert [6] [16], .insert [3] [13], .remove [4]] ()).1

theorem reachable_gapped : Reachable gapped :=
  Reachable.run _ _ _ (reachable_bytewise _)

theorem gapped_entries : gapped.geometry.valueSize = 1 ∧ gapped.groups.size = 4 ∧
    gapped.entries = [⟨[0], [10]⟩, ⟨[8], [18]⟩, ⟨[2], [12]⟩, ⟨[6], [16]⟩, ⟨[3], [13]⟩] := by
  decide +kernel

/-- A read of the second value, one into no buffer and a step have consumed three entries. -/
theorem reads_by_position_gapped :
    let c := after Cursor.move [.readValue [0] 1, .readValue [] 0, .next] gapped.cursor
    c.remaining = 2 ∧
      c.readValue [] 0 = (.error .invalidArgument, [], c) ∧
      (∃ d, c.readValue [0] (2 ^ 64 - 1) = (.error .noMoreData, [0], d) ∧
        Yields Cursor.next Cursor.remaining [] d) ∧
      (∃ d, c.readValue [0] 1 = (.ok (), [13], d) ∧ Yields Cursor.next Cursor.remaining [] d) ∧
      c.moveInWords (.nth (2 ^ 64 - 1)) = some (c.move (.nth (2 ^ 64 - 1))) := by
  intro c
  have hreads := reads_by_position reachable_gapped [.readValue [0] 1, .readValue [] 0, .next]
  obtain ⟨hsize, -, hentries⟩ := gapped_entries
  rw [hsize, hentries] at hreads
  obtain ⟨⟨hcounted, -⟩, hread, hwords⟩ := hreads
  have hremaining : c.remaining = 2 := Nat.add_left_cancel (n := 3) hcounted
  refine ⟨hremaining, (hread [] 0).1 (by decide), (hread [0] (2 ^ 64 - 1)).2.1 rfl ?_,
    (hread [0] 1).2.2 rfl (by decide), hwords _⟩
  rw [hremaining]
  decide

end TagTable
