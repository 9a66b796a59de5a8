import TagTable.Proofs.Table.CursorAgreement
import TagTable.Proofs.Table.Skipping

/-!
# The counters of a cursor in words

A cursor counts the upcoming groups and the entries that are left, and a skip counts the entries that it
has yet to pass. Here every sum and every difference of these counters is one of 64-bit words, and the
computation ends without a result when one of them is not a word.

* `difference?`, `Cursor.advanceInWords`, `stepInWords`, `nextInWords`, `skipInWords`, `nthInWords`,
  `readValueInWords`, `moveInWords`: the uses of a cursor with their counters in words;
* `Cursor.skipInWords_eq`: a skip subtracts no more than it has compared before;
* **`Cursor.moveInWords_eq`**: over fewer groups than there are words every use has its result.
-/

namespace TagTable

/-- The difference of two words, which must not be below zero. -/
def difference? (n m : Nat) : Option Nat := if m ≤ n then some (n - m) else none

theorem difference?_eq_some {n m : Nat} (h : m ≤ n) : difference? n m = some (n - m) := if_pos h

namespace Cursor

/-! ## Uses of a cursor -/

/-- The way to the next group with entries. -/
def advanceInWords : Nat → Cursor → Option (Bool × Cursor)
  | 0, c => some (false, c)
  | visits + 1, c =>
    if c.upcoming < c.groups.size then do
      let full := (c.groups.getD c.upcoming Group.empty).tags.live
      let upcoming ← checked (c.upcoming + 1)
      let c := { c with group := c.upcoming, upcoming }
      if full.any then some (true, { c with current := full }) else advanceInWords visits c
    else some (false, c)

/-- The way to the next group, for which the number of upcoming groups only bounds a loop. -/
def enterNextInWords (c : Cursor) : Option (Bool × Cursor) :=
  c.advanceInWords (c.groups.size - c.upcoming)

/-- A step inside the present group. -/
def stepInWords (c : Cursor) : Option (Option (Entry × Cursor)) :=
  match c.current.next with
  | none => some none
  | some (i, rest) => do
    let remaining ← difference? c.remaining 1
    some (some ((c.groups.getD c.group Group.empty).cells[i],
      { c with current := rest, remaining }))

/-- The next entry. -/
def nextInWords (c : Cursor) : Option (Option Entry × Cursor) :=
  if c.remaining = 0 then some (none, c)
  else do
    match ← c.stepInWords with
    | some (e, c) => some (some e, c)
    | none =>
      let (found, c) ← c.enterNextInWords
      match found, ← c.stepInWords with
      | true, some (e, c) => some (some e, c)
      | _, _ => some (none, { c with remaining := 0 })

/-- The entry after `n` others, found by passing over at most `visits` groups. -/
def skipInWords (visits n : Nat) (c : Cursor) : Option (Option Entry × Cursor) :=
  if n < c.current.count then do
    let c := c.dropCurrent n
    let remaining ← difference? c.remaining n
    nextInWords { c with remaining }
  else do
    let left ← difference? n c.current.count
    let remaining ← difference? c.remaining c.current.count
    let c := { c with remaining }
    match visits with
    | 0 => some (none, { c with remaining := 0 })
    | visits + 1 =>
      match ← c.enterNextInWords with
      | (true, c) => skipInWords visits left c
      | (false, c) => some (none, { c with remaining := 0 })

/-- The entry after `n` others. -/
def nthInWords (c : Cursor) (n : Nat) : Option (Option Entry × Cursor) :=
  if c.remaining ≤ n then
    some (none, { c with remaining := 0, current := SlotSet.none, upcoming := c.groups.size })
  else c.skipInWords (c.groups.size - c.upcoming) n

/-- The value of the entry after `skip` others, written over a buffer. -/
def readValueInWords (c : Cursor) (buffer : Bytes) (skip : Nat) :
    Option (Except Error Unit × Bytes × Cursor) :=
  if buffer.length = c.valueSize then do
    match ← c.nthInWords skip with
    | (some e, c) => some (.ok (), Bytes.writeOver buffer e.value, c)
    | (none, c) => some (.error .noMoreData, buffer, c)
  else some (.error .invalidArgument, buffer, c)

/-- A use of a cursor. -/
def moveInWords (c : Cursor) : Move → Option (Find × Cursor)
  | .next => c.nextInWords.map fun (entry, c) => (.entry entry, c)
  | .nth n => (c.nthInWords n).map fun (entry, c) => (.entry entry, c)
  | .readValue buffer skip =>
    (c.readValueInWords buffer skip).map fun (result, buffer, c) => (.value result buffer, c)

/-! ## No counter leaves the words -/

variable {c : Cursor}

theorem advanceInWords_eq (visits : Nat) (hword : c.groups.size < wordBound) :
    c.advanceInWords visits = some (c.advance visits) := by
  induction visits generalizing c with
  | zero => rfl
  | succ visits ih =>
    rw [advanceInWords, advance]
    by_cases hlt : c.upcoming < c.groups.size
    · -- The group that is counted is one of the row, so the count stays within their number.
      have hsum : checked (c.upcoming + 1) = some (c.upcoming + 1) :=
        checked_eq_some_iff.2 ⟨by omega, rfl⟩
      rw [if_pos hlt, if_pos hlt, hsum]
      simp only [Option.bind_eq_bind, Option.bind_some]
      by_cases hany : (c.groups.getD c.upcoming Group.empty).tags.live.any = true
      · rw [if_pos hany, if_pos hany]
      · rw [if_neg hany, if_neg hany]
        exact ih hword
    · rw [if_neg hlt, if_neg hlt]

theorem enterNextInWords_eq (hword : c.groups.size < wordBound) :
    c.enterNextInWords = some c.enterNext := advanceInWords_eq _ hword

theorem stepInWords_eq (h : 0 < c.remaining) : c.stepInWords = some c.step? := by
  rw [stepInWords, step?, difference?_eq_some h]
  cases c.current.next <;> rfl

/-- With no entry counted as left, a slot of the present group has no step. -/
example : (stepInWords ⟨#[], 0, 0, 0, ⟨1⟩, 0⟩).isNone := by decide

theorem nextInWords_eq (hword : c.groups.size < wordBound) : c.nextInWords = some c.next := by
  rw [nextInWords, next]
  by_cases hzero : c.remaining = 0
  · rw [if_pos hzero, if_pos hzero]
  · -- The way to the next group takes no entry, so one is left for the step after it.
    have hleft : 0 < c.enterNext.2.remaining := by
      rw [enterNext_remaining]
      omega
    rw [if_neg hzero, if_neg hzero, stepInWords_eq (by omega), enterNextInWords_eq hword]
    cases c.step? with
    | some step => rfl
    | none =>
      generalize c.enterNext = entered at hleft ⊢
      obtain ⟨found, d⟩ := entered
      simp only [Option.bind_eq_bind, Option.bind_some]
      rw [stepInWords_eq hleft]
      cases found <;> cases d.step? <;> rfl

theorem nextInWords_dropCurrent {n : Nat} (hword : c.groups.size < wordBound)
    (hn : n < c.remaining) :
    ((difference? (c.dropCurrent n).remaining n).bind fun remaining =>
        nextInWords { c.dropCurrent n with remaining }) =
      some (next { c.dropCurrent n with remaining := (c.dropCurrent n).remaining - n }) := by
  obtain ⟨s, hdrop, -⟩ := c.dropCurrent_eq n
  rw [hdrop, difference?_eq_some hn.le]
  exact nextInWords_eq (c := { c with current := s, remaining := c.remaining - n }) hword

/-- **A skip subtracts no more than it has compared before.** -/
theorem skipInWords_eq (visits : Nat) {n : Nat} (hword : c.groups.size < wordBound)
    (hn : n < c.remaining) : c.skipInWords visits n = some (c.skip visits n) := by
  induction visits generalizing c n with
  | zero =>
    rw [skipInWords, skip]
    by_cases hlt : n < c.current.count
    · rw [if_pos hlt, if_pos hlt]
      exact nextInWords_dropCurrent hword hn
    · rw [if_neg hlt, if_neg hlt, difference?_eq_some (by omega), difference?_eq_some (by omega)]
      rfl
  | succ visits ih =>
    rw [skipInWords, skip]
    by_cases hlt : n < c.current.count
    · rw [if_pos hlt, if_pos hlt]
      exact nextInWords_dropCurrent hword hn
    · rw [if_neg hlt, if_neg hlt, difference?_eq_some (by omega), difference?_eq_some (by omega)]
      simp only [Option.bind_eq_bind, Option.bind_some]
      -- The same is taken off both counters, so there are still more entries left than to pass.
      generalize hpassed : ({ c with remaining := c.remaining - c.current.count } : Cursor) = d
      have hgroups : d.groups.size < wordBound := by rwa [← hpassed]
      have hleft : n - c.current.count < d.enterNext.2.remaining := by
        rw [enterNext_remaining, ← hpassed]
        dsimp only
        omega
      have hsource : d.enterNext.2.groups = d.groups := (Prod.mk.inj d.enterNext_source).1
      rw [enterNextInWords_eq hgroups]
      generalize d.enterNext = entered at hleft hsource ⊢
      obtain ⟨found, e⟩ := entered
      cases found with
      | true => exact ih (by rwa [hsource]) hleft
      | false => rfl

theorem nthInWords_eq (hword : c.groups.size < wordBound) (n : Nat) :
    c.nthInWords n = some (c.nth n) := by
  rw [nthInWords, nth]
  by_cases hle : c.remaining ≤ n
  · rw [if_pos hle, if_pos hle]
  · rw [if_neg hle, if_neg hle, skipInWords_eq _ hword (Nat.lt_of_not_le hle)]

theorem readValueInWords_eq (hword : c.groups.size < wordBound) (buffer : Bytes) (skip : Nat) :
    c.readValueInWords buffer skip = some (c.readValue buffer skip) := by
  rw [readValueInWords, readValue, nthInWords_eq hword]
  by_cases hsize : buffer.length = c.valueSize
  · rw [if_pos hsize, if_pos hsize]
    generalize c.nth skip = found
    obtain ⟨_ | _, d⟩ := found <;> rfl
  · rw [if_neg hsize, if_neg hsize]

/-- **No use of a cursor leaves the words**, however many entries it skips. -/
theorem moveInWords_eq (hword : c.groups.size < wordBound) (m : Move) :
    c.moveInWords m = some (c.move m) := by
  cases m with
  | next => rw [moveInWords, nextInWords_eq hword]; rfl
  | nth n => rw [moveInWords, nthInWords_eq hword]; rfl
  | readValue buffer skip => rw [moveInWords, readValueInWords_eq hword]; rfl

/-! ## Uses one after the other -/

theorem move_groups (c : Cursor) (m : Move) : (c.move m).2.groups = c.groups := by
  cases m with
  | next => exact (Prod.mk.inj c.next_source).1
  | nth n => exact (Prod.mk.inj (c.nth_source n)).1
  | readValue buffer skip =>
    have hnth : (c.nth skip).2.groups = c.groups := (Prod.mk.inj (c.nth_source skip)).1
    rw [move, readValue]
    split_ifs
    · generalize c.nth skip = found at hnth ⊢
      obtain ⟨_ | _, d⟩ := found <;> exact hnth
    · rfl

theorem after_move_groups (ms : List Move) (c : Cursor) : (after move ms c).groups = c.groups := by
  induction ms generalizing c with
  | nil => rfl
  | cons m ms ih => exact (ih (c.move m).2).trans (c.move_groups m)

end Cursor

end TagTable
