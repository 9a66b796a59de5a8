import TagTable.Proofs.Table.Traversal

/-!
# What visitors and predicates are shown

A traversal shows the entries of a table to a visitor or a predicate. That they are seen once each and
in order is said with one that also keeps a record.

* `Visit.map`, `Sweep.map`, `Selection.map`: a state seen through a map;
* **`Table.filter_map`**, **`Table.each_map`**: more state changes nothing that a traversal does;
* `tour`: the entries that a visitor is shown, with its answers; `judge`: those of a predicate;
* `visitEntries_eq`, `selectEntries_eq`: a traversal of a list by its answers;
* `recordVisits`, `recordAnswers`: a visitor and a predicate that record what they are shown;
  **`Table.each_recordVisits`**, **`Table.filter_recordAnswers`**: what the record is in the end.
-/

namespace TagTable

variable {τ υ γ : Type}

/-- A visit with another state. -/
def Visit.map (f : τ → υ) (v : Visit τ) : Visit υ := ⟨f v.state, v.value, v.stop⟩

/-- A tour with another state. -/
def Sweep.map (f : τ → υ) (s : Sweep τ γ) : Sweep υ γ := ⟨f s.state, s.after, s.stopped⟩

/-- A selection with another state. -/
def Selection.map (f : τ → υ) (s : Selection τ γ) : Selection υ γ := ⟨f s.state, s.after, s.removed⟩

/-! ## States seen through a map -/

section

variable {f : υ → τ} {visitor : τ → Bytes → Bytes → Visit τ} {visitor' : υ → Bytes → Bytes → Visit υ}
  {keep : τ → Bytes → Bytes → Bool × τ} {keep' : υ → Bytes → Bytes → Bool × υ}

theorem Group.each_map (h : ∀ s key value, visitor (f s) key value = (visitor' s key value).map f)
    (l : List SlotIndex) (s : υ) (g : Group) :
    g.each visitor l (f s) = (g.each visitor' l s).map f := by
  induction l generalizing s g with
  | nil => rfl
  | cons i l ih =>
    rw [Group.each, Group.each, h]
    by_cases hs : (visitor' s g.cells[i].key g.cells[i].value).stop = true
    · simp only [Visit.map, hs, if_true]
      rfl
    · simp only [Visit.map, hs, Bool.false_eq_true, if_false, ih]

theorem Group.filter_map (h : ∀ s key value, keep (f s) key value = (keep' s key value).map id f)
    (l : List SlotIndex) (s : υ) (g : Group) :
    g.filter keep l (f s) = (g.filter keep' l s).map f := by
  induction l generalizing s g with
  | nil => rfl
  | cons i l ih =>
    rw [Group.filter, Group.filter, h]
    rcases keep' s g.cells[i].key g.cells[i].value with ⟨_ | _, s'⟩
    · dsimp only [Prod.map, id]
      rw [ih]
      rfl
    · exact ih s' g

theorem eachGroup_map (h : ∀ s key value, visitor (f s) key value = (visitor' s key value).map f)
    (gs : List Group) (s : υ) : eachGroup visitor gs (f s) = (eachGroup visitor' gs s).map f := by
  induction gs generalizing s with
  | nil => rfl
  | cons g gs ih =>
    rw [eachGroup, eachGroup, Group.each_map h]
    by_cases hs : (g.each visitor' g.live s).stopped = true
    · simp only [Sweep.map, hs, if_true]
    · simp only [Sweep.map, hs, Bool.false_eq_true, if_false, ih]

theorem filterGroups_map (h : ∀ s key value, keep (f s) key value = (keep' s key value).map id f)
    (gs : List Group) (s : υ) : filterGroups keep gs (f s) = (filterGroups keep' gs s).map f := by
  induction gs generalizing s with
  | nil => rfl
  | cons g gs ih =>
    rw [filterGroups, filterGroups, Group.filter_map h]
    dsimp only [Selection.map]
    rw [ih]
    rfl

namespace Table

/-- **A visitor with more state that answers alike rewrites a table alike.** -/
theorem each_map (h : ∀ s key value, visitor (f s) key value = (visitor' s key value).map f)
    (t : Table) (s : υ) : t.each visitor (f s) = (t.each visitor' s).map f := by
  rw [each, each, eachGroup_map h]
  rfl

/-- **A predicate with more state that answers alike selects alike.** -/
theorem filter_map (h : ∀ s key value, keep (f s) key value = (keep' s key value).map id f)
    (t : Table) (s : υ) : t.filter keep (f s) = (t.filter keep' s).map f := by
  rw [filter, filter, filterGroups_map h]
  rfl

end Table

end

/-! ## The answers -/

variable (visitor : τ → Bytes → Bytes → Visit τ) (keep : τ → Bytes → Bytes → Bool × τ)

/-- The entries of a list up to the first at which the visitor stops, each with what it gives. -/
def tour : List Entry → τ → List (Entry × Visit τ)
  | [], _ => []
  | e :: rest, state =>
    let visit := visitor state e.key e.value
    (e, visit) :: if visit.stop then [] else tour rest visit.state

/-- The entries of a list, each with what the predicate answers. -/
def judge : List Entry → τ → List (Entry × Bool)
  | [], _ => []
  | e :: rest, state => (e, (keep state e.key e.value).1) :: judge rest (keep state e.key e.value).2

/-- The entries that were to be kept. -/
def accepted (judged : List (Entry × Bool)) : List Entry := (judged.filter Prod.snd).map Prod.fst

/-- The entries that were to be removed. -/
def rejected (judged : List (Entry × Bool)) : List Entry :=
  (judged.filter fun x => !x.2).map Prod.fst

/-- The predicate's state after all entries of a list. -/
def lastState (l : List Entry) (state : τ) : τ :=
  l.foldl (fun state e => (keep state e.key e.value).2) state

theorem fst_judge (l : List Entry) (state : τ) : (judge keep l state).map Prod.fst = l := by
  induction l generalizing state with
  | nil => rfl
  | cons e l ih => rw [judge, List.map_cons, ih]

theorem selectEntries_eq (l : List Entry) (state : τ) :
    selectEntries keep l state = ⟨lastState keep l state, accepted (judge keep l state),
      (rejected (judge keep l state)).length⟩ := by
  induction l generalizing state with
  | nil => rfl
  | cons e l ih =>
    rw [selectEntries, judge, lastState, List.foldl_cons, ← lastState]
    rcases keep state e.key e.value with ⟨_ | _, state'⟩
    · simp [ih, accepted, rejected]
    · simp [ih, accepted, rejected]

theorem fst_tour (l : List Entry) (state : τ) :
    (tour visitor l state).map Prod.fst = l.take (tour visitor l state).length := by
  induction l generalizing state with
  | nil => rfl
  | cons e l ih =>
    rw [tour]
    split_ifs
    · rfl
    · rw [List.map_cons, List.length_cons, List.take_succ_cons, ← ih]

theorem tour_stop (l : List Entry) (state : τ) :
    (∀ x ∈ (tour visitor l state).dropLast, x.2.stop = false) ∧
      ((∀ x ∈ tour visitor l state, x.2.stop = false) → (tour visitor l state).length = l.length) := by
  induction l generalizing state with
  | nil => exact ⟨fun x hx => absurd hx List.not_mem_nil, fun _ => rfl⟩
  | cons e l ih =>
    obtain ⟨hbefore, hall⟩ := ih (visitor state e.key e.value).state
    rw [tour]
    split_ifs with hs
    · exact ⟨fun x hx => absurd hx List.not_mem_nil,
        fun h => absurd (h _ (List.mem_singleton_self _)) (by simp [hs])⟩
    · refine ⟨fun x hx => ?_, fun h => ?_⟩
      · cases hrest : tour visitor l (visitor state e.key e.value).state with
        | nil =>
          rw [hrest] at hx
          exact absurd hx List.not_mem_nil
        | cons y rest =>
          rw [hrest, List.dropLast_cons_cons, ← hrest] at hx
          rcases List.mem_cons.1 hx with rfl | hx
          · exact Bool.eq_false_iff.2 hs
          · exact hbefore x hx
      · rw [List.length_cons, List.length_cons,
          hall fun x hx => h x (List.mem_cons_of_mem _ hx)]

/-- The state of the visitor after a tour. -/
def stateAfter (state : τ) (toured : List (Entry × Visit τ)) : τ :=
  (toured.getLast?.map fun x => x.2.state).getD state

/-- **A traversal of a list by its answers**: the entries of the tour are written over. -/
theorem visitEntries_eq (l : List Entry) (state : τ) :
    visitEntries visitor l state = ⟨stateAfter state (tour visitor l state),
      (tour visitor l state).map (fun x => x.1.write x.2.value) ++
        l.drop (tour visitor l state).length,
      (tour visitor l state).any fun x => x.2.stop⟩ := by
  induction l generalizing state with
  | nil => rfl
  | cons e l ih =>
    rw [visitEntries, tour]
    dsimp only
    split_ifs with hs
    · simp [stateAfter, hs]
    · rw [ih]
      have hstate : stateAfter state ((e, visitor state e.key e.value) ::
          tour visitor l (visitor state e.key e.value).state) =
            stateAfter (visitor state e.key e.value).state
              (tour visitor l (visitor state e.key e.value).state) := by
        rw [stateAfter, stateAfter, List.getLast?_cons]
        cases (tour visitor l (visitor state e.key e.value).state).getLast? <;> rfl
      simp [hstate, hs]

/-! ## Records -/

/-- The visitor with a record of the entries that it is shown. -/
def recordVisits (s : τ × List Entry) (key value : Bytes) : Visit (τ × List Entry) :=
  (visitor s.1 key value).map fun state => (state, s.2 ++ [⟨key, value⟩])

/-- The predicate with a record of the entries that it is shown. -/
def recordAnswers (s : τ × List Entry) (key value : Bytes) : Bool × (τ × List Entry) :=
  ((keep s.1 key value).1, (keep s.1 key value).2, s.2 ++ [⟨key, value⟩])

theorem tour_recordVisits (l : List Entry) (s : τ × List Entry) :
    (visitEntries (recordVisits visitor) l s).state =
      ((visitEntries visitor l s.1).state, s.2 ++ (tour visitor l s.1).map Prod.fst) := by
  induction l generalizing s with
  | nil => simp [visitEntries, tour]
  | cons e l ih =>
    rw [visitEntries, visitEntries, tour, recordVisits]
    by_cases hs : (visitor s.1 e.key e.value).stop = true
    · simp only [Visit.map, hs, if_true]
      rfl
    · simp only [Visit.map, hs, Bool.false_eq_true, if_false, ih, List.map_cons, List.append_assoc]
      rfl

theorem lastState_recordAnswers (l : List Entry) (s : τ × List Entry) :
    lastState (recordAnswers keep) l s = (lastState keep l s.1, s.2 ++ l) := by
  induction l generalizing s with
  | nil => simp [lastState]
  | cons e l ih =>
    rw [lastState, List.foldl_cons, ← lastState, ih, recordAnswers, List.append_assoc]
    rfl

namespace Table

/-- **A recording visitor does what the visitor does**, and it records the entries of the tour. -/
theorem each_recordVisits (t : Table) (state : τ) (before : List Entry) :
    (t.each (recordVisits visitor) (state, before)).after = (t.each visitor state).after ∧
      (t.each (recordVisits visitor) (state, before)).stopped = (t.each visitor state).stopped ∧
      (t.each (recordVisits visitor) (state, before)).state =
        ((t.each visitor state).state, before ++ (tour visitor t.entries state).map Prod.fst) := by
  have hmap : t.each visitor state = (t.each (recordVisits visitor) (state, before)).map Prod.fst :=
    each_map (f := Prod.fst) (fun _ _ _ => rfl) t (state, before)
  have hrecord := tour_recordVisits visitor t.entries (state, before)
  rw [visitEntries_entries, visitEntries_entries] at hrecord
  exact ⟨(congrArg Sweep.after hmap).symm, (congrArg Sweep.stopped hmap).symm, hrecord⟩

/-- **A recording predicate selects as the predicate does**, and it records all entries. -/
theorem filter_recordAnswers (t : Table) (state : τ) (before : List Entry) :
    (t.filter (recordAnswers keep) (state, before)).after = (t.filter keep state).after ∧
      (t.filter (recordAnswers keep) (state, before)).state =
        ((t.filter keep state).state, before ++ t.entries) := by
  have hmap : t.filter keep state = (t.filter (recordAnswers keep) (state, before)).map Prod.fst :=
    filter_map (f := Prod.fst) (fun _ _ _ => rfl) t (state, before)
  have hrecord := selectEntries_eq (recordAnswers keep) t.entries (state, before)
  have hplain := selectEntries_eq keep t.entries state
  rw [selectEntries_entries] at hrecord hplain
  refine ⟨(congrArg Selection.after hmap).symm, (congrArg Selection.state hrecord).trans ?_⟩
  rw [lastState_recordAnswers]
  exact congrArg (fun s => (s, before ++ t.entries)) (congrArg Selection.state hplain).symm

end Table

end TagTable
