import Mathlib.Algebra.GroupWithZero.Nat
import Mathlib.Data.List.Basic

/-!
# Iterations against lists

States that are stepped through, as lists of the items to come.

* `stepOver`, `after`, `reports`: steps and uses one after the other, and what they give;
* `Yields`: the items that are to come, and their number; `SameReports`: states that no uses tell apart;
* `Skips`: skips that give what steps give; `Passes`: a step over items of a list;
* `Iterates`: steps and skips that pass over items; **`Iterates.stepOver`**, `Iterates.yields`,
  **`Iterates.skips`**: so do steps one after the other, and a skip is as good as they are;
* **`reports_map`**: states that correspond use by use give corresponding reports.
-/

namespace TagTable

variable {σ σ' μ α β β' : Type}

/-- What the last of `n + 1` steps one after the other gives. -/
def stepOver (next : σ → Option α × σ) : Nat → σ → Option α × σ
  | 0, s => next s
  | n + 1, s => stepOver next n (next s).2

/-- The state after uses one after the other. -/
def after (use : σ → μ → β × σ) : List μ → σ → σ
  | [], s => s
  | m :: ms, s => after use ms (use s m).2

/-- What uses one after the other give, each with the number of items left. -/
def reports (use : σ → μ → β × σ) (left : σ → Nat) : List μ → σ → List (β × Nat)
  | [], _ => []
  | m :: ms, s => ((use s m).1, left (use s m).2) :: reports use left ms (use s m).2

/-- Steps give the items of a list one after the other and then none, and their number is known. -/
structure Yields (next : σ → Option α × σ) (left : σ → Nat) (l : List α) (s : σ) : Prop where
  found : ∀ k, (stepOver next k s).1 = l[k]?
  counted : left s = l.length

/-- States with the same number of items left that no uses tell apart. -/
structure SameReports (use : σ → μ → β × σ) (left : σ → Nat) (s s' : σ) : Prop where
  counted : left s = left s'
  reported : ∀ ms, reports use left ms s = reports use left ms s'

/-- A skip over `n` items gives what the last of `n + 1` steps gives, and no later uses tell the two
apart. -/
structure Skips (use : σ → μ → β × σ) (left : σ → Nat) (next : σ → Option α × σ)
    (nth : σ → Nat → Option α × σ) (s : σ) : Prop where
  found : ∀ n, (nth s n).1 = (stepOver next n s).1
  alike : ∀ n, SameReports use left (nth s n).2 (stepOver next n s).2

/-- A step over `n` items of a list to the one after them. The relation says which items a state has to
come. -/
structure Passes (R : σ → List α → Prop) (l : List α) (n : Nat) (step : Option α × σ) : Prop where
  found : step.1 = l[n]?
  rest : R step.2 (l.drop (n + 1))

/-- The steps and skips of an iteration whose states are related to the items that they have to come. -/
structure Iterates (next : σ → Option α × σ) (nth : σ → Nat → Option α × σ) (left : σ → Nat)
    (R : σ → List α → Prop) : Prop where
  next : ∀ {s l}, R s l → Passes R l 0 (next s)
  nth : ∀ {s l}, R s l → ∀ n, Passes R l n (nth s n)
  left : ∀ {s l}, R s l → left s = l.length

variable {R : σ → List α → Prop} {s : σ} {l : List α} {n k : Nat}

/-! ## Steps over items -/

theorem Passes.of_drop {step : Option α × σ} (h : Passes R (l.drop k) n step) :
    Passes R l (k + n) step := by
  obtain ⟨hfound, hrest⟩ := h
  rw [List.getElem?_drop] at hfound
  rw [List.drop_drop] at hrest
  exact ⟨hfound, hrest⟩

theorem Passes.after {use : σ → μ → Option α × σ} {skipped : μ → Nat}
    (huse : ∀ {s l}, R s l → ∀ m, Passes R l (skipped m) (use s m)) (h : R s l) (ms : List μ) :
    R (after use ms s) (l.drop (ms.map fun m => skipped m + 1).sum) := by
  induction ms generalizing s l with
  | nil => exact h
  | cons m ms ih =>
    have hrest := ih (huse h m).rest
    rwa [List.drop_drop] at hrest

/-! ## Reports -/

section

variable {use : σ → μ → β × σ} {use' : σ' → μ → β' × σ'} {left : σ → Nat} {left' : σ' → Nat}

/-- **States that correspond use by use give corresponding reports.** -/
theorem reports_map (f : β → β') {S : σ → σ' → Prop}
    (huse : ∀ s s' m, S s s' → (use' s' m).1 = f (use s m).1 ∧ S (use s m).2 (use' s' m).2)
    (hleft : ∀ s s', S s s' → left' s' = left s) (ms : List μ) {s : σ} {s' : σ'} (h : S s s') :
    reports use' left' ms s' = (reports use left ms s).map fun r => (f r.1, r.2) := by
  induction ms generalizing s s' with
  | nil => rfl
  | cons m ms ih =>
    obtain ⟨hgiven, hrest⟩ := huse s s' m h
    rw [reports, reports, List.map_cons, hgiven, hleft _ _ hrest, ih hrest]

theorem SameReports.of_items {given : List α → μ → β} {rest : List α → μ → List α}
    (huse : ∀ {s l}, R s l → ∀ m, (use s m).1 = given l m ∧ R (use s m).2 (rest l m))
    (hleft : ∀ {s l}, R s l → left s = l.length) {s s' : σ} (h : R s l) (h' : R s' l) :
    SameReports use left s s' := by
  refine ⟨(hleft h).trans (hleft h').symm, fun ms => ?_⟩
  have hsame : reports use left ms s' = (reports use left ms s).map id :=
    reports_map id (S := fun s s' => ∃ l, R s l ∧ R s' l)
      (fun s s' m ⟨l, h, h'⟩ => ⟨(huse h' m).1.trans (huse h m).1.symm, rest l m, (huse h m).2,
        (huse h' m).2⟩)
      (fun s s' ⟨l, h, h'⟩ => (hleft h').trans (hleft h).symm) ms ⟨l, h, h'⟩
  exact (hsame.trans (List.map_id _)).symm

end

/-! ## Iterations -/

namespace Iterates

variable {next : σ → Option α × σ} {nth : σ → Nat → Option α × σ} {left : σ → Nat}

/-- **Steps one after the other pass over items of the list.** -/
theorem stepOver (hi : Iterates next nth left R) (h : R s l) (n : Nat) :
    Passes R l n (stepOver next n s) := by
  induction n generalizing s l with
  | zero => exact hi.next h
  | succ n ih =>
    have hrest : Passes R l (1 + n) _ := (ih (hi.next h).rest).of_drop
    rwa [Nat.add_comm] at hrest

theorem yields (hi : Iterates next nth left R) (h : R s l) : Yields next left l s :=
  ⟨fun k => (hi.stepOver h k).found, hi.left h⟩

/-- **A skip is as good as steps**, when the items to come are all that a use depends on. -/
theorem skips (hi : Iterates next nth left R) {use : σ → μ → β × σ} {given : List α → μ → β}
    {rest : List α → μ → List α}
    (huse : ∀ {s l}, R s l → ∀ m, (use s m).1 = given l m ∧ R (use s m).2 (rest l m)) (h : R s l) :
    Skips use left next nth s := by
  refine ⟨fun n => ?_, fun n => ?_⟩
  · exact (hi.nth h n).found.trans (hi.stepOver h n).found.symm
  · exact .of_items (R := R) huse hi.left (hi.nth h n).rest (hi.stepOver h n).rest

end Iterates

end TagTable
