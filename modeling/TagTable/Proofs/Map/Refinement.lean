import TagTable.Proofs.Map.Represents
import TagTable.Proofs.Run.Reachable

/-!
# Tables refine dictionaries

* `Command.Lawful`: the operations that are spoken about;
* **`Represents.apply`**, `Represents.run`: every operation answers as the dictionary does;
* **`table_refines_dictionary`**: every history of a table is one of the empty dictionary.
-/

namespace TagTable

/-- An operation that keeps strategies lawful. -/
def Command.Lawful (keySize : Nat) : Command → Prop
  | .setStrategy s => s.Lawful keySize
  | _ => True

namespace Represents

variable {σ : Type} (A : Allocator σ) {t : Table} {d d₁ : Dictionary} {key value : Bytes}

theorem reserve (hr : Represents t d) (n : Nat) (heap : σ) :
    Represents (t.reserve A n heap).after d := by
  rcases Table.reserve_spec A hr.invariant n heap with ⟨-, hafter⟩ | ⟨-, hre, -⟩
  · rw [hafter]
    exact hr
  · exact hr.resettled hre

theorem store (hr : Represents t d) (present : Table → Position → Except Error Unit × Table)
    {answer : Except Error Unit}
    (hpresent : ∀ u p, Represents u d → (u.probe key).found = some p → key.length = d.keySize →
      value.length = d.valueSize → (present u p).1 = answer ∧ Represents (present u p).2 d₁)
    {heap : σ} {room : Bool}
    (hroom : t.fits key value = true → room = (t.reserve A 1 heap).result.isOk) :
    Answer.done (t.store A present key value heap).result = (d.store room (answer, d₁) key value).1 ∧
      Represents (t.store A present key value heap).after
        (d.store room (answer, d₁) key value).2 := by
  rw [Dictionary.store, ← hr.fits_eq]
  by_cases hfit : t.fits key value = true
  · obtain ⟨hk, hv⟩ := Table.fits_eq_true.1 hfit
    rw [hr.keySize] at hk
    rw [hr.valueSize] at hv
    rw [if_pos hfit, hroom hfit]
    rcases Table.reserve_spec A hr.invariant 1 heap with ⟨hfail, hafter⟩ | ⟨hok, hre, -⟩
    · rw [Table.store_of_error A hfit hfail, hafter, hfail]
      exact ⟨rfl, hr⟩
    · generalize hu : (t.reserve A 1 heap).after = u at hre
      have hr' := hr.resettled hre
      rw [hok, hr'.find_of_found hk]
      rcases Table.store_cases A hr.invariant present hfit hok hu with
        ⟨p, hfound, h⟩ | ⟨p, hfound, hvac, hload, h⟩
      · rw [h, hfound]
        obtain ⟨hanswer, hafter⟩ := hpresent u p hr' hfound hk hv
        exact ⟨congrArg Answer.done hanswer, hafter⟩
      · rw [h, hfound]
        exact ⟨rfl, hr'.occupy hfound hvac hload hk hv⟩
  · rw [if_neg hfit, Table.store_of_not_fits A (Bool.not_eq_true _ ▸ hfit)]
    exact ⟨rfl, hr⟩

theorem insert (hr : Represents t d) {heap : σ} {room : Bool}
    (hroom : t.fits key value = true → room = (t.reserve A 1 heap).result.isOk) :
    Answer.done (t.insert A key value heap).result =
        (d.store room (.error .alreadyExists, d) key value).1 ∧
      Represents (t.insert A key value heap).after
        (d.store room (.error .alreadyExists, d) key value).2 := by
  exact hr.store A (fun t _ => (.error .alreadyExists, t)) (fun u p hu _ _ _ => ⟨rfl, hu⟩) hroom

theorem set (hr : Represents t d) {heap : σ} {room : Bool}
    (hroom : t.fits key value = true → room = (t.reserve A 1 heap).result.isOk) :
    Answer.done (t.set A key value heap).result =
        (d.store room (.ok (), d.adjust key fun e => { e with value := value }) key value).1 ∧
      Represents (t.set A key value heap).after
        (d.store room (.ok (), d.adjust key fun e => { e with value := value }) key value).2 := by
  refine hr.store A (fun t slot => (.ok (), t.overwrite slot value))
    (fun u p hu hfound hk hv => ⟨rfl, ?_⟩) hroom
  refine hu.overwrite hk hfound (fun e => rfl) ?_
  rw [Entry.write, Bytes.writeOver_of_length_eq]
  exact hv.trans (hu.length_value _ (hu.mem_found hk hfound).1).symm

theorem modify (hr : Represents t d) (key : Bytes) (edit : Bytes → Bytes) (order : List Entry)
    (room : Bool) :
    Answer.value (t.modify key edit).answer.1 = (d.step order room (.modify key edit)).1 ∧
      Represents (t.modify key edit).answer.2 (d.step order room (.modify key edit)).2 := by
  rw [Dictionary.step, hr.find, Table.modify, Reply.map, Table.find]
  by_cases hk : key.length = t.geometry.keySize
  · rw [if_pos hk]
    dsimp only
    cases hfound : (t.probe key).found with
    | none => exact ⟨rfl, hr⟩
    | some p => exact ⟨rfl, hr.overwrite (hk.trans hr.keySize) hfound (fun e => rfl) rfl⟩
  · rw [if_neg hk]
    exact ⟨rfl, hr⟩

theorem remove (hr : Represents t d) (key : Bytes) (order : List Entry) (room : Bool) :
    Answer.done (t.remove key).answer.1 = (d.step order room (.remove key)).1 ∧
      Represents (t.remove key).answer.2 (d.step order room (.remove key)).2 := by
  rw [Dictionary.step, Table.remove, Reply.map, Table.take, ← hr.keySize]
  by_cases hk : key.length = t.geometry.keySize
  · rw [if_pos hk, if_pos hk, hr.find_of_found (hk.trans hr.keySize)]
    dsimp only
    cases hfound : (t.probe key).found with
    | none => exact ⟨rfl, hr⟩
    | some p => exact ⟨rfl, hr.bury (hk.trans hr.keySize) hfound⟩
  · rw [if_neg hk, if_neg hk]
    exact ⟨rfl, hr⟩

/-- **Every operation answers as the dictionary does**, and the table represents what that becomes. -/
theorem apply (hr : Represents t d) {c : Command} (hc : c.Lawful d.keySize) (heap : σ) :
    (t.apply A c heap).answer = (d.step t.entries (t.prepare A c heap).result.isOk c).1 ∧
      Represents (t.apply A c heap).after
        (d.step t.entries (t.prepare A c heap).result.isOk c).2 := by
  have hprepare : ∀ key value, t.demand c = (if t.fits key value then some 1 else none) →
      t.fits key value = true →
        (t.prepare A c heap).result.isOk = (t.reserve A 1 heap).result.isOk := by
    intro key value hc hfit
    rw [Table.prepare, hc, if_pos hfit]
  cases c with
  | insert key value => exact hr.insert A (hprepare key value rfl)
  | set key value => exact hr.set A (hprepare key value rfl)
  | get key =>
    refine ⟨?_, hr⟩
    rw [Dictionary.step, hr.find, Option.map_map]
    rfl
  | modify key edit => exact hr.modify key edit t.entries _
  | contains key =>
    refine ⟨?_, hr⟩
    rw [Dictionary.step, hr.find, Option.isSome_map, Table.apply, Table.contains, Table.get,
      Reply.map, Reply.map, Option.isSome_map]
  | remove key => exact hr.remove key t.entries _
  | reserve n =>
    refine ⟨?_, hr.reserve A n heap⟩
    rw [Dictionary.step, Table.apply, Table.prepare, Table.demand]
    rcases Table.reserve_spec A hr.invariant n heap with ⟨h, -⟩ | ⟨h, -⟩
    · simp [h, Except.isOk, Except.toBool]
    · simp [h, Except.isOk, Except.toBool]
  | clear =>
    have hnil : t.clear.entries = [] := by
      have h0 : (0 : Nat) = t.clear.entries.length := hr.invariant.clear.count_eq_length
      exact List.length_eq_zero_iff.1 h0.symm
    exact ⟨rfl, hr.change hr.invariant.clear rfl rfl (by rw [hnil]) List.Pairwise.nil⟩
  | each visitor state =>
    have hkeys := keys_visitEntries visitor t.entries state
    rw [Dictionary.step, Table.apply]
    rw [t.visitEntries_entries] at hkeys ⊢
    refine ⟨rfl, hr.change (hr.invariant.each visitor state) rfl rfl (.refl _) ?_⟩
    rw [Distinct, hkeys]
    exact hr.distinct.perm hr.entries.symm
  | filter keep state =>
    have hsub := sublist_selectEntries keep t.entries state
    rw [Dictionary.step, Table.apply]
    rw [t.selectEntries_entries] at hsub ⊢
    refine ⟨rfl, hr.change (hr.invariant.filter keep state) rfl rfl (.refl _) ?_⟩
    exact (hr.distinct.perm hr.entries.symm).sublist (hsub.map _)
  | iterate =>
    refine ⟨?_, hr⟩
    rw [Dictionary.step, Table.apply, t.drain_cursor hr.invariant.count_eq_length]
  | setStrategy s =>
    rw [Dictionary.step, Table.apply]
    by_cases h0 : t.count = 0
    · have hnil : d.pairs = [] := List.length_eq_zero_iff.1 (hr.count_eq.symm.trans h0)
      have hset : t.setStrategy s = .ok { t with strategy := s } := if_pos h0
      rw [if_pos (List.isEmpty_iff.2 hnil), hset]
      exact ⟨rfl,
        { hr with
          invariant := hr.invariant.setStrategy hset
          lawful := hc
          equal := fun _ _ _ _ => rfl
          distinct := by rw [Distinct, hnil]; exact List.Pairwise.nil }⟩
    · have hne : ¬ d.pairs.isEmpty = true := fun h => h0 <| by
        rw [hr.count_eq, List.isEmpty_iff.1 h, List.length_nil]
      have hset : t.setStrategy s = .error .invalidArgument := if_neg h0
      rw [if_neg hne, hset]
      exact ⟨rfl, hr⟩

/-- **A run of operations is a history of the dictionary.** -/
theorem run (hr : Represents t d) {cs : List Command} (hcs : ∀ c ∈ cs, c.Lawful d.keySize)
    (heap : σ) :
    ∃ d', d.Allows (t.history A cs heap) d' ∧ Represents (t.run A cs heap).1 d' := by
  induction cs generalizing t d heap with
  | nil => exact ⟨d, .nil d, hr⟩
  | cons c cs ih =>
    obtain ⟨hanswer, hafter⟩ := hr.apply A (hcs c (List.mem_cons_self ..)) heap
    have hrest : ∀ c' ∈ cs,
        c'.Lawful (d.step t.entries (t.prepare A c heap).result.isOk c).2.keySize := by
      intro c' hc'
      rw [Dictionary.keySize_step]
      exact hcs c' (List.mem_cons_of_mem c hc')
    -- The rest of the run starts from the dictionary that this operation made.
    obtain ⟨d', hallows, hr'⟩ := ih hafter hrest (t.apply A c heap).heap
    refine ⟨d', ?_, hr'⟩
    rw [Table.history, hanswer]
    exact .cons hr.entries hallows

end Represents

theorem represents_vacant {e : EntryLayout} {x : Geometry} {s : Strategy}
    (hs : s.Lawful e.keySize) (hx : Geometry.ofEntry e = .ok x) :
    Represents (.vacant e x s) (.empty e s.equal) :=
  { invariant := Table.invariant_vacant hx s
    lawful := hs
    keySize := Geometry.keySize_of_ofEntry hx
    valueSize := Geometry.valueSize_of_ofEntry hx
    equal := fun _ _ _ _ => rfl
    entries := .refl _
    distinct := List.Pairwise.nil }

theorem Origin.represents {σ : Type} {A : Allocator σ} {e : EntryLayout} {s : Strategy} {o : Origin}
    {heap : σ} {t : Table} (hs : s.Lawful e.keySize) (h : (o.make A e s heap).answer = .ok t) :
    Represents t (.empty e s.equal) := by
  obtain ⟨x, hx, rfl | ⟨n, rfl⟩⟩ := make_eq_ok h
  · exact represents_vacant hs hx
  · exact (represents_vacant hs hx).reserve A n heap

/-- **A table refines a dictionary.** Its answers are those that the empty dictionary may give, and in
the end it holds the pairs of the dictionary, one for each class of equal keys. -/
theorem table_refines_dictionary {σ : Type} (A : Allocator σ) {e : EntryLayout} {s : Strategy}
    (hs : s.Lawful e.keySize) (o : Origin) (heap : σ) {t : Table}
    (ht : (o.make A e s heap).answer = .ok t) {cs : List Command}
    (hcs : ∀ c ∈ cs, c.Lawful e.keySize) :
    ∃ d, (Dictionary.empty e s.equal).Allows (t.history A cs (o.make A e s heap).heap) d ∧
      Distinct d.equal d.pairs ∧
      (t.run A cs (o.make A e s heap).heap).1.entries.Perm d.pairs ∧
      (t.run A cs (o.make A e s heap).heap).1.count = d.pairs.length := by
  obtain ⟨d, hallows, hr⟩ :=
    (o.represents hs ht).run A (d := .empty e s.equal) hcs (o.make A e s heap).heap
  exact ⟨d, hallows, hr.distinct, hr.entries, hr.count_eq⟩

/-- Operations on a table of an allocator that grants a single buffer. -/
def frugalCommands : List Command :=
  [.insert [1] [2], .insert [3] [4], .insert [1] [5], .set [3] [6], .remove [1], .reserve 100,
    .setStrategy (Strategy.ofHash "" fun _ => 1), .get [3]]

theorem table_refines_dictionary_frugal :
    ((bytewise (Strategy.ofHash "" fun _ => 0)).run Allocator.quota frugalCommands
      ⟨some 1, 1024, 16⟩).1.count = 1 ∧
    ∃ d, (Dictionary.empty ⟨1, 1, 1, 1⟩ fun a b => a == b).Allows
      ((bytewise (Strategy.ofHash "" fun _ => 0)).history Allocator.quota frugalCommands
        ⟨some 1, 1024, 16⟩) d ∧ d.pairs.length = 1 := by
  have hcount : ((bytewise (Strategy.ofHash "" fun _ => 0)).run Allocator.quota frugalCommands
      ⟨some 1, 1024, 16⟩).1.count = 1 := by decide +kernel
  have hcs : ∀ c ∈ frugalCommands, c.Lawful 1 := by
    simp [frugalCommands, Command.Lawful, Strategy.lawful_ofHash]
  obtain ⟨d, hallows, -, -, hlength⟩ := table_refines_dictionary Allocator.quota
    (e := ⟨1, 1, 1, 1⟩) (Strategy.lawful_ofHash "" (fun _ => 0) 1) .empty ⟨some 1, 1024, 16⟩
    (create_bytewise _) hcs
  exact ⟨hcount, d, hallows, hlength.symm.trans hcount⟩

end TagTable
