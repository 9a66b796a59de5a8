import TagTable.Proofs.Run.Requests
import TagTable.Proofs.Run.Session

/-!
# Operations that fail

* `Table.store_of_result_error`: the ways in which an addition may fail;
* **`Table.apply_of_error`**: an operation that fails leaves its table as it was;
* `Table.apply_of_refused`: a refused request that is granted later;
* **`failure_changes_nothing`**: these, with additions of keys that are present and failed copies.
-/

namespace TagTable

variable {σ : Type} (A : Allocator σ)

/-- At most a request that was refused. -/
def Unanswered (events : List HeapEvent) : Prop :=
  events = [] ∨ ∃ block, events = [.refused block]

theorem Unanswered.released_notMem {events : List HeapEvent} (h : Unanswered events) (block : Block) :
    .released block ∉ events := by
  rcases h with rfl | ⟨other, rfl⟩ <;> simp

namespace Table

variable {t : Table} {key value : Bytes} {heap : σ} {error : Error}
  {present : Table → Position → Except Error Unit × Table}

/-- **An addition fails because of the lengths, its reservation or a key that is present.** -/
theorem store_of_result_error (hi : t.Invariant)
    (h : (t.store A present key value heap).result = .error error) :
    t.store A present key value heap = .fail .invalidArgument t heap ∨
      t.fits key value = true ∧ (t.reserve A 1 heap).result = .error .outOfMemory ∧
        t.store A present key value heap = t.reserve A 1 heap ∨
      (t.reserve A 1 heap).result = .ok () ∧ ∃ p,
        (present (t.reserve A 1 heap).after p).1 = .error error ∧
        (t.store A present key value heap).after = (present (t.reserve A 1 heap).after p).2 := by
  by_cases hfit : t.fits key value = true
  · rcases reserve_spec A hi 1 heap with ⟨hfail, -⟩ | ⟨hok, -, -⟩
    · exact .inr (.inl ⟨hfit, hfail, store_of_error A hfit hfail⟩)
    · rcases store_cases A hi present hfit hok rfl with ⟨p, -, hstore⟩ | ⟨p, -, -, -, hstore⟩
      · rw [hstore] at h ⊢
        exact .inr (.inr ⟨hok, p, h, rfl⟩)
      · rw [hstore] at h
        exact absurd h (by simp)
  · exact .inl (store_of_not_fits A (Bool.not_eq_true _ ▸ hfit) heap)

theorem store_unchanged (hi : t.Invariant)
    (hpresent : ∀ u p, (present u p).1 ≠ .error error)
    (h : (t.store A present key value heap).result = .error error) :
    (t.store A present key value heap).after = t ∧
      Unanswered (t.store A present key value heap).trace.heap := by
  rcases store_of_result_error A hi h with hstore | ⟨-, hfail, hstore⟩ | ⟨-, p, herror, -⟩
  · rw [hstore]
    exact ⟨rfl, .inl rfl⟩
  · rw [hstore]
    rcases reserve_requests A hi 1 heap with ⟨-, hafter, hevents⟩ | hready | ⟨hok, -⟩
    · exact ⟨hafter, hevents⟩
    · rw [hready] at hfail
      exact absurd hfail (by simp)
    · rw [hok] at hfail
      exact absurd hfail (by simp)
  · exact absurd herror (hpresent _ p)

/-- **An operation that fails, but for the addition of a key that is present, leaves its table as it
was.** -/
theorem apply_of_error (hi : t.Invariant) {c : Command}
    (h : (t.apply A c heap).answer = .done (.error error)) (hne : error ≠ .alreadyExists) :
    (t.apply A c heap).after = t ∧ Unanswered (t.apply A c heap).trace.heap := by
  cases c with
  | insert key value =>
    refine store_unchanged A hi (fun _ _ hpresent => ?_) (Answer.done.inj h)
    exact hne (Except.error.inj hpresent).symm
  | set key value => exact store_unchanged A hi (fun _ _ => by simp) (Answer.done.inj h)
  | get | modify | contains | clear | each | filter | iterate => simp [apply] at h
  | remove key =>
    refine ⟨?_, .inl rfl⟩
    have hresult : (t.remove key).answer.1 = .error error := Answer.done.inj h
    show (t.remove key).answer.2 = t
    rw [remove, Reply.map, take] at hresult ⊢
    split_ifs at hresult ⊢
    · dsimp only at hresult ⊢
      cases hfound : (t.probe key).found with
      | none => rfl
      | some p =>
        rw [hfound] at hresult
        exact absurd hresult (by simp [Except.map])
    · rfl
  | reserve n =>
    rcases reserve_requests A hi n heap with ⟨-, hafter, hevents⟩ | hready | ⟨hok, -⟩
    · exact ⟨hafter, hevents⟩
    · rw [apply, hready] at h
      exact absurd (Answer.done.inj h) (by simp)
    · rw [apply, hok] at h
      exact absurd (Answer.done.inj h) (by simp)
  | setStrategy s =>
    rw [apply] at h ⊢
    cases hs : t.setStrategy s with
    | ok u =>
      rw [hs] at h
      exact absurd (Answer.done.inj h) (by simp)
    | error other => exact ⟨rfl, .inl rfl⟩

/-! ## Memory -/

theorem store_eq_outOfMemory (hi : t.Invariant)
    (hpresent : ∀ u p, (present u p).1 ≠ .error .outOfMemory) :
    (t.store A present key value heap).result = .error .outOfMemory ↔
      t.fits key value = true ∧ (t.reserve A 1 heap).result = .error .outOfMemory := by
  constructor
  · intro h
    rcases store_of_result_error A hi h with hstore | ⟨hfit, hfail, -⟩ | ⟨-, p, herror, -⟩
    · rw [hstore] at h
      exact absurd h (by simp [Outcome.fail])
    · exact ⟨hfit, hfail⟩
    · exact absurd herror (hpresent _ p)
  · rintro ⟨hfit, hfail⟩
    rw [store_of_error A hfit hfail, hfail]

/-- **An operation runs out of memory just when the reservation that it makes does.** -/
theorem apply_eq_outOfMemory (hi : t.Invariant) (c : Command) :
    (t.apply A c heap).answer = .done (.error .outOfMemory) ↔
      (t.prepare A c heap).result = .error .outOfMemory := by
  have hstore : ∀ {present : Table → Position → Except Error Unit × Table} (key value : Bytes),
      (∀ u p, (present u p).1 ≠ .error .outOfMemory) →
      t.demand c = (if t.fits key value then some 1 else none) →
      (Answer.done (t.store A present key value heap).result = .done (.error .outOfMemory) ↔
        (t.prepare A c heap).result = .error .outOfMemory) := by
    intro present key value hpresent hd
    rw [Answer.done.injEq, store_eq_outOfMemory A hi hpresent, prepare, hd]
    by_cases hfit : t.fits key value = true <;> simp [hfit]
  cases c with
  | insert key value => exact hstore key value (fun _ _ => by simp) rfl
  | set key value => exact hstore key value (fun _ _ => by simp) rfl
  | get | modify | contains | clear | each | filter | iterate => simp [apply, prepare, demand]
  | remove key =>
    rw [apply, Answer.done.injEq, remove, Reply.map, take, prepare]
    split_ifs
    · dsimp only
      cases (t.probe key).found <;> simp [Except.map, demand]
    · simp [Except.map, demand]
  | reserve n => exact Answer.done.injEq _ _ ▸ Iff.rfl
  | setStrategy s =>
    rw [apply, setStrategy, prepare]
    split_ifs <;> simp [demand]

theorem apply_of_refused (hi : t.Invariant) {c : Command} {block : Block}
    (h : .refused block ∈ (t.apply A c heap).trace.heap) :
    (t.apply A c heap).answer = .done (.error .outOfMemory) ∧
      ∀ (τ : Type) (A' : Allocator τ) (heap' : τ), (A'.request block heap').1 = true →
        (t.apply A' c heap').answer ≠ .done (.error .outOfMemory) := by
  obtain ⟨⟨-, hevents, -⟩, -⟩ := shape_apply hi A c heap
  rw [hevents] at h
  simp only [ne_eq, apply_eq_outOfMemory _ hi, prepare] at h ⊢
  cases hd : t.demand c with
  | none =>
    rw [hd] at h
    exact absurd h List.not_mem_nil
  | some n =>
    rw [hd] at h
    dsimp only at h ⊢
    rcases reserve_requests A hi n heap with
      ⟨hfail, -, hnone | ⟨other, hrefused⟩⟩ | hready | ⟨-, other, -, hmoved⟩
    · rw [hnone] at h
      exact absurd h List.not_mem_nil
    · rw [hrefused] at h
      obtain rfl := HeapEvent.refused.inj (List.mem_singleton.1 h)
      refine ⟨hfail, fun τ A' heap' hg => ?_⟩
      rw [reserve_of_granted A hrefused hg]
      simp
    · rw [hready] at h
      exact absurd h List.not_mem_nil
    · rw [hmoved] at h
      cases hb : t.block? <;> simp [hb] at h

end Table

theorem Session.copy_of_error {w : Session σ} {i : Nat} {error : Error}
    (h : (w.act A (.copy i)).1.answer = some (.done (.error error))) :
    (w.act A (.copy i)).2.tables = w.tables ∧ Unanswered (w.act A (.copy i)).1.heap := by
  rw [act] at h ⊢
  cases hw : w.tables[i]? with
  | none => exact ⟨rfl, .inl rfl⟩
  | some t =>
    rw [hw] at h
    dsimp only [extend, report] at h ⊢
    have hmap := Answer.done.inj (Option.some.inj h)
    rw [Table.copy] at hmap ⊢
    split_ifs at hmap ⊢
    · exact absurd hmap (by simp [Except.map])
    · cases hblock : t.geometry.bufferBlock t.groups.size with
      | error other => exact ⟨List.append_nil _, .inl rfl⟩
      | ok block =>
        rw [hblock] at hmap
        dsimp only at hmap ⊢
        cases hreq : A.request block w.heap with
        | mk granted heap' =>
          rw [hreq] at hmap
          cases granted with
          | false => exact ⟨List.append_nil _, .inr ⟨block, rfl⟩⟩
          | true => exact absurd hmap (by simp [Except.map])

/-- **What fails changes nothing.** An operation that answers with an error, unless it is that the key
is present, leaves the table as it was and gives nothing back, and it does not run out of memory once a
refused request is granted. -/
theorem failure_changes_nothing {t : Table} (ht : Reachable t) (heap : σ) :
    (∀ (c : Command) (error : Error), (t.apply A c heap).answer = .done (.error error) →
      error ≠ .alreadyExists → (t.apply A c heap).after = t ∧
        (∀ block, .released block ∉ (t.apply A c heap).trace.heap) ∧
        ∀ (τ : Type) (A' : Allocator τ) (c' : Command) (heap' : τ),
          (t.apply A c heap).after.apply A' c' heap' = t.apply A' c' heap') ∧
    (∀ (c : Command) (block : Block), .refused block ∈ (t.apply A c heap).trace.heap →
      (t.apply A c heap).answer = .done (.error .outOfMemory) ∧
        ∀ (τ : Type) (A' : Allocator τ) (heap' : τ), (A'.request block heap').1 = true →
          ((t.apply A c heap).after.apply A' c heap').answer ≠ .done (.error .outOfMemory)) ∧
    (∀ key value : Bytes, (t.insert A key value heap).result = .error .alreadyExists →
      (t.reserve A 1 heap).result = .ok () ∧
        (t.insert A key value heap).after = (t.reserve A 1 heap).after) ∧
    ∀ (w : Session σ) (i : Nat) (error : Error), w.tables[i]? = some t →
      (w.act A (.copy i)).1.answer = some (.done (.error error)) →
        (w.act A (.copy i)).2.tables = w.tables ∧
          ∀ block, .released block ∉ (w.act A (.copy i)).1.heap := by
  have hi := ht.invariant
  refine ⟨fun c error h hne => ?_, fun c block h => ?_, fun key value h => ?_,
    fun w i error _ h => ?_⟩
  · obtain ⟨hafter, hevents⟩ := Table.apply_of_error A hi h hne
    exact ⟨hafter, hevents.released_notMem, fun _ _ _ _ => by rw [hafter]⟩
  · obtain ⟨hfail, hretry⟩ := Table.apply_of_refused A hi h
    obtain ⟨hafter, -⟩ := Table.apply_of_error A hi hfail (by simp)
    rw [hafter]
    exact ⟨hfail, hretry⟩
  · rcases Table.store_of_result_error A hi h with hstore | ⟨-, hfail, hstore⟩ | ⟨hok, p, -, hafter⟩
    · rw [Table.insert, hstore] at h
      exact absurd h (by simp [Outcome.fail])
    · rw [Table.insert, hstore, hfail] at h
      exact absurd h (by simp)
    · exact ⟨hok, hafter⟩
  · obtain ⟨htables, hevents⟩ := Session.copy_of_error A h
    exact ⟨htables, hevents.released_notMem⟩

/-- Eleven entries, as many as the sixteen slots may hold before the table grows. -/
def brimful : Table :=
  ((bytewise (.ofHash "" fun _ => 0)).run Allocator.unlimited
    ((List.range 11).map fun i => .insert [UInt8.ofNat i] [7]) ()).1

theorem reachable_brimful : Reachable brimful :=
  Reachable.run _ _ _ (reachable_bytewise _)

/-- An allocator's state in which it grants a number of requests, however large. -/
def sparing (budget : Nat) : Quota := ⟨some budget, maxBlockSize, maxBlockSize⟩

theorem failure_changes_nothing_brimful :
    ((brimful.apply Allocator.quota (.insert [11] [7]) (sparing 0)).answer =
        .done (.error .outOfMemory) ∧
      (brimful.apply Allocator.quota (.insert [11] [7]) (sparing 0)).after = brimful) ∧
    ((brimful.apply Allocator.quota (.insert [11] [7]) (sparing 0)).after.apply Allocator.quota
      (.insert [11] [7]) (sparing 1)).answer ≠ .done (.error .outOfMemory) ∧
    ((brimful.insert Allocator.quota [10] [8] (sparing 1)).result = .error .alreadyExists ∧
      (brimful.insert Allocator.quota [10] [8] (sparing 1)).after =
        (brimful.reserve Allocator.quota 1 (sparing 1)).after) ∧
    (Session.act Allocator.quota ⟨[brimful], sparing 0⟩ (.copy 0)).2.tables = [brimful] := by
  obtain ⟨hfail, hrefused, hpresent, hcopy⟩ :=
    failure_changes_nothing Allocator.quota reachable_brimful (sparing 0)
  have hasked : .refused ⟨96, 16⟩ ∈
      (brimful.apply Allocator.quota (.insert [11] [7]) (sparing 0)).trace.heap := by decide +kernel
  have hexists : (brimful.insert Allocator.quota [10] [8] (sparing 1)).result =
      .error .alreadyExists := by decide +kernel
  have hnone : (brimful.copy Allocator.quota (sparing 0)).answer.isOk = false := by decide +kernel
  obtain ⟨hmemory, hretry⟩ := hrefused _ _ hasked
  refine ⟨⟨hmemory, (hfail _ _ hmemory (by decide)).1⟩, hretry _ _ _ (by decide), ⟨hexists, ?_⟩, ?_⟩
  · exact ((failure_changes_nothing Allocator.quota reachable_brimful (sparing 1)).2.2.1 _ _
      hexists).2
  · cases hc : (brimful.copy Allocator.quota (sparing 0)).answer with
    | ok u => simp [hc, Except.isOk, Except.toBool] at hnone
    | error error =>
      refine (hcopy ⟨[brimful], sparing 0⟩ 0 error rfl ?_).1
      show some (Answer.done ((brimful.copy Allocator.quota (sparing 0)).answer.map fun _ => ())) = _
      rw [hc]
      rfl

end TagTable
