import TagTable.Proofs.Map.Represents
import TagTable.Proofs.Typed.FiniteMap

/-!
# Finite maps as dictionaries of bytes

The pairs of a finite map in their byte forms are a dictionary, and what an operation makes of the one
it makes of the other.

* `Plain.encode_inj`, `encodeEntry`, `decodeEntry_encodeEntry`, `encodeEntry_decodeEntry`;
* `Dictionary.ofPairs`: the dictionary of a list of pairs;
* `Dictionary.find_ofPairs`, `adjust_ofPairs`, `erase_ofPairs`, `store_ofPairs`: its parts;
* `visitEntries_encode`, `selectEntries_encode`: traversals of it;
* **`Dictionary.step_ofPairs`**: an operation on it.
-/

namespace TagTable

theorem Plain.encode_inj {α : Type} [Plain α] [Plain.Lawful α] {a b : α} :
    Plain.encode a = Plain.encode b ↔ a = b := by
  refine ⟨fun h => ?_, congrArg Plain.encode⟩
  rw [← Plain.Lawful.decode_encode a, h, Plain.Lawful.decode_encode]

variable {K V : Type} [Plain K] [Plain V]

/-- The byte form of a pair. -/
def encodeEntry (p : K × V) : Entry := ⟨Plain.encode p.1, Plain.encode p.2⟩

/-- The dictionary of the byte forms of pairs. -/
def Dictionary.ofPairs (l : List (K × V)) : Dictionary :=
  { keySize := Plain.size K
    valueSize := Plain.size V
    equal := fun a b => a == b
    pairs := l.map encodeEntry }

variable [Plain.Lawful K]

namespace Dictionary

variable (key : K) (l : List (K × V))

theorem length_encode_ofPairs : (Plain.encode key).length = (ofPairs l).keySize :=
  Plain.Lawful.length_encode key

variable [DecidableEq K]

theorem equal_ofPairs (p : K × V) :
    (ofPairs l).equal (encodeEntry p).key (Plain.encode key) = decide (p.1 = key) :=
  (Bool.beq_eq_decide_eq _ _).trans (decide_eq_decide.2 Plain.encode_inj)

theorem find_ofPairs : (ofPairs l).find (Plain.encode key) =
    (FiniteMap.ofList l key).map fun value => encodeEntry (key, value) := by
  rw [find, if_pos (length_encode_ofPairs key l)]
  induction l with
  | nil => rfl
  | cons p l ih =>
    obtain ⟨key', value⟩ := p
    have hequal := equal_ofPairs key ((key', value) :: l) (key', value)
    rw [FiniteMap.ofList_cons, Function.update_apply]
    by_cases h : key = key'
    · subst h
      rw [if_pos rfl]
      exact List.find?_cons_of_pos (hequal.trans (decide_eq_true rfl))
    · rw [if_neg h, ← ih]
      exact List.find?_cons_of_neg (by rw [hequal, decide_eq_true_iff]; exact Ne.symm h)

theorem adjust_ofPairs (edit : V → V) {f : Entry → Entry}
    (hf : ∀ p : K × V, f (encodeEntry p) = encodeEntry (p.1, edit p.2)) :
    (ofPairs l).adjust (Plain.encode key) f =
      ofPairs (l.map fun p => if p.1 = key then (p.1, edit p.2) else p) := by
  have hpairs : ((l.map encodeEntry).map fun e =>
      if (ofPairs l).equal e.key (Plain.encode key) then f e else e) =
      (l.map fun p => if p.1 = key then (p.1, edit p.2) else p).map encodeEntry := by
    rw [List.map_map, List.map_map]
    refine List.map_congr_left fun p _ => ?_
    rw [Function.comp, Function.comp, equal_ofPairs, hf]
    by_cases h : p.1 = key
    · rw [if_pos h, if_pos (decide_eq_true h)]
    · rw [if_neg h, if_neg (by simpa using h)]
  exact congrArg (fun pairs => { ofPairs l with pairs }) hpairs

theorem erase_ofPairs : (ofPairs l).erase (Plain.encode key) =
    ofPairs (l.filter fun p => p.1 ≠ key) := by
  have hpairs : ((l.map encodeEntry).filter fun e =>
      !(ofPairs l).equal e.key (Plain.encode key)) =
      (l.filter fun p => p.1 ≠ key).map encodeEntry := by
    rw [List.filter_map]
    congr 1
    refine List.filter_congr fun p _ => ?_
    rw [Function.comp, equal_ofPairs, decide_not]
  exact congrArg (fun pairs => { ofPairs l with pairs }) hpairs

end Dictionary

variable [Plain.Lawful V]

theorem decodeEntry_encodeEntry (p : K × V) : Map.decodeEntry K V (encodeEntry p) = p :=
  Prod.ext (Plain.Lawful.decode_encode p.1) (Plain.Lawful.decode_encode p.2)

/-- **Bytes of the right sizes are the form of what they decode to.** -/
theorem encodeEntry_decodeEntry {e : Entry} (hk : e.key.length = Plain.size K)
    (hv : e.value.length = Plain.size V) : encodeEntry (Map.decodeEntry K V e) = e := by
  rw [encodeEntry, Map.decodeEntry, Plain.Lawful.encode_decode _ hk,
    Plain.Lawful.encode_decode _ hv]

omit [Plain.Lawful K] in
theorem write_encodeEntry (key : K) (old new : V) :
    (encodeEntry (key, old)).write (Plain.encode new) = encodeEntry (key, new) := by
  have hlength : (Plain.encode new).length = (Plain.encode old).length :=
    (Plain.Lawful.length_encode new).trans (Plain.Lawful.length_encode old).symm
  rw [Entry.write, encodeEntry, Bytes.writeOver_of_length_eq hlength, encodeEntry]

/-! ## Traversals -/

section

variable {τ : Type}

theorem visitEntries_encode (visitor : τ → K → V → Map.Visit τ V) (l : List (K × V)) (state : τ) :
    visitEntries (Map.Visit.bytes visitor) (l.map encodeEntry) state =
      ⟨(visitPairs visitor l state).state, (visitPairs visitor l state).after.map encodeEntry,
        (visitPairs visitor l state).stopped⟩ := by
  induction l generalizing state with
  | nil => rfl
  | cons p l ih =>
    obtain ⟨key, value⟩ := p
    have hvisit : Map.Visit.bytes visitor state (encodeEntry (key, value)).key
        (encodeEntry (key, value)).value =
        ⟨(visitor state key value).state, Plain.encode (visitor state key value).value,
          (visitor state key value).stop⟩ := by
      rw [Map.Visit.bytes, encodeEntry, Plain.Lawful.decode_encode, Plain.Lawful.decode_encode]
    rw [List.map_cons, visitEntries, visitPairs, hvisit]
    dsimp only
    rw [write_encodeEntry]
    split_ifs
    · rfl
    · rw [ih, List.map_cons]

theorem selectEntries_encode (keep : τ → K → V → Bool × τ) (l : List (K × V)) (state : τ) :
    selectEntries (fun state key value => keep state (Plain.decode key) (Plain.decode value))
        (l.map encodeEntry) state =
      ⟨(selectPairs keep l state).state, (selectPairs keep l state).after.map encodeEntry,
        (selectPairs keep l state).removed⟩ := by
  induction l generalizing state with
  | nil => rfl
  | cons p l ih =>
    obtain ⟨key, value⟩ := p
    rw [List.map_cons, selectEntries, selectPairs, encodeEntry, Plain.Lawful.decode_encode,
      Plain.Lawful.decode_encode]
    dsimp only
    rcases keep state key value with ⟨_ | _, state'⟩
    · dsimp only
      rw [ih]
    · dsimp only
      rw [ih]
      rfl

end

/-! ## Operations -/

namespace Dictionary

variable (key : K) (l : List (K × V))

theorem fits_ofPairs (value : V) :
    (ofPairs l).fits (Plain.encode key) (Plain.encode value) = true := by
  rw [fits, Bool.and_eq_true, beq_iff_eq, beq_iff_eq]
  exact ⟨Plain.Lawful.length_encode key, Plain.Lawful.length_encode value⟩

variable [DecidableEq K]

theorem store_ofPairs (room : Bool) (present : Except Error Unit × Dictionary) (value : V) :
    (ofPairs l).store room present (Plain.encode key) (Plain.encode value) =
      if room then
        match FiniteMap.ofList l key with
        | some _ => (.done present.1, present.2)
        | none => (.done (.ok ()), ofPairs ((key, value) :: l))
      else (.done (.error .outOfMemory), ofPairs l) := by
  rw [store, if_pos (fits_ofPairs key l value), find_ofPairs]
  cases FiniteMap.ofList l key <;> rfl

/-- **What an operation makes of a finite map, its byte form makes of the dictionary.** -/
theorem step_ofPairs (room : Bool) (c : Map.Command K V) : ∃ l',
    ((ofPairs l).step (l.map encodeEntry) room c.bytes).2 = ofPairs l' ∧
      ((FiniteMap.ofList l).step l room c).2 = FiniteMap.ofList l' := by
  cases c with
  | insert key value =>
    rw [Map.Command.bytes, step, FiniteMap.step, store_ofPairs]
    cases room with
    | false => exact ⟨l, rfl, rfl⟩
    | true =>
      cases FiniteMap.ofList l key with
      | some _ => exact ⟨l, rfl, rfl⟩
      | none => exact ⟨(key, value) :: l, rfl, (FiniteMap.ofList_cons key value l).symm⟩
  | set key value =>
    rw [Map.Command.bytes, step, FiniteMap.step, store_ofPairs]
    cases room with
    | false => exact ⟨l, rfl, rfl⟩
    | true =>
      have hlist := FiniteMap.ofList_adjust key (fun _ => value) l
      cases h : FiniteMap.ofList l key with
      | some _ =>
        rw [h] at hlist
        exact ⟨_, adjust_ofPairs key l (fun _ => value) fun p => rfl, hlist.symm⟩
      | none => exact ⟨(key, value) :: l, rfl, (FiniteMap.ofList_cons key value l).symm⟩
  | modify key edit =>
    have hlist := FiniteMap.ofList_adjust key edit l
    rw [Map.Command.bytes, step, FiniteMap.step, find_ofPairs]
    cases h : FiniteMap.ofList l key with
    | some value =>
      rw [h] at hlist
      refine ⟨_, adjust_ofPairs key l edit fun p => ?_, hlist.symm⟩
      have hvalue : Plain.decode (encodeEntry p).value = p.2 := Plain.Lawful.decode_encode p.2
      rw [hvalue, write_encodeEntry]
    | none => exact ⟨l, rfl, by rw [Option.map_none, ← h, Function.update_eq_self]⟩
  | remove key =>
    rw [Map.Command.bytes, step, FiniteMap.step, find_ofPairs,
      if_pos (length_encode_ofPairs key l)]
    cases FiniteMap.ofList l key with
    | some value => exact ⟨_, erase_ofPairs key l, (FiniteMap.ofList_erase key l).symm⟩
    | none => exact ⟨l, rfl, rfl⟩
  | clear => exact ⟨[], rfl, rfl⟩
  | each visitor state =>
    refine ⟨_, ?_, rfl⟩
    rw [Map.Command.bytes, step, visitEntries_encode]
    rfl
  | filter keep state =>
    refine ⟨_, ?_, rfl⟩
    rw [Map.Command.bytes, step, selectEntries_encode]
    rfl
  | get | contains | reserve | iterate => exact ⟨l, rfl, rfl⟩

end Dictionary

end TagTable
