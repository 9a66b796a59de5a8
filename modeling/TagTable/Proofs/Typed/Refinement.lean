import TagTable.Proofs.Map.Refinement
import TagTable.Proofs.Typed.Encoding
import TagTable.Typed.Compound

/-!
# Typed maps refine finite maps

* `Depicts`: a map whose table represents the byte forms of the pairs of a finite map;
* `Depicts.found`, `Depicts.removed`, `Map.Cursor.takeViews_eq`: what operations read;
* **`Depicts.answer`**, **`Depicts.after`**: every operation answers as the finite map does;
* **`map_refines_finite_map`**: every history of a map is one of the empty finite map.
-/

namespace TagTable

variable {K V : Type} [Plain K] [Plain V]

/-- The map's table holds the byte forms of the pairs of the finite map. -/
structure Depicts (m : Map K V) (f : FiniteMap K V) : Prop where
  represents : Represents m.table (.ofPairs m.entries)
  lists : Lists m.entries f

/-! ## The entries of a map -/

theorem Map.Cursor.takeViews_eq {α : Type} (view : K × V → α) (steps : Nat) (c : Cursor K V) :
    c.takeViews view steps = (c.raw.takeNext steps).map fun e => view (decodeEntry K V e) := by
  induction steps generalizing c with
  | zero => rfl
  | succ steps ih =>
    rw [takeViews, TagTable.Cursor.takeNext, nextView, next]
    rcases c.raw.next with ⟨_ | e, raw⟩
    · rfl
    · exact congrArg (view (decodeEntry K V e) :: ·) (ih ⟨raw⟩)

theorem Map.entries_eq {m : Map K V} (h : m.table.Invariant) :
    m.entries = m.table.entries.map (decodeEntry K V) :=
  congrArg (List.map (decodeEntry K V)) (m.table.drain_cursor h.count_eq_length)

theorem Distinct.nodup_keys {l : List (K × V)}
    (h : Distinct (fun a b => a == b) (l.map encodeEntry)) : (l.map Prod.fst).Nodup := by
  rw [Distinct, List.pairwise_map, List.pairwise_map] at h
  rw [List.Nodup, List.pairwise_map]
  refine h.imp fun {p q} hpq heq => ?_
  have hsame : (encodeEntry p).key = (encodeEntry q).key := congrArg Plain.encode heq
  rw [hsame, beq_self_eq_true] at hpq
  exact absurd hpq.1 (by decide)

variable [Plain.Lawful K] [Plain.Lawful V]

namespace Depicts

variable {m : Map K V} {f : FiniteMap K V}

/-- **A stored entry is the byte form of a pair.** -/
theorem table_entries (h : Depicts m f) : m.table.entries = m.entries.map encodeEntry := by
  have hi := h.represents.invariant
  rw [Map.entries_eq hi, List.map_map]
  refine ((List.map_congr_left fun e he => ?_).trans (List.map_id _)).symm
  obtain ⟨hk, hv⟩ := hi.entry_sizes he
  exact encodeEntry_decodeEntry (hk.trans h.represents.keySize) (hv.trans h.represents.valueSize)

variable [DecidableEq K]

theorem of_pairs {l : List (K × V)} (hr : Represents m.table (.ofPairs l)) :
    Depicts m (FiniteMap.ofList l) := by
  have hperm : m.entries.Perm l := by
    rw [Map.entries_eq hr.invariant]
    refine (hr.entries.map (Map.decodeEntry K V)).trans (.of_eq ?_)
    rw [Dictionary.ofPairs, List.map_map]
    exact (List.map_congr_left fun p _ => decodeEntry_encodeEntry p).trans (List.map_id l)
  exact ⟨hr.of_perm (hperm.map encodeEntry),
    (lists_ofList hr.distinct.nodup_keys).perm hperm.symm⟩

/-! ## What is read -/

theorem found (h : Depicts m f) (key : K) :
    (m.table.find (Plain.encode key)).answer.map (fun p => Plain.decode (m.table.entryAt p).value) =
      f key := by
  have hfind := h.represents.find (Plain.encode key)
  rw [Dictionary.find_ofPairs, ← h.lists.eq_ofList] at hfind
  have hread := congrArg (Option.map fun e : Entry => (Plain.decode e.value : V)) hfind
  rw [Option.map_map, Option.map_map] at hread
  refine Eq.trans hread.symm ?_
  cases f key with
  | none => rfl
  | some value => exact congrArg some (Plain.Lawful.decode_encode value)

theorem removed (h : Depicts m f) (key : K) : (m.remove key).answer.1 =
    match f key with
    | some value => .ok value
    | none => .error .notFound := by
  have hk : (Plain.encode key).length = m.table.geometry.keySize :=
    (Dictionary.length_encode_ofPairs key m.entries).trans h.represents.keySize.symm
  have hfound := h.found key
  rw [Table.find, if_pos hk] at hfound
  rw [Map.remove, Table.take, if_pos hk, ← hfound]
  dsimp only [Reply.map]
  cases (m.table.probe (Plain.encode key)).found <;> rfl

/-- **Every operation answers as the finite map does.** -/
theorem answer {σ : Type} (A : Allocator σ) (h : Depicts m f) (c : Map.Command K V) (heap : σ) :
    (m.apply A c heap).answer =
      (f.step m.entries (m.table.prepare A c.bytes heap).result.isOk c).1 := by
  have hlawful : c.bytes.Lawful (Dictionary.ofPairs m.entries).keySize := by cases c <;> trivial
  -- Additions and reservations answer as the bytes do.
  have hbytes := (h.represents.apply A hlawful heap).1
  have hentries := h.table_entries
  generalize (m.table.prepare A c.bytes heap).result.isOk = room at hbytes ⊢
  have hf := h.lists.eq_ofList
  cases c with
  | insert key value
  | set key value =>
    rw [Map.Command.bytes, Dictionary.step, Dictionary.store_ofPairs, ← hf] at hbytes
    rw [FiniteMap.step]
    cases room with
    | false => exact congrArg Map.Answer.done (Answer.done.inj hbytes)
    | true =>
      cases hkey : f key <;> rw [hkey] at hbytes <;>
        exact congrArg Map.Answer.done (Answer.done.inj hbytes)
  | get key =>
    exact congrArg Map.Answer.value ((Option.map_map _ _ _).trans (h.found key))
  | modify key edit =>
    refine congrArg Map.Answer.value ?_
    rw [← h.found key, Map.modify, Table.modify]
    dsimp only [Reply.map]
    cases (m.table.find (Plain.encode key)).answer <;> rfl
  | contains key =>
    refine congrArg Map.Answer.present ?_
    rw [← h.found key, Option.isSome_map]
    exact Option.isSome_map
  | remove key =>
    refine (congrArg Map.Answer.removed (h.removed key)).trans ?_
    rw [FiniteMap.step]
    cases f key <;> rfl
  | reserve n => exact congrArg Map.Answer.done (Answer.done.inj hbytes)
  | clear => rfl
  | each visitor state =>
    have hsweep := m.table.visitEntries_entries (Map.Visit.bytes visitor) state
    rw [hentries, visitEntries_encode] at hsweep
    obtain ⟨hstate, -, hstopped⟩ := Sweep.mk.inj hsweep
    rw [FiniteMap.step, Sweep.result, hstate, hstopped]
    rfl
  | filter keep state =>
    have hselection := m.table.selectEntries_entries
      (fun state key value => keep state (Plain.decode key) (Plain.decode value)) state
    rw [hentries, selectEntries_encode] at hselection
    exact congrArg Map.Answer.selected (Selection.mk.inj hselection).1.symm
  | iterate view =>
    refine congrArg Map.Answer.listed ((Map.Cursor.takeViews_eq view _ m.cursor).trans ?_)
    exact (List.map_map).symm

/-- **Every operation leaves the finite map that it should.** -/
theorem after {σ : Type} (A : Allocator σ) (h : Depicts m f) (c : Map.Command K V) (heap : σ) :
    Depicts (m.apply A c heap).after
      (f.step m.entries (m.table.prepare A c.bytes heap).result.isOk c).2 := by
  have hlawful : c.bytes.Lawful (Dictionary.ofPairs m.entries).keySize := by cases c <;> trivial
  have hafter := (h.represents.apply A hlawful heap).2
  generalize (m.table.prepare A c.bytes heap).result.isOk = room at hafter ⊢
  obtain ⟨l, hdictionary, hmap⟩ := Dictionary.step_ofPairs m.entries room c
  rw [h.table_entries, hdictionary, ← (m.table_apply A c heap).1] at hafter
  rw [h.lists.eq_ofList, hmap]
  exact of_pairs hafter

/-- **A run of operations is a history of the finite map**, at the end of which the map still depicts
it. -/
theorem run {σ : Type} (A : Allocator σ) (h : Depicts m f) (cs : List (Map.Command K V)) (heap : σ) :
    ∃ f', f.Allows (m.history A cs heap) f' ∧ Depicts (m.run A cs heap).1 f' := by
  induction cs generalizing m f heap with
  | nil => exact ⟨f, .nil f, h⟩
  | cons c cs ih =>
    obtain ⟨f', hallows, h'⟩ := ih (h.after A c heap) (m.apply A c heap).heap
    refine ⟨f', ?_, h'⟩
    rw [Map.history, h.answer A c heap]
    exact .cons h.lists hallows

end Depicts

theorem Origin.depicts [DecidableEq K] {σ : Type} {A : Allocator σ} {label : String}
    {hash : Bytes → UInt64} {o : Origin} {heap : σ} {m : Map K V}
    (h : (o.makeMap A K V (.ofHash label hash) heap).answer = .ok m) : Depicts m .empty := by
  have hr := o.represents (Strategy.lawful_ofHash label hash (Plain.size K)) (make_of_makeMap h)
  exact Depicts.of_pairs (l := []) hr

/-- **A typed map is a finite map on values.** Its answers are those that the empty finite map may give,
and in the end its table holds the byte forms of its pairs, each once, and nothing else. -/
theorem map_refines_finite_map :
    (Plain.Lawful UInt8 ∧ Plain.Lawful UInt16 ∧ Plain.Lawful UInt32 ∧ Plain.Lawful UInt64 ∧
      Plain.Lawful Int32 ∧ Plain.Lawful Int64 ∧ Plain.Lawful Binary64 ∧ Plain.Lawful Unit ∧
      Plain.Lawful Point ∧ ∀ n, Plain.Lawful (Vector UInt8 n)) ∧
    ∀ (K V : Type) [Plain K] [Plain V] [Plain.Lawful K] [Plain.Lawful V] [DecidableEq K] (σ : Type)
      (A : Allocator σ) (label : String) (hash : Bytes → UInt64) (o : Origin) (heap : σ) (m : Map K V),
      (o.makeMap A K V (.ofHash label hash) heap).answer = .ok m →
      ∀ (cs : List (Map.Command K V)) (heap : σ), ∃ f,
        FiniteMap.empty.Allows (m.history A cs heap) f ∧
        Lists (m.run A cs heap).1.entries f ∧
        (m.run A cs heap).1.table.entries = (m.run A cs heap).1.entries.map encodeEntry ∧
        (m.run A cs heap).1.size = (m.run A cs heap).1.entries.length := by
  refine ⟨⟨inferInstance, inferInstance, inferInstance, inferInstance, inferInstance, inferInstance,
    inferInstance, inferInstance, inferInstance, fun n => inferInstance⟩, ?_⟩
  intro K V _ _ _ _ _ σ A label hash o heap m hm cs heap
  obtain ⟨f, hallows, h⟩ := (Origin.depicts hm).run A cs heap
  exact ⟨f, hallows, h.lists, h.table_entries, h.represents.count_eq.trans (List.length_map _)⟩

/-- A map from points to integers. -/
def plane : Map Point Int32 :=
  ⟨.vacant (.ofTypes Point Int32) ⟨8, 4, 16, 144, 208, 16⟩ (.ofHash "" fun _ => 0)⟩

/-- Operations on a map of an allocator that grants a single buffer. -/
def planeCommands : List (Map.Command Point Int32) :=
  [.insert ⟨-1, 2⟩ 5, .insert ⟨2, -1⟩ (-6), .insert ⟨-1, 2⟩ 7, .modify ⟨2, -1⟩ fun n => n - 1,
    .remove ⟨-1, 2⟩, .reserve 100, .each (fun _ _ n => ⟨(), n + n, false⟩) (), .iterate Prod.fst]

theorem map_refines_finite_map_plane :
    (plane.run Allocator.quota planeCommands ⟨some 1, 1024, 16⟩).1.entries = [(⟨2, -1⟩, -14)] ∧
    ∃ f, FiniteMap.empty.Allows (plane.history Allocator.quota planeCommands ⟨some 1, 1024, 16⟩) f ∧
      f ⟨2, -1⟩ = some (-14) := by
  have hentries : (plane.run Allocator.quota planeCommands ⟨some 1, 1024, 16⟩).1.entries =
      [(⟨2, -1⟩, -14)] := by decide +kernel
  obtain ⟨f, hallows, hlists, -, -⟩ := map_refines_finite_map.2 Point Int32 _ Allocator.quota ""
    (fun _ => 0) .empty ⟨some 1, 1024, 16⟩ plane rfl planeCommands ⟨some 1, 1024, 16⟩
  refine ⟨hentries, f, hallows, (hlists.mem_iff _ _).1 ?_⟩
  exact hentries ▸ List.mem_singleton_self _

end TagTable
