import Mathlib.Data.List.Perm.Basic
import TagTable.Proofs.Run.Ledger

/-!
# Families of tables

Tables that share an allocator, from when they are made, by themselves or as copies, until they are
dropped.

* `Member`, `Family`, `Deed`, `Family.act`, `Family.run`: the tables with the grants that their
  buffers came from, the ledger of the allocator, and what is done;
* `Family.Sound`, **`Family.Sound.act`**: the books of a family are right, and every deed keeps them
  so; `Family.Sound.countP_isRequest_act`: a deed makes at most one request;
* **`allocator_ledger`**: what is outstanding, given back and requested.
-/

namespace TagTable

/-- A table and the number of the grant that its buffer came from. -/
structure Member where
  table : Table
  buffer : Option Nat

/-- The live tables, the state of the allocator that they share, and its ledger. -/
structure Family (σ : Type) where
  members : List Member
  heap : σ
  ledger : Ledger

/-- A new table, an operation on one of the tables, a copy of it, which becomes the last table, or its
end. -/
inductive Deed : Type 1 where
  | make (e : EntryLayout) (s : Strategy) (o : Origin)
  | on (table : Nat) (command : Command)
  | copy (table : Nat)
  | drop (table : Nat)

namespace Family

variable {σ : Type} (A : Allocator σ)

/-- No tables. -/
def empty (heap : σ) : Family σ := ⟨[], heap, .blank⟩

/-- The family with a new table, if it could be made. -/
def welcome (w : Family σ) (made : Construction σ Table) : List HeapEvent × Family σ :=
  let (buffer, ledger) := w.ledger.record none made.trace.heap
  (made.trace.heap,
    { members := w.members ++ made.answer.toOption.toList.map (⟨·, buffer⟩)
      heap := made.heap
      ledger })

/-- One deed, with what happened at the allocator. -/
def act (w : Family σ) : Deed → List HeapEvent × Family σ
  | .make e s o => w.welcome (o.make A e s w.heap)
  | .on i c =>
    match w.members[i]? with
    | none => ([], w)
    | some m =>
      let step := m.table.apply A c w.heap
      let (buffer, ledger) := w.ledger.record m.buffer step.trace.heap
      (step.trace.heap, ⟨w.members.set i ⟨step.after, buffer⟩, step.heap, ledger⟩)
  | .copy i =>
    match w.members[i]? with
    | none => ([], w)
    | some m => w.welcome (m.table.copy A w.heap)
  | .drop i =>
    match w.members[i]? with
    | none => ([], w)
    | some m =>
      let (events, heap) := m.table.giveBack A w.heap
      (events, ⟨w.members.eraseIdx i, heap, (w.ledger.record m.buffer events).2⟩)

/-- The family after deeds one after the other. -/
def run (w : Family σ) (ds : List Deed) : Family σ := ds.foldl (fun w d => (w.act A d).2) w

/-- Every table satisfies the invariant and has a buffer of its block, and the ledger is balanced. -/
structure Sound (w : Family σ) : Prop where
  invariant : ∀ m ∈ w.members, m.table.Invariant
  block : ∀ m ∈ w.members, w.ledger.blockOf m.buffer = m.table.block?
  balanced : w.ledger.Balanced (w.members.filterMap Member.buffer)

theorem sound_empty (heap : σ) : (empty heap).Sound :=
  ⟨by simp [empty], by simp [empty], Ledger.balanced_blank⟩

variable {A} {w w' : Family σ} {m : Member} {i : Nat}

theorem act_on (hm : w.members[i]? = some m) (c : Command) :
    w.act A (.on i c) = ((m.table.apply A c w.heap).trace.heap,
      ⟨w.members.set i ⟨(m.table.apply A c w.heap).after,
          (w.ledger.record m.buffer (m.table.apply A c w.heap).trace.heap).1⟩,
        (m.table.apply A c w.heap).heap,
        (w.ledger.record m.buffer (m.table.apply A c w.heap).trace.heap).2⟩) := by
  rw [act, hm]

theorem act_copy (hm : w.members[i]? = some m) :
    w.act A (.copy i) = w.welcome (m.table.copy A w.heap) := by
  rw [act, hm]

theorem act_drop (hm : w.members[i]? = some m) (hi : m.table.Invariant) :
    w.act A (.drop i) = ((m.table.block?.map .released).toList,
      ⟨w.members.eraseIdx i, (m.table.giveBack A w.heap).2,
        (w.ledger.record m.buffer (m.table.block?.map .released).toList).2⟩) := by
  rw [act, hm, ← Table.giveBack_eq A hi w.heap]

theorem filterMap_buffer_singleton (m : Member) :
    [m].filterMap Member.buffer = m.buffer.toList := by
  rw [List.filterMap_cons]
  cases m.buffer <;> rfl

theorem Sound.exchange (hw : w.Sound) (old new others : List Member)
    (hold : w.members.Perm (old ++ others)) (hnew : w'.members.Perm (new ++ others))
    (hinvariant : ∀ m ∈ new, m.table.Invariant)
    (hblock : ∀ m ∈ new, w'.ledger.blockOf m.buffer = m.table.block?)
    (hbalanced : w'.ledger.Balanced (new.filterMap Member.buffer ++ others.filterMap Member.buffer))
    (hkept : ∀ other block, w.ledger.blockOf other = some block →
      w'.ledger.blockOf other = some block) : w'.Sound := by
  have hothers : ∀ m ∈ others, m ∈ w.members := fun m hm =>
    hold.mem_iff.2 (List.mem_append_right _ hm)
  constructor
  · intro m hm
    rcases List.mem_append.1 (hnew.mem_iff.1 hm) with hm | hm
    · exact hinvariant m hm
    · exact hw.invariant m (hothers m hm)
  · intro m hm
    rcases List.mem_append.1 (hnew.mem_iff.1 hm) with hm | hm
    · exact hblock m hm
    · have hb := hw.block m (hothers m hm)
      cases hbuffer : m.buffer with
      | none => rwa [hbuffer] at hb
      | some k =>
        have hheld : k ∈ w.members.filterMap Member.buffer :=
          List.mem_filterMap.2 ⟨m, hothers m hm, hbuffer⟩
        obtain ⟨block, hk⟩ := hw.balanced.blockOf_isSome hheld
        rw [hbuffer, hk] at hb
        exact (hkept _ _ hk).trans hb
  · exact hbalanced.perm ((hnew.filterMap _).trans (.of_eq List.filterMap_append))

theorem Sound.pick (hw : w.Sound) (hm : w.members[i]? = some m) :
    w.members.Perm ([m] ++ w.members.eraseIdx i) ∧
      w.ledger.Balanced (m.buffer.toList ++ (w.members.eraseIdx i).filterMap Member.buffer) := by
  obtain ⟨hi, rfl⟩ := List.getElem?_eq_some_iff.1 hm
  have hp : w.members.Perm ([w.members[i]] ++ w.members.eraseIdx i) :=
    (List.getElem_cons_eraseIdx_perm hi).symm
  refine ⟨hp, hw.balanced.perm (.trans (.of_eq ?_) (hp.filterMap _).symm)⟩
  rw [List.filterMap_append, filterMap_buffer_singleton]

theorem Sound.welcome (hw : w.Sound) {made : Construction σ Table}
    (ho : Orderly none (made.answer.toOption.bind Table.block?) made.trace.heap)
    (hi : ∀ t, made.answer = .ok t → t.Invariant) : (w.welcome made).2.Sound := by
  have h : w.ledger.Balanced ((none : Option Nat).toList ++ w.members.filterMap Member.buffer) :=
    hw.balanced
  obtain ⟨hbalanced, hnew, hkept⟩ := h.record ho rfl
  rw [Family.welcome]
  cases hanswer : made.answer with
  | error error =>
    -- A grant without a table would be a buffer without a block.
    have hnone : (w.ledger.record none made.trace.heap).1 = none := by
      cases hbuffer : (w.ledger.record none made.trace.heap).1 with
      | none => rfl
      | some k =>
        rw [hbuffer] at hbalanced hnew
        obtain ⟨block, hk⟩ := hbalanced.blockOf_isSome (List.mem_cons_self ..)
        rw [hanswer, hk] at hnew
        exact absurd hnew (Option.some_ne_none block)
    rw [hnone] at hbalanced
    exact hw.exchange [] [] _ (.refl _) (.of_eq (List.append_nil _)) (by simp) (by simp) hbalanced
      hkept
  | ok t =>
    rw [hanswer] at hnew
    refine hw.exchange [] [_] _ (.refl _) List.perm_append_comm (fun m hm => ?_) (fun m hm => ?_)
      hbalanced hkept
    · obtain rfl := List.mem_singleton.1 hm
      exact hi t hanswer
    · obtain rfl := List.mem_singleton.1 hm
      exact hnew

theorem Sound.on (hw : w.Sound) (hm : w.members[i]? = some m) (c : Command) :
    (w.act A (.on i c)).2.Sound := by
  have hmem := List.mem_of_getElem? hm
  have hi := hw.invariant m hmem
  obtain ⟨hp, hheld⟩ := hw.pick hm
  obtain ⟨hbalanced, hnew, hkept⟩ :=
    hheld.record (Table.apply_orderly A hi c w.heap) (hw.block m hmem)
  rw [act_on hm]
  refine hw.exchange _ [_] _ hp (List.set_perm_cons_eraseIdx (List.getElem?_eq_some_iff.1 hm).1 _)
    (fun m' hm' => ?_) (fun m' hm' => ?_) ?_ hkept
  · obtain rfl := List.mem_singleton.1 hm'
    exact hi.apply A c w.heap
  · obtain rfl := List.mem_singleton.1 hm'
    exact hnew
  · rwa [filterMap_buffer_singleton]

theorem Sound.drop (hw : w.Sound) (hm : w.members[i]? = some m) :
    (w.act A (.drop i)).2.Sound := by
  have hmem := List.mem_of_getElem? hm
  obtain ⟨hp, hheld⟩ := hw.pick hm
  obtain ⟨hbalanced, hkept⟩ := hheld.record_giveBack (hw.block m hmem)
  rw [act_drop hm (hw.invariant m hmem)]
  exact hw.exchange _ [] _ hp (.refl _) (by simp) (by simp) hbalanced hkept

/-- **Every deed keeps the books right.** -/
theorem Sound.act (hw : w.Sound) (d : Deed) : (w.act A d).2.Sound := by
  cases d with
  | make e s o => exact hw.welcome (o.make_orderly A e s w.heap) fun t => Origin.invariant_make
  | on i c =>
    cases hm : w.members[i]? with
    | none => rwa [Family.act, hm]
    | some m => exact hw.on hm c
  | copy i =>
    cases hm : w.members[i]? with
    | none => rwa [Family.act, hm]
    | some m =>
      have hi := hw.invariant m (List.mem_of_getElem? hm)
      rw [act_copy hm]
      exact hw.welcome (Table.copy_orderly A hi w.heap) fun t => hi.copy A
  | drop i =>
    cases hm : w.members[i]? with
    | none => rwa [Family.act, hm]
    | some m => exact hw.drop hm

theorem Sound.run (hw : w.Sound) (ds : List Deed) : (w.run A ds).Sound := by
  induction ds generalizing w with
  | nil => exact hw
  | cons d ds ih => exact ih (hw.act d)

/-- **What is outstanding are the blocks of the live tables**, each once. -/
theorem Sound.outstanding_perm (hw : w.Sound) :
    w.ledger.outstanding.Perm (w.members.filterMap fun m => m.table.block?) := by
  refine hw.balanced.outstanding_perm.trans (.of_eq ?_)
  rw [List.filterMap_filterMap]
  exact List.filterMap_congr fun m hm => hw.block m hm

/-- **A deed makes at most one request.** -/
theorem Sound.countP_isRequest_act (hw : w.Sound) (d : Deed) :
    (w.act A d).1.countP HeapEvent.isRequest ≤ 1 := by
  cases d with
  | make e s o => exact (o.make_orderly A e s w.heap).countP_isRequest_le
  | on i c =>
    cases hm : w.members[i]? with
    | none => simp [Family.act, hm]
    | some m =>
      rw [act_on hm]
      exact (Table.apply_orderly A (hw.invariant m (List.mem_of_getElem? hm)) c _).countP_isRequest_le
  | copy i =>
    cases hm : w.members[i]? with
    | none => simp [Family.act, hm]
    | some m =>
      rw [act_copy hm]
      exact (Table.copy_orderly A (hw.invariant m (List.mem_of_getElem? hm)) _).countP_isRequest_le
  | drop i =>
    cases hm : w.members[i]? with
    | none => simp [Family.act, hm]
    | some m =>
      rw [act_drop hm (hw.invariant m (List.mem_of_getElem? hm))]
      cases m.table.block? <;> simp [HeapEvent.isRequest]

/-- What the books of a family show. -/
structure Accounted (w : Family σ) : Prop where
  /-- The blocks that were granted and not yet given back are those of the live tables with a buffer,
  each once. -/
  outstanding : w.ledger.outstanding.Perm (w.members.filterMap fun m => m.table.block?)
  /-- Every block that was granted is one of those or was given back. -/
  conserved : w.ledger.granted.Perm (w.ledger.outstanding ++ w.ledger.released.map Prod.snd)
  /-- The block of a buffer is always found again from the capacity. -/
  block : ∀ m ∈ w.members, ∃ block,
    m.table.geometry.bufferBlock (m.table.capacity / groupSize) = .ok block ∧
      m.table.block? = if m.table.capacity = 0 then none else some block
  /-- A buffer was given back as the block that was granted for it. -/
  named : ∀ x ∈ w.ledger.released, ∃ k, x.1 = some k ∧ w.ledger.granted[k]? = some x.2
  /-- No buffer was given back twice. -/
  once : (w.ledger.released.map Prod.fst).Nodup

theorem Sound.accounted (hw : w.Sound) : w.Accounted := by
  obtain ⟨hnodup, hnamed⟩ := hw.balanced.released_nodup
  refine ⟨hw.outstanding_perm, hw.balanced.granted_perm, fun m hm => ?_, hnamed, hnodup⟩
  obtain ⟨block, hblock⟩ := (hw.invariant m hm).bufferBlock_eq_ok
  rw [Table.block?, Table.capacity_div, hblock]
  exact ⟨block, rfl, rfl⟩

end Family

/-- **The ledger of an allocator.** After any deeds in a family of tables what is outstanding are the
blocks of the live tables; buffers are given back once, as the blocks that were granted; and a deed
makes at most one request. -/
theorem allocator_ledger {σ : Type} (A : Allocator σ) (heap : σ) (ds : List Deed) :
    let w := (Family.empty heap).run A ds
    (w.Accounted ∧ (w.members = [] → w.ledger.outstanding = [])) ∧
      (∀ d, (w.act A d).1.countP HeapEvent.isRequest ≤ 1) ∧
      ∀ i m, w.members[i]? = some m →
        (∀ c, Orderly m.table.block? (m.table.apply A c w.heap).after.block?
          (w.act A (.on i c)).1) ∧
        (w.act A (.drop i)).1 = (m.table.block?.map .released).toList := by
  intro w
  have hw : w.Sound := (Family.sound_empty heap).run ds
  refine ⟨⟨hw.accounted, fun h => ?_⟩, hw.countP_isRequest_act, fun i m hm => ⟨fun c => ?_, ?_⟩⟩
  · have hp := hw.outstanding_perm
    rw [h] at hp
    exact hp.eq_nil
  · rw [Family.act_on hm]
    exact Table.apply_orderly A (hw.invariant m (List.mem_of_getElem? hm)) c w.heap
  · rw [Family.act_drop hm (hw.invariant m (List.mem_of_getElem? hm))]

/-- A table and its copy are made, the table grows, a second copy is refused, and the first one is
dropped. -/
example : ((Family.empty ⟨some 3, 100, 16⟩).run Allocator.quota
    [.make ⟨1, 1, 1, 1⟩ (.ofHash "" fun _ => 0) (.withRoom 11), .copy 0, .on 0 (.reserve 12), .copy 0,
      .drop 1]).ledger =
    ⟨[⟨48, 16⟩, ⟨48, 16⟩, ⟨96, 16⟩], [(some 0, ⟨48, 16⟩), (some 1, ⟨48, 16⟩)]⟩ := by
  decide +kernel

end TagTable
