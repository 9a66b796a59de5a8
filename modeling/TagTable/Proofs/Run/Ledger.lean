import TagTable.Proofs.Run.Requests

/-!
# The ledger of an allocator

What an allocator has granted and what was given back to it. A buffer is known by the number of the
grant that it came from, so that two buffers of the same size and alignment are told apart.

An event names the block of a release and not the buffer. That a table gives back the buffer that it had
before the operation is how the events are read here (`Ledger.enter`) and is not proved. Proved is the
rest: the block that is named, computed anew from the capacity, is the one that was granted for this
buffer; every buffer is given back, and once; the new one is granted first; and operations on several
tables do not disturb each other.

* `Ledger`, `Ledger.grant`, `Ledger.release`, `Ledger.enter`, `Ledger.record`: the ledger, and how the
  events of an operation on a table are entered;
* `Ledger.outstanding`: the blocks that were granted and not yet given back;
* `Ledger.Balanced`: every grant is either held or was given back, once and as the block that it was;
* **`Ledger.Balanced.record`**, `Ledger.Balanced.record_giveBack`: orderly events keep the balance;
* **`Ledger.Balanced.outstanding_perm`**, `Ledger.Balanced.granted_perm`: what is outstanding is what is
  held, and everything else that was granted was given back.
-/

namespace TagTable

/-- What an allocator has granted and what it was given back, each in order. -/
structure Ledger where
  granted : List Block
  /-- The buffer that was given back, if there was one, and the block that was named for it. -/
  released : List (Option Nat × Block)
deriving DecidableEq

namespace Ledger

/-- Nothing granted yet. -/
def blank : Ledger := ⟨[], []⟩

/-- A block more that was granted. -/
def grant (l : Ledger) (block : Block) : Ledger := { l with granted := l.granted ++ [block] }

/-- A buffer more that was given back, with the block named for it. -/
def release (l : Ledger) (buffer : Option Nat) (block : Block) : Ledger :=
  { l with released := l.released ++ [(buffer, block)] }

/-- The block that was granted for a buffer. -/
def blockOf (l : Ledger) (buffer : Option Nat) : Option Block := buffer.bind fun k => l.granted[k]?

/-- The buffers that were given back. -/
def returned (l : Ledger) : List Nat := l.released.filterMap Prod.fst

/-- The blocks that were granted and not yet given back. -/
def outstanding (l : Ledger) : List Block :=
  (List.range l.granted.length).filterMap fun k =>
    if k ∈ l.returned then none else l.blockOf (some k)

/-- One event at a table, which had the buffer `old` before the operation: a grant gives it a new buffer,
and what is given back is taken to be the old one, for the event does not say. Whether `block` is what
was granted for it is left open (`Ledger.Balanced`). -/
def enter (old : Option Nat) : Option Nat × Ledger → HeapEvent → Option Nat × Ledger
  | (_, l), .granted block => (some l.granted.length, l.grant block)
  | (buffer, l), .refused _ => (buffer, l)
  | (buffer, l), .released block => (if buffer = old then none else buffer, l.release old block)

/-- The buffer of a table and the ledger after the events of an operation on that table. -/
def record (l : Ledger) (buffer : Option Nat) (events : List HeapEvent) : Option Nat × Ledger :=
  events.foldl (enter buffer) (buffer, l)

/-- Every grant is either one of the buffers that are held or was given back, and not both or twice;
and what was given back was named as the block that was granted. -/
structure Balanced (l : Ledger) (held : List Nat) : Prop where
  once : (held ++ l.returned).Perm (List.range l.granted.length)
  named : ∀ x ∈ l.released, l.blockOf x.1 = some x.2

variable {l : Ledger} {held : List Nat}

theorem balanced_blank : blank.Balanced [] := ⟨.refl _, fun _ hx => absurd hx List.not_mem_nil⟩

theorem Balanced.perm {held' : List Nat} (h : l.Balanced held) (hp : held'.Perm held) :
    l.Balanced held' :=
  ⟨(hp.append_right _).trans h.once, h.named⟩

theorem blockOf_grant {buffer : Option Nat} {block : Block} (h : l.blockOf buffer = some block)
    (new : Block) : (l.grant new).blockOf buffer = some block := by
  obtain ⟨k, rfl, hk⟩ := Option.bind_eq_some_iff.1 h
  exact (List.getElem?_append_left (List.getElem?_eq_some_iff.1 hk).1).trans hk

theorem blockOf_grant_length (l : Ledger) (block : Block) :
    (l.grant block).blockOf (some l.granted.length) = some block :=
  List.getElem?_concat_length

theorem Balanced.blockOf_isSome (h : l.Balanced held) {k : Nat} (hk : k ∈ held) :
    ∃ block, l.blockOf (some k) = some block := by
  have hlt : k < l.granted.length :=
    List.mem_range.1 (h.once.mem_iff.1 (List.mem_append_left _ hk))
  exact ⟨l.granted[k], List.getElem?_eq_getElem hlt⟩

theorem Balanced.grant (h : l.Balanced held) (block : Block) :
    (l.grant block).Balanced (l.granted.length :: held) := by
  refine ⟨?_, fun x hx => blockOf_grant (h.named x hx) block⟩
  have hlen : (l.grant block).granted.length = l.granted.length + 1 := List.length_append
  rw [hlen, List.range_succ]
  exact (h.once.cons _).trans (List.perm_append_singleton _ _).symm

theorem Balanced.release {k : Nat} {block : Block} (h : l.Balanced (k :: held))
    (hk : l.blockOf (some k) = some block) : (l.release (some k) block).Balanced held := by
  constructor
  · have hreturned : (l.release (some k) block).returned = l.returned ++ [k] := by
      simp [returned, Ledger.release]
    rw [hreturned, ← List.append_assoc]
    exact (List.perm_append_singleton k _).trans h.once
  · intro x hx
    rcases List.mem_append.1 hx with hx | hx
    · exact h.named x hx
    · obtain rfl := List.mem_singleton.1 hx
      exact hk

/-- **The events of an orderly operation keep the balance**, and the table is left with a buffer of its
block. -/
theorem Balanced.record {buffer : Option Nat} {old new : Option Block} {events : List HeapEvent}
    (ho : Orderly old new events) (h : l.Balanced (buffer.toList ++ held))
    (hold : l.blockOf buffer = old) :
    (l.record buffer events).2.Balanced ((l.record buffer events).1.toList ++ held) ∧
      (l.record buffer events).2.blockOf (l.record buffer events).1 = new ∧
      ∀ other block, l.blockOf other = some block →
        (l.record buffer events).2.blockOf other = some block := by
  cases ho with
  | quiet => exact ⟨h, hold, fun _ _ hb => hb⟩
  | refused => exact ⟨h, hold, fun _ _ hb => hb⟩
  | granted block =>
    have hgrown := h.grant block
    cases buffer with
    | none =>
      obtain rfl : none = old := hold
      exact ⟨hgrown, l.blockOf_grant_length block, fun _ _ hb => blockOf_grant hb block⟩
    | some k =>
      obtain ⟨before, hk⟩ := h.blockOf_isSome (List.mem_cons_self ..)
      obtain rfl : some before = old := hk.symm.trans hold
      have hnew : some l.granted.length ≠ some k := by
        obtain ⟨hlt, -⟩ := List.getElem?_eq_some_iff.1 hk
        simp only [ne_eq, Option.some.injEq]
        omega
      have hrecord : l.record (some k) (.granted block :: ((some before).map .released).toList) =
          (some l.granted.length, (l.grant block).release (some k) before) :=
        Prod.ext (if_neg hnew) rfl
      rw [hrecord]
      exact ⟨(hgrown.perm (List.Perm.swap ..)).release (blockOf_grant hk block),
        l.blockOf_grant_length block, fun _ _ hb => blockOf_grant hb block⟩

theorem Balanced.record_giveBack {buffer : Option Nat} {old : Option Block}
    (h : l.Balanced (buffer.toList ++ held)) (hold : l.blockOf buffer = old) :
    (l.record buffer (old.map .released).toList).2.Balanced held ∧
      ∀ other block, l.blockOf other = some block →
        (l.record buffer (old.map .released).toList).2.blockOf other = some block := by
  cases buffer with
  | none =>
    obtain rfl : none = old := hold
    exact ⟨h, fun _ _ hb => hb⟩
  | some k =>
    obtain ⟨block, hk⟩ := h.blockOf_isSome (List.mem_cons_self ..)
    obtain rfl : some block = old := hk.symm.trans hold
    exact ⟨h.release hk, fun _ _ hb => hb⟩

/-- **What is outstanding is what is held.** -/
theorem Balanced.outstanding_perm (h : l.Balanced held) :
    l.outstanding.Perm (held.filterMap fun k => l.blockOf (some k)) := by
  have hnodup : (held ++ l.returned).Nodup := h.once.nodup_iff.2 List.nodup_range
  refine (h.once.symm.filterMap _).trans (.of_eq ?_)
  have hreturned :
      l.returned.filterMap (fun k => if k ∈ l.returned then none else l.blockOf (some k)) = [] :=
    List.filterMap_eq_nil_iff.2 fun k hk => if_pos hk
  rw [List.filterMap_append, hreturned, List.append_nil]
  refine List.filterMap_congr fun k hk => if_neg fun hgone => ?_
  exact (List.nodup_append.1 hnodup).2.2 k hk k hgone rfl

theorem filterMap_blockOf_range (l : Ledger) :
    ((List.range l.granted.length).filterMap fun k => l.blockOf (some k)) = l.granted := by
  have hmap : (List.range l.granted.length).map (fun k => l.blockOf (some k)) = l.granted.map some :=
    List.ext_getElem (by simp) (by simp [blockOf])
  have hjoin := congrArg (List.filterMap id) hmap
  rw [List.filterMap_map, List.filterMap_map] at hjoin
  exact hjoin.trans List.filterMap_some

/-- **Every block that was granted is outstanding or was given back.** -/
theorem Balanced.granted_perm (h : l.Balanced held) :
    l.granted.Perm (l.outstanding ++ l.released.map Prod.snd) := by
  have hreturned : (l.returned.filterMap fun k => l.blockOf (some k)) = l.released.map Prod.snd := by
    rw [returned, List.filterMap_filterMap, ← List.filterMap_eq_map]
    refine List.filterMap_congr fun x hx => ?_
    obtain ⟨k, hk, -⟩ := Option.bind_eq_some_iff.1 (h.named x hx)
    have hx := h.named x hx
    rw [hk] at hx ⊢
    exact hx
  have hall := h.once.symm.filterMap fun k => l.blockOf (some k)
  rw [filterMap_blockOf_range, List.filterMap_append, hreturned] at hall
  exact hall.trans (h.outstanding_perm.symm.append_right _)

theorem Balanced.released_nodup (h : l.Balanced held) :
    (l.released.map Prod.fst).Nodup ∧
      ∀ x ∈ l.released, ∃ k, x.1 = some k ∧ l.granted[k]? = some x.2 := by
  have hsome : l.released.map Prod.fst = l.returned.map some := by
    rw [returned, List.map_filterMap, ← List.filterMap_eq_map]
    refine List.filterMap_congr fun x hx => ?_
    obtain ⟨k, hk, -⟩ := Option.bind_eq_some_iff.1 (h.named x hx)
    simp [hk]
  refine ⟨?_, fun x hx => Option.bind_eq_some_iff.1 (h.named x hx)⟩
  rw [hsome]
  exact (h.once.nodup_iff.2 List.nodup_range).of_append_right.map (Option.some_injective _)

end Ledger

end TagTable
