import Mathlib.Data.List.Nodup
import Mathlib.Data.List.Perm.Subperm
import Mathlib.Logic.Function.Basic

/-!
# A pool of linked cells

The cells of a pool are linked by a function that gives the next cell.  Some of them form a
queue with a head and a tail, some a list of free cells, and each other one is held by a client.

Main results:

- Theorems {lit}`Pool.acquire` and {lit}`Pool.release`: a client takes the first free cell and
  gives one back.
- Theorems {lit}`Pool.append`, {lit}`Pool.push` and {lit}`Pool.unlink`: a client links its cell
  behind the queue or in front of it, and takes the first one of the queue.
- Theorem {lit}`Pool.length_add_length`: when nobody holds a cell, the two lists have all cells.

Current gaps:

- None.
-/

namespace TestAio
namespace Library
namespace CellPool

variable {Cell Client : Type}

/-! ## Chains -/

/-- The cells that are reached from a start, in order. -/
def Chain (next : Cell → Option Cell) : Option Cell → List Cell → Prop
  | start, [] => start = none
  | start, cell :: cells => start = some cell ∧ Chain next (next cell) cells

/-- A chain from nowhere has no cells. -/
theorem Chain.eq_nil {next : Cell → Option Cell} {cells : List Cell}
    (h : Chain next none cells) : cells = [] := by
  cases cells with
  | nil => rfl
  | cons cell cells => cases h.1

/-- A chain starts with its first cell and goes on behind it. -/
theorem Chain.exists_cons {next : Cell → Option Cell} {cell : Cell} {cells : List Cell}
    (h : Chain next (some cell) cells) :
    ∃ rest, cells = cell :: rest ∧ Chain next (next cell) rest := by
  cases cells with
  | nil => cases h
  | cons first rest =>
      cases h.1
      exact ⟨rest, rfl, h.2⟩

section Update

variable [DecidableEq Cell] {next : Cell → Option Cell} {start : Option Cell} {cell : Cell}
  {cells : List Cell}

/-- The link of another cell does not matter. -/
theorem Chain.update (h : Chain next start cells) (hmem : cell ∉ cells) (link : Option Cell) :
    Chain (Function.update next cell link) start cells := by
  induction cells generalizing start with
  | nil => exact h
  | cons first rest ih =>
      have hne : first ≠ cell := fun heq => hmem (heq ▸ List.mem_cons_self)
      refine ⟨h.1, ?_⟩
      rw [Function.update_of_ne hne]
      exact ih h.2 fun hrest => hmem (List.mem_cons_of_mem first hrest)

/-- A cell is linked in front. -/
theorem Chain.push (h : Chain next start cells) (hmem : cell ∉ cells) :
    Chain (Function.update next cell start) (some cell) (cell :: cells) := by
  refine ⟨rfl, ?_⟩
  rw [Function.update_self]
  exact h.update hmem start

/-- A cell without a next one is linked behind the last cell. -/
theorem Chain.append {last : Cell} (h : Chain next start (cells ++ [last]))
    (hnodup : (cells ++ [last]).Nodup) (hend : next cell = none) (hmem : cell ∉ cells ++ [last]) :
    Chain (Function.update next last (some cell)) start (cells ++ [last] ++ [cell]) := by
  induction cells generalizing start with
  | nil =>
      have hne : cell ≠ last := fun heq => hmem (heq ▸ List.mem_cons_self)
      refine ⟨h.1, ?_⟩
      rw [Function.update_self]
      refine ⟨rfl, ?_⟩
      rw [Function.update_of_ne hne, hend]
      rfl
  | cons first rest ih =>
      have hparts := List.nodup_cons.mp hnodup
      have hne : first ≠ last := by
        rintro rfl
        exact hparts.1 (List.mem_append_right rest List.mem_cons_self)
      refine ⟨h.1, ?_⟩
      rw [Function.update_of_ne hne]
      exact ih h.2 hparts.2 fun hrest => hmem (List.mem_cons_of_mem first hrest)

end Update

/-! ## Who has a cell -/

/-- Each cell is either linked, once, or held by one client. -/
structure Share (held : Client → Option Cell) (all linked : List Cell) : Prop where
  nodup : linked.Nodup
  mem_all : ∀ cell ∈ linked, cell ∈ all
  held_iff : ∀ cell ∈ all, (∃ client, held client = some cell) ↔ cell ∉ linked
  held_mem : ∀ client cell, held client = some cell → cell ∈ all
  held_inj : ∀ client client' cell, held client = some cell → held client' = some cell →
    client = client'

/-- The order of the linked cells does not matter. -/
theorem Share.perm {held : Client → Option Cell} {all linked linked' : List Cell}
    (h : Share held all linked) (hperm : linked.Perm linked') : Share held all linked' where
  nodup := hperm.nodup_iff.mp h.nodup
  mem_all cell hmem := h.mem_all cell (hperm.mem_iff.mpr hmem)
  held_iff cell hmem := by rw [h.held_iff cell hmem, hperm.mem_iff]
  held_mem := h.held_mem
  held_inj := h.held_inj

/-- A cell that a client holds is not linked. -/
theorem Share.not_mem {held : Client → Option Cell} {all linked : List Cell} {client : Client}
    {cell : Cell} (h : Share held all linked) (hheld : held client = some cell) :
    cell ∉ linked :=
  (h.held_iff cell (h.held_mem client cell hheld)).mp ⟨client, hheld⟩

section Share

variable [DecidableEq Client] {held : Client → Option Cell} {all linked : List Cell}
  {client : Client} {cell : Cell}

/-- A client takes a linked cell. -/
theorem Share.take (h : Share held all (cell :: linked)) (hnone : held client = none) :
    Share (Function.update held client (some cell)) all linked := by
  have hparts := List.nodup_cons.mp h.nodup
  refine ⟨hparts.2, fun other hmem => h.mem_all other (List.mem_cons_of_mem cell hmem),
    fun other hmem => ⟨?_, fun hnot => ?_⟩, fun client' other hheld => ?_,
    fun client' client'' other hheld hheld' => ?_⟩
  · rintro ⟨client', hheld⟩ hlinked
    by_cases hclient : client' = client
    · subst hclient
      rw [Function.update_self] at hheld
      cases hheld
      exact hparts.1 hlinked
    · rw [Function.update_of_ne hclient] at hheld
      exact h.not_mem hheld (List.mem_cons_of_mem cell hlinked)
  · by_cases heq : other = cell
    · exact ⟨client, by rw [Function.update_self, heq]⟩
    · have hout : other ∉ cell :: linked := fun hcons => (List.mem_cons.mp hcons).elim heq hnot
      rcases (h.held_iff other hmem).mpr hout with ⟨client', hheld⟩
      have hclient : client' ≠ client := by
        rintro rfl
        rw [hnone] at hheld
        cases hheld
      exact ⟨client', by rw [Function.update_of_ne hclient, hheld]⟩
  · by_cases hclient : client' = client
    · subst hclient
      rw [Function.update_self] at hheld
      cases hheld
      exact h.mem_all cell List.mem_cons_self
    · rw [Function.update_of_ne hclient] at hheld
      exact h.held_mem client' other hheld
  · -- a client that had its cell before cannot have the linked one
    have hold : ∀ {other}, other ≠ client → Function.update held client (some cell) other =
        some cell → False := by
      intro other hne hheld
      rw [Function.update_of_ne hne] at hheld
      exact h.not_mem hheld List.mem_cons_self
    by_cases hclient : client' = client <;> by_cases hclient' : client'' = client
    · rw [hclient, hclient']
    · subst hclient
      rw [Function.update_self] at hheld
      cases hheld
      exact (hold hclient' hheld').elim
    · subst hclient'
      rw [Function.update_self] at hheld'
      cases hheld'
      exact (hold hclient hheld).elim
    · rw [Function.update_of_ne hclient] at hheld
      rw [Function.update_of_ne hclient'] at hheld'
      exact h.held_inj client' client'' other hheld hheld'

/-- A client links its cell. -/
theorem Share.give (h : Share held all linked) (hheld : held client = some cell) :
    Share (Function.update held client none) all (cell :: linked) := by
  have hmem := h.held_mem client cell hheld
  have hkeep : ∀ {other client'}, Function.update held client none client' = some other →
      client' ≠ client ∧ held client' = some other := by
    intro other client' hother
    by_cases hclient : client' = client
    · subst hclient
      rw [Function.update_self] at hother
      cases hother
    · rw [Function.update_of_ne hclient] at hother
      exact ⟨hclient, hother⟩
  refine ⟨List.nodup_cons.mpr ⟨h.not_mem hheld, h.nodup⟩, fun other hother => ?_,
    fun other hother => ⟨?_, fun hnot => ?_⟩, fun client' other hother => ?_,
    fun client' client'' other hother hother' => ?_⟩
  · rcases List.mem_cons.mp hother with rfl | hlinked
    · exact hmem
    · exact h.mem_all other hlinked
  · rintro ⟨client', hclient⟩ hcons
    rcases hkeep hclient with ⟨hne, hclient⟩
    rcases List.mem_cons.mp hcons with rfl | hlinked
    · exact hne (h.held_inj client' client other hclient hheld)
    · exact h.not_mem hclient hlinked
  · have hout : other ∉ linked := fun hlinked => hnot (List.mem_cons_of_mem cell hlinked)
    rcases (h.held_iff other hother).mpr hout with ⟨client', hclient⟩
    have hne : client' ≠ client := by
      rintro rfl
      rw [hheld] at hclient
      cases hclient
      exact hnot List.mem_cons_self
    exact ⟨client', by rw [Function.update_of_ne hne, hclient]⟩
  · exact h.held_mem client' other (hkeep hother).2
  · exact h.held_inj client' client'' other (hkeep hother).2 (hkeep hother').2

end Share

/-! ## The pool -/

/-- Each cell is in the queue, in the free list or with one client. -/
structure Pool (next : Cell → Option Cell) (head tail free : Option Cell)
    (held : Client → Option Cell) (all queue frees : List Cell) : Prop where
  queue_chain : Chain next head queue
  tail_eq : tail = queue.getLast?
  free_chain : Chain next free frees
  share : Share held all (queue ++ frees)

section Pool

variable [DecidableEq Cell] [DecidableEq Client] {next : Cell → Option Cell}
  {head tail free : Option Cell} {held : Client → Option Cell} {all queue frees : List Cell}
  {client : Client} {cell : Cell}

omit [DecidableEq Client] in
/-- A client sets the link of its cell. -/
theorem Pool.touch (h : Pool next head tail free held all queue frees)
    (hheld : held client = some cell) (link : Option Cell) :
    Pool (Function.update next cell link) head tail free held all queue frees := by
  have hnot := h.share.not_mem hheld
  rw [List.mem_append, not_or] at hnot
  exact ⟨h.queue_chain.update hnot.1 link, h.tail_eq, h.free_chain.update hnot.2 link, h.share⟩

omit [DecidableEq Cell] in
/-- A client takes the first free cell. -/
theorem Pool.acquire (h : Pool next head tail (some cell) held all queue frees) (client : Client)
    (hnone : held client = none) :
    ∃ rest, frees = cell :: rest ∧
      Pool next head tail (next cell) (Function.update held client (some cell)) all queue rest := by
  rcases h.free_chain.exists_cons with ⟨rest, rfl, hchain⟩
  exact ⟨rest, rfl, h.queue_chain, h.tail_eq, hchain,
    (h.share.perm List.perm_middle).take hnone⟩

/-- A client gives its cell back. -/
theorem Pool.release (h : Pool next head tail free held all queue frees) (client : Client)
    (hheld : held client = some cell) :
    Pool (Function.update next cell free) head tail (some cell)
      (Function.update held client none) all queue (cell :: frees) := by
  have hnot := h.share.not_mem hheld
  rw [List.mem_append, not_or] at hnot
  exact ⟨h.queue_chain.update hnot.1 free, h.tail_eq, h.free_chain.push hnot.2,
    (h.share.give hheld).perm List.perm_middle.symm⟩

/-- A client links its cell in front of the queue. -/
theorem Pool.push (h : Pool next head tail free held all queue frees) (client : Client)
    (hheld : held client = some cell) :
    Pool (Function.update next cell head) (some cell)
      (if tail = none then some cell else tail) free (Function.update held client none) all
      (cell :: queue) frees := by
  have hnot := h.share.not_mem hheld
  rw [List.mem_append, not_or] at hnot
  refine ⟨h.queue_chain.push hnot.1, ?_, h.free_chain.update hnot.2 head, h.share.give hheld⟩
  rw [h.tail_eq]
  cases queue with
  | nil => rfl
  | cons first rest =>
      rw [List.getLast?_cons_cons, if_neg]
      simp

/-- A client links its cell behind the queue. -/
theorem Pool.append (h : Pool next head tail free held all queue frees) (client : Client)
    (hheld : held client = some cell) (hend : next cell = none) :
    Pool (tail.elim next fun last => Function.update next last (some cell))
      (if head = none then some cell else head) (some cell) free
      (Function.update held client none) all (queue ++ [cell]) frees := by
  have hnot := h.share.not_mem hheld
  have hnodup := h.share.nodup
  have hperm : (cell :: (queue ++ frees)).Perm (queue ++ [cell] ++ frees) := by
    rw [List.append_assoc]
    exact List.perm_middle.symm
  have hshare := (h.share.give hheld).perm hperm
  rw [List.mem_append, not_or] at hnot
  rcases List.eq_nil_or_concat queue with rfl | ⟨front, last, rfl⟩
  · obtain rfl : tail = none := h.tail_eq
    obtain rfl : head = none := h.queue_chain
    exact ⟨⟨rfl, hend⟩, rfl, h.free_chain, hshare⟩
  · rw [List.concat_eq_append] at *
    obtain rfl : tail = some last := h.tail_eq.trans (List.getLast?_concat)
    have hlast : last ∉ frees := fun hmem =>
      (List.nodup_append.mp hnodup).2.2 last (by simp) last hmem rfl
    have hhead : head ≠ none := by
      rintro rfl
      exact absurd h.queue_chain.eq_nil (by simp)
    rw [if_neg hhead]
    exact ⟨h.queue_chain.append (List.nodup_append.mp hnodup).1 hend hnot.1,
      (List.getLast?_concat).symm, h.free_chain.update hlast _, hshare⟩

omit [DecidableEq Client] in
/-- The first cell of the queue is taken off the queue. -/
theorem Pool.behead (h : Pool next (some cell) tail free held all queue frees) :
    ∃ rest, queue = cell :: rest ∧ Chain next (next cell) rest ∧
      (if tail = some cell then none else tail) = rest.getLast? := by
  rcases h.queue_chain.exists_cons with ⟨rest, rfl, hchain⟩
  refine ⟨rest, rfl, hchain, ?_⟩
  rw [h.tail_eq]
  rcases List.eq_nil_or_concat rest with rfl | ⟨front, last, rfl⟩
  · exact if_pos rfl
  · have hparts := List.nodup_cons.mp (List.nodup_append.mp h.share.nodup).1
    have hne : last ≠ cell := by
      rintro rfl
      exact hparts.1 (by simp)
    rw [List.concat_eq_append, ← List.cons_append, List.getLast?_concat,
      List.getLast?_concat, if_neg fun heq => hne (Option.some.inj heq)]

/-- A client takes the first cell of the queue. -/
theorem Pool.unlink (h : Pool next (some cell) tail free held all queue frees) (client : Client)
    (hnone : held client = none) :
    ∃ rest, queue = cell :: rest ∧
      Pool next (next cell) (if tail = some cell then none else tail) free
        (Function.update held client (some cell)) all rest frees := by
  rcases h.behead with ⟨rest, rfl, hchain, htail⟩
  exact ⟨rest, rfl, hchain, htail, h.free_chain, h.share.take hnone⟩

omit [DecidableEq Client] in
/-- The first cell of the queue becomes a free one. -/
theorem Pool.discard (h : Pool next (some cell) tail free held all queue frees) :
    ∃ rest, queue = cell :: rest ∧
      Pool (Function.update next cell free) (next cell) (if tail = some cell then none else tail)
        (some cell) held all rest (cell :: frees) := by
  rcases h.behead with ⟨rest, rfl, hchain, htail⟩
  have hparts := List.nodup_cons.mp (List.cons_append ▸ h.share.nodup)
  rw [List.mem_append, not_or] at hparts
  exact ⟨rest, rfl, hchain.update hparts.1.1 free, htail, h.free_chain.push hparts.1.2,
    h.share.perm List.perm_middle.symm⟩

omit [DecidableEq Cell] [DecidableEq Client] in
/-- No more cells are queued than there are. -/
theorem Pool.length_queue_le (h : Pool next head tail free held all queue frees) :
    queue.length ≤ all.length := by
  have hsubset : queue ⊆ all := fun cell hmem =>
    h.share.mem_all cell (List.mem_append_left frees hmem)
  exact (List.subperm_of_subset (List.nodup_append.mp h.share.nodup).1 hsubset).length_le

omit [DecidableEq Cell] [DecidableEq Client] in
/-- When nobody holds a cell, the two lists have all cells. -/
theorem Pool.length_add_length (h : Pool next head tail free held all queue frees)
    (hall : all.Nodup) (hnone : ∀ client, held client = none) :
    queue.length + frees.length = all.length := by
  have hperm : (queue ++ frees).Perm all := by
    rw [List.perm_ext_iff_of_nodup h.share.nodup hall]
    intro cell
    refine ⟨h.share.mem_all cell, fun hmem => ?_⟩
    by_contra hnot
    rcases (h.share.held_iff cell hmem).mpr hnot with ⟨client, hheld⟩
    rw [hnone] at hheld
    cases hheld
  rw [← hperm.length_eq, List.length_append]

end Pool

end CellPool
end Library
end TestAio
