import TestAio.RtThread.RingBlock

/-!
# Blocks from the producer to the consumer

The blocks of a ring block buffer go from a producer that fills them to a consumer that takes
them, one by one or as a queue of several.

Main results:

- Theorem {lit}`run_delivers_blocks`: blocks that are filled in order come out in that order, and
  none is lost or taken twice.
- Theorem {lit}`run_queues_contiguous`: with the oldest blocks given back first a queue of blocks
  is one piece of memory.

Current gaps:

- What the producer writes into the blocks is not modelled.
-/

namespace TestAio
namespace RtThread

open Library Library.RingOrder

namespace Rbb

variable {max : Nat}

/-! ## Blocks come out in order -/

/-- The blocks of a status, the oldest first. -/
def withStatus (rbb : Rbb max) (status : RbbStatus) : List (Fin max) :=
  rbb.blk_list.filter fun block => (rbb.blk_set block).status == status

/-- The blocks that a queue stands for. -/
def stretch (rbb : Rbb max) (blk_queue : RbbBlkQueue max) : List (Fin max) :=
  (rbb.blk_list.dropWhile fun block => block ≠ blk_queue.blocks).take blk_queue.blk_num

/-- The producer fills the blocks in the order in which it got them, and the consumer gives back
only what it took. -/
def InOrder (rbb : Rbb max) : Request max → Prop
  | .put block => (rbb.withStatus .inited).head? = some block
  | .free block => (rbb.blk_set block).status = .get
  | .queueFree blk_queue => ∀ block ∈ rbb.stretch blk_queue, (rbb.blk_set block).status = .get
  | _ => True

instance (rbb : Rbb max) : (request : Request max) → Decidable (rbb.InOrder request)
  | .put block => inferInstanceAs (Decidable ((rbb.withStatus .inited).head? = some block))
  | .free block => inferInstanceAs (Decidable ((rbb.blk_set block).status = .get))
  | .queueFree blk_queue => inferInstanceAs
      (Decidable (∀ block ∈ rbb.stretch blk_queue, (rbb.blk_set block).status = .get))
  | .alloc _ | .get | .queueGet _ _ => isTrue trivial

/-- The block that an entry grants. -/
def Entry.grants : Entry max → List (Fin max)
  | .granted block _ => [block]
  | _ => []

/-- The blocks that an entry takes. -/
def Entry.takes : Entry max → List (Fin max)
  | .taken blocks => blocks
  | _ => []

/-- What was granted was taken, is filled or is being filled, in that order. -/
structure Delivers (done : List (Entry max)) (rbb : Rbb max) : Prop where
  holds : rbb.Holds
  ordered : rbb.blk_list.Pairwise fun a b =>
    (rbb.blk_set a).status = .inited → (rbb.blk_set b).status ≠ .put
  granted_eq : done.flatMap Entry.grants =
    done.flatMap Entry.takes ++ (rbb.withStatus .put ++ rbb.withStatus .inited)

/-- A fresh buffer has delivered nothing. -/
theorem delivers_init (buf_size : Nat) (block_set : Fin max → RbbBlk) :
    Delivers [] (init buf_size block_set) where
  holds := holds_init buf_size block_set
  ordered := .nil
  granted_eq := rfl

namespace Delivers

variable {done : List (Entry max)} {rbb rbb' : Rbb max}

/-- An entry that neither grants nor takes a block, in a state with the same blocks. -/
theorem silent {entries : List (Entry max)} (h : Delivers done rbb) (hholds : rbb'.Holds)
    (hgrants : entries.flatMap Entry.grants = []) (htakes : entries.flatMap Entry.takes = [])
    (hordered : rbb'.blk_list.Pairwise fun a b =>
      (rbb'.blk_set a).status = .inited → (rbb'.blk_set b).status ≠ .put)
    (hunread : rbb'.withStatus .put ++ rbb'.withStatus .inited =
      rbb.withStatus .put ++ rbb.withStatus .inited) : Delivers (done ++ entries) rbb' where
  holds := hholds
  ordered := hordered
  granted_eq := by
    rw [List.flatMap_append, List.flatMap_append, hgrants, htakes, List.append_nil,
      List.append_nil, hunread, h.granted_eq]

/-- A granted block comes behind the ones that wait to be filled. -/
theorem grant (h : Delivers done rbb) {blk : Fin max} {free_list : List (Fin max)}
    (hlist : rbb.free_list = blk :: free_list) (buf blk_size : Nat) :
    Delivers (done ++ [.granted blk blk_size])
      ({ rbb with free_list := free_list }.listAppend blk buf blk_size) := by
  have hblk : blk ∉ rbb.blk_list := h.holds.not_mem_free (hlist ▸ List.mem_cons_self)
  have hold : ∀ block ∈ rbb.blk_list,
      ({ rbb with free_list := free_list }.listAppend blk buf blk_size).blk_set block =
        rbb.blk_set block := by
    intro block hblock
    have hne : block ≠ blk := fun heq => hblk (heq ▸ hblock)
    simp [listAppend, hne]
  have hnew : (({ rbb with free_list := free_list }.listAppend blk buf blk_size).blk_set
      blk).status = .inited := by
    simp [listAppend]
  have hstatus : ∀ status,
      ({ rbb with free_list := free_list }.listAppend blk buf blk_size).withStatus status =
        rbb.withStatus status ++ bif RbbStatus.inited == status then [blk] else [] := by
    intro status
    have hkept : (rbb.blk_list.filter fun block =>
        (({ rbb with free_list := free_list }.listAppend blk buf blk_size).blk_set
          block).status == status) = rbb.withStatus status :=
      List.filter_congr fun block hblock => by rw [hold block hblock]
    have happend : ({ rbb with free_list := free_list }.listAppend blk buf blk_size).blk_list =
        rbb.blk_list ++ [blk] := rfl
    rw [withStatus, happend, List.filter_append, hkept, List.filter_singleton, hnew]
  refine ⟨h.holds.grant hlist buf blk_size, ?_, ?_⟩
  · refine List.pairwise_append.mpr ⟨?_, List.pairwise_singleton _ _, ?_⟩
    · refine h.ordered.imp_of_mem fun ha hb hab => ?_
      rwa [hold _ ha, hold _ hb]
    · intro a _ b hb _
      rw [List.mem_singleton.mp hb, hnew]
      exact RbbStatus.noConfusion
  · have hgrants : [Entry.granted blk blk_size].flatMap Entry.grants = [blk] := rfl
    have htakes : [Entry.granted blk blk_size].flatMap Entry.takes = [] := rfl
    have hput := (hstatus .put).trans (List.append_nil (rbb.withStatus .put))
    have hinited : _ = rbb.withStatus .inited ++ [blk] := hstatus .inited
    rw [List.flatMap_append, List.flatMap_append, hgrants, htakes, hput, hinited,
      h.granted_eq]
    simp

/-- The oldest block that is being filled goes behind the filled ones. -/
theorem fill (h : Delivers done rbb) {block : Fin max}
    (hhead : (rbb.withStatus .inited).head? = some block) :
    Delivers (done ++ [.filled block]) (rbb.setStatus block .put) := by
  rcases List.head?_eq_some_iff.mp hhead with ⟨others, hothers⟩
  rcases List.filter_eq_cons_iff.mp hothers with ⟨front, back, hlist, hfront, hblock, hback⟩
  rw [beq_iff_eq] at hblock
  have hnodup := h.holds.nodup_list
  have hordered := h.ordered
  rw [hlist] at hnodup hordered
  rw [List.pairwise_append, List.pairwise_cons] at hordered
  have hnotFront : block ∉ front := fun hmem =>
    (List.disjoint_of_nodup_append hnodup) hmem List.mem_cons_self
  have hnotBack : block ∉ back := (List.nodup_cons.mp hnodup.of_append_right).1
  have hframe : ∀ other, other ≠ block →
      ((rbb.setStatus block .put).blk_set other).status = (rbb.blk_set other).status := by
    intro other hother
    rw [setStatus_status, if_neg hother]
  have hfilter : ∀ nodes : List (Fin max), block ∉ nodes → ∀ status : RbbStatus,
      (nodes.filter fun other => ((rbb.setStatus block .put).blk_set other).status == status) =
        nodes.filter fun other => (rbb.blk_set other).status == status := by
    intro nodes hnodes status
    refine List.filter_congr fun other hother => ?_
    rw [hframe other fun heq => hnodes (heq ▸ hother)]
  have hput : (back.filter fun other => (rbb.blk_set other).status == .put) = [] :=
    List.filter_eq_nil_iff.mpr fun other hother => by
      simpa using hordered.2.1.1 other hother hblock
  have hinited : (front.filter fun other => (rbb.blk_set other).status == .inited) = [] :=
    List.filter_eq_nil_iff.mpr hfront
  refine h.silent (h.holds.fill hblock) rfl rfl ?_ ?_
  · rw [setStatus_blk_list, hlist]
    refine List.pairwise_append.mpr ⟨hordered.1.imp_of_mem fun ha hb hab => ?_,
      List.pairwise_cons.mpr ⟨fun b hb hfilled => ?_, hordered.2.1.2.imp_of_mem
        fun ha hb hab => ?_⟩, fun a ha b hb hfilled => ?_⟩
    · rwa [hframe _ fun heq => hnotFront (heq ▸ ha), hframe _ fun heq => hnotFront (heq ▸ hb)]
    · rw [setStatus_status, if_pos rfl] at hfilled
      contradiction
    · rwa [hframe _ fun heq => hnotBack (heq ▸ ha), hframe _ fun heq => hnotBack (heq ▸ hb)]
    · rw [hframe _ fun heq => hnotFront (heq ▸ ha)] at hfilled
      exact absurd (beq_iff_eq.mpr hfilled) (hfront a ha)
  · have hnew : ((rbb.setStatus block .put).blk_set block).status = .put := by
      rw [setStatus_status, if_pos rfl]
    unfold withStatus
    rw [setStatus_blk_list, hlist]
    simp only [List.filter_append, List.filter_cons, hfilter front hnotFront,
      hfilter back hnotBack, hput, hinited, hblock, hnew]
    simp

/-- The blocks that are taken are the oldest of the filled ones. -/
theorem take (h : Delivers done rbb) {skipped taken rest : List (Fin max)}
    (hlist : rbb.blk_list = skipped ++ taken ++ rest)
    (hskipped : ∀ block ∈ skipped, (rbb.blk_set block).status ≠ .put)
    (htaken : ∀ block ∈ taken, (rbb.blk_set block).status = .put) :
    Delivers (done ++ [.taken taken]) (rbb.gotten taken) := by
  have hnodup := h.holds.nodup_list
  rw [hlist, List.nodup_append', List.nodup_append'] at hnodup
  have hnotSkipped : ∀ block ∈ skipped, block ∉ taken := fun block hblock => hnodup.1.2.2 hblock
  have hnotRest : ∀ block ∈ rest, block ∉ taken := fun block hblock hmem =>
    hnodup.2.2 (List.mem_append_right _ hmem) hblock
  have hbefore : rbb.withStatus .put =
      taken ++ rest.filter fun block => (rbb.blk_set block).status == .put := by
    have hnone : (skipped.filter fun block => (rbb.blk_set block).status == .put) = [] :=
      List.filter_eq_nil_iff.mpr fun block hblock => by simpa using hskipped block hblock
    have hall : (taken.filter fun block => (rbb.blk_set block).status == .put) = taken :=
      List.filter_eq_self.mpr fun block hblock => by simpa using htaken block hblock
    rw [withStatus, hlist, List.filter_append, List.filter_append, hnone, hall, List.nil_append]
  have hbehind : (rbb.gotten taken).withStatus .put =
      rest.filter fun block => (rbb.blk_set block).status == .put := by
    have hnone : (skipped.filter fun block =>
        ((rbb.gotten taken).blk_set block).status == .put) = [] :=
      List.filter_eq_nil_iff.mpr fun block hblock => by
        rw [gotten_status, if_neg (hnotSkipped block hblock)]
        simpa using hskipped block hblock
    have hgone : (taken.filter fun block =>
        ((rbb.gotten taken).blk_set block).status == .put) = [] :=
      List.filter_eq_nil_iff.mpr fun block hblock => by
        rw [gotten_status, if_pos hblock]
        decide
    have hkept : (rest.filter fun block =>
        ((rbb.gotten taken).blk_set block).status == .put) =
          rest.filter fun block => (rbb.blk_set block).status == .put :=
      List.filter_congr fun block hblock => by
        rw [gotten_status, if_neg (hnotRest block hblock)]
    have hsame : (rbb.gotten taken).blk_list = skipped ++ taken ++ rest := hlist
    rw [withStatus, hsame, List.filter_append, List.filter_append, hnone, hgone, hkept,
      List.nil_append, List.nil_append]
  have hinited : (rbb.gotten taken).withStatus .inited = rbb.withStatus .inited := by
    refine List.filter_congr fun block _ => ?_
    rw [gotten_status]
    split
    · rename_i hmem
      rw [htaken block hmem]
      rfl
    · rfl
  refine ⟨h.holds.take htaken, ?_, ?_⟩
  · refine h.ordered.imp fun {a b} hab ha => ?_
    rw [gotten_status] at ha ⊢
    split at ha
    · contradiction
    · split
      · exact RbbStatus.noConfusion
      · exact hab ha
  · have hgrants : [Entry.taken taken].flatMap Entry.grants = [] := rfl
    have htakes : [Entry.taken taken].flatMap Entry.takes = taken := List.append_nil taken
    rw [List.flatMap_append, List.flatMap_append, hgrants, htakes, hbehind, hinited,
      h.granted_eq, hbefore]
    simp

/-- Giving back what was taken changes nothing that is still to come. -/
theorem giveBack (h : Delivers done rbb) (hholds : rbb'.Holds)
    {front freed rest : List (Fin max)} (hgives : GivesBack rbb front freed rest rbb')
    (hfreed : ∀ block ∈ freed, (rbb.blk_set block).status = .get) :
    Delivers (done ++ freed.map .freed) rbb' := by
  have hnodup := h.holds.nodup_list
  rw [hgives.before, List.nodup_append', List.nodup_append'] at hnodup
  have hframe : ∀ block ∈ front ++ rest, rbb'.blk_set block = rbb.blk_set block := by
    intro block hblock
    refine hgives.frame block fun hmem => ?_
    rcases List.mem_append.mp hblock with hfront | hrest
    · exact hnodup.1.2.2 hfront hmem
    · exact hnodup.2.2 (List.mem_append_right _ hmem) hrest
  have hstatus : ∀ status, status ≠ .get → rbb'.withStatus status = rbb.withStatus status := by
    intro status hget
    have hnone : (freed.filter fun block => (rbb.blk_set block).status == status) = [] :=
      List.filter_eq_nil_iff.mpr fun block hblock => by
        rw [hfreed block hblock]
        simpa using hget.symm
    have hkept : (rbb'.blk_list.filter fun block => (rbb'.blk_set block).status == status) =
        (front ++ rest).filter fun block => (rbb.blk_set block).status == status := by
      rw [hgives.behind]
      exact List.filter_congr fun block hblock => by rw [hframe block hblock]
    rw [withStatus, hkept, withStatus, hgives.before]
    simp only [List.filter_append, hnone, List.append_nil]
  refine h.silent hholds ?_ ?_ ?_ ?_
  · simp [List.flatMap_map, Entry.grants]
  · simp [List.flatMap_map, Entry.takes]
  · have hordered := h.ordered
    have hsub : (front ++ rest).Sublist (front ++ freed ++ rest) := by simp
    rw [hgives.before] at hordered
    rw [hgives.behind]
    refine (hordered.sublist hsub).imp_of_mem fun ha hb hab => ?_
    rwa [hframe _ ha, hframe _ hb]
  · rw [hstatus .put RbbStatus.noConfusion, hstatus .inited RbbStatus.noConfusion]

/-- The changes other than filling and giving back need no rule. -/
theorem change {entry : Entry max} (h : Delivers done rbb) (hchange : Change rbb entry rbb')
    (hfilled : ∀ block, entry = .filled block → (rbb.withStatus .inited).head? = some block)
    (hfreed : ∀ block, entry ≠ .freed block) : Delivers (done ++ [entry]) rbb' := by
  cases hchange with
  | exhausted => exact h.silent h.holds rfl rfl h.ordered rfl
  | refused hlist hplace =>
      exact h.silent (h.holds.change (.refused hlist hplace)) rfl rfl h.ordered rfl
  | granted blk_size hlist => exact h.grant hlist _ blk_size
  | filled => exact h.fill (hfilled _ rfl)
  | taken hlist hskipped htaken => exact h.take hlist hskipped htaken
  | freed => exact absurd rfl (hfreed _)

end Delivers

/-- A request for a block neither fills nor frees one. -/
theorem allocEntry_ne (rbb : Rbb max) (blk_size : Nat) (result : Option (Fin max))
    (block : Fin max) :
    rbb.allocEntry blk_size result ≠ .filled block ∧
      rbb.allocEntry blk_size result ≠ .freed block := by
  unfold allocEntry
  cases result with
  | some => simp
  | none => by_cases hlist : rbb.free_list = [] <;> simp [hlist]

/-- What a queue stands for is what it gives back. -/
theorem stretch_eq {rbb : Rbb max} (h : rbb.Holds) {blk_queue : RbbBlkQueue max}
    {front freed rest : List (Fin max)} (hlist : rbb.blk_list = front ++ freed ++ rest)
    (hhead : freed.head? = some blk_queue.blocks) (hlength : freed.length = blk_queue.blk_num) :
    rbb.stretch blk_queue = freed := by
  rcases List.head?_eq_some_iff.mp hhead with ⟨others, hfreed⟩
  have hnodup := h.nodup_list
  rw [hlist, List.nodup_append', List.nodup_append'] at hnodup
  have hfront : ∀ block ∈ front, decide (block ≠ blk_queue.blocks) = true := by
    intro block hblock
    rw [decide_eq_true_iff]
    rintro rfl
    exact hnodup.1.2.2 hblock (hfreed ▸ List.mem_cons_self)
  have hdrop : ((freed ++ rest).dropWhile fun block => decide (block ≠ blk_queue.blocks)) =
      freed ++ rest := by
    rw [hfreed, List.cons_append, List.dropWhile_cons_of_neg (by simp)]
  rw [stretch, hlist, List.append_assoc, List.dropWhile_append_of_pos hfront, hdrop, ← hlength,
    List.take_left]

/-- Each call by the rule keeps the order of the blocks. -/
theorem Delivers.step {done entries : List (Entry max)} {rbb rbb' : Rbb max}
    {request : Request max} (h : Delivers done rbb) (hrule : rbb.InOrder request)
    (hstep : rbb.step request = some (entries, rbb')) : Delivers (done ++ entries) rbb' := by
  cases request with
  | alloc blk_size =>
      rcases Option.bind_eq_some_iff.mp hstep with ⟨result, hresult, hdone⟩
      cases hdone
      exact h.change (change_of_alloc hresult)
        (fun block heq => absurd heq (allocEntry_ne rbb blk_size result.1 block).1)
        fun block => (allocEntry_ne rbb blk_size result.1 block).2
  | put block =>
      rcases Option.bind_eq_some_iff.mp hstep with ⟨result, hresult, hdone⟩
      cases hdone
      rcases put_cases hresult with ⟨-, rfl⟩
      exact h.fill hrule
  | get =>
      cases hstep
      exact h.change (change_of_get h.holds) (fun _ heq => nomatch heq)
        fun _ => nofun
  | free block =>
      rcases Option.bind_eq_some_iff.mp hstep with ⟨result, hresult, hdone⟩
      cases hdone
      rcases blkFree_cases h.holds hresult with ⟨front, rest, hgives⟩
      refine h.giveBack (h.holds.free hresult) hgives fun other hother => ?_
      rw [List.mem_singleton.mp hother]
      exact hrule
  | queueGet queue_data_len blk_queue =>
      rcases Option.bind_eq_some_iff.mp hstep with ⟨result, hresult, hdone⟩
      cases hdone
      exact h.change (change_of_queueGet h.holds hresult) (fun _ heq => nomatch heq) fun _ => nofun
  | queueFree blk_queue =>
      have hholds := holds_step h.holds hstep
      rcases Option.bind_eq_some_iff.mp hstep with ⟨result, hresult, hdone⟩
      cases hdone
      rcases blkQueueFree_cases h.holds hresult with ⟨-, rfl⟩ | ⟨front, freed, rest, hhead,
        hlength, -, hgives⟩
      · rw [freedBlocks_self h.holds, List.map_nil, List.append_nil]
        exact h
      · rw [freedBlocks_eq h.holds hholds hgives]
        refine h.giveBack hholds hgives fun block hblock => hrule block ?_
        rwa [stretch_eq h.holds hgives.before hhead hlength]

/-- When the blocks are filled in the order in which they were granted and only given back once
they were taken, the blocks granted are the ones taken, the filled ones and the ones being
filled, in that order: none is lost, taken twice or overtaken. -/
theorem run_delivers_blocks {buf_size : Nat} {block_set : Fin max → RbbBlk}
    {requests : List (Request max)} (hrule : Obeys InOrder requests (init buf_size block_set))
    {entries : List (Entry max)} {rbb : Rbb max}
    (h : run requests (init buf_size block_set) = some (entries, rbb)) :
    entries.flatMap Entry.grants =
      entries.flatMap Entry.takes ++ (rbb.withStatus .put ++ rbb.withStatus .inited) :=
  (run_keeps (fun hrbb hok hstep => hrbb.step hok hstep) [] (delivers_init buf_size block_set)
    hrule h).granted_eq

/-- Three blocks, of which two are taken as a queue and given back. -/
theorem run_delivers_blocks_queue :
    ∃ entries rbb, run [.alloc 3, .alloc 3, .put 2, .put 1, .alloc 3, .queueGet 9 ⟨0, 0⟩,
        .queueFree ⟨2, 2⟩, .put 0] (init 10 fun _ : Fin 3 => ⟨.unused, 0, 0⟩) =
          some (entries, rbb) ∧
      entries.flatMap Entry.takes = [2, 1] ∧
      entries.flatMap Entry.grants =
        entries.flatMap Entry.takes ++ (rbb.withStatus .put ++ rbb.withStatus .inited) := by
  have hmap : (run [.alloc 3, .alloc 3, .put 2, .put 1, .alloc 3, .queueGet 9 ⟨0, 0⟩,
      .queueFree ⟨2, 2⟩, .put 0] (init 10 fun _ : Fin 3 => ⟨.unused, 0, 0⟩)).map
        (fun result => result.1.flatMap Entry.takes) = some [2, 1] := by
    decide
  rcases Option.map_eq_some_iff.mp hmap with ⟨⟨entries, rbb⟩, hrun, htakes⟩
  exact ⟨entries, rbb, hrun, htakes, run_delivers_blocks (by decide) hrun⟩

/-! ## Queues are one piece of memory -/

/-- Requests fit the buffer, and the oldest blocks are given back first. -/
def OldestFirst (rbb : Rbb max) : Request max → Prop
  | .alloc blk_size => 0 < blk_size ∧ blk_size ≤ rbb.buf_size
  | .free block => rbb.blk_list.head? = some block
  | .queueFree blk_queue => rbb.blk_list.head? = some blk_queue.blocks
  | _ => True

instance (rbb : Rbb max) : (request : Request max) → Decidable (rbb.OldestFirst request)
  | .alloc blk_size => inferInstanceAs (Decidable (0 < blk_size ∧ blk_size ≤ rbb.buf_size))
  | .free block => inferInstanceAs (Decidable (rbb.blk_list.head? = some block))
  | .queueFree blk_queue => inferInstanceAs
      (Decidable (rbb.blk_list.head? = some blk_queue.blocks))
  | .put _ | .get | .queueGet _ _ => isTrue trivial

/-- The blocks are in ring order without gaps. -/
structure Joined (size : Nat) (rbb : Rbb max) : Prop where
  separate : rbb.Separate size
  follows : rbb.pieces.IsChain Follows

/-- Giving blocks back leaves the pieces in front of them and behind them. -/
theorem pieces_eq_of_givesBack {rbb rbb' : Rbb max} (h : rbb.Holds)
    {front freed rest : List (Fin max)} (hgives : GivesBack rbb front freed rest rbb') :
    rbb'.pieces = (front ++ rest).map rbb.piece := by
  have hnodup := h.nodup_list
  rw [hgives.before, List.nodup_append', List.nodup_append'] at hnodup
  rw [pieces, hgives.behind]
  refine List.map_congr_left fun block hblock => ?_
  have hframe := hgives.frame block fun hmem => by
    rcases List.mem_append.mp hblock with hfront | hrest
    · exact hnodup.1.2.2 hfront hmem
    · exact hnodup.2.2 (List.mem_append_right _ hmem) hrest
  rw [piece, piece, hframe]

/-- Taking blocks moves none of them. -/
theorem pieces_of_taken {rbb rbb' : Rbb max} {blocks : List (Fin max)}
    (h : Change rbb (.taken blocks) rbb') : rbb'.pieces = rbb.pieces := by
  cases h with
  | taken => exact pieces_gotten rbb blocks

/-- Giving back the oldest blocks leaves no gap. -/
theorem Joined.giveBack {size : Nat} {rbb rbb' : Rbb max} (h : rbb.Joined size)
    (hseparate : rbb'.Separate size) {front freed rest : List (Fin max)}
    (hgives : GivesBack rbb front freed rest rbb')
    (hhead : rbb.blk_list.head? = freed.head?) : rbb'.Joined size := by
  have hfront : front = [] := by
    cases front with
    | nil => rfl
    | cons block front =>
        have hnodup := h.separate.holds.nodup_list
        rw [hgives.before] at hhead hnodup
        have hmem : block ∈ freed := List.mem_of_head? hhead.symm
        rw [List.nodup_append', List.nodup_append'] at hnodup
        exact absurd hmem (hnodup.1.2.2 List.mem_cons_self)
  refine ⟨hseparate, ?_⟩
  have hfollows := h.follows
  rw [pieces, hgives.before, hfront, List.nil_append, List.map_append] at hfollows
  rw [pieces_eq_of_givesBack h.separate.holds hgives, hfront, List.nil_append]
  exact hfollows.right_of_append

/-- Giving back the oldest blocks first leaves no gaps. -/
theorem Joined.step {size : Nat} (hsize : size < 2 ^ 32) {rbb rbb' : Rbb max}
    {request : Request max} {entries : List (Entry max)} (h : rbb.Joined size)
    (hrule : rbb.OldestFirst request) (hstep : rbb.step request = some (entries, rbb')) :
    rbb'.Joined size := by
  have hseparate : rbb'.Separate size := by
    refine h.separate.step hsize (fun blk_size heq => ?_) hstep
    subst heq
    rwa [← h.separate.buf_size]
  cases request with
  | alloc blk_size =>
      rcases Option.bind_eq_some_iff.mp hstep with ⟨⟨result, after⟩, hresult, hdone⟩
      cases hdone
      refine ⟨hseparate, ?_⟩
      rcases alloc_cases hresult with ⟨-, -, rfl⟩ | ⟨blk, free_list, hlist, -, ⟨-, -, rfl⟩ |
        ⟨buf, hplace, -, rfl⟩⟩
      · exact h.follows
      · exact h.follows
      · have hlaid := h.separate.laid
        rw [← h.separate.buf_size] at hlaid hsize
        rw [placeFor_eq hsize hlaid] at hplace
        rw [pieces_grant h.separate.holds hlist]
        exact follows_concat hrule.1 h.follows hplace
  | put block =>
      rcases Option.bind_eq_some_iff.mp hstep with ⟨result, hresult, hdone⟩
      cases hdone
      rcases put_cases hresult with ⟨-, rfl⟩
      exact ⟨hseparate, by rw [pieces_setStatus]; exact h.follows⟩
  | get =>
      cases hstep
      exact ⟨hseparate, by rw [pieces_of_taken (change_of_get h.separate.holds)]; exact h.follows⟩
  | free block =>
      rcases Option.bind_eq_some_iff.mp hstep with ⟨result, hresult, hdone⟩
      cases hdone
      rcases blkFree_cases h.separate.holds hresult with ⟨front, rest, hgives⟩
      exact h.giveBack hseparate hgives hrule
  | queueGet queue_data_len blk_queue =>
      rcases Option.bind_eq_some_iff.mp hstep with ⟨result, hresult, hdone⟩
      cases hdone
      have hchange := change_of_queueGet h.separate.holds hresult
      exact ⟨hseparate, by rw [pieces_of_taken hchange]; exact h.follows⟩
  | queueFree blk_queue =>
      rcases Option.bind_eq_some_iff.mp hstep with ⟨result, hresult, hdone⟩
      cases hdone
      rcases blkQueueFree_cases h.separate.holds hresult with ⟨-, rfl⟩ | ⟨front, freed, rest,
        hhead, -, -, hgives⟩
      · exact h
      · exact h.giveBack hseparate hgives (hrule.trans hhead.symm)

/-! ### What a queue covers -/

/-- The total that the loop counts is the sum of the lengths, as a word. -/
theorem totalSize_eq (rbb : Rbb max) {total : Nat} (htotal : total < 2 ^ 32)
    (blocks : List (Fin max)) :
    rbb.totalSize total blocks =
      (total + ((blocks.map rbb.piece).map Piece.length).sum) % 2 ^ 32 := by
  induction blocks generalizing total with
  | nil => exact (Nat.mod_eq_of_lt htotal).symm
  | cons block blocks ih =>
      have hnext : (total + (rbb.blk_set block).size) % 2 ^ 32 < 2 ^ 32 :=
        Nat.mod_lt _ (by decide)
      have hsum : (((block :: blocks).map rbb.piece).map Piece.length).sum =
          (rbb.blk_set block).size + ((blocks.map rbb.piece).map Piece.length).sum := rfl
      have hstart : rbb.totalSize total (block :: blocks) =
          rbb.totalSize ((total + (rbb.blk_set block).size) % 2 ^ 32) blocks := rfl
      rw [hstart, ih hnext, hsum]
      omega

/-- The blocks of a stretch, found one behind the other. -/
theorem blkQueueLenFrom_eq {rbb : Rbb max} (h : rbb.Holds) {front taken rest : List (Fin max)}
    (hlist : rbb.blk_list = front ++ taken ++ rest) (total : Nat) :
    rbb.blkQueueLenFrom taken.length (taken ++ rest).head? total =
      some (rbb.totalSize total taken) := by
  induction taken generalizing front total with
  | nil => cases rest <;> rfl
  | cons block taken ih =>
      have hnodup := h.nodup_list
      rw [hlist, List.append_assoc] at hnodup
      have hfront : block ∉ front := fun hmem =>
        (List.disjoint_of_nodup_append hnodup) hmem (by simp)
      have hnext : rbb.next block = (taken ++ rest).head? := by
        unfold next
        rw [if_pos (by rw [hlist]; simp), hlist, List.append_assoc, List.cons_append,
          successor_append hfront]
      have hlist' : rbb.blk_list = (front ++ [block]) ++ taken ++ rest := by
        rw [hlist]
        simp
      have hrest := ih hlist' ((total + (rbb.blk_set block).size) % 2 ^ 32)
      rw [List.length_cons, List.cons_append, List.head?_cons, blkQueueLenFrom, hnext, hrest]
      rfl

/-- The length of the next queue is the one of a queue without a limit that comes back. -/
theorem nextBlkQueueLenFrom_eq {nodes : List (Fin max)} (hnodup : nodes.Nodup)
    (rbb : Rbb max) {rbb' : Rbb max} {last : Option (Fin max)} {total : Nat}
    {blk_queue : RbbBlkQueue max} {result : Nat × RbbBlkQueue max × Rbb max}
    (hsame : ∀ block ∈ nodes, (rbb'.blk_set block).status = (rbb.blk_set block).status)
    (hbuf : ∀ block, (rbb'.blk_set block).buf = (rbb.blk_set block).buf)
    (hsize : ∀ block, (rbb'.blk_set block).size = (rbb.blk_set block).size)
    (h : blkQueueGetFrom (2 ^ 32 - 1) nodes last total blk_queue rbb' = some result) :
    rbb.nextBlkQueueLenFrom nodes last total = result.1 := by
  induction nodes generalizing rbb' last total blk_queue with
  | nil => cases last <;> contradiction
  | cons block nodes ih =>
      rw [List.nodup_cons] at hnodup
      have hblock := hsame block List.mem_cons_self
      have hrest : ∀ other ∈ nodes,
          (rbb'.blk_set other).status = (rbb.blk_set other).status :=
        fun other hother => hsame other (List.mem_cons_of_mem _ hother)
      have htaken : ∀ other ∈ nodes,
          ((rbb'.setStatus block .get).blk_set other).status = (rbb.blk_set other).status := by
        intro other hother
        have hne : other ≠ block := fun heq => hnodup.1 (heq ▸ hother)
        rw [setStatus_status, if_neg hne]
        exact hrest other hother
      have hlimit : ¬ 2 ^ 32 - 1 < (total + (rbb.blk_set block).size) % 2 ^ 32 := by omega
      cases last with
      | none =>
          rw [blkQueueGetFrom, hblock, hsize] at h
          rw [nextBlkQueueLenFrom]
          by_cases hput : (rbb.blk_set block).status = .put
          · rw [if_pos hput] at h ⊢
            exact ih hnodup.2 htaken (by simpa using hbuf) (by simpa using hsize) h
          · rw [if_neg hput] at h ⊢
            exact ih hnodup.2 hrest hbuf hsize h
      | some last =>
          have hbreaks : (rbb'.breaks (2 ^ 32 - 1) total last block = true) ↔
              ((rbb.blk_set block).status ≠ .put ∨
                (rbb.blk_set block).buf < (rbb.blk_set last).buf) := by
            unfold breaks
            rw [hblock, hbuf, hbuf, hsize, decide_eq_false hlimit]
            simp
          rw [blkQueueGetFrom, hsize] at h
          rw [nextBlkQueueLenFrom]
          by_cases hstop : rbb'.breaks (2 ^ 32 - 1) total last block = true
          · rw [if_pos hstop] at h
            cases h
            exact if_pos (hbreaks.mp hstop)
          · rw [if_neg hstop] at h
            rw [if_neg fun hor => hstop (hbreaks.mpr hor)]
            exact ih hnodup.2 htaken (by simpa using hbuf) (by simpa using hsize) h

/-- The announced length is the one of a queue without a limit that comes back. -/
theorem nextBlkQueueLen_eq {rbb : Rbb max} (hnodup : rbb.blk_list.Nodup)
    {blk_queue : RbbBlkQueue max} {result : Nat × RbbBlkQueue max × Rbb max}
    (h : rbb.blkQueueGet (2 ^ 32 - 1) blk_queue = some result) :
    rbb.nextBlkQueueLen = result.1 := by
  unfold blkQueueGet at h
  split at h
  · rename_i hempty
    cases h
    rw [nextBlkQueueLen, List.isEmpty_iff.mp hempty]
    rfl
  · exact nextBlkQueueLenFrom_eq hnodup rbb (fun _ _ => rfl) (fun _ => rfl) (fun _ => rfl) h

/-- In every run that gives back the oldest blocks first the blocks have no gaps. -/
theorem joined_of_run {buf_size : Nat} (hsize : buf_size < 2 ^ 32)
    {block_set : Fin max → RbbBlk} {requests : List (Request max)}
    (hrule : Obeys OldestFirst requests (init buf_size block_set)) {entries : List (Entry max)}
    {rbb : Rbb max} (h : run requests (init buf_size block_set) = some (entries, rbb)) :
    rbb.Joined buf_size :=
  run_keeps (P := fun _ rbb => rbb.Joined buf_size)
    (fun hrbb hok hstep => hrbb.step hsize hok hstep) []
    ⟨separate_init buf_size block_set, .nil⟩ hrule h

/-- A stretch of blocks that does not go down is one piece of memory. -/
theorem Joined.contiguous {size : Nat} {rbb : Rbb max} (h : rbb.Joined size)
    {front taken rest : List (Fin max)} (hlist : rbb.blk_list = front ++ taken ++ rest)
    (hclimbs : taken.IsChain fun a b => (rbb.blk_set a).buf ≤ (rbb.blk_set b).buf) :
    (taken.map rbb.piece).IsChain fun a b => b.start = a.stop := by
  have hfollows := h.follows
  rw [pieces, hlist, List.map_append, List.map_append] at hfollows
  have htaken := hfollows.left_of_append.right_of_append
  exact adjacent_of_follows htaken ((List.isChain_map rbb.piece).mpr hclimbs)

/-- The blocks of a queue that comes back are the piece of memory it describes. -/
theorem Joined.queueGet {size : Nat} (hsize : size < 2 ^ 32) {rbb after : Rbb max}
    (h : rbb.Joined size) {queue_data_len total : Nat} {blk_queue queue : RbbBlkQueue max}
    (hget : rbb.blkQueueGet queue_data_len blk_queue = some (total, queue, after)) :
    (rbb.blk_list = [] ∧ total = 0 ∧ queue = blk_queue ∧ after = rbb) ∨
      (0 < total ∧ (∀ n, Covers ((rbb.takenBlocks after).map rbb.piece) n ↔
          after.blkQueueBuf queue ≤ n ∧ n < after.blkQueueBuf queue + total) ∧
        after.blkQueueLen queue = some total ∧
        (queue.blk_num = 1 ∨ total ≤ queue_data_len)) := by
  have hholds := h.separate.holds
  rcases blkQueueGet_cases hholds.nodup_list hget with ⟨hempty, heq⟩ |
    ⟨skipped, first, taken, rest, hlist, -, htaken, hclimbs, hlimit, heq⟩
  · rw [Prod.mk.injEq, Prod.mk.injEq] at heq
    exact Or.inl ⟨hempty, heq⟩
  · rw [Prod.mk.injEq, Prod.mk.injEq] at heq
    rcases heq with ⟨htotal, rfl, rfl⟩
    rw [takenBlocks_gotten hholds hlist htaken]
    have hjoined := h.contiguous hlist hclimbs
    have hmem : ∀ block ∈ first :: taken, rbb.piece block ∈ rbb.pieces := by
      intro block hblock
      refine List.mem_map_of_mem ?_
      rw [hlist]
      exact List.mem_append_left _ (List.mem_append_right _ hblock)
    have hbounded : ∀ piece ∈ (first :: taken).map rbb.piece, piece.stop ≤ size := by
      intro piece hpiece
      rcases List.mem_map.mp hpiece with ⟨block, hblock, rfl⟩
      exact h.separate.laid.bounded _ (hmem block hblock)
    rw [List.map_cons] at hjoined hbounded
    have hstop := start_add_sum_le hjoined hbounded
    have hsum : total = ((first :: taken).map rbb.piece |>.map Piece.length).sum := by
      rw [htotal, totalSize_eq rbb (by decide), Nat.zero_add]
      refine Nat.mod_eq_of_lt (lt_of_le_of_lt ?_ hsize)
      exact (Nat.le_add_left _ _).trans hstop
    have hpositive : 0 < (rbb.piece first).length :=
      h.separate.laid.positive _ (hmem first List.mem_cons_self)
    have hbuf : (rbb.gotten (first :: taken)).blkQueueBuf ⟨first, (first :: taken).length⟩ =
        (rbb.piece first).start := gotten_buf rbb first (first :: taken)
    refine Or.inr ⟨?_, fun n => ?_, ?_, ?_⟩
    · rw [hsum, List.map_cons, List.map_cons, List.sum_cons]
      exact Nat.add_pos_left hpositive _
    · rw [hbuf, List.map_cons, mem_covers_iff hjoined, hsum]
      rfl
    · have hholds' := hholds.take htaken
      have hlen := blkQueueLenFrom_eq hholds' (hlist : (rbb.gotten (first :: taken)).blk_list = _) 0
      rw [List.cons_append, List.head?_cons] at hlen
      rw [blkQueueLen, hlen, htotal]
      simp [totalSize]
    · cases taken with
      | nil => exact Or.inl rfl
      | cons second taken => exact Or.inr (htotal ▸ hlimit (by simp))

/-- When requests fit the buffer and the oldest blocks are given back first, a queue of blocks
that comes back is exactly the piece of memory that its first address and its length describe, and
it is empty only when there are no blocks.  It is as long as asked for at most, or a single block,
and the length announced for the next queue is the one of a queue without a limit. -/
theorem run_queues_contiguous {buf_size : Nat} (hsize : buf_size < 2 ^ 32)
    {block_set : Fin max → RbbBlk} {requests : List (Request max)}
    (hrule : Obeys OldestFirst requests (init buf_size block_set)) {entries : List (Entry max)}
    {rbb after : Rbb max} (h : run requests (init buf_size block_set) = some (entries, rbb))
    {queue_data_len total : Nat} {blk_queue queue : RbbBlkQueue max}
    (hget : rbb.blkQueueGet queue_data_len blk_queue = some (total, queue, after)) :
    ((rbb.blk_list = [] ∧ total = 0 ∧ queue = blk_queue ∧ after = rbb) ∨
      (0 < total ∧ (∀ n, Covers ((rbb.takenBlocks after).map rbb.piece) n ↔
          after.blkQueueBuf queue ≤ n ∧ n < after.blkQueueBuf queue + total) ∧
        after.blkQueueLen queue = some total ∧
        (queue.blk_num = 1 ∨ total ≤ queue_data_len))) ∧
      ∀ result, rbb.blkQueueGet (2 ^ 32 - 1) blk_queue = some result →
        rbb.nextBlkQueueLen = result.1 := by
  have hjoined := joined_of_run hsize hrule h
  exact ⟨hjoined.queueGet hsize hget,
    fun _ hnext => nextBlkQueueLen_eq hjoined.separate.holds.nodup_list hnext⟩

/-- The queue ends where the blocks go on at the front of the buffer. -/
theorem run_queues_contiguous_wrapped :
    ∃ entries rbb total queue after,
      run [.alloc 4, .alloc 3, .alloc 3, .put 2, .get, .free 2, .alloc 4, .put 1, .put 0, .put 2]
          (init 10 fun _ : Fin 3 => ⟨.unused, 0, 0⟩) = some (entries, rbb) ∧
        rbb.blkQueueGet 100 ⟨0, 0⟩ = some (total, queue, after) ∧ total = 6 ∧
        (((rbb.blk_list = [] ∧ total = 0 ∧ queue = ⟨0, 0⟩ ∧ after = rbb) ∨
          (0 < total ∧ (∀ n, Covers ((rbb.takenBlocks after).map rbb.piece) n ↔
              after.blkQueueBuf queue ≤ n ∧ n < after.blkQueueBuf queue + total) ∧
            after.blkQueueLen queue = some total ∧ (queue.blk_num = 1 ∨ total ≤ 100))) ∧
          ∀ result, rbb.blkQueueGet (2 ^ 32 - 1) ⟨0, 0⟩ = some result →
            rbb.nextBlkQueueLen = result.1) := by
  have hmap : (run [.alloc 4, .alloc 3, .alloc 3, .put 2, .get, .free 2, .alloc 4, .put 1, .put 0,
      .put 2] (init 10 fun _ : Fin 3 => ⟨.unused, 0, 0⟩)).bind
        (fun result => (result.2.blkQueueGet 100 ⟨0, 0⟩).map Prod.fst) = some 6 := by
    decide
  rcases Option.bind_eq_some_iff.mp hmap with ⟨⟨entries, rbb⟩, hrun, hqueue⟩
  rcases Option.map_eq_some_iff.mp hqueue with ⟨⟨total, queue, after⟩, hget, htotal⟩
  exact ⟨entries, rbb, total, queue, after, hrun, hget, htotal,
    run_queues_contiguous (by decide) (by decide) hrun hget⟩

-- A queue without a break behind it reads through a null pointer.
example : (run [.alloc 4, .put 2, .queueGet 9 ⟨0, 0⟩]
    (init 10 fun _ : Fin 3 => ⟨.unused, 0, 0⟩)).isNone = true := by
  decide

end Rbb
end RtThread
end TestAio
