import Mathlib.Data.List.Nodup
import Mathlib.Data.List.Rotate
import Scanline.Pipeline.Cache

/-
  The cache of pipelines is a bounded queue that is searched by signature. Read from the slot that
  is taken next, and once around, the slots of a cache are the free ones and then the pipelines of a
  queue from the oldest on (`PipelineCache.Queues`). Inserting a pipeline with a signature that is
  new writes the slot in front and turns the view by one, so that it moves to the end
  (`Queues.insert_new`); inserting one with a signature that is there changes the view in place
  (`Queues.insert_again`). Hence every call takes a cache and its queue to a cache and its queue
  (`Queues.perform`), and by induction every run does (`queues_run`). `run_eq_queue` says what
  follows for the slots, the size and the answers of the cache.
-/

namespace Scanline

variable {capacity : Nat}

/-! ## Queues of pipelines -/

/-- What is asked of a cache. -/
inductive CacheCall where
  | insert (d : Dispatch)
  | lookup (s : Signature)
  | clear

namespace CacheCall

/-- The pipeline that a call inserts. -/
def inserted? : CacheCall → Option Dispatch
  | insert d => some d
  | _ => none

/-- The pipeline that was inserted last for a signature. -/
def latest? (calls : List CacheCall) (s : Signature) : Option Dispatch :=
  (calls.reverse.filterMap inserted?).find? (·.signature == s)

theorem latest?_concat_insert (calls : List CacheCall) (d : Dispatch) (s : Signature) :
    latest? (calls ++ [insert d]) s = if d.signature = s then some d else latest? calls s := by
  unfold latest?
  rw [List.reverse_append, List.reverse_singleton, List.singleton_append,
    show List.filterMap inserted? (insert d :: calls.reverse) =
      d :: calls.reverse.filterMap inserted? from rfl, List.find?_cons]
  by_cases h : d.signature = s
  · rw [if_pos h, beq_iff_eq.mpr h]
  · rw [if_neg h, beq_eq_false_iff_ne.mpr h]

theorem latest?_concat_of_none (calls : List CacheCall) {call : CacheCall}
    (h : call.inserted? = none) (s : Signature) :
    latest? (calls ++ [call]) s = latest? calls s := by
  unfold latest?
  rw [List.reverse_append, List.reverse_singleton, List.singleton_append,
    List.filterMap_cons_none h]

end CacheCall

namespace PipelineQueue

/-- A pipeline gives way to a new one with its signature. -/
def replace (new d : Dispatch) : Dispatch := if d.signature = new.signature then new else d

/-- Where the queue is full the oldest pipeline is dropped. -/
def makeRoom (capacity : Nat) (q : List Dispatch) : List Dispatch :=
  if q.length < capacity then q else q.tail

/-- A pipeline with a new signature comes last. Any other takes the place of the one that has its
signature. -/
def insert (capacity : Nat) (q : List Dispatch) (d : Dispatch) : List Dispatch :=
  if d.signature ∈ q.map Dispatch.signature then q.map (replace d) else makeRoom capacity q ++ [d]

def perform (capacity : Nat) (q : List Dispatch) : CacheCall → List Dispatch
  | .insert d => insert capacity q d
  | .lookup _ => q
  | .clear => []

/-- The queue after some calls. -/
def run (capacity : Nat) (calls : List CacheCall) : List Dispatch :=
  calls.foldl (perform capacity) []

variable {q : List Dispatch}

theorem signature_replace (new d : Dispatch) : (replace new d).signature = d.signature := by
  unfold replace
  split
  · rename_i h
    exact h.symm
  · rfl

theorem signatures_map_replace (new : Dispatch) (q : List Dispatch) :
    (q.map (replace new)).map Dispatch.signature = q.map Dispatch.signature := by
  rw [List.map_map]
  exact List.map_congr_left fun d _ => signature_replace new d

theorem makeRoom_sublist (capacity : Nat) (q : List Dispatch) :
    (makeRoom capacity q).Sublist q := by
  unfold makeRoom
  split
  · exact List.Sublist.refl q
  · exact List.tail_sublist q

theorem length_makeRoom (hcap : 0 < capacity) (hq : q.length ≤ capacity) :
    (makeRoom capacity q).length + 1 = min (q.length + 1) capacity := by
  unfold makeRoom
  split
  · omega
  · rw [List.length_tail]
    omega

/-- What the queue holds for a signature is what was inserted last for it. -/
theorem latest?_of_mem_run {calls : List CacheCall} {d : Dispatch} (h : d ∈ run capacity calls) :
    CacheCall.latest? calls d.signature = some d := by
  induction calls using List.reverseRecOn generalizing d with
  | nil => cases h
  | append_singleton calls call ih =>
    rw [run, List.foldl_append, List.foldl_cons, List.foldl_nil] at h
    cases call with
    | lookup s => rw [CacheCall.latest?_concat_of_none calls rfl]; exact ih h
    | clear => cases h
    | insert new =>
      rw [CacheCall.latest?_concat_insert]
      unfold perform insert at h
      dsimp only at h
      split at h
      · obtain ⟨e, he, rfl⟩ := List.mem_map.mp h
        rw [signature_replace]
        unfold replace
        by_cases hsig : e.signature = new.signature
        · rw [if_pos hsig, if_pos hsig.symm]
        · rw [if_neg hsig, if_neg (Ne.symm hsig)]
          exact ih he
      · rename_i hnew
        obtain h | h := List.mem_append.mp h
        · have hd : d ∈ run capacity calls := (makeRoom_sublist capacity _).subset h
          rw [if_neg fun heq => hnew (List.mem_map.mpr ⟨d, hd, heq.symm⟩)]
          exact ih hd
        · obtain rfl := List.mem_singleton.mp h
          exact if_pos rfl

end PipelineQueue

/-! ## Caches as queues -/

namespace PipelineCache

variable {c : PipelineCache capacity} {q : List Dispatch} {d : Dispatch} {s : Signature}

def perform (c : PipelineCache capacity) : CacheCall → PipelineCache capacity
  | .insert d => c.insert d
  | .lookup _ => c
  | .clear => empty

/-- The cache after some calls. -/
def run (capacity : Nat) (calls : List CacheCall) : PipelineCache capacity :=
  calls.foldl perform empty

/-- From the slot that is taken next on there are the free slots and then the pipelines of the
queue. -/
structure Queues (c : PipelineCache capacity) (q : List Dispatch) : Prop where
  view : c.slots.rotate c.next = List.replicate (capacity - q.length) none ++ q.map some
  next_lt : c.next < capacity
  size_eq : c.size = q.length
  fits : q.length ≤ capacity
  distinct : (q.map Dispatch.signature).Nodup

theorem queues_empty (hcap : 0 < capacity) : (empty : PipelineCache capacity).Queues [] :=
  ⟨(List.rotate_zero _).trans (List.append_nil _).symm, hcap, rfl, Nat.zero_le _, List.nodup_nil⟩

theorem holds_iff {slot : Option Dispatch} :
    holds s slot = true ↔ ∃ d, slot = some d ∧ d.signature = s := by
  unfold holds
  rw [Option.any_eq_true]
  exact exists_congr fun d => and_congr_right fun _ => beq_iff_eq

/-- Turned on by one, the slot that was written is the last. -/
theorem rotate_set_succ {α : Type} {slots : List α} {n : Nat} (hn : n < slots.length) (x : α) :
    (slots.set n x).rotate (n + 1) = (slots.rotate n).tail ++ [x] := by
  have hlen : (slots.set n x).length = slots.length := List.length_set
  have hset : (slots.set n x).rotate n = x :: (slots.rotate n).tail := by
    rw [List.rotate_eq_drop_append_take (by omega), List.rotate_eq_drop_append_take (by omega),
      List.drop_eq_getElem_cons (by omega : n < (slots.set n x).length),
      List.drop_eq_getElem_cons hn, List.getElem_set_self, List.drop_set_of_lt (by omega),
      List.take_set_of_le (Nat.le_refl n)]
    rfl
  rw [← List.rotate_rotate, hset, List.rotate_cons_succ, List.rotate_zero]

namespace Queues

theorem length_slots (h : c.Queues q) : c.slots.length = capacity := by
  have hlen := congrArg List.length h.view
  rw [List.length_rotate, List.length_append, List.length_replicate, List.length_map] at hlen
  have := h.fits
  omega

theorem mem_slots_iff (h : c.Queues q) : some d ∈ c.slots ↔ d ∈ q := by
  rw [← List.mem_rotate (n := c.next), h.view, List.mem_append, List.mem_map]
  constructor
  · rintro (hfree | ⟨e, he, heq⟩)
    · cases List.eq_of_mem_replicate hfree
    · exact Option.some.inj heq ▸ he
  · exact fun hd => .inr ⟨d, hd, rfl⟩

/-- No two slots hold pipelines with the same signature. -/
theorem slots_unique (h : c.Queues q) {i j : Nat} {e : Dispatch}
    (hi : c.slots[i]? = some (some d)) (hj : c.slots[j]? = some (some e))
    (hsig : d.signature = e.signature) : i = j := by
  have hperm := (List.rotate_perm c.slots c.next).filterMap (Option.map Dispatch.signature)
  have hview : (c.slots.rotate c.next).filterMap (Option.map Dispatch.signature) =
      q.map Dispatch.signature := by
    rw [h.view, List.filterMap_append, List.filterMap_replicate_of_none rfl, List.nil_append,
      List.filterMap_map, ← List.filterMap_eq_map]
    rfl
  have hnodup := hperm.nodup_iff.mp (hview ▸ h.distinct)
  have hapart := List.pairwise_iff_getElem.mp (List.pairwise_filterMap.mp hnodup)
  obtain ⟨hilt, hi⟩ := List.getElem?_eq_some_iff.mp hi
  obtain ⟨hjlt, hj⟩ := List.getElem?_eq_some_iff.mp hj
  obtain hlt | heq | hgt := Nat.lt_trichotomy i j
  · exact absurd hsig (hapart i j hilt hjlt hlt _ (by rw [hi]; rfl) _ (by rw [hj]; rfl))
  · exact heq
  · exact absurd hsig.symm (hapart j i hjlt hilt hgt _ (by rw [hj]; rfl) _ (by rw [hi]; rfl))

/-- The cache answers with the pipeline of the queue that has the signature. -/
theorem get?_eq_some_iff (h : c.Queues q) : c.get? s = some d ↔ d ∈ q ∧ d.signature = s := by
  have hfound {e : Dispatch} (he : c.get? s = some e) : e ∈ q ∧ e.signature = s := by
    have hslot : c.slots.find? (holds s) = some (some e) := Option.join_eq_some_iff.mp he
    obtain ⟨e', heq, hsig⟩ := holds_iff.mp (List.find?_some hslot)
    obtain rfl := Option.some.inj heq
    exact ⟨h.mem_slots_iff.mp (List.mem_of_find?_eq_some hslot), hsig⟩
  refine ⟨hfound, fun ⟨hd, hsig⟩ => ?_⟩
  have hsome : (c.slots.find? (holds s)).isSome :=
    List.find?_isSome.mpr ⟨some d, h.mem_slots_iff.mpr hd, holds_iff.mpr ⟨d, rfl, hsig⟩⟩
  obtain ⟨slot, hslot⟩ := Option.isSome_iff_exists.mp hsome
  obtain ⟨e, rfl, -⟩ := holds_iff.mp (List.find?_some hslot)
  have he : c.get? s = some e := Option.join_eq_some_iff.mpr hslot
  obtain ⟨heq, hesig⟩ := hfound he
  rw [he, List.inj_on_of_nodup_map h.distinct heq hd (hesig.trans hsig.symm)]

theorem get?_eq_none (h : c.Queues q) (hs : s ∉ q.map Dispatch.signature) : c.get? s = none := by
  cases hget : c.get? s with
  | none => rfl
  | some d =>
    obtain ⟨hd, hsig⟩ := h.get?_eq_some_iff.mp hget
    exact absurd (List.mem_map.mpr ⟨d, hd, hsig⟩) hs

/-- A pipeline with a signature that is there takes the place of the one that has it. -/
theorem insert_again (h : c.Queues q) (hs : d.signature ∈ q.map Dispatch.signature) :
    (c.insert d).Queues (q.map (PipelineQueue.replace d)) := by
  obtain ⟨e, he, hsig⟩ := List.mem_map.mp hs
  obtain ⟨i, hi⟩ : ∃ i, c.slots.findIdx? (holds d.signature) = some i :=
    Option.isSome_iff_exists.mp (List.findIdx?_isSome.trans
      (List.any_eq_true.mpr ⟨some e, h.mem_slots_iff.mpr he, holds_iff.mpr ⟨e, rfl, hsig⟩⟩))
  obtain ⟨hlt, hholds, -⟩ := List.findIdx?_eq_some_iff_getElem.mp hi
  obtain ⟨e', hslot, hsig'⟩ := holds_iff.mp hholds
  have hget : c.slots[i]? = some (some e') := List.getElem?_eq_some_iff.mpr ⟨hlt, hslot⟩
  -- no other slot has the signature, so it is the only one that is changed in either way
  have hset : c.slots.set i (some d) = c.slots.map (Option.map (PipelineQueue.replace d)) := by
    refine List.ext_getElem? fun j => ?_
    rw [List.getElem?_map]
    by_cases hj : i = j
    · subst hj
      rw [List.getElem?_set_self hlt, hget]
      exact congrArg (some ∘ some) (if_pos hsig').symm
    · rw [List.getElem?_set_ne hj]
      cases hx : c.slots[j]? with
      | none => rfl
      | some slot =>
        cases slot with
        | none => rfl
        | some x =>
          have hne : x.signature ≠ d.signature := fun heq =>
            hj (h.slots_unique hget hx (hsig'.trans heq.symm))
          exact congrArg (some ∘ some) (if_neg hne).symm
  unfold PipelineCache.insert
  rw [hi]
  refine ⟨?_, h.next_lt, by rw [List.length_map]; exact h.size_eq,
    by rw [List.length_map]; exact h.fits,
    by rw [PipelineQueue.signatures_map_replace]; exact h.distinct⟩
  dsimp only
  rw [hset, ← List.map_rotate, h.view, List.map_append, List.map_replicate, List.map_map,
    List.map_map, List.length_map]
  rfl

/-- Without what is in front, the view of a queue is that of the queue with room for one more. -/
theorem tail_view (hcap : 0 < capacity) (hq : q.length ≤ capacity) (d : Dispatch) :
    (List.replicate (capacity - q.length) none ++ q.map some).tail ++ [some d] =
      List.replicate (capacity - (PipelineQueue.makeRoom capacity q ++ [d]).length) none ++
        (PipelineQueue.makeRoom capacity q ++ [d]).map some := by
  rw [List.length_append, List.length_singleton, PipelineQueue.length_makeRoom hcap hq,
    List.map_append, ← List.append_assoc]
  unfold PipelineQueue.makeRoom
  by_cases hlt : q.length < capacity
  · rw [if_pos hlt, Nat.min_eq_left hlt,
      show capacity - q.length = capacity - (q.length + 1) + 1 by omega, List.replicate_succ]
    rfl
  · rw [if_neg hlt, show capacity - q.length = 0 by omega,
      show capacity - min (q.length + 1) capacity = 0 by omega, List.map_tail]
    rfl

/-- A pipeline with a new signature comes last. Without a free slot it takes that of the oldest. -/
theorem insert_new (h : c.Queues q) (hs : d.signature ∉ q.map Dispatch.signature) :
    (c.insert d).Queues (PipelineQueue.makeRoom capacity q ++ [d]) := by
  have hnone : c.slots.findIdx? (holds d.signature) = none := by
    refine List.findIdx?_eq_none_iff.mpr fun slot hslot => Bool.eq_false_iff.mpr fun hholds => ?_
    obtain ⟨e, rfl, hsig⟩ := holds_iff.mp hholds
    exact hs (List.mem_map.mpr ⟨e, h.mem_slots_iff.mp hslot, hsig⟩)
  have hcap : 0 < capacity := Nat.zero_lt_of_lt h.next_lt
  have hlen := PipelineQueue.length_makeRoom hcap h.fits
  unfold PipelineCache.insert
  rw [hnone]
  refine ⟨?_, Nat.mod_lt _ hcap, ?_, ?_, ?_⟩
  · dsimp only
    rw [← tail_view hcap h.fits, ← h.view,
      ← rotate_set_succ (h.length_slots.symm ▸ h.next_lt) (some d),
      ← List.rotate_mod _ (c.next + 1), List.length_set, h.length_slots]
  · dsimp only
    rw [h.size_eq, List.length_append, List.length_singleton, hlen]
  · rw [List.length_append, List.length_singleton, hlen]
    exact Nat.min_le_right _ _
  · rw [List.map_append, List.map_singleton]
    have hsub := (PipelineQueue.makeRoom_sublist capacity q).map Dispatch.signature
    refine List.Nodup.append (h.distinct.sublist hsub) (List.nodup_singleton _) ?_
    exact List.disjoint_singleton.mpr fun hmem => hs (hsub.subset hmem)

/-- The step: a call of a cache is one of its queue. -/
theorem perform (h : c.Queues q) (call : CacheCall) :
    (c.perform call).Queues (PipelineQueue.perform capacity q call) := by
  cases call with
  | lookup s => exact h
  | clear => exact queues_empty (Nat.zero_lt_of_lt h.next_lt)
  | insert d =>
    unfold PipelineQueue.perform PipelineQueue.insert
    dsimp only
    split
    · exact h.insert_again ‹_›
    · exact h.insert_new ‹_›

/-- As many slots are taken as the queue has pipelines. -/
theorem countP_slots (h : c.Queues q) : c.slots.countP Option.isSome = q.length := by
  rw [← (List.rotate_perm c.slots c.next).countP_eq, h.view, List.countP_append,
    List.countP_replicate, List.countP_map]
  simp

theorem filterMap_view (h : c.Queues q) : (c.slots.rotate c.next).filterMap id = q := by
  rw [h.view, List.filterMap_append, List.filterMap_replicate_of_none rfl, List.filterMap_map]
  exact List.filterMap_some

end Queues

/-- After every run of calls the cache has the pipelines of its queue. -/
theorem queues_run (hcap : 0 < capacity) (calls : List CacheCall) :
    (run capacity calls).Queues (PipelineQueue.run capacity calls) := by
  induction calls using List.reverseRecOn with
  | nil => exact queues_empty hcap
  | append_singleton calls call ih =>
    rw [run, PipelineQueue.run, List.foldl_append, List.foldl_append]
    exact ih.perform call

/-- A cache with at least one slot is a bounded queue, whatever it is asked: its slots, from the one
that is taken next on, hold the pipelines of the queue from the oldest on and no signature twice;
its size counts the slots that are taken; and for a signature that the queue has it answers with the
pipeline that was inserted last, for any other with none. -/
theorem run_eq_queue (hcap : 0 < capacity) (calls : List CacheCall) :
    let c := run capacity calls
    let q := PipelineQueue.run capacity calls
    (c.slots.rotate c.next).filterMap id = q ∧
      c.slots.length = capacity ∧
      (∀ (i j : Nat) (d e : Dispatch), c.slots[i]? = some (some d) → c.slots[j]? = some (some e) →
        d.signature = e.signature → i = j) ∧
      c.size = c.slots.countP Option.isSome ∧ c.size ≤ capacity ∧
      (∀ s, c.get? s =
        if s ∈ q.map Dispatch.signature then CacheCall.latest? calls s else none) ∧
      ∀ s, c.contains s = decide (s ∈ q.map Dispatch.signature) := by
  intro c q
  have h : c.Queues q := queues_run hcap calls
  have hget (s : Signature) :
      c.get? s = if s ∈ q.map Dispatch.signature then CacheCall.latest? calls s else none := by
    split
    · rename_i hs
      obtain ⟨d, hd, rfl⟩ := List.mem_map.mp hs
      rw [h.get?_eq_some_iff.mpr ⟨hd, rfl⟩, PipelineQueue.latest?_of_mem_run hd]
    · exact h.get?_eq_none ‹_›
  refine ⟨h.filterMap_view, h.length_slots, fun i j d e => h.slots_unique, ?_, ?_, hget, ?_⟩
  · rw [h.size_eq, h.countP_slots]
  · rw [h.size_eq]
    exact h.fits
  · intro s
    unfold contains
    by_cases hs : s ∈ q.map Dispatch.signature
    · obtain ⟨d, hd, hsig⟩ := List.mem_map.mp hs
      rw [h.get?_eq_some_iff.mpr ⟨hd, hsig⟩, decide_eq_true hs]
      rfl
    · rw [h.get?_eq_none hs, decide_eq_false hs]
      rfl

/-- Two slots, and the calls `a`, `b`, `a` again, `c`: the third call does not make `a` younger than
`b`, so that it is `a` that `c` displaces. -/
theorem run_eq_queue_two :
    let pipeline (bits : UInt32) (op : Operator) : Dispatch :=
      .static ⟨⟨bits⟩, .prgb32, .prgb32, op, .alignedBox, .solid⟩
    let calls : List CacheCall := [.insert (pipeline 1 .srcOver), .insert (pipeline 2 .srcOver),
      .insert (pipeline 1 .clear), .insert (pipeline 3 .srcOver)]
    0 < 2 ∧ (run 2 calls).get? ⟨1⟩ = none ∧
      (run 2 calls).get? ⟨2⟩ = some (pipeline 2 .srcOver) ∧
      (run 2 calls).get? ⟨3⟩ = some (pipeline 3 .srcOver) := by
  intro pipeline calls
  obtain ⟨-, -, -, -, -, hget, -⟩ := run_eq_queue (by decide : 0 < 2) calls
  exact ⟨by decide, (hget ⟨1⟩).trans (if_neg (by decide)), (hget ⟨2⟩).trans (if_pos (by decide)),
    (hget ⟨3⟩).trans (if_pos (by decide))⟩

end PipelineCache

end Scanline
