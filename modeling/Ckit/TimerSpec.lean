import Mathlib.Data.Finset.Insert
import Mathlib.Data.Finset.Basic
import Ckit.Timer

/-!
# What the parts of the timer queue do

A queue is meant to be a set of timers. `Heap.Stores` says that a heap stores
exactly the set `S`: each timer of `S` once, no other, and the `active` flag of
every timer – also of those outside – right. An insertion of a timer outside
`S` and a removal of any position keep such a set; an insertion of one inside
breaks it for good. `Heap.Located` is what a deletion relies on: the position
written in the timer is one where the timer is.

The locked parts of `timer.c` are described by one case analysis each, in terms
of what the heap does.
-/

namespace Heap

variable {ι β : Type} {h h' : Heap ι β}

/-- **The heap stores exactly the set `S`.** -/
structure Stores (h : Heap ι β) (S : Finset ι) : Prop where
  nodup : h.entries.Nodup
  mem : ∀ t, t ∈ h.entries ↔ t ∈ S
  active : ∀ t, (h.hi t).active = true ↔ t ∈ S

/-- **The position written in the item is one where the item is.** -/
def Located (h : Heap ι β) (t : ι) : Prop := (h.hi t).index < h.size ∧ h.map (h.hi t).index = t

instance [DecidableEq ι] (h : Heap ι β) (t : ι) : Decidable (h.Located t) :=
  inferInstanceAs (Decidable (_ ∧ _))

/-- What the items are besides their `heapitem` plays no role. -/
theorem stores_obj {S : Finset ι} {obj : ι → β} :
    { h with obj := obj }.Stores S ↔ h.Stores S :=
  ⟨fun hs => ⟨hs.nodup, hs.mem, hs.active⟩, fun hs => ⟨hs.nodup, hs.mem, hs.active⟩⟩

theorem wf_obj {obj : ι → β} (hw : h.WF) : { h with obj := obj }.WF :=
  ⟨hw.size_le, hw.slots_eq, hw.max_pos, hw.max_lt⟩

/-- An empty heap stores nothing. -/
theorem Stores.eq_empty {S : Finset ι} (hs : h.Stores S) (hsize : h.size = 0) : S = ∅ := by
  ext t
  rw [← hs.mem, mem_entries, hsize]
  simp

theorem stores_empty (hsize : h.size = 0) (hact : ∀ t, (h.hi t).active = false) :
    h.Stores ∅ := by
  have hnil : h.entries = [] := List.length_eq_zero_iff.mp (by rw [length_entries, hsize])
  refine ⟨hnil ▸ List.nodup_nil, fun t => ?_, fun t => ?_⟩
  · simp [hnil]
  · simp [hact t]

variable [DecidableEq ι] {S : Finset ι}

/-- Inserting an item that is not stored adds it to the set. -/
theorem Stores.insert (hs : h.Stores S) {t : ι} (hin : Inserted h t h') (ht : t ∉ S) :
    h'.Stores (Insert.insert t S) := by
  have hnot : t ∉ h.entries := fun hm => ht ((hs.mem t).mp hm)
  refine ⟨hin.entries.nodup_iff.mpr (List.nodup_cons.mpr ⟨hnot, hs.nodup⟩), fun p => ?_,
    fun p => ?_⟩
  · rw [hin.entries.mem_iff, List.mem_cons, Finset.mem_insert, hs.mem]
  · by_cases hp : p = t
    · subst hp
      simp [hin.active]
    · rw [hin.other p hp, hs.active, Finset.mem_insert, or_iff_right hp]

omit [DecidableEq ι] in
/-- Inserting an item that is stored already stores it twice. -/
theorem Inserted.not_nodup {t : ι} (hin : Inserted h t h') (ht : t ∈ h.entries) :
    ¬ h'.entries.Nodup := fun hn =>
  (List.nodup_cons.mp (hin.entries.nodup_iff.mp hn)).1 ht

/-- A removal takes the item at its position out of the set, and no other. -/
theorem Stores.remove (hs : h.Stores S) {index : ℕ} (hrem : Removed h index h') :
    h'.Stores (S.erase (h.map index)) := by
  obtain ⟨hnot, hnodup⟩ := List.nodup_cons.mp (hrem.entries.nodup_iff.mp hs.nodup)
  refine ⟨hnodup, fun p => ?_, fun p => ?_⟩
  · rw [Finset.mem_erase, ← hs.mem, hrem.entries.mem_iff, List.mem_cons]
    constructor
    · intro hp
      exact ⟨fun heq => hnot (heq ▸ hp), Or.inr hp⟩
    · rintro ⟨hne, hp⟩
      exact hp.resolve_left hne
  · by_cases hp : p = h.map index
    · subst hp
      simp [hrem.hi_self]
    · rw [hrem.other p hp, hs.active, Finset.mem_erase, and_iff_right hp]

end Heap

namespace TimerQueue

variable {ι θ : Type} {tq tq' : TimerQueue ι θ}

@[simp] theorem signalIf_queue (tq : TimerQueue ι θ) (raise : Bool) :
    (tq.signalIf raise).queue = tq.queue := by
  unfold signalIf timerQueueSignalRaise signalWrite
  split
  · split
    · rfl
    · rfl
  · rfl

variable [DecidableEq ι] [DecidableEq θ]

/-- What a deletion does to the heap: nothing, where the position written in the
timer is beyond the end, or a removal at that position. -/
def DelOutcome (h : Heap ι Timer) (t : ι) (h' : Heap ι Timer) : Prop :=
  h.size ≤ (h.hi t).index ∧ h' = h
    ∨ (h.hi t).index < h.size ∧ Heap.Removed h (h.hi t).index h'

/-- **Everything the locked part of a deletion can do.** -/
theorem delSection_cases (hw : tq.queue.WF) (hs : tq.queue.size < 2 ^ 31) (self : θ) (t : ι) :
    ∃ queue, DelOutcome tq.queue t queue ∧ tq.delSection self t
      = some ((tq.queue.hi t).index == 0 && tq.thr ≠ self, { tq with queue := queue }) := by
  unfold delSection
  dsimp only
  rcases Heap.heapRemove_cases hw hs (tq.queue.hi t).index with ⟨hge, hrun⟩ | ⟨hlt, h', hsift, hrun⟩
  · refine ⟨tq.queue, Or.inl ⟨hge, rfl⟩, ?_⟩
    rw [hrun]
    rfl
  · refine ⟨_, Or.inr ⟨hlt, Heap.removed_of_sifts hw hlt hsift⟩, ?_⟩
    rw [hrun]
    rfl

/-- **Everything the locked part of `timer_mod` can do**: find no memory and
change nothing, or insert the timer. -/
theorem insertSection_cases (hw : tq.queue.WF) {alloc : Option (ℕ → ι)}
    (hg : tq.queue.Grows alloc) (self : θ) (t : ι) (wasFirst : Bool) :
    tq.queue.heapFull = true ∧ alloc = none
        ∧ tq.insertSection self t wasFirst alloc = some (-1, false, tq)
      ∨ ∃ queue, Heap.Inserted tq.queue t queue ∧ tq.insertSection self t wasFirst alloc
        = some (1, tq.thr ≠ self && ((queue.hi t).index == 0 || wasFirst),
            { tq with queue := queue }) := by
  unfold insertSection
  rcases Heap.heapInsert_cases hw t hg with ⟨hfull, hnone, hrun⟩ | ⟨g, h', j, hroom, hrise, hrun⟩
  · refine Or.inl ⟨hfull, hnone, ?_⟩
    rw [hrun]
    rfl
  · refine Or.inr ⟨_, Heap.inserted_of_rises hroom hrise, ?_⟩
    rw [hrun]
    rfl

omit [DecidableEq θ] in
/-- **Everything `timer_handle_timeout` can do**: find the queue empty, or take out
the timer at the front. -/
theorem timerHandleTimeout_cases (hw : tq.queue.WF) (hs : tq.queue.size < 2 ^ 31) :
    tq.queue.size = 0 ∧ tq.timerHandleTimeout = some (-1, none, tq)
      ∨ 0 < tq.queue.size ∧ ∃ queue, Heap.Removed tq.queue 0 queue
        ∧ tq.timerHandleTimeout = some (0, some (tq.queue.map 0), { tq with queue := queue }) := by
  unfold timerHandleTimeout
  by_cases hempty : tq.queue.heapEmpty = true
  · refine Or.inl ⟨eq_of_beq hempty, ?_⟩
    rw [if_pos hempty]
    rfl
  · have hpos : 0 < tq.queue.size := Nat.pos_of_ne_zero fun h => hempty (beq_iff_eq.mpr h)
    rw [if_neg hempty]
    obtain ⟨hge, -⟩ | ⟨hlt, h', hsift, hrun⟩ := Heap.heapRemove_cases hw hs 0
    · omega
    · refine Or.inr ⟨hpos, _, Heap.removed_of_sifts hw hlt hsift, ?_⟩
      unfold Heap.heapRemoveFirst
      rw [hrun]
      rfl

omit [DecidableEq ι] [DecidableEq θ] in
/-- A queue from `timer_queue_init` is well formed and empty. -/
theorem timerQueueInit_wf {self : θ} {hi : ι → HeapItem} {obj : ι → Timer}
    {alloc : Option (ℕ → ι)} (hinit : timerQueueInit self hi obj alloc = some tq) :
    tq.queue.WF ∧ tq.queue.size = 0 ∧ tq.queue.hi = hi := by
  obtain ⟨queue, hqueue, rfl⟩ := Option.map_eq_some_iff.mp hinit
  obtain ⟨hw, hsize, -, hhi, -⟩ := Heap.heapInit_wf (by decide) hqueue
  exact ⟨hw, hsize, hhi⟩

namespace DelOutcome

variable {h h' : Heap ι Timer} {t : ι}

omit [DecidableEq ι] in
theorem wf (hd : DelOutcome h t h') (hw : h.WF) : h'.WF := by
  obtain ⟨-, rfl⟩ | ⟨-, hrem⟩ := hd
  · exact hw
  · exact hrem.wf

omit [DecidableEq ι] in
theorem size_le (hd : DelOutcome h t h') : h'.size ≤ h.size := by
  obtain ⟨-, rfl⟩ | ⟨-, hrem⟩ := hd
  · exact le_rfl
  · have := hrem.size
    omega

omit [DecidableEq ι] in
/-- **A stored timer is gone after a deletion exactly where it was located.** -/
theorem mem_iff (hd : DelOutcome h t h') (hn : h.entries.Nodup) (ht : t ∈ h.entries) :
    t ∈ h'.entries ↔ ¬ h.Located t := by
  obtain ⟨hge, rfl⟩ | ⟨hlt, hrem⟩ := hd
  · exact iff_of_true ht fun hloc => absurd hloc.1 (by omega)
  · obtain ⟨hnot, -⟩ := List.nodup_cons.mp (hrem.entries.nodup_iff.mp hn)
    rw [hrem.entries.mem_iff, List.mem_cons] at ht
    rw [Heap.Located, not_and, forall_prop_of_true hlt]
    constructor
    · intro hm heq
      exact hnot (heq.symm ▸ hm)
    · intro hne
      exact ht.resolve_left fun heq => hne heq.symm

/-- Where the timer was located, the deletion takes it out of the set and no
other. -/
theorem stores (hd : DelOutcome h t h') {S : Finset ι} (hs : h.Stores S)
    (hloc : h.Located t) : h'.Stores (S.erase t) := by
  obtain ⟨hge, -⟩ | ⟨-, hrem⟩ := hd
  · exact absurd hloc.1 (by omega)
  · have hstores := hs.remove hrem
    rwa [hloc.2] at hstores

end DelOutcome

/-- **A deletion goes where it should**: a scheduled timer is where its position
says, and that of an unscheduled one is beyond the end of the queue. -/
def DelFinds (tq : TimerQueue ι θ) (t : ι) : Prop :=
  if tq.timerScheduled t then tq.queue.Located t
  else tq.queue.size ≤ (tq.queue.hi t).index

instance (tq : TimerQueue ι θ) (t : ι) : Decidable (tq.DelFinds t) :=
  inferInstanceAs (Decidable (if tq.timerScheduled t then tq.queue.Located t
    else tq.queue.size ≤ (tq.queue.hi t).index))

omit [DecidableEq ι] [DecidableEq θ] in
theorem scheduled_iff {S : Finset ι} (hs : tq.queue.Stores S) (t : ι) :
    tq.timerScheduled t = true ↔ t ∈ S :=
  hs.active t

omit [DecidableEq θ] in
/-- **When a deletion is that of the set.** -/
theorem timerDel_stores_iff {S : Finset ι} (hs : tq.queue.Stores S) {t : ι} {h' : Heap ι Timer}
    (hdel : DelOutcome tq.queue t h') :
    h'.Stores (S.erase t) ↔ tq.DelFinds t := by
  unfold DelFinds
  by_cases ht : t ∈ S
  · rw [if_pos ((scheduled_iff hs t).mpr ht)]
    constructor
    · intro hs'
      by_contra hloc
      have hmem := (hdel.mem_iff hs.nodup ((hs.mem t).mpr ht)).mpr hloc
      exact (Finset.notMem_erase t S) ((hs'.mem t).mp hmem)
    · exact hdel.stores hs
  · rw [if_neg (fun h => ht ((scheduled_iff hs t).mp h)), Finset.erase_eq_of_notMem ht]
    obtain ⟨hge, rfl⟩ | ⟨hlt, hrem⟩ := hdel
    · exact iff_of_true hs hge
    · -- the entry at the position read from the timer is gone, and it was in the set
      refine iff_of_false (fun hs' => ?_) (by omega)
      have hin : tq.queue.map (tq.queue.hi t).index ∈ S :=
        (hs.mem _).mp (Heap.mem_entries.mpr ⟨_, hlt, rfl⟩)
      have hrest := (hs.remove hrem).mem (tq.queue.map (tq.queue.hi t).index)
      rw [hs'.mem] at hrest
      exact Finset.notMem_erase _ S (hrest.mp hin)

/-- The queue a thread gets from `timer_queue_init`, with timers that are numbers
and have all the same delay. -/
def natQueue (owner : θ) : TimerQueue ℕ θ :=
  ⟨⟨heapDefaultSize, 0, heapCmp, fun _ => 0, heapDefaultSize, fun _ => timerInit,
    fun _ => ⟨⟨0, 0⟩, 7⟩⟩, [], owner⟩

end TimerQueue
