import Ckit.HeapLog
import Ckit.Timer

/-!
# Tearing down a timer queue

`timer_list_destroy` takes the first timer out of the queue and calls its
destructor, until there is none left. The destructor is the caller's and will mostly
free the timer, so that two things matter besides that every timer gets its call: it
gets one only, and the queue must not come back to a timer it has handed over – not
even to compare it with another one or to write its position.

What a destructor does to the memory of the timers is an argument, and may be
anything; it does not call back into the queue. The order of the heap and the
positions in the items play no role, and neither do the answers of the comparison:
a removal touches nothing but timers that are still in the queue, and takes one
out.

It does have to come back. With `2^31 + 1` timers or more the positions
`heap_heapify` computes may wrap, from the bottom of the heap to its front, and then
an entry can sink in circles (`timer_list_destroy_stuck`).
-/

/-- What is done to the timers while the queue is torn down. -/
inductive TeardownEvent (ι : Type) where
  /-- An access of the heap. -/
  | heap (e : HeapEvent ι)
  /-- The test of `t->destruct`. -/
  | test (t : ι)
  /-- The call `t->destruct(t)`. -/
  | destruct (t : ι)

namespace TeardownEvent

variable {ι : Type}

/-- The timer the event reads, writes or hands over. -/
def timer : TeardownEvent ι → Option ι
  | .heap (.slot _ _ _ _) => none
  | .heap (.item p) => some p
  | .test t => some t
  | .destruct t => some t

/-- The timer handed over to its destructor. -/
def destroyed : TeardownEvent ι → Option ι
  | .destruct t => some t
  | _ => none

end TeardownEvent

/-- The destructors of the timers: which of them have one, and what it makes of the memory of
the timers, its own and any other's. -/
structure Destructors (ι : Type) where
  has : ι → Bool
  effect : ι → (ι → HeapItem × Timer) → ι → HeapItem × Timer

namespace Destructors

variable {ι : Type} (d : Destructors ι)

/-- The queue after the call of the destructor of `t`, where it has one. -/
def apply (h : Heap ι Timer) (t : ι) : Heap ι Timer :=
  if d.has t then
    { h with
      hi := fun p => (d.effect t (fun p => (h.hi p, h.obj p)) p).1
      obj := fun p => (d.effect t (fun p => (h.hi p, h.obj p)) p).2 }
  else h

/-- `if (t->destruct) t->destruct(t)`. -/
def call (h : Heap ι Timer) (t : ι) : Traced (TeardownEvent ι) (Heap ι Timer) :=
  ⟨some (d.apply h t), if d.has t then [.test t, .destruct t] else [.test t]⟩

end Destructors

section

variable {ι θ : Type} [DecidableEq ι] (d : Destructors ι)

/-- The body of the loop of `timer_list_destroy`, on a queue that is not empty. There is no
timer behind a `NULL`. -/
def destroyFirst (h : Heap ι Timer) : Traced (TeardownEvent ι) (Heap ι Timer) := do
  let (item, h) ← (h.logRemove 0).mapLog .heap
  let t ← (⟨item, []⟩ : Traced (TeardownEvent ι) ι)
  d.call h t

/-- The loop of `timer_list_destroy`, with the number of iterations as fuel. -/
def destroyLoop : ℕ → Heap ι Timer → Traced (TeardownEvent ι) (Heap ι Timer)
  | 0, _ => ⟨none, []⟩
  | fuel + 1, h =>
    if h.heapEmpty then
      return h
    else do
      let h ← destroyFirst d h
      destroyLoop fuel h

namespace TimerQueue

/-- `timer_list_destroy`. Each iteration takes one of fewer than `2^32` timers. -/
def timerListDestroy (tq : TimerQueue ι θ) : Traced (TeardownEvent ι) (TimerQueue ι θ) := do
  let queue ← destroyLoop d (2 ^ 32) tq.queue
  return { tq with queue := queue }

/-- `timer_queue_fini`: the pipe is closed, and at the end the slots are freed. -/
def timerQueueFini (tq : TimerQueue ι θ) : Traced (TeardownEvent ι) (TimerQueue ι θ) := do
  let tq := { tq with pipe := [] }
  let tq ← tq.timerListDestroy d
  return { tq with queue := { tq.queue with slots := 0 } }

end TimerQueue

/-! ## The condition -/

/-- **No removal wraps**, in the next `n` iterations: the last entry, brought to the front,
sinks only to positions whose children have a position. -/
def PopsWithin : ℕ → Heap ι Timer → Prop
  | 0, _ => True
  | n + 1, h => h.SinksWithin 0 ∧ ∀ h₁, Heap.Sifts (h.moveLast 0) 0 h₁ →
      PopsWithin n (d.apply (h₁.retire (h.map 0)) (h.map 0))

variable {d} {h : Heap ι Timer}

omit [DecidableEq ι] in
theorem Destructors.apply_eq (h : Heap ι Timer) (t : ι) :
    ∃ hi obj, d.apply h t = { h with hi := hi, obj := obj } := by
  unfold Destructors.apply
  by_cases hd : d.has t = true
  · rw [if_pos hd]
    exact ⟨_, _, rfl⟩
  · rw [if_neg hd]
    exact ⟨_, _, rfl⟩

omit [DecidableEq ι] in
@[simp] theorem Destructors.size_apply (h : Heap ι Timer) (t : ι) :
    (d.apply h t).size = h.size := by
  obtain ⟨_, _, heq⟩ := d.apply_eq h t
  rw [heq]

omit [DecidableEq ι] in
@[simp] theorem Destructors.entries_apply (h : Heap ι Timer) (t : ι) :
    (d.apply h t).entries = h.entries := by
  obtain ⟨_, _, heq⟩ := d.apply_eq h t
  rw [heq]
  rfl

omit [DecidableEq ι] in
theorem Destructors.wf_apply (hw : h.WF) (t : ι) : (d.apply h t).WF := by
  obtain ⟨_, _, heq⟩ := d.apply_eq h t
  rw [heq]
  exact hw.resize rfl rfl hw.size_le

/-- Up to `2^31` timers are torn down without a wrap. -/
theorem popsWithin_of_le (n : ℕ) (hs : h.size ≤ 2 ^ 31) : PopsWithin d n h := by
  induction n generalizing h with
  | zero => trivial
  | succ n ih =>
    refine ⟨Heap.sinksWithin_of_le hs (by decide), fun h₁ hsift => ih ?_⟩
    have hsize : h₁.size = h.size - 1 := hsift.shape.size
    rw [Destructors.size_apply]
    show h₁.size ≤ 2 ^ 31
    omega

/-! ## One timer -/

/-- **What a log of the tear-down of these timers looks like**: it is about them only, the
destructors called are theirs, and no timer is touched after its own. -/
structure Torn (d : Destructors ι) (timers : List ι) (log : List (TeardownEvent ι)) : Prop where
  within : ∀ e ∈ log, ∀ t, e.timer = some t → t ∈ timers
  once : List.Perm (log.filterMap TeardownEvent.destroyed) (timers.filter d.has)
  after : log.Pairwise fun e f => ∀ t, e.destroyed = some t → f.timer ≠ some t

omit [DecidableEq ι] in
/-- A timer handed over is touched. -/
theorem TeardownEvent.timer_of_destroyed {e : TeardownEvent ι} {t : ι} (h : e.destroyed = some t) :
    e.timer = some t := by
  cases e with
  | destruct => exact h
  | heap => exact absurd h.symm (Option.some_ne_none t)
  | test => exact absurd h.symm (Option.some_ne_none t)

omit [DecidableEq ι] in
/-- The call is about its timer, and hands it over where that has a destructor. -/
theorem Destructors.log_call (h : Heap ι Timer) (t : ι) :
    (∀ e ∈ (d.call h t).log, e.timer = some t)
      ∧ (d.call h t).log.filterMap TeardownEvent.destroyed = [t].filter d.has
      ∧ (d.call h t).log.Pairwise fun e f => ∀ u, e.destroyed = some u → f.timer ≠ some u := by
  have hlog : (d.call h t).log = if d.has t then [.test t, .destruct t] else [.test t] := rfl
  by_cases hd : d.has t = true
  · rw [hlog, if_pos hd, List.filter_cons_of_pos hd]
    refine ⟨fun e he => ?_, rfl, ?_⟩
    · rcases List.mem_pair.mp he with rfl | rfl
      · rfl
      · rfl
    · exact List.pairwise_pair.mpr fun u hu => absurd hu.symm (Option.some_ne_none u)
  · rw [hlog, if_neg hd, List.filter_cons_of_neg hd]
    refine ⟨fun e he => ?_, rfl, List.pairwise_singleton _ _⟩
    rw [List.mem_singleton.mp he]
    rfl

omit [DecidableEq ι] in
/-- The tear-down of one more timer: accesses of the heap, the call, and the rest. -/
theorem Torn.cons {timers rest : List ι} {t : ι} {l : List (HeapEvent ι)}
    {log : List (TeardownEvent ι)} (hperm : List.Perm timers (t :: rest)) (hnew : t ∉ rest)
    (hl : ∀ e ∈ l, e.On (· ∈ timers)) (hrest : Torn d rest log) (h : Heap ι Timer) :
    Torn d timers (l.map .heap ++ ((d.call h t).log ++ log)) := by
  obtain ⟨hcall, hone, hpair⟩ := d.log_call h t
  have hheap : ∀ e ∈ l.map TeardownEvent.heap, e.destroyed = none := by
    intro e he
    obtain ⟨e', -, rfl⟩ := List.mem_map.mp he
    rfl
  have hnone : ∀ e ∈ l.map TeardownEvent.heap, ∀ f : TeardownEvent ι, ∀ u,
      e.destroyed = some u → f.timer ≠ some u := by
    intro e he f u hu
    exact absurd (hu.symm.trans (hheap e he)) (Option.some_ne_none u)
  refine ⟨fun e he u hu => ?_, ?_, ?_⟩
  · rcases List.mem_append.mp he with he | he
    · obtain ⟨e', he', rfl⟩ := List.mem_map.mp he
      have hon := hl e' he'
      cases e' with
      | slot => exact absurd hu.symm (Option.some_ne_none u)
      | item p =>
        obtain rfl : p = u := Option.some.inj hu
        exact hon
    · refine hperm.mem_iff.mpr ?_
      rcases List.mem_append.mp he with he | he
      · obtain rfl : t = u := Option.some.inj ((hcall e he).symm.trans hu)
        exact List.mem_cons_self
      · exact List.mem_cons_of_mem _ (hrest.within e he u hu)
  · rw [List.filterMap_append, List.filterMap_append, List.filterMap_eq_nil_iff.mpr hheap,
      List.nil_append, hone]
    refine List.Perm.trans ?_ (hperm.filter d.has).symm
    rw [show t :: rest = [t] ++ rest from rfl, List.filter_append]
    exact hrest.once.append_left _
  · refine List.pairwise_append.mpr ⟨?_, List.pairwise_append.mpr ⟨hpair, hrest.after, ?_⟩, ?_⟩
    · exact List.pairwise_of_forall_mem_list fun e he f _ => hnone e he f
    · -- what comes after the call is about the timers left
      intro e he f hf u hu hfu
      obtain rfl : t = u :=
        Option.some.inj ((hcall e he).symm.trans (TeardownEvent.timer_of_destroyed hu))
      exact hnew (hrest.within f hf t hfu)
    · exact fun e he f _ => hnone e he f

/-- **One iteration** takes the first timer out, and its log is that of the removal and the
call. -/
theorem destroyFirst_eq (hw : h.WF) (hpos : 0 < h.size) (hs : h.SinksWithin 0) :
    ∃ h₁, Heap.Sifts (h.moveLast 0) 0 h₁
      ∧ (destroyFirst d h).outcome = some (d.apply (h₁.retire (h.map 0)) (h.map 0))
      ∧ (destroyFirst d h).log = (h.logRemove 0).log.map .heap
          ++ (d.call (h₁.retire (h.map 0)) (h.map 0)).log := by
  obtain ⟨h₁, hsift, hrem⟩ := ((Heap.heapRemove_cases_of hw hs).resolve_left (by omega)).2
  have hout : ((h.logRemove 0).mapLog TeardownEvent.heap).outcome
      = some (some (h.map 0), h₁.retire (h.map 0)) := (Heap.outcome_logRemove h 0).trans hrem
  refine ⟨h₁, hsift, ?_, ?_⟩
  · unfold destroyFirst
    rw [Traced.outcome_bind, hout]
    rfl
  · unfold destroyFirst
    rw [Traced.log_bind_of_eq hout]
    rfl

/-! ## The whole queue -/

/-- **The loop ends, with an empty heap, and its log is that of a tear-down.** -/
theorem destroyLoop_torn (fuel : ℕ) (hw : h.WF) (hnodup : h.entries.Nodup)
    (hpops : PopsWithin d h.size h) (hfuel : h.size < fuel) :
    (∃ h', (destroyLoop d fuel h).outcome = some h' ∧ h'.size = 0)
      ∧ Torn d h.entries (destroyLoop d fuel h).log := by
  induction fuel generalizing h with
  | zero => omega
  | succ fuel ih =>
    rw [destroyLoop]
    by_cases hempty : h.size = 0
    · have hlist : h.entries = [] := List.length_eq_zero_iff.mp (h.length_entries.trans hempty)
      rw [if_pos (show h.heapEmpty = true from beq_iff_eq.mpr hempty), hlist]
      exact ⟨⟨h, rfl, hempty⟩, fun _ he => absurd he List.not_mem_nil, .nil, .nil⟩
    · rw [if_neg (show ¬ h.heapEmpty = true from fun he => hempty (beq_iff_eq.mp he))]
      obtain ⟨n, hn⟩ := Nat.exists_eq_succ_of_ne_zero hempty
      rw [hn] at hpops
      obtain ⟨h₁, hsift, hout, hlog⟩ := destroyFirst_eq (d := d) hw (by omega) hpops.1
      have hrem := Heap.removed_of_sifts hw (by omega) hsift
      have hsize : (h₁.retire (h.map 0)).size = n := by
        have := hrem.size
        omega
      have hnodup' := hrem.entries.nodup_iff.mp hnodup
      have hrest := ih (h := d.apply (h₁.retire (h.map 0)) (h.map 0))
        (Destructors.wf_apply hrem.wf _)
        (by rw [Destructors.entries_apply]; exact (List.nodup_cons.mp hnodup').2)
        (by rw [Destructors.size_apply, hsize]; exact hpops.2 h₁ hsift)
        (by rw [Destructors.size_apply, hsize]; omega)
      rw [Destructors.entries_apply] at hrest
      refine ⟨?_, ?_⟩
      · rw [Traced.outcome_bind, hout]
        exact hrest.1
      · rw [Traced.log_bind_of_eq hout, hlog, List.append_assoc]
        exact Torn.cons hrem.entries (List.nodup_cons.mp hnodup').1 (Heap.logRemove_on hw 0)
          hrest.2 _

/-- **The timers are destroyed once each**: every timer of the list that has a destructor is
handed over to it once, no other timer is, and after that it is neither read nor written. -/
structure DestroyedOnce (d : Destructors ι) (timers : List ι) (log : List (TeardownEvent ι)) :
    Prop where
  once : ∀ t, (log.filterMap TeardownEvent.destroyed).count t
    = if t ∈ timers ∧ d.has t = true then 1 else 0
  after : log.Pairwise fun e f => ∀ t, e.destroyed = some t → f.timer ≠ some t

theorem Torn.destroyedOnce {timers : List ι} {log : List (TeardownEvent ι)} (hn : timers.Nodup)
    (ht : Torn d timers log) : DestroyedOnce d timers log := by
  refine ⟨fun t => ?_, ht.after⟩
  rw [ht.once.count_eq, List.Nodup.count (hn.filter d.has)]
  exact if_congr List.mem_filter rfl rfl

variable {tq : TimerQueue ι θ}

/-- **Tearing down a queue destroys each timer once.** For every queue of distinct timers, in
any arrangement and with anything in their index fields, and for destructors that may do what
they like with the timers: where no removal wraps, `timer_list_destroy` and `timer_queue_fini`
return with an empty heap, every timer that has a destructor is handed over to it exactly once,
and no timer is read or written after that. -/
theorem timer_list_destroy_once (hw : tq.queue.WF) (hnodup : tq.queue.entries.Nodup)
    (hpops : PopsWithin d tq.queue.size tq.queue) :
    ((∃ tq', (tq.timerListDestroy d).outcome = some tq' ∧ tq'.queue.size = 0)
        ∧ DestroyedOnce d tq.queue.entries (tq.timerListDestroy d).log)
      ∧ (∃ tq', (tq.timerQueueFini d).outcome = some tq' ∧ tq'.queue.size = 0)
        ∧ DestroyedOnce d tq.queue.entries (tq.timerQueueFini d).log := by
  have hle := hw.size_le
  have hmax := hw.max_lt
  obtain ⟨⟨queue, hout, hzero⟩, htorn⟩ := destroyLoop_torn (2 ^ 32) hw hnodup hpops (by omega)
  have hlist : ∀ tq' : TimerQueue ι θ, tq'.queue = tq.queue →
      (tq'.timerListDestroy d).outcome = some { tq' with queue := queue }
        ∧ (tq'.timerListDestroy d).log = (destroyLoop d (2 ^ 32) tq.queue).log := by
    intro tq' heq
    unfold TimerQueue.timerListDestroy
    rw [heq, Traced.outcome_bind, hout, Traced.log_bind_of_eq hout]
    exact ⟨rfl, List.append_nil _⟩
  have honce := htorn.destroyedOnce hnodup
  obtain ⟨hout₁, hlog₁⟩ := hlist tq rfl
  obtain ⟨hout₂, hlog₂⟩ := hlist { tq with pipe := [] } rfl
  refine ⟨⟨⟨_, hout₁, hzero⟩, by rw [hlog₁]; exact honce⟩, ?_⟩
  unfold TimerQueue.timerQueueFini
  rw [Traced.outcome_bind, hout₂, Traced.log_bind_of_eq hout₂, hlog₂]
  refine ⟨⟨_, rfl, hzero⟩, ?_⟩
  rw [Traced.log_pure, List.append_nil]
  exact honce

end

/-- Two timers in the wrong order, with the index fields of both at `9`; one has a destructor,
which wipes it. -/
def twoTimers : TimerQueue ℕ Unit :=
  ⟨⟨2, 2, heapCmp, id, 2, fun _ => ⟨9, true⟩, fun p => ⟨⟨2 - p, 0⟩, 0⟩⟩, [], ()⟩

/-- Both are taken out, and the one is destroyed. -/
theorem timer_list_destroy_two :
    ∃ tq', (twoTimers.timerListDestroy ⟨fun t => t == 1, fun t mem =>
          Function.update mem t (⟨0, false⟩, ⟨⟨0, 0⟩, 0⟩)⟩).outcome = some tq'
      ∧ tq'.queue.size = 0 :=
  (timer_list_destroy_once ⟨by decide, rfl, by decide, by decide⟩ (by decide)
    (popsWithin_of_le _ (by decide))).1.1

/-! ## A queue that is never torn down -/

/-- The positions on the left edge of a heap of `2^31` entries: `0`, `1`, `3`, `7`, and so on
down to `2^31 - 1`. -/
def OnEdge (k : ℕ) : Prop := ∃ j, j < 32 ∧ k + 1 = 2 ^ j

instance : DecidablePred OnEdge := fun k =>
  inferInstanceAs (Decidable (∃ j, j < 32 ∧ k + 1 = 2 ^ j))

/-- How late the timer at position `k` is due while another one circles at `i`: the others on
the edge first, that one next, and all the rest last. -/
def lateness (i k : ℕ) : ℤ := if k = i then 1 else if OnEdge k then 0 else 2

/-- **An entry that circles** at position `i` of the left edge. -/
structure Circling {ι : Type} (h : Heap ι Timer) (i : ℕ) : Prop where
  size : h.size = 2 ^ 31
  slots : 2 ^ 31 ≤ h.slots
  cmp : h.cmp = heapCmp
  edge : OnEdge i
  due : ∀ k, k < 2 ^ 31 → (h.obj (h.map k)).timeout = ⟨lateness i k, 0⟩

theorem onEdge_zero : OnEdge 0 := ⟨0, by decide, rfl⟩

theorem OnEdge.lt {k : ℕ} (hk : OnEdge k) : k < 2 ^ 31 := by
  obtain ⟨j, hj, hkj⟩ := hk
  have : 2 ^ j ≤ 2 ^ 31 := Nat.pow_le_pow_right (by decide) (by omega)
  omega

/-- The left child of a position of the edge is on it again, above the last one. -/
theorem OnEdge.left {k : ℕ} (hk : OnEdge k) (hlast : k ≠ 2 ^ 31 - 1) : OnEdge (2 * k + 1) := by
  obtain ⟨j, hj, hkj⟩ := hk
  have hj31 : j ≠ 31 := by
    rintro rfl
    omega
  exact ⟨j + 1, by omega, by rw [pow_succ]; omega⟩

/-- No right child is on the edge. -/
theorem not_onEdge_right (k : ℕ) : ¬ OnEdge (2 * k + 2) := by
  rintro ⟨j, -, hkj⟩
  cases j with
  | zero => omega
  | succ j =>
    rw [pow_succ] at hkj
    omega

theorem lateness_self (i : ℕ) : lateness i i = 1 := if_pos rfl

theorem lateness_edge {i k : ℕ} (hne : k ≠ i) (hk : OnEdge k) : lateness i k = 0 := by
  rw [lateness, if_neg hne, if_pos hk]

theorem lateness_off {i k : ℕ} (hi : OnEdge i) (hk : ¬ OnEdge k) : lateness i k = 2 := by
  have hne : k ≠ i := fun heq => hk (heq ▸ hi)
  rw [lateness, if_neg hne, if_neg hk]

namespace Circling

variable {ι : Type} {h : Heap ι Timer} {i : ℕ}

theorem less_eq (hc : Circling h i) {k m : ℕ} (hk : k < 2 ^ 31) (hm : m < 2 ^ 31) :
    h.less (h.map k) (h.map m) = decide (lateness i k < lateness i m) := by
  unfold Heap.less
  rw [hc.cmp]
  show Timespec.lt (h.obj (h.map k)).timeout (h.obj (h.map m)).timeout = _
  rw [hc.due k hk, hc.due m hm]
  simp [Timespec.lt]

/-- The test of a child that is due earlier. -/
theorem smaller_of_lt (hc : Circling h i) {k m : ℕ} (hk : k < 2 ^ 31) (hm : m < 2 ^ 31)
    (hlt : lateness i k < lateness i m) : h.smaller k m = some k := by
  rw [Heap.smaller_of_lt (hc.size.trans_le hc.slots) (hm.trans_le hc.slots) (hc.size ▸ hk),
    hc.less_eq hk hm, decide_eq_true hlt]
  rfl

/-- The test of a child that is not in the heap, or not due earlier. -/
theorem smaller_of_not_lt (hc : Circling h i) {k m : ℕ} (hm : m < 2 ^ 31)
    (hlt : k < 2 ^ 31 → ¬ lateness i k < lateness i m) : h.smaller k m = some m := by
  by_cases hk : k < 2 ^ 31
  · rw [Heap.smaller_of_lt (hc.size.trans_le hc.slots) (hm.trans_le hc.slots) (hc.size ▸ hk),
      hc.less_eq hk hm, decide_eq_false (hlt hk)]
    rfl
  · exact Heap.smaller_of_le (by rw [hc.size]; omega)

/-- **The two tests find the next position of the circle**: the left child, and at the bottom
the front. -/
theorem next (hc : Circling h i) : ∃ s, OnEdge s ∧ s ≠ i
    ∧ (h.smaller (u32 (2 * i + 1)) i).bind (fun s => h.smaller (u32 (u32 (2 * i + 1) + 1)) s)
      = some s := by
  have hi := hc.edge.lt
  by_cases hlast : i = 2 ^ 31 - 1
  · refine ⟨0, onEdge_zero, by omega, ?_⟩
    have hl : u32 (2 * i + 1) = 2 ^ 32 - 1 := by
      rw [hlast]
      rfl
    have hr : u32 (2 ^ 32 - 1 + 1) = 0 := rfl
    rw [hl, hr, hc.smaller_of_not_lt hi fun hk => absurd hk (by decide), Option.bind_some]
    refine hc.smaller_of_lt (by decide) hi ?_
    rw [lateness_self, lateness_edge (by omega) onEdge_zero]
    decide
  · have hedge := hc.edge.left hlast
    have hl := hedge.lt
    refine ⟨2 * i + 1, hedge, by omega, ?_⟩
    rw [u32_of_lt (show 2 * i + 1 < 2 ^ 32 by omega),
      u32_of_lt (show 2 * i + 1 + 1 < 2 ^ 32 by omega), hc.smaller_of_lt hl hi, Option.bind_some]
    · refine hc.smaller_of_not_lt hl fun _ => ?_
      rw [lateness_off hc.edge (not_onEdge_right i), lateness_edge (by omega) hedge]
      decide
    · rw [lateness_self, lateness_edge (by omega) hedge]
      decide

variable [DecidableEq ι]

/-- The exchange brings the entry to the next position and leaves the rest as it was. -/
theorem swapAt (hc : Circling h i) {s : ℕ} (hs : OnEdge s) (hne : s ≠ i) :
    Circling (h.swapAt s i) s := by
  refine ⟨hc.size, hc.slots, hc.cmp, hs, fun k hk => ?_⟩
  show (h.obj (h.map (Equiv.swap i s k))).timeout = _
  by_cases hks : k = s
  · rw [hks, Equiv.swap_apply_right, hc.due i hc.edge.lt, lateness_self, lateness_self]
  · by_cases hki : k = i
    · rw [hki, Equiv.swap_apply_left, hc.due s hs.lt, lateness_edge hne hs,
        lateness_edge hne.symm hc.edge]
    · rw [Equiv.swap_apply_of_ne_of_ne hki hks, hc.due k hk]
      unfold lateness
      rw [if_neg hki, if_neg hks]

/-- **An entry that circles never stops**: whatever the depth, the recursion is not done. -/
theorem heapHeapify_eq_none (hc : Circling h i) (fuel : ℕ) : Heap.heapHeapify fuel h i = none := by
  induction fuel generalizing h i with
  | zero => rfl
  | succ fuel ih =>
    obtain ⟨s, hs, hne, hsm⟩ := hc.next
    rw [Heap.heapHeapify]
    simp only [Option.bind_eq_bind]
    rw [← Option.bind_assoc, hsm, Option.bind_some, if_neg hne,
      Heap.exchange_eq (hs.lt.trans_le hc.slots) (hc.edge.lt.trans_le hc.slots), Option.bind_some]
    exact ih (hc.swapAt hs hne)

end Circling

/-- Where the first removal does not return, neither does the tear-down. -/
theorem timerListDestroy_eq_none {ι θ : Type} [DecidableEq ι] {tq : TimerQueue ι θ}
    (d : Destructors ι) (hw : tq.queue.WF) (hpos : 0 < tq.queue.size)
    (hnone : Heap.heapHeapify (2 ^ 32) (tq.queue.moveLast 0) 0 = none) :
    (tq.timerListDestroy d).outcome = none := by
  have hrem : (tq.queue.logRemove 0).outcome = none := by
    rw [Heap.outcome_logRemove, Heap.heapRemove_eq hw hpos, hnone, Option.bind_none]
  have hloop : ∀ fuel, (destroyLoop d fuel tq.queue).outcome = none := by
    intro fuel
    cases fuel with
    | zero => rfl
    | succ fuel =>
      have hfirst : (destroyFirst d tq.queue).outcome = none := by
        unfold destroyFirst Traced.mapLog
        rw [Traced.outcome_bind, hrem, Option.bind_none]
      rw [destroyLoop, if_neg (show ¬ tq.queue.heapEmpty = true from fun he =>
        hpos.ne' (beq_iff_eq.mp he)), Traced.outcome_bind, hfirst, Option.bind_none]
  unfold TimerQueue.timerListDestroy
  rw [Traced.outcome_bind, hloop, Option.bind_none]

/-- `2^31 + 1` timers: those on the left edge due first, the last one after them, and the
others still later. -/
def circlingQueue : TimerQueue ℕ Unit :=
  ⟨⟨2 ^ 31 + 1, 2 ^ 31 + 1, heapCmp, id, 2 ^ 31 + 1, fun p => ⟨p, true⟩,
    fun p => ⟨⟨lateness (2 ^ 31) p, 0⟩, 0⟩⟩, [], ()⟩

theorem circlingQueue_circling : Circling (circlingQueue.queue.moveLast 0) 0 := by
  refine ⟨rfl, by decide, rfl, onEdge_zero, fun k hk => ?_⟩
  by_cases hk0 : k = 0
  · subst hk0
    rw [Heap.moveLast_map_self, lateness_self]
    show Timespec.mk (lateness (2 ^ 31) (2 ^ 31)) 0 = _
    rw [lateness_self]
  · rw [Heap.moveLast_map_of_ne hk0]
    show Timespec.mk (lateness (2 ^ 31) k) 0 = _
    unfold lateness
    rw [if_neg hk0, if_neg (by omega)]

/-- **A tear-down that does not end.** The timers are distinct and each has its position, but
the first removal brings the last of them to the front, from where it sinks down the left edge
and, at the bottom, is found to hang over the front again. -/
theorem timer_list_destroy_stuck :
    circlingQueue.queue.WF ∧ circlingQueue.queue.entries.Nodup
      ∧ (∀ depth, Heap.heapHeapify depth (circlingQueue.queue.moveLast 0) 0 = none)
      ∧ ¬ ∃ tq', (circlingQueue.timerListDestroy ⟨fun _ => true, fun _ mem => mem⟩).outcome
        = some tq' ∧ tq'.queue.size = 0 := by
  have hnever := circlingQueue_circling.heapHeapify_eq_none
  have hw : circlingQueue.queue.WF := ⟨le_rfl, rfl, by decide, by decide⟩
  have hpos : 0 < circlingQueue.queue.size := by decide
  refine ⟨hw, Heap.nodup_entries.mpr fun j k _ _ hjk => hjk, hnever, ?_⟩
  rintro ⟨tq', hout, -⟩
  have hnone := timerListDestroy_eq_none ⟨fun _ => true, fun _ mem => mem⟩ hw hpos (hnever _)
  exact Option.some_ne_none tq' (hout.symm.trans hnone)
