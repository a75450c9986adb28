import Ckit.HeapReverse
import Ckit.TimerClock
import Ckit.TimerDeadline

/-!
# The timer at the front is the last one due

What the order of `Ckit.HeapReverse` means for the timer queue. `timer_add` puts
a timer into the heap with `heap_insert`, and `timer_next_timeout` and
`timer_handle_timeout` go by its front. So a queue that timers are only added to
answers with its *latest* deadline, and calls back the timer that is due last
(`LatestFirst`), whichever threads add them and whatever their clocks read.

Nothing else that a caller may do changes this by itself. A timer that is
scheduled already is left as it is by `timer_add`; `timer_set_usecs` writes no
deadline; and a timer that is taken out leaves the others in this order where the
removal in the heap does (`LatestSafe`). Rescheduling is both: the deadline is
written while the timer is out of the heap – as long as it was taken out, and
not another one in its place.
-/

namespace Heap

variable {ι : Type} {h h' : Heap ι Timer}

/-- **A queue with the latest timer first**: it stores a set of timers, and none is due before
one under it. -/
structure Latest (h : Heap ι Timer) : Prop where
  wf : h.WF
  cmp : h.cmp = byObj timerLt
  stores : ∃ S : Finset ι, h.Stores S
  order : h.ReverseOrdered

/-- Only the deadlines of the timers stored count. -/
theorem Latest.of_timeout (hl : h.Latest) {obj : ι → Timer}
    (hobj : ∀ p ∈ h.entries, (obj p).timeout = (h.obj p).timeout) :
    { h with obj := obj }.Latest := by
  obtain ⟨S, hS⟩ := hl.stores
  refine ⟨wf_obj hl.wf, hl.cmp, ⟨S, stores_obj.mpr hS⟩, fun k hk (hks : k < h.size) => ?_⟩
  have hread : ∀ j, j < h.size → (obj (h.map j)).timeout = (h.obj (h.map j)).timeout :=
    fun j hj => hobj _ (mem_entries.mpr ⟨j, hj, rfl⟩)
  have hedge := hl.order k hk hks
  have hcmp' : { h with obj := obj }.cmp = byObj timerLt := hl.cmp
  rw [less_byObj hl.cmp, timerLt] at hedge
  rw [less_byObj hcmp', timerLt]
  show (obj (h.map ((k - 1) / 2))).timeout.lt (obj (h.map k)).timeout = false
  rwa [hread k hks, hread _ (show (k - 1) / 2 < h.size by omega)]

/-- A timer that is not active is not stored. -/
theorem Latest.notMem (hl : h.Latest) {t : ι} (ht : (h.hi t).active = false) :
    t ∉ h.entries := by
  obtain ⟨S, hS⟩ := hl.stores
  rw [hS.mem, ← hS.active, ht]
  exact Bool.false_ne_true

variable [DecidableEq ι]

/-- Inserting a timer that is not active keeps the latest first. -/
theorem Latest.insert (hl : h.Latest) (hs : h.size < 2 ^ 31) {t : ι}
    (ht : (h.hi t).active = false) (alloc : Option (ℕ → ι)) :
    ∃ h', HeapOp.step h (.insert t alloc) = some h' ∧ h'.Latest := by
  obtain ⟨S, hS⟩ := hl.stores
  rcases heapInsert_cases hl.wf t (grows_of_lt hs alloc) with
    ⟨_, _, heq⟩ | ⟨g, h₁, j, hroom, hrise, heq⟩
  · exact ⟨h, by rw [HeapOp.step, heq]; rfl, hl⟩
  · have hins := inserted_of_rises hroom hrise
    have hnew : t ∉ S := fun hm => hl.notMem ht ((hS.mem t).mpr hm)
    exact ⟨_, by rw [HeapOp.step, heq]; rfl, hins.wf, hins.cmp.trans hl.cmp,
      ⟨_, hS.insert hins hnew⟩, place_reverseOrdered hl.cmp hl.order hroom hrise⟩

/-- A removal that keeps the order of the heap keeps the latest first, and leaves the timer it
takes out inactive. -/
theorem Latest.remove (hl : h.Latest) (hs : h.size < 2 ^ 31) {index : ℕ}
    (hsafe : h.ReverseSafe (.remove index)) :
    ∃ h', HeapOp.step h (.remove index) = some h' ∧ h'.Latest ∧ h'.size ≤ h.size
      ∧ (index < h.size → (h'.hi (h.map index)).active = false) := by
  obtain ⟨S, hS⟩ := hl.stores
  rcases heapRemove_cases hl.wf hs index with ⟨hge, heq⟩ | ⟨hi, h₁, hsift, heq⟩
  · exact ⟨h, by rw [HeapOp.step, heq]; rfl, hl, le_rfl, fun hi => absurd hi (by omega)⟩
  · have hrem := removed_of_sifts hl.wf hi hsift
    refine ⟨_, by rw [HeapOp.step, heq]; rfl, ⟨hrem.wf, hrem.cmp.trans hl.cmp,
      ⟨_, hS.remove hrem⟩, (heapRemove_reverseOrdered_iff hl.cmp hl.order hi hsift).mpr hsafe⟩,
      hrem.size ▸ Nat.le_succ _, fun _ => ?_⟩
    rw [hrem.hi_self]

omit [DecidableEq ι] in
/-- The front of such a queue is due no earlier than any timer in it. -/
theorem Latest.front_latest (hl : h.Latest) {p : ι} (hp : p ∈ h.entries) :
    (h.obj h.heapFront).timeout.lt (h.obj p).timeout = false := by
  have hmax := hl.order.front_max hl.cmp hp
  rwa [less_byObj hl.cmp, timerLt] at hmax

end Heap

namespace TimerQueue

variable {ι θ : Type} [DecidableEq ι] [DecidableEq θ] {tq : TimerQueue ι θ}

/-! ## The parts of the calls as calls on the heap -/

theorem insertSection_of_step {t : ι} {alloc : Option (ℕ → ι)} {h' : Heap ι Timer}
    (hstep : HeapOp.step tq.queue (.insert t alloc) = some h') (self : θ) (wasFirst : Bool) :
    ∃ ret raise, tq.insertSection self t wasFirst alloc
      = some (ret, raise, { tq with queue := h' }) := by
  obtain ⟨⟨ret, queue⟩, hrun, rfl⟩ := Option.map_eq_some_iff.mp hstep
  unfold insertSection
  rw [hrun]
  simp only [Option.bind_eq_bind, Option.bind_some]
  split
  · exact ⟨_, _, rfl⟩
  · exact ⟨_, _, rfl⟩

theorem delSection_of_step {t : ι} {h' : Heap ι Timer}
    (hstep : HeapOp.step tq.queue (.remove (tq.queue.hi t).index) = some h') (self : θ) :
    ∃ raise, tq.delSection self t = some (raise, { tq with queue := h' }) := by
  obtain ⟨⟨item, queue⟩, hrun, rfl⟩ := Option.map_eq_some_iff.mp hstep
  unfold delSection
  dsimp only
  rw [hrun]
  exact ⟨_, rfl⟩

omit [DecidableEq θ] in
theorem timerHandleTimeout_of_step {h' : Heap ι Timer}
    (hstep : HeapOp.step tq.queue (.remove 0) = some h') :
    ∃ ret called, tq.timerHandleTimeout = some (ret, called, { tq with queue := h' }) := by
  unfold timerHandleTimeout
  by_cases hempty : tq.queue.heapEmpty = true
  · have hsize : tq.queue.size ≤ 0 := (eq_of_beq hempty).le
    rw [HeapOp.step, Heap.heapRemove, if_pos hsize] at hstep
    obtain rfl := Option.some.inj hstep
    rw [if_pos hempty]
    exact ⟨_, _, rfl⟩
  · obtain ⟨⟨item, queue⟩, hrun, rfl⟩ := Option.map_eq_some_iff.mp hstep
    rw [if_neg hempty, Heap.heapRemoveFirst, hrun]
    exact ⟨_, _, rfl⟩

/-! ## The calls -/

/-- **The calls that leave the latest timer first**, on the queue they are made on: those that
take no timer out, and those that take one out where the removal keeps the order of the heap –
and, where the timer is rescheduled, takes out that timer. -/
def LatestSafe (tq : TimerQueue ι θ) : QueueCall ι → Prop
  | .set _ _ | .add _ _ => True
  | .mod t _ _ => tq.timerScheduled t = true →
    tq.queue.Located t ∧ tq.queue.ReverseSafe (.remove (tq.queue.hi t).index)
  | .del t => tq.queue.ReverseSafe (.remove (tq.queue.hi t).index)
  | .handleTimeout => tq.queue.ReverseSafe (.remove 0)

instance (tq : TimerQueue ι θ) : ∀ call, Decidable (tq.LatestSafe call)
  | .set _ _ | .add _ _ => inferInstanceAs (Decidable True)
  | .mod _ _ _ => inferInstanceAs (Decidable (_ → _ ∧ tq.queue.ReverseSafe _))
  | .del t => inferInstanceAs (Decidable (tq.queue.ReverseSafe (.remove (tq.queue.hi t).index)))
  | .handleTimeout => inferInstanceAs (Decidable (tq.queue.ReverseSafe (.remove 0)))

omit [DecidableEq θ] in
/-- A new delay is no new deadline. -/
theorem latest_setExpires (hl : tq.queue.Latest) (t : ι) (expires : ℕ) :
    (tq.setExpires t expires).queue.Latest := by
  refine hl.of_timeout fun p _ => ?_
  by_cases hp : p = t
  · subst hp
    rw [Function.update_self]
  · rw [Function.update_of_ne hp]

/-- The second half of `timer_mod`, for a timer that is out of the queue: its new deadline, and
its insertion. -/
theorem latest_schedule (hl : tq.queue.Latest) (hs : tq.queue.size < 2 ^ 31) {t : ι}
    (ht : tq.timerScheduled t = false) (self : θ) (now : Timespec) (wasFirst : Bool)
    (alloc : Option (ℕ → ι)) :
    ∃ ret raise tq', (tq.setTimeout t now).insertSection self t wasFirst alloc
      = some (ret, raise, tq') ∧ tq'.queue.Latest := by
  have hout := hl.notMem ht
  have hl' : (tq.setTimeout t now).queue.Latest :=
    hl.of_timeout fun p hp => by rw [Function.update_of_ne (fun heq : p = t => hout (heq ▸ hp))]
  obtain ⟨h', hstep, hlatest⟩ := hl'.insert (t := t) hs ht alloc
  obtain ⟨ret, raise, hrun⟩ := insertSection_of_step hstep self wasFirst
  exact ⟨ret, raise, _, hrun, hlatest⟩

/-- `timer_del`, at a position whose removal keeps the order. -/
theorem latest_timerDel (hl : tq.queue.Latest) (hs : tq.queue.size < 2 ^ 31) {t : ι}
    (hsafe : tq.queue.ReverseSafe (.remove (tq.queue.hi t).index)) (self : θ) :
    ∃ tq', tq.timerDel self t = some tq' ∧ tq'.queue.Latest ∧ tq'.queue.size ≤ tq.queue.size
      ∧ (tq.queue.Located t → tq'.timerScheduled t = false) := by
  obtain ⟨h', hstep, hlatest, hle, hgone⟩ := hl.remove hs hsafe
  obtain ⟨raise, hrun⟩ := delSection_of_step hstep self
  have hqueue : (signalIf { tq with queue := h' } raise).queue = h' := signalIf_queue _ _
  refine ⟨signalIf { tq with queue := h' } raise, ?_, ?_, ?_, fun hloc => ?_⟩
  · unfold timerDel
    rw [hrun]
    rfl
  · rw [hqueue]
    exact hlatest
  · rw [hqueue]
    exact hle
  · have hmap := hgone hloc.1
    rw [hloc.2] at hmap
    unfold timerScheduled
    rw [hqueue]
    exact hmap

/-- `timer_mod`, where it takes out the timer it is called for. -/
theorem latest_timerMod (hl : tq.queue.Latest) (hs : tq.queue.size < 2 ^ 31) {t : ι}
    (hsafe : tq.timerScheduled t = true →
      tq.queue.Located t ∧ tq.queue.ReverseSafe (.remove (tq.queue.hi t).index))
    (self : θ) (expires : ℕ) (now : Timespec) (alloc : Option (ℕ → ι)) :
    ∃ ret tq', tq.timerMod self t expires now alloc = some (ret, tq') ∧ tq'.queue.Latest := by
  have hrest : ∃ wasFirst tq₁, tq.unschedule self t expires = some (wasFirst, tq₁)
      ∧ tq₁.queue.Latest ∧ tq₁.queue.size < 2 ^ 31 ∧ tq₁.timerScheduled t = false := by
    unfold unschedule
    by_cases hsched : tq.timerScheduled t = true
    · obtain ⟨hloc, hrev⟩ := hsafe hsched
      obtain ⟨tq₁, hdel, hlatest, hle, hout⟩ := latest_timerDel hl hs hrev self
      rw [if_pos hsched, hdel]
      exact ⟨_, _, rfl, latest_setExpires hlatest t expires, hle.trans_lt hs, hout hloc⟩
    · rw [if_neg hsched]
      exact ⟨_, _, rfl, hl, hs, Bool.eq_false_iff.mpr hsched⟩
  obtain ⟨wasFirst, tq₁, hun, hl₁, hs₁, hout⟩ := hrest
  obtain ⟨ret, raise, tq', hrun, hlatest⟩ := latest_schedule hl₁ hs₁ hout self now wasFirst alloc
  refine ⟨ret, signalIf tq' raise, ?_, by rwa [signalIf_queue]⟩
  unfold timerMod
  rw [hun]
  simp only [Option.bind_eq_bind, Option.bind_some]
  rw [hrun]
  rfl

/-- **A call that is `LatestSafe` returns, and leaves the latest timer first.** -/
theorem latest_exec (hl : tq.queue.Latest) (hs : tq.queue.size < 2 ^ 31) (self : θ)
    (now : Timespec) {call : QueueCall ι} (hsafe : tq.LatestSafe call) :
    ∃ tq', call.exec self now tq = some tq' ∧ tq'.queue.Latest := by
  cases call with
  | set t expires => exact ⟨_, rfl, latest_setExpires hl t expires⟩
  | add t alloc =>
    by_cases hsched : tq.timerScheduled t = true
    · exact ⟨tq, by rw [QueueCall.exec, timerAdd, if_pos hsched]; rfl, hl⟩
    · obtain ⟨ret, tq', hrun, hlatest⟩ := latest_timerMod hl hs (fun h => absurd h hsched) self
        (ulong (tq.queue.obj t).expires) now alloc
      exact ⟨tq', by rw [QueueCall.exec, timerAdd, if_neg hsched, hrun]; rfl, hlatest⟩
  | mod t expires alloc =>
    obtain ⟨ret, tq', hrun, hlatest⟩ := latest_timerMod hl hs hsafe self expires now alloc
    exact ⟨tq', by rw [QueueCall.exec, hrun]; rfl, hlatest⟩
  | del t =>
    obtain ⟨tq', hrun, hlatest, -⟩ := latest_timerDel hl hs hsafe self
    exact ⟨tq', hrun, hlatest⟩
  | handleTimeout =>
    obtain ⟨h', hstep, hlatest, -⟩ := hl.remove hs hsafe
    obtain ⟨ret, called, hrun⟩ := timerHandleTimeout_of_step hstep
    exact ⟨_, by rw [QueueCall.exec, hrun]; rfl, hlatest⟩

/-! ## Whole runs -/

/-- **The latest first**: what `timer_next_timeout` finds at the front is due no earlier than any
timer that is scheduled, and neither is the timer that `timer_handle_timeout` calls back. -/
structure LatestFirst (tq : TimerQueue ι θ) : Prop where
  front : ∀ p, tq.front = some p → ∀ t, tq.timerScheduled t = true →
    p.2.lt (tq.deadline t) = false
  called : ∀ ret u tq', tq.timerHandleTimeout = some (ret, some u, tq') → ∀ t,
    tq.timerScheduled t = true → (tq.deadline u).lt (tq.deadline t) = false

omit [DecidableEq θ] in
theorem latestFirst_of_latest (hl : tq.queue.Latest) : tq.LatestFirst := by
  have hfront : ∀ t, tq.timerScheduled t = true →
      (tq.deadline tq.queue.heapFront).lt (tq.deadline t) = false := by
    intro t ht
    obtain ⟨S, hS⟩ := hl.stores
    exact hl.front_latest ((hS.mem t).mpr ((hS.active t).mp ht))
  constructor
  · intro p hp t ht
    unfold front at hp
    split at hp
    · exact absurd hp (Option.some_ne_none p).symm
    · obtain rfl := Option.some.inj hp
      exact hfront t ht
  · intro ret u tq' hrun t ht
    unfold timerHandleTimeout at hrun
    split at hrun
    · exact absurd (Prod.mk.inj (Prod.mk.inj (Option.some.inj hrun)).2).1.symm
        (Option.some_ne_none u)
    · next hempty =>
      have hpos : 0 < tq.queue.size := Nat.pos_of_ne_zero fun h => hempty (beq_iff_eq.mpr h)
      obtain ⟨⟨item, queue⟩, hrem, hrun⟩ := Option.bind_eq_some_iff.mp hrun
      rw [Heap.heapRemoveFirst, Heap.heapRemove_eq hl.wf hpos] at hrem
      obtain ⟨h', -, heq⟩ := Option.bind_eq_some_iff.mp hrem
      obtain ⟨rfl, rfl⟩ := Prod.mk.inj (Option.some.inj heq)
      obtain ⟨-, hcall⟩ := Prod.mk.inj (Option.some.inj hrun)
      obtain rfl := Option.some.inj (Prod.mk.inj hcall).1
      exact hfront t ht

/-- The call leaves the latest timer first, and the queue is far from wrapping. -/
def KeepsLatest (s : ℕ × TimerQueue ι θ) (e : θ × QueueCall ι) : Prop :=
  s.2.queue.size < 2 ^ 31 ∧ s.2.LatestSafe e.2

instance (s : ℕ × TimerQueue ι θ) (e : θ × QueueCall ι) : Decidable (KeepsLatest s e) :=
  inferInstanceAs (Decidable (_ < _ ∧ s.2.LatestSafe e.2))

/-- **The timer queue serves the latest deadline.** Calls by any threads, with any clocks and any
outcomes of `malloc`, on a queue from `timer_queue_init` and timers from `timer_init`: where every
call is `LatestSafe` – as every `timer_add` is, of whatever timer – and made on fewer than `2^31`
timers they all return, and in every state the timer that `timer_next_timeout` reports and
`timer_handle_timeout` calls back is due no earlier than any other that is scheduled. -/
theorem timer_queue_latest_first (clock : ThreadClock θ) (k : ℕ) (owner : θ) (obj : ι → Timer)
    (garbage : ℕ → ι) {tq : TimerQueue ι θ}
    (hinit : timerQueueInit owner (fun _ => timerInit) obj (some garbage) = some tq)
    (es : List (θ × QueueCall ι))
    (hes : Meets (QueueCall.step clock) KeepsLatest (k, tq) es) :
    (∃ s, run (QueueCall.step clock) (k, tq) es = some s)
      ∧ Along (QueueCall.step clock) (fun s => s.2.LatestFirst) (k, tq) es := by
  obtain ⟨queue, hqueue, rfl⟩ := Option.map_eq_some_iff.mp hinit
  obtain ⟨hw, hsize, hcmp, hhi, -⟩ := Heap.heapInit_wf (by decide) hqueue
  have hempty : queue.Latest := by
    refine ⟨hw, hcmp, ⟨∅, Heap.stores_empty hsize fun t => ?_⟩, fun j _ hj => ?_⟩
    · rw [hhi]
      rfl
    · omega
  obtain ⟨⟨s, hrun, -⟩, hal⟩ := Run.total_within
    (J := fun _ (s : ℕ × TimerQueue ι θ) => s.2.queue.Latest) (B := fun _ => True)
    (fun _ s hs => latestFirst_of_latest hs)
    (fun e _ s hs hsafe => by
      obtain ⟨tq', hexec, hlatest⟩ := latest_exec hs hsafe.1 e.1 (clock.time s.1 e.1) hsafe.2
      exact ⟨(s.1 + 1, tq'), by rw [QueueCall.step, hexec]; rfl, fun _ => hlatest⟩)
    hempty hes (Run.along_of_forall (fun _ => trivial) _ es)
  exact ⟨⟨s, hrun⟩, hal⟩

/-- One clock for all threads, a second at a time. -/
def stepClock (θ : Type) : ThreadClock θ where
  time k _ := ⟨k, 0⟩
  normal _ _ := by
    show 0 ≤ (0 : ℤ) ∧ (0 : ℤ) < nsecPerSec
    decide
  mono k _ := by
    simp only [Timespec.toNsec, nsecPerSec]
    push_cast
    omega

/-- Two timers with the same delay, added by two threads one second after the other, and a first
callback. -/
theorem timer_queue_latest_first_two :
    Along (QueueCall.step (stepClock Bool)) (fun s => s.2.LatestFirst) (0, natQueue false)
      [(false, .add 1 none), (true, .add 2 none), (false, .handleTimeout)] :=
  (timer_queue_latest_first (stepClock Bool) 0 false (fun _ => ⟨⟨0, 0⟩, 7⟩) (fun _ => 0) rfl
    [(false, .add 1 none), (true, .add 2 none), (false, .handleTimeout)] (by decide +kernel)).2

end TimerQueue
