import Ckit.Run
import Ckit.TimerSpec

/-!
# The timer queue as a set of timers

What the queue is for can be said without a heap: it is a set of timers.
`timer_add` and `timer_mod` put a timer in, `timer_del` takes it out, and
`timer_handle_timeout` takes out some timer and calls its callback.
`TimerOp.setStep` is that machine; it also knows which answers a call may give.

A run below goes through the code and the set side by side. The set follows the
answers of the code, and is lost (`none`) at the first answer it does not
allow. The code refines the set as long as the heap stores exactly the set
(`Refines`). That it does is decided by the deletions alone: `_timer_del` goes
by the position written in the timer, without asking whether the timer is there
– or in the queue at all (`DelSafe`).
-/

/-- A call on the timer queue, with its reading of the clock and the contents of
the slots its `malloc` would return. `set` is the caller's `timer_set_usecs`. -/
inductive TimerOp (ι : Type) where
  | set (t : ι) (expires : ℕ)
  | add (t : ι) (now : Timespec) (garbage : ℕ → ι)
  | mod (t : ι) (expires : ℕ) (now : Timespec) (garbage : ℕ → ι)
  | del (t : ι)
  | handleTimeout

/-- What a call answers: its return value, and the timer whose callback it
calls. -/
structure TimerAnswer (ι : Type) where
  ret : Option ℤ
  called : Option ι
deriving DecidableEq, Repr

namespace TimerOp

variable {ι θ : Type} [DecidableEq ι] [DecidableEq θ]

/-- The call, made by the thread `self`. -/
def call (self : θ) (tq : TimerQueue ι θ) :
    TimerOp ι → Option (TimerAnswer ι × TimerQueue ι θ)
  | .set t expires => some (⟨none, none⟩, tq.setExpires t expires)
  | .add t now garbage =>
    (tq.timerAdd self t now (some garbage)).map fun r => (⟨some r.1, none⟩, r.2)
  | .mod t expires now garbage =>
    (tq.timerMod self t expires now (some garbage)).map fun r => (⟨some r.1, none⟩, r.2)
  | .del t => (tq.timerDel self t).map fun tq => (⟨none, none⟩, tq)
  | .handleTimeout => tq.timerHandleTimeout.map fun r => (⟨some r.1, r.2.1⟩, r.2.2)

/-- **The queue as a set.** The set after a call that answers `a`, where the
answer is one the call may give. -/
def setStep (S : Finset ι) (a : TimerAnswer ι) : TimerOp ι → Option (Finset ι)
  | .set _ _ => if a = ⟨none, none⟩ then some S else none
  | .add t _ _ =>
    if t ∈ S then
      if a = ⟨some (-1), none⟩ then some S else none
    else
      if a = ⟨some 1, none⟩ then some (insert t S) else none
  | .mod t _ _ _ => if a = ⟨some 1, none⟩ then some (insert t S) else none
  | .del t => if a = ⟨none, none⟩ then some (S.erase t) else none
  | .handleTimeout =>
    match a.called with
    | none => if S = ∅ ∧ a.ret = some (-1) then some S else none
    | some t => if t ∈ S ∧ a.ret = some 0 then some (S.erase t) else none

/-- A call on the queue, with the set following its answer. -/
def step (self : θ) (s : TimerQueue ι θ × Option (Finset ι)) (op : TimerOp ι) :
    Option (TimerQueue ι θ × Option (Finset ι)) :=
  (op.call self s.1).map fun r => (r.2, s.2.bind fun S => op.setStep S r.1)

end TimerOp

namespace TimerQueue

variable {ι θ : Type}

/-- **The code refines the set**: its heap stores exactly the timers of the set,
which has allowed every answer so far. -/
def Refines (s : TimerQueue ι θ × Option (Finset ι)) : Prop :=
  ∃ S, s.2 = some S ∧ s.1.queue.Stores S

/-- **The deletions go where they should.** -/
def DelSafe (s : TimerQueue ι θ × Option (Finset ι)) : TimerOp ι → Prop
  | .mod t _ _ _ => s.1.timerScheduled t = true → s.1.queue.Located t
  | .del t => s.1.DelFinds t
  | _ => True

instance [DecidableEq ι] (s : TimerQueue ι θ × Option (Finset ι)) :
    ∀ op, Decidable (DelSafe s op)
  | .mod _ _ _ _ => inferInstanceAs (Decidable (_ → _))
  | .del t => inferInstanceAs (Decidable (s.1.DelFinds t))
  | .set _ _ | .add _ _ _ | .handleTimeout => .isTrue trivial

/-- The queue holds fewer timers than positions can wrap at. -/
def Fits (s : TimerQueue ι θ × Option (Finset ι)) (_ : TimerOp ι) : Prop :=
  s.1.queue.size < 2 ^ 31

instance (s : TimerQueue ι θ × Option (Finset ι)) (op : TimerOp ι) : Decidable (Fits s op) :=
  inferInstanceAs (Decidable (_ < _))

theorem refines_some {tq : TimerQueue ι θ} {S : Finset ι} :
    Refines (tq, some S) ↔ tq.queue.Stores S := by
  constructor
  · rintro ⟨S', heq, hs⟩
    exact Option.some.inj heq ▸ hs
  · exact fun hs => ⟨S, rfl, hs⟩

variable [DecidableEq ι] [DecidableEq θ] {tq tq' : TimerQueue ι θ} {S : Finset ι}

/-! ## The single calls -/

/-- **What `timer_del` does.** -/
theorem timerDel_eq (hw : tq.queue.WF) (hs : tq.queue.size < 2 ^ 31) (self : θ) (t : ι) :
    ∃ tq', tq.timerDel self t = some tq' ∧ DelOutcome tq.queue t tq'.queue := by
  obtain ⟨queue, hdel, hrun⟩ := delSection_cases hw hs self t
  unfold timerDel
  rw [hrun]
  exact ⟨_, rfl, by rwa [signalIf_queue]⟩

/-- What `timer_mod` does once it has taken the timer out, where memory is
found. -/
theorem insertSection_setTimeout (hw : tq.queue.WF) (hs : tq.queue.size < 2 ^ 31) (self : θ)
    (t : ι) (now : Timespec) (wasFirst : Bool) (garbage : ℕ → ι) :
    ∃ raise obj queue, Heap.Inserted { tq.queue with obj := obj } t queue
      ∧ (tq.setTimeout t now).insertSection self t wasFirst (some garbage)
        = some (1, raise, { tq with queue := queue }) := by
  have hw' : (tq.setTimeout t now).queue.WF := Heap.wf_obj hw
  rcases insertSection_cases hw' (Heap.grows_of_lt hs (some garbage)) self t wasFirst
    with ⟨-, hnone, -⟩ | ⟨queue, hin, hrun⟩
  · exact nomatch hnone
  · exact ⟨_, _, queue, hin, hrun⟩

/-- **What `timer_mod` does**: a deletion where the timer is scheduled, and an
insertion. Between the two, only what is not in the `heapitem`s changes. -/
theorem timerMod_eq (hw : tq.queue.WF) (hs : tq.queue.size < 2 ^ 31) (self : θ) (t : ι)
    (expires : ℕ) (now : Timespec) (garbage : ℕ → ι) :
    ∃ (h : Heap ι Timer) (obj : ι → Timer) (tq' : TimerQueue ι θ),
      tq.timerMod self t expires now (some garbage) = some (1, tq')
        ∧ Heap.Inserted { h with obj := obj } t tq'.queue
        ∧ if tq.timerScheduled t then DelOutcome tq.queue t h else h = tq.queue := by
  unfold timerMod unschedule
  by_cases hsched : tq.timerScheduled t = true
  · obtain ⟨tq₁, hdel, hout⟩ := timerDel_eq hw hs self t
    have hle := hout.size_le
    have hw₁ : (tq₁.setExpires t expires).queue.WF := Heap.wf_obj (hout.wf hw)
    obtain ⟨raise, obj, queue, hin, hrun⟩ := insertSection_setTimeout hw₁
      (show tq₁.queue.size < 2 ^ 31 by omega) self t now ((tq.queue.hi t).index == 0) garbage
    refine ⟨tq₁.queue, obj, signalIf { tq₁ with queue := queue } raise, ?_, ?_,
      by rwa [if_pos hsched]⟩
    · rw [if_pos hsched, hdel]
      simp only [Option.bind_eq_bind, Option.bind_some, Option.pure_def]
      rw [hrun]
      rfl
    · rw [signalIf_queue]
      exact hin
  · obtain ⟨raise, obj, queue, hin, hrun⟩ := insertSection_setTimeout hw hs self t now false
      garbage
    refine ⟨tq.queue, obj, signalIf { tq with queue := queue } raise, ?_, ?_,
      by rw [if_neg hsched]⟩
    · rw [if_neg hsched]
      simp only [Option.bind_eq_bind, Option.bind_some, Option.pure_def]
      rw [hrun]
      rfl
    · rw [signalIf_queue]
      exact hin

/-- `timer_add` is `timer_mod` where the timer is not scheduled. -/
theorem timerAdd_eq (hw : tq.queue.WF) (hs : tq.queue.size < 2 ^ 31) (self : θ) (t : ι)
    (now : Timespec) (garbage : ℕ → ι) :
    tq.timerScheduled t = true ∧ tq.timerAdd self t now (some garbage) = some (-1, tq)
      ∨ tq.timerScheduled t = false ∧ ∃ (obj : ι → Timer) (tq' : TimerQueue ι θ),
        tq.timerAdd self t now (some garbage) = some (1, tq')
          ∧ Heap.Inserted { tq.queue with obj := obj } t tq'.queue := by
  unfold timerAdd
  cases hsched : tq.timerScheduled t with
  | true => exact Or.inl ⟨rfl, if_pos rfl⟩
  | false =>
    obtain ⟨h, obj, tq', hrun, hin, hdel⟩ := timerMod_eq hw hs self t
      (ulong (tq.queue.obj t).expires) now garbage
    rw [hsched, if_neg Bool.false_ne_true] at hdel
    subst hdel
    exact Or.inr ⟨rfl, obj, tq', by rw [if_neg Bool.false_ne_true, hrun], hin⟩

/-- Adding a timer that is not in the queue puts it there. -/
theorem timerAdd_stores (hw : tq.queue.WF) (hs : tq.queue.size < 2 ^ 31)
    (hst : tq.queue.Stores S) {t : ι} (ht : t ∉ S) (self : θ) (now : Timespec)
    (garbage : ℕ → ι) :
    ∃ tq', tq.timerAdd self t now (some garbage) = some (1, tq') ∧ tq'.queue.WF
      ∧ tq'.queue.Stores (insert t S) := by
  rcases timerAdd_eq hw hs self t now garbage with ⟨hsched, -⟩ | ⟨-, obj, tq', hrun, hin⟩
  · exact absurd ((scheduled_iff hst t).mp hsched) ht
  · exact ⟨tq', hrun, hin.wf, (Heap.stores_obj.mpr hst).insert hin ht⟩

/-- **Everything a call can do to the queue.** -/
inductive CallOutcome (tq : TimerQueue ι θ) :
    TimerOp ι → TimerAnswer ι → TimerQueue ι θ → Prop
  | set {t : ι} {expires : ℕ} :
      CallOutcome tq (.set t expires) ⟨none, none⟩ (tq.setExpires t expires)
  | addScheduled {t : ι} {now : Timespec} {garbage : ℕ → ι} :
      tq.timerScheduled t = true → CallOutcome tq (.add t now garbage) ⟨some (-1), none⟩ tq
  | add {t : ι} {now : Timespec} {garbage : ℕ → ι} {obj : ι → Timer} {tq' : TimerQueue ι θ} :
      tq.timerScheduled t = false → Heap.Inserted { tq.queue with obj := obj } t tq'.queue →
      CallOutcome tq (.add t now garbage) ⟨some 1, none⟩ tq'
  | mod {t : ι} {expires : ℕ} {now : Timespec} {garbage : ℕ → ι} {h : Heap ι Timer}
      {obj : ι → Timer} {tq' : TimerQueue ι θ} :
      (if tq.timerScheduled t then DelOutcome tq.queue t h else h = tq.queue) →
      Heap.Inserted { h with obj := obj } t tq'.queue →
      CallOutcome tq (.mod t expires now garbage) ⟨some 1, none⟩ tq'
  | del {t : ι} {tq' : TimerQueue ι θ} :
      DelOutcome tq.queue t tq'.queue → CallOutcome tq (.del t) ⟨none, none⟩ tq'
  | handleEmpty : tq.queue.size = 0 → CallOutcome tq .handleTimeout ⟨some (-1), none⟩ tq
  | handle {queue : Heap ι Timer} : 0 < tq.queue.size → Heap.Removed tq.queue 0 queue →
      CallOutcome tq .handleTimeout ⟨some 0, some (tq.queue.map 0)⟩ { tq with queue := queue }

/-- A call on a well-formed queue that fits returns. -/
theorem call_outcome (hw : tq.queue.WF) (hs : tq.queue.size < 2 ^ 31) (self : θ)
    (op : TimerOp ι) : ∃ a tq', op.call self tq = some (a, tq') ∧ CallOutcome tq op a tq' := by
  cases op with
  | set t expires => exact ⟨_, _, rfl, .set⟩
  | add t now garbage =>
    rcases timerAdd_eq hw hs self t now garbage with ⟨hsched, hrun⟩ | ⟨hsched, obj, tq', hrun, hin⟩
    · exact ⟨_, _, by rw [TimerOp.call, hrun]; rfl, .addScheduled hsched⟩
    · exact ⟨_, _, by rw [TimerOp.call, hrun]; rfl, .add hsched hin⟩
  | mod t expires now garbage =>
    obtain ⟨h, obj, tq', hrun, hin, hdel⟩ := timerMod_eq hw hs self t expires now garbage
    exact ⟨_, _, by rw [TimerOp.call, hrun]; rfl, .mod hdel hin⟩
  | del t =>
    obtain ⟨tq', hrun, hdel⟩ := timerDel_eq hw hs self t
    exact ⟨_, _, by rw [TimerOp.call, hrun]; rfl, .del hdel⟩
  | handleTimeout =>
    rcases timerHandleTimeout_cases hw hs with ⟨hsize, hrun⟩ | ⟨hpos, queue, hrem, hrun⟩
    · exact ⟨_, _, by rw [TimerOp.call, hrun]; rfl, .handleEmpty hsize⟩
    · exact ⟨_, _, by rw [TimerOp.call, hrun]; rfl, .handle hpos hrem⟩

omit [DecidableEq θ] in
theorem CallOutcome.wf {op : TimerOp ι} {a : TimerAnswer ι} (hc : CallOutcome tq op a tq')
    (hw : tq.queue.WF) : tq'.queue.WF := by
  cases hc with
  | set => exact Heap.wf_obj hw
  | addScheduled | handleEmpty => exact hw
  | add _ hin | mod _ hin => exact hin.wf
  | del hdel => exact hdel.wf hw
  | handle _ hrem => exact hrem.wf

/-! ## The set beside the code -/

omit [DecidableEq θ] in
/-- **When a rescheduling is that of the set.** -/
theorem timerMod_stores_iff (hs : tq.queue.Stores S) {t : ι} {h h' : Heap ι Timer}
    {obj : ι → Timer} (hin : Heap.Inserted { h with obj := obj } t h')
    (hdel : if tq.timerScheduled t then DelOutcome tq.queue t h else h = tq.queue) :
    h'.Stores (insert t S) ↔ (tq.timerScheduled t = true → tq.queue.Located t) := by
  by_cases ht : t ∈ S
  · have hsched := (scheduled_iff hs t).mpr ht
    rw [if_pos hsched] at hdel
    rw [forall_prop_of_true hsched]
    constructor
    · intro hs'
      by_contra hloc
      have hmem := (hdel.mem_iff hs.nodup ((hs.mem t).mpr ht)).mpr hloc
      exact hin.not_nodup hmem hs'.nodup
    · intro hloc
      have hs' := (Heap.stores_obj.mpr (hdel.stores hs hloc)).insert hin (Finset.notMem_erase t S)
      rwa [Finset.insert_erase ht, ← Finset.insert_eq_of_mem ht] at hs'
  · have hsched : ¬ tq.timerScheduled t = true := fun h => ht ((scheduled_iff hs t).mp h)
    rw [if_neg hsched] at hdel
    subst hdel
    exact iff_of_true ((Heap.stores_obj.mpr hs).insert hin ht) fun h => absurd h hsched

omit [DecidableEq θ] in
/-- **A call is that of the set exactly where its deletion is safe.** -/
theorem CallOutcome.refines_iff {op : TimerOp ι} {a : TimerAnswer ι}
    (hc : CallOutcome tq op a tq') (hs : tq.queue.Stores S) :
    Refines (tq', op.setStep S a) ↔ DelSafe (tq, some S) op := by
  cases hc with
  | set => exact iff_of_true (refines_some.mpr (Heap.stores_obj.mpr hs)) trivial
  | @addScheduled t _ _ hsched =>
    have ht : t ∈ S := (scheduled_iff hs t).mp hsched
    rw [TimerOp.setStep, if_pos ht]
    exact iff_of_true (refines_some.mpr hs) trivial
  | @add t _ _ _ _ hsched hin =>
    have ht : t ∉ S := fun h => by simp [(scheduled_iff hs t).mpr h] at hsched
    rw [TimerOp.setStep, if_neg ht]
    exact iff_of_true (refines_some.mpr ((Heap.stores_obj.mpr hs).insert hin ht)) trivial
  | mod hdel hin => exact refines_some.trans (timerMod_stores_iff hs hin hdel)
  | del hdel => exact refines_some.trans (timerDel_stores_iff hs hdel)
  | handleEmpty hsize =>
    rw [TimerOp.setStep, if_pos ⟨hs.eq_empty hsize, rfl⟩]
    exact iff_of_true (refines_some.mpr hs) trivial
  | handle hpos hrem =>
    have hin : tq.queue.map 0 ∈ S := (hs.mem _).mp (Heap.mem_entries.mpr ⟨0, hpos, rfl⟩)
    have hset : TimerOp.setStep S ⟨some 0, some (tq.queue.map 0)⟩ .handleTimeout
        = some (S.erase (tq.queue.map 0)) := if_pos ⟨hin, rfl⟩
    rw [hset]
    exact iff_of_true (refines_some.mpr (hs.remove hrem)) trivial

/-! ## Whole runs -/

section Runs

variable {s s' : TimerQueue ι θ × Option (Finset ι)} {op : TimerOp ι}

/-- What a step does, in a queue that is well formed and fits. -/
theorem step_outcome (self : θ) (hw : s.1.queue.WF) (hfit : Fits s op) :
    ∃ a tq', CallOutcome s.1 op a tq'
      ∧ TimerOp.step self s op = some (tq', s.2.bind fun S => op.setStep S a) := by
  obtain ⟨a, tq', hcall, hout⟩ := call_outcome hw hfit self op
  exact ⟨a, tq', hout, by rw [TimerOp.step, hcall]; rfl⟩

theorem refines_step_iff {self : θ} (hw : s.1.queue.WF) (hr : Refines s) (hfit : Fits s op)
    (hstep : TimerOp.step self s op = some s') : Refines s' ↔ DelSafe s op := by
  obtain ⟨tq, spec⟩ := s
  obtain ⟨S, rfl : spec = some S, hs⟩ := hr
  obtain ⟨a, tq', hout, heq⟩ := step_outcome self hw hfit
  obtain rfl := Option.some.inj (heq.symm.trans hstep)
  exact hout.refines_iff hs

/-- **The timer queue over whole runs.** Calls, one after the other, on a queue
from `timer_queue_init` and timers from `timer_init`: as long as the queue holds
fewer than `2^31` timers they all return, and after each of them the queue is the
set of timers, exactly where every deletion goes where it should. -/
theorem timer_queue_set_run (self owner : θ) (obj : ι → Timer) (garbage : ℕ → ι)
    {tq : TimerQueue ι θ}
    (hinit : timerQueueInit owner (fun _ => timerInit) obj (some garbage) = some tq)
    (ops : List (TimerOp ι)) (hfits : Meets (TimerOp.step self) Fits (tq, some ∅) ops) :
    ∃ s, run (TimerOp.step self) (tq, some ∅) ops = some s
      ∧ (Along (TimerOp.step self) Refines (tq, some ∅) ops
        ↔ Meets (TimerOp.step self) DelSafe (tq, some ∅) ops) := by
  obtain ⟨hw, hsize, hhi⟩ := timerQueueInit_wf hinit
  have hr : Refines (tq, some (∅ : Finset ι)) :=
    refines_some.mpr (Heap.stores_empty hsize fun t => by rw [hhi]; rfl)
  have htotal : ∀ (s : TimerQueue ι θ × Option (Finset ι)) op, s.1.queue.WF → Fits s op →
      ∃ s', TimerOp.step self s op = some s' ∧ s'.1.queue.WF := by
    intro s op hw hfit
    obtain ⟨a, tq', hout, heq⟩ := step_outcome self hw hfit
    exact ⟨_, heq, hout.wf hw⟩
  have hwf : ∀ (s : TimerQueue ι θ × Option (Finset ι)) op s', s.1.queue.WF → Fits s op →
      TimerOp.step self s op = some s' → s'.1.queue.WF := by
    intro s op s' hw hfit hstep
    obtain ⟨t, ht, hw'⟩ := htotal s op hw hfit
    exact Option.some.inj (ht.symm.trans hstep) ▸ hw'
  obtain ⟨s, hrun, -⟩ := Run.total htotal hw hfits
  exact ⟨s, hrun, Run.along_iff_meets_of hwf
    (fun s op s' hw hr hfit hstep => refines_step_iff hw hr hfit hstep) hw hr hfits hrun⟩

end Runs

/-- Three timers are added, and the one between the others in the array is deleted. The others
time out, one timer is scheduled once more and deleted, one is deleted that is not in the queue,
and one is added again. -/
def deleteBetween : List (TimerOp ℕ) :=
  [.add 5 ⟨1, 0⟩ fun _ => 0, .add 6 ⟨3, 0⟩ fun _ => 0, .add 7 ⟨2, 0⟩ fun _ => 0, .del 5,
    .handleTimeout, .handleTimeout, .mod 5 9 ⟨4, 0⟩ fun _ => 0, .del 5, .del 7,
    .add 6 ⟨5, 0⟩ fun _ => 0]

theorem timer_queue_set_run_three :
    ∃ s, run (TimerOp.step ()) (natQueue (), some ∅) deleteBetween = some s ∧ s.2 = some {6}
      ∧ Along (TimerOp.step ()) Refines (natQueue (), some ∅) deleteBetween := by
  obtain ⟨s, hrun, hiff⟩ := timer_queue_set_run () () (fun _ => ⟨⟨0, 0⟩, 7⟩) (fun _ => 0)
    (show timerQueueInit _ _ _ _ = some (natQueue ()) from rfl) deleteBetween (by decide +kernel)
  have hset : (run (TimerOp.step ()) (natQueue (), some ∅) deleteBetween).map Prod.snd
      = some (some {6}) := by decide +kernel
  rw [hrun] at hset
  exact ⟨s, hrun, Option.some.inj hset, hiff.mpr (by decide +kernel)⟩

/-- **Deleting a timer that was never scheduled drops another one**: its position
is the `0` of `timer_init`, where the only timer of the queue is. -/
theorem timer_queue_set_broken :
    timerQueueInit () (fun _ => timerInit) (fun _ => ⟨⟨0, 0⟩, 7⟩) (some fun _ => 0)
        = some (natQueue ())
      ∧ ∃ s, run (TimerOp.step ()) (natQueue (), some ∅)
          [.add 1 ⟨1, 0⟩ fun _ => 0, .del 2] = some s
        ∧ s.2 = some {1} ∧ s.1.queue.size = 0 ∧ ¬ Refines s := by
  refine ⟨rfl, _, rfl, by decide, rfl, fun hr => ?_⟩
  obtain ⟨S, hS, hs⟩ := hr
  have hone : some S = some {1} := hS.symm.trans (by decide)
  exact absurd (hs.eq_empty rfl) (Option.some.inj hone ▸ Finset.singleton_ne_empty 1)

end TimerQueue
