import Ckit.HeapSpec
import Ckit.Time

/-!
# The timer queue of `timer.c`

A timer queue is a heap of timers ordered by deadline, a lock, a signal to wake
the thread that owns the queue, and that thread's name. Timers are objects of
the caller's; a `struct timer` is its `heapitem` – kept by the heap – and the
deadline and the delay it was computed from. What a timer's callback and
destructor do is the caller's.

The functions here are those of the source run without interruption. Each is
written with the parts it runs while it holds the lock, up to the point where it
may raise the signal, as functions of their own (`insertSection`,
`delSection`): the interleavings of several threads are made of the same parts.

The reading of the clock and the outcome of `malloc` are arguments.
-/

/-- `struct timer`, without its `heapitem`. -/
structure Timer where
  timeout : Timespec
  /-- In microseconds. -/
  expires : ℤ
deriving DecidableEq, Repr

/-- `struct timer_queue`, with timers of type `ι` and threads of type `θ`. Of
its signal, what has been written into the pipe and not read. -/
structure TimerQueue (ι θ : Type) where
  queue : Heap ι Timer
  pipe : List ℤ
  thr : θ

/-- What `timer_init` leaves in the `heapitem`. -/
def timerInit : HeapItem := ⟨0, false⟩

/-- `heap_cmp`: the earlier deadline is the smaller one. -/
def heapCmp (p q : HeapItem × Timer) : Bool := p.2.timeout.lt q.2.timeout

/-- `timer_queue_init`, by the thread `self`. -/
def timerQueueInit {ι θ : Type} (self : θ) (hi : ι → HeapItem) (obj : ι → Timer)
    (alloc : Option (ℕ → ι)) : Option (TimerQueue ι θ) :=
  (heapInit 0 heapCmp hi obj alloc).map fun queue => ⟨queue, [], self⟩

namespace TimerQueue

variable {ι θ : Type} [DecidableEq ι] [DecidableEq θ]

/-- `timer_scheduled`. -/
def timerScheduled (tq : TimerQueue ι θ) (t : ι) : Bool := (tq.queue.hi t).active

/-- `signal_is_raised` on the signal of the queue. -/
def signalIsRaised (tq : TimerQueue ι θ) : Bool := !tq.pipe.isEmpty

/-- The `write` of `signal_raise`. -/
def signalWrite (tq : TimerQueue ι θ) : TimerQueue ι θ := { tq with pipe := tq.pipe ++ [0] }

/-- `timer_queue_signal_raise`. -/
def timerQueueSignalRaise (tq : TimerQueue ι θ) : TimerQueue ι θ :=
  if tq.signalIsRaised then tq else tq.signalWrite

/-- The signal is raised where the section before has found it should be. -/
def signalIf (tq : TimerQueue ι θ) (raise : Bool) : TimerQueue ι θ :=
  if raise then tq.timerQueueSignalRaise else tq

/-- The assignment `t->expires = expires`, of an `unsigned long` to a `long`. -/
def setExpires (tq : TimerQueue ι θ) (t : ι) (expires : ℕ) : TimerQueue ι θ :=
  { tq with queue := { tq.queue with
      obj := Function.update tq.queue.obj t
        { tq.queue.obj t with expires := i64 expires } } }

/-- The new deadline of `timer_mod`, computed in place from the clock. -/
def setTimeout (tq : TimerQueue ι θ) (t : ι) (now : Timespec) : TimerQueue ι θ :=
  { tq with queue := { tq.queue with
      obj := Function.update tq.queue.obj t
        { tq.queue.obj t with
          timeout := now.addNsec (i64 ((tq.queue.obj t).expires * 1000)) } } }

/-- The locked part of `timer_mod` up to its signal: its return value, and
whether it goes on to raise the signal. -/
def insertSection (tq : TimerQueue ι θ) (self : θ) (t : ι) (wasFirst : Bool)
    (alloc : Option (ℕ → ι)) : Option (ℤ × Bool × TimerQueue ι θ) := do
  let (ret, queue) ← tq.queue.heapInsert t alloc
  let tq := { tq with queue := queue }
  if ret ≠ 0 then
    return (-1, false, tq)
  else
    return (1, tq.thr ≠ self && ((tq.queue.hi t).index == 0 || wasFirst), tq)

/-- `_timer_del` up to its signal, and whether it goes on to raise it. -/
def delSection (tq : TimerQueue ι θ) (self : θ) (t : ι) :
    Option (Bool × TimerQueue ι θ) := do
  let index := (tq.queue.hi t).index
  let (_, queue) ← tq.queue.heapRemove index
  return (index == 0 && tq.thr ≠ self, { tq with queue := queue })

/-- `timer_del`, with its `_timer_del`. -/
def timerDel (tq : TimerQueue ι θ) (self : θ) (t : ι) : Option (TimerQueue ι θ) := do
  let (raise, tq) ← tq.delSection self t
  return tq.signalIf raise

/-- The first part of `timer_mod`: a timer that is scheduled is taken out and
gets its new delay. With it, whether the timer was the first. -/
def unschedule (tq : TimerQueue ι θ) (self : θ) (t : ι) (expires : ℕ) :
    Option (Bool × TimerQueue ι θ) :=
  if tq.timerScheduled t then do
    let wasFirst := (tq.queue.hi t).index == 0
    let tq ← tq.timerDel self t
    return (wasFirst, tq.setExpires t expires)
  else
    return (false, tq)

/-- `timer_mod`, with its return value. -/
def timerMod (tq : TimerQueue ι θ) (self : θ) (t : ι) (expires : ℕ) (now : Timespec)
    (alloc : Option (ℕ → ι)) : Option (ℤ × TimerQueue ι θ) := do
  let (wasFirst, tq) ← tq.unschedule self t expires
  let tq := tq.setTimeout t now
  let (ret, raise, tq) ← tq.insertSection self t wasFirst alloc
  return (ret, tq.signalIf raise)

/-- `timer_add`, with its return value. -/
def timerAdd (tq : TimerQueue ι θ) (self : θ) (t : ι) (now : Timespec)
    (alloc : Option (ℕ → ι)) : Option (ℤ × TimerQueue ι θ) :=
  if tq.timerScheduled t then
    return (-1, tq)
  else
    tq.timerMod self t (ulong (tq.queue.obj t).expires) now alloc

/-- `timer_handle_timeout`, with its return value and the timer whose callback it
calls. -/
def timerHandleTimeout (tq : TimerQueue ι θ) : Option (ℤ × Option ι × TimerQueue ι θ) :=
  if tq.queue.heapEmpty then
    return (-1, none, tq)
  else do
    let (t, queue) ← tq.queue.heapRemoveFirst
    return (0, t, { tq with queue := queue })

/-- What `timer_next_timeout` computes its result from: the timer at the front and
its deadline, or nothing where the queue is empty. -/
def front (tq : TimerQueue ι θ) : Option (ι × Timespec) :=
  if tq.queue.heapEmpty then none
  else some (tq.queue.heapFront, (tq.queue.obj tq.queue.heapFront).timeout)

/-- The result of `timer_next_timeout` – its return value, and what it stores in
`*timeout` – from what it found at the front. -/
def nextTimeout (now : Timespec) : Option (ι × Timespec) → ℤ × Option ℕ
  | none => (0, none)
  | some (_, timeout) =>
    let later := timeout.sub now
    (1, some (ulong (later.tvSec * 1000000 + later.tvNsec.tdiv 1000)))

/-- `timer_next_timeout_timespec`: its return value, and what it stores in `*timeout`. -/
def timerNextTimeoutTimespec (tq : TimerQueue ι θ) (now : Timespec) : ℤ × Option Timespec :=
  match tq.front with
  | none => (0, none)
  | some (_, timeout) =>
    let timeout := timeout.sub now
    (1, some (if timeout.tvSec < 0 then ⟨0, 0⟩ else timeout))

end TimerQueue
