import Ckit.HeapOrder
import Ckit.TimerWake

/-!
# Callbacks and deadlines

The owner of a timer queue runs a loop: `timer_next_timeout` tells it how long the timer
at the front has to go, it waits that long, and it calls `timer_handle_timeout`. Other
threads add, reschedule and delete timers all the while, and everybody reads one clock.

`timer_handle_timeout` does not look at the clock. It takes out whatever timer is at the
front, and that is a timer that is due only as long as nobody has brought another one
there since the owner asked. There are three ways to do so, and the step of another
thread is `Steady` where it does none of them while the owner waits: to insert a timer
that rises to the front and is due later, to take away the front where nothing that may
come to its place is due in time, and to write a later deadline into the timer at the
front. And the answer itself is in whole microseconds, so the wait is long enough only for
a deadline that is a whole number of them away (`Whole`).
-/

/-! ## The loop -/

/-- A timer queue with its threads, the clock, and where the owner is in its loop. -/
structure LoopSys (ι θ : Type) where
  sys : TimerSys ι θ
  clock : Timespec
  /-- The time the owner waits for, in nanoseconds. -/
  wake : Option ℤ
  /-- The timer `timer_handle_timeout` has taken out and is about to call back. -/
  calling : Option ι
  /-- The callbacks so far, the latest first: the timer, its deadline and the time. -/
  fired : List (ι × Timespec × Timespec)

/-- A step of the loop and of the threads around it. -/
inductive LoopEvent (ι θ : Type) where
  /-- Time passes. -/
  | time (now : Timespec)
  | callAdd (i : θ) (t : ι)
  | callMod (i : θ) (t : ι) (expires : ℕ)
  | callDel (i : θ) (t : ι)
  /-- The owner calls `timer_next_timeout`. -/
  | callNext
  /-- The owner, having waited, calls `timer_handle_timeout`. -/
  | callHandle
  | access (i : θ) (alloc : Option (ℕ → ι))
  /-- `timer_handle_timeout` calls back. -/
  | callback

namespace LoopSys

variable {ι θ : Type}

/-- The thread that runs the loop. -/
def owner (s : LoopSys ι θ) : θ := s.sys.tq.thr

/-- The time `timer_next_timeout` makes the owner wait for when it returns at `now`. -/
def wakeTime (now : Timespec) (result : ℤ × Option ℕ) : Option ℤ :=
  result.2.map fun timeout => now.toNsec + timeout * 1000

variable [DecidableEq ι] [DecidableEq θ]

/-- What the owner takes along from a step of its own. -/
def moved (s : LoopSys ι θ) (sys : TimerSys ι θ) : LoopSys ι θ :=
  match s.sys.pc s.owner with
  | .nextReturn found now =>
    { s with sys := sys, wake := wakeTime s.clock (TimerQueue.nextTimeout now found) }
  | .handle =>
    { s with
      sys := sys
      wake := none
      calling := s.sys.tq.timerHandleTimeout.bind fun r => r.2.1 }
  | _ => { s with sys := sys }

/-- One step. -/
def step (s : LoopSys ι θ) : LoopEvent ι θ → Option (LoopSys ι θ)
  | .time now =>
    if now.Normal ∧ s.clock.toNsec ≤ now.toNsec then some { s with clock := now } else none
  | .callAdd i t =>
    if i ≠ s.owner then (s.sys.step (.callAdd i t)).map fun sys => { s with sys := sys }
    else none
  | .callMod i t expires =>
    if i ≠ s.owner then (s.sys.step (.callMod i t expires)).map fun sys => { s with sys := sys }
    else none
  | .callDel i t =>
    if i ≠ s.owner then (s.sys.step (.callDel i t)).map fun sys => { s with sys := sys }
    else none
  | .callNext =>
    if s.calling = none then
      (s.sys.step (.callNext s.owner)).map fun sys => { s with sys := sys, wake := none }
    else none
  | .callHandle =>
    match s.wake with
    | some wake =>
      if wake ≤ s.clock.toNsec ∧ s.calling = none then
        (s.sys.step (.callHandle s.owner)).map fun sys => { s with sys := sys }
      else none
    | none => none
  | .access i alloc =>
    (s.sys.step (.access i s.clock alloc)).map fun sys =>
      if i = s.owner then s.moved sys else { s with sys := sys }
  | .callback =>
    match s.calling with
    | some t => some { s with
        calling := none
        fired := (t, (s.sys.tq.queue.obj t).timeout, s.clock) :: s.fired }
    | none => none

/-- **No callback has come before its deadline.** -/
def OnTime (s : LoopSys ι θ) : Prop := ∀ f ∈ s.fired, f.2.2.lt f.2.1 = false

/-- A new queue and its owner, at the time `clock`. -/
def start (tq : TimerQueue ι θ) (clock : Timespec) : LoopSys ι θ :=
  ⟨⟨tq, none, fun _ => .idle, []⟩, clock, none, none, []⟩

/-! ## What the other threads must not do -/

end LoopSys

/-- The time the owner waits for, from the moment it has looked at the front. -/
def TimerPc.awaits {ι : Type} (wake : Option ℤ) : TimerPc ι → Option ℤ
  | .nextDrain found now | .nextReturn found now =>
    LoopSys.wakeTime now (TimerQueue.nextTimeout now found)
  | _ => wake

/-- The time the owner waits for. -/
def LoopSys.awaits {ι θ : Type} (s : LoopSys ι θ) : Option ℤ :=
  (s.sys.pc s.owner).awaits s.wake

/-- The deadline is past, or a whole number of microseconds away that the `unsigned long` of
`timer_next_timeout` holds. -/
def Timespec.Whole (now timeout : Timespec) : Prop :=
  timeout.toNsec ≤ now.toNsec
    ∨ (timeout.toNsec - now.toNsec) % 1000 = 0 ∧ timeout.toNsec - now.toNsec < 2 ^ 64 * 1000

instance (now timeout : Timespec) : Decidable (now.Whole timeout) :=
  inferInstanceAs (Decidable (_ ∨ _))

namespace TimerQueue

variable {ι θ : Type} [DecidableEq ι]

/-- The new deadline of `timer_mod`. -/
def newTimeout (tq : TimerQueue ι θ) (t : ι) (now : Timespec) : Timespec :=
  now.addNsec (i64 ((tq.queue.obj t).expires * 1000))

/-- **A thread that is about to do `pc` keeps a timer at the front that is due at `wake`.** -/
def Steady (tq : TimerQueue ι θ) (now : Timespec) (wake : ℤ) : TimerPc ι → Prop
  | .modTimeout t _ =>
    tq.front.map Prod.fst = some t → (tq.newTimeout t now).toNsec ≤ wake
  | .modInsert t _ => (tq.queue.obj t).timeout.toNsec ≤ wake ∨ tq.queue.Blocked t
  | .del t _ =>
    (tq.queue.hi t).index = 0 → tq.queue.size ≤ 1
      ∨ ∃ k < tq.queue.size, 0 < k ∧ (k ≤ 2 ∨ k + 1 = tq.queue.size)
        ∧ (tq.queue.obj (tq.queue.map k)).timeout.toNsec ≤ wake
  | _ => True

instance (tq : TimerQueue ι θ) (now : Timespec) (wake : ℤ) :
    ∀ pc, Decidable (tq.Steady now wake pc)
  | .modTimeout _ _ => inferInstanceAs (Decidable (_ → _))
  | .modInsert _ _ => inferInstanceAs (Decidable (_ ∨ _))
  | .del _ _ => inferInstanceAs (Decidable (_ → _))
  | .idle | .addTest _ | .modTest _ _ | .modIndex _ _ | .modExpires _ _ _ | .raisePoll _
  | .raiseWrite _ | .next | .nextDrain _ _ | .nextReturn _ _ | .handle => .isTrue trivial

end TimerQueue

/-! ## What a step of another thread does to the heap -/

/-- The order `heap_cmp` compares timers with. -/
def timerLt (t u : Timer) : Bool := t.timeout.lt u.timeout

instance : IsStrictWeakOrder Timer (Heap.ltRel timerLt) where
  irrefl t := by simp [Heap.ltRel, timerLt, Timespec.lt]
  trans t u v := by
    simp only [Heap.ltRel, timerLt, Timespec.lt, Bool.or_eq_true, Bool.and_eq_true,
      decide_eq_true_eq, beq_iff_eq]
    omega
  incomp_trans t u v := by
    simp only [Heap.ltRel, timerLt, Timespec.lt, Bool.or_eq_true, Bool.and_eq_true,
      decide_eq_true_eq, beq_iff_eq]
    omega

namespace TimerQueue

variable {ι θ : Type} [DecidableEq ι] [DecidableEq θ] {tq : TimerQueue ι θ}

/-- **Everything a thread that is about to do `pc` can do to the heap.** -/
inductive Change (tq : TimerQueue ι θ) (now : Timespec) : TimerPc ι → Heap ι Timer → Prop
  | same {pc : TimerPc ι} : Change tq now pc tq.queue
  | expires {t : ι} {expires : ℕ} {wasFirst : Bool} :
      Change tq now (.modExpires t expires wasFirst) (tq.setExpires t expires).queue
  | timeout {t : ι} {wasFirst : Bool} :
      Change tq now (.modTimeout t wasFirst) (tq.setTimeout t now).queue
  | insert {t : ι} {wasFirst : Bool} {queue : Heap ι Timer} (hin : Heap.Inserted tq.queue t queue)
      (hstays : tq.queue.Blocked t → (queue.hi t).index ≠ 0) :
      Change tq now (.modInsert t wasFirst) queue
  | del {t : ι} {rest : TimerPc ι} {queue : Heap ι Timer} (hdel : DelOutcome tq.queue t queue)
      (hfront : (tq.queue.hi t).index = 0 → ∀ k, 0 < k → k < tq.queue.size →
        k ≤ 2 ∨ k + 1 = tq.queue.size →
        ¬ Heap.ltRel timerLt (tq.queue.obj (tq.queue.map k)) (tq.queue.obj (queue.map 0))) :
      Change tq now (.del t rest) queue

/-- The locked part of `timer_mod`. -/
theorem change_insertSection (hw : tq.queue.WF) (hcmp : tq.queue.cmp = heapCmp)
    (hs : tq.queue.size < 2 ^ 31) {self : θ} {t : ι} {wasFirst : Bool} {alloc : Option (ℕ → ι)}
    {r : ℤ × Bool × TimerQueue ι θ} (hrun : tq.insertSection self t wasFirst alloc = some r)
    (now : Timespec) :
    r.2.2.thr = tq.thr ∧ Change tq now (.modInsert t wasFirst) r.2.2.queue := by
  have hg := Heap.grows_of_lt hs alloc
  unfold insertSection at hrun
  rcases Heap.heapInsert_cases hw t hg with ⟨-, -, heq⟩ | ⟨g, h', j, hroom, hrise, heq⟩
  · rw [heq] at hrun
    obtain rfl := Option.some.inj hrun
    exact ⟨rfl, .same⟩
  · rw [heq] at hrun
    obtain rfl := Option.some.inj hrun
    have hby : tq.queue.cmp = Heap.byObj timerLt := hcmp
    exact ⟨rfl, .insert (Heap.inserted_of_rises hroom hrise)
      fun hb => hb.index_ne_zero hw hby hg heq⟩

/-- The locked part of a deletion. -/
theorem change_delSection (hw : tq.queue.WF) (hcmp : tq.queue.cmp = heapCmp)
    (hs : tq.queue.size < 2 ^ 31) {self : θ} {t : ι} {r : Bool × TimerQueue ι θ}
    (hrun : tq.delSection self t = some r) (now : Timespec) (rest : TimerPc ι) :
    r.2.thr = tq.thr ∧ Change tq now (.del t rest) r.2.queue := by
  obtain ⟨queue, hdel, heq⟩ := delSection_cases hw hs self t
  obtain rfl := Option.some.inj (hrun.symm.trans heq)
  refine ⟨rfl, .del hdel fun hzero k hk0 hk hk2 => ?_⟩
  unfold delSection at heq
  rw [hzero] at heq
  obtain ⟨⟨p, h'⟩, hrem, heq⟩ := Option.bind_eq_some_iff.mp heq
  obtain rfl : h' = queue :=
    congrArg (fun r : Bool × TimerQueue ι θ => r.2.queue) (Option.some.inj heq)
  have hby : tq.queue.cmp = Heap.byObj timerLt := hcmp
  exact Heap.heapRemove_front_min hw hs hby hrem hk0 hk hk2

omit [DecidableEq θ] in
/-- What a step keeps: the heap stays well formed, with its comparison. -/
theorem Change.wf {now : Timespec} {pc : TimerPc ι} {queue : Heap ι Timer}
    (hc : Change tq now pc queue) (hw : tq.queue.WF) : queue.WF ∧ queue.cmp = tq.queue.cmp := by
  cases hc with
  | same => exact ⟨hw, rfl⟩
  | expires => exact ⟨Heap.wf_obj hw, rfl⟩
  | timeout => exact ⟨Heap.wf_obj hw, rfl⟩
  | insert hin _ => exact ⟨hin.wf, hin.cmp⟩
  | del hdel _ =>
    refine ⟨hdel.wf hw, ?_⟩
    rcases hdel with ⟨-, rfl⟩ | ⟨-, hrem⟩
    · rfl
    · exact hrem.cmp

omit [DecidableEq θ] in
/-- A deadline is what it was, or the one that is being written. -/
theorem Change.timeout_eq {now : Timespec} {pc : TimerPc ι} {queue : Heap ι Timer}
    (hc : Change tq now pc queue) (u : ι) :
    (queue.obj u).timeout = (tq.queue.obj u).timeout
      ∨ pc.retimes = some u ∧ (queue.obj u).timeout = tq.newTimeout u now := by
  cases hc with
  | same => exact .inl rfl
  | @expires t expires =>
    left
    show (Function.update tq.queue.obj t _ u).timeout = _
    by_cases hu : u = t
    · rw [hu, Function.update_self]
    · rw [Function.update_of_ne hu]
  | @timeout t =>
    by_cases hu : u = t
    · right
      refine ⟨congrArg some hu.symm, ?_⟩
      show (Function.update tq.queue.obj t _ u).timeout = _
      rw [hu, Function.update_self]
      rfl
    · left
      show (Function.update tq.queue.obj t _ u).timeout = _
      rw [Function.update_of_ne hu]
  | insert hin _ => exact .inl (by rw [hin.obj])
  | del hdel _ =>
    left
    rcases hdel with ⟨-, rfl⟩ | ⟨-, hrem⟩
    · rfl
    · rw [hrem.obj]

/-- Whoever is at the front is due at `wake`. -/
def FrontBy (tq : TimerQueue ι θ) (wake : ℤ) : Prop := ∀ p ∈ tq.front, p.2.toNsec ≤ wake

omit [DecidableEq ι] [DecidableEq θ] in
theorem map_zero_of_front {p : ι × Timespec} (hp : tq.front = some p) :
    tq.queue.map 0 = p.1 := by
  unfold front at hp
  split at hp
  · exact nomatch hp
  · exact congrArg Prod.fst (Option.some.inj hp)

omit [DecidableEq ι] [DecidableEq θ] in
theorem timeout_of_front {p : ι × Timespec} (hp : tq.front = some p) :
    (tq.queue.obj p.1).timeout = p.2 := by
  unfold front at hp
  split at hp
  · exact nomatch hp
  · rw [← Option.some.inj hp]

omit [DecidableEq ι] [DecidableEq θ] in
theorem frontBy_iff {wake : ℤ} : tq.FrontBy wake
    ↔ 0 < tq.queue.size → (tq.queue.obj (tq.queue.map 0)).timeout.toNsec ≤ wake := by
  unfold FrontBy front Heap.heapEmpty Heap.heapFront
  by_cases hzero : tq.queue.size = 0
  · rw [hzero]
    simp
  · rw [if_neg (fun h => hzero (eq_of_beq h))]
    simp [Nat.pos_of_ne_zero hzero]

omit [DecidableEq θ] in
/-- **A steady step keeps a timer at the front that is due.** -/
theorem Change.frontBy {now : Timespec} {pc : TimerPc ι} {queue : Heap ι Timer}
    (hc : Change tq now pc queue) (hnormal : ∀ t, (tq.queue.obj t).timeout.Normal) {wake : ℤ}
    (hfront : tq.FrontBy wake) (hsteady : tq.Steady now wake pc) :
    FrontBy { tq with queue := queue } wake := by
  cases hc with
  | same => exact hfront
  | @expires t expires =>
    unfold FrontBy
    rw [show front { tq with queue := (tq.setExpires t expires).queue } = tq.front from
      front_setExpires t expires]
    exact hfront
  | @timeout t wasFirst =>
    by_cases ht : tq.front.map Prod.fst = some t
    · obtain ⟨p, hp, rfl⟩ := Option.map_eq_some_iff.mp ht
      rw [frontBy_iff]
      intro hpos
      show (Function.update tq.queue.obj p.1 _ (tq.queue.map 0)).timeout.toNsec ≤ wake
      rw [map_zero_of_front hp, Function.update_self]
      exact hsteady ht
    · unfold FrontBy
      rw [show front { tq with queue := (tq.setTimeout t now).queue } = tq.front from
        front_setTimeout now ht]
      exact hfront
  | @insert t wasFirst queue hin hstays =>
    by_cases hzero : (queue.hi t).index = 0
    · rw [frontBy_iff]
      intro _
      have hdue := hsteady.resolve_right fun hb => hstays hb hzero
      have hmap : queue.map 0 = t := hzero ▸ hin.map_index
      show (queue.obj (queue.map 0)).timeout.toNsec ≤ wake
      rw [hmap, hin.obj]
      exact hdue
    · unfold FrontBy
      rw [front_of_insert hin hzero]
      exact hfront
  | @del t rest queue hdel hmin =>
    by_cases hzero : (tq.queue.hi t).index = 0
    · rcases hdel with ⟨-, rfl⟩ | ⟨-, hrem⟩
      · exact hfront
      · rw [frontBy_iff]
        intro hpos
        have hsize := hrem.size
        have hlt : 0 < queue.size := hpos
        obtain ⟨k, hk, hk0, hk2, hdue⟩ := (hsteady hzero).resolve_left (by omega)
        have hle : (tq.queue.obj (queue.map 0)).timeout.toNsec
            ≤ (tq.queue.obj (tq.queue.map k)).timeout.toNsec := by
          rw [← not_lt, ← Timespec.lt_iff (hnormal _) (hnormal _)]
          exact hmin hzero k hk0 hk hk2
        show (queue.obj (queue.map 0)).timeout.toNsec ≤ wake
        rw [hrem.obj]
        exact hle.trans hdue
    · unfold FrontBy
      rw [front_of_del hdel hzero]
      exact hfront

end TimerQueue

namespace TimerSys

variable {ι θ : Type} [DecidableEq ι] [DecidableEq θ] {s s' : TimerSys ι θ}

omit [DecidableEq ι] in
/-- The end of a locked part, in a thread that schedules. -/
theorem finish_schedules (s : TimerSys ι θ) (i : θ) (raise : Bool) {rest : TimerPc ι}
    (hrest : (rest.schedules && !rest.raising) = true) :
    ∃ pc, (s.finish i raise rest).pc = Function.update s.pc i pc ∧ pc.schedules = true := by
  cases raise with
  | true => exact ⟨.raisePoll rest, rfl, hrest⟩
  | false => exact ⟨rest, rfl, (Bool.and_eq_true_iff.mp hrest).1⟩

/-- **Everything a step of a thread that schedules can do.** -/
theorem access_change (hw : s.tq.queue.WF) (hcmp : s.tq.queue.cmp = heapCmp)
    (hs : s.tq.queue.size < 2 ^ 31) {i : θ} (hsched : (s.pc i).schedules = true)
    {now : Timespec} {alloc : Option (ℕ → ι)} (hstep : s.access i now alloc = some s') :
    ∃ pc, s'.pc = Function.update s.pc i pc ∧ pc.schedules = true ∧ s'.tq.thr = s.tq.thr
      ∧ s.tq.Change now (s.pc i) s'.tq.queue := by
  have hmove := access_moves hstep
  generalize s.pc i = pc at hsched hmove ⊢
  cases hmove with
  | addScheduled | addNew | modScheduled | modNew | modIndex =>
    exact ⟨_, rfl, rfl, rfl, .same⟩
  | modExpires => exact ⟨_, rfl, rfl, rfl, .expires⟩
  | modTimeout => exact ⟨_, rfl, rfl, rfl, .timeout⟩
  | @modInsert t wasFirst r _ hrun =>
    obtain ⟨hthr, hchange⟩ := TimerQueue.change_insertSection hw hcmp hs hrun now
    obtain ⟨pc, hpc', hsched'⟩ := finish_schedules { s with
      tq := r.2.2
      log := if r.1 = (1 : ℤ) then .inserted t :: s.log else s.log } i r.2.1
      (show (TimerPc.idle.schedules && !TimerPc.idle.raising) = true from rfl)
    refine ⟨pc, hpc', hsched', ?_, ?_⟩
    · rw [finish_tq]
      exact hthr
    · rw [finish_tq]
      exact hchange
  | @del t rest r _ hrun =>
    obtain ⟨hthr, hchange⟩ := TimerQueue.change_delSection hw hcmp hs hrun now rest
    obtain ⟨pc, hpc', hsched'⟩ := finish_schedules { s with tq := r.2 } i r.1 hsched
    refine ⟨pc, hpc', hsched', ?_, ?_⟩
    · rw [finish_tq]
      exact hthr
    · rw [finish_tq]
      exact hchange
  | raisePoll => exact ⟨_, rfl, hsched, rfl, .same⟩
  | raiseSeen | raiseWrite => exact ⟨_, rfl, (Bool.and_eq_true_iff.mp hsched).1, rfl, .same⟩
  | next | drained | drain | nextReturn | handle => exact Bool.noConfusion hsched

end TimerSys

/-! ## The loop keeps its deadlines -/

namespace LoopSys

variable {ι θ : Type} [DecidableEq ι] [DecidableEq θ] {s s' : LoopSys ι θ}

/-- **The steps after which no callback comes too early**: the owner looks at a deadline that
is a whole number of microseconds away, and the other threads are steady while it waits, and
do not put off a timer that is being called back. -/
@[mk_iff] structure Prompt (s : LoopSys ι θ) (i : θ) : Prop where
  fits : s.sys.tq.queue.size < 2 ^ 31
  whole : s.sys.pc i = .next → ∀ p ∈ s.sys.tq.front, s.clock.Whole p.2
  steady : i ≠ s.owner → ∀ wake ∈ s.awaits, s.sys.tq.Steady s.clock wake (s.sys.pc i)
  kept : i ≠ s.owner → ∀ t ∈ s.calling, (s.sys.pc i).retimes = some t →
    (s.sys.tq.newTimeout t s.clock).toNsec ≤ s.clock.toNsec

/-- The condition on a step. -/
def Heeds (s : LoopSys ι θ) : LoopEvent ι θ → Prop
  | .access i _ => s.Prompt i
  | _ => True

instance (s : LoopSys ι θ) : ∀ e, Decidable (s.Heeds e)
  | .access i _ => decidable_of_iff _ (prompt_iff s i).symm
  | .time _ | .callAdd _ _ | .callMod _ _ _ | .callDel _ _ | .callNext | .callHandle
  | .callback => .isTrue trivial

/-- The owner is somewhere in its loop: it has read the clock before now, and it does not
handle a timeout before it has waited. -/
def Loops (clock : Timespec) (wake : Option ℤ) : TimerPc ι → Prop
  | .idle | .next => True
  | .nextDrain _ now | .nextReturn _ now => now.toNsec ≤ clock.toNsec
  | .handle => ∃ w ∈ wake, w ≤ clock.toNsec
  | _ => False

/-- **What the loop keeps.** -/
structure LoopInv (s : LoopSys ι θ) : Prop where
  wf : s.sys.tq.queue.WF
  cmp : s.sys.tq.queue.cmp = heapCmp
  clock : s.clock.Normal
  normal : ∀ t, (s.sys.tq.queue.obj t).timeout.Normal
  loops : Loops s.clock s.wake (s.sys.pc s.owner)
  others : ∀ i, i ≠ s.owner → (s.sys.pc i).schedules = true
  front : ∀ wake ∈ s.awaits, s.sys.tq.FrontBy wake
  calling : ∀ t ∈ s.calling, (s.sys.tq.queue.obj t).timeout.toNsec ≤ s.clock.toNsec
  onTime : s.OnTime

omit [DecidableEq ι] [DecidableEq θ] in
/-- Time passes. -/
theorem LoopInv.time (h : LoopInv s) {now : Timespec} (hnow : now.Normal)
    (hle : s.clock.toNsec ≤ now.toNsec) : LoopInv { s with clock := now } := by
  refine ⟨h.wf, h.cmp, hnow, h.normal, ?_, h.others, h.front,
    fun t ht => (h.calling t ht).trans hle, h.onTime⟩
  have hloops := h.loops
  show Loops now s.wake (s.sys.pc s.owner)
  cases hpc : s.sys.pc s.owner with
  | idle | next => trivial
  | nextDrain found t | nextReturn found t =>
    rw [hpc] at hloops
    exact le_trans hloops hle
  | handle =>
    rw [hpc] at hloops
    obtain ⟨wake, hwake, hdue⟩ := hloops
    exact ⟨wake, hwake, hdue.trans hle⟩
  | _ =>
    rw [hpc] at hloops
    exact hloops

omit [DecidableEq ι] [DecidableEq θ] in
/-- The callback. -/
theorem LoopInv.callback (h : LoopInv s) {t : ι} (ht : s.calling = some t) :
    LoopInv { s with
      calling := none
      fired := (t, (s.sys.tq.queue.obj t).timeout, s.clock) :: s.fired } := by
  refine ⟨h.wf, h.cmp, h.clock, h.normal, h.loops, h.others, h.front,
    fun _ hc => (nomatch hc), ?_⟩
  intro f hf
  rcases List.mem_cons.mp hf with rfl | hf
  · refine Bool.eq_false_iff.mpr fun hlt => ?_
    rw [Timespec.lt_iff h.clock (h.normal t)] at hlt
    exact absurd (h.calling t ht) (not_le.mpr hlt)
  · exact h.onTime f hf

/-- **A step of another thread**, which goes on to `pc`. -/
theorem LoopInv.other (h : LoopInv s) {i : θ} (hi : i ≠ s.owner) {sys : TimerSys ι θ}
    {pc : TimerPc ι} (hpc : sys.pc = Function.update s.sys.pc i pc) (hsched : pc.schedules = true)
    (hthr : sys.tq.thr = s.sys.tq.thr)
    (hchange : s.sys.tq.Change s.clock (s.sys.pc i) sys.tq.queue)
    (hsteady : ∀ wake ∈ s.awaits, s.sys.tq.Steady s.clock wake (s.sys.pc i))
    (hkept : ∀ t ∈ s.calling, (s.sys.pc i).retimes = some t →
      (s.sys.tq.newTimeout t s.clock).toNsec ≤ s.clock.toNsec) :
    LoopInv { s with sys := sys } := by
  obtain ⟨hwf, hcmp⟩ := hchange.wf h.wf
  have howner : sys.pc sys.tq.thr = s.sys.pc s.owner := by
    rw [hthr, hpc]
    exact Function.update_of_ne (Ne.symm hi) _ _
  refine ⟨hwf, hcmp.trans h.cmp, h.clock, fun t => ?_, ?_, fun j hj => ?_, fun wake hwake => ?_,
    fun t ht => ?_, h.onTime⟩
  · rcases hchange.timeout_eq t with heq | ⟨-, heq⟩
    · rw [heq]
      exact h.normal t
    · rw [heq]
      exact Timespec.normal_addNsec h.clock _
  · show Loops s.clock s.wake (sys.pc sys.tq.thr)
    rw [howner]
    exact h.loops
  · show (sys.pc j).schedules = true
    rw [hpc]
    by_cases hji : j = i
    · rw [hji, Function.update_self]
      exact hsched
    · rw [Function.update_of_ne hji]
      exact h.others j fun hjo => hj (hjo.trans hthr.symm)
  · have hwake' : wake ∈ s.awaits := by
      rw [awaits, ← howner]
      exact hwake
    have hfront := hchange.frontBy h.normal (h.front wake hwake') (hsteady wake hwake')
    exact TimerQueue.frontBy_iff.mpr (TimerQueue.frontBy_iff.mp hfront)
  · rcases hchange.timeout_eq t with heq | ⟨hre, heq⟩
    · show (sys.tq.queue.obj t).timeout.toNsec ≤ _
      rw [heq]
      exact h.calling t ht
    · show (sys.tq.queue.obj t).timeout.toNsec ≤ _
      rw [heq]
      exact hkept t ht hre

omit [DecidableEq ι] in
/-- **A step of the owner**, which goes on to `pc`. -/
theorem LoopInv.own (h : LoopInv s) (sys : TimerSys ι θ) (wake : Option ℤ) (calling : Option ι)
    (pc : TimerPc ι) (hpc : sys.pc = Function.update s.sys.pc s.owner pc)
    (hthr : sys.tq.thr = s.sys.tq.thr) (hwf : sys.tq.queue.WF)
    (hcmp : sys.tq.queue.cmp = s.sys.tq.queue.cmp) (hobj : sys.tq.queue.obj = s.sys.tq.queue.obj)
    (hloops : Loops s.clock wake pc) (hfront : ∀ w ∈ pc.awaits wake, sys.tq.FrontBy w)
    (hcalling : ∀ t ∈ calling, (s.sys.tq.queue.obj t).timeout.toNsec ≤ s.clock.toNsec) :
    LoopInv { s with sys := sys, wake := wake, calling := calling } := by
  have howner : sys.pc sys.tq.thr = pc := by
    rw [hthr, hpc]
    exact Function.update_self ..
  refine ⟨hwf, hcmp.trans h.cmp, h.clock, fun t => hobj ▸ h.normal t, ?_, fun j hj => ?_, ?_,
    fun t ht => hobj ▸ hcalling t ht, h.onTime⟩
  · show Loops s.clock wake (sys.pc sys.tq.thr)
    rw [howner]
    exact hloops
  · have hjo : j ≠ s.owner := fun hc => hj (hc.trans hthr.symm)
    show (sys.pc j).schedules = true
    rw [hpc, Function.update_of_ne hjo]
    exact h.others j hjo
  · show ∀ w ∈ (sys.pc sys.tq.thr).awaits wake, sys.tq.FrontBy w
    rw [howner]
    exact hfront

omit [DecidableEq ι] [DecidableEq θ] in
/-- **The wait is long enough** for a deadline that is a whole number of microseconds away. -/
theorem le_wakeTime {now timeout : Timespec} (hnow : now.Normal) (htime : timeout.Normal)
    (hwhole : now.Whole timeout) {t : ι} {w : ℤ}
    (hw : w ∈ wakeTime now (TimerQueue.nextTimeout now (some (t, timeout)))) :
    timeout.toNsec ≤ w := by
  have hnormal := Timespec.normal_sub htime hnow
  have hnsec := Timespec.toNsec_sub timeout now
  let later := timeout.sub now
  have hw : now.toNsec + (ulong (later.tvSec * 1000000 + later.tvNsec.tdiv 1000) : ℤ) * 1000 = w :=
    Option.some.inj hw
  by_cases hpast : timeout.toNsec ≤ now.toNsec
  · omega
  · obtain ⟨hmod, hlt⟩ := hwhole.resolve_left hpast
    have hdiv : later.tvNsec.tdiv 1000 = later.tvNsec / 1000 :=
      Int.tdiv_eq_ediv_of_nonneg hnormal.1
    have hlater : later.tvSec * 1000000000 + later.tvNsec = timeout.toNsec - now.toNsec := hnsec
    have hmicros : ulong (later.tvSec * 1000000 + later.tvNsec.tdiv 1000)
        = later.tvSec * 1000000 + later.tvNsec / 1000 := by
      rw [hdiv, ulong, Int.emod_eq_of_lt (by omega) (by omega), Int.toNat_of_nonneg (by omega)]
    rw [hmicros] at hw
    omega

/-- A step of the owner. -/
theorem LoopInv.access_owner (h : LoopInv s) {alloc : Option (ℕ → ι)}
    (hprompt : s.Prompt s.owner) {sys : TimerSys ι θ}
    (hstep : s.sys.access s.owner s.clock alloc = some sys) : LoopInv (s.moved sys) := by
  have hloops := h.loops
  have hfront := h.front
  have hmove := TimerSys.access_moves hstep
  have hwhole := hprompt.whole
  unfold moved
  rw [awaits] at hfront
  generalize s.sys.pc s.owner = pc at hloops hfront hwhole hmove ⊢
  cases hmove with
  | next =>
    refine h.own _ s.wake s.calling (.nextDrain s.sys.tq.front s.clock) rfl rfl h.wf rfl rfl le_rfl
      (fun w hw => ?_) h.calling
    rintro ⟨t, timeout⟩ hp
    have hp' : s.sys.tq.front = some (t, timeout) := hp
    have htimeout : (s.sys.tq.queue.obj t).timeout = timeout := TimerQueue.timeout_of_front hp'
    have htime : timeout.Normal := htimeout ▸ h.normal t
    have hwake : w ∈ wakeTime s.clock (TimerQueue.nextTimeout s.clock s.sys.tq.front) := hw
    rw [hp'] at hwake
    exact le_wakeTime h.clock htime (hwhole rfl _ hp) hwake
  | @drained found now =>
    exact h.own _ s.wake s.calling (.nextReturn found now) rfl rfl h.wf rfl rfl hloops hfront
      h.calling
  | @drain found now =>
    exact h.own _ s.wake s.calling (.nextDrain found now) rfl rfl h.wf rfl rfl hloops
      (fun w hw => TimerQueue.frontBy_iff.mpr (TimerQueue.frontBy_iff.mp (hfront w hw))) h.calling
  | @nextReturn found now =>
    refine h.own _ (wakeTime s.clock (TimerQueue.nextTimeout now found)) s.calling .idle rfl rfl
      h.wf rfl rfl trivial (fun w hw => ?_) h.calling
    obtain ⟨timeout, htimeout, rfl⟩ := Option.map_eq_some_iff.mp hw
    intro p hp
    have hle : now.toNsec ≤ s.clock.toNsec := hloops
    have hdue := hfront (now.toNsec + timeout * 1000) (Option.map_eq_some_iff.mpr
      ⟨timeout, htimeout, rfl⟩) p hp
    omega
  | handle _ hrun =>
    obtain ⟨wake, hwake, hdue⟩ := hloops
    rcases TimerQueue.timerHandleTimeout_cases h.wf hprompt.fits with
      ⟨-, heq⟩ | ⟨hpos, queue, hrem, heq⟩
    · obtain rfl := Option.some.inj (heq.symm.trans hrun)
      rw [heq]
      exact h.own _ none none .idle rfl rfl h.wf rfl rfl trivial (fun w hw => nomatch hw)
        fun t ht => nomatch ht
    · obtain rfl := Option.some.inj (heq.symm.trans hrun)
      rw [heq]
      refine h.own _ none (some (s.sys.tq.queue.map 0)) .idle rfl rfl hrem.wf hrem.cmp hrem.obj
        trivial (fun w hw => nomatch hw) fun t ht => ?_
      obtain rfl : s.sys.tq.queue.map 0 = t := Option.some.inj ht
      exact (TimerQueue.frontBy_iff.mp (hfront wake hwake) hpos).trans hdue
  | _ => exact absurd hloops not_false

/-- **One step keeps the deadlines.** -/
theorem loopInv_step (h : LoopInv s) {e : LoopEvent ι θ} (hheeds : s.Heeds e)
    (hstep : s.step e = some s') : LoopInv s' := by
  cases e with
  | time now =>
    obtain ⟨⟨hnow, hle⟩, hstep⟩ := Option.ite_none_right_eq_some.mp hstep
    obtain rfl := Option.some.inj hstep
    exact h.time hnow hle
  | callAdd i t | callMod i t expires | callDel i t =>
    obtain ⟨hi, hstep⟩ := Option.ite_none_right_eq_some.mp hstep
    obtain ⟨sys, hsys, rfl⟩ := Option.map_eq_some_iff.mp hstep
    obtain ⟨hidle, hsys⟩ := Option.ite_none_right_eq_some.mp hsys
    obtain rfl := Option.some.inj hsys
    refine h.other hi rfl rfl rfl .same (fun wake _ => ?_) fun t _ hre => ?_
    · rw [hidle]
      trivial
    · rw [hidle] at hre
      exact nomatch hre
  | callNext =>
    obtain ⟨-, hstep⟩ := Option.ite_none_right_eq_some.mp hstep
    obtain ⟨sys, hsys, rfl⟩ := Option.map_eq_some_iff.mp hstep
    obtain ⟨-, hsys⟩ := Option.ite_none_right_eq_some.mp hsys
    obtain rfl := Option.some.inj hsys
    exact h.own _ none s.calling .next rfl rfl h.wf rfl rfl trivial (fun w hw => nomatch hw)
      h.calling
  | callHandle =>
    unfold step at hstep
    dsimp only at hstep
    split at hstep
    · rename_i wake hwake
      obtain ⟨⟨hdue, -⟩, hstep⟩ := Option.ite_none_right_eq_some.mp hstep
      obtain ⟨sys, hsys, rfl⟩ := Option.map_eq_some_iff.mp hstep
      obtain ⟨hidle, hsys⟩ := Option.ite_none_right_eq_some.mp hsys
      obtain rfl := Option.some.inj hsys
      have hfront := h.front
      rw [awaits, hidle] at hfront
      exact h.own _ s.wake s.calling .handle rfl rfl h.wf rfl rfl ⟨wake, hwake, hdue⟩ hfront
        h.calling
    · exact nomatch hstep
  | access i alloc =>
    obtain ⟨sys, hsys, rfl⟩ := Option.map_eq_some_iff.mp hstep
    by_cases hi : i = s.owner
    · subst hi
      rw [if_pos rfl]
      exact h.access_owner hheeds hsys
    · rw [if_neg hi]
      obtain ⟨pc, hpc, hsched, hthr, hchange⟩ :=
        TimerSys.access_change h.wf h.cmp hheeds.fits (h.others i hi) hsys
      exact h.other hi hpc hsched hthr hchange (hheeds.steady hi) (hheeds.kept hi)
  | callback =>
    unfold step at hstep
    dsimp only at hstep
    split at hstep
    · rename_i t ht
      obtain rfl := Option.some.inj hstep
      exact h.callback ht
    · exact nomatch hstep

omit [DecidableEq ι] [DecidableEq θ] in
/-- A new queue, with timers from `timer_init`. -/
theorem loopInv_start {owner : θ} {expires : ι → ℤ} {alloc : Option (ℕ → ι)}
    {tq : TimerQueue ι θ} (hinit : timerQueueInit owner (fun _ => timerInit)
      (fun t => ⟨⟨0, 0⟩, expires t⟩) alloc = some tq) {clock : Timespec} (hclock : clock.Normal) :
    LoopInv (start tq clock) := by
  obtain ⟨queue, hqueue, rfl⟩ := Option.map_eq_some_iff.mp hinit
  obtain ⟨hw, -, hcmp, -, hobj⟩ := Heap.heapInit_wf (by decide) hqueue
  refine ⟨hw, hcmp, hclock, fun t => ?_, trivial, fun _ _ => rfl, fun _ hwake => (nomatch hwake),
    fun _ ht => (nomatch ht), fun _ hf => (nomatch hf)⟩
  show (queue.obj t).timeout.Normal
  rw [hobj]
  exact (show (⟨0, 0⟩ : Timespec).Normal by decide)

/-- **No callback before its deadline**, in a loop on a new queue all whose steps are prompt. -/
theorem timer_callbacks_on_time (owner : θ) (expires : ι → ℤ) (alloc : Option (ℕ → ι))
    {tq : TimerQueue ι θ} (hinit : timerQueueInit owner (fun _ => timerInit)
      (fun t => ⟨⟨0, 0⟩, expires t⟩) alloc = some tq) (clock : Timespec) (hclock : clock.Normal)
    (es : List (LoopEvent ι θ)) (hheeds : Meets step Heeds (start tq clock) es)
    (hrun : run step (start tq clock) es = some s') : s'.OnTime :=
  (Run.inv_of_meets (fun _ _ _ h hc hstep => loopInv_step h hc hstep) (loopInv_start hinit hclock)
    hheeds hrun).onTime

/-- The thread `true` adds three timers, and deletes the second while the owner `false` waits.
The owner handles two timeouts. -/
def loopThree : List (LoopEvent ℕ Bool) :=
  List.flatten [.callAdd true 1 :: List.replicate 6 (.access true none),
    .callAdd true 2 :: List.replicate 4 (.access true none),
    .callAdd true 3 :: List.replicate 4 (.access true none),
    .callNext :: List.replicate 4 (.access false none),
    [.callDel true 2, .access true none, .time ⟨1, 7000⟩],
    [.callHandle, .access false none, .callback],
    .callNext :: List.replicate 3 (.access false none),
    [.callHandle, .access false none, .callback]]

/-- The first and the third timer are called back at their deadline, and the second is not. -/
theorem timer_callbacks_on_time_three :
    ∃ s, run step (start (TimerQueue.natQueue false) ⟨1, 0⟩) loopThree = some s
      ∧ s.fired = [(3, ⟨1, 7000⟩, ⟨1, 7000⟩), (1, ⟨1, 7000⟩, ⟨1, 7000⟩)] ∧ s.OnTime := by
  have heval : (run step (start (TimerQueue.natQueue false) ⟨1, 0⟩) loopThree).map LoopSys.fired
      = some [(3, ⟨1, 7000⟩, ⟨1, 7000⟩), (1, ⟨1, 7000⟩, ⟨1, 7000⟩)] := by decide +kernel
  obtain ⟨s, hrun, hfired⟩ := Option.map_eq_some_iff.mp heval
  exact ⟨s, hrun, hfired, timer_callbacks_on_time false (fun _ => 7) (some fun _ => 0)
    (show timerQueueInit _ _ _ _ = some (TimerQueue.natQueue false) from rfl) ⟨1, 0⟩ (by decide)
    _ (by decide +kernel) hrun⟩

/-- The thread `true` adds the timer `1`, the owner `false` asks how long it has to go. -/
def loopAsk : List (LoopEvent ℕ Bool) :=
  [.callAdd true 1, .access true none, .access true none, .access true none, .access true none,
    .access true none, .access true none, .callNext, .access false none, .access false none,
    .access false none, .access false none]

/-- The owner waits, and handles the timeout. -/
def loopHandle : List (LoopEvent ℕ Bool) :=
  [.time ⟨1, 7000⟩, .callHandle, .access false none, .callback]

/-- The thread `true` puts the timer off by a second while the owner waits. -/
def loopPutOff : List (LoopEvent ℕ Bool) :=
  .callMod true 1 1000000 :: List.replicate 9 (.access true none)

/-- **A callback before its deadline.** The owner has waited for the old deadline of the
timer, and calls it back a second before the new one. -/
theorem timer_callback_early :
    ∃ s, run step (start (TimerQueue.natQueue false) ⟨1, 0⟩)
        (loopAsk ++ loopPutOff ++ loopHandle) = some s
      ∧ s.fired = [(1, ⟨2, 0⟩, ⟨1, 7000⟩)] ∧ ¬ s.OnTime := by
  obtain ⟨s, hrun, hfired⟩ : ∃ s, run step (start (TimerQueue.natQueue false) ⟨1, 0⟩)
      (loopAsk ++ loopPutOff ++ loopHandle) = some s ∧ s.fired = [(1, ⟨2, 0⟩, ⟨1, 7000⟩)] :=
    ⟨_, rfl, rfl⟩
  refine ⟨s, hrun, hfired, fun h => ?_⟩
  have hearly := h _ (hfired ▸ List.mem_cons_self)
  exact absurd hearly (by decide)

end LoopSys
