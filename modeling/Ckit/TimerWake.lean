import Ckit.TimerThreads

/-!
# Waking the owner of a timer queue

The owner asks `timer_next_timeout` how long to sleep. Another thread that changes
the front of the queue afterwards raises the signal, so that the owner wakes up
and asks again. The answer is computed under the lock, and the signal is cleared
after the lock is released. A signal raised between the two is lost, and with it
the change it stood for (`timer_wake_lost`).

That is the only way to lose one. As long as the owner has not returned, one of
three things is true (`WakeInv.seen`): the front of the queue is the one the answer
was computed from, or a thread that has changed it holds the lock and is about to
raise the signal, or the drain is over and the signal is raised.
-/

namespace TimerPc

variable {ι : Type}

/-- The thread holds the lock and raises the signal. -/
def raising : TimerPc ι → Bool
  | .raisePoll _ | .raiseWrite _ => true
  | _ => false

/-- The thread adds, reschedules or deletes a timer, or does nothing. -/
def schedules : TimerPc ι → Bool
  | .del _ rest | .raisePoll rest | .raiseWrite rest => rest.schedules && !rest.raising
  | .next | .nextDrain _ _ | .nextReturn _ _ | .handle => false
  | _ => true

/-- The thread is in `timer_next_timeout`, or does nothing. -/
def watches : TimerPc ι → Bool
  | .idle | .next | .nextDrain _ _ | .nextReturn _ _ => true
  | _ => false

/-- What `timer_next_timeout` has found at the front. -/
def found : TimerPc ι → Option (Option (ι × Timespec))
  | .nextDrain found _ | .nextReturn found _ => some found
  | _ => none

/-- `timer_next_timeout` is clearing the signal. -/
def drains : TimerPc ι → Bool
  | .nextDrain _ _ => true
  | _ => false

/-- `timer_next_timeout` is about to return. -/
def returns : TimerPc ι → Bool
  | .nextReturn _ _ => true
  | _ => false

/-- The timer whose deadline is written next. -/
def retimes : TimerPc ι → Option ι
  | .modTimeout t _ => some t
  | _ => none

end TimerPc

namespace TimerQueue

variable {ι θ : Type} {tq : TimerQueue ι θ} {queue : Heap ι Timer}

/-- The front is read off the size, the first slot and the timer it names. -/
theorem front_congr {tq' : TimerQueue ι θ} (hsize : tq'.queue.size = 0 ↔ tq.queue.size = 0)
    (hmap : 0 < tq.queue.size → tq'.queue.map 0 = tq.queue.map 0
      ∧ (tq'.queue.obj (tq.queue.map 0)).timeout = (tq.queue.obj (tq.queue.map 0)).timeout) :
    tq'.front = tq.front := by
  unfold front Heap.heapEmpty Heap.heapFront
  by_cases hzero : tq.queue.size = 0
  · rw [hzero, hsize.mpr hzero]
    rfl
  · obtain ⟨hfirst, htime⟩ := hmap (Nat.pos_of_ne_zero hzero)
    rw [if_neg (fun h => hzero (hsize.mp (eq_of_beq h))),
      if_neg (fun h => hzero (eq_of_beq h)), hfirst, htime]

variable [DecidableEq ι]

omit [DecidableEq ι] in
/-- A deletion away from the front leaves the front. -/
theorem front_of_del {t : ι} (hdel : DelOutcome tq.queue t queue)
    (hne : (tq.queue.hi t).index ≠ 0) : front { tq with queue := queue } = tq.front := by
  obtain ⟨-, rfl⟩ | ⟨hlt, hrem⟩ := hdel
  · rfl
  · have hsize := hrem.size
    refine front_congr ⟨fun h : queue.size = 0 => ?_, fun h => ?_⟩ fun _ => ⟨hrem.front hne, ?_⟩
    · omega
    · omega
    · rw [hrem.obj]

omit [DecidableEq ι] in
/-- An insertion away from the front leaves the front. -/
theorem front_of_insert {t : ι} (hin : Heap.Inserted tq.queue t queue)
    (hne : (queue.hi t).index ≠ 0) : front { tq with queue := queue } = tq.front := by
  have hsize := hin.size
  have hlt := hin.index_lt
  refine front_congr ⟨fun h : queue.size = 0 => ?_, fun h => ?_⟩ fun _ => ⟨hin.front hne, ?_⟩
  · omega
  · omega
  · rw [hin.obj]

@[simp] theorem front_setExpires (t : ι) (expires : ℕ) :
    (tq.setExpires t expires).front = tq.front := by
  refine front_congr Iff.rfl fun _ => ⟨rfl, ?_⟩
  show (Function.update tq.queue.obj t _ (tq.queue.map 0)).timeout = _
  by_cases hp : tq.queue.map 0 = t
  · rw [hp, Function.update_self]
  · rw [Function.update_of_ne hp]

/-- A new deadline of a timer that is not at the front leaves the front. -/
theorem front_setTimeout {t : ι} (now : Timespec) (ht : tq.front.map Prod.fst ≠ some t) :
    (tq.setTimeout t now).front = tq.front := by
  refine front_congr Iff.rfl fun hpos => ⟨rfl, ?_⟩
  have hne : tq.queue.map 0 ≠ t := by
    intro heq
    refine ht ?_
    unfold front Heap.heapEmpty
    rw [if_neg (fun h => hpos.ne' (eq_of_beq h))]
    exact congrArg some heq
  show (Function.update tq.queue.obj t _ (tq.queue.map 0)).timeout = _
  rw [Function.update_of_ne hne]

end TimerQueue

namespace TimerSys

variable {ι θ : Type}

/-- The owner asks for the next timeout, and the other threads add, reschedule and
delete timers. -/
def Watching (owner : θ) : TimerEvent ι θ → Prop
  | .callAdd i _ | .callMod i _ _ | .callDel i _ => i ≠ owner
  | .callNext i => i = owner
  | .callHandle _ => False
  | .access _ _ _ => True

instance [DecidableEq θ] (owner : θ) : ∀ e : TimerEvent ι θ, Decidable (Watching owner e)
  | .callAdd _ _ | .callMod _ _ _ | .callDel _ _ => inferInstanceAs (Decidable (_ ≠ _))
  | .callNext _ => inferInstanceAs (Decidable (_ = _))
  | .callHandle _ => .isFalse not_false
  | .access _ _ _ => .isTrue trivial

/-- The next step of thread `i` is the last one of a raise: it finds the signal
raised, or writes. -/
def endsRaise (s : TimerSys ι θ) (i : θ) : Bool :=
  match s.pc i with
  | .raisePoll _ => s.tq.signalIsRaised
  | .raiseWrite _ => true
  | _ => false

/-- **The step of thread `i` does not lose a signal**: no raise ends while the
owner clears the signal, no deadline at the front is written behind the owner's
back, and the owner returns when nobody is changing the queue. -/
@[mk_iff] structure AccessSafe (owner : θ) (s : TimerSys ι θ) (i : θ) : Prop where
  quiet : s.endsRaise i = true → (s.pc owner).drains = false
  still : ∀ t ∈ (s.pc i).retimes, (s.pc owner).found.isSome = true →
    s.tq.front.map Prod.fst ≠ some t
  free : (s.pc i).returns = true → s.lock = none
  fits : s.tq.queue.size < 2 ^ 31

/-- The steps that do not lose a signal. -/
def WakeSafe (owner : θ) (s : TimerSys ι θ) : TimerEvent ι θ → Prop
  | .access i _ _ => AccessSafe owner s i
  | _ => True

instance [DecidableEq ι] [DecidableEq θ] (owner : θ) (s : TimerSys ι θ) :
    ∀ e, Decidable (WakeSafe owner s e)
  | .access i _ _ => decidable_of_iff _ (accessSafe_iff owner s i).symm
  | .callAdd _ _ | .callMod _ _ _ | .callDel _ _ | .callNext _ | .callHandle _ =>
    .isTrue trivial

/-- The queue is as the owner has found it, or the owner will be told. -/
def Told (owner : θ) (s : TimerSys ι θ) (found : Option (ι × Timespec)) : Prop :=
  s.tq.front = found ∨ (∃ i, (s.pc i).raising = true)
    ∨ (s.pc owner).drains = false ∧ s.tq.pipe ≠ []

/-- What the threads keep: only the owner asks and the others schedule, a thread
that raises the signal holds the lock, and the owner is told. -/
structure WakeInv (owner : θ) (s : TimerSys ι θ) : Prop where
  wf : s.tq.queue.WF
  thr : s.tq.thr = owner
  watch : (s.pc owner).watches = true
  others : ∀ i, i ≠ owner → (s.pc i).schedules = true
  locked : ∀ i, (s.pc i).raising = true → s.lock = some i
  told : ∀ found ∈ (s.pc owner).found, s.Told owner found

variable [DecidableEq θ] {owner : θ} {s s' : TimerSys ι θ}

omit [DecidableEq θ] in
/-- While the lock is free nobody raises the signal. -/
theorem WakeInv.not_raising (h : WakeInv owner s) (hfree : s.lock = none) (i : θ) :
    (s.pc i).raising = false := by
  by_contra hne
  have hlock := h.locked i (Bool.eq_true_of_not_eq_false hne)
  exact absurd (hfree.symm.trans hlock) (Option.some_ne_none i).symm

omit [DecidableEq θ] in
/-- While thread `i` holds the lock nobody else raises the signal. -/
theorem WakeInv.not_raising_of_ne (h : WakeInv owner s) {i j : θ} (hi : s.lock = some i)
    (hj : j ≠ i) : (s.pc j).raising = false := by
  by_contra hne
  have hlock := h.locked j (Bool.eq_true_of_not_eq_false hne)
  exact hj (Option.some.inj (hlock.symm.trans hi))

/-- **The rule for one step of another thread**, which goes on to `pc`. The lock
is its own when it raises the signal, and whoever else raises it keeps it; and
what the owner has found is accounted for. -/
theorem WakeInv.move (h : WakeInv owner s) {i : θ} (hi : i ≠ owner) (pc : TimerPc ι)
    (hw : s'.tq.queue.WF) (hthr : s'.tq.thr = s.tq.thr)
    (hpc : s'.pc = Function.update s.pc i pc) (hsched : pc.schedules = true)
    (hraise : pc.raising = true → s'.lock = some i)
    (hlock : ∀ j, j ≠ i → (s.pc j).raising = true → s'.lock = some j)
    (htold : ∀ found ∈ (s.pc owner).found, s'.Told owner found) : WakeInv owner s' := by
  have hself : s'.pc i = pc := by rw [hpc, Function.update_self]
  have hother : ∀ j, j ≠ i → s'.pc j = s.pc j := fun j hj => by
    rw [hpc, Function.update_of_ne hj]
  have howner := hother owner hi.symm
  refine ⟨hw, hthr.trans h.thr, howner ▸ h.watch, fun j hj => ?_, fun j hj => ?_, howner ▸ htold⟩
  · by_cases hji : j = i
    · rw [hji, hself]
      exact hsched
    · rw [hother j hji]
      exact h.others j hj
  · by_cases hji : j = i
    · subst hji
      exact hraise (hself ▸ hj)
    · exact hlock j hji (hother j hji ▸ hj)

/-- A step that leaves the front, the signal and the lock, by a thread that does not
raise the signal before or after it. -/
theorem WakeInv.still (h : WakeInv owner s) {i : θ} (hi : i ≠ owner) (pc : TimerPc ι)
    (hold : (s.pc i).raising = false) (hw : s'.tq.queue.WF) (hthr : s'.tq.thr = s.tq.thr)
    (hfront : (s.pc owner).found.isSome = true → s'.tq.front = s.tq.front)
    (hpipe : s'.tq.pipe = s.tq.pipe) (hlock : s'.lock = s.lock)
    (hpc : s'.pc = Function.update s.pc i pc) (hsched : pc.schedules = true)
    (hnew : pc.raising = false) : WakeInv owner s' := by
  refine h.move hi pc hw hthr hpc hsched (fun hr => ?_)
    (fun j _ hr => hlock ▸ h.locked j hr) fun found hf => ?_
  · rw [hnew] at hr
    exact Bool.noConfusion hr
  · unfold Told
    rw [hpipe, hfront (Option.isSome_of_mem hf), hpc, Function.update_of_ne hi.symm]
    refine (h.told found hf).imp_right (Or.imp_left ?_)
    rintro ⟨j, hj⟩
    refine ⟨j, ?_⟩
    rw [Function.update_of_ne fun hji => ?_]
    · exact hj
    · rw [hji, hold] at hj
      exact Bool.noConfusion hj

/-- The end of a locked part: the front is as it was, or the thread goes on to
raise the signal. -/
theorem WakeInv.finish (h : WakeInv owner s) {i : θ} (hi : i ≠ owner) (hfree : s.lock = none)
    {raise : Bool} {rest : TimerPc ι} {tq : TimerQueue ι θ} {log : List (TimerLog ι)}
    (hw : tq.queue.WF) (hthr : tq.thr = s.tq.thr) (hpipe : tq.pipe = s.tq.pipe)
    (hfront : raise = false → tq.front = s.tq.front) (hsched : rest.schedules = true)
    (hnew : rest.raising = false) :
    WakeInv owner (TimerSys.finish { s with tq := tq, log := log } i raise rest) := by
  cases raise with
  | true =>
    have hsched' : (TimerPc.raisePoll rest).schedules = true := by
      rw [TimerPc.schedules, hsched, hnew]
      rfl
    refine h.move hi (.raisePoll rest) hw hthr rfl hsched' (fun _ => rfl)
      (fun j _ hr => ?_) fun found _ => Or.inr (Or.inl ⟨i, ?_⟩)
    · rw [h.not_raising hfree j] at hr
      exact Bool.noConfusion hr
    · show (Function.update s.pc i (.raisePoll rest) i).raising = true
      rw [Function.update_self]
      rfl
  | false =>
    exact h.still hi rest (h.not_raising hfree i) hw hthr (fun _ => hfront rfl) hpipe rfl
      rfl hsched hnew

/-- The last step of a raise, after which the signal is raised. -/
theorem WakeInv.endRaise (h : WakeInv owner s) {i : θ} (hi : i ≠ owner)
    (hlocked : s.lock = some i) (hdrain : (s.pc owner).drains = false) {rest : TimerPc ι}
    (hsched : (rest.schedules && !rest.raising) = true) {pipe : List ℤ} (hpipe : pipe ≠ []) :
    WakeInv owner { s.goto i rest with tq := { s.tq with pipe := pipe }, lock := none } := by
  obtain ⟨hsched, hnew⟩ := Bool.and_eq_true_iff.mp hsched
  refine h.move hi rest h.wf rfl rfl hsched (fun hr => ?_) (fun j hj hr => ?_)
    fun found _ => Or.inr (Or.inr ⟨?_, hpipe⟩)
  · rw [hr] at hnew
    exact Bool.noConfusion hnew
  · rw [h.not_raising_of_ne hlocked hj] at hr
    exact Bool.noConfusion hr
  · show ((s.goto i rest).pc owner).drains = false
    rw [goto_pc_of_ne _ _ hi.symm]
    exact hdrain

variable [DecidableEq ι]

/-- A step of a thread that is not the owner. -/
theorem WakeInv.access_other (h : WakeInv owner s) {i : θ} (hi : i ≠ owner) {now : Timespec}
    {alloc : Option (ℕ → ι)} (hsafe : AccessSafe owner s i)
    (hstep : s.access i now alloc = some s') : WakeInv owner s' := by
  have hothers := h.others i hi
  have hlocked := h.locked i
  have hends := hsafe.quiet
  have hquiet := hsafe.still
  have hmove := access_moves hstep
  unfold endsRaise at hends
  generalize hpc : s.pc i = pc at hothers hlocked hends hquiet hmove
  cases hmove with
  | addScheduled | addNew | modScheduled | modNew | modIndex =>
    exact h.still hi _ (by rw [hpc]; rfl) h.wf rfl (fun _ => rfl) rfl rfl rfl rfl rfl
  | modExpires =>
    exact h.still hi _ (by rw [hpc]; rfl) (Heap.wf_obj h.wf) rfl
      (fun _ => TimerQueue.front_setExpires _ _) rfl rfl rfl rfl rfl
  | @modTimeout t =>
    exact h.still hi _ (by rw [hpc]; rfl) (Heap.wf_obj h.wf) rfl
      (fun hf => TimerQueue.front_setTimeout now (hquiet t rfl hf)) rfl rfl rfl rfl rfl
  | @modInsert t wasFirst r hfree hr =>
    rcases TimerQueue.insertSection_cases h.wf (Heap.grows_of_lt hsafe.fits alloc) i t wasFirst
      with ⟨-, -, hrun⟩ | ⟨queue, hin, hrun⟩
    · obtain rfl := Option.some.inj (hrun.symm.trans hr)
      exact h.finish hi hfree h.wf rfl rfl (fun _ => rfl) rfl rfl
    · obtain rfl := Option.some.inj (hrun.symm.trans hr)
      refine h.finish hi hfree hin.wf rfl rfl (fun hraise => ?_) rfl rfl
      refine TimerQueue.front_of_insert hin fun hzero => ?_
      rw [h.thr] at hraise
      simp [hi.symm, hzero] at hraise
  | @del t rest r hfree hr =>
    obtain ⟨hsched, hnew⟩ := Bool.and_eq_true_iff.mp hothers
    obtain ⟨queue, hdel, hrun⟩ := TimerQueue.delSection_cases h.wf hsafe.fits i t
    obtain rfl := Option.some.inj (hrun.symm.trans hr)
    refine h.finish hi hfree (hdel.wf h.wf) rfl rfl (fun hraise => ?_) hsched
      (Bool.not_eq_eq_eq_not.mp hnew)
    refine TimerQueue.front_of_del hdel fun hzero => ?_
    rw [h.thr] at hraise
    simp [hi.symm, hzero] at hraise
  | raiseSeen hraised =>
    refine h.endRaise hi (hlocked rfl) (hends hraised) hothers fun hnil => ?_
    unfold TimerQueue.signalIsRaised at hraised
    rw [hnil] at hraised
    exact Bool.noConfusion hraised
  | @raisePoll rest =>
    refine h.move hi (.raiseWrite rest) h.wf rfl rfl hothers (fun _ => hlocked rfl)
      (fun j _ hr => h.locked j hr) fun found _ => Or.inr (Or.inl ⟨i, ?_⟩)
    rw [goto_pc_self]
    rfl
  | raiseWrite =>
    exact h.endRaise hi (hlocked rfl) (hends rfl) hothers
      (List.append_ne_nil_of_right_ne_nil _ (List.cons_ne_nil _ _))
  | next | drained | drain | nextReturn | handle => exact Bool.noConfusion hothers

omit [DecidableEq ι] in
/-- The rule for one step of the owner, which goes on to `pc`. -/
theorem WakeInv.ask (h : WakeInv owner s) (pc : TimerPc ι) {pipe : List ℤ}
    {log : List (TimerLog ι)} (hwatch : pc.watches = true)
    (htold : ∀ found ∈ pc.found, s.tq.front = found
      ∨ (∃ i, i ≠ owner ∧ (s.pc i).raising = true) ∨ pc.drains = false ∧ pipe ≠ []) :
    WakeInv owner { s.goto owner pc with tq := { s.tq with pipe := pipe }, log := log } := by
  have hraise : pc.raising = false := by
    cases pc with
    | raisePoll | raiseWrite => exact Bool.noConfusion hwatch
    | _ => rfl
  refine ⟨h.wf, h.thr, ?_, fun i hi => ?_, fun i hr => ?_, fun found hf => ?_⟩
  · show ((s.goto owner pc).pc owner).watches = true
    rwa [goto_pc_self]
  · show ((s.goto owner pc).pc i).schedules = true
    rw [goto_pc_of_ne _ _ hi]
    exact h.others i hi
  · replace hr : ((s.goto owner pc).pc i).raising = true := hr
    by_cases hi : i = owner
    · rw [hi, goto_pc_self, hraise] at hr
      exact Bool.noConfusion hr
    · rw [goto_pc_of_ne _ _ hi] at hr
      exact h.locked i hr
  · replace hf : found ∈ ((s.goto owner pc).pc owner).found := hf
    rw [goto_pc_self] at hf
    refine (htold found hf).imp_right (Or.imp ?_ fun hdone => ?_)
    · rintro ⟨i, hi, hr⟩
      refine ⟨i, ?_⟩
      show ((s.goto owner pc).pc i).raising = true
      rwa [goto_pc_of_ne _ _ hi]
    · show ((s.goto owner pc).pc owner).drains = false ∧ pipe ≠ []
      rwa [goto_pc_self]

/-- A step of the owner. -/
theorem WakeInv.access_owner (h : WakeInv owner s) {now : Timespec} {alloc : Option (ℕ → ι)}
    (hstep : s.access owner now alloc = some s') : WakeInv owner s' := by
  have hwatch := h.watch
  -- whoever raises the signal is not the owner, and the drain is not over
  have htold : ∀ found ∈ (s.pc owner).found, (s.pc owner).drains = true →
      s.tq.front = found ∨ ∃ i, i ≠ owner ∧ (s.pc i).raising = true := by
    intro found hf hdrain
    rcases h.told found hf with hfront | ⟨i, hr⟩ | ⟨hnot, -⟩
    · exact Or.inl hfront
    · refine Or.inr ⟨i, fun hi => ?_, hr⟩
      rw [hi] at hr
      cases hpc : s.pc owner with
      | raisePoll | raiseWrite => rw [hpc] at hwatch; exact Bool.noConfusion hwatch
      | _ => rw [hpc] at hr; exact Bool.noConfusion hr
    · rw [hdrain] at hnot
      exact Bool.noConfusion hnot
  have hmove := access_moves hstep
  generalize s.pc owner = pc at hwatch htold hmove
  cases hmove with
  | next =>
    refine h.ask _ rfl fun found hf => Or.inl ?_
    exact Option.some.inj hf
  | @drained found | @drain found =>
    refine h.ask _ rfl fun found' hf => ?_
    obtain rfl : found = found' := Option.some.inj hf
    exact (htold found rfl rfl).imp_right Or.inl
  | nextReturn => exact h.ask _ rfl fun _ hf => nomatch hf
  | _ => exact Bool.noConfusion hwatch

/-- A step of the system keeps the owner informed. -/
theorem wakeInv_step (h : WakeInv owner s) {e : TimerEvent ι θ} (he : Watching owner e)
    (hsafe : WakeSafe owner s e) (hstep : s.step e = some s') : WakeInv owner s' := by
  cases e with
  | callAdd i t | callMod i t expires | callDel i t =>
    obtain ⟨hidle, hstep⟩ := Option.ite_none_right_eq_some.mp hstep
    obtain rfl := Option.some.inj hstep
    exact h.still he _ (by rw [hidle]; rfl) h.wf rfl (fun _ => rfl) rfl rfl rfl rfl rfl
  | callNext i =>
    obtain rfl : i = owner := he
    obtain ⟨hidle, hstep⟩ := Option.ite_none_right_eq_some.mp hstep
    obtain rfl := Option.some.inj hstep
    exact h.ask _ rfl fun _ hf => nomatch hf
  | callHandle i => exact absurd he not_false
  | access i now alloc =>
    by_cases hi : i = owner
    · subst hi
      exact h.access_owner hstep
    · exact h.access_other hi hsafe hstep

/-- **No lost wake-up, in a run that loses no signal.** The owner calls
`timer_next_timeout`, any number of other threads add, reschedule and delete
timers. When the owner returns, the front of the queue is the one its result was
computed from, or the signal is raised. -/
theorem timer_wake_run (hw : s.tq.queue.WF) (hidle : ∀ i, s.pc i = .idle)
    (es : List (TimerEvent ι θ)) (hwatch : ∀ e ∈ es, Watching s.tq.thr e)
    (hsafe : Meets step (WakeSafe s.tq.thr) s es) (hrun : run step s es = some s')
    (found : Option (ι × Timespec)) (clock now : Timespec) (alloc : Option (ℕ → ι))
    (hreturn : s'.pc s.tq.thr = .nextReturn found clock)
    (hlast : WakeSafe s.tq.thr s' (.access s.tq.thr now alloc)) :
    ∃ s'', s'.step (.access s.tq.thr now alloc) = some s''
      ∧ s''.log = .returned (TimerQueue.nextTimeout clock found) :: s'.log
      ∧ (s''.tq.front = found ∨ s''.tq.pipe ≠ []) := by
  have h0 : WakeInv s.tq.thr s :=
    ⟨hw, rfl, by rw [hidle]; rfl, fun i _ => by rw [hidle]; rfl,
      fun i hr => by rw [hidle] at hr; exact Bool.noConfusion hr,
      fun found hf => by rw [hidle] at hf; exact nomatch hf⟩
  have h : WakeInv s.tq.thr s' :=
    Run.inv_of_meets (fun _ _ _ hs hc hstep => wakeInv_step hs hc.1 hc.2 hstep) h0
      (Run.meets_and hwatch hsafe) hrun
  have hstep : s'.step (.access s.tq.thr now alloc) = some { s'.goto s.tq.thr .idle with
      log := .returned (TimerQueue.nextTimeout clock found) :: s'.log } := by
    show s'.access s.tq.thr now alloc = _
    unfold access
    rw [hreturn]
  refine ⟨_, hstep, rfl, ?_⟩
  rcases h.told found (by rw [hreturn]; rfl) with hfront | ⟨i, hr⟩ | ⟨-, hpipe⟩
  · exact Or.inl hfront
  · rw [h.not_raising (hlast.free (by rw [hreturn]; rfl)) i] at hr
    exact Bool.noConfusion hr
  · exact Or.inr hpipe

/-- A new queue of the thread `false`, with no call in progress. -/
def wakeStart : TimerSys ℕ Bool := ⟨TimerQueue.natQueue false, none, fun _ => .idle, []⟩

/-- The next step of a thread. -/
def wakeGo (i : Bool) : TimerEvent ℕ Bool := .access i ⟨1, 0⟩ none

/-- A timer is added after the owner has cleared the signal, and before it
returns. -/
def wakeLate : List (TimerEvent ℕ Bool) :=
  [.callNext false, wakeGo false, wakeGo false, .callAdd true 1, wakeGo true, wakeGo true,
    wakeGo true, wakeGo true, wakeGo true, wakeGo true]

/-- The owner is woken for a timer that comes late. -/
theorem timer_wake_run_late :
    ∃ s s', run step wakeStart wakeLate = some s ∧ s.step (wakeGo false) = some s'
      ∧ (s'.tq.front = none ∨ s'.tq.pipe ≠ []) := by
  obtain ⟨s', hstep, -, htold⟩ := timer_wake_run (s := wakeStart)
    ⟨by decide, rfl, by decide, by decide⟩ (fun _ => rfl) wakeLate (by decide)
    (by decide +kernel) rfl none ⟨1, 0⟩ ⟨1, 0⟩ none rfl (by decide +kernel)
  exact ⟨_, s', rfl, hstep, htold⟩

/-- A timer is added after the owner has found the queue empty, and before it
clears the signal. -/
def wakeEarly : List (TimerEvent ℕ Bool) :=
  [.callNext false, wakeGo false, .callAdd true 1, wakeGo true, wakeGo true, wakeGo true,
    wakeGo true, wakeGo true, wakeGo true, wakeGo false, wakeGo false, wakeGo false]

/-- **A timer the owner is not told about**: the owner clears the signal that was
raised for it, and returns that the queue is empty. -/
theorem timer_wake_lost :
    (∀ e ∈ wakeEarly, Watching wakeStart.tq.thr e)
      ∧ ∃ s, run step wakeStart wakeEarly = some s
        ∧ s.log = [.returned (TimerQueue.nextTimeout ⟨1, 0⟩ (none : Option (ℕ × Timespec))),
          .inserted 1]
        ∧ s.pc true = .idle ∧ s.tq.front ≠ none ∧ s.tq.pipe = [] :=
  ⟨by decide, _, rfl, by decide, by decide, by decide, by decide⟩

end TimerSys
