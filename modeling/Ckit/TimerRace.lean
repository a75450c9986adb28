import Ckit.TimerSet
import Ckit.TimerThreads

/-!
# Rescheduling a timer while timers fire

A thread reschedules a timer `t` that is in the queue while the owner of the
queue takes timers out and calls their callbacks. `timer_mod` works in three
stages, each locked on its own: it asks whether `t` is scheduled, deletes it, and
inserts it again; the owner may come between any two.

The call goes through three phases (`InPhase`): `t` is as it was found, `t` is out
of the queue, `t` has been inserted again. In each the queue stores a set of
timers that has lost, of those it had, only the ones that fired. The step from
the first phase to the second is the deletion, and it goes by the position
written in `t`: where the owner has taken `t` out in the meantime, that position
is `0`, and the deletion drops the timer at the front (`timer_mod_race_broken`).
-/

/-- How far the rescheduling of a timer has come. -/
inductive ModPhase where
  | before
  | between
  | after

/-- What the thread that calls `timer_mod(tq, t, expires)` does in each phase. -/
inductive InPhase {ι : Type} (t : ι) (expires : ℕ) : ModPhase → TimerPc ι → Prop where
  | test : InPhase t expires .before (.modTest t expires)
  | index : InPhase t expires .before (.modIndex t expires)
  | del {b : Bool} : InPhase t expires .before (.del t (.modExpires t expires b))
  | delPoll {b : Bool} : InPhase t expires .between (.raisePoll (.modExpires t expires b))
  | delWrite {b : Bool} : InPhase t expires .between (.raiseWrite (.modExpires t expires b))
  | expires {b : Bool} : InPhase t expires .between (.modExpires t expires b)
  | timeout {b : Bool} : InPhase t expires .between (.modTimeout t b)
  | insert {b : Bool} : InPhase t expires .between (.modInsert t b)
  | insertPoll : InPhase t expires .after (.raisePoll .idle)
  | insertWrite : InPhase t expires .after (.raiseWrite .idle)
  | done : InPhase t expires .after .idle

namespace TimerSys

variable {ι θ : Type}

/-- The steps of the race: thread `w` goes on with its call, and the owner calls
`timer_handle_timeout` as often as it likes. -/
def Racing (w owner : θ) : TimerEvent ι θ → Prop
  | .callHandle i => i = owner
  | .access i _ _ => i = w ∨ i = owner
  | _ => False

instance [DecidableEq θ] (w owner : θ) :
    ∀ e : TimerEvent ι θ, Decidable (Racing w owner e)
  | .callHandle _ => inferInstanceAs (Decidable (_ = _))
  | .access _ _ _ => inferInstanceAs (Decidable (_ ∨ _))
  | .callAdd _ _ | .callMod _ _ _ | .callDel _ _ | .callNext _ => .isFalse not_false

/-- **The deletions go where they should.** -/
def DelSafe (s : TimerSys ι θ) : TimerEvent ι θ → Prop
  | .access i _ _ => ∀ t ∈ (s.pc i).deletes, s.tq.DelFinds t
  | _ => True

instance [DecidableEq ι] (s : TimerSys ι θ) : ∀ e, Decidable (DelSafe s e)
  | .access i _ _ => inferInstanceAs (Decidable (∀ t ∈ (s.pc i).deletes, s.tq.DelFinds t))
  | .callAdd _ _ | .callMod _ _ _ | .callDel _ _ | .callNext _ | .callHandle _ =>
    .isTrue trivial

/-- There is room for one more timer. -/
def Roomy (s : TimerSys ι θ) : Prop :=
  s.tq.queue.size < s.tq.queue.maxSize ∧ s.tq.queue.size + 1 < 2 ^ 31

/-- What a phase says of the timer `t`, where the queue stores `S`. Before `t` is
inserted again there is room for it, and afterwards it is there or has fired. -/
def PhaseInv (t : ι) (s : TimerSys ι θ) (S : Finset ι) : ModPhase → Prop
  | .before => t ∈ S ∨ s.Roomy
  | .between => t ∉ S ∧ s.Roomy
  | .after => ∃ l₁ l₂, s.log = l₁ ++ .inserted t :: l₂ ∧ (t ∈ S ∨ .fired t ∈ l₁)

/-- What the race keeps, where the queue stored `S₀` when it began. -/
structure RaceInv (S₀ : Finset ι) (w : θ) (t : ι) (expires : ℕ) (s : TimerSys ι θ)
    (S : Finset ι) (ph : ModPhase) : Prop where
  wf : s.tq.queue.WF
  fits : s.tq.queue.size < 2 ^ 31
  stores : s.tq.queue.Stores S
  others : ∀ i, i ≠ w → s.pc i = .idle ∨ s.pc i = .handle
  phase : InPhase t expires ph (s.pc w)
  kept : ∀ p ∈ S₀, p ≠ t → p ∈ S ∨ .fired p ∈ s.log
  timer : PhaseInv t s S ph

variable [DecidableEq ι] [DecidableEq θ] {S₀ S : Finset ι} {w : θ} {t : ι} {expires : ℕ}
  {s s' : TimerSys ι θ} {ph : ModPhase}

omit [DecidableEq ι] in
/-- A step of `w` to `pc` that leaves the heap alone, up to what is not in the
`heapitem`s. -/
theorem RaceInv.advance {ph' : ModPhase} {pc : TimerPc ι} (h : RaceInv S₀ w t expires s S ph)
    (htimer : PhaseInv t s S ph') {obj : ι → Timer}
    (hqueue : s'.tq.queue = { s.tq.queue with obj := obj }) (hlog : s'.log = s.log)
    (hpc : s'.pc = Function.update s.pc w pc) (hph : InPhase t expires ph' pc) :
    RaceInv S₀ w t expires s' S ph' := by
  have hothers : ∀ i, i ≠ w → s'.pc i = .idle ∨ s'.pc i = .handle := by
    intro i hi
    rw [hpc, Function.update_of_ne hi]
    exact h.others i hi
  have hphase : InPhase t expires ph' (s'.pc w) := by
    rw [hpc, Function.update_self]
    exact hph
  refine ⟨?_, ?_, ?_, hothers, hphase, ?_, ?_⟩
  · rw [hqueue]
    exact Heap.wf_obj h.wf
  · rw [hqueue]
    exact h.fits
  · rw [hqueue]
    exact Heap.stores_obj.mpr h.stores
  · rw [hlog]
    exact h.kept
  · unfold PhaseInv Roomy at htimer ⊢
    rw [hqueue, hlog]
    exact htimer

omit [DecidableEq θ] in
/-- The owner takes out the timer at the front. -/
theorem RaceInv.fire (h : RaceInv S₀ w t expires s S ph) {queue : Heap ι Timer}
    (hrem : Heap.Removed s.tq.queue 0 queue) (hqueue : s'.tq.queue = queue)
    (hlog : s'.log = .fired (s.tq.queue.map 0) :: s.log) (hpcw : s'.pc w = s.pc w)
    (hpc : ∀ i, i ≠ w → s'.pc i = .idle ∨ s'.pc i = .handle) :
    RaceInv S₀ w t expires s' (S.erase (s.tq.queue.map 0)) ph := by
  subst hqueue
  have hsize := hrem.size
  have hle := h.wf.size_le
  have hfits := h.fits
  have hkeep : ∀ p, p ∈ S → p ∈ S.erase (s.tq.queue.map 0) ∨ p = s.tq.queue.map 0 := by
    intro p hp
    by_cases heq : p = s.tq.queue.map 0
    · exact Or.inr heq
    · exact Or.inl (Finset.mem_erase.mpr ⟨heq, hp⟩)
  refine ⟨hrem.wf, by omega, h.stores.remove hrem, hpc, hpcw ▸ h.phase, fun p hp hpt => ?_, ?_⟩
  · rw [hlog]
    rcases h.kept p hp hpt with hmem | hfired
    · refine (hkeep p hmem).imp_right fun heq => ?_
      rw [heq]
      exact List.mem_cons_self
    · exact Or.inr (List.mem_cons_of_mem _ hfired)
  · have htimer := h.timer
    have hroom : s'.Roomy := by
      unfold Roomy
      rw [hrem.maxSize]
      omega
    cases ph with
    | before => exact Or.inr hroom
    | between => exact ⟨fun hmem => htimer.1 (Finset.mem_of_mem_erase hmem), hroom⟩
    | after =>
      obtain ⟨l₁, l₂, hl, hor⟩ := htimer
      refine ⟨.fired (s.tq.queue.map 0) :: l₁, l₂, by rw [hlog, hl]; rfl, ?_⟩
      rcases hor with hmem | hfired
      · refine (hkeep t hmem).imp_right fun heq => ?_
        rw [heq]
        exact List.mem_cons_self
      · exact Or.inr (List.mem_cons_of_mem _ hfired)

omit [DecidableEq θ] in
/-- **The deletion of `timer_mod`**, where it goes where it should. -/
theorem RaceInv.delete (h : RaceInv S₀ w t expires s S .before) {queue : Heap ι Timer}
    (hdel : TimerQueue.DelOutcome s.tq.queue t queue)
    (hsafe : s.tq.DelFinds t) (hqueue : s'.tq.queue = queue) (hlog : s'.log = s.log)
    (hpc : ∀ i, i ≠ w → s'.pc i = s.pc i) (hph : InPhase t expires .between (s'.pc w)) :
    RaceInv S₀ w t expires s' (S.erase t) .between := by
  subst hqueue
  have hle := hdel.size_le
  have hfits := h.fits
  have hkept : ∀ p ∈ S₀, p ≠ t → p ∈ S.erase t ∨ .fired p ∈ s'.log := by
    intro p hp hpt
    rw [hlog]
    exact (h.kept p hp hpt).imp_left fun hmem => Finset.mem_erase.mpr ⟨hpt, hmem⟩
  have hstores := (TimerQueue.timerDel_stores_iff h.stores hdel).mpr hsafe
  refine ⟨hdel.wf h.wf, by omega, hstores, fun i hi => hpc i hi ▸ h.others i hi, hph, hkept,
    Finset.notMem_erase t S, ?_⟩
  obtain ⟨hge, heq⟩ | ⟨hlt, hrem⟩ := hdel
  · -- nothing was deleted: the timer had fired before, and left room
    have hnot : t ∉ S := fun hmem => by
      rw [TimerQueue.DelFinds, if_pos ((TimerQueue.scheduled_iff h.stores t).mpr hmem)] at hsafe
      exact absurd hsafe.1 (by omega)
    unfold Roomy
    rw [heq]
    exact h.timer.resolve_left hnot
  · have hsize := hrem.size
    have hmax := h.wf.size_le
    unfold Roomy
    rw [hrem.maxSize]
    omega

omit [DecidableEq θ] in
/-- **The insertion of `timer_mod`**, for which there is room. -/
theorem RaceInv.insert (h : RaceInv S₀ w t expires s S .between) {queue : Heap ι Timer}
    (hin : Heap.Inserted s.tq.queue t queue) (hqueue : s'.tq.queue = queue)
    (hlog : s'.log = .inserted t :: s.log) (hpc : ∀ i, i ≠ w → s'.pc i = s.pc i)
    (hph : InPhase t expires .after (s'.pc w)) :
    RaceInv S₀ w t expires s' (insert t S) .after := by
  subst hqueue
  refine ⟨hin.wf, ?_, h.stores.insert hin h.timer.1, fun i hi => hpc i hi ▸ h.others i hi, hph,
    fun p hp hpt => ?_, [], s.log, hlog, Or.inl (Finset.mem_insert_self t S)⟩
  · have hsize := hin.size
    have hroom := h.timer.2.2
    omega
  · rw [hlog]
    exact (h.kept p hp hpt).imp Finset.mem_insert_of_mem (List.mem_cons_of_mem _)

/-- A step of the thread that reschedules. -/
theorem RaceInv.access_mod (h : RaceInv S₀ w t expires s S ph) {now : Timespec}
    {alloc : Option (ℕ → ι)} (hsafe : DelSafe s (.access w now alloc))
    (hstep : s.access w now alloc = some s') :
    ∃ S' ph', RaceInv S₀ w t expires s' S' ph' := by
  have hph := h.phase
  have hmove := access_moves hstep
  have hdels : ∀ t' ∈ (s.pc w).deletes, s.tq.DelFinds t' := hsafe
  generalize s.pc w = pc at hph hdels hmove
  cases hph with
  | test =>
    cases hmove with
    | modScheduled => exact ⟨S, .before, h.advance h.timer rfl rfl rfl .index⟩
    | modNew hsched =>
      have hnot : t ∉ S := fun hmem => hsched ((TimerQueue.scheduled_iff h.stores t).mpr hmem)
      exact ⟨S, .between, h.advance ⟨hnot, h.timer.resolve_left hnot⟩ rfl rfl rfl .timeout⟩
  | index =>
    cases hmove
    exact ⟨S, .before, h.advance h.timer rfl rfl rfl .del⟩
  | del =>
    cases hmove with
    | del _ hr =>
      obtain ⟨queue, hdel, hrun⟩ := TimerQueue.delSection_cases h.wf h.fits w t
      obtain rfl := Option.some.inj (hrun.symm.trans hr)
      refine ⟨_, _, h.delete hdel (hdels t rfl) (by rw [finish_tq]) (by rw [finish_log])
        (fun i hi => by rw [finish_pc_of_ne _ _ _ hi]) ?_⟩
      rw [finish_pc_self]
      split
      · exact .delPoll
      · exact .expires
  | delPoll =>
    cases hmove with
    | raiseSeen => exact ⟨S, _, h.advance h.timer rfl rfl rfl .expires⟩
    | raisePoll => exact ⟨S, _, h.advance h.timer rfl rfl rfl .delWrite⟩
  | delWrite =>
    cases hmove
    exact ⟨S, _, h.advance h.timer rfl rfl rfl .expires⟩
  | expires =>
    cases hmove
    exact ⟨S, _, h.advance h.timer rfl rfl rfl .timeout⟩
  | timeout =>
    cases hmove
    exact ⟨S, _, h.advance h.timer rfl rfl rfl .insert⟩
  | @insert b =>
    cases hmove with
    | modInsert _ hr =>
      rcases TimerQueue.insertSection_cases h.wf (Heap.grows_of_lt h.fits alloc) w t b with
        ⟨hfull, -, -⟩ | ⟨queue, hin, hrun⟩
      · have hroom := h.timer.2.1
        exact absurd (of_decide_eq_true hfull) (by omega)
      · obtain rfl := Option.some.inj (hrun.symm.trans hr)
        refine ⟨_, _, h.insert hin (by rw [finish_tq]) (by rw [finish_log]; rfl)
          (fun i hi => by rw [finish_pc_of_ne _ _ _ hi]) ?_⟩
        rw [finish_pc_self]
        split
        · exact .insertPoll
        · exact .done
  | insertPoll =>
    cases hmove with
    | raiseSeen => exact ⟨S, _, h.advance h.timer rfl rfl rfl .done⟩
    | raisePoll => exact ⟨S, _, h.advance h.timer rfl rfl rfl .insertWrite⟩
  | insertWrite =>
    cases hmove
    exact ⟨S, _, h.advance h.timer rfl rfl rfl .done⟩
  | done => exact nomatch hmove

/-- The locked part of the owner's `timer_handle_timeout`. -/
theorem RaceInv.access_handle (h : RaceInv S₀ w t expires s S ph) {i : θ} (hiw : i ≠ w)
    (hpc : s.pc i = .handle) {now : Timespec} {alloc : Option (ℕ → ι)}
    (hstep : s.access i now alloc = some s') : ∃ S' ph', RaceInv S₀ w t expires s' S' ph' := by
  have hothers : ∀ (u : TimerSys ι θ), u.pc = s.pc → ∀ j, j ≠ w →
      (u.goto i .idle).pc j = .idle ∨ (u.goto i .idle).pc j = .handle := by
    intro u hu j hj
    by_cases hji : j = i
    · rw [hji, goto_pc_self]
      exact Or.inl rfl
    · rw [goto_pc_of_ne _ _ hji, hu]
      exact h.others j hj
  have hself : (s.goto i .idle).pc w = s.pc w := goto_pc_of_ne _ _ hiw.symm
  have hmove := access_moves hstep
  rw [hpc] at hmove
  cases hmove with
  | handle _ hr =>
    rcases TimerQueue.timerHandleTimeout_cases h.wf h.fits with
      ⟨-, hrun⟩ | ⟨-, queue, hrem, hrun⟩
    · obtain rfl := Option.some.inj (hrun.symm.trans hr)
      exact ⟨S, ph, h.wf, h.fits, h.stores, hothers s rfl, hself ▸ h.phase, h.kept, h.timer⟩
    · obtain rfl := Option.some.inj (hrun.symm.trans hr)
      exact ⟨_, ph, h.fire hrem rfl rfl hself (hothers s rfl)⟩

/-- A step of the race keeps its invariant. -/
theorem raceInv_step {owner : θ} (howner : owner ≠ w) (h : RaceInv S₀ w t expires s S ph)
    {e : TimerEvent ι θ} (he : Racing w owner e) (hsafe : DelSafe s e)
    (hstep : s.step e = some s') : ∃ S' ph', RaceInv S₀ w t expires s' S' ph' := by
  cases e with
  | callHandle i =>
    obtain rfl : i = owner := he
    obtain ⟨hidle, hstep⟩ := Option.ite_none_right_eq_some.mp hstep
    obtain rfl := Option.some.inj hstep
    refine ⟨S, ph, h.wf, h.fits, h.stores, fun j hj => ?_, ?_, h.kept, h.timer⟩
    · by_cases hji : j = i
      · rw [hji, goto_pc_self]
        exact Or.inr rfl
      · rw [goto_pc_of_ne _ _ hji]
        exact h.others j hj
    · rw [goto_pc_of_ne _ _ howner.symm]
      exact h.phase
  | access i now alloc =>
    by_cases hiw : i = w
    · subst hiw
      exact h.access_mod hsafe hstep
    · have haccess : s.access i now alloc = some s' := hstep
      rcases h.others i hiw with hpc | hpc
      · exact nomatch hpc ▸ access_moves haccess
      · exact h.access_handle hiw hpc haccess
  | callAdd | callMod | callDel | callNext => exact absurd he not_false

/-- **Rescheduling races safely with firing**, where the deletion goes where it
should. A thread `w` that is not the owner has called `timer_mod` on a timer `t`
of the queue, and the owner calls `timer_handle_timeout`, interleaved in any way.
When the call of `w` is over, every timer that was in the queue, other than `t`
and those that have fired, still is, and `t` is in it once or has fired after it
was inserted again. -/
theorem timer_mod_race (w : θ) (t : ι) (expires : ℕ) (howner : s.tq.thr ≠ w)
    (hw : s.tq.queue.WF) (hfits : s.tq.queue.size < 2 ^ 31) (hstores : s.tq.queue.Stores S₀)
    (ht : t ∈ S₀) (hcall : s.pc w = .modTest t expires) (hidle : ∀ i, i ≠ w → s.pc i = .idle)
    (es : List (TimerEvent ι θ)) (hrace : ∀ e ∈ es, Racing w s.tq.thr e)
    (hsafe : Meets step DelSafe s es) (hrun : run step s es = some s')
    (hdone : s'.pc w = .idle) :
    (∀ p ∈ S₀, p ≠ t → .fired p ∉ s'.log → p ∈ s'.tq.queue.entries)
      ∧ (s'.tq.queue.entries.count t = 1
        ∨ ∃ l₁ l₂, s'.log = l₁ ++ .inserted t :: l₂ ∧ .fired t ∈ l₁) := by
  have hinv : ∃ S ph, RaceInv S₀ w t expires s' S ph := by
    have h0 : ∃ S ph, RaceInv S₀ w t expires s S ph :=
      ⟨S₀, .before, hw, hfits, hstores, fun i hi => Or.inl (hidle i hi), hcall ▸ .test,
        fun p hp _ => Or.inl hp, Or.inl ht⟩
    have hkeep : ∀ u e u', (∃ S ph, RaceInv S₀ w t expires u S ph) →
        Racing w s.tq.thr e ∧ DelSafe u e → step u e = some u' →
        ∃ S ph, RaceInv S₀ w t expires u' S ph := by
      rintro u e u' ⟨S, ph, h⟩ hc hstep
      exact raceInv_step howner h hc.1 hc.2 hstep
    exact Run.inv_of_meets hkeep h0 (Run.meets_and hrace hsafe) hrun
  obtain ⟨S, ph, h⟩ := hinv
  refine ⟨fun p hp hpt hfired => (h.stores.mem p).mpr ((h.kept p hp hpt).resolve_right hfired), ?_⟩
  obtain ⟨l₁, l₂, hlog, hor⟩ : PhaseInv t s' S .after := by
    have hph := h.phase
    rw [hdone] at hph
    cases hph
    exact h.timer
  rcases hor with hmem | hfired
  · exact Or.inl (List.count_eq_one_of_mem h.stores.nodup ((h.stores.mem t).mpr hmem))
  · exact Or.inr ⟨l₁, l₂, hlog, hfired⟩

/-- The owner `false` adds the timers `1` and `2` to a new queue. -/
def raceQueue : Option (TimerQueue ℕ Bool) := do
  let (_, tq) ← (TimerQueue.natQueue false).timerAdd false 1 ⟨1, 0⟩ (some fun _ => 0)
  let (_, tq) ← tq.timerAdd false 2 ⟨2, 0⟩ (some fun _ => 0)
  return tq

theorem raceQueue_stores : ∃ tq, raceQueue = some tq ∧ tq.queue.WF
    ∧ tq.queue.Stores (insert 2 (insert 1 ∅)) := by
  have hw : (TimerQueue.natQueue false).queue.WF := ⟨by decide, rfl, by decide, by decide⟩
  have hs : (TimerQueue.natQueue false).queue.Stores ∅ := Heap.stores_empty rfl fun _ => rfl
  obtain ⟨tq₁, hrun₁, hw₁, hs₁⟩ := TimerQueue.timerAdd_stores hw (by decide) hs
    (Finset.notMem_empty 1) false ⟨1, 0⟩ fun _ => 0
  have hsize : tq₁.queue.size = 1 :=
    (Option.some.inj (congrArg (Option.map fun r => r.2.queue.size) hrun₁)).symm
  obtain ⟨tq₂, hrun₂, hw₂, hs₂⟩ := TimerQueue.timerAdd_stores (t := 2) hw₁ (by rw [hsize]; decide)
    hs₁ (by decide) false ⟨2, 0⟩ fun _ => 0
  refine ⟨tq₂, ?_, hw₂, hs₂⟩
  unfold raceQueue
  rw [hrun₁]
  simp only [Option.bind_eq_bind, Option.bind_some]
  rw [hrun₂]
  rfl

/-- The thread `true` has called `timer_mod` on the timer at the front. -/
def raceStart : TimerSys ℕ Bool :=
  ⟨raceQueue.get rfl, none, fun i => if i then .modTest 2 9 else .idle, []⟩

theorem raceStart_stores : raceStart.tq.queue.WF
    ∧ raceStart.tq.queue.Stores (insert 2 (insert 1 ∅)) := by
  obtain ⟨tq, hrun, hw, hs⟩ := raceQueue_stores
  have heq : raceStart.tq = tq := Option.some.inj ((Option.some_get rfl).trans hrun)
  rw [heq]
  exact ⟨hw, hs⟩

/-- The next step of a thread. -/
def raceGo (i : Bool) : TimerEvent ℕ Bool := .access i ⟨3, 0⟩ none

/-- The owner calls back timer `1` while timer `2` is being rescheduled. -/
def raceFire : List (TimerEvent ℕ Bool) :=
  [raceGo true, raceGo true, raceGo true, raceGo true, raceGo true, .callHandle false,
    raceGo false, raceGo true, raceGo true, raceGo true, raceGo true]

/-- Timer `2` is rescheduled while timer `1` fires. -/
theorem timer_mod_race_fire :
    ∃ s, run step raceStart raceFire = some s ∧ (s.tq.queue.entries.count 2 = 1
      ∨ ∃ l₁ l₂, s.log = l₁ ++ .inserted 2 :: l₂ ∧ .fired 2 ∈ l₁) := by
  refine ⟨_, rfl, (timer_mod_race true 2 9 (by decide) raceStart_stores.1 (by decide)
    raceStart_stores.2 (by decide) rfl (by decide) raceFire (by decide) (by decide +kernel) rfl
    rfl).2⟩

/-- The owner calls back timer `2` between the test and the deletion. -/
def raceLose : List (TimerEvent ℕ Bool) :=
  [raceGo true, raceGo true, .callHandle false, raceGo false, raceGo true, raceGo true,
    raceGo true, raceGo true, raceGo true, raceGo true, raceGo true]

/-- **A rescheduling that drops another timer**: the position written in timer `2`
is `0` once the owner has taken it out, and the deletion takes out timer `1`. -/
theorem timer_mod_race_broken :
    raceStart.tq.queue.Stores (insert 2 (insert 1 ∅))
      ∧ (∀ e ∈ raceLose, Racing true raceStart.tq.thr e)
      ∧ ∃ s, run step raceStart raceLose = some s ∧ s.pc true = .idle ∧ .fired 1 ∉ s.log
        ∧ 1 ∉ s.tq.queue.entries :=
  ⟨raceStart_stores.2, by decide, _, rfl, rfl, by decide, by decide⟩

end TimerSys
