import Ckit.TimerSystem

/-!
# The life of timer queues

Calls on any number of timer queues can be under way at the same time, and interleave at
each call of the system with one another and with the rest of the process.

`timer_queue_init` goes on when `signal_init` fails, and returns the failure; but it has
got the slots by then, and a failure to get them it does not return. This leaves its
caller with two states it cannot deal with. After a failure `timer_queue_fini` would give
back the slots, and close descriptors the queue does not have: descriptor 0, twice, where
the record is as `memset` left it, and whatever has got the two numbers in the meantime
where `signal_init` has closed them itself. So the slots stay. And after a success there
may be no slots for `heap_insert` to write to.

`timer_queue_resources` says that this is all: the calls of a queue touch nothing but
what the queue has exactly where each is made on a queue that allows it
(`QueueLife.Allows`).
-/

/-! ## Calls on a queue -/

/-- What a caller knows of a queue. -/
inductive QueueStatus where
  /-- `timer_queue_init` has not been called. -/
  | fresh
  /-- `timer_queue_init` has returned 0. -/
  | ready
  /-- `timer_queue_init` has returned -1. -/
  | failed
  /-- `timer_queue_fini` has returned. -/
  | finished
deriving DecidableEq

/-- A queue, with the blocks that were left behind when it was initialised again after a failure. -/
structure QueueLife (β : Type) where
  status : QueueStatus
  tq : TimerQueueRec β
  lost : List β
deriving DecidableEq

/-- The calls on a queue: what `timer_add`, `timer_mod`, `timer_del` and the others do of this is in
`heap_insert`, `heap_remove`, `timer_queue_signal_raise` and `timer_queue_signal_lower`. -/
inductive LifeCall where
  | init
  | fini
  | insert
  | remove (index : ℕ)
  | raise
  | lower (reads : ℕ)
deriving DecidableEq

namespace QueueLife

variable {β : Type}

/-- What `timer_queue_init` leaves behind of a queue. -/
def leftBehind (q : QueueLife β) : List β :=
  match q.status with
  | .failed => q.tq.queue.map.toList ++ q.lost
  | _ => q.lost

/-- **The call**, and what becomes of the queue. -/
def body (c : LifeCall) (q : QueueLife β) : OsProg β (QueueLife β) :=
  match c with
  | .init => (fun r => ⟨if r.1 = 0 then .ready else .failed, r.2, q.leftBehind⟩)
      <$> TimerQueueRec.timerQueueInit
  | .fini => (fun tq => ⟨.finished, tq, q.lost⟩) <$> q.tq.timerQueueFini
  | .insert => (fun r => { q with tq.queue := r.2 }) <$> q.tq.queue.heapInsert
  | .remove index => (fun h => { q with tq.queue := h }) <$> q.tq.queue.heapRemove index
  | .raise => (fun _ => q) <$> q.tq.signal.signalRaise
  | .lower reads => (fun _ => q) <$> q.tq.signal.signalClearVal reads

/-- **When a queue allows a call**: `timer_queue_fini` and the calls on the signal when the last
`timer_queue_init` has returned 0 and `timer_queue_fini` has not been called since, and an insertion
when there are slots. -/
def Allows (c : LifeCall) (q : QueueLife β) : Prop :=
  match c with
  | .init | .remove _ => True
  | .fini | .raise | .lower _ => q.status = .ready
  | .insert => (q.status = .ready ∨ q.status = .failed) ∧ q.tq.queue.map ≠ none

/-- The calls are made on a queue that has been initialised, which is not done again while it is in
use, and `max_size` stays below 2^32. -/
def Pre (c : LifeCall) (q : QueueLife β) : Prop :=
  match c with
  | .init => q.status ≠ .ready
  | .insert => q.status ≠ .fresh ∧ q.tq.queue.maxSize + heapDefaultIncreaseSize < 2 ^ 32
  | _ => q.status ≠ .fresh

instance (c : LifeCall) (q : QueueLife β) : Decidable (Allows c q) :=
  match c with
  | .init | .remove _ => .isTrue trivial
  | .fini | .raise | .lower _ => inferInstanceAs (Decidable (_ = _))
  | .insert =>
    match h : q.tq.queue.map with
    | none => .isFalse fun ha => ha.2 h
    | some b => decidable_of_iff (q.status = .ready ∨ q.status = .failed)
        ⟨fun ha => ⟨ha, h ▸ Option.some_ne_none b⟩, And.left⟩

instance (c : LifeCall) (q : QueueLife β) : Decidable (Pre c q) :=
  match c with
  | .init | .fini | .remove _ | .raise | .lower _ => inferInstanceAs (Decidable (_ ≠ _))
  | .insert => inferInstanceAs (Decidable (_ ∧ _))

/-- **What the queue has**, by its record. -/
def owned (q : QueueLife β) : Set (OsResource β) :=
  match q.status with
  | .ready => q.tq.signal.ends ∪ q.tq.queue.slots
  | .failed => q.tq.queue.slots
  | .fresh | .finished => ∅

/-- What was left behind. -/
def losses (q : QueueLife β) : Set (OsResource β) := {r | ∃ b ∈ q.lost, r = .block (some b)}

/-- What holds of a queue in between the calls. -/
structure Inv (q : QueueLife β) : Prop where
  disjoint : Disjoint q.owned q.losses
  ends : q.status = .ready → q.tq.signal.fd0 ≠ q.tq.signal.fd1
  room : q.status ≠ .fresh → 0 < q.tq.queue.maxSize
  empty : q.status ≠ .fresh → q.tq.queue.map = none ∨ q.status = .finished → q.tq.queue.size = 0
  gone : q.status = .finished → Disjoint q.tq.queue.slots q.losses

variable {q : QueueLife β}

theorem fd_notMem (h : q.status ≠ .ready) (n : ℤ) : .fd n ∉ q.owned ∪ q.losses := by
  rintro (hown | ⟨b, -, hb⟩)
  · unfold owned at hown
    cases hst : q.status with
    | ready => exact h hst
    | failed =>
      rw [hst] at hown
      obtain ⟨b, -, hb⟩ := hown
      cases hb
    | fresh => exact absurd (hst ▸ hown) (Set.notMem_empty _)
    | finished => exact absurd (hst ▸ hown) (Set.notMem_empty _)
  · cases hb

theorem owned_ready (h : q.status = .ready) : q.owned = q.tq.signal.ends ∪ q.tq.queue.slots := by
  rw [owned, h]

theorem owned_failed (h : q.status = .failed) : q.owned = q.tq.queue.slots := by
  rw [owned, h]

/-- What is left behind at a new beginning is what the queue had. -/
theorem losses_leftBehind (h : q.status ≠ .ready) (st : QueueStatus) (tq : TimerQueueRec β) :
    losses ⟨st, tq, q.leftBehind⟩ = q.owned ∪ q.losses := by
  ext r
  unfold losses leftBehind owned
  cases hst : q.status with
  | ready => exact absurd hst h
  | failed =>
    simp only [Set.mem_ofPred_eq, List.mem_append, Option.mem_toList, Set.mem_union, HeapRec.slots]
    constructor
    · rintro ⟨b, hb | hb, rfl⟩
      · exact Or.inl ⟨b, hb, rfl⟩
      · exact Or.inr ⟨b, hb, rfl⟩
    · rintro (⟨b, hb, rfl⟩ | ⟨b, hb, rfl⟩)
      · exact ⟨b, Or.inl hb, rfl⟩
      · exact ⟨b, Or.inr hb, rfl⟩
  | fresh => simp
  | finished => simp

/-- Of a queue that has been initialised it is known where it may be. -/
theorem cases_status (h : q.status ≠ .fresh) :
    q.status = .ready ∨ q.status = .failed ∨ q.status = .finished := by
  cases hst : q.status with
  | fresh => exact absurd hst h
  | ready => exact Or.inl rfl
  | failed => exact Or.inr (Or.inl rfl)
  | finished => exact Or.inr (Or.inr rfl)

/-- What a call is to end with. -/
def Ends (q : QueueLife β) (R : Set (OsResource β)) : Prop := q.Inv ∧ R = q.owned ∪ q.losses

/-- **`timer_queue_init`**, of a queue that is not in use. -/
theorem uses_init (h : q.status ≠ .ready) :
    (body .init q).Uses (q.owned ∪ q.losses) Ends := by
  have hframe := (TimerQueueRec.uses_timerQueueInit (β := β)).frame
    (Set.empty_disjoint (q.owned ∪ q.losses))
  rw [Set.empty_union] at hframe
  refine ResProg.uses_map.mpr (hframe.mono ?_)
  rintro ⟨ret, tq⟩ R ⟨R₀, ⟨hsize, hmax, hret⟩, hdisj, rfl⟩
  have hlosses := losses_leftBehind h (if ret = 0 then .ready else .failed) tq
  rcases hret with ⟨rfl, hne, rfl⟩ | ⟨rfl, rfl⟩
  · rw [← hlosses] at hdisj ⊢
    exact ⟨⟨hdisj, fun _ => hne, fun _ => hmax, fun _ _ => hsize, fun hst => (by cases hst)⟩, rfl⟩
  · rw [← hlosses] at hdisj ⊢
    exact ⟨⟨hdisj, fun hst => (by cases hst), fun _ => hmax, fun _ _ => hsize,
      fun hst => (by cases hst)⟩, rfl⟩

/-- **`timer_queue_fini`**, of a queue that is in use. -/
theorem uses_fini (hq : q.Inv) (h : q.status = .ready) :
    (body .fini q).Uses (q.owned ∪ q.losses) Ends := by
  have hfresh : q.status ≠ .fresh := fun heq => by cases h.symm.trans heq
  have hfini := TimerQueueRec.uses_timerQueueFini (hq.ends h) fun hnone =>
    hq.empty hfresh (Or.inl hnone)
  rw [← owned_ready h] at hfini
  refine ResProg.uses_map.mpr ((hfini.frame hq.disjoint).mono ?_)
  rintro - R ⟨R₀, ⟨rfl, rfl⟩, hdisj, rfl⟩
  have hslots : Disjoint q.tq.queue.slots q.losses := by
    have hdisj := hq.disjoint
    rw [owned_ready h] at hdisj
    exact (Set.disjoint_union_left.mp hdisj).2
  exact ⟨⟨hdisj, fun hst => (by cases hst), fun _ => hq.room hfresh, fun _ _ => rfl,
    fun _ => hslots⟩, rfl⟩

/-- **A call on the heap** of a queue that has not been finished. -/
theorem uses_queue {α : Type} {p : OsProg β α} (f : α → HeapRec β) (hq : q.Inv)
    (h : q.status = .ready ∨ q.status = .failed)
    (hp : p.Uses q.tq.queue.slots fun a R =>
      ((f a).map = none → (f a).size = 0) ∧ 0 < (f a).maxSize ∧ R = (f a).slots) :
    ((fun a => { q with tq.queue := f a }) <$> p).Uses (q.owned ∪ q.losses) Ends := by
  have hdisj := hq.disjoint
  have hnot : q.status ≠ .finished := by
    rcases h with h | h <;> exact fun heq => (by cases h.symm.trans heq)
  refine ResProg.uses_map.mpr ?_
  rcases h with h | h
  · rw [owned_ready h] at hdisj ⊢
    obtain ⟨hends, hslots⟩ := Set.disjoint_union_left.mp hdisj
    have hset : ∀ S : Set (OsResource β),
        q.tq.signal.ends ∪ S ∪ q.losses = S ∪ (q.tq.signal.ends ∪ q.losses) := fun S => by
      rw [Set.union_comm q.tq.signal.ends S, Set.union_assoc]
    rw [hset]
    refine (hp.frame
      (Set.disjoint_union_right.mpr ⟨q.tq.disjoint_ends_slots.symm, hslots⟩)).mono ?_
    rintro a R ⟨R₀, ⟨hempty, hmax, rfl⟩, hdisj', rfl⟩
    have howned : owned { q with tq.queue := f a } = q.tq.signal.ends ∪ (f a).slots :=
      owned_ready h
    have hlosses : losses { q with tq.queue := f a } = q.losses := rfl
    refine ⟨⟨?_, fun _ => hq.ends h, fun _ => hmax, fun _ hor => hempty (hor.resolve_right hnot),
      fun heq => absurd heq hnot⟩, ?_⟩
    · rw [howned]
      exact Set.disjoint_union_left.mpr ⟨hends, (Set.disjoint_union_right.mp hdisj').2⟩
    · rw [howned, hlosses, hset]
  · rw [owned_failed h] at hdisj ⊢
    refine (hp.frame hdisj).mono ?_
    rintro a R ⟨R₀, ⟨hempty, hmax, rfl⟩, hdisj', rfl⟩
    have howned : owned { q with tq.queue := f a } = (f a).slots := owned_failed h
    refine ⟨⟨?_, fun heq => (by cases h.symm.trans heq), fun _ => hmax,
      fun _ hor => hempty (hor.resolve_right hnot), fun heq => absurd heq hnot⟩, ?_⟩
    · rw [howned]
      exact hdisj'
    · rw [howned]
      rfl

/-- **A call on the signal** of a queue that is in use. -/
theorem uses_signal {p : OsProg β Unit} (hq : q.Inv) (h : q.status = .ready)
    (hp : p.Uses q.tq.signal.ends fun _ R => R = q.tq.signal.ends) :
    ((fun _ => q) <$> p).Uses (q.owned ∪ q.losses) Ends := by
  have hdisj := hq.disjoint
  have howned := owned_ready h
  rw [howned] at hdisj
  have hframe := hp.frame (Set.disjoint_union_right.mpr
    ⟨q.tq.disjoint_ends_slots, (Set.disjoint_union_left.mp hdisj).1⟩)
  refine ResProg.uses_map.mpr ?_
  rw [howned, Set.union_assoc]
  refine hframe.mono ?_
  rintro - R ⟨R₀, rfl, -, rfl⟩
  refine ⟨hq, ?_⟩
  rw [howned, Set.union_assoc]

/-- **A call that the queue allows uses what the queue has.** -/
theorem uses_body {c : LifeCall} (hq : q.Inv) (hpre : Pre c q) (hallows : Allows c q) :
    (body c q).Uses (q.owned ∪ q.losses) Ends := by
  cases c with
  | init => exact uses_init hpre
  | fini => exact uses_fini hq hallows
  | insert =>
    obtain ⟨hst, hmap⟩ := hallows
    have hinsert := HeapRec.uses_heapInsert hmap (hq.room hpre.1) hpre.2
    refine uses_queue Prod.snd hq hst (hinsert.mono fun r R hgoes => ?_)
    exact ⟨fun hnone => absurd hnone hgoes.1, hgoes.2⟩
  | remove index =>
    have hremove := HeapRec.uses_heapRemove (fun hnone => hq.empty hpre (Or.inl hnone)) index
    have hkeep : (q.tq.queue.heapRemove index).Uses q.tq.queue.slots fun h' R =>
        (h'.map = none → h'.size = 0) ∧ 0 < h'.maxSize ∧ R = h'.slots := by
      refine hremove.mono fun h' R hend => ?_
      obtain ⟨hmap, hmax, hle, hR⟩ := hend
      refine ⟨fun hnone => ?_, hmax ▸ hq.room hpre, hR⟩
      exact Nat.le_zero.mp (hle.trans (hq.empty hpre (Or.inl (hmap ▸ hnone))).le)
    rcases cases_status hpre with h | h | h
    · exact uses_queue id hq (Or.inl h) hkeep
    · exact uses_queue id hq (Or.inr h) hkeep
    · -- nothing is in a queue that is finished
      have hbody : body (.remove index) q = .ret q := by
        have hle : q.tq.queue.size ≤ index :=
          (hq.empty hpre (Or.inr h)).le.trans (Nat.zero_le index)
        unfold body
        show (fun h => { q with tq.queue := h }) <$> q.tq.queue.heapRemove index = _
        rw [HeapRec.heapRemove, if_pos hle]
        rfl
      rw [hbody]
      exact ⟨hq, rfl⟩
  | raise => exact uses_signal hq hallows q.tq.signal.uses_signalRaise
  | lower reads => exact uses_signal hq hallows (q.tq.signal.uses_signalClearVal reads)

/-- A queue that has the block its slots pointer points to allows an insertion. -/
theorem allows_insert_of_owned (h : .block q.tq.queue.map ∈ q.owned) : Allows .insert q := by
  have hslots : .block q.tq.queue.map ∈ q.tq.queue.slots → q.tq.queue.map ≠ none := by
    rintro ⟨b, hb, -⟩
    rw [hb]
    exact Option.some_ne_none b
  unfold owned at h
  cases hst : q.status with
  | ready =>
    rw [hst] at h
    refine ⟨Or.inl hst, hslots (h.resolve_left ?_)⟩
    rintro (heq | heq)
    · cases heq
    · cases heq
  | failed =>
    rw [hst] at h
    exact ⟨Or.inr hst, hslots h⟩
  | fresh => exact absurd (hst ▸ h) (Set.notMem_empty _)
  | finished => exact absurd (hst ▸ h) (Set.notMem_empty _)

/-- The block is none that was left behind. -/
theorem map_notMem_losses (hq : q.Inv) (h : q.status ≠ .fresh) :
    .block q.tq.queue.map ∉ q.losses := by
  rintro ⟨b, hb, hmap⟩
  have hslots : .block (some b) ∈ q.tq.queue.slots :=
    HeapRec.mem_slots (OsResource.block.inj hmap)
  have hlost : .block (some b) ∈ q.losses := ⟨b, hb, rfl⟩
  have hdisj : Disjoint q.tq.queue.slots q.losses := by
    rcases cases_status h with h | h | h
    · have hdisj := hq.disjoint
      rw [owned_ready h] at hdisj
      exact (Set.disjoint_union_left.mp hdisj).2
    · rw [← owned_failed h]
      exact hq.disjoint
    · exact hq.gone h
  exact Set.disjoint_left.mp hdisj hslots hlost

/-- **Any other call strays at once.** -/
theorem strays_body {c : LifeCall} (hq : q.Inv) (hpre : Pre c q) (hnot : ¬ Allows c q) :
    (body c q).Strays (q.owned ∪ q.losses) := by
  cases c with
  | init => exact absurd trivial hnot
  | fini => exact fd_notMem hnot _
  | insert =>
    have hempty : q.tq.queue.size = 0 := by
      refine hq.empty hpre.1 ?_
      rcases cases_status hpre.1 with h | h | h
      · exact Or.inl (of_not_not fun hmap => hnot ⟨Or.inl h, hmap⟩)
      · exact Or.inl (of_not_not fun hmap => hnot ⟨Or.inr h, hmap⟩)
      · exact Or.inr h
    have hfull : q.tq.queue.heapFull = false := by
      have hroom := hq.room hpre.1
      simp only [HeapRec.heapFull, hempty, decide_eq_false_iff_not]
      omega
    have hbody : body .insert q = .use (.block q.tq.queue.map) fun _ =>
        .ret { q with tq.queue.size := u32 (q.tq.queue.size + 1) } := by
      unfold body
      show (fun r : ℤ × HeapRec β => { q with tq.queue := r.2 }) <$> q.tq.queue.heapInsert = _
      rw [HeapRec.heapInsert, hfull]
      rfl
    rw [hbody]
    show .block q.tq.queue.map ∉ q.owned ∪ q.losses
    rintro (hown | hlost)
    · exact hnot (allows_insert_of_owned hown)
    · exact map_notMem_losses hq hpre.1 hlost
  | remove index => exact absurd trivial hnot
  | raise => exact fd_notMem hnot _
  | lower reads =>
    cases reads with
    | zero => exact fd_notMem hnot _
    | succ reads => exact fd_notMem hnot _

end QueueLife

/-! ## All queues of a process -/

/-- Timer queues, as objects whose calls use resources. -/
def timerQueues (β : Type) : ResComponent (OsResource β) LifeCall (QueueLife β) where
  body := QueueLife.body
  owns q := q.owned ∪ q.losses
  Inv := QueueLife.Inv
  Pre := QueueLife.Pre
  Allows := QueueLife.Allows
  uses := QueueLife.uses_body
  strays := QueueLife.strays_body

instance {β : Type} (c : LifeCall) (q : QueueLife β) : Decidable ((timerQueues β).Pre c q) :=
  inferInstanceAs (Decidable (QueueLife.Pre c q))

instance {β : Type} (c : LifeCall) (q : QueueLife β) : Decidable ((timerQueues β).Allows c q) :=
  inferInstanceAs (Decidable (QueueLife.Allows c q))

section

variable {κ β : Type}

/-- Before the first call: the rest of the process has what it has, and no queue has been
initialised, whatever its record holds. -/
def queuesStart (rest : OsResource β → Bool) (tq : κ → TimerQueueRec β) :
    ResSys κ (OsResource β) (QueueLife β) where
  held r := if rest r then some none else none
  obj q := .inl ⟨.fresh, tq q, []⟩

theorem queuesStart_inOrder (rest : OsResource β → Bool) (tq : κ → TimerQueueRec β) :
    (queuesStart rest tq).InOrder (timerQueues β) := by
  intro q
  have hlosses : QueueLife.losses (β := β) ⟨.fresh, tq q, []⟩ = ∅ := by
    ext r
    simp [QueueLife.losses]
  refine ⟨⟨?_, fun h => (by cases h), fun h => absurd rfl h, fun h => absurd rfl h,
    fun h => (by cases h)⟩, ?_⟩
  · exact Set.empty_disjoint _
  · show _ = (∅ : Set (OsResource β)) ∪ _
    rw [hlosses, Set.union_empty]
    ext r
    simp only [ResProg.holding, queuesStart, Set.mem_ofPred_eq, Set.mem_empty_iff_false, iff_false]
    split
    · exact fun h => Option.some_ne_none q (Option.some.inj h).symm
    · exact (Option.some_ne_none _).symm

variable [DecidableEq κ] [DecidableEq β]

/-- **The resources of timer queues.** In every run of calls on any number of queues, which
interleave at the calls of the system and with what the rest of the process does, nothing is used or
given back by a call but what its queue has, all along, exactly where every call is made on a queue
that allows it. Then the run returns, and a queue that is in no call has what its record says: its
descriptors where it is in use, the slots where it is or where it has failed, and the slots of every
failure before. -/
theorem timer_queue_resources (rest : OsResource β → Bool) (tq : κ → TimerQueueRec β)
    (es : List (ResEvent κ (OsResource β) LifeCall))
    (hpre : Meets (ResSys.step (timerQueues β)) (ResSys.Admits (timerQueues β))
      (queuesStart rest tq) es) :
    (Along (ResSys.step (timerQueues β)) ResSys.Minds (queuesStart rest tq) es
        ↔ Meets (ResSys.step (timerQueues β)) (ResSys.Allows (timerQueues β))
          (queuesStart rest tq) es)
      ∧ (Meets (ResSys.step (timerQueues β)) (ResSys.Allows (timerQueues β))
          (queuesStart rest tq) es →
        ∃ s, run (ResSys.step (timerQueues β)) (queuesStart rest tq) es = some s
          ∧ ∀ q m, s.obj q = .inl m → ∀ r, s.held r = some (some q) ↔ r ∈ m.owned ∪ m.losses) := by
  obtain ⟨hiff, hrun⟩ := ResSys.along_minds_iff (queuesStart_inOrder rest tq) hpre
  refine ⟨hiff, fun hallows => ?_⟩
  obtain ⟨s, hs, hin⟩ := hrun hallows
  refine ⟨s, hs, fun q m hm r => ?_⟩
  have hq := hin q
  rw [hm] at hq
  exact Set.ext_iff.mp hq.2 r

/-- One queue is initialised while `fcntl` fails for another one, whose descriptors are closed, and
one of which the rest of the process gets. -/
def twoQueues : List (ResEvent Bool (OsResource ℕ) LifeCall) :=
  [.call true .init, .call false .init, .answer true (.got (some [.fd 3, .fd 4])),
    .answer false (.got (some [.fd 5, .fd 6])), .answer true (.done true),
    .answer false (.done false), .answer false (.done true), .restTakes (.fd 5),
    .answer true (.got (some [.block (some 0)])), .answer false (.done true),
    .answer false (.got (some [.block (some 1)])), .call true .insert,
    .answer true (.done true), .call true .raise, .answer true (.done false),
    .answer true (.done true), .call true .fini, .answer true (.done true),
    .answer true (.done true), .answer true (.done true), .answer true (.done true)]

/-- Two queues whose records are zero. -/
def twoStart : ResSys Bool (OsResource ℕ) (QueueLife ℕ) :=
  queuesStart (fun _ => false) fun _ => ⟨⟨0, 0, none⟩, ⟨0, 0⟩⟩

/-- Nothing is left of the queue that has been in use, and the slots of the other one stay; if that
one were finished, a descriptor that it does not have would be closed. -/
theorem timer_queue_resources_two :
    (∃ s, run (ResSys.step (timerQueues ℕ)) twoStart twoQueues = some s
        ∧ (∀ r, s.held r ≠ some (some true))
        ∧ ∀ r, s.held r = some (some false) ↔ r = .block (some 1))
      ∧ ¬ Along (ResSys.step (timerQueues ℕ)) ResSys.Minds twoStart
        (twoQueues ++ [.call false .fini]) := by
  have hfini := timer_queue_resources (fun _ => false) (fun _ => ⟨⟨0, 0, none⟩, ⟨0, 0⟩⟩)
    (twoQueues ++ [.call false .fini]) (by decide)
  refine ⟨?_, fun hal => absurd (hfini.1.mp hal) (by decide)⟩
  obtain ⟨s, hrun, hheld⟩ := (timer_queue_resources (fun _ => false)
    (fun _ => ⟨⟨0, 0, none⟩, ⟨0, 0⟩⟩) twoQueues (by decide)).2 (by decide)
  have hobj : (run (ResSys.step (timerQueues ℕ)) twoStart twoQueues).map
      (fun s => (s.obj true, s.obj false))
      = some (.inl ⟨.finished, ⟨⟨200, 0, some 0⟩, ⟨3, 4⟩⟩, []⟩,
        .inl ⟨.failed, ⟨⟨200, 0, some 1⟩, ⟨5, 6⟩⟩, []⟩) := rfl
  rw [show run _ twoStart twoQueues = some s from hrun, Option.map_some, Option.some.injEq,
    Prod.mk.injEq] at hobj
  refine ⟨s, hrun, fun r => ?_, fun r => (hheld false _ hobj.2 r).trans ?_⟩
  · refine (hheld true _ hobj.1 r).not.mpr ?_
    simp [QueueLife.owned, QueueLife.losses]
  · simp [QueueLife.owned, QueueLife.losses, HeapRec.slots]

end
