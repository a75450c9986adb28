import Mathlib.Data.Set.Basic
import Ckit.Event
import Ckit.Run

/-!
# The registrations of the two back ends

A program that is written against `event.h` makes one sequence of `event_ctl` calls, and
each back end answers it with its own registrations. They are compared by the interests
they hold: the pairs of a descriptor and a direction.

The epoll side keeps the last mask it was given and forgets it as a whole. The kqueue side
adds the directions of a mask to those it has, and takes away the directions of the mask
it is given, so what it holds depends on the masks of all the calls before.
-/

/-- The bit of a direction in the mask of a `struct event`. -/
def EvFilt.eventBit : EvFilt → UInt32
  | .read => eventIn
  | .write => eventOut

/-- The bit of a direction in the mask of a `struct epoll_event`. -/
def EvFilt.epollBit : EvFilt → UInt32
  | .read => epollIn
  | .write => epollOut

instance {P : EvFilt → Prop} [DecidablePred P] : Decidable (∀ f, P f) :=
  decidable_of_iff (P .read ∧ P .write)
    ⟨fun h f => match f with
      | .read => h.1
      | .write => h.2, fun h => ⟨h .read, h .write⟩⟩

namespace Event

variable {δ : Type}

/-- The mask of the event asks for the direction. -/
def asks (ev : Event δ) (f : EvFilt) : Bool := ev.has f.eventBit

/-- The mask is a subset of `EVENT_IN | EVENT_OUT`. -/
def InOut (ev : Event δ) : Prop := ev.events &&& (eventIn ||| eventOut) = ev.events

instance (ev : Event δ) : Decidable ev.InOut :=
  inferInstanceAs (Decidable (_ = _))

/-- A mask that is not empty asks for a direction. -/
theorem InOut.exists_asks {ev : Event δ} (h : ev.InOut) (hne : ev.events ≠ 0) :
    ∃ f, ev.asks f = true := by
  by_contra hnone
  push Not at hnone
  have hbit : ∀ f : EvFilt, ev.events &&& f.eventBit = 0 := by
    intro f
    have hf := hnone f
    unfold asks has at hf
    simpa using hf
  have hin : ev.events &&& eventIn = 0 := hbit .read
  have hout : ev.events &&& eventOut = 0 := hbit .write
  refine hne ?_
  have hor : ev.events &&& (eventIn ||| eventOut)
      = (ev.events &&& eventIn) ||| (ev.events &&& eventOut) := by
    rw [← UInt32.toBitVec_inj]
    simp only [UInt32.toBitVec_and, UInt32.toBitVec_or]
    exact BitVec.and_or_distrib_left
  rw [← h, hor, hin, hout]
  rfl

end Event

/-! ## The interests of a back end -/

namespace Epoll

variable {δ : Type} {ep : Epoll δ} {fd : ℤ}

/-- The entry of the descriptor has the direction in its mask. -/
def holds (ep : Epoll δ) (fd : ℤ) (f : EvFilt) : Bool :=
  match ep.entry fd with
  | some eev => eev.events &&& f.epollBit != 0
  | none => false

/-- **The interests an epoll instance holds.** -/
def interests (ep : Epoll δ) : Set (ℤ × EvFilt) := {p | ep.holds p.1 p.2 = true}

instance (ep : Epoll δ) (p : ℤ × EvFilt) : Decidable (p ∈ ep.interests) :=
  inferInstanceAs (Decidable (ep.holds p.1 p.2 = true))

theorem holds_setEntry_none (f : EvFilt) : (ep.setEntry fd none).holds fd f = false := by
  rw [holds, setEntry_self]

theorem holds_of_none (h : ep.entry fd = none) (f : EvFilt) : ep.holds fd f = false := by
  rw [holds, h]

/-- The direction a mask asks for is the one its translation holds. -/
theorem eventToEpollEvent_bit (ev : Event δ) (f : EvFilt) :
    ((eventToEpollEvent ev).events &&& f.epollBit != 0) = ev.asks f := by
  unfold eventToEpollEvent epollEvents Event.asks
  cases f
  all_goals
    simp only [EvFilt.eventBit, EvFilt.epollBit]
    generalize ev.has eventIn = a
    generalize ev.has eventOut = b
    generalize ev.has eventHup = c
    generalize ev.has eventRdhup = d
    generalize ev.has eventEt = e
    generalize ev.has eventOneshot = g
    revert a b c d e g
    decide

theorem holds_setEntry_some (ev : Event δ) (f : EvFilt) :
    (ep.setEntry fd (some (eventToEpollEvent ev))).holds fd f = ev.asks f := by
  rw [holds, setEntry_self]
  exact eventToEpollEvent_bit ev f

theorem holds_setEntry_of_ne {fd' : ℤ} (hfd : fd' ≠ fd) (eev : Option (EpollEvent δ)) (f : EvFilt) :
    (ep.setEntry fd eev).holds fd' f = ep.holds fd' f := by
  rw [holds, holds, setEntry_of_ne _ hfd]

/-- `EVENT_CTL_ADD` of a descriptor that has no entry. -/
theorem eventCtl_add (h : ep.entry fd = none) (ev : Event δ) :
    ep.eventCtl .add fd ev = (0, ep.setEntry fd (some (eventToEpollEvent ev))) := by
  unfold eventCtl epollCtl epollCmd
  rw [if_pos rfl]
  simp only [h]

/-- `EVENT_CTL_MOD` of a descriptor that has an entry. -/
theorem eventCtl_mod (h : ep.entry fd ≠ none) (ev : Event δ) :
    ep.eventCtl .mod fd ev = (0, ep.setEntry fd (some (eventToEpollEvent ev))) := by
  obtain ⟨eev, heev⟩ := Option.ne_none_iff_exists'.mp h
  unfold eventCtl epollCtl epollCmd
  rw [if_neg (by decide), if_pos rfl]
  simp only [heev]

/-- `EVENT_CTL_DEL` of a descriptor that has an entry. -/
theorem eventCtl_del (h : ep.entry fd ≠ none) (ev : Event δ) :
    ep.eventCtl .del fd ev = (0, ep.setEntry fd none) := by
  obtain ⟨eev, heev⟩ := Option.ne_none_iff_exists'.mp h
  unfold eventCtl epollCtl epollCmd
  rw [if_neg (by decide), if_neg (by decide), if_pos rfl]
  simp only [heev]

end Epoll

namespace Kqueue

variable {δ : Type} {kq kq' : Kqueue δ} {fd : ℤ}

/-- The descriptor has an entry with the filter of the direction. -/
def holds (kq : Kqueue δ) (fd : ℤ) (f : EvFilt) : Bool := (kq.entry (fd, f)).isSome

/-- **The interests a kqueue holds.** -/
def interests (kq : Kqueue δ) : Set (ℤ × EvFilt) := {p | kq.holds p.1 p.2 = true}

instance (kq : Kqueue δ) (p : ℤ × EvFilt) : Decidable (p ∈ kq.interests) :=
  inferInstanceAs (Decidable (kq.holds p.1 p.2 = true))

/-- The flags say whether the changes delete, and they do so for `EVENT_CTL_DEL`. -/
theorem keventFlags_delete (ctl : EventCtl) (ev : Event δ) :
    (keventFlags ctl ev &&& evDelete != 0) = decide (ctl = .del) := by
  unfold keventFlags
  generalize ev.has eventOneshot = b
  cases ctl <;> cases b <;> rfl

/-- The flags of the other two add. -/
theorem keventFlags_add {ctl : EventCtl} (h : ctl ≠ .del) (ev : Event δ) :
    (keventFlags ctl ev &&& evAdd != 0) = true := by
  unfold keventFlags
  generalize ev.has eventOneshot = b
  cases ctl with
  | add => cases b <;> rfl
  | mod => cases b <;> rfl
  | del => exact absurd rfl h

/-- A change that adds is made, and adds its direction. -/
theorem change_add (kq : Kqueue δ) {ctl : EventCtl} (h : ctl ≠ .del) (fd : ℤ) (ev : Event δ)
    (f : EvFilt) :
    ∃ entry, kq.change (evSet ctl fd ev f) = some (kq.setEntry (fd, f) (some entry)) := by
  refine ⟨(keventFlags ctl ev, ev.data), ?_⟩
  unfold change evSet
  simp only [keventFlags_delete, keventFlags_add h, h, decide_false, Bool.false_eq_true,
    if_false]

/-- A change that deletes is made where there is something to delete. -/
theorem change_del (ev : Event δ) (f : EvFilt) :
    kq.change (evSet .del fd ev f)
      = if kq.holds fd f then some (kq.setEntry (fd, f) none) else none := by
  unfold change evSet holds
  simp only [keventFlags_delete, decide_true, if_true]
  cases kq.entry (fd, f) <;> rfl

theorem holds_setEntry_self (f : EvFilt) (x : Option (UInt16 × δ)) :
    (kq.setEntry (fd, f) x).holds fd f = x.isSome := by
  rw [holds, setEntry_self]

theorem holds_setEntry_of_ne {fd' : ℤ} {f f' : EvFilt} (h : ¬ (fd' = fd ∧ f' = f))
    (x : Option (UInt16 × δ)) : (kq.setEntry (fd, f) x).holds fd' f' = kq.holds fd' f' := by
  rw [holds, holds, setEntry_of_ne]
  intro heq
  exact h ⟨congrArg Prod.fst heq, congrArg Prod.snd heq⟩

/-- The directions a call changes, in the order of its changes. -/
def directions (ev : Event δ) : List EvFilt := [.read, .write].filter ev.asks

theorem changes_eq (ctl : EventCtl) (fd : ℤ) (ev : Event δ) :
    changes ctl fd ev = (directions ev).map (evSet ctl fd ev) := by
  have hread : ev.has eventIn = ev.asks .read := rfl
  have hwrite : ev.has eventOut = ev.asks .write := rfl
  rw [changes, directions, hread, hwrite]
  cases hr : ev.asks .read <;> cases hw : ev.asks .write <;> simp [hr, hw]

theorem nodup_directions (ev : Event δ) : (directions ev).Nodup :=
  List.Pairwise.filter _ (by decide)

theorem mem_directions {ev : Event δ} {f : EvFilt} : f ∈ directions ev ↔ ev.asks f = true := by
  rw [directions, List.mem_filter]
  refine and_iff_right ?_
  cases f <;> decide

/-- Changes that add are all made, and leave the other interests alone. -/
theorem holds_kevent_add {ctl : EventCtl} (h : ctl ≠ .del) (ev : Event δ) (fs : List EvFilt)
    (fd' : ℤ) (f : EvFilt) :
    (kq.kevent (fs.map (evSet ctl fd ev))).2.holds fd' f = true
      ↔ kq.holds fd' f = true ∨ fd' = fd ∧ f ∈ fs := by
  induction fs generalizing kq with
  | nil => simp [kevent]
  | cons g fs ih =>
    obtain ⟨entry, hentry⟩ := change_add kq h fd ev g
    rw [List.map_cons, kevent, hentry]
    refine ih.trans ?_
    by_cases hg : fd' = fd ∧ f = g
    · obtain ⟨rfl, rfl⟩ := hg
      rw [holds_setEntry_self]
      simp
    · rw [holds_setEntry_of_ne hg, List.mem_cons]
      tauto

theorem takeWhile_congr {α : Type} {p q : α → Bool} {l : List α} (h : ∀ a ∈ l, p a = q a) :
    l.takeWhile p = l.takeWhile q := by
  induction l with
  | nil => rfl
  | cons a l ih =>
    rw [List.takeWhile_cons, List.takeWhile_cons, h a List.mem_cons_self,
      ih fun b hb => h b (List.mem_cons_of_mem _ hb)]

/-- **Changes that delete** are made up to the first that has nothing to delete. -/
theorem holds_kevent_del (ev : Event δ) {fs : List EvFilt} (hfs : fs.Nodup) (fd' : ℤ)
    (f : EvFilt) :
    (kq.kevent (fs.map (evSet .del fd ev))).2.holds fd' f = true
      ↔ kq.holds fd' f = true ∧ ¬ (fd' = fd ∧ f ∈ fs.takeWhile (kq.holds fd)) := by
  induction fs generalizing kq with
  | nil => simp [kevent]
  | cons g fs ih =>
    obtain ⟨hg, hfs⟩ := List.nodup_cons.mp hfs
    rw [List.map_cons, kevent, change_del]
    by_cases hold : kq.holds fd g = true
    · rw [if_pos hold, List.takeWhile_cons_of_pos hold]
      refine (ih hfs).trans ?_
      -- the changes to come are of other directions, and find what was there
      have hrest : fs.takeWhile ((kq.setEntry (fd, g) none).holds fd)
          = fs.takeWhile (kq.holds fd) := by
        refine takeWhile_congr fun g' hg' => holds_setEntry_of_ne (fun hc => ?_) none
        exact hg (hc.2 ▸ hg')
      rw [hrest]
      by_cases hg' : fd' = fd ∧ f = g
      · obtain ⟨rfl, rfl⟩ := hg'
        rw [holds_setEntry_self]
        simp
      · rw [holds_setEntry_of_ne hg', List.mem_cons]
        tauto
    · rw [if_neg hold, List.takeWhile_cons_of_neg hold]
      simp

/-- **A removal that leaves nothing**, of a descriptor that has something. -/
theorem all_deleted_iff (ev : Event δ)
    (hkq : kq.holds fd .read = true ∨ kq.holds fd .write = true) :
    (∀ f, kq.holds fd f = true → f ∈ (directions ev).takeWhile (kq.holds fd))
      ↔ (∀ f, kq.holds fd f = true → ev.asks f = true)
        ∧ (ev.asks .read = true → kq.holds fd .read = true) := by
  constructor
  · intro h
    refine ⟨fun f hf => mem_directions.mp (List.takeWhile_subset _ (h f hf)), fun hread => ?_⟩
    by_contra hnone
    have hwrite := h .write (hkq.resolve_left hnone)
    rw [directions, List.filter_cons_of_pos hread, List.takeWhile_cons_of_neg hnone] at hwrite
    exact nomatch hwrite
  · rintro ⟨hasks, hfirst⟩ f hf
    cases f with
    | read =>
      rw [directions, List.filter_cons_of_pos (hasks .read hf), List.takeWhile_cons_of_pos hf]
      exact List.mem_cons_self
    | write =>
      have hlast : EvFilt.write ∈ ([.write].filter ev.asks).takeWhile (kq.holds fd) := by
        rw [List.filter_cons_of_pos (hasks .write hf), List.takeWhile_cons_of_pos hf]
        exact List.mem_cons_self
      by_cases hread : ev.asks .read = true
      · rw [directions, List.filter_cons_of_pos hread,
          List.takeWhile_cons_of_pos (hfirst hread)]
        exact List.mem_cons_of_mem _ hlast
      · rw [directions, List.filter_cons_of_neg hread]
        exact hlast

end Kqueue

/-! ## The two sides of a sequence of calls -/

/-- A call of `event_ctl`. -/
structure EventCall (δ : Type) where
  ctl : EventCtl
  fd : ℤ
  ev : Event δ

/-- What the two back ends have registered. -/
structure EventSys (δ : Type) where
  ep : Epoll δ
  kq : Kqueue δ

namespace EventSys

variable {δ : Type} {s s' : EventSys δ} {c : EventCall δ}

/-- Before the first call. -/
def start : EventSys δ := ⟨.new, .new⟩

/-- The call, made to both. -/
def step (s : EventSys δ) (c : EventCall δ) : Option (EventSys δ) :=
  some ⟨(s.ep.eventCtl c.ctl c.fd c.ev).2, (s.kq.eventCtl c.ctl c.fd c.ev).2⟩

/-- **The back ends agree** on the interests that are registered. -/
def Agree (s : EventSys δ) : Prop := s.ep.interests = s.kq.interests

/-- What a caller of `event_ctl` does: it adds a descriptor that is not registered, and
modifies or removes one that is. -/
def Proper (s : EventSys δ) (c : EventCall δ) : Prop :=
  c.ev.InOut ∧
    match c.ctl with
    | .add => s.ep.entry c.fd = none ∧ c.ev.events ≠ 0
    | .mod => s.ep.entry c.fd ≠ none ∧ c.ev.events ≠ 0
    | .del => s.ep.entry c.fd ≠ none

/-- **What the two agree after.** A modification must not leave out a direction that is
registered. A removal must not either, and it must not ask for input where only output is
registered: the change for input comes first and fails. -/
def Covers (s : EventSys δ) (c : EventCall δ) : Prop :=
  match c.ctl with
  | .add => True
  | .mod => ∀ f, s.ep.holds c.fd f = true → c.ev.asks f = true
  | .del => (∀ f, s.ep.holds c.fd f = true → c.ev.asks f = true)
      ∧ (c.ev.asks .read = true → s.ep.holds c.fd .read = true)

instance (s : EventSys δ) (c : EventCall δ) : Decidable (s.Proper c) :=
  match h : c.ctl with
  | .add => decidable_of_iff (c.ev.InOut ∧ s.ep.entry c.fd = none ∧ c.ev.events ≠ 0)
      (by rw [Proper, h])
  | .mod => decidable_of_iff (c.ev.InOut ∧ s.ep.entry c.fd ≠ none ∧ c.ev.events ≠ 0)
      (by rw [Proper, h])
  | .del => decidable_of_iff (c.ev.InOut ∧ s.ep.entry c.fd ≠ none) (by rw [Proper, h])

instance (s : EventSys δ) (c : EventCall δ) : Decidable (s.Covers c) :=
  match h : c.ctl with
  | .add => .isTrue (by rw [Covers, h]; trivial)
  | .mod => decidable_of_iff (∀ f, s.ep.holds c.fd f = true → c.ev.asks f = true)
      (by rw [Covers, h])
  | .del => decidable_of_iff ((∀ f, s.ep.holds c.fd f = true → c.ev.asks f = true)
      ∧ (c.ev.asks .read = true → s.ep.holds c.fd .read = true)) (by rw [Covers, h])

/-- Every entry of the epoll side has a direction. -/
def Directed (s : EventSys δ) : Prop :=
  ∀ fd, s.ep.entry fd ≠ none → ∃ f, s.ep.holds fd f = true

theorem agree_iff : s.Agree ↔ ∀ fd f, s.ep.holds fd f = true ↔ s.kq.holds fd f = true := by
  rw [Agree, Set.ext_iff, Prod.forall]
  rfl

/-- **The epoll side of a call** that callers make. -/
theorem Proper.eventCtl_ep (h : s.Proper c) :
    (s.ep.eventCtl c.ctl c.fd c.ev).2 = s.ep.setEntry c.fd
      (if c.ctl = .del then none else some (Epoll.eventToEpollEvent c.ev)) := by
  obtain ⟨ctl, fd, ev⟩ := c
  cases ctl with
  | add => rw [Epoll.eventCtl_add h.2.1, if_neg (fun hc => nomatch hc)]
  | mod => rw [Epoll.eventCtl_mod h.2.1, if_neg (fun hc => nomatch hc)]
  | del => rw [Epoll.eventCtl_del h.2, if_pos rfl]

/-- **The kqueue side of a call**, at another descriptor. -/
theorem eventCtl_kq_of_ne (s : EventSys δ) (c : EventCall δ) {fd : ℤ} (hfd : fd ≠ c.fd)
    (f : EvFilt) :
    (s.kq.eventCtl c.ctl c.fd c.ev).2.holds fd f = true ↔ s.kq.holds fd f = true := by
  rw [Kqueue.eventCtl, Kqueue.changes_eq]
  by_cases hdel : c.ctl = .del
  · rw [hdel, Kqueue.holds_kevent_del _ (Kqueue.nodup_directions _)]
    exact and_iff_left fun hc => hfd hc.1
  · rw [Kqueue.holds_kevent_add hdel]
    exact or_iff_left fun hc => hfd hc.1

/-- After a call they agree where they do on its descriptor. -/
theorem agree_step_iff (h : s.Agree) (hp : s.Proper c) (hstep : s.step c = some s') :
    s'.Agree ↔ ∀ f, s'.ep.holds c.fd f = true ↔ s'.kq.holds c.fd f = true := by
  obtain rfl := Option.some.inj hstep
  rw [agree_iff]
  refine ⟨fun h f => h c.fd f, fun hfd fd f => ?_⟩
  by_cases hc : fd = c.fd
  · rw [hc]
    exact hfd f
  · rw [eventCtl_kq_of_ne s c hc, hp.eventCtl_ep, Epoll.holds_setEntry_of_ne hc]
    exact agree_iff.mp h fd f

/-- The entries keep a direction. -/
theorem directed_step (h : s.Directed) (hp : s.Proper c) (hstep : s.step c = some s') :
    s'.Directed := by
  obtain rfl := Option.some.inj hstep
  intro fd hfd
  rw [hp.eventCtl_ep] at hfd ⊢
  by_cases hc : fd = c.fd
  · subst hc
    rw [Epoll.setEntry_self] at hfd
    by_cases hdel : c.ctl = .del
    · rw [if_pos hdel] at hfd
      exact absurd rfl hfd
    · rw [if_neg hdel]
      have hne : c.ev.events ≠ 0 := by
        have hp2 := hp.2
        obtain ⟨ctl, fd, ev⟩ := c
        cases ctl with
        | add => exact hp2.2
        | mod => exact hp2.2
        | del => exact absurd rfl hdel
      obtain ⟨f, hf⟩ := hp.1.exists_asks hne
      exact ⟨f, (Epoll.holds_setEntry_some c.ev f).trans hf⟩
  · rw [Epoll.setEntry_of_ne _ hc] at hfd
    obtain ⟨f, hf⟩ := h fd hfd
    exact ⟨f, (Epoll.holds_setEntry_of_ne hc _ f).trans hf⟩

/-- **One call keeps the agreement exactly where it covers what is registered.** -/
theorem agree_step (hdir : s.Directed) (h : s.Agree) (hp : s.Proper c)
    (hstep : s.step c = some s') : s'.Agree ↔ s.Covers c := by
  rw [agree_step_iff h hp hstep]
  obtain rfl := Option.some.inj hstep
  have hsame := agree_iff.mp h c.fd
  simp only [hp.eventCtl_ep, Kqueue.eventCtl, Kqueue.changes_eq]
  obtain ⟨ctl, fd, ev⟩ := c
  cases ctl with
  | add =>
    have hctl : EventCtl.add ≠ .del := by decide
    refine iff_of_true (fun f => ?_) trivial
    have hnone : ¬ s.kq.holds fd f = true := by
      rw [← hsame f, Epoll.holds_of_none hp.2.1]
      exact Bool.false_ne_true
    rw [if_neg hctl, Epoll.holds_setEntry_some, Kqueue.holds_kevent_add hctl,
      Kqueue.mem_directions]
    tauto
  | mod =>
    have hctl : EventCtl.mod ≠ .del := by decide
    refine forall_congr' fun f => ?_
    rw [if_neg hctl, Epoll.holds_setEntry_some, Kqueue.holds_kevent_add hctl,
      Kqueue.mem_directions, hsame f]
    tauto
  | del =>
    have hkq : s.kq.holds fd .read = true ∨ s.kq.holds fd .write = true := by
      obtain ⟨f, hf⟩ := hdir fd hp.2
      cases f with
      | read => exact .inl ((hsame .read).mp hf)
      | write => exact .inr ((hsame .write).mp hf)
    rw [if_pos rfl]
    simp only [Covers, hsame]
    refine Iff.trans (forall_congr' fun f => ?_) (Kqueue.all_deleted_iff ev hkq)
    rw [Epoll.holds_setEntry_none, Kqueue.holds_kevent_del _ (Kqueue.nodup_directions _)]
    simp

/-- **The back ends of `event.h`.** In a sequence of calls the two agree all along exactly
where every call covers what is registered. -/
theorem event_back_ends_agree (calls : List (EventCall δ))
    (hcalls : Meets step Proper start calls) :
    Along step Agree start calls ↔ Meets step Covers start calls := by
  have htotal : ∀ (s : EventSys δ) (c : EventCall δ), True → s.Proper c →
      ∃ s', s.step c = some s' ∧ True :=
    fun _ _ _ _ => ⟨_, rfl, trivial⟩
  obtain ⟨s', hrun, -⟩ := Run.total htotal trivial hcalls
  have hdir : (start : EventSys δ).Directed := fun _ hfd => absurd rfl hfd
  have hagree : (start : EventSys δ).Agree := agree_iff.mpr fun _ _ => Iff.rfl
  exact Run.along_iff_meets_of (fun _ _ _ h hp hstep => directed_step h hp hstep)
    (fun _ _ _ hd h hp hstep => agree_step hd h hp hstep) hdir hagree hcalls hrun

/-- A descriptor is added for output, modified for both directions and removed with both. -/
theorem event_back_ends_agree_all :
    let calls : List (EventCall Unit) :=
      [⟨.add, 5, ⟨eventOut, ()⟩⟩, ⟨.mod, 5, ⟨eventIn ||| eventOut, ()⟩⟩,
        ⟨.del, 5, ⟨eventIn ||| eventOut, ()⟩⟩]
    Meets step Proper start calls ∧ Along step Agree start calls := by
  intro calls
  have hcalls : Meets step Proper start calls := by decide
  exact ⟨hcalls, (event_back_ends_agree calls hcalls).mpr (by decide)⟩

/-- **A modification that takes a direction away.** The kqueue keeps it. -/
theorem event_mod_keeps :
    let calls : List (EventCall Unit) :=
      [⟨.add, 5, ⟨eventIn ||| eventOut, ()⟩⟩, ⟨.mod, 5, ⟨eventIn, ()⟩⟩]
    Meets step Proper start calls
      ∧ ∃ s', run step start calls = some s' ∧ (5, EvFilt.write) ∈ s'.kq.interests
        ∧ (5, EvFilt.write) ∉ s'.ep.interests ∧ ¬ s'.Agree := by
  intro calls
  have hcalls : Meets step Proper start calls := by decide
  obtain ⟨s', hrun, hkq, hep⟩ : ∃ s', run step start calls = some s'
      ∧ (5, EvFilt.write) ∈ s'.kq.interests ∧ (5, EvFilt.write) ∉ s'.ep.interests :=
    ⟨_, rfl, by decide, by decide⟩
  exact ⟨hcalls, s', hrun, hkq, hep, fun h => hep (h ▸ hkq)⟩

end EventSys
