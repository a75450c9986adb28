import Mathlib.Data.List.Nodup
import Mathlib.Data.List.Perm.Basic
import Ckit.Cells
import Ckit.EventAgree
import Ckit.Time

/-!
# What the two back ends report

`event_wait` asks the kernel for the events there are and translates them into the
caller's array. What `epoll_wait` reports of a descriptor is one entry, with all the
directions that are ready in its mask, and the data of the registration; `kevent`
reports each pair of a descriptor and a filter for itself. So the two arrays are
different, and differently long. But a program that goes through an array looks at the
directions of its events, and what it finds in all is a list of pairs of data and a
direction.

The kernels are assumed to report what is documented, for masks of `EVENT_IN` and
`EVENT_OUT`: every interest that is registered and ready, once, and no other one
(`Epoll.Answers`, `Kqueue.Answers`). Then `event_wait` gives the same pairs on both
sides as long as the registrations agree, whatever is ready – and that is as long as
every call of `event_ctl` covers what is registered (`EventSys.event_wait_agree`). The
data are part of it: `EV_ADD` puts them into the entries of the filters of its mask only.
-/

/-- What `event_wait` returns, and the array. -/
abbrev Waited (δ : Type) := ℤ × (ℕ → Event δ)

/-- **What a program finds** in the array: for each event the directions of its mask, with its
data. -/
def Waited.found {δ : Type} (r : Waited δ) : List (δ × EvFilt) :=
  (Cells.read r.2 0 r.1.toNat).flatMap fun ev =>
    ([.read, .write].filter ev.asks).map fun f => (ev.data, f)

namespace Epoll

variable {δ : Type}

/-- The events of `epoll_event_to_event`, by what it finds set. -/
def eventEvents (has : UInt32 → Bool) : UInt32 :=
  let events := 0
  let events := if has epollIn then events ||| eventIn else events
  let events := if has epollOut then events ||| eventOut else events
  let events := if has epollHup then events ||| eventHup else events
  let events := if has epollRdhup then events ||| eventRdhup else events
  let events := if has epollEt then events ||| eventEt else events
  if has epollOneshot then events ||| eventOneshot else events

/-- `epoll_event_to_event`. -/
def epollEventToEvent (eev : EpollEvent δ) : Event δ :=
  ⟨eventEvents fun bit => eev.events &&& bit != 0, eev.data⟩

/-- The loop of `event_wait`, from position `i` on. -/
def waitLoop : ℕ → List (EpollEvent δ) → (ℕ → Event δ) → ℕ → Event δ
  | _, [], events => events
  | i, eev :: eevs, events =>
    waitLoop (i + 1) eevs (Function.update events i (epollEventToEvent eev))

/-- `event_wait` of `event_epoll.c`, with what `epoll_wait` reports; `none` is a failure. -/
def eventWait (events : ℕ → Event δ) : Option (List (EpollEvent δ)) → Waited δ
  | none => (-1, events)
  | some eevs => (eevs.length, waitLoop 0 eevs events)

end Epoll

/-- A filter of an event, in the flags of `struct kevent`. -/
def evError : UInt16 := 0x4000

def evEof : UInt16 := 0x8000

namespace Kqueue

variable {δ : Type}

/-- The events of `kevent_to_event`. -/
def keventEvents (filter : EvFilt) (eof : Bool) : UInt32 :=
  let events := 0
  let events := if filter = .read then events ||| eventIn else events
  let events := if filter = .write then events ||| eventOut else events
  if eof then events ||| eventRdhup else events

/-- `kevent_to_event`. The pointer is the whole of the data, and replaces the descriptor. -/
def keventToEvent (kev : Kevent δ) : Event δ :=
  ⟨keventEvents kev.filter (kev.flags &&& evEof != 0), kev.udata⟩

/-- The loop of `event_wait`, from position `i` on, with the return value where it does not get to
its end. -/
def waitLoop : ℕ → List (Kevent δ) → (ℕ → Event δ) → Option ℤ × (ℕ → Event δ)
  | _, [], events => (none, events)
  | i, kev :: kevs, events =>
    if kev.flags &&& evError != 0 then
      (some (-1), events)
    else
      waitLoop (i + 1) kevs (Function.update events i (keventToEvent kev))

/-- `event_wait` of `event_kqueue.c`, with what `kevent` reports; `none` is a failure. -/
def eventWait (events : ℕ → Event δ) : Option (List (Kevent δ)) → Waited δ
  | none => (-1, events)
  | some kevs =>
    let r := waitLoop 0 kevs events
    (r.1.getD kevs.length, r.2)

/-- The timeout `event_wait` gives to `kevent`, where a `long` has `w` bits; `none` is `NULL`. -/
def waitTimeout (w : ℕ) (timeout : ℤ) : Option Timespec :=
  if timeout = -1 then none
  else some (Timespec.addNsec ⟨0, 0⟩ (Int.bmod (timeout * 1000000) (2 ^ w)))

/-- **The timeout is the one asked for** exactly where its nanoseconds are a `long`. -/
theorem waitTimeout_exact {w : ℕ} (hw : 0 < w) {timeout : ℤ} (h : timeout ≠ -1) :
    (waitTimeout w timeout).map Timespec.toNsec = some (timeout * 1000000)
      ↔ -2 ^ (w - 1) ≤ timeout * 1000000 ∧ timeout * 1000000 < 2 ^ (w - 1) := by
  have hzero : Timespec.toNsec ⟨0, 0⟩ = 0 := rfl
  obtain ⟨k, rfl⟩ := Nat.exists_eq_succ_of_ne_zero hw.ne'
  rw [waitTimeout, if_neg h, Option.map_some, Timespec.toNsec_addNsec, hzero, zero_add,
    Option.some.injEq, Nat.succ_sub_one]
  have hpow : (2 ^ (k + 1) : ℕ) = 2 * 2 ^ k := pow_succ' 2 k
  have hpos : 0 < 2 * 2 ^ k := Nat.mul_pos Nat.two_pos (Nat.two_pow_pos k)
  have hcast : ((2 ^ k : ℕ) : ℤ) = 2 ^ k := by
    push_cast
    rfl
  rw [hpow]
  constructor
  · intro heq
    have hle := @Int.le_bmod (timeout * 1000000) (2 * 2 ^ k) hpos
    have hlt := @Int.bmod_lt (timeout * 1000000) (2 * 2 ^ k) hpos
    rw [heq] at hle hlt
    omega
  · rintro ⟨hle, hlt⟩
    exact Int.bmod_eq_of_le (by omega) (by omega)

end Kqueue

/-! ## The arrays -/

section

variable {δ : Type}

theorem Epoll.waitLoop_eq (i : ℕ) (eevs : List (EpollEvent δ)) (events : ℕ → Event δ) :
    waitLoop i eevs events = Cells.write events i (eevs.map epollEventToEvent) := by
  induction eevs generalizing i events with
  | nil => rw [waitLoop, List.map_nil, Cells.write_nil]
  | cons eev eevs ih => rw [waitLoop, ih, List.map_cons, Cells.write_cons]

/-- Without an error the loop gets to its end. -/
theorem Kqueue.waitLoop_eq (i : ℕ) {kevs : List (Kevent δ)}
    (h : ∀ kev ∈ kevs, (kev.flags &&& evError != 0) = false) (events : ℕ → Event δ) :
    waitLoop i kevs events = (none, Cells.write events i (kevs.map keventToEvent)) := by
  induction kevs generalizing i events with
  | nil => rw [waitLoop, List.map_nil, Cells.write_nil]
  | cons kev kevs ih =>
    rw [waitLoop, h kev List.mem_cons_self, if_neg Bool.false_ne_true,
      ih (i + 1) fun kev hkev => h kev (List.mem_cons_of_mem _ hkev), List.map_cons,
      Cells.write_cons]

/-- **An error hides the events before it**, which are in the array but not in what is returned. -/
theorem Kqueue.waitLoop_error (i : ℕ) {kevs rest : List (Kevent δ)} {kev : Kevent δ}
    (h : ∀ kev ∈ kevs, (kev.flags &&& evError != 0) = false)
    (herr : (kev.flags &&& evError != 0) = true) (events : ℕ → Event δ) :
    waitLoop i (kevs ++ kev :: rest) events
      = (some (-1), Cells.write events i (kevs.map keventToEvent)) := by
  induction kevs generalizing i events with
  | nil => rw [List.nil_append, waitLoop, herr, if_pos rfl, List.map_nil, Cells.write_nil]
  | cons kev' kevs ih =>
    rw [List.cons_append, waitLoop, h kev' List.mem_cons_self, if_neg Bool.false_ne_true,
      ih (i + 1) fun kev hkev => h kev (List.mem_cons_of_mem _ hkev), List.map_cons,
      Cells.write_cons]

/-- The directions of the translated mask are those it finds set. -/
theorem Epoll.eventEvents_bit (has : UInt32 → Bool) (f : EvFilt) :
    (eventEvents has &&& f.eventBit != 0) = has f.epollBit := by
  unfold eventEvents
  cases f
  all_goals
    simp only [EvFilt.eventBit, EvFilt.epollBit]
    generalize has epollIn = a
    generalize has epollOut = b
    generalize has epollHup = c
    generalize has epollRdhup = d
    generalize has epollEt = e
    generalize has epollOneshot = g
    revert a b c d e g
    decide

/-- The direction of the translated filter is its own. -/
theorem Kqueue.keventEvents_bit : ∀ (filter : EvFilt) (eof : Bool) (f : EvFilt),
    (keventEvents filter eof &&& f.eventBit != 0) = decide (filter = f) := by decide

theorem Waited.found_write (events : ℕ → Event δ) (evs : List (Event δ)) :
    Waited.found (evs.length, Cells.write events 0 evs) = evs.flatMap fun ev =>
      ([.read, .write].filter ev.asks).map fun f => (ev.data, f) := by
  rw [Waited.found, Int.toNat_natCast, Cells.read_write]

/-- **What is found** where `epoll_wait` has reported so. -/
theorem Epoll.found_eventWait (events : ℕ → Event δ) (eevs : List (EpollEvent δ)) :
    (eventWait events (some eevs)).found = eevs.flatMap fun eev =>
      ([.read, .write].filter fun f => eev.events &&& f.epollBit != 0).map fun f =>
        (eev.data, f) := by
  have hlen : eevs.length = (eevs.map epollEventToEvent).length := (List.length_map _).symm
  rw [eventWait, waitLoop_eq, hlen, Waited.found_write, List.flatMap_map]
  congr 1
  funext eev
  have hasks : (epollEventToEvent eev).asks = fun f : EvFilt => eev.events &&& f.epollBit != 0 :=
    funext fun f => eventEvents_bit _ f
  rw [hasks]
  rfl

/-- **What is found** where `kevent` has reported so. -/
theorem Kqueue.found_eventWait (events : ℕ → Event δ) {kevs : List (Kevent δ)}
    (h : ∀ kev ∈ kevs, (kev.flags &&& evError != 0) = false) :
    (eventWait events (some kevs)).found = kevs.map fun kev => (kev.udata, kev.filter) := by
  have hlen : kevs.length = (kevs.map keventToEvent).length := (List.length_map _).symm
  rw [eventWait, waitLoop_eq 0 h, Option.getD_none, hlen, Waited.found_write, List.flatMap_map,
    List.map_eq_flatMap]
  congr 1
  funext kev
  have hasks : (keventToEvent kev).asks = fun f => decide (kev.filter = f) :=
    funext fun f => keventEvents_bit _ _ f
  rw [hasks]
  cases hf : kev.filter with
  | read => rfl
  | write => rfl

end

/-! ## What the kernels report -/

/-- The directions of descriptors that are ready. -/
abbrev Readiness := ℤ → EvFilt → Bool

section

variable {δ : Type}

/-- **What is found is what is ready** of the interests, each once and with its data. -/
def FoundAs (found : List (δ × EvFilt)) (interest : ℤ × EvFilt → Option δ) (ready : Readiness) :
    Prop :=
  ∃ ps : List (ℤ × EvFilt), ps.Nodup ∧ (∀ p, p ∈ ps ↔ interest p ≠ none ∧ ready p.1 p.2 = true)
    ∧ found.map (fun x => (some x.1, x.2)) = ps.map fun p => (interest p, p.2)

variable {found found' : List (δ × EvFilt)} {interest : ℤ × EvFilt → Option δ} {ready : Readiness}

/-- Only the order in which the same is found may differ. -/
theorem FoundAs.perm (h : FoundAs found interest ready) (h' : FoundAs found' interest ready) :
    found.Perm found' := by
  obtain ⟨ps, hnodup, hmem, hfound⟩ := h
  obtain ⟨ps', hnodup', hmem', hfound'⟩ := h'
  have hperm : ps.Perm ps' :=
    (List.perm_ext_iff_of_nodup hnodup hnodup').mpr fun p => (hmem p).trans (hmem' p).symm
  have hinj : Function.Injective fun x : δ × EvFilt => (some x.1, x.2) := by
    rintro ⟨d, f⟩ ⟨d', f'⟩ heq
    obtain ⟨hd, hf⟩ := Prod.mk.inj heq
    exact Prod.ext (Option.some.inj hd) hf
  refine (List.map_perm_map_iff hinj).mp ?_
  rw [hfound, hfound']
  exact hperm.map _

/-- Nothing but one direction of one descriptor is ready. -/
def onlyReady (p : ℤ × EvFilt) : Readiness := fun fd f => decide ((fd, f) = p)

theorem FoundAs.only {p : ℤ × EvFilt} (h : FoundAs found interest (onlyReady p)) :
    found = (interest p).toList.map fun d => (d, p.2) := by
  obtain ⟨ps, hnodup, hmem, hfound⟩ := h
  have hp : ∀ q, q ∈ ps ↔ interest q ≠ none ∧ q = p := fun q => by
    rw [hmem q, onlyReady, decide_eq_true_iff]
  cases hi : interest p with
  | none =>
    have hnil : ps = [] := List.eq_nil_iff_forall_not_mem.mpr fun q hq => by
      obtain ⟨hne, rfl⟩ := (hp q).mp hq
      exact hne hi
    rw [hnil] at hfound
    exact List.map_eq_nil_iff.mp hfound
  | some d =>
    have hone : ps = [p] := by
      refine List.perm_singleton.mp ((List.perm_ext_iff_of_nodup hnodup
        (List.nodup_singleton p)).mpr fun q => ?_)
      rw [hp q, List.mem_singleton]
      refine and_iff_right_of_imp fun hq => ?_
      rw [hq, hi]
      exact Option.some_ne_none d
    rw [hone, List.map_singleton, hi] at hfound
    obtain ⟨x, hx, heq⟩ := List.map_eq_singleton_iff.mp hfound
    obtain ⟨hd, hf⟩ := Prod.mk.inj heq
    rw [hx, Option.toList_some, List.map_singleton, ← Option.some.inj hd, ← hf]

end

namespace Epoll

variable {δ : Type} {ep : Epoll δ} {ready : Readiness}

/-- The data a direction of a descriptor is registered with. -/
def interest (ep : Epoll δ) (p : ℤ × EvFilt) : Option δ :=
  if ep.holds p.1 p.2 then (ep.entry p.1).map EpollEvent.data else none

/-- The report of a descriptor: its data, and of the directions it is registered with those that are
ready. -/
def Reports (ep : Epoll δ) (ready : Readiness) (fd : ℤ) (eev : EpollEvent δ) : Prop :=
  (ep.entry fd).map EpollEvent.data = some eev.data
    ∧ ∀ f : EvFilt, (eev.events &&& f.epollBit != 0) = (ep.holds fd f && ready fd f)

/-- **What `epoll_wait` answers**: reports of different descriptors, among them all those with a
direction that is ready. The array is taken to have room for all of them (`maxevents`): one entry
for each descriptor, also where it is ready both ways. -/
def Answers (ep : Epoll δ) (ready : Readiness) (eevs : List (EpollEvent δ)) : Prop :=
  ∃ fds : List ℤ, fds.Nodup ∧ List.Forall₂ (ep.Reports ready) fds eevs
    ∧ ∀ fd f, ep.holds fd f = true → ready fd f = true → fd ∈ fds

theorem interest_ne_none (ep : Epoll δ) (p : ℤ × EvFilt) :
    ep.interest p ≠ none ↔ ep.holds p.1 p.2 = true := by
  unfold interest
  by_cases h : ep.holds p.1 p.2 = true
  · have hentry : ep.entry p.1 ≠ none := fun hnone => by
      rw [holds_of_none hnone] at h
      exact Bool.false_ne_true h
    rw [if_pos h]
    refine iff_of_true (fun hnone => hentry (Option.map_eq_none_iff.mp hnone)) h
  · rw [if_neg h]
    exact iff_of_false (fun hne => hne rfl) h

/-- The directions found of one descriptor. -/
theorem Reports.found {fd : ℤ} {eev : EpollEvent δ} (h : ep.Reports ready fd eev) :
    (([.read, .write].filter fun f => eev.events &&& f.epollBit != 0).map fun f =>
        (some eev.data, f))
      = ([.read, .write].filter fun f => ep.holds fd f && ready fd f).map fun f =>
        (ep.interest (fd, f), f) := by
  rw [funext h.2]
  refine List.map_congr_left fun f hf => ?_
  have hholds := (Bool.and_eq_true_iff.mp (List.mem_filter.mp hf).2).1
  rw [interest, if_pos hholds, h.1]

/-- **What is found with epoll** is what is ready. -/
theorem Answers.foundAs {eevs : List (EpollEvent δ)} (h : ep.Answers ready eevs)
    (events : ℕ → Event δ) : FoundAs (eventWait events (some eevs)).found ep.interest ready := by
  obtain ⟨fds, hnodup, hreports, hall⟩ := h
  refine ⟨fds.flatMap fun fd =>
    ([.read, .write].filter fun f => ep.holds fd f && ready fd f).map fun f => (fd, f), ?_, ?_, ?_⟩
  · refine List.nodup_flatMap.mpr ⟨fun fd _ => ?_, ?_⟩
    · refine List.Nodup.map (fun f f' heq => (Prod.mk.inj heq).2) ?_
      exact List.Nodup.filter _ (by decide)
    · refine hnodup.imp fun {fd fd'} hne => ?_
      refine List.disjoint_left.mpr fun p hp hp' => ?_
      obtain ⟨f, -, rfl⟩ := List.mem_map.mp hp
      obtain ⟨f', -, heq⟩ := List.mem_map.mp hp'
      exact hne (Prod.mk.inj heq).1.symm
  · rintro ⟨fd, f⟩
    rw [interest_ne_none, List.mem_flatMap]
    constructor
    · rintro ⟨fd', -, hp⟩
      obtain ⟨f', hf', heq⟩ := List.mem_map.mp hp
      obtain ⟨rfl, rfl⟩ := Prod.mk.inj heq
      exact Bool.and_eq_true_iff.mp (List.mem_filter.mp hf').2
    · rintro ⟨hholds, hready⟩
      refine ⟨fd, hall fd f hholds hready, List.mem_map.mpr ⟨f, List.mem_filter.mpr ⟨?_, ?_⟩, rfl⟩⟩
      · cases f <;> decide
      · exact Bool.and_eq_true_iff.mpr ⟨hholds, hready⟩
  · rw [found_eventWait, List.map_flatMap, List.map_flatMap]
    clear hnodup hall
    induction hreports with
    | nil => rfl
    | cons hfirst _ ih =>
      rw [List.flatMap_cons, List.flatMap_cons, ih, List.map_map, List.map_map]
      congr 1
      exact hfirst.found

theorem epollBit_and :
    ∀ f g : EvFilt, (f.epollBit &&& g.epollBit != 0) = decide (g = f) := by decide

/-- There is an answer where one direction is ready. -/
theorem exists_answers_only (ep : Epoll δ) (p : ℤ × EvFilt) :
    ∃ eevs, ep.Answers (onlyReady p) eevs := by
  obtain ⟨fd, f⟩ := p
  by_cases h : ep.holds fd f = true
  · obtain ⟨eev, heev⟩ : ∃ eev, ep.entry fd = some eev := by
      refine Option.ne_none_iff_exists'.mp fun hnone => ?_
      rw [holds_of_none hnone] at h
      exact Bool.false_ne_true h
    refine ⟨[⟨f.epollBit, eev.data⟩], [fd], List.nodup_singleton fd,
      List.Forall₂.cons ⟨by rw [heev]; rfl, fun f' => ?_⟩ List.Forall₂.nil, fun fd' f' _ hr => ?_⟩
    · refine (epollBit_and f f').trans ?_
      by_cases hf : f' = f
      · rw [hf, h, Bool.true_and, onlyReady, decide_eq_true rfl, decide_eq_true rfl]
      · have hne : ¬ (fd, f') = (fd, f) := fun heq => hf (Prod.mk.inj heq).2
        rw [onlyReady, decide_eq_false hne, decide_eq_false hf, Bool.and_false]
    · have heq := Prod.mk.inj (of_decide_eq_true hr)
      rw [heq.1]
      exact List.mem_singleton_self fd
  · refine ⟨[], [], List.nodup_nil, List.Forall₂.nil, fun fd' f' hholds hr => ?_⟩
    obtain ⟨rfl, rfl⟩ := Prod.mk.inj (of_decide_eq_true hr)
    exact absurd hholds h

end Epoll

namespace Kqueue

variable {δ : Type} {kq kq' : Kqueue δ} {ready : Readiness} {fd : ℤ}

/-- The data a filter of a descriptor is registered with. -/
def interest (kq : Kqueue δ) (p : ℤ × EvFilt) : Option δ := (kq.entry p).map Prod.snd

/-- **What `kevent` answers**, with no changes that could fail: different pairs that are registered
and ready, and all of them. The array is taken to have room for all of them (`maxevents`): a
descriptor that is ready both ways takes two entries. -/
def Answers (kq : Kqueue δ) (ready : Readiness) (kevs : List (Kevent δ)) : Prop :=
  (kevs.map fun kev => (kev.ident, kev.filter)).Nodup
    ∧ (∀ kev ∈ kevs, (kev.flags &&& evError != 0) = false
      ∧ kq.interest (kev.ident, kev.filter) = some kev.udata ∧ ready kev.ident kev.filter = true)
    ∧ ∀ p, kq.interest p ≠ none → ready p.1 p.2 = true →
      ∃ kev ∈ kevs, (kev.ident, kev.filter) = p

theorem interest_ne_none (kq : Kqueue δ) (p : ℤ × EvFilt) :
    kq.interest p ≠ none ↔ kq.holds p.1 p.2 = true := by
  unfold interest holds
  rw [ne_eq, Option.map_eq_none_iff, Option.isSome_iff_ne_none]

/-- **What is found with kqueue** is what is ready. -/
theorem Answers.foundAs {kevs : List (Kevent δ)} (h : kq.Answers ready kevs)
    (events : ℕ → Event δ) : FoundAs (eventWait events (some kevs)).found kq.interest ready := by
  obtain ⟨hnodup, hsound, hall⟩ := h
  refine ⟨_, hnodup, fun p => ?_, ?_⟩
  · rw [List.mem_map]
    constructor
    · rintro ⟨kev, hkev, rfl⟩
      obtain ⟨-, hinterest, hready⟩ := hsound kev hkev
      rw [hinterest]
      exact ⟨Option.some_ne_none _, hready⟩
    · rintro ⟨hne, hready⟩
      exact hall p hne hready
  · rw [found_eventWait events fun kev hkev => (hsound kev hkev).1, List.map_map, List.map_map]
    refine List.map_congr_left fun kev hkev => ?_
    rw [Function.comp_apply, Function.comp_apply, (hsound kev hkev).2.1]

/-- There is an answer where one direction is ready. -/
theorem exists_answers_only (kq : Kqueue δ) (p : ℤ × EvFilt) :
    ∃ kevs, kq.Answers (onlyReady p) kevs := by
  have honly : ∀ q : ℤ × EvFilt, onlyReady p q.1 q.2 = true → p = q :=
    fun q hq => (of_decide_eq_true hq).symm
  cases hi : kq.interest p with
  | none =>
    refine ⟨[], List.nodup_nil, fun kev hkev => absurd hkev List.not_mem_nil, fun q hne hq => ?_⟩
    exact absurd (honly q hq ▸ hi) hne
  | some d =>
    refine ⟨[⟨p.1, p.2, 0, d⟩], List.nodup_singleton _, fun kev hkev => ?_, fun q _ hq => ?_⟩
    · rw [List.mem_singleton.mp hkev]
      exact ⟨show ((0 : UInt16) &&& evError != 0) = false by decide, hi, decide_eq_true rfl⟩
    · exact ⟨_, List.mem_singleton_self _, honly q hq⟩

/-! ## The data of the registrations -/

/-- A change that adds puts the data into its entry. -/
theorem change_add_eq (kq : Kqueue δ) {ctl : EventCtl} (h : ctl ≠ .del) (fd : ℤ) (ev : Event δ)
    (f : EvFilt) :
    kq.change (evSet ctl fd ev f)
      = some (kq.setEntry (fd, f) (some (keventFlags ctl ev, ev.data))) := by
  unfold change evSet
  simp only [keventFlags_delete, keventFlags_add h, h, decide_false, Bool.false_eq_true,
    if_false]

theorem interest_setEntry_self (kq : Kqueue δ) (p : ℤ × EvFilt) (x : Option (UInt16 × δ)) :
    (kq.setEntry p x).interest p = x.map Prod.snd := by
  rw [interest, setEntry_self]

theorem interest_setEntry_of_ne (kq : Kqueue δ) {p q : ℤ × EvFilt} (h : q ≠ p)
    (x : Option (UInt16 × δ)) : (kq.setEntry p x).interest q = kq.interest q := by
  rw [interest, interest, setEntry_of_ne kq h]

/-- Changes that add leave their data in all their directions. -/
theorem interest_kevent_add {ctl : EventCtl} (h : ctl ≠ .del) (ev : Event δ) (fs : List EvFilt)
    (f : EvFilt) :
    (kq.kevent (fs.map (evSet ctl fd ev))).2.interest (fd, f)
      = if f ∈ fs then some ev.data else kq.interest (fd, f) := by
  induction fs generalizing kq with
  | nil => rfl
  | cons g fs ih =>
    rw [List.map_cons, kevent, change_add_eq kq h]
    refine ih.trans ?_
    by_cases hg : f = g
    · rw [hg, interest_setEntry_self, if_pos List.mem_cons_self]
      exact ite_self _
    · have hne : (fd, f) ≠ (fd, g) := fun heq => hg (Prod.mk.inj heq).2
      rw [interest_setEntry_of_ne kq hne]
      simp only [List.mem_cons, hg, false_or]

/-- A change touches no other descriptor. -/
theorem interest_change_of_ne {ctl : EventCtl} {ev : Event δ} {f : EvFilt} {p : ℤ × EvFilt}
    (hp : p.1 ≠ fd) (h : kq.change (evSet ctl fd ev f) = some kq') :
    kq'.interest p = kq.interest p := by
  have hne : p ≠ (fd, f) := fun heq => hp (congrArg Prod.fst heq)
  by_cases hdel : ctl = .del
  · rw [hdel, change_del] at h
    obtain ⟨-, heq⟩ := Option.ite_none_right_eq_some.mp h
    rw [← Option.some.inj heq, interest_setEntry_of_ne kq hne]
  · rw [change_add_eq kq hdel] at h
    rw [← Option.some.inj h, interest_setEntry_of_ne kq hne]

theorem interest_eventCtl_of_ne (kq : Kqueue δ) (ctl : EventCtl) (ev : Event δ) {p : ℤ × EvFilt}
    (hp : p.1 ≠ fd) : (kq.eventCtl ctl fd ev).2.interest p = kq.interest p := by
  rw [eventCtl, changes_eq]
  generalize directions ev = fs
  induction fs generalizing kq with
  | nil => rfl
  | cons g fs ih =>
    rw [List.map_cons, kevent]
    cases hchange : kq.change (evSet ctl fd ev g) with
    | none => rfl
    | some kq' => exact (ih kq').trans (interest_change_of_ne hp hchange)

end Kqueue

namespace EventSys

variable {δ : Type} {s s' : EventSys δ} {c : EventCall δ}

/-- **The two report the same**: whatever is ready, and whatever the arrays of the callers held,
what is found after `event_wait` is the same on both sides, except for the order. -/
def SameReports (s : EventSys δ) : Prop :=
  ∀ (ready : Readiness) (eevs : List (EpollEvent δ)) (kevs : List (Kevent δ))
    (events events' : ℕ → Event δ), s.ep.Answers ready eevs → s.kq.Answers ready kevs →
    (Epoll.eventWait events (some eevs)).found.Perm (Kqueue.eventWait events' (some kevs)).found

/-- They do where they have the same data for the same directions. -/
theorem sameReports_iff : s.SameReports ↔ ∀ p, s.ep.interest p = s.kq.interest p := by
  constructor
  · intro h p
    obtain ⟨eevs, hep⟩ := s.ep.exists_answers_only p
    obtain ⟨kevs, hkq⟩ := s.kq.exists_answers_only p
    have hperm : ∀ d : δ, ((s.ep.interest p).toList.map fun d => (d, p.2)).Perm
        ((s.kq.interest p).toList.map fun d => (d, p.2)) := by
      intro d
      have hfound := h _ eevs kevs (fun _ => ⟨0, d⟩) (fun _ => ⟨0, d⟩) hep hkq
      rwa [(hep.foundAs _).only, (hkq.foundAs _).only] at hfound
    cases hi : s.ep.interest p with
    | none =>
      cases hj : s.kq.interest p with
      | none => rfl
      | some d =>
        have hd := hperm d
        rw [hi, hj] at hd
        exact absurd hd.length_eq Nat.zero_ne_one
    | some d =>
      have hd := hperm d
      rw [hi] at hd
      have hone := (List.perm_singleton.mp hd.symm)
      obtain ⟨d', hd', heq⟩ := List.map_eq_singleton_iff.mp hone
      rw [Option.toList_eq_singleton_iff.mp hd', (Prod.mk.inj heq).1]
  · intro h ready eevs kevs events events' hep hkq
    have hinterest : s.ep.interest = s.kq.interest := funext h
    exact (hep.foundAs events).perm (hinterest ▸ hkq.foundAs events')

theorem SameReports.agree (h : s.SameReports) : s.Agree :=
  agree_iff.mpr fun fd f => by
    rw [← Epoll.interest_ne_none s.ep (fd, f), ← Kqueue.interest_ne_none s.kq (fd, f),
      sameReports_iff.mp h (fd, f)]

/-- **One call keeps the reports the same exactly where it covers what is registered.** -/
theorem sameReports_step (hdir : s.Directed) (h : s.SameReports) (hp : s.Proper c)
    (hstep : s.step c = some s') : s'.SameReports ↔ s.Covers c := by
  have hagree := agree_step hdir h.agree hp hstep
  refine ⟨fun h' => hagree.mp h'.agree, fun hcovers => sameReports_iff.mpr fun p => ?_⟩
  have hsame := agree_iff.mp (hagree.mpr hcovers) p.1 p.2
  obtain rfl := Option.some.inj hstep
  by_cases hholds : (s.ep.eventCtl c.ctl c.fd c.ev).2.holds p.1 p.2 = true
  · show (s.ep.eventCtl c.ctl c.fd c.ev).2.interest p = (s.kq.eventCtl c.ctl c.fd c.ev).2.interest p
    obtain ⟨fd, f⟩ := p
    by_cases hfd : fd = c.fd
    · -- what is registered now has the data of this call on both sides
      subst hfd
      rw [Epoll.interest, if_pos hholds]
      rw [hp.eventCtl_ep] at hholds ⊢
      by_cases hdel : c.ctl = .del
      · rw [if_pos hdel, Epoll.holds_setEntry_none] at hholds
        exact absurd hholds Bool.false_ne_true
      · rw [if_neg hdel] at hholds ⊢
        rw [Epoll.holds_setEntry_some] at hholds
        rw [Epoll.setEntry_self, Kqueue.eventCtl, Kqueue.changes_eq,
          Kqueue.interest_kevent_add hdel, if_pos (Kqueue.mem_directions.mpr hholds)]
        rfl
    · rw [Kqueue.interest_eventCtl_of_ne s.kq c.ctl c.ev hfd, hp.eventCtl_ep, Epoll.interest,
        Epoll.holds_setEntry_of_ne hfd, Epoll.setEntry_of_ne _ hfd]
      exact sameReports_iff.mp h (fd, f)
  · have hep := (Epoll.interest_ne_none _ p).not.mpr hholds
    have hkq := (Kqueue.interest_ne_none _ p).not.mpr (hsame.not.mp hholds)
    exact (of_not_not hep).trans (of_not_not hkq).symm

/-- **`event_wait` of the two back ends.** In a sequence of calls of `event_ctl`, what a program
finds after `event_wait` is the same with both all along, whatever is ready, exactly where every
call covers what is registered. -/
theorem event_wait_agree (calls : List (EventCall δ)) (hcalls : Meets step Proper start calls) :
    Along step SameReports start calls ↔ Meets step Covers start calls := by
  have htotal : ∀ (s : EventSys δ) (c : EventCall δ), True → s.Proper c →
      ∃ s', s.step c = some s' ∧ True :=
    fun _ _ _ _ => ⟨_, rfl, trivial⟩
  obtain ⟨s', hrun, -⟩ := Run.total htotal trivial hcalls
  have hdir : (start : EventSys δ).Directed := fun _ hfd => absurd rfl hfd
  have hstart : (start : EventSys δ).SameReports := sameReports_iff.mpr fun _ => rfl
  exact Run.along_iff_meets_of (fun _ _ _ h hp hstep => directed_step h hp hstep)
    (fun _ _ _ hd h hp hstep => sameReports_step hd h hp hstep) hdir hstart hcalls hrun

/-- A descriptor is added for output, and then for both directions and with other data; after it is
modified to input alone, the output is found with kqueue only. -/
theorem event_wait_agree_both :
    let calls : List (EventCall ℕ) :=
      [⟨.add, 5, ⟨eventOut, 1⟩⟩, ⟨.mod, 5, ⟨eventIn ||| eventOut, 2⟩⟩]
    Along step SameReports start calls
      ∧ ¬ Along step SameReports start (calls ++ [⟨.mod, 5, ⟨eventIn, 3⟩⟩]) := by
  intro calls
  exact ⟨(event_wait_agree calls (by decide)).mpr (by decide),
    fun hal => absurd ((event_wait_agree (calls ++ [⟨.mod, 5, ⟨eventIn, 3⟩⟩]) (by decide)).mp hal)
      (by decide)⟩

end EventSys
