import Mathlib.Data.Int.Basic
import Mathlib.Logic.Function.Basic
import Mathlib.Tactic.Common

/-!
# The two back ends of `event.h`

`event_ctl` registers interest in a descriptor, with `epoll_ctl` in `event_epoll.c` and
with `kevent` in `event_kqueue.c`. The two functions below are those; what the kernels do
with the calls is modelled as far as registrations go.

An epoll instance has one entry for a descriptor, with a mask that `EPOLL_CTL_ADD` and
`EPOLL_CTL_MOD` set and `EPOLL_CTL_DEL` removes as a whole. A kqueue has one entry for
each pair of a descriptor and a filter: `EV_ADD` adds or updates it, `EV_DELETE` removes
it and fails where there is none. The changes of a `kevent` are made one after the other,
and with no room to report an error in, as here, the first that fails is the last.
-/

/-- `enum event_ctl`. -/
inductive EventCtl where
  | add
  | del
  | mod
deriving DecidableEq, Repr

/-- `struct event`. -/
structure Event (δ : Type) where
  events : UInt32
  data : δ
deriving DecidableEq, Repr

def eventIn : UInt32 := 1

def eventOut : UInt32 := 2

def eventHup : UInt32 := 4

def eventRdhup : UInt32 := 8

def eventEt : UInt32 := 1024

def eventOneshot : UInt32 := 2048

/-- The test `ev->events & bit`. -/
def Event.has {δ : Type} (ev : Event δ) (bit : UInt32) : Bool := ev.events &&& bit != 0

/-! ## epoll -/

def epollIn : UInt32 := 0x1

def epollOut : UInt32 := 0x4

def epollHup : UInt32 := 0x10

def epollRdhup : UInt32 := 0x2000

def epollOneshot : UInt32 := 0x40000000

def epollEt : UInt32 := 0x80000000

def epollCtlAdd : UInt32 := 1

def epollCtlDel : UInt32 := 2

def epollCtlMod : UInt32 := 3

/-- `struct epoll_event`. -/
structure EpollEvent (δ : Type) where
  events : UInt32
  data : δ
deriving DecidableEq, Repr

/-- An epoll instance: the entry of each descriptor that has one. -/
structure Epoll (δ : Type) where
  entry : ℤ → Option (EpollEvent δ)

namespace Epoll

variable {δ : Type}

/-- An instance of `epoll_create`. -/
def new : Epoll δ := ⟨fun _ => none⟩

def setEntry (ep : Epoll δ) (fd : ℤ) (eev : Option (EpollEvent δ)) : Epoll δ :=
  ⟨Function.update ep.entry fd eev⟩

@[simp] theorem setEntry_self (ep : Epoll δ) (fd : ℤ) (eev : Option (EpollEvent δ)) :
    (ep.setEntry fd eev).entry fd = eev :=
  Function.update_self ..

theorem setEntry_of_ne (ep : Epoll δ) {fd fd' : ℤ} (h : fd' ≠ fd)
    (eev : Option (EpollEvent δ)) : (ep.setEntry fd eev).entry fd' = ep.entry fd' :=
  Function.update_of_ne h _ _

/-- `epoll_ctl`. -/
def epollCtl (ep : Epoll δ) (op : UInt32) (fd : ℤ) (eev : EpollEvent δ) : ℤ × Epoll δ :=
  if op = epollCtlAdd then
    match ep.entry fd with
    | some _ => (-1, ep)
    | none => (0, ep.setEntry fd (some eev))
  else if op = epollCtlMod then
    match ep.entry fd with
    | some _ => (0, ep.setEntry fd (some eev))
    | none => (-1, ep)
  else if op = epollCtlDel then
    match ep.entry fd with
    | some _ => (0, ep.setEntry fd none)
    | none => (-1, ep)
  else
    (-1, ep)

/-- `epoll_cmd`. -/
def epollCmd : EventCtl → UInt32
  | .add => epollCtlAdd
  | .mod => epollCtlMod
  | .del => epollCtlDel

/-- The events of `event_to_epoll_event`, by what it finds set. -/
def epollEvents (has : UInt32 → Bool) : UInt32 :=
  let events := 0
  let events := if has eventIn then events ||| epollIn else events
  let events := if has eventOut then events ||| epollOut else events
  let events := if has eventHup then events ||| epollHup else events
  let events := if has eventRdhup then events ||| epollRdhup else events
  let events := if has eventEt then events ||| epollEt else events
  if has eventOneshot then events ||| epollOneshot else events

/-- `event_to_epoll_event`. -/
def eventToEpollEvent (ev : Event δ) : EpollEvent δ := ⟨epollEvents ev.has, ev.data⟩

/-- `event_ctl` of `event_epoll.c`. -/
def eventCtl (ep : Epoll δ) (ctl : EventCtl) (fd : ℤ) (ev : Event δ) : ℤ × Epoll δ :=
  ep.epollCtl (epollCmd ctl) fd (eventToEpollEvent ev)

end Epoll

/-! ## kqueue -/

/-- The filters a descriptor is registered with. -/
inductive EvFilt where
  | read
  | write
deriving DecidableEq, Repr

def evAdd : UInt16 := 0x1

def evDelete : UInt16 := 0x2

def evOneshot : UInt16 := 0x10

/-- `struct kevent`, as far as `EV_SET` is given it. -/
structure Kevent (δ : Type) where
  ident : ℤ
  filter : EvFilt
  flags : UInt16
  udata : δ
deriving DecidableEq, Repr

/-- A kqueue: the entry of each pair of a descriptor and a filter that has one. -/
structure Kqueue (δ : Type) where
  entry : ℤ × EvFilt → Option (UInt16 × δ)

namespace Kqueue

variable {δ : Type}

/-- A queue of `kqueue`. -/
def new : Kqueue δ := ⟨fun _ => none⟩

def setEntry (kq : Kqueue δ) (p : ℤ × EvFilt) (x : Option (UInt16 × δ)) : Kqueue δ :=
  ⟨Function.update kq.entry p x⟩

@[simp] theorem setEntry_self (kq : Kqueue δ) (p : ℤ × EvFilt) (x : Option (UInt16 × δ)) :
    (kq.setEntry p x).entry p = x :=
  Function.update_self ..

theorem setEntry_of_ne (kq : Kqueue δ) {p p' : ℤ × EvFilt} (h : p' ≠ p)
    (x : Option (UInt16 × δ)) : (kq.setEntry p x).entry p' = kq.entry p' :=
  Function.update_of_ne h _ _

/-- One change of a `kevent`; `none` where it fails. -/
def change (kq : Kqueue δ) (kev : Kevent δ) : Option (Kqueue δ) :=
  if kev.flags &&& evDelete != 0 then
    match kq.entry (kev.ident, kev.filter) with
    | some _ => some (kq.setEntry (kev.ident, kev.filter) none)
    | none => none
  else
    match kev.flags &&& evAdd != 0, kq.entry (kev.ident, kev.filter) with
    | false, none => none
    | _, _ => some (kq.setEntry (kev.ident, kev.filter) (some (kev.flags, kev.udata)))

/-- `kevent` with a list of changes and no room for events. -/
def kevent (kq : Kqueue δ) : List (Kevent δ) → ℤ × Kqueue δ
  | [] => (0, kq)
  | kev :: kevs =>
    match kq.change kev with
    | some kq => kevent kq kevs
    | none => (-1, kq)

/-- `kevent_flags`. -/
def keventFlags (ctl : EventCtl) (ev : Event δ) : UInt16 :=
  let flags : UInt16 := 0
  let flags :=
    match ctl with
    | .add => flags ||| evAdd
    | .mod => flags ||| evAdd
    | .del => flags ||| evDelete
  if ev.has eventOneshot then flags ||| evOneshot else flags

/-- The change `event_ctl` fills in with `EV_SET`, for one filter. -/
def evSet (ctl : EventCtl) (fd : ℤ) (ev : Event δ) (f : EvFilt) : Kevent δ :=
  ⟨fd, f, keventFlags ctl ev, ev.data⟩

/-- The changes `event_ctl` fills in. -/
def changes (ctl : EventCtl) (fd : ℤ) (ev : Event δ) : List (Kevent δ) :=
  (if ev.has eventIn then [evSet ctl fd ev .read] else [])
    ++ if ev.has eventOut then [evSet ctl fd ev .write] else []

/-- `event_ctl` of `event_kqueue.c`. -/
def eventCtl (kq : Kqueue δ) (ctl : EventCtl) (fd : ℤ) (ev : Event δ) : ℤ × Kqueue δ :=
  kq.kevent (changes ctl fd ev)

end Kqueue
