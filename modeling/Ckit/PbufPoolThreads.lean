import Ckit.PbufPoolSpec
import Mathlib.Data.Fintype.Basic

/-!
# Clients of the buffer pool

Several clients, each a thread, take buffers from one pool. What a client has still to do
is its `PoolPc`: `pbuf_free` is cut between the decrement of the count and the part that
runs under the lock, `pbuf_copy` after its call of `pbuf_alloc`, and before the count of
the copy is set. In between, the entry that is being freed or copied to has an owner in
nobody's books: the client is still in the function that will give it one, or that took
the last one away.

`owners` is the history of the references: for each entry the clients that own one, a
client as often as it owns one.
-/

/-- What a client is about to do. -/
inductive PoolPc where
  | idle
  /-- `pbuf_free`, before its locked part. -/
  | freeMove (e : PoolEntry)
  /-- `pbuf_copy`, about to copy the buffer. -/
  | copyBytes (src dst : PoolEntry)
  /-- `pbuf_copy`, about to set the count of the copy. -/
  | copySet (dst : PoolEntry)
deriving DecidableEq

/-- The entry a client has in hand without owning a reference to it. -/
def PoolPc.claims : PoolPc → Option PoolEntry
  | .idle => none
  | .freeMove e => some e
  | .copyBytes _ dst => some dst
  | .copySet dst => some dst

/-- A pool and the clients that use it. -/
structure PoolSys (γ : Type) where
  pool : PbufPool
  owners : PoolEntry → List γ
  pc : γ → PoolPc

/-- A step of the system: a client calls a function, or goes on with the one it is in. -/
inductive PoolEvent (γ : Type) where
  | alloc (c : γ) (size : ℕ)
  | hold (c : γ) (e : PoolEntry)
  | free (c : γ) (e : PoolEntry)
  | copy (c : γ) (e : PoolEntry)
  | access (c : γ)
deriving DecidableEq

namespace PoolSys

variable {γ : Type} [DecidableEq γ]

/-- Client `c` goes on to `pc`, in the pool `p`. -/
def goto (s : PoolSys γ) (c : γ) (pc : PoolPc) (p : PbufPool) : PoolSys γ :=
  { s with pool := p, pc := Function.update s.pc c pc }

/-- Client `c` owns one more reference. -/
def gain (s : PoolSys γ) (c : γ) (e : PoolEntry) : PoolSys γ :=
  { s with owners := Function.update s.owners e (c :: s.owners e) }

/-- Client `c` owns one reference less. -/
def lose (s : PoolSys γ) (c : γ) (e : PoolEntry) : PoolSys γ :=
  { s with owners := Function.update s.owners e ((s.owners e).erase c) }

/-- **The next step of client `c`.** -/
def access (s : PoolSys γ) (c : γ) : Option (PoolSys γ) :=
  match s.pc c with
  | .idle => none
  | .freeMove e => (s.pool.freeSection e).map fun p => s.goto c .idle p
  | .copyBytes src dst => (s.pool.copyBytes src dst).map fun p => s.goto c (.copySet dst) p
  | .copySet dst => some ((s.goto c .idle (s.pool.setRefcount dst 1)).gain c dst)

/-- One step of the system; a client calls a function when it is in no other. -/
def step (s : PoolSys γ) : PoolEvent γ → Option (PoolSys γ)
  | .alloc c size =>
    match s.pc c with
    | .idle => (s.pool.pbufAlloc size).map fun r =>
        match r.1 with
        | some e => gain { s with pool := r.2 } c e
        | none => { s with pool := r.2 }
    | _ => none
  | .hold c e =>
    match s.pc c with
    | .idle => (s.pool.pbufHold e).map fun p => gain { s with pool := p } c e
    | _ => none
  | .free c e =>
    match s.pc c with
    | .idle => (s.pool.decAndTest e).map fun r =>
        if r.1 then (s.goto c (.freeMove e) r.2).lose c e else lose { s with pool := r.2 } c e
    | _ => none
  | .copy c e =>
    match s.pc c with
    | .idle => (s.pool.copyAlloc e).map fun r =>
        match r.1 with
        | some dst => s.goto c (.copyBytes e dst) r.2
        | none => { s with pool := r.2 }
    | _ => none
  | .access c => s.access c

/-- **What the clients have to keep to**: a client only frees references it owns, and takes
one, or makes a copy, only while there is one; `pbuf_alloc` asserts that the size fits. -/
def Permitted (s : PoolSys γ) : PoolEvent γ → Prop
  | .alloc c size => s.pc c = .idle ∧ size ≤ pbufMaxSize
  | .hold c e => s.pc c = .idle ∧ s.owners e ≠ []
  | .free c e => s.pc c = .idle ∧ c ∈ s.owners e
  | .copy c e => s.pc c = .idle ∧ s.owners e ≠ []
  | .access c => s.pc c ≠ .idle

instance (s : PoolSys γ) (ev : PoolEvent γ) : Decidable (s.Permitted ev) :=
  match ev with
  | .alloc _ _ => inferInstanceAs (Decidable (_ ∧ _))
  | .hold _ _ => inferInstanceAs (Decidable (_ ∧ _))
  | .free _ _ => inferInstanceAs (Decidable (_ ∧ _))
  | .copy _ _ => inferInstanceAs (Decidable (_ ∧ _))
  | .access _ => inferInstanceAs (Decidable (_ ≠ _))

omit [DecidableEq γ] in
theorem gain_owners_self (s : PoolSys γ) (c : γ) (e : PoolEntry) :
    (s.gain c e).owners e = c :: s.owners e :=
  Function.update_self ..

omit [DecidableEq γ] in
theorem gain_owners_of_ne (s : PoolSys γ) (c : γ) {e e' : PoolEntry} (he : e' ≠ e) :
    (s.gain c e).owners e' = s.owners e' :=
  Function.update_of_ne he _ _

theorem lose_owners_self (s : PoolSys γ) (c : γ) (e : PoolEntry) :
    (s.lose c e).owners e = (s.owners e).erase c :=
  Function.update_self ..

theorem lose_owners_of_ne (s : PoolSys γ) (c : γ) {e e' : PoolEntry} (he : e' ≠ e) :
    (s.lose c e).owners e' = s.owners e' :=
  Function.update_of_ne he _ _

theorem goto_pc_self (s : PoolSys γ) (c : γ) (pc : PoolPc) (p : PbufPool) :
    (s.goto c pc p).pc c = pc :=
  Function.update_self ..

theorem goto_pc_of_ne (s : PoolSys γ) {c c' : γ} (pc : PoolPc) (p : PbufPool) (hc : c' ≠ c) :
    (s.goto c pc p).pc c' = s.pc c' :=
  Function.update_of_ne hc _ _

/-- The clients before any of them has called a function. -/
def begin (p : PbufPool) : PoolSys γ := ⟨p, fun _ => [], fun _ => .idle⟩

end PoolSys
