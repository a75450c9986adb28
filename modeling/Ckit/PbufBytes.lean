import Ckit.Cells
import Ckit.PbufPoolSpec
import Ckit.Refinement

/-!
# The bytes of packet buffers

A packet buffer stands for a sequence of bytes with room before it and after it. The payload is
what is at `head[data .. tail)`; pushing and putting make room at its two ends, which the
caller then fills, and pulling and trimming take bytes off them.

The bytes of a buffer are not in its `struct pbuf` but behind it, in the entry of the pool.
`head` is the last member of the struct and has no length, so its first `pad` bytes are those
the compiler adds at the end of the struct, and the `4096` bytes of the entry follow. `memset`
and `memcpy` count the size of the struct, and so the padding, too: `pbuf_copy` copies the
first `pad + tail` bytes of `head`.

`packetMachine` says what the calls are for, in terms of packets. The pool refines it
(`pbuf_refines_packets`): in every run, on any number of buffers and copies of them, a call
that the machine admits passes its assertion, and does to its own packet what it should and to
the others nothing.
-/

/-- The header offsets of a buffer. -/
inductive PbufHeader where
  | link
  | network
  | transport
  | payload
deriving DecidableEq, Repr

namespace Pbuf

/-- The offset of a header. -/
def offset (pb : Pbuf) : PbufHeader → ℕ
  | .link => pb.linkOffset
  | .network => pb.networkOffset
  | .transport => pb.transportOffset
  | .payload => pb.payloadOffset

/-- `pbuf_reset_link_header`, `pbuf_reset_network_header`, `pbuf_reset_transport_header` and
`pbuf_reset_payload`. -/
def pbufReset (pb : Pbuf) : PbufHeader → Pbuf
  | .link => { pb with linkOffset := pb.data }
  | .network => { pb with networkOffset := pb.data }
  | .transport => { pb with transportOffset := pb.data }
  | .payload => { pb with payloadOffset := pb.data }

end Pbuf

/-- The pool with the bytes at the `head` of each entry. -/
structure PbufStore where
  pool : PbufPool
  head : PoolEntry → ℕ → UInt8

namespace PbufStore

/-- The write of the bytes of an entry. -/
def setHead (s : PbufStore) (e : PoolEntry) (m : ℕ → UInt8) : PbufStore :=
  { s with head := Function.update s.head e m }

/-- `pbuf_alloc`. The `memset` of `pbuf_init` clears the padding with the struct. -/
def pbufAlloc (pad : ℕ) (s : PbufStore) (size : ℕ) : Option (Option PoolEntry × PbufStore) :=
  (s.pool.pbufAlloc size).map fun r =>
    match r.1 with
    | none => (none, { s with pool := r.2 })
    | some e => (some e,
        { s with pool := r.2 }.setHead e (Cells.write (s.head e) 0 (List.replicate pad 0)))

/-- The `memcpy` of `pbuf_copy`. -/
def copyBytes (pad : ℕ) (s : PbufStore) (src dst : PoolEntry) : Option PbufStore :=
  (s.pool.copyBytes src dst).map fun p =>
    { s with pool := p }.setHead dst
      (Cells.write (s.head dst) 0 (Cells.read (s.head src) 0 (pad + (s.pool.pbuf src).tail)))

/-- `pbuf_copy`. -/
def pbufCopy (pad : ℕ) (s : PbufStore) (e : PoolEntry) : Option (Option PoolEntry × PbufStore) :=
  if s.pool.live (.entry e) then
    (s.pbufAlloc pad (s.pool.pbuf e).len).bind fun r =>
      match r.1 with
      | none => some (none, r.2)
      | some dst => (r.2.copyBytes pad e dst).map fun s =>
          (some dst, { s with pool := s.pool.setRefcount dst 1 })
  else none

/-- The bytes do not change what `pbuf_alloc` does to the pool. -/
theorem pbufAlloc_pool (pad : ℕ) (s : PbufStore) (size : ℕ) :
    (s.pbufAlloc pad size).map (fun r => (r.1, r.2.pool)) = s.pool.pbufAlloc size := by
  rw [pbufAlloc]
  rcases s.pool.pbufAlloc size with _ | ⟨_ | e, p⟩
  · rfl
  · rfl
  · rfl

/-- The bytes do not change what `pbuf_copy` does to the pool. -/
theorem pbufCopy_pool (pad : ℕ) (s : PbufStore) (e : PoolEntry) :
    (s.pbufCopy pad e).map (fun r => (r.1, r.2.pool)) = s.pool.pbufCopy e := by
  rw [PbufPool.pbufCopy, PbufPool.copyAlloc, pbufCopy]
  split
  · rw [← pbufAlloc_pool pad s]
    rcases s.pbufAlloc pad (s.pool.pbuf e).len with _ | ⟨_ | dst, s'⟩
    · rfl
    · rfl
    · show ((s'.copyBytes pad e dst).map _).map _ = (s'.pool.copyBytes e dst).map _
      rw [copyBytes, Option.map_map, Option.map_map]
      rfl
  · rfl

/-- A call that moves the window of a buffer, with the offset it returns. -/
def window (s : PbufStore) (e : PoolEntry) (f : Pbuf → Option (ℕ × Pbuf)) :
    Option (ℕ × PbufStore) :=
  if s.pool.live (.entry e) then
    (f (s.pool.pbuf e)).map fun r => (r.1, { s with pool := s.pool.setPbuf e r.2 })
  else none

/-- The caller's write of `xs` at an offset of `head`, inside the entry. -/
def writeBytes (pad : ℕ) (s : PbufStore) (e : PoolEntry) (pos : ℕ) (xs : List UInt8) :
    Option PbufStore :=
  if s.pool.live (.entry e) ∧ pos + xs.length ≤ pad + pbufMaxSize then
    some (s.setHead e (Cells.write (s.head e) pos xs))
  else none

end PbufStore

/-- A call on a buffer. A push and a put are followed by the write of the bytes. -/
inductive PacketOp where
  | alloc (size : ℕ)
  | reserve (e : PoolEntry) (len : ℕ)
  | push (e : PoolEntry) (xs : List UInt8)
  | pull (e : PoolEntry) (len : ℕ)
  | put (e : PoolEntry) (xs : List UInt8)
  | trim (e : PoolEntry) (len : ℕ)
  | reset (e : PoolEntry) (h : PbufHeader)
  | copy (e : PoolEntry)
  | headroom (e : PoolEntry)
  | tailroom (e : PoolEntry)

/-- What a call returns, as far as the caller looks at it. -/
inductive PacketAnswer where
  | done
  | buffer (e : Option PoolEntry)
  | amount (n : ℕ)
deriving DecidableEq

/-- The calls, with the bytes. -/
def PacketOp.call (pad : ℕ) (s : PbufStore) : PacketOp → Option (PacketAnswer × PbufStore)
  | .alloc size => (s.pbufAlloc pad size).map fun r => (.buffer r.1, r.2)
  | .reserve e len => (s.window e (·.pbufReserve len)).map fun r => (.done, r.2)
  | .push e xs => (s.window e (·.pbufPush xs.length)).bind fun r =>
      (r.2.writeBytes pad e r.1 xs).map fun s => (.done, s)
  | .pull e len => (s.window e (·.pbufPull len)).map fun r => (.done, r.2)
  | .put e xs => (s.window e (·.pbufPut xs.length)).bind fun r =>
      (r.2.writeBytes pad e r.1 xs).map fun s => (.done, s)
  | .trim e len => (s.window e fun pb => some (0, pb.pbufTrim len)).map fun r => (.done, r.2)
  | .reset e h => (s.window e fun pb => some (0, pb.pbufReset h)).map fun r => (.done, r.2)
  | .copy e => (s.pbufCopy pad e).map fun r => (.buffer r.1, r.2)
  | .headroom e =>
    if s.pool.live (.entry e) then some (.amount (s.pool.pbuf e).pbufHeadroom, s) else none
  | .tailroom e =>
    if s.pool.live (.entry e) then some (.amount (s.pool.pbuf e).pbufTailroom, s) else none

/-! ## Packets -/

/-- **A packet**: bytes, with room before and after them, and the offsets of its headers. -/
@[ext] structure Packet where
  headroom : ℕ
  payload : List UInt8
  tailroom : ℕ
  offset : PbufHeader → ℕ

namespace Packet

/-- A packet with no bytes. -/
def empty (size : ℕ) : Packet := ⟨0, [], size, fun _ => 0⟩

/-- What the calls on a packet do to it. -/
def reserve (k : Packet) (len : ℕ) : Packet :=
  { k with headroom := k.headroom + len, tailroom := k.tailroom - len }

def push (k : Packet) (xs : List UInt8) : Packet :=
  { k with headroom := k.headroom - xs.length, payload := xs ++ k.payload }

def pull (k : Packet) (len : ℕ) : Packet :=
  { k with headroom := k.headroom + len, payload := k.payload.drop len }

def put (k : Packet) (xs : List UInt8) : Packet :=
  { k with payload := k.payload ++ xs, tailroom := k.tailroom - xs.length }

def trim (k : Packet) (len : ℕ) : Packet :=
  { k with payload := k.payload.take len, tailroom := k.tailroom + (k.payload.length - len) }

def reset (k : Packet) (h : PbufHeader) : Packet :=
  { k with offset := Function.update k.offset h k.headroom }

end Packet

/-- **What the calls are for**, in terms of the packets a program has. -/
def packetMachine : Machine (PoolEntry → Option Packet) PacketOp PacketAnswer where
  pre x
    | .alloc size => size ≤ pbufMaxSize
    | .reserve e len => ∃ k, x e = some k ∧ k.payload = [] ∧ len ≤ k.tailroom
    | .push e xs => ∃ k, x e = some k ∧ xs.length ≤ k.headroom
    | .pull e len => ∃ k, x e = some k ∧ len ≤ k.payload.length
    | .put e xs => ∃ k, x e = some k ∧ xs.length ≤ k.tailroom
    | .trim e len => ∃ k, x e = some k ∧ len ≤ k.payload.length
    | .reset e _ | .copy e | .headroom e | .tailroom e => ∃ k, x e = some k
  post x op a x' := match op with
    | .alloc size => a = .buffer none ∧ x' = x
        ∨ ∃ e, a = .buffer (some e) ∧ x e = none
          ∧ x' = Function.update x e (some (.empty size))
    | .reserve e len => ∃ k, x e = some k ∧ a = .done
        ∧ x' = Function.update x e (some (k.reserve len))
    | .push e xs => ∃ k, x e = some k ∧ a = .done ∧ x' = Function.update x e (some (k.push xs))
    | .pull e len => ∃ k, x e = some k ∧ a = .done ∧ x' = Function.update x e (some (k.pull len))
    | .put e xs => ∃ k, x e = some k ∧ a = .done ∧ x' = Function.update x e (some (k.put xs))
    | .trim e len => ∃ k, x e = some k ∧ a = .done ∧ x' = Function.update x e (some (k.trim len))
    | .reset e h => ∃ k, x e = some k ∧ a = .done ∧ x' = Function.update x e (some (k.reset h))
    | .copy e => ∃ k, x e = some k ∧ (a = .buffer none ∧ x' = x
        ∨ ∃ dst, a = .buffer (some dst) ∧ x dst = none ∧ x' = Function.update x dst (some k))
    | .headroom e => ∃ k, x e = some k ∧ a = .amount k.headroom ∧ x' = x
    | .tailroom e => ∃ k, x e = some k ∧ a = .amount k.tailroom ∧ x' = x

/-- **The buffer stands for the packet**, with the bytes `m` at its head. Nobody else holds it. -/
structure Pbuf.Carries (pb : Pbuf) (m : ℕ → UInt8) (k : Packet) : Prop where
  window : pb.Window pb.end_
  headroom : pb.data = k.headroom
  payload : Cells.read m pb.data pb.len = k.payload
  tailroom : pb.end_ - pb.tail = k.tailroom
  offset : ∀ h, pb.offset h = k.offset h
  refcount : pb.refcount = 1

/-- **The pool holds the packets**, each in an entry that is in use. -/
def PbufStore.HoldsPackets (s : PbufStore) (x : PoolEntry → Option Packet) : Prop :=
  ∃ array n fl ul, s.pool.Split array n fl ul
    ∧ ∀ e k, x e = some k → e ∈ ul ∧ (s.pool.pbuf e).Carries (s.head e) k

/-! ## One buffer -/

namespace Pbuf

variable {pb : Pbuf} {size len : ℕ}

/-! The calls on a buffer with a window, for the lengths that keep it: the arithmetic does not
wrap. -/

theorem pbufReserve_eq (hw : pb.Window size) (h : pb.tail + len ≤ pb.end_) :
    pb.pbufReserve len
      = some (pb.data + len, { pb with data := pb.data + len, tail := pb.tail + len }) := by
  obtain ⟨hdt, hte, hes, hsm, -⟩ := hw
  unfold pbufMaxSize at hsm
  rw [pbufReserve, sub32_of_le (hdt.trans hte) (by omega), if_pos (by omega),
    u32_u64_of_lt (show pb.data + len < 2 ^ 32 by omega),
    u32_u64_of_lt (show pb.tail + len < 2 ^ 32 by omega)]
  rfl

theorem pbufPush_eq (hw : pb.Window size) (h : len ≤ pb.data) :
    pb.pbufPush len
      = some (pb.data - len, { pb with data := pb.data - len, len := pb.len + len }) := by
  obtain ⟨hdt, hte, hes, hsm, hlen⟩ := hw
  unfold pbufMaxSize at hsm
  rw [pbufPush, if_pos h, sub64_of_le h (by omega),
    u32_of_lt (show pb.data - len < 2 ^ 32 by omega),
    u64_of_lt (show pb.len + len < 2 ^ 64 by omega)]
  rfl

theorem pbufPull_eq (hw : pb.Window size) (h : len ≤ pb.len) :
    pb.pbufPull len
      = some (pb.data + len, { pb with data := pb.data + len, len := pb.len - len }) := by
  obtain ⟨hdt, hte, hes, hsm, hlen⟩ := hw
  unfold pbufMaxSize at hsm
  rw [pbufPull, sub32_of_le (hdt.trans hte) (by omega), if_pos (by omega),
    u32_u64_of_lt (show pb.data + len < 2 ^ 32 by omega), sub64_of_le h (by omega)]
  rfl

theorem pbufPut_eq (hw : pb.Window size) (h : pb.tail + len ≤ pb.end_) :
    pb.pbufPut len
      = some (pb.tail, { pb with tail := pb.tail + len, len := pb.len + len }) := by
  obtain ⟨hdt, hte, hes, hsm, hlen⟩ := hw
  unfold pbufMaxSize at hsm
  rw [pbufPut, sub32_of_le hte (by omega), if_pos (by omega),
    u32_u64_of_lt (show pb.tail + len < 2 ^ 32 by omega),
    u64_of_lt (show pb.len + len < 2 ^ 64 by omega)]

theorem pbufTrim_eq (hw : pb.Window size) (h : len ≤ pb.len) :
    pb.pbufTrim len = { pb with len := len, tail := pb.data + len } := by
  obtain ⟨hdt, hte, hes, hsm, hlen⟩ := hw
  unfold pbufMaxSize at hsm
  rw [pbufTrim, u32_u64_of_lt (by omega)]

namespace Carries

variable {m : ℕ → UInt8} {k : Packet}

theorem length (h : pb.Carries m k) : pb.len = k.payload.length := by
  rw [← h.payload, Cells.length_read]

/-- Where the window is. -/
theorem bounds (h : pb.Carries m k) :
    pb.data = k.headroom ∧ pb.tail = k.headroom + k.payload.length
      ∧ pb.end_ = k.headroom + k.payload.length + k.tailroom ∧ pb.end_ ≤ pbufMaxSize := by
  obtain ⟨hdt, hte, -, hmax, hlen⟩ := h.window
  have hdata := h.headroom
  have htail := h.tailroom
  have hpay := h.length
  omega

/-- A buffer whose window and bytes are those of a packet. -/
theorem of_bounds (hdata : pb.data = k.headroom) (htail : pb.tail = k.headroom + k.payload.length)
    (hend : pb.end_ = k.headroom + k.payload.length + k.tailroom) (hmax : pb.end_ ≤ pbufMaxSize)
    (hlen : pb.len = k.payload.length)
    (hpay : Cells.read m k.headroom k.payload.length = k.payload)
    (hoffset : ∀ h, pb.offset h = k.offset h) (hrefs : pb.refcount = 1) : pb.Carries m k := by
  refine ⟨⟨by omega, by omega, rfl, hmax, by omega⟩, hdata, ?_, by omega, hoffset, hrefs⟩
  rw [hdata, hlen, hpay]

theorem read (h : pb.Carries m k) : Cells.read m k.headroom k.payload.length = k.payload := by
  rw [← h.headroom, ← h.length]
  exact h.payload

/-- **A reservation on an empty payload.** -/
theorem reserve (h : pb.Carries m k) (hempty : k.payload = []) (hlen : len ≤ k.tailroom) :
    ∃ pos pb', pb.pbufReserve len = some (pos, pb') ∧ pb'.Carries m (k.reserve len) := by
  obtain ⟨hdata, htail, hend, hmax⟩ := h.bounds
  have hpay := h.length
  refine ⟨_, _, pbufReserve_eq h.window (by omega), of_bounds ?_ ?_ ?_ hmax hpay ?_ h.offset
    h.refcount⟩
  · exact congrArg (· + len) hdata
  · show pb.tail + len = k.headroom + len + k.payload.length
    omega
  · show pb.end_ = k.headroom + len + k.payload.length + (k.tailroom - len)
    omega
  · show Cells.read m (k.headroom + len) k.payload.length = k.payload
    rw [hempty]
    rfl

/-- **A push**, with the bytes written where it points: they come before the payload. -/
theorem push (h : pb.Carries m k) {xs : List UInt8} (hlen : xs.length ≤ k.headroom) :
    ∃ pos pb', pb.pbufPush xs.length = some (pos, pb') ∧ pos + xs.length ≤ pbufMaxSize
      ∧ pb'.Carries (Cells.write m pos xs) (k.push xs) := by
  obtain ⟨hdata, htail, hend, hmax⟩ := h.bounds
  have hpay := h.length
  have hsum : (xs ++ k.payload).length = xs.length + k.payload.length := List.length_append
  refine ⟨_, _, pbufPush_eq h.window (by omega), by omega, of_bounds ?_ ?_ ?_ hmax ?_ ?_ h.offset
    h.refcount⟩
  · exact congrArg (· - xs.length) hdata
  · show pb.tail = k.headroom - xs.length + (xs ++ k.payload).length
    omega
  · show pb.end_ = k.headroom - xs.length + (xs ++ k.payload).length + k.tailroom
    omega
  · show pb.len + xs.length = (xs ++ k.payload).length
    omega
  · show Cells.read _ (k.headroom - xs.length) (xs ++ k.payload).length = xs ++ k.payload
    rw [hsum, Cells.read_add, hdata, Cells.read_write, Nat.sub_add_cancel hlen,
      Cells.read_write_of_disjoint m (.inr (Nat.sub_add_cancel hlen).le), h.read]

/-- **A pull** takes bytes off the front. -/
theorem pull (h : pb.Carries m k) (hlen : len ≤ k.payload.length) :
    ∃ pos pb', pb.pbufPull len = some (pos, pb') ∧ pb'.Carries m (k.pull len) := by
  obtain ⟨hdata, htail, hend, hmax⟩ := h.bounds
  have hpay := h.length
  have hdrop : (k.payload.drop len).length = k.payload.length - len := List.length_drop
  refine ⟨_, _, pbufPull_eq h.window (by omega), of_bounds ?_ ?_ ?_ hmax ?_ ?_ h.offset
    h.refcount⟩
  · exact congrArg (· + len) hdata
  · show pb.tail = k.headroom + len + (k.payload.drop len).length
    omega
  · show pb.end_ = k.headroom + len + (k.payload.drop len).length + k.tailroom
    omega
  · show pb.len - len = (k.payload.drop len).length
    omega
  · show Cells.read m (k.headroom + len) (k.payload.drop len).length = k.payload.drop len
    rw [hdrop, ← Cells.drop_read hlen, h.read]

/-- **A put**, with the bytes written where it points: they come after the payload. -/
theorem put (h : pb.Carries m k) {xs : List UInt8} (hlen : xs.length ≤ k.tailroom) :
    ∃ pos pb', pb.pbufPut xs.length = some (pos, pb') ∧ pos + xs.length ≤ pbufMaxSize
      ∧ pb'.Carries (Cells.write m pos xs) (k.put xs) := by
  obtain ⟨hdata, htail, hend, hmax⟩ := h.bounds
  have hpay := h.length
  have hsum : (k.payload ++ xs).length = k.payload.length + xs.length := List.length_append
  refine ⟨_, _, pbufPut_eq h.window (by omega), by omega, of_bounds hdata ?_ ?_ hmax ?_ ?_ h.offset
    h.refcount⟩
  · show pb.tail + xs.length = k.headroom + (k.payload ++ xs).length
    omega
  · show pb.end_ = k.headroom + (k.payload ++ xs).length + (k.tailroom - xs.length)
    omega
  · show pb.len + xs.length = (k.payload ++ xs).length
    omega
  · show Cells.read _ k.headroom (k.payload ++ xs).length = k.payload ++ xs
    rw [hsum, Cells.read_add, htail, Cells.read_write,
      Cells.read_write_of_disjoint m (.inl le_rfl), h.read]

/-- **A trim** keeps the front. -/
theorem trim (h : pb.Carries m k) (hlen : len ≤ k.payload.length) :
    (pb.pbufTrim len).Carries m (k.trim len) := by
  obtain ⟨hdata, htail, hend, hmax⟩ := h.bounds
  have hpay := h.length
  have htake : (k.payload.take len).length = len := List.length_take_of_le hlen
  rw [pbufTrim_eq h.window (by omega)]
  refine of_bounds hdata ?_ ?_ hmax htake.symm ?_ h.offset h.refcount
  · show pb.data + len = k.headroom + (k.payload.take len).length
    omega
  · show pb.end_ = k.headroom + (k.payload.take len).length
      + (k.tailroom + (k.payload.length - len))
    omega
  · show Cells.read m k.headroom (k.payload.take len).length = k.payload.take len
    rw [htake, ← Cells.take_read hlen, h.read]

/-- **A header is set** to where the payload begins. -/
theorem reset (h : pb.Carries m k) (hd : PbufHeader) :
    (pb.pbufReset hd).Carries m (k.reset hd) := by
  have hoffset : ∀ h', (pb.pbufReset hd).offset h' = (k.reset hd).offset h' := by
    intro h'
    show _ = Function.update k.offset hd k.headroom h'
    rw [← h.headroom]
    by_cases heq : h' = hd
    · rw [heq, Function.update_self]
      cases hd <;> rfl
    · rw [Function.update_of_ne heq, ← h.offset]
      cases hd <;> cases h' <;> first | rfl | exact absurd rfl heq
  cases hd with
  | link | network | transport | payload =>
    exact ⟨⟨h.window.1, h.window.2, h.window.3, h.window.4, h.window.5⟩, h.headroom, h.payload,
      h.tailroom, hoffset, h.refcount⟩

end Carries

end Pbuf

/-! ## All buffers -/

namespace PbufStore

variable {pad : ℕ} {s s' : PbufStore} {x : PoolEntry → Option Packet} {e : PoolEntry}
  {k k' : Packet} {array n : ℕ} {fl ul : List PoolEntry}

/-- Every entry but one is as it was. -/
def SameElsewhere (s s' : PbufStore) (e : PoolEntry) : Prop :=
  ∀ e' ≠ e, s'.pool.pbuf e' = s.pool.pbuf e' ∧ s'.head e' = s.head e'

/-- The buffer of a packet is allocated. -/
theorem HoldsPackets.live (h : s.HoldsPackets x) (he : x e = some k) :
    s.pool.live (.entry e) = true := by
  obtain ⟨array, n, fl, ul, hsplit, hpackets⟩ := h
  exact hsplit.live e (.inr (hpackets e k he).1)

theorem HoldsPackets.carries (h : s.HoldsPackets x) (he : x e = some k) :
    (s.pool.pbuf e).Carries (s.head e) k := by
  obtain ⟨array, n, fl, ul, -, hpackets⟩ := h
  exact (hpackets e k he).2

/-- **A packet changes, and the others do not.** -/
theorem HoldsPackets.set (h : s.HoldsPackets x) (he : x e = some k)
    (hlinks : s'.pool.links = s.pool.links) (hroom : s'.pool.room = s.pool.room)
    (hsame : s.SameElsewhere s' e) (hcarries : (s'.pool.pbuf e).Carries (s'.head e) k') :
    s'.HoldsPackets (Function.update x e (some k')) := by
  obtain ⟨array, n, fl, ul, hsplit, hpackets⟩ := h
  refine ⟨array, n, fl, ul, hsplit.of_links hlinks hroom, fun e' k₁ he' => ?_⟩
  by_cases hee : e' = e
  · rw [hee, Function.update_self] at he'
    obtain rfl : k' = k₁ := Option.some.inj he'
    rw [hee]
    exact ⟨(hpackets e k he).1, hcarries⟩
  · rw [Function.update_of_ne hee] at he'
    obtain ⟨hmem, hc⟩ := hpackets e' k₁ he'
    obtain ⟨hpbuf, hhead⟩ := hsame e' hee
    rw [hpbuf, hhead]
    exact ⟨hmem, hc⟩

/-- **A call that moves the window** of a packet's buffer. -/
theorem HoldsPackets.window (h : s.HoldsPackets x) (he : x e = some k)
    {f : Pbuf → Option (ℕ × Pbuf)} {pos : ℕ} {pb : Pbuf} (hf : f (s.pool.pbuf e) = some (pos, pb))
    (hcarries : pb.Carries (s.head e) k') :
    ∃ s', s.window e f = some (pos, s') ∧ s'.HoldsPackets (Function.update x e (some k')) := by
  refine ⟨{ s with pool := s.pool.setPbuf e pb }, ?_, h.set he rfl rfl (fun e' hee => ?_) ?_⟩
  · rw [PbufStore.window, if_pos (h.live he), hf]
    rfl
  · exact ⟨s.pool.setPbuf_of_ne pb hee, rfl⟩
  · rw [s.pool.setPbuf_self]
    exact hcarries

/-- **A call that moves the window, and the write of the bytes** it makes room for. -/
theorem HoldsPackets.windowWrite (h : s.HoldsPackets x) (he : x e = some k)
    {f : Pbuf → Option (ℕ × Pbuf)} {pos : ℕ} {pb : Pbuf} {xs : List UInt8}
    (hf : f (s.pool.pbuf e) = some (pos, pb)) (hpos : pos + xs.length ≤ pbufMaxSize)
    (hcarries : pb.Carries (Cells.write (s.head e) pos xs) k') :
    ∃ s', ((s.window e f).bind fun r => (r.2.writeBytes pad e r.1 xs).map fun s =>
        (PacketAnswer.done, s)) = some (.done, s')
      ∧ s'.HoldsPackets (Function.update x e (some k')) := by
  let s₁ : PbufStore := { s with pool := s.pool.setPbuf e pb }
  refine ⟨s₁.setHead e (Cells.write (s.head e) pos xs), ?_,
    h.set he rfl rfl (fun e' hee => ?_) ?_⟩
  · have hwrite : s₁.writeBytes pad e pos xs
        = some (s₁.setHead e (Cells.write (s.head e) pos xs)) :=
      if_pos ⟨h.live he, hpos.trans (Nat.le_add_left _ _)⟩
    rw [PbufStore.window, if_pos (h.live he), hf]
    show (s₁.writeBytes pad e pos xs).map _ = _
    rw [hwrite]
    rfl
  · exact ⟨s.pool.setPbuf_of_ne pb hee, Function.update_of_ne hee _ _⟩
  · have hpbuf : (s₁.setHead e (Cells.write (s.head e) pos xs)).pool.pbuf e = pb :=
      s.pool.setPbuf_self e pb
    have hhead : (s₁.setHead e (Cells.write (s.head e) pos xs)).head e
        = Cells.write (s.head e) pos xs := Function.update_self ..
    rw [hpbuf, hhead]
    exact hcarries

/-- **What `pbuf_alloc` does**: nothing where there is no entry, and otherwise it hands one out
and leaves the others alone. -/
theorem pbufAlloc_cases (h : s.pool.Split array n fl ul) {size : ℕ} (hsize : size ≤ pbufMaxSize) :
    s.pbufAlloc pad size = some (none, s)
      ∨ ∃ e fl' s', fl = e :: fl' ∧ s.pbufAlloc pad size = some (some e, s')
        ∧ s'.pool.Split array n fl' (e :: ul)
        ∧ s'.pool.pbuf e = { pbufInit size with allocLen := size } ∧ s.SameElsewhere s' e := by
  cases fl with
  | nil =>
    refine .inl ?_
    rw [pbufAlloc, PbufPool.pbufAlloc, if_pos hsize, h.allocSection_nil]
    rfl
  | cons e fl =>
    obtain ⟨halloc, hsplit⟩ := h.allocSection_cons size
    refine .inr ⟨e, fl, { s with pool := s.pool.handOut e size }.setHead e
      (Cells.write (s.head e) 0 (List.replicate pad 0)), rfl, ?_, hsplit,
      PbufPool.setPbuf_self .., fun e' hee => ⟨PbufPool.setPbuf_of_ne _ _ hee,
        Function.update_of_ne hee _ _⟩⟩
    rw [pbufAlloc, PbufPool.pbufAlloc, if_pos hsize, halloc]
    rfl

/-- An entry that is handed out holds no packet, and may get one. -/
theorem HoldsPackets.add (hsplit : s.pool.Split array n (e :: fl) ul)
    (hpackets : ∀ e' k', x e' = some k' → e' ∈ ul ∧ (s.pool.pbuf e').Carries (s.head e') k')
    (hsplit' : s'.pool.Split array n fl (e :: ul)) (hsame : s.SameElsewhere s' e)
    (hcarries : (s'.pool.pbuf e).Carries (s'.head e) k) :
    x e = none ∧ s'.HoldsPackets (Function.update x e (some k)) := by
  have hnone : ∀ k', x e ≠ some k' := fun k' hk' =>
    hsplit.holds.notMem_use List.mem_cons_self (hpackets e k' hk').1
  refine ⟨Option.eq_none_iff_forall_ne_some.mpr hnone, array, n, fl, e :: ul, hsplit',
    fun e' k' he' => ?_⟩
  by_cases hee : e' = e
  · rw [hee, Function.update_self] at he'
    obtain rfl : k = k' := Option.some.inj he'
    rw [hee]
    exact ⟨List.mem_cons_self, hcarries⟩
  · rw [Function.update_of_ne hee] at he'
    obtain ⟨hmem, hc⟩ := hpackets e' k' he'
    obtain ⟨hpbuf, hhead⟩ := hsame e' hee
    rw [hpbuf, hhead]
    exact ⟨List.mem_cons_of_mem _ hmem, hc⟩

/-- **`pbuf_alloc`** gives an empty packet, or none. -/
theorem HoldsPackets.alloc (h : s.HoldsPackets x) {size : ℕ} (hsize : size ≤ pbufMaxSize) :
    s.pbufAlloc pad size = some (none, s)
      ∨ ∃ e s', s.pbufAlloc pad size = some (some e, s') ∧ x e = none
        ∧ s'.HoldsPackets (Function.update x e (some (.empty size))) := by
  obtain ⟨array, n, fl, ul, hsplit, hpackets⟩ := h
  rcases pbufAlloc_cases hsplit hsize with hnone | ⟨e, fl, s', rfl, halloc, hsplit', hpbuf, hsame⟩
  · exact .inl hnone
  · refine .inr ⟨e, s', halloc, HoldsPackets.add hsplit hpackets hsplit' hsame ?_⟩
    have hend : u32 size = size := u32_of_lt (hsize.trans_lt (by decide))
    rw [hpbuf]
    refine Pbuf.Carries.of_bounds rfl rfl ?_ ?_ rfl rfl (fun hd => ?_) rfl
    · show u32 size = 0 + 0 + size
      omega
    · show u32 size ≤ pbufMaxSize
      omega
    · cases hd <;> rfl

/-- **A copy stands for the same packet**: its window is the one it was copied from, and so are
the bytes up to `tail`. -/
theorem carries_copy {pb : Pbuf} {m : ℕ → UInt8} (h : pb.Carries m k) (pad : ℕ) (m' : ℕ → UInt8) :
    Pbuf.Carries { pb with refcount := 1 }
      (Cells.write m' 0 (Cells.read m 0 (pad + pb.tail))) k := by
  obtain ⟨hdata, htail, hend, hmax⟩ := h.bounds
  refine Pbuf.Carries.of_bounds hdata htail hend hmax h.length ?_ (fun hd => ?_) rfl
  · have hcopy := Cells.read_write_read m' m 0 0
      (show k.headroom + k.payload.length ≤ pad + pb.tail by omega)
    rw [Nat.zero_add] at hcopy
    rw [hcopy, h.read]
  · rw [← h.offset]
    cases hd <;> rfl

/-- **`pbuf_copy`** gives the same packet once more, in another buffer, or none. -/
theorem HoldsPackets.copy (h : s.HoldsPackets x) (he : x e = some k) :
    s.pbufCopy pad e = some (none, s)
      ∨ ∃ dst s', s.pbufCopy pad e = some (some dst, s') ∧ x dst = none
        ∧ s'.HoldsPackets (Function.update x dst (some k)) := by
  have hlive := h.live he
  have hcarries := h.carries he
  obtain ⟨hdata, htail, hend, hmax⟩ := hcarries.bounds
  have hsize : (s.pool.pbuf e).len ≤ pbufMaxSize := by
    rw [hcarries.length]
    omega
  obtain ⟨array, n, fl, ul, hsplit, hpackets⟩ := h
  rcases pbufAlloc_cases hsplit hsize with hnone | ⟨dst, fl, s₁, rfl, halloc, hsplit₁, -, hsame⟩
  · refine .inl ?_
    rw [pbufCopy, if_pos hlive, hnone]
    rfl
  · have hmem := (hpackets e k he).1
    have hne : e ≠ dst := fun heq => hsplit.holds.notMem_use List.mem_cons_self (heq ▸ hmem)
    obtain ⟨hpbuf, hhead⟩ := hsame e hne
    let s₂ : PbufStore := { s₁ with pool := s₁.pool.setPbuf dst (s₁.pool.pbuf e) }.setHead dst
      (Cells.write (s₁.head dst) 0 (Cells.read (s₁.head e) 0 (pad + (s₁.pool.pbuf e).tail)))
    have hcopy : s₁.copyBytes pad e dst = some s₂ := by
      have hfits : (s₁.pool.pbuf e).tail ≤ pbufMaxSize := by
        rw [hpbuf]
        omega
      rw [copyBytes, PbufPool.copyBytes,
        if_pos ⟨hsplit₁.live e (.inr (List.mem_cons_of_mem _ hmem)),
          hsplit₁.live dst (.inr List.mem_cons_self), hfits⟩]
      rfl
    refine .inr ⟨dst, { s₂ with pool := s₂.pool.setRefcount dst 1 }, ?_, ?_⟩
    · rw [pbufCopy, if_pos hlive, halloc]
      show (s₁.copyBytes pad e dst).map _ = _
      rw [hcopy]
      rfl
    · refine HoldsPackets.add hsplit hpackets (hsplit₁.of_links rfl rfl) (fun e' hee => ?_) ?_
      · obtain ⟨hpbuf', hhead'⟩ := hsame e' hee
        refine ⟨?_, (Function.update_of_ne hee _ _).trans hhead'⟩
        exact (PbufPool.setPbuf_of_ne _ _ hee).trans ((PbufPool.setPbuf_of_ne _ _ hee).trans hpbuf')
      · have hcopied : s₂.pool.pbuf dst = s.pool.pbuf e :=
          (PbufPool.setPbuf_self ..).trans hpbuf
        have hbytes : s₂.head dst
            = Cells.write (s₁.head dst) 0
              (Cells.read (s.head e) 0 (pad + (s.pool.pbuf e).tail)) := by
          rw [← hpbuf, ← hhead]
          exact Function.update_self ..
        show ((s₂.pool.setRefcount dst 1).pbuf dst).Carries (s₂.head dst) k
        rw [PbufPool.setRefcount, PbufPool.setPbuf_self, hcopied, hbytes]
        exact carries_copy hcarries pad _

/-- **A call that the machine admits** returns, and does what it should to its packet. -/
theorem HoldsPackets.call (h : s.HoldsPackets x) {op : PacketOp} (hpre : packetMachine.pre x op) :
    ∃ a s' x', op.call pad s = some (a, s') ∧ packetMachine.post x op a x'
      ∧ s'.HoldsPackets x' := by
  cases op with
  | alloc size =>
    rcases @HoldsPackets.alloc pad s x h size hpre with hnone | ⟨e, s', halloc, hfree, hpackets⟩
    · exact ⟨_, s, x, congrArg (Option.map _) hnone, .inl ⟨rfl, rfl⟩, h⟩
    · exact ⟨_, s', _, congrArg (Option.map _) halloc, .inr ⟨e, rfl, hfree, rfl⟩, hpackets⟩
  | reserve e len =>
    obtain ⟨k, he, hempty, hlen⟩ := hpre
    obtain ⟨pos, pb, hf, hcarries⟩ := (h.carries he).reserve hempty hlen
    obtain ⟨s', hwindow, hpackets⟩ := h.window he (f := (·.pbufReserve len)) hf hcarries
    exact ⟨_, s', _, congrArg (Option.map _) hwindow, ⟨k, he, rfl, rfl⟩, hpackets⟩
  | push e xs =>
    obtain ⟨k, he, hlen⟩ := hpre
    obtain ⟨pos, pb, hf, hpos, hcarries⟩ := (h.carries he).push hlen
    obtain ⟨s', hcall, hpackets⟩ := h.windowWrite he (f := (·.pbufPush xs.length)) hf hpos hcarries
    exact ⟨_, s', _, hcall, ⟨k, he, rfl, rfl⟩, hpackets⟩
  | pull e len =>
    obtain ⟨k, he, hlen⟩ := hpre
    obtain ⟨pos, pb, hf, hcarries⟩ := (h.carries he).pull hlen
    obtain ⟨s', hwindow, hpackets⟩ := h.window he (f := (·.pbufPull len)) hf hcarries
    exact ⟨_, s', _, congrArg (Option.map _) hwindow, ⟨k, he, rfl, rfl⟩, hpackets⟩
  | put e xs =>
    obtain ⟨k, he, hlen⟩ := hpre
    obtain ⟨pos, pb, hf, hpos, hcarries⟩ := (h.carries he).put hlen
    obtain ⟨s', hcall, hpackets⟩ := h.windowWrite he (f := (·.pbufPut xs.length)) hf hpos hcarries
    exact ⟨_, s', _, hcall, ⟨k, he, rfl, rfl⟩, hpackets⟩
  | trim e len =>
    obtain ⟨k, he, hlen⟩ := hpre
    obtain ⟨s', hwindow, hpackets⟩ := h.window he (f := fun pb => some (0, pb.pbufTrim len)) rfl
      ((h.carries he).trim hlen)
    exact ⟨_, s', _, congrArg (Option.map _) hwindow, ⟨k, he, rfl, rfl⟩, hpackets⟩
  | reset e hd =>
    obtain ⟨k, he⟩ := hpre
    obtain ⟨s', hwindow, hpackets⟩ := h.window he (f := fun pb => some (0, pb.pbufReset hd)) rfl
      ((h.carries he).reset hd)
    exact ⟨_, s', _, congrArg (Option.map _) hwindow, ⟨k, he, rfl, rfl⟩, hpackets⟩
  | copy e =>
    obtain ⟨k, he⟩ := hpre
    rcases @HoldsPackets.copy pad s x e k h he with hnone | ⟨dst, s', hcopy, hfree, hpackets⟩
    · exact ⟨_, s, x, congrArg (Option.map _) hnone, ⟨k, he, .inl ⟨rfl, rfl⟩⟩, h⟩
    · exact ⟨_, s', _, congrArg (Option.map _) hcopy, ⟨k, he, .inr ⟨dst, rfl, hfree, rfl⟩⟩,
        hpackets⟩
  | headroom e =>
    obtain ⟨k, he⟩ := hpre
    refine ⟨_, s, x, if_pos (h.live he), ⟨k, he, ?_, rfl⟩, h⟩
    rw [Pbuf.pbufHeadroom, (h.carries he).headroom]
  | tailroom e =>
    obtain ⟨k, he⟩ := hpre
    have hc := h.carries he
    refine ⟨_, s, x, if_pos (h.live he), ⟨k, he, ?_, rfl⟩, h⟩
    rw [Pbuf.pbufTailroom,
      Pbuf.sub32_of_le hc.window.tail_le (hc.window.size_le.trans_lt (by decide)), hc.tailroom]

end PbufStore

/-- **Packet buffers refine packets.** From any pool whose lists are in order, and with no packet
at first, every run of calls that the machine admits returns: no assertion fails, every answer
is right, and in every state each buffer stands for its packet. -/
theorem pbuf_refines_packets (pad : ℕ) {s : PbufStore} {array n : ℕ} {fl ul : List PoolEntry}
    (hpool : s.pool.Split array n fl ul) (ops : List PacketOp) :
    Refines (fun s op => PacketOp.call pad s op) packetMachine PbufStore.HoldsPackets s
      (fun _ => none) ops := by
  have hstart : s.HoldsPackets fun _ => none :=
    ⟨array, n, fl, ul, hpool, fun e k he => absurd he (Option.some_ne_none k).symm⟩
  exact Refines.of_countdown (J := fun _ s x => PbufStore.HoldsPackets s x) (fun _ _ _ h => h)
    (fun _ _ _ _ h hpre => h.call hpre) hstart

/-- A packet is filled from both ends and copied; the copy loses a byte in front, the packet
two at its end. -/
def packetCopy : List (PacketOp × PacketAnswer) :=
  [(.alloc 100, .buffer (some ⟨0, 0⟩)), (.reserve ⟨0, 0⟩ 20, .done),
    (.put ⟨0, 0⟩ [1, 2, 3], .done), (.push ⟨0, 0⟩ [9], .done),
    (.copy ⟨0, 0⟩, .buffer (some ⟨0, 1⟩)), (.pull ⟨0, 1⟩ 1, .done), (.trim ⟨0, 0⟩ 2, .done)]

/-- In a pool of its own, every call of the list is admitted and gives the answer next to it. -/
theorem pbuf_refines_packets_copy :
    ∃ p, PbufPool.start.pbufPoolInit 3 true = some (0, p)
      ∧ Refines (fun s op => PacketOp.call 4 s op) packetMachine PbufStore.HoldsPackets
        ⟨p, fun _ _ => 0⟩ (fun _ => none) (packetCopy.map Prod.fst)
      ∧ answers (fun s op => PacketOp.call 4 s op) ⟨p, fun _ _ => 0⟩ (packetCopy.map Prod.fst)
        = some (packetCopy.map Prod.snd)
      ∧ packetMachine.Admits (fun x => (x ⟨0, 0⟩).map Packet.payload = some [9, 1]
        ∧ (x ⟨0, 1⟩).map Packet.payload = some [1, 2, 3]) (fun _ => none) packetCopy := by
  obtain ⟨links, hinit, hsplit⟩ := PbufPool.start_holds.pbufPoolInit_eq 3
  refine ⟨_, hinit, pbuf_refines_packets 4 hsplit _, ?run, ?admits⟩
  case run =>
    have heval : (PbufPool.start.pbufPoolInit 3 true).bind (fun r =>
        answers (fun s op => PacketOp.call 4 s op) ⟨r.2, fun _ _ => 0⟩ (packetCopy.map Prod.fst))
        = some (packetCopy.map Prod.snd) := by decide +kernel
    rwa [hinit] at heval
  case admits =>
    refine ⟨show (100 : ℕ) ≤ pbufMaxSize by decide, _, .inr ⟨_, rfl, rfl, rfl⟩, ?_⟩
    refine ⟨⟨_, rfl, rfl, by decide⟩, _, ⟨_, rfl, rfl, rfl⟩, ?_⟩
    refine ⟨⟨_, rfl, by decide⟩, _, ⟨_, rfl, rfl, rfl⟩, ?_⟩
    refine ⟨⟨_, rfl, by decide⟩, _, ⟨_, rfl, rfl, rfl⟩, ?_⟩
    refine ⟨⟨_, rfl⟩, _, ⟨_, rfl, .inr ⟨_, rfl, rfl, rfl⟩⟩, ?_⟩
    refine ⟨⟨_, rfl, by decide⟩, _, ⟨_, rfl, rfl, rfl⟩, ?_⟩
    exact ⟨⟨_, rfl, by decide⟩, _, ⟨_, rfl, rfl, rfl⟩, rfl, rfl⟩
