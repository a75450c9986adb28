import Ckit.PbufBytes

/-!
# The headers of packet buffers

A packet buffer keeps four offsets into its bytes, for the headers of three
layers and for the payload. `pbuf_reset_link_header` and its siblings set one to
where the payload begins now, and `pbuf_link_header` and its siblings give the
pointer back later, when the payload may begin elsewhere.

The offsets count from `head` and not from `data`, so moving the window leaves
them right; but nothing keeps a later push or put from writing over a header,
and nothing says how long a header is. What is at such a pointer can still be
told from the calls alone. At the moment an offset is set its header is the whole
payload; a push or a put takes off what comes from its first byte on, where it
writes into the header at all (`Cells.spared`); and a copy has as much of it as
comes before `tail`, which is all that `pbuf_copy` copies. `known` is this record,
kept beside the packets of `packetMachine`, and `pbuf_headers_kept` says that the
bytes of the record are there, in every buffer and for every header, after every
call.
-/

namespace Pbuf

/-- The pointer to a header, as an offset into `head`. -/
def pbufHeader (pb : Pbuf) (hd : PbufHeader) : ℕ := pb.offset hd

/-- `pbuf_link_header`. -/
def pbufLinkHeader (pb : Pbuf) : ℕ := pb.pbufHeader .link

/-- `pbuf_network_header`. -/
def pbufNetworkHeader (pb : Pbuf) : ℕ := pb.pbufHeader .network

/-- `pbuf_transport_header`. -/
def pbufTransportHeader (pb : Pbuf) : ℕ := pb.pbufHeader .transport

/-- `pbuf_payload`. -/
def pbufPayload (pb : Pbuf) : ℕ := pb.pbufHeader .payload

end Pbuf

/-- The bytes known to be at each header of each buffer. -/
abbrev KnownBytes := PoolEntry → PbufHeader → List UInt8

/-- **What is known of the headers after a call** with its answer, from the packets before it. -/
def PacketOp.known (pad : ℕ) (x : PoolEntry → Option Packet) (g : KnownBytes) (a : PacketAnswer) :
    PacketOp → KnownBytes
  | .alloc _ =>
    match a with
    | .buffer (some e) => Function.update g e fun _ => []
    | _ => g
  | .push e xs => Function.update g e fun hd => (x e).elim [] fun k =>
      Cells.spared (g e hd) (k.offset hd) (k.headroom - xs.length) xs.length
  | .put e xs => Function.update g e fun hd => (x e).elim [] fun k =>
      Cells.spared (g e hd) (k.offset hd) (k.headroom + k.payload.length) xs.length
  | .reset e hd => Function.update g e (Function.update (g e) hd ((x e).elim [] (·.payload)))
  | .copy e =>
    match a with
    | .buffer (some dst) => Function.update g dst fun hd => (x e).elim [] fun k =>
        (g e hd).take (pad + (k.headroom + k.payload.length) - k.offset hd)
    | _ => g
  | .reserve _ _ | .pull _ _ | .trim _ _ | .headroom _ | .tailroom _ => g

/-- **The packets a program has, with what it knows of their headers.** -/
def headerMachine (pad : ℕ) :
    Machine ((PoolEntry → Option Packet) × KnownBytes) PacketOp PacketAnswer where
  pre y op := packetMachine.pre y.1 op
  post y op a y' := packetMachine.post y.1 op a y'.1 ∧ y'.2 = op.known pad y.1 y.2 a

/-- The bytes are at the offset, inside the entry. -/
def Shows (m : ℕ → UInt8) (pos : ℕ) (xs : List UInt8) : Prop :=
  pos + xs.length ≤ pbufMaxSize ∧ Cells.read m pos xs.length = xs

namespace Shows

variable {m : ℕ → UInt8} {pos : ℕ} {xs : List UInt8}

theorem nil (hpos : pos ≤ pbufMaxSize) : Shows m pos [] := ⟨hpos, rfl⟩

/-- What a write leaves is still shown. -/
theorem spared (h : Shows m pos xs) (p : ℕ) (ys : List UInt8) :
    Shows (Cells.write m p ys) pos (Cells.spared xs pos p ys.length) :=
  ⟨(Nat.add_le_add_left (Cells.length_spared_le ..) pos).trans h.1, Cells.read_spared h.2⟩

/-- A copy of the first cells shows what comes before its end. -/
theorem copied (h : Shows m pos xs) (m' : ℕ → UInt8) (n : ℕ) :
    Shows (Cells.write m' 0 (Cells.read m 0 n)) pos (xs.take (n - pos)) := by
  have hle := List.length_take_le (n - pos) xs
  have hle' := List.length_take_le' (n - pos) xs
  refine ⟨(Nat.add_le_add_left hle' pos).trans h.1, ?_⟩
  by_cases hend : pos ≤ n
  · have hcopy := Cells.read_write_read m' m 0 0
      (show pos + (xs.take (n - pos)).length ≤ n by omega)
    rw [Nat.zero_add] at hcopy
    rw [hcopy, Cells.read_take h.2]
  · have hnil : xs.take (n - pos) = [] := List.length_eq_zero_iff.mp (by omega)
    rw [hnil]
    rfl

end Shows

namespace PbufStore

/-- **The pool holds the packets, and their headers show what is known of them.** -/
structure HoldsHeaders (s : PbufStore) (y : (PoolEntry → Option Packet) × KnownBytes) : Prop where
  packets : s.HoldsPackets y.1
  shows : ∀ e k, y.1 e = some k → ∀ hd, Shows (s.head e) ((s.pool.pbuf e).pbufHeader hd) (y.2 e hd)

variable {pad : ℕ} {s s' : PbufStore} {x x' : PoolEntry → Option Packet} {g g' : KnownBytes}
  {e : PoolEntry} {k k' : Packet} {array n : ℕ} {fl ul : List PoolEntry}

theorem HoldsHeaders.shows_offset (h : s.HoldsHeaders (x, g)) (he : x e = some k)
    (hd : PbufHeader) : Shows (s.head e) (k.offset hd) (g e hd) := by
  have hshow := h.shows e k he hd
  rwa [Pbuf.pbufHeader, (h.packets.carries he).offset] at hshow

/-- **One packet changes**, with the headers of its buffer. -/
theorem HoldsHeaders.one (h : s.HoldsHeaders (x, g))
    (hpackets : s'.HoldsPackets (Function.update x e (some k')))
    (hsame : ∀ e', e' ≠ e → s'.head e' = s.head e') {v : PbufHeader → List UInt8}
    (hself : ∀ hd, Shows (s'.head e) (k'.offset hd) (v hd)) :
    s'.HoldsHeaders (Function.update x e (some k'), Function.update g e v) := by
  refine ⟨hpackets, fun e' k₁ he' hd => ?_⟩
  have hoffset := (hpackets.carries he').offset hd
  rw [Pbuf.pbufHeader, hoffset]
  by_cases hee : e' = e
  · subst hee
    dsimp only at he' ⊢
    rw [Function.update_self] at he' ⊢
    obtain rfl := Option.some.inj he'
    exact hself hd
  · dsimp only at he' ⊢
    rw [Function.update_of_ne hee] at he' ⊢
    rw [hsame e' hee]
    exact h.shows_offset he' hd

/-! ## What the calls do to the bytes -/

theorem window_head {f : Pbuf → Option (ℕ × Pbuf)} {pos : ℕ}
    (hrun : s.window e f = some (pos, s')) : s'.head = s.head := by
  unfold window at hrun
  obtain ⟨-, hrun⟩ := Option.ite_none_right_eq_some.mp hrun
  obtain ⟨r, -, heq⟩ := Option.map_eq_some_iff.mp hrun
  obtain ⟨-, rfl⟩ := Prod.mk.inj heq
  rfl

/-- A call that moves the window writes nothing. -/
theorem call_window_head {f : Pbuf → Option (ℕ × Pbuf)} {a : PacketAnswer}
    (hrun : (s.window e f).map (fun r => (PacketAnswer.done, r.2)) = some (a, s')) :
    s'.head = s.head := by
  obtain ⟨r, hwindow, heq⟩ := Option.map_eq_some_iff.mp hrun
  obtain ⟨-, rfl⟩ := Prod.mk.inj heq
  exact window_head hwindow

/-- A push or a put writes its bytes where the call points. -/
theorem call_write_head {f : Pbuf → Option (ℕ × Pbuf)} {pos : ℕ} {pb : Pbuf} {xs : List UInt8}
    {a : PacketAnswer} (hf : f (s.pool.pbuf e) = some (pos, pb))
    (hrun : ((s.window e f).bind fun r => (r.2.writeBytes pad e r.1 xs).map fun s =>
      (PacketAnswer.done, s)) = some (a, s')) :
    s'.head = Function.update s.head e (Cells.write (s.head e) pos xs) := by
  obtain ⟨⟨pos', s₁⟩, hwindow, hrun⟩ := Option.bind_eq_some_iff.mp hrun
  have hhead := window_head hwindow
  have hpos : pos' = pos := by
    unfold window at hwindow
    obtain ⟨-, hwindow⟩ := Option.ite_none_right_eq_some.mp hwindow
    rw [hf] at hwindow
    exact (Prod.mk.inj (Option.some.inj hwindow)).1.symm
  obtain ⟨s₂, hwrite, heq⟩ := Option.map_eq_some_iff.mp hrun
  obtain ⟨-, rfl⟩ := Prod.mk.inj heq
  obtain ⟨-, hwrite⟩ := Option.ite_none_right_eq_some.mp hwrite
  obtain rfl := Option.some.inj hwrite
  show Function.update s₁.head e (Cells.write (s₁.head e) pos' xs) = _
  rw [hhead, hpos]

/-- A copy has the first bytes of the buffer it was made of, and no other buffer changes. -/
theorem call_copy_head (hsplit : s.pool.Split array n fl ul) (he : e ∈ ul)
    (hsize : (s.pool.pbuf e).len ≤ pbufMaxSize) {dst : PoolEntry}
    (hrun : s.pbufCopy pad e = some (some dst, s')) :
    (∃ m, s'.head dst = Cells.write m 0 (Cells.read (s.head e) 0 (pad + (s.pool.pbuf e).tail)))
      ∧ ∀ e', e' ≠ dst → s'.head e' = s.head e' := by
  have hlive := hsplit.live e (.inr he)
  rw [pbufCopy, if_pos hlive] at hrun
  rcases @pbufAlloc_cases pad s _ _ _ _ hsplit _ hsize with
    hnone | ⟨dst', fl', s₁, rfl, halloc, hsplit₁, -, hsame⟩
  · rw [hnone] at hrun
    exact absurd (Prod.mk.inj (Option.some.inj hrun)).1.symm (Option.some_ne_none dst)
  · rw [halloc] at hrun
    obtain ⟨s₂, hbytes, heq⟩ := Option.map_eq_some_iff.mp hrun
    obtain ⟨hdst, rfl⟩ := Prod.mk.inj heq
    obtain rfl := Option.some.inj hdst
    obtain ⟨p, -, rfl⟩ := Option.map_eq_some_iff.mp hbytes
    have hne : e ≠ dst' := fun heq => hsplit.holds.notMem_use List.mem_cons_self (heq ▸ he)
    obtain ⟨hpbuf, hhead⟩ := hsame e hne
    refine ⟨⟨s₁.head dst', ?_⟩, fun e' hee => ?_⟩
    · show Function.update s₁.head dst' _ dst' = _
      rw [Function.update_self, hhead, hpbuf]
    · show Function.update s₁.head dst' _ e' = _
      rw [Function.update_of_ne hee, (hsame e' hee).2]

/-! ## One call -/

/-- A call that leaves the bytes and the offsets leaves the headers. -/
theorem HoldsHeaders.still (h : s.HoldsHeaders (x, g)) (he : x e = some k)
    (hpackets : s'.HoldsPackets (Function.update x e (some k'))) (hhead : s'.head = s.head)
    (hoffset : k'.offset = k.offset) : s'.HoldsHeaders (Function.update x e (some k'), g) := by
  have hone := h.one hpackets (fun e' _ => congrFun hhead e') (v := g e) fun hd => by
    rw [hhead, hoffset]
    exact h.shows_offset he hd
  rwa [Function.update_eq_self] at hone

/-- A push or a put leaves what it does not write over. -/
theorem HoldsHeaders.write (h : s.HoldsHeaders (x, g)) (he : x e = some k)
    (hpackets : s'.HoldsPackets (Function.update x e (some k'))) {pos : ℕ} {xs : List UInt8}
    (hhead : s'.head = Function.update s.head e (Cells.write (s.head e) pos xs))
    (hoffset : k'.offset = k.offset) :
    s'.HoldsHeaders (Function.update x e (some k'), Function.update g e fun hd =>
      Cells.spared (g e hd) (k.offset hd) pos xs.length) := by
  refine h.one hpackets (fun e' hee => ?_) fun hd => ?_
  · rw [hhead, Function.update_of_ne hee]
  · rw [hhead, Function.update_self, hoffset]
    exact (h.shows_offset he hd).spared pos xs

/-- **A call that the machine admits** leaves every header showing what is known of it. -/
theorem HoldsHeaders.call (h : s.HoldsHeaders (x, g)) {op : PacketOp}
    (hpre : packetMachine.pre x op) :
    ∃ a s' y', op.call pad s = some (a, s') ∧ (headerMachine pad).post (x, g) op a y'
      ∧ s'.HoldsHeaders y' := by
  obtain ⟨a, s', x', hcall, hpost, hpackets⟩ := @HoldsPackets.call pad s x h.packets op hpre
  refine ⟨a, s', (x', op.known pad x g a), hcall, ⟨hpost, rfl⟩, ?_⟩
  cases op with
  | alloc size =>
    obtain ⟨array, n, fl, ul, hsplit, -⟩ := h.packets
    obtain ⟨r, halloc, heq⟩ := Option.map_eq_some_iff.mp hcall
    obtain ⟨rfl, rfl⟩ := Prod.mk.inj heq
    rcases @pbufAlloc_cases pad s _ _ _ _ hsplit _ hpre with
      hnone | ⟨e, fl', s₁, -, hnew, -, -, hsame⟩
    · obtain rfl := Option.some.inj (hnone.symm.trans halloc)
      rcases hpost with ⟨-, rfl⟩ | ⟨e, hbuffer, -⟩
      · exact h
      · exact absurd (PacketAnswer.buffer.inj hbuffer).symm (Option.some_ne_none e)
    · obtain rfl := Option.some.inj (hnew.symm.trans halloc)
      rcases hpost with ⟨hbuffer, -⟩ | ⟨e', hbuffer, -, rfl⟩
      · exact absurd (PacketAnswer.buffer.inj hbuffer) (Option.some_ne_none e)
      · obtain rfl := Option.some.inj (PacketAnswer.buffer.inj hbuffer)
        exact h.one hpackets (fun e' hee => (hsame e' hee).2) fun _ => .nil (Nat.zero_le _)
  | reserve e len | pull e len | trim e len =>
    obtain ⟨k, he, -, rfl⟩ := hpost
    exact h.still he hpackets (call_window_head hcall) rfl
  | push e xs =>
    obtain ⟨k, he, hlen⟩ := hpre
    obtain ⟨k₁, he₁, -, rfl⟩ := hpost
    obtain rfl := Option.some.inj (he.symm.trans he₁)
    have hc := h.packets.carries he
    have hf := Pbuf.pbufPush_eq hc.window (show xs.length ≤ (s.pool.pbuf e).data by
      rw [hc.headroom]
      exact hlen)
    rw [hc.headroom] at hf
    have hwrite := h.write he hpackets (call_write_head hf hcall) rfl
    show s'.HoldsHeaders (_, Function.update g e fun hd => (x e).elim [] _)
    rw [he]
    exact hwrite
  | put e xs =>
    obtain ⟨k, he, hlen⟩ := hpre
    obtain ⟨k₁, he₁, -, rfl⟩ := hpost
    obtain rfl := Option.some.inj (he.symm.trans he₁)
    have hc := h.packets.carries he
    obtain ⟨-, htail, hend, -⟩ := hc.bounds
    have hf := Pbuf.pbufPut_eq hc.window
      (show (s.pool.pbuf e).tail + xs.length ≤ (s.pool.pbuf e).end_ by omega)
    rw [htail] at hf
    have hwrite := h.write he hpackets (call_write_head hf hcall) rfl
    show s'.HoldsHeaders (_, Function.update g e fun hd => (x e).elim [] _)
    rw [he]
    exact hwrite
  | reset e hd =>
    obtain ⟨k, he, -, rfl⟩ := hpost
    have hc := h.packets.carries he
    have hhead := call_window_head hcall
    show s'.HoldsHeaders (_, Function.update g e (Function.update (g e) hd ((x e).elim [] _)))
    rw [he]
    refine h.one hpackets (fun e' _ => congrFun hhead e') fun hd' => ?_
    rw [hhead]
    show Shows _ (Function.update k.offset hd k.headroom hd')
      (Function.update (g e) hd k.payload hd')
    by_cases hhd : hd' = hd
    · rw [hhd, Function.update_self, Function.update_self]
      obtain ⟨-, -, hend, hmax⟩ := hc.bounds
      exact ⟨by omega, hc.read⟩
    · rw [Function.update_of_ne hhd, Function.update_of_ne hhd]
      exact h.shows_offset he hd'
  | copy e =>
    obtain ⟨k, he⟩ := hpre
    obtain ⟨k₁, he₁, hpost⟩ := hpost
    obtain rfl := Option.some.inj (he.symm.trans he₁)
    obtain ⟨array, n, fl, ul, hsplit, hused⟩ := h.packets
    obtain ⟨hmem, hc⟩ := hused e k he
    obtain ⟨hdata, htail, hend, hmax⟩ := hc.bounds
    obtain ⟨r, hcopy, heq⟩ := Option.map_eq_some_iff.mp hcall
    obtain ⟨rfl, rfl⟩ := Prod.mk.inj heq
    obtain ⟨answer, s₁⟩ := r
    rcases hpost with ⟨hbuffer, rfl⟩ | ⟨dst, hbuffer, hfree, rfl⟩
    · obtain rfl := PacketAnswer.buffer.inj hbuffer
      rcases @HoldsPackets.copy pad s _ e k h.packets he with hnone | ⟨dst, s₂, hsome, -, -⟩
      · obtain rfl := (Prod.mk.inj (Option.some.inj (hnone.symm.trans hcopy))).2
        exact h
      · exact absurd (Prod.mk.inj (Option.some.inj (hsome.symm.trans hcopy))).1
          (Option.some_ne_none dst)
    · obtain rfl := PacketAnswer.buffer.inj hbuffer
      obtain ⟨⟨m, hbytes⟩, hsame⟩ := call_copy_head hsplit hmem (by rw [hc.length]; omega) hcopy
      show s₁.HoldsHeaders (_, Function.update g dst fun hd => (x e).elim [] _)
      rw [he]
      refine h.one hpackets hsame fun hd => ?_
      rw [hbytes, htail]
      exact (h.shows_offset he hd).copied m _
  | headroom e | tailroom e =>
    obtain ⟨k, he, -, rfl⟩ := hpost
    obtain ⟨-, heq⟩ := Option.ite_none_right_eq_some.mp hcall
    obtain ⟨-, rfl⟩ := Prod.mk.inj (Option.some.inj heq)
    exact h

end PbufStore

/-- **Headers stay readable.** From any pool whose lists are in order, and with no packet at first,
every run of calls that are admitted returns, and after each of them the bytes known of every
header of every buffer are at the pointer `pbuf_link_header` and its siblings give, inside the
entry: those the payload began with when the header was set, up to the first one that a later
push or put wrote over, or that a copy left behind. -/
theorem pbuf_headers_kept (pad : ℕ) {s : PbufStore} {array n : ℕ} {fl ul : List PoolEntry}
    (hpool : s.pool.Split array n fl ul) (ops : List PacketOp) :
    Refines (fun s op => PacketOp.call pad s op) (headerMachine pad) PbufStore.HoldsHeaders s
      (fun _ => none, fun _ _ => []) ops := by
  have hstart : s.HoldsHeaders (fun _ => none, fun _ _ => []) :=
    ⟨⟨array, n, fl, ul, hpool, fun e k he => absurd he (Option.some_ne_none k).symm⟩,
      fun e k he => absurd he (Option.some_ne_none k).symm⟩
  refine Refines.of_countdown (J := fun _ s y => PbufStore.HoldsHeaders s y) (fun _ _ _ h => h)
    (fun _ s y op h hpre => ?_) hstart
  exact PbufStore.HoldsHeaders.call (x := y.1) (g := y.2) h hpre

/-- A header of six bytes is pulled, and a push writes over it from the fourth byte on. A copy
is made before the push. -/
def headerPush : List (PacketOp × PacketAnswer) :=
  [(.alloc 100, .buffer (some ⟨0, 0⟩)), (.reserve ⟨0, 0⟩ 20, .done),
    (.put ⟨0, 0⟩ [1, 2, 3, 4, 5, 6, 7], .done), (.reset ⟨0, 0⟩ .link, .done),
    (.pull ⟨0, 0⟩ 6, .done), (.copy ⟨0, 0⟩, .buffer (some ⟨0, 1⟩)),
    (.push ⟨0, 0⟩ [9, 9, 9], .done)]

/-- What is left of the header, and of the one of the copy. -/
theorem pbuf_headers_kept_push :
    ∃ p, PbufPool.start.pbufPoolInit 3 true = some (0, p)
      ∧ Refines (fun s op => PacketOp.call 4 s op) (headerMachine 4) PbufStore.HoldsHeaders
        ⟨p, fun _ _ => 0⟩ (fun _ => none, fun _ _ => []) (headerPush.map Prod.fst)
      ∧ answers (fun s op => PacketOp.call 4 s op) ⟨p, fun _ _ => 0⟩ (headerPush.map Prod.fst)
        = some (headerPush.map Prod.snd)
      ∧ (headerMachine 4).Admits (fun y => y.2 ⟨0, 0⟩ .link = [1, 2, 3]
        ∧ y.2 ⟨0, 1⟩ .link = [1, 2, 3, 4, 5, 6, 7]) (fun _ => none, fun _ _ => []) headerPush := by
  obtain ⟨links, hinit, hsplit⟩ := PbufPool.start_holds.pbufPoolInit_eq 3
  refine ⟨_, hinit, pbuf_headers_kept 4 hsplit _, ?run, ?admits⟩
  case run =>
    have heval : (PbufPool.start.pbufPoolInit 3 true).bind (fun r =>
        answers (fun s op => PacketOp.call 4 s op) ⟨r.2, fun _ _ => 0⟩ (headerPush.map Prod.fst))
        = some (headerPush.map Prod.snd) := by decide +kernel
    rwa [hinit] at heval
  case admits =>
    refine ⟨show (100 : ℕ) ≤ pbufMaxSize by decide, (_, _), ⟨.inr ⟨_, rfl, rfl, rfl⟩, rfl⟩, ?_⟩
    refine ⟨⟨_, rfl, rfl, by decide⟩, (_, _), ⟨⟨_, rfl, rfl, rfl⟩, rfl⟩, ?_⟩
    refine ⟨⟨_, rfl, by decide⟩, (_, _), ⟨⟨_, rfl, rfl, rfl⟩, rfl⟩, ?_⟩
    refine ⟨⟨_, rfl⟩, (_, _), ⟨⟨_, rfl, rfl, rfl⟩, rfl⟩, ?_⟩
    refine ⟨⟨_, rfl, by decide⟩, (_, _), ⟨⟨_, rfl, rfl, rfl⟩, rfl⟩, ?_⟩
    refine ⟨⟨_, rfl⟩, (_, _), ⟨⟨_, rfl, .inr ⟨_, rfl, rfl, rfl⟩⟩, rfl⟩, ?_⟩
    exact ⟨⟨_, rfl, by decide⟩, (_, _), ⟨⟨_, rfl, rfl, rfl⟩, rfl⟩, rfl, rfl⟩
