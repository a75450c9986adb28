import Ckit.PbufPoolSpec
import Ckit.Run

/-!
# The life cycle of the pool

`pbuf_pool_cleanup` frees the array and does nothing else: the anchors of the two lists,
which are static, still point to entries of it. An array has at least twenty entries, and
at every time each is in one of the lists, so one of the anchors at least is left that
way. What the next `pbuf_pool_init` then does depends on which: where an entry was not in
use, the first `list_add_back` writes to it; where all were, the new entries are added,
and the list of those in use starts with the old ones.

So a program may set the pool up once. `OneCycle` says that it does, and
`pbuf_pool_cycles` that this is exactly when every call stays inside the memory there is
and every `pbuf_pool_init` leaves the lists as it should.
-/

open Links

/-- A call of a function of `pbuf.c` that has to do with the pool; `calloc` succeeds. -/
inductive PoolCall where
  | init (size : ℕ)
  | cleanup
  | alloc (size : ℕ)
  | hold (e : PoolEntry)
  | free (e : PoolEntry)
  | copy (e : PoolEntry)
deriving DecidableEq

/-- The pool after a call. -/
def PoolCall.step (p : PbufPool) : PoolCall → Option PbufPool
  | .init size => (p.pbufPoolInit size true).map Prod.snd
  | .cleanup => p.pbufPoolCleanup
  | .alloc size => (p.pbufAlloc size).map Prod.snd
  | .hold e => p.pbufHold e
  | .free e => p.pbufFree e
  | .copy e => (p.pbufCopy e).map Prod.snd

/-- **Once the pool has been cleaned up, it is not set up again.** -/
def PoolCall.OneCycle : List PoolCall → Prop
  | [] => True
  | .cleanup :: calls => ∀ size, .init size ∉ calls
  | .init _ :: calls => OneCycle calls
  | .alloc _ :: calls => OneCycle calls
  | .hold _ :: calls => OneCycle calls
  | .free _ :: calls => OneCycle calls
  | .copy _ :: calls => OneCycle calls

namespace PbufPool

/-- The array of the cycle that is going on. -/
def current (p : PbufPool) : Option ℕ := p.objects.filter fun array => 0 < p.room array

/-- **Cycles**: the pool is set up when it is not, and cleaned up when it is; in between,
buffers are allocated, and those of the cycle are used. -/
def InCycle (p : PbufPool) : PoolCall → Prop
  | .init _ => p.current = none
  | .cleanup => p.current ≠ none
  | .alloc size => p.current ≠ none ∧ size ≤ pbufMaxSize
  | .hold e => p.current = some e.array ∧ e.index < p.room e.array
  | .free e => p.current = some e.array ∧ e.index < p.room e.array
  | .copy e => p.current = some e.array ∧ e.index < p.room e.array

instance (p : PbufPool) (call : PoolCall) : Decidable (p.InCycle call) :=
  match call with
  | .init _ => inferInstanceAs (Decidable (_ = _))
  | .cleanup => inferInstanceAs (Decidable (_ ≠ _))
  | .alloc _ => inferInstanceAs (Decidable (_ ∧ _))
  | .hold _ => inferInstanceAs (Decidable (_ ∧ _))
  | .free _ => inferInstanceAs (Decidable (_ ∧ _))
  | .copy _ => inferInstanceAs (Decidable (_ ∧ _))

/-- The lists are those of a new array of `n` entries: all of them can be handed out, and
none is in use. -/
def NewLists (p : PbufPool) (array n : ℕ) : Prop :=
  p.links.Ring .useList [] ∧ ∃ fl : List PoolEntry, p.links.Ring .freeList (fl.map .entry)
    ∧ ∀ e, e ∈ fl ↔ e.array = array ∧ e.index < n

/-- **The call is right**: it goes to no entry of an array that has been freed, and
`pbuf_pool_init` leaves the lists of the array it has allocated. -/
def CallRight (p : PbufPool) (call : PoolCall) : Prop :=
  ∃ p', call.step p = some p' ∧ ∀ size, call = .init size → p'.NewLists p.arrays (max size 20)

/-! ## During a cycle -/

/-- The pool during a cycle. -/
structure Running (array n : ℕ) (p : PbufPool) : Prop where
  split : ∃ fl ul, p.Split array n fl ul
  objects : p.objects = some array
  pos : 0 < n
  array_lt : array < p.arrays
  blank : p.Blank

/-- The pool after a cycle: the lists hold entries, and none of them is allocated. -/
structure Ended (p : PbufPool) : Prop where
  holds : ∃ fl ul, p.Holds fl ul ∧ (fl ≠ [] ∨ ul ≠ [])
    ∧ ∀ e, e ∈ fl ∨ e ∈ ul → p.room e.array = 0 ∧ e.array < p.arrays
  current : p.current = none

variable {p p' : PbufPool} {array n : ℕ} {e : PoolEntry}

theorem Running.current_eq (h : Running array n p) : p.current = some array := by
  obtain ⟨fl, ul, hsplit⟩ := h.split
  rw [current, h.objects, Option.filter_some, if_pos]
  rw [hsplit.room]
  exact decide_eq_true h.pos

/-- What keeps the array, and splits its entries, keeps the cycle going. -/
theorem Running.change (h : Running array n p) {fl ul : List PoolEntry}
    (hsplit : p'.Split array n fl ul) (hobjects : p'.objects = p.objects)
    (harrays : p'.arrays = p.arrays) (hblank : p'.Blank) : Running array n p' :=
  ⟨⟨fl, ul, hsplit⟩, hobjects.trans h.objects, h.pos, harrays ▸ h.array_lt, hblank⟩

theorem Running.setRefcount (h : Running array n p) (e : PoolEntry) (refcount : ℤ) :
    Running array n (p.setRefcount e refcount) := by
  obtain ⟨fl, ul, hsplit⟩ := h.split
  have hsplit' : (p.setRefcount e refcount).Split array n fl ul := hsplit.of_links rfl rfl
  exact h.change hsplit' rfl rfl (h.blank.setRefcount e refcount)

/-- An entry of the array of the cycle. -/
theorem Running.entry (h : Running array n p) (he : p.current = some e.array)
    (hi : e.index < p.room e.array) {fl ul : List PoolEntry} (hsplit : p.Split array n fl ul) :
    e ∈ fl ∨ e ∈ ul := by
  rw [h.current_eq] at he
  obtain rfl := Option.some.inj he
  rw [hsplit.room] at hi
  exact (hsplit.mem e).mpr ⟨rfl, hi⟩

/-- `pbuf_alloc` during a cycle. -/
theorem Running.allocSection (h : Running array n p) (size : ℕ) :
    ∃ r p', p.allocSection size = some (r, p') ∧ Running array n p'
      ∧ ∀ dst, r = some dst → p'.live (.entry dst) = true := by
  obtain ⟨fl, ul, hsplit⟩ := h.split
  cases fl with
  | nil => exact ⟨none, p, hsplit.allocSection_nil size, h, fun dst hdst => nomatch hdst⟩
  | cons e fl =>
    obtain ⟨heq, hsplit'⟩ := hsplit.allocSection_cons size
    refine ⟨some e, _, heq, h.change hsplit' rfl rfl (Blank.setPbuf h.blank ⟨rfl, rfl⟩ e), ?_⟩
    intro dst hdst
    obtain rfl := Option.some.inj hdst
    exact hsplit'.live _ (.inr List.mem_cons_self)

/-- `pbuf_free` during a cycle. -/
theorem Running.pbufFree (h : Running array n p) (he : p.current = some e.array)
    (hi : e.index < p.room e.array) : ∃ p', p.pbufFree e = some p' ∧ Running array n p' := by
  obtain ⟨fl, ul, hsplit⟩ := h.split
  have hin := h.entry he hi hsplit
  have hset := h.setRefcount e (atomicDec (p.pbuf e).refcount)
  have hsplit' : (p.setRefcount e (atomicDec (p.pbuf e).refcount)).Split array n fl ul :=
    hsplit.of_links rfl rfl
  rw [PbufPool.pbufFree, decAndTest, if_pos (hsplit.live e hin), Option.bind_some]
  dsimp only
  split
  · obtain ⟨heq, hsplit''⟩ := hsplit'.freeSection_eq hin
    exact ⟨_, heq, hset.change hsplit'' rfl rfl hset.blank⟩
  · exact ⟨_, rfl, hset⟩

/-- `pbuf_copy` during a cycle. -/
theorem Running.pbufCopy (h : Running array n p) (he : p.current = some e.array)
    (hi : e.index < p.room e.array) :
    ∃ r p', p.pbufCopy e = some (r, p') ∧ Running array n p' := by
  obtain ⟨fl, ul, hsplit⟩ := h.split
  have hin := h.entry he hi hsplit
  obtain ⟨r, p₁, halloc, hrun, hlive⟩ := h.allocSection 0
  have hcopy : p.copyAlloc e = some (r, p₁) := by
    rw [copyAlloc, if_pos (hsplit.live e hin), (h.blank e).1, pbufAlloc, if_pos (Nat.zero_le _),
      halloc]
  rw [PbufPool.pbufCopy, hcopy, Option.bind_some]
  cases r with
  | none => exact ⟨none, p₁, rfl, hrun⟩
  | some dst =>
    obtain ⟨fl₁, ul₁, hsplit₁⟩ := hrun.split
    have hsrc : p₁.live (.entry e) = true :=
      hsplit₁.live e ((hsplit₁.mem e).mpr ((hsplit.mem e).mp hin))
    have hbytes : p₁.copyBytes e dst = some (p₁.setPbuf dst (p₁.pbuf e)) :=
      if_pos ⟨hsrc, hlive dst rfl, (hrun.blank e).2 ▸ Nat.zero_le _⟩
    dsimp only
    rw [hbytes]
    have hsplit₂ : (p₁.setPbuf dst (p₁.pbuf e)).Split array n fl₁ ul₁ :=
      hsplit₁.of_links rfl rfl
    have hrun₂ := hrun.change hsplit₂ rfl rfl (hrun.blank.setPbuf (hrun.blank e) dst)
    exact ⟨some dst, _, rfl, hrun₂.setRefcount dst 1⟩

/-- **A call during a cycle** returns, and the cycle goes on until the array is freed. -/
theorem Running.step (h : Running array n p) {call : PoolCall} (hcall : p.InCycle call) :
    ∃ p', call.step p = some p' ∧ (call = .cleanup ∧ Ended p'
      ∨ call ≠ .cleanup ∧ (∀ size, call ≠ .init size) ∧ Running array n p') := by
  have hrun : ∀ (p' : PbufPool) {call : PoolCall}, call.step p = some p' → Running array n p' →
      call ≠ .cleanup → (∀ size, call ≠ .init size) →
      ∃ p', call.step p = some p' ∧ (call = .cleanup ∧ Ended p'
        ∨ call ≠ .cleanup ∧ (∀ size, call ≠ .init size) ∧ Running array n p') :=
    fun p' _ hstep hr hcl hin => ⟨p', hstep, .inr ⟨hcl, hin, hr⟩⟩
  cases call with
  | init size => exact absurd (h.current_eq.symm.trans hcall) (Option.some_ne_none _)
  | cleanup =>
    obtain ⟨fl, ul, hsplit⟩ := h.split
    have hroom : 0 < p.room array := hsplit.room ▸ h.pos
    refine ⟨{ p with room := Function.update p.room array 0 }, ?_, .inl ⟨rfl, ?_, ?_⟩⟩
    · rw [PoolCall.step, pbufPoolCleanup, h.objects]
      exact if_pos hroom
    · refine ⟨fl, ul, hsplit.holds, ?_, fun e he => ?_⟩
      · have hfirst := (hsplit.mem ⟨array, 0⟩).mpr ⟨rfl, h.pos⟩
        exact hfirst.imp List.ne_nil_of_mem List.ne_nil_of_mem
      · rw [((hsplit.mem e).mp he).1]
        exact ⟨Function.update_self .., h.array_lt⟩
    · rw [current, h.objects, Option.filter_some, if_neg]
      show ¬ decide (0 < Function.update p.room array 0 array) = true
      rw [Function.update_self]
      decide
  | alloc size =>
    obtain ⟨r, p', heq, hr, -⟩ := h.allocSection size
    refine hrun p' ?_ hr (fun hc => nomatch hc) fun _ hc => nomatch hc
    rw [PoolCall.step, pbufAlloc, if_pos hcall.2, heq]
    rfl
  | hold e =>
    obtain ⟨fl, ul, hsplit⟩ := h.split
    refine hrun _ ?_ (h.setRefcount e (atomicInc (p.pbuf e).refcount)) (fun hc => nomatch hc)
      fun _ hc => nomatch hc
    rw [PoolCall.step, pbufHold, if_pos (hsplit.live e (h.entry hcall.1 hcall.2 hsplit))]
  | free e =>
    obtain ⟨p', heq, hr⟩ := h.pbufFree hcall.1 hcall.2
    exact hrun p' heq hr (fun hc => nomatch hc) fun _ hc => nomatch hc
  | copy e =>
    obtain ⟨r, p', heq, hr⟩ := h.pbufCopy hcall.1 hcall.2
    refine hrun p' ?_ hr (fun hc => nomatch hc) fun _ hc => nomatch hc
    rw [PoolCall.step, heq]
    rfl

/-! ## Between cycles -/

/-- **`pbuf_pool_init` with both lists empty** starts a cycle. -/
theorem Holds.init_running (h : p.Holds [] []) (hblank : p.Blank) (size : ℕ) :
    ∃ p', (PoolCall.init size).step p = some p' ∧ p'.NewLists p.arrays (max size 20)
      ∧ Running p.arrays (max size 20) p' := by
  obtain ⟨links, heq, hsplit⟩ := h.pbufPoolInit_eq size
  rw [poolSize_eq] at heq hsplit
  refine ⟨_, by rw [PoolCall.step, heq]; rfl, ⟨hsplit.holds.use, _, hsplit.holds.free, fun e => ?_⟩,
    ⟨_, _, hsplit⟩, rfl, by omega, Nat.lt_succ_self _, fun e => ?_⟩
  · exact mem_firstEntries
  · show (if e.array = p.arrays then Pbuf.zero else p.pbuf e).len = 0
      ∧ (if e.array = p.arrays then Pbuf.zero else p.pbuf e).tail = 0
    split
    · exact ⟨rfl, rfl⟩
    · exact hblank e

/-- Where the last entry of the list is freed memory, the loop does not get past its first
round. -/
theorem Holds.initLoop_eq_none {fl ul : List PoolEntry} (h : p.Holds fl ul) (hne : fl ≠ [])
    (hdead : ∀ e ∈ fl, p.live (.entry e) = false) (hpos : 0 < n) : initLoop array p n = none := by
  have hprev : p.links.prev .freeList ∈ fl.map PoolNode.entry := by
    have hstays := (ListSys.headsCycle_of_ring h.free).stays _ List.mem_cons_self
    refine (List.mem_cons.mp hstays.2).resolve_left fun heq => hne ?_
    have hnil := h.free.mirror.next_anchor_eq_self.mp heq
    exact List.map_eq_nil_iff.mp (List.reverse_eq_nil_iff.mp hnil)
  obtain ⟨e, he, heq⟩ := List.mem_map.mp hprev
  have hadd : p.addBack .freeList (.entry ⟨array, 0⟩) = none := by
    refine if_neg fun hall => ?_
    have hlive := List.all_eq_true.mp hall (p.links.prev .freeList) (by simp)
    rw [← heq, hdead e he] at hlive
    exact nomatch hlive
  obtain ⟨n, rfl⟩ := Nat.exists_eq_succ_of_ne_zero (Nat.ne_of_gt hpos)
  rw [initLoop, List.range_succ_eq_map, List.foldlM_cons, hadd]
  rfl

/-- **The next `pbuf_pool_init` is not right**, whichever list the old entries are in. -/
theorem Ended.not_callRight (h : p.Ended) (size : ℕ) : ¬ p.CallRight (.init size) := by
  rintro ⟨p', hstep, hlists⟩
  obtain ⟨huse, -⟩ := hlists size rfl
  obtain ⟨⟨fl, ul, hholds, hne, hdead⟩, -⟩ := h
  have hpos : 0 < poolSize size := by rw [poolSize_eq]; omega
  have hroom : (p.allocated (poolSize size)).room p.arrays = poolSize size :=
    Function.update_self ..
  have hnew : ∀ e, e ∈ fl ∨ e ∈ ul → e.array ≠ p.arrays := fun e he =>
    Nat.ne_of_lt (hdead e he).2
  by_cases hfl : fl = []
  · subst hfl
    obtain ⟨links, heq, hholds'⟩ := Holds.initLoop_eq (p := p.allocated (poolSize size)) hholds
      hroom hnew (fun e he => absurd he List.not_mem_nil) (Nat.le_refl _)
    rw [PoolCall.step, pbufPoolInit, if_pos rfl, heq] at hstep
    obtain rfl := Option.some.inj hstep
    have hnext := huse.next_anchor_eq_self.mpr rfl
    have hul := hholds'.use.next_anchor_eq_self.mp hnext
    exact hne.resolve_left (fun hcon => hcon rfl) (List.map_eq_nil_iff.mp hul)
  · have hnone : initLoop p.arrays (p.allocated (poolSize size)) (poolSize size) = none := by
      refine Holds.initLoop_eq_none (p := p.allocated (poolSize size)) hholds hfl (fun e he => ?_)
        hpos
      refine decide_eq_false fun hlt => ?_
      have hzero : (p.allocated (poolSize size)).room e.array = 0 :=
        (Function.update_of_ne (hnew e (.inl he)) _ _).trans (hdead e (.inl he)).1
      rw [hzero] at hlt
      exact Nat.not_lt_zero _ hlt
    rw [PoolCall.step, pbufPoolInit, if_pos rfl, hnone] at hstep
    exact absurd hstep (Option.some_ne_none p').symm

/-! ## Whole runs -/

/-- After a cycle, the only call there can be is a `pbuf_pool_init`. -/
theorem Ended.meets_iff (h : p.Ended) {calls : List PoolCall}
    (hcalls : Meets PoolCall.step InCycle p calls) :
    Meets PoolCall.step CallRight p calls ↔ ∀ size, .init size ∉ calls := by
  cases calls with
  | nil => exact iff_of_true trivial fun _ hmem => nomatch hmem
  | cons call calls =>
    have hnone := h.current
    cases call with
    | init size =>
      exact iff_of_false (fun hm => h.not_callRight size hm.1) fun hno =>
        hno size List.mem_cons_self
    | cleanup => exact absurd hnone hcalls.1
    | alloc size => exact absurd hnone hcalls.1.1
    | hold e => exact absurd (hnone.symm.trans hcalls.1.1) (Option.some_ne_none _).symm
    | free e => exact absurd (hnone.symm.trans hcalls.1.1) (Option.some_ne_none _).symm
    | copy e => exact absurd (hnone.symm.trans hcalls.1.1) (Option.some_ne_none _).symm

/-- A call other than the two that begin and end a cycle says nothing about cycles. -/
theorem oneCycle_cons {call : PoolCall} {calls : List PoolCall} (hclean : call ≠ .cleanup) :
    PoolCall.OneCycle (call :: calls) ↔ PoolCall.OneCycle calls := by
  cases call with
  | cleanup => exact absurd rfl hclean
  | init _ => exact Iff.rfl
  | alloc _ => exact Iff.rfl
  | hold _ => exact Iff.rfl
  | free _ => exact Iff.rfl
  | copy _ => exact Iff.rfl

theorem Running.meets_iff (h : Running array n p) {calls : List PoolCall}
    (hcalls : Meets PoolCall.step InCycle p calls) :
    Meets PoolCall.step CallRight p calls ↔ PoolCall.OneCycle calls := by
  induction calls generalizing p with
  | nil => exact iff_of_true trivial trivial
  | cons call calls ih =>
    obtain ⟨p', hstep, hnext⟩ := h.step hcalls.1
    have hcalls' := hcalls.2 p' hstep
    rw [Run.meets_cons hstep]
    rcases hnext with ⟨rfl, hended⟩ | ⟨hclean, hinit, hrun⟩
    · rw [and_iff_right ⟨p', hstep, fun _ hc => nomatch hc⟩]
      exact hended.meets_iff hcalls'
    · rw [and_iff_right ⟨p', hstep, fun size hc => absurd hc (hinit size)⟩, oneCycle_cons hclean]
      exact ih hrun hcalls'

/-- **The life cycle of the pool.** Of any sequence of cycles, every call is right exactly
where the pool is not set up a second time. -/
theorem pbuf_pool_cycles (calls : List PoolCall)
    (hcalls : Meets PoolCall.step InCycle start calls) :
    Meets PoolCall.step CallRight start calls ↔ PoolCall.OneCycle calls := by
  cases calls with
  | nil => exact iff_of_true trivial trivial
  | cons call calls =>
    cases call with
    | init size =>
      obtain ⟨p', hstep, hlists, hrun⟩ := start_holds.init_running (fun _ => ⟨rfl, rfl⟩) size
      rw [Run.meets_cons hstep, PoolCall.OneCycle]
      have hright : start.CallRight (.init size) := by
        refine ⟨p', hstep, fun size' hsize => ?_⟩
        obtain rfl := PoolCall.init.inj hsize
        exact hlists
      rw [and_iff_right hright]
      exact hrun.meets_iff (hcalls.2 p' hstep)
    | cleanup => exact absurd rfl hcalls.1
    | alloc size => exact absurd rfl hcalls.1.1
    | hold e => exact nomatch hcalls.1.1
    | free e => exact nomatch hcalls.1.1
    | copy e => exact nomatch hcalls.1.1

/-- One cycle: two buffers, of which one is freed before the pool is cleaned up. -/
theorem pbuf_pool_cycles_one :
    let calls : List PoolCall := [.init 3, .alloc 100, .alloc 200, .free ⟨0, 0⟩, .cleanup]
    Meets PoolCall.step InCycle start calls ∧ Meets PoolCall.step CallRight start calls := by
  intro calls
  have hcalls : Meets PoolCall.step InCycle start calls := by decide +kernel
  refine ⟨hcalls, (pbuf_pool_cycles calls hcalls).mpr ?_⟩
  exact fun _ hmem => nomatch hmem

/-- **The second `pbuf_pool_init` writes to freed memory**, when a buffer of the first
cycle was not in use at its end. -/
theorem pbuf_pool_init_again :
    let calls : List PoolCall := [.init 20, .cleanup, .init 20]
    Meets PoolCall.step InCycle start calls ∧ ¬ Meets PoolCall.step CallRight start calls
      ∧ run PoolCall.step start calls = none := by
  intro calls
  have hcalls : Meets PoolCall.step InCycle start calls := by decide +kernel
  have hnone : run PoolCall.step start calls = none := by
    rw [← Option.isNone_iff_eq_none]
    decide +kernel
  refine ⟨hcalls, fun hm => ?_, hnone⟩
  have htotal : ∀ p call, True → CallRight p call → ∃ p', PoolCall.step p call = some p' ∧ True :=
    fun p call _ ⟨p', hstep, _⟩ => ⟨p', hstep, trivial⟩
  obtain ⟨p', hrun, -⟩ := Run.total htotal trivial hm
  exact nomatch hnone.symm.trans hrun

end PbufPool
