import Ckit.PbufPoolThreads
import Ckit.Run

/-!
# References to the buffers of the pool

In every interleaving the entries of the pool are split between the two lists: an entry
is in use while a client owns a reference to it, and for as long as a client is in the
middle of freeing it or of copying to it. The count of a buffer is the number of the
references there are to it; `pbuf_alloc` hands out entries that nobody has, and hands out
none exactly where the list of those is empty.

An `int` does not count further than `2^31 - 1`, and the theorem is about the runs in
which no buffer ever has more references than that. With `2^32` references more than it
has counted, a buffer is given back while it is in use.

A step is about one entry and one client, and `PoolInv.change` is the only place where
the others are looked at.
-/

namespace PoolSys

variable {γ : Type}

/-- **The invariant of the pool**, with the entries that can be handed out and those in
use. -/
structure PoolInv (array n : ℕ) (fl ul : List PoolEntry) (s : PoolSys γ) : Prop where
  split : s.pool.Split array n fl ul
  used : ∀ e, e ∈ ul ↔ s.owners e ≠ [] ∨ ∃ c, (s.pc c).claims = some e
  count : ∀ e, s.owners e ≠ [] → (s.pool.pbuf e).refcount = (s.owners e).length
  sole : ∀ c e, (s.pc c).claims = some e →
    s.owners e = [] ∧ ∀ c', (s.pc c').claims = some e → c' = c
  source : ∀ c src dst, s.pc c = .copyBytes src dst → src.array = array ∧ src.index < n
  blank : s.pool.Blank
  fits : ∀ e, (s.owners e).length < 2 ^ 31

/-- What has to be right about the entry and the client a step is about. -/
structure Settled (ul : List PoolEntry) (s : PoolSys γ) (c : γ) (e : PoolEntry) : Prop where
  used : e ∈ ul ↔ s.owners e ≠ [] ∨ (s.pc c).claims = some e
  sole : (s.pc c).claims = some e → s.owners e = []
  count : s.owners e ≠ [] → (s.pool.pbuf e).refcount = (s.owners e).length
  fits : (s.owners e).length < 2 ^ 31

/-- What a step about the entry `e` and the client `c` leaves alone. -/
structure Aside (s s' : PoolSys γ) (ul ul' : List PoolEntry) (c : γ) (e : PoolEntry) :
    Prop where
  use : ∀ e', e' ≠ e → (e' ∈ ul' ↔ e' ∈ ul)
  owners : ∀ e', e' ≠ e → s'.owners e' = s.owners e'
  refcount : ∀ e', e' ≠ e → (s'.pool.pbuf e').refcount = (s.pool.pbuf e').refcount
  pc : ∀ c', c' ≠ c → s'.pc c' = s.pc c'
  before : ∀ e', (s.pc c).claims = some e' → e' = e
  after : ∀ e', (s'.pc c).claims = some e' → e' = e

variable {array n : ℕ} {fl ul fl' ul' : List PoolEntry} {s s' : PoolSys γ} {c : γ} {e : PoolEntry}

/-- The claims of all clients on an entry that the step is not about. -/
theorem Aside.claims (h : Aside s s' ul ul' c e) {e' : PoolEntry} (he : e' ≠ e) (c' : γ) :
    (s'.pc c').claims = some e' ↔ (s.pc c').claims = some e' := by
  by_cases hc : c' = c
  · subst hc
    exact iff_of_false (fun hcl => he (h.after e' hcl)) fun hcl => he (h.before e' hcl)
  · rw [h.pc c' hc]

/-- **A step about one entry and one client.** -/
theorem PoolInv.change (h : PoolInv array n fl ul s) (haside : Aside s s' ul ul' c e)
    (hothers : ∀ c', c' ≠ c → (s.pc c').claims ≠ some e)
    (hsplit : s'.pool.Split array n fl' ul') (hsettled : Settled ul' s' c e)
    (hsource : ∀ src dst, s'.pc c = .copyBytes src dst → src.array = array ∧ src.index < n)
    (hblank : s'.pool.Blank) :
    PoolInv array n fl' ul' s' := by
  have honly : ∀ c', (s'.pc c').claims = some e → c' = c := by
    intro c' hcl
    by_contra hc
    rw [haside.pc c' hc] at hcl
    exact hothers c' hc hcl
  refine ⟨hsplit, fun e' => ?_, fun e' he' => ?_, fun c' e' hcl => ?_, fun c' src dst hpc => ?_,
    hblank, fun e' => ?_⟩
  · by_cases he : e' = e
    · subst he
      rw [hsettled.used]
      refine or_congr_right ⟨fun hcl => ⟨c, hcl⟩, ?_⟩
      rintro ⟨c', hcl⟩
      exact honly c' hcl ▸ hcl
    · rw [haside.use e' he, h.used e', haside.owners e' he]
      exact or_congr_right (exists_congr fun c' => (haside.claims he c').symm)
  · by_cases he : e' = e
    · subst he
      exact hsettled.count he'
    · rw [haside.owners e' he] at he' ⊢
      rw [haside.refcount e' he]
      exact h.count e' he'
  · by_cases he : e' = e
    · subst he
      have hc := honly c' hcl
      subst hc
      exact ⟨hsettled.sole hcl, honly⟩
    · have hold := h.sole c' e' ((haside.claims he c').mp hcl)
      refine ⟨(haside.owners e' he).trans hold.1, fun c'' hcl'' => ?_⟩
      exact hold.2 c'' ((haside.claims he c'').mp hcl'')
  · by_cases hc : c' = c
    · subst hc
      exact hsource src dst hpc
    · rw [haside.pc c' hc] at hpc
      exact h.source c' src dst hpc
  · by_cases he : e' = e
    · subst he
      exact hsettled.fits
    · rw [haside.owners e' he]
      exact h.fits e'

/-- An entry that can be handed out is nobody's. -/
theorem PoolInv.of_mem_free (h : PoolInv array n fl ul s) (he : e ∈ fl) :
    s.owners e = [] ∧ ∀ c, (s.pc c).claims ≠ some e := by
  have hnot := fun hu => h.split.holds.notMem_use he ((h.used e).mpr hu)
  refine ⟨?_, fun c hcl => hnot (.inr ⟨c, hcl⟩)⟩
  by_contra hne
  exact hnot (.inl hne)

/-- An entry somebody has a reference to is in use, and in nobody's hands. -/
theorem PoolInv.of_owned (h : PoolInv array n fl ul s) (he : s.owners e ≠ []) :
    e ∈ ul ∧ ∀ c, (s.pc c).claims ≠ some e :=
  ⟨(h.used e).mpr (.inl he), fun c hcl => he (h.sole c e hcl).1⟩

theorem PoolInv.live_of_use (h : PoolInv array n fl ul s) (he : e ∈ ul) :
    s.pool.live (.entry e) = true := h.split.live e (.inr he)

/-! ## The steps -/

variable [DecidableEq γ]

/-- `pbuf_alloc` returns `NULL`. -/
theorem PoolInv.alloc_nil (h : PoolInv array n [] ul s) (hidle : s.pc c = .idle) {size : ℕ}
    (hsize : size ≤ pbufMaxSize) : s.step (.alloc c size) = some s := by
  rw [step, hidle, PbufPool.pbufAlloc, if_pos hsize, h.split.allocSection_nil]
  rfl

/-- The system after `pbuf_alloc` has handed out `e`. -/
def afterAlloc (s : PoolSys γ) (c : γ) (e : PoolEntry) (size : ℕ) : PoolSys γ :=
  gain { s with pool := s.pool.handOut e size } c e

omit [DecidableEq γ] in
/-- A client that is in no function has no entry in hand. -/
theorem claims_of_idle (hidle : s.pc c = .idle) {e' : PoolEntry}
    (hcl : (s.pc c).claims = some e') : e' = e := by
  rw [hidle] at hcl
  exact nomatch hcl

/-- **`pbuf_alloc` returns the first entry.** -/
theorem PoolInv.alloc_cons (h : PoolInv array n (e :: fl) ul s) (hidle : s.pc c = .idle)
    {size : ℕ} (hsize : size ≤ pbufMaxSize) :
    s.step (.alloc c size) = some (s.afterAlloc c e size)
      ∧ PoolInv array n fl (e :: ul) (s.afterAlloc c e size) := by
  obtain ⟨halloc, hsplit⟩ := h.split.allocSection_cons size
  obtain ⟨hfree, hclaims⟩ := h.of_mem_free (e := e) List.mem_cons_self
  have howners : (s.afterAlloc c e size).owners e = [c] := by
    rw [afterAlloc, gain_owners_self]
    exact congrArg (c :: ·) hfree
  refine ⟨?_, h.change (c := c) (e := e) ⟨fun e' he => ?_, fun e' he => gain_owners_of_ne _ _ he,
    fun e' he => congrArg Pbuf.refcount (PbufPool.setPbuf_of_ne _ _ he), fun _ _ => rfl,
    fun _ => claims_of_idle hidle, fun _ => claims_of_idle hidle⟩ (fun c' _ => hclaims c') hsplit
    ⟨?_, fun hcl => absurd hcl (hclaims c), fun _ => ?_, ?_⟩ (h.source c)
    (PbufPool.Blank.setPbuf h.blank ⟨rfl, rfl⟩ e)⟩
  · rw [step, hidle, PbufPool.pbufAlloc, if_pos hsize, halloc]
    rfl
  · rw [List.mem_cons, or_iff_right he]
  · rw [howners]
    exact iff_of_true List.mem_cons_self (.inl (List.cons_ne_nil _ _))
  · rw [howners]
    show ((PbufPool.setPbuf _ e _).pbuf e).refcount = _
    rw [PbufPool.setPbuf_self]
    rfl
  · rw [howners]
    exact Nat.one_lt_two_pow (by decide)

/-- **`pbuf_hold`.** -/
theorem PoolInv.hold (h : PoolInv array n fl ul s) (hidle : s.pc c = .idle)
    (hne : s.owners e ≠ []) : ∃ s', s.step (.hold c e) = some s'
      ∧ ((s'.owners e).length < 2 ^ 31 → PoolInv array n fl ul s') := by
  obtain ⟨hul, hclaims⟩ := h.of_owned hne
  let p := s.pool.setRefcount e (atomicInc (s.pool.pbuf e).refcount)
  have howners : (gain { s with pool := p } c e).owners e = c :: s.owners e :=
    gain_owners_self ..
  refine ⟨gain { s with pool := p } c e, ?_, fun hfits => ?_⟩
  · rw [step, hidle, PbufPool.pbufHold, h.live_of_use hul]
    rfl
  refine h.change (c := c) (e := e) ⟨fun _ _ => Iff.rfl, fun e' he => gain_owners_of_ne _ _ he,
    fun e' he => congrArg Pbuf.refcount (PbufPool.setPbuf_of_ne _ _ he), fun _ _ => rfl,
    fun _ => claims_of_idle hidle, fun _ => claims_of_idle hidle⟩ (fun c' _ => hclaims c')
    (h.split.of_links rfl rfl) ⟨?_, fun hcl => absurd hcl (hclaims c), fun _ => ?_, hfits⟩
    (h.source c) (h.blank.setRefcount e _)
  · rw [howners]
    exact iff_of_true hul (.inl (List.cons_ne_nil _ _))
  · rw [howners, List.length_cons] at hfits ⊢
    show ((PbufPool.setPbuf _ e _).pbuf e).refcount = _
    rw [PbufPool.setPbuf_self]
    show atomicInc (s.pool.pbuf e).refcount = _
    rw [h.count e hne, atomicInc_natCast hfits]

/-- **The count after `pbuf_free`**, of an entry with `m + 1` references. -/
theorem PoolInv.decAndTest_eq (h : PoolInv array n fl ul s) (hmem : c ∈ s.owners e) :
    ((s.owners e).erase c).length < 2 ^ 31
      ∧ s.pool.decAndTest e = some (decide (((s.owners e).erase c).length = 0),
        s.pool.setRefcount e ((s.owners e).erase c).length) := by
  have hne : s.owners e ≠ [] := List.ne_nil_of_mem hmem
  obtain ⟨m, hm⟩ : ∃ m, (s.owners e).length = m + 1 :=
    Nat.exists_eq_succ_of_ne_zero (Nat.ne_zero_of_lt (List.length_pos_of_mem hmem))
  have hlen : ((s.owners e).erase c).length = m := by
    rw [List.length_erase_of_mem hmem, hm]
    rfl
  have hfits := h.fits e
  have hdec : atomicDec (s.pool.pbuf e).refcount = m := by
    rw [h.count e hne, hm]
    exact atomicDec_natCast (by omega)
  refine ⟨by omega, ?_⟩
  rw [PbufPool.decAndTest, if_pos (h.live_of_use (h.of_owned hne).1), hdec, hlen]
  have htest : ((m : ℤ) == 0) = decide (m = 0) := by
    rw [Bool.eq_iff_iff, beq_iff_eq, decide_eq_true_iff]
    exact Int.natCast_eq_zero
  rw [htest]

/-- **The first step of `pbuf_free`.** -/
theorem PoolInv.free (h : PoolInv array n fl ul s) (hidle : s.pc c = .idle)
    (hmem : c ∈ s.owners e) :
    ∃ s', s.step (.free c e) = some s' ∧ PoolInv array n fl ul s' := by
  have hne : s.owners e ≠ [] := List.ne_nil_of_mem hmem
  obtain ⟨hul, hclaims⟩ := h.of_owned hne
  obtain ⟨hfits, hdec⟩ := h.decAndTest_eq hmem
  let p := s.pool.setRefcount e ((s.owners e).erase c).length
  by_cases hlast : (s.owners e).erase c = []
  · -- the last one: the entry stays in use until the locked part
    have howners : ((s.goto c (.freeMove e) p).lose c e).owners e = [] :=
      (lose_owners_self ..).trans hlast
    have hpc : ((s.goto c (.freeMove e) p).lose c e).pc c = .freeMove e := goto_pc_self s c _ p
    refine ⟨(s.goto c (.freeMove e) p).lose c e, ?_, h.change (c := c) (e := e)
      ⟨fun _ _ => Iff.rfl, fun e' he => lose_owners_of_ne _ _ he,
        fun e' he => congrArg Pbuf.refcount (PbufPool.setPbuf_of_ne _ _ he),
        fun c' hc => goto_pc_of_ne s _ p hc, fun _ => claims_of_idle hidle, fun e' hcl => ?_⟩
      (fun c' _ => hclaims c') (h.split.of_links rfl rfl) ⟨?_, fun _ => howners, ?_, ?_⟩ ?_
      (h.blank.setRefcount e _)⟩
    · rw [step, hidle]
      dsimp only
      rw [hdec, Option.map_some, if_pos (decide_eq_true (List.length_eq_zero_iff.mpr hlast))]
    · rw [hpc] at hcl
      exact (Option.some.inj hcl).symm
    · rw [hpc]
      exact iff_of_true hul (.inr rfl)
    · intro hcon
      exact absurd howners hcon
    · rw [howners]
      exact Nat.two_pow_pos 31
    · intro src dst hcopy
      rw [hpc] at hcopy
      exact nomatch hcopy
  · have howners : (lose { s with pool := p } c e).owners e = (s.owners e).erase c :=
      lose_owners_self ..
    refine ⟨lose { s with pool := p } c e, ?_, h.change (c := c) (e := e)
      ⟨fun _ _ => Iff.rfl, fun e' he => lose_owners_of_ne _ _ he,
        fun e' he => congrArg Pbuf.refcount (PbufPool.setPbuf_of_ne _ _ he), fun _ _ => rfl,
        fun _ => claims_of_idle hidle, fun _ => claims_of_idle hidle⟩ (fun c' _ => hclaims c')
      (h.split.of_links rfl rfl) ⟨?_, fun hcl => absurd hcl (hclaims c), fun _ => ?_, ?_⟩
      (h.source c) (h.blank.setRefcount e _)⟩
    · rw [step, hidle]
      dsimp only
      rw [hdec, Option.map_some, if_neg fun htest => hlast
        (List.length_eq_zero_iff.mp (of_decide_eq_true htest))]
    · rw [howners]
      exact iff_of_true hul (.inl hlast)
    · rw [howners]
      show ((PbufPool.setPbuf _ e _).pbuf e).refcount = _
      rw [PbufPool.setPbuf_self]
    · rwa [howners]

/-- **The first step of `pbuf_copy`**: there is no entry for the copy, or it is taken. -/
theorem PoolInv.copy (h : PoolInv array n fl ul s) (hidle : s.pc c = .idle)
    (hne : s.owners e ≠ []) :
    ∃ s' fl' ul', s.step (.copy c e) = some s' ∧ PoolInv array n fl' ul' s' := by
  have hul := (h.of_owned hne).1
  have hcopy : s.pool.copyAlloc e = s.pool.allocSection 0 := by
    rw [PbufPool.copyAlloc, if_pos (h.live_of_use hul), (h.blank e).1, PbufPool.pbufAlloc,
      if_pos (Nat.zero_le _)]
  cases fl with
  | nil =>
    refine ⟨s, [], ul, ?_, h⟩
    rw [step, hidle]
    dsimp only
    rw [hcopy, h.split.allocSection_nil]
    rfl
  | cons dst fl =>
    obtain ⟨halloc, hsplit⟩ := h.split.allocSection_cons 0
    obtain ⟨hfree, hclaims⟩ := h.of_mem_free (e := dst) List.mem_cons_self
    let p := s.pool.handOut dst 0
    have hpc : (s.goto c (.copyBytes e dst) p).pc c = .copyBytes e dst := goto_pc_self s c _ p
    refine ⟨s.goto c (.copyBytes e dst) p, fl, dst :: ul, ?_, h.change (c := c) (e := dst)
      ⟨fun e' he => ?_, fun _ _ => rfl,
        fun e' he => congrArg Pbuf.refcount (PbufPool.setPbuf_of_ne _ _ he),
        fun c' hc => goto_pc_of_ne s _ p hc, fun _ => claims_of_idle hidle, fun e' hcl => ?_⟩
      (fun c' _ => hclaims c') hsplit ⟨?_, fun _ => hfree, fun hcon => absurd hfree hcon, ?_⟩ ?_
      (PbufPool.Blank.setPbuf h.blank ⟨rfl, rfl⟩ dst)⟩
    · rw [step, hidle]
      dsimp only
      rw [hcopy, halloc]
      rfl
    · rw [List.mem_cons, or_iff_right he]
    · rw [hpc] at hcl
      exact (Option.some.inj hcl).symm
    · rw [hpc]
      exact iff_of_true List.mem_cons_self (.inr rfl)
    · exact h.fits dst
    · intro src dst' hsrc
      rw [hpc] at hsrc
      obtain ⟨rfl, -⟩ := PoolPc.copyBytes.inj hsrc
      exact (h.split.mem e).mp (.inr hul)

omit [DecidableEq γ] in
/-- An entry a client has in hand is in use, and in no other client's hands. -/
theorem PoolInv.of_claims (h : PoolInv array n fl ul s) (hcl : (s.pc c).claims = some e) :
    e ∈ ul ∧ s.owners e = [] ∧ ∀ c', c' ≠ c → (s.pc c').claims ≠ some e :=
  ⟨(h.used e).mpr (.inr ⟨c, hcl⟩), (h.sole c e hcl).1, fun c' hc hcl' =>
    hc ((h.sole c e hcl).2 c' hcl')⟩

/-- **The locked part of `pbuf_free`.** -/
theorem PoolInv.freeMove (h : PoolInv array n fl ul s) (hpc : s.pc c = .freeMove e) :
    ∃ s', s.step (.access c) = some s' ∧ PoolInv array n (e :: fl.erase e) (ul.erase e) s' := by
  have hcl : (s.pc c).claims = some e := by rw [hpc]; rfl
  obtain ⟨hul, hfree, hothers⟩ := h.of_claims hcl
  obtain ⟨hsection, hsplit⟩ := h.split.freeSection_eq (e := e) (.inr hul)
  let p := s.pool.takeBack e
  have hpc' : (s.goto c .idle p).pc c = .idle := goto_pc_self s c _ p
  refine ⟨s.goto c .idle p, ?_, h.change (c := c) (e := e)
    ⟨fun e' he => List.mem_erase_of_ne he, fun _ _ => rfl, fun _ _ => rfl,
      fun c' hc => goto_pc_of_ne s _ p hc, fun e' hcl' => ?_, fun _ => claims_of_idle hpc'⟩
    hothers hsplit ⟨?_, fun _ => hfree, fun hcon => absurd hfree hcon, h.fits e⟩ ?_ h.blank⟩
  · rw [step, access, hpc]
    dsimp only
    rw [hsection]
    rfl
  · rw [hcl] at hcl'
    exact (Option.some.inj hcl').symm
  · rw [hpc']
    refine iff_of_false h.split.holds.nodup_use.not_mem_erase ?_
    rintro (hcon | hcon)
    · exact hcon hfree
    · exact nomatch hcon
  · intro src dst hsrc
    rw [hpc'] at hsrc
    exact nomatch hsrc

/-- **The `memcpy` of `pbuf_copy`.** -/
theorem PoolInv.copyBytes (h : PoolInv array n fl ul s) {src dst : PoolEntry}
    (hpc : s.pc c = .copyBytes src dst) :
    ∃ s', s.step (.access c) = some s' ∧ PoolInv array n fl ul s' := by
  have hcl : (s.pc c).claims = some dst := by rw [hpc]; rfl
  obtain ⟨hul, hfree, hothers⟩ := h.of_claims hcl
  have hsrc : s.pool.live (.entry src) = true :=
    h.split.live src ((h.split.mem src).mpr (h.source c src dst hpc))
  let p := s.pool.setPbuf dst (s.pool.pbuf src)
  have hpc' : (s.goto c (.copySet dst) p).pc c = .copySet dst := goto_pc_self s c _ p
  refine ⟨s.goto c (.copySet dst) p, ?_, h.change (c := c) (e := dst)
    ⟨fun _ _ => Iff.rfl, fun _ _ => rfl,
      fun e' he => congrArg Pbuf.refcount (PbufPool.setPbuf_of_ne _ _ he),
      fun c' hc => goto_pc_of_ne s _ p hc, fun e' hcl' => ?_, fun e' hcl' => ?_⟩
    hothers (h.split.of_links rfl rfl)
    ⟨?_, fun _ => hfree, fun hcon => absurd hfree hcon, h.fits dst⟩ ?_
    (h.blank.setPbuf (h.blank src) dst)⟩
  · rw [step, access, hpc]
    dsimp only
    rw [PbufPool.copyBytes, if_pos ⟨hsrc, h.live_of_use hul,
      (h.blank src).2 ▸ Nat.zero_le _⟩]
    rfl
  · rw [hcl] at hcl'
    exact (Option.some.inj hcl').symm
  · rw [hpc'] at hcl'
    exact (Option.some.inj hcl').symm
  · rw [hpc']
    exact iff_of_true hul (.inr rfl)
  · intro src' dst' hcopy
    rw [hpc'] at hcopy
    exact nomatch hcopy

/-- **The last step of `pbuf_copy`.** -/
theorem PoolInv.copySet (h : PoolInv array n fl ul s) (hpc : s.pc c = .copySet e) :
    ∃ s', s.step (.access c) = some s' ∧ PoolInv array n fl ul s' := by
  have hcl : (s.pc c).claims = some e := by rw [hpc]; rfl
  obtain ⟨hul, hfree, hothers⟩ := h.of_claims hcl
  let p := s.pool.setRefcount e 1
  have hpc' : ((s.goto c .idle p).gain c e).pc c = .idle := goto_pc_self s c _ p
  have howners : ((s.goto c .idle p).gain c e).owners e = [c] :=
    (gain_owners_self ..).trans (congrArg (c :: ·) hfree)
  refine ⟨(s.goto c .idle p).gain c e, ?_, h.change (c := c) (e := e)
    ⟨fun _ _ => Iff.rfl, fun e' he => gain_owners_of_ne _ _ he,
      fun e' he => congrArg Pbuf.refcount (PbufPool.setPbuf_of_ne _ _ he),
      fun c' hc => goto_pc_of_ne s _ p hc, fun e' hcl' => ?_, fun _ => claims_of_idle hpc'⟩
    hothers (h.split.of_links rfl rfl) ⟨?_, fun hcon => ?_, fun _ => ?_, ?_⟩ ?_
    (h.blank.setRefcount e 1)⟩
  · rw [step, access, hpc]
  · rw [hcl] at hcl'
    exact (Option.some.inj hcl').symm
  · rw [howners]
    exact iff_of_true hul (.inl (List.cons_ne_nil _ _))
  · rw [hpc'] at hcon
    exact nomatch hcon
  · rw [howners]
    show ((PbufPool.setPbuf _ e _).pbuf e).refcount = _
    rw [PbufPool.setPbuf_self]
    rfl
  · rw [howners]
    exact Nat.one_lt_two_pow (by decide)
  · intro src dst hcopy
    rw [hpc'] at hcopy
    exact nomatch hcopy

/-- **Every permitted step** returns, and keeps the invariant as long as the references
can be counted. -/
theorem PoolInv.step (h : PoolInv array n fl ul s) {ev : PoolEvent γ} (hp : s.Permitted ev) :
    ∃ s', s.step ev = some s' ∧ ((∀ e, (s'.owners e).length < 2 ^ 31) →
      ∃ fl' ul', PoolInv array n fl' ul' s') := by
  cases ev with
  | alloc c size =>
    cases fl with
    | nil => exact ⟨s, h.alloc_nil hp.1 hp.2, fun _ => ⟨[], ul, h⟩⟩
    | cons e fl =>
      obtain ⟨heq, hinv⟩ := h.alloc_cons hp.1 hp.2
      exact ⟨_, heq, fun _ => ⟨fl, e :: ul, hinv⟩⟩
  | hold c e =>
    obtain ⟨s', heq, hinv⟩ := h.hold hp.1 hp.2
    exact ⟨s', heq, fun hfits => ⟨fl, ul, hinv (hfits e)⟩⟩
  | free c e =>
    obtain ⟨s', heq, hinv⟩ := h.free hp.1 hp.2
    exact ⟨s', heq, fun _ => ⟨fl, ul, hinv⟩⟩
  | copy c e =>
    obtain ⟨s', fl', ul', heq, hinv⟩ := h.copy hp.1 hp.2
    exact ⟨s', heq, fun _ => ⟨fl', ul', hinv⟩⟩
  | access c =>
    cases hpc : s.pc c with
    | idle => exact absurd hpc hp
    | freeMove e =>
      obtain ⟨s', heq, hinv⟩ := h.freeMove hpc
      exact ⟨s', heq, fun _ => ⟨_, _, hinv⟩⟩
    | copyBytes src dst =>
      obtain ⟨s', heq, hinv⟩ := h.copyBytes hpc
      exact ⟨s', heq, fun _ => ⟨fl, ul, hinv⟩⟩
    | copySet dst =>
      obtain ⟨s', heq, hinv⟩ := h.copySet hpc
      exact ⟨s', heq, fun _ => ⟨fl, ul, hinv⟩⟩

/-! ## What holds in every state -/

/-- **The pool is partitioned** between `fl` and `ul`, and `pbuf_alloc` hands out what is
in `fl`. -/
structure Partitioned (array n : ℕ) (fl ul : List PoolEntry) (s : PoolSys γ) : Prop where
  free : s.pool.links.Ring .freeList (fl.map .entry)
  use : s.pool.links.Ring .useList (ul.map .entry)
  one : ∀ e, e.array = array ∧ e.index < n → e ∈ fl ∧ e ∉ ul ∨ e ∈ ul ∧ e ∉ fl
  only : ∀ e, e ∈ fl ∨ e ∈ ul → e.array = array ∧ e.index < n
  unowned : ∀ e ∈ fl, s.owners e = []
  count : ∀ e, s.owners e ≠ [] → (s.pool.pbuf e).refcount = (s.owners e).length
  /-- An entry is in `fl` as soon as nobody has it, and no call on it is going on. -/
  back : ∀ e, e.array = array ∧ e.index < n → s.owners e = [] →
    (∀ c, (s.pc c).claims ≠ some e) → e ∈ fl
  alloc : ∀ size, size ≤ pbufMaxSize → ∃ r p, s.pool.pbufAlloc size = some (r, p)
    ∧ (r = none ↔ s.pool.links.listEmpty .freeList = true)
    ∧ ∀ e, r = some e → s.owners e = [] ∧ ∀ c, (s.pc c).claims ≠ some e
  /-- Whatever is in `fl`, allocating again and again returns it. -/
  again : ∀ c size, s.pc c = .idle → size ≤ pbufMaxSize → ∀ e ∈ fl,
    ∃ m s', run PoolSys.step s (List.replicate m (.alloc c size)) = some s' ∧ s'.owners e = [c]

/-- Allocating goes through the list. -/
theorem PoolInv.again (h : PoolInv array n fl ul s) (hidle : s.pc c = .idle) {size : ℕ}
    (hsize : size ≤ pbufMaxSize) (he : e ∈ fl) :
    ∃ m s', run PoolSys.step s (List.replicate m (.alloc c size)) = some s'
      ∧ s'.owners e = [c] := by
  induction fl generalizing s ul with
  | nil => exact nomatch he
  | cons e' fl ih =>
    obtain ⟨hstep, hinv⟩ := h.alloc_cons hidle hsize
    by_cases hee : e = e'
    · subst hee
      refine ⟨1, s.afterAlloc c e size, ?_, ?_⟩
      · rw [List.replicate_one, Run.run_cons, hstep]
        rfl
      · rw [afterAlloc, gain_owners_self]
        exact congrArg (c :: ·) (h.of_mem_free (e := e) List.mem_cons_self).1
    · obtain ⟨m, s', hrun, howners⟩ := ih hinv hidle ((List.mem_cons.mp he).resolve_left hee)
      refine ⟨m + 1, s', ?_, howners⟩
      rw [List.replicate_succ, Run.run_cons, hstep, Option.bind_some, hrun]

theorem PoolInv.partitioned (h : PoolInv array n fl ul s) : Partitioned array n fl ul s := by
  have hholds := h.split.holds
  refine ⟨hholds.free, hholds.use, fun e he => ?_, fun e => (h.split.mem e).mp,
    fun e he => (h.of_mem_free he).1, h.count, fun e he hnone hcl => ?_, fun size hsize => ?_,
    fun c size hidle hsize e he => h.again hidle hsize he⟩
  · rcases (h.split.mem e).mpr he with hfl | hul
    · exact .inl ⟨hfl, hholds.notMem_use hfl⟩
    · exact .inr ⟨hul, fun hfl => hholds.notMem_use hfl hul⟩
  · refine ((h.split.mem e).mpr he).resolve_right fun hul => ?_
    rcases (h.used e).mp hul with hne | ⟨c, hc⟩
    · exact hne hnone
    · exact hcl c hc
  · rw [PbufPool.pbufAlloc, if_pos hsize]
    have hempty := hholds.free.next_anchor_eq_self
    cases fl with
    | nil =>
      refine ⟨none, s.pool, h.split.allocSection_nil size, ?_, fun e he => nomatch he⟩
      exact iff_of_true rfl (decide_eq_true (hempty.mpr rfl))
    | cons e fl =>
      refine ⟨some e, _, (h.split.allocSection_cons size).1, ?_, ?_⟩
      · refine iff_of_false (fun hnone => nomatch hnone) fun htrue => ?_
        exact absurd (hempty.mp (of_decide_eq_true htrue)) (List.cons_ne_nil _ _)
      · intro e' he'
        obtain rfl := Option.some.inj he'
        exact h.of_mem_free List.mem_cons_self

/-! ## Whole runs -/

/-- The pool as `pbuf_pool_init` leaves it, before any client has called a function. -/
theorem exists_poolInv_begin (γ : Type) (size : ℕ) :
    ∃ p, PbufPool.start.pbufPoolInit size true = some (0, p)
      ∧ PoolInv 0 (max size 20) (PbufPool.firstEntries 0 (max size 20)) []
        (begin p : PoolSys γ) := by
  obtain ⟨links, hinit, hsplit⟩ := PbufPool.start_holds.pbufPoolInit_eq size
  rw [PbufPool.poolSize_eq] at hinit hsplit
  have hblank : (PbufPool.start.allocated (max size 20)).Blank := by
    intro e
    show (if e.array = 0 then Pbuf.zero else Pbuf.zero).len = 0
      ∧ (if e.array = 0 then Pbuf.zero else Pbuf.zero).tail = 0
    rw [ite_self]
    exact ⟨rfl, rfl⟩
  refine ⟨_, hinit, hsplit, fun e => ?_, fun e he => absurd rfl he, (fun c e hcl => nomatch hcl),
    (fun c src dst hpc => nomatch hpc), hblank, fun e => Nat.two_pow_pos 31⟩
  refine iff_of_false (fun he => nomatch he) ?_
  rintro (hne | ⟨c, hcl⟩)
  · exact hne rfl
  · exact nomatch hcl

/-- **The pool over whole runs.** After one `pbuf_pool_init`, in every permitted run in
which no buffer has `2^31` references at once, every step returns and the pool is
partitioned in every state. -/
theorem pbuf_pool_run (size : ℕ) :
    ∃ p, PbufPool.start.pbufPoolInit size true = some (0, p)
      ∧ ∀ evs : List (PoolEvent γ), Meets PoolSys.step Permitted (begin p) evs →
        Along PoolSys.step (fun s => ∀ e, (s.owners e).length < 2 ^ 31) (begin p) evs →
        (∃ s', run PoolSys.step (begin p) evs = some s')
          ∧ Along PoolSys.step (fun s => ∃ fl ul, Partitioned 0 (max size 20) fl ul s)
            (begin p) evs := by
  obtain ⟨p, hinit, hinv⟩ := exists_poolInv_begin γ size
  refine ⟨p, hinit, fun evs hevs hfits => ?_⟩
  obtain ⟨⟨s', hrun, -⟩, hal⟩ := Run.total_within
    (J := fun _ s => ∃ fl ul, PoolInv 0 (max size 20) fl ul s)
    (P := fun s => ∃ fl ul, Partitioned 0 (max size 20) fl ul s)
    (fun _ s ⟨fl, ul, h⟩ => ⟨fl, ul, h.partitioned⟩)
    (fun ev _ s ⟨fl, ul, h⟩ hp => h.step hp) ⟨_, _, hinv⟩ hevs hfits
  exact ⟨⟨s', hrun⟩, hal⟩

omit [DecidableEq γ] in
theorem length_owners_gain (s : PoolSys γ) (c : γ) (e e' : PoolEntry) :
    ((s.gain c e').owners e).length ≤ (s.owners e).length + 1 := by
  by_cases he : e = e'
  · rw [he, gain_owners_self, List.length_cons]
  · rw [gain_owners_of_ne _ _ he]
    exact Nat.le_succ _

theorem length_owners_lose (s : PoolSys γ) (c : γ) (e e' : PoolEntry) :
    ((s.lose c e').owners e).length ≤ (s.owners e).length + 1 := by
  refine Nat.le_succ_of_le ?_
  by_cases he : e = e'
  · rw [he, lose_owners_self]
    exact (List.erase_sublist ..).length_le
  · rw [lose_owners_of_ne _ _ he]

/-- A step gives at most one reference away. -/
theorem length_owners_step {ev : PoolEvent γ} (hs : s.step ev = some s') (e : PoolEntry) :
    (s'.owners e).length ≤ (s.owners e).length + 1 := by
  cases ev with
  | alloc c size =>
    rw [step] at hs
    split at hs
    · obtain ⟨⟨r, p⟩, -, rfl⟩ := Option.map_eq_some_iff.mp hs
      cases r with
      | none => exact Nat.le_succ _
      | some e' => exact length_owners_gain ..
    · exact nomatch hs
  | hold c e' =>
    rw [step] at hs
    split at hs
    · obtain ⟨p, -, rfl⟩ := Option.map_eq_some_iff.mp hs
      exact length_owners_gain ..
    · exact nomatch hs
  | free c e' =>
    rw [step] at hs
    split at hs
    · obtain ⟨⟨r, p⟩, -, rfl⟩ := Option.map_eq_some_iff.mp hs
      cases r with
      | false => exact length_owners_lose ..
      | true => exact length_owners_lose ..
    · exact nomatch hs
  | copy c e' =>
    rw [step] at hs
    split at hs
    · obtain ⟨⟨r, p⟩, -, rfl⟩ := Option.map_eq_some_iff.mp hs
      cases r with
      | none => exact Nat.le_succ _
      | some e' => exact Nat.le_succ _
    · exact nomatch hs
  | access c =>
    rw [step, access] at hs
    split at hs
    · exact nomatch hs
    · obtain ⟨p, -, rfl⟩ := Option.map_eq_some_iff.mp hs
      exact Nat.le_succ _
    · obtain ⟨p, -, rfl⟩ := Option.map_eq_some_iff.mp hs
      exact Nat.le_succ _
    · obtain rfl := Option.some.inj hs
      exact length_owners_gain ..

/-- A run of fewer than `2^31` steps does not give too many references away. -/
theorem along_fits {evs : List (PoolEvent γ)} {m : ℕ} (hs : ∀ e, (s.owners e).length ≤ m)
    (hlt : m + evs.length < 2 ^ 31) :
    Along PoolSys.step (fun s => ∀ e, (s.owners e).length < 2 ^ 31) s evs := by
  have hnow : ∀ e, (s.owners e).length < 2 ^ 31 := fun e =>
    lt_of_le_of_lt (hs e) (lt_of_le_of_lt (Nat.le_add_right _ _) hlt)
  induction evs generalizing s m with
  | nil => exact hnow
  | cons ev evs ih =>
    refine ⟨hnow, fun s' hs' => ?_⟩
    rw [List.length_cons] at hlt
    have hs'' : ∀ e, (s'.owners e).length ≤ m + 1 := fun e =>
      (length_owners_step hs' e).trans (Nat.succ_le_succ (hs e))
    exact ih hs'' (by omega) fun e => by have := hs'' e; omega

/-- Two clients: the first allocates a buffer and makes a copy of it, the second holds the
buffer; all references are put again, the first client's last one while the second is
between its two steps. -/
theorem pbuf_pool_run_two :
    let evs : List (PoolEvent Bool) := [.alloc true 100, .copy true ⟨0, 0⟩, .hold false ⟨0, 0⟩,
      .access true, .access true, .free true ⟨0, 0⟩, .free false ⟨0, 0⟩, .free true ⟨0, 1⟩,
      .access true, .alloc true 7, .access false]
    ∃ p, PbufPool.start.pbufPoolInit 3 true = some (0, p)
      ∧ Meets PoolSys.step Permitted (begin p) evs
      ∧ (∃ s', run PoolSys.step (begin p) evs = some s')
      ∧ Along PoolSys.step (fun s => ∃ fl ul, Partitioned 0 20 fl ul s) (begin p) evs := by
  intro evs
  obtain ⟨p, hinit, hrun⟩ := pbuf_pool_run (γ := Bool) 3
  have hp : p = ((PbufPool.start.pbufPoolInit 3 true).getD (0, PbufPool.start)).2 := by
    rw [hinit]
    rfl
  have hevs : Meets PoolSys.step Permitted (begin p) evs := by
    rw [hp]
    decide +kernel
  exact ⟨p, hinit, hevs, hrun evs hevs
    (along_fits (m := 0) (fun _ => Nat.le_refl 0) (by decide))⟩

/-! ## Where the count wraps around -/

/-- A client that holds a buffer again and again: the count follows, modulo `2^32`. -/
theorem holds_run (m : ℕ) {k : ℤ} (hsplit : s.pool.Split array n fl ul) (he : e ∈ ul)
    (hidle : s.pc c = .idle) (hmem : c ∈ s.owners e) (hcount : (s.pool.pbuf e).refcount = i32 k) :
    Meets PoolSys.step Permitted s (List.replicate m (.hold c e))
      ∧ ∃ s', run PoolSys.step s (List.replicate m (.hold c e)) = some s'
        ∧ s'.pool.Split array n fl ul ∧ s'.pc = s.pc
        ∧ (s'.owners e).length = (s.owners e).length + m ∧ c ∈ s'.owners e
        ∧ (s'.pool.pbuf e).refcount = i32 (k + m) := by
  induction m generalizing s k with
  | zero => exact ⟨trivial, s, rfl, hsplit, rfl, rfl, hmem, hcount.trans (by simp)⟩
  | succ m ih =>
    let s₁ := gain { s with pool := s.pool.setRefcount e (atomicInc (s.pool.pbuf e).refcount) } c e
    have hstep : s.step (.hold c e) = some s₁ := by
      rw [step, hidle]
      dsimp only
      rw [PbufPool.pbufHold, if_pos (hsplit.live e (.inr he))]
      rfl
    have howners : s₁.owners e = c :: s.owners e := gain_owners_self ..
    have hcount₁ : (s₁.pool.pbuf e).refcount = i32 (k + 1) := by
      have hinc : (s₁.pool.pbuf e).refcount = atomicInc (s.pool.pbuf e).refcount :=
        congrArg Pbuf.refcount (PbufPool.setPbuf_self ..)
      rw [hinc, hcount]
      exact Int.bmod_add_bmod
    obtain ⟨hmeets, s', hrun, hsplit', hpc, hlen, hmem', hcount'⟩ := ih (s := s₁) (k := k + 1)
      (hsplit.of_links rfl rfl) hidle (howners ▸ List.mem_cons_self) hcount₁
    refine ⟨?_, s', ?_, hsplit', hpc, ?_, hmem', ?_⟩
    · exact (Run.meets_cons hstep).mpr ⟨⟨hidle, List.ne_nil_of_mem hmem⟩, hmeets⟩
    · rw [List.replicate_succ, Run.run_cons, hstep, Option.bind_some, hrun]
    · rw [hlen, howners, List.length_cons]
      omega
    · rw [hcount']
      exact congrArg i32 (by omega)

/-- A client that frees a buffer whose count says that it is the last: the buffer can be
handed out again. -/
theorem free_run (hsplit : s.pool.Split array n fl ul) (he : e ∈ ul) (hidle : s.pc c = .idle)
    (hmem : c ∈ s.owners e) (hdec : atomicDec (s.pool.pbuf e).refcount = 0) :
    Meets PoolSys.step Permitted s [.free c e, .access c]
      ∧ ∃ s', run PoolSys.step s [.free c e, .access c] = some s'
        ∧ s'.owners e = (s.owners e).erase c
        ∧ s'.pool.Split array n (e :: fl.erase e) (ul.erase e) := by
  let p₁ := s.pool.setRefcount e 0
  let s₁ := (s.goto c (.freeMove e) p₁).lose c e
  have hfree : s.step (.free c e) = some s₁ := by
    rw [step, hidle]
    dsimp only
    rw [PbufPool.decAndTest, if_pos (hsplit.live _ (.inr he)), hdec]
    rfl
  have hpc₁ : s₁.pc c = .freeMove e := goto_pc_self s c _ p₁
  have hsplit₁ : s₁.pool.Split array n fl ul := hsplit.of_links rfl rfl
  obtain ⟨hsection, hsplit₂⟩ := hsplit₁.freeSection_eq (.inr he)
  let s₂ := s₁.goto c .idle (s₁.pool.takeBack e)
  have haccess : s₁.step (.access c) = some s₂ := by
    rw [step, access, hpc₁]
    dsimp only
    rw [hsection]
    rfl
  have hbusy : s₁.pc c ≠ .idle := fun hcon => nomatch hpc₁.symm.trans hcon
  refine ⟨?_, s₂, ?_, lose_owners_self .., hsplit₂⟩
  · exact (Run.meets_cons hfree).mpr ⟨⟨hidle, hmem⟩, (Run.meets_cons haccess).mpr ⟨hbusy, trivial⟩⟩
  · rw [Run.run_cons, hfree, Option.bind_some, Run.run_cons, haccess]
    rfl

/-- **The count wraps around.** A client allocates a buffer, holds it `2^32` times and frees
it once: the buffer is among those that can be handed out, and the client has `2^32`
references to it. -/
theorem pbuf_pool_wrap :
    let evs : List (PoolEvent Unit) := .alloc () 100 :: (List.replicate (2 ^ 32) (.hold () ⟨0, 0⟩)
      ++ [.free () ⟨0, 0⟩, .access ()])
    ∃ p s', PbufPool.start.pbufPoolInit 20 true = some (0, p)
      ∧ Meets PoolSys.step Permitted (begin p) evs
      ∧ run PoolSys.step (begin p) evs = some s'
      ∧ (s'.owners ⟨0, 0⟩).length = 2 ^ 32 ∧ ¬ ∃ fl ul, Partitioned 0 20 fl ul s' := by
  intro evs
  obtain ⟨p, hinit, hinv⟩ := exists_poolInv_begin Unit 20
  obtain ⟨hstep, hinv₁⟩ := PoolInv.alloc_cons (e := ⟨0, 0⟩) (c := ()) hinv rfl
    (show 100 ≤ pbufMaxSize by decide)
  let s₁ : PoolSys Unit := (begin p).afterAlloc () ⟨0, 0⟩ 100
  have howners₁ : s₁.owners ⟨0, 0⟩ = [()] := gain_owners_self ..
  have hcount₁ : (s₁.pool.pbuf ⟨0, 0⟩).refcount = i32 1 := by
    rw [hinv₁.count _ (by rw [howners₁]; exact List.cons_ne_nil _ _), howners₁]
    rfl
  obtain ⟨hmeets, s₂, hrun, hsplit, hpc, hlen, hmem, hcount⟩ := holds_run (2 ^ 32)
    hinv₁.split List.mem_cons_self rfl (howners₁ ▸ List.mem_cons_self) hcount₁
  -- the count is that of a buffer with one reference, and the decrement reaches zero
  have hdec : atomicDec (s₂.pool.pbuf ⟨0, 0⟩).refcount = 0 := by
    rw [hcount]
    decide +kernel
  obtain ⟨hmeets', s', hrun', howners', hsplit'⟩ :=
    free_run hsplit List.mem_cons_self (by rw [hpc]; rfl) hmem hdec
  have hlen' : (s'.owners ⟨0, 0⟩).length = 2 ^ 32 := by
    rw [howners', List.length_erase_of_mem hmem, hlen, howners₁]
    rfl
  refine ⟨p, s', hinit, ?_, ?_, hlen', ?_⟩
  · exact (Run.meets_cons hstep).mpr ⟨⟨rfl, by decide⟩, Run.meets_append hmeets hrun hmeets'⟩
  · rw [Run.run_cons, hstep, Option.bind_some, Run.run_append, hrun, Option.bind_some]
    exact hrun'
  · rintro ⟨fl, ul, hpart⟩
    have hnext : (fl.map PoolNode.entry ++ [PoolNode.freeList]).head? = some (.entry ⟨0, 0⟩) :=
      hpart.free.next_anchor.trans hsplit'.holds.free.next_anchor.symm
    have hfree : (⟨0, 0⟩ : PoolEntry) ∈ fl := by
      rcases List.mem_append.mp (List.mem_of_mem_head? (Option.mem_def.mpr hnext)) with hin | hin
      · exact PbufPool.mem_map_entry.mp hin
      · exact nomatch List.mem_singleton.mp hin
    rw [hpart.unowned _ hfree] at hlen'
    exact absurd hlen' (by decide)

end PoolSys
