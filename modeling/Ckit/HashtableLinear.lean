import Ckit.HashtableMap
import Ckit.HashtableRefs
import Ckit.Linear

/-!
# The clients of a hash table see an atomic map

`hashtable_refines_map` is about one call after the other. Here several clients have their
calls of `hashtable_hash`, `hashtable_unhash` and `hashtable_lookup` under way at once, cut
into the steps of `HashSys`, and take and give back references in between. What they see
is what they could have seen of a finite map that does each call at once: every call has
one moment between its call and its return at which it takes effect.

That moment is the locked part of the function, save where `hashtable_hash` refuses an
element that is hashed already: it takes no lock then, and the moment is the test it
begins with. A `hashtable_hash` that has passed the test and waits for the lock has
nothing to fear from the others, since nobody else hashes the element.

That a locked part is one step rests on the lock being that of the slot the element is in.
`hashtable_unhash` reads the hash before it takes the lock: where the element is unhashed and
hashed again in between, it holds the lock of a slot the element has left, and another client
can find the element meanwhile. The theorem is about the runs in which this does not happen
(`Guarded`), and in which nothing is read of an element that has no reference left.

What is kept is that the references are right and that the memory is the map (`AtomicInv`); what
a step adds is to which contents it takes the map (`Serving.step_atomic`).
-/

/-- The call a client is in, as it is seen from outside. -/
def HashPc.phase {ε κ : Type} : HashPc ε κ → Phase (HashTable.HashOp ε κ) (HashTable.HashAnswer ε)
  | .idle | .fini _ => .idle
  | .hashTest e key | .hashWrite e key | .hash e key => .called (.hash e key)
  | .unhashRead e | .unhash e _ => .called (.unhash e)
  | .lookup key => .called (.lookup key)

namespace HashSys

open HashTable

variable {ε κ γ : Type} [DecidableEq ε] [DecidableEq γ]

/-- Where the clients are. -/
def phases (s : HashSys ε κ γ) (c : γ) : Phase (HashOp ε κ) (HashAnswer ε) := (s.pc c).phase

/-- **What is seen of a step**: a call, or a return with its answer. -/
def seen (fuel : ℕ) (s : HashSys ε κ γ) :
    HashEvent ε κ γ → List (Seen γ (HashOp ε κ) (HashAnswer ε))
  | .callHash c e key => [.call c (.hash e key)]
  | .callUnhash c e => [.call c (.unhash e)]
  | .callLookup c key => [.call c (.lookup key)]
  | .access c =>
    match s.pc c with
    | .hashTest e _ => if s.t.hashelmHashed e then [.ret c (.returned (-1))] else []
    | .hash e key => ((s.t.hashSection fuel e key).map fun r => .ret c (.returned r.1)).toList
    | .unhash _ _ => [.ret c .void]
    | .lookup key => ((s.t.hashtableLookup fuel key).map fun r => .ret c (.found r.1)).toList
    | _ => []
  | _ => []

/-- What a call touches of an element: it is read and written while there is a reference to it,
and it is unlinked under the lock of the slot it is in. -/
def PcGuarded (s : HashSys ε κ γ) : HashPc ε κ → Prop
  | .hashTest e _ | .hashWrite e _ | .unhashRead e => 0 < s.refs e
  | .unhash e slot => slot = s.t.getSlot (s.t.elm e).hash
  | .idle | .hash _ _ | .lookup _ | .fini _ => True

/-- **What the clients have to keep to**, with the locks they hold. -/
def Guarded (s : HashSys ε κ γ) (ev : HashEvent ε κ γ) : Prop :=
  s.Permitted ev ∧ match ev with
    | .access c => s.PcGuarded (s.pc c)
    | _ => True

instance (s : HashSys ε κ γ) (pc : HashPc ε κ) : Decidable (s.PcGuarded pc) :=
  match pc with
  | .hashTest e _ | .hashWrite e _ | .unhashRead e => inferInstanceAs (Decidable (0 < s.refs e))
  | .unhash e slot => inferInstanceAs (Decidable (slot = s.t.getSlot (s.t.elm e).hash))
  | .idle | .hash _ _ | .lookup _ | .fini _ => .isTrue trivial

instance [DecidableEq κ] [Fintype γ] (s : HashSys ε κ γ) (ev : HashEvent ε κ γ) :
    Decidable (s.Guarded ev) :=
  match ev with
  | .access c => inferInstanceAs (Decidable (s.Permitted (.access c) ∧ s.PcGuarded (s.pc c)))
  | .hold c e => inferInstanceAs (Decidable (s.Permitted (.hold c e) ∧ True))
  | .put c e => inferInstanceAs (Decidable (s.Permitted (.put c e) ∧ True))
  | .callHash c e key => inferInstanceAs (Decidable (s.Permitted (.callHash c e key) ∧ True))
  | .callUnhash c e => inferInstanceAs (Decidable (s.Permitted (.callUnhash c e) ∧ True))
  | .callLookup c key => inferInstanceAs (Decidable (s.Permitted (.callLookup c key) ∧ True))
  | .callFini c => inferInstanceAs (Decidable (s.Permitted (.callFini c) ∧ True))

theorem permitted_of_guarded {fuel : ℕ} {s : HashSys ε κ γ} {evs : List (HashEvent ε κ γ)}
    (h : Meets (step fuel) Guarded s evs) : Meets (step fuel) Permitted s evs :=
  Run.meets_of_along (P := fun _ => True) (fun _ _ _ hg => hg.1)
    (Run.along_of_forall (fun _ => trivial) s evs) h

omit [DecidableEq ε] in
theorem goto_phases (s : HashSys ε κ γ) (t : HashTable ε κ) (c : γ) (pc : HashPc ε κ) :
    phases { s.goto c pc with t := t } = Function.update s.phases c pc.phase := by
  funext c'
  show (Function.update s.pc c pc c').phase = _
  by_cases hcc : c' = c
  · rw [hcc, Function.update_self, Function.update_self]
  · rw [Function.update_of_ne hcc, Function.update_of_ne hcc]
    rfl

variable [Setoid κ] {fuel n : ℕ} {s s' : HashSys ε κ γ} {x x' : Contents ε κ}
  {lists : ℕ → List ε}

/-! ## The steps -/

/-- What a step does to the map, and what is seen of it. -/
structure StepAtomic (fuel n : ℕ) (s s' : HashSys ε κ γ) (x x' : Contents ε κ)
    (h : List (Seen γ (HashOp ε κ) (HashAnswer ε))) : Prop where
  serves : Serves fuel n s'.t x'
  atomic : AtomicStep hashMap x s.phases h x' s'.phases
  closed : s'.closed = s.closed
  mask : s'.t.mask = s.t.mask
  hashfn : s'.t.hashfn = s.t.hashfn

omit [DecidableEq ε] [DecidableEq γ] [Setoid κ] in
theorem phases_eq {c : γ} {pc : HashPc ε κ} (hpc : s.pc c = pc) : s.phases c = pc.phase :=
  congrArg HashPc.phase hpc

/-- A step inside a call. -/
theorem StepAtomic.inside {t : HashTable ε κ} {c : γ} {pc : HashPc ε κ}
    (hserves : Serves fuel n t x) (hmask : t.mask = s.t.mask) (hhashfn : t.hashfn = s.t.hashfn)
    (hpc : s.phases c = pc.phase) :
    StepAtomic fuel n s { s.goto c pc with t := t } x x [] := by
  refine ⟨hserves, ?_, rfl, hmask, hhashfn⟩
  have hsame : phases { s.goto c pc with t := t } = s.phases := by
    rw [goto_phases, ← hpc]
    exact Function.update_eq_self c s.phases
  rw [hsame]
  exact .inside _ _

/-- A step with which a call takes effect and returns. -/
theorem StepAtomic.returns {t : HashTable ε κ} {c : γ} {o : HashOp ε κ} {a : HashAnswer ε}
    (hserves : Serves fuel n t x') (hmask : t.mask = s.t.mask) (hhashfn : t.hashfn = s.t.hashfn)
    (hpc : s.phases c = .called o) (hpre : hashMap.pre x o) (hpost : hashMap.post x o a x') :
    StepAtomic fuel n s { s.goto c .idle with t := t } x x' [.ret c a] := by
  refine ⟨hserves, ?_, rfl, hmask, hhashfn⟩
  rw [goto_phases]
  exact .ret hpc hpre hpost

/-- The test of `hashtable_hash`, which refuses an element that is hashed. -/
theorem hashTest_atomic (hx : Serves fuel (n + 1) s.t x) {c : γ} {e : ε} {key : κ}
    (hpc : s.pc c = .hashTest e key) (hstep : s.access fuel c = some s') :
    ∃ x', StepAtomic fuel n s s' x x' (s.seen fuel (.access c)) := by
  rw [HashSys.access, hpc] at hstep
  rw [seen, hpc]
  dsimp only at hstep ⊢
  by_cases hh : s.t.hashelmHashed e = true
  · rw [if_pos hh] at hstep ⊢
    cases Option.some.inj hstep
    have hM := (hx.hashed_iff e).mp hh
    exact ⟨x, .returns (t := s.t) hx.later rfl rfl (phases_eq hpc) trivial
      (Or.inr ⟨fun ht => hM ht.1, rfl, rfl⟩)⟩
  · rw [if_neg hh] at hstep ⊢
    cases Option.some.inj hstep
    exact ⟨x, .inside (t := s.t) hx.later rfl rfl ((phases_eq hpc).trans rfl)⟩

/-- The writes of `hashtable_hash`, into an element that is in no list. -/
theorem Serving.hashWrite_atomic (h : Serving fuel (n + 1) s lists)
    (hx : Serves fuel (n + 1) s.t x) {c : γ} {e : ε} {key : κ} (hpc : s.pc c = .hashWrite e key)
    (hstep : s.access fuel c = some s') :
    ∃ x', StepAtomic fuel n s s' x x' (s.seen fuel (.access c)) := by
  rw [HashSys.access, hpc] at hstep
  rw [seen, hpc]
  cases Option.some.inj hstep
  have hnot := h.pcs c
  rw [hpc] at hnot
  obtain ⟨hset, -⟩ := hx.later.setKey (hx.keyOf_eq_none hnot) key
  exact ⟨x, .inside hset rfl rfl ((phases_eq hpc).trans rfl)⟩

/-- **The locked part of `hashtable_hash`** is the moment of a call that has passed the
test. -/
theorem Serving.hash_atomic (h : Serving fuel (n + 1) s lists) (hx : Serves fuel (n + 1) s.t x)
    {c : γ} {e : ε} {key : κ} (hpc : s.pc c = .hash e key)
    (hstep : s.access fuel c = some s') :
    ∃ x', StepAtomic fuel n s s' x x' (s.seen fuel (.access c)) := by
  rw [HashSys.access, hpc] at hstep
  rw [seen, hpc]
  dsimp only at hstep ⊢
  have hholds := h.pcs c
  rw [hpc] at hholds
  rcases hx.hashSection (hx.keyOf_eq_none hholds.1) hholds.2 with
    ⟨hnot, heq⟩ | ⟨htakes, slot, x', heq, hkey, hserves⟩
  · rw [heq] at hstep ⊢
    cases Option.some.inj hstep
    exact ⟨x, .returns hx.later rfl rfl (phases_eq hpc) trivial (Or.inr ⟨hnot, rfl, rfl⟩)⟩
  · rw [heq] at hstep ⊢
    cases Option.some.inj hstep
    exact ⟨x', .returns (hserves.same (setRefcount_same _ e _)) rfl rfl (phases_eq hpc) trivial
      (Or.inl ⟨htakes, rfl, hkey⟩)⟩

/-- **The locked part of `hashtable_unhash`** is the moment of the call. -/
theorem Serving.unhash_atomic (h : Serving fuel (n + 1) s lists)
    (hx : Serves fuel (n + 1) s.t x) {c : γ} {e : ε} {slot : ℕ} (hpc : s.pc c = .unhash e slot)
    (hhashed : s.t.hashelmHashed e = true) (hstep : s.access fuel c = some s') :
    ∃ x', StepAtomic fuel n s s' x x' (s.seen fuel (.access c)) := by
  rw [HashSys.access, hpc] at hstep
  rw [seen, hpc]
  dsimp only at hstep ⊢
  have hlt : slot < s.t.slots := by
    have hpc' := h.pcs c
    rw [hpc] at hpc'
    exact hpc'
  have hM := (hx.hashed_iff e).mp hhashed
  obtain ⟨-, x', hkey, hserves⟩ := hx.later.delElm hM slot
  obtain ⟨t', hsection, rfl⟩ := Option.map_eq_some_iff.mp hstep
  rw [unhashSection, if_pos hlt] at hsection
  have hsame := SameTable.of_put hsection
  exact ⟨x', .returns (hserves.same hsame) hsame.mask hsame.hashfn (phases_eq hpc) hM hkey⟩

/-- **The locked part of `hashtable_lookup`** is the moment of the call. -/
theorem lookup_atomic (hx : Serves fuel (n + 1) s.t x) {c : γ} {key : κ}
    (hpc : s.pc c = .lookup key) (hstep : s.access fuel c = some s') :
    ∃ x', StepAtomic fuel n s s' x x' (s.seen fuel (.access c)) := by
  rw [HashSys.access, hpc] at hstep
  rw [seen, hpc]
  dsimp only at hstep ⊢
  obtain ⟨r, hr, heq⟩ := hx.represents.lookup_eq hx.laws key hx.lengths_lt
  rw [heq] at hstep ⊢
  cases r with
  | none =>
    cases Option.some.inj hstep
    exact ⟨x, .returns hx.later rfl rfl (phases_eq hpc) trivial ⟨hr, rfl⟩⟩
  | some e =>
    cases Option.some.inj hstep
    have hsame := setRefcount_same s.t e (i32 ((s.t.elm e).refcount + 1))
    have hreturns := StepAtomic.returns (o := .lookup key) (a := .found (some e))
      (hx.later.same hsame) hsame.mask hsame.hashfn (phases_eq hpc) trivial ⟨hr, rfl⟩
    exact ⟨x, hreturns.serves, hreturns.atomic, rfl, hreturns.mask, hreturns.hashfn⟩

/-- **A step of a client that is in a call.** -/
theorem Serving.access_atomic (h : Serving fuel (n + 1) s lists)
    (hx : Serves fuel (n + 1) s.t x) {c : γ} (hp : s.Permitted (.access c))
    (hstep : s.access fuel c = some s') :
    ∃ x', StepAtomic fuel n s s' x x' (s.seen fuel (.access c)) := by
  rw [Permitted] at hp
  cases hpc : s.pc c with
  | idle =>
    rw [hpc] at hp
    exact hp.elim
  | hashTest e key => exact hashTest_atomic hx hpc hstep
  | hashWrite e key => exact h.hashWrite_atomic hx hpc hstep
  | hash e key => exact h.hash_atomic hx hpc hstep
  | unhashRead e =>
    rw [HashSys.access, hpc] at hstep
    rw [seen, hpc]
    cases Option.some.inj hstep
    exact ⟨x, .inside (t := s.t) hx.later rfl rfl ((phases_eq hpc).trans rfl)⟩
  | unhash e slot =>
    rw [hpc] at hp
    exact h.unhash_atomic hx hpc hp hstep
  | lookup key => exact lookup_atomic hx hpc hstep
  | fini slot =>
    have hfalse := h.pcs c
    rw [hpc] at hfalse
    exact hfalse.elim

/-- A client calls a function. -/
theorem StepAtomic.calls (hx : Serves fuel (n + 1) s.t x) {c : γ} {pc : HashPc ε κ}
    {o : HashOp ε κ} (hpc : s.pc c = .idle) (hphase : pc.phase = .called o) :
    ∃ x', StepAtomic fuel n s (s.goto c pc) x x' [.call c o] := by
  refine ⟨x, hx.later, ?_, rfl, rfl, rfl⟩
  have hphases : (s.goto c pc).phases = Function.update s.phases c pc.phase :=
    goto_phases s s.t c pc
  rw [hphases, hphase]
  exact .call (phases_eq hpc)

/-- **A step of the system**, save the call of `hashtable_fini`. -/
theorem Serving.step_atomic (h : Serving fuel (n + 1) s lists) (hx : Serves fuel (n + 1) s.t x)
    {ev : HashEvent ε κ γ} (hp : s.Permitted ev) (hopen : ∀ c, ev ≠ .callFini c)
    (hstep : s.step fuel ev = some s') :
    ∃ x', StepAtomic fuel n s s' x x' (s.seen fuel ev) := by
  cases ev with
  | hold c e =>
    rw [step, hp.1] at hstep
    cases Option.some.inj hstep
    exact ⟨x, hx.later.same (setRefcount_same s.t e _), .inside _ _, rfl, rfl, rfl⟩
  | put c e =>
    rw [step, hp.1] at hstep
    obtain ⟨t', hput, rfl⟩ := Option.map_eq_some_iff.mp hstep
    have hsame := SameTable.of_put hput
    exact ⟨x, hx.later.same hsame, .inside _ _, rfl, hsame.mask, hsame.hashfn⟩
  | callHash c e key =>
    rw [step, hp.1] at hstep
    cases Option.some.inj hstep
    exact StepAtomic.calls hx hp.1 rfl
  | callUnhash c e =>
    rw [step, hp.1] at hstep
    cases Option.some.inj hstep
    exact StepAtomic.calls hx hp.1 rfl
  | callLookup c key =>
    rw [step, hp.1] at hstep
    cases Option.some.inj hstep
    exact StepAtomic.calls hx hp.1 rfl
  | callFini c => exact absurd rfl (hopen c)
  | access c => exact h.access_atomic hx hp hstep

/-! ## The runs -/

/-- **What is kept while the table is in use**: the references are right, and the memory is the
map. -/
structure AtomicInv (fuel n : ℕ) (s : HashSys ε κ γ) (x : Contents ε κ) : Prop where
  refs : RefInv fuel n s
  closed : s.closed = false
  serves : Serves fuel n s.t x

omit [DecidableEq γ] in
/-- A step less is still to come. -/
theorem AtomicInv.later (h : AtomicInv fuel (n + 1) s x) : AtomicInv fuel n s x := by
  obtain ⟨lists, hserving⟩ := h.refs.serving h.closed
  have hlater : Serving fuel n s lists :=
    ⟨hserving.working.later, h.closed, hserving.pcs, hserving.alone⟩
  exact ⟨⟨h.refs.counted, Or.inl ⟨lists, hlater⟩⟩, h.closed, h.serves.later⟩

/-- A step of the system that is permitted. -/
theorem AtomicInv.step (h : AtomicInv fuel (n + 1) s x) {ev : HashEvent ε κ γ}
    (hp : s.Permitted ev) (hopen : ∀ c, ev ≠ .callFini c) :
    ∃ s' x', s.step fuel ev = some s' ∧ StepAtomic fuel n s s' x x' (s.seen fuel ev)
      ∧ (s'.Fits → AtomicInv fuel n s' x') := by
  obtain ⟨lists, hserving⟩ := h.refs.serving h.closed
  obtain ⟨s', hstep, hinv⟩ := h.refs.step hp
  obtain ⟨x', hatomic⟩ := hserving.step_atomic h.serves hp hopen hstep
  exact ⟨s', x', hstep, hatomic, fun hfits =>
    ⟨hinv hfits, hatomic.closed.trans h.closed, hatomic.serves⟩⟩

omit [DecidableEq γ] in
/-- A new table is the empty map. -/
theorem Starts.atomicInv {size : UInt32} {hashfn : κ → UInt32} {equalfn : HashElm κ → κ → Bool}
    {freefn : Bool} (h : Starts size hashfn equalfn freefn s)
    (hequal : ∀ he k, equalfn he k = true ↔ he.key ≈ k)
    (hhash : ∀ k k', k ≈ k' → hashfn k = hashfn k') (hn : n < fuel) :
    AtomicInv fuel n s ⟨fun _ => [], fun _ => none⟩ := by
  obtain ⟨links, elm, helm, hfresh, hslots, hlt⟩ := h.fresh
  exact ⟨h.refInv hn, h.closed, hfresh.serves hslots hlt helm hequal hhash hn⟩

/-- A run of the clients of a table that is in use, with `m` steps to come after it. -/
theorem atomic_run {m : ℕ} {evs : List (HashEvent ε κ γ)}
    (hinv : AtomicInv fuel (evs.length + m) s x) (hopen : ∀ c, .callFini c ∉ evs)
    (hpermitted : Meets (step fuel) Permitted s evs) (hfits : Along (step fuel) Fits s evs) :
    ∃ s' y, run (step fuel) s evs = some s' ∧ AtomicInv fuel m s' y
      ∧ Atomic hashMap x s.phases (history (step fuel) (seen fuel) s evs) y s'.phases := by
  have hallowed : ∀ ev ∈ evs, ∀ c, ev ≠ .callFini c := by
    rintro ev hev c rfl
    exact hopen c hev
  obtain ⟨s', y, hrun, hy, hatomic⟩ := Atomic.of_run phases (B := Fits)
    (J := fun es u x => AtomicInv fuel (es.length + m) u x)
    (fun ev es u x hJ hp => by
      rw [List.length_cons, Nat.succ_add] at hJ
      obtain ⟨u', y, hstep, hy, hinv'⟩ := hJ.step hp.2 hp.1
      exact ⟨u', hstep, fun hB => ⟨y, hinv' hB, hy.atomic⟩⟩)
    hinv (Run.meets_and hallowed hpermitted) hfits
  rw [List.length_nil, Nat.zero_add] at hy
  exact ⟨s', y, hrun, hy, hatomic⟩

/-- **The hash table is linearizable.** In every interleaving of clients that keep to what
they have to and unlink elements under the locks of their slots, in which no element ever has
`2^31` references and `hashtable_fini` is not called, every step returns, and what the clients
see of their calls is what they could see of a map that does each call at one moment between
its call and its return; the table then holds what the map does. -/
theorem hashtable_linearizable (size : UInt32) (hashfn : κ → UInt32)
    (equalfn : HashElm κ → κ → Bool) (freefn : Bool)
    (hequal : ∀ he k, equalfn he k = true ↔ he.key ≈ k)
    (hhash : ∀ k k', k ≈ k' → hashfn k = hashfn k')
    (hs : Starts size hashfn equalfn freefn s) (evs : List (HashEvent ε κ γ))
    (hfuel : evs.length < fuel) (hopen : ∀ c, .callFini c ∉ evs)
    (hguarded : Meets (step fuel) Guarded s evs) (hfits : Along (step fuel) Fits s evs) :
    ∃ s' x, run (step fuel) s evs = some s' ∧ Represents s'.t x.lists x.keyOf
      ∧ Atomic hashMap ⟨fun _ => [], fun _ => none⟩ (fun _ => .idle)
        (history (step fuel) (seen fuel) s evs) x s'.phases := by
  have hinv : AtomicInv fuel (evs.length + 0) s _ := hs.atomicInv hequal hhash hfuel
  obtain ⟨s', x, hrun, hx, hatomic⟩ := atomic_run hinv hopen (permitted_of_guarded hguarded) hfits
  have hidle : s.phases = fun _ => .idle := funext fun c => phases_eq (hs.idle c)
  rw [hidle] at hatomic
  exact ⟨s', x, hrun, hx.serves.represents, hatomic⟩

/-- Two clients hash different elements under one key, the second of which begins first and
is refused; it then looks the other one up and unhashes it. -/
def overlapping : List (HashEvent Bool ℕ Bool) :=
  [.callHash true false 5, .access true, .callHash false true 5, .access false, .access false,
    .access true, .access false, .access true, .callLookup true 5, .access true,
    .callUnhash true true, .access true, .access true]

theorem hashtable_linearizable_overlapping :
    history (step 20) (seen 20) (refStart Bool) overlapping
      = [.call true (.hash false 5), .call false (.hash true 5), .ret false (.returned 0),
        .ret true (.returned (-1)), .call true (.lookup 5), .ret true (.found (some true)),
        .call true (.unhash true), .ret true .void]
    ∧ letI : Setoid ℕ := ⊥
      ∃ s' x, run (step 20) (refStart Bool) overlapping = some s'
        ∧ Represents s'.t x.lists x.keyOf
        ∧ Atomic hashMap ⟨fun _ => [], fun _ => none⟩ (fun _ => .idle)
          (history (step 20) (seen 20) (refStart Bool) overlapping) x s'.phases := by
  let _ : Setoid ℕ := ⊥
  exact ⟨rfl, hashtable_linearizable 2 UInt32.ofNat (fun he k => he.key == k) true
    (fun _ _ => beq_iff_eq) (fun _ _ hk => congrArg UInt32.ofNat hk) refStart_starts
    overlapping (by decide) (by simp [overlapping]) (by decide +kernel) (by decide +kernel)⟩

end HashSys
