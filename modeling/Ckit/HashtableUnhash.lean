import Mathlib.Data.Int.ModEq
import Ckit.HashtableRefs

/-!
# An element that is unhashed twice

Two clients look the same element up, each unhashes it and each puts the reference the
lookup gave it. `hashtable_unhash` does not ask whether the element is still in the table.
`list_del` of an element that is not does nothing, and everything after it is done once
more: the slot and the table count one element less each, and another reference is put
that the table does not have.

Whatever the order of their steps, the two clients together take away two where one was
there. `Ready` says what a client has still to do, and what that will do to the counts.
-/

/-- The steps of a client that looks up `key`, unhashes the element `e` it has got and puts
its reference. -/
def unhashScript {ε κ γ : Type} (c : γ) (key : κ) (e : ε) : List (HashEvent ε κ γ) :=
  [.callLookup c key, .access c, .callUnhash c e, .access c, .access c, .put c e]

namespace HashSys

open HashTable

variable {ε κ γ : Type} [DecidableEq ε] [DecidableEq γ]

/-- A lookup a client is about to make finds the element `e`. -/
def PcObtains (fuel : ℕ) (e : ε) (t : HashTable ε κ) : HashPc ε κ → Prop
  | .lookup key => (t.hashtableLookup fuel key).map Prod.fst = some (some e)
  | _ => True

/-- The lookups of the run find the element `e`. -/
def Obtains (fuel : ℕ) (e : ε) (s : HashSys ε κ γ) : HashEvent ε κ γ → Prop
  | .access c => PcObtains fuel e s.t (s.pc c)
  | _ => True

instance (fuel : ℕ) (e : ε) (t : HashTable ε κ) (pc : HashPc ε κ) :
    Decidable (PcObtains fuel e t pc) :=
  match pc with
  | .lookup _ => inferInstanceAs (Decidable (_ = _))
  | .idle | .hashTest _ _ | .hashWrite _ _ | .hash _ _ | .unhashRead _ | .unhash _ _ | .fini _ =>
    .isTrue trivial

instance (fuel : ℕ) (e : ε) (s : HashSys ε κ γ) (ev : HashEvent ε κ γ) :
    Decidable (s.Obtains fuel e ev) :=
  match ev with
  | .access c => inferInstanceAs (Decidable (PcObtains fuel e s.t (s.pc c)))
  | .hold _ _ | .put _ _ | .callHash _ _ _ | .callUnhash _ _ | .callLookup _ _ | .callFini _ =>
    .isTrue trivial

/-- **The element is removed once**, between the two states: there is one element less in
its slot and in the table, the table has put the one reference it had, and `freefn` has
not been called while there is an owner. -/
structure RemovedOnce (s s' : HashSys ε κ γ) (e : ε) : Prop where
  slotCount : s'.t.slotCount (s.t.getSlot (s.t.elm e).hash) + 1
    = s.t.slotCount (s.t.getSlot (s.t.elm e).hash)
  count : s'.t.count + 1 = s.t.count
  refcount : (s'.t.elm e).refcount + 1 = (s.t.elm e).refcount
  freed : s'.owners e ≠ [] → s'.t.freed e = s.t.freed e

/-- **What a client has still to do**, with the number of times it will unhash the element
and what the rest of its steps will do to the reference count. -/
inductive Ready (c : γ) (key : κ) (e : ε) (slot : ℕ) :
    HashPc ε κ → List (HashEvent ε κ γ) → ℤ → ℤ → Prop
  | start : Ready c key e slot .idle (unhashScript c key e) 1 (-1)
  | lookup : Ready c key e slot (.lookup key)
      [.access c, .callUnhash c e, .access c, .access c, .put c e] 1 (-1)
  | found : Ready c key e slot .idle [.callUnhash c e, .access c, .access c, .put c e] 1 (-2)
  | read : Ready c key e slot (.unhashRead e) [.access c, .access c, .put c e] 1 (-2)
  | unhash : Ready c key e slot (.unhash e slot) [.access c, .put c e] 1 (-2)
  | put : Ready c key e slot .idle [.put c e] 0 (-1)
  | done : Ready c key e slot .idle [] 0 0

/-- What the steps of the two clients leave as it is: the array of slots, the slot of the
element, and that the element has been hashed. -/
structure InSlot (t : HashTable ε κ) (e : ε) (slot : ℕ) : Prop where
  lt : slot < t.slots
  slot_eq : t.getSlot (t.elm e).hash = slot
  ht : (t.elm e).ht = true

/-- The counts after steps that unhash the element `u` times and add `d` to its reference
count. -/
structure Shifted (t t' : HashTable ε κ) (e : ε) (slot : ℕ) (u d : ℤ) : Prop where
  slotCount : (t'.slotCount slot : ℤ) ≡ t.slotCount slot - u [ZMOD 2 ^ 64]
  count : t'.count ≡ t.count - u [ZMOD 2 ^ 32]
  refcount : (t'.elm e).refcount ≡ (t.elm e).refcount + d [ZMOD 2 ^ 32]

variable {fuel : ℕ} {s s' : HashSys ε κ γ} {t t' t'' : HashTable ε κ} {e : ε} {slot : ℕ}
  {u d u' d' : ℤ}

omit [DecidableEq ε] in
theorem Shifted.refl (t : HashTable ε κ) (e : ε) (slot : ℕ) : Shifted t t e slot 0 0 :=
  ⟨by rw [sub_zero], by rw [sub_zero], by rw [add_zero]⟩

omit [DecidableEq ε] in
theorem Shifted.trans (h : Shifted t t' e slot u d) (h' : Shifted t' t'' e slot u' d') :
    Shifted t t'' e slot (u + u') (d + d') := by
  refine ⟨h'.slotCount.trans ?_, h'.count.trans ?_, h'.refcount.trans ?_⟩
  · rw [← sub_sub]
    exact h.slotCount.sub_right u'
  · rw [← sub_sub]
    exact h.count.sub_right u'
  · rw [← add_assoc]
    exact h.refcount.add_right d'

theorem i32_modEq (n : ℤ) : i32 n ≡ n [ZMOD 2 ^ 32] :=
  Int.bmod_emod

/-- A change of the reference count of the element. -/
theorem Shifted.setRefcount (t : HashTable ε κ) (e : ε) (slot : ℕ) (d : ℤ) :
    Shifted t (t.setRefcount e (i32 ((t.elm e).refcount + d))) e slot 0 d := by
  refine ⟨by rw [sub_zero]; rfl, by rw [sub_zero]; rfl, ?_⟩
  rw [setRefcount_elm_self]
  exact i32_modEq _

omit [DecidableEq ε] in
theorem InSlot.same (h : InSlot t e slot) (hsame : SameTable t t') : InSlot t' e slot := by
  obtain ⟨-, hhash, hht⟩ := hsame.fields e
  refine ⟨hsame.slots ▸ h.lt, ?_, hht.trans h.ht⟩
  rw [hhash, hsame.getSlot]
  exact h.slot_eq

/-- `freefn` does not touch the counts. -/
theorem Shifted.callFreefn (h : Shifted t t' e slot u d) (e' : ε) :
    Shifted t (t'.callFreefn e') e slot u d := by
  unfold HashTable.callFreefn
  split
  · exact ⟨h.slotCount, h.count, h.refcount⟩
  · exact h

/-- `hashelm_put` of the element. -/
theorem put_shifted (slot : ℕ) (h : t.hashelmPut e = some t') : Shifted t t' e slot 0 (-1) := by
  have hset : Shifted t (t.setRefcount e (i32 ((t.elm e).refcount - 1))) e slot 0 (-1) :=
    Shifted.setRefcount t e slot (-1)
  rcases hashelmPut_cases h with rfl | rfl
  · exact hset
  · exact hset.callFreefn e

/-- **The locked part of `hashtable_unhash`**, whether the element is in the table or
not. -/
theorem unhash_shifted (h : t.unhashSection slot e = some t') : Shifted t t' e slot 1 (-1) := by
  have hdel : Shifted t (t.delElm slot e) e slot 1 0 := by
    refine ⟨?_, i32_modEq _, by rw [add_zero]; rfl⟩
    show ((Function.update t.slotCount slot ((t.slotCount slot + (2 ^ 64 - 1)) % 2 ^ 64) slot : ℕ)
      : ℤ) ≡ _ [ZMOD _]
    rw [Function.update_self]
    unfold Int.ModEq
    omega
  unfold unhashSection at h
  split at h
  · exact hdel.trans (put_shifted slot h)
  · exact nomatch h

theorem InSlot.put (h : InSlot t e slot) :
    ∃ t', t.hashelmPut e = some t' ∧ InSlot t' e slot ∧ Shifted t t' e slot 0 (-1) := by
  obtain ⟨t', heq, hsame⟩ := hashelmPut_same h.ht
  exact ⟨t', heq, h.same hsame, put_shifted slot heq⟩

theorem InSlot.unhash (h : InSlot t e slot) :
    ∃ t', t.unhashSection slot e = some t' ∧ InSlot t' e slot ∧ Shifted t t' e slot 1 (-1) := by
  have hin : InSlot (t.delElm slot e) e slot := ⟨h.lt, h.slot_eq, h.ht⟩
  obtain ⟨t', hput, hin', -⟩ := hin.put
  have heq : t.unhashSection slot e = some t' := by
    rw [unhashSection, if_pos h.lt, hput]
  exact ⟨t', heq, hin', unhash_shifted heq⟩

/-- A lookup that finds the element takes a reference to it. -/
theorem lookup_eq_hold {key : κ} (h : t.hashtableLookup fuel key = some (some e, t')) :
    t' = t.hashelmHold e := by
  unfold hashtableLookup lookupSection at h
  obtain ⟨r, -, hr⟩ := Option.bind_eq_some_iff.mp h
  cases r with
  | none => exact absurd (congrArg Prod.fst (Option.some.inj hr)) (by simp)
  | some e' =>
    obtain ⟨he, ht⟩ := Prod.mk.inj (Option.some.inj hr)
    rw [← ht, Option.some.inj he]

/-! ## One step of one of the clients -/

/-- **A step of a client** does its share of what the client had still to do. -/
theorem Ready.step {c : γ} {key : κ} {ev : HashEvent ε κ γ} {evs : List (HashEvent ε κ γ)}
    (h : Ready c key e slot (s.pc c) (ev :: evs) u d) (hin : InSlot s.t e slot)
    (hob : Obtains fuel e s ev) :
    ∃ s', s.step fuel ev = some s' ∧ InSlot s'.t e slot ∧ (∀ c', c' ≠ c → s'.pc c' = s.pc c')
      ∧ ∃ u' d', Ready c key e slot (s'.pc c) evs u' d'
        ∧ Shifted s.t s'.t e slot (u - u') (d - d') := by
  have hothers : ∀ pc, ∀ c', c' ≠ c → (s.goto c pc).pc c' = s.pc c' := fun pc c' hc =>
    goto_pc_of_ne s pc hc
  have hself : ∀ pc, (s.goto c pc).pc c = pc := goto_pc_self s c
  have hstay : Shifted s.t s.t e slot (u - u) (d - d) := by
    rw [sub_self, sub_self]
    exact Shifted.refl _ e slot
  generalize hpc : s.pc c = pc at h
  cases h with
  | start =>
    refine ⟨s.goto c (.lookup key), by rw [HashSys.step, hpc], hin, hothers _, _, _, ?_, hstay⟩
    rw [hself]
    exact .lookup
  | lookup =>
    rw [Obtains, hpc] at hob
    obtain ⟨⟨r, t⟩, ht, hr⟩ := Option.map_eq_some_iff.mp hob
    obtain rfl : r = some e := hr
    obtain rfl := lookup_eq_hold ht
    refine ⟨gain { s.goto c .idle with t := s.t.hashelmHold e } c e, ?_,
      hin.same (setRefcount_same s.t e _), hothers _, 1, -2, ?_, ?_⟩
    · rw [HashSys.step, access, hpc]
      dsimp only
      rw [ht]
      rfl
    · exact (hself .idle).symm ▸ Ready.found
    · show Shifted s.t (s.t.hashelmHold e) e slot 0 1
      exact Shifted.setRefcount s.t e slot 1
  | found =>
    refine ⟨s.goto c (.unhashRead e), by rw [HashSys.step, hpc], hin, hothers _, _, _, ?_, hstay⟩
    rw [hself]
    exact .read
  | read =>
    refine ⟨s.goto c (.unhash e slot), ?_, hin, hothers _, _, _, ?_, hstay⟩
    · rw [HashSys.step, access, hpc]
      dsimp only
      rw [hin.slot_eq]
    · rw [hself]
      exact .unhash
  | unhash =>
    obtain ⟨t', heq, hin', hshift⟩ := hin.unhash
    refine ⟨{ s.goto c .idle with t := t' }, ?_, hin', hothers _, 0, -1, ?_, ?_⟩
    · rw [HashSys.step, access, hpc]
      dsimp only
      rw [heq]
      rfl
    · exact (hself .idle).symm ▸ Ready.put
    · show Shifted s.t t' e slot 1 (-1)
      exact hshift
  | put =>
    obtain ⟨t', heq, hin', hshift⟩ := hin.put
    refine ⟨lose { s with t := t' } c e, ?_, hin', fun _ _ => rfl, 0, 0, ?_, hshift⟩
    · rw [HashSys.step, hpc]
      dsimp only
      rw [heq]
      rfl
    · exact hpc.symm ▸ Ready.done

/-! ## Every interleaving -/

/-- **Two clients that have still something to do** do all of it, in whatever order. -/
theorem Ready.interleaves {c₁ c₂ : γ} (hne : c₁ ≠ c₂) {key₁ key₂ : κ}
    {l₁ l₂ evs : List (HashEvent ε κ γ)} (hint : Interleaves l₁ l₂ evs) {u₁ d₁ u₂ d₂ : ℤ}
    (h₁ : Ready c₁ key₁ e slot (s.pc c₁) l₁ u₁ d₁) (h₂ : Ready c₂ key₂ e slot (s.pc c₂) l₂ u₂ d₂)
    (hin : InSlot s.t e slot) (hob : Meets (HashSys.step fuel) (Obtains fuel e) s evs) :
    ∃ s', run (HashSys.step fuel) s evs = some s'
      ∧ Shifted s.t s'.t e slot (u₁ + u₂) (d₁ + d₂) := by
  induction hint generalizing s u₁ d₁ u₂ d₂ with
  | nil =>
    generalize s.pc c₁ = pc₁ at h₁
    generalize s.pc c₂ = pc₂ at h₂
    cases h₁
    cases h₂
    exact ⟨s, rfl, Shifted.refl _ e slot⟩
  | left _ ih =>
    obtain ⟨t, hstep, hin', hpc, u', d', hready, hshift⟩ := h₁.step hin hob.1
    obtain ⟨s', hrun, hshift'⟩ := ih hready (by rwa [hpc c₂ hne.symm]) hin' (hob.2 t hstep)
    refine ⟨s', Run.run_cons_eq_some.mpr ⟨t, hstep, hrun⟩, ?_⟩
    have htrans := hshift.trans hshift'
    have hu : u₁ - u' + (u' + u₂) = u₁ + u₂ := by omega
    have hd : d₁ - d' + (d' + d₂) = d₁ + d₂ := by omega
    rwa [hu, hd] at htrans
  | right _ ih =>
    obtain ⟨t, hstep, hin', hpc, u', d', hready, hshift⟩ := h₂.step hin hob.1
    obtain ⟨s', hrun, hshift'⟩ := ih (by rwa [hpc c₁ hne]) hready hin' (hob.2 t hstep)
    refine ⟨s', Run.run_cons_eq_some.mpr ⟨t, hstep, hrun⟩, ?_⟩
    have htrans := hshift.trans hshift'
    have hu : u₂ - u' + (u₁ + u') = u₁ + u₂ := by omega
    have hd : d₂ - d' + (d₁ + d') = d₁ + d₂ := by omega
    rwa [hu, hd] at htrans

/-- An element that is in a table reached by a permitted run is in its slot. -/
theorem inSlot_of_run {size : UInt32} {hashfn : κ → UInt32} {equalfn : HashElm κ → κ → Bool}
    {freefn : Bool} {s₀ : HashSys ε κ γ} (hs : Starts size hashfn equalfn freefn s₀)
    {evs₀ : List (HashEvent ε κ γ)} (hfuel : evs₀.length < fuel)
    (hpermitted : Meets (step fuel) Permitted s₀ evs₀) (hfits : Along (step fuel) Fits s₀ evs₀)
    (hreach : run (step fuel) s₀ evs₀ = some s) (hopen : s.closed = false)
    (hhashed : s.t.hashelmHashed e = true) : InSlot s.t e (s.t.getSlot (s.t.elm e).hash) := by
  have hinv : RefInv fuel evs₀.length s₀ := hs.refInv hfuel
  obtain ⟨⟨s', hrun, hinv'⟩, -⟩ := Run.total_within (J := fun es u => RefInv fuel es.length u)
    (P := fun _ => True) (fun _ _ _ => trivial) (fun _ _ _ h hp => h.step hp) hinv hpermitted hfits
  obtain rfl : s' = s := Option.some.inj (hrun.symm.trans hreach)
  obtain ⟨lists, hserving⟩ := hinv'.serving hopen
  have hfiled := hserving.working.filed
  obtain ⟨i, hi, hmem⟩ := mem_visited.mp ((hfiled.hashed_iff e).mp hhashed)
  exact ⟨hfiled.getSlot_lt _, rfl, (hfiled.fields i hi e hmem).2⟩

omit [DecidableEq ε] in
/-- Unhashing changes all three counts. -/
theorem Shifted.changes (h : Shifted t t' e slot 1 (-1)) :
    t'.slotCount slot ≠ t.slotCount slot ∧ t'.count ≠ t.count
      ∧ (t'.elm e).refcount ≠ (t.elm e).refcount := by
  obtain ⟨hslot, hcount, hrefcount⟩ := h
  unfold Int.ModEq at hslot hcount hrefcount
  refine ⟨fun heq => ?_, fun heq => ?_, fun heq => ?_⟩
  · rw [heq] at hslot
    omega
  · rw [heq] at hcount
    omega
  · rw [heq] at hrefcount
    omega

/-- **Unhashing is not idempotent.** In a table reached by any permitted run, two clients
that both get an element by looking it up, unhash it and put their references remove it
twice, whatever the order of their steps; and already one `hashtable_unhash` of an element
that is not in the table changes all three counts. -/
theorem unhash_twice (size : UInt32) (hashfn : κ → UInt32) (equalfn : HashElm κ → κ → Bool)
    (freefn : Bool) {s₀ : HashSys ε κ γ} (hs : Starts size hashfn equalfn freefn s₀)
    (evs₀ : List (HashEvent ε κ γ))
    (hfuel : evs₀.length < fuel) (hpermitted : Meets (step fuel) Permitted s₀ evs₀)
    (hfits : Along (step fuel) Fits s₀ evs₀) (hreach : run (step fuel) s₀ evs₀ = some s)
    (hopen : s.closed = false) (hhashed : s.t.hashelmHashed e = true) {c₁ c₂ : γ} (hne : c₁ ≠ c₂)
    (hidle₁ : s.pc c₁ = .idle) (hidle₂ : s.pc c₂ = .idle) {key₁ key₂ : κ}
    {evs : List (HashEvent ε κ γ)}
    (hint : Interleaves (unhashScript c₁ key₁ e) (unhashScript c₂ key₂ e) evs)
    (hob : Meets (step fuel) (Obtains fuel e) s evs) :
    (∃ s', run (step fuel) s evs = some s'
        ∧ Shifted s.t s'.t e (s.t.getSlot (s.t.elm e).hash) 2 (-2) ∧ ¬ RemovedOnce s s' e)
      ∧ ∀ (t t' : HashTable ε κ) (e : ε), t.hashelmHashed e = false →
        t.hashtableUnhash e = some t' →
          t'.slotCount (t.getSlot (t.elm e).hash) ≠ t.slotCount (t.getSlot (t.elm e).hash)
            ∧ t'.count ≠ t.count ∧ (t'.elm e).refcount ≠ (t.elm e).refcount := by
  have hin := inSlot_of_run hs hfuel hpermitted hfits hreach hopen hhashed
  refine ⟨?_, fun t t' e _ hun => (unhash_shifted hun).changes⟩
  obtain ⟨s', hrun, hshift⟩ := Ready.interleaves hne hint (by rw [hidle₁]; exact .start)
    (by rw [hidle₂]; exact .start) hin hob
  refine ⟨s', hrun, hshift, fun hone => ?_⟩
  have hcount := hshift.count
  have hone' := hone.count
  unfold Int.ModEq at hcount
  omega

/-- A client puts an element into the table, and keeps the reference it has to it. -/
def hashFive : List (HashEvent Bool ℕ Bool) :=
  [.callHash false true 5, .access false, .access false, .access false]

/-- Both clients look the element up, then both unhash it, then both put it. -/
def unhashBoth : List (HashEvent Bool ℕ Bool) :=
  [.callLookup false 5, .callLookup true 5, .access false, .access true, .callUnhash false true,
    .callUnhash true true, .access false, .access true, .access false, .access true,
    .put false true, .put true true]

theorem unhashBoth_interleaves :
    Interleaves (unhashScript false 5 true) (unhashScript true 5 true) unhashBoth :=
  .left <| .right <| .left <| .right <| .left <| .right <| .left <| .right <| .left <| .right <|
    .left <| .right .nil

theorem unhash_twice_both :
    ∃ s s', run (step 20) (refStart Bool) hashFive = some s
      ∧ run (step 20) s unhashBoth = some s' ∧ ¬ RemovedOnce s s' true := by
  let s := (run (step 20) (refStart Bool) hashFive).get rfl
  have hfuel : hashFive.length < 20 := by decide
  have hpermitted : Meets (step 20) Permitted (refStart Bool) hashFive := by decide +kernel
  have hfits : Along (step 20) Fits (refStart Bool) hashFive := by decide +kernel
  have hob : Meets (step 20) (Obtains 20 true) s unhashBoth := by decide +kernel
  obtain ⟨⟨s', hrun, -, hnot⟩, -⟩ := unhash_twice (s := s) (e := true) 2 UInt32.ofNat
    (fun he k => he.key == k) true refStart_starts hashFive hfuel hpermitted hfits rfl rfl
    (by decide +kernel) Bool.false_ne_true rfl rfl unhashBoth_interleaves hob
  exact ⟨s, s', rfl, hrun, hnot⟩

/-- **`freefn` is called while the element has an owner**: the client that had a reference
before any of this still has it. -/
theorem unhash_twice_frees :
    ∃ s s', run (step 20) (refStart Bool) hashFive = some s
      ∧ Meets (step 20) Permitted (refStart Bool) hashFive ∧ s.t.hashelmHashed true = true
      ∧ Interleaves (unhashScript false 5 true) (unhashScript true 5 true) unhashBoth
      ∧ Meets (step 20) (Obtains 20 true) s unhashBoth
      ∧ run (step 20) s unhashBoth = some s' ∧ s'.t.count = s.t.count - 2
      ∧ s'.owners true = [false] ∧ s'.t.freed true = 1 ∧ ¬ RemovedOnce s s' true := by
  refine ⟨_, _, rfl, by decide +kernel, by decide +kernel, unhashBoth_interleaves,
    by decide +kernel, rfl, by decide +kernel, rfl, rfl, fun hone => ?_⟩
  exact absurd hone.count (by decide +kernel)

end HashSys
