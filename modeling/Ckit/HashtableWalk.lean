import Ckit.HashtableLinear

/-!
# A loop over a hash table that is in use

`hashtable_foreach` locks one slot after the other, and in between the table belongs to the
other clients. What it does is therefore no single moment of the map, as the other calls
are: an element may be unhashed and hashed again on a slot that is still to come, and be
met twice, or on one that is past, and not be met at all.

What can be said is said of each element. One that is in the table from the beginning of
the loop to its end is met exactly once; in general an element is met at most as often as
it has been in the table, that is once if it was there at the beginning and once for each
time it is linked while the loop is under way. What the loop meets is in the table at that
moment, so that it has not been freed.

The loop is cut into its slots, each of which is one step while whoever changes the list of
a slot holds the lock of it: the clients are `Guarded`. `hashtable_foreach_read` differs in
the lock it takes, and is the same here. The argument weighs each element (`share`): the
number of times it has been met, and one more while it is in the table on a slot to come.
Meeting an element leaves its share as it is, and only linking it adds to it.
-/

/-- A hash table with its clients, and a loop over it. -/
structure HashWalk (ε κ γ : Type) where
  sys : HashSys ε κ γ
  /-- The index of the loop. -/
  slot : ℕ
  /-- The return value so far, and the elements the action has been called on. -/
  went : ℤ × List ε

/-- A client takes a step, or the loop goes through its next slot. -/
inductive WalkEvent (ε κ γ : Type) where
  | client (ev : HashEvent ε κ γ)
  | slot

namespace HashWalk

open HashTable

variable {ε κ γ : Type} [DecidableEq ε] [DecidableEq γ]

/-- The loop begins. -/
def start (s : HashSys ε κ γ) : HashWalk ε κ γ := ⟨s, 0, (0, [])⟩

/-- **A step**; the index of the loop is `unsigned`. -/
def step (fuel : ℕ) (w : HashWalk ε κ γ) : WalkEvent ε κ γ → Option (HashWalk ε κ γ)
  | .client ev => (w.sys.step fuel ev).map fun s => { w with sys := s }
  | .slot =>
    if w.slot ≤ w.sys.t.mask.toNat then
      (w.sys.t.foreachSection fuel (fun es e => es ++ [e]) w.went w.slot).map fun r =>
        { w with slot := (w.slot + 1) % 2 ^ 32, went := r }
    else none

/-- The loop has ended. -/
def Over (w : HashWalk ε κ γ) : Prop := w.sys.t.mask.toNat < w.slot

/-- The clients keep to what they have to and leave the table open, and the loop goes on
until it has ended. -/
def Permitted (w : HashWalk ε κ γ) : WalkEvent ε κ γ → Prop
  | .client ev => w.sys.Guarded ev ∧ ∀ c, ev ≠ .callFini c
  | .slot => w.slot ≤ w.sys.t.mask.toNat

omit [DecidableEq ε] [DecidableEq γ] in
/-- Whether an event closes the table can be tested. -/
instance (ev : HashEvent ε κ γ) : Decidable (∀ c, ev ≠ .callFini c) :=
  match ev with
  | .callFini c => .isFalse fun h => h c rfl
  | .hold _ _ | .put _ _ | .callHash _ _ _ | .callUnhash _ _ | .callLookup _ _ | .access _ =>
    .isTrue (by simp)

instance [DecidableEq κ] [Fintype γ] (w : HashWalk ε κ γ) (ev : WalkEvent ε κ γ) :
    Decidable (w.Permitted ev) :=
  match ev with
  | .client ev => inferInstanceAs (Decidable (w.sys.Guarded ev ∧ ∀ c, ev ≠ .callFini c))
  | .slot => inferInstanceAs (Decidable (w.slot ≤ w.sys.t.mask.toNat))

/-- How often an element is linked in a run. -/
def links (fuel : ℕ) (e : ε) : HashWalk ε κ γ → List (WalkEvent ε κ γ) → ℕ
  | _, [] => 0
  | w, ev :: evs =>
    match w.step fuel ev with
    | some w' =>
      (if !w.sys.t.hashelmHashed e && w'.sys.t.hashelmHashed e then 1 else 0) + links fuel e w' evs
    | none => 0

/-- What the action is called on in a step is in the table and has not been freed. -/
def MeetsInUse (fuel : ℕ) (w : HashWalk ε κ γ) (ev : WalkEvent ε κ γ) : Prop :=
  ∀ w', w.step fuel ev = some w' → ∃ es, w'.went.2 = w.went.2 ++ es
    ∧ ∀ e ∈ es, w.sys.t.hashelmHashed e = true ∧ w.sys.t.freed e = 0

/-- The element is in the table, on a slot that is still to come. -/
def ToCome (w : HashWalk ε κ γ) (e : ε) : Prop :=
  w.sys.t.hashelmHashed e = true ∧ w.slot ≤ w.sys.t.getSlot (w.sys.t.elm e).hash

instance (w : HashWalk ε κ γ) (e : ε) : Decidable (w.ToCome e) :=
  inferInstanceAs (Decidable (_ ∧ _))

/-- **The share of an element**: how often it has been met, and one more while it is to
come. -/
def share (w : HashWalk ε κ γ) (e : ε) : ℕ :=
  w.went.2.count e + if w.ToCome e then 1 else 0

variable [Setoid κ] {fuel n : ℕ} {w w' : HashWalk ε κ γ} {x x' : Contents ε κ}

/-! ## One step -/

omit [DecidableEq γ] in
/-- **What a step does to the key of an element**: it enters the map, leaves it, or stays
as it is. -/
theorem keyOf_cases {p q : γ → Phase (HashOp ε κ) (HashAnswer ε)}
    {h : List (Seen γ (HashOp ε κ) (HashAnswer ε))} [DecidableEq γ]
    (hstep : AtomicStep hashMap x p h x' q) (e : ε) :
    x'.keyOf e = x.keyOf e ∨ (x.keyOf e = none ∧ x'.keyOf e ≠ none) ∨ x'.keyOf e = none := by
  cases hstep with
  | inside => exact .inl rfl
  | call _ => exact .inl rfl
  | @ret _ _ _ o a _ _ hpost =>
    cases o with
    | hash e' key =>
      cases a with
      | returned ret =>
        rcases hpost with ⟨htakes, -, hkey⟩ | ⟨-, -, rfl⟩
        · by_cases hee : e = e'
          · rw [hkey, hee, Function.update_self]
            exact .inr (.inl ⟨htakes.1, Option.some_ne_none key⟩)
          · rw [hkey, Function.update_of_ne hee]
            exact .inl rfl
        · exact .inl rfl
      | _ => exact hpost.elim
    | unhash e' =>
      cases a with
      | void =>
        by_cases hee : e = e'
        · refine .inr (.inr ?_)
          rw [show x'.keyOf = _ from hpost, hee, Function.update_self]
        · refine .inl ?_
          rw [show x'.keyOf = _ from hpost, Function.update_of_ne hee]
      | _ => exact hpost.elim
    | lookup key =>
      cases a with
      | found he =>
        obtain ⟨-, rfl⟩ := hpost
        exact .inl rfl
      | _ => exact hpost.elim
    | foreach =>
      cases a with
      | went m es =>
        obtain ⟨-, -, -, rfl⟩ := hpost
        exact .inl rfl
      | _ => exact hpost.elim

omit [DecidableEq γ] in
/-- Which elements are to come, by the contents of the table. -/
theorem toCome_iff (h : Serves fuel n w.sys.t x) (e : ε) :
    w.ToCome e ↔ ∃ k, x.keyOf e = some k ∧ w.slot ≤ w.sys.t.getSlot (w.sys.t.hashfn k) := by
  unfold ToCome
  rw [h.hashed_iff]
  constructor
  · rintro ⟨hM, hle⟩
    obtain ⟨k, hk⟩ := Option.ne_none_iff_exists'.mp hM
    exact ⟨k, hk, (h.represents.fields e k hk).2.1 ▸ hle⟩
  · rintro ⟨k, hk, hle⟩
    exact ⟨hk ▸ Option.some_ne_none k, (h.represents.fields e k hk).2.1.symm ▸ hle⟩

/-- What holds of the table and of the loop, with `n` steps to come. -/
structure Inv (fuel n : ℕ) (w : HashWalk ε κ γ) (x : Contents ε κ) : Prop where
  atomic : w.sys.AtomicInv fuel n x
  count : w.went.1 = i32 w.went.2.length

/-- What a step does to the share of an element. -/
structure Shares (w w' : HashWalk ε κ γ) (e : ε) : Prop where
  le : w'.share e ≤ w.share e
    + if !w.sys.t.hashelmHashed e && w'.sys.t.hashelmHashed e then 1 else 0
  eq_of_hashed : w.sys.t.hashelmHashed e = true → w'.sys.t.hashelmHashed e = true →
    w'.share e = w.share e

omit [DecidableEq γ] [Setoid κ] in
/-- A share that stays as it is. -/
theorem Shares.of_eq {e : ε} (h : w'.share e = w.share e) : Shares w w' e :=
  ⟨h.trans_le (Nat.le_add_right _ _), fun _ _ => h⟩

/-- **A step of a client** adds to the share of an element only where it links it. -/
theorem shares_client {s' : HashSys ε κ γ} {h : List (Seen γ (HashOp ε κ) (HashAnswer ε))}
    (hx : Serves fuel (n + 1) w.sys.t x) (hstep : w.sys.StepAtomic fuel n s' x x' h) (e : ε) :
    Shares w { w with sys := s' } e := by
  have hserves' : Serves fuel n ({ w with sys := s' } : HashWalk ε κ γ).sys.t x' := hstep.serves
  have hcome := toCome_iff (w := w) hx e
  have hcome' := toCome_iff (w := { w with sys := s' }) hserves' e
  have hhashed := hx.hashed_iff e
  have hhashed' := hserves'.hashed_iff e
  have hslot : ∀ k, s'.t.getSlot (s'.t.hashfn k) = w.sys.t.getSlot (w.sys.t.hashfn k) := by
    intro k
    unfold getSlot
    rw [hstep.mask, hstep.hashfn]
  simp only [hslot] at hcome'
  rcases keyOf_cases hstep.atomic e with hsame | ⟨hout, hin⟩ | hgone
  · refine .of_eq ?_
    rw [hsame, ← hcome] at hcome'
    unfold share
    simp only [hcome']
  · -- it is linked by this step
    have hold : ¬ w.ToCome e := fun hc => by
      obtain ⟨k, hk, -⟩ := hcome.mp hc
      exact absurd (hout.symm.trans hk) (Option.some_ne_none k).symm
    have hnot : w.sys.t.hashelmHashed e = false := by
      rw [← Bool.not_eq_true, hhashed]
      exact fun hM => hM hout
    have hyes : s'.t.hashelmHashed e = true := hhashed'.mpr hin
    refine ⟨?_, fun hh => absurd (hnot.symm.trans hh) Bool.false_ne_true⟩
    unfold share
    rw [if_neg hold, hnot, hyes]
    refine Nat.add_le_add_left ?_ _
    split
    · exact Nat.le_refl 1
    · exact Nat.zero_le 1
  · have hnew : ¬ ({ w with sys := s' } : HashWalk ε κ γ).ToCome e := fun hc => by
      obtain ⟨k, hk, -⟩ := hcome'.mp hc
      exact absurd (hgone.symm.trans hk) (Option.some_ne_none k).symm
    refine ⟨?_, fun _ hh => absurd hgone (hhashed'.mp hh)⟩
    unfold share
    rw [if_neg hnew]
    exact Nat.le_trans (Nat.add_le_add_left (Nat.zero_le _) _) (Nat.le_add_right _ _)

/-- **The loop goes through a slot**, the elements of which it meets. -/
theorem slot_eq (hx : w.Inv fuel (n + 1) x) (hslot : w.slot ≤ w.sys.t.mask.toNat) :
    w.slot < w.sys.t.slots ∧ w.step fuel .slot
      = some { w with
          slot := w.slot + 1
          went := (i32 (w.went.2 ++ x.lists w.slot).length, w.went.2 ++ x.lists w.slot) } := by
  have hfiled := hx.atomic.serves.represents.filed
  have hmask := hx.atomic.serves.mask
  have hlt : w.slot < w.sys.t.slots := by
    rw [hfiled.slots_eq]
    exact Nat.lt_succ_of_le hslot
  have hwrap : (w.slot + 1) % 2 ^ 32 = w.slot + 1 := Nat.mod_eq_of_lt (by omega)
  have hfold : (x.lists w.slot).foldl (fun s e => (i32 (s.1 + 1), s.2 ++ [e])) w.went
      = (i32 (w.went.2 ++ x.lists w.slot).length, w.went.2 ++ x.lists w.slot) :=
    calc
      _ = (x.lists w.slot).foldl (fun s e => (i32 (s.1 + 1), s.2 ++ [e]))
          (i32 w.went.2.length, w.went.2) := by rw [← hx.count]
      _ = _ := foldl_count (fun es e => es ++ [e]) _ _ _
      _ = _ := by rw [foldl_append_singleton, List.length_append, Nat.cast_add]
  refine ⟨hlt, ?_⟩
  rw [step, if_pos hslot, hfiled.foreachSection_eq hlt (hx.atomic.serves.lengths_lt _), hwrap,
    hfold, Option.map_some]

omit [DecidableEq γ] in
/-- **Meeting an element leaves its share as it is.** -/
theorem share_slot (hserves : Serves fuel n w.sys.t x) (hlt : w.slot < w.sys.t.slots) (m : ℤ)
    (e : ε) :
    share { w with slot := w.slot + 1, went := (m, w.went.2 ++ x.lists w.slot) } e
      = w.share e := by
  have hcome := toCome_iff (w := w) hserves e
  have hcome' := toCome_iff (n := n) (x := x)
    (w := { w with slot := w.slot + 1, went := (m, w.went.2 ++ x.lists w.slot) }) hserves e
  have hmem := hserves.represents.mem w.slot hlt e
  unfold share
  dsimp only at hcome' ⊢
  rw [List.count_append]
  by_cases he : e ∈ x.lists w.slot
  · obtain ⟨k, hk, hhere⟩ := hmem.mp he
    have hold : w.ToCome e := hcome.mpr ⟨k, hk, Nat.le_of_eq hhere.symm⟩
    have hnew : ¬ ToCome { w with
        slot := w.slot + 1, went := (m, w.went.2 ++ x.lists w.slot) } e := by
      rw [hcome']
      rintro ⟨k', hk', hle⟩
      obtain rfl : k = k' := Option.some.inj (hk.symm.trans hk')
      exact absurd hle (by omega)
    rw [if_pos hold, if_neg hnew, List.count_eq_one_of_mem (hserves.represents.filed.nodup hlt) he]
  · have hsame : ToCome { w with slot := w.slot + 1, went := (m, w.went.2 ++ x.lists w.slot) } e
        ↔ w.ToCome e := by
      rw [hcome, hcome']
      refine exists_congr fun k => and_congr_right fun hk => ?_
      have hne : w.sys.t.getSlot (w.sys.t.hashfn k) ≠ w.slot :=
        fun heq => he (hmem.mpr ⟨k, hk, heq⟩)
      omega
    simp only [hsame, List.count_eq_zero_of_not_mem he, Nat.add_zero]

/-- **One step**, which returns and shares out rightly. -/
theorem step_inv (hx : w.Inv fuel (n + 1) x) {ev : WalkEvent ε κ γ} (hp : w.Permitted ev) :
    ∃ w', w.step fuel ev = some w' ∧ (∀ e, Shares w w' e) ∧ w.MeetsInUse fuel ev
      ∧ (w'.sys.Fits → ∃ x', w'.Inv fuel n x') := by
  cases ev with
  | client ev =>
    obtain ⟨s', x', hstep, hatomic, hinv⟩ := hx.atomic.step hp.1.1 hp.2
    have heq : w.step fuel (.client ev) = some { w with sys := s' } := by
      rw [HashWalk.step, hstep, Option.map_some]
    refine ⟨_, heq, shares_client hx.atomic.serves hatomic, fun w' hw' => ?_, fun hfits =>
      ⟨x', hinv hfits, hx.count⟩⟩
    obtain rfl : { w with sys := s' } = w' := Option.some.inj (heq.symm.trans hw')
    exact ⟨[], (List.append_nil _).symm, fun e he => absurd he List.not_mem_nil⟩
  | slot =>
    obtain ⟨hlt, heq⟩ := slot_eq hx hp
    have hserves := hx.atomic.serves
    refine ⟨_, heq, fun e => .of_eq (share_slot hserves hlt _ e), fun w' hw' => ?_, fun _ =>
      ⟨x, hx.atomic.later, by dsimp only⟩⟩
    have hwent := congrArg (fun r => r.map fun w => w.went.2) (heq.symm.trans hw')
    refine ⟨x.lists w.slot, (Option.some.inj hwent).symm, fun e he => ?_⟩
    have hhashed : w.sys.t.hashelmHashed e = true := by
      obtain ⟨k, hk, -⟩ := (hserves.represents.mem w.slot hlt e).mp he
      exact (hserves.hashed_iff e).mpr (hk ▸ Option.some_ne_none k)
    refine ⟨hhashed, hx.atomic.refs.counted.used e ?_⟩
    unfold HashSys.refs
    rw [if_pos hhashed]
    exact Nat.succ_pos _

/-! ## The runs -/

/-- **A run**: what each element has met of the loop is bounded by what it has had to do
with the table. -/
theorem run_inv (evs : List (WalkEvent ε κ γ)) {w : HashWalk ε κ γ} {x : Contents ε κ}
    (hx : w.Inv fuel evs.length x) (hp : Meets (step fuel) Permitted w evs)
    (hfits : Along (step fuel) (fun w => w.sys.Fits) w evs) :
    ∃ w' x', run (step fuel) w evs = some w' ∧ w'.Inv fuel 0 x'
      ∧ (∀ e, w'.share e ≤ w.share e + links fuel e w evs)
      ∧ (∀ e, Along (step fuel) (fun w => w.sys.t.hashelmHashed e = true) w evs →
        w'.share e = w.share e)
      ∧ Meets (step fuel) (MeetsInUse fuel) w evs := by
  induction evs generalizing w x with
  | nil => exact ⟨w, x, rfl, hx, fun _ => Nat.le_refl _, fun _ _ => rfl, trivial⟩
  | cons ev evs ih =>
    obtain ⟨w₁, hstep, hshares, huse, hinv⟩ := step_inv hx hp.1
    have hfits₁ := hfits.2 w₁ hstep
    obtain ⟨x₁, hx₁⟩ := hinv (Run.along_start (P := fun w : HashWalk ε κ γ => w.sys.Fits) hfits₁)
    obtain ⟨w', x', hrun, hx', hle, heq, hmeets⟩ := ih hx₁ (hp.2 w₁ hstep) hfits₁
    refine ⟨w', x', Run.run_cons_eq_some.mpr ⟨w₁, hstep, hrun⟩, hx', fun e => ?_, fun e hal => ?_,
      (Run.meets_cons hstep).mpr ⟨huse, hmeets⟩⟩
    · rw [links, hstep]
      calc w'.share e ≤ w₁.share e + links fuel e w₁ evs := hle e
        _ ≤ _ := Nat.add_le_add_right (hshares e).le _
        _ = _ := Nat.add_assoc _ _ _
    · have hal₁ := hal.2 w₁ hstep
      have hnow := Run.along_start (P := fun w : HashWalk ε κ γ => w.sys.t.hashelmHashed e = true)
        hal₁
      rw [heq e hal₁]
      exact (hshares e).eq_of_hashed hal.1 hnow

omit [DecidableEq γ] [Setoid κ] in
/-- The shares at the beginning of the loop. -/
theorem share_start (s : HashSys ε κ γ) (e : ε) :
    (start s).share e = if s.t.hashelmHashed e then 1 else 0 := by
  unfold share ToCome start
  simp

omit [DecidableEq γ] [Setoid κ] in
/-- The shares when the loop has ended: nothing is to come. -/
theorem share_over (hover : w.Over) (e : ε) :
    w.share e = w.went.2.count e := by
  have hnot : ¬ w.ToCome e := by
    rintro ⟨-, hle⟩
    exact absurd (w.sys.t.getSlot_lt (w.sys.t.elm e).hash)
      (Nat.not_lt.mpr (Nat.lt_of_lt_of_le hover hle))
  rw [share, if_neg hnot, Nat.add_zero]

/-- **A loop over a hash table that is in use.** Some clients use a table from its
initialisation on, then a loop goes through it slot by slot while they go on. The loop
returns the number of elements its action has been called on, as an `int`. None has been
called upon more often than it has been in the table; one that is there from the beginning of
the loop to its end has been called upon once; and all are in the table, and not freed, when
they are. -/
theorem hashtable_foreach_concurrent (size : UInt32) (hashfn : κ → UInt32)
    (equalfn : HashElm κ → κ → Bool) (freefn : Bool)
    (hequal : ∀ he k, equalfn he k = true ↔ he.key ≈ k)
    (hhash : ∀ k k', k ≈ k' → hashfn k = hashfn k') {s₀ s : HashSys ε κ γ}
    (hs : s₀.Starts size hashfn equalfn freefn) (before : List (HashEvent ε κ γ))
    (hopen : ∀ c, .callFini c ∉ before)
    (hguarded : Meets (HashSys.step fuel) HashSys.Guarded s₀ before)
    (hfits : Along (HashSys.step fuel) HashSys.Fits s₀ before)
    (hrun : run (HashSys.step fuel) s₀ before = some s) (evs : List (WalkEvent ε κ γ))
    (hfuel : before.length + evs.length < fuel)
    (hwalk : Meets (step fuel) Permitted (start s) evs)
    (hwalkFits : Along (step fuel) (fun w => w.sys.Fits) (start s) evs) :
    ∃ w, run (step fuel) (start s) evs = some w ∧ w.went.1 = i32 w.went.2.length
      ∧ (∀ e, w.went.2.count e
        ≤ (if s.t.hashelmHashed e then 1 else 0) + links fuel e (start s) evs)
      ∧ (w.Over → ∀ e,
        Along (step fuel) (fun w => w.sys.t.hashelmHashed e = true) (start s) evs →
          w.went.2.count e = 1)
      ∧ Meets (step fuel) (MeetsInUse fuel) (start s) evs := by
  obtain ⟨s', x, hrun', hatomic, -⟩ := HashSys.atomic_run (m := evs.length)
    (hs.atomicInv hequal hhash hfuel) hopen (HashSys.permitted_of_guarded hguarded) hfits
  obtain rfl : s = s' := Option.some.inj (hrun.symm.trans hrun')
  have hzero : (0 : ℤ) = i32 0 := (i32_of_lt (Int.le_refl 0) (by decide)).symm
  have hinv : Inv fuel evs.length (start s) x := ⟨hatomic, hzero⟩
  obtain ⟨w, x', hw, hx', hle, heq, hmeets⟩ := run_inv evs hinv hwalk hwalkFits
  refine ⟨w, hw, hx'.count, fun e => ?_, fun hover e hal => ?_, hmeets⟩
  · have hshare := hle e
    rw [share_start] at hshare
    exact Nat.le_trans (Nat.le_add_right _ _) hshare
  · have hhashed := Run.along_start (P := fun w : HashWalk ε κ γ => w.sys.t.hashelmHashed e = true)
      hal
    rw [← share_over hover, heq e hal, share_start]
    exact if_pos hhashed

/-- Two elements are hashed, one on each slot. -/
def bothHashed : List (HashEvent Bool ℕ Bool) :=
  [.callHash false true 0, .access false, .access false, .access false, .callHash true false 3,
    .access true, .access true, .access true]

/-- The table they are in. -/
def bothStart : HashSys Bool ℕ Bool :=
  (run (HashSys.step 20) (HashSys.refStart Bool) bothHashed).get rfl

/-- Between the two slots of a loop, the element on the first one is unhashed, and hashed
again on the second. -/
def movedAhead : List (WalkEvent Bool ℕ Bool) :=
  [.slot, .client (.callUnhash false true), .client (.access false), .client (.access false),
    .client (.callHash false true 1), .client (.access false), .client (.access false),
    .client (.access false), .slot]

theorem hashtable_foreach_concurrent_moved :
    ∃ w, run (step 20) (start bothStart) movedAhead = some w ∧ w.went = (3, [true, true, false])
      ∧ links 20 true (start bothStart) movedAhead = 1 ∧ w.Over
      ∧ (∀ e, w.went.2.count e ≤ (if bothStart.t.hashelmHashed e then 1 else 0)
        + links 20 e (start bothStart) movedAhead)
      ∧ (∀ e, Along (step 20) (fun w => w.sys.t.hashelmHashed e = true) (start bothStart)
        movedAhead → w.went.2.count e = 1)
      ∧ Meets (step 20) (MeetsInUse 20) (start bothStart) movedAhead := by
  let _ : Setoid ℕ := ⊥
  obtain ⟨w, hw, -, hle, hone, hmeets⟩ := @hashtable_foreach_concurrent Bool ℕ Bool _ _ _ 20 2
    UInt32.ofNat (fun he k => he.key == k) true (fun _ _ => beq_iff_eq)
    (fun _ _ hk => congrArg UInt32.ofNat hk) _ bothStart HashSys.refStart_starts
    bothHashed (by simp [bothHashed]) (by decide +kernel) (by decide +kernel) rfl movedAhead
    (by decide) (by decide +kernel) (by decide +kernel)
  have hend : (run (step 20) (start bothStart) movedAhead).map
      (fun w => (w.went, w.slot, w.sys.t.mask)) = some ((3, [true, true, false]), 2, 1) := rfl
  rw [hw, Option.map_some] at hend
  obtain ⟨hwent, hslot, hmask⟩ := Prod.mk.inj (Option.some.inj hend) |>.imp_right Prod.mk.inj
  have hover : w.Over := by
    rw [Over, hslot, hmask]
    decide
  exact ⟨w, hw, hwent, rfl, hover, hle, hone hover, hmeets⟩

end HashWalk
