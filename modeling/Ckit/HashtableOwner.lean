import Ckit.HashtableShared
import Ckit.Run

/-!
# The table an element belongs to when it goes

`hashelm_put` asks the table of an element for its `freefn` when the last reference is put.
Which table that is, `ht` says, and `ht` is written by `hashtable_hash` only, before it looks
whether the table has an element with an equal key. So an element that was never passed to
`hashtable_hash` has no table that could be asked, and one that was last refused by a table
belongs to that table, although it has never been in it.

Any number of tables and elements is in use here, each element from its `hashelm_init` on.
`owned` counts the references clients own to an element, and `tries` is the history of the calls
of `hashtable_hash` that found it in no table, the last one first: the table each was made
with, and whether it took the element. While an element is in a table the last of these calls
is the one that put it there (`Owned.linked`), so `hashtable_unhash` always finds the right
table. For the others the history tells exactly when there is one
(`hashelm_put_consults_iff`).
-/

/-- A call about an element, or a look at a table. -/
inductive OwnerOp (τ ε κ : Type) where
  | init (e : ε)
  | hold (e : ε)
  | put (e : ε)
  | hash (ht : τ) (e : ε) (key : κ)
  | lookup (ht : τ) (key : κ)
  | unhash (ht : τ) (e : ε)

/-- The tables and elements, with what has happened to each element. -/
structure OwnerSys (τ ε κ : Type) where
  w : HashTables τ ε κ
  /-- Whether `hashelm_init` has been called. -/
  inited : ε → Bool
  /-- The number of references the clients own. -/
  owned : ε → ℕ
  tries : ε → List (τ × Bool)

namespace OwnerSys

open HashTables

variable {τ ε κ : Type}

/-- The table the element was last linked in. -/
def lastIn (tries : List (τ × Bool)) : Option τ := (tries.find? Prod.snd).map Prod.fst

/-- `hashelm_put` would bring the reference count to `0`. -/
def Drops (s : OwnerSys τ ε κ) (e : ε) : Prop := i32 ((s.w.elm e).refcount - 1) = 0

instance (s : OwnerSys τ ε κ) (e : ε) : Decidable (s.Drops e) := inferInstanceAs (Decidable (_ = _))

/-- **The `ht` of the element can be asked**: it was written, and is the table the element was
last linked in, if it ever was. -/
def Consults (s : OwnerSys τ ε κ) (e : ε) : Prop :=
  ∃ ht, (s.w.elm e).ht = some ht ∧ ∀ ht', lastIn (s.tries e) = some ht' → ht = ht'

/-- Both functions that put a reference find the right table where they put the last one. -/
def Right (s : OwnerSys τ ε κ) : OwnerOp τ ε κ → Prop
  | .put e => s.Drops e → s.Consults e
  | .unhash _ e => s.Drops e → s.Consults e
  | _ => True

variable [DecidableEq τ]

instance (s : OwnerSys τ ε κ) (e : ε) : Decidable (s.Consults e) :=
  match h : (s.w.elm e).ht with
  | none => .isFalse fun ⟨ht, heq, _⟩ => absurd (heq.symm.trans h) (Option.some_ne_none ht)
  | some ht => decidable_of_iff (∀ ht' ∈ lastIn (s.tries e), ht = ht')
      ⟨fun hlast => ⟨ht, h, hlast⟩, fun ⟨_, heq, hlast⟩ =>
        Option.some.inj (heq.symm.trans h) ▸ hlast⟩

instance (s : OwnerSys τ ε κ) (o : OwnerOp τ ε κ) : Decidable (s.Right o) :=
  match o with
  | .put _ | .unhash _ _ => inferInstanceAs (Decidable (_ → _))
  | .init _ | .hold _ | .hash _ _ _ | .lookup _ _ => .isTrue trivial

/-- **The last call of `hashtable_hash`** put the element into its table, or was made with the
table it was last in, or with any if it was never in one. -/
def LastTry : List (τ × Bool) → Prop
  | [] => False
  | (ht, linked) :: tries => linked = true ∨ lastIn tries = none ∨ lastIn tries = some ht

instance : ∀ tries : List (τ × Bool), Decidable (LastTry tries)
  | [] => inferInstanceAs (Decidable False)
  | (_, _) :: _ => inferInstanceAs (Decidable (_ ∨ _ ∨ _))

/-- What is asked of the history of an element whose last reference a client puts. -/
def Cond (s : OwnerSys τ ε κ) : OwnerOp τ ε κ → Prop
  | .put e => s.Drops e → LastTry (s.tries e)
  | _ => True

instance (s : OwnerSys τ ε κ) (o : OwnerOp τ ε κ) : Decidable (s.Cond o) :=
  match o with
  | .put _ => inferInstanceAs (Decidable (_ → _))
  | .init _ | .hold _ | .hash _ _ _ | .lookup _ _ | .unhash _ _ => .isTrue trivial

variable [DecidableEq ε]

/-- The references after a call of `hashtable_lookup` that returns `he`. -/
def gain (s : OwnerSys τ ε κ) (he : Option ε) : ε → ℕ :=
  match he with
  | some e => Function.update s.owned e (s.owned e + 1)
  | none => s.owned

/-- The histories after a call of `hashtable_hash` that returns `r`. -/
def record (s : OwnerSys τ ε κ) (ht : τ) (e : ε) (r : ℤ) : ε → List (τ × Bool) :=
  if s.w.hashelmHashed e then s.tries
  else Function.update s.tries e ((ht, decide (r = 0)) :: s.tries e)

/-- One call, with what it means for the references and for the histories. -/
def step (fuel : ℕ) (s : OwnerSys τ ε κ) : OwnerOp τ ε κ → Option (OwnerSys τ ε κ)
  | .init e => some { s with
      w := s.w.hashelmInit e
      inited := Function.update s.inited e true
      owned := Function.update s.owned e 1 }
  | .hold e => some { s with
      w := s.w.hashelmHold e
      owned := Function.update s.owned e (s.owned e + 1) }
  | .put e => (s.w.hashelmPut e).map fun w => { s with
      w := w
      owned := Function.update s.owned e (s.owned e - 1) }
  | .hash ht e key => (s.w.hashtableHash fuel ht e key).map fun r => { s with
      w := r.2
      tries := s.record ht e r.1 }
  | .lookup ht key => (s.w.hashtableLookup fuel ht key).map fun r => { s with
      w := r.2
      owned := s.gain r.1 }
  | .unhash ht e => (s.w.hashtableUnhash ht e).map fun w => { s with w := w }

/-- **The calls that may be made**: `hashelm_init` once, and first; a client puts references it
owns; an element is unhashed while it is in the table. -/
def Permitted (s : OwnerSys τ ε κ) : OwnerOp τ ε κ → Prop
  | .init e => s.inited e = false
  | .hold e => s.inited e = true
  | .put e => s.inited e = true ∧ 0 < s.owned e
  | .hash _ e _ => s.inited e = true
  | .lookup _ _ => True
  | .unhash ht e => s.inited e = true ∧ s.w.hashelmHashed e = true ∧ lastIn (s.tries e) = some ht

instance (s : OwnerSys τ ε κ) (o : OwnerOp τ ε κ) : Decidable (s.Permitted o) :=
  match o with
  | .init _ | .hold _ | .hash _ _ _ => inferInstanceAs (Decidable (_ = _))
  | .put _ | .unhash _ _ => inferInstanceAs (Decidable (_ ∧ _))
  | .lookup _ _ => .isTrue trivial

/-- The tables are new, and no element has been initialised. -/
structure Starts (s : OwnerSys τ ε κ) : Prop where
  slots_eq : ∀ ht, (s.w.table ht).slots = (s.w.table ht).mask.toNat + 1
  empty : ∀ ht, ∀ i < (s.w.table ht).slots, s.w.links.Ring (.slot ht i) []
  unknown : ∀ e, s.inited e = false ∧ s.tries e = [] ∧ (s.w.elm e).ht = none

/-! ## What every call keeps -/

/-- **The invariant**: the elements are in their slots, the `ht` of an element is the table of
the last call in its history, and that call has put it where it is, while it is in a table. For
`n` more calls no list gets too long for the fuel. -/
structure Owned (fuel n : ℕ) (s : OwnerSys τ ε κ) (lists : τ → ℕ → List ε) : Prop where
  slots_eq : ∀ ht, (s.w.table ht).slots = (s.w.table ht).mask.toNat + 1
  filed : Filed s.w.links (fun ht => (s.w.table ht).slots) (fun e => s.inited e = true) lists
  linked : ∀ ht i e, i < (s.w.table ht).slots → e ∈ lists ht i →
    ∃ tries, s.tries e = (ht, true) :: tries
  ht_eq : ∀ e, (s.w.elm e).ht = (s.tries e).head?.map Prod.fst
  length_lt : ∀ ht i, (lists ht i).length + n < fuel

variable {s s' : OwnerSys τ ε κ} {lists : τ → ℕ → List ε} {fuel n : ℕ} {e : ε}

omit [DecidableEq τ] in
theorem lastIn_cons (ht : τ) (linked : Bool) (tries : List (τ × Bool)) :
    lastIn ((ht, linked) :: tries) = if linked then some ht else lastIn tries := by
  unfold lastIn
  rw [List.find?_cons]
  cases linked with
  | true => rfl
  | false => rfl

omit [DecidableEq τ] [DecidableEq ε] in
/-- **The history tells whether there is a table to ask.** -/
theorem Owned.consults_iff (h : Owned fuel n s lists) (e : ε) :
    s.Consults e ↔ LastTry (s.tries e) := by
  unfold Consults
  rw [h.ht_eq]
  cases htries : s.tries e with
  | nil => exact iff_of_false (fun ⟨ht, heq, _⟩ => (Option.some_ne_none ht).symm heq) id
  | cons try_ tries =>
    obtain ⟨ht, linked⟩ := try_
    rw [lastIn_cons, List.head?_cons, Option.map_some]
    unfold LastTry
    cases linked with
    | true =>
      refine iff_of_true ⟨ht, rfl, fun ht' heq => ?_⟩ (.inl rfl)
      exact Option.some.inj heq
    | false =>
      constructor
      · rintro ⟨ht', heq, hlast⟩
        obtain rfl : ht = ht' := Option.some.inj heq
        cases hin : lastIn tries with
        | none => exact .inr (.inl hin)
        | some ht' => exact .inr (.inr (hin.trans (congrArg some (hlast ht' hin).symm)))
      · rintro (hfalse | hnone | hsame)
        · exact absurd hfalse Bool.false_ne_true
        · refine ⟨ht, rfl, fun ht' heq => ?_⟩
          exact absurd (heq.symm.trans hnone) (Option.some_ne_none ht')
        · refine ⟨ht, rfl, fun ht' heq => ?_⟩
          exact Option.some.inj (hsame.symm.trans heq)

omit [DecidableEq τ] [DecidableEq ε] in
theorem Owned.lastTry_ne_none (h : Owned fuel n s lists) (hlast : s.tries e ≠ []) :
    (s.w.elm e).ht ≠ none := by
  obtain ⟨⟨ht, linked⟩, tries, heq⟩ := List.exists_cons_of_ne_nil hlast
  rw [h.ht_eq, heq, List.head?_cons, Option.map_some]
  exact Option.some_ne_none ht

/-- An element that is in a table has been put there by the last call in its history. -/
theorem Owned.of_hashed (h : Owned fuel n s lists) (he : s.inited e = true)
    (hhashed : s.w.hashelmHashed e = true) :
    ∃ ht i tries, i < (s.w.table ht).slots ∧ e ∈ lists ht i ∧ s.tries e = (ht, true) :: tries := by
  obtain ⟨ht, i, hi, hmem⟩ := (h.filed.hashed_iff he).mp hhashed
  obtain ⟨tries, htries⟩ := h.linked ht i e hi hmem
  exact ⟨ht, i, tries, hi, hmem, htries⟩

omit [DecidableEq τ] [DecidableEq ε] in
/-- A call that changes reference counts only keeps the invariant. -/
theorem Owned.same (h : Owned fuel (n + 1) s lists) (hw : SameOwners s.w s'.w)
    (hinited : s'.inited = s.inited) (htries : s'.tries = s.tries) :
    Owned fuel n s' lists := by
  refine ⟨?_, ?_, ?_, fun e => ?_, fun ht i => Nat.lt_of_succ_lt (h.length_lt ht i)⟩
  · rw [hw.table]
    exact h.slots_eq
  · rw [hw.links, hw.table, hinited]
    exact h.filed
  · rw [hw.table, htries]
    exact h.linked
  · rw [hw.ht, htries]
    exact h.ht_eq e

/-- **`hashelm_init`** of an element that has not been initialised. -/
theorem Owned.init (h : Owned fuel (n + 1) s lists) (he : s.inited e = false)
    (hs : step fuel s (.init e : OwnerOp τ ε κ) = some s') : Owned fuel n s' lists := by
  obtain rfl := Option.some.inj hs
  have hinited : (fun e' => Function.update s.inited e true e' = true)
      = fun e' => e' = e ∨ s.inited e' = true := by
    funext e'
    rw [Function.update_apply]
    split_ifs with hee
    · exact propext (iff_of_true rfl (.inl hee))
    · exact propext (or_iff_right hee).symm
  have hno : ¬ s.inited e = true := fun htrue => Bool.false_ne_true (he.symm.trans htrue)
  refine ⟨h.slots_eq, ?_, h.linked, fun e' => ?_, fun ht i => Nat.lt_of_succ_lt (h.length_lt ht i)⟩
  · dsimp only
    rw [hinited]
    exact h.filed.init hno
  · rw [← h.ht_eq]
    show (Function.update s.w.elm e _ e').ht = _
    rw [Function.update_apply]
    split_ifs with hee
    · rw [hee]
    · rfl

omit [DecidableEq τ] [DecidableEq ε] in
/-- What a call that leaves the arrays of the tables as they are does to the invariant. -/
theorem Owned.of_arrays (h : Owned fuel (n + 1) s lists) {w' : HashTables τ ε κ}
    {tries' : ε → List (τ × Bool)} {lists' : τ → ℕ → List ε} (harrays : SameArrays s.w w')
    (hfiled : Filed w'.links (fun ht => (s.w.table ht).slots) (fun e => s.inited e = true) lists')
    (hlinked : ∀ ht i e, i < (s.w.table ht).slots → e ∈ lists' ht i →
      ∃ tries, tries' e = (ht, true) :: tries)
    (hht : ∀ e, (w'.elm e).ht = (tries' e).head?.map Prod.fst)
    (hlength : ∀ ht i, (lists' ht i).length ≤ (lists ht i).length + 1) :
    Owned fuel n { s with w := w', tries := tries' } lists' := by
  have hslots : (fun ht => (w'.table ht).slots) = fun ht => (s.w.table ht).slots := by
    funext ht
    exact (harrays ht).1
  refine ⟨fun ht => ?_, ?_, fun ht i e hi => ?_, hht, fun ht i => ?_⟩
  · rw [(harrays ht).1, (harrays ht).2]
    exact h.slots_eq ht
  · dsimp only
    rw [hslots]
    exact hfiled
  · rw [(harrays ht).1] at hi
    exact hlinked ht i e hi
  · have hlt := h.length_lt ht i
    have hle := hlength ht i
    omega

omit [DecidableEq ε] in
/-- The list of one slot gets longer by one at most. -/
theorem length_setList_le {ht : τ} {i : ℕ} {l : List ε}
    (hl : l.length ≤ (lists ht i).length + 1) (ht' : τ) (j : ℕ) :
    (setList lists ht i l ht' j).length ≤ (lists ht' j).length + 1 :=
  forall_setList (Q := fun ht' j l => l.length ≤ (lists ht' j).length + 1) hl
    (fun _ _ => Nat.le_succ _) ht' j

/-- **`hashtable_hash`** returns, and keeps the invariant. -/
theorem Owned.hash (h : Owned fuel (n + 1) s lists) (ht : τ) (key : κ) (he : s.inited e = true) :
    ∃ s' lists', step fuel s (.hash ht e key) = some s' ∧ Owned fuel n s' lists' := by
  by_cases hhashed : s.w.hashelmHashed e = true
  · refine ⟨s, lists, ?_, h.slots_eq, h.filed, h.linked, h.ht_eq,
      fun ht i => Nat.lt_of_succ_lt (h.length_lt ht i)⟩
    rw [step, hashtableHash, if_pos hhashed, Option.map_some, record, if_pos hhashed]
  · have hnot : ¬ InSlot (fun ht => (s.w.table ht).slots) lists e := fun hin =>
      hhashed ((h.filed.hashed_iff he).mpr hin)
    obtain ⟨r, w', heq, harrays, hht, hlinks⟩ := h.filed.hash_eq (fun _ => rfl) h.slots_eq he hnot
      ht key fun i => Nat.lt_of_le_of_lt (Nat.le_add_right _ _) (h.length_lt ht i)
    -- an element in a list is another one, and its history is as it was
    have hother : ∀ ht' i e', i < (s.w.table ht').slots → e' ∈ lists ht' i → ∃ tries,
        Function.update s.tries e ((ht, decide (r = 0)) :: s.tries e) e'
          = (ht', true) :: tries := by
      intro ht' i e' hi hmem
      have hne : e' ≠ e := by
        rintro rfl
        exact hnot ⟨ht', i, hi, hmem⟩
      rw [Function.update_of_ne hne]
      exact h.linked ht' i e' hi hmem
    have hwritten : ∀ e', (w'.elm e').ht
        = (Function.update s.tries e ((ht, decide (r = 0)) :: s.tries e)
          e').head?.map Prod.fst := by
      intro e'
      rw [hht, Function.update_apply]
      split_ifs
      · rfl
      · exact h.ht_eq e'
    have hstep : step fuel s (.hash ht e key) = some { s with
        w := w'
        tries := Function.update s.tries e ((ht, decide (r = 0)) :: s.tries e) } := by
      rw [step, heq, Option.map_some, record, if_neg hhashed]
    rcases hlinks with ⟨-, hlinks⟩ | ⟨rfl, i, hi, hlinks⟩
    · refine ⟨_, lists, hstep,
        h.of_arrays harrays ?_ hother hwritten fun _ _ => Nat.le_succ _⟩
      rw [hlinks]
      exact h.filed
    · refine ⟨_, setList lists ht i (e :: lists ht i), hstep,
        h.of_arrays harrays ?_ (fun ht' j e' hj => ?_) hwritten (length_setList_le le_rfl)⟩
      · rw [hlinks]
        exact h.filed.link hi he hnot
      · refine forall_setList (Q := fun ht' j l => j < (s.w.table ht').slots → e' ∈ l →
          ∃ tries, Function.update s.tries e ((ht, decide ((0 : ℤ) = 0)) :: s.tries e) e'
            = (ht', true) :: tries) (fun hi hmem => ?_)
          (fun ht' j hj => hother ht' j e' hj) ht' j hj
        rcases List.mem_cons.mp hmem with rfl | hmem
        · exact ⟨s.tries e', Function.update_self ..⟩
        · exact hother ht i e' hi hmem

/-- **`hashtable_unhash`** of an element that is in a table. -/
theorem Owned.unhash (h : Owned fuel (n + 1) s lists) (ht : τ) (he : s.inited e = true)
    (hhashed : s.w.hashelmHashed e = true) :
    ∃ s' lists', step fuel s (.unhash ht e : OwnerOp τ ε κ) = some s'
      ∧ Owned fuel n s' lists' := by
  obtain ⟨ht', i, tries, hi, hmem, htries⟩ := h.of_hashed he hhashed
  have hne : (s.w.elm e).ht ≠ none :=
    h.lastTry_ne_none fun hnil => List.cons_ne_nil _ _ (htries.symm.trans hnil)
  obtain ⟨w', heq⟩ := hashtableUnhash_returns ht (h.slots_eq ht) hne
  obtain ⟨harrays, hlinks, hht⟩ := hashtableUnhash_same heq
  refine ⟨{ s with w := w' }, setList lists ht' i ((lists ht' i).erase e), ?_,
    h.of_arrays harrays ?_ (fun ht j e' hj => ?_) (fun e' => ?_)
      (length_setList_le (Nat.le_succ_of_le List.length_erase_le))⟩
  · rw [step, heq, Option.map_some]
  · rw [hlinks]
    exact h.filed.unlink hi hmem
  · exact forall_setList (Q := fun ht j l => j < (s.w.table ht).slots → e' ∈ l →
      ∃ tries, s.tries e' = (ht, true) :: tries)
      (fun hi hmem' => h.linked ht' i e' hi (List.mem_of_mem_erase hmem'))
      (fun ht j hj => h.linked ht j e' hj) ht j hj
  · rw [hht]
    exact h.ht_eq e'

/-! ## Every run -/

/-- **One call**: it finds the right table exactly where the history tells so, returns then, and
keeps the invariant. -/
theorem Owned.step (h : Owned fuel (n + 1) s lists) {o : OwnerOp τ ε κ} (hp : s.Permitted o) :
    (s.Right o ↔ s.Cond o) ∧ (s.Cond o → ∃ s', step fuel s o = some s')
      ∧ ∀ s', step fuel s o = some s' → ∃ lists', Owned fuel n s' lists' := by
  have houtcome {s₁ : OwnerSys τ ε κ} {lists₁ : τ → ℕ → List ε} (hright : s.Right o)
      (hcond : s.Cond o) (heq : OwnerSys.step fuel s o = some s₁) (h₁ : Owned fuel n s₁ lists₁) :
      (s.Right o ↔ s.Cond o) ∧ (s.Cond o → ∃ s', OwnerSys.step fuel s o = some s')
        ∧ ∀ s', OwnerSys.step fuel s o = some s' → ∃ lists', Owned fuel n s' lists' := by
    refine ⟨iff_of_true hright hcond, fun _ => ⟨s₁, heq⟩, fun s' hs' => ⟨lists₁, ?_⟩⟩
    exact Option.some.inj (heq.symm.trans hs') ▸ h₁
  cases o with
  | init e => exact houtcome trivial trivial rfl (h.init hp rfl)
  | hold e => exact houtcome trivial trivial rfl (h.same (setRefcount_same s.w e _) rfl rfl)
  | put e =>
    refine ⟨imp_congr_right fun _ => h.consults_iff e, fun hcond => ?_, fun s' hs' => ?_⟩
    · have hht : s.Drops e → (s.w.elm e).ht ≠ none := fun hdrops =>
        h.lastTry_ne_none fun hnil => by
          have hlast := hcond hdrops
          rwa [hnil] at hlast
      obtain ⟨w', heq⟩ := hashelmPut_returns hht
      exact ⟨_, by rw [OwnerSys.step, heq, Option.map_some]⟩
    · obtain ⟨w', heq, rfl⟩ := Option.map_eq_some_iff.mp hs'
      exact ⟨lists, h.same (hashelmPut_same heq) rfl rfl⟩
  | hash ht e key =>
    obtain ⟨s₁, lists₁, heq, h₁⟩ := h.hash ht key hp
    exact houtcome trivial trivial heq h₁
  | lookup ht key =>
    obtain ⟨r, w', heq, hsame⟩ := h.filed.lookup_eq (fun _ => rfl) h.slots_eq ht key fun i =>
      Nat.lt_of_le_of_lt (Nat.le_add_right _ _) (h.length_lt ht i)
    have hstep : OwnerSys.step fuel s (.lookup ht key) = some { s with
        w := w'
        owned := s.gain r } := by
      rw [OwnerSys.step, heq, Option.map_some]
    exact houtcome trivial trivial hstep (h.same hsame rfl rfl)
  | unhash ht e =>
    obtain ⟨he, hhashed, -⟩ := hp
    obtain ⟨s₁, lists₁, heq, h₁⟩ := h.unhash ht he hhashed
    obtain ⟨ht', -, tries, -, -, htries⟩ := h.of_hashed he hhashed
    refine houtcome (fun _ => (h.consults_iff e).mpr ?_) trivial heq h₁
    rw [htries]
    exact .inl rfl

omit [DecidableEq τ] [DecidableEq ε] in
/-- The tables are empty at the start. -/
theorem Starts.owned (h : s.Starts) (hfuel : n < fuel) : Owned fuel n s fun _ _ => [] := by
  have hno (e : ε) : ¬ InSlot (fun ht => (s.w.table ht).slots) (fun _ _ => []) e := by
    rintro ⟨ht, i, -, hmem⟩
    exact List.not_mem_nil hmem
  refine ⟨h.slots_eq, ⟨⟨?_, ?_⟩, fun e hin => absurd hin (hno e), fun e hinit _ => ?_⟩,
    fun _ _ _ _ hmem => absurd hmem List.not_mem_nil, fun e => ?_, fun _ _ => ?_⟩
  · rintro _ ⟨ht, i, hi, rfl⟩
    exact h.empty ht i hi
  · rintro _ ⟨ht, i, hi, rfl⟩ _ ⟨ht', j, hj, rfl⟩ hne
    exact List.disjoint_singleton.mpr fun hmem => hne (List.mem_singleton.mp hmem).symm
  · exact absurd ((h.unknown e).1.symm.trans hinit) Bool.false_ne_true
  · rw [(h.unknown e).2.1, (h.unknown e).2.2]
    rfl
  · rwa [List.length_nil, Nat.zero_add]

/-- **In every run, the calls that put the last reference find the right table exactly where
the history of the element tells so**, and the run goes on then. -/
theorem hashelm_put_consults_iff (hstart : s.Starts) (ops : List (OwnerOp τ ε κ))
    (hfuel : ops.length < fuel) (hp : Meets (OwnerSys.step fuel) Permitted s ops) :
    (Meets (OwnerSys.step fuel) Right s ops ↔ Meets (OwnerSys.step fuel) Cond s ops)
      ∧ (Meets (OwnerSys.step fuel) Cond s ops →
        ∃ s', run (OwnerSys.step fuel) s ops = some s') := by
  obtain ⟨lists, h⟩ : ∃ lists, Owned fuel ops.length s lists := ⟨_, hstart.owned hfuel⟩
  clear hstart hfuel
  induction ops generalizing s lists with
  | nil => exact ⟨Iff.rfl, fun _ => ⟨s, rfl⟩⟩
  | cons o ops ih =>
    obtain ⟨hiff, hreturns, hkeeps⟩ := h.step hp.1
    have hrest (s' : OwnerSys τ ε κ) (hs' : OwnerSys.step fuel s o = some s') :
        (Meets (OwnerSys.step fuel) Right s' ops ↔ Meets (OwnerSys.step fuel) Cond s' ops)
          ∧ (Meets (OwnerSys.step fuel) Cond s' ops →
            ∃ s'', run (OwnerSys.step fuel) s' ops = some s'') := by
      obtain ⟨lists', h'⟩ := hkeeps s' hs'
      exact ih (hp.2 s' hs') lists' h'
    refine ⟨and_congr hiff (forall₂_congr fun s' hs' => (hrest s' hs').1), fun hcond => ?_⟩
    obtain ⟨s', hs'⟩ := hreturns hcond.1
    obtain ⟨s'', hrun⟩ := (hrest s' hs').2 (hcond.2 s' hs')
    exact ⟨s'', Run.run_cons_eq_some.mpr ⟨s', hs', hrun⟩⟩

/-! ## Elements without their table -/

/-- Two tables with one slot each, and two elements in an array of uninitialised ones. -/
def twoTables : OwnerSys Bool Bool ℕ where
  w := {
    table := fun _ => ⟨0, 1, 1, fun _ => 0, UInt32.ofNat, fun he k => he.key == k, true⟩
    links := ⟨id, id⟩
    elm := fun _ => ⟨0, 0, 0, none⟩
    freed := fun _ => [] }
  inited := fun _ => false
  owned := fun _ => 0
  tries := fun _ => []

theorem twoTables_starts : twoTables.Starts :=
  ⟨fun _ => rfl, fun _ _ _ => Links.ring_nil.mpr ⟨rfl, rfl⟩, fun _ => ⟨rfl, rfl, rfl⟩⟩

/-- An element changes its table, and goes. -/
def changesTable : List (OwnerOp Bool Bool ℕ) :=
  [.init true, .hash false true 5, .hold true, .unhash false true, .put true, .hash true true 6,
    .unhash true true, .put true]

/-- It goes to the `freefn` of the second table. -/
theorem hashelm_put_consults_iff_changesTable :
    Meets (OwnerSys.step 9) Cond twoTables changesTable
      ∧ Meets (OwnerSys.step 9) Right twoTables changesTable
      ∧ ∃ s', run (OwnerSys.step 9) twoTables changesTable = some s'
        ∧ s'.w.freed true = [true] := by
  have hcond : Meets (OwnerSys.step 9) Cond twoTables changesTable := by decide +kernel
  have hfreed : (run (OwnerSys.step 9) twoTables changesTable).map (fun s => s.w.freed true)
      = some [true] := by decide +kernel
  obtain ⟨hiff, hreturns⟩ := hashelm_put_consults_iff twoTables_starts changesTable
    (show changesTable.length < 9 by decide) (by decide +kernel)
  obtain ⟨s', hrun⟩ := hreturns hcond
  rw [hrun] at hfreed
  exact ⟨hcond, hiff.mpr hcond, s', hrun, Option.some.inj hfreed⟩

/-- **The last reference is put where there is no table, or another one**: an element that was
never hashed has an `ht` that was never written, and one that has left its table and was refused
by another has the `ht` of that. -/
theorem hashelm_put_wrong_table :
    let unhashed : List (OwnerOp Bool Bool ℕ) := [.init true, .put true]
    let refused : List (OwnerOp Bool Bool ℕ) := [.init true, .hash false true 5,
      .unhash false true, .init false, .hash true false 5, .hash true true 5]
    (Meets (OwnerSys.step 9) Permitted twoTables unhashed
        ∧ run (OwnerSys.step 9) twoTables unhashed = none
        ∧ ¬ Meets (OwnerSys.step 9) Right twoTables unhashed)
      ∧ Meets (OwnerSys.step 9) Permitted twoTables (refused ++ [.put true])
      ∧ (run (OwnerSys.step 9) twoTables refused).map
          (fun s => ((s.w.elm true).ht, lastIn (s.tries true))) = some (some true, some false)
      ∧ ¬ Meets (OwnerSys.step 9) Right twoTables (refused ++ [.put true]) := by
  decide +kernel

end OwnerSys
