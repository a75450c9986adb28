import Mathlib.Data.Fintype.EquivFin
import Ckit.RbtreeBst

/-!
# The default key order

`default_comp` of `rbtree.c` compares keys of equal length with `memcmp`. Keys of different
lengths it compares with `<`, which is `1` where the first is the shorter and `0` otherwise –
where a comparison has to be negative or positive. So two such keys never compare as smaller,
and `bst_insert` puts the one that comes later to the right, whichever it is.

On keys of one length the comparison is a total order, and the keys of a tree come in that
order however they were inserted. As soon as two lengths differ neither is so
(`default_comp_total_iff`).
-/

/-- `memcmp` of as many bytes as the keys have. -/
def memcmp : List UInt8 → List UInt8 → ℤ
  | a :: k₁, b :: k₂ => if a = b then memcmp k₁ k₂ else (a.toNat : ℤ) - b.toNat
  | _, _ => 0

/-- `default_comp`. -/
def defaultComp (k₁ k₂ : List UInt8) : ℤ :=
  if k₁.length ≠ k₂.length then
    if k₁.length < k₂.length then 1 else 0
  else
    memcmp k₁ k₂

/-! ## The order -/

theorem memcmp_swap (k₁ k₂ : List UInt8) : memcmp k₁ k₂ = -memcmp k₂ k₁ := by
  induction k₁ generalizing k₂ with
  | nil => cases k₂ <;> rfl
  | cons a k₁ ih =>
    cases k₂ with
    | nil => rfl
    | cons b k₂ =>
      rw [memcmp, memcmp]
      by_cases hab : a = b
      · rw [if_pos hab, if_pos hab.symm, ih]
      · rw [if_neg hab, if_neg (Ne.symm hab)]
        omega

theorem memcmp_eq_zero_iff {k₁ k₂ : List UInt8} (hlen : k₁.length = k₂.length) :
    memcmp k₁ k₂ = 0 ↔ k₁ = k₂ := by
  induction k₁ generalizing k₂ with
  | nil =>
    cases k₂ with
    | nil => exact iff_of_true rfl rfl
    | cons b k₂ => exact absurd hlen (by simp)
  | cons a k₁ ih =>
    cases k₂ with
    | nil => exact absurd hlen (by simp)
    | cons b k₂ =>
      rw [memcmp, List.cons.injEq]
      by_cases hab : a = b
      · rw [if_pos hab, ih (Nat.succ.inj hlen), and_iff_right hab]
      · have hne : a.toNat ≠ b.toNat := fun h => hab (UInt8.toNat_inj.mp h)
        rw [if_neg hab]
        exact iff_of_false (by omega) fun h => hab h.1

theorem memcmp_trans {k₁ k₂ k₃ : List UInt8} (h₁₂ : memcmp k₁ k₂ < 0) (h₂₃ : memcmp k₂ k₃ < 0) :
    memcmp k₁ k₃ < 0 := by
  induction k₁ generalizing k₂ k₃ with
  | nil => exact absurd h₁₂ (by simp [memcmp])
  | cons a k₁ ih =>
    cases k₂ with
    | nil => exact absurd h₁₂ (by simp [memcmp])
    | cons b k₂ =>
      cases k₃ with
      | nil => exact absurd h₂₃ (by simp [memcmp])
      | cons c k₃ =>
        rw [memcmp] at h₁₂ h₂₃ ⊢
        by_cases hab : a = b
        · by_cases hbc : b = c
          · rw [if_pos hab] at h₁₂
            rw [if_pos hbc] at h₂₃
            rw [if_pos (hab.trans hbc)]
            exact ih h₁₂ h₂₃
          · rw [if_neg hbc] at h₂₃
            rw [hab, if_neg hbc]
            exact h₂₃
        · rw [if_neg hab] at h₁₂
          by_cases hbc : b = c
          · rw [← hbc, if_neg hab]
            exact h₁₂
          · rw [if_neg hbc] at h₂₃
            have hac : a ≠ c := by
              rintro rfl
              omega
            rw [if_neg hac]
            omega

variable {a b c : List UInt8}

theorem defaultComp_of_length_eq (h : a.length = b.length) : defaultComp a b = memcmp a b := by
  rw [defaultComp, if_neg (not_not_intro h)]

/-- **Keys of different lengths** never compare as smaller. -/
theorem defaultComp_of_length_ne (h : a.length ≠ b.length) : 0 ≤ defaultComp a b := by
  rw [defaultComp, if_pos h]
  split
  · exact Int.one_nonneg
  · exact le_rfl

theorem length_eq_of_defaultComp_neg (h : defaultComp a b < 0) : a.length = b.length := by
  by_contra hne
  exact absurd h (Int.not_lt.mpr (defaultComp_of_length_ne hne))

/-- What compares as smaller is transitive, whatever the lengths. -/
theorem defaultComp_trans (hab : defaultComp a b < 0) (hbc : defaultComp b c < 0) :
    defaultComp a c < 0 := by
  have h₁ := length_eq_of_defaultComp_neg hab
  have h₂ := length_eq_of_defaultComp_neg hbc
  rw [defaultComp_of_length_eq h₁] at hab
  rw [defaultComp_of_length_eq h₂] at hbc
  rw [defaultComp_of_length_eq (h₁.trans h₂)]
  exact memcmp_trans hab hbc

/-- Of two different keys of one length, one compares as smaller. -/
theorem defaultComp_neg_of_not (hlen : a.length = b.length) (hne : a ≠ b)
    (h : ¬ defaultComp a b < 0) : defaultComp b a < 0 := by
  rw [defaultComp_of_length_eq hlen] at h
  rw [defaultComp_of_length_eq hlen.symm, memcmp_swap]
  have hzero := mt (memcmp_eq_zero_iff hlen).mp hne
  omega

theorem defaultComp_asymm (hab : defaultComp a b < 0) : ¬ defaultComp b a < 0 := by
  have hlen := length_eq_of_defaultComp_neg hab
  rw [defaultComp_of_length_eq hlen, memcmp_swap] at hab
  rw [defaultComp_of_length_eq hlen.symm]
  omega

/-- **The comparison is a total order** on the keys of a list. -/
structure TotalOn (K : List (List UInt8)) : Prop where
  swap : ∀ a ∈ K, ∀ b ∈ K, defaultComp a b < 0 ↔ 0 < defaultComp b a
  eq : ∀ a ∈ K, ∀ b ∈ K, defaultComp a b = 0 ↔ a = b
  trans : ∀ a ∈ K, ∀ b ∈ K, ∀ c ∈ K, defaultComp a b < 0 → defaultComp b c < 0 →
    defaultComp a c < 0

/-- All keys of a list have one length. -/
def OneLength (K : List (List UInt8)) : Prop := ∀ a ∈ K, ∀ b ∈ K, a.length = b.length

theorem totalOn_iff (K : List (List UInt8)) : TotalOn K ↔ OneLength K := by
  constructor
  · intro h a ha b hb
    -- the longer of two keys compares as equal to the shorter one
    have hle : ∀ a ∈ K, ∀ b ∈ K, ¬ a.length < b.length := by
      intro a ha b hb hlt
      have hzero : defaultComp b a = 0 := by
        rw [defaultComp, if_pos hlt.ne', if_neg (Nat.lt_asymm hlt)]
      exact hlt.ne' (congrArg List.length ((h.eq b hb a ha).mp hzero))
    exact Nat.le_antisymm (Nat.not_lt.mp (hle b hb a ha)) (Nat.not_lt.mp (hle a ha b hb))
  · intro h
    refine ⟨fun a ha b hb => ?_, fun a ha b hb => ?_, fun a _ b _ c _ => defaultComp_trans⟩
    · rw [defaultComp_of_length_eq (h a ha b hb), defaultComp_of_length_eq (h b hb a ha),
        memcmp_swap]
      omega
    · rw [defaultComp_of_length_eq (h a ha b hb), memcmp_eq_zero_iff (h a ha b hb)]

/-! ## Trees built with it -/

namespace RbTree

open ColorTree

variable {P ν : Type} [DecidableEq P] {t t' : RbTree P (List UInt8) ν} {T : ColorTree P}

omit [DecidableEq P] in
/-- The keys of the nodes of `T`, in order. -/
def keysOf (t : RbTree P (List UInt8) ν) (T : ColorTree P) : List (List UInt8) :=
  T.inorder.map fun p => (t.node p).key

/-- The keys that are read from the root, in order. -/
def inorderKeys (fuel : ℕ) (t : RbTree P (List UInt8) ν) : List (List UInt8) :=
  (t.stored fuel).map fun p => (t.node p).key

/-- The keys come in the order of the comparison. -/
def Increasing (K : List (List UInt8)) : Prop := K.Pairwise fun a b => defaultComp a b < 0

/-- **What a call does to the keys**: the new one comes somewhere between the others, and among
increasing keys before all that it is smaller than. -/
theorem Bst.step_keys (h : Bst t T) (hcomp : t.keyCompare = defaultComp) {fuel : ℕ}
    (hfuel : t.log.length < fuel) {e : P × List UInt8 × ν} (hfresh : e.1 ∉ t.log.map Prod.fst) :
    ∃ t' T' kb ka, bstStep fuel t e = some t' ∧ Bst t' T' ∧ t'.keyCompare = defaultComp
      ∧ t'.log = e :: t.log ∧ t.keysOf T = kb ++ ka ∧ t'.keysOf T' = kb ++ e.2.1 :: ka
      ∧ (Increasing (t.keysOf T) → (∀ k ∈ kb, ¬ defaultComp e.2.1 k < 0)
        ∧ ∀ k ∈ ka, defaultComp e.2.1 k < 0) := by
  obtain ⟨t', hrun, hnew, hbst⟩ := h.call hfuel hfresh e.2.1 e.2.2
  have hparts := inorder_descend (t.goesLeft e.2.1) T
  have hold : ∀ p ∈ T.inorder, (t'.node p).key = (t.node p).key :=
    fun p hp => (hnew.old p fun heq => hfresh (heq ▸ h.nodes.subset hp)).1
  have hkeys : ∀ ps : List P, (∀ p ∈ ps, p ∈ T.inorder) →
      ps.map (fun p => (t'.node p).key) = ps.map fun p => (t.node p).key :=
    fun ps hps => List.map_congr_left fun p hp => hold p (hps p hp)
  refine ⟨t', _, (before (T.descend (t.goesLeft e.2.1) [])).map fun p => (t.node p).key,
    (after (T.descend (t.goesLeft e.2.1) [])).map fun p => (t.node p).key, ?_, hbst,
    hnew.keyCompare.trans hcomp, hnew.log, ?_, ?_, fun hinc => ?_⟩
  · rw [bstStep, if_neg hfresh, hrun]
    rfl
  · rw [keysOf, hparts, List.map_append]
  · rw [keysOf, inorder_plug_leaf, List.map_append, List.map_cons, hnew.new.1,
      hkeys _ fun p hp => hparts ▸ List.mem_append_left _ hp,
      hkeys _ fun p hp => hparts ▸ List.mem_append_right _ hp]
  · have hgo : ∀ p, t.goesLeft e.2.1 p = decide (defaultComp e.2.1 (t.node p).key < 0) := by
      intro p
      rw [goesLeft, hcomp]
    obtain ⟨hbefore, hafter⟩ := @descend_parts P
      (fun p q => defaultComp (t.node p).key (t.node q).key < 0) (t.goesLeft e.2.1)
      (fun p => ¬ defaultComp e.2.1 (t.node p).key < 0)
      (fun p => defaultComp e.2.1 (t.node p).key < 0)
      (fun p hp => of_decide_eq_true ((hgo p).symm.trans hp))
      (fun p hp => of_decide_eq_false ((hgo p).symm.trans hp))
      (fun p q hpq hp => defaultComp_trans hp hpq)
      (fun p q hpq hq hp => hq (defaultComp_trans hp hpq)) T [] (List.pairwise_map.mp hinc)
      (fun p hp => absurd hp List.not_mem_nil) (fun p hp => absurd hp List.not_mem_nil)
    constructor
    · intro k hk
      obtain ⟨p, hp, rfl⟩ := List.mem_map.mp hk
      exact hbefore p hp
    · intro k hk
      obtain ⟨p, hp, rfl⟩ := List.mem_map.mp hk
      exact hafter p hp

/-- **A new key among increasing ones**, all different and of one length. -/
theorem increasing_insert {kb ka : List (List UInt8)} {key : List UInt8}
    (hinc : Increasing (kb ++ ka)) (hbefore : ∀ k ∈ kb, ¬ defaultComp key k < 0)
    (hafter : ∀ k ∈ ka, defaultComp key k < 0) (hone : ∀ k ∈ kb, key.length = k.length)
    (hne : ∀ k ∈ kb, key ≠ k) : Increasing (kb ++ key :: ka) := by
  obtain ⟨hb, ha, hba⟩ := List.pairwise_append.mp hinc
  refine List.pairwise_append.mpr ⟨hb, List.pairwise_cons.mpr ⟨hafter, ha⟩, ?_⟩
  intro k hk k' hk'
  rcases List.mem_cons.mp hk' with rfl | hk'
  · exact defaultComp_neg_of_not (hone k hk) (hne k hk) (hbefore k hk)
  · exact hba k hk k' hk'

/-- **What a run does to the keys**: those there are stay in their order, the keys of the calls
come to them, and different keys of one length are kept in increasing order. -/
theorem Bst.run_keys (h : Bst t T) (hcomp : t.keyCompare = defaultComp) {fuel : ℕ}
    (es : List (P × List UInt8 × ν)) (hfuel : t.log.length + es.length < fuel)
    (hfresh : (t.log.map Prod.fst ++ es.map Prod.fst).Nodup) :
    ∃ t' T', run (bstStep fuel) t es = some t' ∧ Bst t' T' ∧ t'.log.length < fuel
      ∧ (t.keysOf T).Sublist (t'.keysOf T')
      ∧ (t'.keysOf T').Perm (t.keysOf T ++ es.map fun e => e.2.1)
      ∧ (Increasing (t.keysOf T) → OneLength (t.keysOf T ++ es.map fun e => e.2.1) →
        (t.keysOf T ++ es.map fun e => e.2.1).Nodup → Increasing (t'.keysOf T')) := by
  induction es generalizing t T with
  | nil =>
    rw [List.map_nil, List.append_nil]
    exact ⟨t, T, rfl, h, hfuel, List.Sublist.refl _, List.Perm.refl _, fun hinc _ _ => hinc⟩
  | cons e es ih =>
    rw [List.map_cons] at hfresh
    rw [List.length_cons] at hfuel
    obtain ⟨-, hes, hdisj⟩ := List.nodup_append'.mp hfresh
    have hnew : e.1 ∉ t.log.map Prod.fst := fun hmem => hdisj hmem List.mem_cons_self
    obtain ⟨t₁, T₁, kb, ka, hstep, hbst, hcomp₁, hlog, hold, hkeys, hplace⟩ :=
      h.step_keys hcomp (show t.log.length < fuel by omega) hnew
    have hperm : (t₁.keysOf T₁).Perm (e.2.1 :: t.keysOf T) := by
      rw [hkeys, hold]
      exact List.perm_middle
    have hfresh₁ : (t₁.log.map Prod.fst ++ es.map Prod.fst).Nodup := by
      rw [hlog, List.map_cons, List.cons_append]
      exact (List.perm_middle.nodup_iff).mp hfresh
    obtain ⟨t', T', hrun, hbst', hlen, hsub, hperm', hinc'⟩ := ih hbst hcomp₁
      (by rw [hlog, List.length_cons]; omega) hfresh₁
    have hall : (t₁.keysOf T₁ ++ es.map fun e => e.2.1).Perm
        (t.keysOf T ++ (e :: es).map fun e => e.2.1) := by
      rw [List.map_cons]
      exact (hperm.append_right _).trans List.perm_middle.symm
    refine ⟨t', T', Run.run_cons_eq_some.mpr ⟨t₁, hstep, hrun⟩, hbst', hlen, ?_,
      hperm'.trans hall, fun hinc hone hnodup => ?_⟩
    · refine List.Sublist.trans ?_ hsub
      rw [hold, hkeys]
      exact List.Sublist.append_left (List.sublist_cons_self _ _) _
    · refine hinc' ?_ (fun a ha b hb => hone a (hall.subset ha) b (hall.subset hb))
        (hall.nodup_iff.mpr hnodup)
      obtain ⟨hbefore, hafter⟩ := hplace hinc
      rw [hkeys]
      rw [hold] at hinc hone hnodup
      have hkey : e.2.1 ∈ (e :: es).map fun e => e.2.1 := List.mem_cons_self
      refine increasing_insert hinc hbefore hafter (fun k hk => ?_) fun k hk heq => ?_
      · exact hone _ (List.mem_append_right _ hkey) k
          (List.mem_append_left _ (List.mem_append_left _ hk))
      · refine (List.nodup_append'.mp hnodup).2.2 (List.mem_append_left _ hk) ?_
        rw [← heq]
        exact hkey

/-- **The keys of a tree built from scratch.** -/
theorem run_empty_keys (node : P → RbNode P (List UInt8) ν) {fuel : ℕ}
    {es : List (P × List UInt8 × ν)} (hfuel : es.length < fuel)
    (hfresh : (es.map Prod.fst).Nodup) :
    ∃ t, run (bstStep fuel) (empty defaultComp node) es = some t
      ∧ (t.inorderKeys fuel).Perm (es.map fun e => e.2.1)
      ∧ (OneLength (es.map fun e => e.2.1) → (es.map fun e => e.2.1).Nodup →
        Increasing (t.inorderKeys fuel)) := by
  have hbst : Bst (empty defaultComp node) nil :=
    ⟨(redBlack_empty defaultComp node).located, .nil⟩
  obtain ⟨t, T, hrun, hT, hlen, -, hperm, hinc⟩ := hbst.run_keys rfl es
    (show 0 + es.length < fuel by omega) hfresh
  have hkeys : t.inorderKeys fuel = t.keysOf T := by
    rw [inorderKeys, hT.stored_eq hlen, keysOf]
  rw [← hkeys] at hperm hinc
  exact ⟨t, hrun, hperm, hinc .nil⟩

/-- **Two keys of different lengths** are read in the order they were inserted in. -/
theorem step_two_keys (node : P → RbNode P (List UInt8) ν) {fuel : ℕ}
    {e₁ e₂ : P × List UInt8 × ν} (hfuel : 1 < fuel) (hfresh : e₁.1 ≠ e₂.1)
    (hne : e₁.2.1.length ≠ e₂.2.1.length) :
    ∃ t T, run (bstStep fuel) (empty defaultComp node) [e₁, e₂] = some t ∧ Bst t T
      ∧ t.keyCompare = defaultComp ∧ t.log = [e₂, e₁] ∧ t.keysOf T = [e₁.2.1, e₂.2.1] := by
  have hbst : Bst (empty defaultComp node) nil :=
    ⟨(redBlack_empty defaultComp node).located, .nil⟩
  obtain ⟨t₁, T₁, kb₁, ka₁, hstep₁, hbst₁, hcomp₁, hlog₁, hold₁, hkeys₁, -⟩ :=
    hbst.step_keys rfl (show 0 < fuel by omega) (e := e₁) List.not_mem_nil
  obtain ⟨rfl, rfl⟩ := List.append_eq_nil_iff.mp hold₁.symm
  have hlog₁' : t₁.log = [e₁] := hlog₁
  have hnew₂ : e₂.1 ∉ t₁.log.map Prod.fst := by
    rw [hlog₁', List.map_singleton, List.mem_singleton]
    exact hfresh.symm
  have hfuel₁ : t₁.log.length < fuel := by
    rw [hlog₁']
    exact hfuel
  obtain ⟨t₂, T₂, kb, ka, hstep₂, hbst₂, hcomp₂, hlog₂, hold₂, hkeys₂, hplace⟩ :=
    hbst₁.step_keys hcomp₁ hfuel₁ hnew₂
  -- the second key is not smaller, so it comes after the first
  have hinc : Increasing (t₁.keysOf T₁) := by
    rw [hkeys₁]
    exact List.pairwise_singleton _ _
  obtain rfl : ka = [] := by
    rw [List.eq_nil_iff_forall_not_mem]
    intro k hk
    have hmem : k ∈ t₁.keysOf T₁ := hold₂ ▸ List.mem_append_right _ hk
    rw [hkeys₁, List.nil_append, List.mem_singleton] at hmem
    have hneg := (hplace hinc).2 k hk
    rw [hmem] at hneg
    exact hne (length_eq_of_defaultComp_neg hneg).symm
  refine ⟨t₂, T₂, ?_, hbst₂, hcomp₂, by rw [hlog₂, hlog₁'], ?_⟩
  · rw [Run.run_cons, hstep₁, Option.bind_some, Run.run_cons, hstep₂]
    rfl
  · rw [List.append_nil] at hold₂
    rw [hkeys₂, ← hold₂, hkeys₁]
    rfl

/-- **The first of two keys of different lengths comes first**, whatever is inserted later. -/
theorem run_two_keys (node : P → RbNode P (List UInt8) ν) {fuel : ℕ} {e₁ e₂ : P × List UInt8 × ν}
    {es : List (P × List UInt8 × ν)} (hfuel : (e₁ :: e₂ :: es).length < fuel)
    (hfresh : ((e₁ :: e₂ :: es).map Prod.fst).Nodup) (hne : e₁.2.1.length ≠ e₂.2.1.length)
    (hrun : run (bstStep fuel) (empty defaultComp node) (e₁ :: e₂ :: es) = some t) :
    [e₁.2.1, e₂.2.1].Sublist (t.inorderKeys fuel) := by
  rw [List.map_cons, List.map_cons] at hfresh
  obtain ⟨hfirst, -⟩ := List.nodup_cons.mp hfresh
  rw [List.length_cons, List.length_cons] at hfuel
  have hroom : 1 < fuel := by omega
  obtain ⟨t₂, T₂, hrun₂, hbst₂, hcomp₂, hlog₂, hpair⟩ := step_two_keys node hroom
    (fun heq => hfirst (heq ▸ List.mem_cons_self)) hne
  obtain ⟨t₃, T₃, hrun₃, hbst₃, hlen₃, hsub, -, -⟩ := hbst₂.run_keys hcomp₂ es
    (show t₂.log.length + es.length < fuel by rw [hlog₂]; exact (by omega : 2 + es.length < fuel))
    (by
      rw [hlog₂]
      exact (List.Perm.swap e₁.1 e₂.1 _).nodup_iff.mpr hfresh)
  obtain rfl : t = t₃ := by
    have hall : e₁ :: e₂ :: es = [e₁, e₂] ++ es := rfl
    rw [hall, Run.run_append, hrun₂, Option.bind_some] at hrun
    exact Option.some.inj (hrun.symm.trans hrun₃)
  rw [inorderKeys, hbst₃.stored_eq hlen₃, ← hpair]
  exact hsub

/-- **The order of the insertions does not matter** for the keys `K`: however they are inserted,
at whatever addresses, they are read in the same order. -/
def OrderFree (P ν : Type) [DecidableEq P] (K : List (List UInt8)) : Prop :=
  ∀ (node node' : P → RbNode P (List UInt8) ν) (es es' : List (P × List UInt8 × ν)) (fuel : ℕ),
    (es.map fun e => e.2.1).Perm K → (es'.map fun e => e.2.1).Perm K →
    (es.map Prod.fst).Nodup → (es'.map Prod.fst).Nodup → K.length < fuel →
    ∃ t t', run (bstStep fuel) (empty defaultComp node) es = some t
      ∧ run (bstStep fuel) (empty defaultComp node') es' = some t'
      ∧ t.inorderKeys fuel = t'.inorderKeys fuel

/-- **Keys of one length** are read in increasing order, and that is one order. -/
theorem orderFree_of_oneLength {K : List (List UInt8)} (hK : K.Nodup) (hone : OneLength K) :
    OrderFree P ν K := by
  intro node node' es es' fuel hes hes' hfresh hfresh' hfuel
  have hlen : es.length = K.length := by rw [← hes.length_eq, List.length_map]
  have hlen' : es'.length = K.length := by rw [← hes'.length_eq, List.length_map]
  have hone_of : ∀ {L : List (List UInt8)}, L.Perm K → OneLength L :=
    fun hL a ha b hb => hone a (hL.subset ha) b (hL.subset hb)
  obtain ⟨t, hrun, hperm, hinc⟩ := run_empty_keys node (hlen ▸ hfuel) hfresh
  obtain ⟨t', hrun', hperm', hinc'⟩ := run_empty_keys node' (hlen' ▸ hfuel) hfresh'
  refine ⟨t, t', hrun, hrun', ?_⟩
  refine List.Perm.eq_of_pairwise (fun a b _ _ hab hba => absurd hba (defaultComp_asymm hab))
    (hinc (hone_of hes) (hes.nodup_iff.mpr hK)) (hinc' (hone_of hes') (hes'.nodup_iff.mpr hK)) ?_
  exact (hperm.trans hes).trans (hperm'.trans hes').symm

omit [DecidableEq P] in
/-- Insertions of given keys at different addresses. -/
theorem exists_inserts [Infinite P] [Inhabited ν] (K : List (List UInt8)) :
    ∃ es : List (P × List UInt8 × ν), (es.map fun e => e.2.1) = K ∧ (es.map Prod.fst).Nodup := by
  let addr := Infinite.natEmbedding P
  have hlen : ((List.range K.length).map addr).length
      = (K.map fun k => (k, (default : ν))).length := by
    rw [List.length_map, List.length_map, List.length_range]
  refine ⟨((List.range K.length).map addr).zip (K.map fun k => (k, default)), ?_, ?_⟩
  · have hsnd := congrArg (List.map Prod.fst) (List.map_snd_zip hlen.ge)
    rw [List.map_map, List.map_map] at hsnd
    exact hsnd.trans (List.map_id K)
  · rw [List.map_fst_zip hlen.le]
    exact List.nodup_range.map addr.injective

/-- Two keys do not come both first. -/
theorem not_sublist_swap {L : List (List UInt8)} {a b : List UInt8} (hL : L.Nodup)
    (hab : [a, b].Sublist L) : ¬ [b, a].Sublist L := by
  induction L with
  | nil => exact absurd (List.sublist_nil.mp hab) (List.cons_ne_nil _ _)
  | cons x L ih =>
    obtain ⟨hx, hL⟩ := List.nodup_cons.mp hL
    intro hba
    rcases List.cons_sublist_cons'.mp hab with hab' | ⟨rfl, -⟩
    · rcases List.cons_sublist_cons'.mp hba with hba' | ⟨rfl, -⟩
      · exact ih hL hab' hba'
      · exact hx (hab'.subset (List.mem_cons_of_mem _ List.mem_cons_self))
    · rcases List.cons_sublist_cons'.mp hba with hba' | ⟨rfl, ha⟩
      · exact hx (hba'.subset (List.mem_cons_of_mem _ List.mem_cons_self))
      · exact hx (ha.subset List.mem_cons_self)

/-- **Keys of two lengths** are read in an order that depends on the insertions. -/
theorem oneLength_of_orderFree [Infinite P] [Inhabited ν] {K : List (List UInt8)} (hK : K.Nodup)
    (h : OrderFree P ν K) : OneLength K := by
  intro a ha b hb
  by_contra hne
  have hab : b ≠ a := fun heq => hne (congrArg List.length heq.symm)
  obtain ⟨rest, hrest⟩ : ∃ rest, K.Perm (a :: b :: rest) :=
    ⟨(K.erase a).erase b, (List.perm_cons_erase ha).trans
      ((List.perm_cons_erase ((List.mem_erase_of_ne hab).mpr hb)).cons a)⟩
  obtain ⟨es, hes, hfresh⟩ := @exists_inserts P ν _ _ (a :: b :: rest)
  obtain ⟨es', hes', hfresh'⟩ := @exists_inserts P ν _ _ (b :: a :: rest)
  have hperm : (es.map fun e => e.2.1).Perm K := hes ▸ hrest.symm
  have hperm' : (es'.map fun e => e.2.1).Perm K :=
    hes' ▸ (List.Perm.swap a b rest).trans hrest.symm
  have hmem : ∀ p : P, RbNode P (List UInt8) ν := fun _ => ⟨⟨.black, none, none, none⟩, [], default⟩
  obtain ⟨t, t', hrun, hrun', hsame⟩ := h hmem hmem es es' (K.length + 1) hperm hperm' hfresh
    hfresh' (Nat.lt_succ_self _)
  have hlen : es.length < K.length + 1 := by
    rw [← hperm.length_eq, List.length_map]
    exact Nat.lt_succ_self _
  have hlen' : es'.length < K.length + 1 := by
    rw [← hperm'.length_eq, List.length_map]
    exact Nat.lt_succ_self _
  have hnodup : (t.inorderKeys (K.length + 1)).Nodup := by
    obtain ⟨t₁, hrun₁, hkeys, -⟩ := run_empty_keys hmem hlen hfresh
    rw [Option.some.inj (hrun.symm.trans hrun₁)]
    exact (hkeys.trans hperm).nodup_iff.mpr hK
  -- each of the two comes first where it was inserted first
  obtain ⟨e₁, es₁, rfl, rfl, htail⟩ := List.map_eq_cons_iff.mp hes
  obtain ⟨e₂, es₂, rfl, rfl, -⟩ := List.map_eq_cons_iff.mp htail
  obtain ⟨e₁', es₁', rfl, h₁', htail'⟩ := List.map_eq_cons_iff.mp hes'
  obtain ⟨e₂', es₂', rfl, h₂', -⟩ := List.map_eq_cons_iff.mp htail'
  have hfirst := run_two_keys hmem hlen hfresh hne hrun
  have hsecond := run_two_keys hmem hlen' hfresh' (by rw [h₁', h₂']; exact Ne.symm hne) hrun'
  rw [← hsame, h₁', h₂'] at hsecond
  exact not_sublist_swap hnodup hfirst hsecond

/-- **The default order is a total order on different keys, and trees built with it do not
depend on the order of the insertions, exactly where the keys have one length.** -/
theorem default_comp_total_iff [Infinite P] [Inhabited ν] {K : List (List UInt8)} (hK : K.Nodup) :
    (TotalOn K ↔ OneLength K) ∧ (OrderFree P ν K ↔ OneLength K) :=
  ⟨totalOn_iff K, oneLength_of_orderFree hK, orderFree_of_oneLength hK⟩

/-- Three keys of two bytes. -/
theorem default_comp_two_bytes :
    TotalOn [[1, 2], [0, 9], [1, 0]] ∧ OrderFree ℕ Unit [[1, 2], [0, 9], [1, 0]] := by
  have hone : OneLength [[1, 2], [0, 9], [1, 0]] := by
    unfold OneLength
    decide
  obtain ⟨htotal, hfree⟩ := @default_comp_total_iff ℕ Unit _ _ _ [[1, 2], [0, 9], [1, 0]]
    (by decide)
  exact ⟨htotal.mpr hone, hfree.mpr hone⟩

/-- **A key and a longer one**: compared one way they are different, the other way equal, and a
tree has them in the order in which they were inserted. -/
theorem default_comp_broken :
    defaultComp [1] [1, 1] = 1 ∧ defaultComp [1, 1] [1] = 0 ∧ ¬ TotalOn [[1], [1, 1]]
      ∧ (∃ t, run (bstStep 9) (empty defaultComp fun _ => ⟨⟨.black, none, none, none⟩, [], ()⟩)
          [(1, [1], ()), (2, [1, 1], ())] = some t ∧ t.inorderKeys 9 = [[1], [1, 1]])
      ∧ ∃ t, run (bstStep 9) (empty defaultComp fun _ => ⟨⟨.black, none, none, none⟩, [], ()⟩)
          [(1, [1, 1], ()), (2, [1], ())] = some t ∧ t.inorderKeys 9 = [[1, 1], [1]] := by
  refine ⟨by decide, by decide, fun h => ?_, ⟨_, rfl, by decide⟩, _, rfl, by decide⟩
  exact absurd ((h.eq [1, 1] (by decide) [1] (by decide)).mp (by decide)) (by decide)

end RbTree
