import Mathlib.Data.List.Chain
import Mathlib.Data.List.Nodup
import Mathlib.Logic.Function.Basic

/-!
# Rings of doubly linked nodes

A memory of nodes, each with a `prev` and a `next` pointer, and what it means that
going round from a node `a` – the *anchor* – meets the nodes `l` in order and
comes back to `a`, in both directions.

The two ways a ring changes are stated by what the new memory reads, and not by
how it was written: `Ring.insert_front` for a node that enters behind the anchor
and `Ring.remove` for one that leaves. `Ring.congr` says that a ring depends on
its own nodes only, which keeps every other ring as it is. Read backwards, a ring is
a ring (`ring_mirror`), so that what is shown of one end holds of the other.

`Rings` is a whole family of rings with no node in common, and `Rings.update` the
change of one of them.
-/

variable {N : Type*}

/-- A memory of doubly linked nodes. -/
structure Links (N : Type*) where
  prev : N → N
  next : N → N

namespace Links

/-- `q` comes directly after `p`. -/
def Linked (m : Links N) (p q : N) : Prop := m.next p = q ∧ m.prev q = p

/-- **The ring of the anchor `a`** goes through `l`. -/
structure Ring (m : Links N) (a : N) (l : List N) : Prop where
  chain : List.IsChain m.Linked (a :: (l ++ [a]))
  nodup : (a :: l).Nodup

variable {m m' : Links N} {a x : N} {l l₁ l₂ : List N}

/-- A chain depends on the `next` of all its nodes but the last and on the `prev`
of all but the first. -/
theorem isChain_congr (h : List.IsChain m.Linked l)
    (hnext : ∀ u ∈ l.dropLast, m'.next u = m.next u)
    (hprev : ∀ v ∈ l.tail, m'.prev v = m.prev v) : List.IsChain m'.Linked l := by
  induction l with
  | nil => exact .nil
  | cons u l ih =>
    cases l with
    | nil => exact .singleton u
    | cons v l =>
      obtain ⟨⟨hu, hv⟩, hrest⟩ := List.isChain_cons_cons.mp h
      refine List.isChain_cons_cons.mpr ⟨⟨?_, ?_⟩, ih hrest (fun w hw => ?_) fun w hw => ?_⟩
      · rw [hnext u List.mem_cons_self, hu]
      · rw [hprev v List.mem_cons_self, hv]
      · exact hnext w (List.mem_cons_of_mem _ hw)
      · exact hprev w (List.mem_cons_of_mem _ hw)

/-- A ring depends on its own nodes only. -/
theorem Ring.congr (h : m.Ring a l)
    (heq : ∀ n ∈ a :: l, m'.next n = m.next n ∧ m'.prev n = m.prev n) : m'.Ring a l := by
  refine ⟨isChain_congr h.chain (fun u hu => ?_) (fun v hv => ?_), h.nodup⟩
  · rw [← List.cons_append, List.dropLast_concat] at hu
    exact (heq u hu).1
  · have hmem : v ∈ a :: l := by
      rcases List.mem_append.mp hv with hv | hv
      · exact List.mem_cons_of_mem _ hv
      · rw [List.mem_singleton.mp hv]
        exact List.mem_cons_self
    exact (heq v hmem).2

/-- A node alone is a ring exactly where it points to itself. -/
theorem ring_nil : m.Ring a [] ↔ m.next a = a ∧ m.prev a = a := by
  constructor
  · intro h
    exact (List.isChain_cons_cons.mp h.chain).1
  · intro h
    exact ⟨List.isChain_pair.mpr h, List.nodup_singleton a⟩

/-- What follows the anchor. -/
theorem Ring.next_anchor (h : m.Ring a l) : (l ++ [a]).head? = some (m.next a) := by
  obtain ⟨q, r, hqr⟩ := List.exists_cons_of_ne_nil (List.concat_ne_nil a l)
  have hchain := h.chain
  rw [hqr] at hchain ⊢
  exact congrArg some (List.isChain_cons_cons.mp hchain).1.1.symm

theorem Ring.next_anchor_mem (h : m.Ring a l) : m.next a ∈ a :: l := by
  have hhead := List.mem_of_mem_head? (h.next_anchor ▸ Option.mem_some_self _)
  exact (List.perm_append_singleton a l).mem_iff.mp hhead

/-- The two neighbours of a node of the ring. -/
theorem Ring.neighbours (h : m.Ring a (l₁ ++ x :: l₂)) :
    ∃ A p q B, a :: l₁ = A ++ [p] ∧ l₂ ++ [a] = q :: B ∧ m.Linked p x ∧ m.Linked x q
      ∧ List.IsChain m.Linked (A ++ [p]) ∧ List.IsChain m.Linked (q :: B) := by
  obtain ⟨A, p, hA⟩ : ∃ A p, a :: l₁ = A ++ [p] :=
    ⟨_, _, (List.dropLast_append_getLast (List.cons_ne_nil a l₁)).symm⟩
  obtain ⟨q, B, hB⟩ := List.exists_cons_of_ne_nil (List.concat_ne_nil a l₂)
  have hchain := h.chain
  rw [List.append_assoc, List.cons_append, ← List.cons_append, List.isChain_split, hA, hB,
    List.append_assoc, List.singleton_append, List.isChain_append_cons_cons,
    List.isChain_cons_cons] at hchain
  exact ⟨A, p, q, B, hA, hB, hchain.1.2.1, hchain.2.1, hchain.1.1, hchain.2.2⟩

/-- The node before a node of the ring. -/
theorem Ring.prev_mem (h : m.Ring a (l₁ ++ x :: l₂)) :
    m.prev x ∈ a :: l₁ ∧ m.next (m.prev x) = x := by
  obtain ⟨A, p, q, B, hA, -, ⟨hnp, hpx⟩, -⟩ := h.neighbours
  rw [hpx, hA]
  exact ⟨List.mem_append_right _ (List.mem_singleton_self p), hnp⟩

/-- What follows a node of the ring. -/
theorem Ring.next_mem (h : m.Ring a (l₁ ++ x :: l₂)) :
    (l₂ ++ [a]).head? = some (m.next x) := by
  obtain ⟨A, p, q, B, -, hB, -, ⟨hnx, -⟩, -⟩ := h.neighbours
  rw [hB, hnx]
  rfl

/-- The anchor points to itself exactly where the ring is empty. -/
theorem Ring.next_anchor_eq_self (h : m.Ring a l) : m.next a = a ↔ l = [] := by
  have hnext := h.next_anchor
  cases l with
  | nil => exact iff_of_true (Option.some.inj hnext).symm rfl
  | cons y l =>
    refine iff_of_false (fun heq => ?_) (List.cons_ne_nil _ _)
    have hy : y = a := (Option.some.inj hnext).trans heq
    exact (List.nodup_cons.mp h.nodup).1 (hy ▸ List.mem_cons_self)

/-- A node of the ring does not point to itself. -/
theorem Ring.next_ne_self (h : m.Ring a l) (hx : x ∈ l) : m.next x ≠ x := by
  obtain ⟨l₁, l₂, rfl⟩ := List.append_of_mem hx
  obtain ⟨hax, hnodup⟩ := List.nodup_cons.mp h.nodup
  have hnext := h.next_mem
  intro heq
  rw [heq] at hnext
  cases l₂ with
  | nil => exact hax ((Option.some.inj hnext).symm ▸ hx)
  | cons y l₂ =>
    obtain rfl : y = x := Option.some.inj hnext
    exact (List.nodup_cons.mp (List.nodup_append.mp hnodup).2.1).1 List.mem_cons_self

/-- **A node enters behind the anchor.** -/
theorem Ring.insert_front (h : m.Ring a l) (hx : x ∉ a :: l) (hna : m'.next a = x)
    (hnx : m'.next x = m.next a) (hpx : m'.prev x = a) (hpq : m'.prev (m.next a) = x)
    (hnext : ∀ n, n ≠ a → n ≠ x → m'.next n = m.next n)
    (hprev : ∀ n, n ≠ m.next a → n ≠ x → m'.prev n = m.prev n) : m'.Ring a (x :: l) := by
  obtain ⟨hal, hnodup⟩ := List.nodup_cons.mp h.nodup
  obtain ⟨hxa, hxl⟩ := not_or.mp (fun hmem => hx (List.mem_cons.mpr hmem))
  have hround : (l ++ [a]).Nodup := List.nodup_append_comm.mp h.nodup
  have hxr : x ∉ l ++ [a] := fun hmem =>
    hx ((List.perm_append_singleton a l).mem_iff.mp hmem)
  have hl : (l ++ [a]).dropLast = l := List.dropLast_concat
  have hhead := h.next_anchor
  have hchain := h.chain
  refine ⟨?_, List.nodup_cons.mpr ⟨fun hmem => ?_, List.nodup_cons.mpr ⟨hxl, hnodup⟩⟩⟩
  · rw [List.cons_append]
    -- the old way round, from `q` on, is as it was
    cases hr : l ++ [a] with
    | nil => rw [hr] at hhead; exact nomatch hhead
    | cons q r =>
      rw [hr] at hround hxr hl hhead hchain
      obtain rfl : q = m.next a := Option.some.inj hhead
      refine List.isChain_cons_cons.mpr ⟨⟨hna, hpx⟩, List.isChain_cons_cons.mpr ⟨⟨hnx, hpq⟩, ?_⟩⟩
      refine isChain_congr (List.isChain_cons_cons.mp hchain).2 (fun u hu => ?_) fun v hv => ?_
      · rw [hl] at hu
        exact hnext u (fun heq => hal (heq ▸ hu)) fun heq => hxl (heq ▸ hu)
      · exact hprev v (fun heq => (List.nodup_cons.mp hround).1 (heq ▸ hv))
          fun heq => hxr (heq ▸ List.mem_cons_of_mem _ hv)
  · rcases List.mem_cons.mp hmem with heq | hmem
    · exact hxa heq.symm
    · exact hal hmem

/-- **A node leaves the ring**, and its neighbours close the gap. -/
theorem Ring.remove (h : m.Ring a (l₁ ++ x :: l₂)) (hnp : m'.next (m.prev x) = m.next x)
    (hpq : m'.prev (m.next x) = m.prev x)
    (hnext : ∀ n, n ≠ m.prev x → n ≠ x → m'.next n = m.next n)
    (hprev : ∀ n, n ≠ m.next x → n ≠ x → m'.prev n = m.prev n) : m'.Ring a (l₁ ++ l₂) := by
  have hnodup : ((a :: l₁) ++ x :: l₂).Nodup := h.nodup
  obtain ⟨hleft, hright, hdisj⟩ := List.nodup_append.mp hnodup
  obtain ⟨hxl₂, hl₂⟩ := List.nodup_cons.mp hright
  have hround : (l₂ ++ [a]).Nodup := List.nodup_append.mpr ⟨hl₂, List.nodup_singleton a,
    fun u hu v hv => by
      rw [List.mem_singleton.mp hv]
      exact (hdisj a List.mem_cons_self u (List.mem_cons_of_mem _ hu)).symm⟩
  obtain ⟨A, p, q, B, hA, hB, ⟨-, hp⟩, ⟨hq, -⟩, hchainA, hchainB⟩ := h.neighbours
  have htail : l₁ = (A ++ [p]).tail := congrArg List.tail hA
  have hlast : l₂ = (q :: B).dropLast := by rw [← hB, List.dropLast_concat]
  subst hp hq
  refine ⟨?_, ?_⟩
  · rw [List.append_assoc, ← List.cons_append, hA, hB, List.append_assoc, List.singleton_append,
      List.isChain_append_cons_cons]
    refine ⟨isChain_congr hchainA (fun u hu => ?_) (fun v hv => ?_), ⟨hnp, hpq⟩,
      isChain_congr hchainB (fun u hu => ?_) fun v hv => ?_⟩
    · rw [List.dropLast_concat] at hu
      have hmem : u ∈ a :: l₁ := hA ▸ List.mem_append_left _ hu
      rw [hA] at hleft
      exact hnext u ((List.nodup_append.mp hleft).2.2 u hu _ (List.mem_singleton_self _))
        (hdisj u hmem x List.mem_cons_self)
    · rw [← htail] at hv
      refine hprev v (fun heq => ?_) (hdisj v (List.mem_cons_of_mem _ hv) x List.mem_cons_self)
      have hmem : m.next x ∈ l₂ ++ [a] := hB ▸ List.mem_cons_self
      rcases List.mem_append.mp hmem with hm | hm
      · exact hdisj v (List.mem_cons_of_mem _ hv) _ (List.mem_cons_of_mem _ hm) heq
      · rw [List.mem_singleton.mp hm] at heq
        exact (List.nodup_cons.mp hleft).1 (heq ▸ hv)
    · rw [← hlast] at hu
      have hmem : m.prev x ∈ a :: l₁ := hA ▸ List.mem_append_right _ (List.mem_singleton_self _)
      exact hnext u (hdisj _ hmem u (List.mem_cons_of_mem _ hu)).symm fun heq => hxl₂ (heq ▸ hu)
    · rw [hB] at hround
      refine hprev v (fun heq => (List.nodup_cons.mp hround).1 (heq ▸ hv)) fun heq => ?_
      have hmem : x ∈ l₂ ++ [a] := hB ▸ List.mem_cons_of_mem _ (heq ▸ hv)
      rcases List.mem_append.mp hmem with hm | hm
      · exact hxl₂ hm
      · exact hdisj a List.mem_cons_self x List.mem_cons_self (List.mem_singleton.mp hm).symm
  · refine List.nodup_append.mpr ⟨hleft, hl₂, fun u hu v hv => ?_⟩
    exact hdisj u hu v (List.mem_cons_of_mem _ hv)

/-! ## Read backwards -/

/-- The memory with the two directions exchanged. -/
def mirror (m : Links N) : Links N := ⟨m.next, m.prev⟩

theorem Ring.mirror (h : m.Ring a l) : m.mirror.Ring a l.reverse := by
  refine ⟨?_, ?_⟩
  · have hback : a :: (l.reverse ++ [a]) = (a :: (l ++ [a])).reverse := by simp
    rw [hback, List.isChain_reverse]
    refine List.IsChain.imp (fun p q hpq => ?_) h.chain
    exact ⟨hpq.2, hpq.1⟩
  · obtain ⟨hal, hnodup⟩ := List.nodup_cons.mp h.nodup
    exact List.nodup_cons.mpr ⟨fun hmem => hal (List.mem_reverse.mp hmem),
      List.nodup_reverse.mpr hnodup⟩

/-! ## Following the pointers -/

/-- The neighbours of a node lie on the ring, and point back to it. -/
theorem Ring.inverse (h : m.Ring a l) {n : N} (hn : n ∈ a :: l) :
    m.next n ∈ a :: l ∧ m.prev (m.next n) = n := by
  have hchain := h.chain
  rw [← List.cons_append] at hchain
  obtain ⟨A, B, hAB⟩ := List.append_of_mem hn
  rw [hAB, List.append_assoc, List.cons_append] at hchain
  obtain ⟨q, C, hq⟩ := List.exists_cons_of_ne_nil (List.concat_ne_nil a B)
  rw [hq, List.isChain_append_cons_cons] at hchain
  obtain ⟨-, ⟨hnext, hprev⟩, -⟩ := hchain
  rw [hnext]
  refine ⟨?_, hprev⟩
  have hmem : q ∈ B ++ [a] := hq ▸ List.mem_cons_self
  rcases List.mem_append.mp hmem with hB | ha
  · exact hAB ▸ List.mem_append_right _ (List.mem_cons_of_mem _ hB)
  · exact List.mem_singleton.mp ha ▸ List.mem_cons_self

/-- **Following `next`** from the anchor meets the nodes of the ring in order, and
then the anchor again. -/
theorem Ring.iterate_next (h : m.Ring a l) {i : ℕ} (hi : i ≤ l.length) :
    (l ++ [a])[i]? = some (m.next^[i + 1] a) := by
  induction i with
  | zero => rw [← List.head?_eq_getElem?, h.next_anchor]; rfl
  | succ i ih =>
    have hlast := ih (Nat.le_of_succ_le hi)
    have hget := List.isChain_iff_getElem.mp h.chain (i + 1) (by simp; omega)
    rw [Function.iterate_succ_apply', List.getElem?_eq_getElem (by simp; omega)]
    rw [List.getElem?_eq_getElem (by simp; omega), Option.some.injEq] at hlast
    simp only [List.getElem_cons_succ] at hget
    rw [← hlast, hget.1]

/-- **The memory determines the ring** of an anchor. -/
theorem Ring.unique {l' : List N} (h : m.Ring a l) (h' : m.Ring a l') : l = l' := by
  -- the longer of two rings would meet the anchor where the shorter one ends
  have hle {l l' : List N} (h : m.Ring a l) (h' : m.Ring a l') : l'.length ≤ l.length := by
    by_contra hlt
    have hend := h.iterate_next le_rfl
    have hmid := h'.iterate_next (Nat.le_of_not_le hlt)
    rw [List.getElem?_append_right le_rfl, Nat.sub_self] at hend
    rw [← hend, List.getElem?_append_left (Nat.lt_of_not_le hlt)] at hmid
    exact (List.nodup_cons.mp h'.nodup).1 (List.mem_of_getElem? hmid)
  have hlength : l.length = l'.length := le_antisymm (hle h' h) (hle h h')
  refine List.ext_getElem? fun i => ?_
  by_cases hi : i < l.length
  · have hget := h.iterate_next hi.le
    rw [← h'.iterate_next (hlength ▸ hi.le), List.getElem?_append_left hi,
      List.getElem?_append_left (hlength ▸ hi)] at hget
    exact hget
  · rw [List.getElem?_eq_none (Nat.le_of_not_lt hi),
      List.getElem?_eq_none (hlength ▸ Nat.le_of_not_lt hi)]

end Links

/-! ## Families of rings -/

namespace Links

variable {m m' : Links N} {A : Set N} {s : N → List N} {a : N} {l' : List N}

/-- **A family of rings**: the anchor `a` of the family heads the ring through `s a`,
and no node is on two of them. -/
structure Rings (m : Links N) (A : Set N) (s : N → List N) : Prop where
  ring : ∀ a ∈ A, m.Ring a (s a)
  disjoint : ∀ a ∈ A, ∀ b ∈ A, a ≠ b → List.Disjoint (a :: s a) (b :: s b)

/-- A node that is on none of the rings. -/
def Unlinked (A : Set N) (s : N → List N) (n : N) : Prop := ∀ b ∈ A, n ∉ b :: s b

/-- A node of one ring is on no other. -/
theorem Rings.eq_of_mem (h : m.Rings A s) {b n : N} (ha : a ∈ A) (hb : b ∈ A)
    (hna : n ∈ a :: s a) (hnb : n ∈ b :: s b) : a = b := by
  by_contra hab
  exact h.disjoint a ha b hb hab hna hnb

/-- A family depends on the sequences of its anchors only. -/
theorem Rings.congr (h : m.Rings A s) {s' : N → List N} (hs : ∀ a ∈ A, s' a = s a) :
    m.Rings A s' := by
  refine ⟨fun a ha => ?_, fun a ha b hb hab => ?_⟩
  · rw [hs a ha]
    exact h.ring a ha
  · rw [hs a ha, hs b hb]
    exact h.disjoint a ha b hb hab

variable [DecidableEq N]

/-- **One ring of a family changes**: its nodes are old ones, or were on no ring, and
the nodes of the others are not written to. -/
theorem Rings.update (h : m.Rings A s) (ha : a ∈ A) (hring : m'.Ring a l')
    (hnodes : ∀ n ∈ l', n ∈ s a ∨ Unlinked A s n)
    (hframe : ∀ b ∈ A, b ≠ a → ∀ n ∈ b :: s b, m'.next n = m.next n ∧ m'.prev n = m.prev n) :
    m'.Rings A (Function.update s a l') := by
  have hout : ∀ b ∈ A, b ≠ a → List.Disjoint (a :: l') (b :: s b) := by
    intro b hb hba n hna hnb
    have hold : n ∈ a :: s a ∨ Unlinked A s n := by
      rcases List.mem_cons.mp hna with rfl | hn
      · exact .inl List.mem_cons_self
      · exact (hnodes n hn).imp_left (List.mem_cons_of_mem _)
    rcases hold with hn | hn
    · exact h.disjoint a ha b hb hba.symm hn hnb
    · exact hn b hb hnb
  refine ⟨fun b hb => ?_, fun b hb c hc hbc => ?_⟩
  · by_cases hba : b = a
    · subst hba
      rwa [Function.update_self]
    · rw [Function.update_of_ne hba]
      exact (h.ring b hb).congr (hframe b hb hba)
  · by_cases hba : b = a
    · subst hba
      rw [Function.update_self, Function.update_of_ne hbc.symm]
      exact hout c hc hbc.symm
    · rw [Function.update_of_ne hba]
      by_cases hca : c = a
      · subst hca
        rw [Function.update_self]
        exact List.disjoint_comm.mp (hout b hb hba)
      · rw [Function.update_of_ne hca]
        exact h.disjoint b hb c hc hbc

end Links
