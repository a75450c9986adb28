import Ckit.ListHead
import Ckit.Run

/-!
# Lists as sequences

A memory with any number of anchors and nodes, and a sequence for each anchor. A call
of `list_add_front`, `list_add_back`, `list_del` or `list_move` changes the memory as
the pointer writes of `list.h` do, and the sequences as the call is meant: prepend,
append, erase, erase and then prepend. The two never read each other.

`lists_refine_sequences` says that they go together in every run: each anchor heads a
cycle through its sequence, no node is on two cycles, and a call writes to no node of a
list it does not concern. The neighbours of a node may be the anchor, each other or the
node itself; the families of rings of `Links.Rings` cover all of these at once.
-/

/-- A call of a function of `list.h`. -/
inductive ListOp (N : Type*) where
  | addFront (anchor toAdd : N)
  | addBack (anchor toAdd : N)
  | del (toDel : N)
  | move (toMove anchor : N)
deriving DecidableEq

/-- A memory, and the sequences its lists stand for. -/
structure ListSys (N : Type*) where
  mem : Links N
  seqs : N → List N

namespace ListOp

variable {N : Type*} [DecidableEq N]

/-- What the call does to the memory. -/
def exec (m : Links N) : ListOp N → Links N
  | addFront anchor toAdd => m.listAddFront anchor toAdd
  | addBack anchor toAdd => m.listAddBack anchor toAdd
  | del toDel => m.listDel toDel
  | move toMove anchor => m.listMove toMove anchor

/-- **What the call means** for the sequences. -/
def apply (s : N → List N) : ListOp N → N → List N
  | addFront anchor toAdd => Function.update s anchor (toAdd :: s anchor)
  | addBack anchor toAdd => Function.update s anchor (s anchor ++ [toAdd])
  | del toDel => fun a => (s a).erase toDel
  | move toMove anchor => Function.update (fun a => (s a).erase toMove) anchor
      (toMove :: (s anchor).erase toMove)

/-- The lists a call is about: the one a node enters, and the one it leaves. -/
def Concerns (s : N → List N) (a : N) : ListOp N → Prop
  | addFront anchor _ => a = anchor
  | addBack anchor _ => a = anchor
  | del toDel => toDel ∈ s a
  | move toMove anchor => a = anchor ∨ toMove ∈ s a

/-- Both at once. -/
def step (st : ListSys N) (op : ListOp N) : Option (ListSys N) :=
  some ⟨op.exec st.mem, op.apply st.seqs⟩

/-- The nodes a call may be made on: one that is in no list is added, one that is in a
list or points to itself is deleted, one that is in a list is moved. -/
def Proper (anchors : List N) (st : ListSys N) : ListOp N → Prop
  | addFront anchor toAdd => anchor ∈ anchors ∧ ∀ a ∈ anchors, toAdd ∉ a :: st.seqs a
  | addBack anchor toAdd => anchor ∈ anchors ∧ ∀ a ∈ anchors, toAdd ∉ a :: st.seqs a
  | del toDel => toDel ∉ anchors ∧ ((∃ a ∈ anchors, toDel ∈ st.seqs a)
      ∨ (st.mem.next toDel = toDel ∧ st.mem.prev toDel = toDel))
  | move toMove anchor => anchor ∈ anchors ∧ ∃ a ∈ anchors, toMove ∈ st.seqs a

instance (anchors : List N) (st : ListSys N) (op : ListOp N) :
    Decidable (Proper anchors st op) :=
  match op with
  | addFront _ _ => inferInstanceAs (Decidable (_ ∧ _))
  | addBack _ _ => inferInstanceAs (Decidable (_ ∧ _))
  | del _ => inferInstanceAs (Decidable (_ ∧ _))
  | move _ _ => inferInstanceAs (Decidable (_ ∧ _))

end ListOp

namespace ListSys

open Links

variable {N : Type*} [DecidableEq N]

/-- The memory after `INIT_LIST` of all anchors and of some nodes, and the empty
sequences. -/
def init (m : Links N) (anchors nodes : List N) : ListSys N :=
  ⟨(anchors ++ nodes).foldl initList m, fun _ => []⟩

/-- **The anchor `a` heads a cycle through `l`**: following `next` from it meets `l` and
then the anchor, and on the cycle `prev` and `next` undo each other. -/
structure HeadsCycle (m : Links N) (a : N) (l : List N) : Prop where
  distinct : (a :: l).Nodup
  follows : ∀ i, i < l.length → l[i]? = some (m.next^[i + 1] a)
  closes : m.next^[l.length + 1] a = a
  stays : ∀ n ∈ a :: l, m.next n ∈ a :: l ∧ m.prev n ∈ a :: l
  inverse : ∀ n ∈ a :: l, m.prev (m.next n) = n ∧ m.next (m.prev n) = n

/-- **The memory represents the sequences**, at the given anchors. -/
structure Refined (anchors : List N) (st : ListSys N) : Prop where
  cycle : ∀ a ∈ anchors, HeadsCycle st.mem a (st.seqs a)
  disjoint : ∀ a ∈ anchors, ∀ b ∈ anchors, a ≠ b →
    List.Disjoint (a :: st.seqs a) (b :: st.seqs b)
  empty : ∀ a ∈ anchors, st.mem.listEmpty a = true ↔ st.seqs a = []
  del_del : ∀ n, (st.mem.listDel n).listDel n = st.mem.listDel n

/-- A list the call is not about stays as it is, and none of its nodes is written to. -/
def Framed (anchors : List N) (st : ListSys N) (op : ListOp N) : Prop :=
  ∀ a ∈ anchors, ¬ op.Concerns st.seqs a → op.apply st.seqs a = st.seqs a
    ∧ ∀ n ∈ a :: st.seqs a, (op.exec st.mem).next n = st.mem.next n
      ∧ (op.exec st.mem).prev n = st.mem.prev n

variable {m : Links N} {a : N} {l : List N} {anchors : List N} {st : ListSys N}

omit [DecidableEq N] in
theorem headsCycle_of_ring (h : m.Ring a l) : HeadsCycle m a l := by
  have hmirror : ∀ n ∈ a :: l, m.prev n ∈ a :: l ∧ m.next (m.prev n) = n := by
    intro n hn
    obtain ⟨hmem, hnext⟩ : m.prev n ∈ a :: l.reverse ∧ m.next (m.prev n) = n :=
      h.mirror.inverse (by simpa using hn)
    exact ⟨by simpa using hmem, hnext⟩
  refine ⟨h.nodup, fun i hi => ?_, ?_, fun n hn => ⟨(h.inverse hn).1, (hmirror n hn).1⟩,
    fun n hn => ⟨(h.inverse hn).2, (hmirror n hn).2⟩⟩
  · rw [← h.iterate_next (Nat.le_of_lt hi), List.getElem?_append_left hi]
  · have hlast := h.iterate_next (Nat.le_refl l.length)
    rw [List.getElem?_concat_length] at hlast
    exact (Option.some.inj hlast).symm

theorem refined_of_rings (h : st.mem.Rings {a | a ∈ anchors} st.seqs) : Refined anchors st := by
  refine ⟨fun a ha => headsCycle_of_ring (h.ring a ha), h.disjoint, fun a ha => ?_, fun n => ?_⟩
  · rw [listEmpty, decide_eq_true_iff]
    exact (h.ring a ha).next_anchor_eq_self
  · exact (ring_listDel_self st.mem n).listDel_eq_self

/-! ## One call -/

/-- To erase a node from all lists is to erase it from the one it is in. -/
theorem erase_eq_update (h : m.Rings {a | a ∈ anchors} st.seqs) {x : N} (ha : a ∈ anchors)
    (hx : x ∈ st.seqs a) {b : N} (hb : b ∈ anchors) :
    (st.seqs b).erase x = Function.update st.seqs a ((st.seqs a).erase x) b := by
  by_cases hba : b = a
  · rw [hba, Function.update_self]
  · rw [Function.update_of_ne hba]
    refine List.erase_of_not_mem fun hmem => hba ?_
    exact h.eq_of_mem hb ha (List.mem_cons_of_mem _ hmem) (List.mem_cons_of_mem _ hx)

/-- A node that is in a list of one of the anchors is erased from it, and from no
other. -/
theorem rings_del (h : st.mem.Rings {a | a ∈ anchors} st.seqs) {x : N} (ha : a ∈ anchors)
    (hx : x ∈ st.seqs a) :
    (st.mem.listDel x).Rings {a | a ∈ anchors} fun b => (st.seqs b).erase x :=
  (h.listDel ha hx).congr fun _ hb => erase_eq_update h ha hx hb

theorem unlinked_erase (h : st.mem.Rings {a | a ∈ anchors} st.seqs) {x : N} (ha : a ∈ anchors)
    (hx : x ∈ st.seqs a) :
    Unlinked {a | a ∈ anchors} (fun b => (st.seqs b).erase x) x := by
  intro b hb
  have hout := h.unlinked_erase ha hx b hb
  rwa [← erase_eq_update h ha hx hb] at hout

/-- **A call keeps the family of rings**, with the sequences it means. -/
theorem rings_step (h : st.mem.Rings {a | a ∈ anchors} st.seqs) {op : ListOp N}
    (hp : op.Proper anchors st) :
    (op.exec st.mem).Rings {a | a ∈ anchors} (op.apply st.seqs) := by
  cases op with
  | addFront a x => exact h.listAddFront hp.1 hp.2
  | addBack a x => exact h.listAddBack hp.1 hp.2
  | del x =>
    rcases hp.2 with ⟨a, ha, hx⟩ | hself
    · exact rings_del h ha hx
    · have hring : st.mem.Ring x [] := ring_nil.mpr hself
      show (st.mem.listDel x).Rings _ _
      rw [hring.listDel_eq_self]
      -- a node that points to itself is in no list
      refine h.congr fun b hb => List.erase_of_not_mem fun hmem => ?_
      exact (h.ring b hb).next_ne_self hmem hself.1
  | move x a =>
    obtain ⟨ha, b, hb, hx⟩ := hp
    exact (rings_del h hb hx).listAddFront ha (unlinked_erase h hb hx)

/-- `list_del` of a node that is in one of the lists, or points to itself, writes to no
node of another. -/
theorem framed_del (h : st.mem.Rings {a | a ∈ anchors} st.seqs) {x : N}
    (hx : (∃ a ∈ anchors, x ∈ st.seqs a) ∨ (st.mem.next x = x ∧ st.mem.prev x = x)) {b : N}
    (hb : b ∈ anchors) (hxb : x ∉ st.seqs b) {n : N} (hn : n ∈ b :: st.seqs b) :
    (st.mem.listDel x).next n = st.mem.next n ∧ (st.mem.listDel x).prev n = st.mem.prev n := by
  rcases hx with ⟨a, ha, hx⟩ | hself
  · exact h.listDel_of_ne ha hx hb (fun heq => hxb (heq ▸ hx)) hn
  · rw [(ring_nil.mpr hself).listDel_eq_self]
    exact ⟨rfl, rfl⟩

/-- **A call writes to no list it is not about.** -/
theorem framed_step (h : st.mem.Rings {a | a ∈ anchors} st.seqs) {op : ListOp N}
    (hp : op.Proper anchors st) : Framed anchors st op := by
  intro b hb hnot
  cases op with
  | addFront a x =>
    exact ⟨Function.update_of_ne hnot _ _, fun n hn => h.listAddFront_of_ne hp.1 hp.2 hb hnot hn⟩
  | addBack a x =>
    exact ⟨Function.update_of_ne hnot _ _, fun n hn => h.listAddBack_of_ne hp.1 hp.2 hb hnot hn⟩
  | del x => exact ⟨List.erase_of_not_mem hnot, fun n hn => framed_del h hp.2 hb hnot hn⟩
  | move x a =>
    obtain ⟨hba, hxb⟩ := not_or.mp hnot
    obtain ⟨ha, c, hc, hx⟩ := hp
    have herase : (st.seqs b).erase x = st.seqs b := List.erase_of_not_mem hxb
    refine ⟨by rw [ListOp.apply, Function.update_of_ne hba, herase], fun n hn => ?_⟩
    have hdel := framed_del h (.inl ⟨c, hc, hx⟩) hb hxb hn
    have hadd := (rings_del h hc hx).listAddFront_of_ne ha (unlinked_erase h hc hx) hb hba
      (n := n) (by rwa [herase])
    exact ⟨hadd.1.trans hdel.1, hadd.2.trans hdel.2⟩

/-! ## Whole runs -/

/-- `INIT_LIST` leaves a list empty, also one that was initialised before. -/
theorem ring_nil_foldl_initList (m : Links N) (ns : List N) {n : N} (hn : n ∈ ns) :
    (ns.foldl initList m).Ring n [] := by
  induction ns using List.reverseRecOn with
  | nil => exact nomatch hn
  | append_singleton ns n' ih =>
    rw [List.foldl_append]
    show ((ns.foldl initList m).initList n').Ring n []
    by_cases heq : n = n'
    · rw [heq]
      exact ring_initList _ n'
    · have hn' : n ∈ ns := by
        rcases List.mem_append.mp hn with hn | hn
        · exact hn
        · exact absurd (List.mem_singleton.mp hn) heq
      refine (ih hn').congr fun k hk => ?_
      rw [List.mem_singleton.mp hk]
      exact initList_of_ne heq

theorem rings_init (m : Links N) (anchors nodes : List N) :
    (init m anchors nodes).mem.Rings {a | a ∈ anchors} (init m anchors nodes).seqs := by
  refine ⟨fun a ha => ring_nil_foldl_initList m _ (List.mem_append_left _ ha),
    fun a _ b _ hab => ?_⟩
  exact List.disjoint_singleton.mpr fun hmem => hab (List.mem_singleton.mp hmem).symm

/-- **The lists refine sequences.** -/
theorem lists_refine_sequences (m : Links N) (anchors nodes : List N) (ops : List (ListOp N))
    (hops : Meets ListOp.step (ListOp.Proper anchors) (init m anchors nodes) ops) :
    Along ListOp.step (Refined anchors) (init m anchors nodes) ops
      ∧ Meets ListOp.step (Framed anchors) (init m anchors nodes) ops := by
  have hrings := rings_init m anchors nodes
  generalize init m anchors nodes = st at hops hrings
  induction ops generalizing st with
  | nil => exact ⟨refined_of_rings hrings, trivial⟩
  | cons op ops ih =>
    have hnext : ∀ st', op.step st = some st' → _ := fun st' hst' =>
      ih st' (hops.2 st' hst') (Option.some.inj hst' ▸ rings_step hrings hops.1)
    exact ⟨⟨refined_of_rings hrings, fun st' hst' => (hnext st' hst').1⟩,
      framed_step hrings hops.1, fun st' hst' => (hnext st' hst').2⟩

/-- Two anchors, in a memory where nothing is initialised: node `3` moves to the other list and
then to the front of that, and node `2` is deleted twice. -/
theorem lists_refine_sequences_two :
    let ops : List (ListOp ℕ) := [.addFront 0 2, .addBack 0 3, .addBack 1 4, .move 3 1,
      .move 3 1, .move 4 1, .del 2, .del 2]
    let st := init ⟨fun _ => 9, fun _ => 9⟩ [0, 1] [2]
    Meets ListOp.step (ListOp.Proper [0, 1]) st ops
      ∧ Along ListOp.step (Refined [0, 1]) st ops
      ∧ Meets ListOp.step (Framed [0, 1]) st ops := by
  intro ops st
  have hops : Meets ListOp.step (ListOp.Proper [0, 1]) st ops := by decide
  exact ⟨hops, lists_refine_sequences _ [0, 1] [2] ops hops⟩

end ListSys
