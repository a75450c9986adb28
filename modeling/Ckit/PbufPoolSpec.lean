import Ckit.ListSeq
import Ckit.PbufPool

/-!
# What the calls do to the two lists of the pool

Seen as sequences, the lists of the pool are `fl`, the entries that can be handed out, and
`ul`, those in use. `Split` says that the entries of an array are in one of them each, and
below is what every function of `pbuf.c` that touches the lists does to `fl` and `ul`. None
of it looks at the reference counts: an entry may be moved from either list, wherever it
is.
-/

open Links

namespace PbufPool

/-- The two anchors. -/
def anchors : List PoolNode := [.freeList, .useList]

/-- The sequences of nodes that `fl` and `ul` are. -/
def lists (fl ul : List PoolEntry) : PoolNode → List PoolNode
  | .freeList => fl.map .entry
  | .useList => ul.map .entry
  | .entry _ => []

/-- The lists of the pool are `fl` and `ul`. -/
def Holds (p : PbufPool) (fl ul : List PoolEntry) : Prop :=
  p.links.Rings {a | a ∈ anchors} (lists fl ul)

/-- **The entries of an array of `n`, split between the two lists.** -/
structure Split (p : PbufPool) (array n : ℕ) (fl ul : List PoolEntry) : Prop where
  holds : p.Holds fl ul
  mem : ∀ e, e ∈ fl ∨ e ∈ ul ↔ e.array = array ∧ e.index < n
  room : p.room array = n

variable {p : PbufPool} {array n : ℕ} {fl ul : List PoolEntry} {e : PoolEntry}

theorem entry_injective : Function.Injective PoolNode.entry := fun _ _ h => PoolNode.entry.inj h

theorem mem_map_entry {l : List PoolEntry} : PoolNode.entry e ∈ l.map .entry ↔ e ∈ l :=
  List.mem_map_of_injective entry_injective

theorem Holds.free (h : p.Holds fl ul) : p.links.Ring .freeList (fl.map .entry) :=
  h.ring .freeList List.mem_cons_self

theorem Holds.use (h : p.Holds fl ul) : p.links.Ring .useList (ul.map .entry) :=
  h.ring .useList (List.mem_cons_of_mem _ List.mem_cons_self)

theorem Holds.nodup_use (h : p.Holds fl ul) : ul.Nodup :=
  (List.nodup_cons.mp h.use.nodup).2.of_map _

/-- No entry is in both lists. -/
theorem Holds.notMem_use (h : p.Holds fl ul) (he : e ∈ fl) : e ∉ ul := by
  have hdisj : List.Disjoint (PoolNode.freeList :: fl.map .entry)
      (PoolNode.useList :: ul.map .entry) :=
    h.disjoint .freeList List.mem_cons_self .useList
      (List.mem_cons_of_mem _ List.mem_cons_self) (by decide)
  intro hu
  exact hdisj (List.mem_cons_of_mem _ (mem_map_entry.mpr he))
    (List.mem_cons_of_mem _ (mem_map_entry.mpr hu))

/-- The list an entry is in. -/
theorem exists_anchor (he : e ∈ fl ∨ e ∈ ul) :
    ∃ a ∈ anchors, PoolNode.entry e ∈ lists fl ul a := by
  rcases he with he | he
  · exact ⟨.freeList, List.mem_cons_self, mem_map_entry.mpr he⟩
  · exact ⟨.useList, List.mem_cons_of_mem _ List.mem_cons_self, mem_map_entry.mpr he⟩

/-- The nodes on the rings are allocated where the entries are. -/
theorem live_of_mem (hlive : ∀ e, e ∈ fl ∨ e ∈ ul → p.live (.entry e) = true) {a n : PoolNode}
    (ha : a ∈ anchors) (hn : n ∈ a :: lists fl ul a) : p.live n = true := by
  unfold anchors at ha
  rcases List.mem_cons.mp hn with rfl | hn
  · rcases List.mem_cons.mp ha with rfl | ha
    · rfl
    · rw [List.mem_singleton.mp ha]
      rfl
  · rcases List.mem_cons.mp ha with rfl | ha
    · obtain ⟨e, he, rfl⟩ := List.mem_map.mp hn
      exact hlive e (.inl he)
    · rw [List.mem_singleton.mp ha] at hn
      obtain ⟨e, he, rfl⟩ := List.mem_map.mp hn
      exact hlive e (.inr he)

/-- Moving an entry goes to no node that is not on one of the rings. -/
theorem Holds.move_eq (h : p.Holds fl ul)
    (hlive : ∀ e, e ∈ fl ∨ e ∈ ul → p.live (.entry e) = true) (he : e ∈ fl ∨ e ∈ ul)
    {a : PoolNode} (ha : a ∈ anchors) :
    p.move (.entry e) a = some { p with links := p.links.listMove (.entry e) a } := by
  obtain ⟨b, hb, hmem⟩ := exists_anchor he
  have hstays := (ListSys.headsCycle_of_ring (h.ring b hb)).stays _ (List.mem_cons_of_mem _ hmem)
  let st : ListSys PoolNode := ⟨p.links, lists fl ul⟩
  have hst : st.mem.Rings {a | a ∈ anchors} st.seqs := h
  have hdel := ListSys.rings_del hst hb hmem
  have hnext : (p.links.listDel (.entry e)).next a ∈ a :: lists fl ul a := by
    rcases List.mem_cons.mp (hdel.ring a ha).next_anchor_mem with heq | hin
    · exact List.mem_cons.mpr (.inl heq)
    · exact List.mem_cons_of_mem _ (List.mem_of_mem_erase hin)
  refine if_pos (List.all_eq_true.mpr fun n hn => ?_)
  simp only [List.mem_cons, List.not_mem_nil, or_false] at hn
  rcases hn with rfl | rfl | rfl | rfl | rfl
  · exact hlive e he
  · exact live_of_mem hlive hb hstays.2
  · exact live_of_mem hlive hb hstays.1
  · exact live_of_mem hlive ha List.mem_cons_self
  · exact live_of_mem hlive ha hnext

/-- The lists after a move. -/
theorem Holds.listMove (h : p.Holds fl ul) (he : e ∈ fl ∨ e ∈ ul) {a : PoolNode}
    (ha : a ∈ anchors) :
    (p.links.listMove (.entry e) a).Rings {a | a ∈ anchors}
      (ListOp.apply (lists fl ul) (.move (.entry e) a)) := by
  let st : ListSys PoolNode := ⟨p.links, lists fl ul⟩
  have hst : st.mem.Rings {a | a ∈ anchors} st.seqs := h
  have hop : ListOp.Proper anchors st (.move (.entry e) a) := ⟨ha, exists_anchor he⟩
  exact ListSys.rings_step hst hop

theorem Split.live (h : p.Split array n fl ul) (e : PoolEntry) (he : e ∈ fl ∨ e ∈ ul) :
    p.live (.entry e) = true := by
  obtain ⟨harray, hindex⟩ := (h.mem e).mp he
  refine decide_eq_true ?_
  rw [harray, h.room]
  exact hindex

/-! ## Allocating and freeing -/

/-- The move of an entry to the list of those that can be handed out. -/
theorem Holds.move_free (h : p.Holds fl ul) (he : e ∈ fl ∨ e ∈ ul) :
    Holds { p with links := p.links.listMove (.entry e) .freeList } (e :: fl.erase e)
      (ul.erase e) := by
  refine (h.listMove he List.mem_cons_self).congr fun a ha => ?_
  rcases List.mem_cons.mp ha with rfl | ha
  · rw [ListOp.apply, Function.update_self, lists, lists, List.map_cons,
      List.map_erase entry_injective]
  · rw [List.mem_singleton.mp ha, ListOp.apply, Function.update_of_ne (by decide), lists, lists,
      List.map_erase entry_injective]

/-- The move of an entry to the list of those in use. -/
theorem Holds.move_use (h : p.Holds fl ul) (he : e ∈ fl ∨ e ∈ ul) :
    Holds { p with links := p.links.listMove (.entry e) .useList } (fl.erase e)
      (e :: ul.erase e) := by
  refine (h.listMove he (List.mem_cons_of_mem _ List.mem_cons_self)).congr fun a ha => ?_
  rcases List.mem_cons.mp ha with rfl | ha
  · rw [ListOp.apply, Function.update_of_ne (by decide), lists, lists,
      List.map_erase entry_injective]
  · rw [List.mem_singleton.mp ha, ListOp.apply, Function.update_self, lists, lists, List.map_cons,
      List.map_erase entry_injective]

/-- The split after a change that keeps the entries and the array. -/
theorem Split.rearrange (h : p.Split array n fl ul) {p' : PbufPool} {fl' ul' : List PoolEntry}
    (hholds : p'.Holds fl' ul') (hmem : ∀ e, e ∈ fl' ∨ e ∈ ul' ↔ e ∈ fl ∨ e ∈ ul)
    (hroom : p'.room = p.room) : p'.Split array n fl' ul' :=
  ⟨hholds, fun e => (hmem e).trans (h.mem e), hroom ▸ h.room⟩

/-- **`pbuf_alloc` with no entry left.** -/
theorem Split.allocSection_nil (h : p.Split array n [] ul) (size : ℕ) :
    p.allocSection size = some (none, p) := by
  have hempty : p.links.listEmpty .freeList = true :=
    decide_eq_true (h.holds.free.next_anchor_eq_self.mpr rfl)
  rw [allocSection, if_pos hempty]

/-- The pool after `pbuf_alloc` has handed out `e`. -/
def handOut (p : PbufPool) (e : PoolEntry) (size : ℕ) : PbufPool :=
  setPbuf { p with links := p.links.listMove (.entry e) .useList } e
    { pbufInit size with allocLen := size }

/-- **`pbuf_alloc` hands out the first entry.** -/
theorem Split.allocSection_cons (h : p.Split array n (e :: fl) ul) (size : ℕ) :
    p.allocSection size = some (some e, p.handOut e size)
      ∧ (p.handOut e size).Split array n fl (e :: ul) := by
  have hnext : p.links.next .freeList = .entry e := (Option.some.inj h.holds.free.next_anchor).symm
  have hempty : p.links.listEmpty .freeList = false := by
    refine decide_eq_false fun heq => ?_
    exact absurd (h.holds.free.next_anchor_eq_self.mp heq) (List.cons_ne_nil _ _)
  have he : e ∈ e :: fl ∨ e ∈ ul := .inl List.mem_cons_self
  have hmove := h.holds.move_eq h.live he (a := .useList)
    (List.mem_cons_of_mem _ List.mem_cons_self)
  constructor
  · rw [allocSection, hempty, if_neg Bool.false_ne_true, hnext]
    dsimp only
    rw [hmove]
    rfl
  · have hholds := h.holds.move_use he
    have heu : e ∉ ul := h.holds.notMem_use List.mem_cons_self
    rw [List.erase_cons_head, List.erase_of_not_mem heu] at hholds
    refine h.rearrange hholds (fun e' => ?_) rfl
    rw [List.mem_cons, List.mem_cons]
    tauto

/-- The pool after the locked part of `pbuf_free`. -/
def takeBack (p : PbufPool) (e : PoolEntry) : PbufPool :=
  { p with links := p.links.listMove (.entry e) .freeList }

/-- **The locked part of `pbuf_free`** puts the entry first, wherever it was. -/
theorem Split.freeSection_eq (h : p.Split array n fl ul) (he : e ∈ fl ∨ e ∈ ul) :
    p.freeSection e = some (p.takeBack e)
      ∧ (p.takeBack e).Split array n (e :: fl.erase e) (ul.erase e) := by
  refine ⟨h.holds.move_eq h.live he List.mem_cons_self,
    h.rearrange (h.holds.move_free he) (fun e' => ?_) rfl⟩
  by_cases hee : e' = e
  · subst hee
    exact iff_of_true (.inl List.mem_cons_self) he
  · rw [List.mem_cons, List.mem_erase_of_ne hee, List.mem_erase_of_ne hee]
    tauto

/-- Only the lists and the room of the array are read off a pool. -/
theorem Split.of_links (h : p.Split array n fl ul) {p' : PbufPool} (hlinks : p'.links = p.links)
    (hroom : p'.room = p.room) : p'.Split array n fl ul :=
  ⟨by unfold Holds; rw [hlinks]; exact h.holds, h.mem, hroom ▸ h.room⟩

@[simp] theorem setPbuf_self (p : PbufPool) (e : PoolEntry) (pb : Pbuf) :
    (p.setPbuf e pb).pbuf e = pb :=
  Function.update_self ..

theorem setPbuf_of_ne (p : PbufPool) {e e' : PoolEntry} (pb : Pbuf) (he : e' ≠ e) :
    (p.setPbuf e pb).pbuf e' = p.pbuf e' :=
  Function.update_of_ne he _ _

/-- No buffer has any payload, as long as nobody puts some there. -/
def Blank (p : PbufPool) : Prop := ∀ e, (p.pbuf e).len = 0 ∧ (p.pbuf e).tail = 0

theorem Blank.setPbuf (h : p.Blank) {pb : Pbuf} (hpb : pb.len = 0 ∧ pb.tail = 0)
    (e : PoolEntry) : (p.setPbuf e pb).Blank := by
  intro e'
  by_cases he : e' = e
  · rw [he, setPbuf_self]
    exact hpb
  · rw [setPbuf_of_ne _ _ he]
    exact h e'

theorem Blank.setRefcount (h : p.Blank) (e : PoolEntry) (refcount : ℤ) :
    (p.setRefcount e refcount).Blank := by
  have hpb : ({ p.pbuf e with refcount := refcount } : Pbuf).len = 0
      ∧ ({ p.pbuf e with refcount := refcount } : Pbuf).tail = 0 := h e
  exact h.setPbuf hpb e

/-! ## Setting up -/

/-- An entry that is in neither list. -/
theorem unlinked_entry (hfl : e ∉ fl) (hul : e ∉ ul) :
    Unlinked {a | a ∈ anchors} (lists fl ul) (.entry e) := by
  intro a ha hmem
  rcases List.mem_cons.mp ha with rfl | ha
  · rcases List.mem_cons.mp hmem with heq | hmem
    · exact nomatch heq
    · exact hfl (mem_map_entry.mp hmem)
  · rw [List.mem_singleton.mp ha] at hmem
    rcases List.mem_cons.mp hmem with heq | hmem
    · exact nomatch heq
    · exact hul (mem_map_entry.mp hmem)

/-- An entry is appended, where the last one before it is still allocated. -/
theorem Holds.addBack_eq (h : p.Holds fl ul) (hlive : ∀ e ∈ fl, p.live (.entry e) = true)
    (he : p.live (.entry e) = true) (hfl : e ∉ fl) (hul : e ∉ ul) :
    ∃ links, p.addBack .freeList (.entry e) = some { p with links := links }
      ∧ Holds { p with links := links } (fl ++ [e]) ul := by
  refine ⟨p.links.listAddBack .freeList (.entry e), ?_, ?_⟩
  · have hstays := (ListSys.headsCycle_of_ring h.free).stays _ List.mem_cons_self
    have hlast : p.live (p.links.prev .freeList) = true := by
      rcases List.mem_cons.mp hstays.2 with heq | hmem
      · rw [heq]
        rfl
      · obtain ⟨e', he', heq⟩ := List.mem_map.mp hmem
        rw [← heq]
        exact hlive e' he'
    refine if_pos (List.all_eq_true.mpr fun n hn => ?_)
    simp only [List.mem_cons, List.not_mem_nil, or_false] at hn
    rcases hn with rfl | rfl | rfl
    · exact he
    · rfl
    · exact hlast
  · have hadd := Rings.listAddBack h (a := .freeList) List.mem_cons_self (unlinked_entry hfl hul)
    refine hadd.congr fun a ha => ?_
    rcases List.mem_cons.mp ha with rfl | ha
    · rw [Function.update_self, lists, lists, List.map_append, List.map_singleton]
    · rw [List.mem_singleton.mp ha, Function.update_of_ne (by decide)]
      rfl

/-- The first `m` entries of an array. -/
def firstEntries (array m : ℕ) : List PoolEntry := (List.range m).map (PoolEntry.mk array)

theorem mem_firstEntries {m : ℕ} : e ∈ firstEntries array m ↔ e.array = array ∧ e.index < m := by
  unfold firstEntries
  rw [List.mem_map]
  constructor
  · rintro ⟨i, hi, rfl⟩
    exact ⟨rfl, List.mem_range.mp hi⟩
  · rintro ⟨rfl, hi⟩
    exact ⟨e.index, List.mem_range.mpr hi, rfl⟩

/-- **The loop of `pbuf_pool_init`** appends the entries of a new array to what is in the
list already, where that is still allocated. -/
theorem Holds.initLoop_eq (h : p.Holds fl ul) (hroom : p.room array = n)
    (hnew : ∀ e, e ∈ fl ∨ e ∈ ul → e.array ≠ array)
    (hlive : ∀ e ∈ fl, p.live (.entry e) = true) {m : ℕ} (hm : m ≤ n) :
    ∃ links, initLoop array p m = some { p with links := links }
      ∧ Holds { p with links := links } (fl ++ firstEntries array m) ul := by
  have hin : ∀ i, i < n → p.live (.entry ⟨array, i⟩) = true := fun i hi =>
    decide_eq_true (hroom ▸ hi : i < p.room array)
  induction m with
  | zero => exact ⟨p.links, rfl, by rwa [firstEntries, List.range_zero, List.map_nil,
      List.append_nil]⟩
  | succ m ih =>
    obtain ⟨links, heq, hholds⟩ := ih (Nat.le_of_succ_le hm)
    have hfl : (⟨array, m⟩ : PoolEntry) ∉ fl ++ firstEntries array m := by
      intro hmem
      rcases List.mem_append.mp hmem with hmem | hmem
      · exact hnew _ (.inl hmem) rfl
      · exact Nat.lt_irrefl m (mem_firstEntries.mp hmem).2
    obtain ⟨links', hadd, hholds'⟩ := hholds.addBack_eq
      (fun e he => (List.mem_append.mp he).elim (hlive e) fun he => by
        obtain ⟨rfl, hi⟩ := mem_firstEntries.mp he
        exact hin e.index (Nat.lt_trans hi hm))
      (hin m hm) hfl fun hmem => hnew _ (.inr hmem) rfl
    refine ⟨links', ?_, ?_⟩
    · rw [initLoop, List.range_succ, List.foldlM_append]
      show (initLoop array p m).bind _ = _
      rw [heq, Option.bind_some, List.foldlM_cons, hadd]
      rfl
    · rwa [firstEntries, List.range_succ, List.map_append, List.map_singleton,
        ← List.append_assoc]

theorem poolSize_eq (size : ℕ) : poolSize size = max size 20 := by
  unfold poolSize minPoolSize
  split
  · omega
  · omega

/-- The pool as the program starts with it. -/
def start : PbufPool := ⟨⟨id, id⟩, fun _ => .zero, none, 0, fun _ => 0⟩

theorem start_holds : start.Holds [] [] := by
  refine ⟨fun a ha => ?_, fun a ha b hb hab => ?_⟩
  · rcases List.mem_cons.mp ha with rfl | ha
    · exact ring_nil.mpr ⟨rfl, rfl⟩
    · rw [List.mem_singleton.mp ha]
      exact ring_nil.mpr ⟨rfl, rfl⟩
  · rcases List.mem_cons.mp ha with rfl | ha
    · rcases List.mem_cons.mp hb with rfl | hb
      · exact absurd rfl hab
      · rw [List.mem_singleton.mp hb]
        exact List.disjoint_singleton.mpr (by decide)
    · rw [List.mem_singleton.mp ha]
      rcases List.mem_cons.mp hb with rfl | hb
      · exact List.disjoint_singleton.mpr (by decide)
      · exact absurd ((List.mem_singleton.mp ha).trans (List.mem_singleton.mp hb).symm) hab

/-- **`pbuf_pool_init` with both lists empty.** -/
theorem Holds.pbufPoolInit_eq (h : p.Holds [] []) (size : ℕ) :
    ∃ links, p.pbufPoolInit size true
        = some (0, { p.allocated (poolSize size) with links := links })
      ∧ Split { p.allocated (poolSize size) with links := links } p.arrays (poolSize size)
        (firstEntries p.arrays (poolSize size)) [] := by
  have hroom : (p.allocated (poolSize size)).room p.arrays = poolSize size :=
    Function.update_self ..
  have hempty : (p.allocated (poolSize size)).Holds [] [] := h
  obtain ⟨links, heq, hholds⟩ := hempty.initLoop_eq hroom (fun e he => absurd he (by simp))
    (fun e he => nomatch he) (Nat.le_refl _)
  refine ⟨links, ?_, hholds, fun e => ?_, hroom⟩
  · rw [pbufPoolInit, if_pos rfl, heq]
    rfl
  · rw [mem_firstEntries]
    simp

end PbufPool
