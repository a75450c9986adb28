import Mathlib.Data.Nat.Find
import Ckit.Rbtree

/-!
# `rb_tree_insert`

The entry point of `rbtree.h` copies the key and the value into buffers of its own, and is to
insert the copies with `_rb_tree_insert`. The call at its end has lost the underscore: it
calls itself, with the copies in place of what it was given. So it copies the copies, and
never comes to the tree. It returns only where `malloc` fails, and then `-1`.

Keys and values are buffers here, a length and an address, as in `rb_key_t` and `rb_value_t`,
and the comparison reads their bytes.
-/

/-- `rb_key_t` and `rb_value_t`. -/
structure Buffer (A : Type) where
  len : ℕ
  data : A
deriving DecidableEq, Repr

/-- `struct rb_tree`, with the memory of the nodes and of the buffers. -/
structure ByteTree (A P : Type) where
  root : Option P
  keyCompare : (A → List UInt8) → Buffer A → Buffer A → ℤ
  node : P → RbNode P (Buffer A) (Buffer A)
  log : List (P × Buffer A × Buffer A)
  bytes : A → List UInt8

/-- What the calls of `malloc` return: for the copies, one after the other, and for the node. -/
structure Mallocs (A P : Type) where
  copy : ℕ → Option A
  node : Option P

/-- **No call of `malloc` fails.** -/
def Mallocs.Succeed {A P : Type} (m : Mallocs A P) : Prop :=
  (∀ i, m.copy i ≠ none) ∧ m.node ≠ none

namespace ByteTree

variable {A P : Type} [DecidableEq A] [DecidableEq P] {s s' : ByteTree A P} {m : Mallocs A P}

/-- The tree alone. -/
def toRbTree (s : ByteTree A P) : RbTree P (Buffer A) (Buffer A) :=
  ⟨s.root, s.keyCompare s.bytes, s.node, s.log⟩

/-- `_rb_tree_insert`, which does not write to the buffers. -/
def rawInsert (fuel : ℕ) (s : ByteTree A P) (key val : Buffer A) (alloc : Option P) :
    Option (ℤ × ByteTree A P) :=
  (s.toRbTree.rbTreeInsert fuel key val alloc).map fun r =>
    (r.1, { s with root := r.2.root, node := r.2.node, log := r.2.log })

/-- `memcpy` of `len` bytes to a buffer of that size. -/
def memcpy (s : ByteTree A P) (dst src : A) (len : ℕ) : ByteTree A P :=
  { s with bytes := Function.update s.bytes dst ((s.bytes src).take len) }

/-- `rb_tree_insert`, which has called `malloc` `count` times. With its return value, how often
it has called `malloc`. -/
def rbTreeInsert (m : Mallocs A P) : ℕ → ByteTree A P → ℕ → Buffer A → Buffer A →
    Option (ℤ × ℕ × ByteTree A P)
  | 0, _, _, _, _ => none
  | fuel + 1, s, count, key, val =>
    match m.copy count with
    | none => some (-1, count + 1, s)
    | some keyCopy =>
      match m.copy (count + 1) with
      | none => some (-1, count + 2, s)
      | some valCopy =>
        let s := s.memcpy keyCopy key.data key.len
        let s := s.memcpy valCopy val.data val.len
        rbTreeInsert m fuel s (count + 2) ⟨key.len, keyCopy⟩ ⟨val.len, valCopy⟩

/-- **The insertion inserts copies.** It returns, and where no call of `malloc` fails it has done
what `_rb_tree_insert` does with a copy of the key and a copy of the value, so that the new node
does not refer to what the caller passed. -/
def InsertsCopies (m : Mallocs A P) (s : ByteTree A P) (key val : Buffer A) : Prop :=
  ∃ fuel ret count s', s.rbTreeInsert m fuel 0 key val = some (ret, count, s')
    ∧ (m.Succeed → ∃ keyCopy valCopy n fuel', m.copy 0 = some keyCopy
      ∧ m.copy 1 = some valCopy ∧ m.node = some n
      ∧ ((s.memcpy keyCopy key.data key.len).memcpy valCopy val.data val.len).rawInsert fuel'
          ⟨key.len, keyCopy⟩ ⟨val.len, valCopy⟩ m.node = some (ret, s')
      ∧ (s'.node n).key.data ≠ key.data ∧ (s'.node n).val.data ≠ val.data)

omit [DecidableEq P] in
/-- One round, where both copies are made. -/
theorem rbTreeInsert_succ {count : ℕ} {keyCopy valCopy : A} (hkey : m.copy count = some keyCopy)
    (hval : m.copy (count + 1) = some valCopy) (fuel : ℕ) (s : ByteTree A P) (key val : Buffer A) :
    s.rbTreeInsert m (fuel + 1) count key val
      = ((s.memcpy keyCopy key.data key.len).memcpy valCopy val.data val.len).rbTreeInsert m fuel
        (count + 2) ⟨key.len, keyCopy⟩ ⟨val.len, valCopy⟩ := by
  rw [rbTreeInsert, hkey]
  dsimp only
  rw [hval]

omit [DecidableEq P] in
/-- **While `malloc` succeeds it does not return**, however long it runs. -/
theorem rbTreeInsert_never (hall : ∀ i, m.copy i ≠ none) (fuel : ℕ) (s : ByteTree A P)
    (count : ℕ) (key val : Buffer A) : s.rbTreeInsert m fuel count key val = none := by
  induction fuel generalizing s count key val with
  | zero => rfl
  | succ fuel ih =>
    obtain ⟨keyCopy, hkey⟩ := Option.ne_none_iff_exists'.mp (hall count)
    obtain ⟨valCopy, hval⟩ := Option.ne_none_iff_exists'.mp (hall (count + 1))
    rw [rbTreeInsert_succ hkey hval]
    exact ih _ _ _ _

/-- The two trees have the same nodes, and differ in the buffers only. -/
structure SameTree (s s' : ByteTree A P) : Prop where
  root : s'.root = s.root
  node : s'.node = s.node
  log : s'.log = s.log

omit [DecidableEq P] in
/-- **Where `malloc` fails it gives up**: at the first failure it returns `-1`, with the tree as
it was. -/
theorem rbTreeInsert_fails (k count : ℕ) (hfail : m.copy (count + k) = none)
    (hfirst : ∀ i < k, m.copy (count + i) ≠ none) (s : ByteTree A P) (key val : Buffer A) :
    ∃ s', s.rbTreeInsert m (k / 2 + 1) count key val = some (-1, count + k + 1, s')
      ∧ SameTree s s' := by
  induction k using Nat.strongRecOn generalizing s count key val with
  | ind k ih =>
    match k with
    | 0 =>
      refine ⟨s, ?_, rfl, rfl, rfl⟩
      rw [rbTreeInsert, show m.copy count = none from hfail]
    | 1 =>
      obtain ⟨keyCopy, hkey⟩ := Option.ne_none_iff_exists'.mp (hfirst 0 Nat.one_pos)
      refine ⟨s, ?_, rfl, rfl, rfl⟩
      rw [rbTreeInsert, show m.copy count = some keyCopy from hkey]
      dsimp only
      rw [hfail]
    | k + 2 =>
      obtain ⟨keyCopy, hkey⟩ := Option.ne_none_iff_exists'.mp (hfirst 0 (by omega))
      obtain ⟨valCopy, hval⟩ := Option.ne_none_iff_exists'.mp (hfirst 1 (by omega))
      have hfail' : m.copy (count + 2 + k) = none := by
        rw [← hfail, Nat.add_right_comm, Nat.add_assoc]
      have hfirst' : ∀ i < k, m.copy (count + 2 + i) ≠ none := by
        intro i hi
        have := hfirst (i + 2) (by omega)
        rwa [← Nat.add_assoc, Nat.add_right_comm] at this
      obtain ⟨s', hrun, hsame⟩ := ih k (by omega) (count + 2) hfail' hfirst'
        ((s.memcpy keyCopy key.data key.len).memcpy valCopy val.data val.len)
        ⟨key.len, keyCopy⟩ ⟨val.len, valCopy⟩
      refine ⟨s', ?_, hsame.root, hsame.node, hsame.log⟩
      rw [show (k + 2) / 2 + 1 = k / 2 + 1 + 1 by omega,
        rbTreeInsert_succ (show m.copy count = some keyCopy from hkey) hval, hrun,
        show count + 2 + k + 1 = count + (k + 2) + 1 by omega]

/-- **`rb_tree_insert` returns exactly where it can make no copy.** Where it can make all that it
asks for, it should have inserted one, and asks for more instead. -/
theorem rb_tree_insert_copies_iff (m : Mallocs A P) (s : ByteTree A P) (key val : Buffer A) :
    InsertsCopies m s key val ↔ ∃ i, m.copy i = none := by
  constructor
  · rintro ⟨fuel, ret, count, s', hrun, -⟩
    by_contra hall
    rw [rbTreeInsert_never (fun i hi => hall ⟨i, hi⟩)] at hrun
    exact nomatch hrun
  · intro hex
    obtain ⟨k, hk, hfirst⟩ : ∃ k, m.copy k = none ∧ ∀ i < k, m.copy i ≠ none := by
      classical
      exact ⟨Nat.find hex, Nat.find_spec hex, fun i hi => Nat.find_min hex hi⟩
    obtain ⟨s', hrun, -⟩ := rbTreeInsert_fails k 0 (by rwa [Nat.zero_add])
      (fun i hi => by rw [Nat.zero_add]; exact hfirst i hi) s key val
    exact ⟨_, _, _, s', hrun, fun hall => absurd hk (hall.1 k)⟩

/-- An empty tree, and three bytes at the address `0`. -/
def threeBytes : ByteTree ℕ ℕ :=
  ⟨none, fun bytes a b => ((bytes a.data).length : ℤ) - (bytes b.data).length,
    fun _ => ⟨⟨.black, none, none, none⟩, ⟨0, 0⟩, ⟨0, 0⟩⟩, [], fun _ => [1, 2, 3]⟩

/-- **Memory without end**: inserting three bytes under themselves never returns, whereas
`_rb_tree_insert` of two copies returns `1`. -/
theorem rb_tree_insert_diverges :
    let m : Mallocs ℕ ℕ := ⟨fun i => some (i + 1), some 7⟩
    m.Succeed
      ∧ (∀ fuel, threeBytes.rbTreeInsert m fuel 0 ⟨3, 0⟩ ⟨3, 0⟩ = none)
      ∧ (∃ s', ((threeBytes.memcpy 1 0 3).memcpy 2 0 3).rawInsert 1 ⟨3, 1⟩ ⟨3, 2⟩ m.node
        = some (1, s'))
      ∧ ¬ InsertsCopies m threeBytes ⟨3, 0⟩ ⟨3, 0⟩ := by
  intro m
  have hall : ∀ i, m.copy i ≠ none := fun i => Option.some_ne_none (i + 1)
  have hnever : ∀ fuel, threeBytes.rbTreeInsert m fuel 0 ⟨3, 0⟩ ⟨3, 0⟩ = none :=
    fun fuel => rbTreeInsert_never hall fuel threeBytes 0 ⟨3, 0⟩ ⟨3, 0⟩
  refine ⟨⟨hall, Option.some_ne_none 7⟩, hnever, ⟨_, rfl⟩, ?_⟩
  rintro ⟨fuel, ret, count, s', hrun, -⟩
  rw [hnever fuel] at hrun
  exact nomatch hrun

end ByteTree
