import Mathlib.Data.List.Basic
import Mathlib.Order.Basic
import Mathlib.Tactic.Common

/-!
# Cells that are read and written in blocks

A memory is a function from offsets to cells. A block of it is read as a list, and a list is
written over the cells from an offset on. A read splits where its range is split, gives back
what was written, and does not see a write to cells outside its range. Of a block
that a write overlaps, what comes before the write stays (`spared`).
-/

namespace Cells

variable {α : Type*} {m m' : ℕ → α} {pos n k : ℕ} {xs : List α}

/-- The `n` cells from `pos` on. -/
def read (m : ℕ → α) (pos n : ℕ) : List α := (List.range n).map fun k => m (pos + k)

/-- The cells of `xs`, written from `pos` on. -/
def write (m : ℕ → α) (pos : ℕ) (xs : List α) : ℕ → α := fun j =>
  if pos ≤ j then xs[j - pos]?.getD (m j) else m j

@[simp] theorem length_read (m : ℕ → α) (pos n : ℕ) : (read m pos n).length = n := by
  rw [read, List.length_map, List.length_range]

@[simp] theorem getElem_read (h : k < (read m pos n).length) : (read m pos n)[k] = m (pos + k) := by
  simp only [read, List.getElem_map, List.getElem_range]

/-- Two reads agree where the cells do. -/
theorem read_congr (h : ∀ k < n, m (pos + k) = m' (pos + k)) : read m pos n = read m' pos n :=
  List.map_congr_left fun k hk => h k (List.mem_range.mp hk)

/-- **A read splits** where its range does. -/
theorem read_add (m : ℕ → α) (pos n k : ℕ) :
    read m pos (n + k) = read m pos n ++ read m (pos + n) k := by
  unfold read
  rw [List.range_add, List.map_append, List.map_map]
  congr 1
  exact List.map_congr_left fun j _ => by rw [Function.comp_apply, Nat.add_assoc]

theorem drop_read (h : k ≤ n) : (read m pos n).drop k = read m (pos + k) (n - k) := by
  have hsplit := read_add m pos k (n - k)
  rw [Nat.add_sub_cancel' h] at hsplit
  rw [hsplit, List.drop_left' (length_read m pos k)]

theorem take_read (h : k ≤ n) : (read m pos n).take k = read m pos k := by
  have hsplit := read_add m pos k (n - k)
  rw [Nat.add_sub_cancel' h] at hsplit
  rw [hsplit, List.take_left' (length_read m pos k)]

theorem write_of_lt (m : ℕ → α) (xs : List α) (h : k < pos) : write m pos xs k = m k :=
  if_neg (Nat.not_le.mpr h)

theorem write_of_ge (m : ℕ → α) (h : pos + xs.length ≤ k) : write m pos xs k = m k := by
  rw [write, if_pos (by omega), List.getElem?_eq_none (by omega), Option.getD_none]

theorem write_add (m : ℕ → α) (pos : ℕ) (h : k < xs.length) : write m pos xs (pos + k) = xs[k] := by
  rw [write, if_pos (Nat.le_add_right pos k), Nat.add_sub_cancel_left, List.getElem?_eq_getElem h,
    Option.getD_some]

@[simp] theorem write_nil (m : ℕ → α) (pos : ℕ) : write m pos [] = m := by
  funext j
  exact ite_self _

/-- The first cell can be written before the others. -/
theorem write_cons (m : ℕ → α) (pos : ℕ) (x : α) (xs : List α) :
    write m pos (x :: xs) = write (Function.update m pos x) (pos + 1) xs := by
  funext j
  by_cases hlt : j < pos
  · rw [write_of_lt m _ hlt, write_of_lt _ _ (by omega), Function.update_of_ne (Nat.ne_of_lt hlt)]
  · obtain ⟨k, rfl⟩ := Nat.exists_eq_add_of_le (Nat.not_lt.mp hlt)
    cases k with
    | zero =>
      have hpos : ¬ pos + 1 ≤ pos := by omega
      simp [write, hpos]
    | succ k =>
      have hsub : pos + (k + 1) - (pos + 1) = k := by omega
      simp [write, hsub]

/-- **A read gives back what was written.** -/
theorem read_write (m : ℕ → α) (pos : ℕ) (xs : List α) :
    read (write m pos xs) pos xs.length = xs := by
  refine List.ext_getElem (length_read _ _ _) fun k hk hk' => ?_
  rw [getElem_read, write_add m pos hk']

/-- **A read does not see a write** to cells outside its range. -/
theorem read_write_of_disjoint (m : ℕ → α) {p : ℕ} (h : pos + n ≤ p ∨ p + xs.length ≤ pos) :
    read (write m p xs) pos n = read m pos n := by
  refine read_congr fun k hk => ?_
  rcases h with h | h
  · exact write_of_lt m xs (by omega)
  · exact write_of_ge m (by omega)

/-- **A block that was copied** reads as it does where it came from. -/
theorem read_write_read (m m' : ℕ → α) (src dst : ℕ) {size : ℕ} (h : k + n ≤ size) :
    read (write m dst (read m' src size)) (dst + k) n = read m' (src + k) n := by
  have hlen : (read m' src size).length = size := length_read m' src size
  have hall := read_write m dst (read m' src size)
  rw [hlen] at hall
  have hpart := congrArg (fun xs => (xs.drop k).take n) hall
  rwa [drop_read (by omega), take_read (by omega), drop_read (by omega), take_read (by omega)]
    at hpart

/-- A block that is there is there as far as it goes. -/
theorem read_take (h : read m pos xs.length = xs) (k : ℕ) :
    read m pos (xs.take k).length = xs.take k := by
  rw [List.length_take, ← take_read (Nat.min_le_right k xs.length), h, ← List.take_eq_take_min]

/-- What a write of `n` cells from `p` on leaves of a block at `pos`: the whole block, or what of
it is before the write. -/
def spared (xs : List α) (pos p n : ℕ) : List α :=
  if n = 0 ∨ p + n ≤ pos then xs else xs.take (p - pos)

theorem length_spared_le (xs : List α) (pos p n : ℕ) : (spared xs pos p n).length ≤ xs.length := by
  unfold spared
  split
  · exact Nat.le_refl _
  · exact List.length_take_le' ..

/-- **What a write leaves of a block is still there.** -/
theorem read_spared {ys : List α} {p : ℕ} (h : read m pos xs.length = xs) :
    read (write m p ys) pos (spared xs pos p ys.length).length = spared xs pos p ys.length := by
  unfold spared
  split
  · next haside =>
    have hsame : read (write m p ys) pos xs.length = read m pos xs.length := by
      refine read_congr fun k _ => ?_
      by_cases hk : pos + k < p
      · exact write_of_lt m ys hk
      · exact write_of_ge m (by omega)
    rw [hsame, h]
  · have hsame : read (write m p ys) pos (xs.take (p - pos)).length
        = read m pos (xs.take (p - pos)).length := by
      refine read_congr fun k hk => ?_
      have hle := List.length_take_le (p - pos) xs
      exact write_of_lt m ys (by omega)
    rw [hsame, read_take h]

end Cells
