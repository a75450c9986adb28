import Mathlib.Data.List.Nodup
import Mathlib.Data.List.Perm.Basic
import Mathlib.Logic.Function.Basic

/-!
# Ledgers of allocated blocks

What is allocated, and what has been given back, in its order. A block can be given back
only while it is allocated (`Ledger.free`), so that giving one back twice has no outcome,
and neither has giving back what was never had.

A computation that gives blocks back one after the other needs to have all of them, each
once (`Has`), and leaves the ledger without them (`after`). The two are compatible with
taking the computation apart: it has the blocks of both its parts exactly where it has
those of the first, and those of the second afterwards (`has_append`).
-/

/-- **A ledger**: the blocks that are allocated, and those given back, the first one first. -/
structure Ledger (β : Type*) where
  live : β → Bool
  freed : List β

namespace Ledger

variable {β : Type*} [DecidableEq β] {l : Ledger β} {bs bs' : List β} {b : β}

/-- A block is given back. -/
def free (l : Ledger β) (b : β) : Option (Ledger β) :=
  if l.live b = true then some ⟨Function.update l.live b false, l.freed ++ [b]⟩ else none

/-- The blocks are allocated, and none of them is listed twice. -/
def Has (l : Ledger β) (bs : List β) : Prop := bs.Nodup ∧ ∀ b ∈ bs, l.live b = true

instance (l : Ledger β) (bs : List β) : Decidable (l.Has bs) :=
  inferInstanceAs (Decidable (_ ∧ _))

/-- The ledger when the blocks have been given back. -/
def after (l : Ledger β) (bs : List β) : Ledger β :=
  ⟨fun b => l.live b && !decide (b ∈ bs), l.freed ++ bs⟩

@[simp] theorem after_nil : l.after [] = l := by
  unfold after
  simp

theorem after_after : (l.after bs).after bs' = l.after (bs ++ bs') := by
  unfold after
  simp only [List.mem_append, Bool.decide_or, Bool.not_or, Bool.and_assoc, List.append_assoc]

theorem after_live : (l.after bs).live b = true ↔ l.live b = true ∧ b ∉ bs := by
  unfold after
  rw [Bool.and_eq_true, Bool.not_eq_true', decide_eq_false_iff_not]

omit [DecidableEq β] in
@[simp] theorem has_nil : l.Has [] := ⟨List.nodup_nil, fun _ h => absurd h List.not_mem_nil⟩

omit [DecidableEq β] in
theorem has_singleton : l.Has [b] ↔ l.live b = true := by
  unfold Has
  simp

/-- **The blocks of two parts.** -/
theorem has_append : l.Has (bs ++ bs') ↔ l.Has bs ∧ (l.after bs).Has bs' := by
  unfold Has
  simp only [after_live, List.nodup_append', List.mem_append]
  constructor
  · rintro ⟨⟨hbs, hbs', hdisj⟩, hlive⟩
    exact ⟨⟨hbs, fun b hb => hlive b (Or.inl hb)⟩,
      hbs', fun b hb => ⟨hlive b (Or.inr hb), fun hb' => hdisj hb' hb⟩⟩
  · rintro ⟨⟨hbs, hlive⟩, hbs', hlive'⟩
    refine ⟨⟨hbs, hbs', fun b hb hb' => (hlive' b hb').2 hb⟩, fun b hb => ?_⟩
    rcases hb with hb | hb
    · exact hlive b hb
    · exact (hlive' b hb).1

omit [DecidableEq β] in
/-- The order in which the blocks are listed does not matter. -/
theorem has_perm (h : bs.Perm bs') : l.Has bs ↔ l.Has bs' := by
  unfold Has
  rw [h.nodup_iff]
  simp only [h.mem_iff]

/-- **A block is given back exactly where it is allocated.** -/
theorem free_eq_some {l' : Ledger β} : l.free b = some l' ↔ l.Has [b] ∧ l' = l.after [b] := by
  have hafter : (⟨Function.update l.live b false, l.freed ++ [b]⟩ : Ledger β) = l.after [b] := by
    unfold after
    congr 1
    funext b'
    by_cases hb : b' = b
    · rw [hb, Function.update_self]
      simp
    · rw [Function.update_of_ne hb]
      simp [hb]
  unfold free
  rw [has_singleton, hafter]
  split
  · rename_i hlive
    rw [and_iff_right hlive, Option.some.injEq, eq_comm]
  · rename_i hdead
    exact iff_of_false (Option.some_ne_none _).symm fun h => hdead h.1

end Ledger
