import Mathlib.Data.List.Basic
import Mathlib.Data.Option.Basic

/-!
# Computations that keep a log

A partial computation, as a model of a function of the program has it, together
with the list of what it did on the way: the events it logged before it
returned, or before it went wrong. The log is there to be talked about and never
read by the computation, so that the logged version of a function can be told
apart from the function itself by its log only (`outcome_bind`).

What is said about a log is mostly that *every* event of it is fine (`Always`), and
that is read off a sequence of two computations part by part (`always_bind`); or that it is
no longer than a bound, where the parts have one (`length_log_bind_le`).
-/

/-- A computation with an outcome of type `α`, or none, and a log of events. -/
structure Traced (ε α : Type) where
  outcome : Option α
  log : List ε

namespace Traced

variable {ε α β : Type}

/-- What was logged before the first part went wrong stays in the log. -/
instance : Monad (Traced ε) where
  pure a := ⟨some a, []⟩
  bind m f := ⟨m.outcome.bind fun a => (f a).outcome,
    m.log ++ (m.outcome.map fun a => (f a).log).getD []⟩

@[simp] theorem outcome_pure (a : α) : (pure a : Traced ε α).outcome = some a := rfl

@[simp] theorem log_pure (a : α) : (pure a : Traced ε α).log = [] := rfl

/-- **The log does not disturb the outcome.** -/
@[simp] theorem outcome_bind (m : Traced ε α) (f : α → Traced ε β) :
    (m >>= f).outcome = m.outcome.bind fun a => (f a).outcome := rfl

/-- An event of a sequence is one of its first part, or of its second where it comes to
that. -/
theorem mem_log_bind {m : Traced ε α} {f : α → Traced ε β} {e : ε} :
    e ∈ (m >>= f).log ↔ e ∈ m.log ∨ ∃ a, m.outcome = some a ∧ e ∈ (f a).log := by
  show e ∈ m.log ++ (m.outcome.map fun a => (f a).log).getD [] ↔ _
  rw [List.mem_append]
  refine or_congr_right ?_
  cases m.outcome with
  | none => simp
  | some a => simp

/-- The log of a sequence whose first part has an outcome. -/
theorem log_bind_of_eq {m : Traced ε α} {f : α → Traced ε β} {a : α} (ha : m.outcome = some a) :
    (m >>= f).log = m.log ++ (f a).log := by
  show m.log ++ (m.outcome.map fun a => (f a).log).getD [] = _
  rw [ha]
  rfl

/-- The log in other words. -/
def mapLog {ε' : Type} (f : ε → ε') (m : Traced ε α) : Traced ε' α := ⟨m.outcome, m.log.map f⟩

/-- **Every event is fine.** -/
def Always (P : ε → Prop) (m : Traced ε α) : Prop := ∀ e ∈ m.log, P e

variable {P : ε → Prop}

instance [DecidablePred P] (m : Traced ε α) : Decidable (m.Always P) :=
  inferInstanceAs (Decidable (∀ e ∈ m.log, P e))

@[simp] theorem always_pure (a : α) : (pure a : Traced ε α).Always P :=
  fun _ he => absurd he List.not_mem_nil

/-- **The rule for a sequence**: both parts are fine, the second where it is come to. -/
theorem always_bind {m : Traced ε α} {f : α → Traced ε β} :
    (m >>= f).Always P ↔ m.Always P ∧ ∀ a, m.outcome = some a → (f a).Always P := by
  constructor
  · intro h
    exact ⟨fun e he => h e (mem_log_bind.mpr (Or.inl he)),
      fun a ha e he => h e (mem_log_bind.mpr (Or.inr ⟨a, ha, he⟩))⟩
  · rintro ⟨hm, hf⟩ e he
    rcases mem_log_bind.mp he with he | ⟨a, ha, he⟩
    · exact hm e he
    · exact hf a ha e he

/-- The rule for a sequence whose first part has an outcome. -/
theorem always_bind_of_eq {m : Traced ε α} {f : α → Traced ε β} {a : α} (ha : m.outcome = some a) :
    (m >>= f).Always P ↔ m.Always P ∧ (f a).Always P := by
  rw [always_bind]
  simp only [ha, Option.some.injEq, forall_eq']

/-! ## The length of a log -/

/-- The log of a sequence whose first part has an outcome is as long as the two. -/
theorem length_log_bind {m : Traced ε α} {f : α → Traced ε β} {a : α} (ha : m.outcome = some a) :
    (m >>= f).log.length = m.log.length + (f a).log.length := by
  rw [log_bind_of_eq ha, List.length_append]

/-- **The rule for bounds**: those of the parts add up. -/
theorem length_log_bind_le {m : Traced ε α} {f : α → Traced ε β} {j k : ℕ}
    (hm : m.log.length ≤ j) (hf : ∀ a, m.outcome = some a → (f a).log.length ≤ k) :
    (m >>= f).log.length ≤ j + k := by
  cases ha : m.outcome with
  | none =>
    have hlog : (m >>= f).log = m.log ++ (m.outcome.map fun a => (f a).log).getD [] := rfl
    rw [hlog, ha]
    show (m.log ++ []).length ≤ j + k
    rw [List.append_nil]
    exact Nat.le_trans hm (Nat.le_add_right j k)
  | some a =>
    rw [length_log_bind ha]
    exact Nat.add_le_add hm (hf a ha)

/-- A list of logged computations, one after the other. -/
theorem outcome_foldlM {γ : Type} (f : α → γ → Traced ε α) (a : α) (l : List γ) :
    (l.foldlM f a).outcome = l.foldlM (fun a c => (f a c).outcome) a := by
  induction l generalizing a with
  | nil => rfl
  | cons c l ih =>
    rw [List.foldlM_cons, List.foldlM_cons, outcome_bind]
    exact Option.bind_congr fun a' _ => ih a'

end Traced
