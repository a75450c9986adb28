import Mathlib.Algebra.Order.Ring.Nat
import Mathlib.Data.List.Basic
import Mathlib.Order.RelClasses
import Mathlib.Tactic.Common

/-!
# Runs of a partial step function

A component is a type of states and a partial step function: a step that has no
outcome is one the component cannot take, because it is not enabled or because
it leaves what the language defines. A *run* is a list of events, and the run is
taken event by event.

Two rules carry everything below. `Run.inv` is the safety rule: an invariant
that every step keeps holds at the end of every run. `Run.total` is the rule for
a component that is only right on some of its inputs: when every step *meets a
condition in the state it is taken in*, and the invariant and the condition
together make the step return and keep the invariant, the whole run returns and
keeps it. The condition is read along the run (`Meets`), state by state, and not
on the list of events alone.
-/

variable {σ ε : Type*}

/-- **The run of a list of events**, which stops having an outcome as soon as
one of its steps has none. -/
def run (step : σ → ε → Option σ) (s : σ) (es : List ε) : Option σ :=
  es.foldlM step s

/-- Every step of the run meets the condition in the state it is taken in. -/
def Meets (step : σ → ε → Option σ) (cond : σ → ε → Prop) : σ → List ε → Prop
  | _, [] => True
  | s, e :: es => cond s e ∧ ∀ s', step s e = some s' → Meets step cond s' es

/-- The property holds in every state the run goes through, its first and its
last included. -/
def Along (step : σ → ε → Option σ) (P : σ → Prop) : σ → List ε → Prop
  | s, [] => P s
  | s, e :: es => P s ∧ ∀ s', step s e = some s' → Along step P s' es

/-- The condition can be tested along a run where it can be tested on a step. -/
def Meets.decide (step : σ → ε → Option σ) (cond : σ → ε → Prop)
    [∀ s e, Decidable (cond s e)] : ∀ s es, Decidable (Meets step cond s es)
  | _, [] => .isTrue trivial
  | s, e :: es =>
    match h : step s e with
    | none => decidable_of_iff (cond s e)
        ⟨fun hc => ⟨hc, fun s' hs' => absurd (h.symm.trans hs') (Option.some_ne_none s').symm⟩,
          And.left⟩
    | some t =>
      have := Meets.decide step cond t es
      decidable_of_iff (cond s e ∧ Meets step cond t es)
        ⟨fun hc => ⟨hc.1, fun s' hs' => by
            obtain rfl : t = s' := Option.some.inj (h.symm.trans hs')
            exact hc.2⟩,
          fun hc => ⟨hc.1, hc.2 t h⟩⟩

/-- The property can be tested along a run where it can be tested in a state. -/
def Along.decide (step : σ → ε → Option σ) (P : σ → Prop) [DecidablePred P] :
    ∀ s es, Decidable (Along step P s es)
  | s, [] => inferInstanceAs (Decidable (P s))
  | s, e :: es =>
    match h : step s e with
    | none => decidable_of_iff (P s)
        ⟨fun hP => ⟨hP, fun s' hs' => absurd (h.symm.trans hs') (Option.some_ne_none s').symm⟩,
          And.left⟩
    | some t =>
      have := Along.decide step P t es
      decidable_of_iff (P s ∧ Along step P t es)
        ⟨fun hP => ⟨hP.1, fun s' hs' => by
            obtain rfl : t = s' := Option.some.inj (h.symm.trans hs')
            exact hP.2⟩,
          fun hP => ⟨hP.1, hP.2 t h⟩⟩

instance {step : σ → ε → Option σ} {P : σ → Prop} [DecidablePred P] (s : σ) (es : List ε) :
    Decidable (Along step P s es) :=
  Along.decide step P s es

instance {step : σ → ε → Option σ} {cond : σ → ε → Prop} [∀ s e, Decidable (cond s e)]
    (s : σ) (es : List ε) : Decidable (Meets step cond s es) :=
  Meets.decide step cond s es

namespace Run

variable {step : σ → ε → Option σ} {cond : σ → ε → Prop} {Inv : σ → Prop}

@[simp] theorem run_cons (s : σ) (e : ε) (es : List ε) :
    run step s (e :: es) = (step s e).bind (fun s' => run step s' es) := rfl

/-- A run of two parts is the run of the second from where the first ended. -/
theorem run_append (s : σ) (es fs : List ε) :
    run step s (es ++ fs) = (run step s es).bind (fun s' => run step s' fs) := by
  unfold run
  rw [List.foldlM_append]
  rfl

/-- A step that has an outcome, followed by a run that has one. -/
theorem run_cons_eq_some {s s' : σ} {e : ε} {es : List ε} :
    run step s (e :: es) = some s'
      ↔ ∃ t, step s e = some t ∧ run step t es = some s' := by
  rw [run_cons, Option.bind_eq_some_iff]

/-- The condition along a run whose first step has an outcome. -/
theorem meets_cons {s s' : σ} {e : ε} {es : List ε} (hstep : step s e = some s') :
    Meets step cond s (e :: es) ↔ cond s e ∧ Meets step cond s' es := by
  refine and_congr_right fun _ => ⟨fun h => h s' hstep, fun h t ht => ?_⟩
  obtain rfl : s' = t := Option.some.inj (hstep.symm.trans ht)
  exact h

/-- **The safety rule.** What every step that meets the condition keeps, every
run whose steps meet it keeps. -/
theorem inv_of_meets
    (hstep : ∀ s e s', Inv s → cond s e → step s e = some s' → Inv s')
    {s s' : σ} {es : List ε} (hs : Inv s) (hm : Meets step cond s es)
    (hr : run step s es = some s') : Inv s' := by
  induction es generalizing s with
  | nil => exact Option.some.inj hr ▸ hs
  | cons e es ih =>
    obtain ⟨t, ht, hr⟩ := run_cons_eq_some.mp hr
    exact ih (hstep s e t hs hm.1 ht) (hm.2 t ht) hr

/-- The condition along a run of two parts. -/
theorem meets_append {s s' : σ} {es fs : List ε} (hes : Meets step cond s es)
    (hr : run step s es = some s') (hfs : Meets step cond s' fs) :
    Meets step cond s (es ++ fs) := by
  induction es generalizing s with
  | nil => exact Option.some.inj hr ▸ hfs
  | cons e es ih =>
    obtain ⟨t, ht, hr⟩ := run_cons_eq_some.mp hr
    exact (meets_cons ht).mpr ⟨hes.1, ih (hes.2 t ht) hr⟩

/-- The condition along the second part of a run. -/
theorem meets_of_append {s s' : σ} {es fs : List ε} (hm : Meets step cond s (es ++ fs))
    (hr : run step s es = some s') : Meets step cond s' fs := by
  induction es generalizing s with
  | nil => exact Option.some.inj hr ▸ hm
  | cons e es ih =>
    obtain ⟨t, ht, hr⟩ := run_cons_eq_some.mp hr
    exact ih (hm.2 t ht) hr

/-- A condition on the events alone can be read along the run. -/
theorem meets_and {allowed : ε → Prop} {s : σ} {es : List ε} (ha : ∀ e ∈ es, allowed e)
    (hm : Meets step cond s es) : Meets step (fun s e => allowed e ∧ cond s e) s es := by
  induction es generalizing s with
  | nil => trivial
  | cons e es ih =>
    exact ⟨⟨ha e List.mem_cons_self, hm.1⟩,
      fun t ht => ih (fun e' he' => ha e' (List.mem_cons_of_mem _ he')) (hm.2 t ht)⟩

/-- The safety rule for a step function that keeps the invariant always. -/
theorem inv (hstep : ∀ s e s', Inv s → step s e = some s' → Inv s')
    {s s' : σ} {es : List ε} (hs : Inv s) (hr : run step s es = some s') :
    Inv s' := by
  induction es generalizing s with
  | nil => exact Option.some.inj hr ▸ hs
  | cons e es ih =>
    obtain ⟨t, ht, hr⟩ := run_cons_eq_some.mp hr
    exact ih (hstep s e t hs ht) hr

/-- What holds along a run holds at its start. -/
theorem along_start {P : σ → Prop} {s : σ} {es : List ε} (h : Along step P s es) : P s := by
  cases es with
  | nil => exact h
  | cons _ _ => exact h.1

theorem along_of_forall {P : σ → Prop} (h : ∀ s, P s) (s : σ) (es : List ε) :
    Along step P s es := by
  induction es generalizing s with
  | nil => exact h s
  | cons e es ih => exact ⟨h s, fun t _ => ih t⟩

theorem meets_true (s : σ) (es : List ε) : Meets step (fun _ _ => True) s es := by
  induction es generalizing s with
  | nil => trivial
  | cons e es ih => exact ⟨trivial, fun t _ => ih t⟩

/-- What a step does where the property holds and the condition is met, every step of a
run does along which they are. -/
theorem meets_of_along {P : σ → Prop} {Q : σ → ε → Prop}
    (hstep : ∀ s e, P s → cond s e → Q s e) {s : σ} {es : List ε} (hP : Along step P s es)
    (hm : Meets step cond s es) : Meets step Q s es := by
  induction es generalizing s with
  | nil => trivial
  | cons e es ih =>
    exact ⟨hstep s e hP.1 hm.1, fun t ht => ih (hP.2 t ht) (hm.2 t ht)⟩

/-- A property may be weakened along a run. -/
theorem along_imp {P Q : σ → Prop} (himp : ∀ s, P s → Q s) {s : σ} {es : List ε}
    (h : Along step P s es) : Along step Q s es := by
  induction es generalizing s with
  | nil => exact himp s h
  | cons e es ih => exact ⟨himp s h.1, fun t ht => ih (h.2 t ht)⟩

/-- Two properties that hold along a run hold along it together. -/
theorem along_and {P Q : σ → Prop} {s : σ} {es : List ε} (hP : Along step P s es)
    (hQ : Along step Q s es) : Along step (fun s => P s ∧ Q s) s es := by
  induction es generalizing s with
  | nil => exact ⟨hP, hQ⟩
  | cons e es ih => exact ⟨⟨hP.1, hQ.1⟩, fun t ht => ih (hP.2 t ht) (hQ.2 t ht)⟩

/-- **The rule for two conditions that are the same in every state reached**, where the one
keeps the invariant, which may depend on the events to come. -/
theorem meets_iff_meets_within {J : List ε → σ → Prop} {Q : σ → ε → Prop}
    (hiff : ∀ e es s, J (e :: es) s → (Q s e ↔ cond s e))
    (hkeep : ∀ e es s s', J (e :: es) s → Q s e → step s e = some s' → J es s') {s : σ}
    {es : List ε} (hs : J es s) : Meets step Q s es ↔ Meets step cond s es := by
  induction es generalizing s with
  | nil => exact Iff.rfl
  | cons e es ih =>
    rw [Meets, Meets, hiff e es s hs]
    refine and_congr_right fun hc => forall_congr' fun t => ?_
    exact imp_congr_right fun ht => ih (hkeep e es s t hs ((hiff e es s hs).mpr hc) ht)

/-- The rule for an invariant of the state alone. -/
theorem meets_iff_meets {Q : σ → ε → Prop} (hiff : ∀ s e, Inv s → (Q s e ↔ cond s e))
    (hkeep : ∀ s e s', Inv s → Q s e → step s e = some s' → Inv s') {s : σ} {es : List ε}
    (hs : Inv s) : Meets step Q s es ↔ Meets step cond s es :=
  meets_iff_meets_within (J := fun _ => Inv) (fun e _ s => hiff s e)
    (fun e _ s s' => hkeep s e s') hs

/-- **The rule for a condition that is exact.** Where a step keeps the property
exactly when it meets the condition, a run that returns keeps the property all
along exactly when all its steps meet the condition. What the steps do may rest
on an invariant `J` they keep anyway, in the circumstances `pre`. -/
theorem along_iff_meets_of {J P : σ → Prop} {pre : σ → ε → Prop}
    (hJ : ∀ s e s', J s → pre s e → step s e = some s' → J s')
    (hstep : ∀ s e s', J s → P s → pre s e → step s e = some s' → (P s' ↔ cond s e))
    {s s' : σ} {es : List ε} (hJs : J s) (hs : P s) (hpre : Meets step pre s es)
    (hr : run step s es = some s') : Along step P s es ↔ Meets step cond s es := by
  induction es generalizing s with
  | nil => exact iff_of_true hs trivial
  | cons e es ih =>
    obtain ⟨t, ht, hr⟩ := run_cons_eq_some.mp hr
    have hfirst : ∀ {Q : σ → Prop}, (∀ s', step s e = some s' → Q s') ↔ Q t := by
      intro Q
      simp only [ht, Option.some.injEq, forall_eq']
    have hJt := hJ s e t hJs hpre.1 ht
    have hiff := hstep s e t hJs hs hpre.1 ht
    rw [Along, Meets, hfirst, hfirst, and_iff_right hs]
    constructor
    · intro hal
      have hPt := along_start hal
      exact ⟨hiff.mp hPt, (ih hJt hPt (hpre.2 t ht) hr).mp hal⟩
    · rintro ⟨hc, hm⟩
      exact (ih hJt (hiff.mpr hc) (hpre.2 t ht) hr).mpr hm

/-- The rule for a condition that is exact, with nothing else to rest on. -/
theorem along_iff_meets
    (hstep : ∀ s e s', Inv s → step s e = some s' → (Inv s' ↔ cond s e))
    {s s' : σ} {es : List ε} (hs : Inv s) (hr : run step s es = some s') :
    Along step Inv s es ↔ Meets step cond s es :=
  along_iff_meets_of (fun _ _ _ _ _ _ => trivial) (fun s e s' _ hs _ => hstep s e s' hs)
    trivial hs (meets_true s es) hr

/-- **The rule for a condition that is exact, for runs that return.** In the circumstances
`pre` a step returns, and it keeps the property exactly when it meets the condition, which
makes it keep the invariant as well. -/
theorem along_iff_meets_total {P : σ → Prop} {pre : σ → ε → Prop}
    (hstep : ∀ s e, Inv s → pre s e →
      ∃ s', step s e = some s' ∧ (P s' ↔ cond s e) ∧ (cond s e → Inv s'))
    (hP : ∀ s, Inv s → P s) {s : σ} {es : List ε} (hs : Inv s) (hpre : Meets step pre s es) :
    (Along step P s es ↔ Meets step cond s es)
      ∧ (Meets step cond s es → ∃ s', run step s es = some s' ∧ Inv s') := by
  induction es generalizing s with
  | nil => exact ⟨iff_of_true (hP s hs) trivial, fun _ => ⟨s, rfl, hs⟩⟩
  | cons e es ih =>
    obtain ⟨t, ht, hiff, hkeep⟩ := hstep s e hs hpre.1
    rw [meets_cons ht, run_cons, ht]
    have hfirst : Along step P s (e :: es) ↔ Along step P t es := by
      simp only [Along, ht, Option.some.injEq, forall_eq', and_iff_right (hP s hs)]
    rw [hfirst]
    by_cases hc : cond s e
    · obtain ⟨hih, hrun⟩ := ih (hkeep hc) (hpre.2 t ht)
      exact ⟨hih.trans (and_iff_right hc).symm, fun h => hrun h.2⟩
    · exact ⟨iff_of_false (fun hal => hc (hiff.mp (along_start hal))) fun h => hc h.1,
        fun h => absurd h.1 hc⟩

/-- **The rule for whole runs that return.** Where the invariant and the
condition make a step return and keep the invariant, a run whose steps all meet
the condition returns and keeps it. -/
theorem total
    (hstep : ∀ s e, Inv s → cond s e → ∃ s', step s e = some s' ∧ Inv s')
    {s : σ} {es : List ε} (hs : Inv s) (hm : Meets step cond s es) :
    ∃ s', run step s es = some s' ∧ Inv s' := by
  induction es generalizing s with
  | nil => exact ⟨s, rfl, hs⟩
  | cons e es ih =>
    obtain ⟨t, ht, hI⟩ := hstep s e hs hm.1
    obtain ⟨s', hr, hs'⟩ := ih hI (hm.2 t ht)
    exact ⟨s', run_cons_eq_some.mpr ⟨t, ht, hr⟩, hs'⟩

/-- **The rule for runs that stay within a bound.** The invariant may depend on the
events to come, and a step keeps it where the state it leads to is within the
bound `B`. -/
theorem total_within {J : List ε → σ → Prop} {B P : σ → Prop} (hP : ∀ es s, J es s → P s)
    (hstep : ∀ e es s, J (e :: es) s → cond s e → ∃ s', step s e = some s' ∧ (B s' → J es s'))
    {s : σ} {es : List ε} (hs : J es s) (hm : Meets step cond s es)
    (hB : Along step B s es) : (∃ s', run step s es = some s' ∧ J [] s') ∧ Along step P s es := by
  induction es generalizing s with
  | nil => exact ⟨⟨s, rfl, hs⟩, hP [] s hs⟩
  | cons e es ih =>
    obtain ⟨t, ht, hJ⟩ := hstep e es s hs hm.1
    have hBt := hB.2 t ht
    obtain ⟨⟨s', hr, hs'⟩, hal⟩ := ih (hJ (along_start hBt)) (hm.2 t ht) hBt
    refine ⟨⟨s', run_cons_eq_some.mpr ⟨t, ht, hr⟩, hs'⟩, hP _ s hs, fun t' ht' => ?_⟩
    obtain rfl : t = t' := Option.some.inj (ht.symm.trans ht')
    exact hal

/-- **Two step functions that agree along a run** have the same run. -/
theorem run_congr {step' : σ → ε → Option σ} {s : σ} {es : List ε}
    (h : Meets step (fun s e => step' s e = step s e) s es) : run step' s es = run step s es := by
  induction es generalizing s with
  | nil => rfl
  | cons e es ih =>
    rw [run_cons, run_cons, h.1]
    cases ht : step s e with
    | none => rfl
    | some t => exact ih (h.2 t ht)

/-- Two step functions that agree along a run go through the same states. -/
theorem along_congr {step' : σ → ε → Option σ} {P : σ → Prop} {s : σ} {es : List ε}
    (h : Meets step (fun s e => step' s e = step s e) s es) (hal : Along step P s es) :
    Along step' P s es := by
  induction es generalizing s with
  | nil => exact hal
  | cons e es ih =>
    refine ⟨hal.1, fun t ht => ?_⟩
    have ht' : step s e = some t := h.1.symm.trans ht
    exact ih (h.2 t ht') (hal.2 t ht')

end Run

/-! ## Interleavings -/

/-- **An interleaving of two lists of events**, each in its own order. -/
inductive Interleaves : List ε → List ε → List ε → Prop
  | nil : Interleaves [] [] []
  | left {e : ε} {l₁ l₂ l : List ε} (h : Interleaves l₁ l₂ l) :
      Interleaves (e :: l₁) l₂ (e :: l)
  | right {e : ε} {l₁ l₂ l : List ε} (h : Interleaves l₁ l₂ l) :
      Interleaves l₁ (e :: l₂) (e :: l)

/-! ## Strict weak orders

The order facts the proofs need of a comparison: in a strict weak order, *not
smaller* is transitive. -/

/-- In a strict weak order, not being smaller is transitive. -/
instance (priority := 50) isOrderConnected_of_isStrictWeakOrder {α : Type*}
    {r : α → α → Prop} [IsStrictWeakOrder α r] : IsOrderConnected α r where
  conn a b c hac := by
    by_contra h
    obtain ⟨hab, hbc⟩ := not_or.mp h
    have hba : ¬ r b a := fun hba => hbc (IsTrans.trans _ _ _ hba hac)
    have hcb : ¬ r c b := fun hcb => hab (IsTrans.trans _ _ _ hac hcb)
    exact (IsStrictWeakOrder.incomp_trans a b c ⟨hab, hba⟩ ⟨hbc, hcb⟩).1 hac
