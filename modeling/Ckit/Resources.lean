import Mathlib.Data.List.Nodup
import Mathlib.Data.Set.Lattice
import Mathlib.Order.CompletePartialOrder
import Mathlib.Logic.Function.Basic
import Ckit.Run

/-!
# Programs that take resources and give them back

A descriptor and a block of memory have this in common: the system hands them out,
some part of the program has them from then on, and it alone should use them and
give them back. `ResProg` is a program as far as that goes, a tree that branches
over the answers of the system. `Uses R p Q` says that the program `p`, which has
the resources `R` at first, touches none but those it has whatever the answers are,
and ends with a result and a set of resources for which `Q` holds.

`Uses` goes through sequencing (`uses_bind`), and a program leaves alone what else there
is (`Uses.frame`).

A component is then a number of objects whose calls are such programs, under way at
the same time, in a process whose other parts have resources too
(`ResComponent`). What a call may touch is decided when it begins: while every call
is begun on an object that allows it, each object has what it should have, and
otherwise the first thing the call does is to touch what the object does not have.
So `along_minds_iff` is an equivalence.
-/

/-- **A program that uses resources**: it takes some that fit, or is refused them; it uses one, with
an outcome; it gives one back; or it has a result. -/
inductive ResProg (ρ α : Type) where
  | ret (a : α)
  | take (fits : List ρ → Bool) (k : Option (List ρ) → ResProg ρ α)
  | use (r : ρ) (k : Bool → ResProg ρ α)
  | give (r : ρ) (k : ResProg ρ α)

/-- An answer of the system: the resources taken, if any, or the outcome of another call. -/
inductive ResAnswer (ρ : Type) where
  | got (rs : Option (List ρ))
  | done (ok : Bool)
deriving DecidableEq

namespace ResProg

variable {ρ α β ω : Type}

/-- One program after the other. -/
def bind : ResProg ρ α → (α → ResProg ρ β) → ResProg ρ β
  | ret a, f => f a
  | take fits k, f => take fits fun rs => (k rs).bind f
  | use r k, f => use r fun ok => (k ok).bind f
  | give r k, f => give r (k.bind f)

instance : Monad (ResProg ρ) where
  pure := ret
  bind := bind

/-! ## What a program may touch -/

/-- **The program touches only what it has**, beginning with the resources `R`, and ends with a
result and resources for which `Q` holds. -/
def Uses (R : Set ρ) : ResProg ρ α → (α → Set ρ → Prop) → Prop
  | ret a, Q => Q a R
  | take fits k, Q => (k none).Uses R Q
      ∧ ∀ rs, fits rs = true → rs.Nodup → (∀ r ∈ rs, r ∉ R) →
        (k (some rs)).Uses (R ∪ {r | r ∈ rs}) Q
  | use r k, Q => r ∈ R ∧ ∀ ok, (k ok).Uses R Q
  | give r k, Q => r ∈ R ∧ k.Uses (R \ {r}) Q

variable {R F : Set ρ} {p : ResProg ρ α} {Q Q' : α → Set ρ → Prop}

/-- More may be said of the end. -/
theorem Uses.mono (h : p.Uses R Q) (hQ : ∀ a R, Q a R → Q' a R) : p.Uses R Q' := by
  induction p generalizing R with
  | ret a => exact hQ a R h
  | take fits k ih =>
    exact ⟨ih none h.1, fun rs hfits hnodup hnew => ih (some rs) (h.2 rs hfits hnodup hnew)⟩
  | use r k ih => exact ⟨h.1, fun ok => ih ok (h.2 ok)⟩
  | give r k ih => exact ⟨h.1, ih h.2⟩

/-- **Sequencing**: the second program begins with what the first ends with. -/
theorem uses_bind {f : α → ResProg ρ β} {Q : β → Set ρ → Prop} :
    (p >>= f).Uses R Q ↔ p.Uses R fun a R' => (f a).Uses R' Q := by
  change (p.bind f).Uses R Q ↔ _
  induction p generalizing R with
  | ret a => exact Iff.rfl
  | take fits k ih =>
    exact and_congr (ih none) (forall_congr' fun rs => imp_congr_right fun _ =>
      imp_congr_right fun _ => imp_congr_right fun _ => ih (some rs))
  | use r k ih => exact and_congr_right fun _ => forall_congr' fun ok => ih ok
  | give r k ih => exact and_congr_right fun _ => ih

theorem uses_map {f : α → β} {Q : β → Set ρ → Prop} :
    (f <$> p).Uses R Q ↔ p.Uses R fun a R' => Q (f a) R' :=
  uses_bind (f := fun a => pure (f a))

/-- **What else there is stays as it is.** -/
theorem Uses.frame (h : p.Uses R Q) (hdisj : Disjoint R F) :
    p.Uses (R ∪ F) fun a R' => ∃ R₀, Q a R₀ ∧ Disjoint R₀ F ∧ R' = R₀ ∪ F := by
  induction p generalizing R with
  | ret a => exact ⟨R, h, hdisj, rfl⟩
  | take fits k ih =>
    refine ⟨ih none h.1 hdisj, fun rs hfits hnodup hnew => ?_⟩
    have hnew' : Disjoint (R ∪ {r | r ∈ rs}) F := by
      refine Set.disjoint_union_left.mpr ⟨hdisj, Set.disjoint_left.mpr fun r hr hF => ?_⟩
      exact hnew r hr (Or.inr hF)
    have hsome := ih (some rs) (h.2 rs hfits hnodup fun r hr hR => hnew r hr (Or.inl hR)) hnew'
    rwa [Set.union_right_comm] at hsome
  | use r k ih => exact ⟨Or.inl h.1, fun ok => ih ok (h.2 ok) hdisj⟩
  | give r k ih =>
    have hr : r ∉ F := Set.disjoint_left.mp hdisj h.1
    have hrest := ih h.2 (hdisj.mono_left Set.sdiff_subset)
    rw [← Set.sdiff_singleton_eq_self hr, ← Set.union_sdiff_distrib] at hrest
    refine ⟨Or.inl h.1, hrest.mono fun a R' => ?_⟩
    rw [Set.sdiff_singleton_eq_self hr]
    exact id

/-- There are answers with which the program has the result. -/
def MayReturn : ResProg ρ α → α → Prop
  | ret a, b => a = b
  | take fits k, b => (k none).MayReturn b ∨ ∃ rs, fits rs = true ∧ (k (some rs)).MayReturn b
  | use _ k, b => ∃ ok, (k ok).MayReturn b
  | give _ k, b => k.MayReturn b

/-- **The first thing the program does is to touch what it does not have.** -/
def Strays (R : Set ρ) : ResProg ρ α → Prop
  | use r _ | give r _ => r ∉ R
  | ret _ | take _ _ => False

/-! ## One step -/

/-- What `o` has, of the resources of a table. -/
def holding (held : ρ → Option ω) (o : ω) : Set ρ := {r | held r = some o}

/-- **The program touches only what `o` has**, in its next step. -/
def Minds (held : ρ → Option ω) (o : ω) : ResProg ρ α → Prop
  | use r _ | give r _ => held r = some o
  | ret _ | take _ _ => True

/-- The system can answer so: what it hands out fits, and nobody has it. -/
def Answers (held : ρ → Option ω) : ResProg ρ α → ResAnswer ρ → Prop
  | take fits _, .got (some rs) => fits rs = true ∧ rs.Nodup ∧ ∀ r ∈ rs, held r = none
  | take _ _, .got none => True
  | use _ _, .done _ | give _ _, .done _ => True
  | _, _ => False

instance [DecidableEq ρ] [DecidableEq ω] (held : ρ → Option ω) :
    ∀ (p : ResProg ρ α) (a : ResAnswer ρ), Decidable (p.Answers held a)
  | take _ _, .got (some _) => inferInstanceAs (Decidable (_ ∧ _ ∧ _))
  | take _ _, .got none | use _ _, .done _ | give _ _, .done _ => .isTrue trivial
  | ret _, _ | take _ _, .done _ | use _ _, .got _ | give _ _, .got _ => .isFalse id

/-- **The next step** of a program of `o`, with the answer of the system. Giving back what nobody
has changes nothing. -/
def step [DecidableEq ρ] (held : ρ → Option ω) (o : ω) :
    ResProg ρ α → ResAnswer ρ → Option ((ρ → Option ω) × ResProg ρ α)
  | take _ k, .got rs =>
    some (fun r => if r ∈ rs.getD [] then some o else held r, k rs)
  | use _ k, .done ok => some (held, k ok)
  | give r k, .done _ => some (Function.update held r none, k)
  | _, _ => none

variable {held : ρ → Option ω} {o : ω}

theorem Uses.minds (h : p.Uses (holding held o) Q) : p.Minds held o := by
  cases p with
  | ret a => trivial
  | take fits k => trivial
  | use r k => exact h.1
  | give r k => exact h.1

theorem Strays.not_minds (h : p.Strays (holding held o)) : ¬ p.Minds held o := by
  cases p with
  | ret a => exact h.elim
  | take fits k => exact h.elim
  | use r k => exact h
  | give r k => exact h

/-- **One step of a program that touches only what it has**: it goes on so, and the others have what
they had. -/
theorem Uses.step [DecidableEq ρ] {a : ResAnswer ρ} (h : p.Uses (holding held o) Q)
    (ha : p.Answers held a) :
    ∃ held' p', p.step held o a = some (held', p') ∧ p'.Uses (holding held' o) Q
      ∧ ∀ o', o' ≠ o → holding held' o' = holding held o' := by
  cases p with
  | ret b => exact ha.elim
  | take fits k =>
    cases a with
    | done ok => exact ha.elim
    | got rs =>
      refine ⟨_, _, rfl, ?_⟩
      cases rs with
      | none =>
        simp only [Option.getD_none, List.not_mem_nil, if_false]
        exact ⟨h.1, fun _ _ => trivial⟩
      | some rs =>
        obtain ⟨hfits, hnodup, hfree⟩ := ha
        simp only [Option.getD_some]
        constructor
        · have hsome := h.2 rs hfits hnodup fun r hr hR => by
            exact absurd ((hfree r hr).symm.trans hR) (Option.some_ne_none o).symm
          convert hsome using 1
          ext r
          by_cases hr : r ∈ rs
          · simp [holding, hr]
          · simp [holding, hr]
        · intro o' ho'
          ext r
          by_cases hr : r ∈ rs
          · simp [holding, hr, hfree r hr, ho'.symm]
          · simp [holding, hr]
  | use r k =>
    cases a with
    | got rs => exact ha.elim
    | done ok => exact ⟨held, k ok, rfl, h.2 ok, fun _ _ => rfl⟩
  | give r k =>
    cases a with
    | got rs => exact ha.elim
    | done ok =>
      refine ⟨_, k, rfl, ?_, fun o' ho' => ?_⟩
      · convert h.2 using 1
        ext r'
        by_cases hr : r' = r
        · simp [holding, hr]
        · simp [holding, hr]
      · ext r'
        have hown : held r = some o := h.1
        by_cases hr : r' = r
        · simp [holding, hr, hown, ho'.symm]
        · simp [holding, hr]

end ResProg

/-! ## Components -/

/-- **Objects whose calls use resources.** A call of an object is a program, which ends with the
object as it is then. An object has resources of its own and, in between the calls, an invariant.
Every call that an object allows touches only what the object has, and any other one that is made
strays at once. -/
structure ResComponent (ρ γ μ : Type) where
  body : γ → μ → ResProg ρ μ
  owns : μ → Set ρ
  Inv : μ → Prop
  Pre : γ → μ → Prop
  Allows : γ → μ → Prop
  uses : ∀ {c m}, Inv m → Pre c m → Allows c m →
    (body c m).Uses (owns m) fun m' R => Inv m' ∧ R = owns m'
  strays : ∀ {c m}, Inv m → Pre c m → ¬ Allows c m → (body c m).Strays (owns m)

/-- An object, or what is left of its call, is fine with the resources `R`: it is to have what it
owns in between the calls, and in a call what it takes to end so. -/
def ResComponent.Fine {ρ γ μ : Type} (C : ResComponent ρ γ μ) (R : Set ρ) :
    μ ⊕ ResProg ρ μ → Prop
  | .inl m => C.Inv m ∧ R = C.owns m
  | .inr p => p.Uses R fun m R => C.Inv m ∧ R = C.owns m

/-- A process with a number of objects: who has a resource, one of the objects or the rest of the
process, and for each object what it is, or what is left of the call it is in. -/
structure ResSys (κ ρ μ : Type) where
  held : ρ → Option (Option κ)
  obj : κ → μ ⊕ ResProg ρ μ

/-- What happens in a process. -/
inductive ResEvent (κ ρ γ : Type) where
  | call (q : κ) (c : γ)
  | answer (q : κ) (a : ResAnswer ρ)
  | restTakes (r : ρ)
  | restGives (r : ρ)
deriving DecidableEq

/-- A program that has a result is at its end. -/
def ResProg.enter {ρ μ : Type} : ResProg ρ μ → μ ⊕ ResProg ρ μ
  | .ret m => .inl m
  | p => .inr p

namespace ResSys

variable {κ ρ γ μ : Type} (C : ResComponent ρ γ μ)

/-- **Every object has what it should have.** -/
def InOrder (s : ResSys κ ρ μ) : Prop :=
  ∀ q, C.Fine (ResProg.holding s.held (some q)) (s.obj q)

/-- **Every call under way is about to touch only what its object has.** -/
def Minds (s : ResSys κ ρ μ) : Prop := ∀ q p, s.obj q = .inr p → p.Minds s.held (some q)

/-- What can happen next: an object is in one call at a time, the system answers what is asked, and
the rest of the process takes what nobody has and gives back what it has. -/
def Admits (s : ResSys κ ρ μ) : ResEvent κ ρ γ → Prop
  | .call q c =>
    match s.obj q with
    | .inl m => C.Pre c m
    | .inr _ => False
  | .answer q a =>
    match s.obj q with
    | .inl _ => False
    | .inr p => p.Answers s.held a
  | .restTakes r => s.held r = none
  | .restGives r => s.held r = some none

/-- **The calls are ones their objects allow.** -/
def Allows (s : ResSys κ ρ μ) : ResEvent κ ρ γ → Prop
  | .call q c =>
    match s.obj q with
    | .inl m => C.Allows c m
    | .inr _ => False
  | _ => True

instance [DecidableEq κ] [DecidableEq ρ] [∀ c m, Decidable (C.Pre c m)] (s : ResSys κ ρ μ) :
    ∀ e, Decidable (s.Admits C e)
  | .call q c =>
    match h : s.obj q with
    | .inl m => decidable_of_iff (C.Pre c m) (by rw [Admits, h])
    | .inr _ => .isFalse (by rw [Admits, h]; exact id)
  | .answer q a =>
    match h : s.obj q with
    | .inl _ => .isFalse (by rw [Admits, h]; exact id)
    | .inr p => decidable_of_iff (p.Answers s.held a) (by rw [Admits, h])
  | .restTakes _ => inferInstanceAs (Decidable (_ = _))
  | .restGives _ => inferInstanceAs (Decidable (_ = _))

instance [∀ c m, Decidable (C.Allows c m)] (s : ResSys κ ρ μ) : ∀ e, Decidable (s.Allows C e)
  | .call q c =>
    match h : s.obj q with
    | .inl m => decidable_of_iff (C.Allows c m) (by rw [Allows, h])
    | .inr _ => .isFalse (by rw [Allows, h]; exact id)
  | .answer _ _ | .restTakes _ | .restGives _ => .isTrue trivial

variable {C} {s : ResSys κ ρ μ}

theorem InOrder.minds (h : s.InOrder C) : s.Minds := by
  intro q p hp
  have hq := h q
  rw [hp] at hq
  exact hq.minds

/-- A program that goes on rightly is fine, also where it is at its end. -/
theorem fine_enter {R : Set ρ} {p : ResProg ρ μ}
    (h : p.Uses R fun m R => C.Inv m ∧ R = C.owns m) : C.Fine R p.enter := by
  cases p with
  | ret m => exact h
  | take fits k => exact h
  | use r k => exact h
  | give r k => exact h

section

variable [DecidableEq κ]

/-- **What becomes of one object leaves the others in order**, where they have what they had. -/
theorem InOrder.update (h : s.InOrder C) {held' : ρ → Option (Option κ)} {q : κ}
    {p : ResProg ρ μ}
    (hp : p.Uses (ResProg.holding held' (some q)) fun m R => C.Inv m ∧ R = C.owns m)
    (hothers : ∀ q', q' ≠ q →
      ResProg.holding held' (some q') = ResProg.holding s.held (some q')) :
    InOrder C ⟨held', Function.update s.obj q p.enter⟩ := by
  intro q'
  show C.Fine (ResProg.holding held' (some q')) (Function.update s.obj q p.enter q')
  by_cases hq : q' = q
  · subst hq
    rw [Function.update_self]
    exact fine_enter hp
  · rw [Function.update_of_ne hq, hothers q' hq]
    exact h q'

end

section

variable [DecidableEq ρ]

/-- What the rest of the process does leaves all objects in order. -/
theorem InOrder.rest (h : s.InOrder C) {r : ρ} {o : Option (Option κ)}
    (hr : ∀ q, s.held r ≠ some (some q)) (ho : ∀ q, o ≠ some (some q)) :
    InOrder C { s with held := Function.update s.held r o } := by
  intro q
  have hsame : ResProg.holding (Function.update s.held r o) (some q)
      = ResProg.holding s.held (some q) := by
    ext r'
    by_cases hr' : r' = r
    · subst hr'
      simp [ResProg.holding, hr q, ho q]
    · simp [ResProg.holding, hr']
  show C.Fine (ResProg.holding (Function.update s.held r o) (some q)) (s.obj q)
  rw [hsame]
  exact h q

end

variable [DecidableEq κ] [DecidableEq ρ]

/-- One step. -/
def step (C : ResComponent ρ γ μ) (s : ResSys κ ρ μ) : ResEvent κ ρ γ → Option (ResSys κ ρ μ)
  | .call q c =>
    match s.obj q with
    | .inl m => some { s with obj := Function.update s.obj q (C.body c m).enter }
    | .inr _ => none
  | .answer q a =>
    match s.obj q with
    | .inl _ => none
    | .inr p => (p.step s.held (some q) a).map fun r =>
      ⟨r.1, Function.update s.obj q r.2.enter⟩
  | .restTakes r => some { s with held := Function.update s.held r (some none) }
  | .restGives r => some { s with held := Function.update s.held r none }

/-- **One step.** It is taken, every call minds what it touches after it exactly where the event is
one that is allowed, and then all objects are in order. -/
theorem InOrder.step (h : s.InOrder C) (e : ResEvent κ ρ γ) (hpre : s.Admits C e) :
    ∃ s', s.step C e = some s' ∧ (s'.Minds ↔ s.Allows C e) ∧ (s.Allows C e → s'.InOrder C) := by
  have hright : ∀ {s'}, s.step C e = some s' → s'.InOrder C → s.Allows C e →
      ∃ s', s.step C e = some s' ∧ (s'.Minds ↔ s.Allows C e) ∧ (s.Allows C e → s'.InOrder C) :=
    fun hstep hin hallows =>
      ⟨_, hstep, iff_of_true hin.minds hallows, fun _ => hin⟩
  cases e with
  | call q c =>
    have hq := h q
    cases hobj : s.obj q with
    | inr p =>
      simp only [Admits, hobj] at hpre
    | inl m =>
      simp only [Admits, hobj] at hpre
      simp only [hobj] at hq
      have hstep : s.step C (.call q c)
          = some { s with obj := Function.update s.obj q (C.body c m).enter } := by
        simp only [ResSys.step, hobj]
      have hallowsIff : s.Allows C (.call q c) ↔ C.Allows c m := by
        simp only [Allows, hobj]
      by_cases hallows : C.Allows c m
      · refine hright hstep (h.update ?_ fun _ _ => rfl) (hallowsIff.mpr hallows)
        rw [hq.2]
        exact C.uses hq.1 hpre hallows
      · -- the first thing the call does is not to be done
        have hstray := C.strays hq.1 hpre hallows
        rw [← hq.2] at hstray
        refine ⟨_, hstep, iff_of_false (fun hminds => ?_) (hallowsIff.not.mpr hallows),
          fun ha => absurd (hallowsIff.mp ha) hallows⟩
        have henter : (C.body c m).enter = .inr (C.body c m) := by
          cases hbody : C.body c m with
          | ret m' =>
            rw [hbody] at hstray
            exact hstray.elim
          | take fits k => rfl
          | use r k => rfl
          | give r k => rfl
        refine hstray.not_minds (hminds q _ ?_)
        exact (Function.update_self ..).trans henter
  | answer q a =>
    have hq := h q
    cases hobj : s.obj q with
    | inl m =>
      simp only [Admits, hobj] at hpre
    | inr p =>
      simp only [Admits, hobj] at hpre
      simp only [hobj] at hq
      obtain ⟨held', p', hp, huses, hothers⟩ := hq.step hpre
      have hstep : s.step C (.answer q a)
          = some ⟨held', Function.update s.obj q p'.enter⟩ := by
        simp only [ResSys.step, hobj, hp, Option.map_some]
      exact hright hstep
        (h.update huses fun q' hq' => hothers (some q') fun heq => hq' (Option.some.inj heq))
        trivial
  | restTakes r =>
    have hr : s.held r = none := hpre
    refine hright rfl (h.rest (fun q => ?_) fun q => ?_) trivial
    · rw [hr]
      exact (Option.some_ne_none _).symm
    · exact fun heq => Option.some_ne_none q (Option.some.inj heq).symm
  | restGives r =>
    have hr : s.held r = some none := hpre
    refine hright rfl (h.rest (fun q => ?_) fun q => ?_) trivial
    · rw [hr]
      exact fun heq => Option.some_ne_none q (Option.some.inj heq).symm
    · exact (Option.some_ne_none _).symm

/-- **A process of objects.** In every run from objects in order, the calls touch only what their
objects have, all along, exactly where every call is one that its object allows; and then the run
returns, with all objects in order. -/
theorem along_minds_iff (hs : s.InOrder C) {es : List (ResEvent κ ρ γ)}
    (hpre : Meets (ResSys.step C) (Admits C) s es) :
    (Along (ResSys.step C) Minds s es ↔ Meets (ResSys.step C) (Allows C) s es)
      ∧ (Meets (ResSys.step C) (Allows C) s es →
        ∃ s', run (ResSys.step C) s es = some s' ∧ s'.InOrder C) :=
  Run.along_iff_meets_total (fun _ e h hpre => h.step e hpre) (fun _ h => h.minds) hs hpre

end ResSys
