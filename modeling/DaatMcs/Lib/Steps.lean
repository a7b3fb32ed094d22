/-
# Runs of a system that moves by labelled steps

A system is a partial step function `step : σ → ε → Option σ`: a label is
enabled in a state, and then fixes the next state, or it is not. A run is a
list of labels, folded over the step function; `Reaches` is the states some
run ends in, `Visits` the states along one run and `Takes` its steps, each
with the state it is taken in.

Key theorems: `Reaches.inv` (what holds at the start and is kept by every
step holds of every reached state), `Visits.inv` (the same along one run,
from steps that meet a guard where they are taken), `Meets.takes` (how to
check on a given run that they do) and `Simulates.reaches` (a system whose
steps another one follows reaches nothing the other does not).
-/
import Mathlib.Data.List.Basic
import Mathlib.Data.List.Infix

namespace DaatMcs
namespace Steps

variable {σ ε : Type*} (step : σ → ε → Option σ)

/-- Some run from `s` ends in `t`. -/
def Reaches (s t : σ) : Prop := ∃ es : List ε, es.foldlM step s = some t

/-- The run `es` from `s` passes through `t`. -/
def Visits (s : σ) (es : List ε) (t : σ) : Prop :=
  ∃ pre, pre <+: es ∧ pre.foldlM step s = some t

/-- The run `es` from `s` takes the step `e` in the state `t`. -/
def Takes (s : σ) (es : List ε) (t : σ) (e : ε) : Prop :=
  ∃ pre, pre ++ [e] <+: es ∧ pre.foldlM step s = some t

variable {step}

/-! ### Runs and their last step -/

theorem foldlM_concat {s t : σ} {es : List ε} {e : ε} :
    (es ++ [e]).foldlM step s = some t ↔ ∃ u, es.foldlM step s = some u ∧ step u e = some t := by
  simp [List.foldlM_append, Option.bind_eq_some_iff]

/-- The run passes through the state it takes a step in. -/
theorem Takes.visits_from {s t : σ} {es : List ε} {e : ε} (h : Takes step s es t e) :
    Visits step s es t := by
  obtain ⟨pre, hpre, ht⟩ := h
  exact ⟨pre, (List.prefix_append pre [e]).trans hpre, ht⟩

/-- The state after a step of the run is one the run passes through. -/
theorem Takes.visits {s t u : σ} {es : List ε} {e : ε} (h : Takes step s es t e)
    (he : step t e = some u) : Visits step s es u := by
  obtain ⟨pre, hpre, ht⟩ := h
  exact ⟨pre ++ [e], hpre, foldlM_concat.mpr ⟨t, ht, he⟩⟩

theorem takes_cons {s t : σ} {es : List ε} {d e : ε} : Takes step s (d :: es) t e ↔
    (t = s ∧ e = d) ∨ ∃ u, step s d = some u ∧ Takes step u es t e := by
  constructor
  · rintro ⟨pre, hpre, ht⟩
    cases pre with
    | nil =>
      obtain ⟨rfl, -⟩ := List.cons_prefix_cons.mp hpre
      exact .inl ⟨(Option.some.inj ht).symm, rfl⟩
    | cons d' pre =>
      obtain ⟨rfl, hpre'⟩ := List.cons_prefix_cons.mp hpre
      rw [List.foldlM_cons] at ht
      obtain ⟨u, hu, ht⟩ := Option.bind_eq_some_iff.mp ht
      exact .inr ⟨u, hu, pre, hpre', ht⟩
  · rintro (⟨rfl, rfl⟩ | ⟨u, hu, pre, hpre, ht⟩)
    · exact ⟨[], List.cons_prefix_cons.mpr ⟨rfl, List.nil_prefix⟩, rfl⟩
    · refine ⟨d :: pre, List.cons_prefix_cons.mpr ⟨rfl, hpre⟩, ?_⟩
      rw [List.foldlM_cons, hu]
      exact ht

variable (step) in
/-- Every step the run takes meets `guard`, read off the run one step at a time. -/
def Meets (guard : σ → ε → Prop) : σ → List ε → Prop
  | _, [] => True
  | s, e :: es => guard s e ∧ ∀ u ∈ step s e, Meets guard u es

theorem Meets.takes {guard : σ → ε → Prop} {t : σ} {e : ε} :
    ∀ {s : σ} {es : List ε}, Meets step guard s es → Takes step s es t e → guard t e
  | _, [], _, ⟨pre, hpre, _⟩ => by simp at hpre
  | s, d :: es, hm, ⟨[], hpre, ht⟩ => by
    obtain ⟨rfl, -⟩ := List.cons_prefix_cons.mp hpre
    cases ht
    exact hm.1
  | s, d :: es, hm, ⟨d' :: pre, hpre, ht⟩ => by
    obtain ⟨rfl, hpre'⟩ := List.cons_prefix_cons.mp hpre
    rw [List.foldlM_cons] at ht
    obtain ⟨u, hu, ht'⟩ := Option.bind_eq_some_iff.mp ht
    exact Meets.takes (hm.2 u hu) ⟨pre, hpre', ht'⟩

instance Meets.decidable (guard : σ → ε → Prop) [∀ s e, Decidable (guard s e)] :
    ∀ s es, Decidable (Meets step guard s es)
  | _, [] => .isTrue trivial
  | s, e :: es =>
    have := fun u => Meets.decidable guard u es
    inferInstanceAs (Decidable (guard s e ∧ ∀ u ∈ step s e, Meets step guard u es))

/-! ### Invariants -/

/-- What holds at the start and every step keeps holds of every reached state. -/
theorem Reaches.inv {I : σ → Prop} (hstep : ∀ t e u, I t → step t e = some u → I u)
    {s t : σ} (hs : I s) (h : Reaches step s t) : I t := by
  obtain ⟨es, hes⟩ := h
  induction es using List.reverseRecOn generalizing t with
  | nil => cases hes; exact hs
  | append_singleton es e ih =>
    obtain ⟨u, hu, he⟩ := foldlM_concat.mp hes
    exact hstep u e t (ih hu) he

/-- Along a run whose steps all meet `guard` where they are taken, what the
guarded steps keep holds of every state passed through. -/
theorem Visits.inv {I : σ → Prop} {guard : σ → ε → Prop}
    (hstep : ∀ t e u, I t → guard t e → step t e = some u → I u)
    {s t : σ} {es : List ε} (hs : I s) (hg : ∀ t e, Takes step s es t e → guard t e)
    (h : Visits step s es t) : I t := by
  obtain ⟨pre, hpre, ht⟩ := h
  induction pre using List.reverseRecOn generalizing t with
  | nil => cases ht; exact hs
  | append_singleton pre e ih =>
    obtain ⟨u, hu, he⟩ := foldlM_concat.mp ht
    have hpre' : pre <+: es := (List.prefix_append pre [e]).trans hpre
    exact hstep u e t (ih hpre' hu) (hg u e ⟨pre, hpre, hu⟩) he

/-! ### Two systems -/

theorem Reaches.refl (s : σ) : Reaches step s s := ⟨[], rfl⟩

theorem Reaches.single {s t : σ} {e : ε} (h : step s e = some t) : Reaches step s t := ⟨[e], by simp [h]⟩

theorem Reaches.trans {s t u : σ} (h : Reaches step s t) (h' : Reaches step t u) : Reaches step s u := by
  obtain ⟨es, hes⟩ := h
  obtain ⟨es', hes'⟩ := h'
  exact ⟨es ++ es', by simp [List.foldlM_append, hes, hes']⟩

variable {τ δ : Type*}

/-- Whatever step the first system takes, the second follows in any number
of steps, and `R` still relates the two. -/
def Simulates (step : σ → ε → Option σ) (step' : τ → δ → Option τ) (R : σ → τ → Prop) : Prop :=
  ∀ ⦃s a e t⦄, R s a → step s e = some t → ∃ b, Reaches step' a b ∧ R t b

theorem Simulates.reaches {step' : τ → δ → Option τ} {R : σ → τ → Prop} (h : Simulates step step' R)
    {s t : σ} {a : τ} (hs : R s a) (ht : Reaches step s t) : ∃ b, Reaches step' a b ∧ R t b := by
  refine ht.inv (I := fun u => ∃ b, Reaches step' a b ∧ R u b) ?_ ⟨a, .refl a, hs⟩
  rintro u e v ⟨b, hb, hR⟩ he
  obtain ⟨c, hc, hR'⟩ := h hR he
  exact ⟨c, hb.trans hc, hR'⟩

/-- Two systems that take every step together, or neither does, run together. -/
theorem rel_foldlM {step : σ → ε → Option σ} {step' : τ → ε → Option τ} {R : σ → τ → Prop}
    (h : ∀ {s a}, R s a → ∀ e, Option.Rel R (step s e) (step' a e)) : ∀ (es : List ε) {s : σ} {a : τ}, R s a →
      Option.Rel R (es.foldlM step s) (es.foldlM step' a)
  | [], _, _, hs => .some hs
  | e :: es, s, a, hs => by
    rw [List.foldlM_cons, List.foldlM_cons]
    have he := h hs e
    generalize step s e = t at he
    generalize step' a e = b at he
    cases he with
    | none => exact .none
    | some ht => exact rel_foldlM h es ht

theorem exists_of_rel {R : σ → τ → Prop} {o : Option σ} {o' : Option τ} {s : σ} (h : Option.Rel R o o')
    (ho : o = some s) : ∃ a, o' = some a ∧ R s a := by
  subst ho
  cases h with
  | some h => exact ⟨_, rfl, h⟩

end Steps
end DaatMcs
