import Mathlib.Logic.Basic
import Mathlib.Data.Option.Basic

/-!
# Runs of a partial step function

A machine is a function `σ → ε → Option σ`: an event that is not enabled has no
successor. Guards on runs are kept apart from the step function, so that one
machine carries results under different assumptions.
-/

set_option autoImplicit false

namespace KYM.Run

variable {σ ε τ φ : Type*}

def run (step : σ → ε → Option σ) : List ε → σ → Option σ
  | [], s => some s
  | e::es, s => (step s e).bind (run step es)

/-- Every event of the list that is reached is taken in a state where `ok` holds. -/
def Meets (step : σ → ε → Option σ) (ok : σ → ε → Prop) : List ε → σ → Prop
  | [], _ => True
  | e::es, s => ok s e ∧ ∀ t, step s e = some t → Meets step ok es t

instance decidableMeets (step : σ → ε → Option σ) (ok : σ → ε → Prop)
    [∀ s e, Decidable (ok s e)] : ∀ es s, Decidable (Meets step ok es s)
  | [], _ => isTrue trivial
  | e::es, s =>
    have : Decidable (∀ t, step s e = some t → Meets step ok es t) :=
      match h : step s e with
      | none => isTrue (fun _ ht => by cases ht)
      | some t =>
        have := decidableMeets step ok es t
        decidable_of_iff (Meets step ok es t) (by simp)
    inferInstanceAs (Decidable (_ ∧ _))

theorem run_cons (step : σ → ε → Option σ) (e : ε) (es : List ε) (s u : σ) :
    run step (e::es) s = some u ↔ ∃ t, step s e = some t ∧ run step es t = some u := by
  simp [run, Option.bind_eq_some_iff]

theorem run_get (step : σ → ε → Option σ) (es : List ε) (s : σ) (h : (run step es s).isSome) :
    run step es s = some ((run step es s).get h) := (Option.some_get h).symm

theorem run_append (step : σ → ε → Option σ) (es fs : List ε) (s : σ) :
    run step (es++fs) s = (run step es s).bind (run step fs) := by
  induction es generalizing s with
  | nil => rfl
  | cons e es ih =>
    simp only [List.cons_append, run, Option.bind_assoc]
    congr 1
    funext t
    exact ih t

theorem run_concat (step : σ → ε → Option σ) (es : List ε) (e : ε) (s t u : σ)
    (hr : run step es s = some t) (hs : step t e = some u) : run step (es++[e]) s = some u := by
  simp [run_append, hr, run, hs]

theorem meets_weaken (step : σ → ε → Option σ) (ok ok' : σ → ε → Prop)
    (h : ∀ s e, ok s e → ok' s e) (es : List ε) (s : σ) (hm : Meets step ok es s) :
    Meets step ok' es s := by
  induction es generalizing s with
  | nil => trivial
  | cons e es ih => exact ⟨h s e hm.1, fun t ht => ih t (hm.2 t ht)⟩

theorem meets_of_forall (step : σ → ε → Option σ) (ok : σ → ε → Prop) (es : List ε)
    (h : ∀ e ∈ es, ∀ s, ok s e) (s : σ) : Meets step ok es s := by
  induction es generalizing s with
  | nil => trivial
  | cons e es ih => exact ⟨h e (by simp) s, fun t _ => ih (fun e he => h e (by simp [he])) t⟩

theorem meets_append (step : σ → ε → Option σ) (ok : σ → ε → Prop) (es fs : List ε) (s t : σ)
    (he : Meets step ok es s) (hr : run step es s = some t) (hf : Meets step ok fs t) :
    Meets step ok (es++fs) s := by
  induction es generalizing s with
  | nil => exact Option.some.inj hr ▸ hf
  | cons e es ih =>
    obtain ⟨u, hu, ht⟩ := (run_cons step e es s t).mp hr
    refine ⟨he.1, fun v hv => ?_⟩
    obtain rfl := Option.some.inj (hu.symm.trans hv)
    exact ih u (he.2 u hu) ht

theorem run_split (step : σ → ε → Option σ) (es fs : List ε) (s u : σ)
    (hr : run step (es++fs) s = some u) :
    ∃ t, run step es s = some t ∧ run step fs t = some u := by
  rw [run_append] at hr
  exact Option.bind_eq_some_iff.mp hr

theorem meets_left (step : σ → ε → Option σ) (ok : σ → ε → Prop) (es fs : List ε) (s : σ)
    (hm : Meets step ok (es++fs) s) : Meets step ok es s := by
  induction es generalizing s with
  | nil => trivial
  | cons e es ih => exact ⟨hm.1, fun t ht => ih t (hm.2 t ht)⟩

theorem meets_right (step : σ → ε → Option σ) (ok : σ → ε → Prop) (es fs : List ε) (s t : σ)
    (hm : Meets step ok (es++fs) s) (hr : run step es s = some t) : Meets step ok fs t := by
  induction es generalizing s with
  | nil => exact Option.some.inj hr ▸ hm
  | cons e es ih =>
    obtain ⟨u, hu, ht⟩ := (run_cons step e es s t).mp hr
    exact ih u (hm.2 u hu) ht

/-- The invariant rule: what one guarded step keeps, a guarded run keeps. -/
theorem run_keeps (step : σ → ε → Option σ) (ok : σ → ε → Prop) (I : σ → Prop)
    (hstep : ∀ s e t, I s → ok s e → step s e = some t → I t)
    (es : List ε) (s u : σ) (hs : I s) (hm : Meets step ok es s)
    (hr : run step es s = some u) : I u := by
  induction es generalizing s with
  | nil => exact Option.some.inj hr ▸ hs
  | cons e es ih =>
    obtain ⟨t, ht, hu⟩ := (run_cons step e es s u).mp hr
    exact ih t (hstep s e t hs hm.1 ht) (hm.2 t ht) hu

theorem meets_of_keeps (step : σ → ε → Option σ) (ok ok' : σ → ε → Prop) (I : σ → Prop)
    (hstep : ∀ s e t, I s → ok s e → step s e = some t → I t)
    (hok : ∀ s e, I s → ok s e → ok' s e) (es : List ε) (s : σ) (hs : I s)
    (hm : Meets step ok es s) : Meets step ok' es s := by
  induction es generalizing s with
  | nil => trivial
  | cons e es ih =>
    exact ⟨hok s e hs hm.1, fun t ht => ih t (hstep s e t hs hm.1 ht) (hm.2 t ht)⟩

/-- The simulation rule: a concrete step is matched by a run of the abstract
machine, possibly an empty one, so a concrete run is matched as well. -/
theorem run_simulates (step : σ → ε → Option σ) (ok : σ → ε → Prop)
    (astep : τ → φ → Option τ) (R : σ → τ → Prop)
    (hstep : ∀ s e t a, R s a → ok s e → step s e = some t →
      ∃ fs b, run astep fs a = some b ∧ R t b)
    (es : List ε) (s u : σ) (a : τ) (hs : R s a) (hm : Meets step ok es s)
    (hr : run step es s = some u) : ∃ fs b, run astep fs a = some b ∧ R u b := by
  induction es generalizing s a with
  | nil => exact ⟨[], a, rfl, Option.some.inj hr ▸ hs⟩
  | cons e es ih =>
    obtain ⟨t, ht, hu⟩ := (run_cons step e es s u).mp hr
    obtain ⟨fs, b, hb, htb⟩ := hstep s e t a hs hm.1 ht
    obtain ⟨gs, c, hc, huc⟩ := ih t b htb (hm.2 t ht) hu
    exact ⟨fs++gs, c, by rw [run_append, hb]; exact hc, huc⟩

def trace (step : σ → ε → Option σ) (obs : σ → ε → List φ) : List ε → σ → List φ
  | [], _ => []
  | e::es, s => obs s e++(step s e).elim [] (trace step obs es)

/-- The simulation rule for machines that show the same: the abstract machine takes what
the concrete run shows. -/
theorem run_traces (step : σ → ε → Option σ) (obs : σ → ε → List φ) (ok : σ → ε → Prop)
    (astep : τ → φ → Option τ) (R : σ → τ → Prop)
    (hstep : ∀ s e t a, R s a → ok s e → step s e = some t →
      ∃ b, run astep (obs s e) a = some b ∧ R t b)
    (es : List ε) (s u : σ) (a : τ) (hs : R s a) (hm : Meets step ok es s)
    (hr : run step es s = some u) : ∃ b, run astep (trace step obs es s) a = some b ∧ R u b := by
  induction es generalizing s a with
  | nil => exact ⟨a, rfl, Option.some.inj hr ▸ hs⟩
  | cons e es ih =>
    obtain ⟨t, ht, hu⟩ := (run_cons step e es s u).mp hr
    obtain ⟨b, hb, htb⟩ := hstep s e t a hs hm.1 ht
    obtain ⟨c, hc, huc⟩ := ih t b htb (hm.2 t ht) hu
    refine ⟨c, ?_, huc⟩
    rw [trace, run_append, hb, ht]
    exact hc

end KYM.Run
