import Zmqlog.Transition

/-! Refinement between two levels of a design. The levels have their own
states and labels; what an observer sees of the labels is common to both, and
the concrete level is to show nothing that the abstract one does not. -/
namespace Zmqlog.Refinement
open Transition

universe u v w x y
variable {σ : Type u} {α : Type v} {τ : Type w} {β : Type x} {γ : Type y}

def visible (see : α → Option γ) (as : List α) : List γ := as.filterMap see

@[simp] theorem visible_nil (see : α → Option γ) : visible see [] = [] := rfl

@[simp] theorem visible_singleton (see : α → Option γ) (a : α) :
    visible see [a] = (see a).toList := by
  cases h : see a <;> simp [visible, h]

@[simp] theorem visible_append (see : α → Option γ) (as bs : List α) :
    visible see (as ++ bs) = visible see as ++ visible see bs :=
  List.filterMap_append

theorem visible_eq_append_cons {see : α → Option γ} {as : List α} {before after : List γ} {e : γ}
    (h : visible see as = before ++ e :: after) :
    ∃ as₁ a as₂, as = as₁ ++ a :: as₂ ∧ see a = some e ∧ visible see as₂ = after := by
  obtain ⟨as₁, rest, rfl, -, hrest⟩ := List.filterMap_eq_append_iff.mp h
  obtain ⟨silent, a, as₂, rfl, -, ha, has₂⟩ := List.filterMap_eq_cons_iff.mp hrest
  exact ⟨as₁ ++ silent, a, as₂, by simp, ha, has₂⟩

theorem countP_visible (see : α → Option γ) (p : γ → Bool) (as : List α) :
    (visible see as).countP p = as.countP fun a => (see a).any p := by
  rw [visible, List.countP_filterMap]
  congr 1
  funext a
  cases see a <;> rfl

/-- Every step of a history in `ok` is matched by abstract steps that show the
same, none of them or several. -/
structure Matching (C : Machine σ α) (A : Machine τ β) (seeC : α → Option γ)
    (seeA : β → Option γ) (ok : List α → Prop) where
  rel : σ → τ → Prop
  init : rel C.init A.init
  closed : ∀ as a, ok (as ++ [a]) → ok as
  step : ∀ as s a t u, C.run C.init as = some s → ok (as ++ [a]) → rel s u →
    C.step s a = some t →
      ∃ bs v, A.run u bs = some v ∧ rel t v ∧ visible seeA bs = (seeC a).toList

variable {C : Machine σ α} {A : Machine τ β} {seeC : α → Option γ} {seeA : β → Option γ}
  {ok : List α → Prop}

theorem Matching.run (R : Matching C A seeC seeA ok) {as : List α} {s : σ} (hok : ok as)
    (h : C.run C.init as = some s) :
    ∃ bs u, A.run A.init bs = some u ∧ R.rel s u ∧ visible seeA bs = visible seeC as := by
  revert hok
  refine run_induction (I := fun as s => ok as →
    ∃ bs u, A.run A.init bs = some u ∧ R.rel s u ∧ visible seeA bs = visible seeC as)
    ?_ ?_ as s h
  · intro _
    exact ⟨[], A.init, rfl, R.init, rfl⟩
  · intro as s a t hs ih hstep hok
    obtain ⟨bs, u, hu, hrel, hseen⟩ := ih (R.closed as a hok)
    obtain ⟨cs, v, hv, hrel', hseen'⟩ := R.step as s a t u hs hok hrel hstep
    refine ⟨bs ++ cs, v, (run_append_eq_some A).mpr ⟨u, hu, hv⟩, hrel', ?_⟩
    rw [visible_append, visible_append, visible_singleton, hseen, hseen']

/-- What is true of all that abstract runs show is true of what concrete runs
show. -/
theorem Matching.transfer (R : Matching C A seeC seeA ok) {P : List γ → Prop}
    (hP : ∀ bs u, A.run A.init bs = some u → P (visible seeA bs)) {as : List α} {s : σ}
    (hok : ok as) (h : C.run C.init as = some s) : P (visible seeC as) := by
  obtain ⟨bs, u, hu, -, hseen⟩ := R.run hok h
  rw [← hseen]
  exact hP bs u hu

end Zmqlog.Refinement
