import Mathlib.Data.List.Infix
import Mathlib.Order.Basic

/-! Labelled machines. A label carries whatever a step reads from outside, so
a partial function covers a nondeterministic system, a list of labels fixes a
run, and a run can be evaluated. -/
namespace Zmqlog.Transition

universe u v w x

structure Machine (σ : Type u) (α : Type v) where
  init : σ
  step : σ → α → Option σ

variable {σ : Type u} {α : Type v}

def Machine.run (M : Machine σ α) : σ → List α → Option σ
  | s, [] => some s
  | s, a :: as => (M.step s a).bind fun t => M.run t as

variable (M : Machine σ α)

def Machine.Reachable (s : σ) : Prop := ∃ as, M.run M.init as = some s

@[simp] theorem run_nil (s : σ) : M.run s [] = some s := rfl

theorem run_cons (s : σ) (a : α) (as : List α) :
    M.run s (a :: as) = (M.step s a).bind fun t => M.run t as := rfl

theorem run_cons_eq_some {s u : σ} {a : α} {as : List α} :
    M.run s (a :: as) = some u ↔ ∃ t, M.step s a = some t ∧ M.run t as = some u := by
  rw [run_cons, Option.bind_eq_some_iff]

@[simp] theorem run_singleton (s : σ) (a : α) : M.run s [a] = M.step s a := by
  rw [run_cons]
  exact Option.bind_fun_some _

theorem run_append (s : σ) (as bs : List α) :
    M.run s (as ++ bs) = (M.run s as).bind fun t => M.run t bs := by
  induction as generalizing s with
  | nil => rfl
  | cons a as ih =>
    rw [List.cons_append, run_cons, run_cons, Option.bind_assoc]
    simp only [ih]

theorem run_append_eq_some {s u : σ} {as bs : List α} :
    M.run s (as ++ bs) = some u ↔ ∃ t, M.run s as = some t ∧ M.run t bs = some u := by
  rw [run_append, Option.bind_eq_some_iff]

theorem run_snoc_eq_some {s u : σ} {as : List α} {a : α} :
    M.run s (as ++ [a]) = some u ↔ ∃ t, M.run s as = some t ∧ M.step t a = some u := by
  rw [run_append_eq_some]
  simp only [run_singleton]

theorem Machine.Reachable.init : M.Reachable M.init := ⟨[], rfl⟩

variable {M}

theorem Machine.Reachable.run {s t : σ} {as : List α} (hs : M.Reachable s)
    (h : M.run s as = some t) : M.Reachable t := by
  obtain ⟨pre, hpre⟩ := hs
  exact ⟨pre ++ as, (run_append_eq_some M).mpr ⟨s, hpre, h⟩⟩

theorem Machine.Reachable.step {s t : σ} {a : α} (hs : M.Reachable s)
    (h : M.step s a = some t) : M.Reachable t := by
  have hrun : M.run s [a] = some t := by rwa [run_singleton]
  exact hs.run hrun

/-- Induction on the last step. The motive may read the whole history, which
is how a run's labels and its final state are related. -/
theorem run_induction {s₀ : σ} {I : List α → σ → Prop} (hinit : I [] s₀)
    (hstep : ∀ as s a t, M.run s₀ as = some s → I as s → M.step s a = some t →
      I (as ++ [a]) t) :
    ∀ as s, M.run s₀ as = some s → I as s := by
  intro as
  induction as using List.reverseRecOn with
  | nil =>
    intro s h
    cases Option.some.inj h
    exact hinit
  | append_singleton as a ih =>
    intro u h
    obtain ⟨t, ht, hu⟩ := (run_snoc_eq_some M).mp h
    exact hstep as t a u ht (ih t ht) hu

theorem Machine.Reachable.induction {I : σ → Prop} (hinit : I M.init)
    (hstep : ∀ s a t, M.Reachable s → I s → M.step s a = some t → I t)
    {s : σ} (h : M.Reachable s) : I s := by
  obtain ⟨as, hrun⟩ := h
  exact run_induction (I := fun _ s => I s) hinit
    (fun as s a t hs => hstep s a t ⟨as, hs⟩) as s hrun

section Along

/-- Every step of the run, seen with the state before it, satisfies `ok`. -/
def Machine.Steps (M : Machine σ α) (ok : σ → α → Prop) : σ → List α → Prop
  | _, [] => True
  | s, a :: as => ok s a ∧ ∀ t ∈ M.step s a, M.Steps ok t as

/-- Every state of the run, its first and its last included, satisfies `P`. -/
def Machine.Always (M : Machine σ α) (P : σ → Prop) : σ → List α → Prop
  | s, [] => P s
  | s, a :: as => P s ∧ ∀ t ∈ M.step s a, M.Always P t as

instance decidableSteps (M : Machine σ α) (ok : σ → α → Prop) [∀ s a, Decidable (ok s a)] :
    ∀ s as, Decidable (M.Steps ok s as)
  | _, [] => isTrue trivial
  | s, a :: as =>
    have : Decidable (∀ t ∈ M.step s a, M.Steps ok t as) :=
      match M.step s a with
      | none => isTrue fun _ ht => nomatch ht
      | some t =>
        match decidableSteps M ok t as with
        | isTrue ht => isTrue fun _ hu => Option.some.inj hu ▸ ht
        | isFalse ht => isFalse fun hall => ht (hall t rfl)
    inferInstanceAs (Decidable (_ ∧ _))

theorem Machine.Steps.mono {ok ok' : σ → α → Prop} {s : σ} {as : List α} (h : M.Steps ok s as)
    (himp : ∀ s a, ok s a → ok' s a) : M.Steps ok' s as := by
  induction as generalizing s with
  | nil => trivial
  | cons a as ih => exact ⟨himp s a h.1, fun t ht => ih (h.2 t ht)⟩

theorem steps_snoc {ok : σ → α → Prop} {s t : σ} {as : List α} {a : α}
    (h : M.run s as = some t) :
    M.Steps ok s (as ++ [a]) ↔ M.Steps ok s as ∧ ok t a := by
  induction as generalizing s with
  | nil =>
    cases Option.some.inj h
    simp [Machine.Steps]
  | cons b as ih =>
    obtain ⟨u, hu, htail⟩ := (run_cons_eq_some M).mp h
    simp [Machine.Steps, hu, ih htail, and_assoc]

theorem Machine.Steps.of_append {ok : σ → α → Prop} {s : σ} {as bs : List α}
    (h : M.Steps ok s (as ++ bs)) : M.Steps ok s as := by
  induction as generalizing s with
  | nil => trivial
  | cons a as ih => exact ⟨h.1, fun t ht => ih (h.2 t ht)⟩

theorem always_snoc {P : σ → Prop} {s t u : σ} {as : List α} {a : α}
    (h : M.run s as = some t) (hstep : M.step t a = some u) :
    M.Always P s (as ++ [a]) ↔ M.Always P s as ∧ P u := by
  induction as generalizing s with
  | nil =>
    cases Option.some.inj h
    simp [Machine.Always, hstep]
  | cons b as ih =>
    obtain ⟨v, hv, htail⟩ := (run_cons_eq_some M).mp h
    simp [Machine.Always, hv, ih htail, and_assoc]

theorem Machine.Steps.at {ok : σ → α → Prop} {s t : σ} {as bs : List α} {a : α}
    (h : M.Steps ok s (as ++ a :: bs)) (hrun : M.run s as = some t) : ok t a := by
  induction as generalizing s with
  | nil => exact Option.some.inj hrun ▸ h.1
  | cons b as ih =>
    obtain ⟨u, hu, htail⟩ := (run_cons_eq_some M).mp hrun
    exact ih (h.2 u hu) htail

theorem Machine.Always.last {P : σ → Prop} {s t : σ} {as : List α}
    (h : M.run s as = some t) (hall : M.Always P s as) : P t := by
  induction as generalizing s with
  | nil => exact Option.some.inj h ▸ hall
  | cons a as ih =>
    obtain ⟨u, hu, htail⟩ := (run_cons_eq_some M).mp h
    exact ih htail (hall.2 u hu)

/-- The invariant rule under a condition on every step. What is already known
of reachable states may be used at each step. -/
theorem always_of_steps {ok : σ → α → Prop} {I : σ → Prop}
    (hstep : ∀ s a t, M.Reachable s → I s → ok s a → M.step s a = some t → I t)
    {s : σ} (hs : M.Reachable s) (hI : I s) {as : List α} (hok : M.Steps ok s as) :
    M.Always I s as := by
  induction as generalizing s with
  | nil => exact hI
  | cons a as ih =>
    refine ⟨hI, fun t ht => ?_⟩
    exact ih (hs.step ht) (hstep s a t hs hI hok.1 ht) (hok.2 t ht)

/-- The converse: where each step against `ok` leads out of `P`, a run that
stays in `P` takes no such step. -/
theorem steps_of_always {ok : σ → α → Prop} {P : σ → Prop}
    (hbad : ∀ s a t, M.Reachable s → P s → ¬ ok s a → M.step s a = some t → ¬ P t)
    {s t : σ} (hs : M.Reachable s) {as : List α} (hrun : M.run s as = some t)
    (hall : M.Always P s as) : M.Steps ok s as := by
  induction as generalizing s with
  | nil => trivial
  | cons a as ih =>
    obtain ⟨u, hu, htail⟩ := (run_cons_eq_some M).mp hrun
    have hP : P u := by
      have := hall.2 u hu
      cases as with
      | nil => exact this
      | cons => exact this.1
    refine ⟨?_, fun v hv => ?_⟩
    · by_contra hnot
      exact hbad s a u hs hall.1 hnot hu hP
    · cases Option.some.inj (hu.symm.trans hv)
      exact ih (hs.step hu) htail (hall.2 u hu)

theorem Machine.Always.mono {P Q : σ → Prop} (hPQ : ∀ s, M.Reachable s → P s → Q s)
    {s : σ} (hs : M.Reachable s) {as : List α} (h : M.Always P s as) :
    M.Always Q s as := by
  induction as generalizing s with
  | nil => exact hPQ s hs h
  | cons a as ih =>
    exact ⟨hPQ s hs h.1, fun t ht => ih (hs.step ht) (h.2 t ht)⟩

/-- What is recorded along a run. A record may read the state before the step. -/
def Machine.record {γ : Type w} (M : Machine σ α) (f : σ → α → List γ) : σ → List α → List γ
  | _, [] => []
  | s, a :: as => f s a ++ (M.step s a).elim [] fun t => M.record f t as

theorem record_append {γ : Type w} {f : σ → α → List γ} {s t : σ} {as : List α}
    (h : M.run s as = some t) (bs : List α) :
    M.record f s (as ++ bs) = M.record f s as ++ M.record f t bs := by
  induction as generalizing s with
  | nil =>
    cases Option.some.inj h
    rfl
  | cons a as ih =>
    obtain ⟨u, hu, htail⟩ := (run_cons_eq_some M).mp h
    simp [Machine.record, hu, ih htail]

theorem record_snoc {γ : Type w} {f : σ → α → List γ} {s t : σ} {as : List α} {a : α}
    (h : M.run s as = some t) : M.record f s (as ++ [a]) = M.record f s as ++ f t a := by
  rw [record_append h]
  cases hstep : M.step t a <;> simp [Machine.record, hstep]

end Along

section Credit
variable {ticks : α → Bool} (backlog debt : σ → Nat) (gain : α → Nat) (gains : List α → Nat)

/-- As long as there is a backlog the ticks of a run are paid for by its gains,
but for what the state has still to pay. Only gains make the backlog smaller,
so in the end they are as many as it was long, or all ticks are paid for. -/
theorem ticks_paid (hgains : ∀ as a, gains (as ++ [a]) = gains as + gain a) {s₀ t : σ}
    {later : List α} (h : M.run s₀ later = some t)
    (hflow : ∀ as a bs s u, later = as ++ a :: bs → M.run s₀ as = some s → M.step s a = some u →
      backlog s ≤ gain a + backlog u)
    (hpay : ∀ as a bs s u, later = as ++ a :: bs → M.run s₀ as = some s → M.step s a = some u →
      backlog s = 0 ∨ (ticks a).toNat + debt s ≤ gain a + debt u) :
    backlog s₀ ≤ gains later ∨ later.countP ticks ≤ gains later + debt t := by
  suffices hpaid : backlog s₀ ≤ gains later + backlog t ∧
      (backlog s₀ ≤ gains later ∨ later.countP ticks ≤ gains later + debt t) from hpaid.2
  induction later using List.reverseRecOn generalizing t with
  | nil =>
    cases Option.some.inj h
    exact ⟨Nat.le_add_left _ _, .inr (Nat.zero_le _)⟩
  | append_singleton as a ih =>
    obtain ⟨s, hs, ht⟩ := (run_snoc_eq_some M).mp h
    have hlast : as ++ [a] = as ++ a :: [] := rfl
    obtain ⟨hsofar, hdone⟩ := ih hs
      (fun as' a' bs s u hsplit => hflow as' a' (bs ++ [a]) s u (by simp [hsplit]))
      (fun as' a' bs s u hsplit => hpay as' a' (bs ++ [a]) s u (by simp [hsplit]))
    have hflows := hflow as a [] s t hlast hs ht
    rw [hgains, List.countP_append, List.countP_singleton]
    refine ⟨by omega, ?_⟩
    rcases hdone with hdone | hpaid
    · left
      omega
    · rcases hpay as a [] s t hlast hs ht with hnone | hpays
      · left
        omega
      · right
        cases hticks : ticks a <;>
          simp only [hticks, Bool.toNat_true, Bool.toNat_false, if_true, Bool.false_eq_true,
            if_false] at hpays ⊢ <;> omega

theorem ticks_le (hgains : ∀ as a, gains (as ++ [a]) = gains as + gain a) {s₀ t : σ}
    {later : List α} (h : M.run s₀ later = some t)
    (hpay : ∀ as a bs s u, later = as ++ a :: bs → M.run s₀ as = some s → M.step s a = some u →
      (ticks a).toNat + debt s ≤ gain a + debt u) :
    later.countP ticks ≤ gains later + debt t := by
  have hpaid := ticks_paid (fun _ => gains later + 1) debt gain gains hgains h
    (fun _ _ _ _ _ _ _ _ => Nat.le_add_left _ _)
    (fun as a bs s u hsplit hs hu => .inr (hpay as a bs s u hsplit hs hu))
  exact hpaid.resolve_left (by omega)

end Credit

section Simulation
variable {τ : Type w} {β : Type x}

/-- A forward simulation in which each concrete step stands for a list of
abstract ones. `abs` need only agree with the abstract step from reachable
states. -/
structure Simulation (C : Machine σ α) (A : Machine τ β) where
  abs : σ → τ
  obs : α → List β
  init : abs C.init = A.init
  step : ∀ s a t, C.Reachable s → C.step s a = some t →
    A.run (abs s) (obs a) = some (abs t)

theorem Simulation.run {C : Machine σ α} {A : Machine τ β} (S : Simulation C A)
    {as : List α} {s : σ} (h : C.run C.init as = some s) :
    A.run A.init (as.flatMap S.obs) = some (S.abs s) := by
  refine run_induction (I := fun as s => A.run A.init (as.flatMap S.obs) = some (S.abs s))
    ?_ ?_ as s h
  · simp [S.init]
  · intro as s a t hs ih hstep
    rw [List.flatMap_append, run_append, ih]
    simpa using S.step s a t ⟨as, hs⟩ hstep

end Simulation

section Termination

/-- On every schedule, before `goal` is first met fewer than `n` steps of
`own` are taken and one more of them, of the `normal` kind, is enabled. With
any fairness towards `own` the goal is therefore met. -/
def Machine.Inevitable (M : Machine σ α) (own normal : α → Bool) (goal : σ → Prop)
    (n : Nat) (s : σ) : Prop :=
  ∀ as t, M.run s as = some t → M.Always (fun u => ¬ goal u) s as →
    as.countP own < n ∧ ∃ a u, own a ∧ normal a ∧ M.step t a = some u

/-- A variant that every own step decreases and no other step increases. -/
theorem inevitable_of_variant {own normal : α → Bool} {goal I : σ → Prop} (V : σ → Nat)
    (hI : ∀ s a t, I s → ¬ goal s → M.step s a = some t → goal t ∨ I t)
    (hdec : ∀ s a t, I s → ¬ goal s → own a → M.step s a = some t → V t < V s)
    (hle : ∀ s a t, I s → ¬ goal s → M.step s a = some t → V t ≤ V s)
    (henabled : ∀ s, I s → ¬ goal s → ∃ a u, own a ∧ normal a ∧ M.step s a = some u)
    {s : σ} (hs : I s) : M.Inevitable own normal goal (V s + 1) s := by
  intro as t hrun havoid
  have key : I t ∧ as.countP own + V t ≤ V s := by
    induction as generalizing s with
    | nil =>
      cases Option.some.inj hrun
      exact ⟨hs, by simp⟩
    | cons a as ih =>
      obtain ⟨u, hu, htail⟩ := (run_cons_eq_some M).mp hrun
      have hu' : ¬ goal u := by
        have := havoid.2 u hu
        cases as with
        | nil => exact this
        | cons => exact this.1
      have hIu : I u := (hI s a u hs havoid.1 hu).resolve_left hu'
      obtain ⟨hIt, hcount⟩ := ih hIu htail (havoid.2 u hu)
      refine ⟨hIt, ?_⟩
      rw [List.countP_cons]
      split
      · have := hdec s a u hs havoid.1 ‹_› hu
        omega
      · have := hle s a u hs havoid.1 hu
        omega
  exact ⟨by omega, henabled t key.1 (Machine.Always.last (P := fun u => ¬ goal u) hrun havoid)⟩

theorem Machine.Inevitable.mono {own normal : α → Bool} {goal : σ → Prop} {m n : Nat} {s : σ}
    (h : M.Inevitable own normal goal m s) (hmn : m ≤ n) : M.Inevitable own normal goal n s := by
  intro as t hrun havoid
  obtain ⟨hcount, henabled⟩ := h as t hrun havoid
  exact ⟨lt_of_lt_of_le hcount hmn, henabled⟩

/-- What no schedule avoids, the normal own steps alone lead to. -/
theorem Machine.Inevitable.reaches {own normal : α → Bool} {goal : σ → Prop} {n : Nat} {s : σ}
    (h : M.Inevitable own normal goal n s) :
    ∃ as t, M.run s as = some t ∧ goal t ∧ ∀ a ∈ as, own a ∧ normal a := by
  by_contra hnone
  have hlong : ∀ k, ∃ as t, M.run s as = some t ∧ M.Always (fun u => ¬ goal u) s as ∧
      (∀ a ∈ as, own a ∧ normal a) ∧ as.length = k := by
    intro k
    induction k with
    | zero =>
      refine ⟨[], s, rfl, fun hgoal => hnone ⟨[], s, rfl, hgoal, ?_⟩, ?_, rfl⟩ <;> simp
    | succ k ih =>
      obtain ⟨as, t, hrun, havoid, hall, hlength⟩ := ih
      obtain ⟨-, a, u, hown, hnormal, hstep⟩ := h as t hrun havoid
      have hrun' : M.run s (as ++ [a]) = some u := (run_snoc_eq_some M).mpr ⟨t, hrun, hstep⟩
      have hall' : ∀ b ∈ as ++ [a], own b ∧ normal b := by
        simpa [or_imp, forall_and, hown, hnormal] using hall
      have hu : ¬ goal u := fun hgoal => hnone ⟨_, u, hrun', hgoal, hall'⟩
      exact ⟨as ++ [a], u, hrun', (always_snoc hrun hstep).mpr ⟨havoid, hu⟩, hall',
        by simp [hlength]⟩
  obtain ⟨as, t, hrun, havoid, hall, hlength⟩ := hlong n
  have hcount : as.countP own = as.length := List.countP_eq_length.mpr fun a ha => (hall a ha).1
  have := (h as t hrun havoid).1
  omega

end Termination

end Zmqlog.Transition
