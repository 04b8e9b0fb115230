import Zmqlog.Logger
import Zmqlog.Refinement

/-! What a logger comes to for the threads that call it. Each call of `debug`
or `trace` acts as one application of `log`, at one instant between its begin
and its end, whatever the others do and however it ends. -/
namespace Zmqlog.Atomic
open Transition Refinement Exclusion Zmqpp
open Logger (Formatted Sent Pc logger log)

universe u v
variable {τ : Type u} [DecidableEq τ] {χ : Type v}

inductive Status (χ : Type v)
  | idle
  | called (c : χ)
  | done

inductive Ev (χ : Type v)
  | call (c : χ)
  | log (outcome : Sent) (handed : Option Frame)
  | ret

structure State (τ : Type u) (χ : Type v) where
  fmt : Frame
  status : τ → Status χ

def State.move (s : State τ χ) (t : τ) (status : Status χ) : State τ χ :=
  { s with status := Function.update s.status t status }

def atomic (format : χ → Formatted) : Machine (State τ χ) (τ × Ev χ) where
  init := ⟨[], fun _ => .idle⟩
  step s a :=
    match s.status a.1, a.2 with
    | .idle, .call c => some (s.move a.1 (.called c))
    | .called c, .log outcome handed =>
      if handed = (log format s.fmt c outcome).2 then
        some ({ s with fmt := (log format s.fmt c outcome).1 }.move a.1 .done)
      else none
    | .done, .ret => some (s.move a.1 .idle)
    | _, _ => none

inductive Seen (τ : Type u) (χ : Type v)
  | call (t : τ) (c : χ)
  | handed (t : τ) (frame : Frame) (outcome : Sent)
  | ret (t : τ)

def seenOfLogger : τ × Logger.Ev χ → Option (Seen τ χ)
  | (t, .call c) => some (.call t c)
  | (t, .send frame outcome) => some (.handed t frame outcome)
  | (t, .unlock) => some (.ret t)
  | _ => none

def seenOfAtomic : τ × Ev χ → Option (Seen τ χ)
  | (t, .call c) => some (.call t c)
  | (t, .log outcome (some frame)) => some (.handed t frame outcome)
  | (_, .log _ none) => none
  | (t, .ret) => some (.ret t)

/-- A call has taken effect once its frame is handed over or its formatting
has failed. -/
def statusOf : Pc χ → Status χ
  | .idle => .idle
  | .calling c | .locked c | .written c => .called c
  | .sent _ | .cleared _ | .unwinding _ => .done

/-- How far the writer is from what it is between calls, by where the call
inside is. -/
def Agrees (format : χ → Formatted) (fmt atomicFmt : Frame) : Pc χ → Prop
  | .written c => ∃ text, format c = .done text ∧ fmt = atomicFmt ++ text
  | .sent _ => atomicFmt = []
  | .locked _ | .cleared _ | .unwinding _ => fmt = atomicFmt
  | .idle | .calling _ => True

structure Related (format : χ → Formatted) (s : Logger.State τ χ) (u : State τ χ) : Prop where
  status : u.status = fun t => statusOf (s.pc t)
  quiet : s.Quiet → s.fmt = u.fmt
  agrees : ∀ t, Agrees format s.fmt u.fmt (s.pc t)

theorem agrees_outside {format : χ → Formatted} {fmt atomicFmt : Frame} {pc : Pc χ}
    (h : pc.inside = false) : Agrees format fmt atomicFmt pc := by
  cases pc <;> simp_all [Pc.inside, Agrees]

theorem statusOf_move (s : Logger.State τ χ) (t : τ) (pc : Pc χ) :
    (fun v => statusOf ((s.move t pc).pc v)) =
      Function.update (fun v => statusOf (s.pc v)) t (statusOf pc) := by
  funext v
  by_cases hv : v = t
  · simp [hv]
  · simp [hv, Logger.State.move_other hv]

section Status
variable {s : Logger.State τ χ} {u : State τ χ} (h : u.status = fun v => statusOf (s.pc v))
include h

theorem status_moves (t : τ) (pc : Pc χ) :
    (u.move t (statusOf pc)).status = fun v => statusOf ((s.move t pc).pc v) := by
  rw [statusOf_move, State.move, h]

theorem status_stays {t : τ} {pc pc' : Pc χ} (hpc : s.pc t = pc')
    (hsame : statusOf pc = statusOf pc') :
    u.status = fun v => statusOf ((s.move t pc).pc v) := by
  rw [statusOf_move, hsame, ← hpc, Function.update_eq_self, h]

end Status

theorem related_inside {format : χ → Formatted} {s : Logger.State τ χ} {u : State τ χ} {t : τ}
    {pc : Pc χ} {fmt : Frame} {holder : Option τ}
    (hexclusive : (Logger.State.move ⟨holder, fmt, s.pc⟩ t pc).critical.Exclusive)
    (hin : pc.inside = true)
    (hstatus : u.status = fun v => statusOf ((s.move t pc).pc v))
    (hagrees : Agrees format fmt u.fmt pc) :
    Related format (Logger.State.move ⟨holder, fmt, s.pc⟩ t pc) u where
  status := hstatus
  quiet := by
    intro hquiet
    have := hquiet t
    simp [hin] at this
  agrees := by
    intro v
    by_cases hv : v = t
    · simpa [hv] using hagrees
    · apply agrees_outside
      by_contra hinside
      refine hv (hexclusive v t ?_ ?_)
      · simpa [Logger.State.critical] using hinside
      · simpa [Logger.State.critical] using hin

theorem quiet_but {s : Logger.State τ χ} {t : τ} {pc : Pc χ}
    (hexclusive : (s.move t pc).critical.Exclusive) (hin : pc.inside = true) {v : τ}
    (hv : v ≠ t) : (s.pc v).inside = false := by
  by_contra hinside
  refine hv (hexclusive v t ?_ ?_)
  · simpa [Logger.State.critical, Logger.State.move_other hv] using hinside
  · simpa [Logger.State.critical] using hin

theorem related_step {L : Lock} {format : χ → Formatted} {s s' : Logger.State τ χ}
    {u : State τ χ} {a : τ × Logger.Ev χ} (hs : s.critical.Exclusive)
    (hs' : s'.critical.Exclusive) (h : Related format s u)
    (hstep : (logger L format).step s a = some s') :
    ∃ bs u', (atomic format).run u bs = some u' ∧ Related format s' u' ∧
      visible seenOfAtomic bs = (seenOfLogger a).toList := by
  obtain ⟨t, ev⟩ := a
  have hcase : Logger.Step L format s t ev s' := Logger.step_of_eq hstep
  have hstatus : u.status t = statusOf (s.pc t) := congrFun h.status t
  have hagrees := h.agrees t
  cases hcase with
  | call c hpc =>
    rw [hpc] at hstatus
    refine ⟨[(t, .call c)], u.move t (.called c), ?_, ⟨?_, ?_, ?_⟩, rfl⟩
    · simp [atomic, hstatus, statusOf]
    · exact status_moves h.status t (.calling c)
    · intro hquiet
      apply h.quiet
      intro v
      by_cases hv : v = t
      · rw [hv, hpc]
        rfl
      · rw [← Logger.State.move_other hv]
        exact hquiet v
    · intro v
      by_cases hv : v = t
      · subst hv
        simp [Agrees]
      · rw [Logger.State.move_other hv]
        exact h.agrees v
  | lock c hpc hfree =>
    have hquiet : s.Quiet := by
      intro v
      by_cases hv : v = t
      · rw [hv, hpc]
        rfl
      · exact quiet_but (s := { s with holder := L.take s.holder t }) hs' rfl hv
    refine ⟨[], u, rfl, ?_, rfl⟩
    exact related_inside hs' rfl (status_stays h.status hpc rfl) (h.quiet hquiet)
  | write c text hpc hformat =>
    rw [hpc] at hagrees
    refine ⟨[], u, rfl, ?_, rfl⟩
    exact related_inside hs' rfl (status_stays h.status hpc rfl)
      ⟨text, hformat, congrArg (· ++ text) hagrees⟩
  | fault c before hpc hformat =>
    rw [hpc] at hagrees hstatus
    refine ⟨[(t, .log .refused none)], { u with fmt := u.fmt ++ before }.move t .done, ?_, ?_, rfl⟩
    · simp [atomic, hstatus, statusOf, log, hformat]
    · exact related_inside hs' rfl (status_moves h.status t (.unwinding c))
        (congrArg (· ++ before) hagrees)
  | send c frame outcome hpc hframe hsent =>
    rw [hpc] at hagrees hstatus
    obtain ⟨text, hformat, hfmt⟩ := hagrees
    have hlog : log format u.fmt c outcome = ([], some frame) := by
      rw [hframe, hfmt]
      cases outcome with
      | threw => exact absurd rfl hsent
      | accepted => simp [log, hformat]
      | refused => simp [log, hformat]
    refine ⟨[(t, .log outcome (some frame))], { u with fmt := [] }.move t .done, ?_, ?_, rfl⟩
    · simp [atomic, hstatus, statusOf, hlog]
    · exact related_inside hs' rfl (status_moves h.status t (.sent c)) rfl
  | sendThrow c frame hpc hframe =>
    rw [hpc] at hagrees hstatus
    obtain ⟨text, hformat, hfmt⟩ := hagrees
    have hlog : log format u.fmt c .threw = (s.fmt, some frame) := by
      rw [hframe, hfmt]
      simp [log, hformat]
    refine ⟨[(t, .log .threw (some frame))], { u with fmt := s.fmt }.move t .done, ?_, ?_, rfl⟩
    · simp [atomic, hstatus, statusOf, hlog]
    · exact related_inside hs' rfl (status_moves h.status t (.unwinding c)) rfl
  | clear c hpc =>
    rw [hpc] at hagrees
    have hempty : u.fmt = [] := hagrees
    refine ⟨[], u, rfl, ?_, rfl⟩
    exact related_inside hs' rfl (status_stays h.status hpc rfl) hempty.symm
  | unlock hpc =>
    have hdone : statusOf (s.pc t) = .done := by
      rcases hpc with ⟨c, hpc⟩ | ⟨c, hpc⟩ <;> rw [hpc] <;> rfl
    have hfmt : s.fmt = u.fmt := by
      rcases hpc with ⟨c, hpc⟩ | ⟨c, hpc⟩ <;> rw [hpc] at hagrees <;> exact hagrees
    have hin : s.critical.inside t = true := by
      rcases hpc with ⟨c, hpc⟩ | ⟨c, hpc⟩ <;> exact congrArg Pc.inside hpc
    refine ⟨[(t, .ret)], u.move t .idle, ?_, ⟨?_, fun _ => hfmt, fun v => ?_⟩, rfl⟩
    · simp [atomic, hstatus, hdone]
    · exact status_moves h.status t .idle
    · by_cases hv : v = t
      · subst hv
        simp [Agrees]
      · rw [Logger.State.move_other hv]
        apply agrees_outside
        by_contra hinside
        exact hv (hs v t (by simpa [Logger.State.critical] using hinside) hin)

/-- The logger refines its atomic form, under a mutex for any threads and
under the null lock for one. -/
def matching (L : Lock) (format : χ → Formatted) :
    Matching (logger L format : Machine (Logger.State τ χ) (τ × Logger.Ev χ))
      (atomic format : Machine (State τ χ) (τ × Ev χ)) seenOfLogger seenOfAtomic
      (fun acts => Serial L (acts.map Prod.fst)) where
  rel := Related format
  init := ⟨rfl, fun _ => rfl, fun _ => trivial⟩
  closed := fun as a hserial => hserial.mono (by simp_all)
  step := by
    intro as s a s' u hs hserial h hstep
    have hs' := (run_snoc_eq_some (logger L format)).mpr ⟨s, hs, hstep⟩
    exact related_step (Logger.calls_exclusive (hserial.mono (by simp_all)) hs)
      (Logger.calls_exclusive hserial hs') h hstep

/-- With a mutex or a single thread every run of a logger shows what some run of
the atomic one shows, calls, frames and returns in the same order, and leaves
the same text behind. -/
theorem linearizable (L : Lock) (format : χ → Formatted) (acts : List (τ × Logger.Ev χ))
    (s : Logger.State τ χ) (hserial : Serial L (acts.map Prod.fst))
    (h : (logger L format).run (logger L format).init acts = some s) :
    ∃ calls u, (atomic format).run (atomic format).init calls = some u ∧
      visible seenOfAtomic calls = visible seenOfLogger acts ∧ (s.Quiet → s.fmt = u.fmt) := by
  obtain ⟨calls, u, hu, hrel, hseen⟩ := (matching L format).run hserial h
  exact ⟨calls, u, hu, hseen, hrel.quiet⟩

def overlapping : List (Nat × Logger.Ev Formatted) :=
  [(0, .call (.fault [97])), (0, .lock), (1, .call (.done [98])), (0, .write), (0, .unlock),
    (1, .lock), (1, .write), (1, .send [97, 98] .accepted), (1, .clear), (1, .unlock)]

theorem linearizable_overlapping :
    ∃ s, (logger .mutex id).run (logger .mutex id).init overlapping = some s ∧
      ∃ calls u, (atomic id).run (atomic id).init calls = some u ∧
        visible seenOfAtomic calls = visible seenOfLogger overlapping ∧
          (s.Quiet → s.fmt = u.fmt) :=
  ⟨_, rfl, linearizable .mutex id overlapping _ (.inl rfl) rfl⟩

end Zmqlog.Atomic
