import Zmqlog.Exclusion
import Zmqlog.Zmqpp

/-! `zlog<LOCK>::log`, called through `debug` and `trace`. Any number of
threads share one logger: the lock, and the writer `m_fmt`, which outlives
each call. -/
namespace Zmqlog.Logger
open Transition Exclusion Zmqpp

universe u v
variable {τ : Type u} [DecidableEq τ] {χ : Type v}

/-- What `MemoryWriter::write` does with a format string and its arguments:
append all of the text, or append the text before the error and throw. -/
inductive Formatted
  | done (text : Frame)
  | fault (before : Frame)
deriving DecidableEq

def Formatted.appended : Formatted → Frame
  | .done text => text
  | .fault before => before

/-- `m_push.send(.., true)` returns true, returns false, or throws. -/
inductive Sent
  | accepted
  | refused
  | threw
deriving DecidableEq

/-! One call on its own: the writer before it, the writer after it, and the
frame that it hands to `m_push.send`, if it comes that far. -/

def log (format : χ → Formatted) (fmt : Frame) (c : χ) (outcome : Sent) :
    Frame × Option Frame :=
  match format c with
  | .fault before => (fmt ++ before, none)
  | .done text =>
    match outcome with
    | .threw => (fmt ++ text, some (fmt ++ text))
    | .accepted | .refused => ([], some (fmt ++ text))

def debug (format : χ → Formatted) (fmt : Frame) (c : χ) (outcome : Sent) :
    Frame × Option Frame :=
  log format fmt c outcome

def trace (format : χ → Formatted) (fmt : Frame) (c : χ) (outcome : Sent) :
    Frame × Option Frame :=
  log format fmt c outcome

inductive Pc (χ : Type v)
  | idle
  | calling (c : χ)
  | locked (c : χ)
  | written (c : χ)
  | sent (c : χ)
  | cleared (c : χ)
  | unwinding (c : χ)

def Pc.inside : Pc χ → Bool
  | .idle | .calling _ => false
  | .locked _ | .written _ | .sent _ | .cleared _ | .unwinding _ => true

inductive Ev (χ : Type v)
  | call (c : χ)
  | lock
  | write
  | send (frame : Frame) (outcome : Sent)
  | clear
  | unlock

structure State (τ : Type u) (χ : Type v) where
  holder : Option τ
  fmt : Frame
  pc : τ → Pc χ

def State.move (s : State τ χ) (t : τ) (pc : Pc χ) : State τ χ :=
  { s with pc := Function.update s.pc t pc }

@[simp] theorem State.move_holder (s : State τ χ) (t : τ) (pc : Pc χ) :
    (s.move t pc).holder = s.holder := rfl

@[simp] theorem State.move_fmt (s : State τ χ) (t : τ) (pc : Pc χ) :
    (s.move t pc).fmt = s.fmt := rfl

@[simp] theorem State.move_self (s : State τ χ) (t : τ) (pc : Pc χ) :
    (s.move t pc).pc t = pc := by
  simp [State.move]

theorem State.move_other {s : State τ χ} {t u : τ} {pc : Pc χ} (h : u ≠ t) :
    (s.move t pc).pc u = s.pc u := by
  simp [State.move, h]

def logger (L : Lock) (format : χ → Formatted) : Machine (State τ χ) (τ × Ev χ) where
  init := ⟨none, [], fun _ => .idle⟩
  step s a :=
    match s.pc a.1, a.2 with
    | .idle, .call c => some (s.move a.1 (.calling c))
    | .calling c, .lock =>
      if L.admits s.holder then
        some ({ s with holder := L.take s.holder a.1 }.move a.1 (.locked c))
      else none
    | .locked c, .write =>
      match format c with
      | .done text => some ({ s with fmt := s.fmt ++ text }.move a.1 (.written c))
      | .fault before => some ({ s with fmt := s.fmt ++ before }.move a.1 (.unwinding c))
    | .written c, .send frame outcome =>
      if frame = s.fmt then
        some (s.move a.1 (if outcome = .threw then .unwinding c else .sent c))
      else none
    | .sent c, .clear => some ({ s with fmt := [] }.move a.1 (.cleared c))
    -- `unique_lock` releases on the way out of `log`, also under an exception.
    | .cleared _, .unlock => some ({ s with holder := L.drop s.holder }.move a.1 .idle)
    | .unwinding _, .unlock => some ({ s with holder := L.drop s.holder }.move a.1 .idle)
    | _, _ => none

inductive Step (L : Lock) (format : χ → Formatted) (s : State τ χ) (t : τ) :
    Ev χ → State τ χ → Prop
  | call (c : χ) (hpc : s.pc t = .idle) :
      Step L format s t (.call c) (s.move t (.calling c))
  | lock (c : χ) (hpc : s.pc t = .calling c) (hfree : L.admits s.holder = true) :
      Step L format s t .lock
        ({ s with holder := L.take s.holder t }.move t (.locked c))
  | write (c : χ) (text : Frame) (hpc : s.pc t = .locked c)
      (hformat : format c = .done text) :
      Step L format s t .write ({ s with fmt := s.fmt ++ text }.move t (.written c))
  | fault (c : χ) (before : Frame) (hpc : s.pc t = .locked c)
      (hformat : format c = .fault before) :
      Step L format s t .write ({ s with fmt := s.fmt ++ before }.move t (.unwinding c))
  | send (c : χ) (frame : Frame) (outcome : Sent) (hpc : s.pc t = .written c)
      (hframe : frame = s.fmt) (hsent : outcome ≠ .threw) :
      Step L format s t (.send frame outcome) (s.move t (.sent c))
  | sendThrow (c : χ) (frame : Frame) (hpc : s.pc t = .written c) (hframe : frame = s.fmt) :
      Step L format s t (.send frame .threw) (s.move t (.unwinding c))
  | clear (c : χ) (hpc : s.pc t = .sent c) :
      Step L format s t .clear ({ s with fmt := [] }.move t (.cleared c))
  | unlock (hpc : (∃ c, s.pc t = .cleared c) ∨ ∃ c, s.pc t = .unwinding c) :
      Step L format s t .unlock ({ s with holder := L.drop s.holder }.move t .idle)

theorem step_of_eq {L : Lock} {format : χ → Formatted} {s u : State τ χ} {a : τ × Ev χ}
    (h : (logger L format).step s a = some u) : Step L format s a.1 a.2 u := by
  rcases a with ⟨t, ev⟩
  simp only [logger] at h
  split at h
  · rename_i c hpc
    cases Option.some.inj h
    exact .call c hpc
  · rename_i c hpc
    split at h
    · rename_i hfree
      cases Option.some.inj h
      exact .lock c hpc hfree
    · cases h
  · rename_i c hpc
    split at h
    · rename_i text hformat
      cases Option.some.inj h
      exact .write c text hpc hformat
    · rename_i before hformat
      cases Option.some.inj h
      exact .fault c before hpc hformat
  · rename_i c frame outcome hpc
    split at h
    · rename_i hframe
      cases Option.some.inj h
      by_cases hthrew : outcome = .threw
      · subst hthrew
        exact .sendThrow c frame hpc hframe
      · rw [if_neg hthrew]
        exact .send c frame outcome hpc hframe hthrew
    · cases h
  · rename_i c hpc
    cases Option.some.inj h
    exact .clear c hpc
  · rename_i c hpc
    cases Option.some.inj h
    exact .unlock (.inl ⟨c, hpc⟩)
  · rename_i c hpc
    cases Option.some.inj h
    exact .unlock (.inr ⟨c, hpc⟩)
  · cases h

def callSteps (format : χ → Formatted) (fmt : Frame) (c : χ) (outcome : Sent) : List (Ev χ) :=
  match format c, outcome with
  | .fault _, _ => [.call c, .lock, .write, .unlock]
  | .done text, .threw => [.call c, .lock, .write, .send (fmt ++ text) .threw, .unlock]
  | .done text, outcome =>
    [.call c, .lock, .write, .send (fmt ++ text) outcome, .clear, .unlock]

theorem run_step {L : Lock} {format : χ → Formatted} {s u : State τ χ} {t : τ} {ev : Ev χ}
    (h : Step L format s t ev u) (acts : List (τ × Ev χ)) :
    (logger L format).run s ((t, ev) :: acts) = (logger L format).run u acts := by
  have hstep : (logger L format).step s (t, ev) = some u := by
    cases h with
    | call c hpc => simp [logger, hpc]
    | lock c hpc hfree => simp [logger, hpc, hfree]
    | write c text hpc hformat => simp [logger, hpc, hformat]
    | fault c before hpc hformat => simp [logger, hpc, hformat]
    | send c frame outcome hpc hframe hsent => simp [logger, hpc, hframe, hsent]
    | sendThrow c frame hpc hframe => simp [logger, hpc, hframe]
    | clear c hpc => simp [logger, hpc]
    | unlock hpc => rcases hpc with ⟨c, hpc⟩ | ⟨c, hpc⟩ <;> simp [logger, hpc]
  rw [run_cons, hstep]
  rfl

theorem run_callSteps (L : Lock) (format : χ → Formatted) (s : State τ χ) (t : τ) (c : χ)
    (outcome : Sent) (hpc : s.pc t = .idle) (hfree : L.admits s.holder = true) :
    (logger L format).run s ((callSteps format s.fmt c outcome).map (Prod.mk t)) =
      some ⟨L.drop (L.take s.holder t), (log format s.fmt c outcome).1, s.pc⟩ := by
  have hback : Function.update s.pc t .idle = s.pc := by
    rw [← hpc, Function.update_eq_self]
  cases hformat : format c with
  | fault before =>
    simp only [callSteps, log, hformat, List.map_cons, List.map_nil]
    rw [run_step (.call c hpc), run_step (.lock c (State.move_self _ _ _) hfree),
      run_step (.fault c before (State.move_self _ _ _) hformat),
      run_step (.unlock (.inr ⟨c, State.move_self _ _ _⟩))]
    simp [State.move, hback]
  | done text =>
    by_cases hsent : outcome = .threw
    · subst hsent
      simp only [callSteps, log, hformat, List.map_cons, List.map_nil]
      rw [run_step (.call c hpc), run_step (.lock c (State.move_self _ _ _) hfree),
        run_step (.write c text (State.move_self _ _ _) hformat),
        run_step (.sendThrow c _ (State.move_self _ _ _) (by rfl)),
        run_step (.unlock (.inr ⟨c, State.move_self _ _ _⟩))]
      simp [State.move, hback]
    · have hlog : log format s.fmt c outcome = ([], some (s.fmt ++ text)) := by
        cases outcome <;> simp_all [log]
      have hsteps : callSteps format s.fmt c outcome =
          [.call c, .lock, .write, .send (s.fmt ++ text) outcome, .clear, .unlock] := by
        cases outcome <;> simp_all [callSteps]
      simp only [hlog, hsteps, List.map_cons, List.map_nil]
      rw [run_step (.call c hpc), run_step (.lock c (State.move_self _ _ _) hfree),
        run_step (.write c text (State.move_self _ _ _) hformat),
        run_step (.send c _ outcome (State.move_self _ _ _) (by rfl) hsent),
        run_step (.clear c (State.move_self _ _ _)),
        run_step (.unlock (.inl ⟨c, State.move_self _ _ _⟩))]
      simp [State.move, hback]

def State.critical (s : State τ χ) : Section τ := ⟨s.holder, fun t => (s.pc t).inside⟩

def State.Quiet (s : State τ χ) : Prop := ∀ t, (s.pc t).inside = false

theorem critical_move (s : State τ χ) (t : τ) (pc : Pc χ) :
    (s.move t pc).critical = ⟨s.holder, Function.update s.critical.inside t pc.inside⟩ := by
  unfold State.critical
  congr 1
  funext u
  by_cases hu : u = t
  · simp [hu]
  · simp [hu, State.move_other hu]

theorem critical_move_same {s : State τ χ} {t : τ} {pc : Pc χ}
    (h : pc.inside = (s.pc t).inside) : (s.move t pc).critical = s.critical := by
  rw [critical_move, h, show (s.pc t).inside = s.critical.inside t from rfl,
    Function.update_eq_self]
  rfl

def moves : τ × Ev χ → List (Move τ)
  | (t, .lock) => [.enter t]
  | (t, .unlock) => [.leave t]
  | _ => []

omit [DecidableEq τ] in
theorem mem_moves {a : τ × Ev χ} {m : Move τ} (h : m ∈ moves a) : m.thread = a.1 := by
  unfold moves at h
  split at h <;> simp_all [Move.thread]

def onLock (L : Lock) (format : χ → Formatted) :
    Simulation (logger L format : Machine (State τ χ) (τ × Ev χ))
      (Exclusion.lock L : Machine (Section τ) (Move τ)) where
  abs := State.critical
  obs := moves
  init := rfl
  step := by
    intro s a u _ hstep
    rcases a with ⟨t, ev⟩
    have hcase : Step L format s t ev u := step_of_eq hstep
    cases hcase with
    | call c hpc => exact congrArg some (critical_move_same (by rw [hpc]; rfl)).symm
    | lock c hpc hfree =>
      have hout : s.critical.inside t = false := congrArg Pc.inside hpc
      refine (run_cons_eq_some _).mpr ⟨_, enter_eq_some.mpr ⟨⟨hout, hfree⟩, rfl⟩, ?_⟩
      rw [run_nil, critical_move]
      rfl
    | write c text hpc _ => exact congrArg some (critical_move_same (by rw [hpc]; rfl)).symm
    | fault c before hpc _ => exact congrArg some (critical_move_same (by rw [hpc]; rfl)).symm
    | send c frame outcome hpc _ _ =>
      exact congrArg some (critical_move_same (by rw [hpc]; rfl)).symm
    | sendThrow c frame hpc _ => exact congrArg some (critical_move_same (by rw [hpc]; rfl)).symm
    | clear c hpc => exact congrArg some (critical_move_same (by rw [hpc]; rfl)).symm
    | unlock hpc =>
      have hin : s.critical.inside t = true := by
        rcases hpc with ⟨c, hpc⟩ | ⟨c, hpc⟩ <;> exact congrArg Pc.inside hpc
      refine (run_cons_eq_some _).mpr ⟨_, leave_eq_some.mpr ⟨hin, rfl⟩, ?_⟩
      rw [run_nil, critical_move]
      rfl

/-- At most one call at a time is inside: for a mutex always, for the null
lock as long as one thread does the logging. -/
theorem calls_exclusive {L : Lock} {format : χ → Formatted} {acts : List (τ × Ev χ)}
    {s : State τ χ} (hserial : Serial L (acts.map Prod.fst))
    (h : (logger L format).run (logger L format).init acts = some s) :
    s.critical.Exclusive := by
  refine exclusive (hserial.mono ?_) ((onLock L format).run h)
  intro t ht
  rcases List.mem_map.mp ht with ⟨m, hm, rfl⟩
  rcases List.mem_flatMap.mp hm with ⟨a, ha, hma⟩
  exact List.mem_map.mpr ⟨a, ha, (mem_moves hma).symm⟩

/-- A frame handed to `send` is the formatted text of the call that hands it
over. -/
def Own (format : χ → Formatted) (s : State τ χ) (a : τ × Ev χ) : Prop :=
  ∀ c frame outcome, s.pc a.1 = .written c → a.2 = .send frame outcome →
    format c = .done frame

def Isolated (L : Lock) (format : χ → Formatted) (acts : List (τ × Ev χ)) : Prop :=
  (logger L format).Steps (Own format) (logger L format).init acts ∧
    (logger L format).Always (fun s => s.Quiet → s.fmt = []) (logger L format).init acts

/-- A call that throws, in the formatter or in the send, throws before it has
put any text into the writer. -/
def clean (format : χ → Formatted) (s : State τ χ) (a : τ × Ev χ) : Bool :=
  match s.pc a.1, a.2 with
  | .locked c, .write =>
    match format c with
    | .done _ => true
    | .fault before => before.isEmpty
  | .written c, .send _ .threw => (format c).appended.isEmpty
  | _, _ => true

/-- What the writer holds, by where the call inside is. -/
def Pc.Holds (format : χ → Formatted) (fmt : Frame) : Pc χ → Prop
  | .locked _ | .cleared _ | .unwinding _ => fmt = []
  | .written c => format c = .done fmt
  | .idle | .calling _ | .sent _ => True

structure Tidy (format : χ → Formatted) (s : State τ χ) : Prop where
  exclusive : s.critical.Exclusive
  quiet : s.Quiet → s.fmt = []
  holds : ∀ t, (s.pc t).Holds format s.fmt

theorem Pc.holds_outside {format : χ → Formatted} {fmt : Frame} {pc : Pc χ}
    (h : pc.inside = false) : pc.Holds format fmt := by
  cases pc <;> simp_all [Pc.inside, Pc.Holds]

theorem tidy_move_inside {format : χ → Formatted} {s : State τ χ} {t : τ} {pc : Pc χ}
    {fmt : Frame} {holder : Option τ}
    (hexclusive : (State.move ⟨holder, fmt, s.pc⟩ t pc).critical.Exclusive)
    (hin : pc.inside = true) (hholds : pc.Holds format fmt) :
    Tidy format (State.move ⟨holder, fmt, s.pc⟩ t pc) where
  exclusive := hexclusive
  quiet := by
    intro hquiet
    have := hquiet t
    simp [hin] at this
  holds := by
    intro u
    by_cases hu : u = t
    · simpa [hu] using hholds
    · apply Pc.holds_outside
      by_contra hinside
      refine hu (hexclusive u t ?_ ?_)
      · simpa [State.critical] using hinside
      · simpa [State.critical] using hin

theorem tidy_step {L : Lock} {format : χ → Formatted} {s u : State τ χ} {a : τ × Ev χ}
    (hs : Tidy format s) (hu : u.critical.Exclusive) (hclean : clean format s a = true)
    (hstep : (logger L format).step s a = some u) : Tidy format u := by
  rcases a with ⟨t, ev⟩
  have hcase : Step L format s t ev u := step_of_eq hstep
  have hholds := hs.holds t
  cases hcase with
  | call c hpc =>
    have hout : ∀ v, ((s.move t (.calling c)).pc v).inside = (s.pc v).inside := by
      intro v
      by_cases hv : v = t
      · subst hv
        simp [hpc, Pc.inside]
      · rw [State.move_other hv]
    refine ⟨hu, fun hquiet => hs.quiet fun v => (hout v).symm.trans (hquiet v), fun v => ?_⟩
    by_cases hv : v = t
    · subst hv
      simp [Pc.Holds]
    · rw [State.move_other hv]
      exact hs.holds v
  | lock c hpc hfree =>
    have hquiet : s.Quiet := by
      intro v
      by_cases hv : v = t
      · rw [hv, hpc]
        rfl
      · by_contra hinside
        refine hv (hu v t ?_ ?_)
        · simpa [State.critical, State.move_other hv] using hinside
        · simp [State.critical, Pc.inside]
    exact tidy_move_inside hu rfl (hs.quiet hquiet)
  | write c text hpc hformat =>
    rw [hpc] at hholds
    apply tidy_move_inside hu rfl
    rw [show s.fmt = [] from hholds]
    exact hformat
  | fault c before hpc hformat =>
    rw [hpc] at hholds
    have hbefore : before = [] := by simpa [clean, hpc, hformat] using hclean
    apply tidy_move_inside hu rfl
    rw [show s.fmt = [] from hholds, hbefore]
    rfl
  | send c frame outcome hpc _ _ => exact tidy_move_inside hu rfl trivial
  | sendThrow c frame hpc _ =>
    rw [hpc] at hholds
    have hformat : format c = .done s.fmt := hholds
    have hempty : s.fmt = [] := by
      simpa [clean, hpc, hformat, Formatted.appended] using hclean
    exact tidy_move_inside hu rfl hempty
  | clear c hpc => exact tidy_move_inside hu rfl rfl
  | unlock hpc =>
    have hempty : s.fmt = [] := by
      rcases hpc with ⟨c, hpc⟩ | ⟨c, hpc⟩ <;> rw [hpc] at hholds <;> exact hholds
    have hin : s.critical.inside t = true := by
      rcases hpc with ⟨c, hpc⟩ | ⟨c, hpc⟩ <;> exact congrArg Pc.inside hpc
    refine ⟨hu, fun _ => hempty, fun v => ?_⟩
    by_cases hv : v = t
    · subst hv
      simp [Pc.Holds]
    · rw [State.move_other hv]
      apply Pc.holds_outside
      by_contra hinside
      exact hv (hs.exclusive v t (by simpa [State.critical] using hinside) hin)

theorem own_of_tidy {L : Lock} {format : χ → Formatted} {s u : State τ χ} {a : τ × Ev χ}
    (hs : Tidy format s) (hstep : (logger L format).step s a = some u) : Own format s a := by
  rcases a with ⟨t, ev⟩
  rintro c frame outcome hpc rfl
  have hholds := hs.holds t
  rw [show s.pc t = .written c from hpc] at hholds
  have hcase : Step L format s t (.send frame outcome) u := step_of_eq hstep
  cases hcase with
  | send c frame outcome _ hframe _ => exact hframe ▸ hholds
  | sendThrow c frame _ hframe => exact hframe ▸ hholds

theorem isolated_of_clean {L : Lock} {format : χ → Formatted} {acts : List (τ × Ev χ)}
    {s : State τ χ} (hserial : Serial L (acts.map Prod.fst))
    (h : (logger L format).run (logger L format).init acts = some s)
    (hclean : (logger L format).Steps (fun s a => clean format s a = true)
      (logger L format).init acts) :
    Tidy format s ∧ Isolated L format acts := by
  revert hserial hclean
  refine run_induction (I := fun acts s => Serial L (acts.map Prod.fst) →
    (logger L format).Steps (fun s a => clean format s a = true) (logger L format).init acts →
      Tidy format s ∧ Isolated L format acts) ?_ ?_ acts s h
  · intro _ _
    refine ⟨⟨?_, fun _ => rfl, fun _ => trivial⟩, trivial, fun _ => rfl⟩
    simp [Section.Exclusive, State.critical, logger, Pc.inside]
  · intro acts s a u hrun ih hstep hserial hsteps
    have hserial' : Serial L (acts.map Prod.fst) := hserial.mono (by simp_all)
    have hu : u.critical.Exclusive :=
      calls_exclusive hserial ((run_snoc_eq_some _).mpr ⟨s, hrun, hstep⟩)
    rcases (steps_snoc hrun).mp hsteps with ⟨hpast, hlast⟩
    rcases ih hserial' hpast with ⟨htidy, hown, hquiet⟩
    have htidy' := tidy_step htidy hu hlast hstep
    exact ⟨htidy', (steps_snoc hrun).mpr ⟨hown, own_of_tidy htidy hstep⟩,
      (always_snoc hrun hstep).mpr ⟨hquiet, htidy'.quiet⟩⟩

def State.Soiled (s : State τ χ) : Prop :=
  ∃ t c, s.pc t = .unwinding c ∧ s.fmt ≠ []

theorem soiled_of_not_clean {L : Lock} {format : χ → Formatted} {s u : State τ χ}
    {a : τ × Ev χ} (hs : Tidy format s) (hclean : clean format s a = false)
    (hstep : (logger L format).step s a = some u) : u.Soiled := by
  rcases a with ⟨t, ev⟩
  have hcase : Step L format s t ev u := step_of_eq hstep
  cases hcase with
  | fault c before hpc hformat =>
    refine ⟨t, c, State.move_self _ _ _, ?_⟩
    have hbefore : before ≠ [] := by simpa [clean, hpc, hformat] using hclean
    simp [hbefore]
  | sendThrow c frame hpc _ =>
    refine ⟨t, c, State.move_self _ _ _, ?_⟩
    have hholds := hs.holds t
    rw [hpc] at hholds
    have hformat : format c = .done s.fmt := hholds
    simpa [clean, hpc, hformat, Formatted.appended] using hclean
  | call c hpc => simp [clean, hpc] at hclean
  | lock c hpc _ => simp [clean, hpc] at hclean
  | write c text hpc hformat => simp [clean, hpc, hformat] at hclean
  | send c frame outcome hpc _ hsent =>
    cases outcome with
    | threw => exact absurd rfl hsent
    | accepted => simp [clean, hpc] at hclean
    | refused => simp [clean, hpc] at hclean
  | clear c hpc => simp [clean, hpc] at hclean
  | unlock hpc => rcases hpc with ⟨c, hpc⟩ | ⟨c, hpc⟩ <;> simp [clean, hpc] at hclean

/-- The left-over text stays until the call has released the lock, and is
there when no call is inside any more. -/
theorem soiled_step {L : Lock} {format : χ → Formatted} {s u : State τ χ} {a : τ × Ev χ}
    (hs : s.critical.Exclusive) (hu : u.critical.Exclusive) (hsoiled : s.Soiled)
    (hstep : (logger L format).step s a = some u) :
    u.Soiled ∨ (u.Quiet ∧ u.fmt ≠ []) := by
  rcases hsoiled with ⟨t₀, c₀, hpc₀, hfmt⟩
  rcases a with ⟨t, ev⟩
  have hin₀ : s.critical.inside t₀ = true := congrArg Pc.inside hpc₀
  have hcase : Step L format s t ev u := step_of_eq hstep
  by_cases ht : t = t₀
  · subst ht
    cases hcase with
    | unlock _ =>
      refine .inr ⟨fun v => ?_, hfmt⟩
      by_cases hv : v = t
      · simp [hv, Pc.inside]
      · rw [State.move_other hv]
        by_contra hinside
        exact hv (hs v t (by simpa [State.critical] using hinside) hin₀)
    | call c hpc => simp [hpc] at hpc₀
    | lock c hpc _ => simp [hpc] at hpc₀
    | write c text hpc _ => simp [hpc] at hpc₀
    | fault c before hpc _ => simp [hpc] at hpc₀
    | send c frame outcome hpc _ _ => simp [hpc] at hpc₀
    | sendThrow c frame hpc _ => simp [hpc] at hpc₀
    | clear c hpc => simp [hpc] at hpc₀
  · have hout : (s.pc t).inside = false := by
      by_contra hinside
      exact ht (hs t t₀ (by simpa [State.critical] using hinside) hin₀)
    cases hcase with
    | call c hpc =>
      exact .inl ⟨t₀, c₀, by rw [State.move_other (Ne.symm ht)]; exact hpc₀, hfmt⟩
    | lock c hpc _ =>
      refine absurd (hu t t₀ ?_ ?_) ht
      · simp [State.critical, Pc.inside]
      · simp [State.critical, State.move_other (Ne.symm ht), hpc₀, Pc.inside]
    | write c text hpc _ => simp [hpc, Pc.inside] at hout
    | fault c before hpc _ => simp [hpc, Pc.inside] at hout
    | send c frame outcome hpc _ _ => simp [hpc, Pc.inside] at hout
    | sendThrow c frame hpc _ => simp [hpc, Pc.inside] at hout
    | clear c hpc => simp [hpc, Pc.inside] at hout
    | unlock hpc => rcases hpc with ⟨c, hpc⟩ | ⟨c, hpc⟩ <;> simp [hpc, Pc.inside] at hout

theorem clean_or_soiled {L : Lock} {format : χ → Formatted} {acts : List (τ × Ev χ)}
    {s : State τ χ} (hserial : Serial L (acts.map Prod.fst))
    (h : (logger L format).run (logger L format).init acts = some s)
    (hisolated : Isolated L format acts) :
    (logger L format).Steps (fun s a => clean format s a = true) (logger L format).init acts ∨
      s.Soiled := by
  revert hserial hisolated
  refine run_induction (I := fun acts s => Serial L (acts.map Prod.fst) →
    Isolated L format acts →
      (logger L format).Steps (fun s a => clean format s a = true) (logger L format).init acts ∨
        s.Soiled) ?_ ?_ acts s h
  · intro _ _
    exact .inl trivial
  · intro acts s a u hrun ih hstep hserial hisolated
    have hserial' : Serial L (acts.map Prod.fst) := hserial.mono (by simp_all)
    have hs : s.critical.Exclusive := calls_exclusive hserial' hrun
    have hu : u.critical.Exclusive :=
      calls_exclusive hserial ((run_snoc_eq_some _).mpr ⟨s, hrun, hstep⟩)
    have hown := (steps_snoc hrun).mp hisolated.1
    have hquiet := (always_snoc hrun hstep).mp hisolated.2
    rcases ih hserial' ⟨hown.1, hquiet.1⟩ with hclean | hsoiled
    · by_cases hlast : clean format s a = true
      · exact .inl ((steps_snoc hrun).mpr ⟨hclean, hlast⟩)
      · have htidy := (isolated_of_clean hserial' hrun hclean).1
        exact .inr (soiled_of_not_clean htidy (by simpa using hlast) hstep)
    · rcases soiled_step hs hu hsoiled hstep with hsoiled | ⟨hq, hfmt⟩
      · exact .inr hsoiled
      · exact absurd (hquiet.2 hq) hfmt

/-- Calls are isolated from each other as long as no call throws with text in
the writer, and in a run whose calls have all come to an end only then. -/
theorem isolated_iff_clean (L : Lock) (format : χ → Formatted) (acts : List (τ × Ev χ))
    (s : State τ χ) (hserial : Serial L (acts.map Prod.fst))
    (h : (logger L format).run (logger L format).init acts = some s) :
    ((logger L format).Steps (fun s a => clean format s a = true) (logger L format).init acts →
        Isolated L format acts) ∧
      (s.Quiet → Isolated L format acts →
        (logger L format).Steps (fun s a => clean format s a = true)
          (logger L format).init acts) := by
  refine ⟨fun hclean => (isolated_of_clean hserial h hclean).2, fun hquiet hisolated => ?_⟩
  rcases clean_or_soiled hserial h hisolated with hclean | ⟨t, c, hpc, -⟩
  · exact hclean
  · have hout := hquiet t
    rw [hpc] at hout
    cases hout

def twoCalls : List (Nat × Ev Formatted) :=
  [(0, .call (.done [97])), (0, .lock), (1, .call (.done [98])), (0, .write),
    (0, .send [97] .refused), (0, .clear), (0, .unlock), (1, .lock), (1, .write),
    (1, .send [98] .accepted), (1, .clear), (1, .unlock)]

theorem twoCalls_isolated :
    ∃ s, (logger .mutex id).run (logger .mutex id).init twoCalls = some s ∧
      Isolated .mutex id twoCalls ∧
        (s.Quiet → Isolated .mutex id twoCalls →
          (logger .mutex id).Steps (fun s a => clean id s a = true)
            (logger .mutex id).init twoCalls) :=
  ⟨_, rfl, (isolated_iff_clean .mutex id twoCalls _ (.inl rfl) rfl).1 (by decide),
    (isolated_iff_clean .mutex id twoCalls _ (.inl rfl) rfl).2⟩

def faultThenCall : List (Nat × Ev Formatted) :=
  [(0, .call (.fault [97])), (0, .lock), (0, .write), (0, .unlock), (0, .call (.done [98])),
    (0, .lock), (0, .write), (0, .send [97, 98] .accepted), (0, .clear), (0, .unlock)]

theorem faultThenCall_not_isolated :
    ((logger .mutex id).run (logger .mutex id).init faultThenCall).isSome ∧
      ¬ Isolated .mutex id faultThenCall := by
  refine ⟨rfl, fun ⟨hown, _⟩ => ?_⟩
  have hlast : Own id _ (0, .send [97, 98] .accepted) :=
    @Machine.Steps.at _ _ (logger .mutex id) (Own id) _ _ (faultThenCall.take 7)
      (faultThenCall.drop 8) _ hown rfl
  exact absurd (hlast (.done [98]) [97, 98] .accepted rfl rfl) (by decide)

def Pc.call : Pc χ → Option χ
  | .idle => none
  | .calling c | .locked c | .written c | .sent c | .cleared c | .unwinding c => some c

theorem call_mem {L : Lock} {format : χ → Formatted} {acts : List (τ × Ev χ)} {s : State τ χ}
    (h : (logger L format).run (logger L format).init acts = some s) :
    ∀ t, ∀ c ∈ (s.pc t).call, (t, .call c) ∈ acts := by
  refine run_induction (M := logger L format)
    (I := fun acts s => ∀ t, ∀ c ∈ (s.pc t).call, (t, .call c) ∈ acts) ?_ ?_ acts s h
  · intro t c hc
    cases hc
  · intro acts s a u _ ih hstep t c hc
    rcases a with ⟨t', ev⟩
    have hcase : Step L format s t' ev u := step_of_eq hstep
    rw [List.mem_append]
    by_cases ht : t = t'
    · subst ht
      have hcall := ih t c
      cases hcase <;> simp_all [Pc.call]
    · refine .inl (ih t c ?_)
      cases hcase <;> simpa [State.move_other ht] using hc

theorem send_mem {L : Lock} {format : χ → Formatted} {acts : List (τ × Ev χ)} {s : State τ χ}
    (h : (logger L format).run (logger L format).init acts = some s)
    (hisolated : Isolated L format acts) {t : τ} {frame : Frame} {outcome : Sent}
    (hsend : (t, .send frame outcome) ∈ acts) :
    ∃ c, (t, .call c) ∈ acts ∧ format c = .done frame := by
  have hown := hisolated.1
  rcases List.append_of_mem hsend with ⟨before, after, rfl⟩
  rcases (run_append_eq_some _).mp h with ⟨u, hu, htail⟩
  rcases (run_cons_eq_some _).mp htail with ⟨v, hv, -⟩
  have hlast := hown.at hu
  have hcase : Step L format u t (.send frame outcome) v := step_of_eq hv
  have hwritten : ∃ c, u.pc t = .written c := by
    cases hcase with
    | send c _ _ hpc _ _ => exact ⟨c, hpc⟩
    | sendThrow c _ hpc _ => exact ⟨c, hpc⟩
  rcases hwritten with ⟨c, hpc⟩
  refine ⟨c, List.mem_append_left _ (call_mem hu t c ?_), hlast c frame outcome hpc rfl⟩
  rw [hpc]
  rfl

end Zmqlog.Logger
