import Zmqlog.Logger

/-! What a call that throws leaves behind. The lock is released on every way
out of `log`; the text stays in the writer and goes out with a later frame. -/
namespace Zmqlog.Unwinding
open Transition Exclusion Zmqpp Logger

universe u v
variable {τ : Type u} [DecidableEq τ] {χ : Type v}

def appended (format : χ → Formatted) (s : State τ χ) (a : τ × Ev χ) : Frame :=
  match s.pc a.1, a.2 with
  | .locked c, .write => (format c).appended
  | _, _ => []

/-- What a step takes out of the writer: a frame whose send returns. -/
def flushed : τ × Ev χ → Frame
  | (_, .send frame outcome) => if outcome = .threw then [] else frame
  | _ => []

/-- From the send to the clear the writer holds what is gone already. -/
structure Balanced (s : State τ χ) (put taken : Frame) : Prop where
  sent : ∀ t c, s.pc t = .sent c → put = taken
  writer : (∀ t c, s.pc t ≠ .sent c) → put = taken ++ s.fmt

theorem Balanced.move {s : State τ χ} {put taken : Frame} (h : Balanced s put taken) {t : τ}
    {pc : Pc χ} {holder : Option τ} (hbefore : ∀ c, s.pc t ≠ .sent c) (hafter : ∀ c, pc ≠ .sent c) :
    Balanced (State.move ⟨holder, s.fmt, s.pc⟩ t pc) put taken where
  sent := by
    intro v c hv
    by_cases hvt : v = t
    · rw [hvt, State.move_self] at hv
      exact absurd hv (hafter c)
    · rw [State.move_other hvt] at hv
      exact h.sent v c hv
  writer := by
    intro hnone
    apply h.writer
    intro v c
    by_cases hvt : v = t
    · rw [hvt]
      exact hbefore c
    · have := hnone v c
      rwa [State.move_other hvt] at this

omit [DecidableEq τ] in
theorem none_sent {s : State τ χ} (hexclusive : s.critical.Exclusive) {t : τ}
    (hin : (s.pc t).inside = true) (hpc : ∀ c, s.pc t ≠ .sent c) : ∀ v c, s.pc v ≠ .sent c := by
  intro v c hv
  have hvin : s.critical.inside v = true := congrArg Pc.inside hv
  have hvt : v = t := hexclusive v t hvin hin
  rw [hvt] at hv
  exact hpc c hv

theorem balanced_step {L : Lock} {format : χ → Formatted} {s u : State τ χ} {a : τ × Ev χ}
    {put taken : Frame} (hs : s.critical.Exclusive) (hu : u.critical.Exclusive)
    (h : Balanced s put taken) (hstep : (logger L format).step s a = some u) :
    Balanced u (put ++ appended format s a) (taken ++ flushed a) := by
  obtain ⟨t, ev⟩ := a
  have hcase : Step L format s t ev u := step_of_eq hstep
  -- The writer grows only where it is known that no frame is being sent.
  have grow {pc : Pc χ} {c : χ} {text : Frame} (hpc : s.pc t = .locked c) (hin : pc.inside = true)
      (hne : ∀ c, pc ≠ .sent c)
      (hexclusive : (State.move ⟨s.holder, s.fmt ++ text, s.pc⟩ t pc).critical.Exclusive) :
      Balanced (State.move ⟨s.holder, s.fmt ++ text, s.pc⟩ t pc) (put ++ text) taken := by
    have hbefore := h.writer (none_sent hs (t := t) (by rw [hpc]; rfl) (by simp [hpc]))
    have hafter := none_sent hexclusive (t := t) (by simpa using hin) (by simpa using hne)
    refine ⟨fun v c hv => absurd hv (hafter v c), fun _ => ?_⟩
    rw [hbefore, List.append_assoc]
    rfl
  cases hcase with
  | call c hpc => simpa [appended, flushed, hpc] using h.move (by simp [hpc]) (by simp)
  | lock c hpc _ => simpa [appended, flushed, hpc] using h.move (by simp [hpc]) (by simp)
  | write c text hpc hformat =>
    simpa [appended, flushed, hpc, hformat, Formatted.appended] using grow hpc rfl (by simp) hu
  | fault c before hpc hformat =>
    simpa [appended, flushed, hpc, hformat, Formatted.appended] using grow hpc rfl (by simp) hu
  | send c frame outcome hpc hframe hsent =>
    have hbefore := h.writer (none_sent hs (t := t) (by rw [hpc]; rfl) (by simp [hpc]))
    refine ⟨fun v c' _ => ?_, fun hnone => absurd (State.move_self _ _ _) (hnone t c)⟩
    simp [appended, flushed, hpc, hsent, hframe, hbefore]
  | sendThrow c frame hpc _ =>
    simpa [appended, flushed, hpc] using h.move (by simp [hpc]) (by simp)
  | clear c hpc =>
    have hbefore := h.sent t c hpc
    have hafter := none_sent hu (t := t) (by simp [Pc.inside]) (by simp)
    refine ⟨fun v c' hv => absurd hv (hafter v c'), fun _ => ?_⟩
    simp [appended, flushed, hpc, hbefore]
  | unlock hpc =>
    have hne : ∀ c, s.pc t ≠ .sent c := by
      rcases hpc with ⟨c, hpc⟩ | ⟨c, hpc⟩ <;> simp [hpc]
    have hnothing : appended format s (t, .unlock) = [] := by
      unfold appended
      split <;> simp_all
    simpa [hnothing, flushed] using h.move hne (by simp)

theorem balanced_of_run {L : Lock} {format : χ → Formatted} {acts : List (τ × Ev χ)}
    {s : State τ χ} (hserial : Serial L (acts.map Prod.fst))
    (h : (logger L format).run (logger L format).init acts = some s) :
    Balanced s ((logger L format).record (appended format) (logger L format).init acts)
      (acts.flatMap flushed) := by
  revert hserial
  refine run_induction (M := logger L format)
    (I := fun acts s => Serial L (acts.map Prod.fst) →
      Balanced s ((logger L format).record (appended format) (logger L format).init acts)
        (acts.flatMap flushed)) ?_ ?_ acts s h
  · intro _
    exact ⟨fun _ _ _ => rfl, fun _ => rfl⟩
  · intro acts s a u hs ih hstep hserial
    have hserial' : Serial L (acts.map Prod.fst) := hserial.mono (by simp_all)
    have hu := (run_snoc_eq_some (logger L format)).mpr ⟨s, hs, hstep⟩
    rw [record_snoc hs, List.flatMap_append, List.flatMap_singleton]
    exact balanced_step (calls_exclusive hserial' hs) (calls_exclusive hserial hu) (ih hserial')
      hstep

/-- With a mutex or a single thread, and whatever throws: the frames whose sends
return, refused ones among them, are together an initial part of the texts that
the calls have put into the writer, and between the calls what is missing is
what the writer still holds. -/
theorem texts_conserved (L : Lock) (format : χ → Formatted) (acts : List (τ × Ev χ))
    (s : State τ χ) (hserial : Serial L (acts.map Prod.fst))
    (h : (logger L format).run (logger L format).init acts = some s) :
    acts.flatMap flushed <+:
        (logger L format).record (appended format) (logger L format).init acts ∧
      (s.Quiet → (logger L format).record (appended format) (logger L format).init acts =
        acts.flatMap flushed ++ s.fmt) := by
  have hbalanced := balanced_of_run hserial h
  refine ⟨?_, fun hquiet => hbalanced.writer fun t c hpc => ?_⟩
  · by_cases hsent : ∃ t c, s.pc t = .sent c
    · obtain ⟨t, c, hpc⟩ := hsent
      rw [hbalanced.sent t c hpc]
    · rw [hbalanced.writer fun t c hpc => hsent ⟨t, c, hpc⟩]
      exact List.prefix_append _ _
  · have hout := hquiet t
    rw [hpc] at hout
    cases hout

def throwThenCall : List (Nat × Ev Formatted) :=
  [(0, .call (.done [97])), (0, .lock), (0, .write), (1, .call (.done [98])),
    (0, .send [97] .threw), (0, .unlock), (1, .lock), (1, .write), (1, .send [97, 98] .accepted),
    (1, .clear), (1, .unlock)]

theorem texts_conserved_throwThenCall :
    ∃ s, (logger .mutex id).run (logger .mutex id).init throwThenCall = some s ∧
      throwThenCall.flatMap flushed = [97, 98] ∧
      throwThenCall.flatMap flushed <+:
        (logger .mutex id).record (appended id) (logger .mutex id).init throwThenCall ∧
      (s.Quiet → (logger .mutex id).record (appended id) (logger .mutex id).init throwThenCall =
        throwThenCall.flatMap flushed ++ s.fmt) :=
  ⟨_, rfl, rfl, texts_conserved .mutex id throwThenCall _ (.inl rfl) rfl⟩

def remaining : Pc χ → Nat
  | .idle | .calling _ => 0
  | .locked _ => 4
  | .written _ => 3
  | .sent _ => 2
  | .cleared _ | .unwinding _ => 1

theorem remaining_step {L : Lock} {format : χ → Formatted} {s u : State τ χ} {a : τ × Ev χ} {t : τ}
    (hin : (s.pc t).inside = true) (hstep : (logger L format).step s a = some u) :
    remaining (u.pc t) + (decide (a.1 = t)).toNat ≤ remaining (s.pc t) := by
  obtain ⟨t', ev⟩ := a
  have hcase : Step L format s t' ev u := step_of_eq hstep
  by_cases ht : t' = t
  · subst ht
    cases hcase with
    | call c hpc => simp [hpc, Pc.inside] at hin
    | lock c hpc _ => simp [hpc, Pc.inside] at hin
    | unlock hpc => rcases hpc with ⟨c, hpc⟩ | ⟨c, hpc⟩ <;> simp [remaining, hpc]
    | _ => simp_all [remaining]
  · have hsame : u.pc t = s.pc t := by
      cases hcase <;> rw [State.move_other (Ne.symm ht)]
    simp [hsame, ht]

theorem inside_enabled (L : Lock) (format : χ → Formatted) {s : State τ χ} {t : τ}
    (hin : (s.pc t).inside = true) : ∃ ev u, (logger L format).step s (t, ev) = some u := by
  cases hpc : s.pc t with
  | idle | calling c => simp [hpc, Pc.inside] at hin
  | locked c =>
    refine ⟨.write, ?_⟩
    cases hformat : format c <;> simp [logger, hpc, hformat]
  | written c => exact ⟨.send s.fmt .accepted, _, by simp [logger, hpc]; rfl⟩
  | sent c => exact ⟨.clear, _, by simp [logger, hpc]; rfl⟩
  | cleared c => exact ⟨.unlock, _, by simp [logger, hpc]; rfl⟩
  | unwinding c => exact ⟨.unlock, _, by simp [logger, hpc]; rfl⟩

theorem lock_free {L : Lock} {format : χ → Formatted} {s : State τ χ}
    (h : (logger L format).Reachable s) (hquiet : s.Quiet) : L.admits s.holder = true := by
  cases L with
  | null => rfl
  | mutex =>
    obtain ⟨acts, h⟩ := h
    have hholder := mutex_holder ((onLock .mutex format).run h)
    cases hheld : s.holder with
    | none => rfl
    | some t =>
      have hin : (s.pc t).inside = true := (hholder t).mpr hheld
      rw [hquiet t] at hin
      cases hin

/-- Every call gives its lock back after at most four steps of its own, and no
exception keeps it; where no call is inside, the next one can enter. -/
theorem lock_released (L : Lock) (format : χ → Formatted) (s : State τ χ)
    (h : (logger L format).Reachable s) :
    (s.Quiet → L.admits s.holder = true) ∧
      ∀ t, (s.pc t).inside = true →
        (logger L format).Inevitable (fun a => a.1 = t) (fun _ => true)
          (fun u => (u.pc t).inside = false) 5 s := by
  refine ⟨lock_free h, fun t hin => ?_⟩
  have hends : (logger L format).Inevitable (fun a => a.1 = t) (fun _ => true)
      (fun u => (u.pc t).inside = false) (remaining (s.pc t) + 1) s := by
    refine inevitable_of_variant (I := fun _ => True)
      (fun u : State τ χ => remaining (u.pc t)) (fun _ _ _ _ _ _ => .inr trivial) ?_ ?_ ?_ trivial
    · intro s a u _ hgoal hown hstep
      have := remaining_step (t := t) (by simpa using hgoal) hstep
      simp only [hown, Bool.toNat_true] at this
      omega
    · intro s a u _ hgoal hstep
      have := remaining_step (t := t) (by simpa using hgoal) hstep
      omega
    · intro s _ hgoal
      obtain ⟨ev, u, hstep⟩ := inside_enabled L format (t := t) (by simpa using hgoal)
      exact ⟨(t, ev), u, by simp, rfl, hstep⟩
  apply hends.mono
  cases s.pc t <;> simp [remaining]

theorem lock_released_throwThenCall :
    ∃ s, (logger .mutex id).run (logger .mutex id).init (throwThenCall.take 5) = some s ∧
      s.pc 0 = .unwinding (.done [97]) ∧ s.pc 1 = .calling (.done [98]) ∧
      (logger .mutex id).Inevitable (fun a => a.1 = 0) (fun _ => true)
        (fun u => (u.pc 0).inside = false) 5 s :=
  ⟨_, rfl, rfl, rfl, (lock_released .mutex id _ ⟨throwThenCall.take 5, rfl⟩).2 0 rfl⟩

end Zmqlog.Unwinding
