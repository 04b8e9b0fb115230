import Zmqlog.Progress

/-! The flag `m_run` and the pipe: `stop()` clears the one and then writes to
the other, and the worker looks at them in the opposite order. -/
namespace Zmqlog.Wakeup
open Transition Zmqpp Control Service Step Lifecycle Progress

def beforePoll : Pc → Bool
  | .bind _ | .poll | .polling => true
  | _ => false

theorem beforePoll_inactive {pc : Pc} (h : pc.active = false) : beforePoll pc = false := by
  cases pc <;> first | rfl | cases h

def Signal (s : State) : Prop :=
  ∀ c, s.owner = .stopWait c → ∀ i, beforePoll (s.runs i) = true → 1 ≤ s.pipe

theorem mRun_of_stopWait {s : State} (hinv : Inv s) {c : Caller} (h : s.owner = .stopWait c) :
    s.mRun = false :=
  hinv.flag false (by rw [h]; rfl)

theorem goes_beforePoll {z : Zlogpull} {s : State} {pc pc' : Pc} {ev : Ev}
    (hgoes : Goes z pc ev pc') (henables : s.enables ev = true) (hmRun : s.mRun = false)
    (h : beforePoll pc' = true) : beforePoll pc = true ∧ ev ≠ .pollReset := by
  cases hgoes with
  | bound | refused | pollBegin => exact ⟨rfl, by simp⟩
  | again => simp [State.enables, hmRun] at henables
  | _ => cases h

theorem signal_step {z : Zlogpull} {s t : State} {a : Act} (hinv : Inv s) (hs : Signal s)
    (h : (service z).step s a = some t) : Signal t := by
  cases a with
  | run i ev =>
    rcases step_run.mp h with ⟨henables, pc, hgoes, rfl⟩
    intro c howner j hj
    have howner' : s.owner = .stopWait c := by simpa using howner
    by_cases hji : j = i
    · subst hji
      rw [goto_self] at hj
      rcases goes_beforePoll hgoes henables (mRun_of_stopWait hinv howner') hj with ⟨hbefore, hev⟩
      rw [goto_pipe, effect_pipe s hev]
      exact hs c howner' j hbefore
    · have hidle := hinv.others hgoes.active hji
      rw [goto_other _ _ _ hji, effect_runs, beforePoll_inactive hidle] at hj
      cases hj
  | owner ev =>
    rcases step_owner h with ⟨-, owner, hcalls, rfl⟩
    intro c howner i _
    rcases calls_stopWait hcalls howner with ⟨-, rfl⟩
    simp [State.act]
  | arrive k m =>
    cases step_arrive h
    exact hs

theorem signal_of_reachable {z : Zlogpull} {s : State} (h : (service z).Reachable s) :
    Signal s :=
  h.induction (fun _ howner => nomatch howner)
    fun _ _ _ hs => signal_step (inv_of_reachable hs)

/-- An execution that is at work with `m_run` cleared is one that `stop()` is
about to write for, or waits for. -/
theorem stopping_of_active {s : State} (hinv : Inv s) (hmRun : s.mRun = false) {i : Nat}
    (hactive : (s.runs i).active = true) :
    (∃ c, s.owner = .stopWrite c) ∨ ∃ c, s.owner = .stopWait c := by
  have hnone := (hinv.single i hactive).2
  have hflag := hinv.flag
  rw [hmRun] at hflag hnone
  generalize s.owner = owner at hnone hflag
  cases owner with
  | stopWrite c => exact .inl ⟨c, rfl⟩
  | stopWait c => exact .inr ⟨c, rfl⟩
  | startAssign => cases hflag true rfl
  | stopClear c => cases hflag true rfl
  | _ => cases hnone

def startsPoll : Act → Bool
  | .run _ .pollBegin => true
  | _ => false

def takesMessage : Act → Bool
  | .run _ (.receive _ _ _) => true
  | _ => false

def pastTest : Pc → Nat
  | .poll => 1
  | .receive _ _ => 1
  | _ => 0

theorem pastTest_le (pc : Pc) : pastTest pc ≤ 1 := by
  cases pc <;> simp [pastTest]

/-- With the flag cleared no test is passed again, so a poll or a receive uses
up the one that was passed before. -/
theorem pastTest_goes {z : Zlogpull} {s : State} {pc pc' : Pc} {ev : Ev}
    (hgoes : Goes z pc ev pc') (henables : s.enables ev = true) (hmRun : s.mRun = false)
    (i : Nat) :
    (startsPoll (.run i ev)).toNat + (takesMessage (.run i ev)).toNat + pastTest pc' ≤
      pastTest pc := by
  cases hgoes with
  | again => simp [State.enables, hmRun] at henables
  | enter k rest => simp [State.enables, hmRun] at henables
  | _ => simp [startsPoll, takesMessage, pastTest]

theorem cleared_step {z : Zlogpull} {s t : State} {a : Act} (hinv : Inv s)
    (hmRun : s.mRun = false) (hset : a ≠ .owner .set) (h : (service z).step s a = some t) :
    t.mRun = false ∧ t.launched = s.launched := by
  cases a with
  | run i ev =>
    rcases step_run.mp h with ⟨-, pc, -, rfl⟩
    exact ⟨by simpa using hmRun, by simp⟩
  | owner ev =>
    rcases step_owner h with ⟨-, owner, hcalls, rfl⟩
    by_cases hlaunch : ev = .launch
    · subst hlaunch
      have hflag := hinv.flag
      generalize s.owner = before at hcalls hflag
      cases hcalls with
      | launch =>
        rw [hflag true rfl] at hmRun
        cases hmRun
    · refine ⟨?_, act_launched s hlaunch⟩
      by_cases hclear : ev = .clear
      · subst hclear
        rfl
      · rw [proceed_mRun, act_mRun s (fun heq => hset (by rw [heq])) hclear]
        exact hmRun
  | arrive k m =>
    cases step_arrive h
    exact ⟨hmRun, rfl⟩

def counted (acts : List Act) : Nat := acts.countP startsPoll + acts.countP takesMessage

theorem counted_cons (a : Act) (acts : List Act) :
    counted (a :: acts) = (startsPoll a).toNat + (takesMessage a).toNat + counted acts := by
  unfold counted
  rw [List.countP_cons, List.countP_cons]
  cases startsPoll a <;> cases takesMessage a <;> simp <;> omega

theorem counted_le {z : Zlogpull} {acts : List Act} {s t : State}
    (hs : (service z).Reachable s) (hmRun : s.mRun = false) (hset : .owner .set ∉ acts)
    (h : (service z).run s acts = some t) :
    counted acts ≤ pastTest (s.runs (s.launched - 1)) := by
  induction acts generalizing s with
  | nil => simp [counted]
  | cons a acts ih =>
    rcases (run_cons_eq_some _).mp h with ⟨u, hu, htail⟩
    have hinv := inv_of_reachable hs
    have hseta : a ≠ .owner .set := fun heq => hset (heq ▸ List.mem_cons_self)
    have hrest : .owner .set ∉ acts := fun hmem => hset (List.mem_cons_of_mem _ hmem)
    rcases cleared_step hinv hmRun hseta hu with ⟨hmRun', hlaunched⟩
    have hcount := ih (hs.step hu) hmRun' hrest htail
    rw [hlaunched] at hcount
    rw [counted_cons]
    cases a with
    | run i ev =>
      rcases step_run.mp hu with ⟨henables, pc, hgoes, rfl⟩
      rw [hinv.last_eq hgoes.active] at hcount ⊢
      rw [goto_self] at hcount
      have := pastTest_goes hgoes henables hmRun i
      omega
    | owner ev =>
      rcases step_owner hu with ⟨-, owner, hcalls, rfl⟩
      have hlaunch : ev ≠ .launch := by
        rintro rfl
        simp [State.act] at hlaunched
      rw [proceed_runs, act_runs s hlaunch] at hcount
      simpa [startsPoll, takesMessage] using hcount
    | arrive k m =>
      cases step_arrive hu
      simpa [startsPoll, takesMessage] using hcount

theorem active_back {z : Zlogpull} {s t : State} {a : Act} {i : Nat}
    (hi : i < s.launched) (h : (service z).step s a = some t)
    (hactive : (t.runs i).active = true) : (s.runs i).active = true := by
  cases a with
  | run j ev =>
    rcases step_run.mp h with ⟨-, pc, hgoes, rfl⟩
    by_cases hij : i = j
    · subst hij
      exact hgoes.active
    · rwa [goto_other _ _ _ hij, effect_runs] at hactive
  | owner ev =>
    rcases step_owner h with ⟨-, owner, -, rfl⟩
    rcases act_runs_or s i ev with hruns | ⟨hlast, -⟩
    · rwa [proceed_runs, hruns] at hactive
    · omega
  | arrive k m =>
    cases step_arrive h
    exact hactive

theorem launched_le {z : Zlogpull} {s t : State} {a : Act}
    (h : (service z).step s a = some t) : s.launched ≤ t.launched := by
  cases a with
  | run j ev =>
    rcases step_run.mp h with ⟨-, pc, -, rfl⟩
    simp
  | owner ev =>
    rcases step_owner h with ⟨-, owner, -, rfl⟩
    by_cases hlaunch : ev = .launch
    · subst hlaunch
      simp [State.act]
    · rw [proceed_launched, act_launched s hlaunch]
  | arrive k m =>
    cases step_arrive h
    exact le_rfl

theorem not_set_of_active {z : Zlogpull} {s t : State} {i : Nat} (hinv : Inv s)
    (hactive : (s.runs i).active = true) : (service z).step s (.owner .set) ≠ some t := by
  intro h
  rcases step_owner h with ⟨-, owner, hcalls, -⟩
  have hnone := (hinv.single i hactive).2
  generalize s.owner = before at hcalls hnone
  cases hcalls
  cases hnone

theorem tests_false {z : Zlogpull} {acts : List Act} {s t : State} {i : Nat}
    (hs : (service z).Reachable s) (hmRun : (s.runs i).active = true → s.mRun = false)
    (hi : i < s.launched) (h : (service z).run s acts = some t) :
    .run i (.test true) ∉ acts := by
  induction acts generalizing s with
  | nil => simp
  | cons a acts ih =>
    rcases (run_cons_eq_some _).mp h with ⟨u, hu, htail⟩
    have hinv := inv_of_reachable hs
    have hmRun' : (u.runs i).active = true → u.mRun = false := by
      intro hactive
      have hbefore := active_back hi hu hactive
      have hset : a ≠ .owner .set := by
        rintro rfl
        exact not_set_of_active hinv hbefore hu
      exact (cleared_step hinv (hmRun hbefore) hset hu).1
    have hrest := ih (hs.step hu) hmRun' (lt_of_lt_of_le hi (launched_le hu)) htail
    rw [List.mem_cons, not_or]
    refine ⟨?_, hrest⟩
    rintro rfl
    rcases step_run.mp hu with ⟨henables, pc, hgoes, -⟩
    have hfalse := hmRun hgoes.active
    simp [State.enables, hfalse] at henables

/-- Once `stop()` has cleared the flag and written its byte, an execution is
not waiting in a poll for a byte that is gone: the byte is there, or the
execution is past its poll and its tests of the flag all fail. And from the
clearing to the next `start()` at most one more poll begins or one more
message is taken. -/
theorem no_lost_stop (z : Zlogpull) (acts : List Act) (s : State)
    (h : (service z).run (service z).init acts = some s) :
    (s.mRun = false → (∀ c, s.owner ≠ .stopWrite c) → ∀ i, i < s.launched →
      ¬ (s.runs i = .polling ∧ s.pipe = 0) ∧
        (1 ≤ s.pipe ∨ beforePoll (s.runs i) = false) ∧
        ∀ later t, (service z).run s later = some t → .run i (.test true) ∉ later) ∧
      ∀ before after, acts = before ++ .owner .clear :: after → .owner .set ∉ after →
        after.countP startsPoll + after.countP takesMessage ≤ 1 := by
  have hreach : (service z).Reachable s := ⟨acts, h⟩
  have hinv := inv_of_reachable hreach
  refine ⟨?_, ?_⟩
  · intro hmRun hwritten i hi
    have hbyte : beforePoll (s.runs i) = true → 1 ≤ s.pipe := by
      intro hbefore
      have hactive : (s.runs i).active = true := by
        by_contra hinactive
        rw [beforePoll_inactive (by simpa using hinactive)] at hbefore
        cases hbefore
      rcases stopping_of_active hinv hmRun hactive with ⟨c, howner⟩ | ⟨c, howner⟩
      · exact absurd howner (hwritten c)
      · exact signal_of_reachable hreach c howner i hbefore
    refine ⟨?_, ?_, ?_⟩
    · rintro ⟨hpolling, hempty⟩
      have := hbyte (by rw [hpolling]; rfl)
      omega
    · cases hbefore : beforePoll (s.runs i) with
      | true => exact .inl (hbyte hbefore)
      | false => exact .inr rfl
    · intro later t hlater
      exact tests_false hreach (fun _ => hmRun) hi hlater
  · rintro before after rfl hset
    rcases (run_append_eq_some _).mp h with ⟨u, hu, htail⟩
    rcases (run_cons_eq_some _).mp htail with ⟨v, hv, hafter⟩
    have hu' : (service z).Reachable u := ⟨before, hu⟩
    have hmRun : v.mRun = false := by
      rcases step_owner hv with ⟨-, owner, -, rfl⟩
      rfl
    exact (counted_le (hu'.step hv) hmRun hset hafter).trans (pastTest_le _)

/-- A quick stop leaves its byte behind. The next execution has a frame reported
and is past its guard when `stop()` is called again. -/
def stopInHandler : List Act :=
  quickStop 0 ++
    [.owner .ret, .owner .start, .owner (.test false), .owner .set, .owner .launch, .owner .assign,
      .run 1 (.bind .tcp true), .run 1 (.bind .ipc true), .run 1 (.bind .inp true),
      .run 1 (.bind .ctl true), .run 1 .setup, .run 1 (.test true), .run 1 .pollBegin,
      .arrive .inp ⟨[97], []⟩, .run 1 (.pollReturn [.sock .inp]), .run 1 (.guard .inp true),
      .owner .stop, .owner (.test true)]

def lastFrame : List Act :=
  [.owner .pollCancel, .run 1 (.receive .inp 0 ⟨[97], []⟩), .run 1 (.route .inp [97]),
    .run 1 .pollEnd, .run 1 (.test false)]

theorem no_lost_stop_stopInHandler :
    ∃ s, (service sample).run (service sample).init
        (stopInHandler ++ [.owner .clear, .owner .pollCancel]) = some s ∧
      s.runs 1 = .receive .inp [] ∧ s.pipe = 2 ∧ ¬ (s.runs 1 = .polling ∧ s.pipe = 0) ∧
      (1 ≤ s.pipe ∨ beforePoll (s.runs 1) = false) ∧
      (∀ later t, (service sample).run s later = some t → .run 1 (.test true) ∉ later) ∧
      lastFrame.countP startsPoll + lastFrame.countP takesMessage ≤ 1 := by
  have hwritten := (no_lost_stop sample (stopInHandler ++ [.owner .clear, .owner .pollCancel]) _
    rfl).1 rfl (fun c hc => nomatch hc) 1 (by decide)
  have hcleared := (no_lost_stop sample (stopInHandler ++ .owner .clear :: lastFrame) _ rfl).2
  exact ⟨_, rfl, rfl, rfl, hwritten.1, hwritten.2.1, hwritten.2.2,
    hcleared stopInHandler lastFrame rfl (by decide)⟩

end Zmqlog.Wakeup
