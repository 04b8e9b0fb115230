import Zmqlog.Delivery
import Zmqlog.Spool

/-! What the service comes to for those who log and for its owner: a spooler
of lines, whatever happens on its control channel, in its binds and in its
polls. -/
namespace Zmqlog.Spooling
open Transition Refinement Zmqpp Control Service Step Lifecycle Delivery

def seenOfService : Act → Option (Spool.Seen Sock Frame)
  | .arrive k m => if k = .ctl then none else some (.put k m.first)
  | .run _ (.route k frame) => some (.emit k frame)
  | .owner .clear => some .stop
  | .owner .wait => some .rest
  | .owner .launch => some .start
  | _ => none

def handOf : Pc → Option (Sock × Frame)
  | .route k m _ => some (k, m.first)
  | _ => none

def spent : Pc → Bool
  | .receive _ _ | .route _ _ _ => false
  | _ => true

/-- The phase of the spooler, by whether an execution may be at work, the flag
and where the execution is. -/
def InPhase (working mRun : Bool) (pc : Pc) : Spool.Phase → Prop
  | .running => working = true ∧ mRun = true
  | .draining last => working = true ∧ mRun = false ∧ (last = true ∨ spent pc = true)
  | .resting => working = false

def lastPc (s : State) : Pc := s.runs (s.launched - 1)

def working (s : State) : Bool := (unbinding s.owner s.mRun).isNone

structure Related (s : State) (u : Spool.State Sock Frame) : Prop where
  queued : u.queued = fun k => if k = .ctl then [] else (s.inbox k).map Wire.first
  hand : u.hand = handOf (lastPc s)
  phase : InPhase (working s) s.mRun (lastPc s) u.phase

theorem handOf_inactive {pc : Pc} (h : pc.active = false) : handOf pc = none := by
  cases pc <;> first | rfl | cases h

theorem spent_goes {z : Zlogpull} {s : State} {pc pc' : Pc} {ev : Ev} (hgoes : Goes z pc ev pc')
    (henables : s.enables ev = true) (hmRun : s.mRun = false) (h : spent pc = true) :
    spent pc' = true := by
  cases hgoes with
  | again => rfl
  | enter k rest => simp [State.enables, hmRun] at henables
  | pulled k n m rest hk => cases h
  | _ => rfl

theorem inPhase_goes {z : Zlogpull} {s : State} {pc pc' : Pc} {ev : Ev} {phase : Spool.Phase}
    (hgoes : Goes z pc ev pc') (henables : s.enables ev = true)
    (h : InPhase (working s) s.mRun pc phase) : InPhase (working s) s.mRun pc' phase := by
  cases phase with
  | running => exact h
  | resting => exact h
  | draining last =>
    obtain ⟨hworking, hmRun, hlast | hspent⟩ := h
    · exact ⟨hworking, hmRun, .inl hlast⟩
    · exact ⟨hworking, hmRun, .inr (spent_goes hgoes henables hmRun hspent)⟩

theorem lets_of_working {mRun : Bool} {pc : Pc} {phase : Spool.Phase} (hspent : spent pc = false)
    (h : InPhase true mRun pc phase) : phase.lets = true := by
  cases phase with
  | running => rfl
  | resting => cases h
  | draining last =>
    obtain ⟨-, -, hlast | hpc⟩ := h
    · exact hlast
    · rw [hspent] at hpc
      cases hpc

theorem working_goto (s : State) (ev : Ev) (i : Nat) (pc : Pc) :
    working ((s.effect ev).goto i pc) = working s := by
  simp [working]

theorem lastPc_goto {s : State} {ev : Ev} {i : Nat} {pc : Pc} (hi : s.launched - 1 = i) :
    lastPc ((s.effect ev).goto i pc) = pc := by
  simp [lastPc, hi]

theorem related_run {z : Zlogpull} {s t : State} {i : Nat} {ev : Ev} {u : Spool.State Sock Frame}
    (hinv : Inv s) (hs : Related s u) (h : (service z).step s (.run i ev) = some t) :
    ∃ bs v, (Spool.spool Sock Frame).run u bs = some v ∧ Related t v ∧
      visible Spool.seen bs = (seenOfService (.run i ev)).toList := by
  obtain ⟨henables, pc, hgoes, rfl⟩ := step_run.mp h
  have hi := hinv.last_eq hgoes.active
  have hworking : working s = true := by
    rw [working, (hinv.single i hgoes.active).2]
    rfl
  have hpc : lastPc s = s.runs i := by rw [lastPc, hi]
  obtain ⟨hqueued, hhand, hphase⟩ := hs
  rw [hpc] at hhand hphase
  have hphase' := inPhase_goes hgoes henables hphase
  -- Whatever the queues do, the spooler's phase follows from the place of the execution.
  have related {v : Spool.State Sock Frame}
      (hqueued : v.queued =
        fun k => if k = .ctl then [] else ((s.effect ev).inbox k).map Wire.first)
      (hhand : v.hand = handOf pc) (hphase : InPhase (working s) s.mRun pc v.phase) :
      Related ((s.effect ev).goto i pc) v := by
    refine ⟨hqueued, ?_, ?_⟩
    · rw [lastPc_goto hi]
      exact hhand
    · rw [lastPc_goto hi, working_goto, goto_mRun, effect_mRun]
      exact hphase
  generalize s.runs i = before at hgoes hhand hphase
  cases hgoes with
  | pulled k n m rest hk =>
    obtain ⟨hhead, rfl⟩ := head_of_pulled henables hk
    have hlets : u.phase.lets = true := lets_of_working rfl (hworking ▸ hphase)
    have hguard : u.phase.lets = true ∧ u.hand = none ∧ (u.queued k).head? = some m.first := by
      refine ⟨hlets, hhand, ?_⟩
      rw [hqueued]
      simp [hk, hhead]
    refine ⟨[.take k m.first], _, (run_singleton _ _ _).trans (if_pos hguard), ?_, rfl⟩
    refine related ?_ rfl hphase'
    funext j
    by_cases hj : j = k
    · subst hj
      simp [hqueued, hk, State.effect]
    · simp [hqueued, hj, State.effect]
  | route k m rest =>
    have hlets : u.phase.lets = true := lets_of_working rfl (hworking ▸ hphase)
    refine ⟨[.emit k m.first], _, (run_singleton _ _ _).trans (if_pos ⟨hlets, hhand⟩), ?_, rfl⟩
    refine related hqueued rfl ?_
    cases hu : u.phase with
    | running =>
      rw [hu] at hphase'
      exact hphase'
    | resting =>
      rw [hu] at hphase'
      exact hphase'
    | draining last =>
      rw [hu] at hphase'
      exact ⟨hphase'.1, hphase'.2.1, .inr rfl⟩
  | requested n m rest =>
    refine ⟨[], u, rfl, related ?_ hhand hphase', rfl⟩
    rw [hqueued]
    funext j
    by_cases hj : j = .ctl
    · simp [hj]
    · simp [hj, State.effect]
  | _ => exact ⟨[], u, rfl, related hqueued hhand hphase', rfl⟩

theorem working_calls {z : Zlogpull} {s t : State} {ev : OwnerEv} (hinv : Inv s)
    (h : (service z).step s (.owner ev) = some t) (hclear : ev ≠ .clear) (hwait : ev ≠ .wait)
    (hlaunch : ev ≠ .launch) :
    working t = working s ∧ (working s = true → t.mRun = s.mRun) := by
  have hflag := hinv.flag
  obtain ⟨hpermits, owner, hcalls, rfl⟩ := step_owner h
  generalize howner : s.owner = before at hcalls
  rw [howner] at hflag
  cases hcalls with
  | clear => exact absurd rfl hclear
  | wait => exact absurd rfl hwait
  | launch => exact absurd rfl hlaunch
  | started | restart | stopping =>
    have hmRun := hpermits
    simp only [State.permits, beq_iff_eq] at hmRun
    simp [working, howner, unbinding, State.act, hmRun]
  | stopped c =>
    have hmRun : s.mRun = false := by simpa [State.permits] using hpermits
    cases c <;> simp [working, howner, unbinding, State.act, hmRun, afterStop, destroyFrom,
      teardown]
  | ret c | throw c =>
    have hmRun : s.mRun = false := hflag false rfl
    cases c <;> simp [working, howner, unbinding, State.act, hmRun, afterStop, afterThrow,
      destroyFrom, teardown]
  | assign =>
    have hmRun : s.mRun = true := hflag true rfl
    simp [working, howner, unbinding, State.act, hmRun]
  | unbind c k todo =>
    rw [working, working, proceed_owner, unbinding_unbindFrom, howner]
    refine ⟨rfl, fun hworking => ?_⟩
    cases hworking
  | close p todo => cases todo <;> simp [working, howner, unbinding, State.act, destroyFrom]
  | start | stop | destroy =>
    rw [working, working, howner]
    exact ⟨rfl, fun _ => rfl⟩
  | _ => simp [working, howner, unbinding, State.act]

theorem InPhase.running_of {pc : Pc} {phase : Spool.Phase} (h : InPhase true true pc phase) :
    phase = .running := by
  cases phase with
  | running => rfl
  | draining last => cases h.2.1
  | resting => cases h

theorem InPhase.draining_of {pc : Pc} {phase : Spool.Phase} (h : InPhase true false pc phase) :
    ∃ last, phase = .draining last := by
  cases phase with
  | running => cases h.2
  | draining last => exact ⟨last, rfl⟩
  | resting => cases h

theorem InPhase.resting_of {mRun : Bool} {pc : Pc} {phase : Spool.Phase}
    (h : InPhase false mRun pc phase) : phase = .resting := by
  cases phase with
  | running => cases h.1
  | draining last => cases h.1
  | resting => rfl

theorem related_clear {s : State} {u : Spool.State Sock Frame} {c : Caller} (hinv : Inv s)
    (hs : Related s u) (howner : s.owner = .stopClear c) :
    ∃ v, (Spool.spool Sock Frame).step u .stop = some v ∧
      Related ((s.act .clear).proceed (.stopWrite c)) v := by
  have hmRun : s.mRun = true := hinv.flag true (by rw [howner]; rfl)
  have hphase := hs.phase
  rw [working, howner, hmRun] at hphase
  exact ⟨_, if_pos hphase.running_of, hs.queued, hs.hand, rfl, rfl, .inl rfl⟩

theorem related_wait {s : State} {u : Spool.State Sock Frame} {c : Caller} (hinv : Inv s)
    (hs : Related s u) (howner : s.owner = .stopWait c) (hended : (s.runs s.fut).ended = true) :
    ∃ v, (Spool.spool Sock Frame).step u .rest = some v ∧
      Related ((s.act .wait).proceed (unbindFrom c unbindOrder)) v := by
  have hmRun : s.mRun = false := hinv.flag false (by rw [howner]; rfl)
  have hfut : s.fut + 1 = s.launched := by simpa [howner] using hinv.fut
  have hlast : lastPc s = s.runs s.fut := by rw [lastPc, ← hfut, Nat.add_sub_cancel]
  have hnone : u.hand = none := by
    rw [hs.hand, hlast]
    generalize s.runs s.fut = pc at hended
    cases pc <;> first | rfl | cases hended
  have hphase := hs.phase
  rw [working, howner, hmRun] at hphase
  obtain ⟨last, hdraining⟩ := hphase.draining_of
  refine ⟨{ u with phase := .resting }, ?_, hs.queued, hs.hand, rfl⟩
  simp [Spool.spool, hdraining, hnone]

theorem related_launch {s : State} {u : Spool.State Sock Frame} (hinv : Inv s) (hs : Related s u)
    (howner : s.owner = .startLaunch) :
    ∃ v, (Spool.spool Sock Frame).step u .start = some v ∧
      Related ((s.act .launch).proceed .startAssign) v := by
  have hmRun : s.mRun = true := hinv.flag true (by rw [howner]; rfl)
  have hquiet : unbinding s.owner s.mRun = some [] := by rw [howner]; rfl
  have hidle := hinv.idle_of_unbinding hquiet (s.launched - 1)
  have hphase := hs.phase
  rw [working, howner] at hphase
  refine ⟨_, if_pos hphase.resting_of, hs.queued, ?_, rfl, hmRun⟩
  rw [hs.hand, lastPc, handOf_inactive hidle]
  simp [lastPc, State.act, handOf]

theorem related_silent {z : Zlogpull} {s t : State} {ev : OwnerEv} {u : Spool.State Sock Frame}
    (hinv : Inv s) (hs : Related s u) (h : (service z).step s (.owner ev) = some t)
    (hclear : ev ≠ .clear) (hwait : ev ≠ .wait) (hlaunch : ev ≠ .launch) : Related t u := by
  obtain ⟨hworking, hmRun⟩ := working_calls hinv h hclear hwait hlaunch
  obtain ⟨-, owner, -, rfl⟩ := step_owner h
  have hlast : lastPc ((s.act ev).proceed owner) = lastPc s := by
    rw [lastPc, proceed_runs, proceed_launched, act_runs s hlaunch, act_launched s hlaunch]
    rfl
  refine ⟨?_, ?_, ?_⟩
  · rw [proceed_inbox, act_inbox]
    exact hs.queued
  · rw [hlast]
    exact hs.hand
  · have hphase := hs.phase
    rw [hworking, hlast]
    generalize u.phase = phase at hphase
    cases phase with
    | running => exact ⟨hphase.1, (hmRun hphase.1).trans hphase.2⟩
    | draining last => exact ⟨hphase.1, (hmRun hphase.1).trans hphase.2.1, hphase.2.2⟩
    | resting => exact hphase

theorem related_owner {z : Zlogpull} {s t : State} {ev : OwnerEv} {u : Spool.State Sock Frame}
    (hinv : Inv s) (hs : Related s u) (h : (service z).step s (.owner ev) = some t) :
    ∃ bs v, (Spool.spool Sock Frame).run u bs = some v ∧ Related t v ∧
      visible Spool.seen bs = (seenOfService (.owner ev)).toList := by
  have hsilent := related_silent hinv hs h
  obtain ⟨hpermits, owner, hcalls, rfl⟩ := step_owner h
  generalize howner : s.owner = before at hcalls
  cases hcalls with
  | clear c =>
    obtain ⟨v, hv, hrel⟩ := related_clear hinv hs howner
    exact ⟨[.stop], v, (run_singleton _ _ _).trans hv, hrel, rfl⟩
  | wait c =>
    obtain ⟨v, hv, hrel⟩ := related_wait hinv hs howner hpermits
    exact ⟨[.rest], v, (run_singleton _ _ _).trans hv, hrel, rfl⟩
  | launch =>
    obtain ⟨v, hv, hrel⟩ := related_launch hinv hs howner
    exact ⟨[.start], v, (run_singleton _ _ _).trans hv, hrel, rfl⟩
  | _ => exact ⟨[], u, rfl, hsilent (by simp) (by simp) (by simp), rfl⟩

def matching (z : Zlogpull) :
    Matching (service z) (Spool.spool Sock Frame) seenOfService Spool.seen (fun _ => True) where
  rel := Related
  init := by
    refine ⟨?_, rfl, rfl, rfl⟩
    funext k
    simp [Spool.spool, service]
  closed := fun _ _ _ => trivial
  step := by
    intro acts s a t u hs _ hrel hstep
    have hinv : Inv s := inv_of_reachable ⟨acts, hs⟩
    cases a with
    | run i ev => exact related_run hinv hrel hstep
    | owner ev => exact related_owner hinv hrel hstep
    | arrive k m =>
      cases step_arrive hstep
      obtain ⟨hqueued, hhand, hphase⟩ := hrel
      by_cases hk : k = .ctl
      · refine ⟨[], u, rfl, ⟨?_, hhand, hphase⟩, by simp [seenOfService, hk]⟩
        rw [hqueued]
        funext j
        by_cases hj : j = .ctl
        · simp [hj]
        · simp [hj, hk]
      · refine ⟨[.put k m.first], _, rfl, ⟨?_, hhand, hphase⟩, ?_⟩
        · funext j
          by_cases hj : j = k
          · subst hj
            simp [hqueued, hk]
          · simp [hqueued, hj]
        · simp [seenOfService, hk, Spool.seen]

/-- Every run of the service shows what some run of a spooler shows: the lines
that come in and go out, and the stops and starts, in the same order. And the
service holds the lines that the spooler holds. -/
theorem refines_spool (z : Zlogpull) (acts : List Act) (s : State)
    (h : (service z).run (service z).init acts = some s) :
    ∃ steps u, (Spool.spool Sock Frame).run (Spool.spool Sock Frame).init steps = some u ∧
      visible Spool.seen steps = visible seenOfService acts ∧
      ∀ k, k ≠ .ctl → u.queued k = (s.inbox k).map Wire.first := by
  obtain ⟨steps, u, hu, hrel, hseen⟩ := (matching z).run trivial h
  refine ⟨steps, u, hu, hseen, fun k hk => ?_⟩
  rw [hrel.queued]
  exact if_neg hk

def printsLine : Act → Bool
  | .run _ (.route _ _) => true
  | _ => false

theorem any_isEmit_seenOfService (a : Act) :
    (seenOfService a).any Spool.Seen.isEmit = printsLine a := by
  cases a with
  | arrive k m => by_cases hk : k = .ctl <;> simp [seenOfService, printsLine, hk, Spool.Seen.isEmit]
  | run i ev => cases ev <;> rfl
  | owner ev => cases ev <;> rfl

/-- From the clearing of the flag to the next launch one line is printed at
most, of all the lines that are queued. -/
theorem last_line (z : Zlogpull) (before after : List Act) (s : State)
    (h : (service z).run (service z).init (before ++ .owner .clear :: after) = some s)
    (hlaunch : .owner .launch ∉ after) : after.countP printsLine ≤ 1 := by
  have hends := (matching z).transfer Spool.endsSoon trivial h
  have hstart : Spool.Seen.start ∉ visible seenOfService after := by
    intro hmem
    obtain ⟨a, ha, hseen⟩ := List.mem_filterMap.mp hmem
    cases a with
    | arrive k m => by_cases hk : k = .ctl <;> simp [seenOfService, hk] at hseen
    | run i ev => cases ev <;> simp [seenOfService] at hseen
    | owner ev =>
      cases ev with
      | launch => exact hlaunch ha
      | _ => simp [seenOfService] at hseen
  have hcount := hends (visible seenOfService before) (visible seenOfService after)
    (by simp [visible, seenOfService]) hstart
  rw [countP_visible] at hcount
  simpa only [any_isEmit_seenOfService] using hcount

def receiving : List Act :=
  [.run 0 (.bind .tcp true), .run 0 (.bind .ipc true), .run 0 (.bind .inp true),
    .run 0 (.bind .ctl true), .run 0 .setup, .run 0 (.test true), .run 0 .pollBegin,
    .arrive .inp ⟨[97], []⟩, .arrive .inp ⟨[98], []⟩, .run 0 (.pollReturn [.sock .inp]),
    .run 0 (.guard .inp true), .owner .stop, .owner (.test true)]

def oneMore : List Act :=
  [.run 0 (.receive .inp 0 ⟨[97], []⟩), .owner .pollCancel, .run 0 (.route .inp [97]),
    .run 0 .pollEnd, .run 0 (.test false), .run 0 .ret, .owner .wait]

theorem refines_spool_oneMore :
    ∃ s, (service sample).run (service sample).init (receiving ++ .owner .clear :: oneMore) =
        some s ∧
      ∃ steps u, (Spool.spool Sock Frame).run (Spool.spool Sock Frame).init steps = some u ∧
        visible Spool.seen steps =
          visible seenOfService (receiving ++ .owner .clear :: oneMore) ∧
        ∀ k, k ≠ .ctl → u.queued k = (s.inbox k).map Wire.first :=
  ⟨_, rfl, refines_spool sample (receiving ++ .owner .clear :: oneMore) _ rfl⟩

theorem last_line_oneMore :
    ∃ s, (service sample).run (service sample).init (receiving ++ .owner .clear :: oneMore) =
        some s ∧
      s.inbox .inp = [⟨[98], []⟩] ∧ oneMore.countP printsLine ≤ 1 :=
  ⟨_, rfl, rfl, last_line sample receiving oneMore _ rfl (by decide)⟩

end Zmqlog.Spooling
