import Zmqlog.Wakeup

/-! The bytes that `poll_cancel` writes and `poll_reset` reads back. Only a
poll that returns with the byte reads it, and the execution that is being
stopped need not come to one. -/
namespace Zmqlog.PipeBytes
open Transition Zmqpp Control Service Step Lifecycle Progress Wakeup

/-- But for the byte of a `stop()` that still waits, the pipe is empty: so it
is when that `stop()` ends, when `run()` is launched, and when `poll_cancel`
writes. -/
structure PipeClear (s : State) : Prop where
  waiting : s.pipe ≤ 1
  otherwise : (∀ c, s.owner ≠ .stopWait c) → s.pipe = 0

/-- `stop()` writes while the execution is about to poll or in its poll, and
the poll that ends with a byte in the pipe returns and reports it. -/
def InTime (s : State) : Act → Prop
  | .owner .pollCancel => s.runs s.fut = .poll ∨ s.runs s.fut = .polling
  | .run _ (.pollReturn ready) => 1 ≤ s.pipe → .pipe ∈ ready
  | .run _ .pollThrow => s.pipe = 0
  | _ => True

instance decidableInTime (s : State) : ∀ a, Decidable (InTime s a)
  | .owner .pollCancel => inferInstanceAs (Decidable (_ ∨ _))
  | .run _ (.pollReturn ready) => inferInstanceAs (Decidable (1 ≤ s.pipe → .pipe ∈ ready))
  | .run _ .pollThrow => inferInstanceAs (Decidable (s.pipe = 0))
  | .owner (.test _) | .owner (.unbind _ _) | .owner .start | .owner .stop | .owner .destroy
  | .owner .set | .owner .launch | .owner .assign | .owner .clear | .owner .wait
  | .owner .ret | .owner (.close _) => isTrue trivial
  | .run _ (.bind _ _) | .run _ .setup | .run _ (.test _) | .run _ .pollBegin
  | .run _ .pollEnd | .run _ (.guard _ _) | .run _ (.receive _ _ _) | .run _ (.receiveNone _)
  | .run _ (.receiveThrow _) | .run _ (.route _ _) | .run _ .handleCmd | .run _ (.send _)
  | .run _ .sendThrow | .run _ .sendNothing | .run _ .pollReset | .run _ .ret => isTrue trivial
  | .arrive _ _ => isTrue trivial

/-- A `poll_reset` is still to come. -/
def Reads : Pc → Prop
  | .poll | .polling => True
  | pc => .pipe ∈ pending pc

/-- With the flag cleared it calls no handler that could cut its round short. -/
def undisturbed : Pc → Bool
  | .poll | .polling | .dispatch _ | .test | .leave | .returned => true
  | _ => false

structure ByteInv (s : State) : Prop where
  otherwise : (∀ c, s.owner ≠ .stopWait c) → s.pipe = 0
  waiting : ∀ c, s.owner = .stopWait c →
    undisturbed (s.runs s.fut) = true ∧ s.pipe ≤ 1 ∧ (s.pipe = 1 ↔ Reads (s.runs s.fut))

theorem ByteInv.clear {s : State} (h : ByteInv s) : PipeClear s where
  otherwise := h.otherwise
  waiting := by
    by_cases howner : ∃ c, s.owner = .stopWait c
    · rcases howner with ⟨c, howner⟩
      exact (h.waiting c howner).2.1
    · rw [h.otherwise (not_exists.mp howner)]
      exact Nat.zero_le 1

theorem goes_undisturbed {z : Zlogpull} {s : State} {pc pc' : Pc} {ev : Ev} {i : Nat}
    (hgoes : Goes z pc ev pc') (henables : s.enables ev = true) (hmRun : s.mRun = false)
    (hprepared : PreparedAt s pc) (htime : InTime s (.run i ev))
    (hpc : undisturbed pc = true) (hpipe : s.pipe ≤ 1 ∧ (s.pipe = 1 ↔ Reads pc)) :
    undisturbed pc' = true ∧ (s.effect ev).pipe ≤ 1 ∧ ((s.effect ev).pipe = 1 ↔ Reads pc') := by
  rcases hpipe with ⟨hle, hread⟩
  cases hgoes with
  | again => simp [State.enables, hmRun] at henables
  | enter => simp [State.enables, hmRun] at henables
  | pollReturn ready =>
    have hbyte : s.pipe = 1 := hread.mpr trivial
    have hmem : Item.pipe ∈ ready := htime hbyte.ge
    exact ⟨rfl, hle, fun _ => hmem, fun _ => hbyte⟩
  | pollThrow =>
    have hempty : s.pipe = 0 := htime
    rw [hread.mpr trivial] at hempty
    cases hempty
  | pollReset rest =>
    have hnot : Item.pipe ∉ rest := (List.nodup_cons.mp hprepared.nodup).1
    have hempty : s.pipe - 1 = 0 := by omega
    refine ⟨rfl, by simp [State.effect, hempty], fun hbyte => ?_, fun hmem => absurd hmem hnot⟩
    simp [State.effect, hempty] at hbyte
  | skip k rest => exact ⟨rfl, hle, by simpa [Reads, pending, State.effect] using hread⟩
  | finish | pollBegin | pollEnd | ret => exact ⟨rfl, hle, hread⟩
  | _ => cases hpc

theorem not_reads_ended {pc : Pc} (h : pc.ended = true) : ¬ Reads pc := by
  cases pc with
  | returned | escaped => simp [Reads, pending]
  | _ => cases h

theorem effect_pipe_zero {s : State} {ev : Ev} (henables : s.enables ev = true)
    (h : s.pipe = 0) : (s.effect ev).pipe = 0 := by
  by_cases hev : ev = .pollReset
  · subst hev
    simp [State.enables, h] at henables
  · rw [effect_pipe s hev, h]

theorem byteInv_step {z : Zlogpull} {s t : State} {a : Act} (hreach : (service z).Reachable s)
    (hs : ByteInv s) (htime : InTime s a) (h : (service z).step s a = some t) : ByteInv t := by
  have hinv := inv_of_reachable hreach
  cases a with
  | run i ev =>
    rcases step_run.mp h with ⟨henables, pc, hgoes, rfl⟩
    refine ⟨fun hother => ?_, fun c howner => ?_⟩
    · exact effect_pipe_zero henables (hs.otherwise (by simpa using hother))
    · have howner' : s.owner = .stopWait c := by simpa using howner
      have hi := hinv.eq_fut (by simp [howner']) hgoes.active
      subst hi
      rcases hs.waiting c howner' with ⟨hpc, hpipe⟩
      simp only [goto_fut, effect_fut, goto_self, goto_pipe]
      exact goes_undisturbed hgoes henables (mRun_of_stopWait hinv howner')
        (prepared_of_reachable hreach _) htime hpc hpipe
  | owner ev =>
    rcases step_owner h with ⟨hpermits, owner, hcalls, rfl⟩
    refine ⟨fun hother => ?_, fun c howner => ?_⟩
    · by_cases hwait : ∃ c, s.owner = .stopWait c
      · rcases hwait with ⟨c, hwait⟩
        rw [hwait] at hcalls
        cases hcalls with
        | wait =>
          have hended : (s.runs s.fut).ended = true := hpermits
          rcases hs.waiting c hwait with ⟨-, hle, hread⟩
          have hne : s.pipe ≠ 1 := fun hbyte => not_reads_ended hended (hread.mp hbyte)
          have hempty : s.pipe = 0 := by omega
          exact hempty
      · have hev : ev ≠ .pollCancel := by
          rintro rfl
          generalize s.owner = before at hcalls
          cases hcalls with
          | pollCancel c => exact hother c rfl
        rw [proceed_pipe, act_pipe s hev]
        exact hs.otherwise (not_exists.mp hwait)
    · rcases calls_stopWait hcalls howner with ⟨hwrite, rfl⟩
      have hempty := hs.otherwise (by simp [hwrite])
      have hpolls : s.runs s.fut = .poll ∨ s.runs s.fut = .polling := htime
      rcases hpolls with hpc | hpc <;>
        simp [State.act, hpc, hempty, undisturbed, Reads]
  | arrive k m =>
    cases step_arrive h
    exact ⟨hs.otherwise, hs.waiting⟩

/-! A byte that comes too late is still there when the wait ends. -/

structure Missed (s : State) : Prop where
  waiting : ∃ c, s.owner = .stopWait c
  byte : 1 ≤ s.pipe
  unread : ¬ Reads (s.runs s.fut)

theorem goes_unread {z : Zlogpull} {s : State} {pc pc' : Pc} {ev : Ev}
    (hgoes : Goes z pc ev pc') (henables : s.enables ev = true) (hmRun : s.mRun = false)
    (h : ¬ Reads pc) : ¬ Reads pc' ∧ ev ≠ .pollReset := by
  cases hgoes with
  | again => simp [State.enables, hmRun] at henables
  | pollBegin => exact absurd trivial h
  | pollReturn => exact absurd trivial h
  | pollReset rest => exact absurd List.mem_cons_self h
  | enter | skip | pulled | requested | noFrame | noRequest | route | answered | send =>
    simpa [Reads, pending] using h
  | _ => simp [Reads, pending]

/-- The write of a `stop()` finds the pipe full, and no `poll_reset` is to come. -/
structure Jammed (z : Zlogpull) (c : Caller) (s : State) : Prop where
  owner : s.owner = .stopWrite c
  full : z.room s.pipe = false
  unread : ¬ Reads (s.runs s.fut)

theorem mRun_of_stopWrite {s : State} (hinv : Inv s) {c : Caller} (h : s.owner = .stopWrite c) :
    s.mRun = false :=
  hinv.flag false (by rw [h]; rfl)

theorem jammed_step {z : Zlogpull} {c : Caller} {s t : State} {a : Act} (hinv : Inv s)
    (hs : Jammed z c s) (h : (service z).step s a = some t) : Jammed z c t := by
  obtain ⟨howner, hfull, hunread⟩ := hs
  cases a with
  | run i ev =>
    obtain ⟨henables, pc, hgoes, rfl⟩ := step_run.mp h
    have hi := hinv.eq_fut (by simp [howner]) hgoes.active
    subst hi
    obtain ⟨hpc, hev⟩ := goes_unread hgoes henables (mRun_of_stopWrite hinv howner) hunread
    refine ⟨by simpa using howner, ?_, by simpa using hpc⟩
    rw [goto_pipe, effect_pipe s hev]
    exact hfull
  | owner ev =>
    obtain ⟨hpermits, owner, hcalls, rfl⟩ := step_owner h
    rw [howner] at hcalls
    cases hcalls with
    | pollCancel =>
      have hroom : z.room s.pipe = true := hpermits
      rw [hfull] at hroom
      cases hroom
  | arrive k m =>
    cases step_arrive h
    exact ⟨howner, hfull, hunread⟩

theorem jammed_run {z : Zlogpull} {c : Caller} {s t : State} {later : List Act}
    (hreach : (service z).Reachable s) (hs : Jammed z c s)
    (h : (service z).run s later = some t) : Jammed z c t :=
  run_induction (M := service z) (I := fun _ t => Jammed z c t) hs
    (fun _ _ _ _ hu hjammed => jammed_step (inv_of_reachable (hreach.run hu)) hjammed) later t h

theorem missed_step {z : Zlogpull} {s t : State} {a : Act} (hinv : Inv s) (hs : Missed s)
    (hclear : PipeClear t) (h : (service z).step s a = some t) : Missed t := by
  rcases hs with ⟨⟨c, howner⟩, hbyte, hunread⟩
  cases a with
  | run i ev =>
    rcases step_run.mp h with ⟨henables, pc, hgoes, rfl⟩
    have hi := hinv.eq_fut (by simp [howner]) hgoes.active
    subst hi
    rcases goes_unread hgoes henables (mRun_of_stopWait hinv howner) hunread with ⟨hpc, hev⟩
    refine ⟨⟨c, by simpa using howner⟩, ?_, ?_⟩
    · rw [goto_pipe, effect_pipe s hev]
      exact hbyte
    · simpa using hpc
  | owner ev =>
    rcases step_owner h with ⟨-, owner, hcalls, rfl⟩
    rw [howner] at hcalls
    cases hcalls with
    | wait =>
      have hempty : s.pipe = 0 := hclear.otherwise (by simp [unbindFrom, unbindOrder])
      omega
  | arrive k m =>
    cases step_arrive h
    exact ⟨⟨c, howner⟩, hbyte, hunread⟩

theorem missed_of_late {z : Zlogpull} {s t : State} {a : Act} (hreach : (service z).Reachable s)
    (hs : PipeClear s) (hlate : ¬ InTime s a) (h : (service z).step s a = some t) :
    Missed t := by
  have hinv := inv_of_reachable hreach
  have waits (hbyte : 1 ≤ s.pipe) : ∃ c, s.owner = .stopWait c := by
    by_contra hother
    have := hs.otherwise (not_exists.mp hother)
    omega
  cases a with
  | run i ev =>
    rcases step_run.mp h with ⟨-, pc, hgoes, rfl⟩
    generalize hpc : s.runs i = before at hgoes
    cases hgoes with
    | pollReturn ready =>
      rcases Classical.not_imp.mp hlate with ⟨hbyte, hnot⟩
      rcases waits hbyte with ⟨c, howner⟩
      have hi := hinv.eq_fut (i := i) (by simp [howner]) (by rw [hpc]; rfl)
      subst hi
      exact ⟨⟨c, howner⟩, hbyte, by simpa [Reads, pending] using hnot⟩
    | pollThrow =>
      have hbyte : 1 ≤ s.pipe := Nat.one_le_iff_ne_zero.mpr hlate
      rcases waits hbyte with ⟨c, howner⟩
      have hi := hinv.eq_fut (i := i) (by simp [howner]) (by rw [hpc]; rfl)
      subst hi
      exact ⟨⟨c, howner⟩, hbyte, by simp [Reads, pending]⟩
    | _ => exact absurd trivial hlate
  | owner ev =>
    rcases step_owner h with ⟨-, owner, hcalls, rfl⟩
    generalize howner : s.owner = before at hcalls
    cases hcalls with
    | pollCancel c =>
      have hempty : s.pipe = 0 := hs.otherwise (by simp [howner])
      refine ⟨⟨c, rfl⟩, by simp [State.act], ?_⟩
      have hready := (prepared_of_reachable hreach s.fut).ready
      have hnot : Item.pipe ∉ pending (s.runs s.fut) := by
        intro hmem
        simpa [State.ready, hempty] using hready _ hmem
      have hpoll := not_or.mp hlate
      show ¬ Reads (s.runs s.fut)
      unfold Reads
      split
      · exact absurd ‹_› hpoll.1
      · exact absurd ‹_› hpoll.2
      · exact hnot
    | _ => exact absurd trivial hlate
  | arrive k m => exact absurd trivial hlate

/-- The pipe is kept clear by every run in which each stop's byte is written
for a poll and reported by it, and, among the runs that end with no `stop()`
waiting, by no other. -/
theorem pipeClear_iff_inTime (z : Zlogpull) (acts : List Act) (s : State)
    (h : (service z).run (service z).init acts = some s) :
    ((service z).Steps InTime (service z).init acts →
        (service z).Always PipeClear (service z).init acts) ∧
      ((∀ c, s.owner ≠ .stopWait c) →
        (service z).Always PipeClear (service z).init acts →
        (service z).Steps InTime (service z).init acts) := by
  refine ⟨fun hsteps => ?_, fun hother hclear => ?_⟩
  · have hinit : ByteInv (service z).init := ⟨fun _ => rfl, fun c howner => nomatch howner⟩
    have hall := always_of_steps (fun s a t => byteInv_step) (Machine.Reachable.init _) hinit hsteps
    exact hall.mono (fun _ _ hs => hs.clear) (Machine.Reachable.init _)
  · have hkey : (service z).Steps InTime (service z).init acts ∨ Missed s := by
      refine run_induction (M := service z)
        (I := fun acts s => (service z).Always PipeClear (service z).init acts →
          (service z).Steps InTime (service z).init acts ∨ Missed s)
        (fun _ => .inl trivial) ?_ acts s h hclear
      intro acts s a t hs ih hstep hall
      have hreach : (service z).Reachable s := ⟨acts, hs⟩
      rcases (always_snoc hs hstep).mp hall with ⟨hbefore, hafter⟩
      rcases ih hbefore with hsteps | hmissed
      · by_cases htime : InTime s a
        · exact .inl ((steps_snoc hs).mpr ⟨hsteps, htime⟩)
        · exact .inr (missed_of_late hreach (hbefore.last hs) htime hstep)
      · exact .inr (missed_step (inv_of_reachable hreach) hmissed hafter hstep)
    rcases hkey with hsteps | hmissed
    · exact hsteps
    · rcases hmissed.waiting with ⟨c, howner⟩
      exact absurd howner (hother c)

def wokenStop (i : Nat) : List Act :=
  [.run i (.bind .tcp true), .run i (.bind .ipc true), .run i (.bind .inp true),
    .run i (.bind .ctl true), .run i .setup, .run i (.test true), .run i .pollBegin,
    .owner .stop, .owner (.test true), .owner .clear, .owner .pollCancel,
    .run i (.pollReturn [.pipe]), .run i .pollReset, .run i .pollEnd, .run i (.test false),
    .run i .ret, .owner .wait, .owner (.unbind .tcp true), .owner (.unbind .ipc true),
    .owner (.unbind .inp true), .owner (.unbind .ctl true)]

theorem pipeClear_wokenStop :
    (∃ s, (service sample).run (service sample).init (wokenStop 0) = some s ∧
      s.owner = .stopEnd .user false) ∧
      (service sample).Always PipeClear (service sample).init (wokenStop 0) :=
  ⟨⟨_, rfl, rfl⟩, (pipeClear_iff_inTime sample (wokenStop 0) _ rfl).1 (by decide)⟩

theorem quickStop_not_clear :
    ∃ s, (service sample).run (service sample).init (quickStop 0) = some s ∧
      s.owner = .stopEnd .user false ∧ s.pipe = 1 ∧ ¬ PipeClear s :=
  ⟨_, rfl, rfl, rfl, fun hclear => nomatch hclear.otherwise fun _ howner => nomatch howner⟩

section Phases
variable (z : Zlogpull) {s : State}

theorem run_clear (howner : s.owner = .idle) (hmRun : s.mRun = true) :
    (service z).run s [.owner .stop, .owner (.test true), .owner .clear] =
      some { s with mRun := false, owner := .stopWrite .user } := by
  cases s
  subst howner hmRun
  rfl

theorem run_stop (howner : s.owner = .idle) (hmRun : s.mRun = true)
    (hroom : z.room s.pipe = true) :
    (service z).run s ([.owner .stop, .owner (.test true), .owner .clear] ++
        [.owner .pollCancel]) =
      some { s with mRun := false, pipe := s.pipe + 1, owner := .stopWait .user } := by
  rw [run_append, run_clear z howner hmRun, Option.bind_some, run_singleton]
  simp [service, State.permits, hroom, Owner.next, State.act, State.proceed]

theorem run_binds {i : Nat} {todo : List Sock} (hpc : s.runs i = .bind todo) :
    (service z).run s (todo.map fun k => .run i (.bind k true)) =
      some { s with
        bound := fun k => s.bound k || decide (k ∈ todo)
        runs := Function.update s.runs i (.bind []) } := by
  induction todo generalizing s with
  | nil => simp [← hpc]
  | cons k todo ih =>
    have hstep : (service z).step s (.run i (.bind k true)) =
        some ((s.effect (.bind k true)).goto i (.bind todo)) :=
      step_next rfl (by simp [hpc, Pc.next])
    rw [List.map_cons, run_cons, hstep, Option.bind_some, ih (goto_self ..)]
    have hbound : (fun j => Function.update s.bound k true j || decide (j ∈ todo)) =
        fun j => s.bound j || decide (j ∈ k :: todo) := by
      funext j
      by_cases hj : j = k <;> simp [hj]
    simp only [State.effect, State.goto, Function.update_idem, hbound]

theorem run_setup {i : Nat} (hpc : s.runs i = .bind bindOrder) :
    (service z).run s (bindOrder.map (fun k => .run i (.bind k true)) ++ [.run i .setup]) =
      some { s with
        bound := fun _ => true
        runs := Function.update s.runs i .test } := by
  have hall : (fun k => s.bound k || decide (k ∈ bindOrder)) = fun _ => true := by
    funext k
    cases k <;> simp [bindOrder]
  rw [run_append, run_binds z hpc, hall, Option.bind_some, run_singleton,
    step_next rfl (show Pc.next z (Function.update s.runs i (.bind []) i) .setup = some .test by
      simp [Pc.next])]
  simp [State.effect, State.goto]

theorem run_return {i : Nat} (hpc : s.runs i = .test) (hmRun : s.mRun = false) :
    (service z).run s [.run i (.test false), .run i .ret] = some (s.goto i .returned) := by
  have htest : (service z).step s (.run i (.test false)) = some (s.goto i .leave) :=
    step_next (by simp [State.enables, hmRun]) (by simp [hpc, Pc.next])
  have hret : (service z).step (s.goto i .leave) (.run i .ret) =
      some ((s.goto i .leave).goto i .returned) := step_next rfl (by simp [Pc.next])
  rw [run_cons, htest, Option.bind_some, run_singleton, hret]
  simp only [State.goto, Function.update_idem]

theorem run_unpolled {i : Nat} (hpc : s.runs i = .bind bindOrder) (hmRun : s.mRun = false) :
    (service z).run s (bindOrder.map (fun k => .run i (.bind k true)) ++ [.run i .setup] ++
        [.run i (.test false), .run i .ret]) =
      some { s with
        bound := fun _ => true
        runs := Function.update s.runs i .returned } := by
  rw [run_append, run_setup z hpc, Option.bind_some, run_return z]
  · simp only [State.goto, Function.update_idem]
  · exact Function.update_self ..
  · exact hmRun

theorem run_unbinds (todo : List Sock) (howner : s.owner = unbindFrom .user todo)
    (hbound : ∀ k ∈ todo, s.bound k = true) (hnodup : todo.Nodup) :
    (service z).run s (todo.map fun k => .owner (.unbind k true)) =
      some { s with
        bound := fun k => s.bound k && decide (k ∉ todo)
        owner := .stopEnd .user false } := by
  induction todo generalizing s with
  | nil =>
    have hend : s.owner = .stopEnd .user false := howner
    simp [← hend]
  | cons k todo ih =>
    rw [List.nodup_cons] at hnodup
    have hstep : (service z).step s (.owner (.unbind k true)) =
        some ((s.act (.unbind k true)).proceed (unbindFrom .user todo)) :=
      step_owner_next (by simpa [State.permits] using hbound k List.mem_cons_self)
        (by simp [howner, unbindFrom, Owner.next])
    have hrest : ∀ j ∈ todo, ((s.act (.unbind k true)).proceed (unbindFrom .user todo)).bound j =
        true := by
      intro j hj
      have hjk : j ≠ k := fun h => hnodup.1 (h ▸ hj)
      simpa [State.act, hjk] using hbound j (List.mem_cons_of_mem _ hj)
    rw [List.map_cons, run_cons, hstep, Option.bind_some, ih rfl hrest hnodup.2]
    have hnone : (fun j => Function.update s.bound k false j && decide (j ∉ todo)) =
        fun j => s.bound j && decide (j ∉ k :: todo) := by
      funext j
      by_cases hj : j = k <;> simp [hj]
    simp only [State.act, State.proceed, hnone]

theorem run_unbind (howner : s.owner = .stopWait .user) (hended : (s.runs s.fut).ended = true)
    (hbound : s.bound = fun _ => true) :
    (service z).run s ([.owner .wait] ++ unbindOrder.map (fun k => .owner (.unbind k true)) ++
        [.owner .ret]) =
      some { s with bound := fun _ => false, owner := .idle } := by
  have hnone : (fun k => s.bound k && decide (k ∉ unbindOrder)) = fun _ => false := by
    funext k
    cases k <;> simp [unbindOrder]
  have hwait : (service z).step s (.owner .wait) =
      some (s.proceed (unbindFrom .user unbindOrder)) :=
    step_owner_next hended (by rw [howner]; rfl)
  have hunbinds := run_unbinds z (s := s.proceed (unbindFrom .user unbindOrder)) unbindOrder rfl
    (fun k _ => congrFun hbound k) (by decide)
  rw [proceed_bound, hnone] at hunbinds
  rw [run_append, run_append, run_singleton, hwait, Option.bind_some, hunbinds]
  rfl

theorem run_launch (howner : s.owner = .idle) (hmRun : s.mRun = false) :
    (service z).run s [.owner .start, .owner (.test false), .owner .set, .owner .launch] =
      some { s with
        mRun := true
        owner := .startAssign
        runs := Function.update s.runs s.launched (.bind bindOrder)
        launched := s.launched + 1 } := by
  cases s
  subst howner hmRun
  rfl

theorem run_start (howner : s.owner = .idle) (hmRun : s.mRun = false)
    (hended : (s.runs s.fut).ended = true) (hfut : s.fut < s.launched) :
    (service z).run s ([.owner .start, .owner (.test false), .owner .set, .owner .launch] ++
        [.owner .assign]) =
      some { s with
        mRun := true
        runs := Function.update s.runs s.launched (.bind bindOrder)
        launched := s.launched + 1
        fut := s.launched } := by
  rw [run_append, run_launch z howner hmRun, Option.bind_some, run_singleton,
    step_owner_next ?_ (rfl : Owner.startAssign.next .assign = some .idle)]
  · rw [← howner]
    rfl
  · simpa [State.permits, hfut.ne] using hended

end Phases

structure Begun (s : State) : Prop where
  owner : s.owner = .idle
  mRun : s.mRun = true
  pc : s.runs s.fut = .bind bindOrder
  fut : s.fut < s.launched

def stopAtOnce (i : Nat) : List Act :=
  [Act.owner .stop, Act.owner (.test true), Act.owner .clear] ++ [Act.owner .pollCancel] ++
    (bindOrder.map (fun k => Act.run i (.bind k true)) ++ [Act.run i .setup] ++
      [Act.run i (.test false), Act.run i .ret]) ++
    ([Act.owner .wait] ++ unbindOrder.map (fun k => Act.owner (.unbind k true)) ++
      [Act.owner .ret])

def startAgain : List Act :=
  [.owner .start, .owner (.test false), .owner .set, .owner .launch] ++ [.owner .assign]

theorem faultless_cycle (i : Nat) : ∀ a ∈ stopAtOnce i ++ startAgain, faultless a = true := by
  simp [stopAtOnce, startAgain, bindOrder, unbindOrder, faultless]

/-- After a quick stop there is one byte more, and so there is after the restart. -/
theorem begun_again {z : Zlogpull} {s : State} (hs : Begun s) (hroom : z.room s.pipe = true) :
    ∃ stopped again, (service z).run s (stopAtOnce s.fut) = some stopped ∧
      stopped.owner = .idle ∧ stopped.mRun = false ∧ stopped.pipe = s.pipe + 1 ∧
      (service z).run stopped startAgain = some again ∧ Begun again ∧ again.pipe = s.pipe + 1 := by
  have hended : Pc.ended (Function.update s.runs s.fut .returned s.fut) = true := by
    rw [Function.update_self]
    rfl
  have hstopped := run_append_eq_some _ |>.mpr ⟨_, run_append_eq_some _ |>.mpr
    ⟨_, run_stop z hs.owner hs.mRun hroom, run_unpolled z hs.pc rfl⟩, run_unbind z rfl hended rfl⟩
  refine ⟨_, _, hstopped, rfl, rfl, rfl, run_start z rfl rfl hended hs.fut, ⟨rfl, rfl, ?_, ?_⟩,
    rfl⟩
  · exact Function.update_self ..
  · exact Nat.lt_succ_self _

theorem begun_with (z : Zlogpull) {n : Nat} (hn : ∀ c ∈ z.capacity, n ≤ c) :
    ∃ acts s, (service z).run (service z).init acts = some s ∧
      (∀ a ∈ acts, faultless a = true) ∧ Begun s ∧ s.pipe = n := by
  induction n with
  | zero => exact ⟨[], _, rfl, by simp, ⟨rfl, rfl, rfl, Nat.zero_lt_one⟩, rfl⟩
  | succ n ih =>
    obtain ⟨acts, s, hrun, hall, hs, hpipe⟩ := ih fun c hc => Nat.le_of_succ_le (hn c hc)
    have hroom : z.room s.pipe = true := by
      rw [room_iff, hpipe]
      exact hn
    obtain ⟨stopped, again, hstopped, -, -, -, hagain, hbegun, hbyte⟩ := begun_again hs hroom
    have hcycle := (run_append_eq_some _).mpr ⟨stopped, hstopped, hagain⟩
    refine ⟨acts ++ (stopAtOnce s.fut ++ startAgain), again,
      (run_append_eq_some _).mpr ⟨s, hrun, hcycle⟩, fun a ha => ?_, hbegun, by rw [hbyte, hpipe]⟩
    rcases List.mem_append.mp ha with ha | ha
    · exact hall a ha
    · exact faultless_cycle s.fut a ha

theorem pipe_le_capacity {z : Zlogpull} {s : State} (h : (service z).Reachable s) {c : Nat}
    (hc : c ∈ z.capacity) : s.pipe ≤ c := by
  refine h.induction (I := fun s => s.pipe ≤ c) (Nat.zero_le c) fun s a t _ hs hstep => ?_
  cases a with
  | run i ev =>
    obtain ⟨-, pc, -, rfl⟩ := step_run.mp hstep
    by_cases hev : ev = .pollReset
    · subst hev
      exact (Nat.sub_le _ _).trans hs
    · rw [goto_pipe, effect_pipe s hev]
      exact hs
  | owner ev =>
    obtain ⟨hpermits, owner, -, rfl⟩ := step_owner hstep
    by_cases hev : ev = .pollCancel
    · subst hev
      exact room_iff.mp hpermits c hc
    · rw [proceed_pipe, act_pipe s hev]
      exact hs
  | arrive k m =>
    cases step_arrive hstep
    exact hs

/-- With as many bytes in it as it holds, one more quick `stop()` is jammed. -/
theorem jammed_of_full {z : Zlogpull} {c : Nat} (hc : c ∈ z.capacity) :
    ∃ acts s, (service z).run (service z).init acts = some s ∧
      (∀ a ∈ acts, faultless a = true) ∧ Jammed z .user s ∧ s.pipe = c := by
  have hle : ∀ c' ∈ z.capacity, c ≤ c' := by
    intro c' hc'
    exact (Option.mem_unique hc hc').le
  obtain ⟨acts, s, hrun, hall, hs, hpipe⟩ := begun_with z hle
  have hclear := run_clear z hs.owner hs.mRun
  refine ⟨_, _, (run_append_eq_some _).mpr ⟨s, hrun, hclear⟩, ?_, ?_, hpipe⟩
  · simpa [or_imp, forall_and, faultless] using hall
  refine ⟨rfl, ?_, ?_⟩
  · rw [Bool.eq_false_iff, Ne, room_iff]
    intro hroom
    exact absurd (hroom c hc) (by simp [hpipe])
  · simp [hs.pc, Reads, pending]

/-- Calls that have all returned can leave behind any number of bytes that the
pipe holds. It never holds more: once it is full, a `stop()` that comes before
the first poll waits for ever at its write, though nothing has failed. -/
theorem bytes_left (z : Zlogpull) :
    (∀ n, (∀ c ∈ z.capacity, n + 1 ≤ c) →
        ∃ s, (service z).Reachable s ∧ s.owner = .idle ∧ s.mRun = false ∧ s.pipe = n + 1) ∧
      ∀ c ∈ z.capacity, (∀ s, (service z).Reachable s → s.pipe ≤ c) ∧
        ∃ acts s, (service z).run (service z).init acts = some s ∧
          (∀ a ∈ acts, faultless a = true) ∧ s.pipe = c ∧
          ∀ later t, (service z).run s later = some t → t.owner = .stopWrite .user := by
  refine ⟨fun n hn => ?_, fun c hc => ⟨fun s hs => pipe_le_capacity hs hc, ?_⟩⟩
  · obtain ⟨acts, s, hrun, -, hs, hpipe⟩ := begun_with z fun c hc => Nat.le_of_succ_le (hn c hc)
    have hroom : z.room s.pipe = true := by
      rw [room_iff, hpipe]
      exact hn
    obtain ⟨stopped, -, hstopped, howner, hmRun, hbyte, -⟩ := begun_again hs hroom
    exact ⟨stopped, Machine.Reachable.run ⟨acts, hrun⟩ hstopped, howner, hmRun,
      by rw [hbyte, hpipe]⟩
  · obtain ⟨acts, s, hrun, hall, hjammed, hpipe⟩ := jammed_of_full hc
    exact ⟨acts, s, hrun, hall, hpipe, fun later t hlater =>
      (jammed_run ⟨acts, hrun⟩ hjammed hlater).owner⟩

theorem bytes_left_sample :
    (∃ s, (service sample).Reachable s ∧ s.owner = .idle ∧ s.mRun = false ∧ s.pipe = 3) ∧
      ∃ acts s, (service sample).run (service sample).init acts = some s ∧
        (∀ a ∈ acts, faultless a = true) ∧ s.pipe = 65536 ∧
        ∀ later t, (service sample).run s later = some t → t.owner = .stopWrite .user :=
  ⟨(bytes_left sample).1 2 (by simp [sample]), ((bytes_left sample).2 65536 rfl).2⟩

end Zmqlog.PipeBytes
