import Zmqlog.Delivery
import Zmqlog.Progress

/-! The rounds of the poll loop. A round takes one message at most from each
socket, so none keeps the others waiting, and a request whose handling throws
cuts its round short only behind the pull sockets. -/
namespace Zmqlog.Rounds
open Transition Zmqpp Control Service Step Lifecycle Progress Delivery

/-- What a pull socket still owes to `route()`. -/
def held (s : State) (k : Sock) : List Frame :=
  (inHand s k).toList ++ (s.inbox k).map Wire.first

theorem held_run {z : Zlogpull} {later : List Act} {s t : State} (hs : (service z).Reachable s)
    (h : (service z).run s later = some t) {k : Sock} (hk : k ≠ .ctl) :
    held s k ++ arrived k later = printed k later ++ held t k := by
  obtain ⟨acts, hacts⟩ := hs
  have hbefore := arrived_eq hacts hk
  have hafter := arrived_eq ((run_append_eq_some _).mpr ⟨s, hacts, h⟩) hk
  have hsplit : arrived k (acts ++ later) = arrived k acts ++ arrived k later :=
    List.flatMap_append
  have hsplit' : printed k (acts ++ later) = printed k acts ++ printed k later :=
    List.flatMap_append
  rw [hsplit, hsplit', hbefore] at hafter
  simpa only [held, List.append_assoc, List.append_cancel_left_eq] using hafter

theorem behind_ctl {rest : List Item} (h : (.sock .ctl :: rest : List Item).Sublist registered) :
    ∀ item ∈ rest, item = .pipe := by
  have hpairwise : registered.Pairwise fun a b => a = .sock .ctl → b = .pipe := by decide
  intro item hitem
  exact (List.pairwise_cons.mp (hpairwise.sublist h)).1 item hitem rfl

/-- What is left of the round in which a request is answered. -/
def afterRequest : Pc → List Item
  | .handle _ rest => rest
  | .reply _ rest => rest
  | _ => []

theorem afterRequest_of_reachable {z : Zlogpull} {s : State} (h : (service z).Reachable s) :
    ∀ i, ∀ item ∈ afterRequest (s.runs i), item = .pipe := by
  refine h.induction (I := fun s => ∀ i, ∀ item ∈ afterRequest (s.runs i), item = .pipe) ?_ ?_
  · intro i item hitem
    by_cases hi : i = 0 <;> simp [service, hi, afterRequest] at hitem
  · intro s a t hs ih hstep
    cases a with
    | run i ev =>
      obtain ⟨-, pc, hgoes, rfl⟩ := step_run.mp hstep
      have horder := (prepared_of_reachable hs i).order
      have hafter := ih i
      have hpc : ∀ item ∈ afterRequest pc, item = .pipe := by
        generalize s.runs i = before at hgoes horder hafter
        cases hgoes with
        | requested n m rest => exact behind_ctl horder
        | noRequest rest => exact behind_ctl horder
        | answered m rest rsp _ => exact hafter
        | _ => simp [afterRequest]
      refine (inv_of_reachable hs).runs_after
        (P := fun pc => ∀ item ∈ afterRequest pc, item = .pipe) ?_ hgoes.active hpc
      intro pc hinactive
      cases pc with
      | unlaunched | returned | escaped => simp [afterRequest]
      | _ => cases hinactive
    | owner ev =>
      obtain ⟨-, owner, -, rfl⟩ := step_owner hstep
      intro i
      rw [proceed_runs]
      rcases act_runs_or s i ev with hruns | ⟨-, hruns⟩
      · rw [hruns]
        exact ih i
      · rw [hruns]
        simp [afterRequest]
    | arrive k m =>
      cases step_arrive hstep
      exact ih

/-- A poll reports all that is ready, a receive takes a message from a pull
socket that was reported, and no `stop()` clears the flag. -/
def attentive (s : State) : Act → Bool
  | .run _ (.pollReturn ready) => ready == registered.filter s.ready
  | .run _ (.receiveNone k) => k == .ctl
  | .run _ (.receiveThrow k) => k == .ctl
  | .owner .clear => false
  | _ => true

def reports : Act → Bool
  | .run _ (.pollReturn _) => true
  | _ => false

/-- The round in progress has still to print a frame of this socket. -/
def owes (k : Sock) (pc : Pc) : Nat :=
  if .sock k ∈ pending pc ∨ (carrying k pc).isSome then 1 else 0

theorem owes_le (k : Sock) (pc : Pc) : owes k pc ≤ 1 := by
  unfold owes
  split <;> omega

theorem owes_inactive {k : Sock} {pc : Pc} (h : pc.active = false) : owes k pc = 0 := by
  cases pc with
  | unlaunched | returned | escaped => rfl
  | _ => cases h

theorem owes_mono {k : Sock} {pc pc' : Pc}
    (h : .sock k ∈ pending pc ∨ (carrying k pc).isSome →
      .sock k ∈ pending pc' ∨ (carrying k pc').isSome) : owes k pc ≤ owes k pc' := by
  unfold owes
  split
  · rw [if_pos (h ‹_›)]
  · omega

theorem owes_goes {z : Zlogpull} {s : State} {k : Sock} {pc pc' : Pc} {ev : Ev} {i : Nat}
    (hgoes : Goes z pc ev pc') (hprepared : PreparedAt s pc)
    (hafter : ∀ item ∈ afterRequest pc, item = .pipe) (henables : s.enables ev = true)
    (hmRun : s.mRun = true) (hok : attentive s (.run i ev) = true) (hk : k ≠ .ctl) :
    owes k pc ≤ (printedAt k (.run i ev)).length + owes k pc' := by
  have gone (hnot : ¬ (.sock k ∈ pending pc ∨ (carrying k pc).isSome)) : owes k pc = 0 := by
    unfold owes
    exact if_neg hnot
  have served : .sock k ∉ afterRequest pc := by
    intro hmem
    cases hafter _ hmem
  cases hgoes with
  | skip j rest => simp [State.enables, hmRun] at henables
  | noFrame j rest hj =>
    simp only [attentive, beq_iff_eq] at hok
    exact absurd hok hj
  | route j m rest =>
    by_cases hj : j = k
    · have := owes_le k (.route j m rest)
      simp only [printedAt, if_pos hj, List.length_singleton]
      omega
    · refine le_trans (owes_mono ?_) (Nat.le_add_left _ _)
      simp [pending, carrying, hj]
  | pulled j n m rest hj =>
    refine le_trans (owes_mono ?_) (Nat.le_add_left _ _)
    by_cases hjk : j = k
    · simp [carrying, hjk]
    · simp [pending, carrying, hjk, Ne.symm hjk]
  | receiveThrow j rest =>
    simp only [attentive, beq_iff_eq] at hok
    subst hok
    rw [gone]
    · exact Nat.zero_le _
    · have hrest : Item.sock k ∉ rest := by
        intro hmem
        cases behind_ctl hprepared.order _ hmem
      simp [pending, carrying, hk, hrest]
  | malformed m rest _ =>
    rw [gone]
    · exact Nat.zero_le _
    · simpa [pending, carrying, afterRequest] using served
  | sendThrow rsp rest _ =>
    rw [gone]
    · exact Nat.zero_le _
    · simpa [pending, carrying, afterRequest] using served
  | sendNothing rest =>
    rw [gone]
    · exact Nat.zero_le _
    · simpa [pending, carrying, afterRequest] using served
  | _ =>
    refine le_trans (owes_mono ?_) (Nat.le_add_left _ _)
    simp [pending, carrying, hk]

theorem stays_set {z : Zlogpull} {s t : State} {a : Act} (hmRun : s.mRun = true)
    (hok : attentive s a = true) (h : (service z).step s a = some t) : t.mRun = true := by
  cases a with
  | run i ev =>
    obtain ⟨-, pc, -, rfl⟩ := step_run.mp h
    simpa using hmRun
  | owner ev =>
    obtain ⟨-, owner, -, rfl⟩ := step_owner h
    have hclear : ev ≠ .clear := by
      rintro rfl
      cases hok
    by_cases hset : ev = .set
    · subst hset
      rfl
    · rw [proceed_mRun, act_mRun s hset hclear]
      exact hmRun
  | arrive k m =>
    cases step_arrive h
    exact hmRun

theorem owes_reported {s : State} {k : Sock} (h : s.receivable k = true) :
    owes k (.dispatch (registered.filter s.ready)) = 1 := by
  apply if_pos
  left
  exact List.mem_filter.mpr ⟨mem_registered _, h⟩

theorem held_of_not_receivable {s : State} {k : Sock} (hk : k ≠ .ctl)
    (hhand : inHand s k = none) (h : s.receivable k = false) : held s k = [] := by
  have hempty : s.inbox k = [] := by simpa [State.receivable, hk] using h
  rw [held, hhand, hempty]
  rfl

theorem set_at {z : Zlogpull} {s t : State} {before after : List Act} {a : Act}
    (hs : (service z).Reachable s) (hmRun : s.mRun = true)
    (hok : (service z).Steps (fun s a => attentive s a = true) s (before ++ a :: after))
    (ht : (service z).run s before = some t) : t.mRun = true :=
  Machine.Always.last (P := fun s => s.mRun = true) ht
    (always_of_steps (fun _ _ _ _ hset hok h => stays_set hset hok h) hs hmRun hok.of_append)

theorem owes_run {z : Zlogpull} {s t : State} {i : Nat} {ev : Ev} (hs : (service z).Reachable s)
    (ht : (service z).step s (.run i ev) = some t) {k : Sock} (hk : k ≠ .ctl)
    (hmRun : s.mRun = true) (hok : attentive s (.run i ev) = true) :
    held s k = [] ∨ (reports (.run i ev)).toNat + owes k (s.runs (s.launched - 1)) ≤
      (printedAt k (.run i ev)).length + owes k (t.runs (t.launched - 1)) := by
  obtain ⟨henables, pc, hgoes, rfl⟩ := step_run.mp ht
  have hlast := (inv_of_reachable hs).last_eq hgoes.active
  have howes := owes_goes hgoes (prepared_of_reachable hs i)
    (afterRequest_of_reachable hs i) henables hmRun hok hk
  simp only [goto_launched, effect_launched, hlast, goto_self]
  generalize hbefore : s.runs i = before at hgoes howes
  cases hgoes with
  | pollReturn ready =>
    have hready : ready = registered.filter s.ready := by simpa [attentive] using hok
    subst hready
    by_cases hreceivable : s.receivable k = true
    · right
      have hnone : owes k .polling = 0 := by simp [owes, pending, carrying]
      rw [owes_reported hreceivable, hnone]
      exact Nat.le_add_left _ _
    · left
      have hhand : inHand s k = none := by
        unfold inHand
        rw [hlast, hbefore]
        rfl
      exact held_of_not_receivable hk hhand (by simpa using hreceivable)
  | _ =>
    right
    simpa [reports] using howes

theorem owes_step {z : Zlogpull} {s t : State} {a : Act} (hs : (service z).Reachable s)
    (ht : (service z).step s a = some t) {k : Sock} (hk : k ≠ .ctl) (hmRun : s.mRun = true)
    (hok : attentive s a = true) :
    held s k = [] ∨ (reports a).toNat + owes k (s.runs (s.launched - 1)) ≤
      (printedAt k a).length + owes k (t.runs (t.launched - 1)) := by
  cases a with
  | run i ev => exact owes_run hs ht hk hmRun hok
  | owner ev =>
    right
    have howes : owes k (s.runs (s.launched - 1)) ≤ owes k (t.runs (t.launched - 1)) := by
      rcases (inv_of_reachable hs).last_owner ht with hsame | ⟨hold, -⟩
      · rw [hsame]
      · rw [owes_inactive hold]
        exact Nat.zero_le _
    simpa [reports, printedAt] using howes
  | arrive j m =>
    cases step_arrive ht
    right
    simp [reports, printedAt]

/-- Either all that was held at first is printed, or the rounds are no further
ahead of the printed frames than they may be. -/
theorem reported {z : Zlogpull} {s t : State} {later : List Act} (hs : (service z).Reachable s)
    (hmRun : s.mRun = true) (h : (service z).run s later = some t)
    (hok : (service z).Steps (fun s a => attentive s a = true) s later) {k : Sock}
    (hk : k ≠ .ctl) :
    (held s k).length ≤ (printed k later).length ∨
      later.countP reports ≤ (printed k later).length + owes k (t.runs (t.launched - 1)) := by
  have hgains : ∀ as a, (printed k (as ++ [a])).length =
      (printed k as).length + (printedAt k a).length := by simp [printed]
  refine ticks_paid (fun s => (held s k).length) (fun s => owes k (s.runs (s.launched - 1)))
    (fun a => (printedAt k a).length) (fun as => (printed k as).length) hgains h ?_ ?_
  · intro before a after t u _ ht hu
    have hheld := held_run (hs.run ht) ((run_singleton _ t a).trans hu) hk
    have hlength := congrArg List.length hheld
    simp only [printed, List.flatMap_singleton, List.length_append] at hlength
    omega
  · rintro before a after t u rfl ht hu
    rw [List.length_eq_zero_iff]
    exact owes_step (hs.run ht) hu hk (set_at hs hmRun hok ht) (hok.at ht)

theorem take_printed {z : Zlogpull} {later : List Act} {s t : State}
    (hs : (service z).Reachable s) (hmRun : s.mRun = true)
    (h : (service z).run s later = some t)
    (hok : (service z).Steps (fun s a => attentive s a = true) s later) {k : Sock}
    (hk : k ≠ .ctl) {n : Nat}
    (hn : n ≤ later.countP reports - owes k (t.runs (t.launched - 1))) :
    (held s k).take n <+: printed k later := by
  have hflow : printed k later <+: held s k ++ arrived k later := ⟨_, (held_run hs h hk).symm⟩
  have htake : (held s k).take n <+: held s k ++ arrived k later :=
    (List.take_prefix _ _).trans (List.prefix_append _ _)
  apply List.prefix_of_prefix_length_le htake hflow
  rw [List.length_take]
  have := reported hs hmRun h hok hk
  omega

/-- As long as the flag is set and polls and receives are attentive, every
complete round prints one more of the frames that a pull socket held at first,
whatever the other sockets are sent and however the handling of requests ends. -/
theorem served (z : Zlogpull) (later : List Act) (s t : State) (hs : (service z).Reachable s)
    (hmRun : s.mRun = true) (h : (service z).run s later = some t)
    (hok : (service z).Steps (fun s a => attentive s a = true) s later) (k : Sock)
    (hk : k ≠ .ctl) :
    (held s k).take (later.countP reports - owes k (t.runs (t.launched - 1))) <+:
      printed k later :=
  take_printed hs hmRun h hok hk le_rfl

def threeReady : List Act :=
  [.run 0 (.bind .tcp true), .run 0 (.bind .ipc true), .run 0 (.bind .inp true),
    .run 0 (.bind .ctl true), .run 0 .setup, .run 0 (.test true), .arrive .inp ⟨[97], []⟩,
    .arrive .tcp ⟨[98], []⟩, .arrive .ctl ⟨[], []⟩]

def cutRound : List Act :=
  [.run 0 .pollBegin, .run 0 (.pollReturn [.sock .tcp, .sock .inp, .sock .ctl]),
    .run 0 (.guard .tcp true), .run 0 (.receive .tcp 0 ⟨[98], []⟩), .run 0 (.route .tcp [98]),
    .run 0 (.guard .inp true), .run 0 (.receive .inp 0 ⟨[97], []⟩), .run 0 (.route .inp [97]),
    .run 0 (.guard .ctl true), .run 0 (.receive .ctl 0 ⟨[], []⟩), .run 0 .handleCmd,
    .run 0 (.test true)]

theorem served_cutRound :
    ∃ s t, (service sample).run (service sample).init threeReady = some s ∧
      (service sample).run s cutRound = some t ∧ held s .inp = [[97]] ∧
      (held s .inp).take 1 <+: printed .inp cutRound :=
  ⟨_, _, rfl, rfl, rfl,
    served sample cutRound _ _ ⟨threeReady, rfl⟩ rfl rfl (by decide) .inp (by decide)⟩

/-- Besides, no poll fails and every receive takes a message or throws. -/
def prompt (s : State) (a : Act) : Bool :=
  attentive s a &&
    match a with
    | .run _ .pollThrow => false
    | .run _ (.receiveNone _) => false
    | _ => true

def ofWorker : Act → Bool
  | .run _ _ => true
  | _ => false

def roundRank : Pc → Nat
  | .bind todo => 3 + todo.length
  | .test => 2
  | .poll => 1
  | .dispatch ready => 3 + 4 * ready.length
  | .receive _ rest => 6 + 4 * rest.length
  | .handle _ rest => 5 + 4 * rest.length
  | .route _ _ rest => 4 + 4 * rest.length
  | .reply _ rest => 4 + 4 * rest.length
  | .leave => 1
  | _ => 0

theorem roundRank_goes {z : Zlogpull} {s : State} {pc pc' : Pc} {ev : Ev} {i : Nat}
    (hgoes : Goes z pc ev pc') (henables : s.enables ev = true)
    (hok : prompt s (.run i ev) = true) :
    roundRank pc' + 1 ≤ roundRank pc + 24 * (reports (.run i ev)).toNat := by
  cases hgoes with
  | pollThrow => simp [prompt] at hok
  | pollReturn ready =>
    simp only [State.enables, Bool.and_eq_true, decide_eq_true_eq] at henables
    have hlength : ready.length ≤ 5 := henables.1.length_le
    simp only [roundRank, reports, Bool.toNat_true]
    omega
  | _ =>
    simp only [roundRank, reports, List.length_cons, List.length_nil, Bool.toNat_false]
    omega

theorem roundRank_inactive {pc : Pc} (h : pc.active = false) : roundRank pc = 0 := by
  cases pc with
  | unlaunched | returned | escaped => rfl
  | _ => cases h

/-- The execution that `start()` is about to launch counts as one at its
first bind. -/
def workRank (s : State) : Nat :=
  roundRank (s.runs (s.launched - 1)) + if s.owner = .startLaunch then 7 else 0

theorem not_startLaunch {o o' : Owner} {ev : OwnerEv} (h : Calls o ev o') (hset : ev ≠ .set) :
    o' ≠ .startLaunch := by
  cases h with
  | set => exact absurd rfl hset
  | wait c => simp [unbindFrom, unbindOrder]
  | unbind c k todo => cases todo <;> simp [unbindFrom]
  | close p todo => cases todo <;> simp [destroyFrom]
  | stopped c | ret c | throw c =>
    cases c <;> simp [afterStop, afterThrow, destroyFrom, teardown]
  | _ => simp

theorem workRank_step {z : Zlogpull} {s t : State} {a : Act} (hinv : Inv s)
    (hmRun : s.mRun = true) (hok : prompt s a = true) (h : (service z).step s a = some t) :
    workRank t + (ofWorker a).toNat ≤ workRank s + 24 * (reports a).toNat := by
  cases a with
  | run i ev =>
    obtain ⟨henables, pc, hgoes, rfl⟩ := step_run.mp h
    have hi := hinv.last_eq hgoes.active
    have hrank := roundRank_goes hgoes henables hok
    simp only [workRank, goto_launched, effect_launched, hi, goto_self, goto_owner, effect_owner,
      ofWorker, Bool.toNat_true]
    omega
  | owner ev =>
    have hlast := hinv.last_owner h
    obtain ⟨-, owner, hcalls, rfl⟩ := step_owner h
    simp only [workRank, ofWorker, reports, Bool.toNat_false, Nat.mul_zero, Nat.add_zero]
    by_cases hlaunch : ev = .launch
    · subst hlaunch
      generalize howner : s.owner = before at hcalls
      cases hcalls
      simp [State.act, roundRank, bindOrder]
    · have hset : ev ≠ .set := by
        rintro rfl
        have hflag := hinv.flag
        generalize s.owner = before at hcalls hflag
        cases hcalls
        rw [hflag false rfl] at hmRun
        cases hmRun
      rw [proceed_runs, proceed_launched, proceed_owner, act_runs s hlaunch,
        act_launched s hlaunch, if_neg (not_startLaunch hcalls hset)]
      omega
  | arrive k m =>
    cases step_arrive h
    simp [workRank, ofWorker, reports]

theorem work_le {z : Zlogpull} {s t : State} {later : List Act} (hs : (service z).Reachable s)
    (hmRun : s.mRun = true) (h : (service z).run s later = some t)
    (hok : (service z).Steps (fun s a => prompt s a = true) s later) :
    t.mRun = true ∧
      later.countP ofWorker + workRank t ≤ workRank s + 24 * later.countP reports := by
  revert hok
  refine run_induction (M := service z) (I := fun later t =>
    (service z).Steps (fun s a => prompt s a = true) s later → t.mRun = true ∧
      later.countP ofWorker + workRank t ≤ workRank s + 24 * later.countP reports)
    ?_ ?_ later t h
  · intro _
    exact ⟨hmRun, by simp⟩
  · intro later t a u ht ih hstep hsteps
    obtain ⟨hpast, hlast⟩ := (steps_snoc ht).mp hsteps
    obtain ⟨hset, hwork⟩ := ih hpast
    have hattentive : attentive t a = true := (Bool.and_eq_true _ _ ▸ hlast).1
    have hrank := workRank_step (inv_of_reachable (hs.run ht)) hset hlast hstep
    refine ⟨stays_set hset hattentive hstep, ?_⟩
    rw [List.countP_append, List.countP_append, List.countP_singleton, List.countP_singleton]
    cases hworker : ofWorker a <;> cases hreports : reports a <;>
      simp only [hworker, hreports, Bool.toNat_true, Bool.toNat_false] at hrank <;>
      simp <;> omega

theorem workRank_le {z : Zlogpull} {s : State} (hs : (service z).Reachable s) :
    workRank s ≤ 25 := by
  have hinv := inv_of_reachable hs
  have hlength := (prepared_of_reachable hs (s.launched - 1)).order.length_le
  simp only [registered, List.length_cons, List.length_nil] at hlength
  by_cases hactive : (s.runs (s.launched - 1)).active = true
  · have hnone := (hinv.single _ hactive).2
    have howner : s.owner ≠ .startLaunch := by
      intro howner
      rw [howner] at hnone
      cases hnone
    obtain ⟨l, -, -, htodo⟩ := hinv.binds hnone
    rw [workRank, if_neg howner]
    cases hpc : s.runs (s.launched - 1) with
    | bind todo =>
      cases todo with
      | nil => simp [roundRank]
      | cons k todo =>
        have := congrArg List.length (htodo _ k todo hpc)
        simp only [bindOrder, List.length_append, List.length_cons, List.length_nil] at this
        simp only [roundRank, List.length_cons]
        omega
    | dispatch _ | receive _ _ | handle _ _ | route _ _ _ | reply _ _ =>
      rw [hpc] at hlength
      simp only [pending, List.length_cons] at hlength
      simp only [roundRank]
      omega
    | _ => simp [roundRank]
  · rw [workRank, roundRank_inactive (by simpa using hactive)]
    split <;> omega

def attending : Pc → Bool
  | .unlaunched | .leave | .returned | .escaped => false
  | .reply rsp _ => !rsp.isEmpty
  | _ => true

theorem attending.active {pc : Pc} (h : attending pc = true) : pc.active = true := by
  cases pc <;> simp_all [attending, Pc.active]

theorem attending_goes {z : Zlogpull} {s : State} {pc pc' : Pc} {ev : Ev} {i : Nat}
    (hgoes : Goes z pc ev pc') (henables : s.enables ev = true) (hmRun : s.mRun = true)
    (hok : prompt s (.run i ev) = true) (h : attending pc = true) : attending pc' = true := by
  cases hgoes with
  | finish => simp [State.enables, hmRun] at henables
  | noRequest rest => simp [prompt] at hok
  | answered m rest rsp hrsp => simpa [attending] using handleCmd_ne_nil hrsp
  | sendNothing rest => cases h
  | ret => cases h
  | _ => rfl

theorem attending_run {z : Zlogpull} {s t : State} {later : List Act} {i : Nat}
    (hs : (service z).Reachable s) (hmRun : s.mRun = true) (hi : attending (s.runs i) = true)
    (h : (service z).run s later = some t)
    (hok : (service z).Steps (fun s a => prompt s a = true) s later) :
    attending (t.runs i) = true := by
  revert hok
  refine run_induction (M := service z) (I := fun later t =>
    (service z).Steps (fun s a => prompt s a = true) s later → attending (t.runs i) = true)
    (fun _ => hi) ?_ later t h
  intro later t a u ht ih hstep hsteps
  obtain ⟨hpast, hlast⟩ := (steps_snoc ht).mp hsteps
  have hinv := inv_of_reachable (hs.run ht)
  have hattending := ih hpast
  have hactive := attending.active hattending
  cases a with
  | run j ev =>
    obtain ⟨henables, pc, hgoes, rfl⟩ := step_run.mp hstep
    have hji : j = i := by
      by_contra hne
      have := hinv.others hactive hne
      rw [hgoes.active] at this
      cases this
    subst hji
    rw [goto_self]
    exact attending_goes hgoes henables (work_le hs hmRun ht hpast).1 hlast hattending
  | owner ev =>
    obtain ⟨-, owner, hcalls, rfl⟩ := step_owner hstep
    have hlaunch : ev ≠ .launch := by
      rintro rfl
      have := hinv.idle_of_launch hcalls i
      rw [hactive] at this
      cases this
    rw [proceed_runs, act_runs t hlaunch]
    exact hattending
  | arrive k m =>
    cases step_arrive hstep
    exact hattending

theorem prompt_enabled {z : Zlogpull} {s : State} (hs : (service z).Reachable s) {i : Nat}
    (hactive : (s.runs i).active = true) (hblocked : ¬ Blocked s (s.runs i)) :
    ∃ ev t, prompt s (.run i ev) = true ∧ faultless (.run i ev) = true ∧
      (service z).step s (.run i ev) = some t := by
  by_cases hpolling : s.runs i = .polling
  · have henables : s.enables (.pollReturn (registered.filter s.ready)) = true := by
      simp only [State.enables, Bool.and_eq_true, decide_eq_true_eq, List.all_eq_true]
      exact ⟨List.filter_sublist, fun item hitem => (List.mem_filter.mp hitem).2⟩
    have hgoes : Goes z (s.runs i) (.pollReturn (registered.filter s.ready))
        (.dispatch (registered.filter s.ready)) := by
      rw [hpolling]
      exact .pollReturn _
    have hsome : registered.filter s.ready ≠ [] := by
      intro hnone
      exact hblocked ⟨hpolling, by simpa using hnone⟩
    exact ⟨_, _, by simp [prompt, attentive], by simpa [faultless] using hsome,
      step_run.mpr ⟨henables, _, hgoes, rfl⟩⟩
  · obtain ⟨ev, t, hfaultless, hstep⟩ := run_enabled (prepared_of_reachable hs) hactive hblocked
    refine ⟨ev, t, ?_, hfaultless, hstep⟩
    obtain ⟨-, pc, hgoes, -⟩ := step_run.mp hstep
    generalize s.runs i = before at hgoes hpolling
    cases hgoes with
    | pollReturn ready => exact absurd rfl hpolling
    | pollThrow | noFrame | noRequest | receiveThrow | sendThrow => cases hfaultless
    | _ => rfl

theorem not_blocked {s : State} {i : Nat} {k : Sock} (hinv : Inv s) (hk : k ≠ .ctl)
    (hactive : (s.runs i).active = true) (hheld : held s k ≠ []) : ¬ Blocked s (s.runs i) := by
  rintro ⟨hpolling, hnothing⟩
  apply hheld
  apply held_of_not_receivable hk
  · unfold inHand
    rw [hinv.last_eq hactive, hpolling]
    rfl
  · exact hnothing (.sock k) (mem_registered _)

/-- As long as the flag is set and the steps are prompt, a frame with `n` before
it in what its socket holds is printed within `24 * n + 50` steps of the worker,
whatever comes in meanwhile, and the worker has a next step as long as the
socket holds a frame. -/
theorem latency (z : Zlogpull) (later : List Act) (s t : State) (hs : (service z).Reachable s)
    (hmRun : s.mRun = true) (h : (service z).run s later = some t)
    (hok : (service z).Steps (fun s a => prompt s a = true) s later) (k : Sock) (hk : k ≠ .ctl) :
    (∀ n, 24 * n + 26 ≤ later.countP ofWorker → (held s k).take n <+: printed k later) ∧
      ∀ i, attending (s.runs i) = true → held t k ≠ [] →
        ∃ ev u, prompt t (.run i ev) = true ∧ (service z).step t (.run i ev) = some u := by
  have hattentive : (service z).Steps (fun s a => attentive s a = true) s later :=
    hok.mono fun s a hprompt => (Bool.and_eq_true _ _ ▸ hprompt).1
  refine ⟨fun n hn => ?_, fun i hi hheld => ?_⟩
  · apply take_printed hs hmRun h hattentive hk
    have hwork := (work_le hs hmRun h hok).2
    have hrank := workRank_le hs
    have howes := owes_le k (t.runs (t.launched - 1))
    omega
  · have hactive := attending.active (attending_run hs hmRun hi h hok)
    rcases prompt_enabled (hs.run h) hactive
      (not_blocked (inv_of_reachable (hs.run h)) hk hactive hheld) with ⟨ev, u, hprompt, -, hstep⟩
    exact ⟨ev, u, hprompt, hstep⟩

def idleRound : List Act :=
  [.run 0 .pollBegin, .run 0 (.pollReturn []), .run 0 .pollEnd, .run 0 (.test true)]

def manyRounds : List Act := cutRound ++ (List.replicate 10 idleRound).flatten

theorem latency_manyRounds :
    ∃ s t, (service sample).run (service sample).init threeReady = some s ∧
      (service sample).run s manyRounds = some t ∧
      (held s .inp).take 1 <+: printed .inp manyRounds :=
  ⟨_, _, rfl, rfl,
    (latency sample manyRounds _ _ ⟨threeReady, rfl⟩ rfl rfl (by decide) .inp (by decide)).1 1
      (by decide)⟩

end Zmqlog.Rounds
