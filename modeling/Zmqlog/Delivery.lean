import Zmqlog.Lifecycle
import Zmqlog.Relay

/-! The way of a log frame from a pull socket's queue to `route()`. Seen from
the pull sockets the service is a relay, however its rounds are cut short and
however often it is stopped. -/
namespace Zmqlog.Delivery
open Transition Zmqpp Control Service Step Lifecycle

/-- Received from this socket and not yet printed. -/
def carrying (k : Sock) : Pc → Option Frame
  | .route j m _ => if j = k then some m.first else none
  | _ => none

def inHand (s : State) (k : Sock) : Option Frame := carrying k (s.runs (s.launched - 1))

def asRelay (s : State) : Relay.State Sock Frame where
  queued := fun k => if k = .ctl then [] else (s.inbox k).map Wire.first
  carried := inHand s

def relayed : Act → List (Relay.Act Sock Frame)
  | .arrive k m => if k = .ctl then [] else [.put k m.first]
  | .run _ (.receive k _ m) => if k = .ctl then [] else [.take k m.first]
  | .run _ (.route k frame) => [.emit k frame]
  | _ => []

theorem carrying_inactive {k : Sock} {pc : Pc} (h : pc.active = false) : carrying k pc = none := by
  cases pc <;> first | rfl | cases h

theorem asRelay_eq {s t : State} (hinbox : t.inbox = s.inbox)
    (hcarried : inHand t = inHand s) : asRelay t = asRelay s := by
  simp only [asRelay, hinbox, hcarried]

theorem head_of_pulled {s : State} {k : Sock} {n : Nat} {m : Wire}
    (henables : s.enables (.receive k n m) = true) (hk : k ≠ .ctl) :
    (s.inbox k).head? = some m ∧ n = 0 := by
  simp only [State.enables, if_neg hk, Bool.and_eq_true, beq_iff_eq] at henables
  obtain ⟨hplace, rfl⟩ := henables
  exact ⟨by rw [List.head?_eq_getElem?, hplace], rfl⟩

theorem relay_goes {z : Zlogpull} {s : State} {pc pc' : Pc} {ev : Ev} {i : Nat}
    (hgoes : Goes z pc ev pc') (henables : s.enables ev = true) (hpc : s.runs i = pc)
    (hi : s.launched - 1 = i) :
    (Relay.relay Sock Frame).run (asRelay s) (relayed (.run i ev)) =
      some (asRelay ((s.effect ev).goto i pc')) := by
  have hbefore : inHand s = fun k => carrying k pc := by
    unfold inHand
    rw [hi, hpc]
  have hafter : inHand ((s.effect ev).goto i pc') = fun k => carrying k pc' := by
    unfold inHand
    simp only [goto_launched, effect_launched, hi, goto_self]
  cases hgoes with
  | pulled k n m rest hk =>
    obtain ⟨hhead, rfl⟩ := head_of_pulled henables hk
    have hqueue : ((asRelay s).queued k).head? = some m.first := by
      simp [asRelay, hk, hhead]
    have hnone : (asRelay s).carried k = none := congrFun hbefore k
    rw [show relayed (.run i (.receive k 0 m)) = [.take k m.first] from if_neg hk, run_singleton]
    refine (if_pos ⟨hnone, hqueue⟩).trans (congrArg some (Relay.State.ext ?_ ?_))
    · funext j
      by_cases hj : j = k
      · subst hj
        simp [asRelay, hk, State.effect]
      · simp [asRelay, hj, State.effect]
    · funext j
      rw [show (asRelay ((s.effect (.receive k 0 m)).goto i (.route k m rest))).carried j =
        carrying j (.route k m rest) from congrFun hafter j]
      by_cases hj : j = k
      · subst hj
        simp [carrying]
      · have hother : (asRelay s).carried j = none := congrFun hbefore j
        simp [carrying, hj, hother, Ne.symm hj]
  | requested n m rest =>
    apply congrArg some
    refine Relay.State.ext ?_ ?_
    · funext j
      by_cases hj : j = .ctl
      · simp [asRelay, hj]
      · simp [asRelay, hj, State.effect]
    · exact hbefore.trans hafter.symm
  | route k m rest =>
    have hcarried : (asRelay s).carried k = some m.first := by
      rw [show (asRelay s).carried k = carrying k (.route k m rest) from congrFun hbefore k]
      simp [carrying]
    rw [show relayed (.run i (.route k m.first)) = [.emit k m.first] from rfl, run_singleton]
    refine (if_pos hcarried).trans (congrArg some (Relay.State.ext rfl ?_))
    funext j
    rw [show (asRelay ((s.effect (.route k m.first)).goto i (.dispatch rest))).carried j = none
      from congrFun hafter j]
    by_cases hj : j = k
    · subst hj
      simp
    · have hother : (asRelay s).carried j = none := by
        rw [show (asRelay s).carried j = carrying j (.route k m rest) from congrFun hbefore j]
        simp [carrying, Ne.symm hj]
      simp [hj, hother]
  | _ =>
    apply congrArg some
    symm
    apply asRelay_eq
    · rfl
    · rw [hafter, hbefore]
      rfl

theorem inHand_of_idle {s : State} (h : ∀ i, (s.runs i).active = false) (k : Sock) :
    inHand s k = none :=
  carrying_inactive (h _)

theorem relay_owner {z : Zlogpull} {s t : State} {ev : OwnerEv} (hinv : Inv s)
    (h : (service z).step s (.owner ev) = some t) : asRelay t = asRelay s := by
  have hinbox : t.inbox = s.inbox := by
    rcases step_owner h with ⟨-, owner, -, rfl⟩
    simp
  refine asRelay_eq hinbox (funext fun k => ?_)
  unfold inHand
  rcases hinv.last_owner h with hsame | ⟨hold, hnew⟩
  · rw [hsame]
  · rw [hnew, carrying_inactive hold]
    rfl

/-- The service refines the relay. -/
def asRelaySimulation (z : Zlogpull) : Simulation (service z) (Relay.relay Sock Frame) where
  abs := asRelay
  obs := relayed
  init := by
    refine Relay.State.ext (funext fun k => ?_) (funext fun k => ?_)
    · simp [asRelay, service, Relay.relay]
    · rfl
  step := by
    intro s a t hreach h
    have hinv := inv_of_reachable hreach
    cases a with
    | run i ev =>
      rcases step_run.mp h with ⟨henables, pc, hgoes, rfl⟩
      exact relay_goes hgoes henables rfl (hinv.last_eq hgoes.active)
    | owner ev => exact congrArg some (relay_owner hinv h).symm
    | arrive k m =>
      cases step_arrive h
      by_cases hk : k = .ctl
      · rw [show relayed (.arrive k m) = [] from if_pos hk]
        refine congrArg some (Relay.State.ext (funext fun j => ?_) rfl)
        by_cases hj : j = .ctl
        · simp [asRelay, hj]
        · simp [asRelay, hk, hj]
      · rw [show relayed (.arrive k m) = [.put k m.first] from if_neg hk, run_singleton]
        refine congrArg some (Relay.State.ext (funext fun j => ?_) rfl)
        by_cases hj : j = k
        · subst hj
          simp [asRelay, hk]
        · simp [asRelay, hj]

def arrivedAt (k : Sock) : Act → List Frame
  | .arrive j m => if j = k then [m.first] else []
  | _ => []

def printedAt (k : Sock) : Act → List Frame
  | .run _ (.route j frame) => if j = k then [frame] else []
  | _ => []

def arrived (k : Sock) (acts : List Act) : List Frame := acts.flatMap (arrivedAt k)

def printed (k : Sock) (acts : List Act) : List Frame := acts.flatMap (printedAt k)

theorem putOn_relayed {k : Sock} (hk : k ≠ .ctl) (a : Act) :
    (relayed a).flatMap (Relay.Act.putOn k) = arrivedAt k a := by
  cases a with
  | arrive j m =>
    by_cases hj : j = .ctl
    · simp [relayed, arrivedAt, hj, hk.symm]
    · simp [relayed, arrivedAt, hj, Relay.Act.putOn]
  | owner ev => rfl
  | run i ev =>
    cases ev with
    | receive j n m => by_cases hj : j = .ctl <;> simp [relayed, arrivedAt, hj, Relay.Act.putOn]
    | _ => rfl

theorem emittedFrom_relayed (k : Sock) (a : Act) :
    (relayed a).flatMap (Relay.Act.emittedFrom k) = printedAt k a := by
  cases a with
  | arrive j m => by_cases hj : j = .ctl <;> simp [relayed, printedAt, hj, Relay.Act.emittedFrom]
  | owner ev => rfl
  | run i ev =>
    cases ev with
    | receive j n m =>
      by_cases hj : j = .ctl <;> simp [relayed, printedAt, hj, Relay.Act.emittedFrom]
    | route j frame => simp [relayed, printedAt, Relay.Act.emittedFrom]
    | _ => rfl

theorem arrived_eq {z : Zlogpull} {acts : List Act} {s : State}
    (h : (service z).run (service z).init acts = some s) {k : Sock} (hk : k ≠ .ctl) :
    arrived k acts = printed k acts ++ (inHand s k).toList ++ (s.inbox k).map Wire.first := by
  have hrelay := Relay.conserved ((asRelaySimulation z).run h) k
  unfold Relay.puts Relay.emits at hrelay
  simp only [asRelaySimulation, List.flatMap_assoc, putOn_relayed hk, emittedFrom_relayed,
    asRelay, hk, if_false] at hrelay
  exact hrelay

theorem printed_of_idle {z : Zlogpull} {later : List Act} {s t : State}
    (hidle : ∀ i, (s.runs i).active = false) (hlaunch : .owner .launch ∉ later)
    (h : (service z).run s later = some t) (k : Sock) : printed k later = [] := by
  induction later generalizing s with
  | nil => rfl
  | cons a later ih =>
    rcases (run_cons_eq_some _).mp h with ⟨u, hu, htail⟩
    rw [List.mem_cons, not_or] at hlaunch
    have hstep : printedAt k a = [] ∧ ∀ i, (u.runs i).active = false := by
      cases a with
      | run i ev =>
        rcases step_run.mp hu with ⟨-, pc, hgoes, -⟩
        have := hgoes.active
        rw [hidle i] at this
        cases this
      | owner ev =>
        rcases step_owner hu with ⟨-, owner, -, rfl⟩
        refine ⟨rfl, fun i => ?_⟩
        rw [proceed_runs, act_runs s fun hev => hlaunch.1 (congrArg Act.owner hev.symm)]
        exact hidle i
      | arrive j m =>
        cases step_arrive hu
        exact ⟨rfl, hidle⟩
    have hlater := ih hstep.2 hlaunch.2 htail
    rw [printed, List.flatMap_cons, hstep.1, List.nil_append]
    exact hlater

/-- No frame of a pull socket is lost, doubled or reordered: what has arrived
is what was printed, the one frame that may be in hand, and what is queued.
Between a `stop()` and the next launch no frame is in hand and none is
printed. -/
theorem frames_conserved (z : Zlogpull) (acts : List Act) (s : State)
    (h : (service z).run (service z).init acts = some s) :
    (∀ k, k ≠ .ctl →
        arrived k acts = printed k acts ++ (inHand s k).toList ++ (s.inbox k).map Wire.first) ∧
      (s.owner = .idle → s.mRun = false →
        (∀ k, inHand s k = none) ∧
          ∀ later t, (service z).run s later = some t → .owner .launch ∉ later →
            ∀ k, printed k later = []) := by
  refine ⟨fun k hk => arrived_eq h hk, fun howner hmRun => ?_⟩
  have hinv : Inv s := inv_of_reachable ⟨acts, h⟩
  have hidle := (hinv.stopped hmRun (by rw [howner, hmRun]; rfl)).idle
  refine ⟨inHand_of_idle hidle, fun later t hlater hlaunch k => ?_⟩
  exact printed_of_idle hidle hlaunch hlater k

/-- Three frames have come. The first has been printed, the second is in hand. -/
def oneInHand : List Act :=
  [.run 0 (.bind .tcp true), .run 0 (.bind .ipc true), .run 0 (.bind .inp true),
    .run 0 (.bind .ctl true), .run 0 .setup, .run 0 (.test true), .arrive .inp ⟨[97], []⟩,
    .arrive .inp ⟨[98], []⟩, .arrive .inp ⟨[99], []⟩, .run 0 .pollBegin,
    .run 0 (.pollReturn [.sock .inp]), .run 0 (.guard .inp true),
    .run 0 (.receive .inp 0 ⟨[97], []⟩), .run 0 (.route .inp [97]), .run 0 .pollEnd,
    .run 0 (.test true), .run 0 .pollBegin, .run 0 (.pollReturn [.sock .inp]),
    .run 0 (.guard .inp true), .run 0 (.receive .inp 0 ⟨[98], []⟩)]

def stopWithFrame : List Act :=
  oneInHand ++ [.owner .stop, .owner (.test true), .owner .clear, .owner .pollCancel,
    .run 0 (.route .inp [98]), .run 0 .pollEnd, .run 0 (.test false), .run 0 .ret, .owner .wait,
    .owner (.unbind .tcp true), .owner (.unbind .ipc true), .owner (.unbind .inp true),
    .owner (.unbind .ctl true), .owner .ret]

def stopped : List Act :=
  [.arrive .inp ⟨[100], []⟩, .owner .start, .owner (.test false), .owner .set]

theorem frames_conserved_oneInHand :
    ∃ s t, (service sample).run (service sample).init oneInHand = some s ∧
      printed .inp oneInHand = [[97]] ∧ inHand s .inp = some [98] ∧
      arrived .inp oneInHand =
        printed .inp oneInHand ++ (inHand s .inp).toList ++ (s.inbox .inp).map Wire.first ∧
      (service sample).run (service sample).init stopWithFrame = some t ∧
      t.inbox .inp = [⟨[99], []⟩] ∧ inHand t .inp = none ∧ printed .inp stopped = [] := by
  have hwaiting := (frames_conserved sample stopWithFrame _ rfl).2 rfl rfl
  exact ⟨_, _, rfl, rfl, rfl, (frames_conserved sample oneInHand _ rfl).1 .inp (by decide), rfl,
    rfl, hwaiting.1 .inp, hwaiting.2 stopped _ rfl (by decide) .inp⟩

end Zmqlog.Delivery
