import Zmqlog.Lifecycle

/-! No execution of `run()` is ever stuck, except in a poll with nothing to
report. -/
namespace Zmqlog.Progress
open Transition Zmqpp Control Service Step Lifecycle

def pending : Pc → List Item
  | .dispatch ready => ready
  | .receive k rest => .sock k :: rest
  | .route _ _ rest => rest
  | .handle _ rest => rest
  | .reply _ rest => rest
  | _ => []

def owesReply : Pc → Bool
  | .handle _ _ => true
  | .reply rsp _ => !rsp.isEmpty
  | _ => false

structure PreparedAt (s : State) (pc : Pc) : Prop where
  order : (pending pc).Sublist registered
  ready : ∀ item ∈ pending pc, s.ready item = true
  turn : owesReply pc = true → s.rep = .sending

def Prepared (s : State) : Prop := ∀ i, PreparedAt s (s.runs i)

theorem PreparedAt.of_nil {s : State} {pc : Pc} (hpending : pending pc = [])
    (howes : owesReply pc = false) : PreparedAt s pc where
  order := by simp [hpending]
  ready := by simp [hpending]
  turn := by simp [howes]

theorem preparedAt_inactive {s : State} {pc : Pc} (h : pc.active = false) :
    PreparedAt s pc := by
  cases pc with
  | unlaunched | returned | escaped => exact .of_nil rfl rfl
  | _ => cases h

theorem PreparedAt.nodup {s : State} {pc : Pc} (h : PreparedAt s pc) : (pending pc).Nodup :=
  h.order.nodup (by decide)

theorem ready_effect {s : State} {ev : Ev} {item : Item} (h : s.ready item = true)
    (hreceive : ∀ k n m, ev = .receive k n m → item ≠ .sock k)
    (hreset : ev = .pollReset → item ≠ .pipe) : (s.effect ev).ready item = true := by
  cases ev with
  | bind k ok => cases ok <;> exact h
  | receive k n m =>
    have hne := hreceive k n m rfl
    cases item with
    | pipe => exact h
    | sock j =>
      have hjk : j ≠ k := fun heq => hne (by rw [heq])
      cases j <;> cases k <;>
        simp_all [State.effect, State.ready, State.receivable]
  | send rsp =>
    cases item with
    | pipe => exact h
    | sock j => cases j <;> simp_all [State.effect, State.ready, State.receivable]
  | pollReset =>
    cases item with
    | pipe => exact absurd rfl (hreset rfl)
    | sock j => exact h
  | _ => exact h

theorem PreparedAt.tail {s : State} {pc pc' : Pc} {ev : Ev} {item : Item}
    (h : PreparedAt s pc) (hpending : pending pc = item :: pending pc')
    (hreceive : ∀ k n m, ev = .receive k n m → item = .sock k)
    (hreset : ev = .pollReset → item = .pipe)
    (hturn : owesReply pc' = true → (s.effect ev).rep = .sending) :
    PreparedAt (s.effect ev) pc' := by
  have hnodup := h.nodup
  have horder := h.order
  have hready := h.ready
  rw [hpending] at hnodup horder hready
  have hnot := (List.nodup_cons.mp hnodup).1
  refine ⟨(List.sublist_cons_self _ _).trans horder, fun other hother => ?_, hturn⟩
  have hne : other ≠ item := fun heq => hnot (heq ▸ hother)
  apply ready_effect (hready other (List.mem_cons_of_mem _ hother))
  · intro k n m hev
    rw [← hreceive k n m hev]
    exact hne
  · intro hev
    rw [← hreset hev]
    exact hne

theorem PreparedAt.same {s : State} {pc pc' : Pc} {ev : Ev} (h : PreparedAt s pc)
    (hpending : pending pc' = pending pc) (hreceive : ∀ k n m, ev ≠ .receive k n m)
    (hreset : ev ≠ .pollReset)
    (hturn : owesReply pc' = true → (s.effect ev).rep = .sending) :
    PreparedAt (s.effect ev) pc' where
  order := by
    rw [hpending]
    exact h.order
  ready := by
    rw [hpending]
    intro item hitem
    exact ready_effect (h.ready item hitem) (fun k n m hev => absurd hev (hreceive k n m))
      fun hev => absurd hev hreset
  turn := hturn

theorem preparedAt_goes {z : Zlogpull} {s : State} {pc pc' : Pc} {ev : Ev}
    (h : PreparedAt s pc) (hgoes : Goes z pc ev pc') (henables : s.enables ev = true) :
    PreparedAt (s.effect ev) pc' := by
  cases hgoes with
  | pollReturn ready =>
    simp only [State.enables, Bool.and_eq_true, decide_eq_true_eq, List.all_eq_true] at henables
    exact ⟨henables.1, henables.2, fun howes => nomatch howes⟩
  | enter k rest => exact h.same rfl (by simp) (by simp) fun howes => nomatch howes
  | skip k rest => exact h.tail rfl (by simp) (by simp) fun howes => nomatch howes
  | pollReset rest => exact h.tail rfl (by simp) (by simp) fun howes => nomatch howes
  | pulled k n m rest hk => exact h.tail rfl (by simp) (by simp) fun howes => nomatch howes
  | requested n m rest => exact h.tail rfl (by simp) (by simp) fun _ => rfl
  | noFrame k rest hk => exact h.tail rfl (by simp) (by simp) fun howes => nomatch howes
  | noRequest rest => exact h.tail rfl (by simp) (by simp) fun howes => nomatch howes
  | route k m rest => exact h.same rfl (by simp) (by simp) fun howes => nomatch howes
  | answered m rest rsp hrsp => exact h.same rfl (by simp) (by simp) fun _ => h.turn rfl
  | send rsp rest hrsp => exact h.same rfl (by simp) (by simp) fun howes => nomatch howes
  | _ => exact .of_nil rfl rfl

theorem PreparedAt.mono {s t : State} {pc : Pc} (h : PreparedAt s pc)
    (hready : ∀ item, s.ready item = true → t.ready item = true) (hrep : t.rep = s.rep) :
    PreparedAt t pc where
  order := h.order
  ready := fun item hitem => hready item (h.ready item hitem)
  turn := fun howes => hrep.trans (h.turn howes)

theorem prepared_step {z : Zlogpull} {s t : State} {a : Act} (hinv : Inv s)
    (hs : Prepared s) (h : (service z).step s a = some t) : Prepared t := by
  cases a with
  | run i ev =>
    rcases step_run.mp h with ⟨henables, pc, hgoes, rfl⟩
    refine hinv.runs_after (fun pc hpc => preparedAt_inactive hpc) hgoes.active ?_
    exact (preparedAt_goes (hs i) hgoes henables).mono (fun _ => id) rfl
  | owner ev =>
    rcases step_owner h with ⟨-, owner, -, rfl⟩
    intro i
    rw [proceed_runs]
    rcases act_runs_or s i ev with hruns | ⟨-, hruns⟩
    · rw [hruns]
      refine (hs i).mono (fun item hitem => ?_) (by simp)
      cases item with
      | sock k => simpa [State.ready, State.receivable] using hitem
      | pipe =>
        by_cases hev : ev = .pollCancel
        · subst hev
          simp [State.ready, State.act]
        · simpa [State.ready, act_pipe s hev] using hitem
    · rw [hruns]
      exact .of_nil rfl rfl
  | arrive k m =>
    cases step_arrive h
    intro i
    refine (hs i).mono ?_ rfl
    intro item hitem
    cases item with
    | pipe => exact hitem
    | sock j =>
      by_cases hj : j = k
      · subst hj
        simp_all [State.ready, State.receivable]
      · simpa [State.ready, State.receivable, hj] using hitem

theorem prepared_of_reachable {z : Zlogpull} {s : State} (h : (service z).Reachable s) :
    Prepared s := by
  refine h.induction ?_ fun s a t hs => prepared_step (inv_of_reachable hs)
  intro i
  by_cases hi : i = 0
  · subst hi
    exact .of_nil rfl rfl
  · apply preparedAt_inactive
    simp [service, hi, Pc.active]

/-- A step of a thread of the service, as against one of a peer. -/
def ofService : Act → Bool
  | .run _ _ | .owner _ => true
  | .arrive _ _ => false

/-- No failure of zmqpp is needed for the step. -/
def faultless : Act → Bool
  | .run _ (.bind _ ok) => ok
  | .run _ (.pollReturn ready) => !ready.isEmpty
  | .run _ .pollThrow | .run _ (.receiveNone _) | .run _ (.receiveThrow _)
  | .run _ .sendThrow => false
  | _ => true

def Blocked (s : State) (pc : Pc) : Prop :=
  pc = .polling ∧ ∀ item ∈ registered, s.ready item = false

theorem can_run {z : Zlogpull} {s : State} {i : Nat} {ev : Ev} {pc : Pc}
    (hfaultless : faultless (.run i ev) = true) (henables : s.enables ev = true)
    (hgoes : Goes z (s.runs i) ev pc) :
    ∃ ev t, faultless (.run i ev) = true ∧ (service z).step s (.run i ev) = some t :=
  ⟨ev, _, hfaultless, step_run.mpr ⟨henables, pc, hgoes, rfl⟩⟩

theorem mem_registered (item : Item) : item ∈ registered := by
  cases item with
  | sock k => cases k <;> decide
  | pipe => decide

/-- An execution at work can go on without a failure of zmqpp, unless it is
in a poll with nothing to report. -/
theorem run_enabled {z : Zlogpull} {s : State} (hprepared : Prepared s) {i : Nat}
    (hactive : (s.runs i).active = true) (hblocked : ¬ Blocked s (s.runs i)) :
    ∃ ev t, faultless (.run i ev) = true ∧ (service z).step s (.run i ev) = some t := by
  have hs := hprepared i
  generalize hpc : s.runs i = pc at hactive hblocked hs
  have go (ev : Ev) {pc' : Pc} (hfaultless : faultless (.run i ev) = true)
      (henables : s.enables ev = true) (hgoes : Goes z pc ev pc') :=
    can_run (s := s) hfaultless henables (hpc ▸ hgoes)
  cases pc with
  | unlaunched | returned | escaped => cases hactive
  | bind todo =>
    cases todo with
    | nil => exact go .setup rfl rfl .setup
    | cons k todo => exact go (.bind k true) rfl rfl (.bound k todo)
  | test =>
    cases hmRun : s.mRun with
    | true => exact go (.test true) rfl (by simp [State.enables, hmRun]) .again
    | false => exact go (.test false) rfl (by simp [State.enables, hmRun]) .finish
  | poll => exact go .pollBegin rfl rfl .pollBegin
  | polling =>
    have hready : ∃ item, s.ready item = true := by
      by_contra hnone
      exact hblocked ⟨rfl, fun item _ => by simpa using not_exists.mp hnone item⟩
    rcases hready with ⟨item, hitem⟩
    have henables : s.enables (.pollReturn [item]) = true := by
      simp [State.enables, hitem, mem_registered item]
    exact go _ rfl henables (.pollReturn [item])
  | dispatch ready =>
    cases ready with
    | nil => exact go .pollEnd rfl rfl .pollEnd
    | cons item rest =>
      cases item with
      | sock k =>
        cases hmRun : s.mRun with
        | true => exact go (.guard k true) rfl (by simp [State.enables, hmRun]) (.enter k rest)
        | false => exact go (.guard k false) rfl (by simp [State.enables, hmRun]) (.skip k rest)
      | pipe =>
        have hpipe : s.ready .pipe = true := hs.ready _ List.mem_cons_self
        exact go .pollReset rfl hpipe (.pollReset rest)
  | receive k rest =>
    have hready : s.receivable k = true := hs.ready _ List.mem_cons_self
    simp only [State.receivable, Bool.and_eq_true] at hready
    rcases hready with ⟨hsome, hturn⟩
    cases hinbox : s.inbox k with
    | nil => simp [hinbox] at hsome
    | cons m more =>
      have hfirst : (s.inbox k)[0]? = some m := by simp [hinbox]
      by_cases hk : k = .ctl
      · subst hk
        have hrep : s.rep = .receiving := by simpa using hturn
        exact go _ rfl (by simp [State.enables, hfirst, hrep]) (.requested 0 m rest)
      · exact go _ rfl (by simp [State.enables, hfirst, hk]) (.pulled k 0 m rest hk)
  | route k m rest => exact go (.route k m.first) rfl rfl (.route k m rest)
  | handle m rest =>
    cases hrsp : Control.handleCmd z.toEndpoints m.parts [] with
    | ok rsp => exact go .handleCmd rfl rfl (.answered m rest rsp hrsp)
    | error f =>
      cases handleCmd_error hrsp
      exact go .handleCmd rfl rfl (.malformed m rest hrsp)
  | reply rsp rest =>
    cases rsp with
    | nil => exact go .sendNothing rfl rfl (.sendNothing rest)
    | cons part parts =>
      have hturn : s.rep = .sending := hs.turn rfl
      have henables : s.enables (.send (part :: parts)) = true := by
        simp [State.enables, hturn]
      exact go _ rfl henables (.send _ rest (by simp))
  | leave => exact go .ret rfl rfl .ret

theorem run_progress {z : Zlogpull} {s : State} (hprepared : Prepared s) {i : Nat}
    (hactive : (s.runs i).active = true) (hblocked : ¬ Blocked s (s.runs i)) :
    ∃ a t, ofService a = true ∧ faultless a = true ∧ (service z).step s a = some t := by
  rcases run_enabled hprepared hactive hblocked with ⟨ev, t, hfaultless, hstep⟩
  exact ⟨.run i ev, t, rfl, hfaultless, hstep⟩

end Zmqlog.Progress
