import Zmqlog.Lifecycle

/-! The turns of the control channel. A reply socket that has received must
send before it receives again, and an exception on the way from the one to the
other leaves it where no later request gets through. -/
namespace Zmqlog.Turn
open Transition Zmqpp Control Service Step Lifecycle

inductive Exchange
  | request (m : Wire)
  | reply (rsp : Message)
deriving DecidableEq

def exchanged : Act → List Exchange
  | .run _ (.receive .ctl _ m) => [.request m]
  | .run _ (.send rsp) => [.reply rsp]
  | _ => []

def exchanges (acts : List Act) : List Exchange := acts.flatMap exchanged

/-- Every request is followed by the reply that `handle_cmd` makes of it. -/
inductive Answered (z : Zlogpull) : List Exchange → Prop
  | nil : Answered z []
  | turn (done : List Exchange) (m : Wire) (rsp : Message) (hdone : Answered z done)
      (hrsp : Control.handleCmd z.toEndpoints m.parts [] = .ok rsp) :
      Answered z (done ++ [.request m, .reply rsp])

def failsToSend : Act → Bool
  | .run _ .sendThrow => true
  | _ => false

/-- The integers that `handle_cmd` needs are in every request, and no send of
a reply fails. -/
structure Orderly (z : Zlogpull) (acts : List Act) : Prop where
  decodes : ∀ m, .request m ∈ exchanges acts → Decodes z.codec m.parts
  sends : ∀ a ∈ acts, failsToSend a = false

/-- Where the reply socket is in its turn, told by where the execution is. -/
def InTurn (z : Zlogpull) (log : List Exchange) (rep : Rep) : Pc → Prop
  | .handle m _ => rep = .sending ∧ ∃ done, Answered z done ∧ log = done ++ [.request m]
  | .reply (part :: parts) _ => rep = .sending ∧ ∃ done m, Answered z done ∧
      log = done ++ [.request m] ∧ Control.handleCmd z.toEndpoints m.parts [] = .ok (part :: parts)
  | _ => rep = .receiving ∧ Answered z log

/-- Nothing that the execution does will send the reply. -/
def Stranded (z : Zlogpull) : Pc → Prop
  | .handle m _ => ¬ Decodes z.codec m.parts
  | .reply rsp _ => rsp = []
  | _ => True

structure TurnInv (z : Zlogpull) (acts : List Act) (s : State) : Prop where
  inTurn : Orderly z acts → InTurn z (exchanges acts) s.rep (s.runs (s.launched - 1))
  stranded : ¬ Orderly z acts → s.rep = .sending ∧ Stranded z (s.runs (s.launched - 1))

theorem exchanges_snoc (acts : List Act) (a : Act) :
    exchanges (acts ++ [a]) = exchanges acts ++ exchanged a := by
  simp [exchanges]

theorem orderly_snoc {z : Zlogpull} {acts : List Act} {a : Act} :
    Orderly z (acts ++ [a]) ↔ Orderly z acts ∧
      (∀ m, exchanged a = [.request m] → Decodes z.codec m.parts) ∧ failsToSend a = false := by
  have hmem (m : Wire) : .request m ∈ exchanged a ↔ exchanged a = [.request m] := by
    unfold exchanged
    split <;> simp [eq_comm]
  refine ⟨?_, ?_⟩
  · rintro ⟨hdecodes, hsends⟩
    refine ⟨⟨fun m hm => ?_, fun b hb => ?_⟩, fun m hm => ?_, ?_⟩
    · exact hdecodes m (by simp [exchanges_snoc, hm])
    · exact hsends b (by simp [hb])
    · exact hdecodes m (by simp [exchanges_snoc, hm])
    · exact hsends a (by simp)
  · rintro ⟨⟨hdecodes, hsends⟩, hlast, ha⟩
    refine ⟨fun m hm => ?_, fun b hb => ?_⟩
    · rw [exchanges_snoc, List.mem_append] at hm
      rcases hm with hm | hm
      · exact hdecodes m hm
      · exact hlast m ((hmem m).mp hm)
    · rw [List.mem_append, List.mem_singleton] at hb
      rcases hb with hb | rfl
      · exact hsends b hb
      · exact ha

theorem Orderly.of_append {z : Zlogpull} {acts later : List Act} (h : Orderly z (acts ++ later)) :
    Orderly z acts := by
  refine ⟨fun m hm => h.decodes m ?_, fun a ha => h.sends a (List.mem_append_left _ ha)⟩
  rw [exchanges, List.flatMap_append]
  exact List.mem_append_left _ hm

theorem inTurn_inactive {z : Zlogpull} {log : List Exchange} {rep : Rep} {pc : Pc}
    (h : pc.active = false) : InTurn z log rep pc ↔ rep = .receiving ∧ Answered z log := by
  cases pc with
  | unlaunched | returned | escaped => exact Iff.rfl
  | _ => cases h

theorem inTurn_goes {z : Zlogpull} {acts : List Act} {s : State} {i : Nat} {pc pc' : Pc} {ev : Ev}
    (hgoes : Goes z pc ev pc') (hs : Orderly z acts) (ht : Orderly z (acts ++ [.run i ev]))
    (h : InTurn z (exchanges acts) s.rep pc) :
    InTurn z (exchanges (acts ++ [.run i ev])) (s.effect ev).rep pc' := by
  rw [exchanges_snoc]
  cases hgoes with
  | requested n m rest => exact ⟨rfl, exchanges acts, h.2, rfl⟩
  | pulled k n m rest hk =>
    cases k with
    | ctl => exact absurd rfl hk
    | _ => simpa [InTurn, exchanged, State.effect] using h
  | answered m rest rsp hrsp =>
    rcases h with ⟨hrep, done, hdone, hlog⟩
    cases rsp with
    | nil => exact absurd rfl (handleCmd_ne_nil hrsp)
    | cons part parts => exact ⟨hrep, done, m, hdone, by simpa [exchanged] using hlog, hrsp⟩
  | malformed m rest hrsp =>
    rcases h with ⟨-, done, -, hlog⟩
    have hdecodes := hs.decodes m (by simp [hlog])
    rw [handleCmd_of_decodes z.toEndpoints m.parts [] hdecodes] at hrsp
    cases hrsp
  | send rsp rest hne =>
    cases rsp with
    | nil => exact absurd rfl hne
    | cons part parts =>
      rcases h with ⟨-, done, m, hdone, hlog, hrsp⟩
      refine ⟨rfl, ?_⟩
      rw [hlog, List.append_assoc]
      exact .turn done m _ hdone hrsp
  | sendThrow => cases (orderly_snoc.mp ht).2.2
  | _ => simpa [InTurn, exchanged, State.effect] using h

/-- The step that breaks the order leaves the socket in the middle of a turn. -/
theorem stranded_of_disorder {z : Zlogpull} {acts : List Act} {s : State} {i : Nat}
    {pc pc' : Pc} {ev : Ev} (hgoes : Goes z pc ev pc') (hs : Orderly z acts)
    (ht : ¬ Orderly z (acts ++ [.run i ev])) (h : InTurn z (exchanges acts) s.rep pc) :
    (s.effect ev).rep = .sending ∧ Stranded z pc' := by
  rw [orderly_snoc] at ht
  cases hgoes with
  | requested n m rest =>
    refine ⟨rfl, fun hdecodes => ht ⟨hs, fun m' hm' => ?_, rfl⟩⟩
    cases hm'
    exact hdecodes
  | sendThrow rsp rest hne =>
    cases rsp with
    | nil => exact absurd rfl hne
    | cons part parts => exact ⟨h.1, trivial⟩
  | pulled k n m rest hk =>
    refine absurd ⟨hs, fun m' hm' => ?_, rfl⟩ ht
    cases k with
    | ctl => exact absurd rfl hk
    | _ => cases hm'
  | _ =>
    refine absurd ⟨hs, fun m' hm' => ?_, rfl⟩ ht
    cases hm'

theorem stranded_goes {z : Zlogpull} {s : State} {pc pc' : Pc} {ev : Ev}
    (hgoes : Goes z pc ev pc') (henables : s.enables ev = true) (hrep : s.rep = .sending)
    (h : Stranded z pc) : (s.effect ev).rep = .sending ∧ Stranded z pc' := by
  cases hgoes with
  | requested n m rest => simp [State.enables, hrep] at henables
  | answered m rest rsp hrsp => exact absurd (handleCmd_eq_ok.mp hrsp).1 h
  | send rsp rest hne => exact absurd h hne
  | noRequest rest => exact ⟨hrep, rfl⟩
  | pulled k n m rest hk => simp [State.effect, hk, hrep, Stranded]
  | bound => exact ⟨hrep, trivial⟩
  | _ => exact ⟨hrep, trivial⟩

theorem TurnInv.of_silent {z : Zlogpull} {acts : List Act} {s t : State} {a : Act}
    (hs : TurnInv z acts s) (hlog : exchanged a = []) (hsends : failsToSend a = false)
    (hrep : t.rep = s.rep)
    (hpc : t.runs (t.launched - 1) = s.runs (s.launched - 1) ∨
      (s.runs (s.launched - 1)).active = false ∧ t.runs (t.launched - 1) = .bind bindOrder) :
    TurnInv z (acts ++ [a]) t := by
  have hsame : Orderly z (acts ++ [a]) ↔ Orderly z acts := by
    rw [orderly_snoc]
    simp [hlog, hsends]
  have hexchanges : exchanges (acts ++ [a]) = exchanges acts := by
    rw [exchanges_snoc, hlog, List.append_nil]
  refine ⟨fun ht => ?_, fun ht => ?_⟩
  · have hturn := hs.inTurn (hsame.mp ht)
    rw [hexchanges, hrep]
    rcases hpc with hpc | ⟨hold, hnew⟩
    · rw [hpc]
      exact hturn
    · rw [hnew]
      exact (inTurn_inactive hold).mp hturn
  · rcases hs.stranded (fun hacts => ht (hsame.mpr hacts)) with ⟨hsending, hstranded⟩
    refine ⟨hrep.trans hsending, ?_⟩
    rcases hpc with hpc | ⟨-, hnew⟩
    · rw [hpc]
      exact hstranded
    · rw [hnew]
      trivial

theorem turnInv_step {z : Zlogpull} {acts : List Act} {s t : State} {a : Act} (hinv : Inv s)
    (hs : TurnInv z acts s) (h : (service z).step s a = some t) : TurnInv z (acts ++ [a]) t := by
  cases a with
  | run i ev =>
    rcases step_run.mp h with ⟨henables, pc, hgoes, rfl⟩
    have hi := hinv.last_eq hgoes.active
    rcases hs with ⟨hturn, hstranded⟩
    rw [hi] at hturn hstranded
    refine ⟨fun ht => ?_, fun ht => ?_⟩
    · have hacts := (orderly_snoc.mp ht).1
      simp only [goto_rep, goto_launched, effect_launched, hi, goto_self]
      exact inTurn_goes hgoes hacts ht (hturn hacts)
    · simp only [goto_rep, goto_launched, effect_launched, hi, goto_self]
      by_cases hacts : Orderly z acts
      · exact stranded_of_disorder hgoes hacts ht (hturn hacts)
      · rcases hstranded hacts with ⟨hrep, hpc⟩
        exact stranded_goes hgoes henables hrep hpc
  | owner ev =>
    have hrep : t.rep = s.rep := by
      rcases step_owner h with ⟨-, owner, -, rfl⟩
      simp
    exact hs.of_silent rfl rfl hrep (hinv.last_owner h)
  | arrive k m =>
    cases step_arrive h
    exact hs.of_silent rfl rfl rfl (.inl rfl)

theorem turnInv_of_run {z : Zlogpull} {acts : List Act} {s : State}
    (h : (service z).run (service z).init acts = some s) : TurnInv z acts s := by
  refine run_induction (M := service z) (I := TurnInv z) ?_ ?_ acts s h
  · refine ⟨fun _ => ⟨rfl, .nil⟩, fun hnot => absurd ⟨?_, ?_⟩ hnot⟩ <;>
      intro _ hmem <;> cases hmem
  · intro acts s a t hrun hs hstep
    exact turnInv_step (inv_of_reachable ⟨acts, hrun⟩) hs hstep

theorem exchanged_of_disorder {z : Zlogpull} {acts : List Act} {s t : State} {a : Act}
    (hrun : (service z).run (service z).init acts = some s) (hdisorder : ¬ Orderly z acts)
    (h : (service z).step s a = some t) : exchanged a = [] := by
  rcases (turnInv_of_run hrun).stranded hdisorder with ⟨hrep, hstranded⟩
  cases a with
  | run i ev =>
    rcases step_run.mp h with ⟨henables, pc, hgoes, -⟩
    rw [(inv_of_reachable ⟨acts, hrun⟩).last_eq hgoes.active] at hstranded
    generalize s.runs i = before at hgoes hstranded
    cases hgoes with
    | requested n m rest => simp [State.enables, hrep] at henables
    | send rsp rest hne => exact absurd hstranded hne
    | pulled k n m rest hk =>
      cases k with
      | ctl => exact absurd rfl hk
      | _ => rfl
    | _ => rfl
  | owner ev => rfl
  | arrive k m => rfl

theorem rep_of_poll {z : Zlogpull} {acts : List Act} {s : State}
    (h : (service z).run (service z).init acts = some s) {i : Nat} (hpoll : s.runs i = .poll) :
    (Orderly z acts → s.rep = .receiving ∧ Answered z (exchanges acts)) ∧
      (¬ Orderly z acts → s.rep = .sending) := by
  have hi : s.launched - 1 = i :=
    (inv_of_reachable ⟨acts, h⟩).last_eq (by rw [hpoll]; rfl)
  obtain ⟨hturn, hstranded⟩ := turnInv_of_run h
  rw [hi, hpoll] at hturn
  exact ⟨hturn, fun hdisorder => (hstranded hdisorder).1⟩

/-- Wherever a poll is about to begin, the reply socket can receive and every
request has had its one reply, exactly if all requests so far could be decoded
and no send failed. After one that could not, no poll ever finds the socket
ready to receive again, in this execution or a later one. -/
theorem turn_complete_iff (z : Zlogpull) (acts : List Act) (s : State)
    (h : (service z).run (service z).init acts = some s) (i : Nat) (hpoll : s.runs i = .poll) :
    s.rep = .receiving ∧ Answered z (exchanges acts) ↔ Orderly z acts := by
  obtain ⟨hturn, hstranded⟩ := rep_of_poll h hpoll
  refine ⟨?_, hturn⟩
  rintro ⟨hrep, -⟩
  by_contra hnot
  rw [hstranded hnot] at hrep
  cases hrep

def oneRequest (i : Nat) (m : Wire) (answer : List Act) : List Act :=
  [.run i (.bind .tcp true), .run i (.bind .ipc true), .run i (.bind .inp true),
    .run i (.bind .ctl true), .run i .setup, .run i (.test true), .run i .pollBegin,
    .arrive .ctl m, .run i (.pollReturn [.sock .ctl]), .run i (.guard .ctl true),
    .run i (.receive .ctl 0 m)] ++ answer ++ [.run i (.test true)]

def askIpc : Wire :=
  ⟨networkOrder.encode Command.getFrontend.code, [networkOrder.encode Frontend.ipc.code]⟩

theorem turn_complete_askIpc :
    ∃ s acts, acts = oneRequest 0 askIpc
        [.run 0 .handleCmd, .run 0 (.send [sample.ipc, []]), .run 0 .pollEnd] ∧
      (service sample).run (service sample).init acts = some s ∧ s.runs 0 = .poll ∧
      s.rep = .receiving ∧ Answered sample (exchanges acts) := by
  refine ⟨_, _, rfl, rfl, rfl, (turn_complete_iff sample _ _ rfl 0 rfl).mpr ⟨?_, by decide⟩⟩
  intro m hm
  have hm : m = askIpc := by simpa [oneRequest, exchanges, exchanged] using hm
  subst hm
  exact ⟨Command.getFrontend.code, by decide, fun _ => ⟨Frontend.ipc.code, by decide⟩⟩

def askNothing : Wire := ⟨networkOrder.encode Command.getFrontend.code, []⟩

theorem askNothing_stuck :
    ∃ s, (service sample).run (service sample).init
        (oneRequest 0 askNothing [.run 0 .handleCmd]) = some s ∧
      s.runs 0 = .poll ∧ s.rep = .sending :=
  ⟨_, rfl, rfl, rfl⟩

end Zmqlog.Turn
