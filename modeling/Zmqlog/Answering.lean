import Zmqlog.Discovery
import Zmqlog.Rounds

/-! How long a request waits for its reply. A round takes one request from the
control socket, which one is up to the socket, so a logger under construction
has its endpoint after as many rounds as there are requests at all. -/
namespace Zmqlog.Answering
open Transition Zmqpp Control Service Step Lifecycle Progress Turn Rounds
open Discovery (newest serving discovery ontoService arrivals arrivals_append accounted_of_run
  told)

/-- Besides, every receive takes a message. -/
def punctual (s : State) (a : Act) : Bool :=
  prompt s a &&
    match a with
    | .run _ (.receiveThrow _) => false
    | _ => true

theorem prompt_of_punctual {s : State} {a : Act} (h : punctual s a = true) : prompt s a = true :=
  (Bool.and_eq_true _ _ ▸ h).1

def answers : Act → Bool
  | .run _ (.send _) => true
  | _ => false

def unanswered (s : State) : Nat := (s.inbox .ctl).length + (s.rep == .sending).toNat

/-- The round in progress has still to send a reply. -/
def due (pc : Pc) : Nat := if .sock .ctl ∈ pending pc ∨ owesReply pc = true then 1 else 0

theorem due_le (pc : Pc) : due pc ≤ 1 := by
  unfold due
  split <;> omega

theorem due_inactive {pc : Pc} (h : pc.active = false) : due pc = 0 := by
  cases pc with
  | unlaunched | returned | escaped => rfl
  | _ => cases h

theorem due_mono {pc pc' : Pc}
    (h : .sock .ctl ∈ pending pc ∨ owesReply pc = true →
      .sock .ctl ∈ pending pc' ∨ owesReply pc' = true) : due pc ≤ due pc' := by
  unfold due
  split
  · rw [if_pos (h ‹_›)]
  · omega

theorem due_goes {z : Zlogpull} {s : State} {pc pc' : Pc} {ev : Ev} {i : Nat}
    (hgoes : Goes z pc ev pc') (hafter : ∀ item ∈ afterRequest pc, item = .pipe)
    (henables : s.enables ev = true) (hmRun : s.mRun = true)
    (hok : punctual s (.run i ev) = true)
    (hdecodes : ∀ m rest, pc = .handle m rest → Decodes z.codec m.parts)
    (hsends : failsToSend (.run i ev) = false) :
    due pc ≤ (answers (.run i ev)).toNat + due pc' := by
  cases hgoes with
  | skip k rest => simp [State.enables, hmRun] at henables
  | noFrame k rest _ => simp [punctual, prompt] at hok
  | noRequest rest => simp [punctual, prompt] at hok
  | receiveThrow k rest => simp [punctual] at hok
  | sendThrow rsp rest _ => cases hsends
  | malformed m rest hrsp =>
    rw [handleCmd_of_decodes z.toEndpoints m.parts [] (hdecodes m rest rfl)] at hrsp
    cases hrsp
  | send rsp rest _ =>
    have := due_le (.reply rsp rest)
    simp only [answers, Bool.toNat_true]
    omega
  | sendNothing rest =>
    have hrest : .sock .ctl ∉ rest := by
      intro hmem
      cases hafter _ hmem
    simp [due, pending, owesReply, hrest]
  | answered m rest rsp hrsp =>
    refine le_trans (due_mono ?_) (Nat.le_add_left _ _)
    simp [pending, owesReply, handleCmd_ne_nil hrsp]
  | pulled k n m rest hk =>
    refine le_trans (due_mono ?_) (Nat.le_add_left _ _)
    simp [pending, owesReply, Ne.symm hk]
  | _ =>
    refine le_trans (due_mono ?_) (Nat.le_add_left _ _)
    simp [pending, owesReply]

theorem due_reported {s : State} (h : s.receivable .ctl = true) :
    due (.dispatch (registered.filter s.ready)) = 1 := by
  apply if_pos
  left
  exact List.mem_filter.mpr ⟨mem_registered _, h⟩

theorem unanswered_of_not_receivable {z : Zlogpull} {acts : List Act} {s : State}
    (hs : (service z).run (service z).init acts = some s) (horderly : Orderly z acts)
    (hpolling : newest s = .polling) (h : s.receivable .ctl = false) : unanswered s = 0 := by
  have hturn := (turnInv_of_run hs).inTurn horderly
  rw [show s.runs (s.launched - 1) = .polling from hpolling] at hturn
  have hrep : s.rep = .receiving := hturn.1
  have hempty : s.inbox .ctl = [] := by simpa [State.receivable, hrep] using h
  simp [unanswered, hrep, hempty]

theorem decodes_of_handle {z : Zlogpull} {acts : List Act} {s : State}
    (hs : (service z).run (service z).init acts = some s) (horderly : Orderly z acts) {m : Wire}
    {rest : List Item} (hpc : newest s = .handle m rest) : Decodes z.codec m.parts := by
  have hturn := (turnInv_of_run hs).inTurn horderly
  rw [show s.runs (s.launched - 1) = .handle m rest from hpc] at hturn
  obtain ⟨-, done, -, hlog⟩ := hturn
  exact horderly.decodes m (by simp [hlog])

theorem due_run {z : Zlogpull} {acts : List Act} {s t : State} {i : Nat} {ev : Ev}
    (hs : (service z).run (service z).init acts = some s)
    (ht : (service z).step s (.run i ev) = some t) (horderly : Orderly z (acts ++ [.run i ev]))
    (hmRun : s.mRun = true) (hok : punctual s (.run i ev) = true) :
    unanswered s = 0 ∨ (reports (.run i ev)).toNat + due (newest s) ≤
      (answers (.run i ev)).toNat + due (newest t) := by
  have hreach : (service z).Reachable s := ⟨acts, hs⟩
  have hsends := horderly.sends (.run i ev) (by simp)
  have hpast := horderly.of_append
  obtain ⟨henables, pc, hgoes, rfl⟩ := step_run.mp ht
  have hlast : s.launched - 1 = i := (inv_of_reachable hreach).last_eq hgoes.active
  have hbefore : newest s = s.runs i := congrArg s.runs hlast
  have hafter : newest ((s.effect ev).goto i pc) = pc := by
    simp only [newest, goto_launched, effect_launched, hlast, goto_self]
  have hdue := due_goes hgoes (afterRequest_of_reachable hreach i) henables hmRun hok
    (fun m rest hpc => decodes_of_handle hs hpast (hbefore.trans hpc)) hsends
  rw [hafter, hbefore]
  generalize hpc : s.runs i = before at hgoes hdue
  cases hgoes with
  | pollReturn ready =>
    have hready : ready = registered.filter s.ready := by
      simpa [punctual, prompt, attentive] using hok
    subst hready
    by_cases hreceivable : s.receivable .ctl = true
    · right
      have hnone : due .polling = 0 := rfl
      rw [due_reported hreceivable, hnone]
      exact Nat.le_add_left _ _
    · left
      exact unanswered_of_not_receivable hs hpast (hbefore.trans hpc) (by simpa using hreceivable)
  | _ =>
    right
    simpa [reports] using hdue

theorem due_step {z : Zlogpull} {acts : List Act} {s t : State} {a : Act}
    (hs : (service z).run (service z).init acts = some s) (ht : (service z).step s a = some t)
    (horderly : Orderly z (acts ++ [a])) (hmRun : s.mRun = true) (hok : punctual s a = true) :
    unanswered s = 0 ∨
      (reports a).toNat + due (newest s) ≤ (answers a).toNat + due (newest t) := by
  cases a with
  | run i ev => exact due_run hs ht horderly hmRun hok
  | owner ev =>
    right
    have hdue : due (newest s) ≤ due (newest t) := by
      rcases (inv_of_reachable ⟨acts, hs⟩).last_owner ht with hsame | ⟨hold, -⟩
      · rw [newest, newest, hsame]
      · rw [newest, due_inactive hold]
        exact Nat.zero_le _
    simpa [reports, answers] using hdue
  | arrive k m =>
    cases step_arrive ht
    right
    simp [reports, answers, newest]

variable {ι : Type*} [DecidableEq ι]

def atService (p : Act → Bool) : Discovery.Act ι → Bool
  | .serve a => p a
  | _ => false

omit [DecidableEq ι] in
theorem countP_serving (wants : ι → Frontend) (z : Zlogpull) (acts : List (Discovery.Act ι))
    {p : Act → Bool} (hp : ∀ k m, p (.arrive k m) = false) :
    (acts.flatMap (serving wants z)).countP p = acts.countP (atService p) := by
  induction acts with
  | nil => rfl
  | cons a acts ih =>
    rw [List.flatMap_cons, List.countP_append, ih, List.countP_cons, Nat.add_comm]
    cases a with
    | client i ev => rfl
    | reach i => simp [serving, atService, hp]
    | serve a => cases hpa : p a <;> simp [serving, atService, hpa]

section Client
variable {wants : ι → Frontend} {accepts : Frame → Bool} {z : Zlogpull}
  {acts later : List (Discovery.Act ι)} {s t : Discovery.State ι} {i : ι}

theorem serving_run (h : (discovery wants accepts z).run (discovery wants accepts z).init acts =
      some s) (hlater : (discovery wants accepts z).run s later = some t) :
    (service z).run s.service (later.flatMap (serving wants z)) = some t.service := by
  have hs := (ontoService wants accepts z).run h
  have ht := (ontoService wants accepts z).run ((run_append_eq_some _).mpr ⟨s, h, hlater⟩)
  rw [List.flatMap_append, run_append, hs] at ht
  exact ht

omit [DecidableEq ι] in
theorem replies_eq : (Discovery.replies : Discovery.Act ι → Bool) = atService answers := by
  funext a
  cases a with
  | serve a =>
    cases a with
    | run i ev => cases ev <;> rfl
    | _ => rfl
  | _ => rfl

theorem unanswered_eq
    (h : (discovery wants accepts z).run (discovery wants accepts z).init acts = some s) :
    (s.current.toList ++ s.askers).length = unanswered s.service :=
  (accounted_of_run h).rest_length

theorem answered_add_unanswered
    (h : (discovery wants accepts z).run (discovery wants accepts z).init acts = some s)
    (hlater : (discovery wants accepts z).run s later = some t) :
    later.countP (atService answers) + unanswered t.service =
      unanswered s.service + (arrivals later).length := by
  have hboth := (run_append_eq_some _).mpr ⟨s, h, hlater⟩
  have hs := accounted_of_run h
  have ht := accounted_of_run hboth
  have hfirst := hs.all.length_eq
  have hall := ht.all.length_eq
  rw [List.length_append, hs.replied, unanswered_eq h] at hfirst
  rw [List.length_append, ht.replied, unanswered_eq hboth, arrivals_append, List.length_append,
    List.countP_append] at hall
  rw [← replies_eq]
  omega

/-- Once it has come, the request of a client that still waits is in the queue
or in hand. -/
theorem unanswered_of_waiting
    (h : (discovery wants accepts z).run (discovery wants accepts z).init acts = some s)
    (hlater : (discovery wants accepts z).run s later = some t) (hcame : some i ∈ arrivals acts)
    (hwaiting : t.clients i = .waiting) : unanswered s.service ≠ 0 := by
  have hnot : some i ∉ (discovery wants accepts z).record told
      (discovery wants accepts z).init acts := by
    intro hanswered
    have ht := accounted_of_run ((run_append_eq_some _).mpr ⟨s, h, hlater⟩)
    refine (ht.stands i).done ?_ hwaiting
    rw [record_append h]
    exact List.mem_append_left _ hanswered
  have hmem := (List.mem_append.mp ((accounted_of_run h).all.mem_iff.mp hcame)).resolve_left hnot
  rw [← unanswered_eq h]
  exact (List.length_pos_of_mem hmem).ne'

theorem due_discovery {a : Discovery.Act ι}
    (h : (discovery wants accepts z).run (discovery wants accepts z).init acts = some s)
    (hstep : (discovery wants accepts z).step s a = some t)
    (horderly : Orderly z ((acts ++ [a]).flatMap (serving wants z)))
    (hmRun : s.service.mRun = true) (hok : ∀ b ∈ serving wants z a, punctual s.service b = true)
    (hbusy : unanswered s.service ≠ 0) :
    (atService reports a).toNat + due (newest s.service) ≤
      (atService answers a).toNat + due (newest t.service) := by
  have hs := (ontoService wants accepts z).run h
  have ht : (service z).run s.service (serving wants z a) = some t.service :=
    (ontoService wants accepts z).step s a t ⟨acts, h⟩ hstep
  rw [List.flatMap_append, List.flatMap_singleton] at horderly
  cases a with
  | client i ev =>
    have hsame : s.service = t.service := Option.some.inj ht
    simp [atService, hsame]
  | reach _ | serve _ =>
    rw [serving, run_singleton] at ht
    exact (due_step hs ht horderly hmRun (hok _ List.mem_cons_self)).resolve_left hbusy

/-- As long as a client waits the rounds are at most one ahead of the replies. -/
theorem reported
    (h : (discovery wants accepts z).run (discovery wants accepts z).init acts = some s)
    (hlater : (discovery wants accepts z).run s later = some t) (hmRun : s.service.mRun = true)
    (horderly : Orderly z ((acts ++ later).flatMap (serving wants z)))
    (hok : (service z).Steps (fun r a => punctual r a = true) s.service
      (later.flatMap (serving wants z)))
    (hcame : some i ∈ arrivals acts) (hwaiting : t.clients i = .waiting) :
    later.countP (atService reports) ≤
      later.countP (atService answers) + due (newest t.service) := by
  have hs := (ontoService wants accepts z).run h
  have hgains (as : List (Discovery.Act ι)) (a : Discovery.Act ι) :
      (as ++ [a]).countP (atService answers) =
        as.countP (atService answers) + (atService answers a).toNat := by
    rw [List.countP_append, List.countP_singleton]
    cases atService answers a <;> rfl
  refine ticks_le (fun s => due (newest s.service)) (fun a => (atService answers a).toNat)
    (fun as => as.countP (atService answers)) hgains hlater ?_
  rintro before a after u v rfl hu hv
  have hu' := (run_append_eq_some _).mpr ⟨s, h, hu⟩
  have hrest : (discovery wants accepts z).run u (a :: after) = some t := by
    rw [run_append, hu] at hlater
    exact hlater
  rw [List.flatMap_append, List.flatMap_cons] at hok
  have hset : u.service.mRun = true :=
    (work_le ⟨_, hs⟩ hmRun (serving_run h hu)
      (hok.of_append.mono fun _ _ => prompt_of_punctual)).1
  refine due_discovery hu' hv ?_ hset (fun b hb => ?_) ?_
  · have hsplit : acts ++ (before ++ a :: after) = acts ++ before ++ [a] ++ after := by simp
    rw [hsplit, List.flatMap_append] at horderly
    exact horderly.of_append
  · cases a with
    | client i ev => cases hb
    | reach _ | serve _ =>
      cases List.mem_singleton.mp hb
      exact hok.at (serving_run h hu)
  · refine unanswered_of_waiting hu' hrest ?_ hwaiting
    rw [arrivals_append]
    exact List.mem_append_left _ hcame

end Client

theorem punctual_enabled {z : Zlogpull} {acts : List Act} {s : State} {i : Nat}
    (hs : (service z).run (service z).init acts = some s) (horderly : Orderly z acts)
    (hactive : (s.runs i).active = true) (hunanswered : unanswered s ≠ 0) :
    ∃ ev t, punctual s (.run i ev) = true ∧ (service z).step s (.run i ev) = some t := by
  have hreach : (service z).Reachable s := ⟨acts, hs⟩
  have hblocked : ¬ Blocked s (s.runs i) := by
    rintro ⟨hpolling, hnothing⟩
    apply hunanswered
    refine unanswered_of_not_receivable hs horderly ?_ (hnothing (.sock .ctl) (mem_registered _))
    rw [newest, (inv_of_reachable hreach).last_eq hactive, hpolling]
  obtain ⟨ev, t, hprompt, hfaultless, hstep⟩ := prompt_enabled hreach hactive hblocked
  refine ⟨ev, t, (Bool.and_eq_true _ _).mpr ⟨hprompt, ?_⟩, hstep⟩
  cases ev with
  | receiveThrow k => cases hfaultless
  | _ => rfl

/-- As long as nothing stops the service and every request can be decoded, a
client whose request has come to the control socket has its reply within 24
steps of the worker for each request that is there or comes meanwhile, and 26
more. While it waits, the worker has a next step. -/
theorem told_within (wants : ι → Frontend) (accepts : Frame → Bool) (z : Zlogpull)
    (acts later : List (Discovery.Act ι)) (s t : Discovery.State ι)
    (h : (discovery wants accepts z).run (discovery wants accepts z).init acts = some s)
    (hlater : (discovery wants accepts z).run s later = some t) (hmRun : s.service.mRun = true)
    (horderly : Orderly z ((acts ++ later).flatMap (serving wants z)))
    (hok : (service z).Steps (fun r a => punctual r a = true) s.service
      (later.flatMap (serving wants z)))
    (i : ι) (hcame : some i ∈ arrivals acts) :
    (24 * (unanswered s.service + (arrivals later).length) + 26 ≤
        (later.flatMap (serving wants z)).countP ofWorker → t.clients i ≠ .waiting) ∧
      ∀ j, attending (s.service.runs j) = true → t.clients i = .waiting →
        ∃ ev u, punctual t.service (.run j ev) = true ∧
          (discovery wants accepts z).step t (.serve (.run j ev)) = some u := by
  have hs : (service z).run (service z).init (acts.flatMap (serving wants z)) = some s.service :=
    (ontoService wants accepts z).run h
  have hrun := serving_run h hlater
  have hboth := (run_append_eq_some _).mpr ⟨s, h, hlater⟩
  have hcame' : some i ∈ arrivals (acts ++ later) := by
    rw [arrivals_append]
    exact List.mem_append_left _ hcame
  have hprompt : (service z).Steps (fun r a => prompt r a = true) s.service
      (later.flatMap (serving wants z)) :=
    hok.mono fun _ _ => prompt_of_punctual
  refine ⟨fun hwork hwaiting => ?_, fun j hj hwaiting => ?_⟩
  · have hrounds := (work_le ⟨_, hs⟩ hmRun hrun hprompt).2
    have hrank := workRank_le ⟨_, hs⟩
    have hreported := reported h hlater hmRun horderly hok hcame hwaiting
    have hdue := due_le (newest t.service)
    have hconserved := answered_add_unanswered h hlater
    have hbusy : unanswered t.service ≠ 0 :=
      unanswered_of_waiting hboth (run_nil _ t) hcame' hwaiting
    have hreports := countP_serving wants z later (p := reports) fun _ _ => rfl
    omega
  · have hactive := attending.active (attending_run ⟨_, hs⟩ hmRun hj hrun hprompt)
    rw [List.flatMap_append] at horderly
    rcases punctual_enabled ((run_append_eq_some _).mpr ⟨_, hs, hrun⟩) horderly hactive
      (unanswered_of_waiting hboth (run_nil _ t) hcame' hwaiting) with ⟨ev, r, hpunctual, hstep⟩
    exact ⟨ev, _, hpunctual, Option.map_eq_some_iff.mpr ⟨r, hstep, rfl⟩⟩

def twoAsked : List (Discovery.Act Bool) :=
  Discovery.arrangements ++ [.serve (.arrive .ctl Discovery.askTcp), .reach true]

def idleRound : List (Discovery.Act Bool) :=
  [.serve (.run 0 (.pollReturn [])), .serve (.run 0 .pollEnd), .serve (.run 0 (.test true)),
    .serve (.run 0 .pollBegin)]

def twoAnswered : List (Discovery.Act Bool) :=
  Discovery.answers Discovery.askTcp [advertisedTcp, []] ++
    Discovery.answers (Discovery.request sample .ipc) [sample.ipc, []] ++
      (List.replicate 15 idleRound).flatten

theorem twoAnswered_orderly :
    Orderly sample ((twoAsked ++ twoAnswered).flatMap (serving Discovery.bothIpc sample)) := by
  refine ⟨fun m hm => ?_, by decide⟩
  have hexchanges :
      exchanges ((twoAsked ++ twoAnswered).flatMap (serving Discovery.bothIpc sample)) =
        [.request Discovery.askTcp, .reply [advertisedTcp, []],
          .request (Discovery.request sample .ipc), .reply [sample.ipc, []]] := rfl
  rw [hexchanges] at hm
  have hm : m = Discovery.askTcp ∨ m = Discovery.request sample .ipc := by simpa using hm
  rcases hm with rfl | rfl
  · exact ⟨Command.getFrontend.code, by decide, fun _ => ⟨Frontend.tcp.code, by decide⟩⟩
  · exact ⟨Command.getFrontend.code, by decide, fun _ => ⟨Frontend.ipc.code, by decide⟩⟩

theorem told_within_twoAnswered :
    ∃ s t, (discovery Discovery.bothIpc Discovery.nonempty sample).run
        (discovery Discovery.bothIpc Discovery.nonempty sample).init twoAsked = some s ∧
      (discovery Discovery.bothIpc Discovery.nonempty sample).run s twoAnswered = some t ∧
      s.clients true = .waiting ∧ t.clients true ≠ .waiting :=
  ⟨_, _, rfl, rfl, rfl,
    (told_within Discovery.bothIpc Discovery.nonempty sample twoAsked twoAnswered _ _ rfl rfl rfl
      twoAnswered_orderly (by decide +kernel) true (by decide)).1 (by decide)⟩

end Zmqlog.Answering
