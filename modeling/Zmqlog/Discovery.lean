import Zmqlog.Turn

/-! Loggers that are constructed away from the service. Each asks over the
control channel which endpoint to connect to, among strangers that send what
they like over the same channel. -/
namespace Zmqlog.Discovery
open Transition Zmqpp Control Service Step Lifecycle Turn

universe u
variable {ι : Type u} [DecidableEq ι]

/-- Where a constructor `zlog(frontend)` is, with what it has got so far. -/
inductive Client
  | fresh
  | connecting
  | asking (linked : Bool)
  | waiting
  | told (rsp : Message)
  | linking (ep : Frame)
  | linked (ep : Frame)
  | threw
deriving DecidableEq

inductive ClientEv
  | construct
  | connect (ok : Bool)
  | ask
  | askThrow
  | hear
  | hearThrow
  | link (ok : Bool)
deriving DecidableEq

/-- `accepts` are the endpoints that libzmq takes for one at a `connect`. -/
def Client.next (accepts : Frame → Bool) (fend : Frontend) : Client → ClientEv → Option Client
  | .fresh, .construct => some (if fend = .inproc then .threw else .connecting)
  -- Only the address for ipc is that of `m_ctl`, and only its exception is caught.
  | .connecting, .connect true => some (.asking (fend = .ipc))
  | .connecting, .connect false => some (if fend = .ipc then .asking false else .threw)
  | .asking true, .ask => some .waiting
  -- The string is still empty where the exchange fails.
  | .asking _, .askThrow => some (.linking [])
  | .waiting, .hearThrow => some (.linking [])
  | .told _, .hearThrow => some (.linking [])
  | .told rsp, .hear => some (.linking (receiveString rsp))
  | .linking ep, .link true => if accepts ep then some (.linked ep) else none
  | .linking _, .link false => some .threw
  | _, _ => none

inductive Advances (accepts : Frame → Bool) (fend : Frontend) : Client → ClientEv → Client → Prop
  | refuse (h : fend = .inproc) : Advances accepts fend .fresh .construct .threw
  | construct (h : fend ≠ .inproc) : Advances accepts fend .fresh .construct .connecting
  | connect : Advances accepts fend .connecting (.connect true) (.asking (fend = .ipc))
  | caught (h : fend = .ipc) : Advances accepts fend .connecting (.connect false) (.asking false)
  | escaped (h : fend ≠ .ipc) : Advances accepts fend .connecting (.connect false) .threw
  | ask : Advances accepts fend (.asking true) .ask .waiting
  | askThrow (linked : Bool) : Advances accepts fend (.asking linked) .askThrow (.linking [])
  | giveUp : Advances accepts fend .waiting .hearThrow (.linking [])
  | hearThrow (rsp : Message) : Advances accepts fend (.told rsp) .hearThrow (.linking [])
  | hear (rsp : Message) : Advances accepts fend (.told rsp) .hear (.linking (receiveString rsp))
  | link (ep : Frame) (h : accepts ep = true) :
      Advances accepts fend (.linking ep) (.link true) (.linked ep)
  | linkThrow (ep : Frame) : Advances accepts fend (.linking ep) (.link false) .threw

theorem advances_of_next {accepts : Frame → Bool} {fend : Frontend} {c c' : Client} {ev : ClientEv}
    (h : c.next accepts fend ev = some c') : Advances accepts fend c ev c' := by
  unfold Client.next at h
  split at h
  · cases Option.some.inj h
    by_cases hfend : fend = .inproc
    · rw [if_pos hfend]
      exact .refuse hfend
    · rw [if_neg hfend]
      exact .construct hfend
  · cases Option.some.inj h
    exact .connect
  · cases Option.some.inj h
    by_cases hfend : fend = .ipc
    · rw [if_pos hfend]
      exact .caught hfend
    · rw [if_neg hfend]
      exact .escaped hfend
  · cases Option.some.inj h
    exact .ask
  · cases Option.some.inj h
    exact .askThrow _
  · cases Option.some.inj h
    exact .giveUp
  · cases Option.some.inj h
    exact .hearThrow _
  · cases Option.some.inj h
    exact .hear _
  · split at h
    · rename_i hep
      cases Option.some.inj h
      exact .link _ hep
    · cases h
  · cases Option.some.inj h
    exact .linkThrow _
  · cases h

def Client.tell (rsp : Message) : Client → Client
  | .waiting => .told rsp
  | c => c

def request (z : Zlogpull) (fend : Frontend) : Wire :=
  ⟨z.codec.encode Command.getFrontend.code, [z.codec.encode fend.code]⟩

theorem request_parts (z : Zlogpull) (fend : Frontend) :
    (request z fend).parts = frontendRequest z.codec fend := rfl

/-- `flight` are the clients whose request is on its way, `askers` is who sent
what waits in the queue of `m_ctl`, and `current` who sent what it has to
answer now; a stranger is `none`. -/
structure State (ι : Type u) where
  clients : ι → Client
  flight : ι → Bool
  askers : List (Option ι)
  current : Option (Option ι)
  service : Service.State

inductive Act (ι : Type u)
  | client (i : ι) (ev : ClientEv)
  | reach (i : ι)
  | serve (a : Service.Act)

def State.advance (s : State ι) (i : ι) (ev : ClientEv) (c : Client) : State ι :=
  { s with
    clients := Function.update s.clients i c
    flight := if ev = .ask then Function.update s.flight i true else s.flight }

/-- A reply goes to the one whose request was received last. -/
def State.answer (s : State ι) (rsp : Message) : State ι :=
  { s with
    clients := fun i =>
      if s.current = some (some i) then (s.clients i).tell rsp else s.clients i
    current := none }

def State.turn (s : State ι) : Service.Act → State ι
  | .arrive .ctl _ => { s with askers := s.askers ++ [none] }
  | .run _ (.receive .ctl n _) =>
    { s with
      askers := s.askers.eraseIdx n
      current := s.askers[n]? }
  | .run _ (.send rsp) => s.answer rsp
  | _ => s

variable (wants : ι → Frontend) (accepts : Frame → Bool) (z : Zlogpull)

def discovery : Machine (State ι) (Act ι) where
  init := ⟨fun _ => .fresh, fun _ => false, [], none, (service z).init⟩
  step s
    | .client i ev => ((s.clients i).next accepts (wants i) ev).map (s.advance i ev)
    | .reach i =>
      if s.flight i then
        ((service z).step s.service (.arrive .ctl (request z (wants i)))).map fun r =>
          { s with
            service := r
            flight := Function.update s.flight i false
            askers := s.askers ++ [some i] }
      else none
    | .serve a => ((service z).step s.service a).map fun r => { s.turn a with service := r }

def serving : Act ι → List Service.Act
  | .client _ _ => []
  | .reach i => [.arrive .ctl (request z (wants i))]
  | .serve a => [a]

def ontoService : Simulation (discovery wants accepts z) (service z) where
  abs := State.service
  obs := serving wants z
  init := rfl
  step := by
    intro s a t _ h
    cases a with
    | client i ev =>
      obtain ⟨c, -, rfl⟩ := Option.map_eq_some_iff.mp h
      rfl
    | reach i =>
      simp only [discovery, Option.ite_none_right_eq_some, Option.map_eq_some_iff] at h
      obtain ⟨-, r, hstep, rfl⟩ := h
      rw [serving, run_singleton]
      exact hstep
    | serve a =>
      obtain ⟨r, hstep, rfl⟩ := Option.map_eq_some_iff.mp h
      rw [serving, run_singleton]
      exact hstep

def arrivalAt : Act ι → List (Option ι)
  | .reach i => [some i]
  | .serve (.arrive .ctl _) => [none]
  | _ => []

def arrivals (acts : List (Act ι)) : List (Option ι) := acts.flatMap arrivalAt

def newest (r : Service.State) : Pc := r.runs (r.launched - 1)

def AtWork (req : Wire) : Pc → Prop
  | .handle m _ => m = req
  | .reply rsp _ => rsp ≠ [] → Control.handleCmd z.toEndpoints req.parts [] = .ok rsp
  | _ => True

def concerns : Service.Act → Bool
  | .arrive k _ => k == .ctl
  | .run _ (.receive k _ _) => k == .ctl
  | .run _ (.send _) => true
  | _ => false

inductive Turns (r r' : Service.State) : Service.Act → Prop
  | comes (m : Wire) (hinbox : r'.inbox .ctl = r.inbox .ctl ++ [m]) (hrep : r'.rep = r.rep)
      (hpc : newest r' = newest r) : Turns r r' (.arrive .ctl m)
  | takes (i n : Nat) (m : Wire) (rest : List Item) (hn : (r.inbox .ctl)[n]? = some m)
      (hinbox : r'.inbox .ctl = (r.inbox .ctl).eraseIdx n) (hrep : r.rep = .receiving)
      (hrep' : r'.rep = .sending) (hpc : newest r' = .handle m rest) :
      Turns r r' (.run i (.receive .ctl n m))
  | sends (i : Nat) (rsp : Message) (rest : List Item) (hinbox : r'.inbox .ctl = r.inbox .ctl)
      (hrep : r.rep = .sending) (hrep' : r'.rep = .receiving) (hpc : newest r = .reply rsp rest)
      (hrsp : rsp ≠ []) : Turns r r' (.run i (.send rsp))
  | other (a : Service.Act) (ha : concerns a = false) (hinbox : r'.inbox .ctl = r.inbox .ctl)
      (hrep : r'.rep = r.rep) (hpc : ∀ req, AtWork z req (newest r) → AtWork z req (newest r')) :
      Turns r r' a

variable {z}

theorem turns_goes {r : Service.State} {i : Nat} {pc pc' : Pc} {ev : Ev}
    (hgoes : Goes z pc ev pc') (henables : r.enables ev = true) (hi : r.launched - 1 = i)
    (hpc : r.runs i = pc) : Turns z r ((r.effect ev).goto i pc') (.run i ev) := by
  have hbefore : newest r = pc := by
    rw [newest, hi, hpc]
  have hafter : newest ((r.effect ev).goto i pc') = pc' := by
    simp only [newest, goto_launched, effect_launched, hi, goto_self]
  cases hgoes with
  | requested n m rest =>
    simp only [State.enables, Bool.and_eq_true, beq_iff_eq, if_true] at henables
    refine .takes i n m rest henables.1 ?_ henables.2 rfl hafter
    simp [State.effect]
  | send rsp rest hrsp =>
    exact .sends i rsp rest rfl (by simpa [State.enables] using henables) rfl hbefore hrsp
  | pulled k n m rest hk =>
    refine .other _ (by simpa [concerns] using hk) ?_ ?_ ?_
    · simp [State.effect, hk.symm]
    · simp [State.effect, hk]
    · intro req _
      rw [hafter]
      trivial
  | answered m rest rsp hrsp =>
    refine .other _ rfl rfl rfl fun req hreq => ?_
    rw [hbefore] at hreq
    rw [hafter]
    cases hreq
    exact fun _ => hrsp
  | noRequest rest =>
    refine .other _ rfl rfl rfl fun req _ => ?_
    rw [hafter]
    exact fun hne => absurd rfl hne
  | bound k todo =>
    refine .other _ rfl rfl rfl fun req _ => ?_
    rw [hafter]
    trivial
  | _ =>
    refine .other _ rfl rfl rfl fun req _ => ?_
    rw [hafter]
    trivial

theorem turns_of_step {r r' : Service.State} {a : Service.Act} (hr : (service z).Reachable r)
    (h : (service z).step r a = some r') : Turns z r r' a := by
  have hinv := inv_of_reachable hr
  cases a with
  | run i ev =>
    obtain ⟨henables, pc, hgoes, rfl⟩ := step_run.mp h
    exact turns_goes hgoes henables (hinv.last_eq hgoes.active) rfl
  | owner ev =>
    have hother : ∀ req, AtWork z req (newest r) → AtWork z req (newest r') := by
      intro req hreq
      rcases hinv.last_owner h with hsame | ⟨-, hnew⟩
      · rw [newest, hsame]
        exact hreq
      · rw [newest, hnew]
        trivial
    obtain ⟨-, owner, -, rfl⟩ := step_owner h
    exact .other _ rfl (by simp) (by simp) hother
  | arrive k m =>
    cases step_arrive h
    by_cases hk : k = .ctl
    · subst hk
      exact .comes m (by simp) rfl rfl
    · exact .other _ (by simpa [concerns] using hk) (by simp [Ne.symm hk]) rfl fun _ hreq => hreq

variable {wants : ι → Frontend} {accepts : Frame → Bool} {s t : State ι} {i : ι}

theorem reachable_service (hs : (discovery wants accepts z).Reachable s) :
    (service z).Reachable s.service := by
  obtain ⟨acts, hacts⟩ := hs
  exact ⟨_, (ontoService wants accepts z).run hacts⟩

theorem step_client {ev : ClientEv}
    (h : (discovery wants accepts z).step s (.client i ev) = some t) :
    ∃ c, Advances accepts (wants i) (s.clients i) ev c ∧ s.advance i ev c = t := by
  obtain ⟨c, hnext, rfl⟩ := Option.map_eq_some_iff.mp h
  exact ⟨c, advances_of_next hnext, rfl⟩

theorem step_reach (hs : (discovery wants accepts z).Reachable s)
    (h : (discovery wants accepts z).step s (.reach i) = some t) :
    s.flight i = true ∧
      ∃ r, Turns z s.service r (.arrive .ctl (request z (wants i))) ∧
        { s with
          service := r
          flight := Function.update s.flight i false
          askers := s.askers ++ [some i] } = t := by
  simp only [discovery, Option.ite_none_right_eq_some, Option.map_eq_some_iff] at h
  obtain ⟨hflight, r, hstep, rfl⟩ := h
  exact ⟨hflight, r, turns_of_step (reachable_service hs) hstep, rfl⟩

theorem step_serve {a : Service.Act} (hs : (discovery wants accepts z).Reachable s)
    (h : (discovery wants accepts z).step s (.serve a) = some t) :
    ∃ r, Turns z s.service r a ∧ { s.turn a with service := r } = t := by
  obtain ⟨r, hstep, rfl⟩ := Option.map_eq_some_iff.mp h
  exact ⟨r, turns_of_step (reachable_service hs) hstep, rfl⟩

omit [DecidableEq ι] in
theorem arrivalAt_other {a : Service.Act} (h : concerns a = false) :
    arrivalAt (.serve a : Act ι) = [] := by
  cases a with
  | arrive k m =>
    cases k with
    | ctl => cases h
    | _ => rfl
  | _ => rfl

theorem turn_other {a : Service.Act} (h : concerns a = false) : s.turn a = s := by
  cases a with
  | arrive k m =>
    cases k with
    | ctl => cases h
    | _ => rfl
  | run i ev =>
    cases ev with
    | receive k n m =>
      cases k with
      | ctl => cases h
      | _ => rfl
    | send rsp => cases h
    | _ => rfl
  | owner ev => rfl

theorem receiveString_ipc {rsp : Message}
    (h : Control.handleCmd z.toEndpoints (request z .ipc).parts [] = .ok rsp) :
    receiveString rsp = z.ipc := by
  rw [request_parts] at h
  obtain ⟨-, rfl⟩ := handleCmd_eq_ok.mp h
  simp [endpointFrames, Message.get_eq_ok, frontendRequest, receiveString]

/-- What a client may have, as far as it has come. -/
def Fits (z : Zlogpull) (accepts : Frame → Bool) (fend : Frontend) : Client → Prop
  | .asking linked => linked = true → fend = .ipc
  | .waiting => fend = .ipc
  | .told rsp => fend = .ipc ∧ Control.handleCmd z.toEndpoints (request z .ipc).parts [] = .ok rsp
  | .linking ep => ep = [] ∨ fend = .ipc ∧ ep = z.ipc
  | .linked ep => accepts ep = true ∧ (ep = [] ∨ fend = .ipc ∧ ep = z.ipc)
  | _ => True

theorem Advances.fits {fend : Frontend} {c c' : Client} {ev : ClientEv}
    (h : Advances accepts fend c ev c') (hc : Fits z accepts fend c) : Fits z accepts fend c' := by
  cases h with
  | connect => exact of_decide_eq_true
  | caught hfend => exact fun _ => hfend
  | ask => exact hc rfl
  | hear rsp => exact .inr ⟨hc.1, receiveString_ipc hc.2⟩
  | link ep hep => exact ⟨hep, hc⟩
  | askThrow | giveUp | hearThrow => exact .inl rfl
  | _ => trivial

theorem Fits.tell {fend : Frontend} {c : Client} {rsp : Message} (hc : Fits z accepts fend c)
    (hfend : fend = .ipc)
    (hrsp : Control.handleCmd z.toEndpoints (request z .ipc).parts [] = .ok rsp) :
    Fits z accepts fend (c.tell rsp) := by
  cases c with
  | waiting => exact ⟨hfend, hrsp⟩
  | _ => exact hc

section Queue
variable {α β : Type*} {R : α → β → Prop} {as : List α} {bs : List β}

theorem forall₂_eraseIdx (h : List.Forall₂ R as bs) (n : Nat) :
    List.Forall₂ R (as.eraseIdx n) (bs.eraseIdx n) := by
  induction h generalizing n with
  | nil => exact .nil
  | cons hab htail ih =>
    cases n with
    | zero => exact htail
    | succ n => exact .cons hab (ih n)

theorem forall₂_getElem? {n : Nat} {a : α} {b : β} (h : List.Forall₂ R as bs)
    (ha : as[n]? = some a) (hb : bs[n]? = some b) : R a b := by
  obtain ⟨hn, rfl⟩ := List.getElem?_eq_some_iff.mp ha
  obtain ⟨hn', rfl⟩ := List.getElem?_eq_some_iff.mp hb
  exact h.get hn hn'

end Queue

def Asks (wants : ι → Frontend) (z : Zlogpull) (asker : Option ι) (m : Wire) : Prop :=
  ∀ i, asker = some i → wants i = .ipc ∧ m = request z .ipc

structure Told (wants : ι → Frontend) (accepts : Frame → Bool) (z : Zlogpull) (s : State ι) :
    Prop where
  flight : ∀ i, s.flight i = true → wants i = .ipc
  queue : List.Forall₂ (Asks wants z) s.askers (s.service.inbox .ctl)
  current : ∀ i, s.current = some (some i) →
    wants i = .ipc ∧ AtWork z (request z .ipc) (newest s.service)
  clients : ∀ i, Fits z accepts (wants i) (s.clients i)

theorem Told.client (hs : Told wants accepts z s) {ev : ClientEv} {c : Client}
    (h : Advances accepts (wants i) (s.clients i) ev c) :
    Told wants accepts z (s.advance i ev c) := by
  have hfits := h.fits (hs.clients i)
  refine ⟨fun j hj => ?_, hs.queue, hs.current, fun j => ?_⟩
  · by_cases hji : j = i
    · subst hji
      by_cases hask : ev = .ask
      · subst hask
        generalize s.clients j = before at h
        cases h
        exact hfits
      · exact hs.flight j (by simpa [State.advance, hask] using hj)
    · refine hs.flight j ?_
      by_cases hask : ev = .ask <;> simpa [State.advance, hask, hji] using hj
  · by_cases hji : j = i
    · subst hji
      simpa [State.advance] using hfits
    · simpa [State.advance, hji] using hs.clients j

theorem Told.reach (hs : Told wants accepts z s) (hflight : s.flight i = true)
    {r : Service.State} (h : Turns z s.service r (.arrive .ctl (request z (wants i)))) :
    Told wants accepts z
      { s with
        service := r
        flight := Function.update s.flight i false
        askers := s.askers ++ [some i] } := by
  have hwants := hs.flight i hflight
  cases h with
  | other _ ha => cases ha
  | comes _ hinbox hrep hpc =>
    refine ⟨fun j hj => ?_, ?_, fun j hj => ?_, hs.clients⟩
    · by_cases hji : j = i
      · subst hji
        exact hwants
      · exact hs.flight j (by simpa [hji] using hj)
    · have hasks : Asks wants z (some i) (request z (wants i)) := by
        intro j hj
        cases hj
        exact ⟨hwants, by rw [hwants]⟩
      simpa [hinbox] using List.rel_append hs.queue (.cons hasks .nil)
    · simpa [hpc] using hs.current j hj

theorem Told.serve (hs : Told wants accepts z s) {a : Service.Act} {r : Service.State}
    (h : Turns z s.service r a) : Told wants accepts z { s.turn a with service := r } := by
  cases h with
  | comes m hinbox hrep hpc =>
    refine ⟨hs.flight, ?_, fun i hi => ?_, hs.clients⟩
    · have hstranger : Asks wants z none m := fun i hi => by cases hi
      simpa [State.turn, hinbox] using List.rel_append hs.queue (.cons hstranger .nil)
    · simpa [hpc] using hs.current i hi
  | takes i n m rest hn hinbox hrep hrep' hpc =>
    refine ⟨hs.flight, ?_, fun j hj => ?_, hs.clients⟩
    · simpa [State.turn, hinbox] using forall₂_eraseIdx hs.queue n
    · obtain ⟨hwants, hm⟩ := forall₂_getElem? hs.queue hj hn j rfl
      refine ⟨hwants, ?_⟩
      rw [hpc]
      exact hm
  | sends i rsp rest hinbox hrep hrep' hpc hrsp =>
    refine ⟨hs.flight, ?_, fun j hj => ?_, fun j => ?_⟩
    · simpa [State.turn, State.answer, hinbox] using hs.queue
    · cases hj
    · by_cases hj : s.current = some (some j)
      · obtain ⟨hwants, hwork⟩ := hs.current j hj
        rw [hpc] at hwork
        simpa [State.turn, State.answer, hj] using (hs.clients j).tell hwants (hwork hrsp)
      · simpa [State.turn, State.answer, hj] using hs.clients j
  | other a ha hinbox hrep hpc =>
    rw [turn_other ha]
    refine ⟨hs.flight, ?_, fun i hi => ?_, hs.clients⟩
    · simpa [hinbox] using hs.queue
    · exact ⟨(hs.current i hi).1, hpc _ (hs.current i hi).2⟩

theorem told_of_reachable (hs : (discovery wants accepts z).Reachable s) :
    Told wants accepts z s := by
  refine hs.induction (I := Told wants accepts z) ?_ ?_
  · refine ⟨fun i hi => ?_, .nil, fun i hi => ?_, fun i => trivial⟩ <;> cases hi
  · intro s a t hreach ih hstep
    cases a with
    | client i ev =>
      obtain ⟨c, hadvances, rfl⟩ := step_client hstep
      exact ih.client hadvances
    | reach i =>
      obtain ⟨hflight, r, hturns, rfl⟩ := step_reach hreach hstep
      exact ih.reach hflight hturns
    | serve a =>
      obtain ⟨r, hturns, rfl⟩ := step_serve hreach hstep
      exact ih.serve hturns

theorem linked_ne_nil (hempty : accepts [] = false)
    (hs : (discovery wants accepts z).Reachable s) {ep : Frame}
    (hlinked : s.clients i = .linked ep) : ep ≠ [] := by
  rintro rfl
  have hfits := (told_of_reachable hs).clients i
  rw [hlinked] at hfits
  exact absurd hfits.1 (by simp [hempty])

/-- However the clients, the strangers and the service take turns, whoever the
requests before and behind its own come from and whatever they ask: a logger
that gets connected wanted ipc and is connected to the endpoint of the
service. -/
theorem linked_right (wants : ι → Frontend) (accepts : Frame → Bool) (z : Zlogpull)
    (hempty : accepts [] = false) (s : State ι) (hs : (discovery wants accepts z).Reachable s)
    (i : ι) (ep : Frame) (hlinked : s.clients i = .linked ep) : wants i = .ipc ∧ ep = z.ipc := by
  have hfits := (told_of_reachable hs).clients i
  rw [hlinked] at hfits
  exact hfits.2.resolve_left (linked_ne_nil hempty hs hlinked)

def nonempty (ep : Frame) : Bool := !ep.isEmpty

def bothIpc (_ : Bool) : Frontend := .ipc

def askTcp : Wire :=
  ⟨networkOrder.encode Command.getFrontend.code, [networkOrder.encode Frontend.tcp.code]⟩

def arrangements : List (Act Bool) :=
  [.serve (.run 0 (.bind .tcp true)), .serve (.run 0 (.bind .ipc true)),
    .serve (.run 0 (.bind .inp true)), .serve (.run 0 (.bind .ctl true)), .serve (.run 0 .setup),
    .serve (.run 0 (.test true)), .serve (.run 0 .pollBegin), .client true .construct,
    .client true (.connect true), .client true .ask]

def answers (m : Wire) (rsp : Message) : List (Act Bool) :=
  [.serve (.run 0 (.pollReturn [.sock .ctl])), .serve (.run 0 (.guard .ctl true)),
    .serve (.run 0 (.receive .ctl 0 m)), .serve (.run 0 .handleCmd), .serve (.run 0 (.send rsp)),
    .serve (.run 0 .pollEnd), .serve (.run 0 (.test true)), .serve (.run 0 .pollBegin)]

def secondInLine : List (Act Bool) :=
  arrangements ++ [.serve (.arrive .ctl askTcp), .reach true] ++
    answers askTcp [advertisedTcp, []] ++
    answers (request sample .ipc) [sample.ipc, []] ++
    [.client true .hear, .client true (.link true)]

theorem linked_right_secondInLine :
    ∃ s, (discovery bothIpc nonempty sample).run (discovery bothIpc nonempty sample).init
        secondInLine = some s ∧ s.clients true = .linked sample.ipc ∧
      bothIpc true = .ipc ∧ sample.ipc = sample.ipc :=
  ⟨_, rfl, rfl, linked_right bothIpc nonempty sample rfl _ ⟨secondInLine, rfl⟩ true _ rfl⟩

def early : Client → Bool
  | .fresh | .connecting | .asking _ => true
  | _ => false

/-- Has got a reply with something in it. -/
def heard : Client → Bool
  | .told _ => true
  | .linking ep => ep != []
  | .linked ep => ep != []
  | _ => false

def replies : Act ι → Bool
  | .serve (.run _ (.send _)) => true
  | _ => false

theorem Advances.early_of {fend : Frontend} {c c' : Client} {ev : ClientEv}
    (h : Advances accepts fend c ev c') (hc : early c' = true) : early c = true := by
  cases h <;> first | rfl | cases hc

theorem Advances.of_waiting {fend : Frontend} {c : Client} {ev : ClientEv}
    (h : Advances accepts fend c ev .waiting) : ev = .ask ∧ early c = true := by
  cases h
  exact ⟨rfl, rfl⟩

theorem Advances.of_ask {fend : Frontend} {c c' : Client}
    (h : Advances accepts fend c .ask c') : early c = true ∧ early c' = false := by
  cases h
  exact ⟨rfl, rfl⟩

theorem Advances.heard_of {fend : Frontend} {c c' : Client} {ev : ClientEv}
    (h : Advances accepts fend c ev c') (hc : heard c' = true) : heard c = true := by
  cases h <;> first | rfl | exact hc | cases hc

theorem early_tell (rsp : Message) (c : Client) : early (c.tell rsp) = early c := by
  cases c <;> rfl

theorem tell_ne_waiting (rsp : Message) (c : Client) : c.tell rsp ≠ .waiting := by
  cases c <;> simp [Client.tell]

omit [DecidableEq ι] in
theorem arrivals_append (acts later : List (Act ι)) :
    arrivals (acts ++ later) = arrivals acts ++ arrivals later :=
  List.flatMap_append

omit [DecidableEq ι] in
theorem arrivals_snoc (acts : List (Act ι)) (a : Act ι) :
    arrivals (acts ++ [a]) = arrivals acts ++ arrivalAt a := by
  simp [arrivals]

omit [DecidableEq ι] in
theorem arrivals_silent {acts : List (Act ι)} {a : Act ι} (h : arrivalAt a = []) :
    arrivals (acts ++ [a]) = arrivals acts := by
  rw [arrivals_snoc, h, List.append_nil]

/-- Where a client stands, among those that have been replied to and the rest
of those whose request has come to the queue. -/
structure Stands (answered rest : List (Option ι)) (i : ι) (flight : Bool) (c : Client) :
    Prop where
  once : (answered ++ rest).count (some i) + flight.toNat ≤ 1
  asked : flight = true ∨ some i ∈ answered ++ rest → early c = false
  waiting : c = .waiting → flight = true ∨ some i ∈ rest
  done : some i ∈ answered → c ≠ .waiting
  heard : heard c = true → some i ∈ answered

section Stands
variable {answered rest : List (Option ι)} {asker : Option ι} {flight : Bool} {c c' : Client}

theorem Stands.perm {rest' : List (Option ι)} (h : Stands answered rest i flight c)
    (hrest : rest.Perm rest') : Stands answered rest' i flight c := by
  have hall : (answered ++ rest).Perm (answered ++ rest') := hrest.append_left answered
  refine ⟨?_, fun hsent => h.asked (hsent.imp_right hall.mem_iff.mpr),
    fun hc => (h.waiting hc).imp_right hrest.mem_iff.mp, h.done, h.heard⟩
  rw [← hall.count_eq]
  exact h.once

theorem Stands.other (h : Stands answered rest i flight c) (hasker : asker ≠ some i) :
    Stands answered (rest ++ [asker]) i flight c := by
  obtain ⟨honce, hasked, hwaiting, hdone, hheard⟩ := h
  refine ⟨?_, ?_, ?_, hdone, hheard⟩
  · simpa [List.count_append, hasker] using honce
  · simpa [hasker.symm] using hasked
  · simpa [hasker.symm] using hwaiting

theorem Stands.reach (h : Stands answered rest i true c) :
    Stands answered (rest ++ [some i]) i false c := by
  obtain ⟨honce, hasked, hwaiting, hdone, hheard⟩ := h
  refine ⟨?_, fun _ => hasked (.inl rfl), fun _ => .inr (by simp), hdone, hheard⟩
  rw [← List.append_assoc, List.count_append]
  simpa using honce

theorem Stands.advance (h : Stands answered rest i flight c) {fend : Frontend} {ev : ClientEv}
    (hadvances : Advances accepts fend c ev c') (hask : ev ≠ .ask) :
    Stands answered rest i flight c' := by
  have hearly (hc : early c = false) : early c' = false := by
    by_contra hc'
    rw [hadvances.early_of (by simpa using hc')] at hc
    cases hc
  have hwaiting : c' ≠ .waiting := by
    rintro rfl
    exact hask hadvances.of_waiting.1
  exact ⟨h.once, fun hsent => hearly (h.asked hsent), fun hc' => absurd hc' hwaiting,
    fun _ => hwaiting, fun hc' => h.heard (hadvances.heard_of hc')⟩

theorem Stands.ask (h : Stands answered rest i flight c) {fend : Frontend}
    (hadvances : Advances accepts fend c .ask c') : Stands answered rest i true c' := by
  obtain ⟨hearly, hearly'⟩ := hadvances.of_ask
  have hnew : ¬ (flight = true ∨ some i ∈ answered ++ rest) := by
    intro hsent
    rw [h.asked hsent] at hearly
    cases hearly
  rw [not_or] at hnew
  refine ⟨?_, fun _ => hearly', fun _ => .inl rfl, fun hdone => ?_, fun hc' => ?_⟩
  · rw [List.count_eq_zero_of_not_mem hnew.2]
    decide
  · exact absurd (List.mem_append_left _ hdone) hnew.2
  · exact h.heard (hadvances.heard_of hc')

theorem Stands.answer_other (h : Stands answered (asker :: rest) i flight c)
    (hasker : asker ≠ some i) : Stands (answered ++ [asker]) rest i flight c := by
  obtain ⟨honce, hasked, hwaiting, hdone, hheard⟩ := h
  refine ⟨?_, ?_, ?_, ?_, ?_⟩
  · simpa using honce
  · simpa using hasked
  · simpa [hasker.symm] using hwaiting
  · simpa [hasker.symm] using hdone
  · simpa [hasker.symm] using hheard

theorem Stands.answer (h : Stands answered (some i :: rest) i flight c) (rsp : Message) :
    Stands (answered ++ [some i]) rest i flight (c.tell rsp) := by
  refine ⟨?_, fun _ => ?_, fun hc => ?_, fun _ => tell_ne_waiting rsp c, fun _ => ?_⟩
  · simpa using h.once
  · rw [early_tell]
    exact h.asked (.inr (by simp))
  · exact absurd hc (tell_ne_waiting rsp c)
  · exact List.mem_append_right _ List.mem_cons_self

end Stands

def told (s : State ι) : Act ι → List (Option ι)
  | .serve (.run _ (.send _)) => s.current.toList
  | _ => []

structure Accounted (acts : List (Act ι)) (s : State ι) (answered : List (Option ι)) : Prop where
  all : (arrivals acts).Perm (answered ++ (s.current.toList ++ s.askers))
  replied : answered.length = acts.countP replies
  queued : s.askers.length = (s.service.inbox .ctl).length
  turn : s.current.isSome = (s.service.rep == .sending)
  stands : ∀ i, Stands answered (s.current.toList ++ s.askers) i (s.flight i) (s.clients i)

section Accounted
variable {acts : List (Act ι)} {answered : List (Option ι)}

theorem Accounted.silent {a : Act ι} (h : told t a = []) (hs : Accounted acts s answered) :
    Accounted acts s (answered ++ told t a) := by
  rw [h, List.append_nil]
  exact hs

theorem Accounted.client (hs : Accounted acts s answered) {ev : ClientEv} {c : Client}
    (h : Advances accepts (wants i) (s.clients i) ev c) :
    Accounted (acts ++ [.client i ev]) (s.advance i ev c) answered := by
  refine ⟨?_, by simp [hs.replied, replies], hs.queued, hs.turn, fun j => ?_⟩
  · rw [arrivals_silent rfl]
    exact hs.all
  · have hstands := hs.stands j
    by_cases hji : j = i
    · subst hji
      by_cases hask : ev = .ask
      · subst hask
        simpa [State.advance] using hstands.ask h
      · simpa [State.advance, hask] using hstands.advance h hask
    · by_cases hask : ev = .ask <;> simpa [State.advance, hask, hji] using hstands

theorem Accounted.reach (hs : Accounted acts s answered) (hflight : s.flight i = true)
    {r : Service.State} (h : Turns z s.service r (.arrive .ctl (request z (wants i)))) :
    Accounted (acts ++ [.reach i])
      { s with
        service := r
        flight := Function.update s.flight i false
        askers := s.askers ++ [some i] } answered := by
  cases h with
  | other _ ha => cases ha
  | comes _ hinbox hrep _ =>
    refine ⟨?_, by simp [hs.replied, replies], ?_, ?_, fun j => ?_⟩
    · rw [arrivals_snoc]
      simpa [arrivalAt] using hs.all.append_right [some i]
    · simp [hinbox, hs.queued]
    · rw [hrep]
      exact hs.turn
    · have hstands := hs.stands j
      rw [← List.append_assoc]
      by_cases hji : j = i
      · subst hji
        rw [hflight] at hstands
        simpa using hstands.reach
      · have hother : some i ≠ some j := by simpa using Ne.symm hji
        simpa [hji] using hstands.other hother

theorem Accounted.serve (hs : Accounted acts s answered) {a : Service.Act} {r : Service.State}
    (h : Turns z s.service r a) :
    Accounted (acts ++ [.serve a]) { s.turn a with service := r }
      (answered ++ told s (.serve a)) := by
  obtain ⟨hall, hreplied, hqueued, hturn, hstands⟩ := hs
  cases h with
  | comes m hinbox hrep hpc =>
    refine .silent rfl ⟨?_, by simp [hreplied, replies], ?_, ?_, fun j => ?_⟩
    · rw [arrivals_snoc]
      simpa [State.turn, arrivalAt] using hall.append_right [none]
    · simp [State.turn, hinbox, hqueued]
    · rw [hrep]
      exact hturn
    · have hother : none ≠ some j := by simp
      simpa [State.turn] using (hstands j).other hother
  | takes i n m rest hn hinbox hrep hrep' hpc =>
    have hcurrent : s.current = none := by
      rw [hrep] at hturn
      exact Option.not_isSome_iff_eq_none.mp (by simp [hturn])
    have hlt : n < s.askers.length := hqueued ▸ (List.getElem?_eq_some_iff.mp hn).1
    have hasker : s.askers[n]? = some s.askers[n] := List.getElem?_eq_getElem hlt
    -- Whichever request is taken, the same ones are left to be replied to.
    have hpick : s.askers.Perm (s.askers[n] :: s.askers.eraseIdx n) :=
      (List.getElem_cons_eraseIdx_perm hlt).symm
    rw [hcurrent] at hall hstands
    refine .silent rfl ⟨?_, by simp [hreplied, replies], ?_, ?_, fun j => ?_⟩
    · rw [arrivals_silent rfl]
      simpa [State.turn, hasker] using hall.trans (hpick.append_left answered)
    · simp [State.turn, hinbox, List.length_eraseIdx, hqueued]
    · simp [State.turn, hasker, hrep']
    · simpa [State.turn, hasker] using (hstands j).perm hpick
  | sends i rsp rest hinbox hrep hrep' hpc hrsp =>
    have hcurrent : s.current.isSome = true := by simp [hturn, hrep]
    obtain ⟨asker, hasker⟩ := Option.isSome_iff_exists.mp hcurrent
    rw [hasker] at hall hstands
    have htold : told s (.serve (.run i (.send rsp))) = [asker] := congrArg Option.toList hasker
    rw [htold]
    refine ⟨?_, by simp [hreplied, replies], ?_, ?_, fun j => ?_⟩
    · rw [arrivals_silent rfl]
      simpa [State.turn, State.answer] using hall
    · simpa [State.turn, State.answer, hinbox] using hqueued
    · simp [State.turn, State.answer, hrep']
    · by_cases hj : asker = some j
      · subst hj
        simpa [State.turn, State.answer, hasker] using (hstands j).answer rsp
      · simpa [State.turn, State.answer, hasker, hj] using (hstands j).answer_other hj
  | other a ha hinbox hrep hpc =>
    have hsilent : told s (.serve a) = [] ∧ replies (.serve a : Act ι) = false := by
      cases a with
      | run i ev =>
        cases ev with
        | send rsp => cases ha
        | _ => exact ⟨rfl, rfl⟩
      | _ => exact ⟨rfl, rfl⟩
    rw [turn_other ha]
    refine .silent hsilent.1 ⟨?_, by simp [hreplied, hsilent.2], ?_, ?_, hstands⟩
    · rw [arrivals_silent (arrivalAt_other ha)]
      exact hall
    · rw [hinbox]
      exact hqueued
    · rw [hrep]
      exact hturn

theorem accounted_of_run
    (h : (discovery wants accepts z).run (discovery wants accepts z).init acts = some s) :
    Accounted acts s
      ((discovery wants accepts z).record told (discovery wants accepts z).init acts) := by
  refine run_induction (M := discovery wants accepts z)
    (I := fun acts s => Accounted acts s
      ((discovery wants accepts z).record told (discovery wants accepts z).init acts))
    ?_ ?_ acts s h
  · refine ⟨.refl _, rfl, rfl, rfl, fun i => ⟨by simp [discovery, Machine.record], ?_, ?_, ?_, ?_⟩⟩
      <;> simp [discovery, Machine.record, early, heard]
  · intro acts s a t hrun hs hstep
    rw [record_snoc hrun]
    cases a with
    | client i ev =>
      obtain ⟨c, hadvances, rfl⟩ := step_client hstep
      exact .silent rfl (hs.client hadvances)
    | reach i =>
      obtain ⟨hflight, r, hturns, rfl⟩ := step_reach ⟨acts, hrun⟩ hstep
      exact .silent rfl (hs.reach hflight hturns)
    | serve a =>
      obtain ⟨r, hturns, rfl⟩ := step_serve ⟨acts, hrun⟩ hstep
      exact hs.serve hturns

theorem Accounted.rest_length (hs : Accounted acts s answered) :
    (s.current.toList ++ s.askers).length =
      (s.service.inbox .ctl).length + (s.service.rep == .sending).toNat := by
  rw [List.length_append, hs.queued, ← hs.turn, Nat.add_comm]
  cases s.current <;> rfl

end Accounted

/-- Every request that came is replied to at most once, and the reply goes to
the one that sent it, in whichever order the reply socket takes them; the
others are in the queue or in hand. A client that waits has its one request on
the way or among those, and none that is replied to waits on. -/
theorem answered_once (wants : ι → Frontend) (accepts : Frame → Bool) (z : Zlogpull)
    (acts : List (Act ι)) (s : State ι)
    (h : (discovery wants accepts z).run (discovery wants accepts z).init acts = some s) :
    let answered := (discovery wants accepts z).record told (discovery wants accepts z).init acts
    let rest := s.current.toList ++ s.askers
    (arrivals acts).Perm (answered ++ rest) ∧ answered.length = acts.countP replies ∧
      rest.length = (s.service.inbox .ctl).length + (s.service.rep == .sending).toNat ∧
      ∀ i, Stands answered rest i (s.flight i) (s.clients i) := by
  have hs := accounted_of_run h
  exact ⟨hs.all, hs.replied, hs.rest_length, hs.stands⟩

def passedOver : List (Act Bool) :=
  arrangements ++ [.serve (.arrive .ctl askTcp), .reach true,
    .serve (.run 0 (.pollReturn [.sock .ctl])), .serve (.run 0 (.guard .ctl true)),
    .serve (.run 0 (.receive .ctl 1 (request sample .ipc))), .serve (.run 0 .handleCmd),
    .serve (.run 0 (.send [sample.ipc, []])), .client true .hear]

theorem answered_once_passedOver :
    ∃ s, (discovery bothIpc nonempty sample).run (discovery bothIpc nonempty sample).init
        passedOver = some s ∧
      (arrivals passedOver).Perm ([some true] ++ [none]) ∧ s.askers = [none] ∧
      ∀ i, Stands [some true] [none] i (s.flight i) (s.clients i) := by
  have hanswered := answered_once bothIpc nonempty sample passedOver _ rfl
  exact ⟨_, rfl, hanswered.1, rfl, hanswered.2.2.2⟩

theorem turn_clients {a : Service.Act} (h : exchanged a = []) : (s.turn a).clients = s.clients := by
  cases a with
  | arrive k m => cases k <;> rfl
  | run i ev =>
    cases ev with
    | receive k n m => cases k <;> rfl
    | send rsp => cases h
    | _ => rfl
  | owner ev => rfl

theorem unheard_step {acts : List (Act ι)} {a : Act ι}
    (hrun : (discovery wants accepts z).run (discovery wants accepts z).init acts = some s)
    (hdisorder : ¬ Orderly z (acts.flatMap (serving wants z)))
    (h : (discovery wants accepts z).step s a = some t) (hunheard : heard (s.clients i) = false) :
    heard (t.clients i) = false := by
  cases a with
  | client j ev =>
    obtain ⟨c, hadvances, rfl⟩ := step_client h
    by_cases hij : i = j
    · subst hij
      by_contra hheard
      rw [hadvances.heard_of (by simpa [State.advance] using hheard)] at hunheard
      cases hunheard
    · simpa [State.advance, hij] using hunheard
  | reach j =>
    obtain ⟨-, r, -, rfl⟩ := step_reach ⟨acts, hrun⟩ h
    exact hunheard
  | serve a =>
    obtain ⟨r, hstep, rfl⟩ := Option.map_eq_some_iff.mp h
    have hsilent := exchanged_of_disorder ((ontoService wants accepts z).run hrun) hdisorder hstep
    simpa [turn_clients hsilent] using hunheard

/-- One request that cannot be decoded, whoever sends it, or one failed send
of a reply, and no logger that asks for its frontend and has not got its
endpoint by then is ever connected, however often the service is stopped and
started again. -/
theorem locked_out (wants : ι → Frontend) (accepts : Frame → Bool) (z : Zlogpull)
    (hempty : accepts [] = false) (acts later : List (Act ι)) (s t : State ι)
    (h : (discovery wants accepts z).run (discovery wants accepts z).init acts = some s)
    (hdisorder : ¬ Orderly z (acts.flatMap (serving wants z)))
    (hlater : (discovery wants accepts z).run s later = some t) (i : ι)
    (hunheard : heard (s.clients i) = false) (ep : Frame) : t.clients i ≠ .linked ep := by
  have hstays : heard (t.clients i) = false := by
    refine run_induction (M := discovery wants accepts z)
      (I := fun _ t => heard (t.clients i) = false) hunheard ?_ later t hlater
    intro later t a u ht ih hstep
    have hrun := (run_append_eq_some _).mpr ⟨s, h, ht⟩
    refine unheard_step hrun (fun horderly => hdisorder ?_) hstep ih
    rw [List.flatMap_append] at horderly
    exact horderly.of_append
  intro hlinked
  have hreach : (discovery wants accepts z).Reachable t :=
    Machine.Reachable.run ⟨acts, h⟩ hlater
  rw [hlinked] at hstays
  exact linked_ne_nil hempty hreach hlinked (by simpa [heard] using hstays)

def badRequest : List (Act Bool) :=
  arrangements ++ [.serve (.arrive .ctl askNothing), .reach true,
    .serve (.run 0 (.pollReturn [.sock .ctl])), .serve (.run 0 (.guard .ctl true)),
    .serve (.run 0 (.receive .ctl 0 askNothing)), .serve (.run 0 .handleCmd)]

def giveUp : List (Act Bool) :=
  [.client true .hearThrow, .client true (.link false)]

theorem locked_out_badRequest :
    ∃ s t, (discovery bothIpc nonempty sample).run (discovery bothIpc nonempty sample).init
        badRequest = some s ∧
      (discovery bothIpc nonempty sample).run s giveUp = some t ∧
      t.clients true ≠ .linked sample.ipc := by
  have hdisorder : ¬ Orderly sample (badRequest.flatMap (serving bothIpc sample)) := by
    intro horderly
    have hdecodes := horderly.decodes askNothing
      (by simp [badRequest, arrangements, serving, exchanges, exchanged])
    exact absurd (handleCmd_of_decodes sample.toEndpoints askNothing.parts [] hdecodes) (by decide)
  exact ⟨_, _, rfl, rfl,
    locked_out bothIpc nonempty sample rfl badRequest giveUp _ _ rfl hdisorder rfl true rfl _⟩

end Zmqlog.Discovery
