import Zmqlog.Delivery
import Zmqlog.Logger

/-! Any number of loggers around one service, in its process or in others. A
frame that `m_push.send` accepts travels on its logger's own connection until
it comes to the queue of a pull socket, to which strangers may append too. -/
namespace Zmqlog.Network
open Transition Exclusion Zmqpp Control Service Delivery
open Logger (Formatted logger clean)

universe u v w
variable {ι : Type u} [DecidableEq ι] {τ : Type v} [DecidableEq τ] {χ : Type w}

/-- A logger as it was constructed: `zlogst` or `zlogmt`, and connected. -/
structure Peer (χ : Type w) where
  lock : Lock
  format : χ → Formatted
  sock : Sock
  pulled : sock ≠ .ctl

structure State (ι : Type u) (τ : Type v) (χ : Type w) where
  loggers : ι → Logger.State τ χ
  flight : ι → List Frame
  service : Service.State

inductive Act (ι : Type u) (τ : Type v) (χ : Type w)
  | log (i : ι) (a : τ × Logger.Ev χ)
  | deliver (i : ι) (frame : Frame)
  | serve (a : Service.Act)

def accepted : τ × Logger.Ev χ → List Frame
  | (_, .send frame .accepted) => [frame]
  | _ => []

def network (peers : ι → Peer χ) (z : Zlogpull) : Machine (State ι τ χ) (Act ι τ χ) where
  init := ⟨fun i => (logger (peers i).lock (peers i).format).init, fun _ => [], (service z).init⟩
  step s
    | .log i a =>
      ((logger (peers i).lock (peers i).format).step (s.loggers i) a).map fun l =>
        { s with
          loggers := Function.update s.loggers i l
          flight := Function.update s.flight i (s.flight i ++ accepted a) }
    | .deliver i frame =>
      if (s.flight i).head? = some frame then
        ((service z).step s.service (.arrive (peers i).sock ⟨frame, []⟩)).map fun service =>
          { s with service, flight := Function.update s.flight i (s.flight i).tail }
      else none
    -- What arrives by such a step comes from none of the loggers.
    | .serve a => ((service z).step s.service a).map fun service => { s with service }

theorem step_log {peers : ι → Peer χ} {z : Zlogpull} {s t : State ι τ χ} {i : ι}
    {a : τ × Logger.Ev χ} (h : (network peers z).step s (.log i a) = some t) :
    ∃ l, (logger (peers i).lock (peers i).format).step (s.loggers i) a = some l ∧
      { s with
        loggers := Function.update s.loggers i l
        flight := Function.update s.flight i (s.flight i ++ accepted a) } = t :=
  Option.map_eq_some_iff.mp h

theorem step_deliver {peers : ι → Peer χ} {z : Zlogpull} {s t : State ι τ χ} {i : ι}
    {frame : Frame} (h : (network peers z).step s (.deliver i frame) = some t) :
    frame :: (s.flight i).tail = s.flight i ∧
      ∃ r, (service z).step s.service (.arrive (peers i).sock ⟨frame, []⟩) = some r ∧
        { s with service := r, flight := Function.update s.flight i (s.flight i).tail } = t := by
  simp only [network, Option.ite_none_right_eq_some, Option.map_eq_some_iff] at h
  exact ⟨List.cons_head?_tail (Option.mem_def.mpr h.1), h.2⟩

theorem step_serve {peers : ι → Peer χ} {z : Zlogpull} {s t : State ι τ χ} {a : Service.Act}
    (h : (network peers z).step s (.serve a) = some t) :
    ∃ r, (service z).step s.service a = some r ∧ { s with service := r } = t :=
  Option.map_eq_some_iff.mp h

def logging (i : ι) : Act ι τ χ → List (τ × Logger.Ev χ)
  | .log j a => if j = i then [a] else []
  | _ => []

def serving (peers : ι → Peer χ) : Act ι τ χ → List Service.Act
  | .deliver i frame => [.arrive (peers i).sock ⟨frame, []⟩]
  | .serve a => [a]
  | .log _ _ => []

def ontoLogger (peers : ι → Peer χ) (z : Zlogpull) (i : ι) :
    Simulation (network peers z : Machine (State ι τ χ) (Act ι τ χ))
      (logger (peers i).lock (peers i).format : Machine (Logger.State τ χ) (τ × Logger.Ev χ)) where
  abs := fun s => s.loggers i
  obs := logging i
  init := rfl
  step := by
    intro s a t _ h
    cases a with
    | log j a =>
      obtain ⟨l, hstep, rfl⟩ := step_log h
      by_cases hj : j = i
      · subst hj
        simpa [logging] using hstep
      · simp [logging, hj, Ne.symm hj]
    | deliver j frame =>
      obtain ⟨-, service, -, rfl⟩ := step_deliver h
      rfl
    | serve a =>
      obtain ⟨service, -, rfl⟩ := step_serve h
      rfl

def ontoService (peers : ι → Peer χ) (z : Zlogpull) :
    Simulation (network peers z : Machine (State ι τ χ) (Act ι τ χ)) (service z) where
  abs := State.service
  obs := serving peers
  init := rfl
  step := by
    intro s a t _ h
    cases a with
    | log i a =>
      obtain ⟨l, -, rfl⟩ := step_log h
      rfl
    | deliver i frame =>
      obtain ⟨-, service, hstep, rfl⟩ := step_deliver h
      rw [serving, run_singleton]
      exact hstep
    | serve a =>
      obtain ⟨service, hstep, rfl⟩ := step_serve h
      rw [serving, run_singleton]
      exact hstep

def deliveredAt (peers : ι → Peer χ) (k : Sock) : Act ι τ χ → List (Option ι × Frame)
  | .deliver i frame => if (peers i).sock = k then [(some i, frame)] else []
  | .serve (.arrive j m) => if j = k then [(none, m.first)] else []
  | _ => []

def delivered (peers : ι → Peer χ) (k : Sock) (acts : List (Act ι τ χ)) : List (Option ι × Frame) :=
  acts.flatMap (deliveredAt peers k)

def ofLogger (i : ι) (frames : List (Option ι × Frame)) : List Frame :=
  (frames.filter fun p => p.1 = some i).map Prod.snd

@[simp] theorem ofLogger_append (i : ι) (as bs : List (Option ι × Frame)) :
    ofLogger i (as ++ bs) = ofLogger i as ++ ofLogger i bs := by
  rw [ofLogger, List.filter_append, List.map_append]
  rfl

omit [DecidableEq ι] [DecidableEq τ] in
theorem arrived_serving (peers : ι → Peer χ) (k : Sock) (acts : List (Act ι τ χ)) :
    arrived k (acts.flatMap (serving peers)) = (delivered peers k acts).map Prod.snd := by
  rw [arrived, List.flatMap_assoc, delivered, List.map_flatMap]
  congr 1
  funext a
  cases a with
  | log i a => rfl
  | deliver i frame =>
    by_cases hk : (peers i).sock = k <;> simp [serving, deliveredAt, arrivedAt, hk]
  | serve a =>
    cases a with
    | arrive j m => by_cases hj : j = k <;> simp [serving, deliveredAt, arrivedAt, hj]
    | _ => rfl

theorem flight_step {peers : ι → Peer χ} {z : Zlogpull} {s t : State ι τ χ} {a : Act ι τ χ}
    (h : (network peers z).step s a = some t) (i : ι) :
    s.flight i ++ (logging i a).flatMap accepted =
      ofLogger i (deliveredAt peers (peers i).sock a) ++ t.flight i := by
  cases a with
  | log j a =>
    obtain ⟨l, -, rfl⟩ := step_log h
    by_cases hj : j = i
    · subst hj
      simp [logging, deliveredAt, ofLogger]
    · simp [logging, deliveredAt, ofLogger, hj, Ne.symm hj]
  | deliver j frame =>
    obtain ⟨hflight, service, -, rfl⟩ := step_deliver h
    by_cases hj : j = i
    · subst hj
      simpa [logging, deliveredAt, ofLogger] using hflight.symm
    · by_cases hsock : (peers j).sock = (peers i).sock <;>
        simp [logging, deliveredAt, ofLogger, hj, Ne.symm hj, hsock]
  | serve a =>
    obtain ⟨service, -, rfl⟩ := step_serve h
    cases a with
    | arrive k m =>
      by_cases hk : k = (peers i).sock <;> simp [logging, deliveredAt, ofLogger, hk]
    | _ => simp [logging, deliveredAt, ofLogger]

theorem flight_eq {peers : ι → Peer χ} {z : Zlogpull} {acts : List (Act ι τ χ)} {s : State ι τ χ}
    (h : (network peers z).run (network peers z).init acts = some s) (i : ι) :
    (acts.flatMap (logging i)).flatMap accepted =
      ofLogger i (delivered peers (peers i).sock acts) ++ s.flight i := by
  refine run_induction (M := network peers z)
    (I := fun acts s => (acts.flatMap (logging i)).flatMap accepted =
      ofLogger i (delivered peers (peers i).sock acts) ++ s.flight i) rfl ?_ acts s h
  intro acts s a t _ ih hstep
  have hflight := flight_step hstep i
  simp only [delivered, List.flatMap_append, List.flatMap_singleton, ofLogger_append] at ih ⊢
  rw [ih, List.append_assoc, hflight, ← List.append_assoc]

theorem accepted_text {L : Lock} {format : χ → Formatted} {acts : List (τ × Logger.Ev χ)}
    {s : Logger.State τ χ} (h : (logger L format).run (logger L format).init acts = some s)
    (hserial : Serial L (acts.map Prod.fst))
    (hclean : (logger L format).Steps (fun s a => clean format s a = true)
      (logger L format).init acts) :
    ∀ frame ∈ acts.flatMap accepted, ∃ t c, (t, .call c) ∈ acts ∧ format c = .done frame := by
  intro frame hframe
  have hisolated := (Logger.isolated_of_clean hserial h hclean).2
  obtain ⟨⟨t, ev⟩, hmem, hframe'⟩ := List.mem_flatMap.mp hframe
  unfold accepted at hframe'
  split at hframe'
  · rename_i t' frame' heq
    cases heq
    cases List.mem_singleton.mp hframe'
    exact ⟨t, Logger.send_mem h hisolated hmem⟩
  · cases hframe'

/-- A merge of what the loggers of a socket have had accepted, and of what
strangers send: `lines` are printed and `waiting` are in the service. -/
structure Merge (peers : ι → Peer χ) (acts : List (Act ι τ χ)) (s : State ι τ χ) (k : Sock)
    (lines waiting : List (Option ι × Frame)) : Prop where
  split : lines ++ waiting = delivered peers k acts
  printed : lines.map Prod.snd = Delivery.printed k (acts.flatMap (serving peers))
  queued : waiting.map Prod.snd =
    (inHand s.service k).toList ++ (s.service.inbox k).map Wire.first
  kept : ∀ i, (peers i).sock = k → (acts.flatMap (logging i)).flatMap accepted =
    ofLogger i lines ++ ofLogger i waiting ++ s.flight i

/-- `route()` prints such a merge: of each logger the printed lines, the
frames that wait in the service and those on the way are together what was
accepted, in this order. Where no call of a logger throws with text in the
writer, each of its lines is the text of one of its calls. -/
theorem merged (peers : ι → Peer χ) (z : Zlogpull) (acts : List (Act ι τ χ)) (s : State ι τ χ)
    (h : (network peers z).run (network peers z).init acts = some s) (k : Sock) (hk : k ≠ .ctl) :
    ∃ lines waiting, Merge peers acts s k lines waiting ∧
      ∀ i, (peers i).sock = k →
        Serial (peers i).lock ((acts.flatMap (logging i)).map Prod.fst) →
          (logger (peers i).lock (peers i).format).Steps
              (fun s a => clean (peers i).format s a = true)
              (logger (peers i).lock (peers i).format).init (acts.flatMap (logging i)) →
            ∀ line ∈ ofLogger i lines, ∃ t c, (t, .call c) ∈ acts.flatMap (logging i) ∧
              (peers i).format c = .done line := by
  have hservice := arrived_eq ((ontoService peers z).run h) hk
  rw [ontoService, arrived_serving, List.append_assoc] at hservice
  obtain ⟨lines, waiting, hsplit, hlines, hwaiting⟩ := List.map_eq_append_iff.mp hservice
  have hkept : ∀ i, (peers i).sock = k → (acts.flatMap (logging i)).flatMap accepted =
      ofLogger i lines ++ ofLogger i waiting ++ s.flight i := by
    intro i hi
    have hflow := flight_eq h i
    rwa [hi, hsplit, ofLogger_append] at hflow
  refine ⟨lines, waiting, ⟨hsplit.symm, hlines, hwaiting, hkept⟩, ?_⟩
  intro i hi hserial hclean line hline
  apply accepted_text ((ontoLogger peers z i).run h) hserial hclean
  rw [show acts.flatMap (ontoLogger peers z i).obs = acts.flatMap (logging i) from rfl, hkept i hi]
  exact List.mem_append_left _ (List.mem_append_left _ hline)

def twoPeers (i : Bool) : Peer Formatted where
  lock := if i then .mutex else .null
  format := id
  sock := .inp
  pulled := by decide

def twoLines : List (Act Bool Nat Formatted) :=
  [.serve (.run 0 (.bind .tcp true)), .serve (.run 0 (.bind .ipc true)),
    .serve (.run 0 (.bind .inp true)), .serve (.run 0 (.bind .ctl true)), .serve (.run 0 .setup),
    .serve (.run 0 (.test true)), .serve (.run 0 .pollBegin),
    .log true (0, .call (.done [97])), .log true (0, .lock), .log true (0, .write),
    .log true (0, .send [97] .accepted), .log false (0, .call (.done [98])),
    .log false (0, .lock), .log false (0, .write), .log false (0, .send [98] .accepted),
    .deliver false [98], .deliver true [97], .serve (.run 0 (.pollReturn [.sock .inp])),
    .serve (.run 0 (.guard .inp true)), .serve (.run 0 (.receive .inp 0 ⟨[98], []⟩)),
    .serve (.run 0 (.route .inp [98]))]

theorem merged_twoLines :
    ∃ s, (network twoPeers sample).run (network twoPeers sample).init twoLines = some s ∧
      delivered twoPeers .inp twoLines = [(some false, [98]), (some true, [97])] ∧
      ∃ lines waiting, Merge twoPeers twoLines s .inp lines waiting := by
  obtain ⟨lines, waiting, hmerge, -⟩ := merged twoPeers sample twoLines _ rfl .inp (by decide)
  exact ⟨_, rfl, rfl, lines, waiting, hmerge⟩

end Zmqlog.Network
