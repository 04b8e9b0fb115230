import Zmqlog.Zmqpp

/-! The control channel's request and reply: `zlogpull::handle_cmd` on the
service's side and `zlog::get_frontend` on the client's. -/
namespace Zmqlog.Control
open Zmqpp

inductive Command
  | getFrontend
deriving DecidableEq

def Command.code : Command → BitVec 32
  | .getFrontend => 1

inductive Frontend
  | inproc
  | ipc
  | tcp
deriving DecidableEq

def Frontend.code : Frontend → BitVec 32
  | .inproc => 1
  | .ipc => 2
  | .tcp => 4

/-- What `handle_cmd` reads of a `zlogpull`, and how its zmqpp writes integers. -/
structure Endpoints where
  codec : IntCodec
  ipc : Frame

def sampleEndpoints : Endpoints := ⟨networkOrder, text "ipc:///tmp/z_0"⟩

def advertisedTcp : Frame := text "tcp://192.168.255.251:33353"

/-- `static_cast<command>(n)` keeps the integer, so codes are compared. The
inner tests are two separate `if`s and append to `rsp` one after the other. -/
def handleCmd (z : Endpoints) (req rsp : Message) : Except Fault Message := do
  let cmd ← Message.get z.codec req 0
  let rsp ←
    if cmd = Command.getFrontend.code then do
      let fend ← Message.get z.codec req 1
      let rsp := if fend = Frontend.ipc.code then rsp ++ [z.ipc] else rsp
      let rsp := if fend = Frontend.tcp.code then rsp ++ [advertisedTcp] else rsp
      pure rsp
    else pure rsp
  -- No `break` closes the case: it runs on into `default`.
  pure (rsp ++ [[]])

/-- Both integer parts that the command needs are there. -/
def Decodes (C : IntCodec) (req : Message) : Prop :=
  ∃ cmd, Message.get C req 0 = .ok cmd ∧
    (cmd = Command.getFrontend.code → ∃ fend, Message.get C req 1 = .ok fend)

def AsksEndpoint (C : IntCodec) (req : Message) : Prop :=
  Message.get C req 0 = .ok Command.getFrontend.code ∧
    (Message.get C req 1 = .ok Frontend.ipc.code ∨
      Message.get C req 1 = .ok Frontend.tcp.code)

/-- The frames that the inner tests of the case put before the default one. -/
def endpointFrames (z : Endpoints) (req : Message) : Message :=
  if Message.get z.codec req 0 = .ok Command.getFrontend.code then
    if Message.get z.codec req 1 = .ok Frontend.ipc.code then [z.ipc]
    else if Message.get z.codec req 1 = .ok Frontend.tcp.code then [advertisedTcp]
    else []
  else []

theorem handleCmd_of_decodes (z : Endpoints) (req rsp : Message)
    (h : Decodes z.codec req) :
    handleCmd z req rsp = .ok (rsp ++ endpointFrames z req ++ [[]]) := by
  obtain ⟨cmd, hcmd, hfend⟩ := h
  unfold handleCmd endpointFrames
  rw [hcmd]
  by_cases hget : cmd = Command.getFrontend.code
  · obtain ⟨fend, hfend⟩ := hfend hget
    rw [hfend, hget]
    by_cases hipc : fend = Frontend.ipc.code
    · subst hipc
      simp [bind, Except.bind, pure, Except.pure, Frontend.code]
    · by_cases htcp : fend = Frontend.tcp.code
      · subst htcp
        simp [bind, Except.bind, pure, Except.pure, Frontend.code]
      · simp [bind, Except.bind, pure, Except.pure, hipc, htcp]
  · simp [bind, Except.bind, pure, Except.pure, hget]

theorem handleCmd_of_not_decodes (z : Endpoints) (req rsp : Message)
    (h : ¬ Decodes z.codec req) : handleCmd z req rsp = .error .zmqpp := by
  unfold handleCmd
  cases hcmd : Message.get z.codec req 0 with
  | error f =>
    rw [Message.get_error hcmd]
    rfl
  | ok cmd =>
    by_cases hget : cmd = Command.getFrontend.code
    · cases hfend : Message.get z.codec req 1 with
      | error f =>
        rw [Message.get_error hfend]
        simp [bind, Except.bind, hget]
      | ok fend => exact absurd ⟨cmd, hcmd, fun _ => ⟨fend, hfend⟩⟩ h
    · exact absurd ⟨cmd, hcmd, fun heq => absurd heq hget⟩ h

theorem handleCmd_eq_ok {z : Endpoints} {req rsp out : Message} :
    handleCmd z req rsp = .ok out ↔
      Decodes z.codec req ∧ out = rsp ++ endpointFrames z req ++ [[]] := by
  by_cases h : Decodes z.codec req
  · rw [handleCmd_of_decodes z req rsp h]
    simp [h, eq_comm]
  · rw [handleCmd_of_not_decodes z req rsp h]
    simp [h]

theorem handleCmd_error {z : Endpoints} {req rsp : Message} {f : Fault}
    (h : handleCmd z req rsp = .error f) : f = .zmqpp := by
  by_cases hd : Decodes z.codec req
  · rw [handleCmd_of_decodes z req rsp hd] at h
    cases h
  · rw [handleCmd_of_not_decodes z req rsp hd] at h
    exact (Except.error.inj h).symm

theorem handleCmd_ne_nil {z : Endpoints} {req rsp out : Message}
    (h : handleCmd z req rsp = .ok out) : out ≠ [] := by
  rw [(handleCmd_eq_ok.mp h).2]
  simp

theorem endpointFrames_length (z : Endpoints) (req : Message)
    [Decidable (AsksEndpoint z.codec req)] :
    (endpointFrames z req).length = if AsksEndpoint z.codec req then 1 else 0 := by
  unfold endpointFrames AsksEndpoint
  split
  · rename_i hcmd
    split
    · rename_i hipc
      simp [hcmd, hipc]
    · split
      · rename_i htcp
        simp [hcmd, htcp]
      · rename_i hipc htcp
        simp [hcmd, hipc, htcp]
  · rename_i hcmd
    simp [hcmd]

theorem endpointFrames_eq_nil {z : Endpoints} {req : Message} :
    endpointFrames z req = [] ↔ ¬ AsksEndpoint z.codec req := by
  classical
  rw [← List.length_eq_zero_iff, endpointFrames_length]
  split <;> simp_all

/-! The reply a client is to get: one frame, with the endpoint where one is
asked for and with nothing in it otherwise. -/

section Format
variable (z : Endpoints) (tcpAddress : Frame)

def specifiedReply (req : Message) : Frame :=
  if Message.get z.codec req 0 = .ok Command.getFrontend.code then
    if Message.get z.codec req 1 = .ok Frontend.ipc.code then z.ipc
    else if Message.get z.codec req 1 = .ok Frontend.tcp.code then tcpAddress
    else []
  else []

def WellFormedReply (req rsp : Message) : Prop :=
  rsp = [specifiedReply z tcpAddress req] ∧ rsp = [receiveString rsp]

end Format

theorem specifiedReply_of_not_asks {z : Endpoints} {tcpAddress : Frame} {req : Message}
    (h : ¬ AsksEndpoint z.codec req) : specifiedReply z tcpAddress req = [] := by
  unfold AsksEndpoint at h
  unfold specifiedReply
  grind

/-- Where an endpoint is asked for, the default case adds its own frame to the
answer; everywhere else the default frame is the whole reply. -/
theorem reply_format_iff (z : Endpoints) (tcpAddress : Frame) (req rsp : Message)
    (h : handleCmd z req [] = .ok rsp) :
    WellFormedReply z tcpAddress req rsp ↔ ¬ AsksEndpoint z.codec req := by
  obtain ⟨-, rfl⟩ := handleCmd_eq_ok.mp h
  constructor
  · rintro ⟨hreply, -⟩ hasks
    classical
    have hlength := congrArg List.length hreply
    simp [endpointFrames_length, hasks] at hlength
  · intro hasks
    have hframes := endpointFrames_eq_nil.mpr hasks
    constructor
    · rw [hframes, specifiedReply_of_not_asks hasks]
      rfl
    · rw [hframes]
      rfl

theorem reply_format_unknown :
    handleCmd sampleEndpoints [networkOrder.encode 7] [] = .ok [[]] ∧
      (WellFormedReply sampleEndpoints advertisedTcp
          [networkOrder.encode 7] [[]] ↔
        ¬ AsksEndpoint networkOrder [networkOrder.encode 7]) :=
  ⟨by decide, reply_format_iff _ _ _ _ (by decide)⟩

def frontendRequest (C : IntCodec) (fend : Frontend) : Message :=
  [C.encode Command.getFrontend.code, C.encode fend.code]

theorem reply_format_ipc :
    handleCmd sampleEndpoints (frontendRequest networkOrder .ipc) [] =
        .ok [sampleEndpoints.ipc, []] ∧
      ¬ WellFormedReply sampleEndpoints advertisedTcp
        (frontendRequest networkOrder .ipc) [sampleEndpoints.ipc, []] := by
  refine ⟨by decide, fun h => ?_⟩
  have hlength := congrArg List.length h.1
  simp at hlength

end Zmqlog.Control
