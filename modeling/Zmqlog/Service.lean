import Mathlib.Logic.Function.Basic
import Zmqlog.Control
import Zmqlog.Transition

/-! The service `zlogpull` as one machine: the owner's calls of `start`,
`stop` and the destructor, every execution of `run()` that was launched, and
the peers that append to the sockets' queues. Each step is one access to what
the threads share, or one call into zmqpp. -/
namespace Zmqlog.Service
open Transition Zmqpp Control

inductive Sock
  | tcp
  | ipc
  | inp
  | ctl
deriving DecidableEq

def bindOrder : List Sock := [.tcp, .ipc, .inp, .ctl]

def unbindOrder : List Sock := [.tcp, .ipc, .inp, .ctl]

inductive Item
  | sock (k : Sock)
  | pipe
deriving DecidableEq

/-- The `reactor.add` calls. Ready handlers run in this order. -/
def registered : List Item := [.sock .tcp, .sock .ipc, .sock .inp, .sock .ctl, .pipe]

inductive Rep
  | receiving
  | sending
deriving DecidableEq

/-- What the destructor of a `zlogpull` closes, its members among it. -/
inductive Resource
  | pipeRead
  | pipeWrite
  | future
  | sock (k : Sock)
deriving DecidableEq

/-- The body closes the two ends of the pipe. The members follow in the reverse
order of their declarations; `m_ctx` goes last of all and has no part here. -/
def teardown : List Resource :=
  [.pipeRead, .pipeWrite, .future, .sock .ctl, .sock .inp, .sock .ipc, .sock .tcp]

/-- A `zlogpull` as it was constructed. Its pipe holds `capacity` bytes, or any
number of them where that is `none`. -/
structure Zlogpull extends Endpoints where
  capacity : Option Nat
  capacity_pos : ∀ c ∈ capacity, 0 < c

def Zlogpull.room (z : Zlogpull) (n : Nat) : Bool := z.capacity.all fun c => n < c

def sample : Zlogpull where
  toEndpoints := sampleEndpoints
  capacity := some 65536
  capacity_pos := by simp

/-- Where an execution of `run()` is. `rest` are the ready items whose
handlers the current poll has still to call. -/
inductive Pc
  | unlaunched
  | bind (todo : List Sock)
  | test
  | poll
  | polling
  | dispatch (ready : List Item)
  | receive (k : Sock) (rest : List Item)
  | route (k : Sock) (m : Wire) (rest : List Item)
  | handle (m : Wire) (rest : List Item)
  | reply (rsp : Message) (rest : List Item)
  | leave
  | returned
  | escaped
deriving DecidableEq

def Pc.active : Pc → Bool
  | .unlaunched | .returned | .escaped => false
  | _ => true

def Pc.ended : Pc → Bool
  | .returned | .escaped => true
  | _ => false

/-- Where an exception takes an execution that is inside `reactor.poll()`:
the loop catches `zmqpp::exception` and goes on to its test. -/
def raise : Fault → Pc
  | .zmqpp => .test
  | .invalidArgument => .escaped

/-- A handler past its test of `m_run`: what it does with a message of at
least one part, and what it does when the receive leaves none. -/
structure Handler where
  received : Wire → List Item → Pc
  empty : List Item → Pc

def pullHandler (k : Sock) : Handler where
  received := fun m rest => .route k m rest
  empty := fun rest => .dispatch rest

def inTcp : Handler := pullHandler .tcp

def inIpc : Handler := pullHandler .ipc

def inInp : Handler := pullHandler .inp

/-- Unlike the others `in_ctl` goes on to a send in either case. -/
def inCtl : Handler where
  received := fun m rest => .handle m rest
  empty := fun rest => .reply [] rest

def handler : Sock → Handler
  | .tcp => inTcp
  | .ipc => inIpc
  | .inp => inInp
  | .ctl => inCtl

/-- A step of `run()`. What it reads, takes or hands over is in the label; a
receive tells how many waiting messages it passes over. -/
inductive Ev
  | bind (k : Sock) (ok : Bool)
  | setup
  | test (b : Bool)
  | pollBegin
  | pollReturn (ready : List Item)
  | pollThrow
  | pollEnd
  | guard (k : Sock) (b : Bool)
  | receive (k : Sock) (n : Nat) (m : Wire)
  | receiveNone (k : Sock)
  | receiveThrow (k : Sock)
  | route (k : Sock) (frame : Frame)
  | handleCmd
  | send (rsp : Message)
  | sendThrow
  | sendNothing
  | pollReset
  | ret
deriving DecidableEq

def Pc.next (z : Zlogpull) : Pc → Ev → Option Pc
  | .bind (k :: todo), .bind j ok =>
    -- The first bind that throws takes control past the others.
    if j = k then some (if ok then .bind todo else .bind []) else none
  | .bind [], .setup => some .test
  | .test, .test b => some (if b then .poll else .leave)
  | .poll, .pollBegin => some .polling
  | .polling, .pollReturn ready => some (.dispatch ready)
  | .polling, .pollThrow => some (raise .zmqpp)
  | .dispatch [], .pollEnd => some .test
  | .dispatch (.sock k :: rest), .guard j b =>
    if j = k then some (if b then .receive k rest else .dispatch rest) else none
  | .dispatch (.pipe :: rest), .pollReset => some (.dispatch rest)
  | .receive k rest, .receive j _ m =>
    if j = k then some ((handler k).received m rest) else none
  | .receive k rest, .receiveNone j => if j = k then some ((handler k).empty rest) else none
  | .receive k _, .receiveThrow j => if j = k then some (raise .zmqpp) else none
  | .route k m rest, .route j frame =>
    if j = k ∧ frame = m.first then some (.dispatch rest) else none
  | .handle m rest, .handleCmd =>
    match Control.handleCmd z.toEndpoints m.parts [] with
    | .ok rsp => some (.reply rsp rest)
    | .error f => some (raise f)
  | .reply (part :: parts) rest, .send rsp =>
    if rsp = part :: parts then some (.dispatch rest) else none
  | .reply (_ :: _) _, .sendThrow => some (raise .zmqpp)
  | .reply [] _, .sendNothing => some (raise .invalidArgument)
  | .leave, .ret => some .returned
  | _, _ => none

inductive Caller
  | user
  | destructor
deriving DecidableEq

/-- Where the owner thread is, between its calls or in one of them.
`stopEnd` is where a `stop()` that found `m_run` set has just ended, by an
exception out of an unbind or without. -/
inductive Owner
  | idle
  | startTest
  | startSet
  | startLaunch
  | startAssign
  | stopTest (c : Caller)
  | stopClear (c : Caller)
  | stopWrite (c : Caller)
  | stopWait (c : Caller)
  | unbind (c : Caller) (k : Sock) (todo : List Sock)
  | stopEnd (c : Caller) (threw : Bool)
  | destroying (p : Resource) (todo : List Resource)
  | destroyed
  | terminated
deriving DecidableEq

inductive OwnerEv
  | start
  | stop
  | destroy
  | test (b : Bool)
  | set
  | launch
  | assign
  | clear
  | pollCancel
  | wait
  | unbind (k : Sock) (ok : Bool)
  | ret
  | close (p : Resource)
deriving DecidableEq

def unbindFrom (c : Caller) : List Sock → Owner
  | [] => .stopEnd c false
  | k :: todo => .unbind c k todo

def destroyFrom : List Resource → Owner
  | [] => .destroyed
  | p :: todo => .destroying p todo

/-- After `stop()` without an exception: back to the caller, or on to the
rest of the destructor. -/
def afterStop : Caller → Owner
  | .user => .idle
  | .destructor => destroyFrom teardown

/-- After an exception out of `stop()`: a destructor is `noexcept`. -/
def afterThrow : Caller → Owner
  | .user => .idle
  | .destructor => .terminated

def Owner.next : Owner → OwnerEv → Option Owner
  | .idle, .start => some .startTest
  | .idle, .stop => some (.stopTest .user)
  | .idle, .destroy => some (.stopTest .destructor)
  | .startTest, .test b => some (if b then .idle else .startSet)
  | .startSet, .set => some .startLaunch
  | .startLaunch, .launch => some .startAssign
  | .startAssign, .assign => some .idle
  | .stopTest c, .test b => some (if b then .stopClear c else afterStop c)
  | .stopClear c, .clear => some (.stopWrite c)
  | .stopWrite c, .pollCancel => some (.stopWait c)
  | .stopWait c, .wait => some (unbindFrom c unbindOrder)
  | .unbind c k todo, .unbind j ok =>
    if j = k then some (if ok then unbindFrom c todo else .stopEnd c true) else none
  | .stopEnd c threw, .ret => some (if threw then afterThrow c else afterStop c)
  | .destroying p todo, .close q => if q = p then some (destroyFrom todo) else none
  | _, _ => none

/-- `runs i` is the `i`-th execution of `run()` that was launched, and `fut`
the one that `m_fut` refers to. -/
structure State where
  mRun : Bool
  pipe : Nat
  bound : Sock → Bool
  closed : Resource → Bool
  inbox : Sock → List Wire
  rep : Rep
  owner : Owner
  runs : Nat → Pc
  launched : Nat
  fut : Nat

def State.receivable (s : State) (k : Sock) : Bool :=
  !(s.inbox k).isEmpty && (k != .ctl || s.rep == .receiving)

def State.ready (s : State) : Item → Bool
  | .sock k => s.receivable k
  | .pipe => 0 < s.pipe

def State.enables (s : State) : Ev → Bool
  | .test b => s.mRun == b
  | .guard _ b => s.mRun == b
  -- A poll that is interrupted returns as well, and reports nothing.
  | .pollReturn ready => decide (ready.Sublist registered) && ready.all s.ready
  -- A reply socket is fair-queued over its peers: any request may be the next.
  | .receive k n m =>
    (s.inbox k)[n]? == some m && if k = .ctl then s.rep == .receiving else n == 0
  | .send _ => s.rep == .sending
  | .pollReset => 0 < s.pipe
  | _ => true

def State.effect (s : State) : Ev → State
  | .bind k true => { s with bound := Function.update s.bound k true }
  | .receive k n _ =>
    { s with
      inbox := Function.update s.inbox k ((s.inbox k).eraseIdx n)
      rep := if k = .ctl then .sending else s.rep }
  | .send _ => { s with rep := .receiving }
  | .pollReset => { s with pipe := s.pipe - 1 }
  | _ => s

def State.goto (s : State) (i : Nat) (pc : Pc) : State :=
  { s with runs := Function.update s.runs i pc }

def State.permits (z : Zlogpull) (s : State) : OwnerEv → Bool
  | .test b => s.mRun == b
  | .pollCancel => z.room s.pipe
  | .assign => (s.runs s.fut).ended
  | .wait => (s.runs s.fut).ended
  | .unbind k ok => s.bound k == ok
  | .close .future => (s.runs s.fut).ended
  | _ => true

def State.act (s : State) : OwnerEv → State
  | .set => { s with mRun := true }
  | .clear => { s with mRun := false }
  | .pollCancel => { s with pipe := s.pipe + 1 }
  | .launch =>
    { s with
      runs := Function.update s.runs s.launched (.bind bindOrder)
      launched := s.launched + 1 }
  -- The old future lets go of its execution only when that has ended.
  | .assign => { s with fut := s.launched - 1 }
  | .unbind k true => { s with bound := Function.update s.bound k false }
  | .close p => { s with closed := Function.update s.closed p true }
  | _ => s

def State.proceed (s : State) (owner : Owner) : State := { s with owner }

inductive Act
  | run (i : Nat) (ev : Ev)
  | owner (ev : OwnerEv)
  | arrive (k : Sock) (m : Wire)
deriving DecidableEq

/-- It begins after the constructor: the pipe is there and empty, and the
first execution of `run()` is launched. -/
def service (z : Zlogpull) : Machine State Act where
  init :=
    { mRun := true
      pipe := 0
      bound := fun _ => false
      closed := fun _ => false
      inbox := fun _ => []
      rep := .receiving
      owner := .idle
      runs := Function.update (fun _ => .unlaunched) 0 (.bind bindOrder)
      launched := 1
      fut := 0 }
  step s
    | .run i ev =>
      if s.enables ev then ((s.runs i).next z ev).map ((s.effect ev).goto i) else none
    | .owner ev =>
      if s.permits z ev then (s.owner.next ev).map (s.act ev).proceed else none
    | .arrive k m => some { s with inbox := Function.update s.inbox k (s.inbox k ++ [m]) }

end Zmqlog.Service
