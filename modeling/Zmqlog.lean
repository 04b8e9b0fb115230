import Zmqlog.Transition
import Zmqlog.Control
import Zmqlog.Exclusion
import Zmqlog.Logger
import Zmqlog.Service
import Zmqlog.Step
import Zmqlog.Lifecycle
import Zmqlog.Progress
import Zmqlog.Wakeup
import Zmqlog.PipeBytes
import Zmqlog.Teardown
import Zmqlog.Stopping
import Zmqlog.Worker
import Zmqlog.Delivery
import Zmqlog.Turn
import Zmqlog.Atomic
import Zmqlog.Network
import Zmqlog.Unwinding
import Zmqlog.Rounds
import Zmqlog.Spool
import Zmqlog.Spooling
import Zmqlog.Recovery
import Zmqlog.Discovery
import Zmqlog.Answering
import Zmqlog.Instances
import Zmqlog.Ini.Render
