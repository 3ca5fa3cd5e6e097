import OSwitch.Lib.Threads
import OSwitch.TcpServer

/-!
# The TCP client (`tcp_server_client/src/tcp_client.cpp`)

One thread of the program connects the client and closes it; any may subscribe
and send. Every `connectTo` that succeeds creates a receive thread, which reads
the flag `_isConnected` and the descriptor `_sockfd` whenever it needs them. What
the operating system answers is left open. The handlers of the observers call no
function of the client, as the README asks.
-/

namespace OSwitch.TcpClient
open Wire StdText Trace Threads
open TcpServer (PipeRet Recv sizeT notAllSent)

/- `client_observer_t`: whether each handler is set. `wantedIP` is never read. -/
structure Observer where
  incomingPacketHandler : Bool
  disconnectionHandler : Bool
  deriving DecidableEq, Repr

/- What is published. `size` is what the observers are told of the length of the
message; `bytes` are those that `recv` has written. -/
inductive Publication where
  | serverMsg (bytes : Bytes) (size : ℕ)
  | serverDisconnected (ret : PipeRet)
  deriving DecidableEq, Repr

/- What `receiveTask` does with what `recv` returned. -/
def publicationOf (r : Recv) (errno : Bytes) : Publication :=
  let numOfBytesReceived := sizeT r.ret
  if numOfBytesReceived < 1 then
    .serverDisconnected (.failure
      (if numOfBytesReceived = 0 then text "Server closed connection" else errno))
  else .serverMsg r.written numOfBytesReceived

/- `publishServerMsg` and `publishServerDisconnected`: whether an observer is told. -/
def tells : Publication → Observer → Bool
  | .serverMsg _ _ => Observer.incomingPacketHandler
  | .serverDisconnected _ => Observer.disconnectionHandler

/- `ret` is what `send` returned. -/
def sendMsg (ret : ℤ) (errno : Bytes) (size : ℕ) : PipeRet :=
  let numBytesSent := sizeT ret
  if numBytesSent < 0 then .failure errno
  else if numBytesSent < size then .failure (notAllSent numBytesSent size)
  else .success

/-! ### The memory that the threads share -/

/- Receive threads are numbered in the order in which they are created; `other` is
the rest of the process, which opens and closes descriptors. -/
inductive Tid (U : Type*) where
  | user (u : U)
  | receiver (k : ℕ)
  | other
  deriving DecidableEq, Repr

/- Who has opened a descriptor; the sockets of the client are numbered. -/
inductive Holder where
  | socket (n : ℕ)
  | other
  deriving DecidableEq, Repr

/- A descriptor that is `none` has the value -1. `receiveTask` is the thread that
`_receiveTask` points to; `running` says that a thread has not returned. -/
structure Shared (U : Type*) where
  sockfd : Option ℕ
  isConnected : Bool
  isClosed : Bool
  receiveTask : Option ℕ
  running : ℕ → Bool
  nextThread : ℕ
  subscribers : List Observer
  subscribersMtx : Option (Tid U)
  descriptors : ℕ → Option Holder
  nextSocket : ℕ
  terminated : Bool

variable {U : Type*}

/- `TcpClient()`, in a process with these descriptors. -/
def Shared.start (descriptors : ℕ → Option Holder) : Shared U where
  sockfd := some 0
  isConnected := false
  isClosed := true
  receiveTask := none
  running := fun _ => false
  nextThread := 0
  subscribers := []
  subscribersMtx := none
  descriptors := descriptors
  nextSocket := 0
  terminated := false

namespace Shared

/- `_sockfd.set(socket(..))` -/
def openSocket (x : Shared U) (fd : ℕ) : Shared U :=
  { x with
    sockfd := some fd
    descriptors := Function.update x.descriptors fd (some (.socket x.nextSocket))
    nextSocket := x.nextSocket + 1 }

/- `startReceivingMessages` -/
def startThread (x : Shared U) : Shared U :=
  { x with
    receiveTask := some x.nextThread
    running := Function.update x.running x.nextThread true
    nextThread := x.nextThread + 1 }

def endThread (x : Shared U) (k : ℕ) : Shared U :=
  { x with running := Function.update x.running k false }

def lock (x : Shared U) (t : Tid U) : Shared U := { x with subscribersMtx := some t }
def unlock (x : Shared U) : Shared U := { x with subscribersMtx := none }

/- What has the number that `_sockfd` holds. -/
def held (x : Shared U) : Option Holder := x.sockfd.bind x.descriptors

/- After `::close`, the descriptor is gone whatever the call returned. -/
def closeSocket (x : Shared U) : Shared U :=
  match x.sockfd with
  | none => x
  | some fd => { x with descriptors := Function.update x.descriptors fd none }

end Shared

/-! ### The threads -/

inductive Call where
  | connectTo
  | sendMsg (msg : Bytes)
  | subscribe (observer : Observer)
  | close
  deriving DecidableEq, Repr

/- How the program uses the client: which thread connects and closes it, whether it
connects again without having closed it, and whether `::close` may fail on an
open descriptor. -/
structure Setting (U : Type*) where
  owner : U
  reconnects : Prop
  closeFails : Prop

def Setting.may (S : Setting U) (u : U) (x : Shared U) : Call → Prop
  | .connectTo => u = S.owner ∧ (x.isClosed = true ∨ S.reconnects)
  | .sendMsg _ => True
  | .subscribe _ => True
  | .close => u = S.owner

/- `opened n`: `socket` has returned. `connecting`: the flag is set. `sent hit ret`,
`received hit r p` and `closed hit ok` say which descriptor they have reached. -/
inductive Event where
  | call (op : Call)
  | returned (op : Call) (r : PipeRet)
  | opened (n : ℕ)
  | created (k : ℕ)
  | connected
  | sent (hit : Option Holder) (ret : ℤ)
  | received (hit : Option Holder) (r : Recv) (p : Publication)
  | notified (j : ℕ) (p : Publication)
  | closed (hit : Option Holder) (ok : Bool)
  | terminate
  | tau
  deriving DecidableEq, Repr

/- `receiveTask`; in `dispatch` the thread holds `_subscribersMtx` and is at
observer `j`. -/
inductive ReceiverPc where
  | check
  | wait
  | recv
  | publish (p : Publication)
  | dispatch (p : Publication) (j : ℕ)
  | ret
  | done
  deriving DecidableEq, Repr

/- `resolve`, `connecting`, `starting`, `created` and `connected` are the places of
`connectTo` after `socket`; `joining`, `closeFd` and `closed` those of `close`. -/
inductive UserPc where
  | idle
  | call (op : Call)
  | resolve
  | connecting
  | starting
  | created
  | connected
  | joining
  | closeFd
  | closed
  | finish (op : Call) (r : PipeRet)
  deriving DecidableEq, Repr

abbrev Pc : Tid U → Type
  | .user _ => UserPc
  | .receiver _ => ReceiverPc
  | .other => Unit

inductive ReceiverStep (k : ℕ) : Shared U → ReceiverPc → Event → Shared U → ReceiverPc → Prop
  | check {x} : x.isConnected = true → ReceiverStep k x .check .tau x .wait
  | stop {x} : x.isConnected = false → ReceiverStep k x .check .tau x .ret
  | waitFailed {x} : ReceiverStep k x .wait .terminate { x with terminated := true } .wait
  | timeout {x} : ReceiverStep k x .wait .tau x .check
  | ready {x} : ReceiverStep k x .wait .tau x .recv
  | closed {x r errno ret} : r.Valid → publicationOf r errno = .serverDisconnected ret →
      ReceiverStep k x .recv (.received x.held r (.serverDisconnected ret))
        { x with isConnected := false } (.publish (.serverDisconnected ret))
  | received {x r errno bytes size} : r.Valid → publicationOf r errno = .serverMsg bytes size →
      ReceiverStep k x .recv (.received x.held r (.serverMsg bytes size)) x
        (.publish (.serverMsg bytes size))
  | lock {x p} : x.subscribersMtx = none →
      ReceiverStep k x (.publish p) .tau (x.lock (.receiver k)) (.dispatch p 0)
  | skip {x p j o} : x.subscribers[j]? = some o → tells p o = false →
      ReceiverStep k x (.dispatch p j) .tau x (.dispatch p (j + 1))
  | notify {x p j o} : x.subscribers[j]? = some o → tells p o = true →
      ReceiverStep k x (.dispatch p j) (.notified j p) x (.dispatch p (j + 1))
  | again {x bytes size j} : x.subscribers[j]? = none →
      ReceiverStep k x (.dispatch (.serverMsg bytes size) j) .tau x.unlock .check
  | finish {x ret j} : x.subscribers[j]? = none →
      ReceiverStep k x (.dispatch (.serverDisconnected ret) j) .tau x.unlock .ret
  | ret {x} : ReceiverStep k x .ret .tau (x.endThread k) .done

inductive UserStep (S : Setting U) (u : U) :
    Shared U → UserPc → Event → Shared U → UserPc → Prop
  | call {x op} : S.may u x op → UserStep S u x .idle (.call op) x (.call op)
  | noSocket {x errno} : UserStep S u x (.call .connectTo)
      (.returned .connectTo (.failure errno)) { x with sockfd := none } .idle
  | socket {x fd} : x.descriptors fd = none →
      UserStep S u x (.call .connectTo) (.opened x.nextSocket) (x.openSocket fd) .resolve
  | notResolved {x} : UserStep S u x .resolve
      (.returned .connectTo (.failure (text "Failed to resolve hostname"))) x .idle
  | resolved {x} : UserStep S u x .resolve .tau x .connecting
  | notConnected {x errno} : UserStep S u x .connecting
      (.returned .connectTo (.failure errno)) x .idle
  | connect {x} : UserStep S u x .connecting .tau x .starting
  | create {x} : UserStep S u x .starting (.created x.nextThread) x.startThread .created
  | connected {x} : UserStep S u x .created .connected { x with isConnected := true } .connected
  | opened {x} : UserStep S u x .connected (.returned .connectTo .success)
      { x with isClosed := false } .idle
  | send {x msg ret errno} : -1 ≤ ret → ret ≤ msg.length →
      UserStep S u x (.call (.sendMsg msg)) (.sent x.held ret) x
        (.finish (.sendMsg msg) (sendMsg ret errno msg.length))
  | subscribe {x o} : x.subscribersMtx = none →
      UserStep S u x (.call (.subscribe o)) (.returned (.subscribe o) .success)
        { x with subscribers := x.subscribers ++ [o] } .idle
  | isClosed {x} : x.isClosed = true → UserStep S u x (.call .close)
      (.returned .close (.failure (text "client is already closed"))) x .idle
  | disconnect {x} : x.isClosed = false →
      UserStep S u x (.call .close) .tau { x with isConnected := false } .joining
  | noThread {x} : x.receiveTask = none → UserStep S u x .joining .tau x .closeFd
  | join {x k} : x.receiveTask = some k → x.running k = false →
      UserStep S u x .joining .tau { x with receiveTask := none } .closeFd
  | closed {x} : x.held ≠ none →
      UserStep S u x .closeFd (.closed x.held true) x.closeSocket .closed
  | closeFailed {x errno} : x.held = none ∨ S.closeFails →
      UserStep S u x .closeFd (.closed x.held false) x.closeSocket
        (.finish .close (.failure errno))
  | close {x} : UserStep S u x .closed .tau { x with isClosed := true } (.finish .close .success)
  | finish {x op r} : UserStep S u x (.finish op r) (.returned op r) x .idle

inductive OtherStep : Shared U → Event → Shared U → Prop
  | opens {x fd} : x.descriptors fd = none →
      OtherStep x .tau { x with descriptors := Function.update x.descriptors fd (some .other) }
  | closes {x fd} : x.descriptors fd = some .other →
      OtherStep x .tau { x with descriptors := Function.update x.descriptors fd none }

def step (S : Setting U) : ∀ t : Tid U, Shared U → Pc t → Event → Shared U → Pc t → Prop
  | .user u => fun x l e y m => UserStep S u x l e y m
  | .receiver k => fun x l e y m => x.running k = true ∧ ReceiverStep k x l e y m
  | .other => fun x _ e y _ => OtherStep x e y

def entry : ∀ t : Tid U, Pc t
  | .user _ => .idle
  | .receiver _ => .check
  | .other => ()

def program (S : Setting U) : Program (Tid U) (Shared U) Event Pc where
  init x := ∃ descriptors, (∀ fd, descriptors fd = none ∨ descriptors fd = some .other) ∧
    x = .start descriptors
  entry := entry
  step t x l e y m := x.terminated = false ∧ step S t x l e y m

abbrev State (U : Type*) := Threads.State (Tid U) (Shared U) Pc

def system [DecidableEq U] (S : Setting U) : Lts (State U) (Tid U × Event) :=
  Threads.system (program S)

end OSwitch.TcpClient
