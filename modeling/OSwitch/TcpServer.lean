import OSwitch.Lib.Threads
import OSwitch.StdText

/-!
# The TCP server (`tcp_server_client/src/tcp_server.cpp`, `client.cpp`)

Any number of threads of the program call the server. Each client that was
accepted has a receive thread of its own, and every `start` may create a thread
that removes dead clients. They share the list of clients under `_clientsMtx`
and the observers under `_subscribersMtx`; the flag `_isConnected` of a client
is atomic. What the operating system answers is left open, as is what the
handlers of the observers do, up to the server functions that they call.
-/

namespace OSwitch.TcpServer
open Wire StdText Trace Threads

def maxPacketSize : ℕ := 4096

/-! ### Results, messages and observers -/

/- `pipe_ret_t` -/
structure PipeRet where
  successFlag : Bool
  msg : Bytes
  deriving DecidableEq, Repr

def PipeRet.failure (msg : Bytes) : PipeRet := ⟨false, msg⟩
def PipeRet.success : PipeRet := ⟨true, []⟩

/- The library stores what `send` and `recv` return in a `size_t`. -/
def sizeT (ret : ℤ) : ℕ := (ret % 2 ^ 64).toNat

def decimal (v : ℕ) : Bytes := digits 10 20 v

def notAllSent (numBytesSent msgSize : ℕ) : Bytes :=
  text "Only " ++ decimal numBytesSent ++ text " bytes out of " ++ decimal msgSize ++
    text " was sent to client"

/- `Client::send` and the `try` around it in `sendToClient`; `ret` is what
`::send` returned. -/
def sendToClient (ret : ℤ) (errno : Bytes) (msgSize : ℕ) : PipeRet :=
  let numBytesSent := sizeT ret
  if numBytesSent < 0 then .failure errno
  else if numBytesSent < msgSize then .failure (notAllSent numBytesSent msgSize)
  else .success

inductive ClientEvent where
  | disconnected
  | incomingMsg
  deriving DecidableEq, Repr

inductive Recv where
  | eof
  | error
  | data (bytes : Bytes)
  deriving DecidableEq, Repr

namespace Recv

def ret : Recv → ℤ
  | .eof => 0
  | .error => -1
  | .data bytes => bytes.length

def written : Recv → Bytes
  | .eof => []
  | .error => []
  | .data bytes => bytes

def Valid : Recv → Prop
  | .eof => True
  | .error => True
  | .data bytes => 0 < bytes.length ∧ bytes.length ≤ maxPacketSize

end Recv

def cString (memory : Bytes) : Bytes := memory.takeWhile (· ≠ 0)

/- What `receiveTask` publishes after `recv`. The buffer is read as a C string:
`junk` is what follows the received bytes in memory. -/
def publishedOf (r : Recv) (errno junk : Bytes) : ClientEvent × Bytes :=
  let numOfBytesReceived := sizeT r.ret
  if numOfBytesReceived < 1 then
    (.disconnected, if numOfBytesReceived = 0 then text "Client closed connection" else errno)
  else (.incomingMsg, cString (r.written ++ junk))

inductive Mutex where
  | clients
  | subscribers
  deriving DecidableEq, Repr

/- What a handler does to the server: it calls functions that take these
mutexes, one after the other. -/
abbrev Handler := List Mutex

/- `server_observer_t`; a handler that is not set is `none`. -/
structure Observer where
  wantedIP : Bytes
  incomingPacketHandler : Option Handler
  disconnectionHandler : Option Handler
  deriving DecidableEq, Repr

def publishClientMsg (clientIP : Bytes) (subscriber : Observer) : Option Handler :=
  if subscriber.wantedIP = clientIP ∨ subscriber.wantedIP = [] then
    subscriber.incomingPacketHandler
  else none

def publishClientDisconnected (clientIP : Bytes) (subscriber : Observer) : Option Handler :=
  if subscriber.wantedIP = clientIP then subscriber.disconnectionHandler else none

/- The handler that an event calls, if it calls one. -/
def clientEventHandler (clientIP : Bytes) : ClientEvent → Observer → Option Handler
  | .disconnected => publishClientDisconnected clientIP
  | .incomingMsg => publishClientMsg clientIP

/-! ### The memory that the threads share -/

/- Clients, removers and users of the server are threads; `other` is the rest of
the process, which opens and closes descriptors. -/
inductive Tid (U : Type*) where
  | user (u : U)
  | remover (j : ℕ)
  | receiver (c : ℕ)
  | other
  deriving DecidableEq, Repr

/- `receiveThread` says that the pointer is set, `running` that the thread has
not returned, `alive` that the object was not deleted. -/
structure Client where
  sockfd : ℕ := 0
  ip : Bytes := []
  isConnected : Bool := false
  receiveThread : Bool := false
  running : Bool := false
  alive : Bool := false
  deriving DecidableEq, Repr

/- Who has opened a descriptor; `server k` is the `k`-th call of `start`. -/
inductive Holder where
  | server (k : ℕ)
  | client (c : ℕ)
  | other
  deriving DecidableEq, Repr

/- A descriptor that is `none` in the source has the value -1. `_fds` is never
written. The program does not count its calls of `start`: `starts` only tells
their sockets apart. -/
structure Shared (U : Type*) where
  sockfd : Option ℕ
  starts : ℕ
  fds : ℕ → Bool
  clients : List ℕ
  client : ℕ → Client
  nextClient : ℕ
  subscribers : List Observer
  subscribersMtx : Option (Tid U)
  clientsMtx : Option (Tid U)
  clientsRemoverThread : Option ℕ
  removerRunning : ℕ → Bool
  nextRemover : ℕ
  stopRemoveClientsTask : Bool
  descriptors : ℕ → Option Holder
  terminated : Bool

variable {U : Type*}

/- `TcpServer()`, in a process with these descriptors. -/
def Shared.start (fds : ℕ → Bool) (descriptors : ℕ → Option Holder) : Shared U where
  sockfd := some 0
  starts := 0
  fds := fds
  clients := []
  client := fun _ => {}
  nextClient := 0
  subscribers := []
  subscribersMtx := none
  clientsMtx := none
  clientsRemoverThread := none
  removerRunning := fun _ => false
  nextRemover := 0
  stopRemoveClientsTask := false
  descriptors := descriptors
  terminated := false

namespace Shared

def setClient (x : Shared U) (c : ℕ) (k : Client) : Shared U :=
  { x with client := Function.update x.client c k }

/- `setConnected(false)` -/
def disconnect (x : Shared U) (c : ℕ) : Shared U :=
  x.setClient c { x.client c with isConnected := false }

/- The receive thread returns. -/
def endReceiver (x : Shared U) (c : ℕ) : Shared U :=
  x.setClient c { x.client c with running := false }

/- `_receiveThread = nullptr` -/
def dropThread (x : Shared U) (c : ℕ) : Shared U :=
  x.setClient c { x.client c with receiveThread := false }

/- `new Client(fd)` with its address, and `startListen` -/
def addClient (x : Shared U) (fd : ℕ) (ip : Bytes) : Shared U :=
  { x.setClient x.nextClient ⟨fd, ip, true, true, true, true⟩ with
    nextClient := x.nextClient + 1
    descriptors := Function.update x.descriptors fd (some (.client x.nextClient)) }

/- `delete` and `erase` -/
def removeClient (x : Shared U) (c : ℕ) : Shared U :=
  { x.setClient c { x.client c with alive := false } with clients := x.clients.erase c }

def lockClients (x : Shared U) (t : Tid U) : Shared U := { x with clientsMtx := some t }
def unlockClients (x : Shared U) : Shared U := { x with clientsMtx := none }
def lockSubscribers (x : Shared U) (t : Tid U) : Shared U := { x with subscribersMtx := some t }
def unlockSubscribers (x : Shared U) : Shared U := { x with subscribersMtx := none }

def mtxFree (x : Shared U) : Mutex → Prop
  | .clients => x.clientsMtx = none
  | .subscribers => x.subscribersMtx = none

/- The thread that removes dead clients, if there is to be one. -/
def addRemover (x : Shared U) (removeDeadClientsAutomatically : Bool) : Shared U :=
  if removeDeadClientsAutomatically then
    { x with
      clientsRemoverThread := some x.nextRemover
      removerRunning := Function.update x.removerRunning x.nextRemover true
      nextRemover := x.nextRemover + 1 }
  else x

def endRemover (x : Shared U) (j : ℕ) : Shared U :=
  { x with removerRunning := Function.update x.removerRunning j false }

/- `socket` has failed. -/
def noServer (x : Shared U) : Shared U := { x with sockfd := none, starts := x.starts + 1 }

/- The descriptor of the server is a new one. -/
def openServer (x : Shared U) (fd : ℕ) : Shared U :=
  { x with
    sockfd := some fd
    starts := x.starts + 1
    descriptors := Function.update x.descriptors fd (some (.server (x.starts + 1))) }

def held (x : Shared U) (fd : Option ℕ) : Option Holder := fd.bind x.descriptors

/- After `::close`, the descriptor is gone whatever the call returned. -/
def closeDescriptor (x : Shared U) : Option ℕ → Shared U
  | none => x
  | some fd => { x with descriptors := Function.update x.descriptors fd none }

end Shared

/-! ### The threads -/

inductive Call where
  | start (removeDeadClientsAutomatically : Bool)
  | acceptClient (timeout : ℕ)
  | subscribe (observer : Observer)
  | sendToAllClients (msg : Bytes)
  | sendToClient (clientIP msg : Bytes)
  | printClients
  | close
  deriving DecidableEq, Repr

/- How the program uses the server: one thread starts and closes it and one
accepts clients, which may be the same one, and `observers` are those that it
subscribes. `closeFails` says whether `::close` may fail on an open descriptor. -/
structure Setting (U : Type*) where
  closer : U
  acceptor : U
  observers : Observer → Prop
  closeFails : Prop

def Setting.may (S : Setting U) (u : U) : Call → Prop
  | .start _ => u = S.closer
  | .acceptClient _ => u = S.acceptor
  | .subscribe observer => S.observers observer
  | .sendToAllClients _ => True
  | .sendToClient _ _ => True
  | .printClients => True
  | .close => u = S.closer

/- What `::close` is meant for. -/
inductive Target where
  | server
  | client (c : ℕ)
  deriving DecidableEq, Repr

/- `received r e msg`: what `recv` returned and what is to be published of it.
`notified k`: the handler of observer `k` is called, with these arguments.
`closed target hit ok`: what `::close` was meant for, what it has closed, and
whether it returned 0. -/
inductive Event where
  | call (op : Call)
  | returned (op : Call) (r : PipeRet)
  | accepted (c : ℕ) (ip : Bytes)
  | threw (msg : Bytes)
  | sent (c : ℕ) (ret : ℤ)
  | received (r : Recv) (e : ClientEvent) (msg : Bytes)
  | published (clientIP : Bytes) (e : ClientEvent) (msg : Bytes)
  | notified (k : ℕ) (clientIP : Bytes) (e : ClientEvent) (msg : Bytes)
  | closed (target : Target) (hit : Option Holder) (ok : Bool)
  | deleted (c : ℕ)
  | terminate
  | tau
  deriving DecidableEq, Repr

/- `Client::receiveTask` with the functions that it calls. In `dispatch` and
`handler` the thread holds `_subscribersMtx` and is at observer `k`. -/
inductive ReceiverPc where
  | check
  | wait
  | recv
  | publish (e : ClientEvent) (msg : Bytes)
  | dispatch (e : ClientEvent) (msg : Bytes) (k : ℕ)
  | handler (e : ClientEvent) (msg : Bytes) (k : ℕ) (calls : Handler)
  | ret
  | done
  deriving DecidableEq, Repr

/- `TcpServer::removeDeadClients`; the thread holds `_clientsMtx` from `scan` to
`delete`. -/
inductive RemoverPc where
  | check
  | lock
  | scan (rest : List ℕ)
  | join (c : ℕ)
  | closeFd (c : ℕ)
  | delete (c : ℕ)
  | sleep
  | done
  deriving DecidableEq, Repr

/- `call op` is a call that has not done anything yet. The user holds
`_clientsMtx` in `sendAll`, `sendOne`, `printing`, `unlock`, `closing`, `join`,
`closeFd` and `unlockClose`. -/
inductive UserPc where
  | idle
  | call (op : Call)
  | starting (removeDeadClientsAutomatically : Bool)
  | push (c : ℕ)
  | sendAll (msg : Bytes) (rest : List ℕ)
  | sendOne (clientIP msg : Bytes) (c : ℕ)
  | printing (rest : List ℕ)
  | unlock (op : Call) (r : PipeRet)
  | joinRemover (j : ℕ)
  | lockClose
  | closing (rest : List ℕ)
  | join (c : ℕ) (rest : List ℕ)
  | closeFd (c : ℕ) (rest : List ℕ)
  | unlockClose
  | closeServer
  | finish (r : PipeRet)
  deriving DecidableEq, Repr

abbrev Pc : Tid U → Type
  | .user _ => UserPc
  | .remover _ => RemoverPc
  | .receiver _ => ReceiverPc
  | .other => Unit

/- The loop of `receiveTask` in the thread of client `c`. -/
inductive ReceiverStep (c : ℕ) : Shared U → ReceiverPc → Event → Shared U → ReceiverPc → Prop
  | check {x} : (x.client c).isConnected = true → ReceiverStep c x .check .tau x .wait
  | stop {x} : (x.client c).isConnected = false → ReceiverStep c x .check .tau x .ret
  | waitFailed {x} : ReceiverStep c x .wait .terminate { x with terminated := true } .wait
  | timeout {x} : ReceiverStep c x .wait .tau x .check
  | ready {x} : ReceiverStep c x .wait .tau x .recv
  | closed {x r errno junk msg} : r.Valid → publishedOf r errno junk = (.disconnected, msg) →
      ReceiverStep c x .recv (.received r .disconnected msg) (x.disconnect c)
        (.publish .disconnected msg)
  | received {x r errno junk msg} : r.Valid → publishedOf r errno junk = (.incomingMsg, msg) →
      ReceiverStep c x .recv (.received r .incomingMsg msg) x (.publish .incomingMsg msg)
  | lock {x e msg} : x.subscribersMtx = none →
      ReceiverStep c x (.publish e msg) (.published (x.client c).ip e msg)
        (x.lockSubscribers (.receiver c)) (.dispatch e msg 0)
  | skip {x e msg k o} : x.subscribers[k]? = some o →
      clientEventHandler (x.client c).ip e o = none →
      ReceiverStep c x (.dispatch e msg k) .tau x (.dispatch e msg (k + 1))
  | notify {x e msg k o calls} : x.subscribers[k]? = some o →
      clientEventHandler (x.client c).ip e o = some calls →
      ReceiverStep c x (.dispatch e msg k) (.notified k (x.client c).ip e msg) x
        (.handler e msg k calls)
  | enter {x e msg k m calls} : x.mtxFree m →
      ReceiverStep c x (.handler e msg k (m :: calls)) .tau x (.handler e msg k calls)
  | leave {x e msg k} :
      ReceiverStep c x (.handler e msg k []) .tau x (.dispatch e msg (k + 1))
  | again {x msg k} : x.subscribers[k]? = none →
      ReceiverStep c x (.dispatch .incomingMsg msg k) .tau x.unlockSubscribers .check
  | finish {x msg k} : x.subscribers[k]? = none →
      ReceiverStep c x (.dispatch .disconnected msg k) .tau x.unlockSubscribers .ret
  | ret {x} : ReceiverStep c x .ret .tau (x.endReceiver c) .done

/- A failing `::close` throws in the thread of the remover. -/
inductive RemoverStep (S : Setting U) (j : ℕ) :
    Shared U → RemoverPc → Event → Shared U → RemoverPc → Prop
  | stop {x} : x.stopRemoveClientsTask = true →
      RemoverStep S j x .check .tau (x.endRemover j) .done
  | check {x} : x.stopRemoveClientsTask = false → RemoverStep S j x .check .tau x .lock
  | lock {x} : x.clientsMtx = none →
      RemoverStep S j x .lock .tau (x.lockClients (.remover j)) (.scan x.clients)
  | connected {x c rest} : (x.client c).isConnected = true →
      RemoverStep S j x (.scan (c :: rest)) .tau x (.scan rest)
  | found {x c rest} : (x.client c).isConnected = false →
      RemoverStep S j x (.scan (c :: rest)) .tau (x.disconnect c) (.join c)
  | join {x c} : ((x.client c).receiveThread = true → (x.client c).running = false) →
      RemoverStep S j x (.join c) .tau (x.dropThread c) (.closeFd c)
  | closed {x c} : x.held (some (x.client c).sockfd) ≠ none →
      RemoverStep S j x (.closeFd c) (.closed (.client c) (x.held (some (x.client c).sockfd)) true)
        (x.closeDescriptor (some (x.client c).sockfd)) (.delete c)
  | closeFailed {x c} : x.held (some (x.client c).sockfd) = none ∨ S.closeFails →
      RemoverStep S j x (.closeFd c) (.closed (.client c) (x.held (some (x.client c).sockfd)) false)
        { x.closeDescriptor (some (x.client c).sockfd) with terminated := true } (.closeFd c)
  | delete {x c} : RemoverStep S j x (.delete c) (.deleted c) (x.removeClient c)
      (.scan (x.clients.erase c))
  | unlock {x} : RemoverStep S j x (.scan []) .tau x.unlockClients .sleep
  | wake {x} : RemoverStep S j x .sleep .tau x .check

/- The calls of the program. -/
inductive UserStep (S : Setting U) (u : U) :
    Shared U → UserPc → Event → Shared U → UserPc → Prop
  | call {x op} : S.may u op → UserStep S u x .idle (.call op) x (.call op)
  | addRemover {x remove} : UserStep S u x (.call (.start remove)) .tau (x.addRemover remove)
      (.starting remove)
  | noSocket {x remove errno} : UserStep S u x (.starting remove)
      (.returned (.start remove) (.failure errno)) x.noServer .idle
  | notBound {x remove fd errno} : x.descriptors fd = none →
      UserStep S u x (.starting remove) (.returned (.start remove) (.failure errno))
        (x.openServer fd) .idle
  | started {x remove fd} : x.descriptors fd = none → UserStep S u x (.starting remove)
      (.returned (.start remove) .success) (x.openServer fd) .idle
  | acceptFailed {x timeout errno} : UserStep S u x (.call (.acceptClient timeout))
      (.threw errno) x .idle
  | acceptTimeout {x timeout} : 0 < timeout → UserStep S u x (.call (.acceptClient timeout))
      (.threw (text "Timeout waiting for client")) x .idle
  | notSet {x timeout l} : 0 < timeout → x.sockfd = some l → x.fds l = false →
      UserStep S u x (.call (.acceptClient timeout))
        (.threw (text "File descriptor is not set")) x .idle
  | accept {x timeout l fd ip} : x.sockfd = some l → x.descriptors l ≠ none →
      (0 < timeout → x.fds l = true) → x.descriptors fd = none →
      UserStep S u x (.call (.acceptClient timeout)) .tau (x.addClient fd ip)
        (.push x.nextClient)
  | push {x c} : x.clientsMtx = none →
      UserStep S u x (.push c) (.accepted c (x.client c).ip)
        { x with clients := x.clients ++ [c] } .idle
  | subscribe {x o} : x.subscribersMtx = none →
      UserStep S u x (.call (.subscribe o)) (.returned (.subscribe o) .success)
        { x with subscribers := x.subscribers ++ [o] } .idle
  | lockAll {x msg} : x.clientsMtx = none →
      UserStep S u x (.call (.sendToAllClients msg)) .tau (x.lockClients (.user u))
        (.sendAll msg x.clients)
  | sent {x msg c rest ret errno} : -1 ≤ ret → ret ≤ msg.length →
      sendToClient ret errno msg.length = .success →
      UserStep S u x (.sendAll msg (c :: rest)) (.sent c ret) x (.sendAll msg rest)
  | notSent {x msg c rest ret errno r} : -1 ≤ ret → ret ≤ msg.length →
      sendToClient ret errno msg.length = r → r.successFlag = false →
      UserStep S u x (.sendAll msg (c :: rest)) (.sent c ret) x
        (.unlock (.sendToAllClients msg) r)
  | allSent {x msg} : UserStep S u x (.sendAll msg []) .tau x
      (.unlock (.sendToAllClients msg) .success)
  | notFound {x clientIP msg} : x.clientsMtx = none →
      x.clients.find? (fun c => (x.client c).ip = clientIP) = none →
      UserStep S u x (.call (.sendToClient clientIP msg)) .tau (x.lockClients (.user u))
        (.unlock (.sendToClient clientIP msg) (.failure (text "client not found")))
  | found {x clientIP msg c} : x.clientsMtx = none →
      x.clients.find? (fun c => (x.client c).ip = clientIP) = some c →
      UserStep S u x (.call (.sendToClient clientIP msg)) .tau (x.lockClients (.user u))
        (.sendOne clientIP msg c)
  | sentOne {x clientIP msg c ret errno} : -1 ≤ ret → ret ≤ msg.length →
      UserStep S u x (.sendOne clientIP msg c) (.sent c ret) x
        (.unlock (.sendToClient clientIP msg) (sendToClient ret errno msg.length))
  | lockPrint {x} : x.clientsMtx = none →
      UserStep S u x (.call .printClients) .tau (x.lockClients (.user u)) (.printing x.clients)
  | printed {x c rest} : UserStep S u x (.printing (c :: rest)) .tau x (.printing rest)
  | allPrinted {x} : UserStep S u x (.printing []) .tau x (.unlock .printClients .success)
  | unlock {x op r} : UserStep S u x (.unlock op r) (.returned op r) x.unlockClients .idle
  | noRemover {x} : x.clientsRemoverThread = none →
      UserStep S u x (.call .close) .tau x .lockClose
  | stopRemover {x j} : x.clientsRemoverThread = some j →
      UserStep S u x (.call .close) .tau { x with stopRemoveClientsTask := true }
        (.joinRemover j)
  | joinRemover {x j} : x.removerRunning j = false →
      UserStep S u x (.joinRemover j) .tau { x with clientsRemoverThread := none } .lockClose
  | lockClose {x} : x.clientsMtx = none →
      UserStep S u x .lockClose .tau (x.lockClients (.user u)) (.closing x.clients)
  | disconnect {x c rest} : UserStep S u x (.closing (c :: rest)) .tau (x.disconnect c)
      (.join c rest)
  | join {x c rest} : ((x.client c).receiveThread = true → (x.client c).running = false) →
      UserStep S u x (.join c rest) .tau (x.dropThread c) (.closeFd c rest)
  | closed {x c rest} : x.held (some (x.client c).sockfd) ≠ none →
      UserStep S u x (.closeFd c rest)
        (.closed (.client c) (x.held (some (x.client c).sockfd)) true)
        (x.closeDescriptor (some (x.client c).sockfd)) (.closing rest)
  | closeFailed {x c rest errno} : x.held (some (x.client c).sockfd) = none ∨ S.closeFails →
      UserStep S u x (.closeFd c rest)
        (.closed (.client c) (x.held (some (x.client c).sockfd)) false)
        (x.closeDescriptor (some (x.client c).sockfd)) (.unlock .close (.failure errno))
  | clear {x} : UserStep S u x (.closing []) .tau { x with clients := [] } .unlockClose
  | unlockClose {x} : UserStep S u x .unlockClose .tau x.unlockClients .closeServer
  | closeServer {x} : x.held x.sockfd ≠ none →
      UserStep S u x .closeServer (.closed .server (x.held x.sockfd) true)
        (x.closeDescriptor x.sockfd) (.finish .success)
  | closeServerFailed {x errno} : x.held x.sockfd = none ∨ S.closeFails →
      UserStep S u x .closeServer (.closed .server (x.held x.sockfd) false)
        (x.closeDescriptor x.sockfd) (.finish (.failure errno))
  | finish {x r} : UserStep S u x (.finish r) (.returned .close r) x .idle

inductive OtherStep : Shared U → Event → Shared U → Prop
  | opens {x fd} : x.descriptors fd = none →
      OtherStep x .tau { x with descriptors := Function.update x.descriptors fd (some .other) }
  | closes {x fd} : x.descriptors fd = some .other →
      OtherStep x .tau (x.closeDescriptor (some fd))

def step (S : Setting U) : ∀ t : Tid U, Shared U → Pc t → Event → Shared U → Pc t → Prop
  | .user u => fun x l e y m => UserStep S u x l e y m
  | .remover j => fun x l e y m => x.removerRunning j = true ∧ RemoverStep S j x l e y m
  | .receiver c => fun x l e y m => (x.client c).running = true ∧ ReceiverStep c x l e y m
  | .other => fun x _ e y _ => OtherStep x e y

def entry : ∀ t : Tid U, Pc t
  | .user _ => .idle
  | .remover _ => .check
  | .receiver _ => .check
  | .other => ()

def program (S : Setting U) : Program (Tid U) (Shared U) Event Pc where
  init x := ∃ fds descriptors, (∀ fd, descriptors fd = none ∨ descriptors fd = some .other) ∧
    x = .start fds descriptors
  entry := entry
  step t x l e y m := x.terminated = false ∧ step S t x l e y m

abbrev State (U : Type*) := Threads.State (Tid U) (Shared U) Pc

def system [DecidableEq U] (S : Setting U) : Lts (State U) (Tid U × Event) :=
  Threads.system (program S)

end OSwitch.TcpServer
