import OpenMesh.Core.Hex
import OpenMesh.Messaging.Sessions
import OpenMesh.Net.Transport
import OpenMesh.Storage.Database

namespace OpenMesh.Messaging.Operations

open OpenMesh.Core.Buffers OpenMesh.Core.Hex OpenMesh.Crypto.Primitives
open OpenMesh.Protocol.Envelope OpenMesh.Net.Transport OpenMesh.Storage.Database
open OpenMesh.Messaging.Sessions

structure Delivered where
  peer : Bytes
  plaintext : Bytes
  outgoing : Bool := false
  deriving DecidableEq

def kAccept : UInt8 := 0x01
def kReject : UInt8 := 0x00

def kMaxProbes : Nat := 12
def kProbeInterval : Int := 250

structure Probe where
  peer : Bytes
  candidate : Endpoint
  confirmed : Bool := false
  attempts : Nat := 0
  last : Int
  deriving DecidableEq

/-- A `std::function` slot: whether one is installed, and the calls made to
those that were. -/
structure Handler (α : Type) where
  installed : Bool := false
  calls : List α := []

def Handler.install {α : Type} (h : Handler α) : Handler α := { h with installed := true }

def Handler.call {α : Type} (h : Handler α) (a : α) : Handler α :=
  if h.installed then { h with calls := h.calls ++ [a] } else h

/-- What one call takes from outside: the two clocks, the random nonce of the
packet it may seal, and the answer of the OS to each datagram. -/
structure Env where
  nowSeconds : Int64
  steadyNow : Int
  nonce : Nonce
  takes : Endpoint → Bytes → Bool

structure Engine where
  localPublic : Bytes
  localSecret : Bytes
  socket : UdpSocket := {}
  contacts : Store := {}
  relay : Option Endpoint := none
  messageHandler : Handler Delivered := {}
  requestHandler : Handler (Bytes × Bytes) := {}
  responseHandler : Handler (Bytes × Bool) := {}
  sessions : Table Session := ∅
  endpoints : Table Endpoint := ∅
  probes : Table Probe := ∅
  incomingRequests : Finset Bytes := ∅
  outgoingRequests : Finset Bytes := ∅

namespace Engine

def new (localPublic localSecret : Bytes) : Engine := { localPublic, localSecret }

def pendingRequests (e : Engine) : List Request := e.contacts.requests

def transmit (env : Env) (e : Engine) (dest : Endpoint) (packet : Packet) : Engine × Bool :=
  let (socket, ok) := e.socket.sendTo env.takes dest packet
  ({ e with socket }, ok)

def announceTo (env : Env) (e : Engine) (relay : Endpoint) : Engine × Bool :=
  e.transmit env relay { type := .hello, source := e.localPublic }

def sendProbe (env : Env) (e : Engine) (peer : Bytes) (dest : Endpoint) : Engine :=
  (e.transmit env dest { type := .hello, source := e.localPublic, destination := peer }).1

def startProbing (env : Env) (e : Engine) (peer : Bytes) (candidate : Endpoint) : Engine :=
  let key := toHex peer
  match e.probes.lookup key with
  | some p =>
    if p.confirmed then e
    else
      let p := { p with peer, candidate, last := env.steadyNow, attempts := 1 }
      { e with probes := e.probes.insert key p }.sendProbe env peer candidate
  | none =>
    let p := { peer, candidate, last := env.steadyNow, attempts := 1 }
    { e with probes := e.probes.insert key p }.sendProbe env peer candidate

/-- The endpoint returned is the one to send to for now. -/
def connect (env : Env) (e : Engine) (remotePublic : Bytes) (candidate : Endpoint) :
    Engine × Endpoint :=
  let key := toHex remotePublic
  let active := e.relay.getD candidate
  let e := { e with endpoints := e.endpoints.insert key active }
  (e.startProbing env remotePublic candidate, active)

def tickProbe (env : Env) (e : Engine) (key : Bytes) : Engine :=
  match e.probes.lookup key with
  | none => e
  | some p =>
    if p.confirmed ∨ kMaxProbes ≤ p.attempts then e
    else if kProbeInterval ≤ env.steadyNow - p.last then
      let e := e.sendProbe env p.peer p.candidate
      let p := { p with attempts := p.attempts + 1, last := env.steadyNow }
      { e with probes := e.probes.insert key p }
    else e

def tick (env : Env) (e : Engine) : Engine := e.probes.keys.foldl (tickProbe env) e

def hasDirectPath (e : Engine) (remotePublic : Bytes) : Bool :=
  match e.probes.lookup (toHex remotePublic) with
  | some p => p.confirmed
  | none => false

def handleProbe (env : Env) (e : Engine) (peer : Bytes) (origin : Endpoint) : Engine :=
  let key := toHex peer
  let p : Probe := (e.probes.lookup key).getD
    { peer := [], candidate := ⟨[], 0⟩, last := 0 }
  let e' := { e with
    probes := e.probes.insert key { p with peer, confirmed := true }
    endpoints := e.endpoints.insert key origin }
  if p.confirmed then e' else e'.sendProbe env peer origin

def handleConnect (env : Env) (e : Engine) (peer payload : Bytes) : Engine :=
  match parseEndpoint payload with
  | none => e
  | some ep =>
    let key := toHex peer
    let e := match e.endpoints.lookup key, e.relay with
      | none, some relay => { e with endpoints := e.endpoints.insert key relay }
      | _, _ => e
    e.startProbing env peer ep

variable (C : Sodium)

/-- The engine with the session in its table, and the session the returned
pointer leads to; none for a null pointer. -/
def ensureSession (e : Engine) (remotePublic : Bytes) : Option (Engine × Session) :=
  let key := toHex remotePublic
  match e.sessions.lookup key with
  | some session => some (e, session)
  | none =>
    let session := Session.new C e.localPublic e.localSecret remotePublic
    if session.valid then some ({ e with sessions := e.sessions.insert key session }, session)
    else none

def setTrust (e : Engine) (peer : Bytes) (trust : TrustStatus) : Engine :=
  let c := (e.contacts.find peer).getD {}
  { e with contacts := e.contacts.upsert { c with publicKey := peer, trust } }

def setNickname (e : Engine) (remotePublic name : Bytes) : Engine :=
  let c := (e.contacts.find remotePublic).getD {}
  { e with contacts := e.contacts.upsert { c with publicKey := remotePublic, nickname := name } }

def openStore (io : OpenIO) (e : Engine) (path passphrase : Bytes) : Engine × Bool :=
  let (contacts, ok) := e.contacts.openAt C io path passphrase
  if ok then
    ({ e with contacts, incomingRequests :=
        e.incomingRequests ∪ (contacts.requests.map fun q => toHex q.peer).toFinset }, true)
  else ({ e with contacts }, false)

def sendPacket (env : Env) (e : Engine) (key : Bytes) (packet : Packet) : Engine × Bool :=
  match (e.endpoints.lookup key).or e.relay with
  | none => (e, false)
  | some dest => e.transmit env dest packet

/-- `send_packet(key, session->encrypt_as(type, plaintext))`: the counter moves
on whether or not the packet leaves. -/
def sealAndSend (env : Env) (e : Engine) (remotePublic : Bytes) (session : Session)
    (type : PacketType) (plaintext : Bytes) : Engine × Bool :=
  let key := toHex remotePublic
  let (session, packet) := session.encryptAs C env.nonce type plaintext
  { e with sessions := e.sessions.insert key session }.sendPacket env key packet

def addPeer (e : Engine) (remotePublic : Bytes) (endpoint : Endpoint) : Engine × Bool :=
  match e.ensureSession C remotePublic with
  | none => (e, false)
  | some (e, _) =>
    let key := toHex remotePublic
    ({ e with endpoints := e.endpoints.insert key endpoint }.setTrust remotePublic .accepted, true)

def knowsPeer (e : Engine) (remotePublic : Bytes) : Bool :=
  (e.sessions.lookup (toHex remotePublic)).isSome

def trustOf (e : Engine) (remotePublic : Bytes) : Option TrustStatus :=
  e.contacts.trustOf remotePublic

def sendContactRequest (env : Env) (e : Engine) (remotePublic : Bytes) (endpoint : Endpoint)
    (greeting : Bytes) : Engine × Bool :=
  if e.trustOf remotePublic = some .accepted then (e, false)
  else match e.ensureSession C remotePublic with
    | none => (e, false)
    | some (e, session) =>
      let key := toHex remotePublic
      let e := { e with
        endpoints := e.endpoints.insert key endpoint
        outgoingRequests := insert key e.outgoingRequests }
      (e.setTrust remotePublic .pending).sealAndSend C env remotePublic session .contactRequest greeting

/-- `accept_contact` and `reject_contact` differ in the trust and the byte. -/
def answerContact (env : Env) (e : Engine) (remotePublic : Bytes) (trust : TrustStatus)
    (decision : UInt8) : Engine × Bool :=
  let key := toHex remotePublic
  if key ∉ e.incomingRequests then (e, false)
  else match e.ensureSession C remotePublic with
    | none => (e, false)
    | some (e, session) =>
      let e := { e with
        incomingRequests := e.incomingRequests.erase key
        contacts := e.contacts.removeRequest remotePublic }
      (e.setTrust remotePublic trust).sealAndSend C env remotePublic session .contactResponse [decision]

def acceptContact (env : Env) (e : Engine) (remotePublic : Bytes) : Engine × Bool :=
  e.answerContact C env remotePublic .accepted kAccept

def rejectContact (env : Env) (e : Engine) (remotePublic : Bytes) : Engine × Bool :=
  e.answerContact C env remotePublic .rejected kReject

def send (env : Env) (e : Engine) (remotePublic plaintext : Bytes) : Engine × Bool :=
  if e.trustOf remotePublic ≠ some .accepted then (e, false)
  else match e.ensureSession C remotePublic with
    | none => (e, false)
    | some (e, session) =>
      match e.sealAndSend C env remotePublic session .message plaintext with
      | (e, false) => (e, false)
      | (e, true) =>
        let message : Message := ⟨remotePublic, plaintext, true, env.nowSeconds⟩
        ({ e with contacts := e.contacts.appendMessage message }, true)

def handleMessage (env : Env) (e : Engine) (peer plaintext : Bytes) : Engine :=
  { e with
    contacts := e.contacts.appendMessage ⟨peer, plaintext, false, env.nowSeconds⟩
    messageHandler := e.messageHandler.call ⟨peer, plaintext, false⟩ }

def handleContactRequest (env : Env) (e : Engine) (peer greeting : Bytes) : Engine :=
  let key := toHex peer
  if (e.trustOf peer).isSome ∨ key ∈ e.incomingRequests then e
  else
    let e := { e with incomingRequests := insert key e.incomingRequests }.setTrust peer .pending
    let e := if greeting ≠ [] then e.setNickname peer greeting else e
    { e with
      contacts := e.contacts.addRequest ⟨peer, greeting, env.nowSeconds⟩
      requestHandler := e.requestHandler.call (peer, greeting) }

def handleContactResponse (e : Engine) (peer decision : Bytes) : Engine :=
  let key := toHex peer
  if key ∉ e.outgoingRequests then e
  else
    let accepted : Bool := decision.head? = some kAccept
    let e := { e with outgoingRequests := e.outgoingRequests.erase key }.setTrust peer
      (if accepted then .accepted else .rejected)
    { e with responseHandler := e.responseHandler.call (peer, accepted) }

def dispatch (env : Env) (e : Engine) (packet : Packet) (plaintext : Bytes) (origin : Endpoint) :
    Engine × Bool :=
  let peer := packet.source
  let e := if e.hasDirectPath peer then e
    else { e with endpoints := e.endpoints.insert (toHex peer) origin }
  match packet.type with
  | .message => (e.handleMessage env peer plaintext, true)
  | .contactRequest => (e.handleContactRequest env peer plaintext, true)
  | .contactResponse => (e.handleContactResponse peer plaintext, true)
  | _ => (e, false)

def poll (env : Env) (e : Engine) (incoming : Option Datagram) : Engine × Bool :=
  match incoming.map receive with
  | none => (e, false)
  | some datagram =>
    match deserialize datagram.data with
    | none => (e, false)
    | some packet =>
      let peer := packet.source
      if packet.type = .hello then
        (if packet.destination = e.localPublic ∧ peer ≠ [] then e.handleProbe env peer datagram.origin
          else e, true)
      else if packet.type = .connect then (e.handleConnect env peer packet.payload, true)
      else if packet.type = .message ∧ e.trustOf peer ≠ some .accepted then (e, false)
      else match e.ensureSession C peer with
        | none => (e, false)
        | some (e, session) =>
          match session.decrypt C packet with
          | none => (e, false)
          | some (plaintext, session) =>
            { e with sessions := e.sessions.insert (toHex peer) session }.dispatch env packet
              plaintext datagram.origin

/-- The entry points that change the engine. `bind` and the getters do not. -/
inductive Call where
  | announceTo (relay : Endpoint)
  | openStore (io : OpenIO) (path passphrase : Bytes)
  | addPeer (remotePublic : Bytes) (endpoint : Endpoint)
  | setNickname (remotePublic name : Bytes)
  | sendContactRequest (remotePublic : Bytes) (endpoint : Endpoint) (greeting : Bytes)
  | acceptContact (remotePublic : Bytes)
  | rejectContact (remotePublic : Bytes)
  | send (remotePublic plaintext : Bytes)
  | setRelay (relay : Endpoint)
  | connect (remotePublic : Bytes) (candidate : Endpoint)
  | tick
  | poll (incoming : Option Datagram)
  | onMessage
  | onContactRequest
  | onContactResponse

def Call.reopens : Call → Bool
  | .openStore _ _ _ => true
  | _ => false

def Call.adds : Call → Option Bytes
  | .addPeer remotePublic _ => some remotePublic
  | _ => none

def Call.names : Call → Option Bytes
  | .setNickname remotePublic _ => some remotePublic
  | _ => none

def Call.accepts : Call → Option Bytes
  | .acceptContact remotePublic => some remotePublic
  | _ => none

def Call.rejects : Call → Option Bytes
  | .rejectContact remotePublic => some remotePublic
  | _ => none

def Call.asks : Call → Option (Bytes × Bytes)
  | .sendContactRequest remotePublic _ greeting => some (remotePublic, greeting)
  | _ => none

/-- One call, and what a `bool` entry point returns (true for the others). -/
def call (env : Env) (e : Engine) : Call → Engine × Bool
  | .announceTo relay => e.announceTo env relay
  | .openStore io path passphrase => e.openStore C io path passphrase
  | .addPeer remotePublic endpoint => e.addPeer C remotePublic endpoint
  | .setNickname remotePublic name => (e.setNickname remotePublic name, true)
  | .sendContactRequest remotePublic endpoint greeting =>
    e.sendContactRequest C env remotePublic endpoint greeting
  | .acceptContact remotePublic => e.acceptContact C env remotePublic
  | .rejectContact remotePublic => e.rejectContact C env remotePublic
  | .send remotePublic plaintext => e.send C env remotePublic plaintext
  | .setRelay relay => ({ e with relay := some relay }, true)
  | .connect remotePublic candidate => ((e.connect env remotePublic candidate).1, true)
  | .tick => (e.tick env, true)
  | .poll incoming => e.poll C env incoming
  | .onMessage => ({ e with messageHandler := e.messageHandler.install }, true)
  | .onContactRequest => ({ e with requestHandler := e.requestHandler.install }, true)
  | .onContactResponse => ({ e with responseHandler := e.responseHandler.install }, true)

end Engine

end OpenMesh.Messaging.Operations
