import OpenMesh.Core.Hex
import OpenMesh.Crypto.Primitives
import OpenMesh.Signaling.Registry

namespace OpenMesh.Signaling.Server

open OpenMesh.Core.Buffers OpenMesh.Core.Hex OpenMesh.Crypto.Primitives
open OpenMesh.Protocol.Envelope OpenMesh.Net.Transport OpenMesh.Signaling.Registry

structure Outgoing where
  dest : Endpoint
  packet : Packet
  deriving DecidableEq

def kChallengeBytes : Nat := 32

/-- What `random_bytes(kChallengeBytes)` returns. -/
abbrev Challenge := { bytes : Bytes // bytes.length = kChallengeBytes }

structure Config where
  peerTtlSeconds : Int := 120
  challengeTtlSeconds : Int := 30

structure Pending where
  challenge : Challenge
  endpoint : Endpoint
  expiry : Int := 0
  deriving DecidableEq

structure SignalingServer where
  config : Config := {}
  registry : PeerRegistry := {}
  pending : Table Pending := ∅

namespace SignalingServer

variable (C : Sodium)

/-- Only an empty REGISTER draws a challenge. -/
def handleRegister (s : SignalingServer) (packet : Packet) (origin : Endpoint) (now : Int)
    (challenge : Challenge) : SignalingServer × List Outgoing :=
  if packet.source.length ≠ kPublicKeyBytes then (s, [])
  else
    let key := toHex packet.source
    if packet.payload = [] then
      ({ s with pending :=
          s.pending.insert key ⟨challenge, origin, now + s.config.challengeTtlSeconds⟩ },
        [⟨origin, { type := .hello, payload := challenge.val }⟩])
    else if packet.payload.length = kSignatureBytes then
      match s.pending.lookup key with
      | none => (s, [])
      | some it =>
        if it.expiry < now then (s, [])
        else if it.endpoint.host ≠ origin.host ∨ it.endpoint.port ≠ origin.port then (s, [])
        else if verifyDetached C packet.payload it.challenge packet.source = false then
          ({ s with pending := s.pending.erase key }, [])
        else
          ({ s with registry := s.registry.upsert key origin now, pending := s.pending.erase key },
            [⟨origin, { type := .ack, payload := origin.toString }⟩])
    else (s, [])

def handleDiscover (s : SignalingServer) (packet : Packet) (origin : Endpoint) : List Outgoing :=
  if packet.destination = [] then []
  else
    let payload := match s.registry.lookup (toHex packet.destination) with
      | some endpoint => endpoint.toString
      | none => []
    [⟨origin, { type := .connect, source := packet.destination, payload }⟩]

def handleConnect (s : SignalingServer) (packet : Packet) : List Outgoing :=
  if packet.destination = [] then []
  else match s.registry.lookup (toHex packet.destination) with
    | some endpoint => [⟨endpoint, packet⟩]
    | none => []

def handleHeartbeat (s : SignalingServer) (packet : Packet) (origin : Endpoint) (now : Int) :
    SignalingServer × List Outgoing :=
  let s := if packet.source.length = kPublicKeyBytes then
      let key := toHex packet.source
      if (s.registry.lookup key).isSome then
        { s with registry := s.registry.upsert key origin now } else s
    else s
  (s, [⟨origin, { type := .heartbeat }⟩])

def handleDisconnect (s : SignalingServer) (packet : Packet) : SignalingServer :=
  if packet.source.length = kPublicKeyBytes then
    { s with registry := (s.registry.remove (toHex packet.source)).1 }
  else s

def handle (s : SignalingServer) (packet : Packet) (origin : Endpoint) (now : Int)
    (challenge : Challenge) : SignalingServer × List Outgoing :=
  match packet.type with
  | .register => s.handleRegister C packet origin now challenge
  | .discover => (s, s.handleDiscover packet origin)
  | .connect => (s, s.handleConnect packet)
  | .heartbeat => s.handleHeartbeat packet origin now
  | .disconnect => (s.handleDisconnect packet, [])
  | _ => (s, [])

def expire (s : SignalingServer) (now : Int) : SignalingServer :=
  { s with
    registry := s.registry.expire (now - s.config.peerTtlSeconds)
    pending := s.pending.keep fun it => ¬ it.expiry < now }

/-- What happens to a server: a packet comes in, from somewhere and at some time,
or the expired entries are swept. Each packet comes with the challenge that the server would
draw for it. -/
inductive Input where
  | handle (packet : Packet) (origin : Endpoint) (now : Int) (challenge : Challenge)
  | expire (now : Int)

def Input.now : Input → Int
  | .handle _ _ now _ => now
  | .expire now => now

def step (s : SignalingServer) : Input → SignalingServer
  | .handle packet origin now challenge => (s.handle C packet origin now challenge).1
  | .expire now => s.expire now

def sends (s : SignalingServer) : Input → List Outgoing
  | .handle packet origin now challenge => (s.handle C packet origin now challenge).2
  | .expire _ => []

end SignalingServer

end OpenMesh.Signaling.Server
