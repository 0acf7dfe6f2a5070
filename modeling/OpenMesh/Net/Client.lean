import OpenMesh.Net.Transport

namespace OpenMesh.Net.Client

open OpenMesh.Core.Buffers OpenMesh.Protocol.Envelope OpenMesh.Net.Transport

structure DiscoverResult where
  responded : Bool := false
  endpoint : Option Endpoint := none
  deriving DecidableEq

/-- Where the client stands in the call it is in, and how the last one ended. `attempts` counts
those that are left once the present one has failed. -/
inductive Phase where
  | idle
  | request (attempts : Nat)
  | awaitHello (attempts : Nat)
  | awaitAck (attempts : Nat)
  | registered (acknowledged : Bool)
  | query (target : Bytes) (attempts : Nat)
  | awaitConnect (target : Bytes) (attempts : Nat)
  | discovered (result : DiscoverResult)
  | awaitHeartbeat
  | beaten (answered : Bool)
  deriving DecidableEq

/-- The client side of the signaling protocol. The socket is somebody else's. -/
structure SignalingClient where
  server : Endpoint
  publicKey : Bytes
  signer : Option (Bytes → Bytes)
  publicEndpoint : Option Endpoint := none
  phase : Phase := .idle

/-- What the client is called with, and what happens to it while a call blocks: the OS takes
a packet or not, a datagram is read, or the time is up. -/
inductive Event where
  | registerSelf (attempts : Nat)
  | discover (target : Bytes) (attempts : Nat)
  | sendConnect (target info : Bytes) (takes : Bool)
  | heartbeat (takes : Bool)
  | disconnect (takes : Bool)
  | send (takes : Bool)
  | receive (d : Datagram) (takes : Bool)
  | timeout

/-- What `await_packet` makes of one datagram, whoever sent it: anything but the expected type is
discarded. -/
def awaited (expected : PacketType) (d : Datagram) : Option Packet :=
  (deserialize (receive d).data).filter (·.type = expected)

namespace SignalingClient

def sign (c : SignalingClient) (challenge : Bytes) : Bytes :=
  match c.signer with
  | some signer => signer challenge
  | none => []

def signedRegister (c : SignalingClient) (challenge : Bytes) : Packet :=
  { type := .register, source := c.publicKey, payload := c.sign challenge }

/-- The calls block, so that no other begins meanwhile. -/
def busy (c : SignalingClient) : Bool :=
  match c.phase with
  | .idle | .registered _ | .discovered _ | .beaten _ => false
  | _ => true

def tryRegister (c : SignalingClient) : Nat → SignalingClient
  | 0 => { c with phase := .registered false }
  | attempts + 1 => { c with phase := .request attempts }

def tryDiscover (c : SignalingClient) (target : Bytes) : Nat → SignalingClient
  | 0 => { c with phase := .discovered {} }
  | attempts + 1 => { c with phase := .query target attempts }

def step (c : SignalingClient) : Event → SignalingClient × List Packet
  | .registerSelf attempts => if c.busy then (c, []) else (c.tryRegister attempts, [])
  | .discover target attempts => if c.busy then (c, []) else (c.tryDiscover target attempts, [])
  | .sendConnect target info takes =>
    let connect : Packet :=
      { type := .connect, source := c.publicKey, destination := target, payload := info }
    if c.busy then (c, []) else (c, if takes then [connect] else [])
  | .heartbeat takes =>
    if c.busy then (c, [])
    else if takes then
      ({ c with phase := .awaitHeartbeat }, [{ type := .heartbeat, source := c.publicKey }])
    else ({ c with phase := .beaten false }, [])
  | .disconnect takes =>
    let bye : Packet := { type := .disconnect, source := c.publicKey }
    if c.busy then (c, []) else (c, if takes then [bye] else [])
  | .send takes => match c.phase with
    | .request attempts =>
      if takes then
        ({ c with phase := .awaitHello attempts }, [{ type := .register, source := c.publicKey }])
      else (c.tryRegister attempts, [])
    | .query target attempts =>
      if takes then
        ({ c with phase := .awaitConnect target attempts },
          [{ type := .discover, destination := target }])
      else (c.tryDiscover target attempts, [])
    | _ => (c, [])
  | .receive d takes => match c.phase with
    | .awaitHello attempts => match awaited .hello d with
      | some challenge =>
        if takes then
          ({ c with phase := .awaitAck attempts }, [c.signedRegister challenge.payload])
        else (c.tryRegister attempts, [])
      | none => (c, [])
    | .awaitAck _ => match awaited .ack d with
      | some ack =>
        ({ c with publicEndpoint := parseEndpoint ack.payload, phase := .registered true }, [])
      | none => (c, [])
    | .awaitConnect _ _ => match awaited .connect d with
      | some resp => ({ c with phase := .discovered ⟨true, parseEndpoint resp.payload⟩ }, [])
      | none => (c, [])
    | .awaitHeartbeat => match awaited .heartbeat d with
      | some _ => ({ c with phase := .beaten true }, [])
      | none => (c, [])
    | _ => (c, [])
  | .timeout => match c.phase with
    | .awaitHello attempts | .awaitAck attempts => (c.tryRegister attempts, [])
    | .awaitConnect target attempts => (c.tryDiscover target attempts, [])
    | .awaitHeartbeat => ({ c with phase := .beaten false }, [])
    | _ => (c, [])

def signs (c : SignalingClient) : Event → Option Bytes
  | .receive d true => match c.phase with
    | .awaitHello _ => (awaited .hello d).map (·.payload)
    | _ => none
  | _ => none

variable {c : SignalingClient} {e : Event}

theorem signs_sends {challenge : Bytes} (h : c.signs e = some challenge) :
    (c.step e).2 = [c.signedRegister challenge] := by
  unfold signs at h
  split at h
  · split at h
    · next d attempts hphase =>
      obtain ⟨packet, hpacket, rfl⟩ := Option.map_eq_some_iff.mp h
      simp only [step, hphase, hpacket, ↓reduceIte]
    · cases h
  · cases h

theorem tryRegister_fixed (c : SignalingClient) (attempts : Nat) :
    (c.tryRegister attempts).server = c.server ∧
      (c.tryRegister attempts).publicKey = c.publicKey ∧
      (c.tryRegister attempts).signer = c.signer := by
  cases attempts <;> exact ⟨rfl, rfl, rfl⟩

theorem tryDiscover_fixed (c : SignalingClient) (target : Bytes) (attempts : Nat) :
    (c.tryDiscover target attempts).server = c.server ∧
      (c.tryDiscover target attempts).publicKey = c.publicKey ∧
      (c.tryDiscover target attempts).signer = c.signer := by
  cases attempts <;> exact ⟨rfl, rfl, rfl⟩

theorem step_fixed (c : SignalingClient) (e : Event) :
    (c.step e).1.server = c.server ∧ (c.step e).1.publicKey = c.publicKey ∧
      (c.step e).1.signer = c.signer := by
  have hregister := tryRegister_fixed c
  have hdiscover := tryDiscover_fixed c
  cases e
  all_goals
    dsimp only [step]
    repeat' split
  all_goals first | exact ⟨rfl, rfl, rfl⟩ | exact hregister _ | exact hdiscover _ _

end SignalingClient

end OpenMesh.Net.Client
