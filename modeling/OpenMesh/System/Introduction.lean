import OpenMesh.Cli.Loops
import OpenMesh.Messaging.Secrecy
import OpenMesh.Signaling.Dialogue
import OpenMesh.System.Conversation

namespace OpenMesh.System.Introduction

open OpenMesh.Core.Buffers OpenMesh.Core.Hex OpenMesh.Crypto.Primitives
open OpenMesh.Crypto.Reference OpenMesh.Library.Runs
open OpenMesh.Protocol.Envelope OpenMesh.Protocol.EnvelopeCodec OpenMesh.Net.Transport
open OpenMesh.Net.Addresses OpenMesh.Net.Client OpenMesh.Storage.Database OpenMesh.Storage.Lookup
open OpenMesh.Messaging.Sessions OpenMesh.Messaging.Operations OpenMesh.Messaging.Pairs
open OpenMesh.Messaging.Projection (sealed_destination)
open OpenMesh.Messaging.Punching
  (homes later later_takes probe kMaxDatagram key_ne_nil sealedPacket_type)
open OpenMesh.Messaging.Routes OpenMesh.Messaging.Paths
open OpenMesh.Messaging.Nicknames (trustOf_setNickname)
open OpenMesh.Messaging.Secrecy (deserialize_received fits_sealed opens_sealed)
open OpenMesh.Signaling.Registry OpenMesh.Signaling.Server OpenMesh.Signaling.Expiry
open OpenMesh.Signaling.Dialogue (kMaxHost fits_toString)
open OpenMesh.Cli.Loops
open OpenMesh.System.Conversation (sealed_length agreement_isSome)

structure Net where
  home : Party → Endpoint
  server : Endpoint

/-- Two programs, a signaling server, and all that the server has sent out. -/
structure Town where
  programs : Party → Om
  server : SignalingServer
  outgoing : List Outgoing := []

inductive Event where
  | program (X : Party) (i : Input)
  | turn (r : Round)

def Town.step (C : Sodium) (w : Town) : Event → Town
  | .program X i =>
    { w with programs := Function.update w.programs X ((w.programs X).step C i) }
  | .turn r => { w with
      server := (runOnce C w.server r).1
      outgoing := w.outgoing ++ (runOnce C w.server r).2 }

/-- The network can bring the datagram to the address: one of the programs or the server has sent it
there. -/
def Town.Carries (w : Town) (N : Net) (dest : Endpoint) (d : Datagram) : Prop :=
  (∃ X, d.origin = N.home X ∧ ∃ p ∈ (w.programs X).engine.socket.sent, p.1 = dest ∧
    d.data = serialize p.2) ∨
  d.origin = N.server ∧ ∃ o ∈ w.outgoing, o.dest = dest ∧ d.data = serialize o.packet

def Posted (N : Net) (w : Town) : Event → Prop
  | .program X i => ∀ d ∈ i.incoming, w.Carries N (N.home X) d
  | .turn r => ∀ d ∈ r.incoming, w.Carries N N.server d

def latest (dest : Endpoint) (type : PacketType) (sent : List (Endpoint × Packet)) :
    Option Packet :=
  (sent.filter fun p => p.1 = dest ∧ p.2.type = type).getLast?.map (·.2)

/-- A program goes on without looking at the network, or takes the last packet of a type that the
server or the other program has sent it; or the server takes the last one of a program. -/
inductive Stage where
  | alone (X : Party) (env : Env)
  | told (X : Party) (type : PacketType) (env : Env)
  | met (X : Party) (type : PacketType) (env : Env)
  | asked (X : Party) (type : PacketType) (now : Int) (challenge : Challenge)

def Stage.event (N : Net) (w : Town) : Stage → Event
  | .alone X env => .program X { env }
  | .told X type env => .program X { env, incoming :=
      (latest (N.home X) type (w.outgoing.map fun o => (o.dest, o.packet))).map fun p =>
        ⟨N.server, serialize p⟩ }
  | .met X type env => .program X { env, incoming :=
      (latest (N.home X) type (w.programs X.other).engine.socket.sent).map fun p =>
        ⟨N.home X.other, serialize p⟩ }
  | .asked X type now challenge => .turn
      ⟨(latest N.server type (w.programs X).engine.socket.sent).map fun p =>
        ⟨N.home X, serialize p⟩, now, challenge⟩

structure Moments where
  typing : Env
  looking : Env
  reading : Env
  asking : Env
  warned : Env
  probed : Env
  asked : Env
  turning : Env
  answered : Env
  lookup : Int
  relayed : Int
  challenge : Challenge

/-- `/add` looks the other one up, and the server answers; it probes the other one, has the server
tell it so, and sends its request. The other probes it in turn, hears its probe and its request; and
it hears the probe of the other. -/
def introduction (X : Party) (m : Moments) : List Stage :=
  [.alone X m.typing, .alone X m.looking, .asked X .discover m.lookup m.challenge,
    .told X .connect m.reading, .alone X m.asking, .asked X .connect m.relayed m.challenge,
    .told X.other .connect m.warned, .met X.other .hello m.probed,
    .met X.other .contactRequest m.asked, .alone X m.turning, .met X .hello m.answered]

def bringing (env : Env) (origin : Endpoint) (p : Packet) : Input :=
  { env, incoming := some ⟨origin, serialize p⟩ }

def Roomy (env : Env) : Prop := ∀ dest data, data.length ≤ kMaxDatagram → env.takes dest data

section Packets

theorem latest_append (dest : Endpoint) (type : PacketType) (sent : List (Endpoint × Packet))
    (p : Endpoint × Packet) : latest dest type (sent ++ [p]) =
      if p.1 = dest ∧ p.2.type = type then some p.2 else latest dest type sent := by
  unfold latest
  rw [List.filter_append]
  by_cases hp : p.1 = dest ∧ p.2.type = type
  · rw [if_pos hp, List.filter_cons_of_pos (by simpa using hp), List.filter_nil,
      List.getLast?_concat]
    rfl
  · rw [if_neg hp, List.filter_cons_of_neg (by simpa using hp), List.filter_nil, List.append_nil]

theorem latest_skips {dest : Endpoint} {type : PacketType} {sent : List (Endpoint × Packet)}
    {p : Endpoint × Packet} (h : p.2.type ≠ type) :
    latest dest type (sent ++ [p]) = latest dest type sent := by
  rw [latest_append, if_neg fun hp => h hp.2]

theorem received_whole {p : Packet} (fits : Fits p)
    (hlen : (serialize p).length ≤ kReceiveBufferSize) (origin : Endpoint) :
    deserialize (receive ⟨origin, serialize p⟩).data = some p := by
  rw [deserialize_received fits origin, if_pos hlen]

theorem small_packet {p : Packet} (hversion : p.version = kProtocolVersion)
    (hsource : p.source.length ≤ kPublicKeyBytes)
    (hdestination : p.destination.length ≤ kPublicKeyBytes)
    (hpayload : p.payload.length ≤ kMaxHost + 6) :
    Fits p ∧ (serialize p).length ≤ kReceiveBufferSize := by
  rw [kPublicKeyBytes] at hsource hdestination
  rw [kMaxHost] at hpayload
  refine ⟨⟨hversion, by omega, by omega, by omega⟩, ?_⟩
  rw [serialize_length, kHeaderSize, kReceiveBufferSize]
  omega

end Packets

section Engines

variable {C : Sodium} {env : Env} {e : Engine} {peer : Bytes}

theorem sendProbe_taken (roomy : Roomy env) (e : Engine) (peer : Bytes) (dest : Endpoint)
    (hkeys : e.localPublic.length + peer.length ≤ 64) :
    e.sendProbe env peer dest = { e with socket := ⟨e.socket.sent ++
      [(dest, { type := .hello, source := e.localPublic, destination := peer })]⟩ } := by
  have htaken : env.takes dest (serialize
      { type := .hello, source := e.localPublic, destination := peer }) = true := by
    apply roomy
    rw [serialize_length, kHeaderSize, kMaxDatagram]
    dsimp only [List.length_nil]
    omega
  unfold Engine.sendProbe Engine.transmit UdpSocket.sendTo
  rw [if_pos htaken]

theorem startProbing_sends (roomy : Roomy env) (hkeys : e.localPublic.length + peer.length ≤ 64)
    (hpath : e.hasDirectPath peer = false) (candidate : Endpoint) :
    ∃ probes, e.startProbing env peer candidate = { e with
      probes
      socket := ⟨e.socket.sent ++
        [(candidate, { type := .hello, source := e.localPublic, destination := peer })]⟩ } := by
  unfold Engine.startProbing
  dsimp only
  unfold Engine.hasDirectPath at hpath
  cases hp : e.probes.lookup (toHex peer) with
  | none =>
    refine ⟨_, sendProbe_taken roomy _ peer candidate ?_⟩
    exact hkeys
  | some p =>
    rw [hp] at hpath
    dsimp only at hpath ⊢
    rw [if_neg (ne_true_of_eq_false hpath)]
    refine ⟨_, sendProbe_taken roomy _ peer candidate ?_⟩
    exact hkeys

theorem connect_sends (roomy : Roomy env) (hkeys : e.localPublic.length + peer.length ≤ 64)
    (hpath : e.hasDirectPath peer = false) (hrelay : e.relay = none) (candidate : Endpoint) :
    (∃ probes, (e.connect env peer candidate).1 = { e with
      probes
      endpoints := e.endpoints.insert (toHex peer) candidate
      socket := ⟨e.socket.sent ++
        [(candidate, { type := .hello, source := e.localPublic, destination := peer })]⟩ }) ∧
    (e.connect env peer candidate).1.hasDirectPath peer = false := by
  have hactive : e.relay.getD candidate = candidate := by
    rw [hrelay]
    rfl
  unfold Engine.connect
  dsimp only
  rw [hactive]
  constructor
  · let e₁ := { e with endpoints := e.endpoints.insert (toHex peer) candidate }
    exact startProbing_sends (e := e₁) roomy hkeys hpath candidate
  · rw [startProbing_hasDirectPath]
    exact hpath

theorem handleProbe_sends (roomy : Roomy env) (hkeys : e.localPublic.length + peer.length ≤ 64)
    (hpath : e.hasDirectPath peer = false) (origin : Endpoint) :
    ∃ probes, e.handleProbe env peer origin = { e with
      probes
      endpoints := e.endpoints.insert (toHex peer) origin
      socket := ⟨e.socket.sent ++
        [(origin, { type := .hello, source := e.localPublic, destination := peer })]⟩ } := by
  have hconfirmed : ((e.probes.lookup (toHex peer)).getD
      { peer := [], candidate := ⟨[], 0⟩, last := 0 }).confirmed = false := by
    unfold Engine.hasDirectPath at hpath
    cases hp : e.probes.lookup (toHex peer) with
    | none => rfl
    | some p =>
      rw [hp] at hpath
      exact hpath
  unfold Engine.handleProbe
  dsimp only
  rw [if_neg (ne_true_of_eq_false hconfirmed)]
  refine ⟨_, sendProbe_taken roomy _ peer origin ?_⟩
  exact hkeys

theorem handleConnect_sends (roomy : Roomy env) (hkeys : e.localPublic.length + peer.length ≤ 64)
    (hpath : e.hasDirectPath peer = false) {payload : Bytes} {candidate : Endpoint}
    (hp : parseEndpoint payload = some candidate) :
    (∃ probes endpoints, e.handleConnect env peer payload = { e with
      probes
      endpoints
      socket := ⟨e.socket.sent ++
        [(candidate, { type := .hello, source := e.localPublic, destination := peer })]⟩ }) ∧
    (e.handleConnect env peer payload).hasDirectPath peer = false := by
  constructor
  · unfold Engine.handleConnect
    rw [hp]
    dsimp only
    split
    · next relay _ _ =>
      let e₁ := { e with endpoints := e.endpoints.insert (toHex peer) relay }
      obtain ⟨probes, hsent⟩ := startProbing_sends (e := e₁) roomy hkeys hpath candidate
      exact ⟨probes, _, hsent⟩
    · obtain ⟨probes, hsent⟩ := startProbing_sends roomy hkeys hpath candidate
      exact ⟨probes, e.endpoints, hsent⟩
  · rw [handleConnect_hasDirectPath]
    exact hpath

section Polls

variable {d : Datagram} {packet : Packet}

theorem poll_connect (env : Env) (hp : deserialize (receive d).data = some packet)
    (htype : packet.type = .connect) :
    e.poll C env (some d) = (e.handleConnect env packet.source packet.payload, true) := by
  unfold Engine.poll
  rw [Option.map_some]
  dsimp only
  rw [hp]
  dsimp only
  rw [htype, if_neg (by decide), if_pos rfl]

theorem poll_hello (env : Env) (hp : deserialize (receive d).data = some packet)
    (htype : packet.type = .hello) (hdestination : packet.destination = e.localPublic)
    (hsource : packet.source ≠ []) :
    e.poll C env (some d) = (e.handleProbe env packet.source d.origin, true) := by
  unfold Engine.poll
  rw [Option.map_some]
  dsimp only
  rw [hp]
  dsimp only
  rw [htype, if_pos rfl, if_pos ⟨hdestination, hsource⟩]
  rfl

end Polls

theorem named_stranger (ht : e.trustOf peer = none) (name : Bytes) :
    (e.setNickname peer name).trustOf peer ≠ some .accepted := by
  have hnone : e.contacts.find peer = none := by
    rw [Engine.trustOf, Store.trustOf_eq_find, Option.map_eq_none_iff] at ht
    exact ht
  rw [Engine.trustOf, Engine.setNickname, Store.trustOf_upsert, if_pos rfl, hnone]
  intro haccepted
  cases haccepted

theorem request_leaves {s : Session} (ho : e.opened C peer = some s) (hv : s.valid)
    (hk : s.sharedKey.length = kSessionKeyBytes) (ht : e.trustOf peer ≠ some .accepted)
    (roomy : Roomy env) {name : Bytes}
    (hlen : s.localPublic.length + s.remotePublic.length + name.length + 59 ≤ kMaxDatagram)
    (endpoint : Endpoint) {e' : Engine}
    (he' : e' = (e.sendContactRequest C env peer endpoint name).1) :
    e'.socket.sent = e.socket.sent ++
      [(endpoint, Engine.sealedPacket C env s .contactRequest name)] ∧
    e'.trustOf peer = some .pending ∧ toHex peer ∈ e'.outgoingRequests ∧
    endpointOf e' peer = some endpoint ∧ e'.probes = e.probes ∧
    e'.localPublic = e.localPublic := by
  have htaken : env.takes endpoint
      (serialize (Engine.sealedPacket C env s .contactRequest name)) = true := by
    apply roomy
    rw [sealed_length env hv hk]
    exact hlen
  unfold Engine.sendContactRequest at he'
  rw [if_neg ht] at he'
  cases hs : e.ensureSession C peer with
  | none =>
    rw [Engine.ensureSession_eq_none hs] at ho
    cases ho
  | some made =>
    obtain ⟨e₁, s₁⟩ := made
    obtain ⟨ho₁, holds⟩ := Engine.ensureSession_eq_some hs
    obtain rfl := Option.some.inj (ho.symm.trans ho₁)
    rw [hs] at he'
    dsimp only at he'
    rw [Engine.sealAndSend_eq, Engine.post] at he'
    have hroute : ((({ e₁ with
        endpoints := e₁.endpoints.insert (toHex peer) endpoint
        outgoingRequests := insert (toHex peer) e₁.outgoingRequests } : Engine).setTrust peer
          .pending).endpoints.lookup (toHex peer)) = some endpoint := AList.lookup_insert _
    rw [hroute, Option.some_or] at he'
    dsimp only [UdpSocket.sendTo] at he'
    rw [if_pos htaken] at he'
    rw [he']
    refine ⟨?_, ?_, Finset.mem_insert_self _ _, AList.lookup_insert _, ?_, ?_⟩
    · change e₁.socket.sent ++ _ = _
      rw [holds.rest]
    · change (e₁.contacts.upsert _).trustOf peer = _
      rw [Store.trustOf_upsert]
      exact if_pos rfl
    · change e₁.probes = _
      rw [holds.rest]
    · change e₁.localPublic = _
      rw [holds.rest]

theorem mem_addRequest {s : Store} {q : Request} (h : ∀ q' ∈ s.requests, q'.peer ≠ q.peer) :
    q ∈ (s.addRequest q).requests := by
  have hnew : s.requests.any (·.peer = q.peer) = false := by
    rw [List.any_eq_false]
    intro q' hq'
    rw [decide_eq_true_eq]
    exact h q' hq'
  rw [Store.addRequest, hnew, if_neg Bool.false_ne_true, Store.save_requests]
  exact List.mem_append_right _ (List.mem_singleton.mpr rfl)

theorem stranger_surfaced (env : Env) (ht : e.trustOf peer = none)
    (hin : toHex peer ∉ e.incomingRequests) (hlisted : ∀ q ∈ e.pendingRequests, q.peer ≠ peer)
    (name : Bytes) :
    ∃ contacts, e.handleContactRequest env peer name = { e with
        contacts
        incomingRequests := insert (toHex peer) e.incomingRequests
        requestHandler := e.requestHandler.call (peer, name) } ∧
      contacts.trustOf peer = some .pending ∧
      ⟨peer, name, env.nowSeconds⟩ ∈ contacts.requests := by
  let e₁ := { e with incomingRequests := insert (toHex peer) e.incomingRequests }.setTrust peer
    .pending
  have htrust : e₁.trustOf peer = some .pending := by
    change (e.contacts.upsert _).trustOf peer = _
    rw [Store.trustOf_upsert]
    exact if_pos rfl
  have hrequests : e₁.contacts.requests = e.contacts.requests := Store.upsert_requests _ _
  have hunknown : ¬ ((e.trustOf peer).isSome ∨ toHex peer ∈ e.incomingRequests) := by
    rw [ht]
    exact fun h => h.elim Bool.noConfusion hin
  unfold Engine.handleContactRequest
  dsimp only
  rw [if_neg hunknown]
  change ∃ contacts, ({ (if name ≠ [] then e₁.setNickname peer name else e₁) with
      contacts := _, requestHandler := _ } : Engine) = _ ∧ _
  split
  · have hknown : e₁.trustOf peer ≠ none := by
      rw [htrust]
      exact Option.some_ne_none _
    have hnamed := (trustOf_setNickname e₁ peer name).mpr hknown
    refine ⟨_, rfl, ?_, mem_addRequest ?_⟩
    · rw [Store.addRequest_trustOf]
      exact (hnamed peer).trans htrust
    · intro q hq
      change q ∈ (e₁.contacts.upsert _).requests at hq
      rw [Store.upsert_requests, hrequests] at hq
      exact hlisted q hq
  · refine ⟨_, rfl, ?_, mem_addRequest ?_⟩
    · rw [Store.addRequest_trustOf]
      exact htrust
    · rw [hrequests]
      exact hlisted

theorem request_heard (env : Env) {d : Datagram} {packet : Packet} {t u : Session} {name : Bytes}
    (hp : deserialize (receive d).data = some packet) (htype : packet.type = .contactRequest)
    (ho : e.opened C packet.source = some t) (hopens : t.decrypt C packet = some (name, u))
    (hpath : e.hasDirectPath packet.source = true) (ht : e.trustOf packet.source = none)
    (hin : toHex packet.source ∉ e.incomingRequests)
    (hlisted : ∀ q ∈ e.pendingRequests, q.peer ≠ packet.source) {e' : Engine}
    (he' : e' = (e.poll C env (some d)).1) :
    (e.poll C env (some d)).2 = true ∧ e'.socket = e.socket ∧
    e'.trustOf packet.source = some .pending ∧
    ⟨packet.source, name, env.nowSeconds⟩ ∈ e'.pendingRequests ∧
    e'.requestHandler = e.requestHandler.call (packet.source, name) ∧
    e'.hasDirectPath packet.source = true ∧ e'.endpoints = e.endpoints := by
  unfold Engine.poll at he' ⊢
  rw [Option.map_some] at he' ⊢
  dsimp only at he' ⊢
  rw [hp] at he' ⊢
  dsimp only at he' ⊢
  rw [htype, if_neg (by decide), if_neg (by decide), if_neg (by simp)] at he' ⊢
  cases hs : e.ensureSession C packet.source with
  | none =>
    rw [Engine.ensureSession_eq_none hs] at ho
    cases ho
  | some made =>
    obtain ⟨e₁, t₁⟩ := made
    obtain ⟨ho₁, holds⟩ := Engine.ensureSession_eq_some hs
    obtain rfl := Option.some.inj (ho.symm.trans ho₁)
    rw [hs] at he'
    dsimp only at he' ⊢
    rw [hopens] at he' ⊢
    dsimp only at he' ⊢
    let e₂ := { e₁ with sessions := e₁.sessions.insert (toHex packet.source) u }
    have hkept : e₂ = { e with sessions := e₂.sessions } := by
      simp only [e₂]
      rw [holds.rest]
    have hpath₂ : e₂.hasDirectPath packet.source = true := by
      rw [hkept]
      exact hpath
    have htrust₂ : e₂.trustOf packet.source = none := by
      rw [hkept]
      exact ht
    have hin₂ : toHex packet.source ∉ e₂.incomingRequests := by
      rw [hkept]
      exact hin
    have hlisted₂ : ∀ q ∈ e₂.pendingRequests, q.peer ≠ packet.source := by
      rw [hkept]
      exact hlisted
    obtain ⟨contacts, hsurfaced, htrust, hmem⟩ := stranger_surfaced env htrust₂ hin₂ hlisted₂ name
    have hdispatch : e₂.dispatch env packet name (receive d).origin =
        (e₂.handleContactRequest env packet.source name, true) := by
      unfold Engine.dispatch
      dsimp only
      rw [if_pos hpath₂, htype]
    rw [hdispatch] at he' ⊢
    rw [he', hsurfaced, hkept]
    exact ⟨rfl, rfl, htrust, hmem, rfl, hpath, rfl⟩

end Engines

section Programs

variable {C : Sodium} {o : Om} {c : SignalingClient} {pk nickname : Bytes}

theorem looks_up (htui : o.app = .tui) (htask : o.task = .commands [.add nickname pk])
    (hsig : o.sig = some c) (hidle : c.busy = false) (env env' : Env) :
    (o.step C { env }).step C { env := env' } = { o with
      engine := { o.engine.setNickname pk nickname with
        socket := ⟨o.engine.socket.sent ++ [(c.server, { type := .discover, destination := pk })]⟩ }
      sig := some { c with phase := .awaitConnect pk 2 }
      task := .discovering pk [] } := by
  have hquery : o.step C { env } = { o with
      engine := o.engine.setNickname pk nickname
      sig := some { c with phase := .query pk 2 }
      task := .discovering pk [] } := by
    rw [Om.step, htask]
    dsimp only
    rw [Om.exec, htui, hsig]
    simp only [↓reduceIte, Option.isSome_some, Om.signal, SignalingClient.step, hidle,
      Bool.false_eq_true, SignalingClient.tryDiscover, kDefaultAttempts, List.map_nil,
      List.append_nil, Engine.setNickname]
  rw [hquery]
  simp only [Om.step, Om.busy, Om.wait, Om.awaiting, Option.any_some, SignalingClient.busy, awaits,
    ↓reduceIte, Bool.false_eq_true, Om.signal, SignalingClient.step, List.map_cons, List.map_nil,
    Engine.setNickname]

theorem reads_answer (htask : o.task = .discovering pk []) (hsig : o.sig = some c) {n : ℕ}
    (hphase : c.phase = .awaitConnect pk n) {d : Datagram} {packet : Packet}
    (hd : awaited .connect d = some packet) (env : Env) :
    o.step C { env, incoming := some d } = { o with
      sig := some { c with phase := .discovered ⟨true, parseEndpoint packet.payload⟩ }
      returned := o.returned ++ [receive d] } := by
  rw [Om.step, htask]
  simp only [Om.busy, Om.wait, Om.awaiting, hsig, Option.any_some, SignalingClient.busy, awaits,
    hphase, ↓reduceIte, Om.signal, SignalingClient.step, hd, List.map_nil, List.append_nil]
  rw [htask]

theorem introduces (htask : o.task = .discovering pk []) (hsig : o.sig = some c)
    {found mine : Endpoint} (hphase : c.phase = .discovered ⟨true, some found⟩)
    (hmine : c.publicEndpoint = some mine) (hrelay : o.engine.relay = none) (env : Env) :
    o.step C { env } = { o with
      engine := (({ (o.engine.connect env pk found).1 with
        socket := ⟨(o.engine.connect env pk found).1.socket.sent ++ [(c.server,
          { type := .connect, source := c.publicKey, destination := pk
            payload := mine.toString })]⟩ } : Engine).sendContactRequest C env pk found o.name).1
      task := .commands [] } := by
  have hactive : (o.engine.connect env pk found).2 = found := by
    rw [Engine.connect, hrelay]
    rfl
  rw [Om.step, htask]
  simp only [Om.busy, hsig, Option.any_some, SignalingClient.busy, hphase, Bool.false_eq_true,
    ↓reduceIte, Om.introduce, hmine, Om.signal, SignalingClient.step, List.map_cons, List.map_nil,
    hactive]

theorem polls (htask : o.task = .polling) (htui : o.app = .tui) {env : Env} {d : Datagram}
    {e : Engine} (hpoll : o.engine.poll C env (some d) = (e, true)) :
    (o.step C { env, incoming := some d }).task = .polling ∧
      (o.step C { env, incoming := some d }).app = .tui ∧
      (o.step C { env, incoming := some d }).engine = e := by
  rw [Om.step, htask]
  dsimp only
  rw [htui, hpoll, if_pos ⟨rfl, rfl⟩]
  exact ⟨rfl, rfl, rfl⟩

theorem turns (htask : o.task = .commands []) (htui : o.app = .tui) (i : Input) :
    o.step C i = { o with task := .polling } := by
  rw [Om.step, htask]
  dsimp only
  rw [if_pos (Or.inl htui)]

end Programs

section Server

variable {C : Sodium} {s : SignalingServer} {r : Round} {key : Bytes} {origin : Endpoint}
variable {packet : Packet} {entry : Entry}

theorem input_whole (hin : r.incoming = some ⟨origin, serialize packet⟩) (fits : Fits packet)
    (hlen : (serialize packet).length ≤ kReceiveBufferSize) :
    r.input = some (.handle packet origin r.now r.challenge) := by
  rw [Round.input, hin, Option.bind_some, received_whole fits hlen]
  rfl

theorem answers_lookup (hin : r.incoming = some ⟨origin, serialize packet⟩) (fits : Fits packet)
    (hlen : (serialize packet).length ≤ kReceiveBufferSize) (htype : packet.type = .discover)
    (hkey : packet.destination ≠ [])
    (hentry : s.registry.peers.lookup (toHex packet.destination) = some entry)
    (hfresh : r.now - s.config.peerTtlSeconds ≤ entry.lastSeen) :
    (runOnce C s r).2 = [⟨origin, { type := .connect, source := packet.destination
                                    payload := entry.endpoint.toString }⟩] ∧
    (runOnce C s r).1.registry.peers.lookup (toHex packet.destination) = some entry := by
  have hinput := input_whole hin fits hlen
  have hlookup : s.registry.lookup (toHex packet.destination) = some entry.endpoint := by
    rw [PeerRegistry.lookup, hentry]
    rfl
  constructor
  · rw [runOnce_eq, hinput]
    dsimp only
    rw [sends_discover htype hkey, hlookup]
    rfl
  · refine (entry_turn hinput).mpr ⟨?_, hfresh⟩
    rw [SignalingServer.step, SignalingServer.handle, htype]
    exact hentry

theorem relays_connect (hin : r.incoming = some ⟨origin, serialize packet⟩) (fits : Fits packet)
    (hlen : (serialize packet).length ≤ kReceiveBufferSize) (htype : packet.type = .connect)
    (hkey : packet.destination ≠ [])
    (hentry : s.registry.peers.lookup (toHex packet.destination) = some entry) :
    (runOnce C s r).2 = [⟨entry.endpoint, packet⟩] := by
  have hlookup : s.registry.lookup (toHex packet.destination) = some entry.endpoint := by
    rw [PeerRegistry.lookup, hentry]
    rfl
  rw [runOnce_eq, input_whole hin fits hlen]
  dsimp only
  rw [sends_connect htype hkey, hlookup]
  rfl

end Server

section Towns

variable {C : Sodium} (N : Net) (K : Keyring C) (X : Party)

def after (w : Town) (stages : List Stage) : Town :=
  stages.foldl (fun w stage => w.step C (stage.event N w)) w

def query : Packet := { type := .discover, destination := K.key X.other }

def found : Packet :=
  { type := .connect, source := K.key X.other, payload := (N.home X.other).toString }

def called : Packet :=
  { type := .connect, source := K.key X, destination := K.key X.other
    payload := (N.home X).toString }

def first : Session where
  localPublic := K.key X
  remotePublic := K.key X.other
  sharedKey := K.common
  valid := true

/-- The two do not know each other, and are both registered; one is about to add the other. -/
structure Strangers (nickname : Bytes) (entry : Entry) (w : Town) : Prop where
  tui : ∀ Z, (w.programs Z).app = .tui
  adding : (w.programs X).task = .commands [.add nickname (K.key X.other)]
  polling : (w.programs X.other).task = .polling
  client : ∃ c, (w.programs X).sig = some c ∧ c.server = N.server ∧ c.publicKey = K.key X ∧
    c.busy = false ∧ c.publicEndpoint = some (N.home X)
  localPublic : ∀ Z, (w.programs Z).engine.localPublic = K.key Z
  localSecret : ∀ Z, (w.programs Z).engine.localSecret = (K.identity Z).secretKey
  relayless : (w.programs X).engine.relay = none
  unknown : ∀ Z, (w.programs Z).engine.trustOf (K.key Z.other) = none
  unasked : toHex (K.key X) ∉ (w.programs X.other).engine.incomingRequests
  unlisted : ∀ q ∈ (w.programs X.other).engine.pendingRequests, q.peer ≠ K.key X
  pathless : ∀ Z, (w.programs Z).engine.hasDirectPath (K.key Z.other) = false
  sessionless : ∀ Z, (w.programs Z).engine.session (K.key Z.other) = none
  registered : w.server.registry.peers.lookup (toHex (K.key X.other)) = some entry
  located : entry.endpoint = N.home X.other
  named : ∀ Z, (N.home Z).host.length < kMaxHost

/-- The programs have the clocks and the room that they need, and the server has not forgotten. -/
structure Timely (m : Moments) (w : Town) (entry : Entry) : Prop where
  asking : Roomy m.asking
  warned : Roomy m.warned
  probed : Roomy m.probed
  answered : Roomy m.answered
  fresh : m.lookup - w.server.config.peerTtlSeconds ≤ entry.lastSeen

/-- One has been told where the other is. -/
structure Found (nickname : Bytes) (entry : Entry) (c : SignalingClient) (w w' : Town) : Prop where
  tui : (w'.programs X).app = .tui
  task : (w'.programs X).task = .discovering (K.key X.other) []
  name : (w'.programs X).name = (w.programs X).name
  sig : (w'.programs X).sig = some
    { c with phase := .discovered ⟨true, some (N.home X.other)⟩ }
  engine : (w'.programs X).engine =
    { (w.programs X).engine.setNickname (K.key X.other) nickname with
      socket := ⟨(w.programs X).engine.socket.sent ++ [(N.server, query K X)]⟩ }
  other : w'.programs X.other = w.programs X.other
  registered : w'.server.registry.peers.lookup (toHex (K.key X.other)) = some entry

/-- One has asked, and the server and the other have it all before them. -/
structure Asked (entry : Entry) (sealing : Env) (s : Session) (w w' : Town) : Prop where
  other : w'.programs X.other = w.programs X.other
  tui : (w'.programs X).app = .tui
  task : (w'.programs X).task = .commands []
  localPublic : (w'.programs X).engine.localPublic = K.key X
  pathless : (w'.programs X).engine.hasDirectPath (K.key X.other) = false
  trust : (w'.programs X).engine.trustOf (K.key X.other) = some .pending
  outgoing : toHex (K.key X.other) ∈ (w'.programs X).engine.outgoingRequests
  registered : w'.server.registry.peers.lookup (toHex (K.key X.other)) = some entry
  called : latest N.server .connect (w'.programs X).engine.socket.sent = some (called N K X)
  probed : latest (N.home X.other) .hello (w'.programs X).engine.socket.sent = some (probe K X)
  asked : latest (N.home X.other) .contactRequest (w'.programs X).engine.socket.sent =
    some (Engine.sealedPacket C sealing s .contactRequest (w.programs X).name)

/-- The other has probed in turn, and knows who asks. -/
structure Heard (name : Bytes) (w w' : Town) : Prop where
  asker : w'.programs X = w.programs X
  path : (w'.programs X.other).engine.hasDirectPath (K.key X) = true
  endpoint : endpointOf (w'.programs X.other).engine (K.key X) = some (N.home X)
  trust : (w'.programs X.other).engine.trustOf (K.key X) = some .pending
  listed : ∃ q ∈ (w'.programs X.other).engine.pendingRequests, q.peer = K.key X ∧ q.greeting = name
  surfaced : (w'.programs X.other).engine.requestHandler =
    (w.programs X.other).engine.requestHandler.call (K.key X, name)
  probed : latest (N.home X) .hello (w'.programs X.other).engine.socket.sent =
    some (probe K X.other)

variable {N K X} {nickname : Bytes} {entry : Entry} {w : Town} {m : Moments}

@[simp] theorem programs_self (w : Town) (X : Party) (i : Input) :
    (w.step C (.program X i)).programs X = (w.programs X).step C i := Function.update_self ..

@[simp] theorem programs_other (w : Town) (X : Party) (i : Input) :
    (w.step C (.program X i)).programs X.other = w.programs X.other :=
  Function.update_of_ne X.other_ne ..

@[simp] theorem programs_self_other (w : Town) (X : Party) (i : Input) :
    (w.step C (.program X.other i)).programs X = w.programs X :=
  Function.update_of_ne X.ne_other ..

@[simp] theorem programs_turn (w : Town) (r : Round) :
    (w.step C (.turn r)).programs = w.programs := rfl

theorem opened_first (strangers : Strangers N K X nickname entry w)
    (agree : (agreeSharedKey C (K.identity .A).secretKey (K.key .B)).isSome) (Z : Party) :
    (w.programs Z).engine.opened C (K.key Z.other) = some (first K Z) ∧
      K.common.length = kSessionKeyBytes := by
  obtain ⟨key, hkey⟩ := Option.isSome_iff_exists.mp (agreement_isSome agree Z)
  have hcommon : K.common = key := by
    rw [← K.common_eq Z, hkey]
    rfl
  refine ⟨?_, by rw [hcommon, (agreeSharedKey_length hkey).2]⟩
  unfold Engine.opened
  rw [strangers.sessionless, strangers.localPublic, strangers.localSecret, Session.new, hkey, first,
    hcommon]
  rfl

theorem fits_query (K : Keyring C) (X : Party) :
    Fits (query K X) ∧ (serialize (query K X)).length ≤ kReceiveBufferSize :=
  small_packet rfl (Nat.zero_le _) (K.key_length X.other).le (Nat.zero_le _)

theorem fits_found (strangers : Strangers N K X nickname entry w) :
    Fits (found N K X) ∧ (serialize (found N K X)).length ≤ kReceiveBufferSize := by
  apply small_packet rfl (K.key_length X.other).le (Nat.zero_le _)
  have hlen := toString_length (N.home X.other)
  have hnamed := strangers.named X.other
  rw [found]
  dsimp only
  omega

theorem fits_called (strangers : Strangers N K X nickname entry w) :
    Fits (called N K X) ∧ (serialize (called N K X)).length ≤ kReceiveBufferSize := by
  apply small_packet rfl (K.key_length X).le (K.key_length X.other).le
  have hlen := toString_length (N.home X)
  have hnamed := strangers.named X
  rw [called]
  dsimp only
  omega

theorem fits_probe (K : Keyring C) (X : Party) :
    Fits (probe K X) ∧ (serialize (probe K X)).length ≤ kReceiveBufferSize :=
  small_packet rfl (K.key_length X).le (K.key_length X.other).le (Nat.zero_le _)

theorem finds (strangers : Strangers N K X nickname entry w) (timely : Timely m w entry)
    {c : SignalingClient} (hsig : (w.programs X).sig = some c) (hserver : c.server = N.server)
    (hidle : c.busy = false) {w' : Town}
    (hw' : w' = after (C := C) N w ((introduction X m).take 4)) :
    Found N K X nickname entry c w w' := by
  obtain ⟨w₂, hw₂⟩ : ∃ w₂, w₂ = (w.step C (.program X { env := m.typing })).step C
    (.program X { env := m.looking }) := ⟨_, rfl⟩
  have ho₂ : w₂.programs X = { w.programs X with
      engine := { (w.programs X).engine.setNickname (K.key X.other) nickname with
        socket := ⟨(w.programs X).engine.socket.sent ++ [(N.server, query K X)]⟩ }
      sig := some { c with phase := .awaitConnect (K.key X.other) 2 }
      task := .discovering (K.key X.other) [] } := by
    rw [hw₂, programs_self, programs_self, ← hserver]
    exact looks_up (strangers.tui X) strangers.adding hsig hidle m.typing m.looking
  have hother₂ : w₂.programs X.other = w.programs X.other := by
    rw [hw₂, programs_other, programs_other]
  have hserver₂ : w₂.server = w.server ∧ w₂.outgoing = w.outgoing := by
    rw [hw₂]
    exact ⟨rfl, rfl⟩
  obtain ⟨r, hr⟩ : ∃ r : Round,
    r = ⟨some ⟨N.home X, serialize (query K X)⟩, m.lookup, m.challenge⟩ := ⟨_, rfl⟩
  obtain ⟨w₃, hw₃⟩ : ∃ w₃, w₃ = w₂.step C (.turn r) := ⟨_, rfl⟩
  have hevent₃ : (Stage.asked X .discover m.lookup m.challenge).event N w₂ = .turn r := by
    rw [Stage.event, ho₂, hr]
    dsimp only
    rw [latest_append, if_pos ⟨rfl, rfl⟩]
    rfl
  have hanswer : (runOnce C w₂.server r).2 = [⟨N.home X, found N K X⟩] ∧
      (runOnce C w₂.server r).1.registry.peers.lookup (toHex (K.key X.other)) = some entry := by
    have hentry : w₂.server.registry.peers.lookup (toHex (query K X).destination) = some entry := by
      rw [hserver₂.1]
      exact strangers.registered
    have hfresh : r.now - w₂.server.config.peerTtlSeconds ≤ entry.lastSeen := by
      rw [hserver₂.1, hr]
      exact timely.fresh
    have hin : r.incoming = some ⟨N.home X, serialize (query K X)⟩ := by rw [hr]
    obtain ⟨fits, hlen⟩ := fits_query K X
    have hanswered := answers_lookup (C := C) hin fits hlen rfl (key_ne_nil _) hentry hfresh
    rw [strangers.located] at hanswered
    exact hanswered
  have hevent₄ : (Stage.told X .connect m.reading).event N w₃ =
      .program X (bringing m.reading N.server (found N K X)) := by
    have houtgoing : w₃.outgoing = w.outgoing ++ [⟨N.home X, found N K X⟩] := by
      rw [hw₃, Town.step, hanswer.1, hserver₂.2]
    rw [Stage.event, houtgoing, List.map_append, List.map_singleton, latest_append,
      if_pos ⟨rfl, rfl⟩]
    rfl
  obtain ⟨w₄, hw₄⟩ : ∃ w₄, w₄ = w₃.step C (.program X
    (bringing m.reading N.server (found N K X))) := ⟨_, rfl⟩
  have hread : awaited .connect ⟨N.server, serialize (found N K X)⟩ = some (found N K X) := by
    obtain ⟨fits, hlen⟩ := fits_found strangers
    rw [awaited, received_whole fits hlen, Option.filter_some]
    rfl
  have ho₄ : w₄.programs X = { w₂.programs X with
      sig := some { c with phase := .discovered ⟨true, some (N.home X.other)⟩ }
      returned := (w₂.programs X).returned ++ [receive ⟨N.server, serialize (found N K X)⟩] } := by
    have hprogram : w₃.programs X = w₂.programs X := by rw [hw₃, programs_turn]
    rw [hw₄, programs_self, hprogram, bringing, reads_answer (by rw [ho₂]) (by rw [ho₂]) rfl hread]
    rw [found, parseEndpoint_toString]
  have hw : w' = w₄ := by
    rw [hw', hw₄, ← hevent₄, hw₃, ← hevent₃, hw₂]
    rfl
  rw [ho₂] at ho₄
  rw [hw]
  refine ⟨?_, ?_, ?_, ?_, ?_, ?_, ?_⟩
  · rw [ho₄]
    exact strangers.tui X
  · rw [ho₄]
  · rw [ho₄]
  · rw [ho₄]
  · rw [ho₄]
  · rw [hw₄, programs_other, hw₃]
    exact hother₂
  · rw [hw₄, Town.step, hw₃]
    exact hanswer.2

theorem asks (strangers : Strangers N K X nickname entry w) (timely : Timely m w entry)
    (agree : (agreeSharedKey C (K.identity .A).secretKey (K.key .B)).isSome)
    (hname : (w.programs X).name.length ≤ kLongestText) {w' : Town}
    (hw' : w' = after (C := C) N w ((introduction X m).take 5)) :
    Asked N K X entry m.asking (first K X) w w' := by
  obtain ⟨c, hsig, hserver, hpublic, hidle, hmine⟩ := strangers.client
  obtain ⟨hopened, hlen⟩ := opened_first strangers agree X
  obtain ⟨w₄, hw₄⟩ : ∃ w₄, w₄ = after (C := C) N w ((introduction X m).take 4) := ⟨_, rfl⟩
  have found := finds strangers timely hsig hserver hidle hw₄
  have hw : w' = w₄.step C (.program X { env := m.asking }) := by
    rw [hw', hw₄]
    rfl
  have hrelay : (w₄.programs X).engine.relay = none := by
    rw [found.engine]
    exact strangers.relayless
  have hpath : (w₄.programs X).engine.hasDirectPath (K.key X.other) = false := by
    rw [found.engine]
    exact strangers.pathless X
  have hlocal : (w₄.programs X).engine.localPublic = K.key X := by
    rw [found.engine]
    exact strangers.localPublic X
  have hkeys : (w₄.programs X).engine.localPublic.length + (K.key X.other).length ≤ 64 := by
    rw [hlocal, K.key_length, K.key_length]
    decide
  obtain ⟨⟨probes, hconnect⟩, hpath'⟩ :=
    connect_sends timely.asking hkeys hpath hrelay (N.home X.other)
  obtain ⟨e₁, he₁⟩ : ∃ e₁ : Engine, e₁ =
      { ((w₄.programs X).engine.connect m.asking (K.key X.other) (N.home X.other)).1 with
        socket := ⟨((w₄.programs X).engine.connect m.asking (K.key X.other)
          (N.home X.other)).1.socket.sent ++ [(N.server, called N K X)]⟩ } := ⟨_, rfl⟩
  have hprogram := introduces (C := C) found.task found.sig rfl hmine hrelay m.asking
  rw [hserver, hpublic, ← called, ← he₁] at hprogram
  have hsent : e₁.socket.sent = (w₄.programs X).engine.socket.sent ++
      [(N.home X.other, probe K X)] ++ [(N.server, called N K X)] := by
    rw [he₁, hconnect, hlocal]
    rfl
  have hopened₁ : e₁.opened C (K.key X.other) = (w.programs X).engine.opened C (K.key X.other) := by
    rw [he₁, hconnect, found.engine]
    rfl
  have ht : e₁.trustOf (K.key X.other) ≠ some .accepted := by
    rw [he₁, hconnect, found.engine]
    exact named_stranger (strangers.unknown X) nickname
  have hpath₁ : e₁.hasDirectPath (K.key X.other) = false := by
    rw [he₁]
    exact hpath'
  have hlocal₁ : e₁.localPublic = K.key X := by
    rw [he₁, hconnect]
    exact hlocal
  have hsize : (K.key X).length + (K.key X.other).length + (w₄.programs X).name.length + 59 ≤
      kMaxDatagram := by
    rw [K.key_length, K.key_length, found.name, kPublicKeyBytes, kMaxDatagram]
    rw [kLongestText] at hname
    omega
  rw [hopened] at hopened₁
  obtain ⟨hsent', htrust, hout, -, hprobes, hlocal'⟩ :=
    request_leaves hopened₁ rfl hlen ht timely.asking hsize (N.home X.other) rfl
  have htype : (Engine.sealedPacket C m.asking (first K X) .contactRequest
      (w₄.programs X).name).type = .contactRequest := sealedPacket_type _ _ _
  rw [hw]
  refine ⟨?_, ?_, ?_, ?_, ?_, ?_, ?_, ?_, ?_, ?_, ?_⟩
  · rw [programs_other]
    exact found.other
  · rw [programs_self, hprogram]
    exact found.tui
  · rw [programs_self, hprogram]
  · rw [programs_self, hprogram]
    exact hlocal'.trans hlocal₁
  · rw [programs_self, hprogram, Engine.hasDirectPath, hprobes]
    exact hpath₁
  · rw [programs_self, hprogram]
    exact htrust
  · rw [programs_self, hprogram]
    exact hout
  · exact found.registered
  · rw [programs_self, hprogram]
    dsimp only
    rw [hsent', hsent, latest_skips (by rw [htype]; decide), latest_append, if_pos ⟨rfl, rfl⟩]
  · rw [programs_self, hprogram]
    dsimp only
    rw [hsent', hsent, latest_skips (by rw [htype]; decide),
      latest_skips (by change PacketType.connect ≠ .hello; decide), latest_append,
      if_pos ⟨rfl, rfl⟩]
  · rw [programs_self, hprogram]
    dsimp only
    rw [hsent', latest_append, if_pos ⟨rfl, htype⟩, found.name]

theorem relays (strangers : Strangers N K X nickname entry w) {sealing : Env} {w₅ w₆ : Town}
    (asked : Asked N K X entry sealing (first K X) w w₅) {now : Int} {challenge : Challenge}
    (hw₆ : w₆ = w₅.step C ((Stage.asked X .connect now challenge).event N w₅)) :
    w₆.programs = w₅.programs ∧
    latest (N.home X.other) .connect (w₆.outgoing.map fun o => (o.dest, o.packet)) =
      some (called N K X) := by
  obtain ⟨fits, hlen⟩ := fits_called strangers
  let r : Round := ⟨some ⟨N.home X, serialize (called N K X)⟩, now, challenge⟩
  have hrelayed := relays_connect (C := C) (r := r) rfl fits hlen rfl (key_ne_nil _)
    asked.registered
  rw [strangers.located] at hrelayed
  rw [Stage.event, asked.called] at hw₆
  rw [hw₆]
  refine ⟨programs_turn _ _, ?_⟩
  change latest _ _ ((w₅.outgoing ++ (runOnce C w₅.server _).2).map _) = _
  rw [Option.map_some, hrelayed, List.map_append, List.map_singleton, latest_append,
    if_pos ⟨rfl, rfl⟩]

structure Unacquainted (K : Keyring C) (X : Party) (e : Engine) : Prop where
  localPublic : e.localPublic = K.key X.other
  unknown : e.trustOf (K.key X) = none
  unasked : toHex (K.key X) ∉ e.incomingRequests
  unlisted : ∀ q ∈ e.pendingRequests, q.peer ≠ K.key X
  opened : e.opened C (K.key X) = some (first K X.other)

section Other

variable {env : Env} {e : Engine}

theorem Unacquainted.paths (h : Unacquainted K X e) (probes : Table Probe)
    (endpoints : Table Endpoint) (socket : UdpSocket) :
    Unacquainted K X { e with probes, endpoints, socket } :=
  ⟨h.localPublic, h.unknown, h.unasked, h.unlisted, h.opened⟩

theorem Unacquainted.keys (h : Unacquainted K X e) :
    e.localPublic.length + (K.key X).length ≤ 64 := by
  rw [h.localPublic, K.key_length, K.key_length]
  decide

theorem Unacquainted.warned (h : Unacquainted K X e) (roomy : Roomy env)
    (hpath : e.hasDirectPath (K.key X) = false) (fits : Fits (called N K X))
    (hlen : (serialize (called N K X)).length ≤ kReceiveBufferSize) :
    ∃ e', e.poll C env (some ⟨N.server, serialize (called N K X)⟩) = (e', true) ∧
      Unacquainted K X e' ∧ e'.hasDirectPath (K.key X) = false ∧
      e'.requestHandler = e.requestHandler := by
  obtain ⟨⟨probes, endpoints, hengine⟩, hpath'⟩ := handleConnect_sends roomy h.keys hpath
    (parseEndpoint_toString (N.home X))
  refine ⟨_, poll_connect env (received_whole fits hlen N.server) rfl, ?_, hpath', ?_⟩
  · change Unacquainted K X (e.handleConnect env (K.key X) (N.home X).toString)
    rw [hengine]
    exact h.paths _ _ _
  · change (e.handleConnect env (K.key X) (N.home X).toString).requestHandler = _
    rw [hengine]

theorem Unacquainted.probed (h : Unacquainted K X e) (roomy : Roomy env)
    (hpath : e.hasDirectPath (K.key X) = false) :
    ∃ e', e.poll C env (some ⟨N.home X, serialize (probe K X)⟩) = (e', true) ∧
      Unacquainted K X e' ∧ e'.hasDirectPath (K.key X) = true ∧
      e'.requestHandler = e.requestHandler ∧ endpointOf e' (K.key X) = some (N.home X) ∧
      latest (N.home X) .hello e'.socket.sent = some (probe K X.other) := by
  obtain ⟨fits, hlen⟩ := fits_probe K X
  obtain ⟨probes, hengine⟩ := handleProbe_sends roomy h.keys hpath (N.home X)
  have hpath' := (handleProbe_frame env e (K.key X) (N.home X)).2 (K.key X)
  rw [if_pos rfl] at hpath'
  refine ⟨e.handleProbe env (K.key X) (N.home X), poll_hello env
    (received_whole fits hlen (N.home X)) rfl h.localPublic.symm (key_ne_nil X), ?_, hpath', ?_⟩
  · rw [hengine]
    exact h.paths _ _ _
  · rw [hengine]
    refine ⟨rfl, AList.lookup_insert _, ?_⟩
    rw [latest_append, if_pos ⟨rfl, rfl⟩, h.localPublic, probe, Party.other_other]

theorem Unacquainted.requested (h : Unacquainted K X e)
    (hpath : e.hasDirectPath (K.key X) = true) (hkey : K.common.length = kSessionKeyBytes)
    (sealing : Env) {name : Bytes} (hname : name.length ≤ kLongestText) :
    ∃ e', e.poll C env (some ⟨N.home X, serialize
        (Engine.sealedPacket C sealing (first K X) .contactRequest name)⟩) = (e', true) ∧
      e'.socket = e.socket ∧ e'.trustOf (K.key X) = some .pending ∧
      (∃ q ∈ e'.pendingRequests, q.peer = K.key X ∧ q.greeting = name) ∧
      e'.requestHandler = e.requestHandler.call (K.key X, name) ∧
      e'.hasDirectPath (K.key X) = true ∧ e'.endpoints = e.endpoints := by
  have hsize : (serialize (Engine.sealedPacket C sealing (first K X) .contactRequest name)).length ≤
      kReceiveBufferSize := by
    rw [sealed_length sealing rfl hkey]
    change (K.key X).length + (K.key X.other).length + name.length + 59 ≤ _
    rw [K.key_length, K.key_length, kPublicKeyBytes, kReceiveBufferSize]
    rw [kLongestText] at hname
    omega
  have fits : Fits (Engine.sealedPacket C sealing (first K X) .contactRequest name) := by
    apply fits_sealed sealing rfl
    rw [kMaxDatagram]
    rw [kReceiveBufferSize] at hsize
    omega
  have hsource : (Engine.sealedPacket C sealing (first K X) .contactRequest name).source =
      K.key X := by
    rw [Engine.sealedPacket, Session.encryptAs_packet sealing.nonce rfl]
    rfl
  have hopens := opens_sealed (C := C) (s := first K X) (t := first K X.other) sealing rfl hkey rfl
    (by rw [first, first, Party.other_other]) rfl
    (fun hreceived => absurd hreceived Bool.false_ne_true) rfl .contactRequest name
  obtain ⟨e', he'⟩ : ∃ e', e' = (e.poll C env (some ⟨N.home X, serialize
    (Engine.sealedPacket C sealing (first K X) .contactRequest name)⟩)).1 := ⟨_, rfl⟩
  have hheard := request_heard env (received_whole fits hsize (N.home X))
    (sealedPacket_type _ _ _) (by rw [hsource]; exact h.opened) hopens
    (by rw [hsource]; exact hpath) (by rw [hsource]; exact h.unknown)
    (by rw [hsource]; exact h.unasked)
    (by rw [hsource]; exact h.unlisted) he'
  rw [hsource] at hheard
  obtain ⟨hmore, hsocket, htrust, hlisted, hhandler, hpath', hendpoints⟩ := hheard
  exact ⟨e', Prod.ext he'.symm hmore, hsocket, htrust, ⟨_, hlisted, rfl, rfl⟩, hhandler, hpath',
    hendpoints⟩

end Other

theorem unacquainted (strangers : Strangers N K X nickname entry w)
    (agree : (agreeSharedKey C (K.identity .A).secretKey (K.key .B)).isSome) :
    Unacquainted K X (w.programs X.other).engine := by
  have hunknown := strangers.unknown X.other
  have hopened := (opened_first strangers agree X.other).1
  rw [Party.other_other] at hunknown hopened
  exact ⟨strangers.localPublic X.other, hunknown, strangers.unasked, strangers.unlisted, hopened⟩

theorem program_polls {w' : Town} {Z : Party} {env : Env} {origin : Endpoint} {p : Packet}
    {e : Engine} (htask : (w.programs Z).task = .polling) (htui : (w.programs Z).app = .tui)
    (hpoll : (w.programs Z).engine.poll C env (some ⟨origin, serialize p⟩) = (e, true))
    (hw' : w' = w.step C (.program Z (bringing env origin p))) :
    (w'.programs Z).task = .polling ∧ (w'.programs Z).app = .tui ∧
      (w'.programs Z).engine = e := by
  rw [hw', programs_self]
  exact polls htask htui hpoll

theorem hears (strangers : Strangers N K X nickname entry w) (timely : Timely m w entry)
    (agree : (agreeSharedKey C (K.identity .A).secretKey (K.key .B)).isSome) {name : Bytes}
    (hname : name.length ≤ kLongestText) {w₆ w₉ : Town}
    (hother : w₆.programs X.other = w.programs X.other)
    (hcalled : latest (N.home X.other) .connect (w₆.outgoing.map fun o => (o.dest, o.packet)) =
      some (called N K X))
    (hprobed : latest (N.home X.other) .hello (w₆.programs X).engine.socket.sent = some (probe K X))
    (hasked : latest (N.home X.other) .contactRequest (w₆.programs X).engine.socket.sent =
      some (Engine.sealedPacket C m.asking (first K X) .contactRequest name))
    (hw₉ : w₉ = after (C := C) N w₆ [.told X.other .connect m.warned, .met X.other .hello m.probed,
      .met X.other .contactRequest m.asked]) : Heard N K X name w₆ w₉ := by
  have hpath := strangers.pathless X.other
  rw [Party.other_other] at hpath
  obtain ⟨fits, hlen⟩ := fits_called strangers
  have hkey := (opened_first strangers agree X).2
  obtain ⟨w₇, hw₇⟩ : ∃ w₇, w₇ = w₆.step C (.program X.other
    (bringing m.warned N.server (called N K X))) := ⟨_, rfl⟩
  have hevent₇ : (Stage.told X.other .connect m.warned).event N w₆ =
      .program X.other (bringing m.warned N.server (called N K X)) := by
    rw [Stage.event, hcalled]
    rfl
  obtain ⟨e₇, hpoll₇, known₇, hpath₇, hhandler₇⟩ :=
    (unacquainted strangers agree).warned timely.warned hpath fits hlen
  rw [← hother] at hpoll₇
  obtain ⟨htask₇, htui₇, rfl⟩ := program_polls (by rw [hother]; exact strangers.polling)
    (by rw [hother]; exact strangers.tui X.other) hpoll₇ hw₇
  have hasker₇ : w₇.programs X = w₆.programs X := by rw [hw₇, programs_self_other]
  obtain ⟨w₈, hw₈⟩ : ∃ w₈, w₈ = w₇.step C (.program X.other
    (bringing m.probed (N.home X) (probe K X))) := ⟨_, rfl⟩
  have hevent₈ : (Stage.met X.other .hello m.probed).event N w₇ =
      .program X.other (bringing m.probed (N.home X) (probe K X)) := by
    rw [Stage.event, Party.other_other, hasker₇, hprobed]
    rfl
  obtain ⟨e₈, hpoll₈, known₈, hpath₈, hhandler₈, hendpoint₈, hreply⟩ :=
    known₇.probed (N := N) timely.probed hpath₇
  obtain ⟨htask₈, htui₈, rfl⟩ := program_polls htask₇ htui₇ hpoll₈ hw₈
  have hasker₈ : w₈.programs X = w₆.programs X := by rw [hw₈, programs_self_other, hasker₇]
  obtain ⟨w, hw⟩ : ∃ w, w = w₈.step C (.program X.other (bringing m.asked (N.home X)
    (Engine.sealedPacket C m.asking (first K X) .contactRequest name))) := ⟨_, rfl⟩
  have hevent₉ : (Stage.met X.other .contactRequest m.asked).event N w₈ =
      .program X.other (bringing m.asked (N.home X)
        (Engine.sealedPacket C m.asking (first K X) .contactRequest name)) := by
    rw [Stage.event, Party.other_other, hasker₈, hasked]
    rfl
  obtain ⟨e₉, hpoll₉, hsocket, htrust, hlisted, hhandler, hpath₉, hendpoints⟩ :=
    known₈.requested (N := N) hpath₈ hkey m.asking hname
  obtain ⟨-, -, rfl⟩ := program_polls htask₈ htui₈ hpoll₉ hw
  have hlast : w₉ = w := by
    rw [hw₉, hw, ← hevent₉, hw₈, ← hevent₈, hw₇, ← hevent₇]
    rfl
  rw [hlast]
  refine ⟨?_, hpath₉, ?_, htrust, hlisted, ?_, ?_⟩
  · rw [hw, programs_self_other, hasker₈]
  · rw [endpointOf, hendpoints]
    exact hendpoint₈
  · rw [hhandler, hhandler₈, hhandler₇, hother]
  · rw [hsocket]
    exact hreply

theorem answered (timely : Timely m w entry) {name : Bytes} {s : Session} {w₆ w₉ w' : Town}
    (asked : Asked N K X entry m.asking s w w₆) (heard : Heard N K X name w₆ w₉)
    (hw' : w' = after (C := C) N w₉ [.alone X m.turning, .met X .hello m.answered]) :
    w'.programs X.other = w₉.programs X.other ∧
    (w'.programs X).engine.hasDirectPath (K.key X.other) = true ∧
    endpointOf (w'.programs X).engine (K.key X.other) = some (N.home X.other) ∧
    (w'.programs X).engine.trustOf (K.key X.other) = some .pending ∧
    toHex (K.key X.other) ∈ (w'.programs X).engine.outgoingRequests := by
  obtain ⟨fits, hlen⟩ := fits_probe K X.other
  obtain ⟨w₁₀, hw₁₀⟩ : ∃ w₁₀, w₁₀ = w₉.step C (.program X { env := m.turning }) := ⟨_, rfl⟩
  have ho₁₀ : w₁₀.programs X = { w₆.programs X with task := .polling } := by
    rw [hw₁₀, programs_self, heard.asker]
    exact turns asked.task asked.tui _
  have hother₁₀ : w₁₀.programs X.other = w₉.programs X.other := by
    rw [hw₁₀, programs_other]
  obtain ⟨w₁₁, hw₁₁⟩ : ∃ w₁₁, w₁₁ = w₁₀.step C (.program X
    (bringing m.answered (N.home X.other) (probe K X.other))) := ⟨_, rfl⟩
  have hevent : (Stage.met X .hello m.answered).event N w₁₀ =
      .program X (bringing m.answered (N.home X.other) (probe K X.other)) := by
    rw [Stage.event, hother₁₀, heard.probed]
    rfl
  have hkeys : (w₆.programs X).engine.localPublic.length + (K.key X.other).length ≤ 64 := by
    rw [asked.localPublic, K.key_length, K.key_length]
    decide
  obtain ⟨probes, hengine⟩ :=
    handleProbe_sends timely.answered hkeys asked.pathless (N.home X.other)
  have hpath := (handleProbe_frame m.answered (w₆.programs X).engine (K.key X.other)
    (N.home X.other)).2 (K.key X.other)
  rw [if_pos rfl] at hpath
  have hdestination : (probe K X.other).destination = (w₆.programs X).engine.localPublic := by
    rw [asked.localPublic, probe, Party.other_other]
  have hpoll : (w₁₀.programs X).engine.poll C m.answered
      (some ⟨N.home X.other, serialize (probe K X.other)⟩) =
      ((w₆.programs X).engine.handleProbe m.answered (K.key X.other) (N.home X.other), true) := by
    rw [ho₁₀]
    exact poll_hello m.answered (received_whole fits hlen (N.home X.other)) rfl hdestination
      (key_ne_nil X.other)
  have htask : (w₁₀.programs X).task = .polling := by rw [ho₁₀]
  have htui : (w₁₀.programs X).app = .tui := by rw [ho₁₀, asked.tui]
  obtain ⟨-, -, hlast⟩ := program_polls htask htui hpoll hw₁₁
  have hw : w' = w₁₁ := by
    rw [hw', hw₁₁, ← hevent, hw₁₀]
    rfl
  rw [hw, hlast]
  refine ⟨?_, hpath, ?_, ?_, ?_⟩
  · rw [hw₁₁, programs_other, hother₁₀]
  · rw [hengine]
    exact AList.lookup_insert _
  · rw [hengine]
    exact asked.trust
  · rw [hengine]
    exact asked.outgoing

end Towns

def village : Net := ⟨homes, address⟩

def registered (X : Party) : SignalingClient where
  server := village.server
  publicKey := twoParties.key X
  signer := none
  publicEndpoint := some (homes X)
  phase := .registered true

def program (X : Party) (task : Task) : Om where
  app := .tui
  engine := newEngines X
  sig := some (registered X)
  name := [65]
  task

def registry : PeerRegistry :=
  (PeerRegistry.upsert {} (toHex (twoParties.key .A)) (homes .A) 100).upsert
    (toHex (twoParties.key .B)) (homes .B) 110

end OpenMesh.System.Introduction
