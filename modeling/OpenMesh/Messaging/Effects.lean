import OpenMesh.Messaging.Operations
import OpenMesh.Storage.Lookup

namespace OpenMesh.Messaging.Operations

open OpenMesh.Core.Buffers OpenMesh.Core.Hex OpenMesh.Crypto.Primitives
open OpenMesh.Protocol.Envelope OpenMesh.Net.Transport OpenMesh.Storage.Database
open OpenMesh.Storage.Lookup OpenMesh.Messaging.Sessions

namespace Engine

variable (C : Sodium)

def session (e : Engine) (r : Bytes) : Option Session := e.sessions.lookup (toHex r)

/-- The session `ensure_session` would hand out. -/
def opened (e : Engine) (r : Bytes) : Option Session :=
  match e.session r with
  | some s => some s
  | none =>
    let s := Session.new C e.localPublic e.localSecret r
    if s.valid then some s else none

variable {C}

/-- `e'` is `e` but for the session table, which has `s` for `r`. -/
structure Holds (e : Engine) (r : Bytes) (s : Session) (e' : Engine) : Prop where
  rest : e' = { e with sessions := e'.sessions }
  here : e'.session r = some s
  elsewhere : ∀ q, q ≠ r → e'.session q = e.session q

theorem ensureSession_eq_some {e e' : Engine} {r : Bytes} {s : Session}
    (h : e.ensureSession C r = some (e', s)) : e.opened C r = some s ∧ Holds e r s e' := by
  unfold ensureSession at h
  unfold opened session
  cases hl : e.sessions.lookup (toHex r) with
  | some t =>
    simp only [hl, Option.some.injEq, Prod.mk.injEq] at h
    obtain ⟨rfl, rfl⟩ := h
    exact ⟨rfl, rfl, hl, fun _ _ => rfl⟩
  | none =>
    simp only [hl] at h
    split at h
    · next hv =>
      simp only [Option.some.injEq, Prod.mk.injEq] at h
      obtain ⟨rfl, rfl⟩ := h
      refine ⟨by simp [hv], rfl, by simp [session], fun q hq => ?_⟩
      simp only [session]
      exact AList.lookup_insert_ne (by simpa using hq)
    · cases h

theorem ensureSession_eq_none {e : Engine} {r : Bytes} (h : e.ensureSession C r = none) :
    e.opened C r = none := by
  unfold ensureSession at h
  unfold opened session
  cases hl : e.sessions.lookup (toHex r) with
  | some t => simp [hl] at h
  | none =>
    simp only [hl] at h
    split at h
    · cases h
    · next hv => simp [hv]

theorem Holds.put {e e' : Engine} {r : Bytes} {s : Session} (h : Holds e r s e') (t : Session) :
    Holds e r t { e' with sessions := e'.sessions.insert (toHex r) t } := by
  refine ⟨?_, by simp [session], fun q hq => ?_⟩
  · rw [h.rest]
  · rw [← h.elsewhere q hq]
    simp only [session]
    exact AList.lookup_insert_ne (by simpa using hq)

theorem Holds.insert (e : Engine) (r : Bytes) (s : Session) :
    Holds e r s { e with sessions := e.sessions.insert (toHex r) s } := by
  refine ⟨rfl, by simp [session], fun q hq => ?_⟩
  exact AList.lookup_insert_ne (by simpa using hq)

def post (env : Env) (e : Engine) (key : Bytes) (packet : Packet) : UdpSocket × Bool :=
  match (e.endpoints.lookup key).or e.relay with
  | none => (e.socket, false)
  | some dest => e.socket.sendTo env.takes dest packet

theorem sendPacket_eq (env : Env) (e : Engine) (key : Bytes) (packet : Packet) :
    e.sendPacket env key packet =
      ({ e with socket := (e.post env key packet).1 }, (e.post env key packet).2) := by
  unfold sendPacket post
  cases (e.endpoints.lookup key).or e.relay <;> rfl

theorem sendTo_sent (socket : UdpSocket) (takes : Endpoint → Bytes → Bool) (dest : Endpoint)
    (packet : Packet) :
    socket.sendTo takes dest packet = (socket, false) ∨
      socket.sendTo takes dest packet = (⟨socket.sent ++ [(dest, packet)]⟩, true) := by
  unfold UdpSocket.sendTo
  split
  · exact Or.inr rfl
  · exact Or.inl rfl

theorem post_sent (env : Env) (e : Engine) (key : Bytes) (packet : Packet) :
    e.post env key packet = (e.socket, false) ∨
      ∃ dest, e.post env key packet = (⟨e.socket.sent ++ [(dest, packet)]⟩, true) := by
  unfold post
  cases (e.endpoints.lookup key).or e.relay with
  | none => exact Or.inl rfl
  | some dest => exact (sendTo_sent _ _ dest packet).imp id fun h => ⟨dest, h⟩

def sealedPacket (C : Sodium) (env : Env) (s : Session) (type : PacketType) (plaintext : Bytes) :
    Packet := (s.encryptAs C env.nonce type plaintext).2

theorem sealAndSend_eq (env : Env) (e : Engine) (r : Bytes) (s : Session) (type : PacketType)
    (plaintext : Bytes) :
    e.sealAndSend C env r s type plaintext =
      ({ e with
          sessions := e.sessions.insert (toHex r) { s with sendCounter := s.sendCounter + 1 }
          socket := (e.post env (toHex r) (sealedPacket C env s type plaintext)).1 },
        (e.post env (toHex r) (sealedPacket C env s type plaintext)).2) := by
  simp only [sealAndSend, sendPacket_eq, Session.encryptAs_session]
  rfl

/-- The datagram that `poll` opens: the packet, its plaintext and the session
afterwards. None where `poll` stops earlier. -/
def accepts (C : Sodium) (e : Engine) (incoming : Option Datagram) :
    Option (Packet × Bytes × Session) :=
  match incoming.bind fun d => deserialize (receive d).data with
  | none => none
  | some packet =>
    if packet.type = .hello ∨ packet.type = .connect ∨
        packet.type = .message ∧ e.trustOf packet.source ≠ some .accepted then none
    else match e.opened C packet.source with
      | none => none
      | some s => (s.decrypt C packet).map fun p => (packet, p.1, p.2)

inductive Polled (C : Sodium) (env : Env) (e : Engine) (incoming : Option Datagram)
    (result : Engine × Bool) : Prop
  | ignored (h : e.accepts C incoming = none) (b : Bool) (he : result = (e, b))
  | probe (h : e.accepts C incoming = none) (d : Datagram) (packet : Packet)
      (hd : incoming = some d) (hp : deserialize (receive d).data = some packet)
      (ht : packet.type = .hello) (hl : packet.destination = e.localPublic)
      (hs : packet.source ≠ []) (he : result = (e.handleProbe env packet.source d.origin, true))
  | connect (h : e.accepts C incoming = none) (d : Datagram) (packet : Packet)
      (hd : incoming = some d) (hp : deserialize (receive d).data = some packet)
      (ht : packet.type = .connect)
      (he : result = (e.handleConnect env packet.source packet.payload, true))
  | refused (h : e.accepts C incoming = none) (packet : Packet) (s : Session) (e' : Engine)
      (ho : e.opened C packet.source = some s) (hh : Holds e packet.source s e')
      (hp : (incoming.bind fun d => deserialize (receive d).data) = some packet)
      (he : result = (e', false))
  | accepted (d : Datagram) (packet : Packet) (s s' : Session) (plaintext : Bytes) (e' : Engine)
      (h : e.accepts C incoming = some (packet, plaintext, s')) (hd : incoming = some d)
      (hp : deserialize (receive d).data = some packet) (ho : e.opened C packet.source = some s)
      (hdec : s.decrypt C packet = some (plaintext, s'))
      (hgate : packet.type = .message → e.trustOf packet.source = some .accepted)
      (hh : Holds e packet.source s' e')
      (he : result = e'.dispatch env packet plaintext d.origin)

theorem poll_cases (C : Sodium) (env : Env) (e : Engine) (incoming : Option Datagram) :
    Polled C env e incoming (e.poll C env incoming) := by
  cases incoming with
  | none => exact .ignored rfl false rfl
  | some d =>
    cases hp : deserialize (receive d).data with
    | none => exact .ignored (by simp [accepts, hp]) false (by simp [poll, hp])
    | some packet =>
      by_cases hhello : packet.type = .hello
      · have hna : e.accepts C (some d) = none := by simp [accepts, hp, hhello]
        by_cases hl : packet.destination = e.localPublic ∧ packet.source ≠ []
        · have he : e.poll C env (some d) = (e.handleProbe env packet.source d.origin, true) := by
            simp only [poll, Option.map_some, hp, hhello, ↓reduceIte, hl.1, ne_eq, hl.2,
              not_false_eq_true, and_self]
            rfl
          exact .probe hna d packet rfl hp hhello hl.1 hl.2 he
        · exact .ignored hna true (by simp [poll, hp, hhello, hl])
      by_cases hconnect : packet.type = .connect
      · exact .connect (by simp [accepts, hp, hconnect]) d packet rfl hp hconnect
          (by simp [poll, hp, hconnect])
      by_cases hgate : packet.type = .message ∧ e.trustOf packet.source ≠ some .accepted
      · exact .ignored (by simp [accepts, hp, hgate]) false (by simp [poll, hp, hgate])
      have hpoll : e.poll C env (some d) = (e.ensureSession C packet.source).elim (e, false)
          fun p => (p.2.decrypt C packet).elim (p.1, false) fun q =>
            { p.1 with sessions := p.1.sessions.insert (toHex packet.source) q.2 }.dispatch env
              packet q.1 d.origin := by
        simp only [poll, Option.map_some, hp, hhello, hconnect, hgate, ↓reduceIte]
        cases e.ensureSession C packet.source with
        | none => rfl
        | some p =>
          dsimp only [Option.elim_some]
          cases p.2.decrypt C packet <;> rfl
      have hacc : e.accepts C (some d) = (e.opened C packet.source).bind fun s =>
          (s.decrypt C packet).map fun p => (packet, p.1, p.2) := by
        simp only [accepts, Option.bind_some, hp, hhello, hconnect, hgate, or_self, ↓reduceIte]
        cases e.opened C packet.source <;> rfl
      cases hs : e.ensureSession C packet.source with
      | none =>
        exact .ignored (by simp [hacc, ensureSession_eq_none hs]) false (by simp [hpoll, hs])
      | some p =>
        obtain ⟨e', s⟩ := p
        obtain ⟨ho, hh⟩ := ensureSession_eq_some hs
        cases hdec : s.decrypt C packet with
        | none =>
          exact .refused (by simp [hacc, ho, hdec]) packet s e' ho hh hp (by simp [hpoll, hs, hdec])
        | some q =>
          obtain ⟨plaintext, s'⟩ := q
          refine .accepted d packet s s' plaintext
            { e' with sessions := e'.sessions.insert (toHex packet.source) s' }
            (by simp [hacc, ho, hdec]) rfl hp ho hdec ?_ (hh.put s') (by simp [hpoll, hs, hdec])
          intro hm
          by_contra hne
          exact hgate ⟨hm, hne⟩

section Punching

variable {env : Env} {peer : Bytes} {R : Engine → Engine → Prop}

theorem tick_rel (refl : ∀ e, R e e) (trans : ∀ {e e' e''}, R e e' → R e' e'' → R e e'')
    (tickProbe : ∀ e key, R e (e.tickProbe env key)) (e : Engine) : R e (e.tick env) := by
  unfold tick
  induction e.probes.keys generalizing e with
  | nil => exact refl e
  | cons key keys ih => exact trans (tickProbe e key) (ih _)

theorem handleConnect_rel (refl : ∀ e, R e e)
    (trans : ∀ {e e' e''}, R e e' → R e' e'' → R e e'')
    (endpoint : ∀ e dest, R e { e with endpoints := e.endpoints.insert (toHex peer) dest })
    (startProbing : ∀ e candidate, R e (e.startProbing env peer candidate)) (e : Engine)
    (payload : Bytes) : R e (e.handleConnect env peer payload) := by
  unfold handleConnect
  split
  · exact refl e
  · dsimp only
    split
    · exact trans (endpoint e _) (startProbing _ _)
    · exact startProbing e _

/-- All that hole punching does for a peer is to write its endpoint and its probe, and to send
a probe. A relation of engines that each of these keeps is kept by the whole. -/
structure Punches (env : Env) (peer : Bytes) (R : Engine → Engine → Prop) : Prop where
  refl : ∀ e, R e e
  trans : ∀ {e e' e''}, R e e' → R e' e'' → R e e''
  endpoint : ∀ e dest, R e { e with endpoints := e.endpoints.insert (toHex peer) dest }
  probe : ∀ e p, R e { e with probes := e.probes.insert (toHex peer) p }
  sendProbe : ∀ e dest, R e (e.sendProbe env peer dest)

namespace Punches

theorem startProbing (h : Punches env peer R) (e : Engine) (candidate : Endpoint) :
    R e (e.startProbing env peer candidate) := by
  unfold Engine.startProbing
  dsimp only
  split
  · split
    · exact h.refl e
    · exact h.trans (h.probe e _) (h.sendProbe _ candidate)
  · exact h.trans (h.probe e _) (h.sendProbe _ candidate)

theorem connect (h : Punches env peer R) (e : Engine) (candidate : Endpoint) :
    R e (e.connect env peer candidate).1 :=
  h.trans (h.endpoint e _) (h.startProbing _ candidate)

theorem handleProbe (h : Punches env peer R) (e : Engine) (origin : Endpoint) :
    R e (e.handleProbe env peer origin) := by
  unfold Engine.handleProbe
  dsimp only
  split
  · exact h.trans (h.probe e _) (h.endpoint _ origin)
  · exact h.trans (h.trans (h.probe e _) (h.endpoint _ origin)) (h.sendProbe _ origin)

theorem handleConnect (h : Punches env peer R) (e : Engine) (payload : Bytes) :
    R e (e.handleConnect env peer payload) :=
  handleConnect_rel h.refl h.trans h.endpoint h.startProbing e payload

end Punches

end Punching

end Engine

end OpenMesh.Messaging.Operations
