import OpenMesh.Messaging.Nicknames
import OpenMesh.Messaging.Punching

namespace OpenMesh.Messaging.Secrecy

open OpenMesh.Core.Buffers OpenMesh.Core.Hex OpenMesh.Crypto.Primitives
open OpenMesh.Crypto.Reference OpenMesh.Library.Runs
open OpenMesh.Protocol.Envelope OpenMesh.Protocol.EnvelopeCodec OpenMesh.Net.Transport
open OpenMesh.Storage.Database OpenMesh.Storage.Lookup
open OpenMesh.Messaging.Sessions OpenMesh.Messaging.Operations OpenMesh.Messaging.Projection
open OpenMesh.Messaging.Simulation OpenMesh.Messaging.Pairs
open OpenMesh.Messaging.Nicknames (unnamed save_eq find_unnamed upserted upsert_eq upserted_unnamed)
open OpenMesh.Messaging.Punching (kMaxDatagram fits_of_length homes later later_takes)

/-- What whoever watches the network sees of a packet: where it goes, the envelope, and how long the
payload is. -/
def outside (p : Endpoint × Packet) : Endpoint × Packet × ℕ :=
  (p.1, { p.2 with payload := [] }, p.2.payload.length)

def seen (e : Engine) : List (Endpoint × Packet × ℕ) := e.socket.sent.map outside

/-- The OS looks at where a datagram goes and how long it is, not at what it says. -/
structure Even (env : Env) : Prop where
  takes : ∀ dest data data', data.length = data'.length → env.takes dest data = env.takes dest data'
  limit : ∀ dest data, env.takes dest data = true → data.length ≤ kMaxDatagram

/-- The calls differ in what is said or how a peer is named, and say as much as each other. -/
inductive Twins : Engine.Call → Engine.Call → Prop
  | same (c : Engine.Call) : Twins c c
  | named (r name name' : Bytes) : Twins (.setNickname r name) (.setNickname r name')
  | asked (r : Bytes) (endpoint : Endpoint) {greeting greeting' : Bytes} :
      greeting.length = greeting'.length →
      Twins (.sendContactRequest r endpoint greeting) (.sendContactRequest r endpoint greeting')
  | said (r : Bytes) {text text' : Bytes} : text.length = text'.length →
      Twins (.send r text) (.send r text')

def Stands (type : PacketType) (text text' : Bytes) : Prop :=
  text.length = text'.length ∧ (type ≠ .message → type ≠ .contactRequest → text = text')

structure Veiled (s s' : Store) : Prop where
  contacts : s'.contacts.map unnamed = s.contacts.map unnamed
  requests : s'.requests.map (·.peer) = s.requests.map (·.peer)

section Masks

variable (C : Sodium) (localPublic localSecret : Bytes)

/-- Two packets of the owner of the keys: the same greeting in the clear, or two texts sealed under
the same envelope. -/
inductive Shaped : Endpoint × Packet → Endpoint × Packet → Prop
  | hello (dest : Endpoint) (destination : Bytes) :
      Shaped (dest, { type := .hello, source := localPublic, destination })
        (dest, { type := .hello, source := localPublic, destination })
  | sealed (dest : Endpoint) (env : Env) (s : Session) (type : PacketType) {text text' : Bytes}
      (hv : s.valid) (hl : s.localPublic = localPublic)
      (hk : agreeSharedKey C localSecret s.remotePublic = some s.sharedKey)
      (ht : type ≠ .hello ∧ type ≠ .connect) (stands : Stands type text text')
      (hfit : (serialize (Engine.sealedPacket C env s type text)).length ≤ kMaxDatagram) :
      Shaped (dest, Engine.sealedPacket C env s type text)
        (dest, Engine.sealedPacket C env s type text')

structure Hidden where
  contacts : Store
  socket : UdpSocket
  messageHandler : Handler Delivered
  requestHandler : Handler (Bytes × Bytes)

def hide (e : Engine) (k : Hidden) : Engine :=
  { e with
    contacts := k.contacts
    socket := k.socket
    messageHandler := k.messageHandler
    requestHandler := k.requestHandler }

/-- The engines differ in what is said and how the peers are named, and so does what they have put
on the wire. -/
structure Masked (e e' : Engine) : Prop where
  keys : e.localPublic = localPublic ∧ e.localSecret = localSecret
  rest : ∃ k, e' = hide e k
  contacts : Veiled e.contacts e'.contacts
  sent : List.Forall₂ (Shaped C localPublic localSecret) e.socket.sent e'.socket.sent

end Masks

def Matches (C : Sodium) (localPublic localSecret : Bytes) (r r' : Engine × Bool) : Prop :=
  Masked C localPublic localSecret r.1 r'.1 ∧ r'.2 = r.2

section Stores

variable {s s' : Store}

theorem Veiled.save (veiled : Veiled s s') : Veiled s.save s'.save := by
  obtain ⟨writes, hsave⟩ := save_eq s
  obtain ⟨writes', hsave'⟩ := save_eq s'
  rw [hsave, hsave']
  exact ⟨veiled.contacts, veiled.requests⟩

theorem Veiled.find (veiled : Veiled s s') (peer : Bytes) :
    (s'.find peer).map unnamed = (s.find peer).map unnamed := by
  rw [Store.find, Store.find, find_unnamed, find_unnamed, veiled.contacts]

theorem Veiled.trustOf (veiled : Veiled s s') (peer : Bytes) : s'.trustOf peer = s.trustOf peer := by
  have htrust : ∀ s : Store, s.trustOf peer = ((s.find peer).map unnamed).map (·.trust) := by
    intro s
    rw [Option.map_map, Store.trustOf_eq_find]
    rfl
  rw [htrust, htrust, veiled.find]

theorem Veiled.change (veiled : Veiled s s') (peer : Bytes) (f f' : Contact → Contact)
    (hf : ∀ c c', unnamed c' = unnamed c → unnamed (f' c') = unnamed (f c)) :
    Veiled (s.upsert (f ((s.find peer).getD {}))) (s'.upsert (f' ((s'.find peer).getD {}))) := by
  have hold : unnamed ((s'.find peer).getD {}) = unnamed ((s.find peer).getD {}) := by
    have hfind := veiled.find peer
    cases hs : s.find peer <;> cases hs' : s'.find peer <;> simp_all
  rw [upsert_eq, upsert_eq]
  refine Veiled.save ⟨?_, veiled.requests⟩
  rw [upserted_unnamed, upserted_unnamed, hf _ _ hold, veiled.contacts]

theorem Veiled.appendMessage (veiled : Veiled s s') (message message' : Message) :
    Veiled (s.appendMessage message) (s'.appendMessage message') :=
  Veiled.save ⟨veiled.contacts, veiled.requests⟩

theorem Veiled.addRequest (veiled : Veiled s s') (peer greeting greeting' : Bytes) (at' : Int64) :
    Veiled (s.addRequest ⟨peer, greeting, at'⟩) (s'.addRequest ⟨peer, greeting', at'⟩) := by
  have hlisted : ∀ s : Store, s.requests.any (·.peer = peer) =
      (s.requests.map (·.peer)).any (· = peer) := by
    intro s
    rw [List.any_map]
    rfl
  unfold Store.addRequest
  dsimp only
  rw [hlisted, hlisted, veiled.requests]
  split
  · exact veiled
  · refine Veiled.save ⟨veiled.contacts, ?_⟩
    rw [List.map_append, List.map_append, veiled.requests]
    rfl

theorem Veiled.removeRequest (veiled : Veiled s s') (peer : Bytes) :
    Veiled (s.removeRequest peer) (s'.removeRequest peer) := by
  have hleft : ∀ s : Store, (s.requests.filter (·.peer ≠ peer)).map (·.peer) =
      (s.requests.map (·.peer)).filter (· ≠ peer) := by
    intro s
    rw [List.filter_map]
    rfl
  have hwithout : ∀ s : Store, ∃ writes, s.removeRequest peer =
      { s with requests := s.requests.filter (·.peer ≠ peer), writes } := by
    intro s
    unfold Store.removeRequest
    dsimp only
    split
    · exact save_eq _
    · exact ⟨s.writes, rfl⟩
  obtain ⟨writes, hs⟩ := hwithout s
  obtain ⟨writes', hs'⟩ := hwithout s'
  rw [hs, hs']
  refine ⟨veiled.contacts, ?_⟩
  rw [hleft, hleft, veiled.requests]

theorem Veiled.openAt (veiled : Veiled s s') (C : Sodium) (io : OpenIO) (path passphrase : Bytes) :
    Veiled (s.openAt C io path passphrase).1 (s'.openAt C io path passphrase).1 ∧
      (s'.openAt C io path passphrase).2 = (s.openAt C io path passphrase).2 := by
  unfold Store.openAt
  split
  · split
    · exact ⟨veiled, rfl⟩
    · dsimp only
      split
      · exact ⟨veiled, rfl⟩
      · split
        · exact ⟨veiled, rfl⟩
        · split
          · exact ⟨veiled, rfl⟩
          · exact ⟨⟨rfl, rfl⟩, rfl⟩
  · dsimp only
    split
    · exact ⟨veiled, rfl⟩
    · have hnew : Veiled { s with
            salt := io.salt, key := deriveKey C passphrase io.salt, path, persistent := true }
          { s' with
            salt := io.salt, key := deriveKey C passphrase io.salt, path, persistent := true } :=
        ⟨veiled.contacts, veiled.requests⟩
      exact ⟨hnew.save, rfl⟩

end Stores

section Engines

variable {C : Sodium} {localPublic localSecret : Bytes} {env : Env} {e e' : Engine} {peer : Bytes}

theorem Masked.same {α : Type} (h : Masked C localPublic localSecret e e') (f : Engine → α)
    (hf : ∀ e k, f (hide e k) = f e) : f e' = f e := by
  obtain ⟨k, hk⟩ := h.rest
  rw [hk, hf]

theorem Masked.update (h : Masked C localPublic localSecret e e') (f : Engine → Engine)
    (hf : ∀ e k, f (hide e k) = hide (f e) k)
    (hkeys : (f e).localPublic = e.localPublic ∧ (f e).localSecret = e.localSecret) :
    Masked C localPublic localSecret (f e) (f e') := by
  obtain ⟨⟨hpublic, hsecret⟩, ⟨k, rfl⟩, hcontacts, hsent⟩ := h
  have hsame : f e = hide (f e) ⟨e.contacts, e.socket, e.messageHandler, e.requestHandler⟩ :=
    hf e ⟨e.contacts, e.socket, e.messageHandler, e.requestHandler⟩
  rw [hf]
  refine ⟨⟨hkeys.1.trans hpublic, hkeys.2.trans hsecret⟩, ⟨k, rfl⟩, ?_, ?_⟩
  · rw [hsame]
    exact hcontacts
  · rw [hsame]
    exact hsent

theorem Masked.withContacts (h : Masked C localPublic localSecret e e') {s s' : Store}
    (veiled : Veiled s s') :
    Masked C localPublic localSecret { e with contacts := s } { e' with contacts := s' } := by
  obtain ⟨hkeys, ⟨k, rfl⟩, -, hsent⟩ := h
  exact ⟨hkeys, ⟨{ k with contacts := s' }, rfl⟩, veiled, hsent⟩

theorem Masked.withSocket (h : Masked C localPublic localSecret e e') {socket socket' : UdpSocket}
    (hsent : List.Forall₂ (Shaped C localPublic localSecret) socket.sent socket'.sent) :
    Masked C localPublic localSecret { e with socket } { e' with socket := socket' } := by
  obtain ⟨hkeys, ⟨k, rfl⟩, hcontacts, -⟩ := h
  exact ⟨hkeys, ⟨{ k with socket := socket' }, rfl⟩, hcontacts, hsent⟩

theorem Masked.withMessageHandler (h : Masked C localPublic localSecret e e')
    (messageHandler messageHandler' : Handler Delivered) :
    Masked C localPublic localSecret { e with messageHandler }
      { e' with messageHandler := messageHandler' } := by
  obtain ⟨hkeys, ⟨k, rfl⟩, hcontacts, hsent⟩ := h
  exact ⟨hkeys, ⟨{ k with messageHandler := messageHandler' }, rfl⟩, hcontacts, hsent⟩

theorem Masked.withRequestHandler (h : Masked C localPublic localSecret e e')
    (requestHandler requestHandler' : Handler (Bytes × Bytes)) :
    Masked C localPublic localSecret { e with requestHandler }
      { e' with requestHandler := requestHandler' } := by
  obtain ⟨hkeys, ⟨k, rfl⟩, hcontacts, hsent⟩ := h
  exact ⟨hkeys, ⟨{ k with requestHandler := requestHandler' }, rfl⟩, hcontacts, hsent⟩

theorem Masked.trustOf (h : Masked C localPublic localSecret e e') (peer : Bytes) :
    e'.trustOf peer = e.trustOf peer :=
  h.contacts.trustOf peer

theorem Masked.setTrust (h : Masked C localPublic localSecret e e') (peer : Bytes)
    (trust : TrustStatus) :
    Masked C localPublic localSecret (e.setTrust peer trust) (e'.setTrust peer trust) := by
  apply h.withContacts
  apply h.contacts.change peer (fun c => { c with publicKey := peer, trust })
    (fun c => { c with publicKey := peer, trust })
  intro c c' hc
  obtain ⟨_, -, _, hseen⟩ := Contact.mk.inj hc
  simp only [unnamed, hseen]

theorem Masked.setNickname (h : Masked C localPublic localSecret e e') (peer name name' : Bytes) :
    Masked C localPublic localSecret (e.setNickname peer name) (e'.setNickname peer name') := by
  apply h.withContacts
  apply h.contacts.change peer (fun c => { c with publicKey := peer, nickname := name })
    (fun c => { c with publicKey := peer, nickname := name' })
  intro c c' hc
  obtain ⟨_, -, htrust, hseen⟩ := Contact.mk.inj hc
  simp only [unnamed, htrust, hseen]

theorem forall_sendTo (env : Env) {socket socket' : UdpSocket} {dest : Endpoint} {p p' : Packet}
    (hold : List.Forall₂ (Shaped C localPublic localSecret) socket.sent socket'.sent)
    (htakes : env.takes dest (serialize p') = env.takes dest (serialize p))
    (hshaped : env.takes dest (serialize p) = true →
      Shaped C localPublic localSecret (dest, p) (dest, p')) :
    List.Forall₂ (Shaped C localPublic localSecret) (socket.sendTo env.takes dest p).1.sent
        (socket'.sendTo env.takes dest p').1.sent ∧
      (socket'.sendTo env.takes dest p').2 = (socket.sendTo env.takes dest p).2 := by
  unfold UdpSocket.sendTo
  rw [htakes]
  split
  · next htaken => exact ⟨List.rel_append hold (.cons (hshaped htaken) .nil), rfl⟩
  · exact ⟨hold, rfl⟩

theorem Masked.hello (h : Masked C localPublic localSecret e e') (env : Env) (dest : Endpoint)
    (destination : Bytes) :
    Matches C localPublic localSecret
      (e.transmit env dest { type := .hello, source := e.localPublic, destination })
      (e'.transmit env dest { type := .hello, source := e'.localPublic, destination }) := by
  rw [h.same Engine.localPublic fun _ _ => rfl, h.keys.1]
  have hsent := forall_sendTo env h.sent rfl
    fun _ => Shaped.hello dest destination
  exact ⟨h.withSocket hsent.1, hsent.2⟩

theorem sealed_outside (env : Env) {s : Session} (hv : s.valid)
    (hk : agreeSharedKey C localSecret s.remotePublic = some s.sharedKey) (type : PacketType)
    {text text' : Bytes} (hlen : text.length = text'.length) (dest : Endpoint) :
    outside (dest, Engine.sealedPacket C env s type text') =
      outside (dest, Engine.sealedPacket C env s type text) := by
  have hkey := (agreeSharedKey_length hk).2
  unfold outside Engine.sealedPacket
  rw [Session.encryptAs_packet env.nonce hv, Session.encryptAs_packet env.nonce hv]
  dsimp only
  rw [aeadSeal_length _ _ hkey, aeadSeal_length _ _ hkey, hlen]

theorem length_of_outside {dest : Endpoint} {p p' : Packet}
    (h : outside (dest, p') = outside (dest, p)) :
    (serialize p').length = (serialize p).length := by
  have hsource : p'.source = p.source := congrArg (fun seen => seen.2.1.source) h
  have hdestination : p'.destination = p.destination := congrArg (fun seen => seen.2.1.destination) h
  have hpayload : p'.payload.length = p.payload.length := congrArg (fun seen => seen.2.2) h
  rw [serialize_length, serialize_length, hpayload, hsource, hdestination]

theorem Masked.sealAndSend (h : Masked C localPublic localSecret e e') (even : Even env)
    {s : Session} (hv : s.valid) (hl : s.localPublic = localPublic)
    (hk : agreeSharedKey C localSecret s.remotePublic = some s.sharedKey) {type : PacketType}
    (ht : type ≠ .hello ∧ type ≠ .connect) {text text' : Bytes} (stands : Stands type text text') :
    Matches C localPublic localSecret (e.sealAndSend C env peer s type text)
      (e'.sealAndSend C env peer s type text') := by
  have hcounted := h.update (fun e => { e with
    sessions := e.sessions.insert (toHex peer) { s with sendCounter := s.sendCounter + 1 } })
    (fun _ _ => rfl) ⟨rfl, rfl⟩
  have hroute := h.same (fun e => (e.endpoints.lookup (toHex peer)).or e.relay) fun _ _ => rfl
  rw [Engine.sealAndSend_eq, Engine.sealAndSend_eq, Engine.post, Engine.post, hroute]
  cases (e.endpoints.lookup (toHex peer)).or e.relay with
  | none => exact ⟨hcounted, rfl⟩
  | some dest =>
    have hlen := length_of_outside (sealed_outside (C := C) env hv hk type stands.1 dest)
    have hsent := forall_sendTo env h.sent (even.takes dest _ _ hlen)
      fun htaken => .sealed dest env s type hv hl hk ht stands (even.limit dest _ htaken)
    exact ⟨hcounted.withSocket hsent.1, hsent.2⟩

theorem Masked.ensureSession (h : Masked C localPublic localSecret e e') (sound : Sound C e)
    (peer : Bytes) :
    e.ensureSession C peer = none ∧ e'.ensureSession C peer = none ∨
    ∃ e₁ e₁' s, e.ensureSession C peer = some (e₁, s) ∧ e'.ensureSession C peer = some (e₁', s) ∧
      Masked C localPublic localSecret e₁ e₁' ∧ s.valid ∧ s.localPublic = localPublic ∧
      s.remotePublic = peer ∧ agreeSharedKey C localSecret s.remotePublic = some s.sharedKey := by
  have hfacts : ∀ e₁ s, e.ensureSession C peer = some (e₁, s) → s.valid ∧
      s.localPublic = localPublic ∧ s.remotePublic = peer ∧
      agreeSharedKey C localSecret s.remotePublic = some s.sharedKey := by
    intro e₁ s hs
    obtain ⟨hv, hl, hr, hk⟩ := sound.opened (Engine.ensureSession_eq_some hs).1
    refine ⟨hv, hl.trans h.keys.1, hr, ?_⟩
    rw [hr, ← h.keys.2]
    exact hk
  have htable := h.same Engine.sessions fun _ _ => rfl
  have hpublic := h.same Engine.localPublic fun _ _ => rfl
  have hsecret := h.same Engine.localSecret fun _ _ => rfl
  unfold Engine.ensureSession at hfacts ⊢
  rw [htable, hpublic, hsecret]
  dsimp only at hfacts ⊢
  generalize Session.new C e.localPublic e.localSecret peer = made at hfacts ⊢
  cases hs : e.sessions.lookup (toHex peer) with
  | some s =>
    rw [hs] at hfacts
    exact Or.inr ⟨e, e', s, rfl, rfl, h, hfacts e s rfl⟩
  | none =>
    rw [hs] at hfacts
    dsimp only at hfacts ⊢
    by_cases hvalid : made.valid
    · rw [if_pos hvalid] at hfacts
      rw [if_pos hvalid, if_pos hvalid]
      refine Or.inr ⟨_, _, _, rfl, rfl, ?_, hfacts _ _ rfl⟩
      have hmade := h.update (fun e₁ => { e₁ with
        sessions := e.sessions.insert (toHex peer) made }) (fun _ _ => rfl) ⟨rfl, rfl⟩
      rw [hpublic, hsecret] at hmade
      exact hmade
    · rw [if_neg hvalid, if_neg hvalid]
      exact Or.inl ⟨rfl, rfl⟩

theorem Masked.sendProbe (h : Masked C localPublic localSecret e e') (env : Env) (peer : Bytes)
    (dest : Endpoint) :
    Masked C localPublic localSecret (e.sendProbe env peer dest) (e'.sendProbe env peer dest) :=
  (h.hello env dest peer).1

theorem Masked.startProbing (h : Masked C localPublic localSecret e e') (env : Env) (peer : Bytes)
    (candidate : Endpoint) :
    Masked C localPublic localSecret (e.startProbing env peer candidate)
      (e'.startProbing env peer candidate) := by
  have hprobing : ∀ p, Masked C localPublic localSecret
      ({ e with probes := e.probes.insert (toHex peer) p }.sendProbe env peer candidate)
      ({ e' with probes := e'.probes.insert (toHex peer) p }.sendProbe env peer candidate) := by
    intro p
    apply Masked.sendProbe
    exact h.update (fun e => { e with probes := e.probes.insert (toHex peer) p }) (fun _ _ => rfl)
      ⟨rfl, rfl⟩
  unfold Engine.startProbing
  rw [h.same Engine.probes fun _ _ => rfl] at hprobing ⊢
  dsimp only
  split
  · split
    · exact h
    · exact hprobing _
  · exact hprobing _

theorem Masked.connect (h : Masked C localPublic localSecret e e') (env : Env) (peer : Bytes)
    (candidate : Endpoint) :
    Masked C localPublic localSecret (e.connect env peer candidate).1
      (e'.connect env peer candidate).1 := by
  have hplaced := h.update (fun e => { e with
    endpoints := e.endpoints.insert (toHex peer) (e.relay.getD candidate) }) (fun _ _ => rfl)
    ⟨rfl, rfl⟩
  exact hplaced.startProbing env peer candidate

theorem Masked.tickProbe (h : Masked C localPublic localSecret e e') (env : Env) (key : Bytes) :
    Masked C localPublic localSecret (e.tickProbe env key) (e'.tickProbe env key) := by
  unfold Engine.tickProbe
  rw [h.same Engine.probes fun _ _ => rfl]
  split
  · exact h
  · next p hp =>
    split
    · exact h
    · split
      · have hstored := (h.sendProbe env p.peer p.candidate).update (fun e => { e with
          probes := e.probes.insert key { p with attempts := p.attempts + 1, last := env.steadyNow } })
          (fun _ _ => rfl) ⟨rfl, rfl⟩
        exact hstored
      · exact h

theorem Masked.tick (h : Masked C localPublic localSecret e e') (env : Env) :
    Masked C localPublic localSecret (e.tick env) (e'.tick env) := by
  unfold Engine.tick
  rw [h.same Engine.probes fun _ _ => rfl]
  generalize e.probes.keys = keys
  induction keys generalizing e e' with
  | nil => exact h
  | cons key keys ih =>
    rw [List.foldl_cons, List.foldl_cons]
    exact ih (h.tickProbe env key)

theorem Masked.handleProbe (h : Masked C localPublic localSecret e e') (env : Env) (peer : Bytes)
    (origin : Endpoint) :
    Masked C localPublic localSecret (e.handleProbe env peer origin)
      (e'.handleProbe env peer origin) := by
  have hconfirmed : ∀ p, Masked C localPublic localSecret
      { e with
        probes := e.probes.insert (toHex peer) p
        endpoints := e.endpoints.insert (toHex peer) origin }
      { e' with
        probes := e'.probes.insert (toHex peer) p
        endpoints := e'.endpoints.insert (toHex peer) origin } := by
    intro p
    exact h.update (fun e => { e with
      probes := e.probes.insert (toHex peer) p
      endpoints := e.endpoints.insert (toHex peer) origin }) (fun _ _ => rfl) ⟨rfl, rfl⟩
  unfold Engine.handleProbe
  rw [h.same Engine.probes fun _ _ => rfl] at hconfirmed ⊢
  dsimp only
  split
  · exact hconfirmed _
  · exact (hconfirmed _).sendProbe env peer origin

theorem Masked.handleConnect (h : Masked C localPublic localSecret e e') (env : Env)
    (peer payload : Bytes) :
    Masked C localPublic localSecret (e.handleConnect env peer payload)
      (e'.handleConnect env peer payload) := by
  unfold Engine.handleConnect
  cases parseEndpoint payload with
  | none => exact h
  | some candidate =>
    dsimp only
    apply Masked.startProbing
    have hrelay := h.same Engine.relay fun _ _ => rfl
    rw [h.same Engine.endpoints fun _ _ => rfl, hrelay]
    split
    · next relay _ _ =>
      have hplaced := h.update (fun e₁ => { e₁ with
        endpoints := e.endpoints.insert (toHex peer) relay }) (fun _ _ => rfl) ⟨rfl, rfl⟩
      rw [hrelay] at hplaced
      exact hplaced
    · exact h

theorem Masked.addPeer (h : Masked C localPublic localSecret e e') (sound : Sound C e)
    (endpoint : Endpoint) :
    Matches C localPublic localSecret (e.addPeer C peer endpoint) (e'.addPeer C peer endpoint) := by
  unfold Engine.addPeer
  obtain ⟨hs, hs'⟩ | ⟨e₁, e₁', s, hs, hs', h₁, -⟩ := h.ensureSession sound peer
  · rw [hs, hs']
    exact ⟨h, rfl⟩
  · rw [hs, hs']
    have hplaced := h₁.update (fun e => { e with
      endpoints := e.endpoints.insert (toHex peer) endpoint }) (fun _ _ => rfl) ⟨rfl, rfl⟩
    exact ⟨hplaced.setTrust peer .accepted, rfl⟩

theorem Masked.sendContactRequest (h : Masked C localPublic localSecret e e') (sound : Sound C e)
    (even : Even env) (endpoint : Endpoint) {greeting greeting' : Bytes}
    (hlen : greeting.length = greeting'.length) :
    Matches C localPublic localSecret (e.sendContactRequest C env peer endpoint greeting)
      (e'.sendContactRequest C env peer endpoint greeting') := by
  have stands : Stands .contactRequest greeting greeting' :=
    ⟨hlen, fun _ hother => absurd rfl hother⟩
  unfold Engine.sendContactRequest
  rw [h.trustOf]
  split
  · exact ⟨h, rfl⟩
  · obtain ⟨hs, hs'⟩ | ⟨e₁, e₁', s, hs, hs', h₁, hv, hl, -, hk⟩ := h.ensureSession sound peer
    · rw [hs, hs']
      exact ⟨h, rfl⟩
    · rw [hs, hs']
      have hasked := h₁.update (fun e => { e with
        endpoints := e.endpoints.insert (toHex peer) endpoint
        outgoingRequests := insert (toHex peer) e.outgoingRequests }) (fun _ _ => rfl) ⟨rfl, rfl⟩
      exact (hasked.setTrust peer .pending).sealAndSend even hv hl hk (by decide) stands

theorem Masked.answerContact (h : Masked C localPublic localSecret e e') (sound : Sound C e)
    (even : Even env) (trust : TrustStatus) (decision : UInt8) :
    Matches C localPublic localSecret (e.answerContact C env peer trust decision)
      (e'.answerContact C env peer trust decision) := by
  unfold Engine.answerContact
  dsimp only
  rw [h.same Engine.incomingRequests fun _ _ => rfl]
  split
  · exact ⟨h, rfl⟩
  · obtain ⟨hs, hs'⟩ | ⟨e₁, e₁', s, hs, hs', h₁, hv, hl, -, hk⟩ := h.ensureSession sound peer
    · rw [hs, hs']
      exact ⟨h, rfl⟩
    · rw [hs, hs']
      have herased := h₁.update (fun e => { e with
        incomingRequests := e.incomingRequests.erase (toHex peer) }) (fun _ _ => rfl) ⟨rfl, rfl⟩
      have hremoved := herased.withContacts (h₁.contacts.removeRequest peer)
      exact (hremoved.setTrust peer trust).sealAndSend even hv hl hk (by decide)
        ⟨rfl, fun _ _ => rfl⟩

theorem Masked.send (h : Masked C localPublic localSecret e e') (sound : Sound C e)
    (even : Even env) {text text' : Bytes} (hlen : text.length = text'.length) :
    Matches C localPublic localSecret (e.send C env peer text) (e'.send C env peer text') := by
  have stands : Stands .message text text' := ⟨hlen, fun hother _ => absurd rfl hother⟩
  unfold Engine.send
  rw [h.trustOf]
  split
  · exact ⟨h, rfl⟩
  · obtain ⟨hs, hs'⟩ | ⟨e₁, e₁', s, hs, hs', h₁, hv, hl, -, hk⟩ := h.ensureSession sound peer
    · rw [hs, hs']
      exact ⟨h, rfl⟩
    · rw [hs, hs']
      dsimp only
      obtain ⟨hsent, hok⟩ : Matches C localPublic localSecret
          (e₁.sealAndSend C env peer s .message text)
          (e₁'.sealAndSend C env peer s .message text') :=
        h₁.sealAndSend even hv hl hk (by decide) stands
      obtain ⟨e₂, ok, he⟩ : ∃ e₂ ok, e₁.sealAndSend C env peer s .message text = (e₂, ok) :=
        ⟨_, _, rfl⟩
      obtain ⟨e₂', ok', he'⟩ : ∃ e₂' ok', e₁'.sealAndSend C env peer s .message text' = (e₂', ok') :=
        ⟨_, _, rfl⟩
      rw [he, he'] at hsent hok
      rw [he, he']
      dsimp only at hsent hok
      rw [hok]
      cases ok with
      | false => exact ⟨hsent, rfl⟩
      | true => exact ⟨hsent.withContacts (hsent.contacts.appendMessage _ _), rfl⟩

theorem Masked.handleMessage (h : Masked C localPublic localSecret e e') (text text' : Bytes) :
    Masked C localPublic localSecret (e.handleMessage env peer text)
      (e'.handleMessage env peer text') :=
  (h.withContacts (h.contacts.appendMessage _ _)).withMessageHandler _ _

theorem Masked.handleContactRequest (h : Masked C localPublic localSecret e e')
    {greeting greeting' : Bytes} (hlen : greeting.length = greeting'.length) :
    Masked C localPublic localSecret (e.handleContactRequest env peer greeting)
      (e'.handleContactRequest env peer greeting') := by
  have hrecorded : ∀ {e e' : Engine}, Masked C localPublic localSecret e e' →
      Masked C localPublic localSecret
        { e with
          contacts := e.contacts.addRequest ⟨peer, greeting, env.nowSeconds⟩
          requestHandler := e.requestHandler.call (peer, greeting) }
        { e' with
          contacts := e'.contacts.addRequest ⟨peer, greeting', env.nowSeconds⟩
          requestHandler := e'.requestHandler.call (peer, greeting') } := by
    intro e e' h
    have hadded := h.withContacts (h.contacts.addRequest peer greeting greeting' env.nowSeconds)
    exact hadded.withRequestHandler (e.requestHandler.call (peer, greeting))
      (e'.requestHandler.call (peer, greeting'))
  have hincoming := h.same Engine.incomingRequests fun _ _ => rfl
  have hpending := (h.update (fun e => { e with
    incomingRequests := insert (toHex peer) e.incomingRequests }) (fun _ _ => rfl)
    ⟨rfl, rfl⟩).setTrust peer .pending
  have hempty : greeting' ≠ [] ↔ greeting ≠ [] := by
    rw [← List.length_pos_iff, ← List.length_pos_iff, hlen]
  unfold Engine.handleContactRequest
  dsimp only at hpending ⊢
  rw [hincoming] at hpending ⊢
  rw [h.trustOf]
  split
  · exact h
  · by_cases hgreeted : greeting ≠ []
    · rw [if_pos hgreeted, if_pos (hempty.mpr hgreeted)]
      exact hrecorded (hpending.setNickname peer greeting greeting')
    · rw [if_neg hgreeted, if_neg (mt hempty.mp hgreeted)]
      exact hrecorded hpending

theorem Masked.handleContactResponse (h : Masked C localPublic localSecret e e') (decision : Bytes) :
    Masked C localPublic localSecret (e.handleContactResponse peer decision)
      (e'.handleContactResponse peer decision) := by
  have houtgoing := h.same Engine.outgoingRequests fun _ _ => rfl
  unfold Engine.handleContactResponse
  dsimp only
  rw [houtgoing]
  split
  · exact h
  · have hsettled := (h.update (fun e => { e with
      outgoingRequests := e.outgoingRequests.erase (toHex peer) }) (fun _ _ => rfl)
      ⟨rfl, rfl⟩).setTrust peer (if decision.head? = some kAccept then .accepted else .rejected)
    have hcalled := hsettled.update (fun e => { e with
      responseHandler := e.responseHandler.call (peer, decide (decision.head? = some kAccept)) })
      (fun _ _ => rfl) ⟨rfl, rfl⟩
    rw [houtgoing] at hcalled
    simpa only [decide_eq_true_eq] using hcalled

theorem Masked.dispatch (h : Masked C localPublic localSecret e e') {packet packet' : Packet}
    (htype : packet'.type = packet.type) (hsource : packet'.source = packet.source)
    {text text' : Bytes} (stands : Stands packet.type text text') (origin : Endpoint) :
    Matches C localPublic localSecret (e.dispatch env packet text origin)
      (e'.dispatch env packet' text' origin) := by
  have hplaced : Masked C localPublic localSecret
      (if e.hasDirectPath packet.source then e
        else { e with endpoints := e.endpoints.insert (toHex packet.source) origin })
      (if e'.hasDirectPath packet.source then e'
        else { e' with endpoints := e'.endpoints.insert (toHex packet.source) origin }) := by
    rw [h.same (·.hasDirectPath packet.source) fun _ _ => rfl]
    split
    · exact h
    · exact h.update (fun e => { e with
        endpoints := e.endpoints.insert (toHex packet.source) origin }) (fun _ _ => rfl) ⟨rfl, rfl⟩
  unfold Engine.dispatch
  rw [htype, hsource]
  cases ht : packet.type with
  | message => exact ⟨hplaced.handleMessage text text', rfl⟩
  | contactRequest => exact ⟨hplaced.handleContactRequest stands.1, rfl⟩
  | contactResponse =>
    have hsame : text = text' := by
      rw [ht] at stands
      exact stands.2 (by decide) (by decide)
    rw [← hsame]
    exact ⟨hplaced.handleContactResponse text, rfl⟩
  | _ => exact ⟨hplaced, rfl⟩

/-- Two packets under one envelope that the session opens alike, if at all. -/
theorem Masked.poll (h : Masked C localPublic localSecret e e') (sound : Sound C e)
    {origin : Endpoint} {data data' : Bytes} {packet packet' : Packet}
    (hp : deserialize (receive ⟨origin, data⟩).data = some packet)
    (hp' : deserialize (receive ⟨origin, data'⟩).data = some packet')
    (htype : packet'.type = packet.type) (hsource : packet'.source = packet.source)
    (hdestination : packet'.destination = packet.destination)
    (hclear : packet.type = .connect → packet'.payload = packet.payload)
    (hopen : ∀ s : Session, s.localPublic = localPublic → s.remotePublic = packet.source →
      agreeSharedKey C localSecret s.remotePublic = some s.sharedKey →
      s.decrypt C packet = none ∧ s.decrypt C packet' = none ∨
      ∃ text text' t, s.decrypt C packet = some (text, t) ∧ s.decrypt C packet' = some (text', t) ∧
        Stands packet.type text text') :
    Matches C localPublic localSecret (e.poll C env (some ⟨origin, data⟩))
      (e'.poll C env (some ⟨origin, data'⟩)) := by
  unfold Engine.poll
  rw [Option.map_some, Option.map_some]
  dsimp only
  rw [hp, hp']
  dsimp only
  rw [h.trustOf, htype, hsource, hdestination, h.same Engine.localPublic fun _ _ => rfl]
  by_cases hhello : packet.type = .hello
  · rw [if_pos hhello, if_pos hhello]
    split
    · exact ⟨h.handleProbe env packet.source origin, rfl⟩
    · exact ⟨h, rfl⟩
  rw [if_neg hhello, if_neg hhello]
  by_cases hconnect : packet.type = .connect
  · rw [if_pos hconnect, if_pos hconnect, hclear hconnect]
    exact ⟨h.handleConnect env packet.source packet.payload, rfl⟩
  rw [if_neg hconnect, if_neg hconnect]
  split
  · exact ⟨h, rfl⟩
  · obtain ⟨hs, hs'⟩ | ⟨e₁, e₁', s, hs, hs', h₁, -, hl, hr, hk⟩ :=
      h.ensureSession sound packet.source
    · rw [hs, hs']
      exact ⟨h, rfl⟩
    · rw [hs, hs']
      dsimp only
      obtain ⟨hd, hd'⟩ | ⟨text, text', t, hd, hd', stands⟩ := hopen s hl hr hk
      · rw [hd, hd']
        exact ⟨h₁, rfl⟩
      · rw [hd, hd']
        have hstored := h₁.update (fun e => { e with
          sessions := e.sessions.insert (toHex packet.source) t }) (fun _ _ => rfl) ⟨rfl, rfl⟩
        exact hstored.dispatch htype hsource stands origin

theorem Masked.poll_ignored (h : Masked C localPublic localSecret e e') {origin : Endpoint}
    {data data' : Bytes} (hp : deserialize (receive ⟨origin, data⟩).data = none)
    (hp' : deserialize (receive ⟨origin, data'⟩).data = none) :
    Matches C localPublic localSecret (e.poll C env (some ⟨origin, data⟩))
      (e'.poll C env (some ⟨origin, data'⟩)) := by
  unfold Engine.poll
  rw [Option.map_some, Option.map_some]
  dsimp only
  rw [hp, hp']
  exact ⟨h, rfl⟩

theorem Masked.poll_same (h : Masked C localPublic localSecret e e') (sound : Sound C e)
    (incoming : Option Datagram) :
    Matches C localPublic localSecret (e.poll C env incoming) (e'.poll C env incoming) := by
  cases incoming with
  | none => exact ⟨h, rfl⟩
  | some datagram =>
    obtain ⟨origin, data⟩ := datagram
    cases hp : deserialize (receive ⟨origin, data⟩).data with
    | none => exact h.poll_ignored hp hp
    | some packet =>
      apply h.poll sound hp hp rfl rfl rfl fun _ => rfl
      intro s _ _ _
      cases hd : s.decrypt C packet with
      | none => exact Or.inl ⟨rfl, rfl⟩
      | some opened =>
        exact Or.inr ⟨opened.1, opened.1, opened.2, rfl, rfl, rfl, fun _ _ => rfl⟩

theorem Masked.openStore (h : Masked C localPublic localSecret e e') (io : OpenIO)
    (path passphrase : Bytes) :
    Matches C localPublic localSecret (e.openStore C io path passphrase)
      (e'.openStore C io path passphrase) := by
  obtain ⟨hopened, hok⟩ := h.contacts.openAt C io path passphrase
  have hkeys : (e'.contacts.openAt C io path passphrase).1.requests.map (fun q => toHex q.peer) =
      (e.contacts.openAt C io path passphrase).1.requests.map fun q => toHex q.peer := by
    have hpeers := congrArg (List.map toHex) hopened.requests
    simpa only [List.map_map, Function.comp_def] using hpeers
  unfold Engine.openStore
  dsimp only
  rw [hok]
  split
  · have hlisted := (h.withContacts hopened).update (fun e₁ => { e₁ with
      incomingRequests := e.incomingRequests ∪ ((e.contacts.openAt C io path passphrase).1.requests.map
        fun q => toHex q.peer).toFinset }) (fun _ _ => rfl) ⟨rfl, rfl⟩
    rw [hkeys, h.same Engine.incomingRequests fun _ _ => rfl]
    exact ⟨hlisted, rfl⟩
  · exact ⟨h.withContacts hopened, rfl⟩

/-- Paired calls do alike and leave alike. -/
theorem Masked.call (h : Masked C localPublic localSecret e e') (sound : Sound C e) (even : Even env)
    {c c' : Engine.Call} (twins : Twins c c') :
    Matches C localPublic localSecret (e.call C env c) (e'.call C env c') := by
  cases twins with
  | named r name name' => exact ⟨h.setNickname r name name', rfl⟩
  | asked r endpoint hlen => exact h.sendContactRequest sound even endpoint hlen
  | said r hlen => exact h.send sound even hlen
  | same =>
    cases c with
    | announceTo relay => exact h.hello env relay []
    | openStore io path passphrase => exact h.openStore io path passphrase
    | addPeer r endpoint => exact h.addPeer sound endpoint
    | setNickname r name => exact ⟨h.setNickname r name name, rfl⟩
    | sendContactRequest r endpoint greeting => exact h.sendContactRequest sound even endpoint rfl
    | acceptContact r => exact h.answerContact sound even .accepted kAccept
    | rejectContact r => exact h.answerContact sound even .rejected kReject
    | send r text => exact h.send sound even rfl
    | setRelay relay =>
      exact ⟨h.update (fun e => { e with relay := some relay }) (fun _ _ => rfl) ⟨rfl, rfl⟩, rfl⟩
    | connect r candidate => exact ⟨h.connect env r candidate, rfl⟩
    | tick => exact ⟨h.tick env, rfl⟩
    | poll incoming => exact h.poll_same sound incoming
    | onMessage => exact ⟨h.withMessageHandler _ _, rfl⟩
    | onContactRequest => exact ⟨h.withRequestHandler _ _, rfl⟩
    | onContactResponse =>
      exact ⟨h.update (fun e => { e with responseHandler := e.responseHandler.install })
        (fun _ _ => rfl) ⟨rfl, rfl⟩, rfl⟩

theorem opens_sealed (env : Env) {s t : Session} (hv : s.valid)
    (hk : s.sharedKey.length = kSessionKeyBytes) (hvalid : t.valid)
    (hsource : s.localPublic = t.remotePublic) (hdestination : s.remotePublic = t.localPublic)
    (hfresh : t.Fresh s.sendCounter) (hkey : t.sharedKey = s.sharedKey) (type : PacketType)
    (text : Bytes) :
    t.decrypt C (Engine.sealedPacket C env s type text) =
      some (text, { t with haveReceived := true, lastReceived := s.sendCounter }) := by
  have hmarked : ∀ payload, Packet.encrypted { s.header type with payload } = true := by
    intro payload
    change decide (kFlagEncrypted &&& kFlagEncrypted ≠ 0) = true
    decide
  rw [Engine.sealedPacket, Session.encryptAs_packet env.nonce hv]
  refine Session.decrypt_eq_some_iff.mpr
    ⟨⟨hvalid, hmarked _, hsource, hdestination, hfresh, ?_⟩, rfl⟩
  rw [hkey, Session.associatedData_payload]
  exact aeadOpen_aeadSeal text _ hk

theorem decrypt_sealed (env : Env) {s t : Session} (hv : s.valid)
    (hk : s.sharedKey.length = kSessionKeyBytes)
    (hkey : s.localPublic = t.remotePublic → s.remotePublic = t.localPublic →
      t.sharedKey = s.sharedKey) (type : PacketType) (text text' : Bytes) :
    t.decrypt C (Engine.sealedPacket C env s type text) = none ∧
      t.decrypt C (Engine.sealedPacket C env s type text') = none ∨
    ∃ u, t.decrypt C (Engine.sealedPacket C env s type text) = some (text, u) ∧
      t.decrypt C (Engine.sealedPacket C env s type text') = some (text', u) := by
  by_cases hfor : t.valid ∧ s.localPublic = t.remotePublic ∧ s.remotePublic = t.localPublic ∧
      t.Fresh s.sendCounter
  · obtain ⟨hvalid, hsource, hdestination, hfresh⟩ := hfor
    have hopens := opens_sealed (C := C) env hv hk hvalid hsource hdestination hfresh
      (hkey hsource hdestination) type
    exact Or.inr ⟨_, hopens text, hopens text'⟩
  · have hrefuses : ∀ text, t.decrypt C (Engine.sealedPacket C env s type text) = none := by
      intro text
      rw [Option.eq_none_iff_forall_ne_some]
      rintro ⟨plaintext, u⟩ hu
      rw [Engine.sealedPacket, Session.encryptAs_packet env.nonce hv] at hu
      obtain ⟨⟨hvalid, -, hsource, hdestination, hfresh, -⟩, -⟩ := Session.decrypt_eq_some_iff.mp hu
      exact hfor ⟨hvalid, hsource, hdestination, hfresh⟩
    exact Or.inl ⟨hrefuses text, hrefuses text'⟩

theorem deserialize_received {p : Packet} (fits : Fits p) (origin : Endpoint) :
    deserialize (receive ⟨origin, serialize p⟩).data =
      if (serialize p).length ≤ kReceiveBufferSize then some p else none := by
  rw [receive]
  split
  · next hwhole =>
    rw [List.take_of_length_le hwhole]
    exact deserialize_serialize fits
  · next hcut =>
    cases hq : deserialize ((serialize p).take kReceiveBufferSize) with
    | none => rfl
    | some q =>
      have hbytes := (serialize_deserialize hq).2
      rw [deserialize_take fits hq] at hbytes
      have hlen := congrArg List.length hbytes
      rw [List.length_take] at hlen
      omega

theorem fits_sealed (env : Env) {s : Session} (hv : s.valid) {type : PacketType} {text : Bytes}
    (hlen : (serialize (Engine.sealedPacket C env s type text)).length ≤ kMaxDatagram) :
    Fits (Engine.sealedPacket C env s type text) := by
  obtain ⟨hsource, hdestination⟩ := fits_of_length hlen
  refine ⟨?_, hsource, hdestination, ?_⟩
  · rw [Engine.sealedPacket, Session.encryptAs_packet env.nonce hv]
    rfl
  · rw [serialize_length, kMaxDatagram] at hlen
    omega

theorem Masked.poll_shaped (h : Masked C localPublic localSecret e e') (sound : Sound C e)
    {peerPublic peerSecret : Bytes} {p p' : Endpoint × Packet}
    (hagree : ∀ key key', agreeSharedKey C localSecret peerPublic = some key →
      agreeSharedKey C peerSecret localPublic = some key' → key = key')
    (shaped : Shaped C peerPublic peerSecret p p') (origin : Endpoint) :
    Matches C localPublic localSecret (e.poll C env (some ⟨origin, serialize p.2⟩))
      (e'.poll C env (some ⟨origin, serialize p'.2⟩)) := by
  cases shaped with
  | hello dest destination => exact h.poll_same sound _
  | @sealed dest sealing s type text text' hv hl hk ht stands hfit =>
    have houtside := sealed_outside (C := C) sealing hv hk type stands.1 dest
    have hlen := length_of_outside houtside
    have fits := fits_sealed sealing hv hfit
    have fits' := fits_sealed sealing hv (hlen.trans_le hfit)
    have hp := deserialize_received fits origin
    have hp' := deserialize_received fits' origin
    rw [hlen] at hp'
    split at hp
    · next hwhole =>
      rw [if_pos hwhole] at hp'
      have htype : ∀ text, (Engine.sealedPacket C sealing s type text).type = type := by
        intro text
        rw [Engine.sealedPacket, Session.encryptAs_packet sealing.nonce hv]
        rfl
      have hsource : ∀ text, (Engine.sealedPacket C sealing s type text).source = s.localPublic := by
        intro text
        rw [Engine.sealedPacket, Session.encryptAs_packet sealing.nonce hv]
        rfl
      apply h.poll sound hp hp' ((htype text').trans (htype text).symm)
        ((hsource text').trans (hsource text).symm)
      · rw [sealed_destination, sealed_destination]
      · intro hconnect
        exact absurd ((htype text).symm.trans hconnect) ht.2
      · intro t htl htr htk
        have hsame : s.localPublic = t.remotePublic → s.remotePublic = t.localPublic →
            t.sharedKey = s.sharedKey := by
          intro hfrom hto
          rw [← hfrom, hl] at htk
          rw [hto, htl] at hk
          exact hagree _ _ htk hk
        rw [htype]
        obtain hnone | ⟨u, hu, hu'⟩ := decrypt_sealed sealing hv (agreeSharedKey_length hk).2
          hsame type text text'
        · exact Or.inl hnone
        · exact Or.inr ⟨text, text', u, hu, hu', stands⟩
    · next hcut =>
      rw [if_neg hcut] at hp'
      exact h.poll_ignored hp hp'

end Engines

structure Worlds where
  left : Engines
  right : Engines

/-- One of the two parties is called in both worlds, or takes off the wire what one of them has put
there in either. -/
inductive Event where
  | call (X : Party) (env : Env) (c c' : Engine.Call)
  | deliver (X Y : Party) (env : Env) (index : ℕ) (origin : Endpoint)

def carried (es : Engines) (Y : Party) (index : ℕ) (origin : Endpoint) : Option Datagram :=
  (es Y).socket.sent[index]?.map fun p => ⟨origin, serialize p.2⟩

def Worlds.step (C : Sodium) (w : Worlds) : Event → Worlds
  | .call X env c c' => ⟨w.left.step C (X, env, c), w.right.step C (X, env, c')⟩
  | .deliver X Y env index origin =>
    ⟨w.left.step C (X, env, .poll (carried w.left Y index origin)),
      w.right.step C (X, env, .poll (carried w.right Y index origin))⟩

def Paired : Event → Prop
  | .call _ env c c' => Even env ∧ Twins c c'
  | .deliver _ _ env _ _ => Even env

section Run

variable {C : Sodium} (K : Keyring C)

structure Twinned (w : Worlds) : Prop where
  ready : Ready K w.left
  masked : ∀ X, Masked C (K.key X) (K.identity X).secretKey (w.left X) (w.right X)

variable {K} {w : Worlds} {es₀ : Engines}

theorem twinned_started (hstart : ∀ X, Started C (K.identity X) (es₀ X)) : Twinned K ⟨es₀, es₀⟩ := by
  have ready := ready_started hstart
  refine ⟨ready, fun X => ⟨⟨ready.localPublic X, ready.localSecret X⟩, ⟨⟨_, _, _, _⟩, rfl⟩,
    ⟨rfl, rfl⟩, ?_⟩⟩
  obtain ⟨contacts, he⟩ := started_eq (hstart X)
  dsimp only
  rw [he]
  exact .nil

theorem agree_unique (X Y : Party) {key key' : Bytes}
    (hkey : agreeSharedKey C (K.identity X).secretKey (K.key Y) = some key)
    (hkey' : agreeSharedKey C (K.identity Y).secretKey (K.key X) = some key') : key = key' := by
  obtain hY | hY := X.eq_or_other Y
  · rw [hY] at hkey hkey'
    exact Option.some.inj (hkey.symm.trans hkey')
  · have hcommon := K.common_eq X
    have hcommon' := K.common_eq X.other
    rw [hY] at hkey hkey'
    rw [Party.other_other, hkey'] at hcommon'
    rw [hkey] at hcommon
    exact hcommon.trans hcommon'.symm

theorem Twinned.move (twinned : Twinned K w) {X : Party} {env : Env} {c c' : Engine.Call}
    (hcall : Matches C (K.key X) (K.identity X).secretKey ((w.left X).call C env c)
      ((w.right X).call C env c')) :
    Twinned K ⟨w.left.step C (X, env, c), w.right.step C (X, env, c')⟩ := by
  refine ⟨twinned.ready.step _, fun Y => ?_⟩
  by_cases hY : Y = X
  · subst hY
    dsimp only
    rw [Engines.step, Engines.step, Function.update_self, Function.update_self]
    exact hcall.1
  · dsimp only
    rw [Engines.step, Engines.step, Function.update_of_ne hY, Function.update_of_ne hY]
    exact twinned.masked Y

theorem Twinned.step (twinned : Twinned K w) {event : Event} (paired : Paired event) :
    Twinned K (w.step C event) := by
  cases event with
  | call X env c c' =>
    exact twinned.move ((twinned.masked X).call (twinned.ready.sound X) paired.1 paired.2)
  | deliver X Y env index origin =>
    apply twinned.move
    have h := twinned.masked X
    have sound := twinned.ready.sound X
    have hsent := (twinned.masked Y).sent
    unfold carried
    by_cases hindex : index < (w.left Y).socket.sent.length
    · have hindex' : index < (w.right Y).socket.sent.length := hsent.length_eq ▸ hindex
      rw [List.getElem?_eq_getElem hindex, List.getElem?_eq_getElem hindex']
      exact h.poll_shaped sound (fun _ _ => agree_unique X Y)
        (hsent.get hindex hindex') origin
    · have hindex' : ¬ index < (w.right Y).socket.sent.length := hsent.length_eq ▸ hindex
      rw [List.getElem?_eq_none (not_lt.mp hindex), List.getElem?_eq_none (not_lt.mp hindex')]
      exact h.call sound paired (.same (.poll none))

theorem seen_shaped {localPublic localSecret : Bytes} {p p' : Endpoint × Packet}
    (shaped : Shaped C localPublic localSecret p p') : outside p' = outside p := by
  cases shaped with
  | hello dest destination => rfl
  | sealed dest env s type hv hl hk ht stands hfit => exact sealed_outside env hv hk type stands.1 dest

theorem Masked.seen {localPublic localSecret : Bytes} {e e' : Engine}
    (h : Masked C localPublic localSecret e e') : seen e' = seen e := by
  unfold Secrecy.seen
  have hsent := h.sent
  generalize e.socket.sent = sent at hsent
  generalize e'.socket.sent = sent' at hsent
  induction hsent with
  | nil => rfl
  | cons shaped _ ih => rw [List.map_cons, List.map_cons, seen_shaped shaped, ih]

/-- Whatever the two say to each other and to others, and however they name their peers: as long as
the texts are of the same length, the network sees the same packets to the same addresses, as long
as each other and under the same envelopes; and every call does the same. -/
theorem wire_blind {h : History Worlds Event}
    (hstart : ∀ X, Started C (K.identity X) (es₀ X))
    (run : Run (Worlds.step C) (fun _ _ event => Paired event) ⟨es₀, es₀⟩ h w) (X : Party) :
    seen (w.right X) = seen (w.left X) ∧
    (∀ peer, (w.right X).trustOf peer = (w.left X).trustOf peer) ∧
    (∃ k, w.right X = hide (w.left X) k) ∧
    ∀ env c c', Even env → Twins c c' →
      ((w.right X).call C env c').2 = ((w.left X).call C env c).2 := by
  have twinned : Twinned K w := run.invariant (fun _ w => Twinned K w) (twinned_started hstart)
    fun _ _ event _ twinned paired => twinned.step paired
  have masked := twinned.masked X
  exact ⟨masked.seen, masked.trustOf, masked.rest, fun env c c' even twins =>
    (masked.call (twinned.ready.sound X) even twins).2⟩

end Run

theorem even_later : Even later := by
  refine ⟨fun dest data data' hlen => ?_, fun dest data htaken => ?_⟩
  · rw [later_takes, later_takes, hlen]
  · rw [later_takes] at htaken
    exact of_decide_eq_true htaken

def whispering : List Event :=
  [.call .A later (.addPeer (twoParties.key .B) (homes .B))
      (.addPeer (twoParties.key .B) (homes .B)),
    .call .B later (.addPeer (twoParties.key .A) (homes .A))
      (.addPeer (twoParties.key .A) (homes .A)),
    .call .A later (.send (twoParties.key .B) [121, 101, 115])
      (.send (twoParties.key .B) [110, 111, 33]),
    .deliver .B .A later 0 (homes .A)]

def whispered : History Worlds Event × Worlds :=
  Run.replay (Worlds.step reference) [] ⟨newEngines, newEngines⟩ whispering

/-- B has read different texts, of the same packet on the wire. -/
theorem wire_blind_whispering :
    seen (whispered.2.right .A) = seen (whispered.2.left .A) ∧
    (seen (whispered.2.left .A)).length = 1 ∧
    (whispered.2.left .B).contacts.messages.map (·.text) = [[121, 101, 115]] ∧
    (whispered.2.right .B).contacts.messages.map (·.text) = [[110, 111, 33]] := by
  have lawful : Run.Lawful (Worlds.step reference) (fun _ _ event => Paired event) []
      ⟨newEngines, newEngines⟩ whispering :=
    ⟨⟨even_later, .same _⟩, ⟨even_later, .same _⟩, ⟨even_later, .said _ rfl⟩, even_later, trivial⟩
  have run := Run.replay_run .start lawful
  have hblind := wire_blind (K := twoParties) (fun X => Or.inl rfl) run .A
  exact ⟨hblind.1, by decide +kernel, by decide +kernel, by decide +kernel⟩

end OpenMesh.Messaging.Secrecy
