import OpenMesh.Messaging.Effects
import OpenMesh.Messaging.Sides

namespace OpenMesh.Messaging.Projection

open OpenMesh.Core.Buffers OpenMesh.Core.Hex OpenMesh.Crypto.Primitives
open OpenMesh.Protocol.Envelope OpenMesh.Protocol.EnvelopeCodec OpenMesh.Net.Transport
open OpenMesh.Storage.Database OpenMesh.Storage.Lookup
open OpenMesh.Messaging.Sessions OpenMesh.Messaging.Operations OpenMesh.Messaging.Sides

/-- The letter in a packet, for the holder of the key. -/
def letterOf (C : Sodium) (key : Bytes) (packet : Packet) : Option Letter :=
  if packet.encrypted then
    (aeadOpen C key packet.payload (associatedData packet)).map fun text =>
      ⟨packet.type, packet.counter, text⟩
  else none

def lettersTo (C : Sodium) (key peer : Bytes) (sent : List (Endpoint × Packet)) : List Letter :=
  sent.filterMap fun p => if p.2.destination = peer then letterOf C key p.2 else none

def received (messages : List Message) (peer : Bytes) : List Bytes :=
  (messages.filter fun m => m.peer = peer ∧ m.outgoing = false).map (·.text)

def said (messages : List Message) (peer : Bytes) : List Bytes :=
  (messages.filter fun m => m.peer = peer ∧ m.outgoing).map (·.text)

def handedOver (calls : List Delivered) (peer : Bytes) : List Bytes :=
  (calls.filter fun m => m.peer = peer).map (·.plaintext)

def mark (s : Session) : Option UInt64 :=
  if s.haveReceived then some s.lastReceived else none

variable (C : Sodium)

/-- The key an engine and a peer share; empty where there is none. -/
def sharedKey (e : Engine) (peer : Bytes) : Bytes :=
  (agreeSharedKey C e.localSecret peer).getD []

def sendCounter (e : Engine) (peer : Bytes) : UInt64 :=
  ((e.opened C peer).map (·.sendCounter)).getD 0

def side (e : Engine) (peer : Bytes) : Side where
  trust := e.trustOf peer
  incoming := toHex peer ∈ e.incomingRequests
  outgoing := toHex peer ∈ e.outgoingRequests
  listed := e.contacts.requests.any (·.peer = peer)
  counter := sendCounter C e peer
  mark := (e.opened C peer).bind mark
  letters := lettersTo C (sharedKey C e peer) peer e.socket.sent
  inbox := received e.contacts.messages peer
  outbox := said e.contacts.messages peer
  listening := e.messageHandler.installed
  handed := handedOver e.messageHandler.calls peer

/-- The letter from the peer that a datagram brings, were it to be opened. -/
def brought (e : Engine) (peer : Bytes) (incoming : Option Datagram) : Option Letter :=
  match incoming.bind fun d => deserialize (receive d).data with
  | none => none
  | some packet =>
    if packet.type ≠ .hello ∧ packet.type ≠ .connect ∧ packet.source = peer ∧
        packet.destination = e.localPublic then letterOf C (sharedKey C e peer) packet
    else none

def delivery (e : Engine) (peer : Bytes) (incoming : Option Datagram) : Act :=
  match brought C e peer incoming with
  | some letter => .deliver letter
  | none => .idle

/-- What a call amounts to for one peer. -/
def act (env : Env) (e : Engine) (peer : Bytes) (c : Engine.Call) : Act :=
  let leaves := (e.call C env c).2
  let reached := (e.opened C peer).isSome
  match c with
  | .onMessage => .listen
  | .addPeer r _ => if r = peer ∧ reached then .add else .idle
  | .setNickname r _ => if r = peer then .name else .idle
  | .sendContactRequest r _ greeting =>
    if r = peer ∧ reached ∧ e.trustOf peer ≠ some .accepted then .ask greeting leaves else .idle
  | .acceptContact r =>
    if r = peer ∧ reached ∧ toHex peer ∈ e.incomingRequests then .answer true leaves else .idle
  | .rejectContact r =>
    if r = peer ∧ reached ∧ toHex peer ∈ e.incomingRequests then .answer false leaves else .idle
  | .send r text =>
    if r = peer ∧ reached ∧ e.trustOf peer = some .accepted then .tell text leaves else .idle
  | .poll incoming => delivery C e peer incoming
  | _ => .idle

/-- The packets an engine puts on the wire: greetings in the clear, and what
the sessions of its keys seal. -/
inductive Written (e : Engine) : Packet → Prop
  | hello (destination : Bytes) :
      Written e { type := .hello, source := e.localPublic, destination }
  | sealed (env : Env) (s : Session) (type : PacketType) (text : Bytes) (hv : s.valid)
      (hl : s.localPublic = e.localPublic)
      (hk : agreeSharedKey C e.localSecret s.remotePublic = some s.sharedKey)
      (ht : type ≠ .hello ∧ type ≠ .connect) : Written e (Engine.sealedPacket C env s type text)

/-- Every session is the one its two keys make, and so is every packet sent. -/
structure Sound (e : Engine) : Prop where
  sessions : ∀ peer s, e.session peer = some s →
    s.valid ∧ s.localPublic = e.localPublic ∧ s.remotePublic = peer ∧
      agreeSharedKey C e.localSecret peer = some s.sharedKey
  wire : ∀ p ∈ e.socket.sent, Written C e p.2

variable {C}

theorem new_valid {localPublic localSecret r : Bytes}
    (h : (Session.new C localPublic localSecret r).valid) :
    agreeSharedKey C localSecret r = some (Session.new C localPublic localSecret r).sharedKey ∧
      (Session.new C localPublic localSecret r).localPublic = localPublic ∧
      (Session.new C localPublic localSecret r).remotePublic = r := by
  unfold Session.new at h ⊢
  cases hk : agreeSharedKey C localSecret r with
  | none => simp [hk] at h
  | some key => simp

theorem opened_new {e : Engine} {r : Bytes} {s : Session} (hnone : e.session r = none)
    (h : e.opened C r = some s) : s.valid ∧ s = Session.new C e.localPublic e.localSecret r := by
  unfold Engine.opened at h
  simp only [hnone] at h
  split at h
  · next hv =>
    cases h
    exact ⟨hv, rfl⟩
  · cases h

theorem Sound.opened {e : Engine} (sound : Sound C e) {r : Bytes} {s : Session}
    (h : e.opened C r = some s) :
    s.valid ∧ s.localPublic = e.localPublic ∧ s.remotePublic = r ∧
      agreeSharedKey C e.localSecret r = some s.sharedKey := by
  cases hs : e.session r with
  | some t =>
    unfold Engine.opened at h
    rw [hs] at h
    cases h
    exact sound.sessions r s hs
  | none =>
    obtain ⟨hv, rfl⟩ := opened_new hs h
    obtain ⟨hk, hl, hr⟩ := new_valid hv
    exact ⟨hv, hl, hr, hk⟩

theorem opened_isSome {e : Engine} {r : Bytes} (h : (agreeSharedKey C e.localSecret r).isSome) :
    (e.opened C r).isSome := by
  unfold Engine.opened
  cases e.session r with
  | some t => rfl
  | none =>
    obtain ⟨key, hk⟩ := Option.isSome_iff_exists.mp h
    simp [Session.new, hk]

theorem Sound.sharedKey {e : Engine} (sound : Sound C e) {r : Bytes} {s : Session}
    (h : e.opened C r = some s) : sharedKey C e r = s.sharedKey := by
  simp [Projection.sharedKey, (sound.opened h).2.2.2]

theorem letterOf_opened {e : Engine} {r : Bytes} {packet : Packet} {l : Letter}
    (h : letterOf C (sharedKey C e r) packet = some l) : ∃ s, e.opened C r = some s := by
  apply Option.isSome_iff_exists.mp
  apply opened_isSome
  cases hk : agreeSharedKey C e.localSecret r with
  | some key => rfl
  | none =>
    have hkey : sharedKey C e r = [] := by simp [sharedKey, hk]
    simp [letterOf, hkey, aeadOpen, kSessionKeyBytes] at h

theorem opened_holds {e e' : Engine} {r : Bytes} {s : Session} (h : e.Holds r s e') (q : Bytes) :
    e'.opened C q = if q = r then some s else e.opened C q := by
  have hpub : e'.localPublic = e.localPublic := by rw [h.rest]
  have hsec : e'.localSecret = e.localSecret := by rw [h.rest]
  by_cases hq : q = r
  · subst hq
    simp [Engine.opened, h.here]
  · simp [Engine.opened, h.elsewhere q hq, hq, hpub, hsec]

theorem Written.congr {e e' : Engine} {packet : Packet} (h : Written C e packet)
    (hpub : e'.localPublic = e.localPublic) (hsec : e'.localSecret = e.localSecret) :
    Written C e' packet := by
  cases h with
  | hello destination =>
    rw [← hpub]
    exact .hello destination
  | sealed env s type text hv hl hk ht =>
    exact .sealed env s type text hv (hl.trans hpub.symm) (by rwa [hsec]) ht

theorem Written.source {e : Engine} {packet : Packet} (h : Written C e packet) :
    packet.source = e.localPublic := by
  cases h with
  | hello destination => rfl
  | sealed env s type text hv hl hk ht =>
    rw [Engine.sealedPacket, Session.encryptAs_packet env.nonce hv]
    exact hl

theorem Sound.holds {e e' : Engine} {r : Bytes} {s t : Session} (sound : Sound C e)
    (ho : e.opened C r = some s) (ht : t.valid = s.valid ∧ t.localPublic = s.localPublic ∧
      t.remotePublic = s.remotePublic ∧ t.sharedKey = s.sharedKey) (h : e.Holds r t e') :
    Sound C e' := by
  have hpub : e'.localPublic = e.localPublic := by rw [h.rest]
  have hsec : e'.localSecret = e.localSecret := by rw [h.rest]
  have hsent : e'.socket = e.socket := by rw [h.rest]
  constructor
  · intro q u hu
    rw [hpub, hsec]
    by_cases hq : q = r
    · subst hq
      rw [h.here] at hu
      cases hu
      obtain ⟨h1, h2, h3, h4⟩ := ht
      rw [h1, h2, h3, h4]
      exact sound.opened ho
    · rw [h.elsewhere q hq] at hu
      exact sound.sessions q u hu
  · intro p hp
    rw [hsent] at hp
    exact (sound.wire p hp).congr hpub hsec

theorem side_holds {e e' : Engine} {r : Bytes} {s : Session} (h : e.Holds r s e') (q : Bytes) :
    side C e' q = if q = r then
      { side C e q with counter := s.sendCounter, mark := mark s } else side C e q := by
  have hside : side C e' q = { side C e q with
      counter := ((e'.opened C q).map (·.sendCounter)).getD 0
      mark := (e'.opened C q).bind mark } := by
    rw [h.rest]
    rfl
  rw [hside, opened_holds h]
  by_cases hq : q = r
  · simp [hq]
  · simp [hq, side, sendCounter]

@[simp] theorem lettersTo_append (key peer : Bytes) (xs ys : List (Endpoint × Packet)) :
    lettersTo C key peer (xs ++ ys) = lettersTo C key peer xs ++ lettersTo C key peer ys :=
  List.filterMap_append

@[simp] theorem received_append (xs ys : List Message) (peer : Bytes) :
    received (xs ++ ys) peer = received xs peer ++ received ys peer := by
  simp [received]

@[simp] theorem said_append (xs ys : List Message) (peer : Bytes) :
    said (xs ++ ys) peer = said xs peer ++ said ys peer := by
  simp [said]

theorem letterOf_header (key payload : Bytes) (s : Session) (type : PacketType) :
    letterOf C key { s.header type with payload } =
      (aeadOpen C key payload (associatedData (s.header type))).map fun text =>
        ⟨type, s.sendCounter, text⟩ := by
  have he : Packet.encrypted { s.header type with payload } = true := by
    change decide (kFlagEncrypted &&& kFlagEncrypted ≠ 0) = true
    decide
  rw [letterOf, if_pos he]
  rfl

theorem letterOf_sealed (env : Env) {s : Session} (hv : s.valid)
    (hk : s.sharedKey.length = kSessionKeyBytes) (type : PacketType) (text : Bytes) :
    letterOf C s.sharedKey (Engine.sealedPacket C env s type text) =
      some ⟨type, s.sendCounter, text⟩ := by
  rw [Engine.sealedPacket, Session.encryptAs_packet env.nonce hv, letterOf_header,
    aeadOpen_aeadSeal text _ hk]
  rfl

theorem sealed_destination (env : Env) (s : Session) (type : PacketType) (text : Bytes) :
    (Engine.sealedPacket C env s type text).destination = s.remotePublic := by
  simp only [Engine.sealedPacket, Session.encryptAs]
  split <;> rfl

/-- What sealing and sending does to the side of the peer; no other side sees it. -/
theorem side_sealAndSend (env : Env) {e : Engine} (sound : Sound C e) {r : Bytes} {s : Session}
    (ho : e.opened C r = some s) (type : PacketType) (text q : Bytes) :
    side C (e.sealAndSend C env r s type text).1 q =
      if q = r then (side C e q).post type text (e.sealAndSend C env r s type text).2
      else side C e q := by
  obtain ⟨hv, -, hr, hk⟩ := sound.opened ho
  have hletter := letterOf_sealed (C := C) env hv (agreeSharedKey_length hk).2 type text
  have hdest := sealed_destination (C := C) env s type text
  rw [Engine.sealAndSend_eq]
  generalize Engine.sealedPacket C env s type text = packet at hletter hdest
  let t := { s with sendCounter := s.sendCounter + 1 }
  let e₁ := { e with sessions := e.sessions.insert (toHex r) t }
  have hh : e.Holds r t e₁ := .insert e r t
  have hside : ∀ socket : UdpSocket, side C { e₁ with socket } q =
      { side C e₁ q with letters := lettersTo C (sharedKey C e q) q socket.sent } := fun _ => rfl
  change side C { e₁ with socket := (e.post env (toHex r) packet).1 } q = _
  rw [hside, side_holds hh]
  obtain h | ⟨dest, h⟩ := e.post_sent env (toHex r) packet
  · rw [h]
    by_cases hq : q = r
    · subst hq
      simp [side, sendCounter, Side.post, ho, t, mark]
    · simp [hq, side, sendCounter]
  · rw [h]
    by_cases hq : q = r
    · subst hq
      simp [side, sendCounter, Side.post, ho, t, mark, lettersTo, hdest, hr, hletter,
        sound.sharedKey ho]
    · have hne : ¬ s.remotePublic = q := fun h => hq (hr ▸ h).symm
      simp [hq, side, lettersTo, hdest, hne]

theorem side_contacts (e : Engine) (contacts : Store) (q : Bytes) :
    side C { e with contacts } q =
      { side C e q with
        trust := contacts.trustOf q
        listed := contacts.requests.any (·.peer = q)
        inbox := received contacts.messages q
        outbox := said contacts.messages q } := rfl

theorem side_upsert (e : Engine) (c : Contact) (q : Bytes) :
    side C { e with contacts := e.contacts.upsert c } q =
      if q = c.publicKey then { side C e q with trust := some c.trust } else side C e q := by
  rw [side_contacts, Store.trustOf_upsert, Store.upsert_requests, Store.upsert_messages]
  by_cases hq : q = c.publicKey
  · rw [if_pos hq, if_pos hq.symm]
    rfl
  · rw [if_neg hq, if_neg (Ne.symm hq)]
    rfl

theorem side_setTrust (e : Engine) (r : Bytes) (trust : TrustStatus) (q : Bytes) :
    side C (e.setTrust r trust) q =
      if q = r then { side C e q with trust := some trust } else side C e q :=
  side_upsert e _ q

theorem side_setNickname (e : Engine) (r name q : Bytes) :
    side C (e.setNickname r name) q =
      if q = r then { side C e q with trust := some ((side C e q).trust.getD .pending) }
      else side C e q := by
  rw [Engine.setNickname, side_upsert]
  by_cases hq : q = r
  · subst hq
    have ht : (side C e q).trust = (e.contacts.find q).map (·.trust) := Store.trustOf_eq_find _ _
    rw [if_pos rfl, if_pos rfl, ht]
    cases e.contacts.find q <;> rfl
  · rw [if_neg hq, if_neg hq]

theorem side_removeRequest (e : Engine) (r q : Bytes) :
    side C { e with
        incomingRequests := e.incomingRequests.erase (toHex r)
        contacts := e.contacts.removeRequest r } q =
      if q = r then { side C e q with incoming := false, listed := false } else side C e q := by
  have hside : side C { e with
      incomingRequests := e.incomingRequests.erase (toHex r)
      contacts := e.contacts.removeRequest r } q =
      { side C e q with
        incoming := toHex q ∈ e.incomingRequests.erase (toHex r)
        trust := (e.contacts.removeRequest r).trustOf q
        listed := (e.contacts.removeRequest r).requests.any (·.peer = q)
        inbox := received (e.contacts.removeRequest r).messages q
        outbox := said (e.contacts.removeRequest r).messages q } := rfl
  have hlisted : (e.contacts.removeRequest r).requests.any (·.peer = q) =
      (decide (q ≠ r) && e.contacts.requests.any (·.peer = q)) := by
    have h := Store.listed_removeRequest e.contacts r q
    simp only [Store.Listed] at h
    rw [Bool.eq_iff_iff]
    simpa only [Bool.and_eq_true, List.any_eq_true, decide_eq_true_eq] using h
  rw [hside, Store.removeRequest_trustOf, Store.removeRequest_messages, hlisted]
  by_cases hq : q = r
  · simp [hq, side, Engine.trustOf]
  · simp [hq, side, Engine.trustOf]

end OpenMesh.Messaging.Projection
