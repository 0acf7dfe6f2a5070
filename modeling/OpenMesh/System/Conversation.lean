import OpenMesh.Messaging.Deliverable
import OpenMesh.System.Network

namespace OpenMesh.System.Conversation

open OpenMesh.Core.Buffers OpenMesh.Core.Hex OpenMesh.Crypto.Primitives
open OpenMesh.Crypto.Reference OpenMesh.Library.Runs
open OpenMesh.Protocol.Envelope OpenMesh.Protocol.EnvelopeCodec OpenMesh.Net.Transport
open OpenMesh.Storage.Database OpenMesh.Messaging.Sessions OpenMesh.Messaging.Operations
open OpenMesh.Messaging.Sides OpenMesh.Messaging.Projection OpenMesh.Messaging.Handling
open OpenMesh.Messaging.Handshake (mark_act)
open OpenMesh.Messaging.Simulation OpenMesh.Messaging.Pairs OpenMesh.Messaging.Integrity
open OpenMesh.Messaging.Punching (homes kMaxDatagram key_ne_nil sealedPacket_type)
open OpenMesh.Messaging.Routes OpenMesh.Messaging.Paths OpenMesh.Messaging.Resumption
open OpenMesh.Relay.Router OpenMesh.Relay.Server OpenMesh.Relay.Traffic
open OpenMesh.System.Network

/-- What one of the two says, with all that the three parties on the way take from outside: the
caller of `send`, the relay, and the one who polls. -/
structure Line where
  speaker : Party
  text : Bytes
  saying : Env
  now : Int
  takes : Endpoint → Bytes → Bool
  hearing : Env

variable {C : Sodium} (N : Net) (K : Keyring C)

def Line.send (l : Line) : Event :=
  .call (l.speaker, l.saying, .send (K.key l.speaker.other) l.text)

def Line.round (l : Line) (packet : Packet) : Round :=
  ⟨some ⟨N.home l.speaker, serialize packet⟩, l.now, l.takes⟩

def Line.poll (l : Line) (f : Forward) : Event :=
  .call (l.speaker.other, l.hearing, .poll (some ⟨N.relay, f.datagram⟩))

/-- The call of `send`; then, if a packet has gone to the relay, the turn of the relay that it
makes; then, if the relay has passed it on, the `poll` of the other. -/
def script (w : Mesh) (l : Line) : List Event :=
  let w₁ := w.step C (l.send K)
  match (w₁.engines l.speaker).socket.sent.drop (w.engines l.speaker).socket.sent.length with
  | [(dest, packet)] =>
    if dest = N.relay then
      match (runOnce w₁.relay (l.round N packet)).2 with
      | [f] => [l.send K, .turn (l.round N packet), l.poll N f]
      | _ => [l.send K, .turn (l.round N packet)]
    else [l.send K]
  | _ => [l.send K]

def talk (past : History Mesh Event × Mesh) (lines : List Line) : History Mesh Event × Mesh :=
  lines.foldl (fun past l => Run.replay (Mesh.step C) past.1 past.2 (script N K past.2 l)) past

def texts (X : Party) (lines : List Line) : List Bytes :=
  (lines.filter (·.speaker = X)).map (·.text)

/-- A text that the receive buffer leaves whole, which comes by the relay while whoever it has heard
of since `first` still has a route. -/
structure Timely (config : Config) (first : Int) (l : Line) : Prop where
  short : l.text.length ≤ kLongestText
  since : first ≤ l.now
  until_ : l.now ≤ first + config.routeTtlSeconds
  sent : ∀ dest data, data.length ≤ kMaxDatagram → l.saying.takes dest data
  forwarded : ∀ dest data, data.length ≤ kMaxDatagram → l.takes dest data

/-- The two have accepted each other and write over the relay, which knows both; and neither has
opened a packet with a counter that the other has not passed. -/
structure Linked (config : Config) (first : Int) (room : ℕ) (w : Mesh) : Prop where
  honest : Honest N K config w
  accepted : ∀ X, (w.engines X).trustOf (K.key X.other) = some .accepted
  routed : ∀ X, (endpointOf (w.engines X) (K.key X.other)).or (w.engines X).relay = some N.relay
  known : ∀ X, ∃ entry ∈ w.relay.routes.routes.lookup (toHex (K.key X)), first ≤ entry.lastSeen
  ahead : ∀ X, Ahead (view K w.engines) X
  room : ∀ X, (sendCounter C (w.engines X) (K.key X.other)).toNat + room < 2 ^ 64

/-- Between two states, exactly these lines have come in: each has those of the other at the end of
the conversation, and the handler, if there is one, was called with them. -/
structure Hears (w w' : Mesh) (lines : List Line) : Prop where
  recorded : ∀ X, received (w'.engines X.other).contacts.messages (K.key X) =
    received (w.engines X.other).contacts.messages (K.key X) ++ texts X lines
  handed : ∀ X, handedOver (w'.engines X.other).messageHandler.calls (K.key X) =
    handedOver (w.engines X.other).messageHandler.calls (K.key X) ++
      if (w.engines X.other).messageHandler.installed then texts X lines else []
  installed : ∀ X, (w'.engines X).messageHandler.installed = (w.engines X).messageHandler.installed

variable {N K} {config : Config} {first : Int} {room : ℕ} {w : Mesh}

theorem ahead_run {p₀ p : Pair} {h : History Pair (Party × Act)} (hstart : ∀ Y, (p₀ Y).Starting)
    (run : Run Pair.step (fun _ p m => p.Permits m ∧ (p m.1).counter ≤ ((p m.1).act m.2).counter)
      p₀ h p) (X : Party) : Ahead p X := by
  induction run generalizing X with
  | start =>
    intro c hc
    rw [(hstart X.other).mark] at hc
    cases hc
  | @move h p m before hok ih =>
    obtain ⟨Y, a⟩ := m
    intro c hc
    obtain rfl | rfl := X.eq_or_other Y
    · rw [Pair.step_other] at hc
      rw [Pair.step_self]
      exact UInt64.lt_of_lt_of_le (ih Y c hc) hok.2
    · rw [Pair.step_self] at hc
      have hX : p.step (X.other, a) X = p X := by
        simpa only [Party.other_other] using p.step_other X.other a
      rw [hX]
      obtain hc | ⟨l, rfl, -, rfl⟩ := mark_act (p X.other) hc
      · exact ih X c hc
      · have hl : l ∈ (p X).letters := by simpa using hok.1.posted l rfl
        exact (ledger_run hstart before).below l hl

theorem agreement_isSome (agree : (agreeSharedKey C (K.identity .A).secretKey (K.key .B)).isSome)
    (X : Party) : (agreeSharedKey C (K.identity X).secretKey (K.key X.other)).isSome := by
  cases X with
  | A => exact agree
  | B =>
    have hcomm := agreeSharedKey_comm (K.identity .A) (K.identity .B) (K.public_of_secret .A)
      (K.public_of_secret .B) (K.convertible .A) (K.convertible .B) K.commutes
    exact hcomm ▸ agree

theorem send_leaves {env : Env} {e : Engine} {r text : Bytes} {s : Session} {dest : Endpoint}
    (ht : e.trustOf r = some .accepted) (ho : e.opened C r = some s)
    (hroute : (endpointOf e r).or e.relay = some dest)
    (htakes : env.takes dest (serialize (Engine.sealedPacket C env s .message text))) :
    (e.send C env r text).2 = true ∧ (e.send C env r text).1.socket.sent =
      e.socket.sent ++ [(dest, Engine.sealedPacket C env s .message text)] := by
  unfold Engine.send
  rw [if_neg (not_not.mpr ht)]
  cases hs : e.ensureSession C r with
  | none => simp [Engine.ensureSession_eq_none hs] at ho
  | some p =>
    obtain ⟨e', s'⟩ := p
    obtain ⟨ho', hh⟩ := Engine.ensureSession_eq_some hs
    obtain rfl := Option.some.inj (ho.symm.trans ho')
    have hroute' : (e'.endpoints.lookup (toHex r)).or e'.relay = some dest := by
      rw [hh.rest]
      exact hroute
    have hsent : e'.socket.sent = e.socket.sent := by rw [hh.rest]
    have hpost : e'.post env (toHex r) (Engine.sealedPacket C env s .message text) =
        (⟨e.socket.sent ++ [(dest, Engine.sealedPacket C env s .message text)]⟩, true) := by
      rw [Engine.post, hroute']
      simp only [UdpSocket.sendTo, htakes, ↓reduceIte, hsent]
    dsimp only
    rw [Engine.sealAndSend_eq, hpost]
    exact ⟨rfl, rfl⟩

theorem sealed_length (env : Env) {s : Session} (hv : s.valid)
    (hk : s.sharedKey.length = kSessionKeyBytes) (type : PacketType) (text : Bytes) :
    (serialize (Engine.sealedPacket C env s type text)).length =
      s.localPublic.length + s.remotePublic.length + text.length + 59 := by
  rw [Engine.sealedPacket, Session.encryptAs_packet env.nonce hv type text, serialize_length,
    aeadSeal_length text _ hk]
  simp only [Session.header, kHeaderSize, kAeadNonceBytes, kAeadTagBytes]
  omega

section Relay

variable {s : RelayServer} {X : Party} {packet : Packet} {entry : Entry} {r : Round}

theorem relay_passes (hroutes : ∀ key entry, s.routes.routes.lookup key = some entry →
      ∃ Y, key = toHex (K.key Y) ∧ entry.endpoint = N.home Y)
    (hin : r.incoming = some ⟨N.home X, serialize packet⟩)
    (hfits : Fits packet) (hlen : (serialize packet).length ≤ kReceiveBufferSize)
    (hsource : packet.source = K.key X) (hdest : packet.destination = K.key X.other)
    (hknown : s.routes.routes.lookup (toHex (K.key X.other)) = some entry)
    (httl : 0 ≤ s.config.routeTtlSeconds)
    (hfresh : r.now ≤ entry.lastSeen + s.config.routeTtlSeconds)
    (htakes : r.takes (N.home X.other) (serialize packet)) :
    (runOnce s r).2 = [⟨N.home X.other, serialize packet⟩] ∧
      (turn s r).routes.routes.lookup (toHex (K.key X)) = some ⟨N.home X, r.now⟩ ∧
      (turn s r).routes.routes.lookup (toHex (K.key X.other)) = some entry := by
  have hwhole : receive ⟨N.home X, serialize packet⟩ = ⟨N.home X, serialize packet⟩ := by
    rw [receive, List.take_of_length_le hlen]
  have hparse := deserialize_serialize hfits
  let i : RelayServer.Input := .handle (serialize packet) (N.home X) r.now
  have hself : (s.step i).routes.routes.lookup (toHex (K.key X)) = some ⟨N.home X, r.now⟩ :=
    hears_route (key_ne_nil X) ⟨_, packet, rfl, hparse, hsource⟩
  have hother : (s.step i).routes.routes.lookup (toHex (K.key X.other)) = some entry := by
    rw [← hknown]
    apply handle_route
    intro q hq _ hkey
    obtain rfl := Option.some.inj (hparse.symm.trans hq)
    rw [hsource] at hkey
    exact K.key_other_ne X (toHex_injective hkey)
  have hconfig : (s.step i).config = s.config := config_step s i
  have hhome : entry.endpoint = N.home X.other := by
    obtain ⟨Y, hkey, hhome⟩ := hroutes _ entry hknown
    rw [hhome, K.key_injective (toHex_injective hkey)]
  have hstep : (s.handle (serialize packet) (N.home X) r.now).1 = s.step i := rfl
  have hforwards : (s.handle (serialize packet) (N.home X) r.now).2 =
      if packet.destination = [] then [] else
        (((s.handle (serialize packet) (N.home X) r.now).1.routes.lookup
          (toHex packet.destination)).map
            fun endpoint => (⟨endpoint, serialize packet⟩ : Forward)).toList :=
    handle_forwards hparse
  rw [hstep, hdest, if_neg (key_ne_nil _), RouteTable.lookup, hother, Option.map_some,
    hhome] at hforwards
  have hturn : turn s r = (s.step i).expire r.now := by
    simp only [turn, runOnce, hin, Option.map_some, hwhole]
    rfl
  refine ⟨?_, ?_, ?_⟩
  · simp only [runOnce, hin, Option.map_some, hwhole, hforwards]
    exact List.filter_eq_self.mpr fun f hf => by
      rw [List.mem_singleton.mp hf]
      exact htakes
  · rw [hturn, RelayServer.expire, RouteTable.entry_expire, hself]
    have hlt : ¬ r.now < r.now - s.config.routeTtlSeconds := by omega
    simp only [hconfig, Option.filter_some, hlt, not_false_eq_true, decide_true, ↓reduceIte]
  · rw [hturn, RelayServer.expire, RouteTable.entry_expire, hother]
    have hlt : ¬ entry.lastSeen < r.now - s.config.routeTtlSeconds := by omega
    simp only [hconfig, Option.filter_some, hlt, not_false_eq_true, decide_true, ↓reduceIte]

end Relay

theorem poll_routed {env : Env} {e : Engine} {packet : Packet} {relay : Endpoint}
    (hfits : Fits packet) (hlen : (serialize packet).length ≤ kReceiveBufferSize)
    (hty : packet.type = .message) (peer : Bytes)
    (hroute : (endpointOf e peer).or e.relay = some relay) :
    (endpointOf (e.poll C env (some ⟨relay, serialize packet⟩)).1 peer).or
      (e.poll C env (some ⟨relay, serialize packet⟩)).1.relay = some relay := by
  have hparsed : ∀ d q, some (⟨relay, serialize packet⟩ : Datagram) = some d →
      deserialize (receive d).data = some q → q.type = .message := by
    rintro d q hd hq
    cases hd
    rw [receive, List.take_of_length_le hlen, deserialize_serialize hfits] at hq
    cases hq
    exact hty
  obtain ⟨-, b, he⟩ | ⟨-, d, q, hd, hq, ht, -, -, he⟩ | ⟨-, d, q, hd, hq, ht, he⟩ |
    ⟨-, q, s, e', -, hh, -, he⟩ | ⟨d, q, s, s', text, e', -, hd, hq, -, -, -, hh, he⟩ :=
      Engine.poll_cases C env e (some ⟨relay, serialize packet⟩)
  · rw [he]
    exact hroute
  · rw [hparsed d q hd hq] at ht
    cases ht
  · rw [hparsed d q hd hq] at ht
    cases ht
  · rw [he, endpointOf, hh.rest]
    exact hroute
  · rw [he, endpointOf, (dispatch_frame env e' q text d.origin).2]
    have hroute' : (endpointOf e' peer).or e'.relay = some relay := by
      rw [endpointOf, hh.rest]
      exact hroute
    obtain hends | ⟨-, hends⟩ := dispatch_endpoints env e' q text d.origin
    · rw [hends]
      exact hroute'
    · rw [hends]
      by_cases hpeer : peer = q.source
      · rw [hpeer, AList.lookup_insert, ← Option.some.inj hd]
        rfl
      · rw [AList.lookup_insert_ne (by rwa [ne_eq, toHex_inj])]
        exact hroute'

theorem texts_append (X : Party) (lines lines' : List Line) :
    texts X (lines ++ lines') = texts X lines ++ texts X lines' := by
  rw [texts, List.filter_append, List.map_append]
  rfl

theorem Hears.trans {w w' w'' : Mesh} {lines lines' : List Line} (h : Hears K w w' lines)
    (h' : Hears K w' w'' lines') : Hears K w w'' (lines ++ lines') where
  recorded X := by rw [h'.recorded, h.recorded, texts_append, List.append_assoc]
  handed X := by
    rw [h'.handed, h.handed, h.installed, texts_append, List.append_assoc]
    split <;> rfl
  installed X := (h'.installed X).trans (h.installed X)

theorem hears_nil (w : Mesh) : Hears K w w [] where
  recorded _ := (List.append_nil _).symm
  handed X := by
    rw [texts, List.filter_nil, List.map_nil, ite_self, List.append_nil]
  installed _ := rfl

theorem hears_line {w w' : Mesh} {l : Line} {a : Act}
    (hself : view K w'.engines l.speaker = (view K w.engines l.speaker).act (.tell l.text true))
    (hother : view K w'.engines l.speaker.other = (view K w.engines l.speaker.other).act a)
    (hheard : (view K w.engines l.speaker.other).heard a = [l.text])
    (hlistening : ∀ X, (view K w'.engines X).listening = (view K w.engines X).listening) :
    Hears K w w' [l] := by
  have hinbox : ∀ X, (view K w'.engines X.other).inbox =
      (view K w.engines X.other).inbox ++ texts X [l] ∧
      (view K w'.engines X.other).handed = (view K w.engines X.other).handed ++
        if (view K w.engines X.other).listening then texts X [l] else [] := by
    intro X
    obtain rfl | rfl := l.speaker.eq_or_other X
    · have htexts : texts l.speaker [l] = [l.text] := by simp [texts]
      rw [hother, Side.act_inbox, Side.act_handed, hheard, htexts]
      exact ⟨rfl, rfl⟩
    · have htexts : texts l.speaker.other [l] = [] := by simp [texts]
      rw [Party.other_other, hself, Side.act_inbox, Side.act_handed, htexts]
      exact ⟨rfl, rfl⟩
  refine ⟨fun X => ?_, fun X => ?_, hlistening⟩
  · simpa only [view, side, Party.other_other] using (hinbox X).1
  · simpa only [view, side, Party.other_other] using (hinbox X).2

theorem act_listening {s : Side} {a : Act} (ha : a ≠ .listen) :
    (s.act a).listening = s.listening := by
  cases a with
  | listen => exact absurd rfl ha
  | deliver l =>
    rw [Side.act]
    split
    · exact s.hear_listening l
    · rfl
  | _ => rfl

theorem step_self (w : Mesh) (X : Party) (env : Env) (c : Engine.Call) :
    (w.step C (.call (X, env, c))).engines X = ((w.engines X).call C env c).1 :=
  Function.update_self ..

theorem step_other (w : Mesh) (X : Party) (env : Env) (c : Engine.Call) :
    (w.step C (.call (X, env, c))).engines X.other = w.engines X.other :=
  Function.update_of_ne X.other_ne ..

theorem step_turn (w : Mesh) (r : Round) : (w.step C (.turn r)).engines = w.engines := rfl

theorem relay_turn (w : Mesh) (r : Round) : (w.step C (.turn r)).relay = turn w.relay r := rfl

theorem relay_call (w : Mesh) (m : Move) : (w.step C (.call m)).relay = w.relay := rfl

theorem unheard (w : Mesh) (l : Line) (r : Round) :
    ((w.step C (l.send K)).step C (.turn r)).engines l.speaker.other =
      w.engines l.speaker.other := by
  rw [step_turn]
  exact step_other w l.speaker l.saying _

structure Said (w : Mesh) (l : Line) (packet : Packet) : Prop where
  left : ((w.engines l.speaker).send C l.saying (K.key l.speaker.other) l.text).2 = true
  sent : ((w.step C (l.send K)).engines l.speaker).socket.sent =
    (w.engines l.speaker).socket.sent ++ [(N.relay, packet)]
  size : (serialize packet).length ≤ kReceiveBufferSize
  type : packet.type = .message

section Line

variable {l : Line} {packet : Packet}

theorem said_line (agree : (agreeSharedKey C (K.identity .A).secretKey (K.key .B)).isSome)
    (linked : Linked N K config first room w) (timely : Timely config first l) :
    ∃ packet, Said (N := N) (K := K) w l packet := by
  have ready := linked.honest.ready
  have hagreed : (agreeSharedKey C (w.engines l.speaker).localSecret
      (K.key l.speaker.other)).isSome := by
    rw [ready.localSecret]
    exact agreement_isSome agree l.speaker
  obtain ⟨s, hs⟩ := Option.isSome_iff_exists.mp (opened_isSome hagreed)
  obtain ⟨hv, hlocal, hremote, hkey⟩ := (ready.sound l.speaker).opened hs
  have hsize : (serialize (Engine.sealedPacket C l.saying s .message l.text)).length ≤
      kReceiveBufferSize := by
    have hshort := timely.short
    rw [sealed_length l.saying hv (agreeSharedKey_length hkey).2, hlocal, hremote,
      ready.localPublic, K.key_length, K.key_length]
    simp only [kLongestText, kReceiveBufferSize, kPublicKeyBytes] at *
    omega
  have hmax : (serialize (Engine.sealedPacket C l.saying s .message l.text)).length ≤
      kMaxDatagram := le_trans hsize (by decide)
  obtain ⟨hleft, hsent⟩ := send_leaves (linked.accepted l.speaker) hs (linked.routed l.speaker)
    (timely.sent _ _ hmax)
  refine ⟨_, hleft, ?_, hsize, sealedPacket_type s .message l.text⟩
  rw [← hsent, Line.send, step_self]
  rfl

variable (linked : Linked N K config first (room + 1) w) (timely : Timely config first l)
variable (said : Said (N := N) (K := K) w l packet)

include linked said in
theorem Said.envelope : Fits packet ∧ packet.source = K.key l.speaker ∧
    packet.destination = K.key l.speaker.other := by
  have ready := linked.honest.ready
  have ready₁ := ready.step (l.speaker, l.saying, .send (K.key l.speaker.other) l.text)
  have hmem : (N.relay, packet) ∈ ((w.step C (l.send K)).engines l.speaker).socket.sent := by
    rw [said.sent]
    exact List.mem_append_right _ (List.mem_singleton_self _)
  exact ⟨sent_fits ready₁ hmem (le_trans said.size (by decide)), sent_source ready₁ hmem,
    (message_letter ready said.left said.sent).1⟩

include linked timely said in
theorem Said.passes :
    (runOnce w.relay (l.round N packet)).2 = [⟨N.home l.speaker.other, serialize packet⟩] ∧
      ∀ X, ∃ entry ∈ (turn w.relay (l.round N packet)).routes.routes.lookup (toHex (K.key X)),
        first ≤ entry.lastSeen := by
  obtain ⟨hfits, hsource, hdest⟩ := said.envelope linked
  obtain ⟨entry, hentry, hfirst⟩ := linked.known l.speaker.other
  have hconfig := linked.honest.unchanged
  have hnow : (l.round N packet).now = l.now := rfl
  have hsince := timely.since
  have huntil := timely.until_
  obtain ⟨hpass, hself, hother⟩ := relay_passes (r := l.round N packet) linked.honest.routes rfl
    hfits said.size hsource hdest hentry (by rw [hconfig]; omega) (by rw [hconfig, hnow]; omega)
    (timely.forwarded _ _ (le_trans said.size (by decide)))
  refine ⟨hpass, fun X => ?_⟩
  obtain rfl | rfl := l.speaker.eq_or_other X
  · exact ⟨_, hself, hsince⟩
  · exact ⟨entry, hother, hfirst⟩

include linked timely said in
theorem Said.script_eq : script N K w l = [l.send K, .turn (l.round N packet),
    l.poll N ⟨N.home l.speaker.other, serialize packet⟩] := by
  have hrelay : (w.step C (l.send K)).relay = w.relay := rfl
  simp only [script, said.sent, List.drop_left, ↓reduceIte, hrelay, (said.passes linked timely).1]

include linked timely said in
/-- What each of the two makes of the line. -/
theorem Said.views {w' : Mesh} (hw' : w' = ((w.step C (l.send K)).step C
      (.turn (l.round N packet))).step C (l.poll N ⟨N.home l.speaker.other, serialize packet⟩)) :
    view K w'.engines l.speaker = (view K w.engines l.speaker).act (.tell l.text true) ∧
      view K w'.engines l.speaker.other = (view K w.engines l.speaker.other).act
        (.deliver ⟨.message, (view K w.engines l.speaker).counter, l.text⟩) := by
  obtain ⟨a, hself, hother, hshort, -⟩ := exchanged_step l.hearing N.relay linked.honest.ready
    said.left said.sent rfl rfl
  rw [hshort timely.short] at hother
  rw [hw']
  exact ⟨hself, hother⟩

include linked timely said in
theorem Said.hears {w' : Mesh} (hw' : w' = ((w.step C (l.send K)).step C
      (.turn (l.round N packet))).step C (l.poll N ⟨N.home l.speaker.other, serialize packet⟩)) :
    Hears K w w' [l] := by
  obtain ⟨hself, hother⟩ := said.views linked timely hw'
  refine hears_line hself hother ?_ fun X => ?_
  · have htakes : (view K w.engines l.speaker.other).Takes
        ⟨.message, (view K w.engines l.speaker).counter, l.text⟩ :=
      ⟨fun _ => linked.accepted l.speaker.other, linked.ahead l.speaker⟩
    rw [Side.heard, if_pos ⟨htakes, rfl⟩]
  · obtain rfl | rfl := l.speaker.eq_or_other X
    · rw [hself]
      apply act_listening
      intro hlisten
      cases hlisten
    · rw [hother]
      apply act_listening
      intro hlisten
      cases hlisten

include linked timely said in
theorem Said.posted : Posted N w (l.send K) ∧
    Posted N (w.step C (l.send K)) (.turn (l.round N packet)) ∧
    Posted N ((w.step C (l.send K)).step C (.turn (l.round N packet)))
      (l.poll N ⟨N.home l.speaker.other, serialize packet⟩) := by
  have hmax : (serialize packet).length ≤ kMaxDatagram := le_trans said.size (by decide)
  refine ⟨?_, ?_, ?_⟩
  · intro d hd
    cases hd
  · intro d hd
    cases hd
    refine .inl ⟨l.speaker, rfl, (N.relay, packet), ?_, rfl, hmax, rfl⟩
    rw [said.sent]
    exact List.mem_append_right _ (List.mem_singleton_self _)
  · intro d hd
    cases hd
    refine .inr ⟨rfl, ⟨N.home l.speaker.other, serialize packet⟩, ?_, rfl, rfl⟩
    have hforwarded : (((w.step C (l.send K)).step C (.turn (l.round N packet))).forwarded) =
        w.forwarded ++ (runOnce w.relay (l.round N packet)).2 := rfl
    rw [hforwarded, (said.passes linked timely).1]
    exact List.mem_append_right _ (List.mem_singleton_self _)

include linked in
theorem counter_tell (X : Party) (text : Bytes) :
    ((view K w.engines X).act (.tell text true)).counter.toNat =
      (view K w.engines X).counter.toNat + 1 := by
  have hcounter : ((view K w.engines X).act (.tell text true)).counter =
      (view K w.engines X).counter + 1 := Side.act_counter _ _
  have hroom := linked.room X
  change (view K w.engines X).counter.toNat + _ < _ at hroom
  rw [hcounter, UInt64.toNat_add, UInt64.toNat_one, Nat.mod_eq_of_lt]
  omega

include linked timely said in
theorem Said.fair : Fair K w (l.send K) ∧
    Fair K ((w.step C (l.send K)).step C (.turn (l.round N packet)))
      (l.poll N ⟨N.home l.speaker.other, serialize packet⟩) := by
  refine ⟨⟨rfl, ?_⟩, rfl, ?_⟩
  · have hview := congrFun (view_step linked.honest.ready
      (m := (l.speaker, l.saying, .send (K.key l.speaker.other) l.text)) rfl) l.speaker
    rw [send_view said.left, Pair.step_self] at hview
    change (view K w.engines l.speaker).counter ≤ Side.counter (view K _ l.speaker)
    rw [hview, UInt64.le_iff_toNat_le, counter_tell linked]
    exact Nat.le_succ _
  · have hviews := (said.views linked timely rfl).2
    have hcounter := congrArg Side.counter hviews
    rw [Side.act_counter] at hcounter
    apply UInt64.le_of_eq
    rw [unheard]
    exact hcounter.symm

include linked timely said in
theorem Said.next {w' : Mesh} (hw' : w' = ((w.step C (l.send K)).step C
      (.turn (l.round N packet))).step C (l.poll N ⟨N.home l.speaker.other, serialize packet⟩)) :
    Linked N K config first room w' := by
  obtain ⟨hposted, hposted₁, hposted₂⟩ := said.posted linked timely
  obtain ⟨hself, hother⟩ := said.views linked timely hw'
  obtain ⟨hmark, htrust⟩ := mark_message (c := (view K w.engines l.speaker).counter) l.text
    (linked.accepted l.speaker.other) (linked.ahead l.speaker)
  have hcounter : (view K w'.engines l.speaker.other).counter =
      (view K w.engines l.speaker.other).counter := by
    rw [hother, Side.act_counter]
    rfl
  refine ⟨?_, fun X => ?_, fun X => ?_, ?_, fun X => ?_, fun X => ?_⟩
  · rw [hw']
    exact honest_step (honest_step (honest_step linked.honest hposted) hposted₁) hposted₂
  · change (view K w'.engines X).trust = _
    obtain rfl | rfl := l.speaker.eq_or_other X
    · rw [hself]
      exact linked.accepted l.speaker
    · rw [hother]
      exact htrust
  · obtain rfl | rfl := l.speaker.eq_or_other X
    · have hengine : w'.engines l.speaker =
          ((w.engines l.speaker).send C l.saying (K.key l.speaker.other) l.text).1 := by
        have hafter := step_other ((w.step C (l.send K)).step C (.turn (l.round N packet)))
          (C := C) l.speaker.other l.hearing (.poll (some ⟨N.relay, serialize packet⟩))
        rw [Party.other_other] at hafter
        rw [hw', Line.poll, hafter, step_turn]
        exact step_self w l.speaker l.saying _
      have same := samePaths_send (C := C) l.saying (w.engines l.speaker)
        (K.key l.speaker.other) l.text
      rw [hengine, same.endpointOf, same.relay]
      exact linked.routed l.speaker
    · have hengine : w'.engines l.speaker.other = ((w.engines l.speaker.other).poll C l.hearing
          (some ⟨N.relay, serialize packet⟩)).1 := by
        rw [hw', Line.poll, step_self, unheard]
        rfl
      rw [hengine]
      exact poll_routed (said.envelope linked).1 said.size said.type _
        (linked.routed l.speaker.other)
  · rw [hw', Line.poll, relay_call, relay_turn, Line.send, relay_call]
    exact (said.passes linked timely).2
  · obtain rfl | rfl := l.speaker.eq_or_other X
    · intro c hc
      rw [hother, hmark] at hc
      obtain rfl := Option.some.inj hc
      rw [hself, UInt64.lt_iff_toNat_lt, counter_tell linked]
      exact Nat.lt_succ_self _
    · intro c hc
      rw [Party.other_other, hself] at hc
      rw [hcounter]
      have hahead := linked.ahead l.speaker.other
      rw [Ahead, Party.other_other] at hahead
      exact hahead c hc
  · change (view K w'.engines X).counter.toNat + _ < _
    have hroom := linked.room X
    change (view K w.engines X).counter.toNat + _ < _ at hroom
    obtain rfl | rfl := l.speaker.eq_or_other X
    · rw [hself, counter_tell linked]
      omega
    · rw [hcounter]
      omega

end Line

variable {ok : History Mesh Event → Mesh → Event → Prop} {w₀ : Mesh} {h : History Mesh Event}

/-- One line is said and heard under the rules. -/
theorem line_run (agree : (agreeSharedKey C (K.identity .A).secretKey (K.key .B)).isSome)
    (hok : ∀ h w i, Posted N w i ∧ Fair K w i → ok h w i)
    (linked : Linked N K config first (room + 1) w) {l : Line} (timely : Timely config first l)
    (run : Run (Mesh.step C) ok w₀ h w) :
    let past := Run.replay (Mesh.step C) h w (script N K w l)
    Run (Mesh.step C) ok w₀ past.1 past.2 ∧ Linked N K config first room past.2 ∧
      Hears K w past.2 [l] := by
  obtain ⟨packet, said⟩ := said_line agree linked timely
  obtain ⟨hposted, hposted₁, hposted₂⟩ := said.posted linked timely
  obtain ⟨hfair, hfair₂⟩ := said.fair linked timely
  rw [said.script_eq linked timely]
  exact ⟨.move (.move (.move run (hok _ _ _ ⟨hposted, hfair⟩)) (hok _ _ _ ⟨hposted₁, trivial⟩))
    (hok _ _ _ ⟨hposted₂, hfair₂⟩), said.next linked timely rfl, said.hears linked timely rfl⟩

theorem talk_run (agree : (agreeSharedKey C (K.identity .A).secretKey (K.key .B)).isSome)
    (hok : ∀ h w i, Posted N w i ∧ Fair K w i → ok h w i) {lines : List Line}
    (linked : Linked N K config first lines.length w) (timely : ∀ l ∈ lines, Timely config first l)
    (run : Run (Mesh.step C) ok w₀ h w) :
    Run (Mesh.step C) ok w₀ (talk N K (h, w) lines).1 (talk N K (h, w) lines).2 ∧
      Hears K w (talk N K (h, w) lines).2 lines := by
  induction lines generalizing h w with
  | nil => exact ⟨run, hears_nil w⟩
  | cons l lines ih =>
    obtain ⟨hl, hlines⟩ := List.forall_mem_cons.mp timely
    obtain ⟨hrun, hlinked, hhears⟩ := line_run agree hok linked hl run
    obtain ⟨hrun', hhears'⟩ := ih hlinked hlines hrun
    exact ⟨hrun', hhears.trans hhears'⟩

/-- From every state that a run of the mesh can reach: two peers that have accepted each other, whose
packets for each other go to the relay, and which it has heard of since `first`, can say whatever
they like in whatever order while a route lasts. Every call of `send` puts its datagram on the way to
the relay, the relay passes it on to the other, and the other records it and hands it over. -/
theorem conversation_relayed {es₀ : Engines} {lines : List Line}
    (hstart : ∀ X, Started C (K.identity X) (es₀ X))
    (agree : (agreeSharedKey C (K.identity .A).secretKey (K.key .B)).isSome)
    (run : Run (Mesh.step C) (fun _ w i => Posted N w i ∧ Fair K w i) ⟨es₀, { config }, []⟩ h w)
    (accepted : ∀ X, (w.engines X).trustOf (K.key X.other) = some .accepted)
    (routed : ∀ X, (endpointOf (w.engines X) (K.key X.other)).or (w.engines X).relay =
      some N.relay)
    (known : ∀ X, ∃ entry ∈ w.relay.routes.routes.lookup (toHex (K.key X)), first ≤ entry.lastSeen)
    (room : ∀ X, (sendCounter C (w.engines X) (K.key X.other)).toNat + lines.length < 2 ^ 64)
    (timely : ∀ l ∈ lines, Timely config first l) :
    Run (Mesh.step C) (fun _ w i => Posted N w i ∧ Fair K w i) ⟨es₀, { config }, []⟩
      (talk N K (h, w) lines).1 (talk N K (h, w) lines).2 ∧
    Hears K w (talk N K (h, w) lines).2 lines := by
  have hsides : ∀ X, (view K es₀ X).Starting := fun X => side_started (hstart X) _
  have linked : Linked N K config first lines.length w :=
    ⟨honest_run hstart run, accepted, routed, known, ahead_run hsides (run_pair hstart run), room⟩
  exact talk_run agree (fun _ _ _ hok => hok) linked timely run

def met : List Event :=
  [.call (.B, clock, .announceTo address), .turn ⟨some (hello .B), 100, always⟩,
    .call (.A, clock, .announceTo address), .turn ⟨some (hello .A), 110, always⟩,
    .call (.A, clock, .addPeer (twoParties.key .B) address),
    .call (.B, clock, .addPeer (twoParties.key .A) address)]

def dialogue : List Line :=
  [⟨.A, [7], clock, 130, always, clock⟩, ⟨.A, [8], clock, 140, always, clock⟩,
    ⟨.B, [9], clock, 160, always, clock⟩]

theorem conversation_relayed_met :
    received ((talk square twoParties (played met) dialogue).2.engines .B).contacts.messages
      (twoParties.key .A) = [[7], [8]] ∧
    received ((talk square twoParties (played met) dialogue).2.engines .A).contacts.messages
      (twoParties.key .B) = [[9]] := by
  have run : Run (Mesh.step reference) (fun _ w i => Posted square w i ∧ Fair twoParties w i)
      ⟨newEngines, { config := {} }, []⟩ (played met).1 (played met).2 :=
    Run.replay_run .start (by decide +kernel)
  have timely : ∀ l ∈ dialogue, Timely {} 100 l := by
    intro l hl
    rw [dialogue, List.mem_cons, List.mem_cons, List.mem_singleton] at hl
    obtain rfl | rfl | rfl := hl
    · exact ⟨by decide, by decide, by decide, fun _ _ _ => rfl, fun _ _ _ => rfl⟩
    · exact ⟨by decide, by decide, by decide, fun _ _ _ => rfl, fun _ _ _ => rfl⟩
    · exact ⟨by decide, by decide, by decide, fun _ _ _ => rfl, fun _ _ _ => rfl⟩
  have known : ∀ X, ∃ entry ∈ (played met).2.relay.routes.routes.lookup (toHex (twoParties.key X)),
      (100 : Int) ≤ entry.lastSeen := by decide +kernel
  have hears := (conversation_relayed newEngines_started (by decide +kernel) run
    (by decide +kernel) (by decide +kernel) known (by decide +kernel) timely).2
  have hB := hears.recorded .A
  have hA := hears.recorded .B
  simp only [Party.other] at hA hB
  rw [hA, hB]
  decide +kernel

end OpenMesh.System.Conversation
