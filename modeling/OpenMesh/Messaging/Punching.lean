import OpenMesh.Messaging.Paths

namespace OpenMesh.Messaging.Punching

open OpenMesh.Core.Buffers OpenMesh.Core.Hex OpenMesh.Crypto.Primitives
open OpenMesh.Crypto.Reference OpenMesh.Library.Runs
open OpenMesh.Protocol.Envelope OpenMesh.Protocol.EnvelopeCodec OpenMesh.Net.Transport
open OpenMesh.Storage.Database OpenMesh.Messaging.Sessions OpenMesh.Messaging.Operations
open OpenMesh.Messaging.Projection OpenMesh.Messaging.Frames OpenMesh.Messaging.Handling
open OpenMesh.Messaging.Simulation
open OpenMesh.Messaging.Pairs OpenMesh.Messaging.Routes OpenMesh.Messaging.Paths

def WellKeyed (e : Engine) : Prop := ∀ key p, e.probes.lookup key = some p → toHex p.peer = key

def Emits (env : Env) (Q : Packet → Prop) (e e' : Engine) : Prop :=
  ∃ ps, e'.socket.sent = e.socket.sent ++ ps ∧
    ∀ p ∈ ps, env.takes p.1 (serialize p.2) ∧ Q p.2

def Aloof (peer : Bytes) (packet : Packet) : Prop := packet.type = .hello → packet.destination ≠ peer

variable {C : Sodium} {env : Env} {Q : Packet → Prop} {e e' e'' : Engine} {peer : Bytes}

theorem emits_of_eq (h : e'.socket.sent = e.socket.sent) : Emits env Q e e' :=
  ⟨[], by simp [h], nofun⟩

theorem Emits.trans (h : Emits env Q e e') (h' : Emits env Q e' e'') : Emits env Q e e'' := by
  obtain ⟨ps, hps, hp⟩ := h
  obtain ⟨qs, hqs, hq⟩ := h'
  refine ⟨ps ++ qs, by rw [hqs, hps, List.append_assoc], fun p hm => ?_⟩
  obtain hm | hm := List.mem_append.mp hm
  · exact hp p hm
  · exact hq p hm

theorem sendTo_emits {socket : UdpSocket} {dest : Endpoint} {packet : Packet} (hQ : Q packet) :
    ∃ ps, (socket.sendTo env.takes dest packet).1.sent = socket.sent ++ ps ∧
      ∀ p ∈ ps, env.takes p.1 (serialize p.2) ∧ Q p.2 := by
  unfold UdpSocket.sendTo
  split
  · next h =>
    refine ⟨[(dest, packet)], rfl, fun p hp => ?_⟩
    rw [List.mem_singleton.mp hp]
    exact ⟨h, hQ⟩
  · exact ⟨[], (List.append_nil _).symm, nofun⟩

theorem emits_transmit {dest : Endpoint} {packet : Packet} (hQ : Q packet) :
    Emits env Q e (e.transmit env dest packet).1 := sendTo_emits hQ

theorem emits_sealAndSend {r : Bytes} {s : Session} {type : PacketType} (text : Bytes)
    (hQ : Q (Engine.sealedPacket C env s type text)) :
    Emits env Q e (e.sealAndSend C env r s type text).1 := by
  rw [Engine.sealAndSend_eq]
  show ∃ ps, (e.post env (toHex r) _).1.sent = e.socket.sent ++ ps ∧ _
  unfold Engine.post
  split
  · exact ⟨[], (List.append_nil _).symm, nofun⟩
  · exact sendTo_emits hQ

theorem sealedPacket_type (s : Session) (type : PacketType) (text : Bytes) :
    (Engine.sealedPacket C env s type text).type = type := by
  simp only [Engine.sealedPacket, Session.encryptAs]
  split <;> rfl

theorem wellKeyed_of_eq (well : WellKeyed e) (h : e'.probes = e.probes) : WellKeyed e' := by
  rw [WellKeyed, h]
  exact well

theorem wellKeyed_insert (well : WellKeyed e) (p : Probe)
    (h : e'.probes = e.probes.insert (toHex p.peer) p) : WellKeyed e' := by
  intro k q hq
  rw [h] at hq
  by_cases hk : k = toHex p.peer
  · rw [hk, AList.lookup_insert] at hq
    cases hq
    exact hk.symm
  · rw [AList.lookup_insert_ne hk] at hq
    exact well k q hq

structure Quiet (env : Env) (e e' : Engine) : Prop where
  probes : e'.probes = e.probes
  sent : Emits env (fun packet => packet.type ≠ .hello) e e'

theorem Quiet.trans (h : Quiet env e e') (h' : Quiet env e' e'') : Quiet env e e'' :=
  ⟨h'.probes.trans h.probes, h.sent.trans h'.sent⟩

theorem quiet_of_eq (hp : e'.probes = e.probes) (hs : e'.socket.sent = e.socket.sent) :
    Quiet env e e' := ⟨hp, emits_of_eq hs⟩

theorem quiet_refl (e : Engine) : Quiet env e e := quiet_of_eq rfl rfl

theorem quiet_holds {r : Bytes} {s : Session} (h : e.Holds r s e') : Quiet env e e' :=
  quiet_of_eq (by rw [h.rest]) (by rw [h.rest])

theorem quiet_sealAndSend (e : Engine) (r : Bytes) (s : Session) {type : PacketType} (text : Bytes)
    (hty : type ≠ .hello) : Quiet env e (e.sealAndSend C env r s type text).1 := by
  refine ⟨(samePaths_sealAndSend env e r s type text).probes, emits_sealAndSend text ?_⟩
  rwa [sealedPacket_type]

theorem quiet_dispatch (e : Engine) (packet : Packet) (text : Bytes) (origin : Endpoint) :
    Quiet env e (e.dispatch env packet text origin).1 :=
  quiet_of_eq (dispatch_frame env e packet text origin).1
    (congrArg UdpSocket.sent (keeps_dispatch env e packet text origin).socket)

theorem quiet_answerContact (e : Engine) (r : Bytes) (trust : TrustStatus) (b : UInt8) :
    Quiet env e (e.answerContact C env r trust b).1 := by
  unfold Engine.answerContact
  dsimp only
  split
  · exact quiet_refl e
  · split
    · exact quiet_refl e
    · next e' s hs =>
      refine (quiet_holds (Engine.ensureSession_eq_some hs).2).trans
        (Quiet.trans ?_ (quiet_sealAndSend _ r s _ nofun))
      exact quiet_of_eq rfl rfl

theorem quiet_sendContactRequest (e : Engine) (r : Bytes) (endpoint : Endpoint) (greeting : Bytes) :
    Quiet env e (e.sendContactRequest C env r endpoint greeting).1 := by
  unfold Engine.sendContactRequest
  split
  · exact quiet_refl e
  · split
    · exact quiet_refl e
    · next e' s hs =>
      refine (quiet_holds (Engine.ensureSession_eq_some hs).2).trans
        (Quiet.trans ?_ (quiet_sealAndSend _ r s greeting nofun))
      exact quiet_of_eq rfl rfl

theorem quiet_send (e : Engine) (r text : Bytes) : Quiet env e (e.send C env r text).1 := by
  unfold Engine.send
  split
  · exact quiet_refl e
  · split
    · exact quiet_refl e
    · next e' s hs =>
      have h : Quiet env e (e'.sealAndSend C env r s .message text).1 :=
        (quiet_holds (Engine.ensureSession_eq_some hs).2).trans (quiet_sealAndSend e' r s text nofun)
      split
      · next e₂ he => rwa [he] at h
      · next e₂ he =>
        rw [he] at h
        exact h.trans (quiet_of_eq rfl rfl)

/-- The peer that a call sets out to probe: one that the engine is told to connect to, or one
whose CONNECT brings an endpoint. -/
def target : Engine.Call → Option Bytes
  | .connect r _ => some r
  | .poll incoming => (incoming.bind fun d => deserialize (receive d).data).bind fun packet =>
    if packet.type = .connect ∧ (parseEndpoint packet.payload).isSome then some packet.source
    else none
  | _ => none

inductive Probing (env : Env) (e : Engine) (c : Engine.Call) (e' : Engine) : Prop
  | quiet (h : Quiet env e e')
  | announced (relay : Endpoint) (hc : c = .announceTo relay) (he : e' = (e.announceTo env relay).1)
  | started (e₁ : Engine) (r : Bytes) (candidate : Endpoint) (hc : target c = some r)
      (hq : Quiet env e e₁) (he : e' = e₁.startProbing env r candidate)
  | ticked (he : e' = e.tick env)
  | probed (r : Bytes) (origin : Endpoint) (he : e' = e.handleProbe env r origin)

theorem probing_handleConnect (e : Engine) {c : Engine.Call} {r payload : Bytes}
    (hc : (parseEndpoint payload).isSome → target c = some r) :
    Probing env e c (e.handleConnect env r payload) := by
  unfold Engine.handleConnect
  cases hparse : parseEndpoint payload with
  | none => exact .quiet (quiet_refl e)
  | some candidate =>
    rw [hparse] at hc
    dsimp only
    split
    · next relay _ _ =>
      exact .started { e with endpoints := e.endpoints.insert (toHex r) relay } r candidate
        (hc rfl) (quiet_of_eq rfl rfl) rfl
    · exact .started e r candidate (hc rfl) (quiet_refl e) rfl

theorem probing_poll (e : Engine) (incoming : Option Datagram) :
    Probing env e (.poll incoming) (e.poll C env incoming).1 := by
  cases Engine.poll_cases C env e incoming with
  | ignored _ b he =>
    rw [he]
    exact .quiet (quiet_refl e)
  | probe _ d packet _ _ _ _ _ he => exact .probed packet.source d.origin (by rw [he])
  | connect _ d packet hd hp hty he =>
    rw [he]
    apply probing_handleConnect
    intro hparse
    simp only [target, hd, Option.bind_some, hp, hty, hparse, and_self, ↓reduceIte]
  | refused _ _ _ e' _ hh _ he =>
    rw [he]
    exact .quiet (quiet_holds hh)
  | accepted d packet s s' text e' _ _ _ _ _ _ hh he =>
    rw [he]
    exact .quiet ((quiet_holds hh).trans (quiet_dispatch e' packet text d.origin))

/-- The spec of a call, as far as probes go. -/
theorem probing_call (e : Engine) (c : Engine.Call) : Probing env e c (e.call C env c).1 := by
  cases c with
  | announceTo relay => exact .announced relay rfl rfl
  | addPeer r endpoint =>
    simp only [Engine.call, Engine.addPeer]
    split
    · exact .quiet (quiet_refl e)
    · next e' s hs =>
      have hq : Quiet env e e' := quiet_holds (Engine.ensureSession_eq_some hs).2
      exact .quiet (hq.trans (quiet_of_eq rfl rfl))
  | sendContactRequest r endpoint greeting =>
    exact .quiet (quiet_sendContactRequest e r endpoint greeting)
  | acceptContact r => exact .quiet (quiet_answerContact e r _ _)
  | rejectContact r => exact .quiet (quiet_answerContact e r _ _)
  | send r text => exact .quiet (quiet_send e r text)
  | connect r candidate =>
    exact .started { e with endpoints := e.endpoints.insert (toHex r) (e.relay.getD candidate) } r
      candidate rfl (quiet_of_eq rfl rfl) rfl
  | tick => exact .ticked rfl
  | poll incoming => exact probing_poll e incoming
  | openStore io path passphrase =>
    simp only [Engine.call, Engine.openStore]
    split <;> exact .quiet (quiet_of_eq rfl rfl)
  | _ => exact .quiet (quiet_of_eq rfl rfl)

structure Tidy (env : Env) (peer : Bytes) (e e' : Engine) : Prop where
  keyed : WellKeyed e → WellKeyed e'
  quiet : WellKeyed e → e.hasDirectPath peer → Emits env (Aloof peer) e e' ∧ e'.hasDirectPath peer

theorem Tidy.trans (h : Tidy env peer e e') (h' : Tidy env peer e' e'') : Tidy env peer e e'' where
  keyed well := h'.keyed (h.keyed well)
  quiet well hd := by
    obtain ⟨hemits, hd'⟩ := h.quiet well hd
    obtain ⟨hemits', hd''⟩ := h'.quiet (h.keyed well) hd'
    exact ⟨hemits.trans hemits', hd''⟩

theorem Quiet.tidy (h : Quiet env e e') : Tidy env peer e e' where
  keyed well := wellKeyed_of_eq well h.probes
  quiet _ hd := by
    obtain ⟨ps, hps, hall⟩ := h.sent
    refine ⟨⟨ps, hps, fun p hp => ⟨(hall p hp).1, fun hhello => ?_⟩⟩, ?_⟩
    · exact absurd hhello (hall p hp).2
    · rwa [Engine.hasDirectPath, h.probes]

theorem tidy_refl (e : Engine) : Tidy env peer e e := (quiet_refl e).tidy

theorem tidy_startProbing (e : Engine) (r : Bytes) (candidate : Endpoint) :
    Tidy env peer e (e.startProbing env r candidate) where
  keyed well := by
    unfold Engine.startProbing
    dsimp only
    split
    · split
      · exact well
      · exact wellKeyed_insert well
          { peer := r, candidate, confirmed := _, last := env.steadyNow, attempts := 1 } rfl
    · exact wellKeyed_insert well
        { peer := r, candidate, last := env.steadyNow, attempts := 1 } rfl
  quiet _ hd := by
    refine ⟨?_, by rwa [startProbing_hasDirectPath]⟩
    have haloof : r = peer → ∃ p, e.probes.lookup (toHex r) = some p ∧ p.confirmed = true := by
      rintro rfl
      exact (hasDirectPath_iff e r).mp hd
    unfold Engine.startProbing
    dsimp only
    split
    · next p hp =>
      split
      · exact emits_of_eq rfl
      · next hc =>
        refine emits_transmit fun _ heq => ?_
        obtain ⟨q, hq, hconf⟩ := haloof heq
        rw [hp] at hq
        cases hq
        exact hc hconf
    · next hp =>
      refine emits_transmit fun _ heq => ?_
      obtain ⟨q, hq, -⟩ := haloof heq
      rw [hp] at hq
      cases hq

theorem tidy_tickProbe (e : Engine) (key : Bytes) : Tidy env peer e (e.tickProbe env key) := by
  unfold Engine.tickProbe
  cases hp : e.probes.lookup key with
  | none => exact tidy_refl e
  | some p =>
    dsimp only
    split_ifs with hstop hdue
    · exact tidy_refl e
    · refine ⟨fun well => ?_, fun well hd => ?_⟩
      · have hkey := well key p hp
        subst hkey
        exact wellKeyed_insert well
          { p with attempts := p.attempts + 1, last := env.steadyNow } rfl
      · refine ⟨emits_transmit fun _ heq => ?_, ?_⟩
        · obtain ⟨q, hq, hconf⟩ := (hasDirectPath_iff e peer).mp hd
          rw [← heq, well key p hp, hp] at hq
          cases hq
          exact hstop (Or.inl hconf)
        · have hkept := tickProbe_hasDirectPath env e key peer
          unfold Engine.tickProbe at hkept
          rw [hp] at hkept
          dsimp only at hkept
          rw [if_neg hstop, if_pos hdue] at hkept
          rwa [hkept]
    · exact tidy_refl e

theorem tidy_tick (e : Engine) : Tidy env peer e (e.tick env) :=
  Engine.tick_rel tidy_refl .trans tidy_tickProbe e

theorem tidy_handleProbe (e : Engine) (r : Bytes) (origin : Endpoint) :
    Tidy env peer e (e.handleProbe env r origin) where
  keyed well := by
    unfold Engine.handleProbe
    dsimp only
    split
    · exact wellKeyed_insert well { peer := r, candidate := _, confirmed := true, attempts := _, last := _ } rfl
    · exact wellKeyed_insert well { peer := r, candidate := _, confirmed := true, attempts := _, last := _ } rfl
  quiet _ hd := by
    refine ⟨?_, ?_⟩
    · unfold Engine.handleProbe
      dsimp only
      split
      · exact emits_of_eq rfl
      · next hc =>
        refine emits_transmit fun _ heq => ?_
        dsimp only at heq
        subst heq
        obtain ⟨q, hq, hconf⟩ := (hasDirectPath_iff e r).mp hd
        rw [hq] at hc
        exact hc hconf
    · rw [(handleProbe_frame env e r origin).2]
      split
      · rfl
      · exact hd

theorem tidy_call (hne : peer ≠ []) (e : Engine) (c : Engine.Call) :
    Tidy env peer e (e.call C env c).1 := by
  cases (probing_call e c : Probing env e c (e.call C env c).1) with
  | quiet h => exact h.tidy
  | announced relay _ he =>
    rw [he]
    refine ⟨fun well => wellKeyed_of_eq well rfl, fun _ hd => ⟨?_, hd⟩⟩
    exact emits_transmit fun _ heq => hne heq.symm
  | started e₁ r candidate _ hq he =>
    rw [he]
    exact hq.tidy.trans (tidy_startProbing e₁ r candidate)
  | ticked he =>
    rw [he]
    exact tidy_tick e
  | probed r origin he =>
    rw [he]
    exact tidy_handleProbe e r origin

def kMaxDatagram : Nat := 65507

theorem fits_of_length {packet : Packet} (h : (serialize packet).length ≤ kMaxDatagram) :
    packet.source.length ≤ 65535 ∧ packet.destination.length ≤ 65535 := by
  rw [serialize_length, kMaxDatagram] at h
  omega

/-- Where a datagram is parsed at all, even if it was cut, its envelope is the one that was sent. -/
theorem envelope_received {p q : Packet} {n : ℕ} (hlen : (serialize p).length ≤ kMaxDatagram)
    (h : deserialize ((serialize p).take n) = some q) :
    q.type = p.type ∧ q.source = p.source ∧ q.destination = p.destination := by
  obtain ⟨hs, hd⟩ := fits_of_length hlen
  obtain ⟨⟨-, hty, -, -, hsource, hdest⟩, -⟩ := deserialize_take_envelope hs hd h
  exact ⟨hty, hsource, hdest⟩

structure Link where
  engines : Engines
  flight : Party → List Datagram

/-- One of them is called, polls a datagram that is on its way to it, or the network loses one.
What is polled otherwise comes from elsewhere. -/
inductive Event where
  | call (X : Party) (env : Env) (c : Engine.Call)
  | deliver (X : Party) (env : Env) (d : Datagram)
  | lose (X : Party) (d : Datagram)

section Network

variable (address : Party → Endpoint)

/-- What an engine has newly sent to where the other is reached. -/
def posted (X : Party) (e e' : Engine) : List Datagram :=
  (e'.socket.sent.drop e.socket.sent.length).filterMap fun p =>
    if p.1 = address X.other then some ⟨address X, serialize p.2⟩ else none

def Link.act (w : Link) (X : Party) (e' : Engine) : Link where
  engines := Function.update w.engines X e'
  flight := Function.update w.flight X.other
    (w.flight X.other ++ posted address X (w.engines X) e')

def Link.take (w : Link) (X : Party) (d : Datagram) : Link :=
  { w with flight := Function.update w.flight X ((w.flight X).erase d) }

variable (C) in
def Link.step (w : Link) : Event → Link
  | .call X env c => w.act address X ((w.engines X).call C env c).1
  | .deliver X env d => (w.take X d).act address X ((w.engines X).poll C env (some d)).1
  | .lose X d => w.take X d

variable (K : Keyring C)

def Link.Direct (w : Link) (X : Party) : Prop := (w.engines X).hasDirectPath (K.key X.other)

def Knock (X : Party) (d : Datagram) : Prop :=
  ∃ packet, deserialize (receive d).data = some packet ∧ packet.type = .hello ∧
    packet.destination = K.key X ∧ packet.source = K.key X.other

def Coming (w : Link) (X : Party) : Prop := ∃ d ∈ w.flight X, Knock K X d

/-- Nothing is lost: neither on the way nor by the OS, unless it is too long for UDP; and nobody
else sends probes in the name of the two. -/
def Lossless (w : Link) : Event → Prop
  | .call X env c => (∀ dest data, env.takes dest data = decide (data.length ≤ kMaxDatagram)) ∧
      ∀ d, c = .poll (some d) → ¬ Knock K X d
  | .deliver X env d => (∀ dest data, env.takes dest data = decide (data.length ≤ kMaxDatagram)) ∧
      d ∈ w.flight X
  | .lose _ _ => False

end Network

variable {address : Party → Endpoint} {K : Keyring C} {w w' : Link} {X Y : Party}

structure Settled (address : Party → Endpoint) (K : Keyring C) (w : Link) : Prop where
  localPublic : ∀ X, (w.engines X).localPublic = K.key X
  keyed : ∀ X, WellKeyed (w.engines X)
  origin : ∀ X, ∀ d ∈ w.flight X, d.origin = address X.other

theorem key_ne_nil (X : Party) : K.key X ≠ [] := by
  intro h
  have hlen := K.key_length X
  rw [h] at hlen
  cases hlen

theorem posted_origin {X : Party} {e e' : Engine} {d : Datagram} (hd : d ∈ posted address X e e') :
    d.origin = address X := by
  obtain ⟨p, -, hp⟩ := List.mem_filterMap.mp hd
  split at hp
  · cases hp
    rfl
  · cases hp

section Act

variable (address w X) (e' : Engine)

@[simp] theorem Link.act_engines : (w.act address X e').engines X = e' := Function.update_self ..

@[simp] theorem Link.act_engines_other :
    (w.act address X e').engines X.other = w.engines X.other :=
  Function.update_of_ne X.other_ne ..

@[simp] theorem Link.act_flight : (w.act address X e').flight X = w.flight X :=
  Function.update_of_ne X.ne_other ..

@[simp] theorem Link.act_flight_other : (w.act address X e').flight X.other =
    w.flight X.other ++ posted address X (w.engines X) e' := Function.update_self ..

end Act

@[simp] theorem Link.take_flight (w : Link) (X : Party) (d : Datagram) :
    (w.take X d).flight X = (w.flight X).erase d := Function.update_self ..

@[simp] theorem Link.take_flight_other (w : Link) (X : Party) (d : Datagram) :
    (w.take X d).flight X.other = w.flight X.other := Function.update_of_ne X.other_ne ..

@[simp] theorem Link.take_engines (w : Link) (X : Party) (d : Datagram) :
    (w.take X d).engines = w.engines := rfl

theorem settled_act (settled : Settled address K w) {e' : Engine}
    (hlocal : e'.localPublic = K.key X) (hkeyed : WellKeyed e') :
    Settled address K (w.act address X e') where
  localPublic Y := by
    obtain rfl | rfl := X.eq_or_other Y
    · simpa using hlocal
    · simpa using settled.localPublic _
  keyed Y := by
    obtain rfl | rfl := X.eq_or_other Y
    · simpa using hkeyed
    · simpa using settled.keyed _
  origin Y d hd := by
    obtain rfl | rfl := X.eq_or_other Y
    · rw [Link.act_flight] at hd
      exact settled.origin _ d hd
    · rw [Link.act_flight_other] at hd
      obtain hd | hd := List.mem_append.mp hd
      · exact settled.origin _ d hd
      · rw [posted_origin hd, Party.other_other]

theorem settled_take (settled : Settled address K w) (X : Party) (d : Datagram) :
    Settled address K (w.take X d) where
  localPublic := settled.localPublic
  keyed := settled.keyed
  origin Y d' hd' := by
    obtain rfl | rfl := X.eq_or_other Y
    · rw [Link.take_flight] at hd'
      exact settled.origin _ d' (List.mem_of_mem_erase hd')
    · rw [Link.take_flight_other] at hd'
      exact settled.origin _ d' hd'

theorem settled_step (settled : Settled address K w) (i : Event) :
    Settled address K (w.step C address i) := by
  cases i with
  | call X env c =>
    refine settled_act settled ?_ ?_
    · exact (keyed_call env (w.engines X) c).localPublic.trans (settled.localPublic X)
    · exact (tidy_call (key_ne_nil X (K := K)) (w.engines X) c).keyed (settled.keyed X)
  | deliver X env d =>
    refine settled_act (settled_take settled X d) ?_ ?_
    · exact (keyed_call env (w.engines X) (.poll (some d))).localPublic.trans
        (settled.localPublic X)
    · exact (tidy_call (key_ne_nil X (K := K)) (w.engines X) (.poll (some d))).keyed
        (settled.keyed X)
  | lose X d => exact settled_take settled X d

theorem direct_call (settled : Settled address K w) {c : Engine.Call}
    (hno : ∀ d, c = .poll (some d) → ¬ Knock K X d) :
    ((w.engines X).call C env c).1.hasDirectPath (K.key X.other) ↔ w.Direct K X := by
  rw [Link.Direct]
  by_cases hassign : ∃ endpoint, Assigns C (w.engines X) (K.key X.other) endpoint c
  · obtain ⟨endpoint, ha⟩ := hassign
    rw [(assigns_call _ ha).2.2]
  by_cases hrelay : ∃ relay, c = .setRelay relay
  · obtain ⟨relay, rfl⟩ := hrelay
    exact Iff.rfl
  have leaves : Leaves (w.engines X) (K.key X.other) ((w.engines X).call C env c).1 := by
    refine leaves_call (fun endpoint h => hassign ⟨endpoint, h⟩) ?_ (fun relay h => hrelay ⟨relay, h⟩)
    rintro origin ⟨d, packet, hc, hp, hty, hdst, hsource, -⟩
    exact hno d hc ⟨packet, hp, hty, hdst.trans (settled.localPublic X), hsource⟩
  rw [leaves.direct]

theorem knock_probes (settled : Settled address K w) {d : Datagram} (hk : Knock K X d) :
    Probes (K.key X.other) d.origin (w.engines X, env, .poll (some d)) := by
  obtain ⟨packet, hp, hty, hdst, hsource⟩ := hk
  exact ⟨d, packet, rfl, hp, hty, hdst.trans (settled.localPublic X).symm, hsource,
    key_ne_nil X.other, rfl⟩

def probe (K : Keyring C) (X : Party) : Packet :=
  { type := .hello, source := K.key X, destination := K.key X.other }

theorem probe_arrives (K : Keyring C) (X : Party) (origin : Endpoint) :
    Knock K X.other ⟨origin, serialize (probe K X)⟩ := by
  have hlen : (serialize (probe K X)).length ≤ kReceiveBufferSize := by
    rw [serialize_length]
    simp only [probe, K.key_length, List.length_nil]
    decide
  refine ⟨probe K X, ?_, rfl, rfl, by rw [Party.other_other]; rfl⟩
  show deserialize ((serialize (probe K X)).take kReceiveBufferSize) = _
  rw [List.take_of_length_le hlen]
  refine deserialize_serialize ⟨rfl, ?_, ?_, by simp [probe]⟩
  · rw [probe, K.key_length]
    decide
  · rw [probe, K.key_length]
    decide

theorem handleProbe_reply {r : Bytes} {origin : Endpoint} {packet : Packet}
    (hpacket : { type := .hello, source := e.localPublic, destination := r } = packet)
    (hnot : e.hasDirectPath r = false) (htakes : env.takes origin (serialize packet)) :
    (e.handleProbe env r origin).socket.sent = e.socket.sent ++ [(origin, packet)] := by
  have hconf : ((e.probes.lookup (toHex r)).getD
      { peer := [], candidate := ⟨[], 0⟩, last := 0 }).confirmed = false := by
    rw [Engine.hasDirectPath] at hnot
    cases hp : e.probes.lookup (toHex r) with
    | none => rfl
    | some p =>
      rw [hp] at hnot
      exact hnot
  simp only [Engine.handleProbe, hconf, Bool.false_eq_true, ↓reduceIte, Engine.sendProbe,
    Engine.transmit, UdpSocket.sendTo, hpacket, htakes]

section Lossless

variable (htakes : ∀ dest data, env.takes dest data = decide (data.length ≤ kMaxDatagram))
include htakes

theorem reply_posted (settled : Settled address K w) {d : Datagram} (hd : d ∈ w.flight X)
    (hk : Knock K X d) (hnot : ¬ w.Direct K X) :
    ⟨address X, serialize (probe K X)⟩ ∈
      posted address X (w.engines X) ((w.engines X).poll C env (some d)).1 := by
  have horigin := settled.origin X d hd
  have hlocal := settled.localPublic X
  have hcall : ((w.engines X).poll C env (some d)).1 =
      (w.engines X).handleProbe env (K.key X.other) d.origin :=
    probes_call (C := C) (knock_probes settled hk)
  have htaken : env.takes d.origin (serialize (probe K X)) := by
    rw [htakes, decide_eq_true_eq, serialize_length]
    simp only [probe, K.key_length, List.length_nil]
    decide
  have hpacket : { type := .hello, source := (w.engines X).localPublic, destination := K.key X.other } =
      probe K X := by
    rw [hlocal]
    rfl
  have hsent := handleProbe_reply hpacket (by simpa [Link.Direct] using hnot) htaken
  refine List.mem_filterMap.mpr ⟨(d.origin, probe K X), ?_, ?_⟩
  · rw [hcall, hsent, List.drop_left]
    exact List.mem_singleton_self _
  · rw [if_pos horigin]

theorem direct_silent (settled : Settled address K w) (hdirect : w.Direct K X) (c : Engine.Call)
    {d : Datagram} (hd : d ∈ posted address X (w.engines X) ((w.engines X).call C env c).1) :
    ¬ Knock K X.other d := by
  have tidy : Tidy env (K.key X.other) (w.engines X) ((w.engines X).call C env c).1 :=
    tidy_call (key_ne_nil X.other) (w.engines X) c
  obtain ⟨⟨ps, hps, hall⟩, -⟩ := tidy.quiet (settled.keyed X) hdirect
  obtain ⟨p, hp, hd⟩ := List.mem_filterMap.mp hd
  rw [hps, List.drop_left] at hp
  obtain ⟨htaken, haloof⟩ := hall p hp
  rw [htakes, decide_eq_true_eq] at htaken
  split at hd
  · cases hd
    rintro ⟨packet, hpacket, hty, hdst, -⟩
    obtain ⟨hty', -, hdst'⟩ := envelope_received htaken hpacket
    exact haloof (hty'.symm.trans hty) (hdst'.symm.trans hdst)
  · cases hd

end Lossless

/-- What happens to the two when one of them acts and nothing is lost: it hears a probe of the
other, or it does not. -/
inductive Acted (K : Keyring C) (X : Party) (w w' : Link) : Prop
  | aside (hself : w'.Direct K X ↔ w.Direct K X) (hcoming : Coming K w' X ↔ Coming K w X)
  | heard (hself : w'.Direct K X) (hcoming : Coming K w X)
      (hreply : ¬ w.Direct K X → Coming K w' X.other)

theorem coming_append {ds : List Datagram} (h : w'.flight X = w.flight X ++ ds) :
    Coming K w' X ↔ Coming K w X ∨ ∃ d ∈ ds, Knock K X d := by
  simp only [Coming, h, List.mem_append, or_and_right, exists_or]

/-- In every lossless event one of the two acts. What is on its way to the other stays there, and
a direct path keeps it from sending more probes. -/
theorem step_acted (settled : Settled address K w) {i : Event} (hok : Lossless K w i) :
    ∃ X, Acted K X w (w.step C address i) ∧
      ((w.step C address i).Direct K X.other ↔ w.Direct K X.other) ∧
      (Coming K w X.other → Coming K (w.step C address i) X.other) ∧
      (w.Direct K X → Coming K (w.step C address i) X.other → Coming K w X.other) := by
  cases i with
  | lose X d => exact absurd hok id
  | call X env c =>
    obtain ⟨htakes, hno⟩ := hok
    have hflight := Link.act_flight_other address w X ((w.engines X).call C env c).1
    refine ⟨X, .aside ?_ ?_, ?_, ?_, ?_⟩
    · rw [Link.Direct, Link.step, Link.act_engines]
      exact direct_call settled hno
    · rw [Coming, Link.step, Link.act_flight]
      exact Iff.rfl
    · rw [Link.Direct, Link.step, Link.act_engines_other]
      exact Iff.rfl
    · exact fun h => (coming_append hflight).mpr (Or.inl h)
    · rintro hdirect h
      obtain h | ⟨d, hd, hk⟩ := (coming_append hflight).mp h
      · exact h
      · exact absurd hk (direct_silent htakes settled hdirect c hd)
  | deliver X env d =>
    obtain ⟨htakes, hd⟩ := hok
    have hflight : (w.step C address (.deliver X env d)).flight X.other = w.flight X.other ++
        posted address X (w.engines X) ((w.engines X).call C env (.poll (some d))).1 := by
      rw [Link.step, Link.act_flight_other, Link.take_flight_other]
      rfl
    have hself : (w.step C address (.deliver X env d)).engines X =
        ((w.engines X).call C env (.poll (some d))).1 := Link.act_engines ..
    have hcoming : (w.step C address (.deliver X env d)).flight X = (w.flight X).erase d := by
      rw [Link.step, Link.act_flight, Link.take_flight]
    refine ⟨X, ?_, ?_, ?_, ?_⟩
    · by_cases hk : Knock K X d
      · refine .heard ?_ ⟨d, hd, hk⟩ fun hnot => ?_
        · rw [Link.Direct, hself, probes_call (knock_probes settled hk),
            (handleProbe_frame env _ _ _).2, if_pos rfl]
        · refine (coming_append hflight).mpr (Or.inr ⟨_, reply_posted htakes settled hd hk hnot, ?_⟩)
          exact probe_arrives K X (address X)
      · refine .aside ?_ ⟨?_, ?_⟩
        · rw [Link.Direct, hself]
          refine direct_call settled fun d' hd' => ?_
          cases hd'
          exact hk
        · rintro ⟨d', hd', hk'⟩
          rw [hcoming] at hd'
          exact ⟨d', List.mem_of_mem_erase hd', hk'⟩
        · rintro ⟨d', hd', hk'⟩
          refine ⟨d', ?_, hk'⟩
          rw [hcoming]
          refine (List.mem_erase_of_ne ?_).mpr hd'
          rintro rfl
          exact hk hk'
    · rw [Link.Direct, Link.step, Link.act_engines_other, Link.take_engines]
      exact Iff.rfl
    · exact fun h => (coming_append hflight).mpr (Or.inl h)
    · rintro hdirect h
      obtain h | ⟨d', hd', hk'⟩ := (coming_append hflight).mp h
      · exact h
      · exact absurd hk' (direct_silent htakes settled hdirect _ hd')

/-- The other one has a direct path, or a probe for it is on its way; and if it has, so does this
one, or a probe for it is on its way. -/
def Recovering (K : Keyring C) (X : Party) (w : Link) : Prop :=
  (w.Direct K X.other ∨ Coming K w X.other) ∧ (w.Direct K X.other → w.Direct K X ∨ Coming K w X)

/-- The other one has answered before, and the answer is gone. -/
def Stuck (K : Keyring C) (X : Party) (w : Link) : Prop :=
  w.Direct K X.other ∧ ¬ w.Direct K X ∧ ¬ Coming K w X

theorem recovering_step (settled : Settled address K w) {i : Event} (hok : Lossless K w i)
    (recovering : Recovering K X w) : Recovering K X (w.step C address i) := by
  obtain ⟨Y, acted, hother, hstays, -⟩ := step_acted settled hok
  obtain ⟨hfirst, hsecond⟩ := recovering
  obtain rfl | rfl := X.eq_or_other Y
  · refine ⟨hfirst.imp hother.mpr hstays, fun h => ?_⟩
    cases acted with
    | aside hself hcoming => exact (hsecond (hother.mp h)).imp hself.mpr hcoming.mpr
    | heard hself _ _ => exact Or.inl hself
  · rw [Party.other_other] at hother hstays
    cases acted with
    | aside hself hcoming =>
      exact ⟨hfirst.imp hself.mpr hcoming.mpr, fun h =>
        (hsecond (hself.mp h)).imp hother.mpr hstays⟩
    | heard hself _ hreply =>
      rw [Party.other_other] at hreply
      refine ⟨Or.inl hself, fun _ => ?_⟩
      by_cases hd : w.Direct K X.other
      · exact (hsecond hd).imp hother.mpr hstays
      · exact Or.inr (hreply hd)

theorem stuck_step (settled : Settled address K w) {i : Event} (hok : Lossless K w i)
    (stuck : Stuck K X w) : Stuck K X (w.step C address i) := by
  obtain ⟨Y, acted, hother, -, hsilent⟩ := step_acted settled hok
  obtain ⟨hdirect, hnot, hnone⟩ := stuck
  obtain rfl | rfl := X.eq_or_other Y
  · refine ⟨hother.mpr hdirect, ?_⟩
    cases acted with
    | aside hself hcoming => exact ⟨fun h => hnot (hself.mp h), fun h => hnone (hcoming.mp h)⟩
    | heard _ hcoming _ => exact absurd hcoming hnone
  · rw [Party.other_other] at hother hsilent
    refine ⟨?_, fun h => hnot (hother.mp h), fun h => hnone (hsilent hdirect h)⟩
    cases acted with
    | aside hself _ => exact hself.mpr hdirect
    | heard hself _ _ => exact hself

variable {ok : History Link Event → Link → Event → Prop} {w₀ : Link}

theorem settled_run (settled : Settled address K w₀) {h : History Link Event}
    (run : Run (Link.step C address) ok w₀ h w) : Settled address K w :=
  run.invariant (fun _ w => Settled address K w) settled fun _ _ i _ settled _ =>
    settled_step settled i

theorem settled_start (hstart : ∀ X, Started C (K.identity X) (w₀.engines X))
    (hflight : ∀ X, w₀.flight X = []) : Settled address K w₀ where
  localPublic X := by
    obtain ⟨contacts, he⟩ := started_eq (hstart X)
    rw [he]
    rfl
  keyed X := by
    obtain ⟨contacts, he⟩ := started_eq (hstart X)
    rw [he]
    intro key p hp
    cases hp
  origin X d hd := by
    rw [hflight X] at hd
    cases hd

theorem coming_posted {env : Env} {c : Engine.Call}
    (hsent : (address X.other, probe K X) ∈
      ((w.engines X).call C env c).1.socket.sent.drop (w.engines X).socket.sent.length) :
    Coming K (w.step C address (.call X env c)) X.other := by
  refine (coming_append (Link.act_flight_other address w X _)).mpr (Or.inr ?_)
  exact ⟨⟨address X, serialize (probe K X)⟩, List.mem_filterMap.mpr ⟨_, hsent, if_pos rfl⟩,
    probe_arrives K X (address X)⟩

/-- One of two engines, without a direct path, sends a probe, and nothing is lost from then on.
When all is delivered both have a direct path, exactly if the other had none when the probe was
sent, or one of its own probes was still on its way. -/
theorem punching_recovers {h h' : History Link Event} {env : Env} {c : Engine.Call}
    (hstart : ∀ X, Started C (K.identity X) (w₀.engines X)) (hflight : ∀ X, w₀.flight X = [])
    (before : Run (Link.step C address) ok w₀ h w) (hnot : ¬ w.Direct K X)
    (hno : ∀ d, c = .poll (some d) → ¬ Knock K X d)
    (hsent : (address X.other, probe K X) ∈
      ((w.engines X).call C env c).1.socket.sent.drop (w.engines X).socket.sent.length)
    (after : Run (Link.step C address) (fun _ w i => Lossless K w i)
      (w.step C address (.call X env c)) h' w')
    (hdone : ∀ Y, w'.flight Y = []) :
    (∀ Y, w'.Direct K Y) ↔ ¬ w.Direct K X.other ∨ Coming K w X := by
  have settled := settled_run (settled_start hstart hflight) before
  have settled' := settled_step (C := C) settled (.call X env c)
  have hself : (w.step C address (.call X env c)).Direct K X ↔ w.Direct K X := by
    rw [Link.Direct, Link.step, Link.act_engines]
    exact direct_call settled hno
  have hother : (w.step C address (.call X env c)).Direct K X.other ↔ w.Direct K X.other := by
    rw [Link.Direct, Link.step, Link.act_engines_other]
    exact Iff.rfl
  have hcoming : Coming K (w.step C address (.call X env c)) X ↔ Coming K w X := by
    rw [Coming, Link.step, Link.act_flight]
    exact Iff.rfl
  have hempty : ∀ Y, ¬ Coming K w' Y := by
    rintro Y ⟨d, hd, -⟩
    rw [hdone Y] at hd
    cases hd
  constructor
  · intro hall
    by_contra hstuck
    simp only [not_or, not_not] at hstuck
    have stuck : Stuck K X w' := by
      refine after.invariant (fun _ w => Stuck K X w) ?_ fun _ w i run stuck hok => ?_
      · exact ⟨hother.mpr hstuck.1, fun h => hnot (hself.mp h), fun h => hstuck.2 (hcoming.mp h)⟩
      · exact stuck_step (settled_run settled' run) hok stuck
    exact stuck.2.1 (hall X)
  · intro hcase
    have recovering : Recovering K X w' := by
      refine after.invariant (fun _ w => Recovering K X w) ?_ fun _ w i run recovering hok => ?_
      · refine ⟨Or.inr (coming_posted hsent), fun h => ?_⟩
        exact Or.inr (hcoming.mpr (hcase.resolve_left (not_not.mpr (hother.mp h))))
      · exact recovering_step (settled_run settled' run) hok recovering
    have hdirect := recovering.1.resolve_right (hempty X.other)
    have hdirect' := (recovering.2 hdirect).resolve_right (hempty X)
    intro Y
    obtain rfl | rfl := X.eq_or_other Y
    · exact hdirect'
    · exact hdirect

def homes : Party → Endpoint
  | .A => ⟨[65], 1⟩
  | .B => ⟨[66], 2⟩

def unlinked : Link := ⟨newEngines, fun _ => []⟩

/-- A quarter of a second later; the OS takes what UDP can carry. -/
def later : Env :=
  { clock with steadyNow := 250, takes := fun _ data => decide (data.length ≤ kMaxDatagram) }

def arriving (X : Party) : Datagram := ⟨homes X.other, serialize (probe twoParties X.other)⟩

def linked (script : List Event) : History Link Event × Link :=
  Run.replay (Link.step reference homes) [] unlinked script

def probeLost : List Event :=
  [.call .A clock (.connect (twoParties.key .B) (homes .B)), .lose .B (arriving .B)]

def answerLost : List Event :=
  [.call .A clock (.connect (twoParties.key .B) (homes .B)), .deliver .B clock (arriving .B),
    .lose .A (arriving .A)]

theorem linked_run (script : List Event) :
    Run (Link.step reference homes) (fun _ _ _ => True) unlinked (linked script).1
      (linked script).2 :=
  Run.replay_run .start (Run.lawful_of_forall (fun _ _ _ => trivial) _ _ _)

theorem later_takes (dest : Endpoint) (data : Bytes) :
    later.takes dest data = decide (data.length ≤ kMaxDatagram) := rfl

def answered : List Event :=
  [.deliver .B later (arriving .B), .deliver .A later (arriving .A),
    .deliver .B later (arriving .B)]

def recovered : Link :=
  (Run.replay (Link.step reference homes) []
    ((linked probeLost).2.step reference homes (.call .A later .tick)) answered).2

theorem punching_recovers_probeLost :
    recovered.Direct twoParties .A ∧ recovered.Direct twoParties .B := by
  have lawful : Run.Lawful (Link.step reference homes) (fun _ w i => Lossless twoParties w i) []
      ((linked probeLost).2.step reference homes (.call .A later .tick)) answered :=
    ⟨⟨later_takes, by decide +kernel⟩, ⟨later_takes, by decide +kernel⟩,
      ⟨later_takes, by decide +kernel⟩, trivial⟩
  suffices hall : ∀ Y, recovered.Direct twoParties Y from ⟨hall .A, hall .B⟩
  refine (punching_recovers newEngines_started (fun _ => rfl) (linked_run probeLost) ?_ ?_ ?_
    (Run.replay_run .start lawful) ?_).mpr (Or.inl ?_)
  · show ¬ ((linked probeLost).2.engines .A).hasDirectPath (twoParties.key .B) = true
    decide +kernel
  · nofun
  · decide +kernel
  · decide +kernel
  · show ¬ ((linked probeLost).2.engines .B).hasDirectPath (twoParties.key .A) = true
    decide +kernel

/-- B has answered once, and does not answer again. -/
theorem answer_not_repeated :
    Run (Link.step reference homes) (fun _ _ _ => True) unlinked (linked answerLost).1
      (linked answerLost).2 ∧
    ¬ Link.Direct twoParties (linked answerLost).2 .A ∧
    (homes .B, probe twoParties .A) ∈
      (((linked answerLost).2.engines .A).call reference later .tick).1.socket.sent.drop
        ((linked answerLost).2.engines .A).socket.sent.length ∧
    Run (Link.step reference homes) (fun _ w i => Lossless twoParties w i)
      ((linked answerLost).2.step reference homes (.call .A later .tick))
      [((linked answerLost).2.step reference homes (.call .A later .tick),
        .deliver .B later (arriving .B))]
      (((linked answerLost).2.step reference homes (.call .A later .tick)).step reference homes
        (.deliver .B later (arriving .B))) ∧
    (∀ Y, (((linked answerLost).2.step reference homes (.call .A later .tick)).step reference homes
      (.deliver .B later (arriving .B))).flight Y = []) ∧
    ¬ Link.Direct twoParties (((linked answerLost).2.step reference homes
      (.call .A later .tick)).step reference homes (.deliver .B later (arriving .B))) .A := by
  refine ⟨linked_run answerLost, ?_, ?_, .move .start ⟨later_takes, ?_⟩, ?_, ?_⟩
  · show ¬ ((linked answerLost).2.engines .A).hasDirectPath (twoParties.key .B) = true
    decide +kernel
  · decide +kernel
  · decide +kernel
  · decide +kernel
  · show ¬ (((((linked answerLost).2.step reference homes (.call .A later .tick)).step reference
      homes (.deliver .B later (arriving .B))).engines .A).hasDirectPath (twoParties.key .B)) = true
    decide +kernel

end OpenMesh.Messaging.Punching
