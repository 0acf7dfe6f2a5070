import OpenMesh.Messaging.Pairs

namespace OpenMesh.Messaging.Routes

open OpenMesh.Core.Buffers OpenMesh.Core.Hex OpenMesh.Crypto.Primitives
open OpenMesh.Crypto.Reference OpenMesh.Library.Runs
open OpenMesh.Protocol.Envelope OpenMesh.Net.Transport OpenMesh.Storage.Database
open OpenMesh.Messaging.Sessions OpenMesh.Messaging.Operations OpenMesh.Messaging.Projection
open OpenMesh.Messaging.Frames OpenMesh.Messaging.Handling OpenMesh.Messaging.Simulation
open OpenMesh.Messaging.Pairs

variable {C : Sodium}

/-- Where packets for the peer are sent, but for the relay. -/
def endpointOf (e : Engine) (peer : Bytes) : Option Endpoint := e.endpoints.lookup (toHex peer)

def Punched (e : Engine) (key : Bytes) : Prop := ∃ p, e.probes.lookup key = some p ∧ p.confirmed

def Reached (e : Engine) : Prop := ∀ key, Punched e key → (e.endpoints.lookup key).isSome

theorem hasDirectPath_iff (e : Engine) (peer : Bytes) :
    e.hasDirectPath peer ↔ Punched e (toHex peer) := by
  unfold Engine.hasDirectPath Punched
  cases e.probes.lookup (toHex peer) <;> simp

/-- No endpoint is forgotten, and whoever has punched through or has asked has one. -/
structure Routed (e e' : Engine) : Prop where
  kept : ∀ key, (e.endpoints.lookup key).isSome → (e'.endpoints.lookup key).isSome
  punched : ∀ key, Punched e' key → Punched e key ∨ (e'.endpoints.lookup key).isSome
  incoming : ∀ key ∈ e'.incomingRequests,
    key ∈ e.incomingRequests ∨ (e'.endpoints.lookup key).isSome

namespace Routed

theorem trans {e₁ e₂ e₃ : Engine} (h : Routed e₁ e₂) (h' : Routed e₂ e₃) : Routed e₁ e₃ where
  kept key hk := h'.kept key (h.kept key hk)
  punched key hk := by
    obtain hk | hk := h'.punched key hk
    · exact (h.punched key hk).imp id (h'.kept key)
    · exact .inr hk
  incoming key hk := by
    obtain hk | hk := h'.incoming key hk
    · exact (h.incoming key hk).imp id (h'.kept key)
    · exact .inr hk

theorem of_eq {e e' : Engine} (he : e'.endpoints = e.endpoints) (hp : e'.probes = e.probes)
    (hi : e'.incomingRequests ⊆ e.incomingRequests) : Routed e e' where
  kept key hk := by rwa [he]
  punched key hk := .inl (by rwa [Punched, hp] at hk)
  incoming key hk := .inl (hi hk)

theorem refl (e : Engine) : Routed e e := of_eq rfl rfl subset_rfl

theorem endpoint (e : Engine) (key : Bytes) (endpoint : Endpoint) :
    Routed e { e with endpoints := e.endpoints.insert key endpoint } where
  kept k hk := by
    by_cases h : k = key
    · rw [h, AList.lookup_insert]
      rfl
    · rwa [AList.lookup_insert_ne h]
  punched _ hk := .inl hk
  incoming _ hk := .inl hk

theorem probe (e : Engine) (key : Bytes) (p : Probe) (hp : p.confirmed → Punched e key) :
    Routed e { e with probes := e.probes.insert key p } where
  kept _ hk := hk
  punched k hk := by
    obtain ⟨q, hq, hc⟩ := hk
    by_cases h : k = key
    · subst h
      rw [AList.lookup_insert] at hq
      cases hq
      exact .inl (hp hc)
    · rw [AList.lookup_insert_ne h] at hq
      exact .inl ⟨q, hq, hc⟩
  incoming _ hk := .inl hk

theorem holds {e e' : Engine} {r : Bytes} {s : Session} (h : e.Holds r s e') : Routed e e' :=
  of_eq (by rw [h.rest]) (by rw [h.rest]) (by rw [h.rest])

theorem sendProbe (env : Env) (e : Engine) (peer : Bytes) (dest : Endpoint) :
    Routed e (e.sendProbe env peer dest) := of_eq rfl rfl subset_rfl

theorem startProbing (env : Env) (e : Engine) (peer : Bytes) (candidate : Endpoint) :
    Routed e (e.startProbing env peer candidate) := by
  unfold Engine.startProbing
  dsimp only
  split
  · next p hp =>
    split
    · exact refl e
    · next hc =>
      refine Routed.trans (probe e _ _ ?_) (sendProbe env _ peer candidate)
      exact fun h => absurd h hc
  · exact (probe e _ _ fun h => by cases h).trans (sendProbe env _ peer candidate)

theorem connect (env : Env) (e : Engine) (r : Bytes) (candidate : Endpoint) :
    Routed e (e.connect env r candidate).1 :=
  (endpoint e _ _).trans (startProbing env _ r candidate)

theorem tickProbe (env : Env) (e : Engine) (key : Bytes) : Routed e (e.tickProbe env key) := by
  unfold Engine.tickProbe
  split
  · exact refl e
  · next p hp =>
    split_ifs with h1 h2
    · exact refl e
    · have h : Routed e (e.sendProbe env p.peer p.candidate) := of_eq rfl rfl subset_rfl
      exact h.trans (probe _ _ _ fun hc => absurd (.inl hc) h1)
    · exact refl e

theorem tick (env : Env) (e : Engine) : Routed e (e.tick env) :=
  Engine.tick_rel refl trans (tickProbe env) e

theorem handleProbe (env : Env) (e : Engine) (peer : Bytes) (origin : Endpoint) :
    Routed e (e.handleProbe env peer origin) := by
  let p : Probe := (e.probes.lookup (toHex peer)).getD
    { peer := [], candidate := ⟨[], 0⟩, last := 0 }
  let e₁ := { e with
    probes := e.probes.insert (toHex peer) { p with peer, confirmed := true }
    endpoints := e.endpoints.insert (toHex peer) origin }
  have h : Routed e e₁ := by
    have hk := endpoint e (toHex peer) origin
    refine ⟨hk.kept, fun k hp => ?_, fun _ hi => .inl hi⟩
    by_cases hkey : k = toHex peer
    · subst hkey
      exact .inr (by rw [AList.lookup_insert]; rfl)
    · obtain ⟨q, hq, hc⟩ := hp
      rw [AList.lookup_insert_ne hkey] at hq
      exact .inl ⟨q, hq, hc⟩
  unfold Engine.handleProbe
  dsimp only
  split
  · exact h
  · exact h.trans (sendProbe env e₁ peer origin)

theorem handleConnect (env : Env) (e : Engine) (peer payload : Bytes) :
    Routed e (e.handleConnect env peer payload) :=
  Engine.handleConnect_rel refl trans (endpoint · _) (startProbing env · peer) e payload

theorem dispatch (env : Env) (e : Engine) (packet : Packet) (text : Bytes) (origin : Endpoint)
    (reached : Reached e) :
    Routed e (e.dispatch env packet text origin).1 := by
  let e₁ := if e.hasDirectPath packet.source then e
    else { e with endpoints := e.endpoints.insert (toHex packet.source) origin }
  have h₁ : Routed e e₁ := by
    simp only [e₁]
    split
    · exact refl e
    · exact endpoint e _ _
  have hsome : (e₁.endpoints.lookup (toHex packet.source)).isSome := by
    simp only [e₁]
    split
    · next hd => exact reached _ ((hasDirectPath_iff e packet.source).mp hd)
    · rw [AList.lookup_insert]
      rfl
  refine h₁.trans ?_
  unfold Engine.dispatch
  cases packet.type with
  | contactRequest =>
    change Routed e₁ (e₁.handleContactRequest env packet.source text)
    unfold Engine.handleContactRequest
    dsimp only
    split_ifs
    · exact refl e₁
    all_goals
      refine ⟨fun _ hk => hk, fun _ hk => .inl hk, fun key hk => ?_⟩
      obtain rfl | hk := Finset.mem_insert.mp hk
      · exact .inr hsome
      · exact .inl hk
  | contactResponse =>
    change Routed e₁ (e₁.handleContactResponse packet.source text)
    unfold Engine.handleContactResponse
    dsimp only
    split_ifs <;> exact of_eq rfl rfl subset_rfl
  | _ => exact of_eq rfl rfl subset_rfl

theorem sealAndSend (env : Env) (e : Engine) (r : Bytes) (s : Session) (type : PacketType)
    (text : Bytes) : Routed e (e.sealAndSend C env r s type text).1 := by
  rw [Engine.sealAndSend_eq]
  exact of_eq rfl rfl subset_rfl

theorem poll (env : Env) (e : Engine) (incoming : Option Datagram)
    (reached : Reached e) :
    Routed e (e.poll C env incoming).1 := by
  obtain ⟨-, b, he⟩ | ⟨-, d, packet, -, -, -, -, -, he⟩ | ⟨-, d, packet, -, -, -, he⟩ |
    ⟨-, packet, s, e', ho, hh, -, he⟩ |
    ⟨d, packet, s, s', text, e', -, -, -, ho, hdec, -, hh, he⟩ := Engine.poll_cases C env e incoming
  · rw [he]
    exact refl e
  · rw [he]
    exact handleProbe env e packet.source d.origin
  · rw [he]
    exact handleConnect env e packet.source packet.payload
  · rw [he]
    exact holds hh
  · rw [he]
    refine (holds hh).trans (dispatch env e' packet text d.origin ?_)
    rw [hh.rest]
    exact reached

end Routed

theorem answerContact_routed (env : Env) (e : Engine) (r : Bytes) (trust : TrustStatus)
    (b : UInt8) : Routed e (e.answerContact C env r trust b).1 := by
  unfold Engine.answerContact
  dsimp only
  split
  · exact .refl e
  · split
    · exact .refl e
    · next e' s hs =>
      refine (Routed.holds (Engine.ensureSession_eq_some hs).2).trans
        (Routed.trans ?_ (.sealAndSend env _ r s _ _))
      exact .of_eq rfl rfl (Finset.erase_subset _ _)

/-- Every call but `open_store` keeps the endpoints there are. -/
theorem routed_call {e : Engine} (reached : Reached e) (env : Env) (c : Engine.Call)
    (hopen : c.reopens = false) : Routed e (e.call C env c).1 := by
  cases c with
  | openStore io path passphrase => cases hopen
  | addPeer r endpoint =>
    simp only [Engine.call, Engine.addPeer]
    split
    · exact .refl e
    · next e' s hs =>
      refine (Routed.holds (Engine.ensureSession_eq_some hs).2).trans
        ((Routed.endpoint e' (toHex r) endpoint).trans ?_)
      exact .of_eq rfl rfl subset_rfl
  | sendContactRequest r endpoint greeting =>
    simp only [Engine.call, Engine.sendContactRequest]
    split
    · exact .refl e
    · split
      · exact .refl e
      · next e' s hs =>
        refine (Routed.holds (Engine.ensureSession_eq_some hs).2).trans
          ((Routed.endpoint e' (toHex r) endpoint).trans (Routed.trans ?_ (.sealAndSend env _ r s _ _)))
        exact .of_eq rfl rfl subset_rfl
  | acceptContact r => exact answerContact_routed env e r _ _
  | rejectContact r => exact answerContact_routed env e r _ _
  | send r text =>
    simp only [Engine.call, Engine.send]
    split
    · exact .refl e
    · split
      · exact .refl e
      · next e' s hs =>
        have h := (Routed.holds (Engine.ensureSession_eq_some hs).2).trans
          (.sealAndSend (C := C) env e' r s .message text)
        split
        · next e₂ he => rwa [he] at h
        · next e₂ he =>
          rw [he] at h
          exact h.trans (.of_eq rfl rfl subset_rfl)
  | connect r candidate => exact .connect env e r candidate
  | tick => exact .tick env e
  | poll incoming => exact .poll env e incoming reached
  | _ => exact .of_eq rfl rfl subset_rfl

theorem Reached.call {e : Engine} (reached : Reached e) (env : Env) (c : Engine.Call)
    (hopen : c.reopens = false) : Reached (e.call C env c).1 := by
  have h := routed_call (C := C) reached env c hopen
  intro key hk
  obtain hk | hk := h.punched key hk
  · exact h.kept key (reached key hk)
  · exact hk

theorem startProbing_endpoints (env : Env) (e : Engine) (peer : Bytes) (candidate : Endpoint) :
    (e.startProbing env peer candidate).endpoints = e.endpoints := by
  unfold Engine.startProbing
  dsimp only
  split
  · split <;> rfl
  · rfl

theorem handleProbe_endpoints (env : Env) (e : Engine) (peer : Bytes) (origin : Endpoint) :
    (e.handleProbe env peer origin).endpoints = e.endpoints.insert (toHex peer) origin := by
  unfold Engine.handleProbe
  dsimp only
  split <;> rfl

theorem handleConnect_endpoints (env : Env) (e : Engine) (peer payload : Bytes) :
    (e.handleConnect env peer payload).endpoints = e.endpoints ∨
      ∃ ep relay, parseEndpoint payload = some ep ∧ endpointOf e peer = none ∧
        e.relay = some relay ∧
        (e.handleConnect env peer payload).endpoints = e.endpoints.insert (toHex peer) relay := by
  unfold Engine.handleConnect
  cases hp : parseEndpoint payload with
  | none => exact .inl rfl
  | some ep =>
    dsimp only
    split
    · next relay he hr =>
      exact .inr ⟨ep, relay, rfl, he, hr, startProbing_endpoints env _ peer ep⟩
    · exact .inl (startProbing_endpoints env e peer ep)

theorem dispatch_endpoints (env : Env) (e : Engine) (packet : Packet) (text : Bytes)
    (origin : Endpoint) :
    (e.dispatch env packet text origin).1.endpoints = e.endpoints ∨
      e.hasDirectPath packet.source = false ∧
        (e.dispatch env packet text origin).1.endpoints =
          e.endpoints.insert (toHex packet.source) origin := by
  let e₁ := if e.hasDirectPath packet.source then e
    else { e with endpoints := e.endpoints.insert (toHex packet.source) origin }
  have h₁ : (e.dispatch env packet text origin).1.endpoints = e₁.endpoints := by
    unfold Engine.dispatch
    cases packet.type with
    | contactRequest =>
      change (e₁.handleContactRequest env packet.source text).endpoints = _
      unfold Engine.handleContactRequest
      dsimp only
      split_ifs <;> rfl
    | contactResponse =>
      change (e₁.handleContactResponse packet.source text).endpoints = _
      unfold Engine.handleContactResponse
      dsimp only
      split_ifs <;> rfl
    | _ => rfl
  rw [h₁]
  cases hd : e.hasDirectPath packet.source with
  | true => simp [e₁, hd]
  | false => simp [e₁, hd]

def engineStep (C : Sodium) (e : Engine) (m : Env × Engine.Call) : Engine := (e.call C m.1 m.2).1

theorem sound_started {i : Identity} {e : Engine} (hstart : Started C i e) : Sound C e := by
  obtain ⟨contacts, he⟩ := started_eq hstart
  rw [he]
  exact ⟨fun peer s hs => by simp [Engine.session, Engine.new] at hs, by simp [Engine.new]⟩

theorem sound_run {i : Identity} {e₀ e : Engine} {h : History Engine (Env × Engine.Call)}
    {ok : History Engine (Env × Engine.Call) → Engine → Env × Engine.Call → Prop}
    (hstart : Started C i e₀) (run : Run (engineStep C) ok e₀ h e) : Sound C e := by
  exact run.invariant (fun _ e => Sound C e) (sound_started hstart) fun _ e m _ sound _ =>
    (keyed_call m.1 e m.2).sound sound

/-- The endpoint of a peer changes under `poll` for three reasons only: a packet
of the peer to us that the session opened, a probe that names the peer, and an
announcement that names it when there is a relay and no endpoint yet. -/
theorem poll_redirects {i : Identity} {e₀ e : Engine} {h : History Engine (Env × Engine.Call)}
    (hstart : Started C i e₀) (run : Run (engineStep C) (fun _ _ _ => True) e₀ h e) (env : Env)
    (incoming : Option Datagram) (peer : Bytes)
    (hne : endpointOf (e.poll C env incoming).1 peer ≠ endpointOf e peer) :
    ∃ d packet, incoming = some d ∧ deserialize (receive d).data = some packet ∧
      packet.source = peer ∧
      ((packet.encrypted ∧ packet.destination = e.localPublic ∧ e.hasDirectPath peer = false ∧
          (∃ s, e.opened C peer = some s ∧ (s.decrypt C packet).isSome) ∧
          endpointOf (e.poll C env incoming).1 peer = some d.origin) ∨
        (packet.type = .hello ∧ packet.destination = e.localPublic ∧ peer ≠ [] ∧
          endpointOf (e.poll C env incoming).1 peer = some d.origin) ∨
        (packet.type = .connect ∧ (parseEndpoint packet.payload).isSome ∧
          endpointOf e peer = none ∧ e.relay.isSome ∧
          endpointOf (e.poll C env incoming).1 peer = e.relay)) := by
  have hinsert : ∀ {e' : Engine} {q : Bytes} {v : Endpoint},
      e'.endpoints = e.endpoints.insert (toHex q) v →
      endpointOf e' peer ≠ endpointOf e peer → q = peer ∧ endpointOf e' peer = some v := by
    intro e' q v he' hne
    by_cases hq : peer = q
    · subst hq
      exact ⟨rfl, by rw [endpointOf, he', AList.lookup_insert]⟩
    · rw [endpointOf, endpointOf, he', AList.lookup_insert_ne (by simpa using hq)] at hne
      exact absurd rfl hne
  obtain ⟨-, b, he⟩ | ⟨-, d, packet, hd, hp, ht, hl, hs, he⟩ | ⟨-, d, packet, hd, hp, ht, he⟩ |
    ⟨-, packet, s, e', ho, hh, -, he⟩ |
    ⟨d, packet, s, s', text, e', -, hd, hp, ho, hdec, -, hh, he⟩ :=
      Engine.poll_cases C env e incoming
  · rw [he] at hne
    exact absurd rfl hne
  · rw [he] at hne ⊢
    obtain ⟨hq, hv⟩ := hinsert (handleProbe_endpoints env e packet.source d.origin) hne
    exact ⟨d, packet, hd, hp, hq, .inr (.inl ⟨ht, hl, hq ▸ hs, hv⟩)⟩
  · rw [he] at hne ⊢
    obtain hc | ⟨ep, relay, hparse, hnone, hr, hc⟩ :=
        handleConnect_endpoints env e packet.source packet.payload
    · exact absurd (by rw [endpointOf, hc]; rfl) hne
    · obtain ⟨hq, hv⟩ := hinsert hc hne
      exact ⟨d, packet, hd, hp, hq,
        .inr (.inr ⟨ht, by simp [hparse], hq ▸ hnone, by simp [hr], by rw [hv, hr]⟩)⟩
  · rw [he] at hne
    exact absurd (by rw [endpointOf, hh.rest]; rfl) hne
  · rw [he] at hne ⊢
    have hends : e'.endpoints = e.endpoints := by rw [hh.rest]
    have hpath : e'.hasDirectPath packet.source = e.hasDirectPath packet.source := by rw [hh.rest]; rfl
    obtain hc | ⟨hpunch, hc⟩ := dispatch_endpoints env e' packet text d.origin
    · exact absurd (by rw [endpointOf, hc, hends]; rfl) hne
    · rw [hends] at hc
      obtain ⟨hq, hv⟩ := hinsert hc hne
      obtain ⟨⟨-, henc, -, hdst, -, -⟩, -⟩ := Session.decrypt_eq_some_iff.mp hdec
      have hl := ((sound_run hstart run).opened ho).2.1
      exact ⟨d, packet, hd, hp, hq, .inl ⟨henc, hdst.trans hl, hq ▸ hpath ▸ hpunch,
        ⟨s, hq ▸ ho, by simp [hdec]⟩, hv⟩⟩

def elsewhere : Endpoint := ⟨[], 1⟩

def forgedHello : Datagram :=
  ⟨elsewhere, serialize
    { type := .hello, source := twoParties.key .B, destination := twoParties.key .A }⟩

def acquainted : Engine :=
  engineStep reference (newEngines .A) (clock, .addPeer (twoParties.key .B) address)

theorem forged_hello_redirects :
    endpointOf acquainted (twoParties.key .B) = some address ∧
      endpointOf (acquainted.poll reference clock (some forgedHello)).1 (twoParties.key .B) =
        some elsewhere ∧
      ∀ packet ∈ deserialize (receive forgedHello).data, packet.encrypted = false := by
  decide +kernel

theorem poll_redirects_moved :
    ∃ d packet, some { box .B 0 .message [7] with origin := elsewhere } = some d ∧
      deserialize (receive d).data = some packet ∧ packet.source = twoParties.key .B ∧
      (packet.encrypted ∨ packet.type = .hello ∨ packet.type = .connect) := by
  have run : Run (engineStep reference) (fun _ _ _ => True) (newEngines .A) _ acquainted :=
    .move .start trivial
  obtain ⟨d, packet, hd, hp, hs, h⟩ := poll_redirects (newEngines_started .A) run clock
    (some { box .B 0 .message [7] with origin := elsewhere }) (twoParties.key .B) (by decide +kernel)
  exact ⟨d, packet, hd, hp, hs, h.imp (·.1) (·.imp (·.1) (·.1))⟩

theorem addPeer_true {e : Engine} {r : Bytes} (endpoint : Endpoint) (ho : (e.opened C r).isSome) :
    (e.addPeer C r endpoint).2 = true := by
  unfold Engine.addPeer
  cases hs : e.ensureSession C r with
  | none => simp [Engine.ensureSession_eq_none hs] at ho
  | some p => rfl

theorem post_true {env : Env} {e : Engine} {key : Bytes} (packet : Packet)
    (hsome : (e.endpoints.lookup key).isSome) (htakes : ∀ dest data, env.takes dest data = true) :
    (e.post env key packet).2 = true := by
  obtain ⟨dest, hdest⟩ := Option.isSome_iff_exists.mp hsome
  simp [Engine.post, hdest, UdpSocket.sendTo, htakes]

theorem sendContactRequest_leaves {env : Env} {e : Engine} {r : Bytes} {endpoint : Endpoint}
    {greeting : Bytes} (ho : (e.opened C r).isSome) (ht : e.trustOf r ≠ some .accepted)
    (htakes : ∀ dest data, env.takes dest data = true) :
    (e.sendContactRequest C env r endpoint greeting).2 = true := by
  unfold Engine.sendContactRequest
  rw [if_neg ht]
  cases hs : e.ensureSession C r with
  | none => simp [Engine.ensureSession_eq_none hs] at ho
  | some p =>
    simp only [Engine.sealAndSend_eq]
    exact post_true _ (by simp [Engine.setTrust]) htakes

theorem answerContact_leaves {env : Env} {e : Engine} {r : Bytes} {trust : TrustStatus}
    {b : UInt8} (ho : (e.opened C r).isSome) (hin : toHex r ∈ e.incomingRequests)
    (hsome : (endpointOf e r).isSome) (htakes : ∀ dest data, env.takes dest data = true) :
    (e.answerContact C env r trust b).2 = true := by
  unfold Engine.answerContact
  simp only [hin, not_true_eq_false, ↓reduceIte]
  cases hs : e.ensureSession C r with
  | none => simp [Engine.ensureSession_eq_none hs] at ho
  | some p =>
    obtain ⟨e', s⟩ := p
    simp only [Engine.sealAndSend_eq]
    refine post_true _ ?_ htakes
    change (e'.endpoints.lookup (toHex r)).isSome
    rw [(Engine.ensureSession_eq_some hs).2.rest]
    exact hsome

theorem ask_leaves {env : Env} {e : Engine} {q greeting : Bytes} {c : Engine.Call} {leaves : Bool}
    (ha : act C env e q c = .ask greeting leaves)
    (htakes : ∀ dest data, env.takes dest data = true) : leaves = true := by
  have h := act_call (C := C) env e q c
  rw [ha] at h
  obtain ⟨⟨endpoint, rfl⟩, ho, ht, rfl⟩ := h
  exact sendContactRequest_leaves ho ht htakes

theorem answer_leaves {env : Env} {e : Engine} {q : Bytes} {c : Engine.Call} {accept leaves : Bool}
    (ha : act C env e q c = .answer accept leaves)
    (hin : toHex q ∈ e.incomingRequests → (endpointOf e q).isSome)
    (htakes : ∀ dest data, env.takes dest data = true) : leaves = true := by
  have h := act_call (C := C) env e q c
  rw [ha] at h
  obtain ⟨rfl, ho, hi, rfl⟩ := h
  cases accept with
  | true => exact answerContact_leaves ho hi (hin hi) htakes
  | false => exact answerContact_leaves ho hi (hin hi) htakes

end OpenMesh.Messaging.Routes
