import OpenMesh.Messaging.Routes

namespace OpenMesh.Messaging.Paths

open OpenMesh.Core.Buffers OpenMesh.Core.Hex OpenMesh.Crypto.Primitives
open OpenMesh.Crypto.Reference OpenMesh.Library.Runs
open OpenMesh.Protocol.Envelope OpenMesh.Net.Transport OpenMesh.Storage.Database
open OpenMesh.Messaging.Sessions OpenMesh.Messaging.Operations OpenMesh.Messaging.Pairs
open OpenMesh.Messaging.Routes

variable (C : Sodium)

abbrev Past := History Engine (Env × Engine.Call)

def Probes (peer : Bytes) (origin : Endpoint) (m : Engine × Env × Engine.Call) : Prop :=
  ∃ d packet, m.2.2 = .poll (some d) ∧ deserialize (receive d).data = some packet ∧
    packet.type = .hello ∧ packet.destination = m.1.localPublic ∧ packet.source = peer ∧
    peer ≠ [] ∧ d.origin = origin

def Probed (peer : Bytes) (origin : Endpoint) (h : Past) : Prop := ∃ m ∈ h, Probes peer origin m

/-- The call writes an endpoint for the peer, whatever is known about the path to it. -/
inductive Assigns (e : Engine) (peer : Bytes) (endpoint : Endpoint) : Engine.Call → Prop
  | connect (candidate : Endpoint) (h : e.relay.getD candidate = endpoint) :
      Assigns e peer endpoint (.connect peer candidate)
  | addPeer (ho : (e.opened C peer).isSome) : Assigns e peer endpoint (.addPeer peer endpoint)
  | sendContactRequest (greeting : Bytes) (ht : e.trustOf peer ≠ some .accepted)
      (ho : (e.opened C peer).isSome) :
      Assigns e peer endpoint (.sendContactRequest peer endpoint greeting)

/-- Where there is a direct path, packets go to where a probe came from, and that is not the
relay. -/
def Direct (h : Past) (e : Engine) : Prop :=
  ∀ peer, e.hasDirectPath peer → ∃ endpoint, endpointOf e peer = some endpoint ∧
    Probed peer endpoint h ∧ e.relay ≠ some endpoint

/-- A call that leaves direct paths alone, or moves them to where a probe came from. -/
structure Safe (h : Past) (m : Engine × Env × Engine.Call) : Prop where
  assigns : ∀ peer endpoint, m.1.hasDirectPath peer → Assigns C m.1 peer endpoint m.2.2 →
    Probed peer endpoint h ∧ m.1.relay ≠ some endpoint
  probes : ∀ peer origin, Probes peer origin m → m.1.relay ≠ some origin
  relays : ∀ peer relay, m.1.hasDirectPath peer → m.2.2 = .setRelay relay →
    endpointOf m.1 peer ≠ some relay

structure SamePaths (e e' : Engine) : Prop where
  endpoints : e'.endpoints = e.endpoints
  probes : e'.probes = e.probes
  relay : e'.relay = e.relay

variable {C} {e e' : Engine} {peer : Bytes}

theorem SamePaths.endpointOf (h : SamePaths e e') (peer : Bytes) :
    endpointOf e' peer = endpointOf e peer := by
  rw [Routes.endpointOf, Routes.endpointOf, h.endpoints]

theorem SamePaths.hasDirectPath (h : SamePaths e e') (peer : Bytes) :
    e'.hasDirectPath peer = e.hasDirectPath peer := by
  rw [Engine.hasDirectPath, Engine.hasDirectPath, h.probes]

theorem samePaths_holds {r : Bytes} {s : Session} (h : e.Holds r s e') : SamePaths e e' := by
  rw [h.rest]
  exact ⟨rfl, rfl, rfl⟩

theorem samePaths_sealAndSend (env : Env) (e : Engine) (r : Bytes) (s : Session)
    (type : PacketType) (text : Bytes) : SamePaths e (e.sealAndSend C env r s type text).1 := by
  rw [Engine.sealAndSend_eq]
  exact ⟨rfl, rfl, rfl⟩

theorem SamePaths.trans {e'' : Engine} (h : SamePaths e e') (h' : SamePaths e' e'') :
    SamePaths e e'' :=
  ⟨h'.endpoints.trans h.endpoints, h'.probes.trans h.probes, h'.relay.trans h.relay⟩

theorem hasDirectPath_insert {key : Bytes} {p : Probe}
    (hp : p.confirmed = ((e.probes.lookup key).map (·.confirmed)).getD false) (peer : Bytes) :
    { e with probes := e.probes.insert key p }.hasDirectPath peer = e.hasDirectPath peer := by
  unfold Engine.hasDirectPath
  by_cases hk : toHex peer = key
  · subst hk
    rw [AList.lookup_insert]
    dsimp only
    rw [hp]
    cases e.probes.lookup (toHex peer) <;> rfl
  · rw [AList.lookup_insert_ne hk]

theorem startProbing_hasDirectPath (env : Env) (e : Engine) (r : Bytes) (candidate : Endpoint)
    (peer : Bytes) : (e.startProbing env r candidate).hasDirectPath peer = e.hasDirectPath peer := by
  unfold Engine.startProbing
  dsimp only
  cases hp : e.probes.lookup (toHex r) with
  | none => exact hasDirectPath_insert (by rw [hp]; rfl) peer
  | some p =>
    dsimp only
    split
    · rfl
    · next hc => exact hasDirectPath_insert (by rw [hp]; rfl) peer

theorem relay_punches (env : Env) (r : Bytes) :
    Engine.Punches env r fun e e' => e'.relay = e.relay where
  refl _ := rfl
  trans h h' := h'.trans h
  endpoint _ _ := rfl
  probe _ _ := rfl
  sendProbe _ _ := rfl

theorem handleConnect_hasDirectPath (env : Env) (e : Engine) (r payload peer : Bytes) :
    (e.handleConnect env r payload).hasDirectPath peer = e.hasDirectPath peer :=
  Engine.handleConnect_rel (R := fun e e' => e'.hasDirectPath peer = e.hasDirectPath peer)
    (fun _ => rfl) (fun h h' => h'.trans h) (fun _ _ => rfl)
    (fun e candidate => startProbing_hasDirectPath env e r candidate peer) e payload

theorem tickProbe_hasDirectPath (env : Env) (e : Engine) (key peer : Bytes) :
    (e.tickProbe env key).hasDirectPath peer = e.hasDirectPath peer := by
  unfold Engine.tickProbe
  cases hp : e.probes.lookup key with
  | none => rfl
  | some p =>
    dsimp only
    split_ifs
    · rfl
    · refine hasDirectPath_insert (e := e.sendProbe env p.peer p.candidate) ?_ peer
      rw [show (e.sendProbe env p.peer p.candidate).probes = e.probes from rfl, hp]
      rfl
    · rfl

theorem tickProbe_frame (env : Env) (e : Engine) (key : Bytes) :
    (e.tickProbe env key).endpoints = e.endpoints ∧ (e.tickProbe env key).relay = e.relay := by
  unfold Engine.tickProbe
  split
  · exact ⟨rfl, rfl⟩
  · split_ifs <;> exact ⟨rfl, rfl⟩

theorem tick_frame (env : Env) (e : Engine) :
    (e.tick env).endpoints = e.endpoints ∧ (e.tick env).relay = e.relay ∧
      ∀ peer, (e.tick env).hasDirectPath peer = e.hasDirectPath peer := by
  refine Engine.tick_rel (R := fun e e' => e'.endpoints = e.endpoints ∧ e'.relay = e.relay ∧
    ∀ peer, e'.hasDirectPath peer = e.hasDirectPath peer) (fun _ => ⟨rfl, rfl, fun _ => rfl⟩) ?_ ?_ e
  · rintro e₁ e₂ e₃ ⟨hends, hrelay, hdirect⟩ ⟨hends', hrelay', hdirect'⟩
    exact ⟨hends'.trans hends, hrelay'.trans hrelay, fun peer =>
      (hdirect' peer).trans (hdirect peer)⟩
  · intro e key
    obtain ⟨hends, hrelay⟩ := tickProbe_frame env e key
    exact ⟨hends, hrelay, tickProbe_hasDirectPath env e key⟩

theorem handleProbe_frame (env : Env) (e : Engine) (r : Bytes) (origin : Endpoint) :
    (e.handleProbe env r origin).relay = e.relay ∧
      ∀ peer, (e.handleProbe env r origin).hasDirectPath peer =
        if peer = r then true else e.hasDirectPath peer := by
  have hdirect : ∀ peer (p : Probe), p.confirmed = true →
      { e with probes := e.probes.insert (toHex r) p }.hasDirectPath peer =
        if peer = r then true else e.hasDirectPath peer := by
    intro peer p hp
    unfold Engine.hasDirectPath
    by_cases h : peer = r
    · rw [if_pos h, h, AList.lookup_insert]
      exact hp
    · rw [if_neg h, AList.lookup_insert_ne (by rwa [ne_eq, toHex_inj])]
  unfold Engine.handleProbe
  dsimp only
  split
  · exact ⟨rfl, fun peer => hdirect peer _ rfl⟩
  · exact ⟨rfl, fun peer => hdirect peer _ rfl⟩

theorem dispatch_frame (env : Env) (e : Engine) (packet : Packet) (text : Bytes)
    (origin : Endpoint) : (e.dispatch env packet text origin).1.probes = e.probes ∧
      (e.dispatch env packet text origin).1.relay = e.relay := by
  let e₁ := if e.hasDirectPath packet.source then e
    else { e with endpoints := e.endpoints.insert (toHex packet.source) origin }
  have h₁ : e₁.probes = e.probes ∧ e₁.relay = e.relay := by
    simp only [e₁]
    split <;> exact ⟨rfl, rfl⟩
  rw [← h₁.1, ← h₁.2]
  unfold Engine.dispatch
  cases packet.type with
  | contactRequest =>
    change (e₁.handleContactRequest env packet.source text).probes = _ ∧
      (e₁.handleContactRequest env packet.source text).relay = _
    unfold Engine.handleContactRequest
    dsimp only
    split_ifs <;> exact ⟨rfl, rfl⟩
  | contactResponse =>
    change (e₁.handleContactResponse packet.source text).probes = _ ∧
      (e₁.handleContactResponse packet.source text).relay = _
    unfold Engine.handleContactResponse
    dsimp only
    split_ifs <;> exact ⟨rfl, rfl⟩
  | _ => exact ⟨rfl, rfl⟩

theorem assigns_call (env : Env) {c : Engine.Call} {endpoint : Endpoint}
    (h : Assigns C e peer endpoint c) :
    endpointOf (e.call C env c).1 peer = some endpoint ∧ (e.call C env c).1.relay = e.relay ∧
      ∀ q, (e.call C env c).1.hasDirectPath q = e.hasDirectPath q := by
  have hinsert : ∀ {e' : Engine}, e'.endpoints = e.endpoints.insert (toHex peer) endpoint →
      endpointOf e' peer = some endpoint := by
    intro e' he'
    rw [endpointOf, he', AList.lookup_insert]
  cases h with
  | connect candidate h =>
    subst h
    refine ⟨hinsert ?_, ?_, fun q => ?_⟩
    · exact startProbing_endpoints env _ peer candidate
    · exact (relay_punches env peer).startProbing _ candidate
    · exact startProbing_hasDirectPath env _ peer candidate q
  | addPeer ho =>
    simp only [Engine.call, Engine.addPeer]
    cases hs : e.ensureSession C peer with
    | none =>
      rw [Engine.ensureSession_eq_none hs] at ho
      cases ho
    | some p =>
      have same := samePaths_holds (Engine.ensureSession_eq_some hs).2
      refine ⟨hinsert ?_, same.relay, same.hasDirectPath⟩
      exact congrArg (AList.insert (toHex peer) endpoint) same.endpoints
  | sendContactRequest greeting ht ho =>
    simp only [Engine.call, Engine.sendContactRequest, ht, ↓reduceIte]
    cases hs : e.ensureSession C peer with
    | none =>
      rw [Engine.ensureSession_eq_none hs] at ho
      cases ho
    | some p =>
      have same := samePaths_holds (Engine.ensureSession_eq_some hs).2
      have hseal := samePaths_sealAndSend (C := C) env
        ({ p.1 with
          endpoints := p.1.endpoints.insert (toHex peer) endpoint
          outgoingRequests := insert (toHex peer) p.1.outgoingRequests }.setTrust peer .pending)
        peer p.2 .contactRequest greeting
      refine ⟨hinsert (hseal.endpoints.trans ?_), hseal.relay.trans same.relay, fun q => ?_⟩
      · exact congrArg (AList.insert (toHex peer) endpoint) same.endpoints
      · exact (hseal.hasDirectPath q).trans (same.hasDirectPath q)

theorem probes_call {env : Env} {c : Engine.Call} {origin : Endpoint}
    (h : Probes peer origin (e, env, c)) :
    (e.call C env c).1 = e.handleProbe env peer origin := by
  obtain ⟨d, packet, hc, hp, hty, hdst, rfl, hne, rfl⟩ := h
  dsimp only at hc hdst
  subst hc
  simp only [Engine.call, Engine.poll, Option.map_some, hp, hty, hdst, hne, ne_eq,
    not_false_eq_true, and_self, ↓reduceIte]
  rfl

/-- Everything else leaves a direct path as it is, and makes none. -/
structure Leaves (e : Engine) (peer : Bytes) (e' : Engine) : Prop where
  relay : e'.relay = e.relay
  direct : e'.hasDirectPath peer = e.hasDirectPath peer
  endpoint : e.hasDirectPath peer → (endpointOf e peer).isSome → endpointOf e' peer = endpointOf e peer

theorem SamePaths.leaves (h : SamePaths e e') (peer : Bytes) : Leaves e peer e' :=
  ⟨h.relay, h.hasDirectPath peer, fun _ _ => h.endpointOf peer⟩

theorem endpointOf_insert_ne {r : Bytes} (endpoint : Endpoint) (hne : peer ≠ r)
    (he' : e'.endpoints = e.endpoints.insert (toHex r) endpoint) :
    endpointOf e' peer = endpointOf e peer := by
  rw [endpointOf, he', AList.lookup_insert_ne (by rwa [ne_eq, toHex_inj])]
  rfl

theorem leaves_poll {env : Env} {incoming : Option Datagram}
    (hprobe : ∀ origin, ¬ Probes peer origin (e, env, .poll incoming)) :
    Leaves e peer (e.poll C env incoming).1 := by
  cases Engine.poll_cases C env e incoming with
  | ignored _ b he =>
    rw [he]
    exact SamePaths.leaves ⟨rfl, rfl, rfl⟩ peer
  | probe _ d packet hd hp hty hdst hs he =>
    obtain ⟨hrelay, hdirect⟩ := handleProbe_frame env e packet.source d.origin
    have hne : peer ≠ packet.source := by
      rintro rfl
      exact hprobe d.origin ⟨d, packet, congrArg _ hd, hp, hty, hdst, rfl, hs, rfl⟩
    rw [he]
    refine ⟨hrelay, ?_, fun _ _ => ?_⟩
    · rw [hdirect, if_neg hne]
    · exact endpointOf_insert_ne _ hne (handleProbe_endpoints env e packet.source d.origin)
  | connect _ d packet _ _ _ he =>
    rw [he]
    refine ⟨(relay_punches _ _).handleConnect _ _, handleConnect_hasDirectPath _ _ _ _ _, fun _ hsome => ?_⟩
    obtain heq | ⟨ep, relay, -, hnone, -, heq⟩ :=
      handleConnect_endpoints env e packet.source packet.payload
    · rw [endpointOf, heq]
      rfl
    · refine endpointOf_insert_ne _ ?_ heq
      rintro rfl
      rw [hnone] at hsome
      cases hsome
  | refused _ packet s e' _ hh _ he =>
    rw [he]
    exact (samePaths_holds hh).leaves peer
  | accepted d packet s s' text e' _ _ _ _ _ _ hh he =>
    have same := samePaths_holds hh
    obtain ⟨hprobes, hrelay⟩ := dispatch_frame env e' packet text d.origin
    have hdirect : ∀ q, (e'.dispatch env packet text d.origin).1.hasDirectPath q =
        e.hasDirectPath q := by
      intro q
      rw [Engine.hasDirectPath, hprobes]
      exact same.hasDirectPath q
    rw [he]
    refine ⟨hrelay.trans same.relay, hdirect peer, fun hd _ => ?_⟩
    rw [← same.endpointOf peer]
    obtain heq | ⟨hnot, heq⟩ := dispatch_endpoints env e' packet text d.origin
    · rw [endpointOf, heq]
      rfl
    · refine endpointOf_insert_ne _ ?_ heq
      rintro rfl
      rw [same.hasDirectPath, hd] at hnot
      cases hnot

theorem samePaths_answerContact (env : Env) (e : Engine) (r : Bytes) (trust : TrustStatus)
    (b : UInt8) : SamePaths e (e.answerContact C env r trust b).1 := by
  unfold Engine.answerContact
  dsimp only
  split
  · exact ⟨rfl, rfl, rfl⟩
  · split
    · exact ⟨rfl, rfl, rfl⟩
    · next e' s hs =>
      refine (samePaths_holds (Engine.ensureSession_eq_some hs).2).trans
        (SamePaths.trans ?_ (samePaths_sealAndSend env _ r s _ _))
      exact ⟨rfl, rfl, rfl⟩

theorem samePaths_send (env : Env) (e : Engine) (r text : Bytes) :
    SamePaths e (e.send C env r text).1 := by
  unfold Engine.send
  split
  · exact ⟨rfl, rfl, rfl⟩
  · split
    · exact ⟨rfl, rfl, rfl⟩
    · next e' s hs =>
      have h := (samePaths_holds (Engine.ensureSession_eq_some hs).2).trans
        (samePaths_sealAndSend (C := C) env e' r s .message text)
      split
      · next e₂ he => rwa [he] at h
      · next e₂ he =>
        rw [he] at h
        exact h.trans ⟨rfl, rfl, rfl⟩

/-- A call that neither writes an endpoint for the peer, nor brings a probe of it, nor sets the
relay. -/
theorem leaves_call {env : Env} {c : Engine.Call}
    (hassign : ∀ endpoint, ¬ Assigns C e peer endpoint c)
    (hprobe : ∀ origin, ¬ Probes peer origin (e, env, c))
    (hrelay : ∀ relay, c ≠ .setRelay relay) : Leaves e peer (e.call C env c).1 := by
  cases c with
  | setRelay relay => exact absurd rfl (hrelay relay)
  | connect r candidate =>
    have hne : peer ≠ r := by
      rintro rfl
      exact hassign _ (.connect candidate rfl)
    refine ⟨(relay_punches _ _).startProbing _ _, startProbing_hasDirectPath _ _ _ _ _, fun _ _ => ?_⟩
    exact endpointOf_insert_ne _ hne (startProbing_endpoints env _ r candidate)
  | addPeer r endpoint =>
    simp only [Engine.call, Engine.addPeer]
    cases hs : e.ensureSession C r with
    | none => exact SamePaths.leaves ⟨rfl, rfl, rfl⟩ peer
    | some p =>
      obtain ⟨ho, hh⟩ := Engine.ensureSession_eq_some hs
      have same := samePaths_holds hh
      have hne : peer ≠ r := by
        rintro rfl
        exact hassign endpoint (.addPeer (by rw [ho]; rfl))
      refine ⟨same.relay, same.hasDirectPath peer, fun _ _ => ?_⟩
      refine endpointOf_insert_ne endpoint hne ?_
      exact congrArg (AList.insert (toHex r) endpoint) same.endpoints
  | sendContactRequest r endpoint greeting =>
    simp only [Engine.call, Engine.sendContactRequest]
    split
    · exact SamePaths.leaves ⟨rfl, rfl, rfl⟩ peer
    · next ht =>
      cases hs : e.ensureSession C r with
      | none => exact SamePaths.leaves ⟨rfl, rfl, rfl⟩ peer
      | some p =>
        obtain ⟨ho, hh⟩ := Engine.ensureSession_eq_some hs
        have same := samePaths_holds hh
        have hne : peer ≠ r := by
          rintro rfl
          exact hassign endpoint (.sendContactRequest greeting ht (by rw [ho]; rfl))
        have hseal := samePaths_sealAndSend (C := C) env
          ({ p.1 with
            endpoints := p.1.endpoints.insert (toHex r) endpoint
            outgoingRequests := insert (toHex r) p.1.outgoingRequests }.setTrust r .pending)
          r p.2 .contactRequest greeting
        refine ⟨hseal.relay.trans same.relay,
          (hseal.hasDirectPath peer).trans (same.hasDirectPath peer), fun _ _ => ?_⟩
        refine endpointOf_insert_ne endpoint hne (hseal.endpoints.trans ?_)
        exact congrArg (AList.insert (toHex r) endpoint) same.endpoints
  | acceptContact r => exact (samePaths_answerContact env e r _ _).leaves peer
  | rejectContact r => exact (samePaths_answerContact env e r _ _).leaves peer
  | send r text => exact (samePaths_send env e r text).leaves peer
  | tick =>
    obtain ⟨hends, hrelay', hdirect⟩ := tick_frame env e
    refine ⟨hrelay', hdirect peer, fun _ _ => ?_⟩
    show (e.tick env).endpoints.lookup _ = _
    rw [hends]
    rfl
  | poll incoming => exact leaves_poll hprobe
  | openStore io path passphrase =>
    refine SamePaths.leaves ?_ peer
    simp only [Engine.call, Engine.openStore]
    split <;> exact ⟨rfl, rfl, rfl⟩
  | _ =>
    refine SamePaths.leaves ?_ peer
    exact ⟨rfl, rfl, rfl⟩

theorem hasDirectPath_call (env : Env) (c : Engine.Call) (hd : e.hasDirectPath peer) :
    (e.call C env c).1.hasDirectPath peer := by
  by_cases hassign : ∃ endpoint, Assigns C e peer endpoint c
  · obtain ⟨endpoint, h⟩ := hassign
    rw [(assigns_call _ h).2.2 peer]
    exact hd
  by_cases hprobe : ∃ origin, Probes peer origin (e, env, c)
  · obtain ⟨origin, h⟩ := hprobe
    rw [probes_call h, (handleProbe_frame env e peer origin).2, if_pos rfl]
  by_cases hrelay : ∃ relay, c = .setRelay relay
  · obtain ⟨relay, rfl⟩ := hrelay
    exact hd
  rw [(leaves_call (fun endpoint h => hassign ⟨endpoint, h⟩) (fun origin h => hprobe ⟨origin, h⟩)
    (fun relay h => hrelay ⟨relay, h⟩)).direct]
  exact hd

variable {h : Past} {m : Env × Engine.Call}

theorem Probed.cons {origin : Endpoint} (hp : Probed peer origin h)
    (m : Engine × Env × Engine.Call) : Probed peer origin (m :: h) := by
  obtain ⟨m', hm, hprobe⟩ := hp
  exact ⟨m', List.mem_cons_of_mem m hm, hprobe⟩

theorem probed_cons {origin : Endpoint} (hp : Probed peer origin ((e, m) :: h))
    (hno : ∀ origin, ¬ Probes peer origin (e, m)) : Probed peer origin h := by
  obtain ⟨m', hm, hprobe⟩ := hp
  obtain rfl | hm := List.mem_cons.mp hm
  · exact absurd hprobe (hno origin)
  · exact ⟨m', hm, hprobe⟩

theorem assigns_not_probes {endpoint origin : Endpoint} (ha : Assigns C e peer endpoint m.2) :
    ¬ Probes peer origin (e, m) := by
  rintro ⟨d, packet, hc, -⟩
  dsimp only at hc
  rw [hc] at ha
  cases ha

theorem direct_step (direct : Direct h e) :
    Direct ((e, m) :: h) (engineStep C e m) ↔ Safe C h (e, m) := by
  obtain ⟨env, c⟩ := m
  constructor
  · intro after
    refine ⟨fun peer endpoint hd ha => ?_, fun peer origin hprobe => ?_, fun peer relay hd hc => ?_⟩
    · obtain ⟨hend, hrelay, -⟩ := assigns_call env ha
      obtain ⟨endpoint', hend', hprobed, hne⟩ := after peer (hasDirectPath_call env c hd)
      rw [engineStep] at hend' hne
      obtain rfl := Option.some.inj (hend.symm.trans hend')
      exact ⟨probed_cons hprobed fun origin => assigns_not_probes ha, hrelay ▸ hne⟩
    · have hcall := probes_call (C := C) hprobe
      obtain ⟨hrelay, hdirect⟩ := handleProbe_frame env e peer origin
      obtain ⟨endpoint', hend', -, hne⟩ := after peer (by
        rw [engineStep, hcall, hdirect, if_pos rfl])
      rw [engineStep, hcall] at hend' hne
      rw [endpointOf, handleProbe_endpoints, AList.lookup_insert] at hend'
      obtain rfl := Option.some.inj hend'
      rwa [hrelay] at hne
    · dsimp only at hc hd
      subst hc
      obtain ⟨endpoint', hend', -, hne⟩ := after peer hd
      intro heq
      obtain rfl := Option.some.inj (heq.symm.trans hend')
      exact hne rfl
  · intro safe peer hd'
    by_cases hassign : ∃ endpoint, Assigns C e peer endpoint c
    · obtain ⟨endpoint, ha⟩ := hassign
      obtain ⟨hend, hrelay, hdirect⟩ := assigns_call env ha
      rw [engineStep, hdirect] at hd'
      obtain ⟨hprobed, hne⟩ := safe.assigns peer endpoint hd' ha
      exact ⟨endpoint, hend, hprobed.cons _, by rwa [engineStep, hrelay]⟩
    by_cases hprobe : ∃ origin, Probes peer origin (e, env, c)
    · obtain ⟨origin, hprobe⟩ := hprobe
      refine ⟨origin, ?_, ⟨_, List.mem_cons_self, hprobe⟩, ?_⟩
      · rw [engineStep, probes_call hprobe, endpointOf, handleProbe_endpoints, AList.lookup_insert]
      · rw [engineStep, probes_call hprobe, (handleProbe_frame env e peer origin).1]
        exact safe.probes peer origin hprobe
    by_cases hrelay : ∃ relay, c = .setRelay relay
    · obtain ⟨relay, rfl⟩ := hrelay
      obtain ⟨endpoint, hend, hprobed, -⟩ := direct peer hd'
      refine ⟨endpoint, hend, hprobed.cons _, fun heq => ?_⟩
      obtain rfl := Option.some.inj heq
      exact safe.relays peer relay hd' rfl hend
    · have leaves : Leaves e peer (engineStep C e (env, c)) :=
        leaves_call (fun endpoint h => hassign ⟨endpoint, h⟩)
          (fun origin h => hprobe ⟨origin, h⟩) (fun relay h => hrelay ⟨relay, h⟩)
      rw [leaves.direct] at hd'
      obtain ⟨endpoint, hend, hprobed, hne⟩ := direct peer hd'
      refine ⟨endpoint, ?_, hprobed.cons _, by rwa [leaves.relay]⟩
      rw [leaves.endpoint hd' (by rw [hend]; rfl), hend]

variable {ok : Past → Engine → Env × Engine.Call → Prop} {localPublic localSecret : Bytes}

/-- Throughout a run, packets take the direct path wherever there is one, exactly if every call of
the run is safe; the flag itself is never lost. -/
theorem direct_kept (run : Run (engineStep C) ok (Engine.new localPublic localSecret) h e) :
    (Run.Throughout Direct h e ↔ Run.Each (Safe C) h) ∧
    ∀ env c peer, e.hasDirectPath peer → (e.call C env c).1.hasDirectPath peer := by
  refine ⟨run.throughout_iff ?_ fun h e m _ direct _ => direct_step direct, ?_⟩
  · intro peer hd
    cases hd
  · exact fun env c peer => hasDirectPath_call env c

def knock (X : Party) (origin : Endpoint) : Datagram :=
  ⟨origin, serialize
    { type := .hello, source := twoParties.key X, destination := twoParties.key X.other }⟩

def relayed : List Engine.Call :=
  [.setRelay elsewhere, .connect (twoParties.key .B) address, .poll (some (knock .B address))]

def alone (calls : List Engine.Call) : Past × Engine :=
  Run.replay (engineStep reference) [] (newEngines .A) (calls.map (clock, ·))

theorem alone_run (calls : List Engine.Call) :
    Run (engineStep reference) (fun _ _ _ => True) (newEngines .A) (alone calls).1
      (alone calls).2 :=
  Run.replay_run .start (Run.lawful_of_forall (fun _ _ _ => trivial) _ _ _)

theorem direct_kept_relayed : Run.Throughout Direct (alone relayed).1 (alone relayed).2 := by
  refine (direct_kept (alone_run relayed)).1.mpr ⟨⟨?_, ?_, ?_⟩, ⟨?_, ?_, ?_⟩, ⟨?_, ?_, ?_⟩, trivial⟩
  · intro peer endpoint _ ha
    cases ha
  · rintro peer origin ⟨d, packet, hc, -, -, -, -, -, rfl⟩
    cases hc
    decide
  · intro peer relay _ hc
    cases hc
  · intro peer endpoint hd _
    cases hd
  · rintro peer origin ⟨d, packet, hc, -⟩
    cases hc
  · intro peer relay _ hc
    cases hc
  · intro peer endpoint _ ha
    cases ha
  · rintro peer origin ⟨d, packet, hc, -⟩
    cases hc
  · intro peer relay hd _
    cases hd

/-- Whoever is connected to again is reached through the relay, and still counts as direct. -/
theorem reconnected_downgrades :
    Run (engineStep reference) (fun _ _ _ => True) (newEngines .A)
      (alone (relayed ++ [.connect (twoParties.key .B) address])).1
      (alone (relayed ++ [.connect (twoParties.key .B) address])).2 ∧
    (alone relayed).2.hasDirectPath (twoParties.key .B) ∧
    endpointOf (alone relayed).2 (twoParties.key .B) = some address ∧
    (alone (relayed ++ [.connect (twoParties.key .B) address])).2.hasDirectPath
      (twoParties.key .B) ∧
    endpointOf (alone (relayed ++ [.connect (twoParties.key .B) address])).2 (twoParties.key .B) =
      some elsewhere ∧
    (alone (relayed ++ [.connect (twoParties.key .B) address])).2.relay = some elsewhere ∧
    elsewhere ≠ address :=
  ⟨alone_run _, by decide +kernel, by decide +kernel, by decide +kernel, by decide +kernel,
    by decide +kernel, by decide⟩

end OpenMesh.Messaging.Paths
