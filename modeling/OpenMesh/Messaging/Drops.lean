import OpenMesh.Messaging.Lifetimes

namespace OpenMesh.Messaging.Drops

open OpenMesh.Core.Buffers OpenMesh.Core.Hex OpenMesh.Crypto.Primitives
open OpenMesh.Crypto.Reference OpenMesh.Protocol.Envelope OpenMesh.Protocol.EnvelopeCodec
open OpenMesh.Net.Transport OpenMesh.Storage.Database
open OpenMesh.Messaging.Sessions OpenMesh.Messaging.Operations OpenMesh.Messaging.Routes
open OpenMesh.Messaging.Pairs

def mark (s : Session) : Bool × UInt64 := (s.haveReceived, s.lastReceived)

/-- Nothing that the engine shows has changed, nor where it sends to, nor what it takes for a
replay. -/
structure Quiet (e e' : Engine) : Prop where
  knows : ∀ peer, e'.knowsPeer peer = e.knowsPeer peer
  trust : ∀ peer, e'.trustOf peer = e.trustOf peer
  contacts : e'.contacts.contacts = e.contacts.contacts
  conversation : ∀ peer, e'.contacts.conversation peer = e.contacts.conversation peer
  requests : e'.pendingRequests = e.pendingRequests
  direct : ∀ peer, e'.hasDirectPath peer = e.hasDirectPath peer
  endpoints : ∀ peer, endpointOf e' peer = endpointOf e peer
  relay : e'.relay = e.relay
  marks : ∀ peer, (e'.session peer).map mark = (e.session peer).map mark

/-- The packet that `poll` hands to a session. -/
def reaching (e : Engine) (incoming : Option Datagram) : Option Packet :=
  match incoming.bind fun d => deserialize (receive d).data with
  | none => none
  | some packet =>
    if packet.type = .hello ∨ packet.type = .connect ∨
        packet.type = .message ∧ e.trustOf packet.source ≠ some .accepted then none
    else some packet

def Handled (type : PacketType) : Prop :=
  type = .message ∨ type = .contactRequest ∨ type = .contactResponse

instance : DecidablePred Handled := fun _ => inferInstanceAs (Decidable (_ ∨ _ ∨ _))

/-- A packet that opens is of a type that is handled, and one that does not is for a session
that is there already. -/
def Harmless (C : Sodium) (e : Engine) (incoming : Option Datagram) : Prop :=
  ∀ packet ∈ reaching e incoming, ∀ s ∈ e.opened C packet.source,
    if (s.decrypt C packet).isSome then Handled packet.type else e.knowsPeer packet.source = true

variable {C : Sodium} {env : Env} {e : Engine}

theorem Quiet.refl (e : Engine) : Quiet e e :=
  ⟨fun _ => rfl, fun _ => rfl, rfl, fun _ => rfl, rfl, fun _ => rfl, fun _ => rfl, rfl, fun _ => rfl⟩

/-- What never comes to a session has no effect, unless it is handled. -/
theorem poll_stopped (env : Env) {incoming : Option Datagram} (h : reaching e incoming = none)
    (hdropped : (e.poll C env incoming).2 = false) : (e.poll C env incoming).1 = e := by
  cases incoming with
  | none => rfl
  | some d =>
    unfold Engine.poll at hdropped ⊢
    rw [Option.map_some] at hdropped ⊢
    cases hp : deserialize (receive d).data with
    | none => simp only [hp]
    | some packet =>
      simp only [hp] at hdropped ⊢
      simp only [reaching, Option.bind_some, hp, ite_eq_left_iff, reduceCtorEq, imp_false,
        not_not] at h
      split_ifs at hdropped ⊢ with hhello hconnect hgate
      · rfl
      · exact absurd h (by tauto)

theorem poll_reaching (env : Env) {incoming : Option Datagram} {packet : Packet}
    (h : reaching e incoming = some packet) : ∃ origin, e.poll C env incoming =
      match e.ensureSession C packet.source with
      | none => (e, false)
      | some (e', s) => match s.decrypt C packet with
        | none => (e', false)
        | some (text, s') =>
          { e' with sessions := e'.sessions.insert (toHex packet.source) s' }.dispatch env packet
            text origin := by
  cases incoming with
  | none => cases h
  | some d =>
    refine ⟨d.origin, ?_⟩
    cases hp : deserialize (receive d).data with
    | none => simp [reaching, hp] at h
    | some packet' =>
      simp only [reaching, Option.bind_some, hp, Option.ite_none_left_eq_some, not_or,
        Option.some.injEq] at h
      obtain ⟨⟨hhello, hconnect, hgate⟩, rfl⟩ := h
      simp only [Engine.poll, Option.map_some, hp, hhello, hconnect, hgate, ↓reduceIte]
      rfl

theorem dispatch_handled (env : Env) (e : Engine) (packet : Packet) (text : Bytes)
    (origin : Endpoint) : (e.dispatch env packet text origin).2 = true ↔ Handled packet.type := by
  unfold Engine.dispatch Handled
  cases packet.type <;> simp

theorem dispatch_session (env : Env) (e : Engine) {packet : Packet} (text : Bytes)
    (origin : Endpoint) (h : ¬ Handled packet.type) (peer : Bytes) :
    (e.dispatch env packet text origin).1.session peer = e.session peer := by
  have hsessions : (e.dispatch env packet text origin).1.sessions = e.sessions := by
    unfold Engine.dispatch
    unfold Handled at h
    cases htype : packet.type <;> simp_all <;> split <;> rfl
  rw [Engine.session, hsessions, Engine.session]

theorem decrypt_mark {s s' : Session} {packet : Packet} {text : Bytes}
    (h : s.decrypt C packet = some (text, s')) : mark s' ≠ mark s := by
  obtain ⟨⟨-, -, -, -, hfresh, -⟩, rfl⟩ := Session.decrypt_eq_some_iff.mp h
  intro hmark
  obtain ⟨hreceived, hcounter⟩ := Prod.mk.inj hmark
  have hlt := hfresh hreceived.symm
  rw [show packet.counter = s.lastReceived from hcounter] at hlt
  exact UInt64.lt_irrefl _ hlt

theorem Quiet.sessions {sessions : Table Session}
    (h : ∀ peer, sessions.lookup (toHex peer) = e.session peer) : Quiet e { e with sessions } :=
  ⟨fun peer => congrArg Option.isSome (h peer), fun _ => rfl, rfl, fun _ => rfl, rfl, fun _ => rfl,
    fun _ => rfl, rfl, fun peer => congrArg _ (h peer)⟩

theorem Quiet.known {e' : Engine} {peer : Bytes} {s : Session} (h : e.Holds peer s e')
    (hs : e.session peer = some s) : Quiet e e' := by
  have hsession : ∀ q, e'.session q = e.session q := by
    intro q
    by_cases hq : q = peer
    · rw [hq, h.here, hs]
    · exact h.elsewhere q hq
  rw [h.rest]
  exact .sessions hsession

/-- A packet that is dropped has no effect, exactly if it opens no session and passes none. -/
theorem dropped_quiet (C : Sodium) (env : Env) (e : Engine) (incoming : Option Datagram) :
    ((e.poll C env incoming).2 = false → Quiet e (e.poll C env incoming).1) ↔
      Harmless C e incoming := by
  cases hreach : reaching e incoming with
  | none =>
    refine iff_of_true (fun hdropped => ?_) fun packet hpacket => ?_
    · rw [poll_stopped env hreach hdropped]
      exact .refl e
    · rw [hreach] at hpacket
      cases hpacket
  | some packet =>
    obtain ⟨origin, hpoll⟩ := poll_reaching (C := C) env hreach
    have hharmless : Harmless C e incoming ↔ ∀ s ∈ e.opened C packet.source,
        if (s.decrypt C packet).isSome then Handled packet.type
        else e.knowsPeer packet.source = true := by
      simp only [Harmless, hreach, Option.mem_some_iff, forall_eq']
    rw [hpoll, hharmless]
    cases hs : e.ensureSession C packet.source with
    | none =>
      rw [Engine.ensureSession_eq_none hs]
      exact iff_of_true (fun _ => .refl e) nofun
    | some p =>
      obtain ⟨e', s⟩ := p
      obtain ⟨ho, hh⟩ := Engine.ensureSession_eq_some hs
      simp only [ho, Option.mem_some_iff, forall_eq']
      cases hdec : s.decrypt C packet with
      | none =>
        simp only [Option.isSome_none, Bool.false_eq_true, ↓reduceIte, forall_const]
        constructor
        · intro quiet
          rw [← quiet.knows, Engine.knowsPeer, ← Engine.session, hh.here, Option.isSome_some]
        · intro hknown
          obtain ⟨t, ht⟩ := Option.isSome_iff_exists.mp hknown
          have hts : e.opened C packet.source = some t := by
            rw [Engine.opened, show e.session packet.source = some t from ht]
          obtain rfl := Option.some.inj (ho.symm.trans hts)
          exact .known hh ht
      | some p =>
        obtain ⟨text, s'⟩ := p
        simp only [Option.isSome_some, ↓reduceIte]
        have hput := hh.put s'
        constructor
        · intro hdropped
          by_contra hhandled
          have hmark := (hdropped (by
            simpa using mt (dispatch_handled env _ packet text origin).mp hhandled)).marks
              packet.source
          rw [dispatch_session env _ text origin hhandled, hput.here, Option.map_some] at hmark
          cases ht : e.session packet.source with
          | none =>
            rw [ht] at hmark
            cases hmark
          | some t =>
            have hts : e.opened C packet.source = some t := by rw [Engine.opened, ht]
            obtain rfl := Option.some.inj (ho.symm.trans hts)
            rw [ht] at hmark
            exact decrypt_mark hdec (Option.some.inj hmark)
        · intro hhandled hfalse
          rw [(dispatch_handled env _ packet text origin).mpr hhandled] at hfalse
          cases hfalse

def forged : Datagram := ⟨address, serialize
  { type := .contactRequest, source := twoParties.key .B, destination := twoParties.key .A }⟩

theorem dropped_known :
    ((newEngines .A).poll reference clock (some forged)).2 = false ∧
    (newEngines .A).knowsPeer (twoParties.key .B) = false ∧
    ((newEngines .A).poll reference clock (some forged)).1.knowsPeer (twoParties.key .B) = true ∧
    ¬ Quiet (newEngines .A) ((newEngines .A).poll reference clock (some forged)).1 := by
  have hknows : (newEngines .A).knowsPeer (twoParties.key .B) = false ∧
      ((newEngines .A).poll reference clock (some forged)).1.knowsPeer (twoParties.key .B) =
        true := by decide +kernel
  refine ⟨by decide +kernel, hknows.1, hknows.2, fun quiet => ?_⟩
  rw [quiet.knows, hknows.1] at hknows
  cases hknows.2

end OpenMesh.Messaging.Drops
