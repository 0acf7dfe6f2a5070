import OpenMesh.Messaging.Projection

namespace OpenMesh.Messaging.Frames

open OpenMesh.Core.Buffers OpenMesh.Core.Hex OpenMesh.Crypto.Primitives
open OpenMesh.Protocol.Envelope OpenMesh.Net.Transport
open OpenMesh.Storage.Database OpenMesh.Storage.Lookup
open OpenMesh.Messaging.Sessions OpenMesh.Messaging.Operations OpenMesh.Messaging.Sides
open OpenMesh.Messaging.Projection

variable {C : Sodium}

structure SameSessions (e e' : Engine) : Prop where
  localPublic : e'.localPublic = e.localPublic
  localSecret : e'.localSecret = e.localSecret
  sessions : e'.sessions = e.sessions

theorem SameSessions.opened {e e' : Engine} (h : SameSessions e e') (r : Bytes) :
    e'.opened C r = e.opened C r := by
  simp only [Engine.opened, Engine.session, h.sessions, h.localPublic, h.localSecret]

theorem SameSessions.sound {e e' : Engine} (h : SameSessions e e')
    (hsent : ∀ p ∈ e'.socket.sent, p ∈ e.socket.sent ∨ Written C e p.2) (sound : Sound C e) :
    Sound C e' := by
  constructor
  · intro r s hs
    rw [h.localPublic, h.localSecret]
    exact sound.sessions r s (by rw [← hs, Engine.session, Engine.session, h.sessions])
  · intro p hp
    exact ((hsent p hp).elim (sound.wire p) id).congr h.localPublic h.localSecret

structure Keeps (e e' : Engine) : Prop extends SameSessions e e' where
  socket : e'.socket = e.socket

theorem Keeps.trans {e₁ e₂ e₃ : Engine} (h : Keeps e₁ e₂) (h' : Keeps e₂ e₃) : Keeps e₁ e₃ :=
  ⟨⟨h'.localPublic.trans h.localPublic, h'.localSecret.trans h.localSecret,
    h'.sessions.trans h.sessions⟩, h'.socket.trans h.socket⟩

theorem Keeps.sound {e e' : Engine} (h : Keeps e e') (sound : Sound C e) : Sound C e' :=
  h.toSameSessions.sound (fun p hp => .inl (by rwa [h.socket] at hp)) sound

/-- The keys stay, and a sound engine stays sound. -/
structure Keyed (C : Sodium) (e e' : Engine) : Prop where
  localPublic : e'.localPublic = e.localPublic
  localSecret : e'.localSecret = e.localSecret
  sound : Sound C e → Sound C e'

theorem Keyed.trans {e₁ e₂ e₃ : Engine} (h : Keyed C e₁ e₂) (h' : Keyed C e₂ e₃) :
    Keyed C e₁ e₃ :=
  ⟨h'.localPublic.trans h.localPublic, h'.localSecret.trans h.localSecret,
    fun sound => h'.sound (h.sound sound)⟩

theorem Keeps.keyed {e e' : Engine} (h : Keeps e e') : Keyed C e e' :=
  ⟨h.localPublic, h.localSecret, h.sound⟩

theorem keyed_holds {e e' : Engine} {r : Bytes} {s t : Session} (ho : e.opened C r = some s)
    (h : e.Holds r t e') (ht : t.valid = s.valid ∧ t.localPublic = s.localPublic ∧
      t.remotePublic = s.remotePublic ∧ t.sharedKey = s.sharedKey) : Keyed C e e' :=
  ⟨by rw [h.rest], by rw [h.rest], fun sound => sound.holds ho ht h⟩

/-- Nothing happens but on the way to the peers: probes, endpoints, greetings
in the clear. -/
structure Aside (e e' : Engine) : Prop extends SameSessions e e' where
  contacts : e'.contacts = e.contacts
  incomingRequests : e'.incomingRequests = e.incomingRequests
  outgoingRequests : e'.outgoingRequests = e.outgoingRequests
  messageHandler : e'.messageHandler = e.messageHandler
  sent : ∃ hellos, e'.socket.sent = e.socket.sent ++ hellos ∧
    ∀ p ∈ hellos, ∃ destination,
      p.2 = { type := .hello, source := e.localPublic, destination }

theorem Aside.refl (e : Engine) : Aside e e := ⟨⟨rfl, rfl, rfl⟩, rfl, rfl, rfl, rfl, [], by simp⟩

theorem Aside.trans {e₁ e₂ e₃ : Engine} (h : Aside e₁ e₂) (h' : Aside e₂ e₃) : Aside e₁ e₃ := by
  obtain ⟨xs, hxs, hx⟩ := h.sent
  obtain ⟨ys, hys, hy⟩ := h'.sent
  refine ⟨⟨h'.localPublic.trans h.localPublic, h'.localSecret.trans h.localSecret,
    h'.sessions.trans h.sessions⟩, h'.contacts.trans h.contacts,
    h'.incomingRequests.trans h.incomingRequests, h'.outgoingRequests.trans h.outgoingRequests,
    h'.messageHandler.trans h.messageHandler, xs ++ ys, ?_, ?_⟩
  · rw [hys, hxs, List.append_assoc]
  · intro p hp
    obtain hp | hp := List.mem_append.mp hp
    · exact hx p hp
    · rw [← h.localPublic]
      exact hy p hp

theorem Aside.keyed {e e' : Engine} (h : Aside e e') : Keyed C e e' := by
  refine ⟨h.localPublic, h.localSecret, h.toSameSessions.sound fun p hp => ?_⟩
  obtain ⟨hellos, hsent, hhello⟩ := h.sent
  rw [hsent] at hp
  refine (List.mem_append.mp hp).imp id fun hp => ?_
  obtain ⟨destination, hd⟩ := hhello p hp
  rw [hd]
  exact .hello destination

theorem encrypted_of_flags {packet : Packet} (h : packet.flags = kFlagNone) :
    packet.encrypted = false := by
  rw [Packet.encrypted, Packet.hasFlag, h]
  decide

theorem Aside.side {e e' : Engine} (h : Aside e e') (q : Bytes) : side C e' q = side C e q := by
  obtain ⟨hellos, hsent, hclear⟩ := h.sent
  have hletters : lettersTo C (sharedKey C e q) q hellos = [] := by
    apply List.filterMap_eq_nil_iff.mpr
    intro p hp
    obtain ⟨destination, hd⟩ := hclear p hp
    have he : p.2.encrypted = false := encrypted_of_flags (by rw [hd])
    simp [letterOf, he]
  have hopened : e'.opened C q = e.opened C q := by
    simp only [Engine.opened, Engine.session, h.sessions, h.localPublic, h.localSecret]
  have hkey : sharedKey C e' q = sharedKey C e q := by
    rw [sharedKey, h.localSecret]
    rfl
  simp only [Projection.side, sendCounter, Engine.trustOf, h.contacts, h.incomingRequests, h.outgoingRequests,
    h.messageHandler, hopened, hkey, hsent, lettersTo_append, hletters, List.append_nil]

theorem aside_transmit (env : Env) (e : Engine) (dest : Endpoint) (destination : Bytes) :
    Aside e (e.transmit env dest
      { type := .hello, source := e.localPublic, destination := destination }).1 := by
  refine ⟨⟨rfl, rfl, rfl⟩, rfl, rfl, rfl, rfl, ?_⟩
  obtain h | h :=
    Engine.sendTo_sent e.socket env.takes dest
      { type := .hello, source := e.localPublic, destination := destination }
  · exact ⟨[], by simp [Engine.transmit, h]⟩
  · exact ⟨[(dest, { type := .hello, source := e.localPublic, destination := destination })],
      by simp [Engine.transmit, h]⟩

theorem aside_paths (e : Engine) (endpoints : Table Endpoint) (probes : Table Probe) :
    Aside e { e with endpoints, probes } := ⟨⟨rfl, rfl, rfl⟩, rfl, rfl, rfl, rfl, [], by simp⟩

theorem aside_sendProbe (env : Env) (e : Engine) (peer : Bytes) (dest : Endpoint) :
    Aside e (e.sendProbe env peer dest) := aside_transmit env e dest peer

theorem aside_punches (env : Env) (peer : Bytes) : Engine.Punches env peer Aside where
  refl := .refl
  trans h h' := h.trans h'
  endpoint e _ := aside_paths e _ _
  probe e _ := aside_paths e _ _
  sendProbe e dest := aside_sendProbe env e peer dest

theorem aside_tickProbe (env : Env) (e : Engine) (key : Bytes) :
    Aside e (e.tickProbe env key) := by
  unfold Engine.tickProbe
  split
  · exact .refl e
  · split_ifs
    · exact .refl e
    · exact (aside_sendProbe env e _ _).trans (aside_paths _ _ _)
    · exact .refl e

theorem aside_tick (env : Env) (e : Engine) : Aside e (e.tick env) :=
  Engine.tick_rel .refl .trans (aside_tickProbe env) e

end OpenMesh.Messaging.Frames
