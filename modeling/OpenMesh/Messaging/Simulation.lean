import OpenMesh.Messaging.Handling

namespace OpenMesh.Messaging.Simulation

open OpenMesh.Core.Buffers OpenMesh.Core.Hex OpenMesh.Crypto.Primitives
open OpenMesh.Protocol.Envelope OpenMesh.Net.Transport
open OpenMesh.Storage.Database OpenMesh.Storage.Lookup
open OpenMesh.Messaging.Sessions OpenMesh.Messaging.Operations OpenMesh.Messaging.Sides
open OpenMesh.Messaging.Projection OpenMesh.Messaging.Frames OpenMesh.Messaging.Handling

variable {C : Sodium}

theorem side_ensured {e e' : Engine} {r : Bytes} {s : Session} (ho : e.opened C r = some s)
    (hh : e.Holds r s e') (q : Bytes) : side C e' q = side C e q := by
  rw [side_holds hh]
  split
  · next hq =>
    subst hq
    simp [side, sendCounter, ho]
  · rfl

theorem keyed_sealAndSend (env : Env) {e : Engine} {r : Bytes} {s : Session}
    (ho : e.opened C r = some s) (type : PacketType) (text : Bytes)
    (ht : type ≠ .hello ∧ type ≠ .connect) :
    Keyed C e (e.sealAndSend C env r s type text).1 := by
  rw [Engine.sealAndSend_eq]
  refine ⟨rfl, rfl, fun sound => ?_⟩
  obtain ⟨hv, hl, hr, hk⟩ := sound.opened ho
  let t := { s with sendCounter := s.sendCounter + 1 }
  let e₁ := { e with sessions := e.sessions.insert (toHex r) t }
  have sound₁ : Sound C e₁ := sound.holds (t := t) ho ⟨rfl, rfl, rfl, rfl⟩ (.insert e r t)
  refine SameSessions.sound (e := e₁) ⟨rfl, rfl, rfl⟩ (fun p hp => ?_) sound₁
  obtain h | ⟨dest, h⟩ := e.post_sent env (toHex r) (Engine.sealedPacket C env s type text)
  · rw [h] at hp
    exact .inl hp
  · rw [h] at hp
    refine (List.mem_append.mp hp).imp id fun hp => ?_
    obtain rfl := List.mem_singleton.mp hp
    exact .sealed env s type text hv hl (hr ▸ hk) ht

theorem side_addPeer {e : Engine} (r : Bytes) (endpoint : Endpoint) (q : Bytes) :
    side C (e.addPeer C r endpoint).1 q =
      if q = r ∧ (e.opened C r).isSome then (side C e q).act .add else side C e q := by
  unfold Engine.addPeer
  cases hs : e.ensureSession C r with
  | none => simp [Engine.ensureSession_eq_none hs]
  | some p =>
    obtain ⟨e', s⟩ := p
    obtain ⟨ho, hh⟩ := Engine.ensureSession_eq_some hs
    have h := side_setTrust (C := C)
      { e' with endpoints := e'.endpoints.insert (toHex r) endpoint } r .accepted q
    rw [(aside_paths e' (e'.endpoints.insert (toHex r) endpoint) e'.probes).side, side_ensured ho hh] at h
    refine h.trans ?_
    simp [ho, Side.act]

theorem side_sendContactRequest {e : Engine} (sound : Sound C e) (env : Env) (r : Bytes)
    (endpoint : Endpoint) (greeting q : Bytes) :
    side C (e.sendContactRequest C env r endpoint greeting).1 q =
      if q = r ∧ (e.opened C r).isSome ∧ e.trustOf r ≠ some .accepted then
        (side C e q).act (.ask greeting (e.sendContactRequest C env r endpoint greeting).2)
      else side C e q := by
  unfold Engine.sendContactRequest
  by_cases ht : e.trustOf r = some .accepted
  · simp [ht]
  rw [if_neg ht]
  cases hs : e.ensureSession C r with
  | none => simp [Engine.ensureSession_eq_none hs]
  | some p =>
    obtain ⟨e', s⟩ := p
    obtain ⟨ho, hh⟩ := Engine.ensureSession_eq_some hs
    let e₁ := { e' with
      endpoints := e'.endpoints.insert (toHex r) endpoint
      outgoingRequests := insert (toHex r) e'.outgoingRequests }
    let e₂ := e₁.setTrust r .pending
    have hk : Keeps e' e₂ := ⟨⟨rfl, rfl, rfl⟩, rfl⟩
    have ho' : e₂.opened C r = some s := by
      rw [hk.opened, opened_holds hh, if_pos rfl]
    have sound' : Sound C e₂ := hk.sound (sound.holds ho ⟨rfl, rfl, rfl, rfl⟩ hh)
    have h₁ : side C e₁ q =
        { side C e q with outgoing := decide (toHex q ∈ e₁.outgoingRequests) } := by
      rw [← side_ensured ho hh]
      rfl
    have hout : e'.outgoingRequests = e.outgoingRequests := by rw [hh.rest]
    change side C (e₂.sealAndSend C env r s .contactRequest greeting).1 q = if _ then
      (side C e q).act (.ask greeting (e₂.sealAndSend C env r s .contactRequest greeting).2) else _
    rw [side_sealAndSend _ sound' ho', side_setTrust, h₁]
    by_cases hq : q = r
    · subst hq
      simp [ho, ht, Side.act, e₁]
    · simp [hq, e₁, hout, side]

theorem side_answerContact {e : Engine} (sound : Sound C e) (env : Env) (r : Bytes)
    (accept : Bool) (q : Bytes) :
    side C (e.answerContact C env r (verdict accept) (if accept then kAccept else kReject)).1 q =
      if q = r ∧ (e.opened C r).isSome ∧ toHex r ∈ e.incomingRequests then
        (side C e q).act (.answer accept
          (e.answerContact C env r (verdict accept) (if accept then kAccept else kReject)).2)
      else side C e q := by
  unfold Engine.answerContact
  by_cases hin : toHex r ∈ e.incomingRequests
  swap
  · simp [hin]
  simp only [hin, not_true_eq_false, ↓reduceIte]
  cases hs : e.ensureSession C r with
  | none => simp [Engine.ensureSession_eq_none hs]
  | some p =>
    obtain ⟨e', s⟩ := p
    obtain ⟨ho, hh⟩ := Engine.ensureSession_eq_some hs
    let e₁ := { e' with
      incomingRequests := e'.incomingRequests.erase (toHex r)
      contacts := e'.contacts.removeRequest r }
    let e₂ := e₁.setTrust r (verdict accept)
    have hk : Keeps e' e₂ := ⟨⟨rfl, rfl, rfl⟩, rfl⟩
    have ho' : e₂.opened C r = some s := by
      rw [hk.opened, opened_holds hh, if_pos rfl]
    have sound' : Sound C e₂ := hk.sound (sound.holds ho ⟨rfl, rfl, rfl, rfl⟩ hh)
    change side C (e₂.sealAndSend C env r s .contactResponse (decision accept)).1 q = if _ then
      (side C e q).act (.answer accept
        (e₂.sealAndSend C env r s .contactResponse (decision accept)).2) else _
    rw [side_sealAndSend _ sound' ho', side_setTrust, side_removeRequest, side_ensured ho hh]
    by_cases hq : q = r
    · subst hq
      simp [ho, Side.act]
    · simp [hq]

theorem side_send {e : Engine} (sound : Sound C e) (env : Env) (r text q : Bytes) :
    side C (e.send C env r text).1 q =
      if q = r ∧ (e.opened C r).isSome ∧ e.trustOf r = some .accepted then
        (side C e q).act (.tell text (e.send C env r text).2)
      else side C e q := by
  unfold Engine.send
  by_cases ht : e.trustOf r = some .accepted
  swap
  · simp [ht]
  simp only [ht, ne_eq, not_true_eq_false, ↓reduceIte]
  cases hs : e.ensureSession C r with
  | none => simp [Engine.ensureSession_eq_none hs]
  | some p =>
    obtain ⟨e', s⟩ := p
    obtain ⟨ho, hh⟩ := Engine.ensureSession_eq_some hs
    have ho' : e'.opened C r = some s := by rw [opened_holds hh, if_pos rfl]
    have sound' : Sound C e' := sound.holds ho ⟨rfl, rfl, rfl, rfl⟩ hh
    have h := side_sealAndSend env sound' ho' .message text q
    rw [side_ensured ho hh] at h
    dsimp only
    cases hr : e'.sealAndSend C env r s .message text with
    | mk e₂ b =>
      rw [hr] at h
      cases b with
      | false =>
        dsimp only
        rw [h]
        by_cases hq : q = r <;> simp [hq, ho, Side.act]
      | true =>
        dsimp only
        rw [side_contacts, Store.appendMessage_trustOf, Store.appendMessage_requests,
          Store.appendMessage_messages, received_append, said_append]
        have he₂ : { side C e₂ q with
            trust := e₂.contacts.trustOf q
            listed := e₂.contacts.requests.any (·.peer = q)
            inbox := received e₂.contacts.messages q ++ received [⟨r, text, true, env.nowSeconds⟩] q
            outbox := said e₂.contacts.messages q ++ said [⟨r, text, true, env.nowSeconds⟩] q } =
            { side C e₂ q with
              inbox := (side C e₂ q).inbox ++ received [⟨r, text, true, env.nowSeconds⟩] q
              outbox := (side C e₂ q).outbox ++ said [⟨r, text, true, env.nowSeconds⟩] q } := rfl
        rw [he₂, h]
        by_cases hq : q = r
        · subst hq
          simp [ho, Side.act, Side.post, received, said]
        · simp [hq, Ne.symm hq, received, said]

theorem keyed_ensured {e e' e₂ : Engine} {r : Bytes} {s : Session}
    (h : e.ensureSession C r = some (e', s)) (hk : Keyed C e' e₂) : Keyed C e e₂ := by
  obtain ⟨ho, hh⟩ := Engine.ensureSession_eq_some h
  exact (keyed_holds ho hh ⟨rfl, rfl, rfl, rfl⟩).trans hk

theorem opened_ensured {e e' e₂ : Engine} {r : Bytes} {s : Session}
    (h : e.ensureSession C r = some (e', s)) (hk : Keeps e' e₂) : e₂.opened C r = some s := by
  rw [hk.opened, opened_holds (Engine.ensureSession_eq_some h).2, if_pos rfl]

theorem keyed_poll (env : Env) (e : Engine) (incoming : Option Datagram) :
    Keyed C e (e.poll C env incoming).1 := by
  have hrefl : Keyed C e e := ⟨rfl, rfl, id⟩
  obtain ⟨-, b, he⟩ | ⟨-, d, packet, -, -, -, -, -, he⟩ | ⟨-, d, packet, -, -, -, he⟩ |
    ⟨-, packet, s, e', ho, hh, -, he⟩ |
    ⟨d, packet, s, s', text, e', -, -, -, ho, hdec, -, hh, he⟩ := Engine.poll_cases C env e incoming
  · rw [he]
    exact hrefl
  · rw [he]
    exact ((aside_punches env packet.source).handleProbe e d.origin).keyed
  · rw [he]
    exact ((aside_punches env packet.source).handleConnect e packet.payload).keyed
  · rw [he]
    exact keyed_holds ho hh ⟨rfl, rfl, rfl, rfl⟩
  · obtain ⟨-, rfl⟩ := Session.decrypt_eq_some_iff.mp hdec
    rw [he]
    exact (keyed_holds ho hh ⟨rfl, rfl, rfl, rfl⟩).trans (keeps_dispatch env e' packet text _).keyed

theorem keyed_answerContact (env : Env) (e : Engine) (r : Bytes) (trust : TrustStatus)
    (b : UInt8) : Keyed C e (e.answerContact C env r trust b).1 := by
  unfold Engine.answerContact
  dsimp only
  split
  · exact ⟨rfl, rfl, id⟩
  · split
    · exact ⟨rfl, rfl, id⟩
    · next e' s hs =>
      refine keyed_ensured hs (Keyed.trans (Keeps.keyed ?_) (keyed_sealAndSend _ ?_ _ _ ⟨nofun, nofun⟩))
      · exact ⟨⟨rfl, rfl, rfl⟩, rfl⟩
      · exact opened_ensured hs ⟨⟨rfl, rfl, rfl⟩, rfl⟩

/-- No entry point changes the keys or spoils a session. -/
theorem keyed_call (env : Env) (e : Engine) (c : Engine.Call) : Keyed C e (e.call C env c).1 := by
  have hrefl : Keyed C e e := ⟨rfl, rfl, id⟩
  cases c with
  | announceTo relay => exact (aside_transmit env e relay []).keyed
  | openStore io path passphrase =>
    simp only [Engine.call, Engine.openStore]
    split <;> exact Keeps.keyed ⟨⟨rfl, rfl, rfl⟩, rfl⟩
  | addPeer r endpoint =>
    simp only [Engine.call, Engine.addPeer]
    split
    · exact hrefl
    · next e' s hs => exact keyed_ensured hs (Keeps.keyed ⟨⟨rfl, rfl, rfl⟩, rfl⟩)
  | setNickname r name => exact Keeps.keyed ⟨⟨rfl, rfl, rfl⟩, rfl⟩
  | sendContactRequest r endpoint greeting =>
    simp only [Engine.call, Engine.sendContactRequest]
    split
    · exact hrefl
    · split
      · exact hrefl
      · next e' s hs =>
        refine keyed_ensured hs (Keyed.trans (Keeps.keyed ?_) (keyed_sealAndSend _ ?_ _ _ ⟨nofun, nofun⟩))
        · exact ⟨⟨rfl, rfl, rfl⟩, rfl⟩
        · exact opened_ensured hs ⟨⟨rfl, rfl, rfl⟩, rfl⟩
  | acceptContact r => exact keyed_answerContact env e r _ _
  | rejectContact r => exact keyed_answerContact env e r _ _
  | send r text =>
    simp only [Engine.call, Engine.send]
    split
    · exact hrefl
    · split
      · exact hrefl
      · next e' s hs =>
        have hk := keyed_ensured hs (keyed_sealAndSend env
          (opened_ensured hs ⟨⟨rfl, rfl, rfl⟩, rfl⟩) .message text ⟨nofun, nofun⟩)
        split
        · next e₂ he => rwa [he] at hk
        · next e₂ he =>
          rw [he] at hk
          exact hk.trans (Keeps.keyed ⟨⟨rfl, rfl, rfl⟩, rfl⟩)
  | setRelay relay => exact Keeps.keyed ⟨⟨rfl, rfl, rfl⟩, rfl⟩
  | connect r candidate => exact ((aside_punches env r).connect e candidate).keyed
  | tick => exact (aside_tick env e).keyed
  | poll incoming => exact keyed_poll env e incoming
  | onMessage => exact Keeps.keyed ⟨⟨rfl, rfl, rfl⟩, rfl⟩
  | onContactRequest => exact Keeps.keyed ⟨⟨rfl, rfl, rfl⟩, rfl⟩
  | onContactResponse => exact Keeps.keyed ⟨⟨rfl, rfl, rfl⟩, rfl⟩

/-- Every call but `open_store` moves the side of each peer by its act. -/
theorem side_call {e : Engine} (sound : Sound C e) (env : Env) (c : Engine.Call)
    (hopen : c.reopens = false) (q : Bytes) :
    side C (e.call C env c).1 q = (side C e q).act (act C env e q c) := by
  cases c with
  | announceTo relay => exact (aside_transmit env e relay []).side q
  | openStore io path passphrase => cases hopen
  | addPeer r endpoint =>
    refine (side_addPeer r endpoint q).trans ?_
    by_cases hq : q = r
    · subst hq
      by_cases ho : (e.opened C q).isSome <;> simp [act, ho, Side.act]
    · simp [act, hq, Ne.symm hq, Side.act]
  | setNickname r name =>
    refine (side_setNickname e r name q).trans ?_
    by_cases hq : q = r
    · simp [act, hq, Side.act]
    · simp [act, hq, Ne.symm hq, Side.act]
  | sendContactRequest r endpoint greeting =>
    refine (side_sendContactRequest sound env r endpoint greeting q).trans ?_
    by_cases hq : q = r
    · subst hq
      by_cases ho : (e.opened C q).isSome <;> by_cases ht : e.trustOf q = some .accepted <;>
        simp [act, ho, ht, Side.act, Engine.call]
    · simp [act, hq, Ne.symm hq, Side.act]
  | acceptContact r =>
    refine (side_answerContact sound env r true q).trans ?_
    by_cases hq : q = r
    · subst hq
      by_cases ho : (e.opened C q).isSome <;> by_cases hi : toHex q ∈ e.incomingRequests <;>
        simp [act, ho, hi, Side.act, Engine.call, Engine.acceptContact, verdict]
    · simp [act, hq, Ne.symm hq, Side.act]
  | rejectContact r =>
    refine (side_answerContact sound env r false q).trans ?_
    by_cases hq : q = r
    · subst hq
      by_cases ho : (e.opened C q).isSome <;> by_cases hi : toHex q ∈ e.incomingRequests <;>
        simp [act, ho, hi, Side.act, Engine.call, Engine.rejectContact, verdict]
    · simp [act, hq, Ne.symm hq, Side.act]
  | send r text =>
    refine (side_send sound env r text q).trans ?_
    by_cases hq : q = r
    · subst hq
      by_cases ho : (e.opened C q).isSome <;> by_cases ht : e.trustOf q = some .accepted <;>
        simp [act, ho, ht, Side.act, Engine.call]
    · simp [act, hq, Ne.symm hq, Side.act]
  | setRelay relay => rfl
  | connect r candidate => exact ((aside_punches env r).connect e candidate).side q
  | tick => exact (aside_tick env e).side q
  | poll incoming => exact side_poll sound env incoming q
  | onMessage => rfl
  | onContactRequest => rfl
  | onContactResponse => rfl

theorem allows_delivery (e : Engine) (q : Bytes) (incoming : Option Datagram) :
    (side C e q).Allows (delivery C e q incoming) := by
  unfold delivery
  split <;> trivial

theorem allows_call (env : Env) (e : Engine) (c : Engine.Call) (q : Bytes) :
    (side C e q).Allows (act C env e q c) := by
  cases c with
  | sendContactRequest r endpoint greeting =>
    simp only [act]
    split
    · next h => exact h.2.2
    · trivial
  | acceptContact r =>
    simp only [act]
    split
    · next h => exact decide_eq_true h.2.2
    · trivial
  | rejectContact r =>
    simp only [act]
    split
    · next h => exact decide_eq_true h.2.2
    · trivial
  | send r text =>
    simp only [act]
    split
    · next h => exact h.2.2
    · trivial
  | addPeer r endpoint =>
    simp only [act]
    split <;> trivial
  | setNickname r name =>
    simp only [act]
    split <;> trivial
  | poll incoming => exact allows_delivery e q incoming
  | _ => trivial

def Behind (C : Sodium) (env : Env) (e : Engine) (q : Bytes) (c : Engine.Call) : Act → Prop
  | .idle => True
  | .listen => c = .onMessage
  | .add => (∃ endpoint, c = .addPeer q endpoint) ∧ (e.opened C q).isSome
  | .name => ∃ name, c = .setNickname q name
  | .ask greeting leaves => (∃ endpoint, c = .sendContactRequest q endpoint greeting) ∧
    (e.opened C q).isSome ∧ e.trustOf q ≠ some .accepted ∧ leaves = (e.call C env c).2
  | .answer accept leaves => c = (if accept then .acceptContact q else .rejectContact q) ∧
    (e.opened C q).isSome ∧ toHex q ∈ e.incomingRequests ∧ leaves = (e.call C env c).2
  | .tell text leaves => c = .send q text ∧ (e.opened C q).isSome ∧
    e.trustOf q = some .accepted ∧ leaves = (e.call C env c).2
  | .deliver l => ∃ incoming, c = .poll incoming ∧ brought C e q incoming = some l

theorem act_call (env : Env) (e : Engine) (q : Bytes) (c : Engine.Call) :
    Behind C env e q c (act C env e q c) := by
  cases c with
  | addPeer r endpoint =>
    simp only [act]
    split
    · next h =>
      obtain ⟨rfl, ho⟩ := h
      exact ⟨⟨endpoint, rfl⟩, ho⟩
    · trivial
  | setNickname r name =>
    simp only [act]
    split
    · next h =>
      subst h
      exact ⟨name, rfl⟩
    · trivial
  | sendContactRequest r endpoint greeting =>
    simp only [act]
    split
    · next h =>
      obtain ⟨rfl, ho, ht⟩ := h
      exact ⟨⟨endpoint, rfl⟩, ho, ht, rfl⟩
    · trivial
  | acceptContact r =>
    simp only [act]
    split
    · next h =>
      obtain ⟨rfl, ho, hi⟩ := h
      exact ⟨rfl, ho, hi, rfl⟩
    · trivial
  | rejectContact r =>
    simp only [act]
    split
    · next h =>
      obtain ⟨rfl, ho, hi⟩ := h
      exact ⟨rfl, ho, hi, rfl⟩
    · trivial
  | send r text =>
    simp only [act]
    split
    · next h =>
      obtain ⟨rfl, ho, ht⟩ := h
      exact ⟨rfl, ho, ht, rfl⟩
    · trivial
  | poll incoming =>
    simp only [act, delivery]
    cases hb : brought C e q incoming with
    | none => trivial
    | some l => exact ⟨incoming, rfl, hb⟩
  | onMessage => rfl
  | _ => trivial

end OpenMesh.Messaging.Simulation
