import OpenMesh.Messaging.Frames

namespace OpenMesh.Messaging.Handling

open OpenMesh.Core.Buffers OpenMesh.Core.Hex OpenMesh.Crypto.Primitives
open OpenMesh.Protocol.Envelope OpenMesh.Net.Transport
open OpenMesh.Storage.Database OpenMesh.Storage.Lookup
open OpenMesh.Messaging.Sessions OpenMesh.Messaging.Operations OpenMesh.Messaging.Sides
open OpenMesh.Messaging.Projection OpenMesh.Messaging.Frames

variable {C : Sodium}

theorem side_handleMessage (env : Env) (e : Engine) (r text q : Bytes) :
    side C (e.handleMessage env r text) q =
      if q = r then (side C e q).message text else side C e q := by
  have hside : side C (e.handleMessage env r text) q = { side C e q with
      trust := (e.contacts.appendMessage ⟨r, text, false, env.nowSeconds⟩).trustOf q
      listed := (e.contacts.appendMessage ⟨r, text, false, env.nowSeconds⟩).requests.any (·.peer = q)
      inbox := received (e.contacts.appendMessage ⟨r, text, false, env.nowSeconds⟩).messages q
      outbox := said (e.contacts.appendMessage ⟨r, text, false, env.nowSeconds⟩).messages q
      listening := (e.messageHandler.call ⟨r, text, false⟩).installed
      handed := handedOver (e.messageHandler.call ⟨r, text, false⟩).calls q } := rfl
  rw [hside, Store.appendMessage_trustOf, Store.appendMessage_messages,
    Store.appendMessage_requests, Handler.call]
  by_cases hq : q = r
  · subst hq
    cases hi : e.messageHandler.installed <;>
      simp [side, Side.message, hi, received, said, handedOver, Engine.trustOf]
  · cases hi : e.messageHandler.installed <;>
      simp [side, hi, received, said, handedOver, Engine.trustOf, hq, Ne.symm hq]

theorem side_handleContactRequest (env : Env) (e : Engine) (r greeting q : Bytes) :
    side C (e.handleContactRequest env r greeting) q =
      if q = r then (side C e q).request else side C e q := by
  unfold Engine.handleContactRequest
  by_cases hknown : (e.trustOf r).isSome ∨ toHex r ∈ e.incomingRequests
  · simp only [hknown, ↓reduceIte]
    by_cases hq : q = r
    · subst hq
      have h : (side C e q).trust.isSome ∨ (side C e q).incoming := by simpa [side] using hknown
      rw [if_pos rfl, Side.request, if_pos h]
    · rw [if_neg hq]
  · simp only [hknown, ↓reduceIte]
    let e₁ := { e with incomingRequests := insert (toHex r) e.incomingRequests }.setTrust r .pending
    let e₂ := if greeting ≠ [] then e₁.setNickname r greeting else e₁
    have h₁ : side C e₁ q = if q = r then
        { side C e q with trust := some .pending, incoming := true } else side C e q := by
      rw [side_setTrust]
      by_cases hq : q = r
      · simp [hq, side, sendCounter, Engine.trustOf, sharedKey, Engine.opened, Engine.session]
      · simp [hq, side, sendCounter, Engine.trustOf, sharedKey, Engine.opened, Engine.session]
    have h₂ : side C e₂ q = side C e₁ q := by
      by_cases hg : greeting = []
      · simp [e₂, hg]
      · simp only [e₂, hg, ne_eq, not_false_eq_true, ↓reduceIte, side_setNickname, h₁]
        by_cases hq : q = r <;> simp [hq]
    let contacts := e₂.contacts.addRequest ⟨r, greeting, env.nowSeconds⟩
    have hside : side C { e₂ with contacts, requestHandler := e₂.requestHandler.call (r, greeting) } q =
        { side C e₂ q with
          trust := contacts.trustOf q
          listed := contacts.requests.any (·.peer = q)
          inbox := received contacts.messages q
          outbox := said contacts.messages q } := rfl
    have hlisted : contacts.requests.any (·.peer = q) =
        (decide (q = r) || e₂.contacts.requests.any (·.peer = q)) := by
      have h := Store.listed_addRequest e₂.contacts ⟨r, greeting, env.nowSeconds⟩ q
      simp only [Store.Listed] at h
      rw [Bool.eq_iff_iff]
      simpa only [Bool.or_eq_true, List.any_eq_true, decide_eq_true_eq, eq_comm (a := q)] using h
    refine hside.trans ?_
    rw [Store.addRequest_trustOf, Store.addRequest_messages, hlisted]
    have hrest : { side C e₂ q with
        trust := e₂.contacts.trustOf q
        listed := (decide (q = r) || e₂.contacts.requests.any (·.peer = q))
        inbox := received e₂.contacts.messages q
        outbox := said e₂.contacts.messages q } =
        { side C e₂ q with listed := decide (q = r) || (side C e₂ q).listed } := rfl
    rw [hrest, h₂, h₁]
    by_cases hq : q = r
    · subst hq
      have h : ¬ ((side C e q).trust.isSome ∨ (side C e q).incoming) := by simpa [side] using hknown
      rw [if_pos rfl, if_pos rfl, Side.request, if_neg h]
      simp
    · simp [hq]

theorem side_handleContactResponse (e : Engine) (r text q : Bytes) :
    side C (e.handleContactResponse r text) q =
      if q = r then (side C e q).response text else side C e q := by
  unfold Engine.handleContactResponse
  by_cases hout : toHex r ∈ e.outgoingRequests
  · simp only [hout, not_true_eq_false, ↓reduceIte]
    let e₁ := { e with outgoingRequests := e.outgoingRequests.erase (toHex r) }
    have h₁ : side C e₁ q = { side C e q with outgoing := decide (toHex q ∈ e₁.outgoingRequests) } := rfl
    change side C (e₁.setTrust r (verdict (saysYes text))) q = _
    rw [side_setTrust, h₁]
    by_cases hq : q = r
    · subst hq
      have h : (side C e q).outgoing := by simpa [side] using hout
      rw [if_pos rfl, if_pos rfl, Side.response, if_pos h]
      simp [e₁]
    · simp [hq, e₁, side]
  · simp only [hout, not_false_eq_true, ↓reduceIte]
    by_cases hq : q = r
    · subst hq
      have h : ¬ (side C e q).outgoing := by simpa [side] using hout
      rw [if_pos rfl, Side.response, if_neg h]
    · rw [if_neg hq]

theorem accepts_eq_some_iff {e : Engine} {incoming : Option Datagram} {packet : Packet}
    {text : Bytes} {s' : Session} :
    e.accepts C incoming = some (packet, text, s') ↔
      (incoming.bind fun d => deserialize (receive d).data) = some packet ∧
        packet.type ≠ .hello ∧ packet.type ≠ .connect ∧
        (packet.type = .message → e.trustOf packet.source = some .accepted) ∧
        ∃ s, e.opened C packet.source = some s ∧ s.decrypt C packet = some (text, s') := by
  unfold Engine.accepts
  cases incoming.bind fun d => deserialize (receive d).data with
  | none => simp
  | some p =>
    simp only [Option.some.injEq]
    split_ifs with h
    · constructor
      · intro hf
        cases hf
      · rintro ⟨rfl, h1, h2, h3, -⟩
        obtain h | h | h := h
        · exact absurd h h1
        · exact absurd h h2
        · exact absurd (h3 h.1) h.2
    · cases ho : e.opened C p.source with
      | none =>
        constructor
        · intro hf
          cases hf
        · rintro ⟨rfl, -, -, -, s, hs, -⟩
          rw [ho] at hs
          cases hs
      | some s =>
        simp only [not_or, not_and, not_not] at h
        simp only [Option.map_eq_some_iff, Prod.mk.injEq, Prod.exists]
        constructor
        · rintro ⟨m, t, hd, rfl, rfl, rfl⟩
          exact ⟨rfl, h.1, h.2.1, h.2.2, s, ho, hd⟩
        · rintro ⟨rfl, -, -, -, t, ht, hd⟩
          rw [ho] at ht
          cases ht
          exact ⟨text, s', hd, rfl, rfl, rfl⟩

/-- The datagrams that `poll` opens are those that bring a letter which gets through. -/
theorem accepts_iff {e : Engine} (sound : Sound C e) {incoming : Option Datagram} {packet : Packet}
    (text : Bytes) {s : Session} (ho : e.opened C packet.source = some s) :
    e.accepts C incoming =
        some (packet, text, { s with haveReceived := true, lastReceived := packet.counter }) ↔
      (incoming.bind fun d => deserialize (receive d).data) = some packet ∧
        brought C e packet.source incoming = some ⟨packet.type, packet.counter, text⟩ ∧
        (side C e packet.source).Takes ⟨packet.type, packet.counter, text⟩ := by
  obtain ⟨hv, hl, hr, hk⟩ := sound.opened ho
  have hmark : (∀ c ∈ (side C e packet.source).mark, c < packet.counter) ↔
      s.Fresh packet.counter := by
    simp only [side, ho, Option.bind_some, mark, Session.Fresh]
    cases s.haveReceived <;> simp
  have htrust : (side C e packet.source).trust = e.trustOf packet.source := rfl
  rw [accepts_eq_some_iff, Side.Takes, hmark, htrust, brought]
  constructor
  · rintro ⟨hp, h1, h2, h3, t, ht, hd⟩
    rw [ho] at ht
    cases ht
    obtain ⟨⟨-, he, -, hdst, hf, hopen⟩, -⟩ := Session.decrypt_eq_some_iff.mp hd
    refine ⟨hp, ?_, h3, hf⟩
    have hcond : packet.type ≠ .hello ∧ packet.type ≠ .connect ∧ packet.source = packet.source ∧
        packet.destination = e.localPublic := ⟨h1, h2, rfl, hdst.trans hl⟩
    rw [hp]
    dsimp only
    rw [if_pos hcond, letterOf, if_pos he, sound.sharedKey ho, hopen]
    rfl
  · rintro ⟨hp, hb, h3, hf⟩
    rw [hp] at hb
    simp only at hb
    split_ifs at hb with hcond
    rw [letterOf, sound.sharedKey ho] at hb
    split_ifs at hb with he
    obtain ⟨m, hm, heq⟩ := Option.map_eq_some_iff.mp hb
    cases heq
    refine ⟨hp, hcond.1, hcond.2.1, h3, s, ho, Session.decrypt_eq_some_iff.mpr ?_⟩
    exact ⟨⟨hv, he, hr.symm, hcond.2.2.2.trans hl.symm, hf, hm⟩, rfl⟩

theorem side_dispatch (env : Env) (e : Engine) (packet : Packet) (text : Bytes) (origin : Endpoint)
    (q : Bytes) :
    side C (e.dispatch env packet text origin).1 q =
      if q = packet.source then
        match packet.type with
        | .message => (side C e q).message text
        | .contactRequest => (side C e q).request
        | .contactResponse => (side C e q).response text
        | _ => side C e q
      else side C e q := by
  let e₁ := if e.hasDirectPath packet.source then e
    else { e with endpoints := e.endpoints.insert (toHex packet.source) origin }
  have h₁ : side C e₁ q = side C e q := by
    simp only [e₁]
    split <;> rfl
  rw [← h₁]
  unfold Engine.dispatch
  cases packet.type with
  | message => exact side_handleMessage env e₁ packet.source text q
  | contactRequest => exact side_handleContactRequest env e₁ packet.source text q
  | contactResponse => exact side_handleContactResponse e₁ packet.source text q
  | _ => exact (ite_self _).symm

theorem keeps_dispatch (env : Env) (e : Engine) (packet : Packet) (text : Bytes)
    (origin : Endpoint) : Keeps e (e.dispatch env packet text origin).1 := by
  let e₁ := if e.hasDirectPath packet.source then e
    else { e with endpoints := e.endpoints.insert (toHex packet.source) origin }
  have h₁ : Keeps e e₁ := by
    simp only [e₁]
    split <;> exact ⟨⟨rfl, rfl, rfl⟩, rfl⟩
  have h₂ : Keeps e₁ (e.dispatch env packet text origin).1 := by
    unfold Engine.dispatch
    cases packet.type with
    | message => exact ⟨⟨rfl, rfl, rfl⟩, rfl⟩
    | contactRequest =>
      change Keeps e₁ (e₁.handleContactRequest env packet.source text)
      unfold Engine.handleContactRequest
      dsimp only
      split_ifs <;> exact ⟨⟨rfl, rfl, rfl⟩, rfl⟩
    | contactResponse =>
      change Keeps e₁ (e₁.handleContactResponse packet.source text)
      unfold Engine.handleContactResponse
      dsimp only
      split_ifs <;> exact ⟨⟨rfl, rfl, rfl⟩, rfl⟩
    | _ => exact ⟨⟨rfl, rfl, rfl⟩, rfl⟩
  exact h₁.trans h₂

theorem brought_eq_some_iff {e : Engine} {q : Bytes} {incoming : Option Datagram} {l : Letter} :
    brought C e q incoming = some l ↔
      ∃ packet, (incoming.bind fun d => deserialize (receive d).data) = some packet ∧
        packet.type ≠ .hello ∧ packet.type ≠ .connect ∧ packet.source = q ∧
        packet.destination = e.localPublic ∧ letterOf C (sharedKey C e q) packet = some l := by
  unfold brought
  cases incoming.bind fun d => deserialize (receive d).data with
  | none => simp
  | some p =>
    simp only [Option.some.injEq, exists_eq_left']
    split_ifs with h
    · exact ⟨fun hl => ⟨h.1, h.2.1, h.2.2.1, h.2.2.2, hl⟩, fun hl => hl.2.2.2.2⟩
    · exact ⟨nofun, fun hl => absurd ⟨hl.1, hl.2.1, hl.2.2.1, hl.2.2.2.1⟩ h⟩

theorem letterOf_eq_some_iff {key : Bytes} {packet : Packet} {l : Letter} :
    letterOf C key packet = some l ↔ packet.encrypted ∧ packet.type = l.type ∧
      packet.counter = l.counter ∧
      aeadOpen C key packet.payload (associatedData packet) = some l.text := by
  obtain ⟨type, counter, text⟩ := l
  unfold letterOf
  split_ifs with he
  · simp only [he, Option.map_eq_some_iff, Letter.mk.injEq, true_and]
    constructor
    · rintro ⟨m, hm, rfl, rfl, rfl⟩
      exact ⟨rfl, rfl, hm⟩
    · rintro ⟨rfl, rfl, hm⟩
      exact ⟨text, hm, rfl, rfl, rfl⟩
  · simp [he]

theorem delivery_of_accepts_none {e : Engine} (sound : Sound C e) {incoming : Option Datagram}
    (h : e.accepts C incoming = none) (q : Bytes) :
    (side C e q).act (delivery C e q incoming) = side C e q := by
  unfold delivery
  cases hb : brought C e q incoming with
  | none => rfl
  | some l =>
    refine if_neg fun ht => ?_
    obtain ⟨packet, hp, -, -, rfl, -, hl⟩ := brought_eq_some_iff.mp hb
    obtain ⟨s, hs⟩ := letterOf_opened hl
    obtain ⟨-, hty, hc, -⟩ := letterOf_eq_some_iff.mp hl
    have ha := (accepts_iff sound l.text hs).mpr
      ⟨hp, by rw [hb, hty, hc], by rwa [hty, hc]⟩
    rw [h] at ha
    cases ha

theorem delivery_of_other {e : Engine} {incoming : Option Datagram} {packet : Packet} {q : Bytes}
    (hp : (incoming.bind fun d => deserialize (receive d).data) = some packet)
    (hq : q ≠ packet.source) : delivery C e q incoming = .idle := by
  unfold delivery
  cases hb : brought C e q incoming with
  | none => rfl
  | some l =>
    obtain ⟨p, hp', -, -, rfl, -⟩ := brought_eq_some_iff.mp hb
    rw [hp] at hp'
    cases hp'
    exact absurd rfl hq

theorem side_poll {e : Engine} (sound : Sound C e) (env : Env) (incoming : Option Datagram)
    (q : Bytes) : side C (e.poll C env incoming).1 q =
      (side C e q).act (delivery C e q incoming) := by
  obtain ⟨h, b, he⟩ | ⟨h, d, packet, -, -, -, -, -, he⟩ | ⟨h, d, packet, -, -, -, he⟩ |
    ⟨h, packet, s, e', ho, hh, -, he⟩ |
    ⟨d, packet, s, s', text, e', h, hd, hp, ho, hdec, hgate, hh, he⟩ :=
      Engine.poll_cases C env e incoming
  · rw [he, delivery_of_accepts_none sound h]
  · rw [he, delivery_of_accepts_none sound h]
    exact ((aside_punches env packet.source).handleProbe e d.origin).side q
  · rw [he, delivery_of_accepts_none sound h]
    exact ((aside_punches env packet.source).handleConnect e packet.payload).side q
  · rw [he, delivery_of_accepts_none sound h, side_holds hh]
    split
    · next hq =>
      subst hq
      simp [side, sendCounter, ho]
    · rfl
  · obtain ⟨-, rfl⟩ := Session.decrypt_eq_some_iff.mp hdec
    obtain ⟨hp, hb, ht⟩ := (accepts_iff sound _ ho).mp h
    rw [he, side_dispatch]
    by_cases hq : q = packet.source
    · subst hq
      have hside : side C e' packet.source =
          { side C e packet.source with mark := some packet.counter } := by
        rw [side_holds hh, if_pos rfl]
        simp [side, sendCounter, ho, mark]
      rw [if_pos rfl, hside, delivery, hb]
      exact (if_pos ht).symm
    · rw [if_neg hq, delivery_of_other hp hq, side_holds hh, if_neg hq]
      rfl

end OpenMesh.Messaging.Handling
