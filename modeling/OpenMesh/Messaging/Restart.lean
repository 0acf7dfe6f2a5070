import OpenMesh.Messaging.Consent

namespace OpenMesh.Messaging.Restart

open OpenMesh.Core.Buffers OpenMesh.Core.Hex OpenMesh.Crypto.Primitives
open OpenMesh.Crypto.Reference OpenMesh.Library.Runs
open OpenMesh.Protocol.Envelope OpenMesh.Protocol.EnvelopeCodec OpenMesh.Net.Transport
open OpenMesh.Storage.Blob OpenMesh.Storage.Database OpenMesh.Messaging.Sessions
open OpenMesh.Messaging.Operations OpenMesh.Messaging.Sides OpenMesh.Messaging.Projection
open OpenMesh.Messaging.Handling OpenMesh.Messaging.Simulation OpenMesh.Messaging.Pairs
open OpenMesh.Messaging.Routes OpenMesh.Messaging.Handshake

/-- A call, or the end of the engine and a new one with the same identity that
opens a store. -/
inductive Turn where
  | call (env : Env) (c : Engine.Call)
  | restart (io : OpenIO) (path passphrase : Bytes)

def Turn.restarts : Turn → Bool
  | .call _ _ => false
  | .restart _ _ _ => true

variable (C : Sodium)

def turn (e : Engine) : Turn → Engine
  | .call env c => engineStep C e (env, c)
  | .restart io path passphrase =>
    ((Engine.new e.localPublic e.localSecret).openStore C io path passphrase).1

/-- The file of a store, once its last write is through. -/
def onDisk (nonce : Nonce) (s : Store) : Option Bytes :=
  s.writes.getLast?.bind fun w =>
    sealedFile C nonce OpenMesh.Storage.Database.kMagic w.salt w.key w.payload

/-- A restart finds what the store has written, and nothing else opens a store. -/
def Persisted (e : Engine) : Turn → Prop
  | .call _ c => c.reopens = false
  | .restart io path _ => path = e.contacts.path ∧ io.pathExists ∧
    ∃ nonce, io.content = onDisk C nonce e.contacts

def Polls (peer : Bytes) (packet : Packet) (t : Turn) : Prop :=
  ∃ env c, t = .call env c ∧ packet ∈ arrival c ∧ packet.source = peer ∧ packet.type = .message

/-- The message is appended to the conversation, or handed over. -/
def TakesIn (peer : Bytes) (packet : Packet) (m : Engine × Turn) : Prop :=
  Polls peer packet m.2 ∧
    (received (turn C m.1 m.2).contacts.messages peer ≠ received m.1.contacts.messages peer ∨
      handedOver (turn C m.1 m.2).messageHandler.calls peer ≠
        handedOver m.1.messageHandler.calls peer)

/-- The message was taken in before a restart. -/
def Stale (peer : Bytes) (packet : Packet) : History Engine Turn → Prop
  | [] => False
  | m :: h => (m.2.restarts ∧ ∃ m' ∈ h, TakesIn C peer packet m') ∨ Stale peer packet h

/-- A message that was taken in before a restart is polled again only when the
new session has seen as high a counter. -/
def Guarded (peer : Bytes) (h : History Engine Turn) (e : Engine) (t : Turn) : Prop :=
  ∀ packet, Polls peer packet t → Stale C peer packet h →
    ∃ c ∈ (e.opened C peer).bind mark, packet.counter ≤ c

variable {C}

theorem sound_turn {e : Engine} (sound : Sound C e) (t : Turn) : Sound C (turn C e t) := by
  cases t with
  | call env c => exact (keyed_call env e c).sound sound
  | restart io path passphrase =>
    have hnew : Sound C (Engine.new e.localPublic e.localSecret) :=
      ⟨fun peer s hs => by simp [Engine.session, Engine.new] at hs, by simp [Engine.new]⟩
    exact (keyed_call clock _ (.openStore io path passphrase)).sound hnew

theorem takesIn_letter {e : Engine} (sound : Sound C e) {env : Env} {c : Engine.Call}
    {peer : Bytes} {packet : Packet} (h : TakesIn C peer packet (e, .call env c)) :
    ∃ l, act C env e peer c = .deliver l ∧ (side C e peer).Takes l ∧ l.counter = packet.counter := by
  obtain ⟨⟨_, _, heq, hp, hsource, hty⟩, heffect⟩ := h
  cases heq
  obtain ⟨incoming, rfl⟩ : ∃ incoming, c = .poll incoming := by
    cases c with
    | poll incoming => exact ⟨incoming, rfl⟩
    | _ => cases hp
  have hside : side C (turn C e (.call env (.poll incoming))) peer =
      (side C e peer).act (delivery C e peer incoming) := side_poll sound env incoming peer
  have hheard : (side C e peer).heard (delivery C e peer incoming) ≠ [] := by
    intro hnil
    have hinbox := Side.act_inbox (side C e peer) (delivery C e peer incoming)
    have hhanded := Side.act_handed (side C e peer) (delivery C e peer incoming)
    rw [hnil, ← hside] at hinbox hhanded
    rw [List.append_nil] at hinbox
    rw [ite_self, List.append_nil] at hhanded
    exact heffect.elim (· hinbox) (· hhanded)
  obtain ⟨l, ha, htakes, -, -⟩ := Side.heard_ne_nil _ hheard
  refine ⟨l, ha, htakes, ?_⟩
  have hb := act_call (C := C) env e peer (.poll incoming)
  rw [show act C env e peer (.poll incoming) = .deliver l from ha] at hb
  obtain ⟨_, heq, hb⟩ := hb
  cases heq
  obtain ⟨packet', hp', -, -, -, -, hlet⟩ := brought_eq_some_iff.mp hb
  obtain rfl : packet' = packet := Option.some.inj (hp'.symm.trans hp)
  exact (letterOf_eq_some_iff.mp hlet).2.2.1.symm

theorem takesIn_fresh {e : Engine} (sound : Sound C e) {t : Turn} {peer : Bytes} {packet : Packet}
    (h : TakesIn C peer packet (e, t)) :
    ∀ c ∈ (e.opened C peer).bind mark, c < packet.counter := by
  obtain ⟨env, c, rfl, -⟩ := h.1
  obtain ⟨l, -, htakes, hcount⟩ := takesIn_letter sound h
  rw [← hcount]
  exact htakes.2

theorem takesIn_mark {e : Engine} (sound : Sound C e) {t : Turn} {peer : Bytes} {packet : Packet}
    (h : TakesIn C peer packet (e, t)) : packet.counter ∈ ((turn C e t).opened C peer).bind mark := by
  obtain ⟨env, c, rfl, hp, -⟩ := h.1
  obtain ⟨incoming, rfl⟩ : ∃ incoming, c = .poll incoming := by
    cases c with
    | poll incoming => exact ⟨incoming, rfl⟩
    | _ => cases hp
  obtain ⟨l, ha, htakes, hcount⟩ := takesIn_letter sound h
  have hside := side_call sound env (.poll incoming) rfl peer
  rw [ha] at hside
  have hmark : (side C (engineStep C e (env, .poll incoming)) peer).mark = some l.counter := by
    rw [engineStep, hside, Side.act_mark_deliver, if_pos htakes]
  rw [← hcount]
  exact hmark

variable {peer : Bytes} {ok : History Engine Turn → Engine → Turn → Prop} {e₀ e : Engine}

theorem sound_turns (sound : Sound C e₀) {h : History Engine Turn}
    (run : Run (turn C) ok e₀ h e) : Sound C e :=
  run.invariant (fun _ e => Sound C e) sound fun _ _ t _ sound _ => sound_turn sound t

theorem covered (sound : Sound C e₀) (hok : ∀ h e t, ok h e t → Persisted C e t)
    {newer older : History Engine Turn} {f : Engine} {t : Turn} {packet : Packet}
    (run : Run (turn C) ok e₀ (newer ++ (f, t) :: older) e)
    (hlives : ∀ m ∈ newer, m.2.restarts = false) (h : TakesIn C peer packet (f, t)) :
    ∃ c ∈ (e.opened C peer).bind mark, packet.counter ≤ c := by
  induction newer generalizing e with
  | nil =>
    cases run with
    | move run _ => exact ⟨_, takesIn_mark (sound_turns sound run) h, UInt64.le_refl _⟩
  | cons m newer ih =>
    cases run with
    | @move _ g u run hm =>
      obtain ⟨c, hc, hle⟩ := ih run fun m hm => hlives m (List.mem_cons_of_mem _ hm)
      cases u with
      | restart io path passphrase => cases hlives _ List.mem_cons_self
      | call env call =>
        have hside := side_call (sound_turns sound run) env call (hok _ _ _ hm) peer
        obtain ⟨c', hc', hle'⟩ := Side.act_mark_grows (side C g peer) (a := act C env g peer call) hc
        rw [← hside] at hc'
        exact ⟨c', hc', UInt64.le_trans hle hle'⟩

theorem stale_of_restart {packet : Packet} {newer older : History Engine Turn} {m : Engine × Turn}
    (hr : m.2.restarts) (h : ∃ m' ∈ older, TakesIn C peer packet m') :
    Stale C peer packet (newer ++ m :: older) := by
  induction newer with
  | nil => exact .inl ⟨hr, h⟩
  | cons _ _ ih => exact .inr ih

/-- No message is taken in twice, as long as none from before a restart comes
back too early. -/
theorem taken_in_once {i : Identity} (hstart : Started C i e₀) {h : History Engine Turn}
    (run : Run (turn C) (fun h e t => Persisted C e t ∧ Guarded C peer h e t) e₀ h e)
    {newer mid older : History Engine Turn} {m m' : Engine × Turn} {packet : Packet}
    (hsplit : h = newer ++ m :: (mid ++ m' :: older)) (h' : TakesIn C peer packet m') :
    ¬ TakesIn C peer packet m := by
  subst hsplit
  intro hm
  obtain ⟨f, t⟩ := m
  obtain ⟨before, -, guarded⟩ := run.cut
  have sound : Sound C e₀ := sound_started hstart
  have hcovered : ∃ c ∈ (f.opened C peer).bind mark, packet.counter ≤ c := by
    by_cases hlives : ∀ m ∈ mid, m.2.restarts = false
    · exact covered sound (fun _ _ _ h => h.1) before hlives h'
    · simp only [not_forall, Bool.not_eq_false] at hlives
      obtain ⟨r, hr, hrestarts⟩ := hlives
      obtain ⟨front, back, rfl⟩ := List.mem_iff_append.mp hr
      refine guarded packet hm.1 ?_
      rw [List.append_assoc]
      exact stale_of_restart hrestarts ⟨m', by simp, h'⟩
  obtain ⟨c, hc, hle⟩ := hcovered
  exact absurd (takesIn_fresh (sound_turns sound before) hm c hc) (UInt64.not_lt.mpr hle)

def freshDisk : OpenIO := ⟨false, none, ⟨List.replicate kKdfSaltBytes 5, List.length_replicate⟩, true⟩

def opened : Engine := ((newEngines .A).openStore reference freshDisk [112] [113]).1

def befriending : Turn := .call clock (.addPeer (twoParties.key .B) address)

def hearing : Turn := .call clock (.poll (some (box .B 0 .message [7])))

def rebirth (e : Engine) : Turn :=
  .restart { freshDisk with pathExists := true, content := onDisk reference clock.nonce e.contacts }
    e.contacts.path [113]

theorem persisted_hearing (e : Engine) : Persisted reference e hearing := rfl

theorem persisted_rebirth (e : Engine) : Persisted reference e (rebirth e) :=
  ⟨rfl, rfl, clock.nonce, rfl⟩

def befriended : Engine := turn reference opened befriending

def informed : Engine := turn reference befriended hearing

def resumed : Engine := turn reference informed (rebirth informed)

def overtaking : Turn := .call clock (.poll (some (box .B 1 .message [8])))

def overtaken : Engine := turn reference resumed overtaking

def reheard : History Engine Turn :=
  [(overtaken, hearing), (resumed, overtaking), (informed, rebirth informed),
    (befriended, hearing), (opened, befriending)]

theorem reheard_run : Run (turn reference)
    (fun h e t => Persisted reference e t ∧ Guarded reference (twoParties.key .B) h e t) opened
    reheard (turn reference overtaken hearing) := by
  refine .move (.move (.move (.move (.move .start ⟨rfl, ?_⟩) ⟨persisted_hearing _, ?_⟩)
    ⟨persisted_rebirth _, ?_⟩) ⟨rfl, ?_⟩) ⟨persisted_hearing _, ?_⟩
  · exact fun _ _ h => h.elim
  · rintro packet - h
    simp [Stale, befriending, Turn.restarts] at h
  · rintro packet ⟨env, c, heq, -⟩
    cases heq
  · rintro packet ⟨env, c, heq, hp, -⟩ hstale
    cases heq
    obtain ⟨m, hm, ⟨env', c', heq', hp', -⟩, -⟩ : ∃ m ∈ [(befriended, hearing),
        (opened, befriending)], TakesIn reference (twoParties.key .B) packet m := by
      simpa [Stale, befriending, hearing, rebirth, Turn.restarts] using hstale
    obtain rfl | rfl : m = (befriended, hearing) ∨ m = (opened, befriending) := by simpa using hm
    · cases heq'
      have hother : ∀ p ∈ arrival (.poll (some (box .B 1 .message [8]))),
          p ∉ arrival (.poll (some (box .B 0 .message [7]))) := by decide +kernel
      exact absurd hp' (hother packet hp)
    · cases heq'
      cases hp'
  · rintro packet ⟨env, c, heq, hp, -⟩ -
    cases heq
    have hmark : ((overtaken.opened reference (twoParties.key .B)).bind mark) = some 1 := by
      decide +kernel
    have hlow : ∀ p ∈ arrival (.poll (some (box .B 0 .message [7]))), p.counter ≤ 1 := by
      decide +kernel
    exact ⟨1, hmark, hlow packet hp⟩

theorem taken_in_once_reheard :
    ∃ packet, TakesIn reference (twoParties.key .B) packet (befriended, hearing) ∧
      ¬ TakesIn reference (twoParties.key .B) packet (overtaken, hearing) := by
  obtain ⟨packet, hp⟩ : ∃ packet, packet ∈ arrival (.poll (some (box .B 0 .message [7]))) :=
    Option.isSome_iff_exists.mp (by decide +kernel)
  have hall : ∀ p ∈ arrival (.poll (some (box .B 0 .message [7]))),
      p.source = twoParties.key .B ∧ p.type = .message := by decide +kernel
  have h : TakesIn reference (twoParties.key .B) packet (befriended, hearing) :=
    ⟨⟨clock, _, rfl, hp, hall packet hp⟩, .inl (by decide +kernel)⟩
  have hsplit : reheard = [] ++ (overtaken, hearing) ::
      ([(resumed, overtaking), (informed, rebirth informed)] ++ (befriended, hearing) ::
        [(opened, befriending)]) := by
    simp only [reheard, List.nil_append, List.cons_append]
  exact ⟨packet, h, taken_in_once (.inr ⟨freshDisk, [112], [113], rfl⟩) reheard_run hsplit h⟩

/-- Without the newer message in between, the new engine takes the same datagram in again. -/
theorem replayed_after_restart :
    Run (turn reference) (fun _ e t => Persisted reference e t) opened
      [(turn reference informed (rebirth informed), hearing), (informed, rebirth informed),
        (befriended, hearing), (opened, befriending)]
      (turn reference (turn reference informed (rebirth informed)) hearing) ∧
    received (turn reference (turn reference informed (rebirth informed)) hearing).contacts.messages
      (twoParties.key .B) = [[7], [7]] ∧
    ∃ packet, TakesIn reference (twoParties.key .B) packet (befriended, hearing) ∧
      TakesIn reference (twoParties.key .B) packet
        (turn reference informed (rebirth informed), hearing) := by
  refine ⟨?_, by decide +kernel, ?_⟩
  · exact .move (.move (.move (.move .start rfl) (persisted_hearing _)) (persisted_rebirth _))
      (persisted_hearing _)
  · obtain ⟨packet, hp⟩ : ∃ packet, packet ∈ arrival (.poll (some (box .B 0 .message [7]))) :=
      Option.isSome_iff_exists.mp (by decide +kernel)
    have hall : ∀ p ∈ arrival (.poll (some (box .B 0 .message [7]))),
        p.source = twoParties.key .B ∧ p.type = .message := by decide +kernel
    exact ⟨packet, ⟨⟨clock, _, rfl, hp, hall packet hp⟩, .inl (by decide +kernel)⟩,
      ⟨⟨clock, _, rfl, hp, hall packet hp⟩, .inl (by decide +kernel)⟩⟩

def calls (C : Sodium) (e : Engine) (cs : List (Env × Engine.Call)) : Engine :=
  cs.foldl (engineStep C) e

theorem sound_calls {e : Engine} (sound : Sound C e) (cs : List (Env × Engine.Call)) :
    Sound C (calls C e cs) := by
  induction cs generalizing e with
  | nil => exact sound
  | cons c cs ih => exact ih ((keyed_call c.1 e c.2).sound sound)

theorem response_trust {e : Engine} (sound : Sound C e) (env : Env) {d : Datagram}
    {packet : Packet} {text : Bytes} {s : Session} (h : e.accepts C (some d) = some (packet, text, s))
    (hty : packet.type = .contactResponse) :
    (e.poll C env (some d)).1.trustOf packet.source =
      if toHex packet.source ∈ e.outgoingRequests then some (verdict (saysYes text))
      else e.trustOf packet.source := by
  obtain ⟨-, -, -, -, t, ht, hdec⟩ := accepts_eq_some_iff.mp h
  obtain ⟨-, rfl⟩ := Session.decrypt_eq_some_iff.mp hdec
  obtain ⟨-, hb, htakes⟩ := (accepts_iff sound _ ht).mp h
  have hside := side_poll sound env (some d) packet.source
  rw [Projection.delivery, hb] at hside
  change (side C (e.poll C env (some d)).1 packet.source).trust = _
  rw [hside]
  obtain ⟨hn, -⟩ | ⟨-, htrust, -, -, -, -, hr⟩ | ⟨-, hq, -⟩ | ⟨-, -, ho, htrust, -⟩ :=
      Handshake.delivery (side C e packet.source) ⟨packet.type, packet.counter, text⟩
  · exact absurd htakes hn
  · rw [htrust, if_neg (of_decide_eq_false (hr hty))]
    rfl
  · rw [hty] at hq
    cases hq
  · rw [htrust, if_pos (of_decide_eq_true ho)]

/-- With a restart in between, a response does what it would have done without,
exactly when the new engine has asked again or has nothing to learn from it. -/
theorem response_after_restart {i : Identity} (hstart : Started C i e₀) {h : History Engine Turn}
    {g : Engine} (run : Run (turn C) (fun _ e t => Persisted C e t) e₀ h g) (io : OpenIO)
    (path passphrase : Bytes) (cs : List (Env × Engine.Call)) (env : Env) (d : Datagram)
    {packet : Packet} {text : Bytes} {s s' : Session}
    (hopen : (calls C g cs).accepts C (some d) = some (packet, text, s))
    (hopen' : (calls C (turn C g (.restart io path passphrase)) cs).accepts C (some d) =
      some (packet, text, s'))
    (hty : packet.type = .contactResponse)
    (hasked : toHex packet.source ∈ (calls C g cs).outgoingRequests) :
    ((calls C (turn C g (.restart io path passphrase)) cs).poll C env (some d)).1.trustOf
        packet.source = ((calls C g cs).poll C env (some d)).1.trustOf packet.source ↔
      toHex packet.source ∈
        (calls C (turn C g (.restart io path passphrase)) cs).outgoingRequests ∨
      (calls C (turn C g (.restart io path passphrase)) cs).trustOf packet.source =
        some (verdict (text.head? = some 0x01)) := by
  have sound : Sound C g := sound_turns (sound_started hstart) run
  rw [response_trust (sound_calls (sound_turn sound _) cs) env hopen' hty,
    response_trust (sound_calls sound cs) env hopen hty, if_pos hasked]
  change _ = some (verdict (saysYes text)) ↔ _ ∨ _ = some (verdict (saysYes text))
  split_ifs with h
  · simp [h]
  · simp [h]

def requesting : Env × Engine.Call :=
  (clock, .sendContactRequest (twoParties.key .B) address [])

def agreeing : Datagram := box .B 0 .contactResponse [kAccept]

def requested : Engine := engineStep reference opened requesting

theorem response_after_restart_asked_again :
    ((calls reference (turn reference requested (rebirth requested)) [requesting]).poll reference
        clock (some agreeing)).1.trustOf (twoParties.key .B) =
      ((calls reference requested [requesting]).poll reference clock (some agreeing)).1.trustOf
        (twoParties.key .B) := by
  have run : Run (turn reference) (fun _ e t => Persisted reference e t) opened
      [(opened, .call requesting.1 requesting.2)] requested := .move .start rfl
  obtain ⟨⟨packet, text, s⟩, hs⟩ := Option.isSome_iff_exists.mp
    (show ((calls reference requested [requesting]).accepts reference (some agreeing)).isSome by
      decide +kernel)
  obtain ⟨⟨packet', text', s'⟩, hs'⟩ := Option.isSome_iff_exists.mp
    (show ((calls reference (turn reference requested (rebirth requested)) [requesting]).accepts
      reference (some agreeing)).isSome by decide +kernel)
  have hsame : packet' = packet ∧ text' = text := by
    have h : ((calls reference (turn reference requested (rebirth requested)) [requesting]).accepts
        reference (some agreeing)).map (fun p => (p.1, p.2.1)) =
        ((calls reference requested [requesting]).accepts reference (some agreeing)).map
          (fun p => (p.1, p.2.1)) := by decide +kernel
    rw [hs, hs'] at h
    simpa using h
  obtain ⟨rfl, rfl⟩ := hsame
  have hpacket : ∀ p ∈ (calls reference requested [requesting]).accepts reference (some agreeing),
      p.1.source = twoParties.key .B ∧ p.1.type = .contactResponse := by decide +kernel
  obtain ⟨hsource, hty⟩ := hpacket _ hs
  dsimp only at hsource hty
  have h := response_after_restart (.inr ⟨freshDisk, [112], [113], rfl⟩) run _ _ _ [requesting] clock
    agreeing hs hs' hty (by rw [hsource]; decide +kernel)
  rw [hsource] at h
  exact h.mpr (.inl (by decide +kernel))

/-- Without the restart B is an accepted contact, with it the response is lost. -/
theorem response_forgotten :
    Persisted reference requested (rebirth requested) ∧
      (requested.poll reference clock (some agreeing)).1.trustOf (twoParties.key .B) =
        some .accepted ∧
      ((turn reference requested (rebirth requested)).accepts reference (some agreeing)).isSome ∧
      ((turn reference requested (rebirth requested)).poll reference clock (some agreeing)).1.trustOf
        (twoParties.key .B) = some .pending :=
  ⟨persisted_rebirth _, by decide +kernel, by decide +kernel, by decide +kernel⟩

end OpenMesh.Messaging.Restart
