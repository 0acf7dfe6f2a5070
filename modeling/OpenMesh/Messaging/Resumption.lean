import OpenMesh.Messaging.Recovery
import OpenMesh.Messaging.Restart

namespace OpenMesh.Messaging.Resumption

open OpenMesh.Core.Buffers OpenMesh.Core.Hex OpenMesh.Crypto.Primitives
open OpenMesh.Crypto.Reference OpenMesh.Library.Runs
open OpenMesh.Protocol.Envelope OpenMesh.Protocol.EnvelopeCodec OpenMesh.Net.Transport
open OpenMesh.Storage.Database OpenMesh.Messaging.Sessions OpenMesh.Messaging.Operations
open OpenMesh.Messaging.Sides OpenMesh.Messaging.Projection OpenMesh.Messaging.Handling
open OpenMesh.Messaging.Simulation OpenMesh.Messaging.Pairs OpenMesh.Messaging.Routes
open OpenMesh.Messaging.Integrity OpenMesh.Messaging.Restart

variable {C : Sodium} (K : Keyring C)

/-- One party sends texts, each call returns true, and each datagram is the next
that the other polls. -/
inductive Exchanged (X : Party) : Engines → List Bytes → Engines → Prop
  | done (es : Engines) : Exchanged X es [] es
  | sent {es es' : Engines} {text : Bytes} {texts : List Bytes} (env env' : Env)
      (origin dest : Endpoint) (packet : Packet)
      (hsend : ((es X).send C env (K.key X.other) text).2 = true)
      (hsent : (es.step C (X, env, .send (K.key X.other) text) X).socket.sent =
        (es X).socket.sent ++ [(dest, packet)])
      (rest : Exchanged X ((es.step C (X, env, .send (K.key X.other) text)).step C
        (X.other, env', .poll (some ⟨origin, serialize packet⟩))) texts es') :
      Exchanged X es (text :: texts) es'

def inbox (es : Engines) (X : Party) : List Bytes :=
  received (es X).contacts.messages (K.key X.other)

variable {K}

theorem send_view {es : Engines} {X : Party} {env : Env} {text : Bytes}
    (h : ((es X).send C env (K.key X.other) text).2 = true) :
    Move.view K es (X, env, .send (K.key X.other) text) = (X, .tell text true) := by
  have htrust : (es X).trustOf (K.key X.other) = some .accepted := by
    by_contra hne
    simp [Engine.send, hne] at h
  have hopened : ((es X).opened C (K.key X.other)).isSome := by
    cases hs : (es X).ensureSession C (K.key X.other) with
    | none => simp [Engine.send, hs] at h
    | some p => rw [(Engine.ensureSession_eq_some hs).1]; rfl
  simp only [Move.view, act, hopened, htrust, and_self, ↓reduceIte, Engine.call, h]

theorem message_letter {es : Engines} (ready : Ready K es) {X : Party} {env : Env} {text : Bytes}
    {dest : Endpoint} {packet : Packet} (h : ((es X).send C env (K.key X.other) text).2 = true)
    (hsent : (es.step C (X, env, .send (K.key X.other) text) X).socket.sent =
      (es X).socket.sent ++ [(dest, packet)]) :
    packet.destination = K.key X.other ∧
      letterOf C K.common packet = some ⟨.message, (view K es X).counter, text⟩ := by
  have hstep := congrFun (view_step ready (m := (X, env, .send (K.key X.other) text)) rfl) X
  rw [send_view h, Pair.step_self] at hstep
  have hletters := congrArg Side.letters hstep
  rw [Side.act_letters] at hletters
  have ready' := ready.step (X, env, .send (K.key X.other) text)
  change lettersTo C (sharedKey C _ _) _ (es.step C _ X).socket.sent =
    lettersTo C (sharedKey C _ _) _ (es X).socket.sent ++ _ at hletters
  rw [ready'.common, ready.common, hsent, lettersTo_append] at hletters
  have hone := List.append_cancel_left hletters
  rw [lettersTo, List.filterMap_cons, List.filterMap_nil] at hone
  by_cases hd : packet.destination = K.key X.other
  · refine ⟨hd, ?_⟩
    rw [if_pos hd] at hone
    cases hl : letterOf C K.common packet with
    | none =>
      rw [hl] at hone
      cases hone
    | some l =>
      rw [hl] at hone
      exact congrArg some (List.cons.inj hone).1
  · rw [if_neg hd] at hone
    cases hone

theorem brought_short {es : Engines} (ready : Ready K es) {X : Party} {d : Option Datagram}
    {l : Letter} (h : brought C (es X) (K.key X.other) d = some l) :
    l.text.length ≤ kLongestText := by
  obtain ⟨packet, hp, -, -, hs, hd, hlet⟩ := brought_eq_some_iff.mp h
  obtain ⟨d, -, hp⟩ := Option.bind_eq_some_iff.mp hp
  obtain ⟨-, hdata⟩ := deserialize_eq_some_iff.mp hp
  have hlen := congrArg List.length hdata
  have hbox := aeadOpen_length (letterOf_eq_some_iff.mp hlet).2.2.2
  rw [serialize_length, hs, hd, ready.localPublic, K.key_length, K.key_length, hbox, receive,
    List.length_take] at hlen
  simp only [kHeaderSize, kPublicKeyBytes, kAeadNonceBytes, kAeadTagBytes, kReceiveBufferSize,
    kLongestText] at *
  omega

section Step

variable {es es₁ es₂ : Engines} {X : Party} {env env' : Env} {text : Bytes} {origin dest : Endpoint}
variable {packet : Packet}

theorem exchanged_step (env' : Env) (origin : Endpoint) (ready : Ready K es)
    (hsend : ((es X).send C env (K.key X.other) text).2 = true)
    (hsent : (es.step C (X, env, .send (K.key X.other) text) X).socket.sent =
      (es X).socket.sent ++ [(dest, packet)])
    (he₁ : es₁ = es.step C (X, env, .send (K.key X.other) text))
    (he₂ : es₂ = es₁.step C (X.other, env', .poll (some ⟨origin, serialize packet⟩))) :
    ∃ a, view K es₂ X = (view K es X).act (.tell text true) ∧
      view K es₂ X.other = (view K es X.other).act a ∧
      (text.length ≤ kLongestText →
        a = .deliver ⟨.message, (view K es X).counter, text⟩) ∧
      ∀ l, a = .deliver l → l.text.length ≤ kLongestText := by
  have ready₁ : Ready K es₁ := by
    rw [he₁]
    exact ready.step _
  have hview₁ : view K es₁ = (view K es).step (X, .tell text true) := by
    rw [he₁, view_step (m := (X, env, .send (K.key X.other) text)) ready rfl, send_view hsend]
  have hview₂ := view_step ready₁ (m := (X.other, env', .poll (some ⟨origin, serialize packet⟩))) rfl
  obtain ⟨a, hact⟩ : ∃ a, act C env' (es₁ X.other) (K.key X.other.other)
      (.poll (some ⟨origin, serialize packet⟩)) = a := ⟨_, rfl⟩
  have ha : Move.view K es₁ (X.other, env', .poll (some ⟨origin, serialize packet⟩)) =
      (X.other, a) := by rw [Move.view, hact]
  rw [← he₂, hview₁, ha] at hview₂
  refine ⟨a, ?_, ?_, ?_, ?_⟩
  · have h := Pair.step_other ((view K es).step (X, .tell text true)) X.other a
    rw [Party.other_other, Pair.step_self] at h
    rw [hview₂, h]
  · rw [hview₂, Pair.step_self, Pair.step_other]
  · intro hlen
    obtain ⟨hd, hlet⟩ := message_letter ready hsend hsent
    have hmem : (dest, packet) ∈ (es₁ X.other.other).socket.sent := by
      rw [Party.other_other, he₁, hsent]
      simp
    have hb := brought_serialize (X := X.other) (d := ⟨origin, serialize packet⟩) ready₁ ready₁ hmem hd hlet
      hlen rfl
    rw [← hact, act, Projection.delivery, hb]
  · intro l hl
    have hbehind := act_call (C := C) env' (es₁ X.other) (K.key X.other.other)
      (.poll (some ⟨origin, serialize packet⟩))
    rw [hact, hl] at hbehind
    obtain ⟨incoming, -, hb⟩ := hbehind
    exact brought_short ready₁ hb

end Step

theorem split_head {α : Type*} {d r texts : List α} {text : α} (h : d ++ r = text :: texts)
    (hd : d.length ≤ 1) (hr : r.length ≤ texts.length) : d = [text] ∧ r = texts := by
  cases d with
  | nil =>
    have hlen := congrArg List.length h
    simp only [List.nil_append, List.length_cons] at hlen
    omega
  | cons x d =>
    obtain rfl : d = [] := List.length_eq_zero_iff.mp (by simpa using hd)
    obtain ⟨rfl, rfl⟩ := List.cons.inj h
    exact ⟨rfl, rfl⟩

theorem heard_length (s : Side) (a : Act) : (s.heard a).length ≤ 1 := by
  cases a with
  | deliver l =>
    rw [Side.heard]
    split <;> simp
  | _ => simp [Side.heard]

theorem exchanged_grows {es es' : Engines} {X : Party} {texts : List Bytes} (ready : Ready K es)
    (h : Exchanged K X es texts es') :
    ∃ r, inbox K es' X.other = inbox K es X.other ++ r ∧ r.length ≤ texts.length := by
  induction h with
  | done es => exact ⟨[], by simp⟩
  | @sent es es' text texts env env' origin dest packet hsend hsent rest ih =>
    obtain ⟨r, hr, hlen⟩ := ih ((ready.step _).step _)
    obtain ⟨a, -, hother, -⟩ := exchanged_step env' origin ready hsend hsent rfl rfl
    have hinbox := congrArg Side.inbox hother
    rw [Side.act_inbox] at hinbox
    refine ⟨(view K es X.other).heard a ++ r, ?_, ?_⟩
    · rw [hr, ← List.append_assoc]
      exact congrArg (· ++ r) hinbox
    · have := heard_length (view K es X.other) a
      simp only [List.length_append, List.length_cons]
      omega

/-- The counter of the next packet is above all that the other has opened. -/
def Ahead (p : Pair) (X : Party) : Prop := ∀ c ∈ (p X.other).mark, c < (p X).counter

theorem heard_message {s : Side} {a : Act} {c : UInt64} {text : Bytes}
    (ht : s.trust = some .accepted)
    (hshort : text.length ≤ kLongestText → a = .deliver ⟨.message, c, text⟩)
    (hall : ∀ l, a = .deliver l → l.text.length ≤ kLongestText) :
    s.heard a = [text] ↔ (∀ m ∈ s.mark, m < c) ∧ text.length ≤ kLongestText := by
  constructor
  · intro h
    obtain ⟨l, ha, htakes, -, hl⟩ := s.heard_ne_nil (a := a) (by rw [h]; simp)
    obtain rfl : l.text = text := by simpa [h] using hl.symm
    have hlen := hall l ha
    have hl := Act.deliver.inj (ha.symm.trans (hshort hlen))
    rw [hl] at htakes
    exact ⟨htakes.2, hlen⟩
  · rintro ⟨hmark, hlen⟩
    rw [hshort hlen, Side.heard, if_pos ⟨⟨fun _ => ht, hmark⟩, rfl⟩]

theorem mark_message {s : Side} {c : UInt64} (text : Bytes) (ht : s.trust = some .accepted)
    (hmark : ∀ m ∈ s.mark, m < c) :
    (s.act (.deliver ⟨.message, c, text⟩)).mark = some c ∧
      (s.act (.deliver ⟨.message, c, text⟩)).trust = some .accepted := by
  have htakes : s.Takes ⟨.message, c, text⟩ := ⟨fun _ => ht, hmark⟩
  refine ⟨by rw [Side.act_mark_deliver, if_pos htakes], ?_⟩
  simp only [Side.act, if_pos htakes, Side.hear, Side.message, ht]

/-- Each message of a row arrives exactly if the first counter is above the mark
of the other side, the last has not wrapped around, and no message is too long. -/
theorem exchanged_iff {es es' : Engines} {X : Party} {texts : List Bytes} (ready : Ready K es)
    (ht : (view K es X.other).trust = some .accepted) (h : Exchanged K X es texts es') :
    inbox K es' X.other = inbox K es X.other ++ texts ↔
      texts = [] ∨ Ahead (view K es) X ∧ (view K es X).counter.toNat + texts.length ≤ 2 ^ 64 ∧
        ∀ text ∈ texts, text.length ≤ kLongestText := by
  induction h with
  | done es => simp
  | @sent es es' text texts env env' origin dest packet hsend hsent rest ih =>
    let es₂ := (es.step C (X, env, .send (K.key X.other) text)).step C
      (X.other, env', .poll (some ⟨origin, serialize packet⟩))
    have ready₂ : Ready K es₂ := (ready.step _).step _
    obtain ⟨a, hself, hother, hshort, hall⟩ :=
      exchanged_step env' origin ready hsend hsent rfl (rfl : es₂ = _)
    obtain ⟨r, hr, hlen⟩ := exchanged_grows ready₂ rest
    have hinbox : inbox K es₂ X.other = inbox K es X.other ++ (view K es X.other).heard a := by
      have := congrArg Side.inbox hother
      rwa [Side.act_inbox] at this
    have hheard := heard_message ht hshort hall
    have hafter : Ahead (view K es) X → text.length ≤ kLongestText →
        (view K es₂ X.other).trust = some .accepted ∧
          (view K es₂ X.other).mark = some (view K es X).counter ∧
          (view K es₂ X).counter = (view K es X).counter + 1 := by
      intro hahead htext
      rw [hother, hself, hshort htext, Side.act_counter]
      obtain ⟨hmark, htrust⟩ := mark_message text ht hahead
      exact ⟨htrust, hmark, rfl⟩
    have hahead₂ : (view K es₂ X.other).mark = some (view K es X).counter →
        (view K es₂ X).counter = (view K es X).counter + 1 →
        (Ahead (view K es₂) X ↔ (view K es X).counter.toNat + 1 < 2 ^ 64) := by
      intro hmark hcounter
      have hbound := (view K es X).counter.toNat_lt
      rw [Ahead, hmark, hcounter]
      simp only [Option.mem_def, Option.some.injEq, forall_eq', UInt64.lt_iff_toNat_lt,
        UInt64.toNat_add, UInt64.toNat_one]
      omega
    constructor
    · intro heq
      rw [hr, hinbox, List.append_assoc, List.append_cancel_left_eq] at heq
      obtain ⟨hd, rfl⟩ := split_head heq (heard_length _ _) hlen
      obtain ⟨hahead, htext⟩ := hheard.mp hd
      obtain ⟨htrust, hmark, hcounter⟩ := hafter hahead htext
      refine .inr ⟨hahead, ?_⟩
      have hbound := (view K es X).counter.toNat_lt
      obtain rfl | ⟨hnext, hroom, hrest⟩ := (ih ready₂ htrust).mp hr
      · simpa [htext] using hbound
      · have hlt := (hahead₂ hmark hcounter).mp hnext
        rw [hcounter, UInt64.toNat_add, UInt64.toNat_one, Nat.mod_eq_of_lt hlt] at hroom
        simp only [List.length_cons, List.forall_mem_cons]
        exact ⟨by omega, htext, hrest⟩
    · rintro (hnil | ⟨hahead, hroom, hrest⟩)
      · cases hnil
      simp only [List.length_cons, List.forall_mem_cons] at hroom hrest
      obtain ⟨htrust, hmark, hcounter⟩ := hafter hahead hrest.1
      have htail : inbox K es' X.other = inbox K es₂ X.other ++ texts := by
        refine (ih ready₂ htrust).mpr ?_
        by_cases hnil : texts = []
        · exact .inl hnil
        · have hpos := List.length_pos_iff.mpr hnil
          have hlt : (view K es X).counter.toNat + 1 < 2 ^ 64 := by omega
          refine .inr ⟨(hahead₂ hmark hcounter).mpr hlt, ?_, hrest.2⟩
          rw [hcounter, UInt64.toNat_add, UInt64.toNat_one, Nat.mod_eq_of_lt hlt]
          omega
      rw [htail, hinbox, hheard.mpr ⟨hahead, hrest.1⟩]
      simp

theorem keys_run {i : Identity} {e₀ e : Engine} {h : History Engine (Env × Engine.Call)}
    {ok : History Engine (Env × Engine.Call) → Engine → Env × Engine.Call → Prop}
    (hstart : Started C i e₀) (run : Run (engineStep C) ok e₀ h e) :
    e.localPublic = i.publicKey ∧ e.localSecret = i.secretKey := by
  obtain ⟨contacts, he⟩ := started_eq hstart
  refine run.invariant (fun _ e => e.localPublic = i.publicKey ∧ e.localSecret = i.secretKey)
    (by rw [he]; exact ⟨rfl, rfl⟩) fun _ e m _ ih _ => ?_
  have hk := keyed_call (C := C) m.1 e m.2
  exact ⟨hk.localPublic.trans ih.1, hk.localSecret.trans ih.2⟩

/-- A new engine of one party talks to an engine of the other that has been
running: its messages arrive exactly if the packets it has sealed so far have
taken its counter past the mark that the other keeps, and none is too long. -/
theorem messages_after_restart {X : Party} {es₀ es es' : Engines}
    {h : Party → History Engine (Env × Engine.Call)} {texts : List Bytes}
    (hstart : ∀ Y, Started C (K.identity Y) (es₀ Y))
    (run : ∀ Y, Run (engineStep C) (fun _ _ m => m.2.reopens = false) (es₀ Y) (h Y) (es Y))
    (ht : (es X.other).trustOf (K.key X) = some .accepted) (exchanged : Exchanged K X es texts es') :
    received (es' X.other).contacts.messages (K.key X) =
        received (es X.other).contacts.messages (K.key X) ++ texts ↔
      texts = [] ∨
        (∀ c ∈ ((es X.other).opened C (K.key X)).bind mark,
          c < sendCounter C (es X) (K.key X.other)) ∧
        (sendCounter C (es X) (K.key X.other)).toNat + texts.length ≤ 2 ^ 64 ∧
        ∀ text ∈ texts, text.length ≤ kLongestText := by
  have ready : Ready K es := ⟨fun Y => sound_run (hstart Y) (run Y),
    fun Y => (keys_run (hstart Y) (run Y)).1, fun Y => (keys_run (hstart Y) (run Y)).2⟩
  have ht' : (view K es X.other).trust = some .accepted := by
    change (es X.other).trustOf (K.key X.other.other) = _
    rwa [Party.other_other]
  have hiff := exchanged_iff ready ht' exchanged
  simp only [inbox, Ahead, view, side, Party.other_other] at hiff
  exact hiff

theorem started_restart {i : Identity} {e : Engine}
    (hkeys : e.localPublic = i.publicKey ∧ e.localSecret = i.secretKey) (io : OpenIO)
    (path passphrase : Bytes) : Started C i (turn C e (.restart io path passphrase)) :=
  .inr ⟨io, path, passphrase, by rw [← hkeys.1, ← hkeys.2]; rfl⟩

def firstPacket (text : Bytes) : Packet :=
  Engine.sealedPacket reference clock (Session.new reference (twoParties.key .A)
    (twoParties.identity .A).secretKey (twoParties.key .B)) .message text

/-- A has told B something, and is started anew. -/
def speaker : Engine :=
  engineStep reference befriended (clock, .send (twoParties.key .B) [7])

def respeaker : Engine := turn reference speaker (rebirth speaker)

def reconnecting : Env × Engine.Call := (clock, .connect (twoParties.key .B) address)

def listener : Engine :=
  engineStep reference (newEngines .B) (clock, .addPeer (twoParties.key .A) address)

def hears (text : Bytes) : Env × Engine.Call :=
  (clock, .poll (some ⟨address, serialize (firstPacket text)⟩))

def reconnected (b : Engine) : Engines
  | .A => engineStep reference respeaker reconnecting
  | .B => b

def afterwards (b : Engine) : Engines :=
  ((reconnected b).step reference (.A, clock, .send (twoParties.key (Party.other .A)) [8])).step
    reference (Party.other .A, clock, .poll (some ⟨address, serialize (firstPacket [8])⟩))

theorem exchanged_single {es : Engines} {e : Engine} {X : Party} {text : Bytes} (env env' : Env)
    (origin dest : Endpoint) (packet : Packet) (he : es X = e)
    (hsend : (e.send C env (K.key X.other) text).2 = true)
    (hsent : (e.send C env (K.key X.other) text).1.socket.sent =
      e.socket.sent ++ [(dest, packet)]) :
    Exchanged K X es [text] ((es.step C (X, env, .send (K.key X.other) text)).step C
      (X.other, env', .poll (some ⟨origin, serialize packet⟩))) := by
  subst he
  refine .sent env env' origin dest packet hsend ?_ (.done _)
  rw [Engines.step, Function.update_self]
  exact hsent

theorem send_reconnected :
    ((engineStep reference respeaker reconnecting).send reference clock
        (twoParties.key (Party.other .A)) [8]).2 = true ∧
      ((engineStep reference respeaker reconnecting).send reference clock
        (twoParties.key (Party.other .A)) [8]).1.socket.sent =
      (engineStep reference respeaker reconnecting).socket.sent ++ [(address, firstPacket [8])] := by
  decide +kernel

theorem reconnected_speaker (b : Engine) :
    reconnected b .A = engineStep reference respeaker reconnecting := rfl

theorem reconnected_listener (b : Engine) : reconnected b .B = b := rfl

theorem exchanged_afterwards (b : Engine) :
    Exchanged twoParties .A (reconnected b) [[8]] (afterwards b) :=
  exchanged_single clock clock address address (firstPacket [8]) (reconnected_speaker b)
    send_reconnected.1 send_reconnected.2

def newborn : Engines
  | .A => respeaker
  | .B => newEngines .B

theorem run_reconnected (Y : Party) : ∃ h, Run (engineStep reference)
    (fun _ _ m => m.2.reopens = false) (newborn Y) h (reconnected listener Y) := by
  have hsingle : ∀ (e : Engine) (m : Env × Engine.Call), m.2.reopens = false →
      Run (engineStep reference) (fun _ _ m => m.2.reopens = false) e [(e, m)]
        (engineStep reference e m) := fun _ _ hm => .move .start hm
  cases Y with
  | A =>
    rw [reconnected_speaker, newborn]
    exact ⟨_, hsingle respeaker reconnecting rfl⟩
  | B =>
    rw [reconnected_listener, listener, newborn]
    exact ⟨_, hsingle (newEngines .B) (clock, .addPeer (twoParties.key .A) address) rfl⟩

theorem newborn_started (Y : Party) : Started reference (twoParties.identity Y) (newborn Y) := by
  have hkeys : speaker.localPublic = (twoParties.identity .A).publicKey ∧
      speaker.localSecret = (twoParties.identity .A).secretKey := by decide +kernel
  cases Y with
  | A =>
    rw [newborn, respeaker, rebirth]
    exact started_restart hkeys _ _ _
  | B =>
    rw [newborn]
    exact newEngines_started .B

/-- B has read what the old A told it, and the first message of the new A is lost. -/
def missed : Engines
  | .A => engineStep reference (engineStep reference respeaker reconnecting)
      (clock, .send (twoParties.key .B) [8])
  | .B => engineStep reference listener (hears [7])

theorem missed_speaker : missed .A = engineStep reference
    (engineStep reference respeaker reconnecting) (clock, .send (twoParties.key .B) [8]) := rfl

def secondPacket : Packet :=
  let session := Session.new reference (twoParties.key .A) (twoParties.identity .A).secretKey
    (twoParties.key .B)
  Engine.sealedPacket reference clock { session with sendCounter := 1 } .message [9]

def caughtUp : Engines :=
  (missed.step reference (.A, clock, .send (twoParties.key (Party.other .A)) [9])).step
    reference (Party.other .A, clock, .poll (some ⟨address, serialize secondPacket⟩))

theorem exchanged_caughtUp : Exchanged twoParties .A missed [[9]] caughtUp :=
  exchanged_single clock clock address address secondPacket missed_speaker (by decide +kernel)
    (by decide +kernel)

theorem run_missed (Y : Party) : ∃ h, Run (engineStep reference)
    (fun _ _ m => m.2.reopens = false) (newborn Y) h (missed Y) := by
  cases Y with
  | A => exact ⟨_, .move (.move .start rfl) rfl⟩
  | B => exact ⟨_, .move (.move .start rfl) rfl⟩

theorem messages_after_restart_heard :
    received (afterwards listener .B).contacts.messages (twoParties.key .A) = [[8]] ∧
    received (caughtUp .B).contacts.messages (twoParties.key .A) = [[7], [9]] := by
  constructor
  · have ht : (reconnected listener (Party.other .A)).trustOf (twoParties.key .A) =
        some .accepted := by decide +kernel
    choose h run using run_reconnected
    have hiff := messages_after_restart newborn_started run ht (exchanged_afterwards listener)
    simp only [Party.other] at hiff
    have hmark : ((reconnected listener .B).opened reference (twoParties.key .A)).bind mark =
        none := by decide +kernel
    have hcounter : sendCounter reference (reconnected listener .A) (twoParties.key .B) = 0 := by
      decide +kernel
    rw [hmark, hcounter] at hiff
    have hfresh : ∀ c ∈ (none : Option UInt64), c < 0 :=
      fun c hc => absurd hc (Option.not_mem_none c)
    exact (hiff.mpr (.inr ⟨hfresh, by decide, by decide⟩)).trans (by decide +kernel)
  · have ht : (missed (Party.other .A)).trustOf (twoParties.key .A) = some .accepted := by
      decide +kernel
    choose h run using run_missed
    have hiff := messages_after_restart newborn_started run ht exchanged_caughtUp
    simp only [Party.other] at hiff
    have hmark : ((missed .B).opened reference (twoParties.key .A)).bind mark = some 0 := by
      decide +kernel
    have hcounter : sendCounter reference (missed .A) (twoParties.key .B) = 1 := by
      decide +kernel
    rw [hmark, hcounter] at hiff
    have hahead : ∀ c ∈ some (0 : UInt64), c < 1 := by
      intro c hc
      obtain rfl := Option.some.inj hc
      decide
    exact (hiff.mpr (.inr ⟨hahead, by decide, by decide⟩)).trans (by decide +kernel)

/-- Both have accepted each other, B has read what the old A told it, the call of
`send` of the new A returns true, and B drops the message. -/
theorem resumption_silenced :
    Persisted reference speaker (rebirth speaker) ∧
      (∀ X, (reconnected (engineStep reference listener (hears [7])) X).trustOf
        (twoParties.key X.other) = some .accepted) ∧
      Exchanged twoParties .A (reconnected (engineStep reference listener (hears [7]))) [[8]]
        (afterwards (engineStep reference listener (hears [7]))) ∧
      received (engineStep reference listener (hears [7])).contacts.messages (twoParties.key .A) =
        [[7]] ∧
      received (afterwards (engineStep reference listener (hears [7])) .B).contacts.messages
        (twoParties.key .A) = [[7]] :=
  ⟨persisted_rebirth _, by decide +kernel, exchanged_afterwards _, by decide +kernel,
    by decide +kernel⟩

end OpenMesh.Messaging.Resumption
