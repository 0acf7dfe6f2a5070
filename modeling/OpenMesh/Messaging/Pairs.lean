import OpenMesh.Crypto.Reference
import OpenMesh.Library.Runs
import OpenMesh.Messaging.Simulation

namespace OpenMesh.Messaging.Pairs

open OpenMesh.Core.Buffers OpenMesh.Core.Hex OpenMesh.Crypto.Primitives
open OpenMesh.Crypto.Reference OpenMesh.Library.Runs
open OpenMesh.Protocol.Envelope OpenMesh.Protocol.EnvelopeCodec OpenMesh.Net.Transport
open OpenMesh.Storage.Database OpenMesh.Storage.Lookup OpenMesh.Messaging.Sessions OpenMesh.Messaging.Operations
open OpenMesh.Messaging.Sides OpenMesh.Messaging.Projection OpenMesh.Messaging.Frames
open OpenMesh.Messaging.Handling OpenMesh.Messaging.Simulation

inductive Party where
  | A | B
  deriving DecidableEq, Repr

instance : Fintype Party := ⟨{.A, .B}, fun X => by cases X <;> decide⟩

def Party.other : Party → Party
  | A => B
  | B => A

@[simp] theorem Party.other_other (X : Party) : X.other.other = X := by cases X <;> rfl
@[simp] theorem Party.other_ne (X : Party) : X.other ≠ X := by cases X <;> simp [Party.other]
@[simp] theorem Party.ne_other (X : Party) : X ≠ X.other := by cases X <;> simp [Party.other]

theorem Party.eq_or_other (X Y : Party) : Y = X ∨ Y = X.other := by
  cases X <;> cases Y <;> simp [Party.other]

abbrev Pair := Party → Side

def Pair.step (p : Pair) (m : Party × Act) : Pair := Function.update p m.1 ((p m.1).act m.2)

/-- The contact permits the act, and the network can only bring what the other
side has posted. -/
structure Pair.Permits (p : Pair) (m : Party × Act) : Prop where
  allowed : (p m.1).Allows m.2
  posted : ∀ l, m.2 = .deliver l → l ∈ (p m.1.other).letters

@[simp] theorem Pair.step_self (p : Pair) (X : Party) (a : Act) :
    p.step (X, a) X = (p X).act a := Function.update_self ..

@[simp] theorem Pair.step_other (p : Pair) (X : Party) (a : Act) :
    p.step (X, a) X.other = p X.other := Function.update_of_ne X.other_ne ..

theorem Pair.keeps {P : Side → Prop} (hact : ∀ s a, P s → P (s.act a)) (p : Pair)
    (m : Party × Act) {X : Party} (h : P (p X)) : P (p.step m X) := by
  obtain ⟨Y, a⟩ := m
  obtain rfl | rfl := Y.eq_or_other X
  · rw [step_self]
    exact hact _ _ h
  · rwa [step_other]

/-- What every act keeps holds of a side forever. -/
theorem Pair.kept {P : Side → Prop} (hact : ∀ s a, P s → P (s.act a))
    {ok : History Pair (Party × Act) → Pair → Party × Act → Prop} {p₀ p q : Pair}
    {newer older : History Pair (Party × Act)} {m : Party × Act}
    (run : Run Pair.step ok p₀ (newer ++ (q, m) :: older) p) {X : Party} (h : P (q.step m X)) :
    P (p X) :=
  run.stable (fun _ p => P (p X)) (fun _ p m _ h _ => p.keeps hact m h) h

/-- The identities of the two, with what libsodium documents about them. -/
structure Keyring (C : Sodium) where
  identity : Party → Identity
  distinct : (identity .A).publicKey ≠ (identity .B).publicKey
  public_of_secret : ∀ X, C.signEd25519SkToPk (identity X).secretKey = (identity X).publicKey
  convertible : ∀ X, (C.signEd25519SkToCurve25519 (identity X).secretKey).isSome
  commutes : ∀ x y p q, C.signEd25519SkToCurve25519 (identity .A).secretKey = some x →
    C.signEd25519SkToCurve25519 (identity .B).secretKey = some y →
    C.signEd25519PkToCurve25519 (identity .A).publicKey = some p →
    C.signEd25519PkToCurve25519 (identity .B).publicKey = some q →
    C.scalarmult x q = C.scalarmult y p

namespace Keyring

variable {C : Sodium} (K : Keyring C)

def key (X : Party) : Bytes := (K.identity X).publicKey

theorem key_length (X : Party) : (K.key X).length = kPublicKeyBytes := (K.identity X).public_length

theorem key_other_ne (X : Party) : K.key X.other ≠ K.key X := by
  cases X with
  | A => exact K.distinct.symm
  | B => exact K.distinct

theorem key_injective {X Y : Party} (h : K.key X = K.key Y) : X = Y := by
  obtain rfl | rfl := Y.eq_or_other X
  · rfl
  · exact absurd h (K.key_other_ne Y)

/-- The key of the conversation; empty where the two cannot agree. -/
def common : Bytes := (agreeSharedKey C (K.identity .A).secretKey (K.key .B)).getD []

theorem common_eq (X : Party) :
    (agreeSharedKey C (K.identity X).secretKey (K.key X.other)).getD [] = K.common := by
  cases X with
  | A => rfl
  | B =>
    have h := agreeSharedKey_comm (K.identity .A) (K.identity .B) (K.public_of_secret .A)
      (K.public_of_secret .B) (K.convertible .A) (K.convertible .B) K.commutes
    exact congrArg (·.getD []) h.symm

end Keyring

abbrev Move := Party × Env × Engine.Call

abbrev Engines := Party → Engine

variable {C : Sodium} (K : Keyring C)

def Engines.step (C : Sodium) (es : Engines) (m : Move) : Engines :=
  Function.update es m.1 ((es m.1).call C m.2.1 m.2.2).1

def datagram : Engine.Call → Option Datagram
  | .poll incoming => incoming
  | _ => none

def arrival (c : Engine.Call) : Option Packet :=
  (datagram c).bind fun d => deserialize (receive d).data

/-- An ideal AEAD under a key that nobody else has: a box from the other party
opens only if one of the two sealed it under the same associated data and put
it on the wire. -/
def Genuine (es : Engines) (m : Move) : Prop :=
  ∀ packet ∈ arrival m.2.2, packet.source = K.key m.1.other →
    (aeadOpen C K.common packet.payload (associatedData packet)).isSome →
    ∃ X, ∃ p ∈ (es X).socket.sent, p.2.encrypted ∧ p.2.destination = K.key X.other ∧
      p.2.payload = packet.payload ∧ associatedData p.2 = associatedData packet

instance (es : Engines) (m : Move) : Decidable (Genuine K es m) :=
  inferInstanceAs (Decidable (∀ packet ∈ arrival m.2.2, _ → _ → _))

def Taken (m : Move) : Prop := ∀ dest data, m.2.1.takes dest data = true

/-- `open_store` is not called. -/
def Keeping (m : Move) : Prop := m.2.2.reopens = false

instance (m : Move) : Decidable (Keeping m) := inferInstanceAs (Decidable (_ = _))

def Unwrapped (es : Engines) (m : Move) : Prop :=
  sendCounter C (es m.1) (K.key m.1.other) ≤ sendCounter C (es.step C m m.1) (K.key m.1.other)

instance (es : Engines) (m : Move) : Decidable (Unwrapped K es m) :=
  inferInstanceAs (Decidable (_ ≤ _))

def Brings (m : Move) (X : Party) (packet : Packet) : Prop :=
  m.1 = X ∧ ∃ d ∈ datagram m.2.2, d.data = serialize packet

instance (m : Move) (X : Party) (packet : Packet) : Decidable (Brings m X packet) :=
  inferInstanceAs (Decidable (_ ∧ _))

/-- Nothing that was sent to the other party is lost or still on the way. -/
def Arrived (h : History Engines Move) (es : Engines) : Prop :=
  ∀ X, ∀ p ∈ (es X).socket.sent, p.2.destination = K.key X.other →
    ∃ m ∈ h, Brings m.2 X.other p.2

instance (h : History Engines Move) (es : Engines) : Decidable (Arrived K h es) :=
  inferInstanceAs (Decidable (∀ _, _))

/-- A new engine, perhaps after `open_store`. -/
def Started (C : Sodium) (i : Identity) (e : Engine) : Prop :=
  e = .new i.publicKey i.secretKey ∨ ∃ io path passphrase,
    e = ((Engine.new i.publicKey i.secretKey).openStore C io path passphrase).1

structure Ready (es : Engines) : Prop where
  sound : ∀ X, Sound C (es X)
  localPublic : ∀ X, (es X).localPublic = K.key X
  localSecret : ∀ X, (es X).localSecret = (K.identity X).secretKey

def view (es : Engines) : Pair := fun X => side C (es X) (K.key X.other)

def Move.view (es : Engines) (m : Move) : Party × Act :=
  (m.1, act C m.2.1 (es m.1) (K.key m.1.other) m.2.2)

def views (h : History Engines Move) : History Pair (Party × Act) :=
  h.map fun m => (view K m.1, m.2.view K m.1)

variable {K}

theorem Ready.common {es : Engines} (ready : Ready K es) (X : Party) :
    sharedKey C (es X) (K.key X.other) = K.common := by
  rw [← K.common_eq X, sharedKey, ready.localSecret X]

theorem Ready.sharedKey {es : Engines} (ready : Ready K es) {X : Party} {s : Session}
    (hk : agreeSharedKey C (es X).localSecret s.remotePublic = some s.sharedKey)
    (hr : s.remotePublic = K.key X.other) : s.sharedKey = K.common := by
  rw [← ready.common X, Projection.sharedKey, ← hr, hk]
  rfl

theorem Ready.step {es : Engines} (ready : Ready K es) (m : Move) : Ready K (es.step C m) := by
  have hk := keyed_call (C := C) m.2.1 (es m.1) m.2.2
  have hall : ∀ X, Sound C (es.step C m X) ∧ (es.step C m X).localPublic = K.key X ∧
      (es.step C m X).localSecret = (K.identity X).secretKey := by
    intro X
    by_cases hX : X = m.1
    · subst hX
      rw [Engines.step, Function.update_self, hk.localPublic, hk.localSecret]
      exact ⟨hk.sound (ready.sound _), ready.localPublic _, ready.localSecret _⟩
    · rw [Engines.step, Function.update_of_ne hX]
      exact ⟨ready.sound X, ready.localPublic X, ready.localSecret X⟩
  exact ⟨fun X => (hall X).1, fun X => (hall X).2.1, fun X => (hall X).2.2⟩

theorem view_step {es : Engines} (ready : Ready K es) {m : Move} (hm : Keeping m) :
    view K (es.step C m) = (view K es).step (m.view K es) := by
  funext X
  by_cases hX : X = m.1
  · subst hX
    rw [view, Engines.step, Function.update_self, Pair.step, Move.view, Function.update_self]
    exact side_call (ready.sound _) m.2.1 m.2.2 hm _
  · have hX' : X ≠ (m.view K es).1 := hX
    rw [view, Engines.step, Function.update_of_ne hX, Pair.step, Function.update_of_ne hX']
    rfl

theorem Unwrapped.counter {es : Engines} {m : Move} (h : Unwrapped K es m) (ready : Ready K es)
    (hm : Keeping m) : (view K es m.1).counter ≤ ((view K es m.1).act (m.view K es).2).counter := by
  have hstep := congrFun (view_step ready hm) m.1
  rw [Pair.step, Move.view, Function.update_self] at hstep
  exact h.trans_eq (congrArg Side.counter hstep)

/-- A box that the other party's packet opens to is a letter of that party. -/
theorem Genuine.letter {es : Engines} (ready : Ready K es) {m : Move} (genuine : Genuine K es m)
    {packet : Packet} {l : Letter} (hp : packet ∈ arrival m.2.2) (hs : packet.source = K.key m.1.other)
    (hd : packet.destination = K.key m.1) (hl : letterOf C K.common packet = some l) :
    ∃ p ∈ (es m.1.other).socket.sent, p.2.destination = K.key m.1 ∧
      letterOf C K.common p.2 = some l ∧ p.2.version = packet.version ∧
      p.2.flags = packet.flags ∧ p.2.source = packet.source ∧ p.2.payload = packet.payload := by
  obtain ⟨-, hty, hc, ho⟩ := letterOf_eq_some_iff.mp hl
  obtain ⟨X, p, hsent, he, hdest, hpay, had⟩ := genuine packet hp hs (by rw [ho]; rfl)
  have hsrc : p.2.source = K.key X :=
    ((ready.sound X).wire p hsent).source.trans (ready.localPublic X)
  have hlen : ∀ Y, (K.key Y).length ≤ 65535 := fun Y => by
    rw [K.key_length]
    decide
  have had' : associatedData p.2 ++ [] = associatedData packet ++ [] := by rw [had]
  obtain ⟨⟨hv, hty', hf, hc', hs', -⟩, -⟩ := associatedData_append_inj (hsrc ▸ hlen X)
    (hdest ▸ hlen X.other) (hs ▸ hlen m.1.other) (hd ▸ hlen m.1) had'
  obtain rfl : X = m.1.other := K.key_injective (hsrc.symm.trans (hs'.trans hs))
  rw [Party.other_other] at hdest
  refine ⟨p, hsent, hdest, letterOf_eq_some_iff.mpr ⟨he, ?_, ?_, ?_⟩, hv, hf, hs', hpay⟩
  · rw [hty', hty]
  · rw [hc', hc]
  · rw [hpay, had, ho]

theorem mem_letters {es : Engines} (ready : Ready K es) {X : Party} {l : Letter} :
    l ∈ (view K es X).letters ↔ ∃ p ∈ (es X).socket.sent, p.2.destination = K.key X.other ∧
      letterOf C K.common p.2 = some l := by
  change l ∈ lettersTo C (sharedKey C (es X) (K.key X.other)) (K.key X.other) _ ↔ _
  rw [ready.common, lettersTo, List.mem_filterMap]
  constructor
  · rintro ⟨p, hp, h⟩
    split_ifs at h with hd
    exact ⟨p, hp, hd, h⟩
  · rintro ⟨p, hp, hd, h⟩
    exact ⟨p, hp, by rw [if_pos hd, h]⟩

/-- The acts of the calls are permitted: in particular only letters get through. -/
theorem permits_view {es : Engines} (ready : Ready K es) {m : Move} (genuine : Genuine K es m) :
    (view K es).Permits (m.view K es) := by
  refine ⟨allows_call m.2.1 (es m.1) m.2.2 _, fun l hl => ?_⟩
  obtain ⟨X, env, c⟩ := m
  have hd : act C env (es X) (K.key X.other) c = .deliver l := hl
  have hc := act_call (C := C) env (es X) (K.key X.other) c
  rw [hd] at hc
  obtain ⟨incoming, rfl, hb⟩ := hc
  obtain ⟨packet, hp, -, -, hs, hdest, hlet⟩ := brought_eq_some_iff.mp hb
  rw [ready.common] at hlet
  rw [ready.localPublic] at hdest
  obtain ⟨p, hsent, hdest', hlet', -⟩ := genuine.letter ready hp hs hdest hlet
  refine (mem_letters ready).mpr ⟨p, hsent, ?_, hlet'⟩
  rw [Party.other_other]
  exact hdest'

theorem started_eq {i : Identity} {e : Engine} (h : Started C i e) :
    ∃ contacts, e = { Engine.new i.publicKey i.secretKey with
      contacts
      incomingRequests := (contacts.requests.map fun q => toHex q.peer).toFinset } := by
  obtain rfl | ⟨io, path, passphrase, rfl⟩ := h
  · exact ⟨{}, rfl⟩
  · refine ⟨((Engine.new i.publicKey i.secretKey).contacts.openAt C io path passphrase).1, ?_⟩
    have hfail := Store.openAt_failed C io path passphrase
    simp only [Engine.openStore]
    cases ho : (Engine.new i.publicKey i.secretKey).contacts.openAt C io path passphrase with
    | mk contacts ok =>
      cases ok with
      | true =>
        simp only [↓reduceIte, Engine.new, Finset.empty_union]
      | false =>
        have hr : contacts.requests = [] := by
          have ho' : ({} : Store).openAt C io path passphrase = (contacts, false) := ho
          rw [ho'] at hfail
          exact hfail rfl
        simp [hr, Engine.new]

theorem side_started {i : Identity} {e : Engine} (h : Started C i e) (q : Bytes) :
    (side C e q).Starting := by
  obtain ⟨contacts, rfl⟩ := started_eq h
  have hopened : ∀ s, Engine.opened C { Engine.new i.publicKey i.secretKey with
      contacts
      incomingRequests := (contacts.requests.map fun q => toHex q.peer).toFinset } q = some s →
      s.sendCounter = 0 ∧ s.haveReceived = false := by
    intro s hs
    obtain ⟨-, rfl⟩ := opened_new (by simp [Engine.session, Engine.new]) hs
    unfold Session.new
    split <;> exact ⟨rfl, rfl⟩
  refine ⟨?_, ?_, ?_, ?_, rfl, rfl⟩
  · rw [Bool.eq_iff_iff]
    simp [side]
  · simp [side, Engine.new]
  · simp only [side, sendCounter]
    cases ho : Engine.opened C _ q with
    | none => rfl
    | some s => exact (hopened s ho).1
  · simp only [side]
    cases ho : Engine.opened C _ q with
    | none => rfl
    | some s => simp [mark, (hopened s ho).2]

theorem ready_started {es : Engines} (h : ∀ X, Started C (K.identity X) (es X)) : Ready K es := by
  have hall : ∀ X, Sound C (es X) ∧ (es X).localPublic = K.key X ∧
      (es X).localSecret = (K.identity X).secretKey := by
    intro X
    obtain ⟨contacts, he⟩ := started_eq (h X)
    rw [he]
    exact ⟨⟨fun peer s hs => by simp [Engine.session, Engine.new] at hs, by simp [Engine.new]⟩,
      rfl, rfl⟩
  exact ⟨fun X => (hall X).1, fun X => (hall X).2.1, fun X => (hall X).2.2⟩

variable {ok : History Engines Move → Engines → Move → Prop} {es₀ : Engines}

theorem ready_run (hstart : ∀ X, Started C (K.identity X) (es₀ X)) {h : History Engines Move}
    {es : Engines} (run : Run (Engines.step C) ok es₀ h es) : Ready K es :=
  run.invariant (fun _ es => Ready K es) (ready_started hstart)
    fun _ _ m _ ready _ => ready.step m

/-- A run of the two engines is a run of the two sides. -/
theorem run_view (ok' : History Pair (Party × Act) → Pair → Party × Act → Prop)
    (hstart : ∀ X, Started C (K.identity X) (es₀ X))
    (hok : ∀ h es m, ok h es m → Keeping m ∧ Genuine K es m)
    (hok' : ∀ h es m, Run (Engines.step C) ok es₀ h es → ok h es m →
      ok' (views K h) (view K es) (m.view K es))
    {h : History Engines Move} {es : Engines} (run : Run (Engines.step C) ok es₀ h es) :
    Run Pair.step (fun h p m => p.Permits m ∧ ok' h p m) (view K es₀) (views K h) (view K es) := by
  refine run.simulate (view K) (fun es m => m.view K es) fun h es m run hm => ?_
  have ready : Ready K es := ready_run hstart run
  obtain ⟨hkeep, hgen⟩ := hok h es m hm
  exact ⟨view_step ready hkeep, permits_view ready hgen, hok' h es m run hm⟩

/-- The longest text that the receive buffer leaves whole. -/
def kLongestText : Nat := 1925

theorem brought_serialize {es fs : Engines} (ready : Ready K es) (ready' : Ready K fs) {X : Party}
    {p : Endpoint × Packet} {l : Letter} (hp : p ∈ (es X.other).socket.sent)
    (hd : p.2.destination = K.key X) (hl : letterOf C K.common p.2 = some l)
    (hlen : l.text.length ≤ kLongestText) {d : Datagram} (hdata : d.data = serialize p.2) :
    brought C (fs X) (K.key X.other) (some d) = some l := by
  obtain ⟨dest, packet⟩ := p
  have hkey : ∀ Y, (K.key Y).length = 32 := K.key_length
  have hlocal := ready.localPublic X.other
  have hw := (ready.sound X.other).wire _ hp
  dsimp only at hd hl hdata hw
  cases hw with
  | hello destination => simp [letterOf, encrypted_of_flags] at hl
  | sealed env s type text hv hloc hk ht =>
    have hdest := sealed_destination (C := C) env s type text
    rw [hdest] at hd
    have hs : s.sharedKey = K.common := ready.sharedKey hk (by rwa [Party.other_other])
    rw [← hs, letterOf_sealed env hv (agreeSharedKey_length hk).2] at hl
    cases hl
    let packet := Engine.sealedPacket C env s type text
    have hpacket : packet = { s.header type with
        payload := aeadSeal C env.nonce s.sharedKey text (associatedData (s.header type)) } :=
      Session.encryptAs_packet env.nonce hv type text
    have hpay : packet.payload.length = kAeadNonceBytes + (text.length + kAeadTagBytes) := by
      rw [hpacket]
      exact aeadSeal_length text _ (agreeSharedKey_length hk).2
    have hsrc : packet.source = K.key X.other := by
      rw [hpacket]
      exact hloc.trans hlocal
    have hdst : packet.destination = K.key X := hdest.trans hd
    have hsize : (serialize packet).length ≤ kReceiveBufferSize := by
      rw [serialize_length, hsrc, hdst, hkey, hkey, hpay]
      simp only [kLongestText, kHeaderSize, kAeadNonceBytes, kAeadTagBytes, kReceiveBufferSize] at *
      omega
    have hfits : Fits packet := by
      refine ⟨by rw [hpacket]; rfl, ?_, ?_, ?_⟩
      · rw [hsrc, hkey]
        omega
      · rw [hdst, hkey]
        omega
      · rw [hpay]
        simp only [kLongestText, kAeadNonceBytes, kAeadTagBytes] at *
        omega
    refine brought_eq_some_iff.mpr ⟨packet, ?_, ?_, ?_, hsrc, ?_, ?_⟩
    · rw [Option.bind_some, receive, hdata, List.take_of_length_le hsize]
      exact deserialize_serialize hfits
    · rw [hpacket]
      exact ht.1
    · rw [hpacket]
      exact ht.2
    · rw [hdst, ready'.localPublic]
    · rw [ready'.common, ← hs]
      exact letterOf_sealed env hv (agreeSharedKey_length hk).2 type text

def twoParties : Keyring reference where
  identity
    | .A => identity 1
    | .B => identity 2
  distinct := by decide
  public_of_secret X := by cases X <;> decide
  convertible X := by cases X <;> decide
  commutes x y p q hx hy hp hq := by
    cases hx
    cases hy
    cases hp
    cases hq
    decide

def clock : Env where
  nowSeconds := 0
  steadyNow := 0
  nonce := ⟨List.replicate kAeadNonceBytes 0, List.length_replicate⟩
  takes _ _ := true

def address : Endpoint := ⟨[], 0⟩

def newEngines : Engines := fun X =>
  .new (twoParties.identity X).publicKey (twoParties.identity X).secretKey

def box (X : Party) (counter : UInt64) (type : PacketType) (text : Bytes) : Datagram :=
  let session := Session.new reference (twoParties.key X) (twoParties.identity X).secretKey
    (twoParties.key X.other)
  ⟨address, serialize (Engine.sealedPacket reference clock { session with sendCounter := counter }
    type text)⟩

/-- What becomes of the two engines in a scene, played with one environment. -/
def scene (script : List (Party × Engine.Call)) : History Engines Move × Engines :=
  Run.replay (Engines.step reference) [] newEngines (script.map fun m => (m.1, clock, m.2))

theorem scene_run (ok : History Engines Move → Engines → Move → Prop)
    (script : List (Party × Engine.Call))
    (lawful : Run.Lawful (Engines.step reference) ok [] newEngines
      (script.map fun m => (m.1, clock, m.2))) :
    Run (Engines.step reference) (fun h es m => ok h es m ∧ Taken m) newEngines
      (scene script).1 (scene script).2 := by
  refine (Run.replay_run .start lawful).restrict (P := fun _ m => Taken m) fun m hm => ?_
  have hmem := List.mem_map_of_mem (f := (·.2)) hm
  rw [Run.replay_moves, List.map_nil, List.append_nil, List.mem_reverse] at hmem
  obtain ⟨c, -, hc⟩ := List.mem_map.mp hmem
  rw [← hc]
  exact fun _ _ => rfl

theorem newEngines_started (X : Party) : Started reference (twoParties.identity X) (newEngines X) :=
  .inl rfl

end OpenMesh.Messaging.Pairs
