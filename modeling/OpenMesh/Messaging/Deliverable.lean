import OpenMesh.Messaging.Resumption

namespace OpenMesh.Messaging.Deliverable

open OpenMesh.Core.Buffers OpenMesh.Core.Hex OpenMesh.Crypto.Primitives
open OpenMesh.Crypto.Reference OpenMesh.Library.Runs
open OpenMesh.Protocol.Envelope OpenMesh.Net.Transport OpenMesh.Storage.Database
open OpenMesh.Messaging.Sessions OpenMesh.Messaging.Operations OpenMesh.Messaging.Sides
open OpenMesh.Messaging.Projection OpenMesh.Messaging.Simulation OpenMesh.Messaging.Pairs
open OpenMesh.Messaging.Routes OpenMesh.Messaging.Resumption

variable {C : Sodium}

/-- Between two states, exactly one text from the peer has come in: it is at the end of the
conversation, and the handler, if there is one, was called with it. -/
def Delivers (e e' : Engine) (peer text : Bytes) : Prop :=
  received e'.contacts.messages peer = received e.contacts.messages peer ++ [text] ∧
    handedOver e'.messageHandler.calls peer = handedOver e.messageHandler.calls peer ++
      if e.messageHandler.installed then [text] else []

instance (e e' : Engine) (peer text : Bytes) : Decidable (Delivers e e' peer text) :=
  inferInstanceAs (Decidable (_ ∧ _))

variable {K : Keyring C}

theorem delivers_iff {es es' : Engines} {X : Party} {a : Act} {text : Bytes}
    (h : view K es' X.other = (view K es X.other).act a) :
    Delivers (es X.other) (es' X.other) (K.key X.other.other) text ↔
      (view K es X.other).heard a = [text] := by
  have hinbox := congrArg Side.inbox h
  have hhanded := congrArg Side.handed h
  rw [Side.act_inbox] at hinbox
  rw [Side.act_handed] at hhanded
  change received _ _ = received _ _ ++ _ at hinbox
  change handedOver _ _ = handedOver _ _ ++ if (es X.other).messageHandler.installed then _ else _
    at hhanded
  rw [Delivers, hinbox, hhanded]
  constructor
  · rintro ⟨hr, -⟩
    exact List.append_cancel_left hr
  · intro hheard
    rw [hheard]
    exact ⟨rfl, rfl⟩

/-- The message for which `send` returned true, when its datagram is polled whole by the peer,
is delivered exactly if it fits into the receive buffer and its counter is above
all that the peer has opened. -/
theorem delivered_iff_fits {X : Party} {es₀ es : Engines}
    {h : Party → History Engine (Env × Engine.Call)} {env env' : Env} {text : Bytes}
    {origin dest : Endpoint} {packet : Packet}
    (hstart : ∀ Y, Started C (K.identity Y) (es₀ Y))
    (run : ∀ Y, Run (engineStep C) (fun _ _ m => m.2.reopens = false) (es₀ Y) (h Y) (es Y))
    (ht : ∀ Y, (es Y).trustOf (K.key Y.other) = some .accepted)
    (hsend : ((es X).send C env (K.key X.other) text).2 = true)
    (hsent : ((es X).send C env (K.key X.other) text).1.socket.sent =
      (es X).socket.sent ++ [(dest, packet)]) :
    Delivers (es X.other) ((es X.other).poll C env' (some ⟨origin, serialize packet⟩)).1
        (K.key X) text ↔
      text.length ≤ kLongestText ∧ ∀ c ∈ ((es X.other).opened C (K.key X)).bind mark,
        c < sendCounter C (es X) (K.key X.other) := by
  have ready : Ready K es := ⟨fun Y => sound_run (hstart Y) (run Y),
    fun Y => (keys_run (hstart Y) (run Y)).1, fun Y => (keys_run (hstart Y) (run Y)).2⟩
  let es₁ := es.step C (X, env, .send (K.key X.other) text)
  let es₂ := es₁.step C (X.other, env', .poll (some ⟨origin, serialize packet⟩))
  have hself : es₁ X = ((es X).send C env (K.key X.other) text).1 := by
    simp only [es₁, Engines.step, Function.update_self]
    rfl
  have hother : es₁ X.other = es X.other := by
    simp only [es₁, Engines.step]
    exact Function.update_of_ne (Party.other_ne X) _ _
  have hpoll : es₂ X.other = ((es X.other).poll C env' (some ⟨origin, serialize packet⟩)).1 := by
    rw [← hother]
    simp only [es₂, Engines.step, Function.update_self]
    rfl
  obtain ⟨a, -, hact, hshort, hall⟩ := exchanged_step env' origin ready hsend
    (show (es₁ X).socket.sent = _ by rw [hself, hsent]) rfl (rfl : es₂ = _)
  have hiff : _ ↔ _ = [text] := delivers_iff hact
  have htrust : (view K es X.other).trust = some .accepted := ht X.other
  rw [heard_message htrust hshort hall, hpoll, Party.other_other] at hiff
  rw [hiff, and_comm]
  simp only [view, side, Party.other_other]

def friends : Engines := fun X =>
  engineStep reference (newEngines X) (clock, .addPeer (twoParties.key X.other) address)

theorem friends_run (Y : Party) : Run (engineStep reference) (fun _ _ m => m.2.reopens = false)
    (newEngines Y) [(newEngines Y, clock, .addPeer (twoParties.key Y.other) address)]
    (friends Y) := by
  unfold friends
  exact .move .start rfl

theorem delivered_iff_fits_short :
    Delivers (friends .B) ((friends .B).poll reference clock
      (some ⟨address, serialize (firstPacket [7])⟩)).1 (twoParties.key .A) [7] := by
  have ht : ∀ Y, (friends Y).trustOf (twoParties.key Y.other) = some .accepted := by decide +kernel
  have hsend : ((friends .A).send reference clock (twoParties.key .B) [7]).2 = true := by
    decide +kernel
  have hsent : ((friends .A).send reference clock (twoParties.key .B) [7]).1.socket.sent =
      (friends .A).socket.sent ++ [(address, firstPacket [7])] := by decide +kernel
  have hmark : ((friends .B).opened reference (twoParties.key .A)).bind mark = none := by
    decide +kernel
  have hiff : Delivers _ ((friends .B).poll reference clock (some ⟨address, _⟩)).1 _ _ ↔ _ :=
    delivered_iff_fits (X := .A) newEngines_started friends_run ht hsend hsent
  simp only [Party.other] at hiff
  rw [hmark] at hiff
  exact hiff.mpr ⟨by decide, fun c hc => absurd hc (Option.not_mem_none c)⟩

def tooLong : Bytes := List.replicate 1926 33

/-- The call of `send` returns true, the whole datagram comes in as the first, and nothing is
delivered. -/
theorem long_message_lost :
    (∀ Y, (friends Y).trustOf (twoParties.key Y.other) = some .accepted) ∧
      ((friends .A).send reference clock (twoParties.key .B) tooLong).2 = true ∧
      ((friends .A).send reference clock (twoParties.key .B) tooLong).1.socket.sent =
        (friends .A).socket.sent ++ [(address, firstPacket tooLong)] ∧
      (serialize (firstPacket tooLong)).length ≤ 65507 ∧
      ((friends .B).opened reference (twoParties.key .A)).bind mark = none ∧
      ¬ Delivers (friends .B) ((friends .B).poll reference clock
        (some ⟨address, serialize (firstPacket tooLong)⟩)).1 (twoParties.key .A) tooLong :=
  ⟨by decide +kernel, by decide +kernel, by decide +kernel, by decide +kernel, by decide +kernel,
    by decide +kernel⟩

end OpenMesh.Messaging.Deliverable
