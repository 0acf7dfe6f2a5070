import OpenMesh.Crypto.Primitives
import OpenMesh.Protocol.EnvelopeCodec

namespace OpenMesh.Messaging.Sessions

open OpenMesh.Core.Buffers OpenMesh.Crypto.Primitives OpenMesh.Protocol.Envelope

structure Session where
  localPublic : Bytes
  remotePublic : Bytes
  sharedKey : Bytes := []
  valid : Bool := false
  sendCounter : UInt64 := 0
  haveReceived : Bool := false
  lastReceived : UInt64 := 0
  deriving DecidableEq

namespace Session

variable (C : Sodium)

def new (localPublic localSecret remotePublic : Bytes) : Session :=
  match agreeSharedKey C localSecret remotePublic with
  | some key => { localPublic, remotePublic, sharedKey := key, valid := true }
  | none => { localPublic, remotePublic }

def header (s : Session) (type : PacketType) : Packet where
  type := type
  flags := kFlagEncrypted
  counter := s.sendCounter
  source := s.localPublic
  destination := s.remotePublic

def encryptAs (nonce : Nonce) (s : Session) (type : PacketType) (plaintext : Bytes) :
    Session × Packet :=
  let packet := s.header type
  let s := { s with sendCounter := s.sendCounter + 1 }
  if s.valid then
    (s, { packet with payload := aeadSeal C nonce s.sharedKey plaintext (associatedData packet) })
  else (s, packet)

def encrypt (nonce : Nonce) (s : Session) (plaintext : Bytes) : Session × Packet :=
  s.encryptAs C nonce .message plaintext

def decrypt (s : Session) (packet : Packet) : Option (Bytes × Session) :=
  if s.valid = false then none
  else if packet.encrypted = false then none
  else if packet.source ≠ s.remotePublic ∨ packet.destination ≠ s.localPublic then none
  else if s.haveReceived ∧ packet.counter ≤ s.lastReceived then none
  else match aeadOpen C s.sharedKey packet.payload (associatedData packet) with
    | none => none
    | some plaintext =>
      some (plaintext, { s with haveReceived := true, lastReceived := packet.counter })

def Fresh (s : Session) (counter : UInt64) : Prop := s.haveReceived → s.lastReceived < counter

instance (s : Session) (counter : UInt64) : Decidable (s.Fresh counter) :=
  inferInstanceAs (Decidable (_ → _))

variable {C}

theorem decrypt_eq_some_iff {s s' : Session} {packet : Packet} {plaintext : Bytes} :
    s.decrypt C packet = some (plaintext, s') ↔
      (s.valid ∧ packet.encrypted ∧ packet.source = s.remotePublic ∧
        packet.destination = s.localPublic ∧ s.Fresh packet.counter ∧
        aeadOpen C s.sharedKey packet.payload (associatedData packet) = some plaintext) ∧
      s' = { s with haveReceived := true, lastReceived := packet.counter } := by
  unfold decrypt Fresh
  split_ifs with h1 h2 h3 h4
  · simp [h1]
  · simp [h2]
  · obtain h3 | h3 := h3 <;> simp [h3]
  · refine iff_of_false (by simp) fun h => ?_
    exact UInt64.not_lt.mpr h4.2 (h.1.2.2.2.2.1 h4.1)
  · have hf : s.haveReceived → s.lastReceived < packet.counter :=
      fun hr => UInt64.not_le.mp fun hle => h4 ⟨hr, hle⟩
    have hsd : packet.source = s.remotePublic ∧ packet.destination = s.localPublic := by
      simpa only [ne_eq, not_or, not_not] using h3
    cases aeadOpen C s.sharedKey packet.payload (associatedData packet) with
    | none => simp
    | some m =>
      constructor
      · intro he
        cases he
        exact ⟨⟨by simpa using h1, by simpa using h2, hsd.1, hsd.2, hf, rfl⟩, rfl⟩
      · rintro ⟨⟨_, _, _, _, _, hm⟩, rfl⟩
        cases hm
        rfl

@[simp] theorem encryptAs_session (nonce : Nonce) (s : Session) (type : PacketType)
    (plaintext : Bytes) :
    (s.encryptAs C nonce type plaintext).1 = { s with sendCounter := s.sendCounter + 1 } := by
  simp only [encryptAs]
  split <;> rfl

theorem encryptAs_packet (nonce : Nonce) {s : Session} (hv : s.valid) (type : PacketType)
    (plaintext : Bytes) :
    (s.encryptAs C nonce type plaintext).2 =
      { s.header type with
        payload := aeadSeal C nonce s.sharedKey plaintext (associatedData (s.header type)) } := by
  simp [encryptAs, hv]

theorem associatedData_payload (packet : Packet) (payload : Bytes) :
    associatedData { packet with payload } = associatedData packet := rfl

end Session

end OpenMesh.Messaging.Sessions
