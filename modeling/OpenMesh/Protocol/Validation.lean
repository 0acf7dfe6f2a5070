import OpenMesh.Protocol.EnvelopeCodec

namespace OpenMesh.Protocol.Validation

open OpenMesh.Core.Buffers OpenMesh.Library.Wire OpenMesh.Protocol.Envelope
  OpenMesh.Protocol.EnvelopeCodec

theorem putField_bytes (field : Bytes) : ∃ hi lo : UInt8,
    hi.toNat * 256 + lo.toNat = field.length % 65536 ∧ putField field = hi :: lo :: field := by
  have hv : ofBigEndian (putU16 (UInt16.ofNat field.length)) = field.length % 65536 := by
    rw [putU16_eq]
    change ofBigEndian (bigEndian 2 (UInt16.ofNat field.length).toNat) = _
    rw [ofBigEndian_bigEndian, UInt16.toNat_ofNat']
    norm_num
  refine ⟨_, _, ?_, rfl⟩
  simpa [putU16, ofBigEndian] using hv

/-- The associated data is the envelope, and nothing of the payload: what two
packets have to share for their associated data to be equal, or for one to
begin with the other. -/
theorem associatedData_binds {p q : Packet} (hps : p.source.length ≤ 65535)
    (hpd : p.destination.length ≤ 65535) (hqs : q.source.length ≤ 65535)
    (hqd : q.destination.length ≤ 65535) :
    (associatedData p = associatedData q ↔ p.version = q.version ∧ p.type = q.type ∧
      p.flags = q.flags ∧ p.counter = q.counter ∧ p.source = q.source ∧
      p.destination = q.destination) ∧
    (associatedData p <+: associatedData q → associatedData p = associatedData q) ∧
    ∃ hi lo : UInt8, hi.toNat * 256 + lo.toNat = p.payload.length % 65536 ∧
      serialize p = associatedData p ++ hi :: lo :: p.payload := by
  refine ⟨⟨fun h => ?_, ?_⟩, ?_, ?_⟩
  · have happ : associatedData p ++ [] = associatedData q ++ [] := by rw [h]
    exact (associatedData_append_inj hps hpd hqs hqd happ).1
  · rintro ⟨hv, ht, hf, hc, hs, hd⟩
    simp only [associatedData, writeHeaderAndRouting, hv, ht, hf, hc, hs, hd]
  · rintro ⟨more, h⟩
    rw [← List.append_nil (associatedData q)] at h
    obtain ⟨-, rfl⟩ := associatedData_append_inj hps hpd hqs hqd h
    simpa using h
  · obtain ⟨hi, lo, hn, hput⟩ := putField_bytes p.payload
    refine ⟨hi, lo, hn, ?_⟩
    rw [serialize, associatedData, hput]

/-- Two packets whose routing fields hold the same bytes, cut in two places. -/
def cutEarly : Packet := { source := [1, 2], destination := [3] }
def cutLate : Packet := { source := [1], destination := [2, 3] }

theorem cutEarly_cutLate : (associatedData cutEarly = associatedData cutLate ↔
      cutEarly.version = cutLate.version ∧ cutEarly.type = cutLate.type ∧
      cutEarly.flags = cutLate.flags ∧ cutEarly.counter = cutLate.counter ∧
      cutEarly.source = cutLate.source ∧ cutEarly.destination = cutLate.destination) ∧
    (associatedData cutEarly <+: associatedData cutLate →
      associatedData cutEarly = associatedData cutLate) ∧
    ∃ hi lo : UInt8, hi.toNat * 256 + lo.toNat = cutEarly.payload.length % 65536 ∧
      serialize cutEarly = associatedData cutEarly ++ hi :: lo :: cutEarly.payload :=
  associatedData_binds (by decide) (by decide) (by decide) (by decide)

/-- What lies behind a length-prefixed field, if its two length bytes and all
of its bytes are there. -/
def behindField : Bytes → Option Bytes
  | hi :: lo :: rest =>
    let len := hi.toNat * 256 + lo.toNat
    if len ≤ rest.length then some (rest.drop len) else none
  | _ => none

/-- The result code that a byte string deserves, rule by rule. -/
def ruling (bytes : Bytes) : ParseError :=
  if bytes.length < 13 then .tooShort
  else if bytes.take 2 ≠ [0x4F, 0x4D] then .badMagic
  else if bytes[2]? ≠ some 1 then .unsupportedVersion
  else match ((behindField (bytes.drop 13)).bind behindField).bind behindField with
    | none => .truncatedField
    | some rest => if rest ≠ [] then .trailingBytes else .ok

theorem behindField_eq (bytes : Bytes) :
    behindField bytes = (Codec.field.get bytes).map Prod.snd := by
  cases bytes with
  | nil => rfl
  | cons hi bytes =>
    cases bytes with
    | nil => rfl
    | cons lo rest =>
      have hn : ofBigEndian [hi, lo] = hi.toNat * 256 + lo.toNat := by simp [ofBigEndian]
      by_cases hle : hi.toNat * 256 + lo.toNat ≤ rest.length
      · simp [behindField, Codec.field, Codec.nat, hn, hle]
      · simp [behindField, Codec.field, Codec.nat, hn, hle]

theorem behindFields_eq (bytes : Bytes) :
    ((behindField bytes).bind behindField).bind behindField =
      (fields.get bytes).map Prod.snd := by
  rw [behindField_eq, fields]
  cases hs : Codec.field.get bytes with
  | none => simp [Codec.pair, hs]
  | some found =>
    obtain ⟨source, rest⟩ := found
    cases hd : Codec.field.get rest with
    | none => simp [Codec.pair, hs, hd, behindField_eq]
    | some found =>
      obtain ⟨destination, rest⟩ := found
      cases hp : Codec.field.get rest with
      | none => simp [Codec.pair, hs, hd, hp, behindField_eq]
      | some found => simp [Codec.pair, hs, hd, hp, behindField_eq]

theorem magic_iff (m₀ m₁ : UInt8) :
    (m₀.toUInt16 <<< 8) ||| m₁.toUInt16 = kMagic ↔ [m₀, m₁] = [0x4F, 0x4D] := by
  refine ⟨fun h => ?_, fun h => ?_⟩
  · rw [magic_bytes h, putU16_kMagic]
  · simp only [List.cons.injEq, and_true] at h
    obtain ⟨rfl, rfl⟩ := h
    decide

/-- The validator never reads outside the buffer, answers with the first rule
that is broken, and leaves `out` alone unless every rule holds. -/
theorem parse_rules (bytes : Bytes) (out : Packet) : ∃ left,
    parse bytes out = .ok (ruling bytes, left) ∧ (ruling bytes ≠ .ok → left = out) := by
  by_cases hshort : bytes.length < 13
  · refine ⟨out, ?_, fun _ => rfl⟩
    simp [parse, ruling, kHeaderSize, hshort]
    rfl
  obtain ⟨m₀, m₁, version, type, flags, c₀, c₁, c₂, c₃, c₄, c₅, c₆, c₇, rest, rfl⟩ :
      ∃ m₀ m₁ version type flags c₀ c₁ c₂ c₃ c₄ c₅ c₆ c₇ rest, bytes =
        m₀ :: m₁ :: version :: type :: flags :: c₀ :: c₁ :: c₂ :: c₃ :: c₄ :: c₅ :: c₆ :: c₇ ::
          rest := by
    obtain _ | ⟨m₀, _ | ⟨m₁, _ | ⟨version, _ | ⟨type, _ | ⟨flags, _ | ⟨c₀, _ | ⟨c₁, _ | ⟨c₂, _ |
      ⟨c₃, _ | ⟨c₄, _ | ⟨c₅, _ | ⟨c₆, _ | ⟨c₇, rest⟩⟩⟩⟩⟩⟩⟩⟩⟩⟩⟩⟩⟩ := bytes
    case cons.cons.cons.cons.cons.cons.cons.cons.cons.cons.cons.cons.cons =>
      exact ⟨_, _, _, _, _, _, _, _, _, _, _, _, _, _, rfl⟩
    all_goals exact absurd (by simp) hshort
  rw [parse_header, ruling, if_neg hshort]
  simp only [List.take_succ_cons, List.take_zero, List.getElem?_cons_succ, List.getElem?_cons_zero,
    Option.some.injEq, List.drop_succ_cons, List.drop_zero, behindFields_eq, ne_eq, magic_iff,
    kProtocolVersion]
  by_cases hm : [m₀, m₁] = [0x4F, 0x4D]
  case neg => exact ⟨out, by simp only [hm, not_false_eq_true, ↓reduceIte], fun _ => rfl⟩
  simp only [hm, not_true_eq_false, ↓reduceIte]
  by_cases hv : version = 1
  case neg => exact ⟨out, by simp only [hv, not_false_eq_true, ↓reduceIte], fun _ => rfl⟩
  simp only [hv, not_true_eq_false, ↓reduceIte]
  cases fields.get rest with
  | none => exact ⟨out, rfl, fun _ => rfl⟩
  | some found =>
    obtain ⟨⟨source, destination, payload⟩, behind⟩ := found
    cases behind with
    | nil => exact ⟨_, rfl, fun h => absurd rfl h⟩
    | cons b behind => exact ⟨out, rfl, fun _ => rfl⟩

end OpenMesh.Protocol.Validation
