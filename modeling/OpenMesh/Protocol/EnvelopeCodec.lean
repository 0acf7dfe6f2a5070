import OpenMesh.Library.Wire
import OpenMesh.Protocol.Envelope

namespace OpenMesh.Protocol.EnvelopeCodec

open OpenMesh.Core.Buffers OpenMesh.Library.Wire OpenMesh.Protocol.Envelope

theorem toByte_injective : Function.Injective PacketType.toByte :=
  Function.LeftInverse.injective PacketType.ofByte_toByte

theorem putU16_eq (value : UInt16) : putU16 value = Codec.u16.put value := by
  change putU16 value = bigEndian 2 value.toNat
  simp only [putU16, bigEndian, List.cons.injEq, and_true, ← UInt8.toNat_inj]
  constructor <;> simp [Nat.shiftRight_eq_div_pow, Nat.and_two_pow_sub_one_eq_mod _ 8]

theorem putU64_eq (value : UInt64) : putU64 value = Codec.u64.put value := by
  change putU64 value = bigEndian 8 value.toNat
  simp only [putU64, List.map, bigEndian, List.cons.injEq, and_true, ← UInt8.toNat_inj]
  refine ⟨?_, ?_, ?_, ?_, ?_, ?_, ?_, ?_⟩ <;>
    simp [Nat.shiftRight_eq_div_pow, Nat.and_two_pow_sub_one_eq_mod _ 8]

theorem putField_eq {field : Bytes} (h : field.length ≤ 65535) :
    putField field = Codec.field.put field := by
  have hn : (UInt16.ofNat field.length).toNat = field.length :=
    UInt16.toNat_ofNat_of_lt' (Nat.lt_succ_of_le h)
  rw [putField, putU16_eq]
  change bigEndian 2 (UInt16.ofNat field.length).toNat ++ field = bigEndian 2 field.length ++ field
  rw [hn]

theorem getU16_value (hi lo : UInt8) :
    ((hi.toUInt16 <<< 8) ||| lo.toUInt16).toNat = ofBigEndian [hi, lo] := by
  have hh := hi.toNat_lt
  have hl := lo.toNat_lt
  have hor := Nat.shiftLeft_add_eq_or_of_lt (i := 8) hl hi.toNat
  have h8 : (8 : UInt16).toNat % 16 = 8 := rfl
  simp only [UInt16.toNat_or, UInt16.toNat_shiftLeft, UInt8.toNat_toUInt16, ofBigEndian, h8]
  norm_num [Nat.shiftLeft_eq] at hor ⊢
  rw [Nat.mod_eq_of_lt (by omega), ← hor]

def shiftIn (value : UInt64) (b : UInt8) : UInt64 := (value <<< 8) ||| b.toUInt64

theorem shiftIn_toNat {value : UInt64} (b : UInt8) (h : value.toNat < 256 ^ 7) :
    (shiftIn value b).toNat = value.toNat * 256 + b.toNat := by
  have hb := b.toNat_lt
  have hor := Nat.shiftLeft_add_eq_or_of_lt (i := 8) hb value.toNat
  have h8 : (8 : UInt64).toNat % 64 = 8 := rfl
  simp only [shiftIn, UInt64.toNat_or, UInt64.toNat_shiftLeft, UInt8.toNat_toUInt64, h8]
  norm_num [Nat.shiftLeft_eq] at h hor ⊢
  rw [Nat.mod_eq_of_lt (by omega), ← hor]

theorem foldl_shiftIn (bs : Bytes) (value : UInt64) (k : ℕ) (hk : k + bs.length = 8)
    (h : value.toNat < 256 ^ k) :
    (bs.foldl shiftIn value).toNat = value.toNat * 256 ^ bs.length + ofBigEndian bs :=
  foldl_shift UInt64.toNat shiftIn 8 (fun _ b hv => shiftIn_toNat b (by omega)) bs value k hk h

theorem byteAt_eq {bytes : Bytes} {offset : ℕ} {b : UInt8} {rest : Bytes}
    (h : bytes.drop offset = b :: rest) : byteAt bytes offset = .ok b := by
  have hb : bytes[offset]? = some b := by
    have := congrArg (·[0]?) h
    simpa using this
  simp [byteAt, hb]

theorem getU16_eq {bytes : Bytes} {offset : ℕ} {hi lo : UInt8} {rest : Bytes}
    (h : bytes.drop offset = hi :: lo :: rest) :
    getU16 bytes offset = .ok ((hi.toUInt16 <<< 8) ||| lo.toUInt16) := by
  have h1 : bytes.drop (offset + 1) = lo :: rest := by
    rw [← List.drop_drop, h, List.drop_succ_cons, List.drop_zero]
  simp only [getU16, byteAt_eq h, byteAt_eq h1]
  rfl

theorem foldlM_byteAt {α : Type} (bytes : Bytes) (offset : ℕ) (f : α → UInt8 → α) (n : ℕ)
    (v : α) (h : offset + n ≤ bytes.length) :
    (List.range n).foldlM (fun value i => do
      let b ← byteAt bytes (offset + i)
      return f value b) v = .ok (((bytes.drop offset).take n).foldl f v) := by
  induction n with
  | zero => rfl
  | succ n ih =>
    have hb : byteAt bytes (offset + n) = .ok bytes[offset + n] := by
      simp [byteAt, List.getElem?_eq_getElem (show offset + n < bytes.length by omega)]
    have ht : (bytes.drop offset).take (n + 1) =
        (bytes.drop offset).take n ++ [bytes[offset + n]] := by
      rw [List.take_succ_eq_append_getElem (by simp; omega), List.getElem_drop]
    rw [List.range_succ, List.foldlM_append, ih (by omega), ht, List.foldl_append]
    change (do let w ← Except.ok _; _) = _
    simp only [List.foldlM_cons, List.foldlM_nil, hb]
    rfl

theorem getU64_eq {bytes : Bytes} {offset : ℕ} (h : offset + 8 ≤ bytes.length) :
    getU64 bytes offset = .ok (((bytes.drop offset).take 8).foldl shiftIn 0) :=
  foldlM_byteAt bytes offset shiftIn 8 0 h

theorem readField_eq {bytes : Bytes} {offset : ℕ} (h : offset ≤ bytes.length) :
    readField bytes offset = match Codec.field.get (bytes.drop offset) with
      | some (field, rest) => .ok (field, bytes.length - rest.length)
      | none => .error .refused := by
  have hl : (bytes.drop offset).length = bytes.length - offset := List.length_drop
  rcases hd : bytes.drop offset with _ | ⟨hi, _ | ⟨lo, rest⟩⟩
  · have h2 : offset + 2 > bytes.length := by rw [hd] at hl; simp at hl; omega
    simp [readField, h2, Codec.field, Codec.nat]
    rfl
  · have h2 : offset + 2 > bytes.length := by rw [hd] at hl; simp at hl; omega
    simp [readField, h2, Codec.field, Codec.nat]
    rfl
  · have hlen : bytes.length = offset + 2 + rest.length := by
      rw [hd] at hl; simp only [List.length_cons] at hl; omega
    have hdrop : bytes.drop (offset + 2) = rest := by
      rw [← List.drop_drop, hd]; rfl
    have hn := getU16_value hi lo
    generalize hv : (hi.toUInt16 <<< 8) ||| lo.toUInt16 = len at hn
    have hget : Codec.field.get (hi :: lo :: rest) =
        if len.toNat ≤ rest.length then some (rest.take len.toNat, rest.drop len.toNat) else none := by
      simp [Codec.field, Codec.nat, hn]
    have h2 : ¬ offset + 2 > bytes.length := by omega
    rw [hget]
    simp only [readField, h2, getU16_eq hd, hv]
    by_cases hle : len.toNat ≤ rest.length
    · have h3 : offset + 2 + len.toNat ≤ bytes.length := by omega
      have hs : (bytes.take (offset + 2 + len.toNat)).drop (offset + 2) = rest.take len.toNat := by
        rw [List.drop_take, hdrop]; congr 1; omega
      have ho : bytes.length - (rest.length - len.toNat) = offset + 2 + len.toNat := by omega
      simp only [hle, ↓reduceIte, List.length_drop, ho]
      simp [h3, slice, hs, Nat.not_lt.mpr h3, bind, Except.bind, pure, Except.pure]
    · have h3 : offset + 2 + len.toNat > bytes.length := by omega
      simp only [hle, ↓reduceIte]
      simp [h3, bind, Except.bind]
      rfl

theorem drop_of_get {α : Type} (c : Codec α) {bytes : Bytes} {offset : ℕ} {a : α} {rest : Bytes}
    (h : c.get (bytes.drop offset) = some (a, rest)) :
    bytes.length - rest.length ≤ bytes.length ∧ bytes.drop (bytes.length - rest.length) = rest := by
  have hs : rest <:+ bytes := by
    obtain ⟨_, hp⟩ := c.put_get _ _ _ h
    exact List.IsSuffix.trans ⟨c.put a, hp.symm⟩ (List.drop_suffix offset bytes)
  exact ⟨Nat.sub_le _ _, List.suffix_iff_eq_drop.mp hs |>.symm⟩

def fields : Codec (Bytes × Bytes × Bytes) := Codec.field.pair (Codec.field.pair Codec.field)

theorem readFields_eq {bytes : Bytes} {offset : ℕ} (h : offset ≤ bytes.length) :
    readFields bytes offset = match fields.get (bytes.drop offset) with
      | some ((source, destination, payload), rest) =>
        .ok (source, destination, payload, bytes.length - rest.length)
      | none => .error .refused := by
  simp only [readFields, readField_eq h, fields, Codec.pair]
  rcases hs : Codec.field.get (bytes.drop offset) with _ | ⟨source, rest⟩
  · rfl
  obtain ⟨hle, hdrop⟩ := drop_of_get _ hs
  simp only [bind, Except.bind, readField_eq hle, hdrop, Option.bind_some]
  rcases hd : Codec.field.get rest with _ | ⟨destination, rest'⟩
  · rfl
  rw [← hdrop] at hd
  obtain ⟨hle', hdrop'⟩ := drop_of_get _ hd
  simp only [readField_eq hle', hdrop', Option.bind_some]
  rcases Codec.field.get rest' with _ | ⟨payload, rest''⟩
  · rfl
  · rfl

/-- What a datagram can carry: the version is the supported one and every
field fits its two-byte length. -/
structure Fits (packet : Packet) : Prop where
  version : packet.version = kProtocolVersion
  source : packet.source.length ≤ 65535
  destination : packet.destination.length ≤ 65535
  payload : packet.payload.length ≤ 65535

theorem parse_header (m₀ m₁ version type flags c₀ c₁ c₂ c₃ c₄ c₅ c₆ c₇ : UInt8) (rest : Bytes)
    (out : Packet) :
    parse (m₀ :: m₁ :: version :: type :: flags :: c₀ :: c₁ :: c₂ :: c₃ :: c₄ :: c₅ :: c₆ :: c₇ :: rest)
        out =
      if (m₀.toUInt16 <<< 8) ||| m₁.toUInt16 ≠ kMagic then .ok (.badMagic, out)
      else if version ≠ kProtocolVersion then .ok (.unsupportedVersion, out)
      else match fields.get rest with
        | none => .ok (.truncatedField, out)
        | some ((source, destination, payload), rest') =>
          if rest' ≠ [] then .ok (.trailingBytes, out)
          else .ok (.ok, { version, type := .ofByte type, flags, source, destination, payload,
                           counter := [c₀, c₁, c₂, c₃, c₄, c₅, c₆, c₇].foldl shiftIn 0 }) := by
  generalize hb : m₀ :: m₁ :: version :: type :: flags :: c₀ :: c₁ :: c₂ :: c₃ :: c₄ :: c₅ :: c₆ ::
    c₇ :: rest = bytes
  have hlen : bytes.length = 13 + rest.length := by
    rw [← hb]; simp only [List.length_cons]; omega
  have hd : bytes.drop 13 = rest := by rw [← hb]; rfl
  have h13 : ¬ bytes.length < kHeaderSize := by simp [kHeaderSize]; omega
  have hm : getU16 bytes 0 = .ok ((m₀.toUInt16 <<< 8) ||| m₁.toUInt16) := by rw [← hb]; rfl
  have hv : byteAt bytes 2 = .ok version := by rw [← hb]; rfl
  have ht : byteAt bytes 3 = .ok type := by rw [← hb]; rfl
  have hf : byteAt bytes 4 = .ok flags := by rw [← hb]; rfl
  have hc : getU64 bytes 5 = .ok ([c₀, c₁, c₂, c₃, c₄, c₅, c₆, c₇].foldl shiftIn 0) := by
    rw [getU64_eq (by omega), ← hb]; rfl
  simp only [parse, h13, hm, hv, ht, hf, hc, readFields_eq (show 13 ≤ bytes.length by omega), hd]
  simp only [↓reduceIte, bind, Except.bind, pure, Except.pure, ite_not]
  split_ifs with h1 h2
  · rcases fields.get rest with _ | ⟨⟨source, destination, payload⟩, rest'⟩
    · rfl
    · cases rest' with
      | nil => simp
      | cons b rest' =>
        have hne : bytes.length - (rest'.length + 1) ≠ bytes.length := by omega
        simp [hne]
  · rfl
  · rfl

def envelope : Codec (UInt16 × UInt8 × UInt8 × UInt8 × UInt64 × Bytes × Bytes) :=
  Codec.u16.pair (Codec.byte.pair (Codec.byte.pair (Codec.byte.pair
    (Codec.u64.pair (Codec.field.pair Codec.field)))))

theorem writeHeaderAndRouting_eq {packet : Packet} (hs : packet.source.length ≤ 65535)
    (hd : packet.destination.length ≤ 65535) :
    writeHeaderAndRouting packet = envelope.put (kMagic, packet.version, packet.type.toByte,
      packet.flags, packet.counter, packet.source, packet.destination) := by
  simp only [writeHeaderAndRouting, putU16_eq, putU64_eq, putField_eq hs, putField_eq hd,
    envelope, Codec.pair, Codec.byte, List.append_assoc]

/-- The associated data fixes the whole envelope, and no associated data is a
proper prefix of another. -/
theorem associatedData_append_inj {p q : Packet} {xs ys : Bytes}
    (hps : p.source.length ≤ 65535) (hpd : p.destination.length ≤ 65535)
    (hqs : q.source.length ≤ 65535) (hqd : q.destination.length ≤ 65535)
    (h : associatedData p ++ xs = associatedData q ++ ys) :
    (p.version = q.version ∧ p.type = q.type ∧ p.flags = q.flags ∧ p.counter = q.counter ∧
      p.source = q.source ∧ p.destination = q.destination) ∧ xs = ys := by
  rw [associatedData, associatedData, writeHeaderAndRouting_eq hps hpd,
    writeHeaderAndRouting_eq hqs hqd] at h
  have hdom : ∀ r : Packet, r.source.length ≤ 65535 → r.destination.length ≤ 65535 →
      envelope.dom (kMagic, r.version, r.type.toByte, r.flags, r.counter, r.source,
        r.destination) := by
    intro r hs hd
    have hm := kMagic.toNat_lt
    have hc := r.counter.toNat_lt
    refine ⟨?_, trivial, trivial, trivial, ?_, Nat.lt_succ_of_le hs, Nat.lt_succ_of_le hd⟩
    · simpa [Codec.u16, Codec.iso, Codec.nat] using hm
    · simpa [Codec.u64, Codec.iso, Codec.nat] using hc
  obtain ⟨he, hx⟩ := envelope.put_append_inj (hdom p hps hpd) (hdom q hqs hqd) h
  simp only [Prod.mk.injEq, true_and] at he
  obtain ⟨hv, ht, hf, hc, hs, hd⟩ := he
  exact ⟨⟨hv, toByte_injective ht, hf, hc, hs, hd⟩, hx⟩

theorem serialize_eq {packet : Packet} (h : Fits packet) :
    serialize packet = putU16 kMagic ++ [packet.version, packet.type.toByte, packet.flags] ++
      putU64 packet.counter ++ fields.put (packet.source, packet.destination, packet.payload) := by
  simp [serialize, writeHeaderAndRouting, putField_eq h.source, putField_eq h.destination,
    putField_eq h.payload, fields, Codec.pair]

theorem foldl_shiftIn_putU64 (value : UInt64) : (putU64 value).foldl shiftIn 0 = value := by
  have h := foldl_shiftIn (putU64 value) 0 0 rfl (by simp)
  rw [← UInt64.toNat_inj, h, putU64_eq]
  change 0 * _ + ofBigEndian (bigEndian 8 value.toNat) = _
  rw [ofBigEndian_bigEndian, zero_mul, zero_add, Nat.mod_eq_of_lt]
  exact lt_of_lt_of_eq value.toNat_lt (by norm_num)

theorem putU64_foldl_shiftIn {bs : Bytes} (h : bs.length = 8) :
    putU64 (bs.foldl shiftIn 0) = bs := by
  have hv := foldl_shiftIn bs 0 0 (by simp [h]) (by simp)
  rw [putU64_eq]
  change bigEndian 8 (bs.foldl shiftIn 0).toNat = bs
  simp only [hv, UInt64.toNat_zero, zero_mul, zero_add]
  rw [← h, bigEndian_ofBigEndian]

theorem putU16_kMagic : putU16 kMagic = [0x4F, 0x4D] := by decide

theorem magic_bytes {m₀ m₁ : UInt8} (h : (m₀.toUInt16 <<< 8) ||| m₁.toUInt16 = kMagic) :
    [m₀, m₁] = putU16 kMagic := by
  have hb := bigEndian_ofBigEndian [m₀, m₁]
  rw [← getU16_value, h] at hb
  rw [putU16_eq]
  exact hb.symm

theorem parse_serialize {packet : Packet} (h : Fits packet) (out : Packet) :
    parse (serialize packet) out = .ok (.ok, packet) := by
  obtain ⟨c₀, c₁, c₂, c₃, c₄, c₅, c₆, c₇, hc⟩ : ∃ c₀ c₁ c₂ c₃ c₄ c₅ c₆ c₇,
    putU64 packet.counter = [c₀, c₁, c₂, c₃, c₄, c₅, c₆, c₇] := ⟨_, _, _, _, _, _, _, _, rfl⟩
  have hv := foldl_shiftIn_putU64 packet.counter
  have hf := fields.get_put (packet.source, packet.destination, packet.payload) []
    ⟨Nat.lt_succ_of_le h.source, Nat.lt_succ_of_le h.destination, Nat.lt_succ_of_le h.payload⟩
  have hm : ((0x4F : UInt8).toUInt16 <<< 8) ||| (0x4D : UInt8).toUInt16 = kMagic := by decide
  rw [hc] at hv
  rw [List.append_nil] at hf
  rw [serialize_eq h, hc, putU16_kMagic]
  simp only [List.cons_append, List.nil_append, parse_header, hm, h.version, hf, hv,
    PacketType.ofByte_toByte, ne_eq, not_true_eq_false, ↓reduceIte]
  rw [← h.version]

/-- The parser never reads outside the buffer, and what it accepts is a
serialization. -/
theorem parse_total (bytes : Bytes) (out : Packet) : ∃ code packet,
    parse bytes out = .ok (code, packet) ∧
      (code = .ok → Fits packet ∧ bytes = serialize packet) := by
  rcases bytes with _ | ⟨m₀, _ | ⟨m₁, _ | ⟨version, _ | ⟨type, _ | ⟨flags, _ | ⟨c₀, _ | ⟨c₁, _ |
    ⟨c₂, _ | ⟨c₃, _ | ⟨c₄, _ | ⟨c₅, _ | ⟨c₆, _ | ⟨c₇, rest⟩⟩⟩⟩⟩⟩⟩⟩⟩⟩⟩⟩⟩
  case cons.cons.cons.cons.cons.cons.cons.cons.cons.cons.cons.cons.cons =>
    rw [parse_header]
    split_ifs with hm hv
    · exact ⟨_, _, rfl, nofun⟩
    · exact ⟨_, _, rfl, nofun⟩
    · cases hf : fields.get rest with
      | none => exact ⟨_, _, rfl, nofun⟩
      | some found =>
        obtain ⟨⟨source, destination, payload⟩, rest'⟩ := found
        cases rest' with
        | cons b rest' => exact ⟨.trailingBytes, out, by simp, nofun⟩
        | nil =>
          refine ⟨.ok, _, rfl, fun _ => ?_⟩
          obtain ⟨⟨hs, hd, hp⟩, rfl⟩ := fields.put_get _ _ _ hf
          have hfits : Fits ⟨version, .ofByte type, flags,
              [c₀, c₁, c₂, c₃, c₄, c₅, c₆, c₇].foldl shiftIn 0, source, destination, payload⟩ :=
            ⟨by simpa using hv, Nat.le_of_lt_succ hs, Nat.le_of_lt_succ hd, Nat.le_of_lt_succ hp⟩
          refine ⟨hfits, ?_⟩
          rw [serialize_eq hfits, ← magic_bytes (by simpa using hm), putU64_foldl_shiftIn rfl,
            PacketType.toByte_ofByte]
          simp
  all_goals exact ⟨.tooShort, out, rfl, nofun⟩

theorem serialize_parse {bytes : Bytes} {out packet : Packet}
    (h : parse bytes out = .ok (.ok, packet)) : Fits packet ∧ bytes = serialize packet := by
  obtain ⟨code, packet', hp, hcode⟩ := parse_total bytes out
  rw [h] at hp
  cases hp
  exact hcode rfl

theorem deserialize_serialize {packet : Packet} (h : Fits packet) :
    deserialize (serialize packet) = some packet := by
  rw [deserialize, parse_serialize h]

theorem serialize_deserialize {bytes : Bytes} {packet : Packet}
    (h : deserialize bytes = some packet) : Fits packet ∧ bytes = serialize packet := by
  apply @serialize_parse bytes {} packet
  unfold deserialize at h
  split at h
  case h_1 hp => rw [hp, Option.some.inj h]
  case h_2 => cases h

theorem deserialize_eq_some_iff {bytes : Bytes} {packet : Packet} :
    deserialize bytes = some packet ↔ Fits packet ∧ bytes = serialize packet := by
  constructor
  · exact serialize_deserialize
  · rintro ⟨h, rfl⟩
    exact deserialize_serialize h

theorem serialize_length (packet : Packet) : (serialize packet).length =
    kHeaderSize + 6 + packet.source.length + packet.destination.length + packet.payload.length := by
  simp only [serialize, writeHeaderAndRouting, putField, putU16, putU64, kHeaderSize,
    List.length_append, List.length_cons, List.length_nil, List.length_map]
  omega

theorem serialize_header (packet : Packet) : ∃ rest, serialize packet =
    0x4F :: 0x4D :: packet.version :: packet.type.toByte :: rest := by
  rw [serialize, writeHeaderAndRouting, putU16_kMagic]
  simp only [List.append_assoc, List.cons_append, List.nil_append]
  exact ⟨_, rfl⟩

theorem deserialize_take_type {p q : Packet} {n : ℕ}
    (h : deserialize ((serialize p).take n) = some q) : q.type = p.type := by
  obtain ⟨-, hq⟩ := serialize_deserialize h
  obtain ⟨rest, hp⟩ := serialize_header p
  obtain ⟨rest', hq'⟩ := serialize_header q
  have hbytes : (0x4F :: 0x4D :: q.version :: q.type.toByte :: rest') ++ (serialize p).drop n =
      0x4F :: 0x4D :: p.version :: p.type.toByte :: rest := by
    rw [← hq', ← hq, List.take_append_drop, hp]
  simp only [List.cons_append, List.cons.injEq, true_and] at hbytes
  exact toByte_injective hbytes.2.1

theorem deserialize_take_envelope {p q : Packet} {n : ℕ} (hs : p.source.length ≤ 65535)
    (hd : p.destination.length ≤ 65535) (h : deserialize ((serialize p).take n) = some q) :
    (q.version = p.version ∧ q.type = p.type ∧ q.flags = p.flags ∧ q.counter = p.counter ∧
      q.source = p.source ∧ q.destination = p.destination) ∧
      putField q.payload ++ (serialize p).drop n = putField p.payload := by
  obtain ⟨fits, hq⟩ := serialize_deserialize h
  apply associatedData_append_inj fits.source fits.destination hs hd
  calc associatedData q ++ (putField q.payload ++ (serialize p).drop n)
      = serialize q ++ (serialize p).drop n := (List.append_assoc _ _ _).symm
    _ = (serialize p).take n ++ (serialize p).drop n := by rw [hq]
    _ = associatedData p ++ putField p.payload := List.take_append_drop n _

/-- Of what fits the format, only the whole is parsed. -/
theorem deserialize_take {p q : Packet} {n : ℕ} (fits : Fits p)
    (h : deserialize ((serialize p).take n) = some q) : q = p := by
  have fits' := (serialize_deserialize h).1
  obtain ⟨⟨hv, hty, hf, hc, hs, hd⟩, hpayload⟩ :=
    deserialize_take_envelope fits.source fits.destination h
  rw [putField_eq fits'.payload, putField_eq fits.payload,
    ← List.append_nil (Codec.field.put p.payload)] at hpayload
  obtain ⟨hp, -⟩ := Codec.field.put_append_inj (Nat.lt_succ_of_le fits'.payload)
    (Nat.lt_succ_of_le fits.payload) hpayload
  exact Packet.ext hv hty hf hc hs hd hp

/-- The codec is an exact pair: a buffer is accepted with `packet` exactly when
it is the serialization of `packet` and `packet` fits the format, and no buffer
is read outside its bounds. -/
theorem parse_ok_iff (bytes : Bytes) (out packet : Packet) :
    (parse bytes out = .ok (.ok, packet) ↔ packet.version = kProtocolVersion ∧
      packet.source.length ≤ 65535 ∧ packet.destination.length ≤ 65535 ∧
      packet.payload.length ≤ 65535 ∧ bytes = serialize packet) ∧
    ∃ code left, parse bytes out = .ok (code, left) := by
  constructor
  · constructor
    · intro h
      obtain ⟨fits, hb⟩ := serialize_parse h
      exact ⟨fits.version, fits.source, fits.destination, fits.payload, hb⟩
    · rintro ⟨hv, hs, hd, hp, rfl⟩
      exact parse_serialize ⟨hv, hs, hd, hp⟩ out
  · obtain ⟨code, left, h, -⟩ := parse_total bytes out
    exact ⟨code, left, h⟩

end OpenMesh.Protocol.EnvelopeCodec
