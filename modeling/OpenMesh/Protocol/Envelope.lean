import OpenMesh.Core.Buffers

namespace OpenMesh.Protocol.Envelope

open OpenMesh.Core.Buffers

/-- Wire packet types. The enumeration has a byte underneath, so a received
packet can carry any of the 256 values; `other` holds the unnamed ones. -/
inductive PacketType where
  | hello | register | discover | connect | contactRequest | contactResponse
  | message | ack | heartbeat | disconnect
  | other (code : UInt8) (unnamed : code = 0 ∨ 0x0A < code)
  deriving DecidableEq, Repr

namespace PacketType

def toByte : PacketType → UInt8
  | hello => 0x01
  | register => 0x02
  | discover => 0x03
  | connect => 0x04
  | contactRequest => 0x05
  | contactResponse => 0x06
  | message => 0x07
  | ack => 0x08
  | heartbeat => 0x09
  | disconnect => 0x0A
  | other code _ => code

def ofByte (b : UInt8) : PacketType :=
  if b = 0x01 then hello
  else if b = 0x02 then register
  else if b = 0x03 then discover
  else if b = 0x04 then connect
  else if b = 0x05 then contactRequest
  else if b = 0x06 then contactResponse
  else if b = 0x07 then message
  else if b = 0x08 then ack
  else if b = 0x09 then heartbeat
  else if b = 0x0A then disconnect
  else if h : b = 0 ∨ 0x0A < b then other b h
  else hello

theorem toByte_ofByte (b : UInt8) : (ofByte b).toByte = b := by
  have h : ∀ n : Fin 256, (ofByte (UInt8.ofFin n)).toByte = UInt8.ofFin n := by decide +kernel
  simpa using h b.toFin

theorem ofByte_toByte (t : PacketType) : ofByte t.toByte = t := by
  cases t with
  | other code h =>
    have hne : ∀ c : UInt8, c ≤ 0x0A → c ≠ 0 → code ≠ c := by
      rintro c hle h0 rfl
      obtain rfl | h := h
      · exact h0 rfl
      · exact UInt8.not_le.mpr h hle
    simp [ofByte, toByte, hne, h]
  | _ => rfl

end PacketType

def kMagic : UInt16 := 0x4F4D
def kProtocolVersion : UInt8 := 1
def kHeaderSize : Nat := 13

def kFlagNone : UInt8 := 0x00
def kFlagEncrypted : UInt8 := 0x01

@[ext]
structure Packet where
  version : UInt8 := kProtocolVersion
  type : PacketType := .hello
  flags : UInt8 := kFlagNone
  counter : UInt64 := 0
  source : Bytes := []
  destination : Bytes := []
  payload : Bytes := []
  deriving DecidableEq, Repr

def Packet.hasFlag (packet : Packet) (f : UInt8) : Bool := packet.flags &&& f ≠ 0
def Packet.encrypted (packet : Packet) : Bool := packet.hasFlag kFlagEncrypted

inductive ParseError where
  | ok | tooShort | badMagic | unsupportedVersion | truncatedField | trailingBytes
  deriving DecidableEq, Repr

def putU16 (value : UInt16) : Bytes :=
  [((value >>> 8) &&& 0xFF).toUInt8, (value &&& 0xFF).toUInt8]

def putU64 (value : UInt64) : Bytes :=
  ([56, 48, 40, 32, 24, 16, 8, 0] : List UInt64).map fun shift => ((value >>> shift) &&& 0xFF).toUInt8

/-- The length is cast to two bytes: a field of 65536 bytes or more is written
behind the wrong length, which only an assertion would catch. -/
def putField (field : Bytes) : Bytes := putU16 (UInt16.ofNat field.length) ++ field

def getU16 (bytes : Bytes) (offset : Nat) : Except Stop UInt16 := do
  let hi ← byteAt bytes offset
  let lo ← byteAt bytes (offset + 1)
  return (hi.toUInt16 <<< 8) ||| lo.toUInt16

def getU64 (bytes : Bytes) (offset : Nat) : Except Stop UInt64 :=
  (List.range 8).foldlM (fun value i => do
    let b ← byteAt bytes (offset + i)
    return (value <<< 8) ||| b.toUInt64) 0

def readField (bytes : Bytes) (offset : Nat) : Except Stop (Bytes × Nat) := do
  if offset + 2 > bytes.length then throw .refused
  let len ← getU16 bytes offset
  let offset := offset + 2
  if offset + len.toNat > bytes.length then throw .refused
  let field ← slice bytes offset (offset + len.toNat)
  return (field, offset + len.toNat)

def writeHeaderAndRouting (packet : Packet) : Bytes :=
  putU16 kMagic ++ [packet.version] ++ [packet.type.toByte] ++ [packet.flags] ++
    putU64 packet.counter ++ putField packet.source ++ putField packet.destination

def serialize (packet : Packet) : Bytes :=
  writeHeaderAndRouting packet ++ putField packet.payload

def associatedData (packet : Packet) : Bytes := writeHeaderAndRouting packet

/-- The three fields in order; a short-circuit `||` in the source. -/
def readFields (bytes : Bytes) (offset : Nat) : Except Stop (Bytes × Bytes × Bytes × Nat) := do
  let (source, offset) ← readField bytes offset
  let (destination, offset) ← readField bytes offset
  let (payload, offset) ← readField bytes offset
  return (source, destination, payload, offset)

/-- The result code and the packet left in `out`. Only a read outside the
buffer is an error of the model. -/
def parse (bytes : Bytes) (out : Packet) : Except Stop (ParseError × Packet) := do
  if bytes.length < kHeaderSize then return (.tooShort, out)
  if (← getU16 bytes 0) ≠ kMagic then return (.badMagic, out)
  let version ← byteAt bytes 2
  let type := PacketType.ofByte (← byteAt bytes 3)
  let flags ← byteAt bytes 4
  let counter ← getU64 bytes 5
  if version ≠ kProtocolVersion then return (.unsupportedVersion, out)
  match readFields bytes 13 with
  | .error .refused => return (.truncatedField, out)
  | .error .outside => throw .outside
  | .ok (source, destination, payload, offset) =>
    if offset ≠ bytes.length then return (.trailingBytes, out)
    return (.ok, { version, type, flags, counter, source, destination, payload })

/-- The packet that `deserialize` leaves behind when it returns true. -/
def deserialize (bytes : Bytes) : Option Packet :=
  match parse bytes {} with
  | .ok (.ok, packet) => some packet
  | _ => none

end OpenMesh.Protocol.Envelope
