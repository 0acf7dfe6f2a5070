import OpenMesh.Protocol.Envelope

namespace OpenMesh.Net.Transport

open OpenMesh.Core.Buffers OpenMesh.Protocol.Envelope

@[ext]
structure Endpoint where
  host : Bytes
  port : UInt16
  deriving DecidableEq, Repr

def colon : UInt8 := 0x3A

def decimal (n : Nat) : Bytes := (Nat.toDigits 10 n).map fun c => UInt8.ofNat c.toNat

def Endpoint.toString (e : Endpoint) : Bytes := e.host ++ colon :: decimal e.port.toNat

def rfind (s : Bytes) (c : UInt8) : Option Nat :=
  match s with
  | [] => none
  | b :: bs => match rfind bs c with
    | some pos => some (pos + 1)
    | none => if b = c then some 0 else none

def isSpace (b : UInt8) : Bool := b = 0x20 || (0x09 ≤ b && b ≤ 0x0D)
def isDigit (b : UInt8) : Bool := 0x30 ≤ b && b ≤ 0x39

def digitsValue (digits : Bytes) : Nat := digits.foldl (fun n d => n * 10 + (d.toNat - 0x30)) 0

/-- `std::strtoul` in base ten: leading blanks, an optional sign, then digits
up to the first other byte. Too large a number saturates, a minus sign negates
in the unsigned type, and no digits at all give zero. -/
def strtoul (s : Bytes) : UInt64 :=
  let s := s.dropWhile isSpace
  let (negative, s) := match s with
    | b :: bs => if b = 0x2D then (true, bs) else if b = 0x2B then (false, bs) else (false, s)
    | [] => (false, [])
  let n := digitsValue (s.takeWhile isDigit)
  if 2 ^ 64 ≤ n then UInt64.ofNat (2 ^ 64 - 1)
  else if negative then 0 - UInt64.ofNat n else UInt64.ofNat n

def parseEndpoint (payload : Bytes) : Option Endpoint :=
  if payload = [] then none
  else match rfind payload colon with
    | none => none
    | some pos =>
      if payload.length ≤ pos + 1 then none
      else some ⟨payload.take pos, (strtoul (payload.drop (pos + 1))).toUInt16⟩

structure Datagram where
  origin : Endpoint
  data : Bytes
  deriving DecidableEq, Repr

def kReceiveBufferSize : Nat := 2048

/-- `recvfrom` cuts a longer datagram to the buffer it is given. -/
def receive (d : Datagram) : Datagram := { d with data := d.data.take kReceiveBufferSize }

/-- What matters of a socket: the packets whose datagrams the OS has taken, in
order, each with the address it was sent to. -/
structure UdpSocket where
  sent : List (Endpoint × Packet) := []

/-- `send_to(dest, serialize(packet))`, where `takes` is the answer of the OS. -/
def UdpSocket.sendTo (socket : UdpSocket) (takes : Endpoint → Bytes → Bool) (dest : Endpoint)
    (packet : Packet) : UdpSocket × Bool :=
  if takes dest (serialize packet) then ({ sent := socket.sent ++ [(dest, packet)] }, true)
  else (socket, false)

end OpenMesh.Net.Transport
