import OpenMesh.Crypto.Primitives

namespace OpenMesh.Storage.Blob

open OpenMesh.Core.Buffers OpenMesh.Crypto.Primitives

def kFileVersion : UInt8 := 1
def kSaltBytes : Nat := 16
def kHeaderSize : Nat := 4 + 1 + kSaltBytes

def putU8 (v : UInt8) : Bytes := [v]

def putU16 (v : UInt16) : Bytes := [(v >>> 8).toUInt8, (v &&& 0xFF).toUInt8]

def putU32 (v : UInt32) : Bytes :=
  ([24, 16, 8, 0] : List UInt32).map fun s => ((v >>> s) &&& 0xFF).toUInt8

def putU64 (v : UInt64) : Bytes :=
  ([56, 48, 40, 32, 24, 16, 8, 0] : List UInt64).map fun s => ((v >>> s) &&& 0xFF).toUInt8

def putBytes (b : Bytes) : Bytes := putU16 (UInt16.ofNat b.length) ++ b

def putStr (s : Bytes) : Bytes := putBytes s

/-- The bounds-checked cursor. Its reads still go through `byteAt`, so a wrong
check would show as a read outside the buffer. -/
structure Reader where
  b : Bytes
  off : Nat := 0

namespace Reader

def u8 (r : Reader) : Except Stop (UInt8 × Reader) := do
  if r.off + 1 > r.b.length then throw .refused
  let v ← byteAt r.b r.off
  return (v, { r with off := r.off + 1 })

def u16 (r : Reader) : Except Stop (UInt16 × Reader) := do
  if r.off + 2 > r.b.length then throw .refused
  let hi ← byteAt r.b r.off
  let lo ← byteAt r.b (r.off + 1)
  return ((hi.toUInt16 <<< 8) ||| lo.toUInt16, { r with off := r.off + 2 })

def u32 (r : Reader) : Except Stop (UInt32 × Reader) := do
  if r.off + 4 > r.b.length then throw .refused
  let v ← (List.range 4).foldlM (fun (v : UInt32) i => do
    let b ← byteAt r.b (r.off + i)
    return (v <<< 8) ||| b.toUInt32) 0
  return (v, { r with off := r.off + 4 })

def u64 (r : Reader) : Except Stop (UInt64 × Reader) := do
  if r.off + 8 > r.b.length then throw .refused
  let v ← (List.range 8).foldlM (fun (v : UInt64) i => do
    let b ← byteAt r.b (r.off + i)
    return (v <<< 8) ||| b.toUInt64) 0
  return (v, { r with off := r.off + 8 })

def bytes (r : Reader) : Except Stop (Bytes × Reader) := do
  let (n, r) ← r.u16
  if r.off + n.toNat > r.b.length then throw .refused
  let out ← slice r.b r.off (r.off + n.toNat)
  return (out, { r with off := r.off + n.toNat })

def str (r : Reader) : Except Stop (Bytes × Reader) := r.bytes

def done (r : Reader) : Bool := r.off = r.b.length

def many {α : Type} (record : Reader → Except Stop (α × Reader)) :
    Nat → Reader → Except Stop (List α × Reader)
  | 0, r => return ([], r)
  | n + 1, r => do
    let (a, r) ← record r
    let (as, r) ← many record n r
    return (a :: as, r)

end Reader

def validHeader (file magic : Bytes) : Bool :=
  kHeaderSize ≤ file.length && file.take 4 = magic && file[4]? = some kFileVersion

/-- `file` is what `read_file` returns. -/
def readSalt (file : Option Bytes) (magic : Bytes) : Option Bytes :=
  match file with
  | none => none
  | some file => if validHeader file magic then some ((file.drop 5).take kSaltBytes) else none

/-- The bytes that `write_blob` puts in the file, or none where it refuses
before it touches the disk. -/
def sealedFile (C : Sodium) (nonce : Nonce) (magic salt key plaintext : Bytes) : Option Bytes :=
  if salt.length ≠ kSaltBytes ∨ key.length ≠ kSessionKeyBytes then none
  else
    let out := magic ++ [kFileVersion] ++ salt
    let box := aeadSeal C nonce key plaintext out
    if box = [] then none else some (out ++ box)

def readBlob (C : Sodium) (file : Option Bytes) (magic key : Bytes) : Option Bytes :=
  match file with
  | none => none
  | some file =>
    if validHeader file magic then aeadOpen C key (file.drop kHeaderSize) (file.take kHeaderSize)
    else none

end OpenMesh.Storage.Blob
