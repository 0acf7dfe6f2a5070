import OpenMesh.Storage.Blob

namespace OpenMesh.Storage.Database

open OpenMesh.Core.Buffers OpenMesh.Crypto.Primitives OpenMesh.Storage.Blob

/-- Trust state of a contact. A loaded byte is cast without a check, so a
record can carry a value with no name. -/
inductive TrustStatus where
  | pending | accepted | rejected | blocked
  | other (code : UInt8) (unnamed : 3 < code)
  deriving DecidableEq, Repr

namespace TrustStatus

def toByte : TrustStatus → UInt8
  | pending => 0
  | accepted => 1
  | rejected => 2
  | blocked => 3
  | other code _ => code

def ofByte (b : UInt8) : TrustStatus :=
  if b = 0 then pending
  else if b = 1 then accepted
  else if b = 2 then rejected
  else if b = 3 then blocked
  else if h : 3 < b then other b h
  else pending

end TrustStatus

structure Contact where
  publicKey : Bytes := []
  nickname : Bytes := []
  trust : TrustStatus := .pending
  lastSeen : Int64 := 0
  deriving DecidableEq

structure Message where
  peer : Bytes
  text : Bytes
  outgoing : Bool := false
  timestamp : Int64 := 0
  deriving DecidableEq

structure Request where
  peer : Bytes
  greeting : Bytes
  timestamp : Int64 := 0
  deriving DecidableEq

/-- `'O','M','D','B'`. -/
def kMagic : Bytes := [0x4F, 0x4D, 0x44, 0x42]

def kPayloadVersion : UInt8 := 2

def encodeContact (c : Contact) : Bytes :=
  putBytes c.publicKey ++ putStr c.nickname ++ putU8 c.trust.toByte ++ putU64 c.lastSeen.toUInt64

def encodeMessage (m : Message) : Bytes :=
  putBytes m.peer ++ putStr m.text ++ putU8 (if m.outgoing then 1 else 0) ++
    putU64 m.timestamp.toUInt64

def encodeRequest (q : Request) : Bytes :=
  putBytes q.peer ++ putStr q.greeting ++ putU64 q.timestamp.toUInt64

def encodeContacts (contacts : List Contact) : Bytes :=
  putU32 (UInt32.ofNat contacts.length) ++ contacts.flatMap encodeContact

def encode (contacts : List Contact) (messages : List Message) (requests : List Request) : Bytes :=
  putU8 kPayloadVersion ++ encodeContacts contacts ++
    (putU32 (UInt32.ofNat messages.length) ++ messages.flatMap encodeMessage) ++
    (putU32 (UInt32.ofNat requests.length) ++ requests.flatMap encodeRequest)

def decodeContact (r : Reader) : Except Stop (Contact × Reader) := do
  let (publicKey, r) ← r.bytes
  let (nickname, r) ← r.str
  let (trust, r) ← r.u8
  let (lastSeen, r) ← r.u64
  return (⟨publicKey, nickname, .ofByte trust, lastSeen.toInt64⟩, r)

def decodeMessage (r : Reader) : Except Stop (Message × Reader) := do
  let (peer, r) ← r.bytes
  let (text, r) ← r.str
  let (outgoing, r) ← r.u8
  let (timestamp, r) ← r.u64
  return (⟨peer, text, outgoing ≠ 0, timestamp.toInt64⟩, r)

def decodeRequest (r : Reader) : Except Stop (Request × Reader) := do
  let (peer, r) ← r.bytes
  let (greeting, r) ← r.str
  let (timestamp, r) ← r.u64
  return (⟨peer, greeting, timestamp.toInt64⟩, r)

def decodeContacts (r : Reader) : Except Stop (List Contact × Reader) := do
  let (count, r) ← r.u32
  r.many decodeContact count.toNat

def decode (blob : Bytes) : Except Stop (List Contact × List Message × List Request) := do
  let r : Reader := { b := blob }
  if blob.head? = some kPayloadVersion then
    let (_, r) ← r.u8
    let (contacts, r) ← decodeContacts r
    let (mcount, r) ← r.u32
    let (messages, r) ← r.many decodeMessage mcount.toNat
    let (qcount, r) ← r.u32
    let (requests, r) ← r.many decodeRequest qcount.toNat
    if r.done then return (contacts, messages, requests) else throw .refused
  else
    let (contacts, r) ← decodeContacts r
    if r.done then return (contacts, [], []) else throw .refused

/-- One call of `write_blob` made by `Store::save`. -/
structure Write where
  path : Bytes
  salt : Bytes
  key : Bytes
  payload : Bytes
  deriving DecidableEq

/-- The contact database. `writes` is what it has handed to the disk so far, in
order; whether a write succeeds is the disk's affair, since no mutator looks. -/
structure Store where
  contacts : List Contact := []
  messages : List Message := []
  requests : List Request := []
  persistent : Bool := false
  path : Bytes := []
  key : Bytes := []
  salt : Bytes := []
  writes : List Write := []

/-- What `Store::open` sees of the outside: whether the path exists, what
reading it gives, the random salt of a new file, and how its first write ends. -/
structure OpenIO where
  pathExists : Bool
  content : Option Bytes
  salt : { bytes : Bytes // bytes.length = kKdfSaltBytes }
  writeOk : Bool

namespace Store

def save (s : Store) : Store :=
  if s.persistent then
    { s with writes := s.writes ++ [⟨s.path, s.salt, s.key, encode s.contacts s.messages s.requests⟩] }
  else s

def openAt (C : Sodium) (io : OpenIO) (s : Store) (path passphrase : Bytes) : Store × Bool :=
  if io.pathExists then
    match readSalt io.content kMagic with
    | none => (s, false)
    | some salt =>
      let key := deriveKey C passphrase salt
      if key = [] then (s, false)
      else match readBlob C io.content kMagic key with
        | none => (s, false)
        | some plaintext => match decode plaintext with
          | .error _ => (s, false)
          | .ok (contacts, messages, requests) =>
            ({ s with contacts, messages, requests, salt, key, path, persistent := true }, true)
  else
    let key := deriveKey C passphrase io.salt
    if key = [] then (s, false)
    else ({ s with salt := io.salt, key, path, persistent := true }.save, io.writeOk)

def addContact (s : Store) (contact : Contact) : Store :=
  { s with contacts := s.contacts ++ [contact] }.save

def replaceFirst (contact : Contact) : List Contact → Option (List Contact)
  | [] => none
  | c :: cs => if c.publicKey = contact.publicKey then some (contact :: cs)
    else (replaceFirst contact cs).map (c :: ·)

def upsert (s : Store) (contact : Contact) : Store :=
  match replaceFirst contact s.contacts with
  | some contacts => { s with contacts }.save
  | none => { s with contacts := s.contacts ++ [contact] }.save

def find (s : Store) (publicKey : Bytes) : Option Contact :=
  s.contacts.find? (·.publicKey = publicKey)

def trustOf (s : Store) (publicKey : Bytes) : Option TrustStatus :=
  (s.contacts.find? (·.publicKey = publicKey)).map (·.trust)

def appendMessage (s : Store) (message : Message) : Store :=
  { s with messages := s.messages ++ [message] }.save

def conversation (s : Store) (peer : Bytes) : List Message :=
  s.messages.filter (·.peer = peer)

def addRequest (s : Store) (request : Request) : Store :=
  if s.requests.any (·.peer = request.peer) then s
  else { s with requests := s.requests ++ [request] }.save

def removeRequest (s : Store) (peer : Bytes) : Store :=
  let requests := s.requests.filter (·.peer ≠ peer)
  if requests.length ≠ s.requests.length then { s with requests }.save else { s with requests }

end Store

end OpenMesh.Storage.Database
