import OpenMesh.Net.Transport

namespace OpenMesh.Signaling.Registry

open OpenMesh.Core.Buffers OpenMesh.Net.Transport

structure Entry where
  endpoint : Endpoint
  lastSeen : Int
  deriving DecidableEq

structure PeerRegistry where
  peers : Table Entry := ∅

namespace PeerRegistry

def upsert (r : PeerRegistry) (fingerprint : Bytes) (endpoint : Endpoint) (nowSeconds : Int) :
    PeerRegistry := ⟨r.peers.insert fingerprint ⟨endpoint, nowSeconds⟩⟩

def lookup (r : PeerRegistry) (fingerprint : Bytes) : Option Endpoint :=
  (r.peers.lookup fingerprint).map (·.endpoint)

def remove (r : PeerRegistry) (fingerprint : Bytes) : PeerRegistry × Bool :=
  (⟨r.peers.erase fingerprint⟩, (r.peers.lookup fingerprint).isSome)

def expire (r : PeerRegistry) (cutoffSeconds : Int) : PeerRegistry :=
  ⟨r.peers.keep fun entry => ¬ entry.lastSeen < cutoffSeconds⟩

variable (r : PeerRegistry)

theorem entry_upsert (fingerprint key : Bytes) (endpoint : Endpoint) (now : Int) :
    (r.upsert fingerprint endpoint now).peers.lookup key =
      if key = fingerprint then some ⟨endpoint, now⟩ else r.peers.lookup key := by
  unfold upsert
  by_cases h : key = fingerprint
  · rw [if_pos h, h, AList.lookup_insert]
  · rw [if_neg h, AList.lookup_insert_ne h]

theorem entry_remove (fingerprint key : Bytes) :
    (r.remove fingerprint).1.peers.lookup key =
      if key = fingerprint then none else r.peers.lookup key := by
  unfold remove
  by_cases h : key = fingerprint
  · rw [if_pos h, h, AList.lookup_erase]
  · rw [if_neg h, AList.lookup_erase_ne h]

theorem entry_expire (cutoff : Int) (key : Bytes) :
    (r.expire cutoff).peers.lookup key =
      (r.peers.lookup key).filter fun entry => ¬ entry.lastSeen < cutoff :=
  Table.lookup_keep r.peers _ key

end PeerRegistry

end OpenMesh.Signaling.Registry
