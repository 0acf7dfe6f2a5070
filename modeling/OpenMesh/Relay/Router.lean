import OpenMesh.Net.Transport

namespace OpenMesh.Relay.Router

open OpenMesh.Core.Buffers OpenMesh.Net.Transport

structure Entry where
  endpoint : Endpoint
  lastSeen : Int := 0
  deriving DecidableEq

structure RouteTable where
  routes : Table Entry := ∅

namespace RouteTable

def upsert (r : RouteTable) (key : Bytes) (endpoint : Endpoint) (nowSeconds : Int) : RouteTable :=
  ⟨r.routes.insert key ⟨endpoint, nowSeconds⟩⟩

def lookup (r : RouteTable) (key : Bytes) : Option Endpoint :=
  (r.routes.lookup key).map (·.endpoint)

def expire (r : RouteTable) (cutoffSeconds : Int) : RouteTable :=
  ⟨r.routes.keep fun entry => ¬ entry.lastSeen < cutoffSeconds⟩

variable (r : RouteTable)

theorem entry_upsert (key : Bytes) (endpoint : Endpoint) (now : Int) :
    (r.upsert key endpoint now).routes.lookup key = some ⟨endpoint, now⟩ :=
  AList.lookup_insert _

theorem entry_upsert_ne {key k : Bytes} (hk : k ≠ key) (endpoint : Endpoint) (now : Int) :
    (r.upsert key endpoint now).routes.lookup k = r.routes.lookup k :=
  AList.lookup_insert_ne hk

theorem entry_expire (cutoff : Int) (key : Bytes) :
    (r.expire cutoff).routes.lookup key =
      (r.routes.lookup key).filter fun entry => ¬ entry.lastSeen < cutoff :=
  Table.lookup_keep r.routes _ key

end RouteTable

end OpenMesh.Relay.Router
