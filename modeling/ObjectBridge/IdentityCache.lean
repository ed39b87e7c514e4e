import ObjectBridge.Dict
import ObjectBridge.Memory

/-!
# The identity cache

One object of the host is represented by one userdata, as long as scripts hold on to it. The cache
remembers which: by the address of the root for borrowed objects, by the slot for weak objects, by
the address of the root for shared and for owned objects, and by address and kind for containers.
The cache must not keep its userdata alive, so an entry only tells under which reference of a table
with weak values the userdata is to be found, and which userdata it was.
-/

namespace ObjectBridge

/-- An entry: a reference of the weak valued table, and the userdata stored there. -/
structure CacheEntry where
  reference : Int
  userdata : Nat
  deriving DecidableEq, Inhabited

/-- The userdata that represent host objects. -/
structure IdentityCache where
  /-- Borrowed objects, by the address of the root. -/
  borrowed : Dict Address CacheEntry := .empty
  /-- Weak objects, by slot. -/
  weak : Dict Nat CacheEntry := .empty
  /-- Shared objects, by the address of the root. -/
  shared : Dict Address CacheEntry := .empty
  /-- Containers, borrowed or owned. -/
  containers : Dict (Address × ContainerKind) CacheEntry := .empty
  /-- Objects owned by their userdata, by the address of the root. -/
  owned : Dict Address CacheEntry := .empty

namespace IdentityCache

instance : Inhabited IdentityCache := ⟨{}⟩

/-- The number of slots that weak objects have room for once slot `index` is in use: the room grows
in steps of `increment`, and by one slot at least. -/
def weakRoom (increment index : Nat) : Nat :=
  let step := max increment 1
  (index / step + 1) * step

/-- The number of entries. -/
def size (c : IdentityCache) : Nat :=
  c.borrowed.size + c.weak.size + c.shared.size + c.containers.size + c.owned.size

end IdentityCache

/-- A key of the cache, with the map it is looked up in. -/
inductive CacheKey where
  | borrowed (root : Address)
  | weak (index : Nat)
  | shared (root : Address)
  | container (a : Address) (kind : ContainerKind)
  | owned (root : Address)
  deriving DecidableEq, Inhabited

namespace IdentityCache

/-- The entry of a key. -/
def find? (c : IdentityCache) : CacheKey → Option CacheEntry
  | .borrowed root => c.borrowed.find? root
  | .weak index => c.weak.find? index
  | .shared root => c.shared.find? root
  | .container a kind => c.containers.find? (a, kind)
  | .owned root => c.owned.find? root

/-- Give a key an entry. -/
def insert (c : IdentityCache) (k : CacheKey) (e : CacheEntry) : IdentityCache :=
  match k with
  | .borrowed root => { c with borrowed := c.borrowed.insert root e }
  | .weak index => { c with weak := c.weak.insert index e }
  | .shared root => { c with shared := c.shared.insert root e }
  | .container a kind => { c with containers := c.containers.insert (a, kind) e }
  | .owned root => { c with owned := c.owned.insert root e }

/-- Remove the entry of a key. -/
def erase (c : IdentityCache) : CacheKey → IdentityCache
  | .borrowed root => { c with borrowed := c.borrowed.erase root }
  | .weak index => { c with weak := c.weak.erase index }
  | .shared root => { c with shared := c.shared.erase root }
  | .container a kind => { c with containers := c.containers.erase (a, kind) }
  | .owned root => { c with owned := c.owned.erase root }

/-- The entry of a key, if it is the entry of the given userdata. -/
def entryOf (c : IdentityCache) (k : CacheKey) (userdata : Nat) : Option CacheEntry :=
  (c.find? k).filter fun e ↦ e.userdata = userdata

end IdentityCache

end ObjectBridge
