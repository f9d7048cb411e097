import Mathlib.Data.List.AList
import Gitility.Base.Links

/-!
# The weighted slab LRU

`crates/gitility-core/src/lru.rs`. Keys map to stable slab indices and each occupied node is
threaded on an intrusive doubly linked recency list. Every operation returns an option:
`none` stands for the two ways the Rust code can fail to return, an index panic or the
`expect("linked LRU index must name an occupied node")` panic, and for an eviction loop that
does not end.
-/

namespace Gitility

/-- `u64::MAX`. -/
def u64Max : ℕ := 2 ^ 64 - 1

/-- `u64::saturating_add`. -/
def saturatingAdd (a b : ℕ) : ℕ := min (a + b) u64Max

/-- `lru.rs` `Node`. -/
structure Node (K V : Type) where
  key : K
  value : V
  weight : ℕ
  previous : Option ℕ
  next : Option ℕ
  deriving DecidableEq

/-- `lru.rs` `LruCache`. The head of `free` is the end Rust pushes to and pops from. -/
structure LruCache (K V : Type) where
  indices : AList fun _ : K ↦ ℕ
  nodes : List (Option (Node K V))
  free : List ℕ
  leastRecent : Option ℕ
  mostRecent : Option ℕ
  used : ℕ
  capacity : ℕ

namespace LruCache

variable {K V : Type}

/-- `LruCache::new`. -/
def new (capacity : ℕ) : LruCache K V where
  indices := ∅
  nodes := []
  free := []
  leastRecent := none
  mostRecent := none
  used := 0
  capacity := capacity

/-- `LruCache::len`. -/
def len (c : LruCache K V) : ℕ := c.indices.entries.length

/-- `LruCache::node`, whose failure is the `expect` panic. -/
def node (c : LruCache K V) (index : ℕ) : Option (Node K V) := c.nodes[index]?.join

/-- Assignment through `LruCache::node_mut`, with the same panic. -/
def nodeMut (c : LruCache K V) (index : ℕ) (f : Node K V → Node K V) :
    Option (LruCache K V) :=
  (c.node index).map fun node ↦ { c with nodes := c.nodes.set index (some (f node)) }

/-- The `if let Some(previous)` step that redirects what precedes a slot. -/
def linkNext (c : LruCache K V) (previous next : Option ℕ) : Option (LruCache K V) :=
  match previous with
  | some previous => c.nodeMut previous fun node ↦ { node with next }
  | none => some { c with leastRecent := next }

/-- `LruCache::touch`. -/
def touch (c : LruCache K V) (index : ℕ) : Option (LruCache K V) :=
  if c.mostRecent = some index then some c
  else do
    let node ← c.node index
    let c ← c.linkNext node.previous node.next
    let c ← match node.next with
      | some next => c.nodeMut next fun n ↦ { n with previous := node.previous }
      | none => some c
    let oldMostRecent := c.mostRecent
    let c ← c.nodeMut index fun n ↦ { n with previous := oldMostRecent, next := none }
    let c ← c.linkNext oldMostRecent (some index)
    return { c with mostRecent := some index }

variable [DecidableEq K]

/-- `LruCache::remove_index`: an unoccupied slot is answered with `None`, not with a panic. -/
def removeIndex (c : LruCache K V) (index : ℕ) : Option (Option (Node K V) × LruCache K V) :=
  match c.node index with
  | none => some (none, c)
  | some node => do
    let c := { c with nodes := c.nodes.set index none }
    let c ← c.linkNext node.previous node.next
    let c ← match node.next with
      | some next => c.nodeMut next fun n ↦ { n with previous := node.previous }
      | none => some { c with mostRecent := node.previous }
    return (some node, { c with
      indices := c.indices.erase node.key
      used := c.used - node.weight
      free := index :: c.free })

/-- `LruCache::get`, which promotes the entry it returns. -/
def get (c : LruCache K V) (key : K) : Option (Option V × LruCache K V) :=
  match c.indices.lookup key with
  | none => some (none, c)
  | some index => do
    let c ← c.touch index
    let slot ← c.nodes[index]?
    return (slot.map Node.value, c)

/-- The eviction loop of `insert_counting_evictions`, with its eviction count. -/
def evict (weight : ℕ) : ℕ → LruCache K V → ℕ → Option (ℕ × LruCache K V)
  | 0, _, _ => none
  | fuel + 1, c, evictions =>
    if saturatingAdd c.used weight > c.capacity then
      match c.leastRecent with
      | none => some (evictions, c)
      | some index => do
        let (_, c) ← c.removeIndex index
        evict weight fuel c (saturatingAdd evictions 1)
    else some (evictions, c)

/-- `self.free.pop().unwrap_or_else(..)`: a slot to fill, growing the slab when none is free. -/
def allocate (c : LruCache K V) : ℕ × LruCache K V :=
  match c.free with
  | index :: free => (index, { c with free })
  | [] => (c.nodes.length, { c with nodes := c.nodes ++ [none] })

/-- The tail of `insert_counting_evictions`: fill a slot and append it to the recency list. -/
def pushNode (c : LruCache K V) (key : K) (value : V) (weight : ℕ) : Option (LruCache K V) := do
  let (index, c) := c.allocate
  let previous := c.mostRecent
  let _ ← c.nodes[index]?
  let c := { c with nodes := c.nodes.set index (some ⟨key, value, weight, previous, none⟩) }
  let c ← c.linkNext previous (some index)
  return { c with
    mostRecent := some index
    used := saturatingAdd c.used weight
    indices := c.indices.insert key index }

/-- The replacement that opens `insert_counting_evictions`. -/
def dropKey (c : LruCache K V) (key : K) : Option (LruCache K V) :=
  match c.indices.lookup key with
  | some index => (c.removeIndex index).map Prod.snd
  | none => some c

/-- `LruCache::insert_counting_evictions`. -/
def insertCountingEvictions (c : LruCache K V) (key : K) (value : V) (weight : ℕ) :
    Option (ℕ × LruCache K V) := do
  let c ← c.dropKey key
  if c.capacity = 0 ∨ weight > c.capacity then some (0, c)
  else
    let (evictions, c) ← evict weight (c.nodes.length + 1) c 0
    let c ← c.pushNode key value weight
    return (evictions, c)

/-- `LruCache::insert`. -/
def insert (c : LruCache K V) (key : K) (value : V) (weight : ℕ) : Option (LruCache K V) :=
  (c.insertCountingEvictions key value weight).map Prod.snd

/-- `LruCache::pop_lru`. -/
def popLru (c : LruCache K V) : Option (Option (K × V) × LruCache K V) :=
  match c.leastRecent with
  | none => some (none, c)
  | some index => do
    let (node, c) ← c.removeIndex index
    return (node.map fun node ↦ (node.key, node.value), c)

/-- `LruCache::remove`. -/
def remove (c : LruCache K V) (key : K) : Option (Option V × LruCache K V) :=
  match c.indices.lookup key with
  | none => some (none, c)
  | some index => do
    let (node, c) ← c.removeIndex index
    return (node.map Node.value, c)

/-- `LruCache::clear`: every slot becomes free, the highest one on top. -/
def clear (c : LruCache K V) : LruCache K V where
  indices := ∅
  nodes := c.nodes.map fun _ ↦ none
  free := (List.range c.nodes.length).reverse
  leastRecent := none
  mostRecent := none
  used := 0
  capacity := c.capacity

end LruCache
end Gitility
