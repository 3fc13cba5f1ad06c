/-
  EzBakeCommon.Lru.Cache — the LRUCache template, function by function.

  `_cache` is a bimap: one collection of (key, value) relations seen through a
  hashed key view (left) and a list view (right).  The model keeps the list
  view, least recently used first, and takes the order in which the key view
  walks its entries as an argument of every call (`KeyView`): nothing in the
  code fixes it, and it may change from call to call.  An iterator is a
  position of the list view, so `std::distance(right.begin(), project_right(itr))`
  is the iterator itself.

  Of the bimap the model uses: `insert` appends to the list view, `relocate`
  to the end moves one entry, `erase` keeps the order of the rest.
-/
import EzBakeCommon.Library.Machine
import EzBakeCommon.Library.OrderedSet
import Mathlib.Data.List.FinRange

namespace EzBakeCommon.Lru

open Library

/-! ## §1. The container. -/

/-- The order in which the hashed key view walks the entries: every position
of the list view, once. -/
structure KeyView (K V : Type*) where
  walk : (s : List (K × V)) → List (Fin s.length)
  perm : ∀ s, (walk s).Perm (List.finRange s.length)

/-- The key view that walks the entries in the order of the list view. -/
def KeyView.listOrder {K V : Type*} : KeyView K V :=
  ⟨fun s => List.finRange s.length, fun _ => List.Perm.refl _⟩

/-- The key view that walks the entries newest first. -/
def KeyView.newestFirst {K V : Type*} : KeyView K V :=
  ⟨fun s => (List.finRange s.length).reverse, fun _ => List.reverse_perm _⟩

/-- `_capacity` and the list view of `_cache`, least recently used first. -/
structure LRUCache (K V : Type*) where
  capacity : UInt32
  entries : List (K × V)

namespace LRUCache

variable {K V : Type*}

/-- A new cache; capacity 0 means no limit. -/
def new (capacity : UInt32) : LRUCache K V := ⟨capacity, []⟩

section KeyLookup

variable [DecidableEq K] (c : LRUCache K V) (view : KeyView K V) (key : K)

/-- `_cache.left.equal_range(key)`. -/
def equalRange : List (Fin c.entries.length) :=
  (view.walk c.entries).filter (fun itr => (c.entries.get itr).1 = key)

/-- `_cache.left.find(key)`; `none` is `_cache.left.end()`. -/
def find : Option (Fin c.entries.length) := (c.equalRange view key).head?

def containsKey : Bool := (c.find view key).isSome

/-- The loop compares list positions and keeps the smallest. -/
def getLruEntry : Option (Fin c.entries.length) :=
  match c.equalRange view key with
  | [] => none
  | first :: rest =>
      some ((first :: rest).foldl (fun entry itr => if itr < entry then itr else entry) first)

/-- Get an element; it becomes the most recently used. -/
def get : Option V × LRUCache K V :=
  match c.getLruEntry view key with
  | some entry =>
      (some (c.entries.get entry).2,
        { c with entries := c.entries.eraseIdx entry ++ [c.entries.get entry] })
  | none => (none, c)

/-- Get an element and take it out. -/
def pop : Option V × LRUCache K V :=
  match c.getLruEntry view key with
  | some entry =>
      (some (c.entries.get entry).2, { c with entries := c.entries.eraseIdx entry })
  | none => (none, c)

/-- `remove(key)`: list the range, then `erase(key)`. -/
def remove : List V × LRUCache K V :=
  ((c.equalRange view key).map (fun itr => (c.entries.get itr).2),
    { c with entries := c.entries.filter (fun p => p.1 ≠ key) })

/-- `std::distance` over the range, cast to `unsigned int`. -/
def valueRange : UInt32 := UInt32.ofNat (c.equalRange view key).length

end KeyLookup

section Entry

variable [DecidableEq K] [DecidableEq V] (c : LRUCache K V) (view : KeyView K V)
  (key : K) (value : V)

/-- The first entry of the key's range with this value. -/
def findEntry : Option (Fin c.entries.length) :=
  (c.equalRange view key).find? (fun itr => (c.entries.get itr).2 = value)

/-- `if (itr != end()) _cache.left.erase(itr)`. -/
def eraseFound (itr : Option (Fin c.entries.length)) : List (K × V) :=
  match itr with
  | some itr => c.entries.eraseIdx itr
  | none => c.entries

/-- Put an element, replacing a duplicate key-value pair. -/
def put : LRUCache K V :=
  let kept := c.eraseFound (c.findEntry view key value)
  -- if the capacity is reached, erase `right.begin()`
  let kept := if c.capacity ≠ 0 ∧ c.capacity.toNat ≤ kept.length then kept.tail else kept
  { c with entries := kept ++ [(key, value)] }

/-- `remove(key, value)`. -/
def removeValue : Option V × LRUCache K V :=
  match c.findEntry view key value with
  | some itr => (some (c.entries.get itr).2, { c with entries := c.entries.eraseIdx itr })
  | none => (none, c)

end Entry

section Whole

variable (c : LRUCache K V)

def clear : LRUCache K V := { c with entries := [] }

/-- `size_t` cast to `unsigned int`. -/
def size : UInt32 := UInt32.ofNat c.entries.length

def isEmpty : Bool := c.size = 0

def isFull : Bool := if c.capacity = 0 then false else c.size ≥ c.capacity

/-- The key of the least recently used entry with this value. -/
def getKey [DecidableEq V] (value : V) : Option K :=
  (c.entries.find? (fun p => p.2 = value)).map Prod.fst

def containsValue [DecidableEq V] (value : V) : Bool := (c.getKey value).isSome

end Whole

section Sets

variable [LT K] [DecidableLT K] [LT V] [DecidableLT V] (c : LRUCache K V)
  (view : KeyView K V)

/-- `std::less` on values. -/
def valueLt (v w : V) : Bool := decide (v < w)

/-- `std::less` on `std::pair<K, V>`. -/
def entryLt : K × V → K × V → Bool :=
  OrderedSet.pairLt (fun k l => decide (k < l)) valueLt

/-- A `std::set` of all entries, filled in the order of the key view. -/
def entrySet : List (K × V) :=
  (view.walk c.entries).foldl (fun set itr => OrderedSet.insert entryLt (c.entries.get itr) set) []

/-- The `do ... while` loop of `valueSet`: the body runs before the range is
tested, and on an empty range it dereferences the end position (`none`). -/
def valueSetLoop : List (Fin c.entries.length) → List V → Option (List V)
  | [], _ => none
  | [itr], set => some (OrderedSet.insert valueLt (c.entries.get itr).2 set)
  | itr :: itr' :: rest, set =>
      valueSetLoop (itr' :: rest) (OrderedSet.insert valueLt (c.entries.get itr).2 set)

/-- A `std::set` of the values under a key. -/
def valueSet [DecidableEq K] (key : K) : Option (List V) :=
  c.valueSetLoop (c.equalRange view key) []

end Sets

end LRUCache

/-! ## §2. The public interface as one machine. -/

/-- The public operations. -/
inductive Op (K V : Type*) where
  | put (key : K) (value : V)
  | get (key : K)
  | pop (key : K)
  | remove (key : K)
  | removeValue (key : K) (value : V)
  | clear
  | containsKey (key : K)
  | containsValue (value : V)
  | getKey (value : V)
  | entrySet
  | valueSet (key : K)
  | isEmpty
  | isFull
  | size
  | valueRange (key : K)
  | capacity

/-- What an operation returns. -/
inductive Answer (K V : Type*) where
  | done
  | value (v : Option V)
  | values (vs : List V)
  | key (k : Option K)
  | flag (b : Bool)
  | number (n : UInt32)
  | entrySet (s : List (K × V))
  | valueSet (s : Option (List V))

/-- An operation, and the key view it happens to meet. -/
structure Call (K V : Type*) where
  view : KeyView K V
  op : Op K V

variable {K V : Type*} [DecidableEq K] [DecidableEq V] [LT K] [DecidableLT K]
  [LT V] [DecidableLT V]

/-- One call on the cache. -/
def step (c : LRUCache K V) (call : Call K V) : Answer K V × LRUCache K V :=
  match call.op with
  | .put k v => (.done, c.put call.view k v)
  | .get k => let (v, c') := c.get call.view k; (.value v, c')
  | .pop k => let (v, c') := c.pop call.view k; (.value v, c')
  | .remove k => let (vs, c') := c.remove call.view k; (.values vs, c')
  | .removeValue k v => let (w, c') := c.removeValue call.view k v; (.value w, c')
  | .clear => (.done, c.clear)
  | .containsKey k => (.flag (c.containsKey call.view k), c)
  | .containsValue v => (.flag (c.containsValue v), c)
  | .getKey v => (.key (c.getKey v), c)
  | .entrySet => (.entrySet (c.entrySet call.view), c)
  | .valueSet k => (.valueSet (c.valueSet call.view k), c)
  | .isEmpty => (.flag c.isEmpty, c)
  | .isFull => (.flag c.isFull, c)
  | .size => (.number c.size, c)
  | .valueRange k => (.number (c.valueRange call.view k), c)
  | .capacity => (.number c.capacity, c)

/-- The cache as a machine. -/
def machine (K V : Type*) [DecidableEq K] [DecidableEq V] [LT K] [DecidableLT K]
    [LT V] [DecidableLT V] : Machine (LRUCache K V) (Call K V) (Answer K V) := ⟨step⟩

/-- The session of a new cache of the given capacity that makes these calls. -/
def session (capacity : UInt32) (calls : List (Call K V)) :
    Session (LRUCache K V) (Call K V) (Answer K V) :=
  (machine K V).run (LRUCache.new capacity) calls

end EzBakeCommon.Lru
