/-
  EzBakeCommon.Timed.Cache — the LRUTimedCache template, function by function.

  An `LRUTimedCache<K, V>` is an `LRUCache<K, CacheValue<V>>` with an
  expiration.  The structure extends the model of the base class, and a call of
  a base function is that function applied to `toLRUCache`.

  Time comes from a `Clock`: every `universal_time()` takes the next reading,
  so time may pass between two readings of one call.  `readings` counts them;
  it belongs to the run and not to the object.
-/
import EzBakeCommon.Lru.Cache
import EzBakeCommon.Library.PosixTime

namespace EzBakeCommon.Timed

open Library
open EzBakeCommon.Lru (KeyView LRUCache)

/-! ## §1. Values with a timestamp. -/

/-- A value and the second in which it was wrapped. -/
structure CacheValue (V : Type*) where
  timestamp : UInt64
  value : V
  deriving DecidableEq

namespace CacheValue

variable {V : Type*}

/-- The constructor; `total_seconds()` is stored as unsigned. -/
def new (T : PosixTime) (now : Instant) (val : V) : CacheValue V :=
  ⟨(T.secondsSinceEpoch now).toUInt64, val⟩

/-- `operator<`: the timestamp decides between equal values only. -/
def lt [DecidableEq V] [LT V] (lhs rhs : CacheValue V) : Prop :=
  if lhs.value = rhs.value then lhs.timestamp < rhs.timestamp else lhs.value < rhs.value

instance [DecidableEq V] [LT V] : LT (CacheValue V) := ⟨lt⟩

instance [DecidableEq V] [LT V] [DecidableLT V] : DecidableLT (CacheValue V) :=
  fun lhs rhs => inferInstanceAs (Decidable
    (if lhs.value = rhs.value then lhs.timestamp < rhs.timestamp else lhs.value < rhs.value))

end CacheValue

/-! ## §2. The cache. -/

/-- The base class and `_expiration`; and how often the clock has been read. -/
structure LRUTimedCache (K V : Type*) extends LRUCache K (CacheValue V) where
  expiration : UInt64
  readings : ℕ

namespace LRUTimedCache

variable {K V : Type*}

def new (capacity : UInt32) (expiration : UInt64) : LRUTimedCache K V :=
  ⟨LRUCache.new capacity, expiration, 0⟩

section Time

variable (clock : Clock) (c : LRUTimedCache K V)

/-- The next reading of the clock. -/
def now : Instant := clock.reading c.readings

/-- One reading later. -/
def tick : LRUTimedCache K V := { c with readings := c.readings + 1 }

/-- The test of `expired`, at a given instant.  Both counts of seconds go
through a signed type. -/
def expiredAt (T : PosixTime) (expiration timestamp : UInt64) (now : Instant) : Bool :=
  if expiration = 0 then false
  else T.deadlineReached timestamp.toInt64 expiration.toInt64 now

/-- Without an expiration the clock is not read. -/
def expired (timestamp : UInt64) : Bool × LRUTimedCache K V :=
  (expiredAt clock.toPosixTime c.expiration timestamp (c.now clock),
    if c.expiration = 0 then c else c.tick)

end Time

/-- The cache after its base class has changed. -/
def withBase (c : LRUTimedCache K V) (base : LRUCache K (CacheValue V)) : LRUTimedCache K V :=
  { c with toLRUCache := base }

section Entry

variable [DecidableEq K] [DecidableEq V] (clock : Clock) (c : LRUTimedCache K V)
  (view : KeyView K (CacheValue V)) (key : K) (value : V)

/-- The timestamp is taken first. -/
def put : LRUTimedCache K V :=
  let cacheValue := CacheValue.new clock.toPosixTime (c.now clock) value
  c.tick.withBase (c.toLRUCache.put view key cacheValue)

/-- Look up in the base class, then check what was found.  An expired entry is
expunged, and nothing is returned. -/
def get : Option V × LRUTimedCache K V :=
  match c.toLRUCache.get view key with
  | (some cacheValue, base) =>
      -- the entry has become the most recently used, expired or not
      let checked := (c.withBase base).expired clock cacheValue.timestamp
      if checked.1 then
        (none, checked.2.withBase (checked.2.toLRUCache.removeValue view key cacheValue).2)
      else (some cacheValue.value, checked.2)
  | (none, base) => (none, c.withBase base)

/-- Pop from the base class, then check what was popped. -/
def pop : Option V × LRUTimedCache K V :=
  match c.toLRUCache.pop view key with
  | (some cacheValue, base) =>
      -- the entry is gone, expired or not
      let checked := (c.withBase base).expired clock cacheValue.timestamp
      (if checked.1 then none else some cacheValue.value, checked.2)
  | (none, base) => (none, c.withBase base)

/-- `remove(key)` of the base class. -/
def remove : List (CacheValue V) × LRUTimedCache K V :=
  ((c.toLRUCache.remove view key).1, c.withBase (c.toLRUCache.remove view key).2)

/-- `TimedCacheType::remove(entry.first, entry.second)` for each entry of a set. -/
def removeEach (entries : List (K × CacheValue V)) (base : LRUCache K (CacheValue V)) :
    LRUCache K (CacheValue V) :=
  entries.foldl (fun base entry => (base.removeValue view entry.1 entry.2).2) base

variable [LT K] [DecidableLT K] [LT V] [DecidableLT V]

/-- A `std::set` of the key's entries with this value, filled in the order of
the key view. -/
def entriesToRemove : List (K × CacheValue V) :=
  (c.toLRUCache.equalRange view key).foldl (fun set itr =>
    if (c.entries.get itr).2.value = value then
      OrderedSet.insert LRUCache.entryLt (c.entries.get itr) set
    else set) []

/-- `remove(key, value)`, ignoring expirations. -/
def removeValue : List (CacheValue V) × LRUTimedCache K V :=
  let entriesToRemove := c.entriesToRemove view key value
  (entriesToRemove.map Prod.snd, c.withBase (removeEach view entriesToRemove c.toLRUCache))

/-- The loop of `getKey` over the list view: the key found, the expired entries
passed on the way, and the cache after that many readings. -/
def getKeyLoop : List (K × CacheValue V) → LRUTimedCache K V → List (K × CacheValue V) →
    Option K × List (K × CacheValue V) × LRUTimedCache K V
  | [], c, expiredEntries => (none, expiredEntries, c)
  | entry :: rest, c, expiredEntries =>
      if entry.2.value = value then
        let checked := c.expired clock entry.2.timestamp
        if checked.1 then
          -- expired: collected, and the loop goes on
          getKeyLoop rest checked.2 (OrderedSet.insert LRUCache.entryLt entry expiredEntries)
        else (some entry.1, expiredEntries, checked.2)
      else getKeyLoop rest c expiredEntries

/-- The key of the first unexpired entry with this value; the expired ones
before it are removed. -/
def getKey : Option K × LRUTimedCache K V :=
  let (key, expiredEntries, c) := getKeyLoop clock value c.entries c []
  -- removed only after the loop: it walks the list view itself
  (key, c.withBase (removeEach view expiredEntries c.toLRUCache))

def containsValue : Bool × LRUTimedCache K V :=
  ((c.getKey clock view value).1.isSome, (c.getKey clock view value).2)

end Entry

section Sets

variable [DecidableEq V] [LT K] [DecidableLT K] [LT V] [DecidableLT V]
  (c : LRUTimedCache K V) (view : KeyView K (CacheValue V))

/-- The entries of the base class, without their timestamps. -/
def entrySet : List (K × V) :=
  (c.toLRUCache.entrySet view).foldl
    (fun set entry => OrderedSet.insert LRUCache.entryLt (entry.1, entry.2.value) set) []

/-- The values of the base class, without their timestamps; undefined where
the base class is. -/
def valueSet [DecidableEq K] (key : K) : Option (List V) :=
  (c.toLRUCache.valueSet view key).map (fun values =>
    values.foldl (fun set value => OrderedSet.insert LRUCache.valueLt value.value set) [])

end Sets

end LRUTimedCache

/-! ## §3. The public interface as one machine. -/

/-- The public operations, inherited ones included. -/
inductive Op (K V : Type*) where
  | put (key : K) (value : V)
  | get (key : K)
  | pop (key : K)
  | remove (key : K)
  | removeValue (key : K) (value : V)
  | clear
  | containsKey (key : K)
  | containsValue (value : V)
  | getKey (value : V)
  | entrySet
  | valueSet (key : K)
  | isEmpty
  | isFull
  | size
  | valueRange (key : K)
  | capacity
  | expiration

/-- What an operation returns. -/
inductive Answer (K V : Type*) where
  | done
  | value (v : Option V)
  | values (vs : List (CacheValue V))
  | key (k : Option K)
  | flag (b : Bool)
  | number (n : UInt32)
  | duration (n : UInt64)
  | entrySet (s : List (K × V))
  | valueSet (s : Option (List V))

/-- An operation, and the key view it happens to meet. -/
structure Call (K V : Type*) where
  view : KeyView K (CacheValue V)
  op : Op K V

variable {K V : Type*} [DecidableEq K] [DecidableEq V] [LT K] [DecidableLT K]
  [LT V] [DecidableLT V]

/-- One call on the cache. -/
def step (clock : Clock) (c : LRUTimedCache K V) (call : Call K V) :
    Answer K V × LRUTimedCache K V :=
  match call.op with
  | .put k v => (.done, c.put clock call.view k v)
  | .get k => let (v, c') := c.get clock call.view k; (.value v, c')
  | .pop k => let (v, c') := c.pop clock call.view k; (.value v, c')
  | .remove k => let (vs, c') := c.remove call.view k; (.values vs, c')
  | .removeValue k v => let (vs, c') := c.removeValue call.view k v; (.values vs, c')
  | .clear => (.done, c.withBase c.toLRUCache.clear)
  | .containsKey k => (.flag (c.toLRUCache.containsKey call.view k), c)
  | .containsValue v => let (b, c') := c.containsValue clock call.view v; (.flag b, c')
  | .getKey v => let (k, c') := c.getKey clock call.view v; (.key k, c')
  | .entrySet => (.entrySet (c.entrySet call.view), c)
  | .valueSet k => (.valueSet (c.valueSet call.view k), c)
  | .isEmpty => (.flag c.toLRUCache.isEmpty, c)
  | .isFull => (.flag c.toLRUCache.isFull, c)
  | .size => (.number c.toLRUCache.size, c)
  | .valueRange k => (.number (c.toLRUCache.valueRange call.view k), c)
  | .capacity => (.number c.capacity, c)
  | .expiration => (.duration c.expiration, c)

/-- The cache as a machine, under a given clock. -/
def machine (clock : Clock) (K V : Type*) [DecidableEq K] [DecidableEq V] [LT K] [DecidableLT K]
    [LT V] [DecidableLT V] : Machine (LRUTimedCache K V) (Call K V) (Answer K V) := ⟨step clock⟩

/-- The session of a new cache that makes these calls. -/
def session (clock : Clock) (capacity : UInt32) (expiration : UInt64) (calls : List (Call K V)) :
    Session (LRUTimedCache K V) (Call K V) (Answer K V) :=
  (machine clock K V).run (LRUTimedCache.new capacity expiration) calls

end EzBakeCommon.Timed
