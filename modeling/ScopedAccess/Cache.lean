import ScopedAccess.Rule

/-!
# The rule cache

Rules already found for an email in one revision of the loaded rules. A queue lists the keys of the
entries from the least to the most recently touched. An entry is good for the time-to-live after it
was set, however often it is asked for.
-/

namespace ScopedAccess

/-- Nanoseconds on a clock that never goes back. -/
abbrev Instant : Type :=
  Nat

namespace RuleCache

/-- Which rules an entry holds: those of an email in a revision. -/
structure Key where
  revision : Nat
  email : Email
  deriving DecidableEq

structure Entry where
  rules : List PolicyRule
  setAt : Instant
  deriving DecidableEq

end RuleCache

structure RuleCache where
  capacity : Nat
  ttl : Option Nat
  entries : List (RuleCache.Key × RuleCache.Entry)
  order : List RuleCache.Key

namespace RuleCache

def empty (capacity : Nat) (ttl : Option Nat) : RuleCache :=
  ⟨capacity, ttl, [], []⟩

def size (cache : RuleCache) : Nat :=
  cache.entries.length

def find? (cache : RuleCache) (key : Key) : Option Entry :=
  cache.entries.lookup key

def expired (cache : RuleCache) (now : Instant) (entry : Entry) : Bool :=
  match cache.ttl with
  | some ttl => ttl < now - entry.setAt
  | none => false

def remove (cache : RuleCache) (key : Key) : RuleCache :=
  { cache with
    entries := cache.entries.filter fun slot => slot.1 ≠ key
    order := cache.order.filter fun other => other ≠ key }

def touch (cache : RuleCache) (key : Key) : RuleCache :=
  { cache with order := (cache.order.filter fun other => other ≠ key) ++ [key] }

/-- Forget what has expired, then the keys of the queue that no entry has any more. Without a
time-to-live nothing is looked at. -/
def prune (cache : RuleCache) (now : Instant) : RuleCache :=
  match cache.ttl with
  | none => cache
  | some _ =>
      let entries := cache.entries.filter fun slot => !cache.expired now slot.2
      { cache with
        entries
        order := cache.order.filter fun key => (entries.lookup key).isSome }

theorem entries_prune (cache : RuleCache) (now : Instant) :
    (cache.prune now).entries = cache.entries.filter fun slot => !cache.expired now slot.2 := by
  unfold prune
  cases httl : cache.ttl with
  | none =>
      refine (List.filter_eq_self.mpr fun slot _ => ?_).symm
      rw [expired, httl]
      rfl
  | some ttl => rfl

def put (cache : RuleCache) (key : Key) (entry : Entry) : RuleCache :=
  { cache with entries := (key, entry) :: cache.entries.filter fun slot => slot.1 ≠ key }

/-- Drive keys out from the front of the queue until at most `capacity` entries are left. -/
def evictFrom (capacity : Nat) (entries : List (Key × Entry)) :
    List Key → List (Key × Entry) × List Key
  | [] => (entries, [])
  | key :: rest =>
      if capacity < entries.length then
        evictFrom capacity (entries.filter fun slot => slot.1 ≠ key) rest
      else
        (entries, key :: rest)

def evict (cache : RuleCache) : RuleCache :=
  let (entries, order) := evictFrom cache.capacity cache.entries cache.order
  { cache with entries, order }

def get (cache : RuleCache) (now : Instant) (key : Key) : Option (List PolicyRule) × RuleCache :=
  if cache.capacity = 0 then
    (none, cache)
  else
    match cache.find? key with
    | none => (none, cache)
    | some entry =>
        if cache.expired now entry then
          (none, cache.remove key)
        else
          (some entry.rules, cache.touch key)

/-- Keep the rules of a key. What has expired goes first, so it drives nothing else out. -/
def set (cache : RuleCache) (now : Instant) (key : Key) (rules : List PolicyRule) : RuleCache :=
  if cache.capacity = 0 then
    cache
  else
    -- the key is at the back of the queue before anything is driven out from the front
    (((cache.prune now).put key ⟨rules, now⟩).touch key).evict

def clear (cache : RuleCache) : RuleCache :=
  { cache with entries := [], order := [] }

inductive Event where
  | get (now : Instant) (key : Key)
  | set (now : Instant) (key : Key) (rules : List PolicyRule)
  | clear
  deriving DecidableEq

def apply (cache : RuleCache) : Event → Option (List PolicyRule) × RuleCache
  | .get now key => cache.get now key
  | .set now key rules => (none, cache.set now key rules)
  | .clear => (none, cache.clear)

def run (cache : RuleCache) (events : List Event) : RuleCache :=
  events.foldl (fun cache event => (cache.apply event).2) cache

end RuleCache

def Instant.second : Nat :=
  1000000000

end ScopedAccess
