import Mathlib.Data.List.Nodup
import ScopedAccess.Proofs.Cache.Soundness

/-!
# The entries and the queue of a cache

A cache keeps its keys with their entries and in the queue. Both stay the same keys, each of them
once (`Aligned.apply`), and a set that would go beyond the capacity drives out the front of the
queue and nothing else (`Aligned.set_cases`).
-/

namespace ScopedAccess

namespace RuleCache

variable {cache : RuleCache} {key other : Key} {entry : Entry} {now : Instant}
  {rules : List PolicyRule} {slot : Key × Entry}

def keys (cache : RuleCache) : List Key :=
  cache.entries.map Prod.fst

/-- The queue lists the keys that have an entry, each of them once. -/
structure Aligned (cache : RuleCache) : Prop where
  keys_nodup : cache.keys.Nodup
  order_nodup : cache.order.Nodup
  mem_order_iff : ∀ key, key ∈ cache.order ↔ key ∈ cache.keys

theorem mem_keys_iff : key ∈ cache.keys ↔ ∃ entry, (key, entry) ∈ cache.entries := by
  simp [keys]

theorem mem_keys_of_mem (h : slot ∈ cache.entries) : slot.1 ∈ cache.keys :=
  List.mem_map_of_mem h

theorem Aligned.eq_of_mem {entry' : Entry} (h : cache.Aligned)
    (hmem : (key, entry) ∈ cache.entries) (hmem' : (key, entry') ∈ cache.entries) :
    entry = entry' :=
  congrArg Prod.snd (List.inj_on_of_nodup_map h.keys_nodup hmem hmem' rfl)

theorem Aligned.find?_eq_some_iff (h : cache.Aligned) :
    cache.find? key = some entry ↔ (key, entry) ∈ cache.entries := by
  refine ⟨mem_of_find?, fun hmem => ?_⟩
  have hsome : (cache.find? key).isSome = true :=
    List.lookup_isSome_iff.mpr ⟨(key, entry), hmem, by simp⟩
  obtain ⟨found, hfound⟩ := Option.isSome_iff_exists.mp hsome
  rw [hfound, h.eq_of_mem (mem_of_find? hfound) hmem]

theorem Aligned.find?_eq_none_iff (h : cache.Aligned) :
    cache.find? key = none ↔ key ∉ cache.keys := by
  simp only [Option.eq_none_iff_forall_ne_some, ne_eq, h.find?_eq_some_iff, mem_keys_iff,
    not_exists]

theorem Aligned.length_order (h : cache.Aligned) : cache.order.length = cache.size := by
  have hperm : cache.order.Perm cache.keys :=
    (List.perm_ext_iff_of_nodup h.order_nodup h.keys_nodup).mpr h.mem_order_iff
  rw [hperm.length_eq, keys, List.length_map, size]

theorem aligned_empty (capacity : Nat) (ttl : Option Nat) : (empty capacity ttl).Aligned := by
  constructor <;> simp [empty, keys]

/-! ## Keys that go -/

theorem mem_entries_remove :
    slot ∈ (cache.remove key).entries ↔ slot ∈ cache.entries ∧ slot.1 ≠ key := by
  simp [remove]

theorem keys_remove (cache : RuleCache) (key : Key) :
    (cache.remove key).keys = cache.keys.filter fun other => other ≠ key := by
  simp only [keys, remove, List.filter_map]
  rfl

theorem Aligned.remove (h : cache.Aligned) (key : Key) : (cache.remove key).Aligned := by
  constructor
  case keys_nodup =>
    rw [keys_remove]
    exact h.keys_nodup.sublist List.filter_sublist
  case order_nodup => exact h.order_nodup.sublist List.filter_sublist
  case mem_order_iff =>
    intro other
    rw [keys_remove, List.mem_filter, ← h.mem_order_iff]
    exact List.mem_filter

theorem size_remove_le (cache : RuleCache) (key : Key) : (cache.remove key).size ≤ cache.size :=
  List.length_filter_le _ _

theorem Aligned.remove_of_not_mem (h : cache.Aligned) (hkey : key ∉ cache.keys) :
    cache.remove key = cache := by
  have hentries : (cache.entries.filter fun slot => slot.1 ≠ key) = cache.entries := by
    rw [List.filter_eq_self]
    intro slot hslot
    exact decide_eq_true fun heq => hkey (heq ▸ mem_keys_of_mem hslot)
  have horder : (cache.order.filter fun other => other ≠ key) = cache.order := by
    rw [List.filter_eq_self]
    intro other hother
    exact decide_eq_true fun heq => hkey (heq ▸ (h.mem_order_iff other).mp hother)
  unfold RuleCache.remove
  rw [hentries, horder]

theorem Aligned.size_remove (h : cache.Aligned) (hkey : key ∈ cache.keys) :
    (cache.remove key).size + 1 = cache.size := by
  have hkeys : (cache.remove key).keys = cache.keys.erase key := by
    rw [keys_remove, h.keys_nodup.erase_eq_filter]
    refine List.filter_congr fun other _ => ?_
    rw [Bool.eq_iff_iff]
    simp
  have hlength := congrArg List.length hkeys
  rw [List.length_erase_of_mem hkey] at hlength
  have hpos : 0 < cache.keys.length := List.length_pos_of_mem hkey
  simp only [keys, List.length_map] at hlength hpos
  unfold size
  omega

theorem Aligned.order_remove_front {front : Key} {rest : List Key} (h : cache.Aligned)
    (horder : cache.order = front :: rest) : (cache.remove front).order = rest := by
  have hnot : front ∉ rest := (List.nodup_cons.mp (horder ▸ h.order_nodup)).1
  rw [RuleCache.remove, horder, List.filter_cons_of_neg (by simp), List.filter_eq_self]
  intro other hother
  exact decide_eq_true fun heq => hnot (heq ▸ hother)

theorem mem_entries_prune :
    slot ∈ (cache.prune now).entries ↔
      slot ∈ cache.entries ∧ cache.expired now slot.2 = false := by
  simp [entries_prune]

theorem size_prune_le (cache : RuleCache) (now : Instant) :
    (cache.prune now).size ≤ cache.size := by
  rw [size, entries_prune]
  exact List.length_filter_le _ _

theorem order_prune_sublist (cache : RuleCache) (now : Instant) :
    (cache.prune now).order.Sublist cache.order := by
  unfold prune
  split
  · exact List.Sublist.refl _
  · exact List.filter_sublist

theorem limits_prune (cache : RuleCache) (now : Instant) :
    (cache.prune now).capacity = cache.capacity ∧ (cache.prune now).ttl = cache.ttl := by
  unfold prune
  split <;> exact ⟨rfl, rfl⟩

theorem Aligned.prune (h : cache.Aligned) (now : Instant) : (cache.prune now).Aligned := by
  cases httl : cache.ttl with
  | none =>
      have hsame : cache.prune now = cache := by rw [RuleCache.prune, httl]
      rw [hsame]
      exact h
  | some ttl =>
      have hsublist : (cache.prune now).keys.Sublist cache.keys := by
        rw [keys, entries_prune]
        exact List.Sublist.map Prod.fst List.filter_sublist
      have horder : (cache.prune now).order =
          cache.order.filter fun key => ((cache.prune now).entries.lookup key).isSome := by
        rw [entries_prune, RuleCache.prune, httl]
      constructor
      case keys_nodup => exact h.keys_nodup.sublist hsublist
      case order_nodup => exact h.order_nodup.sublist (cache.order_prune_sublist now)
      case mem_order_iff =>
        intro key
        have hlooked : ((cache.prune now).entries.lookup key).isSome = true ↔
            key ∈ (cache.prune now).keys := by
          rw [List.lookup_isSome_iff, keys, List.mem_map]
          simp only [beq_iff_eq, @eq_comm _ key]
        rw [horder, List.mem_filter, hlooked, h.mem_order_iff]
        exact and_iff_right_of_imp fun hmem => hsublist.subset hmem

/-! ## Keys that come -/

theorem Aligned.touch (h : cache.Aligned) (hkey : key ∈ cache.keys) :
    (cache.touch key).Aligned := by
  constructor
  case keys_nodup => exact h.keys_nodup
  case order_nodup =>
    refine List.nodup_append.mpr ⟨h.order_nodup.sublist List.filter_sublist, by simp, ?_⟩
    intro a ha b hb
    rw [List.mem_singleton.mp hb]
    simpa using (List.mem_filter.mp ha).2
  case mem_order_iff =>
    intro other
    have hqueued : other ∈ (cache.touch key).order ↔
        other ∈ cache.order ∧ other ≠ key ∨ other = key := by
      simp [RuleCache.touch]
    have hkept : other ∈ (cache.touch key).keys ↔ other ∈ cache.keys := Iff.rfl
    rw [hqueued, hkept, h.mem_order_iff]
    by_cases heq : other = key
    · simp [heq, hkey]
    · simp [heq]

/-- The cache that a set has before it drives anything out. -/
def written (cache : RuleCache) (now : Instant) (key : Key) (rules : List PolicyRule) :
    RuleCache :=
  ((cache.prune now).put key ⟨rules, now⟩).touch key

theorem mem_entries_written :
    slot ∈ (cache.written now key rules).entries ↔
      slot = (key, ⟨rules, now⟩) ∨
        (slot ∈ cache.entries ∧ cache.expired now slot.2 = false) ∧ slot.1 ≠ key := by
  simp only [written, RuleCache.touch, put, List.mem_cons, List.mem_filter, mem_entries_prune,
    decide_eq_true_eq]

theorem Aligned.written (h : cache.Aligned) (now : Instant) (key : Key)
    (rules : List PolicyRule) : (cache.written now key rules).Aligned := by
  have hpruned := h.prune now
  have hremoved := hpruned.remove key
  have hkeys : (cache.written now key rules).keys = key :: ((cache.prune now).remove key).keys :=
    rfl
  have horder : (cache.written now key rules).order =
      ((cache.prune now).remove key).order ++ [key] :=
    rfl
  have hnew : key ∉ ((cache.prune now).remove key).keys := by simp [keys_remove]
  constructor
  case keys_nodup =>
    rw [hkeys]
    exact List.nodup_cons.mpr ⟨hnew, hremoved.keys_nodup⟩
  case order_nodup =>
    rw [horder, (List.perm_append_singleton key _).nodup_iff]
    exact List.nodup_cons.mpr ⟨mt (hremoved.mem_order_iff key).mp hnew, hremoved.order_nodup⟩
  case mem_order_iff =>
    intro other
    rw [hkeys, horder, List.mem_append, List.mem_singleton, List.mem_cons,
      hremoved.mem_order_iff, or_comm]

theorem size_written_le (cache : RuleCache) (now : Instant) (key : Key)
    (rules : List PolicyRule) : (cache.written now key rules).size ≤ cache.size + 1 := by
  have hpruned := cache.size_prune_le now
  have hremoved := (cache.prune now).size_remove_le key
  have hwritten : (cache.written now key rules).size =
      ((cache.prune now).remove key).size + 1 := rfl
  omega

/-- A write adds a key only if no entry has expired and none is of that key. -/
theorem all_kept_of_size_written (h : cache.size < (cache.written now key rules).size) :
    ∀ slot ∈ cache.entries, cache.expired now slot.2 = false ∧ slot.1 ≠ key := by
  have hpruned := cache.size_prune_le now
  have hremoved := (cache.prune now).size_remove_le key
  have hwritten : (cache.written now key rules).size =
      ((cache.prune now).remove key).size + 1 := rfl
  have hrest : ((cache.prune now).remove key).size = (cache.prune now).size := by omega
  have hall : (cache.prune now).size = cache.size := by omega
  rw [size, entries_prune] at hall
  intro slot hslot
  have hgood : cache.expired now slot.2 = false := by
    simpa using List.length_filter_eq_length_iff.mp hall slot hslot
  have hkept : slot ∈ (cache.prune now).entries := mem_entries_prune.mpr ⟨hslot, hgood⟩
  have hother : slot.1 ≠ key := by
    simpa using List.length_filter_eq_length_iff.mp hrest slot hkept
  exact ⟨hgood, hother⟩

/-! ## Driving out -/

theorem evictFrom_of_le {capacity : Nat} {entries : List (Key × Entry)}
    (h : entries.length ≤ capacity) (order : List Key) :
    evictFrom capacity entries order = (entries, order) := by
  cases order with
  | nil => rfl
  | cons front rest => rw [evictFrom, if_neg (by omega)]

theorem evict_of_size_le (h : cache.size ≤ cache.capacity) : cache.evict = cache := by
  unfold evict
  rw [evictFrom_of_le h]

theorem Aligned.evict_of_size (h : cache.Aligned) (hsize : cache.size = cache.capacity + 1) :
    ∃ front rest, cache.order = front :: rest ∧ cache.evict = cache.remove front := by
  cases horder : cache.order with
  | nil =>
      have hlength := h.length_order
      rw [horder, hsize] at hlength
      exact nomatch hlength
  | cons front rest =>
      refine ⟨front, rest, rfl, ?_⟩
      have hfront : front ∈ cache.keys :=
        (h.mem_order_iff front).mp (horder ▸ List.mem_cons_self)
      have hless : (cache.entries.filter fun slot => slot.1 ≠ front).length ≤ cache.capacity := by
        have hremoved : (cache.entries.filter fun slot => slot.1 ≠ front).length + 1 = cache.size :=
          h.size_remove hfront
        omega
      have hrest : (cache.order.filter fun other => other ≠ front) = rest :=
        h.order_remove_front horder
      have hover : cache.capacity < cache.entries.length := by
        unfold size at hsize
        omega
      unfold evict
      rw [horder, evictFrom, if_pos hover, evictFrom_of_le hless, RuleCache.remove, hrest]

theorem set_eq (h : cache.capacity ≠ 0) (now : Instant) (key : Key) (rules : List PolicyRule) :
    cache.set now key rules = (cache.written now key rules).evict :=
  if_neg h

/-- A set drives nothing out, or it drives out the front of the queue, which is another key, of a
cache that was full of good entries of other keys. -/
theorem Aligned.set_cases (h : cache.Aligned) (hsize : cache.size ≤ cache.capacity)
    (hcapacity : cache.capacity ≠ 0) (now : Instant) (key : Key) (rules : List PolicyRule) :
    ((cache.written now key rules).size ≤ cache.capacity ∧
      cache.set now key rules = cache.written now key rules) ∨
    ∃ front rest, (cache.written now key rules).order = front :: rest ∧ front ≠ key ∧
      rest.length = cache.capacity ∧
      cache.set now key rules = (cache.written now key rules).remove front ∧
      cache.size = cache.capacity ∧
      ∀ slot ∈ cache.entries, cache.expired now slot.2 = false ∧ slot.1 ≠ key := by
  have hwritten := h.written now key rules
  have hle := cache.size_written_le now key rules
  have hsame : (cache.written now key rules).capacity = cache.capacity :=
    (cache.limits_prune now).1
  rw [set_eq hcapacity]
  by_cases hfits : (cache.written now key rules).size ≤ cache.capacity
  · exact Or.inl ⟨hfits, evict_of_size_le (hsame ▸ hfits)⟩
  · obtain ⟨front, rest, horder, hevict⟩ :=
      hwritten.evict_of_size (by rw [hsame]; omega)
    have hlength := hwritten.length_order
    rw [horder, List.length_cons] at hlength
    -- the key just written is at the back, and there is room for more than one
    have hback : ((cache.prune now).remove key).order ++ [key] = front :: rest := horder
    have hother : front ≠ key := by
      cases hrest : ((cache.prune now).remove key).order with
      | nil =>
          rw [hrest] at hback
          cases hback
          simp only [List.length_nil] at hlength
          omega
      | cons first others =>
          have hfirst : first ∈ ((cache.prune now).remove key).order :=
            hrest ▸ List.mem_cons_self
          rw [hrest] at hback
          cases hback
          simpa using (List.mem_filter.mp hfirst).2
    have hgrown : cache.size < (cache.written now key rules).size := by omega
    exact Or.inr ⟨front, rest, horder, hother, by omega, hevict, by omega,
      all_kept_of_size_written hgrown⟩

/-! ## All uses -/

/-- A get finds no good entry of the key, and at most an expired one goes, or it is a hit. -/
theorem Aligned.get_cases (h : cache.Aligned) (hcapacity : cache.capacity ≠ 0) (now : Instant)
    (key : Key) :
    ((∀ entry, (key, entry) ∈ cache.entries → cache.expired now entry = true) ∧
      cache.get now key = (none, cache.remove key)) ∨
    ∃ entry, (key, entry) ∈ cache.entries ∧ cache.expired now entry = false ∧
      cache.get now key = (some entry.rules, cache.touch key) := by
  unfold get
  rw [if_neg hcapacity]
  cases hfind : cache.find? key with
  | none =>
      have hnot : key ∉ cache.keys := h.find?_eq_none_iff.mp hfind
      refine Or.inl ⟨fun entry hmem => (hnot (mem_keys_of_mem hmem)).elim, ?_⟩
      rw [h.remove_of_not_mem hnot]
  | some entry =>
      have hmem : (key, entry) ∈ cache.entries := mem_of_find? hfind
      dsimp only
      split
      · next hexpired =>
          refine Or.inl ⟨fun other hother => ?_, rfl⟩
          rw [h.eq_of_mem hother hmem]
          exact hexpired
      · next hgood => exact Or.inr ⟨entry, hmem, by simpa using hgood, rfl⟩

/-- Every use keeps the queue and the entries aligned, and the cache within its capacity. -/
theorem Aligned.apply (h : cache.Aligned) (hsize : cache.size ≤ cache.capacity) (event : Event) :
    (cache.apply event).2.Aligned ∧ (cache.apply event).2.size ≤ cache.capacity := by
  cases event with
  | get now key =>
      simp only [RuleCache.apply]
      by_cases hcapacity : cache.capacity = 0
      · have hsame : cache.get now key = (none, cache) := if_pos hcapacity
        rw [hsame]
        exact ⟨h, hsize⟩
      · rcases h.get_cases hcapacity now key with ⟨-, hmiss⟩ | ⟨entry, hmem, -, hhit⟩
        · rw [hmiss]
          exact ⟨h.remove key, Nat.le_trans (cache.size_remove_le key) hsize⟩
        · rw [hhit]
          exact ⟨h.touch (mem_keys_of_mem hmem), hsize⟩
  | set now key rules =>
      simp only [RuleCache.apply]
      by_cases hcapacity : cache.capacity = 0
      · have hsame : cache.set now key rules = cache := if_pos hcapacity
        rw [hsame]
        exact ⟨h, hsize⟩
      · have hwritten := h.written now key rules
        rcases h.set_cases hsize hcapacity now key rules with
          ⟨hfits, hset⟩ | ⟨front, rest, horder, -, hlength, hset, -⟩
        · rw [hset]
          exact ⟨hwritten, hfits⟩
        · have hfront : front ∈ (cache.written now key rules).keys :=
            (hwritten.mem_order_iff front).mp (horder ▸ List.mem_cons_self)
          have hless := hwritten.size_remove hfront
          have hfull := hwritten.length_order
          rw [horder, List.length_cons] at hfull
          rw [hset]
          exact ⟨hwritten.remove front, by omega⟩
  | clear => exact ⟨⟨List.nodup_nil, List.nodup_nil, fun _ => Iff.rfl⟩, Nat.zero_le _⟩

theorem limits_apply (cache : RuleCache) (event : Event) :
    (cache.apply event).2.capacity = cache.capacity ∧ (cache.apply event).2.ttl = cache.ttl := by
  cases event with
  | get now key =>
      simp only [apply, get]
      split
      · exact ⟨rfl, rfl⟩
      · split
        · exact ⟨rfl, rfl⟩
        · split <;> exact ⟨rfl, rfl⟩
  | set now key rules =>
      simp only [apply, set]
      split
      · exact ⟨rfl, rfl⟩
      · exact cache.limits_prune now
  | clear => exact ⟨rfl, rfl⟩

end RuleCache

end ScopedAccess
