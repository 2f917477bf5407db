import ScopedAccess.Proofs.Cache.Recency

/-!
# The queue and what is driven out of it

After any history of uses the queue lists the keys that have an entry by their last touches
(`queue_mirrors_entries`), and a set drives out one key at most, which is not its own
(`Aligned.evicts_set`).
-/

namespace ScopedAccess

namespace RuleCache

variable {cache : RuleCache} {key : Key} {now : Instant} {rules : List PolicyRule}
  {past : List Use} {use : Use}

/-! ## Driving out, key by key -/

/-- Entries and queue before and after the keys are driven out, one after the other from the front,
until the entries are few enough. There is no rule for a queue that runs out before that. -/
inductive Evicts (capacity : Nat) :
    List (Key × Entry) × List Key → List Key → List (Key × Entry) × List Key → Prop where
  | enough {entries : List (Key × Entry)} {order : List Key} (hfits : entries.length ≤ capacity) :
      Evicts capacity (entries, order) [] (entries, order)
  | front {entries : List (Key × Entry)} {key : Key} {rest driven : List Key}
      {last : List (Key × Entry) × List Key} (hover : capacity < entries.length)
      (later : Evicts capacity (entries.filter fun slot => slot.1 ≠ key, rest) driven last) :
      Evicts capacity (entries, key :: rest) (key :: driven) last

/-- A set drives out one key at most, and never its own. -/
theorem Aligned.evicts_set (h : cache.Aligned) (hsize : cache.size ≤ cache.capacity)
    (hcapacity : cache.capacity ≠ 0) (now : Instant) (key : Key) (rules : List PolicyRule) :
    ∃ driven, Evicts cache.capacity
        ((cache.written now key rules).entries, (cache.written now key rules).order) driven
        ((cache.set now key rules).entries, (cache.set now key rules).order) ∧
      driven.length ≤ 1 ∧ key ∉ driven := by
  have hwritten := h.written now key rules
  rcases h.set_cases hsize hcapacity now key rules with
    ⟨hfits, hset⟩ | ⟨front, rest, horder, hne, hlength, hset, -⟩
  · rw [hset]
    exact ⟨[], .enough hfits, Nat.zero_le 1, List.not_mem_nil⟩
  · have hfront : front ∈ (cache.written now key rules).keys :=
      (hwritten.mem_order_iff front).mp (horder ▸ List.mem_cons_self)
    have hless := hwritten.size_remove hfront
    have hfull := hwritten.length_order
    rw [horder, List.length_cons] at hfull
    rw [hset, horder, hwritten.order_remove_front horder]
    refine ⟨[front], .front ?_ (.enough ?_), Nat.le_refl 1, ?_⟩
    · show cache.capacity < (cache.written now key rules).size
      omega
    · show ((cache.written now key rules).remove front).size ≤ cache.capacity
      omega
    · simpa using hne.symm

theorem Aligned.find?_set (h : cache.Aligned) (hsize : cache.size ≤ cache.capacity)
    (hcapacity : cache.capacity ≠ 0) (now : Instant) (key : Key) (rules : List PolicyRule) :
    (cache.set now key rules).find? key = some ⟨rules, now⟩ := by
  have hafter : (cache.set now key rules).Aligned := (h.apply hsize (.set now key rules)).1
  have hwritten : (key, ⟨rules, now⟩) ∈ (cache.written now key rules).entries :=
    mem_entries_written.mpr (Or.inl rfl)
  rw [hafter.find?_eq_some_iff]
  rcases h.set_cases hsize hcapacity now key rules with
    ⟨-, hset⟩ | ⟨front, rest, -, hne, -, hset, -⟩
  · rw [hset]
    exact hwritten
  · rw [hset]
    exact mem_entries_remove.mpr ⟨hwritten, hne.symm⟩

/-! ## The order of last touches -/

/-- The keys that were touched, by their last touches: the key touched last is at the back. -/
def byLastTouch : List Use → List Key
  | [] => []
  | use :: earlier =>
      match use.touched? with
      | none => byLastTouch earlier
      | some key => ((byLastTouch earlier).filter fun other => other ≠ key) ++ [key]

theorem byLastTouch_of_untouched (huse : use.touched? = none) :
    byLastTouch (use :: past) = byLastTouch past := by
  rw [byLastTouch, huse]

theorem byLastTouch_of_touched (huse : use.touched? = some key) :
    byLastTouch (use :: past) = ((byLastTouch past).filter fun other => other ≠ key) ++ [key] := by
  rw [byLastTouch, huse]

theorem inOrder_byLastTouch (past : List Use) : InOrder (byLastTouch past) past := by
  induction past with
  | nil => exact .nil
  | cons use earlier ih =>
      cases huse : use.touched? with
      | none =>
          rw [byLastTouch_of_untouched huse]
          exact ih.cons_of_untouched huse
      | some key =>
          rw [byLastTouch_of_touched huse]
          exact ih.cons_of_touched huse

theorem nodup_byLastTouch (past : List Use) : (byLastTouch past).Nodup :=
  (inOrder_byLastTouch past).imp fun hsince => hsince.ne

/-- Entries and queue are aligned and within the capacity, and the queue keeps the order of the
last touches. -/
structure Mirrors (cache : RuleCache) (past : List Use) : Prop where
  aligned : cache.Aligned
  size_le : cache.size ≤ cache.capacity
  order_sublist : cache.order.Sublist (byLastTouch past)

theorem mirrors_empty (capacity : Nat) (ttl : Option Nat) : (empty capacity ttl).Mirrors [] :=
  ⟨aligned_empty capacity ttl, Nat.zero_le capacity, List.nil_sublist _⟩

theorem Mirrors.order_eq (h : cache.Mirrors past) :
    cache.order = (byLastTouch past).filter fun key => key ∈ cache.keys := by
  have hself : (cache.order.filter fun key => key ∈ cache.keys) = cache.order := by
    rw [List.filter_eq_self]
    exact fun key hkey => decide_eq_true ((h.aligned.mem_order_iff key).mp hkey)
  have hsublist := h.order_sublist.filter fun key => decide (key ∈ cache.keys)
  rw [hself] at hsublist
  have hkept : ((byLastTouch past).filter fun key => key ∈ cache.keys) ⊆ cache.order := by
    intro key hkey
    exact (h.aligned.mem_order_iff key).mpr (by simpa using (List.mem_filter.mp hkey).2)
  have hnodup := (nodup_byLastTouch past).filter fun key => decide (key ∈ cache.keys)
  exact hsublist.eq_of_length_le (hnodup.subperm hkept).length_le

theorem Mirrors.sublist_of_untouched {order : List Key} (h : cache.Mirrors past)
    (horder : order.Sublist cache.order) (huse : use.touched? = none) :
    order.Sublist (byLastTouch (use :: past)) := by
  rw [byLastTouch_of_untouched huse]
  exact horder.trans h.order_sublist

theorem Mirrors.sublist_of_touched {order : List Key} (h : cache.Mirrors past)
    (horder : order.Sublist cache.order) (huse : use.touched? = some key) :
    ((order.filter fun other => other ≠ key) ++ [key]).Sublist (byLastTouch (use :: past)) := by
  rw [byLastTouch_of_touched huse]
  exact ((horder.trans h.order_sublist).filter _).append (List.Sublist.refl [key])

theorem Mirrors.apply (h : cache.Mirrors past) (event : Event) :
    (cache.apply event).2.Mirrors (⟨event, (cache.apply event).1⟩ :: past) := by
  obtain ⟨haligned, hsize⟩ := h.aligned.apply h.size_le event
  rw [← (cache.limits_apply event).1] at hsize
  refine ⟨haligned, hsize, ?_⟩
  cases event with
  | get now key =>
      by_cases hcapacity : cache.capacity = 0
      · have hsame : cache.get now key = (none, cache) := if_pos hcapacity
        simp only [RuleCache.apply, hsame]
        exact h.sublist_of_untouched (List.Sublist.refl _) rfl
      · rcases h.aligned.get_cases hcapacity now key with ⟨-, hmiss⟩ | ⟨entry, -, -, hhit⟩
        · -- an expired key only leaves the queue
          simp only [RuleCache.apply, hmiss]
          exact h.sublist_of_untouched List.filter_sublist rfl
        · simp only [RuleCache.apply, hhit]
          exact h.sublist_of_touched (List.Sublist.refl _) rfl
  | set now key rules =>
      by_cases hcapacity : cache.capacity = 0
      · have hsame : cache.set now key rules = cache := if_pos hcapacity
        have hempty : cache.order = [] := by
          have hlength := h.aligned.length_order
          have hle := h.size_le
          exact List.length_eq_zero_iff.mp (by omega)
        simp only [RuleCache.apply, hsame, hempty]
        exact List.nil_sublist _
      · have hwritten : (cache.written now key rules).order.Sublist
            (byLastTouch (⟨.set now key rules, none⟩ :: past)) :=
          h.sublist_of_touched (cache.order_prune_sublist now) rfl
        rcases h.aligned.set_cases h.size_le hcapacity now key rules with
          ⟨-, hset⟩ | ⟨front, rest, -, -, -, hset, -⟩
        · simp only [RuleCache.apply, hset]
          exact hwritten
        · simp only [RuleCache.apply, hset]
          exact List.filter_sublist.trans hwritten
  | clear => exact List.nil_sublist _

theorem Mirrors.run (h : cache.Mirrors past) (events : List Event) :
    (cache.run events).Mirrors (cache.history past events) := by
  induction events generalizing cache past with
  | nil => exact h
  | cons event rest ih => exact ih (h.apply event)

/-- After every history of uses, with whatever readings of the clock, the queue and the entries have
the same keys, each of them once, and no more than the capacity; with no capacity there are none.
The queue lists the keys by their last touches. A set with no capacity does nothing. Any other set
keeps its own entry, and it drives out keys from the front of the queue until the entries are few
enough: one key at most, which is not its own, and the queue never runs out before that. -/
theorem queue_mirrors_entries (capacity : Nat) (ttl : Option Nat) (events : List Event) :
    let cache := (empty capacity ttl).run events
    let past := (empty capacity ttl).history [] events
    cache.keys.Nodup ∧ cache.order.Nodup ∧ (∀ key, key ∈ cache.order ↔ key ∈ cache.keys) ∧
    cache.size ≤ capacity ∧ (capacity = 0 → cache.entries = [] ∧ cache.order = []) ∧
    cache.order = ((byLastTouch past).filter fun key => key ∈ cache.keys) ∧
    InOrder cache.order past ∧
    ∀ now key rules,
      (capacity = 0 → cache.set now key rules = cache) ∧
      (1 ≤ capacity →
        (cache.set now key rules).find? key = some ⟨rules, now⟩ ∧
        ∃ driven, Evicts capacity
            ((cache.written now key rules).entries, (cache.written now key rules).order) driven
            ((cache.set now key rules).entries, (cache.set now key rules).order) ∧
          driven.length ≤ 1 ∧ key ∉ driven) := by
  intro cache past
  have hmirrors : cache.Mirrors past := (mirrors_empty capacity ttl).run events
  have hsame : cache.capacity = capacity := (limits_run (empty capacity ttl) events).1
  have halign := hmirrors.aligned
  have hsize : cache.size ≤ capacity := hsame ▸ hmirrors.size_le
  refine ⟨halign.keys_nodup, halign.order_nodup, halign.mem_order_iff, hsize, fun hzero => ?_,
    hmirrors.order_eq, (inOrder_byLastTouch past).of_sublist hmirrors.order_sublist,
    fun now key rules => ⟨fun hzero => if_pos (hsame.trans hzero), fun hpositive => ?_⟩⟩
  · have hentries : cache.entries.length = 0 := Nat.le_zero.mp (hzero ▸ hsize)
    have horder : cache.order.length = 0 := halign.length_order.trans hentries
    exact ⟨List.length_eq_zero_iff.mp hentries, List.length_eq_zero_iff.mp horder⟩
  · have hcapacity : cache.capacity ≠ 0 := by omega
    have hdriven := halign.evicts_set hmirrors.size_le hcapacity now key rules
    rw [hsame] at hdriven
    exact ⟨halign.find?_set hmirrors.size_le hcapacity now key rules, hdriven⟩

theorem queue_mirrors_entries_when_full :
    let email : Email := ⟨"a@b", by decide, by decide, by decide⟩
    let first : Key := ⟨1, email⟩
    let second : Key := ⟨2, email⟩
    let third : Key := ⟨3, email⟩
    let events : List Event := [.set 0 first [], .set 1 second [], .get 2 first]
    let cache := (empty 2 none).run events
    cache.order = [second, first] ∧ cache.size = 2 ∧
      (cache.set 3 third []).order = [first, third] ∧
      ∃ driven, Evicts 2 ((cache.written 3 third []).entries, (cache.written 3 third []).order)
          driven ((cache.set 3 third []).entries, (cache.set 3 third []).order) ∧
        driven.length ≤ 1 ∧ third ∉ driven := by
  intro email first second third events cache
  have hall := queue_mirrors_entries 2 none events
  obtain ⟨-, -, -, -, -, -, -, hset⟩ := hall
  exact ⟨by decide, by decide, by decide, ((hset 3 third []).2 (by decide)).2⟩

end RuleCache

end ScopedAccess
