import Mathlib.Data.List.Perm.Subperm
import ScopedAccess.Proofs.Cache.Queue

/-!
# What a cache remembers

Whether a cache still has the rules of a key can be told from the history of its uses alone
(`answers_by_history`). The invariant `Recalls` ties the entries to that history and the queue to
the order of the last touches.
-/

namespace ScopedAccess

namespace RuleCache

/-! ## Histories -/

def Event.time? : Event → Option Instant
  | .get now _ => some now
  | .set now _ _ => some now
  | .clear => none

structure Use where
  event : Event
  answer : Option (List PolicyRule)

/-- The key that the use touches. A set touches its key, and so does a get that is a hit. -/
def Use.touched? (use : Use) : Option Key :=
  match use.event with
  | .get _ key => if use.answer.isSome then some key else none
  | .set _ key _ => some key
  | .clear => none

/-- The uses so far with their answers, the latest first, on top of those of the past. -/
def history (cache : RuleCache) (past : List Use) : List Event → List Use
  | [] => past
  | event :: rest =>
      let done := cache.apply event
      done.2.history (⟨event, done.1⟩ :: past) rest

/-- What the key was last set to, and when, if that was after the last clearing. -/
def lastSet? (key : Key) : List Use → Option Entry
  | [] => none
  | use :: earlier =>
      match use.event with
      | .get _ _ => lastSet? key earlier
      | .set now other rules => if other = key then some ⟨rules, now⟩ else lastSet? key earlier
      | .clear => none

def Entry.GoodAt (ttl : Option Nat) (now : Instant) (entry : Entry) : Prop :=
  ∀ limit ∈ ttl, now ≤ entry.setAt + limit

/-- The rival was touched after the last touch of the key. -/
def TouchedSince (key rival : Key) : List Use → Prop
  | [] => False
  | use :: earlier =>
      use.touched? ≠ some key ∧ (use.touched? = some rival ∨ TouchedSince key rival earlier)

/-- As many different keys as there is room for were touched after the last touch of the key, and
all of them are still good. -/
def Crowded (capacity : Nat) (ttl : Option Nat) (key : Key) (past : List Use) (now : Instant) :
    Prop :=
  ∃ rivals : List Key, rivals.Nodup ∧ rivals.length = capacity ∧
    ∀ rival ∈ rivals, TouchedSince key rival past ∧
      ∃ entry, lastSet? rival past = some entry ∧ entry.GoodAt ttl now

/-- After the last touch of the key, some set found the cache crowded, with its own key. -/
def DrivenOut (capacity : Nat) (ttl : Option Nat) (key : Key) : List Use → Prop
  | [] => False
  | use :: earlier =>
      use.touched? ≠ some key ∧
        ((∃ now other rules, use.event = .set now other rules ∧
            Crowded capacity ttl key (use :: earlier) now) ∨
          DrivenOut capacity ttl key earlier)

variable {cache : RuleCache} {key other rival : Key} {entry : Entry} {now clock : Instant}
  {rules : List PolicyRule} {past : List Use} {use : Use} {capacity : Nat} {ttl : Option Nat}

theorem expired_eq_false_iff : cache.expired now entry = false ↔ entry.GoodAt cache.ttl now := by
  unfold expired Entry.GoodAt
  cases cache.ttl with
  | none => simp
  | some limit =>
      simp only [decide_eq_false_iff_not, Option.mem_some_iff, forall_eq', Nat.not_lt,
        Nat.sub_le_iff_le_add']

theorem Entry.GoodAt.of_le (h : entry.GoodAt ttl now) (hle : clock ≤ now) :
    entry.GoodAt ttl clock :=
  fun limit hlimit => Nat.le_trans hle (h limit hlimit)

/-! ## The order of touches -/

theorem TouchedSince.trans {first second third : Key} (h : TouchedSince first second past)
    (h' : TouchedSince second third past) : TouchedSince first third past := by
  induction past with
  | nil => exact h
  | cons use earlier ih =>
      obtain ⟨hfirst, htouch⟩ := h
      obtain ⟨hsecond, htouch'⟩ := h'
      have hthen : TouchedSince first second earlier := htouch.resolve_left hsecond
      exact ⟨hfirst, htouch'.imp_right fun hlater => ih hthen hlater⟩

theorem TouchedSince.asymm (h : TouchedSince key other past) : ¬ TouchedSince other key past := by
  induction past with
  | nil => exact h.elim
  | cons use earlier ih =>
      intro h'
      exact ih (h.2.resolve_left h'.1) (h'.2.resolve_left h.1)

theorem TouchedSince.ne (h : TouchedSince key other past) : key ≠ other := by
  rintro rfl
  exact h.asymm h

theorem Crowded.of_touchedSince (h : Crowded capacity ttl other past now)
    (hsince : TouchedSince key other past) : Crowded capacity ttl key past now := by
  obtain ⟨rivals, hnodup, hlength, hrivals⟩ := h
  refine ⟨rivals, hnodup, hlength, fun rival hrival => ?_⟩
  obtain ⟨htouched, hgood⟩ := hrivals rival hrival
  exact ⟨hsince.trans htouched, hgood⟩

/-- What drives a key out drives out the keys that were touched before it. -/
theorem DrivenOut.of_touchedSince (h : DrivenOut capacity ttl other past)
    (hsince : TouchedSince key other past) : DrivenOut capacity ttl key past := by
  induction past with
  | nil => exact h
  | cons use earlier ih =>
      obtain ⟨hother, hcrowd⟩ := h
      refine ⟨hsince.1, hcrowd.imp ?_ ?_⟩
      · rintro ⟨now, set, rules, hset, hcrowded⟩
        exact ⟨now, set, rules, hset, hcrowded.of_touchedSince hsince⟩
      · intro hearlier
        exact ih hearlier (hsince.2.resolve_left hother)

theorem drivenOut_get_iff {answer : Option (List PolicyRule)} :
    DrivenOut capacity ttl key (⟨.get now other, answer⟩ :: past) ↔
      (Use.mk (.get now other) answer).touched? ≠ some key ∧ DrivenOut capacity ttl key past := by
  refine and_congr_right fun _ => or_iff_right ?_
  rintro ⟨_, _, _, heq, -⟩
  exact nomatch heq

/-! ## The queue in the order of touches -/

/-- Every key of the queue was touched after those before it. -/
def InOrder (order : List Key) (past : List Use) : Prop :=
  order.Pairwise fun first second => TouchedSince first second past

theorem InOrder.touchedSince {first second : Key} {rest : List Key}
    (h : InOrder (first :: rest) past) (hmem : second ∈ rest) : TouchedSince first second past :=
  List.rel_of_pairwise_cons (R := fun first second => TouchedSince first second past) h hmem

theorem InOrder.of_sublist {order order' : List Key} (h : InOrder order past)
    (hsublist : order'.Sublist order) : InOrder order' past :=
  h.sublist hsublist

theorem InOrder.cons_of_untouched {order : List Key} (h : InOrder order past)
    (huse : use.touched? = none) : InOrder order (use :: past) :=
  h.imp fun hsince => ⟨by simp [huse], Or.inr hsince⟩

theorem InOrder.cons_of_touched {order : List Key} (h : InOrder order past)
    (huse : use.touched? = some key) :
    InOrder ((order.filter fun other => other ≠ key) ++ [key]) (use :: past) := by
  have hkept : ∀ other ∈ order.filter fun other => other ≠ key, use.touched? ≠ some other := by
    intro other hother heq
    have hne : other ≠ key := by simpa using (List.mem_filter.mp hother).2
    exact hne (Option.some.inj (heq.symm.trans huse))
  refine List.pairwise_append.mpr ⟨?_, List.pairwise_singleton _ _, ?_⟩
  · refine (h.of_sublist List.filter_sublist).imp_of_mem ?_
    intro first second hfirst _ hsince
    exact ⟨hkept first hfirst, Or.inr hsince⟩
  · intro first hfirst second hsecond
    rw [List.mem_singleton.mp hsecond]
    exact ⟨hkept first hfirst, Or.inl huse⟩

/-! ## The invariant -/

/-- The cache has what its history says, as long as the clock does not go back behind `clock`. -/
structure Recalls (cache : RuleCache) (past : List Use) (clock : Instant) : Prop where
  aligned : cache.Aligned
  size_le : cache.size ≤ cache.capacity
  lastSet_of_mem : ∀ key entry, (key, entry) ∈ cache.entries → lastSet? key past = some entry
  not_drivenOut : ∀ key ∈ cache.keys, ¬ DrivenOut cache.capacity cache.ttl key past
  mem_of_lastSet : ∀ key entry, lastSet? key past = some entry → entry.GoodAt cache.ttl clock →
    ¬ DrivenOut cache.capacity cache.ttl key past → (key, entry) ∈ cache.entries
  inOrder : InOrder cache.order past

theorem recalls_empty (capacity : Nat) (ttl : Option Nat) (clock : Instant) :
    (empty capacity ttl).Recalls [] clock := by
  constructor
  case aligned => exact aligned_empty capacity ttl
  case size_le => exact Nat.zero_le capacity
  case inOrder => exact .nil
  all_goals simp [empty, keys, lastSet?]

theorem Recalls.mono (h : cache.Recalls past clock) (hle : clock ≤ now) :
    cache.Recalls past now :=
  { h with
    mem_of_lastSet := fun key entry hset hgood hkept =>
      h.mem_of_lastSet key entry hset (hgood.of_le hle) hkept }

/-! ## One use -/

/-- A miss touches nothing, and only what is no longer good goes. -/
theorem Recalls.miss (h : cache.Recalls past now)
    (hexpired : ∀ entry, (key, entry) ∈ cache.entries → cache.expired now entry = true) :
    (cache.remove key).Recalls (⟨.get now key, none⟩ :: past) now := by
  have hdriven : ∀ other, DrivenOut cache.capacity cache.ttl other (⟨.get now key, none⟩ :: past) ↔
      DrivenOut cache.capacity cache.ttl other past := by
    intro other
    exact drivenOut_get_iff.trans (and_iff_right nofun)
  constructor
  case aligned => exact h.aligned.remove key
  case size_le => exact Nat.le_trans (cache.size_remove_le key) h.size_le
  case lastSet_of_mem =>
    intro other entry hmem
    exact h.lastSet_of_mem other entry (mem_entries_remove.mp hmem).1
  case not_drivenOut =>
    intro other hother
    rw [keys_remove] at hother
    exact mt (hdriven other).mp (h.not_drivenOut other (List.mem_filter.mp hother).1)
  case mem_of_lastSet =>
    intro other entry hset hgood hkept
    have hmem : (other, entry) ∈ cache.entries :=
      h.mem_of_lastSet other entry hset hgood (mt (hdriven other).mpr hkept)
    have hfresh : cache.expired now entry = false := expired_eq_false_iff.mpr hgood
    refine mem_entries_remove.mpr ⟨hmem, fun heq => ?_⟩
    obtain rfl : other = key := heq
    exact nomatch hfresh.symm.trans (hexpired entry hmem)
  case inOrder => exact (h.inOrder.of_sublist List.filter_sublist).cons_of_untouched rfl

theorem Recalls.hit (h : cache.Recalls past now) (hmem : (key, entry) ∈ cache.entries) :
    (cache.touch key).Recalls (⟨.get now key, some rules⟩ :: past) now := by
  have hdriven : ∀ other, DrivenOut cache.capacity cache.ttl other
        (⟨.get now key, some rules⟩ :: past) ↔
      key ≠ other ∧ DrivenOut cache.capacity cache.ttl other past := by
    intro other
    rw [drivenOut_get_iff]
    simp [Use.touched?]
  constructor
  case aligned => exact h.aligned.touch (mem_keys_of_mem hmem)
  case size_le => exact h.size_le
  case lastSet_of_mem => exact h.lastSet_of_mem
  case not_drivenOut =>
    intro other hother hnow
    exact h.not_drivenOut other hother ((hdriven other).mp hnow).2
  case mem_of_lastSet =>
    intro other entry' hset hgood hkept
    by_cases heq : key = other
    · obtain rfl := heq
      have hfound : lastSet? key past = some entry := h.lastSet_of_mem key entry hmem
      obtain rfl : entry = entry' := Option.some.inj (hfound.symm.trans hset)
      exact hmem
    · exact h.mem_of_lastSet other entry' hset hgood fun hbefore =>
        hkept ((hdriven other).mpr ⟨heq, hbefore⟩)
  case inOrder => exact h.inOrder.cons_of_touched rfl

theorem Recalls.clear (h : cache.Recalls past now) :
    cache.clear.Recalls (⟨.clear, none⟩ :: past) now := by
  constructor
  case aligned => exact (h.aligned.apply h.size_le .clear).1
  case size_le => exact (h.aligned.apply h.size_le .clear).2
  case inOrder => exact .nil
  all_goals simp [RuleCache.clear, keys, lastSet?]

theorem length_lt_of_subset {rivals all : List Key} (hnodup : rivals.Nodup) (hnot : other ∉ rivals)
    (hother : other ∈ all) (hsubset : rivals ⊆ all) : rivals.length < all.length := by
  have hall : (other :: rivals).Nodup := List.nodup_cons.mpr ⟨hnot, hnodup⟩
  exact (hall.subperm (List.cons_subset.mpr ⟨hother, hsubset⟩)).length_le

section Set

variable (h : cache.Recalls past now) (key : Key) (rules : List PolicyRule)

include h

/-- What the history with the set says of a key, the cache has before it drives anything out. -/
theorem Recalls.mem_written_of_lastSet (hset : lastSet? other (⟨.set now key rules, none⟩ :: past) =
      some entry) (hgood : entry.GoodAt cache.ttl now)
    (hkept : other ≠ key → ¬ DrivenOut cache.capacity cache.ttl other past) :
    (other, entry) ∈ (cache.written now key rules).entries := by
  rw [mem_entries_written]
  by_cases heq : other = key
  · subst heq
    simp only [lastSet?, if_true, Option.some.injEq] at hset
    exact Or.inl (by rw [hset])
  · simp only [lastSet?, if_neg (Ne.symm heq)] at hset
    have hmem := h.mem_of_lastSet other entry hset hgood (hkept heq)
    exact Or.inr ⟨⟨hmem, expired_eq_false_iff.mpr hgood⟩, heq⟩

theorem Recalls.lastSet_of_mem_written
    (hmem : (other, entry) ∈ (cache.written now key rules).entries) :
    lastSet? other (⟨.set now key rules, none⟩ :: past) = some entry ∧
      entry.GoodAt cache.ttl now := by
  rcases mem_entries_written.mp hmem with hnew | ⟨⟨hold, hexpired⟩, hother⟩
  · cases hnew
    exact ⟨by simp [lastSet?], fun limit _ => Nat.le_add_right now limit⟩
  · have hother : other ≠ key := hother
    refine ⟨?_, expired_eq_false_iff.mp hexpired⟩
    simp only [lastSet?, if_neg hother.symm]
    exact h.lastSet_of_mem other entry hold

theorem Recalls.inOrder_written :
    InOrder (cache.written now key rules).order (⟨.set now key rules, none⟩ :: past) :=
  (h.inOrder.of_sublist (cache.order_prune_sublist now)).cons_of_touched rfl

/-- Whatever a set crowds out is gone: with the rivals it would go beyond the capacity, and the
front of the queue, which is driven out, is none of the rivals. -/
theorem Recalls.not_crowded_of_set (hcapacity : cache.capacity ≠ 0)
    (hwritten : other ∈ (cache.set now key rules).keys) (hother : other ∈ cache.keys) :
    ¬ Crowded cache.capacity cache.ttl other (⟨.set now key rules, none⟩ :: past) now := by
  rintro ⟨rivals, hnodup, hlength, hrivals⟩
  have halign := h.aligned.written now key rules
  have hsize : (cache.written now key rules).order.length = (cache.written now key rules).size :=
    halign.length_order
  have hthere : ∀ rival ∈ rivals, rival ∈ (cache.written now key rules).order := by
    intro rival hrival
    obtain ⟨hsince, entry, hset, hgood⟩ := hrivals rival hrival
    have hmem := h.mem_written_of_lastSet key rules hset hgood fun hrest hdriven => ?_
    · exact (halign.mem_order_iff rival).mpr (mem_keys_of_mem hmem)
    · have hbefore : TouchedSince other rival past :=
        hsince.2.resolve_left fun heq => hrest (Option.some.inj heq).symm
      exact h.not_drivenOut other hother (hdriven.of_touchedSince hbefore)
  have hnot : other ∉ rivals := fun hmem => (hrivals other hmem).1.ne rfl
  rcases h.aligned.set_cases h.size_le hcapacity now key rules with
    ⟨hfits, hset⟩ | ⟨front, rest, horder, -, hroom, hset, -⟩
  · rw [hset, ← halign.mem_order_iff] at hwritten
    have hall := length_lt_of_subset hnodup hnot hwritten hthere
    omega
  · rw [hset, keys_remove, List.mem_filter, ← halign.mem_order_iff, horder] at hwritten
    have hrest : other ∈ rest :=
      (List.mem_cons.mp hwritten.1).resolve_left (by simpa using hwritten.2)
    have hfirst : TouchedSince front other (⟨.set now key rules, none⟩ :: past) :=
      (horder ▸ h.inOrder_written key rules).touchedSince hrest
    -- the front was touched before the key, so the rivals are all among the rest, with the key
    have hbehind : rivals ⊆ rest := by
      intro rival hrival
      refine (List.mem_cons.mp (horder ▸ hthere rival hrival)).resolve_left ?_
      rintro rfl
      exact hfirst.asymm (hrivals rival hrival).1
    have hall := length_lt_of_subset hnodup hnot hrest hbehind
    omega

theorem Recalls.crowded_of_front {front : Key} {rest : List Key}
    (horder : (cache.written now key rules).order = front :: rest)
    (hlength : rest.length = cache.capacity) :
    Crowded cache.capacity cache.ttl front (⟨.set now key rules, none⟩ :: past) now := by
  have halign := h.aligned.written now key rules
  have hnodup : (front :: rest).Nodup := horder ▸ halign.order_nodup
  have hinOrder : InOrder (front :: rest) (⟨.set now key rules, none⟩ :: past) :=
    horder ▸ h.inOrder_written key rules
  refine ⟨rest, (List.nodup_cons.mp hnodup).2, hlength, fun rival hrival => ?_⟩
  have hqueued : rival ∈ (cache.written now key rules).order :=
    horder ▸ List.mem_cons_of_mem front hrival
  obtain ⟨entry, hmem⟩ := mem_keys_iff.mp ((halign.mem_order_iff rival).mp hqueued)
  exact ⟨hinOrder.touchedSince hrival, entry, h.lastSet_of_mem_written key rules hmem⟩

theorem Recalls.set (hcapacity : cache.capacity ≠ 0) :
    (cache.set now key rules).Recalls (⟨.set now key rules, none⟩ :: past) now := by
  obtain ⟨halign, hsize⟩ := h.aligned.apply h.size_le (.set now key rules)
  have hlimits : (cache.set now key rules).capacity = cache.capacity ∧
      (cache.set now key rules).ttl = cache.ttl := cache.limits_apply (.set now key rules)
  have hcases := h.aligned.set_cases h.size_le hcapacity now key rules
  have hkept : (cache.set now key rules).entries ⊆ (cache.written now key rules).entries := by
    rcases hcases with ⟨-, hset⟩ | ⟨front, -, -, -, -, hset, -⟩ <;> rw [hset]
    · exact List.Subset.refl _
    · exact fun slot hslot => (mem_entries_remove.mp hslot).1
  constructor
  case aligned => exact halign
  case size_le =>
    rw [hlimits.1]
    exact hsize
  case lastSet_of_mem =>
    intro other entry hmem
    exact (h.lastSet_of_mem_written key rules (hkept hmem)).1
  case not_drivenOut =>
    rw [hlimits.1, hlimits.2]
    rintro other hother ⟨huntouched, hdriven⟩
    have hne : other ≠ key := by simpa [Use.touched?, eq_comm] using huntouched
    obtain ⟨entry, hmem⟩ := mem_keys_iff.mp hother
    have hthere := (mem_entries_written.mp (hkept hmem)).resolve_left fun heq =>
      hne (congrArg Prod.fst heq)
    have hold : (other, entry) ∈ cache.entries := hthere.1.1
    -- crowded out by this set, or gone already
    rcases hdriven with ⟨now', set, rules', heq, hcrowded⟩ | hbefore
    · cases heq
      exact h.not_crowded_of_set key rules hcapacity hother (mem_keys_of_mem hold) hcrowded
    · exact h.not_drivenOut other (mem_keys_of_mem hold) hbefore
  case mem_of_lastSet =>
    rw [hlimits.1, hlimits.2]
    intro other entry hset hgood hfree
    -- the entry is there before anything is driven out, and what is driven out is crowded out
    have hmem : (other, entry) ∈ (cache.written now key rules).entries :=
      h.mem_written_of_lastSet key rules hset hgood fun hne hdriven =>
        hfree ⟨by simpa [Use.touched?, eq_comm] using hne, Or.inr hdriven⟩
    rcases hcases with ⟨-, hset⟩ | ⟨front, rest, horder, hfront, hlength, hset, -⟩ <;> rw [hset]
    · exact hmem
    · refine mem_entries_remove.mpr ⟨hmem, ?_⟩
      rintro rfl
      exact hfree ⟨by simpa [Use.touched?, eq_comm] using hfront,
        Or.inl ⟨now, key, rules, rfl, h.crowded_of_front key rules horder hlength⟩⟩
  case inOrder =>
    rcases hcases with ⟨-, hset⟩ | ⟨front, -, -, -, -, hset, -⟩ <;> rw [hset]
    · exact h.inOrder_written key rules
    · exact (h.inOrder_written key rules).of_sublist List.filter_sublist

end Set

/-! ## All uses -/

theorem Recalls.apply (h : cache.Recalls past clock) (hcapacity : cache.capacity ≠ 0)
    (event : Event) (htime : ∀ now ∈ event.time?, clock ≤ now) :
    (cache.apply event).2.Recalls (⟨event, (cache.apply event).1⟩ :: past)
      (event.time?.getD clock) := by
  cases event with
  | get now key =>
      have hnow := h.mono (htime now rfl)
      rcases hnow.aligned.get_cases hcapacity now key with
        ⟨hexpired, hmiss⟩ | ⟨entry, hmem, -, hhit⟩
      · simp only [RuleCache.apply, hmiss]
        exact hnow.miss hexpired
      · simp only [RuleCache.apply, hhit]
        exact hnow.hit hmem
  | set now key rules => exact (h.mono (htime now rfl)).set key rules hcapacity
  | clear => exact h.clear

theorem Recalls.run (h : cache.Recalls past clock) (hcapacity : cache.capacity ≠ 0)
    {events : List Event}
    (hclock : (clock :: (events.filterMap Event.time? ++ [now])).Pairwise (· ≤ ·)) :
    (cache.run events).Recalls (cache.history past events) now := by
  induction events generalizing cache past clock with
  | nil => exact h.mono (List.rel_of_pairwise_cons hclock List.mem_cons_self)
  | cons event rest ih =>
      have hnext : (event.time?.getD clock :: (rest.filterMap Event.time? ++ [now])).Pairwise
          (· ≤ ·) := by
        cases htime : event.time? with
        | none => rwa [List.filterMap_cons_none htime] at hclock
        | some time =>
            rw [List.filterMap_cons_some htime] at hclock
            exact (List.pairwise_cons.mp hclock).2
      refine ih (h.apply hcapacity event fun time htime => ?_) ?_ hnext
      · rw [List.filterMap_cons_some htime] at hclock
        exact List.rel_of_pairwise_cons hclock List.mem_cons_self
      · rw [(cache.limits_apply event).1]
        exact hcapacity

theorem Recalls.get_fst_eq_some_iff (h : cache.Recalls past now) (hcapacity : cache.capacity ≠ 0) :
    (cache.get now key).1 = some rules ↔
      ∃ entry, lastSet? key past = some entry ∧ entry.rules = rules ∧
        entry.GoodAt cache.ttl now ∧ ¬ DrivenOut cache.capacity cache.ttl key past := by
  constructor
  · intro hsome
    rcases h.aligned.get_cases hcapacity now key with ⟨-, hmiss⟩ | ⟨entry, hmem, hgood, hhit⟩
    · rw [hmiss] at hsome
      exact nomatch hsome
    · rw [hhit] at hsome
      exact ⟨entry, h.lastSet_of_mem key entry hmem, Option.some.inj hsome,
        expired_eq_false_iff.mp hgood, h.not_drivenOut key (mem_keys_of_mem hmem)⟩
  · rintro ⟨entry, hset, rfl, hgood, hkept⟩
    have hmem : (key, entry) ∈ cache.entries := h.mem_of_lastSet key entry hset hgood hkept
    have hfresh : cache.expired now entry = false := expired_eq_false_iff.mpr hgood
    rcases h.aligned.get_cases hcapacity now key with ⟨hexpired, -⟩ | ⟨found, hfound, -, hhit⟩
    · exact nomatch hfresh.symm.trans (hexpired entry hmem)
    · rw [hhit, h.aligned.eq_of_mem hfound hmem]

theorem mem_keys_written (hmem : (other, entry) ∈ cache.entries)
    (hgood : entry.GoodAt cache.ttl now) : other ∈ (cache.written now key rules).keys := by
  rw [mem_keys_iff]
  by_cases heq : other = key
  · exact ⟨⟨rules, now⟩, mem_entries_written.mpr (Or.inl (by rw [heq]))⟩
  · exact ⟨entry, mem_entries_written.mpr
      (Or.inr ⟨⟨hmem, expired_eq_false_iff.mpr hgood⟩, heq⟩)⟩

/-- If a set loses a good entry, then the cache was full, of good entries of other keys only. -/
theorem Recalls.full_of_lost (h : cache.Recalls past now) (hcapacity : cache.capacity ≠ 0)
    (hfind : cache.find? other = some entry) (hgood : entry.GoodAt cache.ttl now)
    (hlost : (cache.set now key rules).find? other = none) :
    cache.size = cache.capacity ∧ cache.find? key = none ∧
      ∀ slot ∈ cache.entries, slot.2.GoodAt cache.ttl now := by
  have halign := (h.aligned.apply h.size_le (.set now key rules)).1
  have hgone : other ∉ (cache.set now key rules).keys := halign.find?_eq_none_iff.mp hlost
  have hwritten : other ∈ (cache.written now key rules).keys :=
    mem_keys_written (mem_of_find? hfind) hgood
  rcases h.aligned.set_cases h.size_le hcapacity now key rules with
    ⟨-, hset⟩ | ⟨-, -, -, -, -, -, hfull, hothers⟩
  · rw [hset] at hgone
    exact (hgone hwritten).elim
  · refine ⟨hfull, ?_, fun slot hslot => expired_eq_false_iff.mp (hothers slot hslot).1⟩
    rw [h.aligned.find?_eq_none_iff, mem_keys_iff]
    rintro ⟨old, hold⟩
    exact (hothers _ hold).2 rfl

theorem Recalls.find?_set_of_present (h : cache.Recalls past now) (hcapacity : cache.capacity ≠ 0)
    {old : Entry} (hold : cache.find? key = some old) (hne : other ≠ key)
    (hfind : cache.find? other = some entry) (hgood : entry.GoodAt cache.ttl now) :
    (cache.set now key rules).find? other = some entry := by
  cases hafter : (cache.set now key rules).find? other with
  | none =>
      have hfull := h.full_of_lost hcapacity hfind hgood hafter
      exact nomatch hfull.2.1.symm.trans hold
  | some found =>
      have hmem := (mem_of_mem_set (mem_of_find? hafter)).resolve_left fun heq =>
        hne (congrArg Prod.fst heq)
      rw [h.aligned.eq_of_mem hmem (mem_of_find? hfind)]

theorem limits_run (cache : RuleCache) (events : List Event) :
    (cache.run events).capacity = cache.capacity ∧ (cache.run events).ttl = cache.ttl := by
  induction events generalizing cache with
  | nil => exact ⟨rfl, rfl⟩
  | cons event rest ih =>
      obtain ⟨hcapacity, httl⟩ := ih (cache.apply event).2
      obtain ⟨hcapacity', httl'⟩ := cache.limits_apply event
      exact ⟨hcapacity.trans hcapacity', httl.trans httl'⟩

/-- After every history with a clock that does not go back, a get is a hit if and only if the key
was set since the last clearing, the last time no longer ago than the time-to-live, and no set that
came after its last touch found as many other keys as there is room for, its own among them, that
were all touched since and were still good then; and it answers what was set last. A miss only
takes an entry of its own key away. To overwrite a key that is there drives out no good entry, and
neither does any set as long as some entry has expired or there is room left. -/
theorem answers_by_history (capacity : Nat) (ttl : Option Nat) (events : List Event)
    (now : Instant) (hcapacity : 1 ≤ capacity)
    (hclock : (events.filterMap Event.time? ++ [now]).Pairwise (· ≤ ·)) :
    let cache := (empty capacity ttl).run events
    let past := (empty capacity ttl).history [] events
    (∀ key rules, (cache.get now key).1 = some rules ↔
      ∃ entry, lastSet? key past = some entry ∧ entry.rules = rules ∧ entry.GoodAt ttl now ∧
        ¬ DrivenOut capacity ttl key past) ∧
    (∀ key, (cache.get now key).1 = none → (cache.get now key).2 = cache.remove key) ∧
    (∀ key old rules other entry, cache.find? key = some old → other ≠ key →
      cache.find? other = some entry → entry.GoodAt ttl now →
      (cache.set now key rules).find? other = some entry) ∧
    ∀ key rules other entry, cache.find? other = some entry → entry.GoodAt ttl now →
      (cache.set now key rules).find? other = none →
      cache.size = capacity ∧ ∀ slot ∈ cache.entries, slot.2.GoodAt ttl now := by
  intro cache past
  have hpositive : capacity ≠ 0 := by omega
  have hrecalls : cache.Recalls past now := by
    refine (recalls_empty capacity ttl 0).run hpositive ?_
    exact List.pairwise_cons.mpr ⟨fun time _ => Nat.zero_le time, hclock⟩
  obtain ⟨hsame, httl⟩ : cache.capacity = capacity ∧ cache.ttl = ttl :=
    limits_run (empty capacity ttl) events
  have hroom : cache.capacity ≠ 0 := by omega
  rw [← hsame, ← httl]
  refine ⟨fun key rules => hrecalls.get_fst_eq_some_iff hroom, fun key hnone => ?_,
    fun key old rules other entry => hrecalls.find?_set_of_present hroom,
    fun key rules other entry hfind hgood hlost => ?_⟩
  · rcases hrecalls.aligned.get_cases hroom now key with ⟨-, hmiss⟩ | ⟨entry, -, -, hhit⟩
    · rw [hmiss]
    · rw [hhit] at hnone
      exact nomatch hnone
  · obtain ⟨hfull, -, hall⟩ := hrecalls.full_of_lost hroom hfind hgood hlost
    exact ⟨hfull, hall⟩

theorem answers_by_history_after_eviction :
    let email : Email := ⟨"a@b", by decide, by decide, by decide⟩
    let first : Key := ⟨1, email⟩
    let second : Key := ⟨2, email⟩
    let third : Key := ⟨3, email⟩
    let events : List Event := [.set 0 first [], .set 1 second [], .get 2 first, .set 3 third []]
    let cache := (empty 2 (some 10)).run events
    let past := (empty 2 (some 10)).history [] events
    ((events.filterMap Event.time? ++ [4]).Pairwise (· ≤ ·)) ∧
      (cache.get 4 first).1 = some [] ∧ ¬ DrivenOut 2 (some 10) first past ∧
      (cache.get 4 second).1 = none ∧ DrivenOut 2 (some 10) second past := by
  intro email first second third events cache past
  have hclock : (events.filterMap Event.time? ++ [4]).Pairwise (· ≤ ·) := by decide
  have hanswers := (answers_by_history 2 (some 10) events 4 (by decide) hclock).1
  have hfirst : (cache.get 4 first).1 = some [] := by decide
  have hsecond : (cache.get 4 second).1 = none := by decide
  refine ⟨hclock, hfirst, ?_, hsecond, ?_⟩
  · obtain ⟨entry, -, -, -, hkept⟩ := (hanswers first []).mp hfirst
    exact hkept
  · by_contra hkept
    have hgood : Entry.GoodAt (some 10) 4 ⟨[], 1⟩ := by simp [Entry.GoodAt]
    have hhit := (hanswers second []).mpr ⟨⟨[], 1⟩, by decide, rfl, hgood, hkept⟩
    exact nomatch hsecond.symm.trans hhit

end RuleCache

end ScopedAccess
