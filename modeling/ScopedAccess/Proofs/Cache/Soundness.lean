import ScopedAccess.Enforcer

/-!
# Sound caches

Each entry of the loaded revision holds the rules that the snapshot gives its email, and no entry
has a later revision. This outlasts every change of the store, because a store only ever leads on to
later revisions.
-/

namespace ScopedAccess

/-! ## What the uses of a cache keep -/

namespace RuleCache

variable {cache : RuleCache} {now : Instant} {key : Key} {slot : Key × Entry}

theorem mem_of_find? {entry : Entry} (h : cache.find? key = some entry) :
    (key, entry) ∈ cache.entries := by
  unfold find? at h
  obtain ⟨before, after, hsplit, -⟩ := List.lookup_eq_some_iff.mp h
  simp [hsplit]

theorem mem_of_mem_evictFrom {capacity : Nat} {entries : List (Key × Entry)} {order : List Key}
    (h : slot ∈ (evictFrom capacity entries order).1) : slot ∈ entries := by
  induction order generalizing entries with
  | nil => exact h
  | cons first rest ih =>
      unfold evictFrom at h
      split at h
      · exact (List.mem_filter.mp (ih h)).1
      · exact h

theorem mem_of_mem_get (h : slot ∈ (cache.get now key).2.entries) : slot ∈ cache.entries := by
  unfold get at h
  split at h
  · exact h
  · split at h
    · exact h
    · split at h
      · exact (List.mem_filter.mp h).1
      · exact h

theorem mem_of_get {rules : List PolicyRule} (h : (cache.get now key).1 = some rules) :
    ∃ entry, (key, entry) ∈ cache.entries ∧ entry.rules = rules := by
  unfold get at h
  split at h
  · exact nomatch h
  · split at h
    · exact nomatch h
    · next entry hfind =>
        split at h
        · exact nomatch h
        · cases h
          exact ⟨entry, mem_of_find? hfind, rfl⟩

theorem mem_of_mem_set {rules : List PolicyRule}
    (h : slot ∈ (cache.set now key rules).entries) :
    slot = (key, ⟨rules, now⟩) ∨ slot ∈ cache.entries := by
  unfold set at h
  split at h
  · exact Or.inr h
  · have hput : slot ∈ ((cache.prune now).put key ⟨rules, now⟩).entries :=
      mem_of_mem_evictFrom h
    rcases List.mem_cons.mp hput with hnew | hold
    · exact Or.inl hnew
    · have hpruned : slot ∈ (cache.prune now).entries := (List.mem_filter.mp hold).1
      rw [entries_prune] at hpruned
      exact Or.inr (List.mem_filter.mp hpruned).1

end RuleCache

/-! ## Stores that lead on -/

/-- Readers see the same as before, or a snapshot of a later revision. -/
def Store.LeadsTo (before after : Store) : Prop :=
  after.loaded = before.loaded ∨
    ∃ snapshot, after.loaded = some snapshot ∧
      ∀ old, before.loaded = some old → old.revision < snapshot.revision

namespace Store

theorem LeadsTo.refl (store : Store) : store.LeadsTo store :=
  Or.inl rfl

theorem LeadsTo.of_loaded {before after : Store} (h : after.loaded = before.loaded) :
    before.LeadsTo after :=
  Or.inl h

theorem LeadsTo.trans {first middle last : Store} (h : first.LeadsTo middle)
    (h' : middle.LeadsTo last) : first.LeadsTo last := by
  rcases h' with heq | ⟨snapshot, hloaded, hlater⟩
  · rcases h with heq' | ⟨snapshot, hloaded, hlater⟩
    · exact Or.inl (heq.trans heq')
    · exact Or.inr ⟨snapshot, heq.trans hloaded, hlater⟩
  · refine Or.inr ⟨snapshot, hloaded, fun old hold => ?_⟩
    rcases h with heq | ⟨between, hbetween, hearlier⟩
    · exact hlater old (heq.trans hold)
    · exact Nat.lt_trans (hearlier old hold) (hlater between hbetween)

theorem leadsTo_load (store : Store) : store.LeadsTo store.load := by
  refine Or.inr ⟨_, rfl, fun old hold => ?_⟩
  simp [nextRevision, hold]

end Store

theorem Interference.leadsTo_apply (change : Interference) (store : Store) :
    store.LeadsTo (change.apply store) := by
  have hsame : store.LeadsTo ((store.removeGrouping change.remove).2.addPolicy change.add).2.save :=
    .of_loaded rfl
  exact hsame.trans (Store.leadsTo_load _)

namespace FallibleStore

theorem leadsTo_attempt {α : Type} (fallible : FallibleStore) (call : StoreCall)
    {use : Store → α × Store} (h : ∀ store : Store, store.LeadsTo (use store).2) :
    fallible.store.LeadsTo (fallible.attempt call use).2.store := by
  unfold attempt
  split
  · exact .refl _
  · exact h _

theorem leadsTo_addPolicy (rule : PolicyRule) (fallible : FallibleStore) :
    fallible.store.LeadsTo (fallible.addPolicy rule).2.store :=
  fallible.leadsTo_attempt .addPolicy fun _ => .of_loaded rfl

theorem leadsTo_addGrouping (rule : GroupingRule) (fallible : FallibleStore) :
    fallible.store.LeadsTo (fallible.addGrouping rule).2.store :=
  fallible.leadsTo_attempt .addGrouping fun _ => .of_loaded rfl

theorem leadsTo_removeGrouping (rule : GroupingRule) (fallible : FallibleStore) :
    fallible.store.LeadsTo (fallible.removeGrouping rule).2.store :=
  fallible.leadsTo_attempt .removeGrouping fun _ => .of_loaded rfl

theorem leadsTo_save (fallible : FallibleStore) :
    fallible.store.LeadsTo fallible.save.2.store :=
  fallible.leadsTo_attempt .save fun _ => .of_loaded rfl

theorem leadsTo_load (fallible : FallibleStore) :
    fallible.store.LeadsTo fallible.load.2.store :=
  fallible.leadsTo_attempt .load Store.leadsTo_load

theorem leadsTo_interfere (fallible : FallibleStore) :
    fallible.store.LeadsTo fallible.interfere.store := by
  unfold interfere
  split
  · exact Interference.leadsTo_apply _ _
  · exact .refl _

/-- A view is of what is loaded when it is taken, whatever happens right after. -/
theorem view_spec (fallible : FallibleStore) :
    fallible.store.LeadsTo fallible.view.2.store ∧
      ∀ loaded, fallible.view.1 = .ok loaded → loaded = fallible.store.loaded := by
  unfold view attempt
  cases ArmedFailure.strike .view fallible.failures with
  | mk message failures =>
      cases message with
      | some message => exact ⟨.refl _, fun loaded h => nomatch h⟩
      | none =>
          refine ⟨leadsTo_interfere { fallible with failures }, fun loaded h => ?_⟩
          cases h
          rfl

end FallibleStore

/-! ## Soundness -/

/-- What an entry may hold while `loaded` is what readers see. -/
def RuleCache.Fits (settings : Settings) (loaded : Option Snapshot)
    (slot : RuleCache.Key × RuleCache.Entry) : Prop :=
  ∃ snapshot, loaded = some snapshot ∧ slot.1.revision ≤ snapshot.revision ∧
    (slot.1.revision = snapshot.revision →
      snapshot.effectiveRules settings slot.1.email = .ok slot.2.rules)

def RuleCache.Sound (settings : Settings) (loaded : Option Snapshot) (cache : RuleCache) : Prop :=
  ∀ slot ∈ cache.entries, Fits settings loaded slot

/-- Later revisions leave an entry unread, so nothing is asked of it any more. -/
theorem RuleCache.Fits.mono {settings : Settings} {before after : Store}
    {slot : RuleCache.Key × RuleCache.Entry} (h : Fits settings before.loaded slot)
    (hleads : before.LeadsTo after) : Fits settings after.loaded slot := by
  obtain ⟨snapshot, hloaded, hle, hrules⟩ := h
  rcases hleads with heq | ⟨later, hlater, hlt⟩
  · exact ⟨snapshot, heq.trans hloaded, hle, hrules⟩
  · have hrevision : snapshot.revision < later.revision := hlt snapshot hloaded
    refine ⟨later, hlater, by omega, fun heq => ?_⟩
    omega

namespace Enforcer

/-- Whatever the cache would hand out for a view is what the view itself gives. -/
def CacheSound (enforcer : Enforcer) : Prop :=
  ∀ cache, enforcer.cache = some cache →
    cache.Sound enforcer.settings enforcer.store.store.loaded

theorem cacheSound_uncached (enforcer : Enforcer) : enforcer.uncached.CacheSound :=
  fun _ h => nomatch h

theorem cacheSound_ofConfig (config : Config) (identity : Identity) :
    (ofConfig config identity).CacheSound := by
  intro cache hcache slot hslot
  have hconfig : config.cache = some cache := hcache
  unfold Config.cache at hconfig
  split at hconfig
  · cases hconfig
    simp [RuleCache.empty] at hslot
  · exact nomatch hconfig

theorem CacheSound.withStore {enforcer : Enforcer} (h : enforcer.CacheSound)
    {store : FallibleStore} (hleads : enforcer.store.store.LeadsTo store.store) :
    CacheSound { enforcer with store } :=
  fun cache hcache slot hslot => (h cache hcache slot hslot).mono hleads

theorem CacheSound.clearCache (enforcer : Enforcer) : enforcer.clearCache.CacheSound := by
  intro cache hcache slot hslot
  obtain ⟨old, -, rfl⟩ := Option.map_eq_some_iff.mp hcache
  simp [RuleCache.clear] at hslot

theorem takeView_uncached (enforcer : Enforcer) :
    enforcer.uncached.takeView = (enforcer.takeView.1, enforcer.takeView.2.uncached) := by
  unfold takeView uncached
  dsimp only
  split <;> rfl

theorem takeView_spec (enforcer : Enforcer) :
    enforcer.takeView.2 = { enforcer with store := enforcer.store.view.2 } ∧
      ∀ snapshot, enforcer.takeView.1 = .ok snapshot →
        enforcer.store.store.loaded = some snapshot := by
  have hview := enforcer.store.view_spec.2
  unfold takeView
  split
  · next hstore => exact ⟨by rw [hstore], fun snapshot h => nomatch h⟩
  · next hstore => exact ⟨by rw [hstore], fun snapshot h => nomatch h⟩
  · next loaded store hstore =>
      refine ⟨by rw [hstore], fun snapshot h => ?_⟩
      cases h
      rw [hstore] at hview
      exact (hview _ rfl).symm

theorem CacheSound.takeView {enforcer : Enforcer} (h : enforcer.CacheSound) :
    enforcer.takeView.2.CacheSound := by
  rw [enforcer.takeView_spec.1]
  exact h.withStore enforcer.store.view_spec.1

theorem askCache_uncached (enforcer : Enforcer) (now : Instant) (key : RuleCache.Key) :
    (enforcer.askCache now key).2.uncached = enforcer.uncached := by
  unfold askCache
  split <;> rfl

theorem askCache_fst_of_cache_eq {enforcer other : Enforcer} (h : enforcer.cache = other.cache)
    (now : Instant) (key : RuleCache.Key) :
    (enforcer.askCache now key).1 = (other.askCache now key).1 := by
  unfold askCache
  rw [h]
  split <;> rfl

theorem CacheSound.askCache {enforcer : Enforcer} (h : enforcer.CacheSound) (now : Instant)
    (key : RuleCache.Key) : (enforcer.askCache now key).2.CacheSound := by
  unfold Enforcer.askCache
  split
  · exact h
  · next cache hcache =>
      intro asked hasked slot hslot
      cases hasked
      exact h cache hcache slot (RuleCache.mem_of_mem_get hslot)

theorem CacheSound.eq_of_askCache {enforcer : Enforcer} (h : enforcer.CacheSound)
    {snapshot : Snapshot} (hloaded : enforcer.store.store.loaded = some snapshot)
    {now : Instant} {email : Email} {rules : List PolicyRule}
    (hhit : (enforcer.askCache now ⟨snapshot.revision, email⟩).1 = some rules) :
    snapshot.effectiveRules enforcer.settings email = .ok rules := by
  unfold Enforcer.askCache at hhit
  split at hhit
  · exact nomatch hhit
  · next cache hcache =>
      obtain ⟨entry, hentry, rfl⟩ := RuleCache.mem_of_get hhit
      obtain ⟨held, hheld, -, hrules⟩ := h cache hcache _ hentry
      have heq : held = snapshot := Option.some.inj (hheld.symm.trans hloaded)
      rw [heq] at hrules
      exact hrules rfl

theorem CacheSound.keep {enforcer : Enforcer} (h : enforcer.CacheSound) {now : Instant}
    {key : RuleCache.Key} {rules : List PolicyRule}
    (hfits : ∀ setAt, RuleCache.Fits enforcer.settings enforcer.store.store.loaded
      (key, ⟨rules, setAt⟩)) :
    (enforcer.keep now key rules).CacheSound := by
  intro cache hcache slot hslot
  obtain ⟨old, hold, rfl⟩ := Option.map_eq_some_iff.mp hcache
  rcases RuleCache.mem_of_mem_set hslot with rfl | hkept
  · exact hfits now
  · exact h old hold slot hkept

theorem effectiveRules_of_hit {enforcer after asked : Enforcer} {time : Timing} {email : Email}
    {snapshot : Snapshot} {rules : List PolicyRule}
    (htake : enforcer.takeView = (.ok snapshot, after))
    (hask : after.askCache time.asked ⟨snapshot.revision, email⟩ = (some rules, asked)) :
    enforcer.effectiveRules time email = (.ok rules, asked) := by
  simp only [Enforcer.effectiveRules, htake, hask]

theorem effectiveRules_of_miss {enforcer after asked : Enforcer} {time : Timing} {email : Email}
    {snapshot : Snapshot} (htake : enforcer.takeView = (.ok snapshot, after))
    (hask : after.askCache time.asked ⟨snapshot.revision, email⟩ = (none, asked)) :
    enforcer.effectiveRules time email =
      match snapshot.effectiveRules asked.settings email with
      | .error error => (.error error, asked)
      | .ok rules => (.ok rules, asked.keep time.kept ⟨snapshot.revision, email⟩ rules) := by
  cases hrules : snapshot.effectiveRules asked.settings email with
  | error error => simp only [Enforcer.effectiveRules, htake, hask, hrules]
  | ok rules => simp only [Enforcer.effectiveRules, htake, hask, hrules]

/-- With a sound cache, the rules are those that the view taken now gives. -/
theorem CacheSound.effectiveRules {enforcer : Enforcer} (h : enforcer.CacheSound) (time : Timing)
    (email : Email) :
    (enforcer.effectiveRules time email).1 =
        (enforcer.takeView.1.bind fun snapshot =>
          snapshot.effectiveRules enforcer.settings email) ∧
      (enforcer.effectiveRules time email).2.uncached = enforcer.takeView.2.uncached ∧
      (enforcer.effectiveRules time email).2.CacheSound := by
  have hafter : enforcer.takeView.2.CacheSound := h.takeView
  obtain ⟨hstore, hloaded⟩ := enforcer.takeView_spec
  have hleads : enforcer.store.store.LeadsTo enforcer.takeView.2.store.store := by
    rw [hstore]
    exact enforcer.store.view_spec.1
  cases htake : enforcer.takeView with
  | mk taken after =>
      simp only [htake] at hafter hstore hloaded hleads ⊢
      cases taken with
      | error error =>
          have heq : enforcer.effectiveRules time email = (.error error, after) := by
            simp only [Enforcer.effectiveRules, htake]
          rw [heq]
          exact ⟨rfl, rfl, hafter⟩
      | ok snapshot =>
          have hview : enforcer.store.store.loaded = some snapshot := hloaded snapshot rfl
          have hcache : enforcer.cache = after.cache := by rw [hstore]
          have hsound := hafter.askCache time.asked ⟨snapshot.revision, email⟩
          have hsame := after.askCache_uncached time.asked ⟨snapshot.revision, email⟩
          have hfirst := askCache_fst_of_cache_eq hcache time.asked ⟨snapshot.revision, email⟩
          cases hask : after.askCache time.asked ⟨snapshot.revision, email⟩ with
          | mk found asked =>
              simp only [hask] at hsound hsame hfirst
              have hsettings : asked.settings = enforcer.settings :=
                (congrArg Enforcer.settings hsame).trans (by rw [hstore]; rfl)
              cases found with
              | some rules =>
                  rw [effectiveRules_of_hit htake hask]
                  -- the cache was asked as it was before the view, so sound for that view
                  exact ⟨(h.eq_of_askCache hview hfirst).symm, hsame, hsound⟩
              | none =>
                  rw [effectiveRules_of_miss htake hask, hsettings]
                  simp only [Except.bind]
                  cases hrules : snapshot.effectiveRules enforcer.settings email with
                  | error error => exact ⟨rfl, hsame, hsound⟩
                  | ok rules =>
                      refine ⟨rfl, hsame, hsound.keep fun setAt => ?_⟩
                      have hfits : RuleCache.Fits enforcer.settings enforcer.store.store.loaded
                          (⟨snapshot.revision, email⟩, ⟨rules, setAt⟩) :=
                        ⟨snapshot, hview, Nat.le_refl _, fun _ => hrules⟩
                      have hkept : asked.store = after.store := (congrArg Enforcer.store hsame :)
                      rw [hsettings, hkept]
                      exact hfits.mono hleads

end Enforcer

end ScopedAccess
