/-
  EzBakeCommon.Properties.Merging — a merge without override.

  `mergeProperties(toMerge, false)` compares the names that the two objects show,
  through any defaults, and writes only the own entries of `toMerge` into the own
  table of the object.  What it refuses to override includes what it would only
  hide, so an accepted merge leaves every raw value as it was
  (`merge_all_or_nothing`).
-/
import EzBakeCommon.Properties.Importing

namespace EzBakeCommon.Properties

open Library JavaString

/-- A merge without override is refused exactly if some key is visible in both
objects, and then changes nothing; otherwise every visible key keeps its raw
value, and every own entry of the merged object has become visible. -/
structure AllOrNothing (e : EzProperties) (toMerge : PropertiesRef) (own : Table)
    (result : Except JavaException Unit × EzProperties) : Prop where
  refused : (∃ dups, result.1 = .error (.duplicateProperty dups)) ↔
    ∃ key v w, e.toProperties.raw.lookup key = some v ∧ toMerge.raw.lookup key = some w
  names : ∀ dups, result.1 = .error (.duplicateProperty dups) →
    ∀ key, key ∈ dups ↔ key ∈ e.stringPropertyNames ∧ key ∈ toMerge.stringPropertyNames
  unchanged : result.1 ≠ .ok () → result.2 = e
  otherwise : (∃ dups, result.1 = .error (.duplicateProperty dups)) ∨ result.1 = .ok ()
  kept : result.1 = .ok () → ∀ key v, e.toProperties.raw.lookup key = some v →
    result.2.toProperties.raw.lookup key = some v
  merged : result.1 = .ok () → ∀ key v, own.lookup key = some v →
    result.2.toProperties.raw.lookup key = some v

variable {e : EzProperties} {layer : Layer} {defaults : PropertiesRef} {key : JavaString}

/-- Merged entries come before what the object showed. -/
theorem raw_withEntries (e : EzProperties) (table : Table) (key : JavaString) :
    (e.withEntries table).toProperties.raw.lookup key
      = (table.lookup key).or (e.toProperties.raw.lookup key) := by
  show (table ∪ e.table ∪ e.defaults.raw).lookup key
    = (table.lookup key).or ((e.table ∪ e.defaults.raw).lookup key)
  rw [LayeredTable.lookup_union, LayeredTable.lookup_union, LayeredTable.lookup_union,
    Option.or_assoc]

/-- A key that both objects show has a raw value in both. -/
theorem collisions_iff {toMerge : PropertiesRef} : e.getCollisions toMerge ≠ ∅ ↔
    ∃ key v w, e.toProperties.raw.lookup key = some v ∧ toMerge.raw.lookup key = some w := by
  rw [← Finset.nonempty_iff_ne_empty]
  constructor
  · intro h
    obtain ⟨key, hkey⟩ := h
    obtain ⟨hown, hother⟩ := Finset.mem_inter.mp hkey
    obtain ⟨v, hv⟩ := mem_names_iff.mp hown
    obtain ⟨w, hw⟩ := mem_names_iff.mp hother
    exact ⟨key, v, w, hv, hw⟩
  · intro h
    obtain ⟨key, v, w, hv, hw⟩ := h
    exact ⟨key, Finset.mem_inter.mpr ⟨mem_names_iff.mpr ⟨v, hv⟩, mem_names_iff.mpr ⟨w, hw⟩⟩⟩

/-- **A merge without override is all or nothing, and overrides nothing**, whatever
defaults either object has. -/
theorem merge_all_or_nothing (e : EzProperties) (layer : Layer) (defaults : PropertiesRef) :
    AllOrNothing e (layer :: defaults) layer.table
      (e.mergeProperties (layer :: defaults) false) := by
  rw [mergeProperties_cons]
  by_cases hcollide : e.getCollisions (layer :: defaults) = ∅
  · rw [if_neg (fun h => h.2 hcollide)]
    -- no key of the merged object is visible
    have hfresh : ∀ key v w, e.toProperties.raw.lookup key = some v →
        layer.table.lookup key = some w → False := by
      intro key v w hv hw
      exact collisions_iff.mpr ⟨key, v, w, hv, raw_own hw⟩ hcollide
    constructor
    case refused =>
      refine iff_of_false (fun h => ?_) (fun h => collisions_iff.mpr h hcollide)
      obtain ⟨dups, hdups⟩ := h
      exact absurd hdups (by simp)
    case names => exact fun dups h => absurd h (by simp)
    case unchanged => exact fun h => absurd rfl h
    case otherwise => exact Or.inr rfl
    case kept =>
      intro _ key v hv
      rw [raw_withEntries]
      cases hw : layer.table.lookup key with
      | none => exact hv
      | some w => exact (hfresh key v w hv hw).elim
    case merged =>
      intro _ key v hv
      rw [raw_withEntries, hv]
      rfl
  · rw [if_pos ⟨rfl, hcollide⟩]
    constructor
    case refused => exact iff_of_true ⟨_, rfl⟩ (collisions_iff.mp hcollide)
    case names =>
      intro dups h key
      have hdups : e.getCollisions (layer :: defaults) = dups := by simpa using h
      rw [← hdups]
      exact Finset.mem_inter
    case unchanged => exact fun _ => rfl
    case otherwise => exact Or.inl ⟨_, rfl⟩
    case kept => exact fun h => absurd h (by simp)
    case merged => exact fun h => absurd h (by simp)

end EzBakeCommon.Properties
