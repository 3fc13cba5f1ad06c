/-
  EzBakeCommon.Properties.Importing — copying an object, and merging one in.

  Both go through `putAll`, which copies the entries of the argument's own
  table.  The names an object shows include those of its defaults.  So a copy
  and a merge keep what the source shows exactly where the source's own table
  holds it, or the target happens to show the same (`imports_iff`).
-/
import EzBakeCommon.Properties.Reading

namespace EzBakeCommon.Properties

open Library JavaString

variable {layer : Layer} {defaults : PropertiesRef} {key : JavaString}

/-! ## §1. One merge. -/

section Merge

variable (e : EzProperties) (shouldOverride : Bool)

/-- The object after a merge that is not refused. -/
def EzProperties.withEntries (table : Table) : EzProperties := { e with table := table ∪ e.table }

theorem lookup_withEntries (table : Table) (key : JavaString) :
    (e.withEntries table).table.lookup key = (table.lookup key).or (e.table.lookup key) :=
  LayeredTable.lookup_union key table e.table

/-- A merge without override is refused exactly if some name is shown by both
objects; a refused merge changes nothing. -/
theorem mergeProperties_cons :
    e.mergeProperties (layer :: defaults) shouldOverride =
      if shouldOverride = false ∧ e.getCollisions (layer :: defaults) ≠ ∅ then
        (.error (.duplicateProperty (e.getCollisions (layer :: defaults))), e)
      else (.ok (), e.withEntries layer.table) := by
  unfold EzProperties.mergeProperties
  cases shouldOverride with
  | true => rfl
  | false =>
      by_cases h : e.getCollisions (layer :: defaults) = ∅
      · simp [h, EzProperties.putAll, EzProperties.withEntries]
      · simp [h]

theorem mergeProperties_ok (h : (e.mergeProperties (layer :: defaults) shouldOverride).1 = .ok ()) :
    (e.mergeProperties (layer :: defaults) shouldOverride).2 = e.withEntries layer.table := by
  rw [mergeProperties_cons] at h ⊢
  split
  next hdup =>
    rw [if_pos hdup] at h
    exact absurd h (by simp)
  next => rfl

/-- Merged entries decide over what the object held before. -/
theorem raw_withEntries_own {table : Table} {value : JavaString}
    (h : table.lookup key = some value) :
    (e.withEntries table).toProperties.raw.lookup key = some value := by
  refine raw_own ?_
  show (e.withEntries table).table.lookup key = _
  rw [lookup_withEntries, h]
  rfl

/-- Any other key reads as before. -/
theorem getProperty_withEntries_other {table : Table} (h : table.lookup key = none) :
    (e.withEntries table).getProperty key = e.getProperty key := by
  refine getProperty_congr rfl rfl ?_
  rw [lookup_withEntries, h]
  rfl

end Merge

/-! ## §2. What an import should keep. -/

/-- No stored value, of the object or its defaults, has the markers. -/
def Unmarked (p : PropertiesRef) : Prop :=
  ∀ layer ∈ p, ∀ key value, layer.table.lookup key = some value →
    isEncryptedValue (some value) = false

theorem Unmarked.raw {value : JavaString} :
    ∀ {p : PropertiesRef}, Unmarked p → p.raw.lookup key = some value →
      isEncryptedValue (some value) = false
  | [], _, h => absurd h (by simp [PropertiesRef.raw])
  | layer :: defaults, hp, h => by
      rcases raw_cases h with hl | ⟨-, hd⟩
      · exact hp layer List.mem_cons_self key value hl
      · exact Unmarked.raw (fun l hl => hp l (List.mem_cons_of_mem layer hl)) hd

/-- The raw value of the key has no markers. -/
def UnmarkedAt (p : PropertiesRef) (key : JavaString) : Prop :=
  ∀ value, p.raw.lookup key = some value → isEncryptedValue (some value) = false

/-- The copy and the view of the object return the same for every key. -/
def CopyReadsLikeView (s : PropertiesRef) : Prop :=
  ∀ copy view, EzProperties.new s true = .ok copy → EzProperties.new s false = .ok view →
    ∀ key, copy.getProperty key = view.getProperty key

/-- After the merge every name of the source, its value without the markers,
reads as in the source. -/
def MergeKeepsValues (s : PropertiesRef) (shouldOverride : Bool) (e : EzProperties) : Prop :=
  ∀ key ∈ s.stringPropertyNames, UnmarkedAt s key →
    (e.mergeProperties s shouldOverride).2.getProperty key = s.getProperty key

theorem mem_names_iff {p : PropertiesRef} :
    key ∈ p.stringPropertyNames ↔ ∃ value, p.raw.lookup key = some value := by
  rw [stringPropertyNames_eq, Finmap.mem_keys, Finmap.mem_iff]

/-! ## §3. What it keeps. -/

/-- **The copy reads like the view exactly if the object's own table holds every
name of its defaults.** -/
theorem copyReadsLikeView_iff (hs : Unmarked (layer :: defaults)) :
    CopyReadsLikeView (layer :: defaults) ↔
      ∀ key ∈ PropertiesRef.stringPropertyNames defaults, key ∈ layer.table := by
  -- the copy holds the own table, the view shows the whole object
  have hcopy : EzProperties.new (layer :: defaults) true
      = .ok ⟨none, layer.table ∪ ∅, []⟩ := rfl
  have hview : EzProperties.new (layer :: defaults) false
      = .ok ⟨none, ∅, layer :: defaults⟩ := rfl
  have hcopyRaw : (EzProperties.toProperties ⟨none, layer.table ∪ ∅, []⟩).raw = layer.table := by
    show layer.table ∪ ∅ ∪ ∅ = _
    rw [Finmap.union_empty, Finmap.union_empty]
  have hviewRaw : (EzProperties.toProperties ⟨none, ∅, layer :: defaults⟩).raw
      = PropertiesRef.raw (layer :: defaults) := Finmap.empty_union
  constructor
  · intro h key hkey
    by_contra hown
    obtain ⟨value, hvalue⟩ := mem_names_iff.mp hkey
    have hraw : (PropertiesRef.raw (layer :: defaults)).lookup key = some value := by
      rw [raw_cons, Finmap.lookup_union_right hown, hvalue]
    have hread := h _ _ hcopy hview key
    unfold EzProperties.getProperty at hread
    rw [getProperty_absent (by rwa [hcopyRaw]),
      getProperty_plain (hs.raw hraw) (by rwa [hviewRaw])] at hread
    exact absurd (Except.ok.inj hread) (by simp)
  · intro h copy view hc hv key
    obtain rfl := Except.ok.inj (hcopy.symm.trans hc)
    obtain rfl := Except.ok.inj (hview.symm.trans hv)
    unfold EzProperties.getProperty
    cases hl : layer.table.lookup key with
    | some value =>
        have hraw : (PropertiesRef.raw (layer :: defaults)).lookup key = some value := raw_own hl
        rw [getProperty_plain (hs.raw hraw) (by rwa [hcopyRaw]),
          getProperty_plain (hs.raw hraw) (by rwa [hviewRaw])]
    | none =>
        -- not a name of the defaults either
        have hown : key ∉ layer.table := Finmap.lookup_eq_none.mp hl
        have hdef : key ∉ PropertiesRef.raw defaults := by
          intro hd
          refine hown (h key ?_)
          rw [stringPropertyNames_eq]
          exact Finmap.mem_keys.mpr hd
        have habs : key ∉ PropertiesRef.raw (layer :: defaults) := by
          rw [raw_cons, Finmap.mem_union]
          exact not_or.mpr ⟨hown, hdef⟩
        rw [getProperty_absent (by rwa [hcopyRaw]), getProperty_absent (by rwa [hviewRaw])]

/-- **A merge keeps the values exactly if every name that only the source's
defaults hold reads in the target as in the source already.** -/
theorem mergeKeepsValues_iff {e : EzProperties} {shouldOverride : Bool}
    (hok : (e.mergeProperties (layer :: defaults) shouldOverride).1 = .ok ()) :
    MergeKeepsValues (layer :: defaults) shouldOverride e ↔
      ∀ key ∈ PropertiesRef.stringPropertyNames defaults, key ∉ layer.table →
        UnmarkedAt (layer :: defaults) key →
        e.getProperty key = PropertiesRef.getProperty (layer :: defaults) key := by
  unfold MergeKeepsValues
  rw [mergeProperties_ok e shouldOverride hok]
  constructor
  · intro h key hkey hown hplain
    have hnames : key ∈ PropertiesRef.stringPropertyNames (layer :: defaults) :=
      Finset.mem_union_left _ hkey
    rw [← h key hnames hplain]
    exact (getProperty_withEntries_other e (Finmap.lookup_eq_none.mpr hown)).symm
  · intro h key hkey hplain
    cases hl : layer.table.lookup key with
    | some value =>
        have hraw : (PropertiesRef.raw (layer :: defaults)).lookup key = some value := raw_own hl
        rw [getProperty_plain (hplain value hraw) hraw]
        exact getProperty_plain (hplain value hraw) (raw_withEntries_own e hl)
    | none =>
        have hown : key ∉ layer.table := Finmap.lookup_eq_none.mp hl
        have hdef : key ∈ PropertiesRef.stringPropertyNames defaults := by
          rcases Finset.mem_union.mp hkey with hd | ho
          · exact hd
          · exact absurd (Finmap.mem_keys.mp ho) hown
        rw [getProperty_withEntries_other e hl]
        exact h key hdef hown hplain

/-- **When copying and merging keep what the source shows.** -/
theorem imports_iff (layer : Layer) (defaults : PropertiesRef) (e : EzProperties)
    (shouldOverride : Bool) :
    (Unmarked (layer :: defaults) →
      (CopyReadsLikeView (layer :: defaults) ↔
        ∀ key ∈ PropertiesRef.stringPropertyNames defaults, key ∈ layer.table)) ∧
    ((e.mergeProperties (layer :: defaults) shouldOverride).1 = .ok () →
      (MergeKeepsValues (layer :: defaults) shouldOverride e ↔
        ∀ key ∈ PropertiesRef.stringPropertyNames defaults, key ∉ layer.table →
          UnmarkedAt (layer :: defaults) key →
          e.getProperty key = PropertiesRef.getProperty (layer :: defaults) key)) :=
  ⟨copyReadsLikeView_iff, mergeKeepsValues_iff⟩

/-- A table of one entry holds no other value. -/
theorem unmarked_singleton {key value key' value' : JavaString}
    (hvalue : isEncryptedValue (some value') = false)
    (h : (Finmap.singleton key' value' : Table).lookup key = some value) :
    isEncryptedValue (some value) = false := by
  obtain rfl : key = key' := by simpa using Finmap.mem_of_lookup_eq_some h
  obtain rfl : value' = value := by simpa using h
  exact hvalue

/-- A source whose own table repeats the name of its default, and one whose default the target
shows already. -/
theorem repeated_defaults_imported :
    CopyReadsLikeView [⟨.properties, Finmap.singleton (ofChars ['k']) (ofChars ['v'])⟩,
        ⟨.properties, Finmap.singleton (ofChars ['k']) (ofChars ['w'])⟩] ∧
    MergeKeepsValues [⟨.properties, Finmap.singleton (ofChars ['k']) (ofChars ['v'])⟩,
        ⟨.properties, Finmap.singleton (ofChars ['j']) (ofChars ['w'])⟩] true
      ⟨none, Finmap.singleton (ofChars ['j']) (ofChars ['w']), []⟩ := by
  constructor
  · refine ((imports_iff ⟨.properties, Finmap.singleton (ofChars ['k']) (ofChars ['v'])⟩
      [⟨.properties, Finmap.singleton (ofChars ['k']) (ofChars ['w'])⟩] EzProperties.empty
      true).1 ?_).mpr ?_
    · intro layer hlayer key value h
      rcases List.mem_pair.mp hlayer with rfl | rfl
      · exact unmarked_singleton (by decide) h
      · exact unmarked_singleton (by decide) h
    · intro key hkey
      simpa [PropertiesRef.stringPropertyNames] using hkey
  · refine ((imports_iff ⟨.properties, Finmap.singleton (ofChars ['k']) (ofChars ['v'])⟩
      [⟨.properties, Finmap.singleton (ofChars ['j']) (ofChars ['w'])⟩]
      ⟨none, Finmap.singleton (ofChars ['j']) (ofChars ['w']), []⟩ true).2 rfl).mpr ?_
    intro key hkey _ _
    obtain rfl : key = ofChars ['j'] := by
      simpa [PropertiesRef.stringPropertyNames] using hkey
    have htarget : EzProperties.getProperty
        ⟨none, Finmap.singleton (ofChars ['j']) (ofChars ['w']), []⟩ (ofChars ['j'])
          = .ok (some (ofChars ['w'])) :=
      getProperty_plain (by decide) (by simp [EzProperties.toProperties, PropertiesRef.raw])
    rw [htarget]
    exact (getProperty_plain (by decide) rfl).symm

/-- A source whose only value is in its defaults: the copy has lost it, and so
has a merge. -/
theorem defaults_not_copied :
    ¬ CopyReadsLikeView [⟨.properties, ∅⟩,
        ⟨.properties, Finmap.singleton (ofChars ['k']) (ofChars ['v'])⟩] ∧
    ¬ MergeKeepsValues [⟨.properties, ∅⟩,
        ⟨.properties, Finmap.singleton (ofChars ['k']) (ofChars ['v'])⟩] true
      EzProperties.empty := by
  have hview : PropertiesRef.getProperty [⟨.properties, ∅⟩,
      ⟨.properties, Finmap.singleton (ofChars ['k']) (ofChars ['v'])⟩] (ofChars ['k'])
      = .ok (some (ofChars ['v'])) :=
    getProperty_plain (by decide) (by simp [PropertiesRef.raw])
  constructor
  · intro h
    have hread := h ⟨none, ∅ ∪ ∅, []⟩ ⟨none, ∅, _⟩ rfl rfl (ofChars ['k'])
    have hlost : EzProperties.getProperty ⟨none, ∅ ∪ ∅, []⟩ (ofChars ['k']) = .ok none :=
      getProperty_absent
        (by simp [EzProperties.toProperties, PropertiesRef.raw, Finmap.notMem_empty])
    have hshown : EzProperties.getProperty ⟨none, ∅, [⟨.properties, ∅⟩,
        ⟨.properties, Finmap.singleton (ofChars ['k']) (ofChars ['v'])⟩]⟩ (ofChars ['k'])
        = .ok (some (ofChars ['v'])) :=
      getProperty_plain (by decide) (by simp [EzProperties.toProperties, PropertiesRef.raw])
    rw [hlost, hshown] at hread
    exact absurd (Except.ok.inj hread) (by simp)
  · intro h
    have hread := h (ofChars ['k']) (by simp [PropertiesRef.stringPropertyNames]) (by
      intro value hvalue
      obtain rfl : ofChars ['v'] = value := by simpa [PropertiesRef.raw] using hvalue
      decide)
    have hlost : (EzProperties.empty.mergeProperties [⟨.properties, ∅⟩,
        ⟨.properties, Finmap.singleton (ofChars ['k']) (ofChars ['v'])⟩] true).2.getProperty
        (ofChars ['k']) = .ok none :=
      getProperty_absent (by simp [EzProperties.mergeProperties, EzProperties.putAll,
        EzProperties.empty, EzProperties.toProperties, PropertiesRef.raw, Finmap.notMem_empty])
    rw [hlost, hview] at hread
    exact absurd (Except.ok.inj hread) (by simp)

end EzBakeCommon.Properties
