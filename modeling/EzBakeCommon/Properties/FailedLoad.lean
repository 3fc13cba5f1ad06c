/-
  EzBakeCommon.Properties.FailedLoad — what a failed load leaves behind.

  `loadFromDirectory` merges the files one after another and takes none of them
  back.  A merge that collides throws before it has written anything, so what is
  left is the object with the files enumerated before the one that collides, and
  nothing of that file or the ones after it (`failed_load`).
-/
import EzBakeCommon.Properties.Loading

namespace EzBakeCommon.Properties

open Library JavaString
open Library.LayeredTable (overlay)

/-- The load has failed at `file`, with `before` merged and `left` left behind. -/
structure FailedAt (e : EzProperties) (ds : List (Except JavaException Table))
    (names : Finset JavaString) (left : EzProperties) (before : List Table) (file : Table)
    (after : List (Except JavaException Table)) : Prop where
  split : ds = before.map .ok ++ .ok file :: after
  separate : Separate e before
  collides : names = left.getCollisions [⟨.properties, file⟩] ∧ names ≠ ∅
  left_eq : left = { e with table := overlay e.table before }

section Failed

variable {e left : EzProperties} {ds after : List (Except JavaException Table)}
  {names : Finset JavaString} {before : List Table} {file : Table}

/-- **The loop stops at the first collision.** -/
theorem loadEach_failed : ∀ (ds : List (Except JavaException Table)) (e : EzProperties),
    .error (.duplicateProperty names) ∉ ds →
    EzProperties.loadEach false ds e = (.error (.duplicateProperty names), left) →
    ∃ before file after, FailedAt e ds names left before file after
  | [], _, _, h => by
      obtain ⟨hok, -⟩ := Prod.mk.inj h
      exact absurd hok (by simp)
  | .error x :: ds, e, hread, h => by
      obtain ⟨hx, -⟩ := Prod.mk.inj h
      obtain rfl : x = .duplicateProperty names := Except.error.inj hx
      exact absurd List.mem_cons_self hread
  | .ok pro :: ds, e, hread, h => by
      by_cases hcollide : e.getCollisions [⟨.properties, pro⟩] = ∅
      · -- merged, and the failure comes later
        rw [loadEach_merged hcollide] at h
        obtain ⟨before, file, after, hfailed⟩ := loadEach_failed ds (e.withEntries pro)
          (fun hmem => hread (List.mem_cons_of_mem _ hmem)) h
        refine ⟨pro :: before, file, after, ?_, ?_, hfailed.collides, hfailed.left_eq⟩
        · rw [hfailed.split]
          rfl
        · exact separate_cons.mpr ⟨hcollide, hfailed.separate⟩
      · rw [loadEach_refused hcollide] at h
        obtain ⟨hnames, rfl⟩ := Prod.mk.inj h
        have hnames : e.getCollisions [⟨.properties, pro⟩] = names := by simpa using hnames
        exact ⟨[], pro, ds, rfl, ⟨List.Pairwise.nil, fun _ h => absurd h List.not_mem_nil⟩,
          ⟨hnames.symm, hnames ▸ hcollide⟩, rfl⟩

variable (h : FailedAt e ds names left before file after)
include h

/-- What is left are the old entries and those of the files before. -/
theorem FailedAt.entries (key value : JavaString) : left.table.lookup key = some value ↔
    e.table.lookup key = some value ∨ ∃ f ∈ before, f.lookup key = some value := by
  rw [h.left_eq]
  exact h.separate.overlay_iff

/-- The object is as it was exactly if the files before had no entries. -/
theorem FailedAt.unchanged_iff : left = e ↔ ∀ f ∈ before, f = ∅ := by
  constructor
  · intro heq f hf
    refine Finmap.ext_lookup (fun key => ?_)
    rw [Finmap.lookup_empty, Finmap.lookup_eq_none]
    intro hkey
    obtain ⟨value, hvalue⟩ := Finmap.mem_iff.mp hkey
    have hheld : e.table.lookup key = some value :=
      heq ▸ (h.entries key value).mpr (Or.inr ⟨f, hf, hvalue⟩)
    refine h.separate.fresh f hf key hkey ?_
    exact Finset.mem_union_right _ (Finmap.mem_keys.mpr (Finmap.mem_of_lookup_eq_some hheld))
  · intro hempty
    have htable : overlay e.table before = e.table := by
      refine Finmap.ext_lookup (fun key => overlay_kept ?_)
      intro f hf hkey
      exact Finmap.notMem_empty (hempty f hf ▸ hkey)
    rw [h.left_eq, htable]

end Failed

/-- **A load that fails with a collision leaves the entries it found and those of
the files enumerated before the one that collides, and no others.** -/
theorem failed_load (e : EzProperties) (directory : EzProperties.Directory) (globPattern : String)
    (ds : List (Except JavaException Table)) (hdir : directory.isDirectory = true)
    (hstream : directory.stream globPattern = .ok ds) (names : Finset JavaString)
    (hread : .error (.duplicateProperty names) ∉ ds)
    (hfail : (e.loadFromDirectory (some directory) globPattern false).1
      = .error (.duplicateProperty names)) :
    ∃ before file after, FailedAt e ds names
        (e.loadFromDirectory (some directory) globPattern false).2 before file after ∧
      (∀ key value, (e.loadFromDirectory (some directory) globPattern false).2.table.lookup key
          = some value ↔
        e.table.lookup key = some value ∨ ∃ f ∈ before, f.lookup key = some value) ∧
      ((e.loadFromDirectory (some directory) globPattern false).2 = e ↔ ∀ f ∈ before, f = ∅) := by
  have hload : e.loadFromDirectory (some directory) globPattern false
      = EzProperties.loadEach false ds e := by
    unfold EzProperties.loadFromDirectory
    simp only [hdir, hstream, Bool.not_true, Bool.false_eq_true, if_false]
  have hresult : EzProperties.loadEach false ds e = (.error (.duplicateProperty names),
      (e.loadFromDirectory (some directory) globPattern false).2) := by
    rw [← hload, ← hfail]
  obtain ⟨before, file, after, hfailed⟩ := loadEach_failed ds e hread hresult
  exact ⟨before, file, after, hfailed, hfailed.entries, hfailed.unchanged_iff⟩

/-- Two files with the same key and different values. -/
def collidingFiles : List Table :=
  [Finmap.singleton (ofChars ['k']) (ofChars ['v']),
    Finmap.singleton (ofChars ['k']) (ofChars ['w'])]

/-- The second of them collides with the first. -/
theorem load_collidingFiles :
    EzProperties.empty.loadFromDirectory (some (.listing "conf" collidingFiles)) "*" false
      = (.error (.duplicateProperty {ofChars ['k']}),
          EzProperties.empty.withEntries (Finmap.singleton (ofChars ['k']) (ofChars ['v']))) := by
  have hfirst : EzProperties.empty.getCollisions
      [⟨.properties, Finmap.singleton (ofChars ['k']) (ofChars ['v'])⟩] = ∅ := by decide
  have hsecond : (EzProperties.empty.withEntries
      (Finmap.singleton (ofChars ['k']) (ofChars ['v']))).getCollisions
        [⟨.properties, Finmap.singleton (ofChars ['k']) (ofChars ['w'])⟩] = {ofChars ['k']} := by
    decide
  show EzProperties.loadEach false (collidingFiles.map .ok) EzProperties.empty = _
  unfold collidingFiles
  rw [List.map_cons, loadEach_merged hfirst, List.map_cons,
    loadEach_refused (by rw [hsecond]; decide), hsecond]

/-- The load of the two leaves the entry of the first. -/
theorem first_file_left :
    ∃ before file after, FailedAt EzProperties.empty (collidingFiles.map .ok) {ofChars ['k']}
        (EzProperties.empty.loadFromDirectory (some (.listing "conf" collidingFiles)) "*" false).2
        before file after := by
  obtain ⟨before, file, after, hfailed, -, -⟩ := failed_load EzProperties.empty
    (.listing "conf" collidingFiles) "*" (collidingFiles.map .ok) rfl rfl {ofChars ['k']}
    (by simp) (congrArg Prod.fst load_collidingFiles)
  exact ⟨before, file, after, hfailed⟩

/-- So a failed load need not leave the object as it was. -/
theorem failed_load_not_undone :
    ¬ ∀ (e : EzProperties) (files : List Table) (names : Finset JavaString),
      (e.loadFromDirectory (some (.listing "conf" files)) "*" false).1
          = .error (.duplicateProperty names) →
        (e.loadFromDirectory (some (.listing "conf" files)) "*" false).2 = e := by
  intro h
  have hsame := h EzProperties.empty collidingFiles {ofChars ['k']}
    (congrArg Prod.fst load_collidingFiles)
  rw [load_collidingFiles] at hsame
  have htable := congrArg (fun e : EzProperties => e.table.lookup (ofChars ['k'])) hsame
  have hentry : (EzProperties.empty.withEntries
      (Finmap.singleton (ofChars ['k']) (ofChars ['v']))).table.lookup (ofChars ['k'])
        = some (ofChars ['v']) := by
    rw [lookup_withEntries, Finmap.lookup_singleton_eq]
    rfl
  have hnone : EzProperties.empty.table.lookup (ofChars ['k']) = none := Finmap.lookup_empty _
  exact absurd (hentry.symm.trans (htable.trans hnone)) (by simp)

end EzBakeCommon.Properties
