/-
  EzBakeCommon.Properties.Loading — loadFromDirectory and the order of the stream.

  The directory stream lists the files in no particular order, and each file is
  merged into what the ones before it have left.  Without override the order
  decides neither whether the load succeeds nor what it leaves; with override
  the last file that holds a key decides, so the order leaves no trace exactly
  if any two files that share a key give it the same value (`load_orders`).
-/
import EzBakeCommon.Properties.Importing

namespace EzBakeCommon.Properties

open Library
open Library.LayeredTable (visible overlay Agree)

/-! ## §1. The loop. -/

/-- The files can be merged without a collision: no name is in two of them, or
in one of them and shown by the object. -/
structure Separate (e : EzProperties) (files : List Table) : Prop where
  pairwise : files.Pairwise Finmap.Disjoint
  fresh : ∀ file ∈ files, ∀ key ∈ file, key ∉ e.stringPropertyNames

theorem mem_names_withEntries {e : EzProperties} {table : Table} {key : JavaString} :
    key ∈ (e.withEntries table).stringPropertyNames ↔
      key ∈ table ∨ key ∈ e.stringPropertyNames := by
  show key ∈ PropertiesRef.stringPropertyNames e.defaults ∪ (table ∪ e.table).keys ↔
    key ∈ table ∨ key ∈ PropertiesRef.stringPropertyNames e.defaults ∪ e.table.keys
  rw [Finmap.keys_union]
  simp only [Finset.mem_union, Finmap.mem_keys]
  tauto

section Loop

variable {e : EzProperties} {file : Table} {files : List Table}

/-- What the merge of a file that has been read does. -/
theorem merged (e : EzProperties) (file : Table) (shouldOverride : Bool) :
    e.mergeProperties [⟨.properties, file⟩] shouldOverride =
      if shouldOverride = false ∧ e.getCollisions [⟨.properties, file⟩] ≠ ∅ then
        (.error (.duplicateProperty (e.getCollisions [⟨.properties, file⟩])), e)
      else (.ok (), e.withEntries file) :=
  mergeProperties_cons e shouldOverride

/-- The first file collides with nothing, and the rest with nothing that is
shown after it. -/
theorem separate_cons : Separate e (file :: files) ↔
    e.getCollisions [⟨.properties, file⟩] = ∅ ∧ Separate (e.withEntries file) files := by
  have hcollide : e.getCollisions [⟨.properties, file⟩] = ∅ ↔
      ∀ key ∈ file, key ∉ e.stringPropertyNames := by
    have hnames : PropertiesRef.stringPropertyNames [⟨.properties, file⟩] = file.keys :=
      Finset.empty_union _
    unfold EzProperties.getCollisions
    rw [hnames, Finset.eq_empty_iff_forall_notMem]
    simp only [Finset.mem_inter, Finmap.mem_keys]
    exact ⟨fun h key hkey hn => h key ⟨hn, hkey⟩, fun h key hkey => h key hkey.2 hkey.1⟩
  rw [hcollide]
  constructor
  · intro h
    obtain ⟨hpair, hfresh⟩ := h
    obtain ⟨hfile, hpair⟩ := List.pairwise_cons.mp hpair
    refine ⟨hfresh file List.mem_cons_self, hpair, ?_⟩
    intro g hg key hkey hn
    rcases mem_names_withEntries.mp hn with hin | hn
    · exact hfile g hg key hin hkey
    · exact hfresh g (List.mem_cons_of_mem file hg) key hkey hn
  · intro h
    obtain ⟨hfile, hpair, hfresh⟩ := h
    constructor
    · refine List.pairwise_cons.mpr ⟨?_, hpair⟩
      intro g hg key hin hkey
      exact hfresh g hg key hkey (mem_names_withEntries.mpr (Or.inl hin))
    · intro g hg key hkey hn
      rcases List.mem_cons.mp hg with rfl | hg
      · exact hfile key hkey hn
      · exact hfresh g hg key hkey (mem_names_withEntries.mpr (Or.inr hn))

/-- With override every file is merged. -/
theorem loadEach_override : ∀ (files : List Table) (e : EzProperties),
    EzProperties.loadEach true (files.map .ok) e
      = (.ok (), { e with table := overlay e.table files })
  | [], _ => rfl
  | file :: files, e => by
      have hmerge := merged e file true
      rw [if_neg (fun h => absurd h.1 (by simp))] at hmerge
      rw [List.map_cons]
      unfold EzProperties.loadEach
      rw [hmerge]
      exact loadEach_override files (e.withEntries file)

/-- Without override a file that collides with nothing is merged, and the loop goes on. -/
theorem loadEach_merged (h : e.getCollisions [⟨.properties, file⟩] = ∅)
    (ds : List (Except JavaException Table)) :
    EzProperties.loadEach false (.ok file :: ds) e
      = EzProperties.loadEach false ds (e.withEntries file) := by
  have hmerge := merged e file false
  rw [if_neg (fun hne => hne.2 h)] at hmerge
  rw [EzProperties.loadEach, hmerge]

/-- A file that collides ends the loop, before it is merged. -/
theorem loadEach_refused (h : e.getCollisions [⟨.properties, file⟩] ≠ ∅)
    (ds : List (Except JavaException Table)) :
    EzProperties.loadEach false (.ok file :: ds) e
      = (.error (.duplicateProperty (e.getCollisions [⟨.properties, file⟩])), e) := by
  have hmerge := merged e file false
  rw [if_pos ⟨rfl, h⟩] at hmerge
  rw [EzProperties.loadEach, hmerge]

/-- **Without override the load succeeds exactly if the files are separate**,
and then every file has been merged. -/
theorem loadEach_strict : ∀ (files : List Table) (e : EzProperties),
    ((EzProperties.loadEach false (files.map .ok) e).1 = .ok () ↔ Separate e files) ∧
    (Separate e files → EzProperties.loadEach false (files.map .ok) e
      = (.ok (), { e with table := overlay e.table files }))
  | [], e =>
      ⟨iff_of_true rfl ⟨List.Pairwise.nil, fun _ h => absurd h List.not_mem_nil⟩, fun _ => rfl⟩
  | file :: files, e => by
      rw [List.map_cons, separate_cons]
      by_cases h : e.getCollisions [⟨.properties, file⟩] = ∅
      · obtain ⟨hiff, heq⟩ := loadEach_strict files (e.withEntries file)
        rw [loadEach_merged h]
        exact ⟨hiff.trans (and_iff_right h).symm, fun hs => heq hs.2⟩
      · rw [loadEach_refused h]
        exact ⟨iff_of_false (by simp) (fun hs => h hs.1), fun hs => absurd hs.1 h⟩

end Loop

/-- The files that are separate are so in every order. -/
theorem Separate.perm {e : EzProperties} {listed files : List Table} (hperm : listed.Perm files)
    (h : Separate e files) : Separate e listed :=
  ⟨(hperm.pairwise_iff (fun hst => hst.symm)).mpr h.pairwise,
    fun file hfile => h.fresh file (hperm.subset hfile)⟩

/-- Files that share no key agree on the keys they share. -/
theorem Separate.agree {e : EzProperties} {files : List Table} (h : Separate e files) :
    files.Pairwise Agree := by
  refine h.pairwise.imp ?_
  intro s t hst a b c hb hc
  exact absurd (Finmap.mem_of_lookup_eq_some hc) (hst a (Finmap.mem_of_lookup_eq_some hb))

/-! ## §2. What the files leave. -/

section Overlay

variable {base : Table} {files : List Table} {key value : JavaString}

theorem overlay_kept (h : ∀ file ∈ files, key ∉ file) :
    (overlay base files).lookup key = base.lookup key := by
  have hnone : (visible files.reverse).lookup key = none := by
    rw [Finmap.lookup_eq_none, LayeredTable.mem_visible]
    intro hmem
    obtain ⟨file, hfile, hkey⟩ := hmem
    exact h file (List.mem_reverse.mp hfile) hkey
  rw [LayeredTable.overlay_eq_visible, LayeredTable.lookup_union, hnone]
  rfl

/-- The last file that holds the key decides. -/
theorem overlay_last {before after : List Table} {file : Table}
    (hvalue : file.lookup key = some value) (hafter : ∀ g ∈ after, key ∉ g) :
    (overlay base (before ++ file :: after)).lookup key = some value := by
  rw [LayeredTable.overlay_append, LayeredTable.overlay_cons, overlay_kept hafter,
    LayeredTable.lookup_union, hvalue]
  rfl

theorem overlay_some (h : (overlay base files).lookup key = some value) :
    base.lookup key = some value ∨ ∃ file ∈ files, file.lookup key = some value := by
  induction files generalizing base with
  | nil => exact Or.inl h
  | cons file files ih =>
      rcases ih h with hbase | hlater
      · rw [LayeredTable.lookup_union, Option.or_eq_some_iff] at hbase
        rcases hbase with hfile | hbase
        · exact Or.inr ⟨file, List.mem_cons_self, hfile⟩
        · exact Or.inl hbase.2
      · obtain ⟨g, hg, hkey⟩ := hlater
        exact Or.inr ⟨g, List.mem_cons_of_mem file hg, hkey⟩

/-- Separate files leave the old table and all their own entries. -/
theorem Separate.overlay_iff {e : EzProperties} (h : Separate e files) :
    (overlay e.table files).lookup key = some value ↔
      e.table.lookup key = some value ∨ ∃ file ∈ files, file.lookup key = some value := by
  refine ⟨overlay_some, ?_⟩
  intro hor
  rcases hor with hold | hnew
  · rw [overlay_kept, hold]
    intro file hfile hkey
    refine h.fresh file hfile key hkey ?_
    exact Finset.mem_union_right _ (Finmap.mem_keys.mpr (Finmap.mem_of_lookup_eq_some hold))
  · obtain ⟨file, hfile, hkey⟩ := hnew
    obtain ⟨before, after, rfl⟩ := List.append_of_mem hfile
    refine overlay_last hkey ?_
    intro g hg
    have hpair := List.pairwise_cons.mp (List.pairwise_append.mp h.pairwise).2.1
    exact hpair.1 g hg key (Finmap.mem_of_lookup_eq_some hkey)

end Overlay

/-! ## §3. The order of the stream. -/

/-- A directory whose files can all be read, listed in this order. -/
def EzProperties.Directory.listing (name : String) (files : List Table) : EzProperties.Directory :=
  ⟨name, true, fun _ => .ok (files.map .ok)⟩

/-- What a load of these files depends on; `load` takes the order in which they
are listed, and the flag. -/
structure StreamOrder (e : EzProperties) (files : List Table)
    (load : List Table → Bool → Except JavaException Unit × EzProperties) : Prop where
  verdict : (load files false).1 = .ok () ↔ Separate e files
  same_verdict : ∀ listed : List Table, listed.Perm files →
    ((load listed false).1 = .ok () ↔ (load files false).1 = .ok ())
  same_result : (load files false).1 = .ok () →
    ∀ listed : List Table, listed.Perm files → load listed false = load files false
  all_entries : (load files false).1 = .ok () → ∀ key value,
    (load files false).2.table.lookup key = some value ↔
      e.table.lookup key = some value ∨ ∃ file ∈ files, file.lookup key = some value
  override_ok : (load files true).1 = .ok ()
  override_last : ∀ before file after, files = before ++ file :: after →
    ∀ key value, file.lookup key = some value → (∀ g ∈ after, key ∉ g) →
      (load files true).2.table.lookup key = some value
  override_kept : ∀ key, (∀ file ∈ files, key ∉ file) →
    (load files true).2.table.lookup key = e.table.lookup key
  override_order : (∀ listed : List Table, listed.Perm files →
    (load listed true).2.table = (load files true).2.table) ↔ files.Pairwise Agree

/-- **Loading a directory, whatever the order of the stream.** -/
theorem load_orders (e : EzProperties) (name globPattern : String) (files : List Table) :
    StreamOrder e files (fun listed shouldOverride =>
      e.loadFromDirectory (some (.listing name listed)) globPattern shouldOverride) := by
  have hverdict : ∀ listed : List Table,
      (e.loadFromDirectory (some (.listing name listed)) globPattern false).1 = .ok () ↔
        Separate e listed :=
    fun listed => (loadEach_strict listed e).1
  have hleft : ∀ listed : List Table, Separate e listed →
      e.loadFromDirectory (some (.listing name listed)) globPattern false
        = (.ok (), { e with table := overlay e.table listed }) :=
    fun listed => (loadEach_strict listed e).2
  have hover : ∀ listed : List Table,
      e.loadFromDirectory (some (.listing name listed)) globPattern true
        = (.ok (), { e with table := overlay e.table listed }) :=
    fun listed => loadEach_override listed e
  constructor
  case verdict => exact hverdict files
  case same_verdict =>
    intro listed hperm
    have hsep : Separate e listed ↔ Separate e files :=
      ⟨Separate.perm hperm.symm, Separate.perm hperm⟩
    exact (hverdict listed).trans (hsep.trans (hverdict files).symm)
  case same_result =>
    intro hok listed hperm
    have hsep : Separate e files := (hverdict files).mp hok
    have horder := (LayeredTable.overlay_perm_iff e.table files).mpr hsep.agree listed hperm
    simp only [hleft listed (hsep.perm hperm), hleft files hsep, horder]
  case all_entries =>
    intro hok key value
    have hsep : Separate e files := (hverdict files).mp hok
    simp only [hleft files hsep]
    exact hsep.overlay_iff
  case override_ok => simp only [hover]
  case override_last =>
    intro before file after hfiles key value hvalue hafter
    simp only [hover, hfiles]
    exact overlay_last hvalue hafter
  case override_kept =>
    intro key hkey
    simp only [hover]
    exact overlay_kept hkey
  case override_order =>
    simp only [hover]
    exact LayeredTable.overlay_perm_iff e.table files

end EzBakeCommon.Properties
