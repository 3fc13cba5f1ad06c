/-
  EzBakeCommon.Library.LayeredTable — tables behind one another, and tables on
  top of one another.

  `visible` reads a list of finite tables from the front: the first table that
  holds a key decides.  `overlay` writes a list of tables over a base, one after
  another: the last table that holds a key decides.  Either is a union.

  Main results:
    * `overlay_eq_visible` — writing is reading from the other end.
    * `overlay_perm_iff` — the order of the tables leaves no trace exactly if
      any two that share a key agree on it.
-/
import Mathlib.Data.Finmap
import Mathlib.Data.List.Pairwise
import Mathlib.Data.List.Perm.Lattice

namespace Library.LayeredTable

variable {α : Type*} [DecidableEq α] {β : α → Type*}

/-! ## §1. Reading from the front. -/

/-- The table that the layers show together. -/
def visible (ts : List (Finmap β)) : Finmap β := ts.foldr (· ∪ ·) ∅

@[simp] theorem visible_nil : visible ([] : List (Finmap β)) = ∅ := rfl

@[simp] theorem visible_cons (t : Finmap β) (ts : List (Finmap β)) :
    visible (t :: ts) = t ∪ visible ts := rfl

theorem lookup_union (a : α) (s t : Finmap β) :
    (s ∪ t).lookup a = (s.lookup a).or (t.lookup a) := by
  by_cases ha : a ∈ s
  · obtain ⟨b, hb⟩ := Finmap.mem_iff.mp ha
    rw [Finmap.lookup_union_left ha, hb]
    rfl
  · rw [Finmap.lookup_union_right ha, Finmap.lookup_eq_none.mpr ha]
    rfl

theorem mem_visible {a : α} : ∀ {ts : List (Finmap β)}, a ∈ visible ts ↔ ∃ t ∈ ts, a ∈ t
  | [] => by simp [Finmap.notMem_empty]
  | t :: ts => by
      rw [visible_cons, Finmap.mem_union, mem_visible]
      simp

theorem visible_append : ∀ ts ts' : List (Finmap β),
    visible (ts ++ ts') = visible ts ∪ visible ts'
  | [], _ => Finmap.empty_union.symm
  | t :: ts, ts' => by
      rw [List.cons_append, visible_cons, visible_append ts ts', visible_cons, Finmap.union_assoc]

/-! ## §2. Writing on top. -/

/-- The tables written over the base, one after another. -/
def overlay (base : Finmap β) (ts : List (Finmap β)) : Finmap β :=
  ts.foldl (fun acc t => t ∪ acc) base

@[simp] theorem overlay_nil (base : Finmap β) : overlay base [] = base := rfl

@[simp] theorem overlay_cons (base t : Finmap β) (ts : List (Finmap β)) :
    overlay base (t :: ts) = overlay (t ∪ base) ts := rfl

/-- **Writing is reading from the other end.** -/
theorem overlay_eq_visible (ts : List (Finmap β)) :
    ∀ base, overlay base ts = visible ts.reverse ∪ base := by
  induction ts with
  | nil => exact fun base => Finmap.empty_union.symm
  | cons t ts ih =>
      intro base
      rw [overlay_cons, ih, List.reverse_cons, visible_append, visible_cons, visible_nil,
        Finmap.union_empty, Finmap.union_assoc]

theorem overlay_append (base : Finmap β) (ts ts' : List (Finmap β)) :
    overlay base (ts ++ ts') = overlay (overlay base ts) ts' :=
  List.foldl_append

/-! ## §3. The order of the tables. -/

/-- Where both tables hold a key they hold the same. -/
def Agree (s t : Finmap β) : Prop := ∀ a b c, s.lookup a = some b → t.lookup a = some c → b = c

theorem agree_refl (s : Finmap β) : Agree s s := by
  intro a b c hb hc
  exact Option.some.inj (hb.symm.trans hc)

instance : Std.Symm (Agree : Finmap β → Finmap β → Prop) :=
  ⟨fun _ _ h a b c hb hc => (h a c b hc hb).symm⟩

/-- Tables that agree may be written in either order. -/
theorem union_left_comm {s t : Finmap β} (h : Agree s t) (base : Finmap β) :
    s ∪ (t ∪ base) = t ∪ (s ∪ base) := by
  refine Finmap.ext_lookup (fun a => ?_)
  rw [lookup_union, lookup_union, lookup_union, lookup_union]
  cases hs : s.lookup a with
  | none => cases t.lookup a <;> rfl
  | some b =>
      cases ht : t.lookup a with
      | none => rfl
      | some c => rw [h a b c hs ht]

/-- **The order leaves no trace exactly if any two tables agree.** -/
theorem overlay_perm_iff (base : Finmap β) (ts : List (Finmap β)) :
    (∀ ts', ts'.Perm ts → overlay base ts' = overlay base ts) ↔ ts.Pairwise Agree := by
  constructor
  · intro h
    refine List.pairwise_iff_forall_sublist.mpr ?_
    intro s t hst a b c hb hc
    -- list the two last, one before the other and the other way round
    obtain ⟨l, hl⟩ := hst.exists_perm_append
    have hperm : ∀ p : List (Finmap β), p.Perm [s, t] → (l ++ p).Perm ts := by
      intro p hp
      exact (List.perm_append_comm.trans (hp.append_right l)).trans hl.symm
    have hst := h _ (hperm [s, t] (List.Perm.refl _))
    have hts := h _ (hperm [t, s] (List.Perm.swap s t []))
    have heq := congrArg (Finmap.lookup a) (hst.trans hts.symm)
    simp only [overlay_append, overlay_cons, overlay_nil, lookup_union, hb, hc,
      Option.some_or, Option.some.injEq] at heq
    exact heq.symm
  · intro h ts' hts'
    -- agreement is symmetric and reflexive, so it holds of any two tables of the list
    have hall := h.forall_of_forall (fun s _ => agree_refl s)
    refine hts'.foldl_eq' (fun s hs t ht acc => ?_) base
    exact union_left_comm (hall (hts'.subset ht) (hts'.subset hs)) acc

end Library.LayeredTable
