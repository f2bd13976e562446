import Mathlib.Data.List.Nodup
import Mathlib.Data.List.Perm.Basic

/-!
Footprints of a client in a heap of addressed values. `Evolves` says how a
client that held some addresses may have changed the heap: it now holds others,
it left alone what it never held, and values it must not change are still there.
-/

namespace IpRange

open Function List

section Footprint

variable {ι α : Type}

structure Evolves (Fixed : α → Prop) (before after : ι → Option α) (held kept : List ι) : Prop where
  nodup : kept.Nodup
  fresh : ∀ address ∈ kept, address ∈ held ∨ before address = none
  fixed : ∀ address value, address ∈ held → before address = some value → Fixed value →
    address ∈ kept ∧ after address = some value
  origin : ∀ address value, address ∈ kept → after address = some value → Fixed value →
    address ∈ held ∧ before address = some value
  frame : ∀ address, address ∉ held → before address ≠ none → after address = before address
  gone : ∀ address, address ∉ kept → address ∈ held ∨ before address = none → after address = none

namespace Evolves

variable {Fixed : α → Prop} {before middle after : ι → Option α} {held kept last extra : List ι}

theorem refl (nodup : held.Nodup) : Evolves Fixed before before held held where
  nodup := nodup
  fresh _ member := Or.inl member
  fixed _ _ member found _ := ⟨member, found⟩
  origin _ _ member found _ := ⟨member, found⟩
  frame _ _ _ := rfl
  gone _ absent cause := cause.resolve_left absent

theorem trans (first : Evolves Fixed before middle held kept)
    (second : Evolves Fixed middle after kept last) : Evolves Fixed before after held last where
  nodup := second.nodup
  fresh address member := by
    rcases second.fresh address member with inKept | free
    · exact first.fresh address inKept
    · by_cases inHeld : address ∈ held
      · exact Or.inl inHeld
      · by_contra outside
        simp only [not_or] at outside
        rw [first.frame address inHeld outside.2] at free
        exact outside.2 free
  fixed address value member found isFixed := by
    obtain ⟨inKept, still⟩ := first.fixed address value member found isFixed
    exact second.fixed address value inKept still isFixed
  origin address value member found isFixed := by
    obtain ⟨inKept, was⟩ := second.origin address value member found isFixed
    exact first.origin address value inKept was isFixed
  frame address outside found := by
    have still := first.frame address outside found
    have notKept : address ∉ kept := fun inKept =>
      (first.fresh address inKept).elim outside found
    rw [second.frame address notKept (by rw [still]; exact found), still]
  gone address absent cause := by
    by_cases inKept : address ∈ kept
    · exact second.gone address absent (Or.inl inKept)
    · exact second.gone address absent (Or.inr (first.gone address inKept cause))

theorem congr {held' kept' : List ι} (evolves : Evolves Fixed before after held kept)
    (sameHeld : ∀ address, address ∈ held' ↔ address ∈ held) (sameKept : kept'.Perm kept) :
    Evolves Fixed before after held' kept' where
  nodup := sameKept.nodup_iff.mpr evolves.nodup
  fresh address member := by
    rw [sameHeld]
    exact evolves.fresh address (sameKept.mem_iff.mp member)
  fixed address value member found isFixed := by
    rw [sameKept.mem_iff]
    exact evolves.fixed address value ((sameHeld address).mp member) found isFixed
  origin address value member found isFixed := by
    rw [sameHeld]
    exact evolves.origin address value (sameKept.mem_iff.mp member) found isFixed
  frame address outside found :=
    evolves.frame address (fun member => outside ((sameHeld address).mpr member)) found
  gone address absent cause := by
    rw [sameHeld] at cause
    exact evolves.gone address (fun member => absent (sameKept.mem_iff.mpr member)) cause

theorem append (evolves : Evolves Fixed before after held kept) (nodup : extra.Nodup)
    (aside : ∀ address ∈ extra, address ∉ held ∧ before address ≠ none) :
    Evolves Fixed before after (held ++ extra) (kept ++ extra) where
  nodup := by
    rw [nodup_append]
    refine ⟨evolves.nodup, nodup, ?_⟩
    intro address inKept other inExtra same
    subst other
    obtain ⟨notHeld, found⟩ := aside address inExtra
    exact (evolves.fresh address inKept).elim notHeld found
  fresh address member := by
    rcases mem_append.mp member with inKept | inExtra
    · exact (evolves.fresh address inKept).imp_left fun inHeld => mem_append_left _ inHeld
    · exact Or.inl (mem_append_right _ inExtra)
  fixed address value member found isFixed := by
    rcases mem_append.mp member with inHeld | inExtra
    · obtain ⟨inKept, still⟩ := evolves.fixed address value inHeld found isFixed
      exact ⟨mem_append_left _ inKept, still⟩
    · refine ⟨mem_append_right _ inExtra, ?_⟩
      rw [evolves.frame address (aside address inExtra).1 (by simp [found]), found]
  origin address value member found isFixed := by
    rcases mem_append.mp member with inKept | inExtra
    · obtain ⟨inHeld, was⟩ := evolves.origin address value inKept found isFixed
      exact ⟨mem_append_left _ inHeld, was⟩
    · obtain ⟨notHeld, stored⟩ := aside address inExtra
      exact ⟨mem_append_right _ inExtra, (evolves.frame address notHeld stored).symm.trans found⟩
  frame address outside found :=
    evolves.frame address (fun inHeld => outside (mem_append_left _ inHeld)) found
  gone address absent cause := by
    simp only [mem_append, not_or] at absent cause
    refine evolves.gone address absent.1 ?_
    rcases cause with (inHeld | inExtra) | free
    · exact Or.inl inHeld
    · exact absurd inExtra absent.2
    · exact Or.inr free

variable [DecidableEq ι]

variable {address : ι}

theorem write {old new : α} (nodup : held.Nodup) (member : address ∈ held)
    (found : before address = some old) (free : ¬ Fixed old) (stays : ¬ Fixed new) :
    Evolves Fixed before (Function.update before address (some new)) held held where
  nodup := nodup
  fresh _ inHeld := Or.inl inHeld
  fixed other value inHeld stored isFixed := by
    refine ⟨inHeld, ?_⟩
    have different : other ≠ address := by
      rintro rfl
      rw [found] at stored
      cases stored
      exact free isFixed
    rw [update_of_ne different, stored]
  origin other value inHeld stored isFixed := by
    refine ⟨inHeld, ?_⟩
    have different : other ≠ address := by
      rintro rfl
      rw [update_self] at stored
      cases stored
      exact stays isFixed
    rwa [update_of_ne different] at stored
  frame other outside _ := by
    have different : other ≠ address := fun same => outside (same ▸ member)
    exact update_of_ne different _ _
  gone other absent cause := by
    have different : other ≠ address := fun same => absent (same ▸ member)
    rw [update_of_ne different]
    exact cause.resolve_left absent

theorem allocate {new : α} (nodup : held.Nodup) (holds : ∀ other ∈ held, before other ≠ none)
    (unused : before address = none) (stays : ¬ Fixed new) :
    Evolves Fixed before (Function.update before address (some new)) held (address :: held) where
  nodup := nodup_cons.mpr ⟨fun inHeld => holds address inHeld unused, nodup⟩
  fresh other member := by
    rcases mem_cons.mp member with same | inHeld
    · exact Or.inr (same ▸ unused)
    · exact Or.inl inHeld
  fixed other value inHeld stored _ := by
    refine ⟨mem_cons_of_mem _ inHeld, ?_⟩
    have different : other ≠ address := by
      rintro rfl
      rw [unused] at stored
      cases stored
    rw [update_of_ne different, stored]
  origin other value member stored isFixed := by
    have different : other ≠ address := by
      rintro rfl
      rw [update_self] at stored
      cases stored
      exact stays isFixed
    rw [update_of_ne different] at stored
    exact ⟨(mem_cons.mp member).resolve_left different, stored⟩
  frame other _ stored := by
    refine update_of_ne ?_ _ _
    rintro rfl
    exact stored unused
  gone other absent cause := by
    simp only [mem_cons, not_or] at absent
    rw [update_of_ne absent.1]
    exact cause.resolve_left absent.2

theorem free {old : α} (nodup : (address :: kept).Nodup) (found : before address = some old)
    (free : ¬ Fixed old) :
    Evolves Fixed before (Function.update before address none) (address :: kept) kept where
  nodup := (nodup_cons.mp nodup).2
  fresh _ inKept := Or.inl (mem_cons_of_mem _ inKept)
  fixed other value inHeld stored isFixed := by
    have different : other ≠ address := by
      rintro rfl
      rw [found] at stored
      cases stored
      exact free isFixed
    refine ⟨(mem_cons.mp inHeld).resolve_left different, ?_⟩
    rw [update_of_ne different, stored]
  origin other value member stored _ := by
    have different : other ≠ address := fun same => (nodup_cons.mp nodup).1 (same ▸ member)
    rw [update_of_ne different] at stored
    exact ⟨mem_cons_of_mem _ member, stored⟩
  frame other outside _ := by
    simp only [mem_cons, not_or] at outside
    exact update_of_ne outside.1 _ _
  gone other absent cause := by
    by_cases same : other = address
    · subst other
      exact update_self _ _ _
    · rw [update_of_ne same]
      rcases cause with inHeld | unused
      · exact absurd ((mem_cons.mp inHeld).resolve_left same) absent
      · exact unused

end Evolves

theorem length_le_of_nodup {held : List Nat} {bound : Nat} (nodup : held.Nodup)
    (below : ∀ address ∈ held, address < bound) : held.length ≤ bound := by
  have inside : held ⊆ List.range bound :=
    fun address member => mem_range.mpr (below address member)
  have counted := (subperm_of_subset nodup inside).length_le
  rwa [length_range] at counted

end Footprint

end IpRange
