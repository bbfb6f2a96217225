-- What several parties share: a thing that one of them has at a time, and
-- places of which each is one party's alone or on a common list. Nothing here
-- names the program.
import Mathlib.Data.List.Nodup
import Mathlib.Logic.Function.Basic

namespace shared

variable {π κ : Type}

/-! ## One party at a time -/

/-- The property is the holder's, and nobody's where there is no holder. -/
def Sole (holder : Option π) (has : π → Bool) : Prop := ∀ x, holder = some x ↔ has x = true

namespace Sole

variable {holder : Option π} {has : π → Bool} {x y : π}

theorem eq (h : Sole (some x) has) (hy : has y = true) : y = x :=
  (Option.some.inj ((h y).mpr hy)).symm

theorem has_self (h : Sole (some x) has) : has x = true := (h x).mp rfl

theorem nobody (h : Sole none has) (y : π) : has y = false := by
  cases hy : has y with
  | false => rfl
  | true => cases (h y).mpr hy

theorem holder_eq (h : Sole holder has) (hx : has x = true) : holder = some x := (h x).mpr hx

theorem existsUnique_iff (h : Sole holder has) : (∃! x, has x = true) ↔ holder.isSome = true := by
  constructor
  · rintro ⟨x, hx, -⟩
    rw [h.holder_eq hx]
    rfl
  · intro hs
    obtain ⟨x, rfl⟩ := Option.isSome_iff_exists.mp hs
    exact ⟨x, h.has_self, fun y hy => h.eq hy⟩

variable [DecidableEq π]

theorem keep (h : Sole holder has) {b : Bool} (hb : b = has x) :
    Sole holder (Function.update has x b) := by
  subst hb
  rwa [Function.update_eq_self]

theorem take (h : Sole none has) : Sole (some x) (Function.update has x true) := by
  intro y
  by_cases hy : y = x
  · subst hy
    simp
  · rw [Function.update_of_ne hy, h.nobody y]
    simp [Ne.symm hy]

theorem give (h : Sole holder has) (hx : has x = true) :
    Sole none (Function.update has x false) := by
  intro y
  by_cases hy : y = x
  · subst hy
    simp
  · rw [Function.update_of_ne hy, ← h y, h.holder_eq hx]
    simp [Ne.symm hy]

theorem pass (h : Sole (some x) has) (hxy : y ≠ x) :
    Sole (some y) (Function.update (Function.update has y true) x false) := by
  rw [Function.update_comm hxy]
  exact (h.give h.has_self).take

end Sole

/-! ## Places of one's own -/

/-- No place is two parties' own, or one's own and on the list, or on the list twice. -/
structure Apart (owns : π → Option κ) (listed : List κ) : Prop where
  owner : ∀ x y a, owns x = some a → owns y = some a → x = y
  outside : ∀ x a, owns x = some a → a ∉ listed
  nodup : listed.Nodup

namespace Apart

variable {owns : π → Option κ} {listed : List κ} {x : π} {a : κ} [DecidableEq π]

theorem keep (h : Apart owns listed) {o : Option κ} (ho : o = owns x) :
    Apart (Function.update owns x o) listed := by
  subst ho
  rwa [Function.update_eq_self]

/-- A place that was nobody's becomes a party's own. -/
theorem take (h : Apart owns listed) (hfree : ∀ y, owns y ≠ some a) (hlisted : a ∉ listed) :
    Apart (Function.update owns x (some a)) listed where
  owner y z b hy hz := by
    by_cases hyx : y = x <;> by_cases hzx : z = x
    · rw [hyx, hzx]
    · subst hyx
      rw [Function.update_self] at hy
      rw [Function.update_of_ne hzx, ← hy] at hz
      exact absurd hz (hfree z)
    · subst hzx
      rw [Function.update_self] at hz
      rw [Function.update_of_ne hyx, ← hz] at hy
      exact absurd hy (hfree y)
    · rw [Function.update_of_ne hyx] at hy
      rw [Function.update_of_ne hzx] at hz
      exact h.owner y z b hy hz
  outside y b hy := by
    by_cases hyx : y = x
    · subst hyx
      rw [Function.update_self] at hy
      cases hy
      exact hlisted
    · rw [Function.update_of_ne hyx] at hy
      exact h.outside y b hy
  nodup := h.nodup

theorem drop (h : Apart owns listed) : Apart (Function.update owns x none) listed where
  owner y z b hy hz := by
    by_cases hyx : y = x
    · subst hyx
      rw [Function.update_self] at hy
      cases hy
    · by_cases hzx : z = x
      · subst hzx
        rw [Function.update_self] at hz
        cases hz
      · rw [Function.update_of_ne hyx] at hy
        rw [Function.update_of_ne hzx] at hz
        exact h.owner y z b hy hz
  outside y b hy := by
    by_cases hyx : y = x
    · subst hyx
      rw [Function.update_self] at hy
      cases hy
    · rw [Function.update_of_ne hyx] at hy
      exact h.outside y b hy
  nodup := h.nodup

/-- A party puts its own place on the list. -/
theorem link (h : Apart owns listed) (hx : owns x = some a) :
    Apart (Function.update owns x none) (listed ++ [a]) where
  owner := h.drop.owner
  outside y b hy := by
    have hb := h.drop.outside y b hy
    by_cases hyx : y = x
    · subst hyx
      rw [Function.update_self] at hy
      cases hy
    · rw [Function.update_of_ne hyx] at hy
      rw [List.mem_append, List.mem_singleton]
      rintro (hmem | rfl)
      · exact hb hmem
      · exact hyx (h.owner y x b hy hx)
  nodup := by
    rw [List.nodup_append]
    refine ⟨h.nodup, List.nodup_singleton a, ?_⟩
    intro b hb c hc
    rw [List.mem_singleton] at hc
    subst hc
    rintro rfl
    exact h.outside x b hx hb

/-- A party takes the first place off the list. -/
theorem unlink (h : Apart owns (a :: listed)) : Apart (Function.update owns x (some a)) listed := by
  have hrest : Apart owns listed :=
    ⟨h.owner, fun y b hy hb => h.outside y b hy (List.mem_cons_of_mem _ hb),
      (List.nodup_cons.mp h.nodup).2⟩
  exact hrest.take (fun y hy => h.outside y a hy List.mem_cons_self) (List.nodup_cons.mp h.nodup).1

end Apart

end shared
