import Mathlib.Data.Finset.Lattice.Fold
import Mathlib.Order.BoundedOrder.Lattice
import So101.Lib.Machine

/-!
# Safety interlocks

An interlock keeps a value below the ceilings of the conditions that are latched.
Latching a condition lowers the value at once; a request is granted only below the
cap; only a reset unlatches. The bottom value is never requested, so it is held
exactly as long as a condition that forces it is latched.
-/
namespace Interlock

open GuardedMachine

variable {F M : Type*} [LinearOrder M] [BoundedOrder M] {ceiling : F → M}

/-- The highest value that the latched conditions allow. -/
def cap (ceiling : F → M) (latched : Finset F) : M := latched.inf ceiling

theorem le_cap_iff {latched : Finset F} {v : M} :
    v ≤ cap ceiling latched ↔ ∀ f ∈ latched, v ≤ ceiling f := Finset.le_inf_iff

theorem cap_eq_bot_iff [Nontrivial M] {latched : Finset F} :
    cap ceiling latched = ⊥ ↔ ∃ f ∈ latched, ceiling f = ⊥ := by
  classical
  induction latched using Finset.induction_on with
  | empty => simp [cap]
  | insert f latched _ ih =>
    have hcap : cap ceiling (insert f latched) = ceiling f ⊓ cap ceiling latched :=
      Finset.inf_insert
    simp only [hcap, min_eq_bot, ih, Finset.mem_insert, exists_eq_or_imp]

structure Clamped (ceiling : F → M) (latched : Finset F) (value : M) : Prop where
  below : value ≤ cap ceiling latched
  tight : value = ⊥ → cap ceiling latched = ⊥

theorem Clamped.le_ceiling {latched : Finset F} {value : M} (h : Clamped ceiling latched value)
    {f : F} (hf : f ∈ latched) : value ≤ ceiling f := le_cap_iff.mp h.below f hf

theorem Clamped.eq_bot_iff [Nontrivial M] {latched : Finset F} {value : M}
    (h : Clamped ceiling latched value) :
    value = ⊥ ↔ ∃ f ∈ latched, ceiling f = ⊥ := by
  rw [← cap_eq_bot_iff]
  exact ⟨h.tight, fun hb => le_bot_iff.mp (hb ▸ h.below)⟩

theorem Clamped.latch [DecidableEq F] {latched : Finset F} {value : M}
    (h : Clamped ceiling latched value) (f : F) :
    Clamped ceiling (insert f latched) (value ⊓ ceiling f) := by
  have hcap : cap ceiling (insert f latched) = ceiling f ⊓ cap ceiling latched :=
    Finset.inf_insert
  constructor
  · rw [hcap, inf_comm]
    exact inf_le_inf_left (ceiling f) h.below
  · intro hb
    rw [hcap, min_eq_bot]
    rcases min_eq_bot.mp hb with hv | hc
    · exact Or.inr (h.tight hv)
    · exact Or.inl hc

theorem Clamped.request {latched : Finset F} {value : M}
    (hle : value ≤ cap ceiling latched) (hb : value ≠ ⊥) : Clamped ceiling latched value :=
  ⟨hle, fun h => absurd h hb⟩

theorem Clamped.reset {value : M} (hb : value ≠ ⊥) : Clamped ceiling ∅ value :=
  .request (by simp [cap]) hb

structure State (F M : Type*) where
  latched : Finset F
  value : M

inductive Action (F M : Type*) where
  | latch (f : F)
  | request (m : M)
  | reset
  deriving DecidableEq

/-- `rest` is the value a reset goes to. -/
def machine [DecidableEq F] (ceiling : F → M) (rest : M) : Machine (State F M) (Action F M) where
  enabled s
    | .request m => m ≠ ⊥ ∧ m ≤ cap ceiling s.latched
    | _ => True
  next s
    | .latch f => ⟨insert f s.latched, s.value ⊓ ceiling f⟩
    | .request m => { s with value := m }
    | .reset => ⟨∅, rest⟩

section Runs

variable [DecidableEq F] {rest : M}

theorem clamped_next (hrest : rest ≠ ⊥) {s : State F M} {a : Action F M}
    (h : Clamped ceiling s.latched s.value) (ha : (machine ceiling rest).enabled s a) :
    Clamped ceiling ((machine ceiling rest).next s a).latched
      ((machine ceiling rest).next s a).value := by
  cases a with
  | latch f => exact h.latch f
  | request m => exact .request ha.2 ha.1
  | reset => exact .reset hrest

end Runs

end Interlock
