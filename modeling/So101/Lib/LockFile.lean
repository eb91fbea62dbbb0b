import Mathlib.Logic.Function.Basic
import So101.Lib.Machine

/-!
# A lock file that is unlinked

Processes open a file by its name, which creates it where there is none, and lock what they
have opened. The one with the lock unlinks the name on its way out. The lock belongs to the
file and not to its name: it keeps the others out as long as no unlink comes between an
opening and the lock that follows it.
-/
namespace LockFile

open GuardedMachine

variable {ι : Type*}

/-- What a process has of the file: nothing, the file open, its lock, or its lock with the
name already unlinked. -/
inductive Place where
  | away
  | opened (i : ℕ)
  | holding (i : ℕ)
  | unlinked (i : ℕ)
  deriving DecidableEq, Repr

def Place.Locks : Place → ℕ → Prop
  | .holding j, i => j = i
  | .unlinked j, i => j = i
  | _, _ => False

instance (p : Place) (i : ℕ) : Decidable (p.Locks i) := by
  cases p <;> simp only [Place.Locks] <;> infer_instance

/-- The file that the name leads to; those numbered from `fresh` on do not exist yet. -/
structure State (ι : Type*) where
  name : Option ℕ
  fresh : ℕ
  place : ι → Place

inductive Action (ι : Type*) where
  | openFile (p : ι)
  | lock (p : ι)
  | unlink (p : ι)
  | leave (p : ι)

def Place.lock : Place → Place
  | .opened i => .holding i
  | x => x

def Place.unlink : Place → Place
  | .holding i => .unlinked i
  | x => x

/-- A process may leave at any moment; what it has open is closed and unlocked then. -/
def machine (ι : Type*) [DecidableEq ι] : Machine (State ι) (Action ι) where
  enabled s
    | .openFile p => s.place p = .away
    | .lock p => ∃ i, s.place p = .opened i ∧ ∀ q, ¬ (s.place q).Locks i
    | .unlink p => ∃ i, s.place p = .holding i
    | .leave _ => True
  next s
    | .openFile p =>
      { name := some (s.name.getD s.fresh)
        fresh := if s.name = none then s.fresh + 1 else s.fresh
        place := Function.update s.place p (.opened (s.name.getD s.fresh)) }
    | .lock p => { s with place := Function.update s.place p (s.place p).lock }
    | .unlink p =>
      { s with name := none, place := Function.update s.place p (s.place p).unlink }
    | .leave p => { s with place := Function.update s.place p .away }

def initial (ι : Type*) : State ι := ⟨none, 0, fun _ => .away⟩

/-- The name goes away while a process has the file open that has not locked it. -/
def Overtakes (s : State ι) : Action ι → Prop
  | .unlink _ => ∃ q i, s.place q = .opened i
  | _ => False

/-- Whoever has a file that is not unlinked has the one the name leads to. -/
structure Orderly (s : State ι) : Prop where
  exists_named : ∀ i, s.name = some i → i < s.fresh
  exists_unlinked : ∀ p i, s.place p = .unlinked i → i < s.fresh
  opened : ∀ p i, s.place p = .opened i → s.name = some i
  holding : ∀ p i, s.place p = .holding i → s.name = some i
  unlinked : ∀ p i, s.place p = .unlinked i → s.name ≠ some i
  exclusive : ∀ p q i, (s.place p).Locks i → (s.place q).Locks i → p = q

theorem orderly_initial : Orderly (initial ι) where
  exists_named _ h := nomatch h
  exists_unlinked _ _ h := nomatch h
  opened _ _ h := nomatch h
  holding _ _ h := nomatch h
  unlinked _ _ h := nomatch h
  exclusive _ _ _ h := h.elim

theorem Orderly.one_holder {s : State ι} (h : Orderly s) {p q : ι} {i j : ℕ}
    (hp : s.place p = .holding i) (hq : s.place q = .holding j) : p = q := by
  have hij : i = j := Option.some.inj ((h.holding p i hp).symm.trans (h.holding q j hq))
  have hpl : (s.place p).Locks i := by simp [hp, Place.Locks]
  have hql : (s.place q).Locks i := by simp [hq, Place.Locks, hij]
  exact h.exclusive p q i hpl hql

variable [DecidableEq ι]

theorem open_orderly {s : State ι} (h : Orderly s) (p : ι) :
    Orderly ((machine ι).next s (.openFile p)) := by
  have hfresh : ∀ i, i < s.fresh → i < if s.name = none then s.fresh + 1 else s.fresh := by
    intro i hi
    split <;> omega
  have hname : ∀ i, s.name = some i → some (s.name.getD s.fresh) = some i := by
    intro i hi
    rw [hi, Option.getD_some]
  have hnew : s.name.getD s.fresh < if s.name = none then s.fresh + 1 else s.fresh := by
    cases hs : s.name with
    | none => simp
    | some i => simpa using h.exists_named i hs
  constructor
  · intro i hi
    obtain rfl : s.name.getD s.fresh = i := Option.some.inj hi
    exact hnew
  · intro q i hq
    by_cases hqp : q = p
    · subst hqp
      simp [machine] at hq
    · exact hfresh i (h.exists_unlinked q i (by simpa [machine, hqp] using hq))
  · intro q i hq
    by_cases hqp : q = p
    · subst hqp
      simpa [machine] using hq
    · exact hname i (h.opened q i (by simpa [machine, hqp] using hq))
  · intro q i hq
    by_cases hqp : q = p
    · subst hqp
      simp [machine] at hq
    · exact hname i (h.holding q i (by simpa [machine, hqp] using hq))
  · intro q i hq heq
    by_cases hqp : q = p
    · subst hqp
      simp [machine] at hq
    · have hq' : s.place q = .unlinked i := by simpa [machine, hqp] using hq
      obtain rfl : s.name.getD s.fresh = i := Option.some.inj heq
      have hlt := h.exists_unlinked q _ hq'
      have hne := h.unlinked q _ hq'
      cases hs : s.name with
      | none => simp [hs] at hlt
      | some j => simp [hs] at hne
  · intro q r i hq hr
    by_cases hqp : q = p
    · subst hqp
      simp [machine, Place.Locks] at hq
    · by_cases hrp : r = p
      · subst hrp
        simp [machine, Place.Locks] at hr
      · exact h.exclusive q r i (by simpa [machine, hqp] using hq)
          (by simpa [machine, hrp] using hr)

theorem lock_orderly {s : State ι} (h : Orderly s) {p : ι}
    (he : (machine ι).enabled s (.lock p)) : Orderly ((machine ι).next s (.lock p)) := by
  obtain ⟨i, hp, hfree⟩ := he
  have hnext : (machine ι).next s (.lock p) =
      { s with place := Function.update s.place p (.holding i) } := by
    simp [machine, hp, Place.lock]
  rw [hnext]
  have hlocks : ∀ q j, (Function.update s.place p (.holding i) q).Locks j →
      (q = p ∧ j = i) ∨ (q ≠ p ∧ j ≠ i ∧ (s.place q).Locks j) := by
    intro q j hq
    by_cases hqp : q = p
    · subst hqp
      simp only [Function.update_self, Place.Locks] at hq
      exact Or.inl ⟨rfl, hq.symm⟩
    · rw [Function.update_of_ne hqp] at hq
      exact Or.inr ⟨hqp, fun hji => hfree q (hji ▸ hq), hq⟩
  constructor
  · exact h.exists_named
  · intro q j hq
    by_cases hqp : q = p
    · simp [hqp] at hq
    · exact h.exists_unlinked q j (by simpa [hqp] using hq)
  · intro q j hq
    by_cases hqp : q = p
    · simp [hqp] at hq
    · exact h.opened q j (by simpa [hqp] using hq)
  · intro q j hq
    by_cases hqp : q = p
    · obtain rfl : i = j := by simpa [hqp] using hq
      exact h.opened p i hp
    · exact h.holding q j (by simpa [hqp] using hq)
  · intro q j hq
    by_cases hqp : q = p
    · simp [hqp] at hq
    · exact h.unlinked q j (by simpa [hqp] using hq)
  · intro q r j hq hr
    rcases hlocks q j hq with ⟨rfl, hj⟩ | ⟨_, hj, hq'⟩
    · rcases hlocks r j hr with ⟨rfl, _⟩ | ⟨_, hj', _⟩
      · rfl
      · exact absurd hj hj'
    · rcases hlocks r j hr with ⟨_, hj'⟩ | ⟨_, _, hr'⟩
      · exact absurd hj' hj
      · exact h.exclusive q r j hq' hr'

/-- The file is out of reach for everyone who does not have its lock. -/
def Gone (i : ℕ) (s : State ι) : Prop :=
  i < s.fresh ∧ s.name ≠ some i ∧ ∀ p, s.place p ≠ .opened i ∧ s.place p ≠ .holding i

/-- An unlink that overtakes nobody takes the file out of reach. -/
theorem unlink_gone {s : State ι} (h : Orderly s) {p : ι} {i : ℕ} (hp : s.place p = .holding i)
    (hno : ¬ Overtakes s (.unlink p)) : Gone i ((machine ι).next s (.unlink p)) := by
  refine ⟨h.exists_named i (h.holding p i hp), by simp [machine], fun q => ?_⟩
  by_cases hqp : q = p
  · simp [machine, hqp, hp, Place.unlink]
  · simp only [machine, Function.update_of_ne hqp]
    exact ⟨fun hq => hno ⟨q, i, hq⟩, fun hq => hqp (h.one_holder hq hp)⟩

theorem gone_next {s : State ι} {i : ℕ} (h : Gone i s) {a : Action ι}
    (ha : (machine ι).enabled s a) : Gone i ((machine ι).next s a) := by
  obtain ⟨hlt, hname, hplace⟩ := h
  cases a with
  | openFile p =>
    have hne : s.name.getD s.fresh ≠ i := by
      cases hs : s.name with
      | none => simpa using Nat.ne_of_gt hlt
      | some j =>
        rintro rfl
        exact hname hs
    refine ⟨?_, fun heq => hne (Option.some.inj heq), fun q => ?_⟩
    · change i < ite _ _ _
      split <;> omega
    · by_cases hqp : q = p
      · subst hqp
        simpa [machine] using hne
      · simpa [machine, hqp] using hplace q
  | lock p =>
    obtain ⟨j, hp, _⟩ := ha
    refine ⟨hlt, hname, fun q => ?_⟩
    by_cases hqp : q = p
    · have hji : j ≠ i := by
        rintro rfl
        exact (hplace p).1 hp
      simpa [machine, hqp, hp, Place.lock] using hji
    · simpa [machine, hqp] using hplace q
  | unlink p =>
    obtain ⟨j, hp⟩ := ha
    refine ⟨hlt, by simp [machine], fun q => ?_⟩
    by_cases hqp : q = p
    · simp [machine, hqp, hp, Place.unlink]
    · simpa [machine, hqp] using hplace q
  | leave p =>
    refine ⟨hlt, hname, fun q => ?_⟩
    by_cases hqp : q = p
    · simp [machine, hqp]
    · simpa [machine, hqp] using hplace q

theorem unlink_orderly {s : State ι} (h : Orderly s) {p : ι}
    (he : (machine ι).enabled s (.unlink p)) (hno : ¬ Overtakes s (.unlink p)) :
    Orderly ((machine ι).next s (.unlink p)) := by
  obtain ⟨i, hp⟩ := he
  obtain ⟨hlt, _, _⟩ := unlink_gone h hp hno
  have hother : ∀ q, q ≠ p → ∀ j, s.place q ≠ .opened j ∧ s.place q ≠ .holding j :=
    fun q hqp j => ⟨fun hq => hno ⟨q, j, hq⟩, fun hq => hqp (h.one_holder hq hp)⟩
  have hlocks : ∀ q j, (((machine ι).next s (.unlink p)).place q).Locks j →
      (s.place q).Locks j := by
    intro q j hq
    by_cases hqp : q = p
    · simpa [machine, hqp, hp, Place.unlink, Place.Locks] using hq
    · simpa [machine, hqp] using hq
  constructor
  · intro j hj
    simp [machine] at hj
  · intro q j hq
    by_cases hqp : q = p
    · obtain rfl : i = j := by simpa [machine, hqp, hp, Place.unlink] using hq
      exact hlt
    · exact h.exists_unlinked q j (by simpa [machine, hqp] using hq)
  · intro q j hq
    by_cases hqp : q = p
    · simp [machine, hqp, hp, Place.unlink] at hq
    · exact absurd (by simpa [machine, hqp] using hq) (hother q hqp j).1
  · intro q j hq
    by_cases hqp : q = p
    · simp [machine, hqp, hp, Place.unlink] at hq
    · exact absurd (by simpa [machine, hqp] using hq) (hother q hqp j).2
  · intro q j _
    simp [machine]
  · intro q r j hq hr
    exact h.exclusive q r j (hlocks q j hq) (hlocks r j hr)

theorem leave_orderly {s : State ι} (h : Orderly s) (p : ι) :
    Orderly ((machine ι).next s (.leave p)) := by
  have hplace : ∀ q x, x ≠ .away → ((machine ι).next s (.leave p)).place q = x →
      s.place q = x := by
    intro q x hx hq
    by_cases hqp : q = p
    · subst hqp
      simp only [machine, Function.update_self] at hq
      exact absurd hq.symm hx
    · simpa [machine, hqp] using hq
  have hlocks : ∀ q i, (((machine ι).next s (.leave p)).place q).Locks i →
      (s.place q).Locks i := by
    intro q i hq
    by_cases hqp : q = p
    · simp [machine, hqp, Place.Locks] at hq
    · simpa [machine, hqp] using hq
  constructor
  · exact h.exists_named
  · exact fun q i hq => h.exists_unlinked q i (hplace q _ (by simp) hq)
  · exact fun q i hq => h.opened q i (hplace q _ (by simp) hq)
  · exact fun q i hq => h.holding q i (hplace q _ (by simp) hq)
  · exact fun q i hq => h.unlinked q i (hplace q _ (by simp) hq)
  · exact fun q r i hq hr => h.exclusive q r i (hlocks q i hq) (hlocks r i hr)

def Action.actor : Action ι → ι
  | .openFile p | .lock p | .unlink p | .leave p => p

theorem place_of_ne (s : State ι) {a : Action ι} {q : ι} (h : q ≠ a.actor) :
    ((machine ι).next s a).place q = s.place q := by
  cases a <;> exact Function.update_of_ne h _ _

/-- Each step but an unlink that overtakes an opening keeps the order. -/
theorem orderly_next {s : State ι} (h : Orderly s) {a : Action ι}
    (ha : (machine ι).enabled s a) (hno : ¬ Overtakes s a) :
    Orderly ((machine ι).next s a) := by
  cases a with
  | openFile p => exact open_orderly h p
  | lock p => exact lock_orderly h ha
  | unlink p => exact unlink_orderly h ha hno
  | leave p => exact leave_orderly h p

end LockFile
