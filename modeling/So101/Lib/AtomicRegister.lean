import Mathlib.Data.List.Induction
import Mathlib.Logic.Function.Basic
import Mathlib.Order.Basic
import So101.Lib.Machine

/-!
# An atomic register

One writer and any number of readers. A read takes the value at one instant between its
call and its return. What is written is kept in order, so that a value has a version; the
initial value has version 0.
-/
namespace AtomicRegister

open GuardedMachine

variable {α ρ : Type*}

/-- The version that is current at the call, and the one the read took. -/
inductive Reader (α : Type*) where
  | idle
  | pending (calledAt : ℕ)
  | took (calledAt version : ℕ) (value : α)

def Reader.calledAt? : Reader α → Option ℕ
  | .idle => none
  | .pending c | .took c _ _ => some c

structure Read (ρ α : Type*) where
  reader : ρ
  calledAt : ℕ
  version : ℕ
  returnedAt : ℕ
  value : α

structure State (ρ α : Type*) where
  written : List α
  reader : ρ → Reader α
  reads : List (Read ρ α)

inductive Event (ρ α : Type*) where
  | write (x : α)
  | call (r : ρ)
  | take (r : ρ)
  | giveUp (r : ρ)
  | return (r : ρ)

def State.now (s : State ρ α) : ℕ := s.written.length

def IsVersion (x₀ : α) (written : List α) (v : ℕ) (x : α) : Prop := (x₀ :: written)[v]? = some x

theorem IsVersion.append {x₀ : α} {written : List α} {v : ℕ} {x : α}
    (h : IsVersion x₀ written v x) (y : α) : IsVersion x₀ (written ++ [y]) v x := by
  have hlt : v < (x₀ :: written).length := (List.getElem?_eq_some_iff.mp h).1
  rw [IsVersion, ← List.cons_append, List.getElem?_append_left hlt]
  exact h

theorem is_version_latest (x₀ : α) (written : List α) :
    IsVersion x₀ written written.length (written.getLastD x₀) := by
  cases written using List.reverseRecOn with
  | nil => rfl
  | append_singleton l y => simp [IsVersion]

def initial (ρ α : Type*) : State ρ α := ⟨[], fun _ => .idle, []⟩

/-- The value is the version that was current at some instant between call and return. -/
structure Within (x₀ : α) (written : List α) (d : Read ρ α) : Prop where
  called_le : d.calledAt ≤ d.version
  le_returned : d.version ≤ d.returnedAt
  is_version : IsVersion x₀ written d.version d.value

/-- No read of a reader is older than one it made before. -/
def Ordered (reads : List (Read ρ α)) : Prop :=
  reads.Pairwise (fun d e => d.reader = e.reader → d.version ≤ e.version)

structure Took (x₀ : α) (written : List α) (c v : ℕ) (x : α) : Prop where
  called_le : c ≤ v
  le_now : v ≤ written.length
  is_version : IsVersion x₀ written v x

structure Atomic (x₀ : α) (s : State ρ α) : Prop where
  called : ∀ r c, (s.reader r).calledAt? = some c → c ≤ s.now
  took : ∀ r c v x, s.reader r = .took c v x → Took x₀ s.written c v x
  within : ∀ d ∈ s.reads, Within x₀ s.written d
  returned : ∀ d ∈ s.reads, d.returnedAt ≤ s.now
  since : ∀ d ∈ s.reads, ∀ c, (s.reader d.reader).calledAt? = some c → d.returnedAt ≤ c
  ordered : Ordered s.reads

theorem atomic_initial (x₀ : α) : Atomic x₀ (initial ρ α) := by
  refine ⟨?_, ?_, ?_, ?_, ?_, List.Pairwise.nil⟩
  · intro r c heq
    cases heq
  · intro r c v x heq
    cases heq
  all_goals
    intro d hd
    cases hd

variable [DecidableEq ρ]

def State.setReader (s : State ρ α) (r : ρ) (c : Reader α) : State ρ α :=
  { s with reader := Function.update s.reader r c }

def machine (ρ : Type*) [DecidableEq ρ] (x₀ : α) : Machine (State ρ α) (Event ρ α) where
  enabled s
    | .write _ => True
    | .call r => s.reader r = .idle
    | .take r => ∃ c, s.reader r = .pending c
    | .giveUp r => ∃ c, s.reader r = .pending c
    | .return r => ∃ c v x, s.reader r = .took c v x
  next s
    | .write x => { s with written := s.written ++ [x] }
    | .call r => s.setReader r (.pending s.now)
    | .take r =>
      match s.reader r with
      | .pending c => s.setReader r (.took c s.now (s.written.getLastD x₀))
      | _ => s
    | .giveUp r => s.setReader r .idle
    | .return r =>
      match s.reader r with
      | .took c v x =>
        { s.setReader r .idle with reads := s.reads ++ [⟨r, c, v, s.now, x⟩] }
      | _ => s

section Steps

variable {x₀ : α} {s : State ρ α}

theorem atomic_write (h : Atomic x₀ s) (x : α) :
    Atomic x₀ ((machine ρ x₀).next s (.write x)) := by
  have hnow : ((machine ρ x₀).next s (.write x)).now = s.now + 1 := by
    simp [machine, State.now]
  refine ⟨?_, ?_, ?_, ?_, h.since, h.ordered⟩
  · intro r c hc
    have := h.called r c hc
    omega
  · intro r c v y hr
    obtain ⟨hcalled, hle, hversion⟩ := h.took r c v y hr
    refine ⟨hcalled, ?_, hversion.append x⟩
    have : v ≤ s.now := hle
    exact le_of_le_of_eq (Nat.le_succ_of_le this) hnow.symm
  · intro d hd
    obtain ⟨hcalled, hle, hversion⟩ := h.within d hd
    exact ⟨hcalled, hle, hversion.append x⟩
  · intro d hd
    have := h.returned d hd
    omega

theorem Atomic.move {r : ρ} {b : Reader α} (h : Atomic x₀ s)
    (hcall : ∀ c, b.calledAt? = some c → (s.reader r).calledAt? = some c)
    (htook : ∀ c v x, b = .took c v x → Took x₀ s.written c v x) : Atomic x₀ (s.setReader r b) := by
  have hold : ∀ q c, (Function.update s.reader r b q).calledAt? = some c →
      (s.reader q).calledAt? = some c := by
    intro q c hc
    by_cases hq : q = r
    · subst hq
      rw [Function.update_self] at hc
      exact hcall c hc
    · rwa [Function.update_of_ne hq] at hc
  refine ⟨fun q c hc => h.called q c (hold q c hc), ?_, h.within, h.returned,
    fun d hd c hc => h.since d hd c (hold d.reader c hc), h.ordered⟩
  intro q c v x hr
  by_cases hq : q = r
  · subst hq
    simp only [State.setReader, Function.update_self] at hr
    exact htook c v x hr
  · simp only [State.setReader, Function.update_of_ne hq] at hr
    exact h.took q c v x hr

theorem Atomic.leave (h : Atomic x₀ s) (r : ρ) : Atomic x₀ (s.setReader r .idle) := by
  apply h.move
  · intro c heq
    cases heq
  · intro c v x heq
    cases heq

theorem atomic_call (h : Atomic x₀ s) (r : ρ) : Atomic x₀ (s.setReader r (.pending s.now)) := by
  have hnew : ∀ q c, (Function.update s.reader r (.pending s.now) q).calledAt? = some c →
      c = s.now ∨ (s.reader q).calledAt? = some c := by
    intro q c hc
    by_cases hq : q = r
    · subst hq
      rw [Function.update_self] at hc
      exact Or.inl (Option.some.inj hc).symm
    · rw [Function.update_of_ne hq] at hc
      exact Or.inr hc
  refine ⟨?_, ?_, h.within, h.returned, ?_, h.ordered⟩
  · intro q c hc
    rcases hnew q c hc with rfl | hold
    · exact Nat.le_refl s.now
    · exact h.called q c hold
  · intro q c v x hr
    by_cases hq : q = r
    · subst hq
      simp only [State.setReader, Function.update_self] at hr
      cases hr
    · simp only [State.setReader, Function.update_of_ne hq] at hr
      exact h.took q c v x hr
  · intro d hd c hc
    rcases hnew d.reader c hc with rfl | hold
    · exact h.returned d hd
    · exact h.since d hd c hold

theorem atomic_return {r : ρ} {c v : ℕ} {x : α} (h : Atomic x₀ s) (hr : s.reader r = .took c v x) :
    Atomic x₀ { s.setReader r .idle with reads := s.reads ++ [⟨r, c, v, s.now, x⟩] } := by
  obtain ⟨hcalled, hle, hversion⟩ := h.took r c v x hr
  have hidle := h.leave r
  refine ⟨hidle.called, hidle.took, ?_, ?_, ?_, ?_⟩
  · intro d hd
    rcases List.mem_append.mp hd with hold | hnew
    · exact h.within d hold
    · obtain rfl := List.mem_singleton.mp hnew
      exact ⟨hcalled, hle, hversion⟩
  · intro d hd
    rcases List.mem_append.mp hd with hold | hnew
    · exact h.returned d hold
    · obtain rfl := List.mem_singleton.mp hnew
      exact Nat.le_refl s.now
  · intro d hd e hc
    rcases List.mem_append.mp hd with hold | hnew
    · exact hidle.since d hold e hc
    · obtain rfl := List.mem_singleton.mp hnew
      simp [State.setReader, Reader.calledAt?] at hc
  · refine List.pairwise_append.mpr ⟨h.ordered, List.pairwise_singleton _ _, ?_⟩
    intro d hd e he hsame
    obtain rfl := List.mem_singleton.mp he
    obtain rfl : d.reader = r := hsame
    have hpast := h.since d hd c (by rw [hr]; rfl)
    have hd' := (h.within d hd).le_returned
    simp only
    omega

theorem atomic_next {e : Event ρ α} (h : Atomic x₀ s) (he : (machine ρ x₀).enabled s e) :
    Atomic x₀ ((machine ρ x₀).next s e) := by
  cases e with
  | write x => exact atomic_write h x
  | call r => exact atomic_call h r
  | take r =>
    obtain ⟨c, hr⟩ := he
    simp only [machine, hr]
    refine h.move ?_ ?_
    · intro _ heq
      cases heq
      rw [hr]
      rfl
    · intro _ _ _ heq
      cases heq
      exact ⟨h.called r c (by rw [hr]; rfl), Nat.le_refl s.now, is_version_latest x₀ s.written⟩
  | giveUp r => exact h.leave r
  | «return» r =>
    obtain ⟨c, v, x, hr⟩ := he
    simp only [machine, hr]
    exact atomic_return h hr

end Steps

/-- In every run each read returns what was current at some instant between its call and
its return, and the reads of one reader never go back. -/
theorem reads_atomic (x₀ : α) {es : List (Event ρ α)}
    (hv : (machine ρ x₀).Valid (initial ρ α) es) :
    (∀ d ∈ ((machine ρ x₀).run (initial ρ α) es).reads,
      Within x₀ ((machine ρ x₀).run (initial ρ α) es).written d) ∧
      Ordered ((machine ρ x₀).run (initial ρ α) es).reads := by
  have h := invariant (I := Atomic x₀) (fun _ _ h he => atomic_next h he) (atomic_initial x₀) hv
  exact ⟨h.within, h.ordered⟩

end AtomicRegister
