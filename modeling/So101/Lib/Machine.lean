import Mathlib.Data.List.Basic

/-!
# Guarded machines and their finite runs

A machine takes one event after another; a guard says when an event may happen.
Properties of runs are properties of every step, read in the state the step is
taken from. Conditions on the steps of a run are kept apart from the guard, so
that a conditional result names its condition.
-/
namespace GuardedMachine

structure Machine (σ ε : Type*) where
  enabled : σ → ε → Prop
  next : σ → ε → σ

variable {σ ε : Type*} {M : Machine σ ε}

def Machine.run (M : Machine σ ε) : σ → List ε → σ
  | s, [] => s
  | s, e :: es => M.run (M.next s e) es

/-- `P` holds of every step of the run, in the state before that step. -/
def Machine.Along (M : Machine σ ε) (P : σ → ε → Prop) : σ → List ε → Prop
  | _, [] => True
  | s, e :: es => P s e ∧ M.Along P (M.next s e) es

def Machine.Valid (M : Machine σ ε) : σ → List ε → Prop := M.Along M.enabled

def Machine.free (next : σ → ε → σ) : Machine σ ε := ⟨fun _ _ => True, next⟩

instance (M : Machine σ ε) (P : σ → ε → Prop) [∀ s e, Decidable (P s e)] (s : σ)
    (es : List ε) : Decidable (M.Along P s es) := by
  induction es generalizing s with
  | nil => exact isTrue trivial
  | cons e es ih => exact instDecidableAnd

/-- The runs of `M` whose steps meet `C`. -/
def Machine.restrict (M : Machine σ ε) (C : σ → ε → Prop) : Machine σ ε :=
  ⟨fun s e => M.enabled s e ∧ C s e, M.next⟩

@[simp] theorem run_nil (s : σ) : M.run s [] = s := rfl

@[simp] theorem run_cons (s : σ) (e : ε) (es : List ε) :
    M.run s (e :: es) = M.run (M.next s e) es := rfl

theorem run_append (s : σ) (es fs : List ε) :
    M.run s (es ++ fs) = M.run (M.run s es) fs := by
  induction es generalizing s with
  | nil => rfl
  | cons e es ih => exact ih (M.next s e)

@[simp] theorem along_nil (P : σ → ε → Prop) (s : σ) : M.Along P s [] := trivial

@[simp] theorem along_cons {P : σ → ε → Prop} {s : σ} {e : ε} {es : List ε} :
    M.Along P s (e :: es) ↔ P s e ∧ M.Along P (M.next s e) es := Iff.rfl

theorem along_append {P : σ → ε → Prop} {s : σ} {es fs : List ε} :
    M.Along P s (es ++ fs) ↔ M.Along P s es ∧ M.Along P (M.run s es) fs := by
  induction es generalizing s with
  | nil => simp
  | cons e es ih => simp [ih, and_assoc]

theorem run_take_succ (s : σ) {es : List ε} {n : ℕ} (h : n < es.length) :
    M.run s (es.take (n + 1)) = M.next (M.run s (es.take n)) es[n] := by
  rw [List.take_succ_eq_append_getElem h, run_append, run_cons, run_nil]

theorem Machine.Along.at {P : σ → ε → Prop} {s : σ} {es : List ε} (hP : M.Along P s es) {n : ℕ}
    (h : n < es.length) : P (M.run s (es.take n)) es[n] := by
  rw [← List.take_append_drop n es, along_append, List.drop_eq_getElem_cons h] at hP
  exact hP.2.1

theorem Machine.Along.imp {P Q : σ → ε → Prop} (hpq : ∀ s e, P s e → Q s e) {s : σ}
    {es : List ε} (h : M.Along P s es) : M.Along Q s es := by
  induction es generalizing s with
  | nil => trivial
  | cons e es ih => exact ⟨hpq s e h.1, ih h.2⟩

theorem Machine.Along.and {P Q : σ → ε → Prop} {s : σ} {es : List ε}
    (hp : M.Along P s es) (hq : M.Along Q s es) :
    M.Along (fun s e => P s e ∧ Q s e) s es := by
  induction es generalizing s with
  | nil => trivial
  | cons e es ih => exact ⟨⟨hp.1, hq.1⟩, ih hp.2 hq.2⟩

theorem restrict_valid {C : σ → ε → Prop} {s : σ} {es : List ε} (hv : M.Valid s es)
    (hc : M.Along C s es) : (M.restrict C).Valid s es := by
  induction es generalizing s with
  | nil => trivial
  | cons e es ih => exact ⟨⟨hv.1, hc.1⟩, ih hv.2 hc.2⟩

theorem restrict_run (C : σ → ε → Prop) (s : σ) (es : List ε) :
    (M.restrict C).run s es = M.run s es := by
  induction es generalizing s with
  | nil => rfl
  | cons e es ih => exact ih (M.next s e)

theorem along_of_forall {P : σ → ε → Prop} {s : σ} {es : List ε}
    (h : ∀ e ∈ es, ∀ s, P s e) : M.Along P s es := by
  induction es generalizing s with
  | nil => trivial
  | cons e es ih =>
    exact ⟨h e (by simp) s, ih (fun f hf => h f (List.mem_cons_of_mem e hf))⟩

@[simp] theorem free_valid (next : σ → ε → σ) (s : σ) (es : List ε) :
    (Machine.free next).Valid s es :=
  along_of_forall (fun _ _ _ => trivial)

section Invariants

variable {I : σ → Prop} {C : σ → ε → Prop}

/-- What the steps that meet `C` preserve holds before every step of a run of such steps. -/
theorem along_of_invariant (hstep : ∀ s e, I s → M.enabled s e → C s e → I (M.next s e))
    {s : σ} {es : List ε} (hI : I s) (hv : M.Valid s es) (hc : M.Along C s es) :
    M.Along (fun s e => I s ∧ M.enabled s e ∧ C s e) s es := by
  induction es generalizing s with
  | nil => trivial
  | cons e es ih =>
    exact ⟨⟨hI, hv.1, hc.1⟩, ih (hstep s e hI hv.1 hc.1) hv.2 hc.2⟩

theorem invariant_along (hstep : ∀ s e, I s → M.enabled s e → C s e → I (M.next s e))
    {s : σ} {es : List ε} (hI : I s) (hv : M.Valid s es) (hc : M.Along C s es) :
    I (M.run s es) := by
  induction es generalizing s with
  | nil => exact hI
  | cons e es ih => exact ih (hstep s e hI hv.1 hc.1) hv.2 hc.2

theorem invariant (hstep : ∀ s e, I s → M.enabled s e → I (M.next s e))
    {s : σ} {es : List ε} (hI : I s) (hv : M.Valid s es) : I (M.run s es) :=
  invariant_along (C := fun _ _ => True) (fun s e h he _ => hstep s e h he) hI hv
    (along_of_forall (fun _ _ _ => trivial))

/-- Once `x` has happened, `J` holds as long as only events in `P` follow. -/
theorem since {J : σ → Prop} {P : ε → Prop} {x : ε}
    (hI : ∀ s e, I s → M.enabled s e → I (M.next s e))
    (hx : ∀ s, I s → M.enabled s x → J (M.next s x))
    (hJ : ∀ s e, I s → M.enabled s e → P e → J s → J (M.next s e))
    {s : σ} {pre mid : List ε} (h : I s) (hv : M.Valid s (pre ++ x :: mid))
    (hmid : ∀ e ∈ mid, P e) : I (M.run s (pre ++ x :: mid)) ∧ J (M.run s (pre ++ x :: mid)) := by
  obtain ⟨hpre, hx', hrest⟩ := along_append.mp hv
  have hIpre := invariant hI h hpre
  rw [run_append, run_cons]
  refine invariant_along (I := fun s => I s ∧ J s) (C := fun _ e => P e) ?_
    ⟨hI _ _ hIpre hx', hx _ hIpre hx'⟩ hrest (along_of_forall (fun e he _ => hmid e he))
  exact fun s e hIJ he hP => ⟨hI s e hIJ.1 he, hJ s e hIJ.1 he hP hIJ.2⟩

theorem free_along {next : σ → ε → σ} (hstep : ∀ s e, I s → I (next s e)) {s : σ}
    (hI : I s) (es : List ε) : (Machine.free next).Along (fun s _ => I s) s es := by
  induction es generalizing s with
  | nil => trivial
  | cons e es ih => exact ⟨hI, ih (hstep s e hI)⟩

/-- Two step properties that agree as long as the invariant holds, and of which the
second keeps the invariant, hold of the same runs. -/
theorem along_iff {P : σ → ε → Prop}
    (hpc : ∀ s e, I s → M.enabled s e → (P s e ↔ C s e))
    (hstep : ∀ s e, I s → M.enabled s e → C s e → I (M.next s e))
    {s : σ} {es : List ε} (hI : I s) (hv : M.Valid s es) :
    M.Along P s es ↔ M.Along C s es := by
  induction es generalizing s with
  | nil => simp
  | cons e es ih =>
    constructor
    · intro h
      have hc := (hpc s e hI hv.1).mp h.1
      exact ⟨hc, (ih (hstep s e hI hv.1 hc) hv.2).mp h.2⟩
    · intro h
      exact ⟨(hpc s e hI hv.1).mpr h.1, (ih (hstep s e hI hv.1 h.1) hv.2).mpr h.2⟩

end Invariants

section Observers

variable {γ : Type*}

/-- The machine with a history variable, which watches the events and guards nothing. -/
def Machine.observe (M : Machine σ ε) (track : γ → ε → γ) : Machine (σ × γ) ε where
  enabled s e := M.enabled s.1 e
  next s e := (M.next s.1 e, track s.2 e)

theorem observe_run (track : γ → ε → γ) (s : σ) (g : γ) (es : List ε) :
    (M.observe track).run (s, g) es = (M.run s es, es.foldl track g) := by
  induction es generalizing s g with
  | nil => rfl
  | cons e es ih => exact ih (M.next s e) (track g e)

theorem observe_valid {track : γ → ε → γ} {s : σ} {g : γ} {es : List ε}
    (hv : M.Valid s es) : (M.observe track).Valid (s, g) es := by
  induction es generalizing s g with
  | nil => trivial
  | cons e es ih => exact ⟨hv.1, ih hv.2⟩

theorem observe_along {track : γ → ε → γ} {P : σ × γ → ε → Prop} {Q : σ → ε → Prop}
    (hpq : ∀ s e, P s e → Q s.1 e) {s : σ} {g : γ} {es : List ε}
    (h : (M.observe track).Along P (s, g) es) : M.Along Q s es := by
  induction es generalizing s g with
  | nil => trivial
  | cons e es ih => exact ⟨hpq (s, g) e h.1, ih h.2⟩

end Observers

theorem along_iff_prefix {P : σ → ε → Prop} {s : σ} {es : List ε} :
    M.Along P s es ↔ ∀ pre e, pre ++ [e] <+: es → P (M.run s pre) e := by
  constructor
  · rintro h pre e ⟨post, rfl⟩
    rw [List.append_assoc, along_append] at h
    exact h.2.1
  · intro h
    induction es generalizing s with
    | nil => trivial
    | cons e es ih =>
      refine ⟨h [] e ⟨es, rfl⟩, ih ?_⟩
      rintro pre e' ⟨post, rfl⟩
      exact h (e :: pre) e' ⟨post, rfl⟩

section Totals

variable {γ : Type*}

def Machine.outputs (M : Machine σ ε) (f : σ → ε → γ) : σ → List ε → List γ
  | _, [] => []
  | s, e :: es => f s e :: M.outputs f (M.next s e) es

theorem outputs_snoc (f : σ → ε → γ) (s : σ) (es : List ε) (e : ε) :
    M.outputs f s (es ++ [e]) = M.outputs f s es ++ [f (M.run s es) e] := by
  induction es generalizing s with
  | nil => rfl
  | cons e' es ih =>
    rw [List.cons_append, Machine.outputs, Machine.outputs, ih]
    rfl

def Machine.total (M : Machine σ ε) (f : σ → ε → ℕ) : σ → List ε → ℕ
  | _, [] => 0
  | s, e :: es => f s e + M.total f (M.next s e) es

variable {f g : σ → ε → ℕ}

theorem total_snoc (s : σ) (es : List ε) (e : ε) :
    M.total f s (es ++ [e]) = M.total f s es + f (M.run s es) e := by
  induction es generalizing s with
  | nil => simp [Machine.total]
  | cons e' es ih =>
    rw [List.cons_append, Machine.total, Machine.total, ih, run_cons, Nat.add_assoc]

theorem total_le_total (h : ∀ s e, f s e ≤ g s e) (s : σ) (es : List ε) :
    M.total f s es ≤ M.total g s es := by
  induction es generalizing s with
  | nil => exact Nat.le_refl _
  | cons e es ih => exact Nat.add_le_add (h s e) (ih (M.next s e))

end Totals

section SideBySide

variable {τ δ : Type*} {N : Machine τ δ}

/-- Two machines, one step of each at a time. A relation between two runs is an invariant
of this machine. -/
def Machine.beside (M : Machine σ ε) (N : Machine τ δ) : Machine (σ × τ) (ε × δ) where
  enabled s e := M.enabled s.1 e.1 ∧ N.enabled s.2 e.2
  next s e := (M.next s.1 e.1, N.next s.2 e.2)

theorem beside_run (s : σ × τ) (es : List (ε × δ)) :
    (M.beside N).run s es = (M.run s.1 (es.map Prod.fst), N.run s.2 (es.map Prod.snd)) := by
  induction es generalizing s with
  | nil => rfl
  | cons e es ih => exact ih (M.next s.1 e.1, N.next s.2 e.2)

theorem beside_valid {s : σ × τ} {es : List (ε × δ)} (hM : M.Valid s.1 (es.map Prod.fst))
    (hN : N.Valid s.2 (es.map Prod.snd)) : (M.beside N).Valid s es := by
  induction es generalizing s with
  | nil => trivial
  | cons e es ih => exact ⟨⟨hM.1, hN.1⟩, ih hM.2 hN.2⟩

end SideBySide

/-- A functional simulation with stuttering: each step of `M` is one step of `A`, named
by `label`, or leaves the abstract state as it is. -/
structure Simulation {τ δ : Type*} (M : Machine σ ε) (A : Machine τ δ) (I : σ → Prop) where
  abs : σ → τ
  label : σ → ε → Option δ
  step : ∀ s e d, I s → M.enabled s e → label s e = some d →
    A.enabled (abs s) d ∧ abs (M.next s e) = A.next (abs s) d
  stutter : ∀ s e, I s → M.enabled s e → label s e = none → abs (M.next s e) = abs s

section Simulation

variable {τ δ : Type*} {A : Machine τ δ} {I : σ → Prop}

def Simulation.trace (S : Simulation M A I) : σ → List ε → List δ
  | _, [] => []
  | s, e :: es => (S.label s e).toList ++ S.trace (M.next s e) es

theorem Simulation.keeps (S : Simulation M A I) {J : τ → Prop} {D : τ → δ → Prop}
    (hJ : ∀ t d, J t → A.enabled t d → D t d → J (A.next t d)) {s : σ} {e : ε} (hI : I s)
    (he : M.enabled s e) (hd : ∀ d, S.label s e = some d → D (S.abs s) d)
    (h : J (S.abs s)) : J (S.abs (M.next s e)) := by
  cases hl : S.label s e with
  | none => rwa [S.stutter s e hI he hl]
  | some d =>
    obtain ⟨hen, hnext⟩ := S.step s e d hI he hl
    rw [hnext]
    exact hJ _ d h hen (hd d hl)

theorem Simulation.refines (S : Simulation M A I)
    (hstep : ∀ s e, I s → M.enabled s e → I (M.next s e))
    {s : σ} {es : List ε} (hI : I s) (hv : M.Valid s es) :
    A.Valid (S.abs s) (S.trace s es) ∧
      S.abs (M.run s es) = A.run (S.abs s) (S.trace s es) := by
  induction es generalizing s with
  | nil => exact ⟨trivial, rfl⟩
  | cons e es ih =>
    obtain ⟨hval, hrun⟩ := ih (hstep s e hI hv.1) hv.2
    cases hl : S.label s e with
    | none =>
      have hs := S.stutter s e hI hv.1 hl
      rw [hs] at hval hrun
      simpa [Simulation.trace, hl] using And.intro hval hrun
    | some d =>
      obtain ⟨hd, hs⟩ := S.step s e d hI hv.1 hl
      rw [hs] at hval hrun
      have ht : S.trace s (e :: es) = d :: S.trace (M.next s e) es := by
        simp [Simulation.trace, hl]
      rw [ht]
      exact ⟨⟨hd, hval⟩, hrun⟩

end Simulation

end GuardedMachine
