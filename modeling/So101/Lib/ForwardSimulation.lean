import So101.Lib.Machine

/-!
# Forward simulation by a relation

A machine follows another where each of its steps, from related states, is some steps of
the other into related states; a second relation says which. In lockstep it is one step.
-/
namespace ForwardSimulation

open GuardedMachine

variable {σ ε τ δ : Type*} {M : Machine σ ε} {A : Machine τ δ} {R : σ → τ → Prop}
  {E : σ → ε → δ → Prop}

/-- Each step of `M` is one step of `A`, and `E` relates the two events. -/
structure Lockstep (M : Machine σ ε) (A : Machine τ δ) (R : σ → τ → Prop)
    (E : σ → ε → δ → Prop) : Prop where
  step : ∀ s t e, R s t → M.enabled s e →
    ∃ d, A.enabled t d ∧ E s e d ∧ R (M.next s e) (A.next t d)

theorem Lockstep.run (h : Lockstep M A R E) {s : σ} {t : τ} {es : List ε} (hR : R s t)
    (hv : M.Valid s es) : ∃ ds, ds.length = es.length ∧ A.Valid t ds ∧
      (M.beside A).Along (fun p q => R p.1 p.2 ∧ E p.1 q.1 q.2) (s, t) (es.zip ds) ∧
      R (M.run s es) (A.run t ds) := by
  induction es generalizing s t with
  | nil => exact ⟨[], rfl, trivial, trivial, hR⟩
  | cons e es ih =>
    obtain ⟨d, hd, hE, hnext⟩ := h.step s t e hR hv.1
    obtain ⟨ds, hlen, hvalid, halong, hend⟩ := ih hnext hv.2
    exact ⟨d :: ds, by simp [hlen], ⟨hd, hvalid⟩, ⟨⟨hR, hE⟩, halong⟩, hend⟩

theorem Lockstep.follow (h : Lockstep M A R E) {C : σ → ε → Prop} {D : τ → δ → Prop}
    (hCD : ∀ s t e d, R s t → E s e d → A.enabled t d → C s e → D t d) {s : σ} {t : τ}
    {es : List ε} (hR : R s t) (hv : M.Valid s es) (hC : M.Along C s es) :
    ∃ ds, ds.length = es.length ∧ A.Along D t ds ∧
      ∀ n, R (M.run s (es.take n)) (A.run t (ds.take n)) := by
  induction es generalizing s t with
  | nil => exact ⟨[], rfl, trivial, fun n => by simpa using hR⟩
  | cons e es ih =>
    obtain ⟨d, hd, hE, hnext⟩ := h.step s t e hR hv.1
    obtain ⟨ds, hlen, hD, hruns⟩ := ih hnext hv.2 hC.2
    refine ⟨d :: ds, by simp [hlen], ⟨hCD s t e d hR hE hd hC.1, hD⟩, fun n => ?_⟩
    cases n with
    | zero => exact hR
    | succ n => exact hruns n

/-- Each step of `M` is some steps of `A`, and `E` relates its event to each of theirs. -/
structure Forward (M : Machine σ ε) (A : Machine τ δ) (R : σ → τ → Prop)
    (E : σ → ε → δ → Prop) : Prop where
  step : ∀ s t e, R s t → M.enabled s e →
    ∃ ds, A.Valid t ds ∧ (∀ d ∈ ds, E s e d) ∧ R (M.next s e) (A.run t ds)

theorem Forward.run (h : Forward M A R E) {C : σ → ε → Prop} {D : δ → Prop}
    (hCD : ∀ s e d, C s e → E s e d → D d) {s : σ} {t : τ} {es : List ε} (hR : R s t)
    (hv : M.Valid s es) (hC : M.Along C s es) :
    ∃ ds, A.Valid t ds ∧ (∀ d ∈ ds, D d) ∧ R (M.run s es) (A.run t ds) := by
  induction es generalizing s t with
  | nil => exact ⟨[], trivial, by simp, hR⟩
  | cons e es ih =>
    obtain ⟨ds, hds, hE, hnext⟩ := h.step s t e hR hv.1
    obtain ⟨fs, hfs, hD, hend⟩ := ih hnext hv.2 hC.2
    refine ⟨ds ++ fs, along_append.mpr ⟨hds, hfs⟩, fun d hd => ?_, by rwa [run_append]⟩
    rcases List.mem_append.mp hd with hd | hd
    · exact hCD s e d hC.1 (hE d hd)
    · exact hD d hd

end ForwardSimulation
