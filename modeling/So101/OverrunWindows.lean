import So101.PersistentCause

/-!
# The windows of the overrun check

The supervisor compares the overrun counter once a second with what it was at the last
comparison. The command of the round is served before the check, so that a RESET does not
hide a bad second; and as long as no fault comes of it, the counter keeps to the rate.
-/
namespace OverrunWindows

open GuardedMachine AtomicProgram SharedMemory SupervisorThread SupervisorInterlock
open SupervisorFaults TorqueLockout ControlThread PersistentCause
open Calibration (CFloat)

section Windows

variable {F : Type*}

structure Window where
  base : U32
  opened : ℤ

def Window.Over (e : Window) (wake : Wakeup F) : Prop := wake.now - e.opened ≥ 1000

instance (e : Window) (wake : Wakeup F) : Decidable (e.Over wake) :=
  inferInstanceAs (Decidable (_ ≥ _))

def Window.next (e : Window) (wake : Wakeup F) : Window :=
  match wake.snapshot with
  | none => e
  | some s => if e.Over wake then ⟨s.overruns, wake.now⟩ else e

/-- The window that is open after the rounds, the first one from `t1`. -/
def window (t1 : ℤ) (hist : List (Wakeup F)) : Window := hist.foldl Window.next ⟨0, t1⟩

theorem window_append (t1 : ℤ) (hist : List (Wakeup F)) (wake : Wakeup F) :
    window t1 (hist ++ [wake]) = (window t1 hist).next wake := by
  simp only [window, List.foldl_append, List.foldl_cons, List.foldl_nil]

/-- The round ends the window and has seen more overruns in it than the limit. -/
def Window.Dense (e : Window) (wake : Wakeup F) : Prop :=
  e.Over wake ∧ ∃ s, wake.snapshot = some s ∧ (s.overruns - e.base).toNat > overrunPerS

/-- The counter has kept to the limit, a second at a time, since `t1`. -/
def Window.Sparse (t1 : ℤ) (e : Window) : Prop :=
  1000 * (e.base.toNat : ℤ) ≤ overrunPerS * (e.opened - t1)

theorem le_add_sub (a b : U32) : a.toNat ≤ b.toNat + (a - b).toNat := by
  bv_omega

/-- A window that ends without a fault adds no more than its seconds allow. -/
theorem Window.Sparse.next {t1 : ℤ} {e : Window} (h : e.Sparse t1) {wake : Wakeup F}
    (hd : ¬ e.Dense wake) : (e.next wake).Sparse t1 := by
  unfold Window.next
  cases hsnap : wake.snapshot with
  | none => exact h
  | some s =>
    by_cases hover : e.Over wake
    · have hfew : (s.overruns - e.base).toNat ≤ overrunPerS :=
        not_lt.mp fun hmany => hd ⟨hover, s, hsnap, hmany⟩
      have hsum := le_add_sub s.overruns e.base
      simp only [if_pos hover]
      simp only [Window.Sparse, Window.Over, overrunPerS] at *
      omega
    · simp only [if_neg hover]
      exact h

end Windows

section Round

variable {F : Type*} (c : Ctx)

def openWindow (l : Locals) : Window := ⟨l.ovrBase, l.ovrT0⟩

theorem stall_locals_window (l : Locals) (now : ℤ) (s : Sample F) :
    openWindow (stallLocals l now s) = openWindow l := by
  unfold stallLocals
  split <;> exact rfl

theorem servo_locals_window (l : Locals) (s : Sample F) :
    openWindow (servoLocals c l s) = openWindow l := by
  unfold servoLocals
  split <;> exact rfl

theorem next_locals_window (l : Locals) (wake : Wakeup F) :
    openWindow (nextLocals c l wake) = (openWindow l).next wake := by
  unfold nextLocals Window.next
  cases wake.snapshot with
  | none => rfl
  | some s =>
    have hsame : openWindow (servoLocals c (stallLocals l wake.now s) s) = openWindow l :=
      (servo_locals_window c _ s).trans (stall_locals_window l wake.now s)
    simp only [overrunLocals]
    rw [← hsame]
    split_ifs with h h' h'
    · rfl
    · exact absurd h h'
    · exact absurd h' h
    · rfl

theorem after_rounds_window (l : Locals) (hist : List (Wakeup F)) :
    openWindow (afterRounds c l hist) = hist.foldl Window.next (openWindow l) := by
  induction hist generalizing l with
  | nil => rfl
  | cons wake hist ih =>
    rw [List.foldl_cons, ← next_locals_window c]
    exact ih (nextLocals c l wake)

variable {g : Shadow} {w : Words}

theorem check_overruns_holds {l : Locals} {wake : Wakeup F} {s : Sample F}
    (hsnap : wake.snapshot = some s) (hd : (openWindow l).Dense wake) (hs : Settled g w) :
    Safe wordMemory supervisorContract (SettledHolding (· = .overrun) Locals) g
      (checkOverruns l wake.now s) w := by
  obtain ⟨hover, s', hsnap', hmany⟩ := hd
  obtain rfl : s = s' := Option.some.inj (hsnap.symm.trans hsnap')
  have hnone : Held (fun _ => False) g := fun _ h => h.elim
  have hlate : wake.now - l.ovrT0 ≥ 1000 := hover
  unfold checkOverruns
  rw [if_pos hlate]
  refine (raise_when_holds (by decide) (by decide) (fun _ => rfl) hs hnone).bind
    fun g _ w h => safe_holding h.1 (h.2.mono ?_) _
  rintro _ rfl
  exact Or.inr ⟨hmany, rfl⟩

theorem supervisor_thread_latches {l : Locals} {wake : Wakeup F}
    (hd : (openWindow l).Dense wake) (hs : Settled g w) :
    Safe wordMemory supervisorContract (SettledHolding (· = .overrun) Locals) g
      (supervisorThread c l wake) w := by
  have ⟨_, s, hsnap, _⟩ := hd
  unfold supervisorThread
  rw [hsnap]
  refine (answer_command_safe wake.got hs).bind fun g _ w hs => ?_
  refine ((check_stall_safe l wake.now s hs).ensures (check_stall_ensures l wake.now s)).bind
    fun g l₁ w h => ?_
  obtain ⟨hs, rfl⟩ := h
  refine (check_comm_safe c s hs).bind fun g _ w hs => ?_
  refine ((check_servos_safe c (stallLocals l wake.now s) s hs).ensures
    (check_servos_ensures c _ s)).bind fun g l₂ w h => ?_
  obtain ⟨hs, rfl⟩ := h
  have hsame : openWindow (servoLocals c (stallLocals l wake.now s) s) = openWindow l :=
    (servo_locals_window c _ s).trans (stall_locals_window l wake.now s)
  rw [← hsame] at hd
  refine (check_overruns_holds hsnap hd hs).bind fun g l₃ w h => ?_
  exact safe_step fun w₁ hr _ => ⟨trivial, safe_holding (h.1.undisturbed hr) h.2 l₃⟩

end Round

section Runs

variable {c : Ctx} {F : Type} [CFloat F] {start t0 t1 : ℤ} {w : Words}

/-- The daemon at its start, at `t0`, with the first window from `t1`. -/
abbrev started (c : Ctx) (F : Type) [CFloat F] (start t0 t1 : ℤ) (w : Words) :
    State (lockDaemon c F) :=
  boot c F (controlRound c) (startLocals t0 t1) (startControl c start, []) w

theorem dense_latched (hf : w.faults = 0) (hm : w.modeReq ≠ .estop)
    {pre mid : List (Event (lockDaemon c F))} {wake : Wakeup F} {l' : Locals}
    (hv : (lockDaemon c F).machine.Valid (started c F start t0 t1 w)
      (pre ++ .start .supervisor wake :: mid))
    (hmid : ∀ wake', .start .supervisor wake' ∉ mid)
    (hdone : ((lockDaemon c F).machine.run (started c F start t0 t1 w)
      (pre ++ .start .supervisor wake :: mid)).prog .supervisor = .ret l')
    (hd : (window t1 (rounds pre)).Dense wake) :
    .overrun ∈ latched ((lockDaemon c F).machine.run (started c F start t0 t1 w)
      (pre ++ .start .supervisor wake :: mid)).words.faults := by
  obtain ⟨hpre, hround⟩ := along_append.mp hv
  have hboot := boot_kept (c := c) (F := F) (control_round_only (F := F) c) (startLocals t0 t1)
    (startControl c start, []) (clamped_boot hf hm)
  have hkept := Discipline.kept_run hboot hpre
  obtain ⟨l, hl⟩ := start_enabled hround.1
  have hstart : ((started c F start t0 t1 w).prog .supervisor).Ensures (· = startLocals t0 t1) :=
    rfl
  have hpast := locals_of_run hstart hpre
  rw [hl] at hpast
  obtain rfl : l = afterRounds c (startLocals t0 t1) (rounds pre) := hpast
  have hopen := after_rounds_window c (startLocals t0 t1) (rounds pre)
  change openWindow _ = window t1 (rounds pre) at hopen
  rw [← hopen] at hd
  rw [run_append] at hdone ⊢
  obtain ⟨g', ⟨hlatched, _⟩, _, hheld⟩ := Discipline.round_post hkept hl
    (supervisor_thread_latches c hd (hkept.post hl)) hround hmid hdone
  rw [← hlatched]
  exact hheld .overrun rfl

theorem rounds_eq_nil {es : List (Event (lockDaemon c F))} :
    rounds es = [] ↔ ∀ wake, .start .supervisor wake ∉ es := by
  unfold rounds
  rw [List.filterMap_eq_nil_iff]
  constructor
  · intro h wake hmem
    cases h _ hmem
  · intro h e he
    exact round_other fun wake heq => h wake (heq ▸ he)

theorem last_round (es : List (Event (lockDaemon c F))) :
    rounds es = [] ∨ ∃ (pre : _) (wake : Wakeup F) (mid : _),
      es = pre ++ .start .supervisor wake :: mid ∧ ∀ wake', .start .supervisor wake' ∉ mid := by
  induction es with
  | nil => exact Or.inl rfl
  | cons e es ih =>
    rcases ih with hnone | ⟨pre, wake, mid, rfl, hmid⟩
    · by_cases hstart : ∃ wake, e = .start .supervisor wake
      · obtain ⟨wake, rfl⟩ := hstart
        exact Or.inr ⟨[], wake, es, rfl, rounds_eq_nil.mp hnone⟩
      · have hother : round? e = none := round_other fun wake h => hstart ⟨wake, h⟩
        exact Or.inl ((List.filterMap_cons_none hother).trans hnone)
    · exact Or.inr ⟨e :: pre, wake, mid, rfl, hmid⟩

def Between (s : State (lockDaemon c F)) (es : List (Event (lockDaemon c F))) : Prop :=
  ∃ l, ((lockDaemon c F).machine.run s es).prog .supervisor = .ret l

/-- By induction on the rounds: where none of them has left OVERRUN, each window that one of
them ended was within the limit. -/
theorem quiet_sparse (hf : w.faults = 0) (hm : w.modeReq ≠ .estop)
    (es : List (Event (lockDaemon c F)))
    (hv : (lockDaemon c F).machine.Valid (started c F start t0 t1 w) es)
    (hbetween : Between (started c F start t0 t1 w) es)
    (hquiet : ∀ pre, pre <+: es → Between (started c F start t0 t1 w) pre →
      .overrun ∉ latched ((lockDaemon c F).machine.run (started c F start t0 t1 w)
        pre).words.faults) : (window t1 (rounds es)).Sparse t1 := by
  rcases last_round es with hnone | ⟨pre, wake, mid, rfl, hmid⟩
  · simp [hnone, window, Window.Sparse]
  · obtain ⟨hpre, hround⟩ := along_append.mp hv
    have hsparse := quiet_sparse hf hm pre hpre (start_enabled hround.1) fun pre' hpart =>
      hquiet pre' (hpart.trans (List.prefix_append pre _))
    have hlast : rounds (pre ++ .start .supervisor wake :: mid) = rounds pre ++ [wake] := by
      rw [rounds_append]
      exact congrArg (rounds pre ++ wake :: ·) (rounds_eq_nil.mpr hmid)
    rw [hlast, window_append]
    refine hsparse.next fun hd => ?_
    obtain ⟨l, hdone⟩ := hbetween
    exact hquiet _ List.prefix_rfl ⟨l, hdone⟩ (dense_latched hf hm hv hmid hdone hd)
termination_by es.length
decreasing_by simp_all

/-- Once the overrun counter has risen faster than five a second, from the start of the
supervisor to one of its comparisons, a round has ended with OVERRUN latched, whichever
commands were served on the way. -/
theorem fast_overruns_latched (c : Ctx) (F : Type) [CFloat F] (start t0 t1 : ℤ) {w : Words}
    (hf : w.faults = 0) (hm : w.modeReq ≠ .estop) {es : List (Event (lockDaemon c F))}
    (hv : (lockDaemon c F).machine.Valid (started c F start t0 t1 w) es)
    (hbetween : Between (started c F start t0 t1 w) es)
    (hfast : 5 * ((window t1 (rounds es)).opened - t1) <
      1000 * (window t1 (rounds es)).base.toNat) :
    ∃ pre, pre <+: es ∧ Between (started c F start t0 t1 w) pre ∧
      Has ((lockDaemon c F).machine.run (started c F start t0 t1 w) pre).words.faults
        .overrun := by
  by_contra hnever
  have hsparse := quiet_sparse hf hm es hv hbetween fun pre hpart hpre hlatched =>
    hnever ⟨pre, hpart, hpre, (mem_latched.mp hlatched).2⟩
  exact absurd hsparse (not_le.mpr hfast)

/-- Eight misses in the first second, and a RESET in the round that compares. -/
def resetWhileLate (c : Ctx) : List (Event (lockDaemon c ℚ)) :=
  let reset : Cmd := ⟨3, cmdReset, 0, 100⟩
  let late : Sample ℚ := { zeroSample with cycle := 42, overruns := 8 }
  [.start .supervisor ⟨some reset, 1000, some late⟩, .access .supervisor .loadFaults,
    .access .supervisor (.storeFaults reset 0),
    .access .supervisor (.storeMode (.command reset) .idle),
    .access .supervisor (.ackResult resOk), .access .supervisor (.ackId 3),
    .access .supervisor (.orFaults .overrun), .access .supervisor .addBeat]

theorem fast_overruns_latched_reset :
    let c := Ctx.default Calibration.fullRange Calibration.fullRange
    let s := started c ℚ 0 0 0 ⟨.teleop, 0, 0, ⟨0, 0⟩⟩
    ∃ pre, pre <+: resetWhileLate c ∧ Between s pre ∧
      Has ((lockDaemon c ℚ).machine.run s pre).words.faults .overrun := by
  intro c s
  have hv : (lockDaemon c ℚ).machine.Valid s (resetWhileLate c) :=
    ⟨rfl, rfl, rfl, rfl, rfl, rfl, rfl, rfl, trivial⟩
  exact @fast_overruns_latched c ℚ _ 0 0 0 _ rfl (by decide) _ hv ⟨_, rfl⟩ (by decide)

end Runs

end OverrunWindows
