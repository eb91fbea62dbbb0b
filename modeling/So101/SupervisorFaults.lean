import So101.SupervisorInterlock

/-!
# Faults and the requested mode

The supervisor beside a thread that sets and clears TORQUE_REFUSED at any moment: how
the words relate after each round, and what a single access may do to them.
-/
namespace SupervisorFaults

open GuardedMachine AtomicProgram SharedMemory SupervisorThread SupervisorInterlock

inductive Thread where
  | supervisor | control
  deriving DecidableEq, Repr

def RefusedOnly : Access → Prop
  | .loadMode | .loadFaults => True
  | .orFaults f | .andNotFaults f => f = .torqueRefused
  | _ => False

section Daemon

variable (c : Ctx) (F : Type) {L I : Type} (ctl : L → I → Code L)

def daemon : System Thread Words Access.Res where
  mem := wordMemory
  Local
    | .supervisor => Locals
    | .control => L
  Input
    | .supervisor => Wakeup F
    | .control => I
  body
    | .supervisor => supervisorThread c
    | .control => ctl

def boot (l : Locals) (a : L) (w : Words) : State (daemon c F ctl) where
  words := w
  prog
    | .supervisor => .ret l
    | .control => .ret a

def Ghost : Thread → Type
  | .supervisor => Shadow
  | .control => Unit

def ghost (g : Shadow) : (i : Thread) → Ghost i
  | .supervisor => g
  | .control => ()

theorem refused_undisturbed {o : Access} (h : RefusedOnly o) (w : Words) :
    Undisturbed w (wordMemory.update w o) := by
  cases o with
  | loadMode => exact ⟨rfl, rfl⟩
  | loadFaults => exact ⟨rfl, rfl⟩
  | orFaults f =>
    obtain rfl : f = .torqueRefused := h
    exact ⟨rfl, latched_or_refused w.faults⟩
  | andNotFaults f =>
    obtain rfl : f = .torqueRefused := h
    exact ⟨rfl, latched_clear_refused w.faults⟩
  | storeMode => exact h.elim
  | storeFaults => exact h.elim
  | addBeat => exact h.elim
  | ackResult => exact h.elim
  | ackId => exact h.elim

def discipline (hctl : ∀ a inp, (ctl a inp).Only RefusedOnly) :
    Discipline (daemon c F ctl) Ghost where
  contract
    | .supervisor => supervisorContract
    | .control => Contract.only Words RefusedOnly
  post
    | .supervisor => fun g _ w => Settled g w
    | .control => fun _ _ _ => True
  body_safe
    | .supervisor, _, l, _, inp, _, hs => supervisor_thread_safe c l inp hs
    | .control, _, a, w, inp, _, _ => (hctl a inp).safe w
  compat
    | .supervisor, .control, _, _, _, _, _ => trivial
    | .control, .supervisor, _, _, w, _, ho => refused_undisturbed ho w
    | .supervisor, .supervisor, hne, _, _, _, _ => absurd rfl hne
    | .control, .control, hne, _, _, _, _ => absurd rfl hne

end Daemon

section Runs

variable {c : Ctx} {F L I : Type} {ctl : L → I → Code L}
  (hctl : ∀ a inp, (ctl a inp).Only RefusedOnly)

theorem boot_kept (l : Locals) (a : L) {w : Words}
    (hw : Interlock.Clamped ceiling (latched w.faults) w.modeReq) :
    (discipline c F ctl hctl).Kept
      (boot c F ctl l a w, ghost ⟨⟨latched w.faults, w.modeReq⟩, false⟩) := by
  intro i
  cases i with
  | supervisor => exact ⟨⟨rfl, hw⟩, safe_settled ⟨rfl, rfl⟩ l⟩
  | control => exact ⟨trivial, fun _ _ _ => trivial⟩

theorem clamped_boot {w : Words} (hf : w.faults = 0) (hm : w.modeReq ≠ .estop) :
    Interlock.Clamped ceiling (latched w.faults) w.modeReq := by
  rw [hf]
  exact .request (le_cap_latched.mpr (fun f h => absurd h (not_has_zero f))) hm

end Runs

structure ModeMatchesFaults (w : Words) : Prop where
  estop_iff : w.modeReq = .estop ↔ Has w.faults .estop ∨ Has w.faults .stall
  torque_blocked : Has w.faults .followerComm ∨ Has w.faults .overtemp ∨
    Has w.faults .voltage ∨ Has w.faults .stall ∨ Has w.faults .estop →
      w.modeReq = .idle ∨ w.modeReq = .estop
  teleop_blocked : Has w.faults .leaderComm → w.modeReq ≠ .teleop

theorem le_idle_iff {m : Mode} : m ≤ .idle ↔ m = .idle ∨ m = .estop := by
  cases m <;> decide

theorem matches_of_clamped {w : Words}
    (h : Interlock.Clamped ceiling (latched w.faults) w.modeReq) : ModeMatchesFaults w := by
  have below : ∀ f, f ≠ .torqueRefused → Has w.faults f → w.modeReq ≤ ceiling f :=
    fun f hf hw => h.le_ceiling (mem_latched.mpr ⟨hf, hw⟩)
  constructor
  · rw [← Mode.bot_eq, h.eq_bot_iff]
    constructor
    · rintro ⟨f, hf, hb⟩
      obtain ⟨_, hw⟩ := mem_latched.mp hf
      cases f <;> first | exact Or.inl hw | exact Or.inr hw | cases hb
    · rintro (hw | hw)
      · exact ⟨.estop, mem_latched.mpr ⟨by decide, hw⟩, rfl⟩
      · exact ⟨.stall, mem_latched.mpr ⟨by decide, hw⟩, rfl⟩
  · intro hany
    apply le_idle_iff.mp
    rcases hany with hw | hw | hw | hw | hw
    · exact below _ (by decide) hw
    · exact below _ (by decide) hw
    · exact below _ (by decide) hw
    · exact (below _ (by decide) hw).trans bot_le
    · exact (below _ (by decide) hw).trans bot_le
  · intro hw ht
    have hle := below _ (by decide) hw
    rw [ht] at hle
    exact absurd hle (by decide)

/-- What one step may do to the words `w`, leaving them as `w'`. -/
structure FaultStep {S : System Thread Words Access.Res} (w w' : Words) (e : Event S) : Prop where
  cleared_by_reset : ∀ f, f ≠ .torqueRefused → Has w.faults f → ¬ Has w'.faults f →
    ∃ cmd v, cmd.cmd = cmdReset ∧ e = .access .supervisor (.storeFaults cmd v)
  checks_lower : ∀ f m, e = .access .supervisor (.storeMode (.fault f) m) →
    w'.modeReq ≤ w.modeReq
  raised_by_set_mode : w.modeReq < w'.modeReq → w'.modeReq = .hold ∨ w'.modeReq = .teleop →
    ∃ cmd, cmd.cmd = cmdSetMode ∧ cmd.arg = w'.modeReq.word ∧
      e = .access .supervisor (.storeMode (.command cmd) w'.modeReq)
  estop_left_by_reset : w.modeReq = .estop → w'.modeReq ≠ .estop →
    ∃ cmd, cmd.cmd = cmdReset ∧ e = .access .supervisor (.storeMode (.command cmd) w'.modeReq)

theorem fault_step_same {S : System Thread Words Access.Res} {w : Words} (w' : Words)
    (e : Event S) (hm : w'.modeReq = w.modeReq)
    (hf : ∀ f, f ≠ .torqueRefused → Has w.faults f → Has w'.faults f) : FaultStep w w' e where
  cleared_by_reset f hne hw hn := absurd (hf f hne hw) hn
  checks_lower _ _ _ := hm.le
  raised_by_set_mode hlt := absurd hm hlt.ne'
  estop_left_by_reset he hn := absurd (hm.trans he) hn

theorem refused_fault_step {S : System Thread Words Access.Res} {w : Words} {o : Access}
    (ho : RefusedOnly o) (e : Event S) : FaultStep w (wordMemory.update w o) e := by
  obtain ⟨hm, hl⟩ := refused_undisturbed ho w
  refine fault_step_same _ e hm (fun f hne hw => ?_)
  have hf : f ∈ latched (wordMemory.update w o).faults := by
    rw [hl]
    exact mem_latched.mpr ⟨hne, hw⟩
  exact (mem_latched.mp hf).2

theorem promised_fault_step {S : System Thread Words Access.Res} {g : Shadow} {w : Words}
    {o : Access} (ho : Promised g w o) :
    FaultStep w (wordMemory.update w o) (.access .supervisor o : Event S) := by
  cases o with
  | loadMode => exact fault_step_same _ _ rfl (fun _ _ h => h)
  | loadFaults => exact fault_step_same _ _ rfl (fun _ _ h => h)
  | orFaults f => exact fault_step_same _ _ rfl (fun _ _ h => has_or.mpr (Or.inl h))
  | andNotFaults f => exact ho.elim
  | addBeat => exact fault_step_same _ _ rfl (fun _ _ h => h)
  | ackResult r => exact fault_step_same _ _ rfl (fun _ _ h => h)
  | ackId id => exact fault_step_same _ _ rfl (fun _ _ h => h)
  | storeFaults cmd v =>
    constructor
    · intro f _ _ _
      exact ⟨cmd, v, ho.1, rfl⟩
    · intro f m he
      cases he
    · intro hlt
      exact absurd hlt (lt_irrefl w.modeReq)
    · intro he hn
      exact absurd he hn
  | storeMode site m =>
    constructor
    · intro f _ hw hn
      exact absurd hw hn
    · intro f m' he
      cases he
      exact ho.2.2.le
    · intro hlt htorque
      change w.modeReq < m at hlt
      change m = .hold ∨ m = .teleop at htorque
      cases site with
      | fault f => exact absurd hlt (not_lt.mpr ho.2.2.le)
      | command cmd =>
        rcases ho with ⟨hcmd, harg, _⟩ | ⟨_, rfl, _⟩ | ⟨_, rfl⟩
        · exact ⟨cmd, hcmd, harg, rfl⟩
        · simp at htorque
        · simp at htorque
    · intro he hn
      change m ≠ .estop at hn
      cases site with
      | fault f =>
        have hlt := ho.2.2
        rw [he] at hlt
        exact absurd hlt (by cases m <;> decide)
      | command cmd =>
        rcases ho with ⟨_, _, _, hw, _⟩ | ⟨_, rfl, _⟩ | ⟨hcmd, _⟩
        · exact absurd he hw
        · exact absurd rfl hn
        · exact ⟨cmd, hcmd, rfl⟩

theorem kept_fault_step {c : Ctx} {F L I : Type} {ctl : L → I → Code L}
    {hctl : ∀ a inp, (ctl a inp).Only RefusedOnly}
    {s : State (daemon c F ctl) × ((i : Thread) → Ghost i)}
    (h : (discipline c F ctl hctl).Kept s) {e : Event (daemon c F ctl)}
    (he : (daemon c F ctl).machine.enabled s.1 e) :
    FaultStep s.1.words ((daemon c F ctl).machine.next s.1 e).words e := by
  cases e with
  | start i inp =>
    rw [words_start]
    exact fault_step_same _ _ rfl (fun _ _ h => h)
  | access i o =>
    have hg := h.guarantee he
    rw [words_access he]
    cases i with
    | supervisor => exact promised_fault_step hg
    | control => exact refused_fault_step hg _

/-- Any setting or clearing of TORQUE_REFUSED, one access at a time. -/
def toggleRefused (_ : Unit) (set : Bool) : Code Unit :=
  if set then do
    let _ ← orFaults .torqueRefused
    pure ()
  else
    andNotFaults .torqueRefused

theorem toggle_refused_only (a : Unit) (set : Bool) :
    (toggleRefused a set).Only RefusedOnly := by
  cases set <;> exact ⟨rfl, fun _ => trivial⟩

/-- After every round of every run the mode is the one the faults leave, and no step
clears a fault or raises the mode but a command that may. -/
theorem fault_mode_invariant (c : Ctx) (F : Type) (l : Locals) {w : Words}
    (hf : w.faults = 0) (hm : w.modeReq = .idle ∨ w.modeReq = .teleop ∨ w.modeReq = .hold)
    {es : List (Event (daemon c F toggleRefused))}
    (hv : (daemon c F toggleRefused).machine.Valid (boot c F toggleRefused l () w) es) :
    (∀ l', ((daemon c F toggleRefused).machine.run (boot c F toggleRefused l () w) es).prog
        .supervisor = .ret l' →
      ModeMatchesFaults
        ((daemon c F toggleRefused).machine.run (boot c F toggleRefused l () w) es).words) ∧
    (daemon c F toggleRefused).machine.Along
      (fun s e => FaultStep s.words ((daemon c F toggleRefused).machine.next s e).words e)
      (boot c F toggleRefused l () w) es := by
  have hne : w.modeReq ≠ .estop := by
    rcases hm with h | h | h <;> simp [h]
  have hboot := boot_kept (c := c) (F := F) toggle_refused_only l () (clamped_boot hf hne)
  constructor
  · intro l' hdone
    have hkept := Discipline.kept_run hboot hv
    obtain ⟨hmode, _⟩ := hkept.post hdone
    obtain ⟨hlatched, hclamped⟩ := (hkept .supervisor).1
    apply matches_of_clamped
    rw [hmode, ← hlatched]
    exact hclamped
  · exact Discipline.kept_along hboot hv (fun s e hk he => kept_fault_step hk he)

/-- An ESTOP served while the control thread sets TORQUE_REFUSED between the two stores. -/
def stopBesideRefusal (c : Ctx) : List (Event (daemon c ℚ toggleRefused)) :=
  let stop : Cmd := ⟨7, cmdEstop, 0, 100⟩
  [.start .supervisor ⟨some stop, 20, none⟩, .access .supervisor .loadFaults,
    .access .supervisor (.orFaults .estop), .start .control true,
    .access .control (.orFaults .torqueRefused),
    .access .supervisor (.storeMode (.command stop) .estop),
    .access .supervisor (.ackResult resOk), .access .supervisor (.ackId 7)]

theorem fault_mode_invariant_stop :
    let c := Ctx.default Calibration.fullRange Calibration.fullRange
    let s := boot c ℚ toggleRefused ⟨0, 0, 0, 0, 0, 0⟩ () ⟨.teleop, 0, 0, ⟨0, 0⟩⟩
    ModeMatchesFaults ((daemon c ℚ toggleRefused).machine.run s (stopBesideRefusal c)).words := by
  intro c s
  have hv : (daemon c ℚ toggleRefused).machine.Valid s (stopBesideRefusal c) :=
    ⟨rfl, rfl, rfl, rfl, rfl, rfl, rfl, rfl, trivial⟩
  obtain ⟨hdone, _⟩ := fault_mode_invariant c ℚ _ rfl (Or.inr (Or.inl rfl)) hv
  exact hdone _ rfl

end SupervisorFaults
