import So101.SupervisorThread

/-!
# The supervisor keeps an interlock

The abstract interlock runs beside the supervisor as a history variable. The supervisor
latches before it lowers the mode and clears before it stores IDLE, so the words agree
with the interlock between two commands or checks, and not within one.
-/
namespace SupervisorInterlock

open AtomicProgram SharedMemory SupervisorThread

/-- The history variable: the abstract interlock, and whether a RESET has cleared the
faults and not yet stored IDLE. -/
structure Shadow where
  lock : Interlock.State Fault Mode
  resetting : Bool

abbrev interlock := Interlock.machine ceiling Mode.idle

/-- The abstract action of an access: a fault latches when its bit is set, a reset
happens when the faults are cleared, a mode is granted when it is stored. -/
def action : Access → Option (Interlock.Action Fault Mode)
  | .orFaults f => some (.latch f)
  | .storeFaults _ _ => some .reset
  | .storeMode (.command cmd) m => if cmd.cmd = cmdSetMode then some (.request m) else none
  | _ => none

def shadowStep (g : Shadow) (o : Access) : Shadow where
  lock :=
    match action o with
    | some a => interlock.next g.lock a
    | none => g.lock
  resetting :=
    match o with
    | .storeFaults _ _ => true
    | .storeMode (.command cmd) _ => g.resetting && decide (cmd.cmd ≠ cmdReset)
    | _ => g.resetting

def Promised (g : Shadow) (w : Words) : Access → Prop
  | .storeMode (.fault f) m => Has w.faults f ∧ m = ceiling f ∧ m < w.modeReq
  | .storeMode (.command cmd) m =>
    (cmd.cmd = cmdSetMode ∧ cmd.arg = m.word ∧ m ≠ .estop ∧ w.modeReq ≠ .estop ∧
      m ≤ Interlock.cap ceiling (latched w.faults) ∧ g.resetting = false) ∨
    (cmd.cmd = cmdEstop ∧ m = .estop ∧ Has w.faults .estop) ∨
    (cmd.cmd = cmdReset ∧ m = .idle)
  | .storeFaults cmd v => cmd.cmd = cmdReset ∧ v = 0
  | .orFaults f => f ≠ .torqueRefused
  | .andNotFaults _ => False
  | _ => True

/-- The control thread sets and clears TORQUE_REFUSED and writes nothing else. -/
def Undisturbed (w w' : Words) : Prop :=
  w'.modeReq = w.modeReq ∧ latched w'.faults = latched w.faults

def supervisorContract : Contract Shadow Words Access where
  rely := Undisturbed
  mon := shadowStep
  inv g w := g.lock.latched = latched w.faults ∧
    Interlock.Clamped ceiling g.lock.latched g.lock.value
  guar := Promised
  refl _ := ⟨rfl, rfl⟩
  trans h k := ⟨k.1.trans h.1, k.2.trans h.2⟩
  stable h k := ⟨k.1.trans h.2.symm, k.2⟩

def Settled (g : Shadow) (w : Words) : Prop :=
  w.modeReq = g.lock.value ∧ g.resetting = false

abbrev SettledAfter (α : Type) : Shadow → α → Words → Prop := fun g _ w => Settled g w

section Promises

variable {g : Shadow} {w : Words} {o : Access}

theorem promised_enabled {a : Interlock.Action Fault Mode} (hi : supervisorContract.inv g w)
    (hp : Promised g w o) (ha : action o = some a) : interlock.enabled g.lock a := by
  cases o with
  | orFaults f =>
    cases ha
    trivial
  | storeFaults cmd v =>
    cases ha
    trivial
  | storeMode site m =>
    cases site with
    | fault f => cases ha
    | command cmd =>
      simp only [action] at ha
      split at ha
      · next hset =>
        cases ha
        rcases hp with ⟨_, _, hm, _, hle, _⟩ | ⟨hcmd, _⟩ | ⟨hcmd, _⟩
        · exact ⟨hm, hi.1 ▸ hle⟩
        · exact absurd (hset.symm.trans hcmd) (by decide)
        · exact absurd (hset.symm.trans hcmd) (by decide)
      · cases ha
  | _ => cases ha

theorem shadow_latched (hi : g.lock.latched = latched w.faults) (hp : Promised g w o) :
    (shadowStep g o).lock.latched = latched (wordMemory.update w o).faults := by
  cases o with
  | orFaults f =>
    change insert f g.lock.latched = latched (w.faults ||| f.bit)
    rw [latched_or hp, hi]
  | storeFaults cmd v =>
    obtain ⟨_, rfl⟩ := hp
    exact latched_zero.symm
  | storeMode site m =>
    cases site with
    | fault f => exact hi
    | command cmd =>
      by_cases hset : cmd.cmd = cmdSetMode
      · simp only [shadowStep, action, if_pos hset]
        exact hi
      · simp only [shadowStep, action, if_neg hset]
        exact hi
  | andNotFaults f => exact hp.elim
  | _ => exact hi

theorem promised_keeps (hi : supervisorContract.inv g w) (hp : Promised g w o) :
    supervisorContract.inv (shadowStep g o) (wordMemory.update w o) := by
  refine ⟨shadow_latched hi.1 hp, ?_⟩
  have hrest : Mode.idle ≠ ⊥ := by decide
  cases ha : action o with
  | none =>
    simp only [shadowStep, ha]
    exact hi.2
  | some a =>
    simp only [shadowStep, ha]
    exact Interlock.clamped_next hrest hi.2 (promised_enabled hi hp ha)

end Promises

/-- One access, seen with the words as the other threads have left them. -/
theorem safe_step {α : Type} {Q : Shadow → α → Words → Prop} {g : Shadow} {w : Words}
    {o : Access} {k : o.Res → Code α}
    (h : ∀ w', Undisturbed w w' → supervisorContract.inv g w' →
      Promised g w' o ∧
        Safe wordMemory supervisorContract Q (shadowStep g o) (k (wordMemory.value w' o))
          (wordMemory.update w' o)) :
    Safe wordMemory supervisorContract Q g (.access o k) w := by
  intro w' hr hi
  obtain ⟨hp, hk⟩ := h w' hr hi
  exact ⟨hp, promised_keeps hi hp, hk⟩

theorem safe_load_mode {α : Type} {Q : Shadow → α → Words → Prop} {g : Shadow} {w : Words}
    {k : Mode → Code α}
    (h : ∀ w', Undisturbed w w' → supervisorContract.inv g w' →
      Safe wordMemory supervisorContract Q g (k w'.modeReq) w') :
    Safe wordMemory supervisorContract Q g (loadMode >>= k) w :=
  safe_step (fun w' hr hi => ⟨trivial, h w' hr hi⟩)

theorem safe_load_faults {α : Type} {Q : Shadow → α → Words → Prop} {g : Shadow} {w : Words}
    {k : U32 → Code α}
    (h : ∀ w', Undisturbed w w' → supervisorContract.inv g w' →
      Safe wordMemory supervisorContract Q g (k w'.faults) w') :
    Safe wordMemory supervisorContract Q g (loadFaults >>= k) w :=
  safe_step (fun w' hr hi => ⟨trivial, h w' hr hi⟩)

theorem Settled.undisturbed {g : Shadow} {w w' : Words} (h : Settled g w)
    (hr : Undisturbed w w') : Settled g w' := ⟨hr.1.trans h.1, h.2⟩

theorem safe_settled {α : Type} {g : Shadow} {w : Words} (h : Settled g w) (a : α) :
    Safe wordMemory supervisorContract (SettledAfter α) g (pure a) w :=
  fun _ hr _ => h.undisturbed hr

theorem lower_iff {safe m : Mode} (hs : safe ≠ .teleop) :
    (lower safe m ∧ m ≠ safe) ↔ safe < m := by
  cases safe <;> cases m <;> first | exact absurd rfl hs | decide

theorem force_mode_safe {g : Shadow} {w : Words} {f : Fault} (hne : ceiling f ≠ .teleop)
    (hf : f ∈ g.lock.latched) (hvalue : g.lock.value = w.modeReq ⊓ ceiling f)
    (hreset : g.resetting = false) :
    Safe wordMemory supervisorContract (SettledAfter Unit) g (forceMode f (ceiling f) w.modeReq)
      w := by
  unfold forceMode
  by_cases hlow : ceiling f < w.modeReq
  · rw [if_pos ((lower_iff hne).mpr hlow)]
    refine safe_step (fun w₁ hr hi => ?_)
    have hhas : f ∈ latched w₁.faults := hi.1 ▸ hf
    refine ⟨⟨(mem_latched.mp hhas).2, rfl, ?_⟩, ?_⟩
    · rw [hr.1]
      exact hlow
    · exact safe_settled ⟨by rw [inf_eq_right.mpr hlow.le] at hvalue; exact hvalue.symm, hreset⟩ ()
  · rw [if_neg (fun h => hlow ((lower_iff hne).mp h))]
    rw [inf_eq_left.mpr (not_lt.mp hlow)] at hvalue
    exact safe_settled ⟨hvalue.symm, hreset⟩ ()

theorem raise_fault_safe {g : Shadow} {w : Words} {f : Fault} {force : Bool} {safe : Mode}
    (hf : f ≠ .torqueRefused) (hforce : force = true → safe = ceiling f ∧ safe ≠ .teleop)
    (hfree : force = false → ceiling f = ⊤) (hs : Settled g w) :
    Safe wordMemory supervisorContract (SettledAfter Unit) g (raiseFault f force safe) w := by
  refine safe_step (fun w₁ hr₁ _ => ⟨hf, ?_⟩)
  have hmode : w₁.modeReq = g.lock.value := hr₁.1.trans hs.1
  cases force with
  | false =>
    refine safe_settled (g := shadowStep g (.orFaults f)) ⟨?_, hs.2⟩ ()
    calc w₁.modeReq = g.lock.value := hmode
      _ = g.lock.value ⊓ ceiling f := by rw [hfree rfl, inf_top_eq]
  | true =>
    obtain ⟨rfl, hne⟩ := hforce rfl
    refine safe_load_mode (fun w₂ hr₂ _ => ?_)
    refine force_mode_safe hne (Finset.mem_insert_self f _) ?_ hs.2
    calc g.lock.value ⊓ ceiling f = w₂.modeReq ⊓ ceiling f := by rw [← hmode, hr₂.1]; rfl

theorem raise_when_safe {p : Prop} [Decidable p] {g : Shadow} {w : Words} {f : Fault}
    {force : Bool} {safe : Mode}
    (hf : f ≠ .torqueRefused) (hforce : force = true → safe = ceiling f ∧ safe ≠ .teleop)
    (hfree : force = false → ceiling f = ⊤) (hs : Settled g w) :
    Safe wordMemory supervisorContract (SettledAfter Unit) g (raiseWhen p f force safe) w := by
  unfold raiseWhen
  split
  · exact raise_fault_safe hf hforce hfree hs
  · exact safe_settled hs ()

/-- Granting a mode below the cap. Under an ESTOP the cap leaves nothing to grant. -/
theorem accept_mode_safe {g : Shadow} {w : Words} {cmd : Cmd} {m : Mode}
    (hcmd : cmd.cmd = cmdSetMode) (harg : cmd.arg = m.word) (hm : m ≠ .estop)
    (hle : m ≤ Interlock.cap ceiling g.lock.latched) (hs : Settled g w) :
    Safe wordMemory supervisorContract (SettledAfter ℤ) g (acceptMode cmd m) w := by
  refine safe_step (fun w₁ hr hi => ?_)
  have hshadow : shadowStep g (.storeMode (.command cmd) m) =
      ⟨⟨g.lock.latched, m⟩, false⟩ := by
    simp [shadowStep, action, hcmd, hs.2, Interlock.machine]
  have hmode : w₁.modeReq ≠ .estop := by
    intro he
    have hbot : g.lock.value = ⊥ := (hs.undisturbed hr).1.symm.trans he
    rw [hi.2.tight hbot] at hle
    exact hm (le_bot_iff.mp hle)
  refine ⟨Or.inl ⟨hcmd, harg, hm, hmode, hi.1 ▸ hle, hs.2⟩, ?_⟩
  rw [hshadow]
  exact safe_settled ⟨rfl, rfl⟩ resOk

theorem idle_le_of_ne_bot {m : Mode} (h : m ≠ ⊥) : Mode.idle ≤ m := by
  cases m <;> first | exact absurd rfl h | decide

theorem estop_command_safe {g : Shadow} {w : Words} {cmd : Cmd} (hcmd : cmd.cmd = cmdEstop)
    (hs : Settled g w) :
    Safe wordMemory supervisorContract (SettledAfter ℤ) g
      (do let _ ← orFaults .estop; storeMode (.command cmd) .estop; pure resOk) w := by
  have hne : Fault.estop ≠ .torqueRefused := by decide
  refine safe_step (fun w₁ _ _ => ⟨hne, ?_⟩)
  refine safe_step (fun w₂ _ hi₂ => ?_)
  have hshadow : shadowStep (shadowStep g (.orFaults .estop)) (.storeMode (.command cmd) .estop) =
      shadowStep g (.orFaults .estop) := by
    simp [shadowStep, action, hcmd, hs.2, cmdEstop, cmdSetMode, cmdReset]
  have hhas : Fault.estop ∈ latched w₂.faults := hi₂.1 ▸ Finset.mem_insert_self _ _
  refine ⟨Or.inr (Or.inl ⟨hcmd, rfl, (mem_latched.mp hhas).2⟩), ?_⟩
  rw [hshadow]
  refine safe_settled (g := shadowStep g (.orFaults .estop)) ⟨?_, hs.2⟩ resOk
  exact (inf_bot_eq g.lock.value).symm

theorem reset_command_safe {g : Shadow} {w : Words} {cmd : Cmd} (hcmd : cmd.cmd = cmdReset) :
    Safe wordMemory supervisorContract (SettledAfter ℤ) g
      (do storeFaults cmd 0; storeMode (.command cmd) .idle; pure resOk) w := by
  refine safe_step (fun w₁ _ _ => ⟨⟨hcmd, rfl⟩, ?_⟩)
  refine safe_step (fun w₂ _ _ => ⟨Or.inr (Or.inr ⟨hcmd, rfl⟩), ?_⟩)
  have hshadow : shadowStep (shadowStep g (.storeFaults cmd 0)) (.storeMode (.command cmd) .idle) =
      ⟨⟨∅, .idle⟩, false⟩ := by
    simp [shadowStep, action, hcmd, cmdSetMode, cmdReset, Interlock.machine]
  rw [hshadow]
  exact safe_settled ⟨rfl, rfl⟩ resOk

theorem serve_command_safe {g : Shadow} {w : Words} (cmd : Cmd) (hs : Settled g w) :
    Safe wordMemory supervisorContract (SettledAfter ℤ) g (serveCommand cmd) w := by
  refine safe_load_faults (fun w₁ hr₁ hi₁ => ?_)
  have hs₁ := hs.undisturbed hr₁
  by_cases hset : cmd.cmd = cmdSetMode
  · rw [if_pos hset]
    by_cases hidle : cmd.arg = Mode.idle.word
    · rw [if_pos hidle]
      refine safe_load_mode (fun w₂ hr₂ hi₂ => ?_)
      have hs₂ := hs₁.undisturbed hr₂
      split
      · exact safe_settled hs₂ resRefused
      · next hne =>
        refine accept_mode_safe hset hidle (by decide) (idle_le_of_ne_bot ?_) hs₂
        intro hcap
        have hvalue := hi₂.2.below
        rw [hcap, ← hs₂.1] at hvalue
        exact hne (le_bot_iff.mp hvalue)
    · rw [if_neg hidle]
      by_cases hteleop : cmd.arg = Mode.teleop.word
      · rw [if_pos hteleop]
        split
        · exact safe_settled hs₁ resRefused
        · next hfree =>
          refine accept_mode_safe hset hteleop (by decide) ?_ hs₁
          rw [hi₁.1]
          exact teleop_allowed_iff.mp (not_not.mp hfree)
      · rw [if_neg hteleop]
        by_cases hhold : cmd.arg = Mode.hold.word
        · rw [if_pos hhold]
          split
          · exact safe_settled hs₁ resRefused
          · next hfree =>
            refine accept_mode_safe hset hhold (by decide) ?_ hs₁
            rw [hi₁.1]
            exact hold_allowed_iff.mp (not_not.mp hfree)
        · rw [if_neg hhold]
          exact safe_settled hs₁ resBadCmd
  · rw [if_neg hset]
    by_cases hestop : cmd.cmd = cmdEstop
    · rw [if_pos hestop]
      exact estop_command_safe hestop hs₁
    · rw [if_neg hestop]
      by_cases hreset : cmd.cmd = cmdReset
      · rw [if_pos hreset]
        exact reset_command_safe hreset
      · rw [if_neg hreset]
        split
        · exact safe_settled hs₁ resOk
        · exact safe_settled hs₁ resBadCmd

theorem answer_command_safe {g : Shadow} {w : Words} (got : Option Cmd) (hs : Settled g w) :
    Safe wordMemory supervisorContract (SettledAfter Unit) g (answerCommand got) w := by
  cases got with
  | none => exact safe_settled hs ()
  | some cmd =>
    refine (serve_command_safe cmd hs).bind (fun g _ w hs => ?_)
    refine safe_step (fun w₁ hr₁ _ => ⟨trivial, ?_⟩)
    refine safe_step (fun w₂ hr₂ _ => ⟨trivial, ?_⟩)
    exact safe_settled ((hs.undisturbed hr₁).undisturbed hr₂) ()

section Checks

variable {F : Type*} {g : Shadow} {w : Words}

theorem check_stall_safe (l : Locals) (now : ℤ) (s : Sample F) (hs : Settled g w) :
    Safe wordMemory supervisorContract (SettledAfter Locals) g (checkStall l now s) w := by
  unfold checkStall
  split
  · exact safe_settled hs _
  · split
    · refine (raise_fault_safe (by decide) (by decide) (by decide) hs).bind (fun g _ w hs => ?_)
      exact safe_settled hs l
    · exact safe_settled hs l

theorem check_comm_safe (c : Ctx) (s : Sample F) (hs : Settled g w) :
    Safe wordMemory supervisorContract (SettledAfter Unit) g (checkComm c s) w := by
  refine (raise_when_safe (by decide) (by decide) (by decide) hs).bind (fun g _ w hs => ?_)
  exact raise_when_safe (by decide) (by decide) (by decide) hs

theorem check_servos_safe (c : Ctx) (l : Locals) (s : Sample F) (hs : Settled g w) :
    Safe wordMemory supervisorContract (SettledAfter Locals) g (checkServos c l s) w := by
  unfold checkServos
  split
  · refine (raise_when_safe (by decide) (by decide) (by decide) hs).bind (fun g _ w hs => ?_)
    refine (raise_when_safe (by decide) (by decide) (by decide) hs).bind (fun g _ w hs => ?_)
    exact safe_settled hs _
  · exact safe_settled hs l

theorem check_overruns_safe (l : Locals) (now : ℤ) (s : Sample F) (hs : Settled g w) :
    Safe wordMemory supervisorContract (SettledAfter Locals) g (checkOverruns l now s) w := by
  unfold checkOverruns
  split
  · refine (raise_when_safe (by decide) (by decide) (fun _ => rfl) hs).bind (fun g _ w hs => ?_)
    exact safe_settled hs _
  · exact safe_settled hs l

theorem supervisor_thread_safe (c : Ctx) (l : Locals) (wake : Wakeup F) (hs : Settled g w) :
    Safe wordMemory supervisorContract (SettledAfter Locals) g (supervisorThread c l wake) w := by
  refine (answer_command_safe wake.got hs).bind (fun g _ w hs => ?_)
  cases wake.snapshot with
  | none => exact safe_settled hs l
  | some s =>
    refine (check_stall_safe l wake.now s hs).bind (fun g l w hs => ?_)
    refine (check_comm_safe c s hs).bind (fun g _ w hs => ?_)
    refine (check_servos_safe c l s hs).bind (fun g l w hs => ?_)
    refine (check_overruns_safe l wake.now s hs).bind (fun g l w hs => ?_)
    refine safe_step (fun w₁ hr _ => ⟨trivial, ?_⟩)
    exact safe_settled (hs.undisturbed hr) l

end Checks

end SupervisorInterlock
