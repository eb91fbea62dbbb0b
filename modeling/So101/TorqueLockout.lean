import So101.SupervisorFaults
import So101.WriteDiscipline

/-!
# The torque lock-out of the whole daemon

Supervisor and control thread over the same words, interleaved access by access. A
forced mode keeps the mode word at or below IDLE until a TELEOP or HOLD is granted, and
the latched fault behind it lets none be granted before a RESET.
-/
namespace TorqueLockout

open GuardedMachine AtomicProgram SharedMemory SupervisorThread SupervisorInterlock
open SupervisorFaults ServoBus ControlThread WriteDiscipline
open Calibration (CFloat)

abbrev ControlLocals (F : Type) := Control F × List BusOp

section Phases

variable {F : Type}

/-- Torque is off and neither an enable nor a goal went to the follower. -/
def Quiet (a : ControlLocals F) : Prop :=
  a.1.torque = false ∧ ∀ w sent, .write .follower w sent ∈ a.2 → ¬ w.Enables ∧ ¬ w.IsGoal

/-- What is left of a cycle that has loaded `m`. -/
structure Loaded (m : Mode) (p : Code (ControlLocals F)) : Prop where
  only : p.Only (· ≠ .loadMode)
  good : p.Ensures (fun a => TorqueInMode a.1)
  quiet : m ≤ .idle → p.Ensures Quiet

inductive Phase : Code (ControlLocals F) → Prop where
  | between (a : ControlLocals F) (h : TorqueInMode a.1) : Phase (.ret a)
  | reading (k : Mode → Code (ControlLocals F)) (h : ∀ m, Loaded m (k m)) :
      Phase (.access .loadMode k)
  | loaded (m : Mode) (p : Code (ControlLocals F)) (h : Loaded m p) : Phase p

theorem Loaded.next {m : Mode} {o : Access} {k : o.Res → Code (ControlLocals F)}
    (h : Loaded m (.access o k)) (r : o.Res) : Loaded m (k r) :=
  ⟨h.only.2 r, h.good r, fun hm => h.quiet hm r⟩

theorem Phase.next {o : Access} {k : o.Res → Code (ControlLocals F)}
    (h : Phase (.access o k)) (r : o.Res) : Phase (k r) := by
  cases h with
  | reading _ hk => exact .loaded r _ (hk r)
  | loaded m _ hl => exact .loaded m _ (hl.next r)

theorem Phase.good {a : ControlLocals F} (h : Phase (.ret a)) : TorqueInMode a.1 := by
  cases h with
  | between _ ht => exact ht
  | loaded _ _ hl => exact hl.good

theorem Phase.load {k : Mode → Code (ControlLocals F)} (h : Phase (.access .loadMode k))
    {m : Mode} (hm : m ≤ .idle) : (k m).Ensures Quiet := by
  cases h with
  | reading _ hk => exact (hk m).quiet hm
  | loaded _ _ hl => exact absurd rfl hl.only.1

theorem note_refusal_only {P : Access → Prop} (hset : P (.orFaults .torqueRefused))
    (hclear : P (.andNotFaults .torqueRefused)) (inp : Input) (st : Control F) :
    (noteRefusal inp st).Only P := by
  unfold noteRefusal
  dsimp only
  split_ifs
  · exact ⟨hclear, fun _ => trivial⟩
  · exact ⟨hset, fun _ => trivial⟩
  · trivial

end Phases

section Round

variable {F : Type} [CFloat F] (c : Ctx)

theorem control_round_only (a : ControlLocals F) (inp : Input) :
    (controlRound c a inp).Only RefusedOnly := by
  refine ⟨trivial, fun m => ?_⟩
  exact (note_refusal_only (P := RefusedOnly) rfl rfl _ _).bind
    (fun _ => ⟨trivial, fun _ => trivial⟩)

theorem blocked_of_le_idle {inp : Input} {m : Mode} (h : m ≤ .idle) (hw : inp.modeReq = m.word) :
    Blocked inp := by
  rcases le_idle_iff.mp h with rfl | rfl <;> simp only [Blocked, hw] <;> decide

theorem Phase.start {a : ControlLocals F} (h : Phase (.ret a)) (inp : Input) :
    Phase (controlRound c a inp) := by
  refine .reading _ (fun m => ?_)
  have hany := Prog.ensures_of_forall (P := fun _ => True) (fun _ => trivial)
    (noteRefusal { inp with modeReq := m.word } (readBuses c { inp with modeReq := m.word } a.1).1)
  constructor
  · exact (note_refusal_only (by simp) (by simp) _ _).bind (fun _ => ⟨by simp, fun _ => trivial⟩)
  · exact hany.bind (fun _ _ f => torque_in_mode_next h.good)
  · intro hm
    refine hany.bind (fun _ _ f => ?_)
    exact (disciplined h.good).blocked (blocked_of_le_idle hm rfl)

end Round

section Lockout

variable {F : Type} [CFloat F] {c : Ctx}

abbrev lockDaemon (c : Ctx) (F : Type) [CFloat F] : System Thread Words Access.Res :=
  daemon c F (controlRound (F := F) c)

abbrev lockDiscipline (c : Ctx) (F : Type) [CFloat F] : Discipline (lockDaemon c F) Ghost :=
  discipline c F (controlRound (F := F) c) (control_round_only c)

abbrev Watched (c : Ctx) (F : Type) [CFloat F] :=
  State (lockDaemon c F) × ((i : Thread) → Ghost i)

abbrev watch (c : Ctx) (F : Type) [CFloat F] : Machine (Watched c F) (Event (lockDaemon c F)) :=
  (lockDaemon c F).machine.observe (lockDiscipline c F).track

structure Steady (s : Watched c F) : Prop where
  kept : (lockDiscipline c F).Kept s
  phase : Phase (s.1.prog .control)

theorem steady_next {s : Watched c F} {e : Event (lockDaemon c F)} (h : Steady s)
    (he : (lockDaemon c F).machine.enabled s.1 e) : Steady ((watch c F).next s e) := by
  refine ⟨h.kept.next he, ?_⟩
  have hphase := h.phase
  cases e with
  | start i inp =>
    obtain ⟨a, ha⟩ := start_enabled he
    simp only [watch, Machine.observe, next_start ha]
    cases i with
    | supervisor => simpa using hphase
    | control =>
      rw [ha] at hphase
      rw [Function.update_self]
      exact hphase.start c inp
  | access i o =>
    obtain ⟨k, hk⟩ := access_enabled he
    simp only [watch, Machine.observe, next_access hk]
    cases i with
    | supervisor => simpa using hphase
    | control =>
      rw [hk] at hphase
      rw [Function.update_self]
      exact hphase.next _

abbrev modeStore (c : Ctx) (F : Type) [CFloat F] (site : Site) (m : Mode) :
    Event (lockDaemon c F) := .access .supervisor (.storeMode site m)

def Forced : Site → Prop
  | .command cmd => cmd.cmd = cmdEstop
  | .fault f => f = .stall ∨ f = .followerComm ∨ f = .overtemp ∨ f = .voltage

def Accepts (e : Event (lockDaemon c F)) : Prop :=
  ∃ cmd m, e = modeStore c F (.command cmd) m ∧ cmd.cmd = cmdSetMode ∧ (m = .teleop ∨ m = .hold)

def Resets (e : Event (lockDaemon c F)) : Prop :=
  ∃ cmd m, e = modeStore c F (.command cmd) m ∧ cmd.cmd = cmdReset

/-- A fault that forbids torque is latched, or a RESET is under way. -/
def Locked (g : Shadow) (w : Words) : Prop :=
  (∃ f ∈ latched w.faults, ceiling f ≤ .idle) ∨ g.resetting = true

/-- The mode word asks for no torque. -/
def Low (w : Words) : Prop := w.modeReq ≤ .idle

def LockedIn (s : Watched c F) : Prop := Locked (s.2 .supervisor) s.1.words
def LowIn (s : Watched c F) : Prop := Low s.1.words

theorem Locked.undisturbed {g : Shadow} {w w' : Words} (h : Locked g w)
    (hr : Undisturbed w w') : Locked g w' := by
  unfold Locked
  rwa [hr.2]

theorem Low.undisturbed {w w' : Words} (h : Low w) (hr : Undisturbed w w') : Low w' := by
  unfold Low
  rwa [hr.1]

theorem forced_locks {s : Watched c F} {site : Site} {m : Mode} (hs : Steady s)
    (hforced : Forced site) (he : (lockDaemon c F).machine.enabled s.1 (modeStore c F site m)) :
    LockedIn ((watch c F).next s (modeStore c F site m)) ∧
      LowIn ((watch c F).next s (modeStore c F site m)) := by
  have hp : Promised _ _ _ := hs.kept.guarantee he
  have hnext : ((watch c F).next s (modeStore c F site m)).1.words =
      { s.1.words with modeReq := m } := words_access he
  unfold LockedIn LowIn Locked Low
  rw [hnext]
  cases site with
  | fault f =>
    obtain ⟨hhas, rfl, _⟩ := hp
    have hne : f ≠ .torqueRefused := by
      rintro rfl
      rcases hforced with h | h | h | h <;> cases h
    have hlow : ceiling f ≤ .idle := by
      rcases hforced with rfl | rfl | rfl | rfl <;> decide
    exact ⟨Or.inl ⟨f, mem_latched.mpr ⟨hne, hhas⟩, hlow⟩, hlow⟩
  | command cmd =>
    change cmd.cmd = cmdEstop at hforced
    rcases hp with ⟨hcmd, _⟩ | ⟨_, rfl, hhas⟩ | ⟨hcmd, _⟩
    · rw [hforced] at hcmd
      exact absurd hcmd (by decide)
    · have hlow : Mode.estop ≤ .idle := by decide
      exact ⟨Or.inl ⟨.estop, mem_latched.mpr ⟨by decide, hhas⟩, by decide⟩, hlow⟩
    · rw [hforced] at hcmd
      exact absurd hcmd (by decide)

theorem promised_locked {g : Shadow} {w : Words} {o : Access} (hp : Promised g w o)
    (hno : ∀ cmd m, o = .storeMode (.command cmd) m → cmd.cmd ≠ cmdReset) (h : Locked g w) :
    Locked (shadowStep g o) (wordMemory.update w o) := by
  cases o with
  | loadMode => exact h
  | loadFaults => exact h
  | addBeat => exact h
  | ackResult r => exact h
  | ackId id => exact h
  | andNotFaults f => exact hp.elim
  | storeFaults cmd v => exact Or.inr rfl
  | orFaults f =>
    rcases h with ⟨f', hf', hle⟩ | hreset
    · left
      refine ⟨f', ?_, hle⟩
      change f' ∈ latched (w.faults ||| f.bit)
      rw [latched_or hp]
      exact Finset.mem_insert_of_mem hf'
    · exact Or.inr hreset
  | storeMode site m =>
    cases site with
    | fault f => exact h
    | command cmd =>
      rcases h with hfault | hreset
      · exact Or.inl hfault
      · right
        simp [shadowStep, hreset, hno cmd m rfl]

theorem promised_low {g : Shadow} {w : Words} {o : Access} (hp : Promised g w o)
    (hno : ∀ cmd m, o = .storeMode (.command cmd) m → cmd.cmd = cmdSetMode →
      ¬ (m = .teleop ∨ m = .hold)) (h : Low w) : Low (wordMemory.update w o) := by
  cases o with
  | loadMode => exact h
  | loadFaults => exact h
  | addBeat => exact h
  | ackResult r => exact h
  | ackId id => exact h
  | andNotFaults f => exact h
  | storeFaults cmd v => exact h
  | orFaults f => exact h
  | storeMode site m =>
    change m ≤ .idle
    cases site with
    | fault f => exact hp.2.2.le.trans h
    | command cmd =>
      rcases hp with ⟨hcmd, _⟩ | ⟨_, rfl, _⟩ | ⟨_, rfl⟩
      · have hnot := hno cmd m rfl hcmd
        cases m <;> first | decide | exact absurd (by decide) hnot
      · decide
      · decide

/-- The lock through one step of either thread. -/
theorem locked_next {s : Watched c F} {e : Event (lockDaemon c F)} (hs : Steady s)
    (he : (lockDaemon c F).machine.enabled s.1 e) (hno : ¬ Resets e)
    (h : LockedIn s) : LockedIn ((watch c F).next s e) := by
  cases e with
  | start i inp =>
    change Locked (s.2 .supervisor) ((lockDaemon c F).machine.next s.1 (.start i inp)).words
    rwa [words_start]
  | access i o =>
    have hp := hs.kept.guarantee he
    cases i with
    | supervisor =>
      change Locked (shadowStep (s.2 .supervisor) o)
        ((lockDaemon c F).machine.next s.1 (.access .supervisor o)).words
      rw [words_access he]
      exact promised_locked hp (fun cmd m ho hcmd => hno ⟨cmd, m, by rw [ho], hcmd⟩) h
    | control =>
      change Locked (s.2 .supervisor)
        ((lockDaemon c F).machine.next s.1 (.access .control o)).words
      rw [words_access he]
      exact h.undisturbed (refused_undisturbed hp s.1.words)

theorem low_next {s : Watched c F} {e : Event (lockDaemon c F)} (hs : Steady s)
    (he : (lockDaemon c F).machine.enabled s.1 e) (hno : ¬ Accepts e) (h : LowIn s) :
    LowIn ((watch c F).next s e) := by
  change Low ((lockDaemon c F).machine.next s.1 e).words
  cases e with
  | start i inp => rwa [words_start]
  | access i o =>
    have hp := hs.kept.guarantee he
    rw [words_access he]
    cases i with
    | supervisor =>
      exact promised_low hp (fun cmd m ho hcmd hm => hno ⟨cmd, m, by rw [ho], hcmd, hm⟩) h
    | control => exact h.undisturbed (refused_undisturbed hp s.1.words)

theorem locked_refuses {s : Watched c F} {e : Event (lockDaemon c F)} (hs : Steady s)
    (h : LockedIn s) (he : (lockDaemon c F).machine.enabled s.1 e) : ¬ Accepts e := by
  rintro ⟨cmd, m, rfl, hcmd, hm⟩
  have hp : Promised (s.2 .supervisor) s.1.words (.storeMode (.command cmd) m) :=
    hs.kept.guarantee he
  rcases hp with ⟨_, _, _, _, hcap, hfree⟩ | ⟨hcmd', _⟩ | ⟨hcmd', _⟩
  · rcases h with ⟨f, hf, hle⟩ | hreset
    · have hidle := (Interlock.le_cap_iff.mp hcap f hf).trans hle
      rcases hm with rfl | rfl <;> exact absurd hidle (by decide)
    · rw [hfree] at hreset
      cases hreset
  · rw [hcmd] at hcmd'
    exact absurd hcmd' (by decide)
  · rw [hcmd] at hcmd'
    exact absurd hcmd' (by decide)

/-- A cycle that loads a low mode is quiet, whatever else it meets. -/
theorem load_quiet {s : Watched c F} (hs : Steady s) (hlow : LowIn s)
    (he : (lockDaemon c F).machine.enabled s.1 (.access .control .loadMode)) :
    (((watch c F).next s (.access .control .loadMode)).1.prog .control).Ensures Quiet := by
  obtain ⟨k, hk⟩ := access_enabled he
  have hphase := hs.phase
  rw [hk] at hphase
  simp only [watch, Machine.observe, next_access hk, Function.update_self]
  exact hphase.load hlow

theorem quiet_next {s : Watched c F} {e : Event (lockDaemon c F)}
    (he : (lockDaemon c F).machine.enabled s.1 e) (hno : ∀ inp, e ≠ .start .control inp)
    (h : (s.1.prog .control).Ensures Quiet) :
    (((watch c F).next s e).1.prog .control).Ensures Quiet := by
  cases e with
  | start i inp =>
    obtain ⟨a, ha⟩ := start_enabled he
    simp only [watch, Machine.observe, next_start ha]
    cases i with
    | supervisor => simpa using h
    | control => exact absurd rfl (hno inp)
  | access i o =>
    obtain ⟨k, hk⟩ := access_enabled he
    simp only [watch, Machine.observe, next_access hk]
    cases i with
    | supervisor => simpa using h
    | control =>
      rw [hk] at h
      rw [Function.update_self]
      exact h _

theorem steady_boot (l : Locals) (now : ℤ) {w : Words} (hf : w.faults = 0)
    (hm : w.modeReq ≠ .estop) :
    Steady (boot c F (controlRound c) l (startControl c now, []) w,
      ghost ⟨⟨latched w.faults, w.modeReq⟩, false⟩) := by
  refine ⟨boot_kept _ l _ (clamped_boot hf hm), .between _ ?_⟩
  intro ht
  cases ht

/-- After a forced mode the lock holds until a RESET. -/
theorem locked_since {s : Watched c F} {pre mid : List (Event (lockDaemon c F))} {site : Site}
    {m : Mode} (h : Steady s) (hv : (watch c F).Valid s (pre ++ modeStore c F site m :: mid))
    (hforced : Forced site) (hno : ∀ e ∈ mid, ¬ Resets e) :
    Steady ((watch c F).run s (pre ++ modeStore c F site m :: mid)) ∧
      LockedIn ((watch c F).run s (pre ++ modeStore c F site m :: mid)) := by
  have hI : ∀ s e, Steady s → (watch c F).enabled s e → Steady ((watch c F).next s e) :=
    fun _ _ h he => steady_next h he
  have hx : ∀ s, Steady s → (watch c F).enabled s (modeStore c F site m) →
      LockedIn ((watch c F).next s (modeStore c F site m)) :=
    fun _ h he => (forced_locks h hforced he).1
  have hJ : ∀ s e, Steady s → (watch c F).enabled s e → ¬ Resets e → LockedIn s →
      LockedIn ((watch c F).next s e) := fun _ _ h he hr hl => locked_next h he hr hl
  exact since hI hx hJ h hv hno

theorem low_since {s : Watched c F} {pre mid : List (Event (lockDaemon c F))} {site : Site}
    {m : Mode} (h : Steady s) (hv : (watch c F).Valid s (pre ++ modeStore c F site m :: mid))
    (hforced : Forced site) (hno : ∀ e ∈ mid, ¬ Accepts e) :
    Steady ((watch c F).run s (pre ++ modeStore c F site m :: mid)) ∧
      LowIn ((watch c F).run s (pre ++ modeStore c F site m :: mid)) := by
  have hI : ∀ s e, Steady s → (watch c F).enabled s e → Steady ((watch c F).next s e) :=
    fun _ _ h he => steady_next h he
  have hx : ∀ s, Steady s → (watch c F).enabled s (modeStore c F site m) →
      LowIn ((watch c F).next s (modeStore c F site m)) :=
    fun _ h he => (forced_locks h hforced he).2
  have hJ : ∀ s e, Steady s → (watch c F).enabled s e → ¬ Accepts e → LowIn s →
      LowIn ((watch c F).next s e) := fun _ _ h he ha hl => low_next h he ha hl
  exact since hI hx hJ h hv hno

theorem quiet_since {s : Watched c F} {rest : List (Event (lockDaemon c F))} (hs : Steady s)
    (hlow : LowIn s) (hv : (watch c F).Valid s (.access .control .loadMode :: rest))
    (hno : ∀ inp, .start .control inp ∉ rest) :
    (((watch c F).run s (.access .control .loadMode :: rest)).1.prog .control).Ensures Quiet := by
  have hstep : ∀ s e, (s.1.prog .control).Ensures Quiet → (watch c F).enabled s e →
      (∀ inp, e ≠ .start .control inp) →
      (((watch c F).next s e).1.prog .control).Ensures Quiet :=
    fun _ _ h he hne => quiet_next he hne h
  refine invariant_along (I := fun s => (s.1.prog .control).Ensures Quiet) hstep
    (load_quiet hs hlow hv.1) hv.2
    (along_of_forall ?_)
  rintro e he _ inp rfl
  exact hno inp he

/-- The lock-out in every interleaving: after a forced mode, nothing is granted before a
RESET, and every cycle that loads the mode before the next grant is quiet. -/
theorem torque_lockout (c : Ctx) (F : Type) [CFloat F] (l : Locals) (now : ℤ) {w : Words}
    (hf : w.faults = 0) (hm : w.modeReq ≠ .estop) {es : List (Event (lockDaemon c F))}
    (hv : (lockDaemon c F).machine.Valid
      (boot c F (controlRound c) l (startControl c now, []) w) es) :
    (∀ pre site m mid e post, es = pre ++ modeStore c F site m :: mid ++ e :: post →
      Forced site → Accepts e → ∃ r ∈ mid, Resets r) ∧
    (∀ pre site m mid rest a,
      es = pre ++ modeStore c F site m :: mid ++ .access .control .loadMode :: rest →
      Forced site → (∀ e ∈ mid, ¬ Accepts e) → (∀ inp, .start .control inp ∉ rest) →
      ((lockDaemon c F).machine.run
        (boot c F (controlRound c) l (startControl c now, []) w) es).prog .control = .ret a →
      Quiet a) := by
  have hboot := steady_boot (c := c) (F := F) l now hf hm
  have hv' : (watch c F).Valid (_, ghost ⟨⟨latched w.faults, w.modeReq⟩, false⟩) es :=
    observe_valid hv
  constructor
  · rintro pre site m mid e post rfl hforced haccept
    by_contra hno
    obtain ⟨hmid, he, _⟩ := along_append.mp hv'
    obtain ⟨hs, hlocked⟩ := locked_since hboot hmid hforced (fun r hr hreset => hno ⟨r, hr, hreset⟩)
    exact locked_refuses hs hlocked he haccept
  · rintro pre site m mid rest a rfl hforced hquiet hno hdone
    obtain ⟨hmid, hload⟩ := along_append.mp hv'
    obtain ⟨hs, hlow⟩ := low_since hboot hmid hforced hquiet
    have hfinal := quiet_since hs hlow hload hno
    rw [← run_append, observe_run] at hfinal
    simp only [hdone] at hfinal
    exact hfinal

def fullCtx : Ctx := Ctx.default Calibration.fullRange Calibration.fullRange

def heldBoot : State (lockDaemon fullCtx ℚ) :=
  boot fullCtx ℚ (controlRound fullCtx) ⟨0, 0, 0, 0, 0, 0⟩ (startControl fullCtx 0, [])
    ⟨.hold, 0, 0, ⟨0, 0⟩⟩

def holdCycle : List (Event (lockDaemon fullCtx ℚ)) :=
  [.start .control quietInput, .access .control .loadMode,
    .access .control (.andNotFaults .torqueRefused), .access .control .loadFaults]

def stopCmd : Cmd := ⟨7, cmdEstop, 0, 100⟩

/-- A cycle that switches torque on, an ESTOP up to its mode store, and another cycle. -/
def stopThenCycle : List (Event (lockDaemon fullCtx ℚ)) :=
  holdCycle ++ [.start .supervisor ⟨some stopCmd, 20, none⟩, .access .supervisor .loadFaults,
    .access .supervisor (.orFaults .estop), modeStore fullCtx ℚ (.command stopCmd) .estop,
    .start .control quietInput, .access .control .loadMode, .access .control .loadFaults]

theorem torque_lockout_stop :
    (∃ b, ((lockDaemon fullCtx ℚ).machine.run heldBoot holdCycle).prog .control = .ret b ∧
      b.1.torque = true) ∧
    ∃ a, ((lockDaemon fullCtx ℚ).machine.run heldBoot stopThenCycle).prog .control = .ret a ∧
      Quiet a := by
  have hv : (lockDaemon fullCtx ℚ).machine.Valid heldBoot stopThenCycle :=
    ⟨rfl, rfl, rfl, rfl, rfl, rfl, rfl, rfl, rfl, rfl, rfl, trivial⟩
  have hend : ∃ a, ((lockDaemon fullCtx ℚ).machine.run heldBoot stopThenCycle).prog .control =
      .ret a := ⟨_, rfl⟩
  have hmode : (⟨.hold, 0, 0, ⟨0, 0⟩⟩ : Words).modeReq ≠ .estop := by decide
  have hsplit : stopThenCycle = stopThenCycle.take 7 ++
      modeStore fullCtx ℚ (.command stopCmd) .estop :: [.start .control quietInput] ++
      .access .control .loadMode :: [.access .control .loadFaults] := rfl
  have hforced : Forced (.command stopCmd) := rfl
  have hno : ∀ e ∈ ([.start .control quietInput] : List (Event (lockDaemon fullCtx ℚ))),
      ¬ Accepts e := by
    rintro e he ⟨cmd, m, rfl, _⟩
    simp at he
  refine ⟨⟨_, rfl, rfl⟩, ?_⟩
  obtain ⟨a, ha⟩ := hend
  obtain ⟨_, hquiet⟩ := torque_lockout fullCtx ℚ _ 0 rfl hmode hv
  rw [← heldBoot] at hquiet
  exact ⟨a, ha, hquiet _ _ _ _ _ a hsplit hforced hno (by simp) ha⟩

end Lockout

end TorqueLockout
