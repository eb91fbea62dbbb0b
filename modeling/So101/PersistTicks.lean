import So101.PersistentCause

/-!
# Persistence counted in cycles

`temp_ticks` and `volt_ticks` count rounds, and a command starts a round at any moment. What
they have counted comes from as many control cycles only where no cycle is counted twice.
-/
namespace PersistTicks

open GuardedMachine AtomicProgram SharedMemory SupervisorThread SupervisorInterlock
open SupervisorFaults TorqueLockout ControlThread PersistentCause
open Calibration (CFloat)

section Rounds

variable {F : Type*} (c : Ctx) (l : Locals) (wake : Wakeup F)

def ServoFault (f : Fault) : Prop := f = .overtemp ∨ f = .voltage

def Due (o : Access) : Prop :=
  ∀ f, o = .orFaults f → ServoFault f → ∃ s, wake.snapshot = some s ∧ Present c l wake.now s f

variable {c l wake}

theorem due_of_ne {o : Access} (h : ∀ f, ServoFault f → o ≠ .orFaults f) : Due c l wake o :=
  fun f ho hf => absurd ho (h f hf)

theorem due_or {f : Fault} (hf : ¬ ServoFault f) : Due c l wake (.orFaults f) := by
  apply due_of_ne
  rintro e he ho
  cases ho
  exact hf he

theorem serve_command_due (cmd : Cmd) : (serveCommand cmd).Only (Due c l wake) := by
  apply serve_command_only
  · exact due_of_ne fun _ _ h => by cases h
  · exact due_of_ne fun _ _ h => by cases h
  · exact fun _ => due_of_ne fun _ _ h => by cases h
  · exact due_or (by simp [ServoFault])
  · exact due_of_ne fun _ _ h => by cases h

theorem raise_fault_due {f : Fault} (hf : Due c l wake (.orFaults f)) (force : Bool) (safe : Mode) :
    (raiseFault f force safe).Only (Due c l wake) := by
  apply raise_fault_only hf
  · exact due_of_ne fun _ _ h => by cases h
  · exact due_of_ne fun _ _ h => by cases h

theorem raise_when_due {p : Prop} [Decidable p] {f : Fault} (hf : p → Due c l wake (.orFaults f))
    (force : Bool) (safe : Mode) : (raiseWhen p f force safe).Only (Due c l wake) :=
  raise_when_only fun hp => raise_fault_due (hf hp) force safe

theorem check_stall_due (s : Sample F) : (checkStall l wake.now s).Only (Due c l wake) := by
  apply Prog.Only.ite <;> intro _
  · trivial
  · apply Prog.Only.ite <;> intro _
    · exact (raise_fault_due (due_or (by simp [ServoFault])) true .estop).bind fun _ => trivial
    · trivial

theorem check_comm_due (s : Sample F) : (checkComm c s).Only (Due c l wake) :=
  (raise_when_due (fun _ => due_or (by simp [ServoFault])) true .hold).bind fun _ =>
    raise_when_due (fun _ => due_or (by simp [ServoFault])) true .idle

theorem counted {cause : Prop} [Decidable cause] {n : ℤ}
    (h : (if cause then int32 (n + 1) else 0) ≥ persistTicks) :
    cause ∧ int32 (n + 1) ≥ persistTicks := by
  by_cases hcause : cause
  · rw [if_pos hcause] at h
    exact ⟨hcause, h⟩
  · rw [if_neg hcause] at h
    exact absurd h (by decide)

theorem check_servos_due {s : Sample F} (hsnap : wake.snapshot = some s) :
    (checkServos c (stallLocals l wake.now s) s).Only (Due c l wake) := by
  obtain ⟨htemp, hvolt⟩ := stall_locals_ticks l wake.now s
  apply Prog.Only.ite <;> intro hok
  · rw [htemp, hvolt]
    have hhot : (if hot c s then int32 (l.tempTicks + 1) else 0) ≥ persistTicks →
        Due c l wake (.orFaults .overtemp) := by
      intro hticks f ho _
      cases ho
      exact ⟨s, hsnap, hok, counted hticks⟩
    have hbad : (if badVolt c s then int32 (l.voltTicks + 1) else 0) ≥ persistTicks →
        Due c l wake (.orFaults .voltage) := by
      intro hticks f ho _
      cases ho
      exact ⟨s, hsnap, hok, counted hticks⟩
    exact (raise_when_due hhot true .idle).bind fun _ =>
      (raise_when_due hbad true .idle).bind fun _ => trivial
  · trivial

theorem check_overruns_due (l' : Locals) (s : Sample F) :
    (checkOverruns l' wake.now s).Only (Due c l wake) := by
  apply Prog.Only.ite <;> intro _
  · exact (raise_when_due (fun _ => due_or (by simp [ServoFault])) false .idle).bind
      fun _ => trivial
  · trivial

theorem supervisor_thread_due : (supervisorThread c l wake).Only (Due c l wake) := by
  have hanswer : (answerCommand wake.got).Only (Due c l wake) := by
    cases wake.got with
    | none => trivial
    | some cmd =>
      have hresult : ∀ res, Due c l wake (.ackResult res) :=
        fun _ => due_of_ne fun _ _ h => by cases h
      have hid : Due c l wake (.ackId cmd.id) := due_of_ne fun _ _ h => by cases h
      exact (serve_command_due cmd).bind fun res => ⟨hresult res, fun _ => ⟨hid, fun _ => trivial⟩⟩
  refine hanswer.bind fun _ => ?_
  cases hsnap : wake.snapshot with
  | none => trivial
  | some s =>
    refine (check_stall_due s).bind_of_ensures (check_stall_ensures l wake.now s) ?_
    rintro _ rfl
    refine (check_comm_due s).bind fun _ => ?_
    refine (check_servos_due hsnap).bind fun l₂ => ?_
    refine (check_overruns_due l₂ s).bind fun l₃ => ?_
    have hbeat : Due c l wake .addBeat := due_of_ne fun _ _ h => by cases h
    exact ⟨hbeat, fun _ => trivial⟩

end Rounds

section Streaks

variable {F : Type*} (c : Ctx)

/-- What `temp_ticks` and `volt_ticks` look for in a snapshot. -/
def OutOfRange : Fault → Sample F → Prop
  | .overtemp => hot c
  | .voltage => badVolt c
  | _ => fun _ => False

instance (f : Fault) : DecidablePred (OutOfRange (F := F) c f) := fun s =>
  match f with
  | .overtemp => inferInstanceAs (Decidable (hot c s))
  | .voltage => inferInstanceAs (Decidable (badVolt c s))
  | .leaderComm | .followerComm | .overrun | .stall | .estop | .torqueRefused =>
    inferInstanceAs (Decidable False)

/-- The snapshots out of range since the last one in range, those without the follower aside. -/
def streak (f : Fault) (hist : List (Wakeup F)) : List (Sample F) :=
  (okSnapshots hist).rtakeWhile fun s => OutOfRange c f s

/-- The condition has been seen in five different control cycles without a break. -/
def SeenInFive (f : Fault) (hist : List (Wakeup F)) : Prop :=
  persistTicks ≤ ((streak c f hist).map Sample.cycle).toFinset.card

/-- While fewer than five samples are counted, the round counts none of a cycle that it has
counted already. -/
def CountsOnce (f : Fault) (hist : List (Wakeup F)) (wake : Wakeup F) : Prop :=
  ∀ s, wake.snapshot = some s → s.followerOk = true → OutOfRange c f s →
    (streak c f hist).length < persistTicks → s.cycle ∉ (streak c f hist).map Sample.cycle

theorem streak_counted {f : Fault} (hist : List (Wakeup F)) {wake : Wakeup F} {s : Sample F}
    (hsnap : wake.snapshot = some s) (hok : s.followerOk = true) (hs : OutOfRange c f s) :
    streak c f (hist ++ [wake]) = streak c f hist ++ [s] := by
  unfold streak
  rw [ok_snapshots_append, ok_snapshots_one hsnap hok]
  exact List.rtakeWhile_concat_pos _ _ _ (decide_eq_true hs)

theorem streak_append (f : Fault) (hist : List (Wakeup F)) (wake : Wakeup F) :
    streak c f (hist ++ [wake]) = streak c f hist ∨
      (∃ s, wake.snapshot = some s ∧ s.followerOk = true ∧ OutOfRange c f s ∧
        streak c f (hist ++ [wake]) = streak c f hist ++ [s]) ∨
      streak c f (hist ++ [wake]) = [] := by
  by_cases hnone : okSnapshots [wake] = []
  · left
    unfold streak
    rw [ok_snapshots_append, hnone, List.append_nil]
  · right
    obtain ⟨s, hsnap, hok⟩ : ∃ s, wake.snapshot = some s ∧ s.followerOk = true := by
      cases hsnap : wake.snapshot with
      | none => exact absurd (by simp [okSnapshots, hsnap]) hnone
      | some s =>
        by_cases hok : s.followerOk = true
        · exact ⟨s, rfl, hok⟩
        · exact absurd (by simp [okSnapshots, hsnap, hok]) hnone
    by_cases hs : OutOfRange c f s
    · exact Or.inl ⟨s, hsnap, hok, hs, streak_counted c hist hsnap hok hs⟩
    · right
      unfold streak
      rw [ok_snapshots_append, ok_snapshots_one hsnap hok]
      exact List.rtakeWhile_concat_neg _ _ _ (by simpa using hs)

/-- As long as no round counts a cycle again, the first five counted are five cycles. -/
theorem cycles_of_streak {f : Fault} {hist : List (Wakeup F)}
    (honce : ∀ before wake after, hist = before ++ wake :: after → CountsOnce c f before wake) :
    min persistTicks (streak c f hist).length ≤
      ((streak c f hist).map Sample.cycle).toFinset.card := by
  induction hist using List.reverseRecOn with
  | nil => simp [streak, okSnapshots]
  | append_singleton hist wake ih =>
    have hbefore := ih fun before wake' after h =>
      honce before wake' (after ++ [wake]) (by rw [h]; simp)
    rcases streak_append c f hist wake with h | ⟨s, hsnap, hok, hs, h⟩ | h
    · rwa [h]
    · rw [h, List.length_append, List.map_append, List.toFinset_append]
      by_cases hfew : (streak c f hist).length < persistTicks
      · have hnew := honce hist wake [] rfl s hsnap hok hs hfew
        have hdisj : Disjoint ((streak c f hist).map Sample.cycle).toFinset
            ([s].map Sample.cycle).toFinset := by
          simpa using hnew
        rw [Finset.card_union_of_disjoint hdisj]
        simp only [List.map_cons, List.map_nil, List.toFinset_cons, List.toFinset_nil,
          List.length_singleton, insert_empty_eq, Finset.card_singleton]
        omega
      · have hsub : ((streak c f hist).map Sample.cycle).toFinset ⊆
            ((streak c f hist).map Sample.cycle).toFinset ∪ ([s].map Sample.cycle).toFinset :=
          Finset.subset_union_left
        have hcard := Finset.card_le_card hsub
        omega
    · rw [h]
      exact (min_le_right _ _).trans (Nat.zero_le _)

/-- A counter that has got to five has counted five, also where it has wrapped. -/
theorem length_of_counted {n : ℕ} (h : int32 (n + 1) ≥ persistTicks) : persistTicks ≤ n + 1 := by
  by_contra! hfew
  rw [persistTicks] at hfew
  rw [int32_of_mem (by omega) (by omega), persistTicks] at h
  omega

theorem present_streak {l : Locals} (htemp : l.tempTicks = 0) (hvolt : l.voltTicks = 0) {f : Fault}
    (hf : ServoFault f) (hist : List (Wakeup F)) {wake : Wakeup F} {s : Sample F}
    (hsnap : wake.snapshot = some s) (h : Present c (afterRounds c l hist) wake.now s f) :
    persistTicks ≤ (streak c f (hist ++ [wake])).length := by
  rcases hf with rfl | rfl
  · obtain ⟨hok, hcause, hticks⟩ := h
    have hcount := after_rounds_ticks c (fun l wake => (next_locals_ticks c l wake).1) l hist
    rw [hcount, htemp, ticks_eq, int32_add_one] at hticks
    have hnext := streak_counted c (f := .overtemp) hist hsnap hok hcause
    rw [hnext, List.length_append]
    exact length_of_counted hticks
  · obtain ⟨hok, hcause, hticks⟩ := h
    have hcount := after_rounds_ticks c (fun l wake => (next_locals_ticks c l wake).2) l hist
    rw [hcount, hvolt, ticks_eq, int32_add_one] at hticks
    have hnext := streak_counted c (f := .voltage) hist hsnap hok hcause
    rw [hnext, List.length_append]
    exact length_of_counted hticks

end Streaks

section Runs

variable {c : Ctx} {F L I : Type} {ctl : L → I → Code L}

/-- A servo fault is raised only after five snapshots out of range. -/
def Backed (c : Ctx) (hist : List (Wakeup F)) (o : Access) : Prop :=
  ∀ f, o = .orFaults f → ServoFault f → persistTicks ≤ (streak c f hist).length

theorem backed_run {s : State (daemon c F ctl)} {l : Locals} (htemp : l.tempTicks = 0)
    (hvolt : l.voltTicks = 0) (hl : s.prog .supervisor = .ret l)
    {es : List (Event (daemon c F ctl))} (hv : (daemon c F ctl).machine.Valid s es) :
    (((daemon c F ctl).machine.run s es).prog .supervisor).Only (Backed c (rounds es)) := by
  induction es using List.reverseRecOn with
  | nil =>
    rw [run_nil, hl]
    trivial
  | append_singleton es e ih =>
    obtain ⟨hes, he, _⟩ := along_append.mp hv
    have hbacked := ih hes
    rw [run_append]
    by_cases hstart : ∃ wake, e = .start .supervisor wake
    · obtain ⟨wake, rfl⟩ := hstart
      obtain ⟨l₁, hl₁⟩ := start_enabled he
      have hlocals : (s.prog .supervisor).Ensures (· = l) := by
        rw [hl]
        exact rfl
      have hpast := locals_of_run hlocals hes
      rw [hl₁] at hpast
      obtain rfl : l₁ = afterRounds c l (rounds es) := hpast
      rw [run_cons, run_nil, rounds_append]
      simp only [next_start hl₁, Function.update_self]
      refine supervisor_thread_due.imp fun o ho f hof hf => ?_
      obtain ⟨snap, hsnap, hpresent⟩ := ho f hof hf
      exact present_streak c htemp hvolt hf (rounds es) hsnap hpresent
    · have hne : ∀ wake, e ≠ .start .supervisor wake := fun wake h => hstart ⟨wake, h⟩
      have hround : rounds (es ++ [e]) = rounds es := by
        have hnone : rounds [e] = [] := List.filterMap_cons_none (round_other hne)
        rw [rounds_append, hnone, List.append_nil]
      rw [hround]
      exact only_next he hne hbacked

variable {hctl : ∀ a inp, (ctl a inp).Only RefusedOnly}

theorem raised_by {s : State (daemon c F ctl)} {g : (i : Thread) → Ghost i}
    (hkept : (discipline c F ctl hctl).Kept (s, g)) {e : Event (daemon c F ctl)}
    (he : (daemon c F ctl).machine.enabled s e) {f : Fault} (hf : ServoFault f)
    (hoff : ¬ Has s.words.faults f)
    (hon : Has ((daemon c F ctl).machine.next s e).words.faults f) :
    e = .access .supervisor (.orFaults f) := by
  cases e with
  | start i inp =>
    rw [words_start] at hon
    exact absurd hon hoff
  | access i o =>
    have hg := hkept.guarantee he
    rw [words_access he] at hon
    change Has (wordMemory.update s.words o).faults f at hon
    cases i with
    | control =>
      have hne : f ≠ .torqueRefused := by rcases hf with rfl | rfl <;> decide
      obtain ⟨_, hlatched⟩ := refused_undisturbed hg s.words
      have hmem := mem_latched.mpr ⟨hne, hon⟩
      rw [hlatched] at hmem
      exact absurd (mem_latched.mp hmem).2 hoff
    | supervisor =>
      cases o with
      | orFaults e =>
        rcases has_or.mp hon with h | rfl
        · exact absurd h hoff
        · rfl
      | storeFaults cmd v =>
        obtain ⟨_, rfl⟩ := hg
        exact absurd hon (not_has_zero f)
      | andNotFaults e => exact hg.elim
      | _ => exact absurd hon hoff

end Runs

/-- Where no sample out of range is counted a second time, a servo fault comes on only after
five control cycles have shown its condition without a break. -/
theorem persistence_in_cycles (c : Ctx) (F : Type) [CFloat F] (start t0 t1 : ℤ) {w : Words}
    (hf : w.faults = 0) (hm : w.modeReq ≠ .estop) {es : List (Event (lockDaemon c F))}
    (hv : (lockDaemon c F).machine.Valid
      (boot c F (controlRound c) (startLocals t0 t1) (startControl c start, []) w) es)
    {f : Fault} (hservo : ServoFault f)
    (honce : ∀ before wake after, rounds es = before ++ wake :: after → CountsOnce c f before wake)
    {pre post : List (Event (lockDaemon c F))} {e : Event (lockDaemon c F)}
    (hes : es = pre ++ e :: post) :
    let d := (lockDaemon c F).machine.run
      (boot c F (controlRound c) (startLocals t0 t1) (startControl c start, []) w) pre
    ¬ Has d.words.faults f → Has ((lockDaemon c F).machine.next d e).words.faults f →
      SeenInFive c f (rounds pre) := by
  intro d hoff hon
  subst hes
  obtain ⟨hpre, he, _⟩ := along_append.mp hv
  have hboot := boot_kept (c := c) (F := F) (control_round_only (F := F) c) (startLocals t0 t1)
    (startControl c start, []) (clamped_boot hf hm)
  obtain rfl := raised_by (Discipline.kept_run hboot hpre) he hservo hoff hon
  have hbacked := backed_run (l := startLocals t0 t1) rfl rfl rfl hpre
  obtain ⟨k, hk⟩ := access_enabled he
  rw [hk] at hbacked
  have hfive := hbacked.1 f rfl hservo
  have hcycles := @cycles_of_streak _ c f (rounds pre)
    fun before wake after h => honce before wake (after ++ rounds (_ :: post))
      (by rw [rounds_append, h, List.append_assoc, List.cons_append])
  rw [min_eq_left hfive] at hcycles
  exact hcycles

/-- Ticks 20 ms apart, each with the hot sample of a new cycle, up to the fifth check. -/
def hotTicks (c : Ctx) : List (Event (lockDaemon c ℚ)) :=
  [1, 2, 3, 4].flatMap (fun n : ℕ => [.start .supervisor ⟨none, 20 * n, some (hotSample n)⟩,
    .access .supervisor .addBeat]) ++ [.start .supervisor ⟨none, 100, some (hotSample 5)⟩]

theorem persistence_in_cycles_ticks :
    let c := Ctx.default Calibration.fullRange Calibration.fullRange
    SeenInFive c .overtemp (rounds (hotTicks c)) := by
  intro c
  have hmode : (⟨.idle, 0, 0, ⟨0, 0⟩⟩ : Words).modeReq ≠ .estop := by decide
  have hv : (lockDaemon c ℚ).machine.Valid (boot c ℚ (controlRound c) (startLocals 0 0)
      (startControl c 0, []) ⟨.idle, 0, 0, ⟨0, 0⟩⟩)
      (hotTicks c ++ [.access .supervisor (.orFaults .overtemp)]) :=
    ⟨rfl, rfl, rfl, rfl, rfl, rfl, rfl, rfl, rfl, rfl, trivial⟩
  have hon : Has (0#32 ||| Fault.overtemp.bit) .overtemp := by decide
  refine persistence_in_cycles c ℚ 0 0 0 rfl hmode hv (Or.inl rfl) ?_ rfl (not_has_zero _) hon
  intro before wake after h s hs _ _ _
  have hlen : 5 = (before ++ wake :: after).length := congrArg List.length h
  rw [List.length_append, List.length_cons] at hlen
  rcases before with _ | ⟨b₁, _ | ⟨b₂, _ | ⟨b₃, _ | ⟨b₄, _ | ⟨b₅, before⟩⟩⟩⟩⟩
  · cases h; cases hs; decide
  · cases h; cases hs; decide
  · cases h; cases hs; decide
  · cases h; cases hs; decide
  · cases h; cases hs; decide
  · simp only [List.length_cons] at hlen
    omega

/-- Five PINGs within one control cycle, each waking the supervisor to the same hot sample. -/
def hotPings (c : Ctx) : List (Event (lockDaemon c ℚ)) :=
  let ping (n : ℕ) : Cmd := ⟨BitVec.ofNat 32 n, cmdPing, 0, 100⟩
  [1, 2, 3, 4].flatMap (fun n : ℕ => [.start .supervisor ⟨some (ping n), n, some (hotSample 1)⟩,
    .access .supervisor .loadFaults, .access .supervisor (.ackResult resOk),
    .access .supervisor (.ackId (BitVec.ofNat 32 n)), .access .supervisor .addBeat]) ++
    [.start .supervisor ⟨some (ping 5), 5, some (hotSample 1)⟩, .access .supervisor .loadFaults,
      .access .supervisor (.ackResult resOk), .access .supervisor (.ackId 5)]

theorem fault_from_one_cycle :
    let c := Ctx.default Calibration.fullRange Calibration.fullRange
    let b := boot c ℚ (controlRound c) (startLocals 0 0) (startControl c 0, [])
      ⟨.idle, 0, 0, ⟨0, 0⟩⟩
    let raise : Event (lockDaemon c ℚ) := .access .supervisor (.orFaults .overtemp)
    let d := (lockDaemon c ℚ).machine.run b (hotPings c)
    (lockDaemon c ℚ).machine.Valid b (hotPings c ++ [raise]) ∧ ¬ Has d.words.faults .overtemp ∧
      Has ((lockDaemon c ℚ).machine.next d raise).words.faults .overtemp ∧
      ((streak c .overtemp (rounds (hotPings c))).map Sample.cycle).toFinset = {1} ∧
      ¬ SeenInFive c .overtemp (rounds (hotPings c)) := by
  intro c b raise d
  have hon : Has (0#32 ||| Fault.overtemp.bit) .overtemp := by decide
  have hone : (streak c .overtemp (rounds (hotPings c))).map Sample.cycle = [1, 1, 1, 1, 1] := by
    rfl
  refine ⟨?_, not_has_zero _, hon, ?_, ?_⟩
  · exact ⟨rfl, rfl, rfl, rfl, rfl, rfl, rfl, rfl, rfl, rfl, rfl, rfl, rfl, rfl, rfl, rfl, rfl, rfl,
      rfl, rfl, rfl, rfl, rfl, rfl, rfl, trivial⟩
  · rw [hone]
    rfl
  · rw [SeenInFive, hone]
    decide

end PersistTicks
