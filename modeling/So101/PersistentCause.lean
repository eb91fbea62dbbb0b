import Mathlib.Data.List.DropRight
import Mathlib.Data.List.Infix
import So101.TorqueLockout

/-!
# A cause that persists

A command is served before the checks of the same round and a RESET clears every fault.
The counters that carry a cause across the reset live in the locals of the supervisor; they
are computed from what it has seen, and the checks latch whatever they find present.
-/
namespace PersistentCause

open GuardedMachine AtomicProgram SharedMemory SupervisorThread SupervisorInterlock
open SupervisorFaults TorqueLockout ControlThread
open Calibration (CFloat)

section Rounds

variable {F : Type*} (c : Ctx)

def stallLocals (l : Locals) (now : ℤ) (s : Sample F) : Locals :=
  if s.cycle ≠ l.lastCycle then { l with lastCycle := s.cycle, lastAdvance := now } else l

def servoLocals (l : Locals) (s : Sample F) : Locals :=
  if s.followerOk then
    { l with
      tempTicks := if hot c s then int32 (l.tempTicks + 1) else 0
      voltTicks := if badVolt c s then int32 (l.voltTicks + 1) else 0 }
  else
    l

def overrunLocals (l : Locals) (now : ℤ) (s : Sample F) : Locals :=
  if now - l.ovrT0 ≥ 1000 then { l with ovrBase := s.overruns, ovrT0 := now } else l

/-- The locals after a round; no command and no word has a part in them. -/
def nextLocals (l : Locals) (wake : Wakeup F) : Locals :=
  match wake.snapshot with
  | some s => overrunLocals (servoLocals c (stallLocals l wake.now s) s) wake.now s
  | none => l

theorem stall_locals_ticks (l : Locals) (now : ℤ) (s : Sample F) :
    (stallLocals l now s).tempTicks = l.tempTicks ∧
      (stallLocals l now s).voltTicks = l.voltTicks := by
  unfold stallLocals
  split <;> exact ⟨rfl, rfl⟩

theorem overrun_locals_ticks (l : Locals) (now : ℤ) (s : Sample F) :
    (overrunLocals l now s).tempTicks = l.tempTicks ∧
      (overrunLocals l now s).voltTicks = l.voltTicks := by
  unfold overrunLocals
  split <;> exact ⟨rfl, rfl⟩

theorem ensures_after {α β : Type} {p : Code α} {f : α → Code β} {P : β → Prop}
    (h : ∀ a, (f a).Ensures P) : (p >>= f).Ensures P :=
  (Prog.ensures_of_forall (P := fun _ => True) (fun _ => trivial) p).bind fun a _ => h a

theorem check_stall_ensures (l : Locals) (now : ℤ) (s : Sample F) :
    (checkStall l now s).Ensures (· = stallLocals l now s) := by
  unfold checkStall stallLocals
  split_ifs
  · exact rfl
  · exact ensures_after fun _ => rfl
  · exact rfl

theorem check_servos_ensures (l : Locals) (s : Sample F) :
    (checkServos c l s).Ensures (· = servoLocals c l s) := by
  unfold checkServos servoLocals
  by_cases hok : s.followerOk
  · rw [if_pos hok, if_pos hok]
    exact ensures_after fun _ => ensures_after fun _ => rfl
  · rw [if_neg hok, if_neg hok]
    exact rfl

theorem check_overruns_ensures (l : Locals) (now : ℤ) (s : Sample F) :
    (checkOverruns l now s).Ensures (· = overrunLocals l now s) := by
  unfold checkOverruns overrunLocals
  by_cases hlate : now - l.ovrT0 ≥ 1000
  · rw [if_pos hlate, if_pos hlate]
    exact ensures_after fun _ => rfl
  · rw [if_neg hlate, if_neg hlate]
    exact rfl

theorem supervisor_thread_ensures (l : Locals) (wake : Wakeup F) :
    (supervisorThread c l wake).Ensures (· = nextLocals c l wake) := by
  unfold supervisorThread nextLocals
  refine ensures_after fun _ => ?_
  cases wake.snapshot with
  | none => exact rfl
  | some s =>
    refine (check_stall_ensures l wake.now s).bind ?_
    rintro _ rfl
    refine ensures_after fun _ => ?_
    refine (check_servos_ensures c _ s).bind ?_
    rintro _ rfl
    refine (check_overruns_ensures _ wake.now s).bind ?_
    rintro _ rfl
    exact ensures_after fun _ => rfl

/-- The checks add faults to those that are latched and take none away. -/
def Adds : Access → Prop
  | .storeFaults _ _ | .andNotFaults _ => False
  | _ => True

def Held (P : Fault → Prop) (g : Shadow) : Prop := ∀ f, P f → f ∈ g.lock.latched

theorem held_adds {P : Fault → Prop} (g : Shadow) (o : Access) (ho : Adds o) (h : Held P g) :
    Held P (shadowStep g o) := by
  cases o with
  | orFaults f => exact fun e he => Finset.mem_insert_of_mem (h e he)
  | storeFaults => exact ho.elim
  | andNotFaults => exact ho.elim
  | storeMode site m =>
    cases site with
    | fault f => exact h
    | command cmd =>
      by_cases hset : cmd.cmd = cmdSetMode
      · simp only [Held, shadowStep, action, if_pos hset]
        exact h
      · simp only [Held, shadowStep, action, if_neg hset]
        exact h
  | _ => exact h

theorem raise_fault_adds (f : Fault) (force : Bool) (safe : Mode) :
    (raiseFault f force safe).Only Adds :=
  raise_fault_only trivial trivial trivial force

theorem check_overruns_adds (l : Locals) (now : ℤ) (s : Sample F) :
    (checkOverruns l now s).Only Adds := by
  apply Prog.Only.ite <;> intro _
  · exact (raise_when_only fun _ => raise_fault_adds _ _ _).bind fun _ => trivial
  · trivial

/-- Between two checks the words and the interlock agree, and every fault in `P` is latched. -/
abbrev SettledHolding (P : Fault → Prop) (α : Type) : Shadow → α → Words → Prop :=
  fun g _ w => Settled g w ∧ Held P g

variable {g : Shadow} {w : Words} {P : Fault → Prop}

theorem safe_holding {α : Type} (hs : Settled g w) (hP : Held P g) (a : α) :
    Safe wordMemory supervisorContract (SettledHolding P α) g (pure a) w :=
  fun _ hr _ => ⟨hs.undisturbed hr, hP⟩

theorem raise_fault_holds {f : Fault} {force : Bool} {safe : Mode}
    (hf : f ≠ .torqueRefused) (hforce : force = true → safe = ceiling f ∧ safe ≠ .teleop)
    (hfree : force = false → ceiling f = ⊤) (hs : Settled g w) (hP : Held P g) :
    Safe wordMemory supervisorContract (SettledHolding (fun e => P e ∨ e = f) Unit) g
      (raiseFault f force safe) w := by
  intro w' hr hi
  obtain ⟨hguar, hi', hk⟩ := raise_fault_safe hf hforce hfree hs w' hr hi
  have hheld : Held (fun e => P e ∨ e = f) (shadowStep g (.orFaults f)) := by
    rintro e (he | rfl)
    · exact Finset.mem_insert_of_mem (hP e he)
    · exact Finset.mem_insert_self e _
  exact ⟨hguar, hi', hk.frame held_adds ((raise_fault_adds f force safe).2 _) hheld⟩

theorem Held.mono {Q : Fault → Prop} (h : Held P g) (hQ : ∀ f, Q f → P f) : Held Q g :=
  fun f hf => h f (hQ f hf)

theorem raise_when_holds {p : Prop} [Decidable p] {f : Fault} {force : Bool} {safe : Mode}
    (hf : f ≠ .torqueRefused) (hforce : force = true → safe = ceiling f ∧ safe ≠ .teleop)
    (hfree : force = false → ceiling f = ⊤) (hs : Settled g w) (hP : Held P g) :
    Safe wordMemory supervisorContract (SettledHolding (fun e => P e ∨ (p ∧ e = f)) Unit) g
      (raiseWhen p f force safe) w := by
  unfold raiseWhen
  split
  · next hp =>
    refine (raise_fault_holds hf hforce hfree hs hP).imp fun g _ w h => ⟨h.1, h.2.mono ?_⟩
    rintro e (he | ⟨_, he⟩)
    · exact Or.inl he
    · exact Or.inr he
  · next hp =>
    refine safe_holding hs (hP.mono ?_) ()
    rintro e (he | ⟨hp', _⟩)
    · exact he
    · exact absurd hp' hp

/-- The cause of a fault is there, as the checks of the round see it. -/
def Present (l : Locals) (now : ℤ) (s : Sample F) : Fault → Prop
  | .stall => s.cycle = l.lastCycle ∧ now - l.lastAdvance > stallMs
  | .leaderComm => (s.leaderStreak : ℤ) ≥ c.commStreak
  | .followerComm => (s.followerStreak : ℤ) ≥ c.commStreak
  | .overtemp => s.followerOk = true ∧ hot c s ∧ int32 (l.tempTicks + 1) ≥ persistTicks
  | .voltage => s.followerOk = true ∧ badVolt c s ∧ int32 (l.voltTicks + 1) ≥ persistTicks
  | _ => False

theorem check_stall_holds (l : Locals) (now : ℤ) (s : Sample F) (hs : Settled g w) :
    Safe wordMemory supervisorContract
      (fun g l' w => SettledHolding (fun e => Present c l now s e ∧ e = .stall) Locals g l' w ∧
        l' = stallLocals l now s)
      g (checkStall l now s) w := by
  refine Safe.ensures ?_ (check_stall_ensures l now s)
  unfold checkStall
  by_cases hmoved : s.cycle ≠ l.lastCycle
  · rw [if_pos hmoved]
    refine safe_holding hs ?_ _
    rintro _ ⟨hstall, rfl⟩
    exact absurd hstall.1 hmoved
  · rw [if_neg hmoved]
    by_cases hlate : now - l.lastAdvance > stallMs
    · rw [if_pos hlate]
      have hnone : Held (fun _ => False) g := fun _ h => h.elim
      refine (raise_fault_holds (by decide) (by decide) (by decide) hs hnone).bind
        fun g _ w h => safe_holding h.1 (h.2.mono ?_) l
      rintro _ ⟨_, rfl⟩
      exact Or.inr rfl
    · rw [if_neg hlate]
      refine safe_holding hs ?_ l
      rintro _ ⟨hstall, rfl⟩
      exact absurd hstall.2 hlate

theorem check_comm_holds (l : Locals) (now : ℤ) (s : Sample F) (hs : Settled g w)
    (hP : Held P g) :
    Safe wordMemory supervisorContract
      (SettledHolding (fun e => P e ∨ Present c l now s e ∧ (e = .leaderComm ∨ e = .followerComm))
        Unit) g (checkComm c s) w := by
  refine (raise_when_holds (by decide) (by decide) (by decide) hs hP).bind fun g _ w h => ?_
  refine (raise_when_holds (by decide) (by decide) (by decide) h.1 h.2).imp
    fun g _ w h => ⟨h.1, h.2.mono ?_⟩
  rintro e (he | ⟨hcomm, rfl | rfl⟩)
  · exact Or.inl (Or.inl he)
  · exact Or.inl (Or.inr ⟨hcomm, rfl⟩)
  · exact Or.inr ⟨hcomm, rfl⟩

theorem check_servos_holds (l : Locals) (now : ℤ) (s : Sample F) (hs : Settled g w)
    (hP : Held P g) :
    Safe wordMemory supervisorContract
      (fun g l' w =>
        SettledHolding (fun e => P e ∨ Present c l now s e ∧ (e = .overtemp ∨ e = .voltage))
          Locals g l' w ∧ l' = servoLocals c (stallLocals l now s) s)
      g (checkServos c (stallLocals l now s) s) w := by
  obtain ⟨htemp, hvolt⟩ := stall_locals_ticks l now s
  refine Safe.ensures ?_ (check_servos_ensures c (stallLocals l now s) s)
  unfold checkServos
  by_cases hok : s.followerOk = true
  · rw [if_pos hok, htemp, hvolt]
    refine (raise_when_holds (by decide) (by decide) (by decide) hs hP).bind fun g _ w h => ?_
    refine (raise_when_holds (by decide) (by decide) (by decide) h.1 h.2).bind
      fun g _ w h => safe_holding h.1 (h.2.mono ?_) _
    rintro e (he | ⟨hpresent, rfl | rfl⟩)
    · exact Or.inl (Or.inl he)
    · obtain ⟨_, hcause, hticks⟩ := hpresent
      refine Or.inl (Or.inr ⟨?_, rfl⟩)
      rwa [if_pos hcause]
    · obtain ⟨_, hcause, hticks⟩ := hpresent
      refine Or.inr ⟨?_, rfl⟩
      rwa [if_pos hcause]
  · rw [if_neg hok]
    refine safe_holding hs (hP.mono ?_) _
    rintro e (he | ⟨hpresent, rfl | rfl⟩)
    · exact he
    · exact absurd hpresent.1 hok
    · exact absurd hpresent.1 hok

theorem supervisor_thread_holds (l : Locals) (wake : Wakeup F) {s : Sample F}
    (hsnap : wake.snapshot = some s) (hs : Settled g w) :
    Safe wordMemory supervisorContract (SettledHolding (Present c l wake.now s) Locals) g
      (supervisorThread c l wake) w := by
  unfold supervisorThread
  rw [hsnap]
  refine (answer_command_safe wake.got hs).bind fun g _ w hs => ?_
  refine (check_stall_holds c l wake.now s hs).bind fun g l₁ w h => ?_
  obtain ⟨⟨hs, hheld⟩, rfl⟩ := h
  refine (check_comm_holds c l wake.now s hs hheld).bind fun g _ w h => ?_
  obtain ⟨hs, hheld⟩ := h
  refine (check_servos_holds c l wake.now s hs hheld).bind fun g l₂ w h => ?_
  obtain ⟨⟨hs, hheld⟩, _⟩ := h
  refine ((check_overruns_safe l₂ wake.now s hs).frame held_adds
    (check_overruns_adds l₂ wake.now s) hheld).bind fun g l₃ w h => ?_
  obtain ⟨hs, hheld⟩ := h
  refine safe_step fun w₁ hr _ => ⟨trivial, safe_holding (hs.undisturbed hr) (hheld.mono ?_) l₃⟩
  intro f hf
  cases f with
  | stall => exact Or.inl (Or.inl ⟨hf, rfl⟩)
  | leaderComm => exact Or.inl (Or.inr ⟨hf, Or.inl rfl⟩)
  | followerComm => exact Or.inl (Or.inr ⟨hf, Or.inr rfl⟩)
  | overtemp => exact Or.inr ⟨hf, Or.inl rfl⟩
  | voltage => exact Or.inr ⟨hf, Or.inr rfl⟩
  | _ => exact hf.elim

end Rounds

section History

variable {F : Type*} (c : Ctx)

structure Seen where
  cycle : ℕ
  advance : ℤ

def Seen.next (e : Seen) (wake : Wakeup F) : Seen :=
  match wake.snapshot with
  | some s => if s.cycle ≠ e.cycle then ⟨s.cycle, wake.now⟩ else e
  | none => e

/-- At its start, at `t0`, the supervisor takes cycle 0 as just seen. -/
def seen (t0 : ℤ) (hist : List (Wakeup F)) : Seen := hist.foldl Seen.next ⟨0, t0⟩

def okSnapshots (hist : List (Wakeup F)) : List (Sample F) :=
  (hist.filterMap Wakeup.snapshot).filter fun s => s.followerOk

/-- The cause shows in `s` and in the four snapshots with a follower before it, at least. -/
def Lately (cause : Sample F → Prop) (hist : List (Wakeup F)) (s : Sample F) : Prop :=
  cause s ∧ ∃ recent, recent <:+ okSnapshots hist ∧ 4 ≤ recent.length ∧ ∀ s' ∈ recent, cause s'

/-- An `int` can count the snapshots that have shown the cause without a break. -/
def Countable (cause : Sample F → Prop) (hist : List (Wakeup F)) : Prop :=
  ∀ recent, recent <:+ okSnapshots hist → (∀ s ∈ recent, cause s) → recent.length < 2 ^ 31

theorem countable_of_length {cause : Sample F → Prop} {hist : List (Wakeup F)}
    (h : hist.length < 2 ^ 31) : Countable cause hist := by
  intro recent hsuffix _
  have hfilter : (okSnapshots hist).length ≤ (hist.filterMap Wakeup.snapshot).length :=
    List.length_filter_le _ _
  have hmap : (hist.filterMap Wakeup.snapshot).length ≤ hist.length :=
    List.length_filterMap_le _ _
  exact lt_of_le_of_lt (hsuffix.length_le.trans (hfilter.trans hmap)) h

/-- The cause of the fault persists, going by all that has been seen since start-up. -/
def Persists (t0 : ℤ) (hist : List (Wakeup F)) (now : ℤ) (s : Sample F) : Fault → Prop
  | .leaderComm => (s.leaderStreak : ℤ) ≥ c.commStreak
  | .followerComm => (s.followerStreak : ℤ) ≥ c.commStreak
  | .stall => s.cycle = (seen t0 hist).cycle ∧ now - (seen t0 hist).advance > stallMs
  | .overtemp => s.followerOk = true ∧ Lately (hot c) hist s
  | .voltage => s.followerOk = true ∧ Lately (badVolt c) hist s
  | _ => False

def afterRounds (l : Locals) (hist : List (Wakeup F)) : Locals := hist.foldl (nextLocals c) l

theorem next_locals_seen (l : Locals) (wake : Wakeup F) :
    (⟨(nextLocals c l wake).lastCycle, (nextLocals c l wake).lastAdvance⟩ : Seen) =
      Seen.next ⟨l.lastCycle, l.lastAdvance⟩ wake := by
  unfold nextLocals Seen.next
  cases wake.snapshot with
  | none => rfl
  | some s =>
    simp only [overrunLocals, servoLocals, stallLocals]
    split_ifs <;> rfl

theorem after_rounds_seen (l : Locals) (hist : List (Wakeup F)) :
    (⟨(afterRounds c l hist).lastCycle, (afterRounds c l hist).lastAdvance⟩ : Seen) =
      hist.foldl Seen.next ⟨l.lastCycle, l.lastAdvance⟩ := by
  induction hist generalizing l with
  | nil => rfl
  | cons wake hist ih =>
    rw [List.foldl_cons, ← next_locals_seen c]
    exact ih (nextLocals c l wake)

def tick (cause : Sample F → Prop) [DecidablePred cause] (n : ℤ) (s : Sample F) : ℤ :=
  if cause s then int32 (n + 1) else 0

def showing (cause : Sample F → Prop) [DecidablePred cause] (snaps : List (Sample F)) :
    List (Sample F) := snaps.rtakeWhile fun s => cause s

section Counting

variable {cause : Sample F → Prop} [DecidablePred cause]

theorem showing_append_pos (snaps : List (Sample F)) {s : Sample F} (hs : cause s) :
    showing cause (snaps ++ [s]) = showing cause snaps ++ [s] :=
  List.rtakeWhile_concat_pos _ _ _ (decide_eq_true hs)

theorem showing_append_neg (snaps : List (Sample F)) {s : Sample F} (hs : ¬ cause s) :
    showing cause (snaps ++ [s]) = [] :=
  List.rtakeWhile_concat_neg _ _ _ (by simpa using hs)

theorem length_le_showing {snaps recent : List (Sample F)} (hsuffix : recent <:+ snaps)
    (hcause : ∀ s ∈ recent, cause s) : recent.length ≤ (showing cause snaps).length := by
  induction snaps using List.reverseRecOn generalizing recent with
  | nil =>
    rw [List.suffix_nil.mp hsuffix]
    exact Nat.zero_le _
  | append_singleton snaps s ih =>
    rcases List.suffix_concat_iff.mp hsuffix with rfl | ⟨before, rfl, hbefore⟩
    · exact Nat.zero_le _
    · have hs : cause s := hcause s (by simp)
      have hle := ih hbefore fun s' hs' => hcause s' (List.mem_append_left _ hs')
      rw [showing_append_pos snaps hs, List.length_append, List.length_append]
      exact Nat.add_le_add_right hle _

theorem showing_suffix (snaps : List (Sample F)) : showing cause snaps <:+ snaps :=
  List.rtakeWhile_suffix _ _

theorem showing_all {snaps : List (Sample F)} {s : Sample F} (h : s ∈ showing cause snaps) :
    cause s :=
  of_decide_eq_true (List.mem_rtakeWhile_imp (p := fun s => decide (cause s)) h)

theorem ticks_eq (snaps : List (Sample F)) :
    snaps.foldl (tick cause) 0 = int32 (showing cause snaps).length := by
  have hzero : int32 ((0 : ℕ) : ℤ) = 0 := int32_of_mem (by decide) (by decide)
  induction snaps using List.reverseRecOn with
  | nil => exact hzero.symm
  | append_singleton snaps s ih =>
    rw [List.foldl_append, List.foldl_cons, List.foldl_nil, tick, ih]
    by_cases hs : cause s
    · rw [if_pos hs, showing_append_pos snaps hs, int32_add_one, List.length_append,
        List.length_singleton, Nat.cast_succ]
    · rw [if_neg hs, showing_append_neg snaps hs]
      exact hzero.symm

end Counting

theorem ok_snapshots_append (hist : List (Wakeup F)) (wake : Wakeup F) :
    okSnapshots (hist ++ [wake]) = okSnapshots hist ++ okSnapshots [wake] := by
  rw [okSnapshots, okSnapshots, okSnapshots, ← List.filter_append, ← List.filterMap_append]

theorem ok_snapshots_one {wake : Wakeup F} {s : Sample F} (hsnap : wake.snapshot = some s)
    (hok : s.followerOk = true) : okSnapshots [wake] = [s] := by
  simp [okSnapshots, hsnap, hok]

theorem ok_snapshots_cons (wake : Wakeup F) (hist : List (Wakeup F)) :
    okSnapshots (wake :: hist) = okSnapshots [wake] ++ okSnapshots hist := by
  rw [okSnapshots, okSnapshots, okSnapshots, ← List.filter_append, ← List.filterMap_append]
  rfl

theorem after_rounds_ticks {count : Locals → ℤ} {cause : Sample F → Prop} [DecidablePred cause]
    (hstep : ∀ l (wake : Wakeup F),
      count (nextLocals c l wake) = (okSnapshots [wake]).foldl (tick cause) (count l))
    (l : Locals) (hist : List (Wakeup F)) :
    count (afterRounds c l hist) = (okSnapshots hist).foldl (tick cause) (count l) := by
  induction hist generalizing l with
  | nil => rfl
  | cons wake hist ih =>
    rw [ok_snapshots_cons, List.foldl_append, ← hstep]
    exact ih (nextLocals c l wake)

theorem next_locals_ticks (l : Locals) (wake : Wakeup F) :
    (nextLocals c l wake).tempTicks = (okSnapshots [wake]).foldl (tick (hot c)) l.tempTicks ∧
      (nextLocals c l wake).voltTicks =
        (okSnapshots [wake]).foldl (tick (badVolt c)) l.voltTicks := by
  cases hsnap : wake.snapshot with
  | none => simp [nextLocals, okSnapshots, hsnap]
  | some s =>
    obtain ⟨htemp, hvolt⟩ := stall_locals_ticks l wake.now s
    obtain ⟨htemp', hvolt'⟩ :=
      overrun_locals_ticks (servoLocals c (stallLocals l wake.now s) s) wake.now s
    simp only [nextLocals, hsnap]
    rw [htemp', hvolt']
    cases hok : s.followerOk with
    | true => simp [servoLocals, okSnapshots, hsnap, hok, tick, htemp, hvolt]
    | false => simp [servoLocals, okSnapshots, hsnap, hok, htemp, hvolt]

/-- A cause that shows in the round, and lately, has been counted often enough. -/
theorem lately_counted {cause : Sample F → Prop} [DecidablePred cause] {hist : List (Wakeup F)}
    {wake : Wakeup F} {s : Sample F} (hsnap : wake.snapshot = some s) (hok : s.followerOk = true)
    (h : Lately cause hist s) (hcount : Countable cause (hist ++ [wake])) :
    int32 ((okSnapshots hist).foldl (tick cause) 0 + 1) ≥ persistTicks := by
  obtain ⟨hs, recent, hsuffix, hlen, hall⟩ := h
  have hle := length_le_showing hsuffix hall
  have hfits : (showing cause (okSnapshots hist)).length + 1 < 2 ^ 31 := by
    have hlast := showing_append_pos (okSnapshots hist) hs
    rw [Countable, ok_snapshots_append, ok_snapshots_one hsnap hok] at hcount
    have hshort := hcount _ (showing_suffix _) fun _ => showing_all
    rwa [hlast, List.length_append] at hshort
  rw [ticks_eq, int32_add_one, int32_of_mem (by omega) (by omega), persistTicks]
  omega

theorem persists_present {t0 : ℤ} {l : Locals} (hcycle : l.lastCycle = 0)
    (hadvance : l.lastAdvance = t0) (htemp : l.tempTicks = 0) (hvolt : l.voltTicks = 0)
    (hist : List (Wakeup F)) {wake : Wakeup F} {s : Sample F} (hsnap : wake.snapshot = some s)
    (hhots : Countable (hot c) (hist ++ [wake])) (hbads : Countable (badVolt c) (hist ++ [wake]))
    {f : Fault} (h : Persists c t0 hist wake.now s f) :
    Present c (afterRounds c l hist) wake.now s f := by
  have hseen := after_rounds_seen c l hist
  rw [hcycle, hadvance] at hseen
  cases f with
  | stall =>
    rw [Persists, seen, ← hseen] at h
    exact h
  | overtemp =>
    obtain ⟨hok, hlately⟩ := h
    have hticks := after_rounds_ticks c (fun l wake => (next_locals_ticks c l wake).1) l hist
    rw [htemp] at hticks
    exact ⟨hok, hlately.1, hticks ▸ lately_counted hsnap hok hlately hhots⟩
  | voltage =>
    obtain ⟨hok, hlately⟩ := h
    have hticks := after_rounds_ticks c (fun l wake => (next_locals_ticks c l wake).2) l hist
    rw [hvolt] at hticks
    exact ⟨hok, hlately.1, hticks ▸ lately_counted hsnap hok hlately hbads⟩
  | _ => exact h

end History

section Runs

variable {c : Ctx} {F L I : Type} {ctl : L → I → Code L}

def round? : Event (daemon c F ctl) → Option (Wakeup F)
  | .start .supervisor wake => some wake
  | _ => none

def rounds (es : List (Event (daemon c F ctl))) : List (Wakeup F) := es.filterMap round?

theorem round_other {e : Event (daemon c F ctl)} (h : ∀ wake, e ≠ .start .supervisor wake) :
    round? e = none := by
  cases e with
  | start i inp =>
    cases i with
    | supervisor => exact absurd rfl (h inp)
    | control => rfl
  | access i o => rfl

theorem rounds_append (es fs : List (Event (daemon c F ctl))) :
    rounds (es ++ fs) = rounds es ++ rounds fs := List.filterMap_append

theorem rounds_alone {s : State (daemon c F ctl)} {l : Locals} (hl : s.prog .supervisor = .ret l)
    (wakes : List (Wakeup F)) : ∃ es, (daemon c F ctl).machine.Valid s es ∧ rounds es = wakes ∧
      ((daemon c F ctl).machine.run s es).prog .supervisor = .ret (afterRounds c l wakes) := by
  induction wakes generalizing s l with
  | nil => exact ⟨[], trivial, rfl, hl⟩
  | cons wake wakes ih =>
    obtain ⟨round, honly, hround, hend, _⟩ := round_alone hl wake
    have hlocals := (supervisor_thread_ensures c l wake).eval wordMemory s.words
    obtain ⟨es, hes, hrounds, hdone⟩ := ih (hend.trans (congrArg Prog.ret hlocals))
    refine ⟨.start .supervisor wake :: round ++ es, ?_, ?_, ?_⟩
    · exact along_append.mpr ⟨hround, hes⟩
    · have hnone : rounds round = [] := by
        apply List.filterMap_eq_nil_iff.mpr
        intro e he
        obtain ⟨o, rfl⟩ := honly e he
        rfl
      have hcons : rounds (.start .supervisor wake :: round) = wake :: rounds round := rfl
      rw [rounds_append, hrounds, hcons, hnone]
      rfl
    · rw [run_append]
      exact hdone

/-- The locals of the supervisor are computed from its rounds alone. -/
theorem locals_of_run {s : State (daemon c F ctl)} {l : Locals} {es : List (Event (daemon c F ctl))}
    (hl : (s.prog .supervisor).Ensures (· = l)) (hv : (daemon c F ctl).machine.Valid s es) :
    (((daemon c F ctl).machine.run s es).prog .supervisor).Ensures
      (· = afterRounds c l (rounds es)) := by
  induction es generalizing s l with
  | nil => exact hl
  | cons e es ih =>
    obtain ⟨he, hes⟩ := hv
    by_cases hstart : ∃ wake, e = .start .supervisor wake
    · obtain ⟨wake, rfl⟩ := hstart
      obtain ⟨l₁, hl₁⟩ := start_enabled he
      rw [hl₁] at hl
      obtain rfl : l₁ = l := hl
      apply ih _ hes
      simp only [next_start hl₁, Function.update_self]
      exact supervisor_thread_ensures c l₁ wake
    · have hne : ∀ wake, e ≠ .start .supervisor wake := fun wake h => hstart ⟨wake, h⟩
      have hround : rounds (e :: es) = rounds es := List.filterMap_cons_none (round_other hne)
      rw [hround]
      exact ih (ensures_next he hne hl) hes

variable {hctl : ∀ a inp, (ctl a inp).Only RefusedOnly}

/-- At the end of a round with a snapshot every fault whose cause persists is latched, and
the mode is one that the latched faults leave. -/
theorem round_end {s : State (daemon c F ctl)} {g : (i : Thread) → Ghost i} {l : Locals} {t0 : ℤ}
    (hkept : (discipline c F ctl hctl).Kept (s, g)) (hl : s.prog .supervisor = .ret l)
    (hcycle : l.lastCycle = 0) (hadvance : l.lastAdvance = t0) (htemp : l.tempTicks = 0)
    (hvolt : l.voltTicks = 0) {pre mid : List (Event (daemon c F ctl))} {wake : Wakeup F}
    {snap : Sample F} {l' : Locals}
    (hv : (daemon c F ctl).machine.Valid s (pre ++ .start .supervisor wake :: mid))
    (hmid : ∀ wake', .start .supervisor wake' ∉ mid)
    (hdone : ((daemon c F ctl).machine.run s (pre ++ .start .supervisor wake :: mid)).prog
      .supervisor = .ret l')
    (hsnap : wake.snapshot = some snap) (hhots : Countable (hot c) (rounds pre ++ [wake]))
    (hbads : Countable (badVolt c) (rounds pre ++ [wake])) {w : Words}
    (hw : ((daemon c F ctl).machine.run s (pre ++ .start .supervisor wake :: mid)).words = w) :
    (∀ f, Persists c t0 (rounds pre) wake.now snap f → f ∈ latched w.faults) ∧
      Interlock.Clamped ceiling (latched w.faults) w.modeReq := by
  obtain ⟨hpre, hround⟩ := along_append.mp hv
  have hkept₁ := Discipline.kept_run hkept hpre
  obtain ⟨l₁, hl₁⟩ := start_enabled hround.1
  have hlocals : (s.prog .supervisor).Ensures (· = l) := by
    rw [hl]
    exact rfl
  have hpast := locals_of_run hlocals hpre
  rw [hl₁] at hpast
  obtain rfl : l₁ = afterRounds c l (rounds pre) := hpast
  rw [run_append] at hdone hw
  obtain ⟨g', ⟨hlatched, hclamped⟩, ⟨hmode, _⟩, hheld⟩ := Discipline.round_post hkept₁ hl₁
    (supervisor_thread_holds c _ wake hsnap (hkept₁.post hl₁)) hround hmid hdone
  rw [hw] at hlatched hmode
  rw [← hlatched, hmode]
  refine ⟨fun f hf => hheld f ?_, hclamped⟩
  exact persists_present c hcycle hadvance htemp hvolt (rounds pre) hsnap hhots hbads hf

/-- A SET_MODE to `m` that the round now starting serves is answered REFUSED, and the mode
is left alone: so they stand when the round acknowledges the command. -/
def RefusedNext (d : State (daemon c F ctl)) (m : Mode) : Prop :=
  ∀ (wake : Wakeup F) (cmd : Cmd) (es : List (Event (daemon c F ctl))) (id : U32),
    wake.got = some cmd → cmd.cmd = cmdSetMode → cmd.arg = m.word →
    (daemon c F ctl).machine.Valid d
      (.start .supervisor wake :: es ++ [.access .supervisor (.ackId id)]) →
    (∀ id', .access .supervisor (.ackId id') ∉ es) →
    id = cmd.id ∧
      ((daemon c F ctl).machine.run d (.start .supervisor wake :: es)).words.ack.result =
        resRefused ∧
      ((daemon c F ctl).machine.run d (.start .supervisor wake :: es)).words.modeReq =
        d.words.modeReq

inductive Refusing (cmd : Cmd) (faults : Finset Fault) : Code Locals → Words → Prop where
  | loading {k : U32 → Code Locals} {w : Words}
      (hk : ∀ f, latched f = faults → ∃ k', k f = .access (.ackResult resRefused) fun _ =>
        .access (.ackId cmd.id) k') : Refusing cmd faults (.access .loadFaults k) w
  | refused (k' : Unit → Code Locals) (w : Words) : Refusing cmd faults
      (.access (.ackResult resRefused) fun _ => .access (.ackId cmd.id) k') w
  | answered (k' : Unit → Code Locals) {w : Words} (h : w.ack.result = resRefused) :
      Refusing cmd faults (.access (.ackId cmd.id) k') w

theorem serve_command_refuses {cmd : Cmd} {m : Mode} (hset : cmd.cmd = cmdSetMode)
    (harg : cmd.arg = m.word) (hm : m = .teleop ∨ m = .hold) :
    ∃ k : U32 → Code ℤ, serveCommand cmd = .access .loadFaults k ∧
      ∀ f, ¬ m ≤ Interlock.cap ceiling (latched f) → k f = .ret resRefused := by
  refine ⟨_, rfl, fun f hcap => ?_⟩
  change ite _ _ _ = _
  rw [if_pos hset, harg]
  rcases hm with rfl | rfl
  · have hblocked : f &&& fBlockTeleop ≠ 0 := fun h => hcap (teleop_allowed_iff.mp h)
    rw [if_neg (by decide), if_pos rfl, if_pos hblocked]
    rfl
  · have hblocked : f &&& fBlockAll ≠ 0 := fun h => hcap (hold_allowed_iff.mp h)
    rw [if_neg (by decide), if_neg (by decide), if_pos rfl, if_pos hblocked]
    rfl

theorem refusing_start {wake : Wakeup F} {cmd : Cmd} {m : Mode} {faults : Finset Fault}
    (hgot : wake.got = some cmd) (hset : cmd.cmd = cmdSetMode) (harg : cmd.arg = m.word)
    (hm : m = .teleop ∨ m = .hold) (hcap : ¬ m ≤ Interlock.cap ceiling faults) (l : Locals)
    (w : Words) : Refusing cmd faults (supervisorThread c l wake) w := by
  obtain ⟨k, hserve, hk⟩ := serve_command_refuses hset harg hm
  have hthread : supervisorThread c l wake = .access .loadFaults fun f =>
      ((k f).bind fun res => ackResult res >>= fun _ => ackId cmd.id).bind fun _ =>
          match wake.snapshot with
          | some s => safetyChecks c l wake.now s
          | none => pure l := by
    have hanswer : answerCommand (some cmd) =
        (serveCommand cmd).bind (fun res => ackResult res >>= fun _ => ackId cmd.id) := rfl
    rw [hserve] at hanswer
    rw [supervisorThread, hgot, hanswer]
    rfl
  rw [hthread]
  refine .loading fun f hf => ?_
  rw [hk f (hf ▸ hcap)]
  exact ⟨_, rfl⟩

theorem refused_words {o : Access} (h : RefusedOnly o) (w : Words) :
    (wordMemory.update w o).ack = w.ack := by
  cases o with
  | loadMode | loadFaults | orFaults | andNotFaults => rfl
  | _ => exact h.elim

theorem Refusing.words {cmd : Cmd} {faults : Finset Fault} {p : Code Locals} {w w' : Words}
    (h : Refusing cmd faults p w) (hack : w'.ack = w.ack) : Refusing cmd faults p w' := by
  cases h with
  | loading hk => exact .loading hk
  | refused k' => exact .refused k' w'
  | answered k' hresult => exact .answered k' (hack ▸ hresult)

structure Answering (cmd : Cmd) (faults : Finset Fault) (m : Mode) (s : State (daemon c F ctl)) :
    Prop where
  faults_kept : latched s.words.faults = faults
  mode_kept : s.words.modeReq = m
  way : Refusing cmd faults (s.prog .supervisor) s.words

theorem answering_next {cmd : Cmd} {faults : Finset Fault} {m : Mode}
    {x : State (daemon c F ctl) × ((i : Thread) → Ghost i)}
    (hkept : (discipline c F ctl hctl).Kept x) (h : Answering cmd faults m x.1)
    {e : Event (daemon c F ctl)} (he : (daemon c F ctl).machine.enabled x.1 e)
    (hack : ∀ id, e ≠ .access .supervisor (.ackId id)) :
    Answering cmd faults m ((daemon c F ctl).machine.next x.1 e) := by
  obtain ⟨hfaults, hmode, hway⟩ := h
  cases e with
  | start i inp =>
    cases i with
    | supervisor =>
      obtain ⟨a, ha⟩ := start_enabled he
      rw [ha] at hway
      cases hway
    | control =>
      have hprog := prog_next_other he (i := .supervisor) (fun _ h => by cases h)
        (fun _ h => by cases h)
      constructor
      · rwa [words_start]
      · rwa [words_start]
      · rwa [hprog, words_start]
  | access i o =>
    cases i with
    | control =>
      have ho : RefusedOnly o := hkept.guarantee he
      obtain ⟨hmode', hfaults'⟩ := refused_undisturbed ho x.1.words
      have hprog := prog_next_other he (i := .supervisor) (fun _ h => by cases h)
        (fun _ h => by cases h)
      constructor
      · rw [words_access he]
        exact hfaults'.trans hfaults
      · rw [words_access he]
        exact hmode'.trans hmode
      · rw [hprog, words_access he]
        exact hway.words (refused_words ho _)
    | supervisor =>
      obtain ⟨k, hk⟩ := access_enabled he
      have hprog := prog_next_self hk
      have hwords := words_access he
      rw [hk] at hway
      cases hway with
      | loading hload =>
        obtain ⟨k', hnext⟩ := hload x.1.words.faults hfaults
        refine ⟨by rw [hwords]; exact hfaults, by rw [hwords]; exact hmode, ?_⟩
        rw [hprog]
        exact hnext ▸ .refused k' _
      | refused k' =>
        refine ⟨by rw [hwords]; exact hfaults, by rw [hwords]; exact hmode, ?_⟩
        rw [hprog, hwords]
        exact .answered k' rfl
      | answered => exact absurd rfl (hack _)

theorem refused_next {d : State (daemon c F ctl)} {g : (i : Thread) → Ghost i} {l : Locals}
    (hkept : (discipline c F ctl hctl).Kept (d, g)) (hl : d.prog .supervisor = .ret l) {f : Fault}
    {m : Mode} (hf : f ∈ latched d.words.faults) (hlt : ceiling f < m)
    (hm : m = .teleop ∨ m = .hold) : RefusedNext d m := by
  intro wake cmd es id hgot hset harg hv hack
  obtain ⟨hround, hlast, _⟩ := along_append.mp hv
  have hcap : ¬ m ≤ Interlock.cap ceiling (latched d.words.faults) := fun hle =>
    absurd (Interlock.le_cap_iff.mp hle f hf) (not_le.mpr hlt)
  have hstart : Answering cmd (latched d.words.faults) d.words.modeReq
      ((daemon c F ctl).machine.next d (.start .supervisor wake)) := by
    have hnext : (daemon c F ctl).machine.next d (.start .supervisor wake) = _ := next_start hl
    rw [hnext]
    refine ⟨rfl, rfl, ?_⟩
    simp only [Function.update_self]
    exact refusing_start hgot hset harg hm hcap l d.words
  have hstep : ∀ x e, (discipline c F ctl hctl).Kept x ∧
      Answering cmd (latched d.words.faults) d.words.modeReq x.1 →
      ((daemon c F ctl).machine.observe (discipline c F ctl hctl).track).enabled x e →
      (∀ id, e ≠ .access .supervisor (.ackId id)) →
      (discipline c F ctl hctl).Kept
          (((daemon c F ctl).machine.observe (discipline c F ctl hctl).track).next x e) ∧
        Answering cmd (latched d.words.faults) d.words.modeReq
          (((daemon c F ctl).machine.observe (discipline c F ctl hctl).track).next x e).1 :=
    fun x e hx he hne => ⟨hx.1.next he, answering_next hx.1 hx.2 he hne⟩
  obtain ⟨_, _, hmode, hway⟩ := invariant_along hstep ⟨hkept.next hround.1, hstart⟩
    (observe_valid hround.2) (along_of_forall fun e he _ id heq => hack id (heq ▸ he))
  rw [observe_run] at hmode hway
  obtain ⟨k, hk⟩ := access_enabled hlast
  change Refusing cmd _ (((daemon c F ctl).machine.run d (.start .supervisor wake :: es)).prog
    .supervisor) _ at hway
  rw [hk] at hway
  cases hway with
  | answered _ hresult => exact ⟨rfl, hresult, hmode⟩

end Runs

/-- The locals of `supervisor_thread` at its start, at `t0`; the overrun window opens at `t1`. -/
def startLocals (t0 t1 : ℤ) : Locals where
  lastCycle := 0
  lastAdvance := t0
  tempTicks := 0
  voltTicks := 0
  ovrBase := 0
  ovrT0 := t1

theorem persists_ceiling {F : Type*} {c : Ctx} {t0 : ℤ} {hist : List (Wakeup F)} {now : ℤ}
    {s : Sample F} {f : Fault} (h : Persists c t0 hist now s f) :
    ceiling f < .teleop ∧ (f ≠ .leaderComm → ceiling f < .hold) := by
  cases f with
  | overrun | estop | torqueRefused => exact h.elim
  | _ => decide

/-- A cause that persists survives whatever command the round has served: at the end of the
round its fault is latched, the mode is lowered, and the next round refuses to raise it. -/
theorem persistent_cause (c : Ctx) (F : Type) [CFloat F] (start t0 t1 : ℤ) {w : Words}
    (hf : w.faults = 0) (hm : w.modeReq ≠ .estop) {pre mid : List (Event (lockDaemon c F))}
    {wake : Wakeup F} {s : Sample F} {l' : Locals}
    (hv : (lockDaemon c F).machine.Valid
      (boot c F (controlRound c) (startLocals t0 t1) (startControl c start, []) w)
      (pre ++ .start .supervisor wake :: mid))
    (hmid : ∀ wake', .start .supervisor wake' ∉ mid)
    (hdone : ((lockDaemon c F).machine.run
      (boot c F (controlRound c) (startLocals t0 t1) (startControl c start, []) w)
      (pre ++ .start .supervisor wake :: mid)).prog .supervisor = .ret l')
    (hsnap : wake.snapshot = some s) (hhots : Countable (hot c) (rounds pre ++ [wake]))
    (hbads : Countable (badVolt c) (rounds pre ++ [wake])) :
    let d := (lockDaemon c F).machine.run
      (boot c F (controlRound c) (startLocals t0 t1) (startControl c start, []) w)
      (pre ++ .start .supervisor wake :: mid)
    let persists := Persists c t0 (rounds pre) wake.now s
    (∀ f, persists f → Has d.words.faults f) ∧
      (persists .leaderComm → d.words.modeReq ≠ .teleop) ∧
      (persists .followerComm ∨ persists .overtemp ∨ persists .voltage →
        d.words.modeReq = .idle ∨ d.words.modeReq = .estop) ∧
      (persists .stall → d.words.modeReq = .estop) ∧
      (∀ f, persists f → RefusedNext d .teleop) ∧
      (∀ f, persists f → f ≠ .leaderComm → RefusedNext d .hold) := by
  intro d persists
  have hboot := boot_kept (c := c) (F := F) (control_round_only (F := F) c) (startLocals t0 t1)
    (startControl c start, []) (clamped_boot hf hm)
  have hkept := Discipline.kept_run hboot hv
  obtain ⟨hlatched, hclamped⟩ := round_end hboot rfl rfl rfl rfl rfl hv hmid hdone hsnap hhots
    hbads rfl
  have hle : ∀ f, persists f → d.words.modeReq ≤ ceiling f :=
    fun f h => hclamped.le_ceiling (hlatched f h)
  refine ⟨fun f h => (mem_latched.mp (hlatched f h)).2, ?_, ?_, ?_, ?_, ?_⟩
  · intro h hteleop
    have := hle .leaderComm h
    rw [hteleop] at this
    exact absurd this (by decide)
  · rintro (h | h | h) <;> exact le_idle_iff.mp (hle _ h)
  · exact fun h => le_bot_iff.mp (hle .stall h)
  · exact fun f h => refused_next hkept hdone (hlatched f h) (persists_ceiling h).1 (Or.inl rfl)
  · exact fun f h hne =>
      refused_next hkept hdone (hlatched f h) ((persists_ceiling h).2 hne) (Or.inr rfl)

/-- A RESET is served while both arms have been silent for ten cycles. -/
def resetWhileSilent (c : Ctx) : List (Event (lockDaemon c ℚ)) :=
  let reset : Cmd := ⟨7, cmdReset, 0, 100⟩
  let silent : Sample ℚ := { zeroSample with leaderStreak := 10, followerStreak := 10 }
  [.start .supervisor ⟨some reset, 20, some silent⟩, .access .supervisor .loadFaults,
    .access .supervisor (.storeFaults reset 0),
    .access .supervisor (.storeMode (.command reset) .idle),
    .access .supervisor (.ackResult resOk), .access .supervisor (.ackId 7),
    .access .supervisor (.orFaults .leaderComm), .access .supervisor .loadMode,
    .access .supervisor (.orFaults .followerComm), .access .supervisor .loadMode,
    .access .supervisor .addBeat]

theorem persistent_cause_silent :
    let c := Ctx.default Calibration.fullRange Calibration.fullRange
    let d := (lockDaemon c ℚ).machine.run
      (boot c ℚ (controlRound c) (startLocals 0 0) (startControl c 0, []) ⟨.teleop, 0, 0, ⟨0, 0⟩⟩)
      (resetWhileSilent c)
    Has d.words.faults .followerComm ∧ RefusedNext d .hold := by
  intro c d
  have hmode : (⟨.teleop, 0, 0, ⟨0, 0⟩⟩ : Words).modeReq ≠ .estop := by decide
  have hv : (lockDaemon c ℚ).machine.Valid (boot c ℚ (controlRound c) (startLocals 0 0)
      (startControl c 0, []) ⟨.teleop, 0, 0, ⟨0, 0⟩⟩) (resetWhileSilent c) :=
    ⟨rfl, rfl, rfl, rfl, rfl, rfl, rfl, rfl, rfl, rfl, rfl, trivial⟩
  have hmid : ∀ wake', .start .supervisor wake' ∉ (resetWhileSilent c).tail := by
    intro wake' h
    simp [resetWhileSilent] at h
  obtain ⟨hlatched, _, _, _, _, hhold⟩ :=
    @persistent_cause c ℚ _ 0 0 0 _ rfl hmode [] _ _ _ _ hv hmid rfl rfl
      (countable_of_length (by decide)) (countable_of_length (by decide))
  have hsilent : Persists c 0 [] 20
      ({ zeroSample with leaderStreak := 10, followerStreak := 10 } : Sample ℚ) .followerComm := by
    change (10 : ℤ) ≥ 10
    decide
  exact ⟨hlatched _ hsilent, hhold _ hsilent (by decide)⟩

/-- A sample of cycle `n` with every servo at 70 degrees and 6 V. -/
def hotSample (n : ℕ) : Sample ℚ :=
  { zeroSample with
    cycle := n
    followerOk := true
    followerTemp := fun _ => 70
    followerVolt := fun _ => 60 }

theorem hot_sample_hot {c : Ctx} (h : c.tempLimit ≤ 70) (n : ℕ) : hot c (hotSample n) := ⟨0, h⟩

theorem hot_sample_volt {c : Ctx} (hmin : c.vminDv ≤ 60) (hmax : 60 ≤ c.vmaxDv) (n : ℕ) :
    ¬ badVolt c (hotSample n) := by
  rintro ⟨_, h | h⟩
  · exact absurd h hmin.not_gt
  · exact absurd h hmax.not_gt

def hotTick (k : ℕ) : Wakeup ℚ := ⟨none, 20 * (k + 1 : ℕ), some (hotSample (k + 1))⟩

def hotRounds (n : ℕ) : List (Wakeup ℚ) := (List.range n).map hotTick

theorem hot_rounds_succ (n : ℕ) : hotRounds (n + 1) = hotRounds n ++ [hotTick n] := by
  rw [hotRounds, List.range_succ, List.map_append]
  rfl

theorem hot_rounds_ok (n : ℕ) : (okSnapshots (hotRounds n)).length = n ∧
    ∀ s ∈ okSnapshots (hotRounds n), ∃ k, s = hotSample k := by
  induction n with
  | zero => exact ⟨rfl, by simp [hotRounds, okSnapshots]⟩
  | succ n ih =>
    obtain ⟨hlen, hall⟩ := ih
    have hone : okSnapshots [hotTick n] = [hotSample (n + 1)] := ok_snapshots_one rfl rfl
    rw [hot_rounds_succ, ok_snapshots_append, hone]
    constructor
    · rw [List.length_append, hlen]
      rfl
    · intro s hs
      rcases List.mem_append.mp hs with hs | hs
      · exact hall s hs
      · exact ⟨n + 1, List.mem_singleton.mp hs⟩

/-- After `n` hot rounds the counter holds `n`, as far as it can. -/
theorem after_hot_rounds {c : Ctx} (hhot : ∀ k, hot c (hotSample k)) (n : ℕ) :
    (afterRounds c (startLocals 0 0) (hotRounds n)).lastCycle = n ∧
      (afterRounds c (startLocals 0 0) (hotRounds n)).tempTicks = int32 n ∧
      (afterRounds c (startLocals 0 0) (hotRounds n)).ovrBase = 0 := by
  induction n with
  | zero =>
    have hzero : int32 ((0 : ℕ) : ℤ) = 0 := int32_of_mem (by decide) (by decide)
    exact ⟨rfl, hzero.symm, rfl⟩
  | succ n ih =>
    obtain ⟨_, hticks, hbase⟩ := ih
    have hsnoc : afterRounds c (startLocals 0 0) (hotRounds n ++ [hotTick n]) =
        nextLocals c (afterRounds c (startLocals 0 0) (hotRounds n)) (hotTick n) := by
      rw [afterRounds, List.foldl_append]
      rfl
    rw [hot_rounds_succ, hsnoc]
    generalize afterRounds c (startLocals 0 0) (hotRounds n) = l at hticks hbase ⊢
    refine ⟨?_, ?_, ?_⟩
    · have hseen := congrArg Seen.cycle (next_locals_seen c l (hotTick n))
      refine hseen.trans ?_
      simp only [Seen.next, hotTick]
      split_ifs with hnew
      · rfl
      · exact (not_not.mp hnew).symm
    · have hone : okSnapshots [hotTick n] = [hotSample (n + 1)] := ok_snapshots_one rfl rfl
      rw [(next_locals_ticks c l (hotTick n)).1, hone, List.foldl_cons, List.foldl_nil, tick,
        if_pos (hhot _), hticks, int32_add_one, Nat.cast_succ]
    · have hkept : ∀ l' : Locals, l'.ovrBase = 0 →
          (overrunLocals l' (hotTick n).now (hotSample (n + 1))).ovrBase = 0 := by
        intro l' h
        unfold overrunLocals
        split_ifs
        · rfl
        · exact h
      apply hkept
      simp only [servoLocals, stallLocals]
      split_ifs <;> exact hbase

theorem safety_checks_quiet {F : Type*} {c : Ctx} {l : Locals} {now : ℤ} {s : Sample F}
    (hcycle : s.cycle ≠ l.lastCycle) (hleader : ¬ (s.leaderStreak : ℤ) ≥ c.commStreak)
    (hfollower : ¬ (s.followerStreak : ℤ) ≥ c.commStreak)
    (htemp : ¬ (if hot c s then int32 (l.tempTicks + 1) else 0) ≥ persistTicks)
    (hvolt : ¬ badVolt c s) (hovr : ¬ (s.overruns - l.ovrBase).toNat > overrunPerS) :
    ∃ l', safetyChecks c l now s = addBeat >>= fun _ => pure l' := by
  have hstall : checkStall l now s = pure (stallLocals l now s) := by
    rw [checkStall, stallLocals, if_pos hcycle, if_pos hcycle]
  have hcomm : checkComm c s = pure () := by
    rw [checkComm, raiseWhen, raiseWhen, if_neg hleader, if_neg hfollower]
    rfl
  have hservos : ∀ l₁ : Locals, l₁.tempTicks = l.tempTicks →
      checkServos c l₁ s = pure (servoLocals c l₁ s) := by
    intro l₁ hticks
    have hnone : ¬ (0 : ℤ) ≥ persistTicks := by decide
    rw [← hticks] at htemp
    simp only [checkServos, servoLocals, raiseWhen, if_neg htemp, if_neg hvolt, if_neg hnone]
    split_ifs <;> rfl
  have hoverruns : ∀ l₂ : Locals, l₂.ovrBase = l.ovrBase →
      checkOverruns l₂ now s = pure (overrunLocals l₂ now s) := by
    intro l₂ hbase
    rw [← hbase] at hovr
    simp only [checkOverruns, overrunLocals, raiseWhen, if_neg hovr]
    split_ifs <;> rfl
  have hbase : (servoLocals c (stallLocals l now s) s).ovrBase = l.ovrBase := by
    simp only [servoLocals, stallLocals]
    split_ifs <;> rfl
  refine ⟨overrunLocals (servoLocals c (stallLocals l now s) s) now s, ?_⟩
  rw [safetyChecks, hstall, hcomm]
  change (checkServos c (stallLocals l now s) s >>= _) = _
  rw [hservos _ (stall_locals_ticks l now s).1]
  change (checkOverruns (servoLocals c (stallLocals l now s) s) now s >>= _) = _
  rw [hoverruns _ hbase]
  rfl

def hotReset (n : ℕ) : Wakeup ℚ :=
  ⟨some ⟨7, cmdReset, 0, 100⟩, 20 * (n + 1 : ℕ), some (hotSample (n + 1))⟩

theorem hot_reset_faults {c : Ctx} {l : Locals} {n : ℕ} (hcycle : l.lastCycle = n)
    (hbase : l.ovrBase = 0) (hstreak : ¬ (0 : ℤ) ≥ c.commStreak) (hhot : hot c (hotSample (n + 1)))
    (hvolt : ¬ badVolt c (hotSample (n + 1))) (hwrap : int32 (l.tempTicks + 1) < persistTicks)
    (w : Words) : ((supervisorThread c l (hotReset n)).eval wordMemory w).2.faults = 0 := by
  have hnew : (hotSample (n + 1)).cycle ≠ l.lastCycle := by
    rw [hcycle]
    exact Nat.succ_ne_self n
  have hovr : ¬ ((hotSample (n + 1)).overruns - l.ovrBase).toNat > overrunPerS := by
    have hnone : (hotSample (n + 1)).overruns = 0 := rfl
    rw [hbase, hnone]
    decide
  have htemp : ¬ (if hot c (hotSample (n + 1)) then int32 (l.tempTicks + 1) else 0) ≥
      persistTicks := by
    rw [if_pos hhot]
    exact not_le.mpr hwrap
  obtain ⟨l', hchecks⟩ : ∃ l', safetyChecks c l (hotReset n).now (hotSample (n + 1)) =
      addBeat >>= fun _ => pure l' :=
    safety_checks_quiet hnew hstreak hstreak htemp hvolt hovr
  have hround : supervisorThread c l (hotReset n) =
      answerCommand (hotReset n).got >>= fun _ => safetyChecks c l (hotReset n).now
        (hotSample (n + 1)) := rfl
  rw [hround, hchecks]
  rfl

/-- After 2^31 - 1 hot samples in a row the next one wraps the counter, and a RESET served
in that round leaves OVERTEMP off. -/
theorem persistent_cause_wraps :
    let c := Ctx.default Calibration.fullRange Calibration.fullRange
    let b := boot c ℚ (controlRound c) (startLocals 0 0) (startControl c 0, [])
      ⟨.idle, 0, 0, ⟨0, 0⟩⟩
    ∃ (pre mid : List (Event (lockDaemon c ℚ))) (wake : Wakeup ℚ) (s : Sample ℚ) (l' : Locals),
      (lockDaemon c ℚ).machine.Valid b (pre ++ .start .supervisor wake :: mid) ∧
      (∀ wake', .start .supervisor wake' ∉ mid) ∧
      ((lockDaemon c ℚ).machine.run b (pre ++ .start .supervisor wake :: mid)).prog
        .supervisor = .ret l' ∧
      wake.snapshot = some s ∧ Persists c 0 (rounds pre) wake.now s .overtemp ∧
      ¬ Has ((lockDaemon c ℚ).machine.run b
        (pre ++ .start .supervisor wake :: mid)).words.faults .overtemp := by
  intro c b
  have hhot := hot_sample_hot (c := c) (by simp [c, Ctx.default])
  have hvolt := hot_sample_volt (c := c) (by simp [c, Ctx.default]) (by simp [c, Ctx.default])
  have hstreak : ¬ (0 : ℤ) ≥ c.commStreak := by simp [c, Ctx.default]
  obtain ⟨n, hn⟩ : ∃ n : ℕ, n = 2 ^ 31 - 1 := ⟨_, rfl⟩
  obtain ⟨pre, hpre, hrounds, hbefore⟩ :=
    rounds_alone (s := b) (l := startLocals 0 0) rfl (hotRounds n)
  obtain ⟨hcycle, hticks, hbase⟩ := after_hot_rounds hhot n
  obtain ⟨mid, honly, hmid, hdone, hwords⟩ := round_alone hbefore (hotReset n)
  have hwrap : int32 ((afterRounds c (startLocals 0 0) (hotRounds n)).tempTicks + 1) <
      persistTicks := by
    rw [hticks, int32_add_one, hn]
    decide
  rw [← run_append] at hdone hwords
  refine ⟨pre, mid, hotReset n, hotSample (n + 1), _, ?_, ?_, hdone, rfl, ?_, ?_⟩
  · exact along_append.mpr ⟨hpre, hmid⟩
  · intro wake' hin
    obtain ⟨o, ho⟩ := honly _ hin
    cases ho
  · rw [hrounds]
    obtain ⟨hlen, hall⟩ := hot_rounds_ok n
    refine ⟨rfl, hhot _, _, List.suffix_refl _, ?_, ?_⟩
    · rw [hlen, hn]
      decide
    · intro s hs
      obtain ⟨k, rfl⟩ := hall s hs
      exact hhot k
  · have hnone : ((lockDaemon c ℚ).machine.run b
        (pre ++ .start .supervisor (hotReset n) :: mid)).words.faults = 0 :=
      (congrArg Words.faults hwords).trans
        (hot_reset_faults hcycle hbase hstreak (hhot _) (hvolt _) hwrap _)
    rw [hnone]
    exact not_has_zero .overtemp

end PersistentCause
