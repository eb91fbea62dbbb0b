import Mathlib.Tactic.Ring
import So101.ReopenSchedule
import So101.Lib.SlotGrid

/-!
# The fixed grid of the control thread

What a cycle does to the next slot and to the timing results depends on the clock alone.
The next slot stays on the grid of its start for as long as the grid has a slot for the
clock in 64 bits; the slots that a late cycle skips are counted once, and they are as few
as bring the slot to the last reading of the clock.
-/
namespace FixedGrid

open GuardedMachine ServoBus ControlThread ControlCycle ReopenSchedule SlotGrid
open Calibration (CFloat)
open SharedMemory (Sample Ctx U32 int32 int64 int64_mem int64_of_mem)

variable {F : Type*}

structure Timing where
  next : ℤ
  cycle : ℕ
  wakeLatNs : ℤ
  execNs : ℤ
  maxWakeLatNs : ℤ
  maxExecNs : ℤ
  overruns : U32
  missedSlots : U32

def timing (st : Control F) : Timing where
  next := st.next
  cycle := st.s.cycle
  wakeLatNs := st.s.wakeLatNs
  execNs := st.s.execNs
  maxWakeLatNs := st.s.maxWakeLatNs
  maxExecNs := st.s.maxExecNs
  overruns := st.s.overruns
  missedSlots := st.s.missedSlots

def skipped (c : Ctx) (inp : Input) (st : Control F) : ℕ :=
  rounds (addPeriod c.period) inp.now slotValues (addPeriod c.period st.next)

def slotAfter (c : Ctx) (inp : Input) (st : Control F) : ℤ :=
  (addPeriod c.period)^[skipped c inp st] (addPeriod c.period st.next)

theorem catch_up_rounds (period now : ℤ) (n : ℕ) (next : ℤ) (missed : U32) :
    catchUp period now n (next, missed) =
      ((addPeriod period)^[rounds (addPeriod period) now n next] next,
        missed + BitVec.ofNat 32 (rounds (addPeriod period) now n next)) := by
  induction n generalizing next missed with
  | zero => simp [catchUp, rounds]
  | succ n ih =>
    by_cases h : next < now
    · rw [catchUp, if_pos h, ih, rounds_of_lt h, BitVec.ofNat_add, Prod.mk.injEq]
      constructor
      · rw [Function.iterate_succ_apply]
      · rw [BitVec.add_assoc, BitVec.add_comm 1]
        rfl
    · rw [catchUp, if_neg h, rounds_of_le (not_lt.mp h)]
      simp

theorem skipped_pos_iff {c : Ctx} {inp : Input} {st : Control F} :
    0 < skipped c inp st ↔ addPeriod c.period st.next < inp.now := by
  obtain ⟨n, hn⟩ : ∃ n, slotValues = n + 1 := ⟨2 ^ 64 - 1, by decide⟩
  rw [skipped, hn]
  exact rounds_pos_iff

section Section

variable (c : Ctx) (inp : Input) (st : Control F)

theorem timing_next_slot : timing (nextSlot c inp st) =
    { timing st with
      next := slotAfter c inp st
      overruns := st.s.overruns + if 0 < skipped c inp st then 1 else 0
      missedSlots := st.s.missedSlots + BitVec.ofNat 32 (skipped c inp st) } := by
  by_cases h : 0 < skipped c inp st
  · have hlate : inp.now > addPeriod c.period st.next := skipped_pos_iff.mp h
    simp only [nextSlot, if_pos hlate, catch_up_rounds, if_pos h]
    rfl
  · have hlate : ¬ inp.now > addPeriod c.period st.next := fun hlt => h (skipped_pos_iff.mpr hlt)
    have hnone : skipped c inp st = 0 := Nat.eq_zero_of_not_pos h
    simp [nextSlot, if_neg hlate, slotAfter, hnone, timing]

theorem timing_enter_mode (req : SharedMemory.Mode) : timing (enterMode req st) = timing st := by
  simp only [enterMode]
  split_ifs <;> rfl

theorem timing_mode_transition : timing (modeTransition c inp st).1 = timing st := by
  have htransition := mode_transition c inp st
  generalize modeTransition c inp st = result at htransition ⊢
  cases htransition with
  | same | refused => rfl
  | kept | limp => exact timing_enter_mode st _
  | enabled | released => rw [timing_enter_mode]; rfl

variable [CFloat F]

theorem timing_read_leader : timing (readLeader c inp st).1 = timing st := by
  cases h : inp.leaderRead <;> simp only [readLeader, leaderSample, h] <;> split_ifs <;> rfl

theorem timing_read_follower : timing (readFollower c inp st).1 = timing st := by
  cases h : inp.followerRead <;> simp only [readFollower, followerSample, h] <;>
    split_ifs <;> rfl

theorem timing_move_goal : timing (moveGoal c inp st).1 = timing st := by
  simp only [moveGoal]
  split_ifs <;> rfl

theorem cycle_timing : timing (controlCycle c inp st).1 =
    { next := slotAfter c inp st
      cycle := st.s.cycle + 1
      wakeLatNs := int32 (inp.wake - st.next)
      execNs := int32 (inp.execEnd - inp.wake)
      maxWakeLatNs := max st.s.maxWakeLatNs (int32 (inp.wake - st.next))
      maxExecNs := max st.s.maxExecNs (int32 (inp.execEnd - inp.wake))
      overruns := st.s.overruns + if 0 < skipped c inp st then 1 else 0
      missedSlots := st.s.missedSlots + BitVec.ofNat 32 (skipped c inp st) } := by
  have hmoved : timing (moveGoal c inp (modeTransition c inp (readBuses c inp st).1).1).1 =
      timing (wakeUp inp st) := by
    rw [timing_move_goal, timing_mode_transition, readBuses]
    exact (timing_read_follower c inp _).trans (timing_read_leader c inp _)
  simp only [controlCycle, timing_next_slot]
  generalize (moveGoal c inp (modeTransition c inp (readBuses c inp st).1).1).1 = st' at hmoved
  simp only [timing, wakeUp, Timing.mk.injEq] at hmoved
  obtain ⟨hnext, hcycle, hwake, _, hmaxWake, hmaxExec, hoverruns, hmissed⟩ := hmoved
  have hskipped : skipped c inp (publish inp st') = skipped c inp st := by
    simp only [skipped, publish, hnext]
  have hslot : slotAfter c inp (publish inp st') = slotAfter c inp st := by
    rw [slotAfter, hskipped, publish, hnext]
    rfl
  simp only [hskipped, hslot]
  simp only [timing, publish, hcycle, hwake, hmaxWake, hmaxExec, hoverruns, hmissed,
    Timing.mk.injEq, true_and, and_true]
  constructor
  · split_ifs <;> omega
  · split_ifs <;> omega

end Section

section Slots

variable {c : Ctx} {inp : Input} {st : Control F}

theorem slot_after_mem (c : Ctx) (inp : Input) (st : Control F) :
    -2 ^ 63 ≤ slotAfter c inp st ∧ slotAfter c inp st < 2 ^ 63 := by
  unfold slotAfter
  rw [← Function.iterate_succ_apply, Function.iterate_succ_apply']
  exact int64_mem _

theorem adds_period {period next : ℤ} (hperiod : 0 < period) (hnext : -2 ^ 63 ≤ next) :
    Adds (addPeriod period) period (2 ^ 63) next :=
  fun _ hx hsum => int64_of_mem (by omega) hsum

/-- From a 64-bit slot there are fewer slots ahead than `next` has values. -/
theorem slots_le {period next : ℤ} (hperiod : 0 < period) (hnext : -2 ^ 63 ≤ next) (k : ℕ)
    (h : next + k • period < 2 ^ 63) : k ≤ slotValues := by
  have hlong := le_mul_of_one_le_right (Int.natCast_nonneg k) hperiod (a := (k : ℤ))
  rw [nsmul_eq_mul] at h
  unfold slotValues
  omega

/-- A slot after the present one is not before the last reading, and has a 64-bit value. -/
def SlotFits (c : Ctx) (st : Control F) (inp : Input) : Prop :=
  Reachable c.period (2 ^ 63) inp.now (st.next + c.period)

theorem skipped_stops (hperiod : 0 < c.period) (hnext : -2 ^ 63 ≤ st.next)
    (h : SlotFits c st inp) : addPeriod c.period st.next = st.next + c.period ∧
      Stops (addPeriod c.period) c.period (2 ^ 63) inp.now (st.next + c.period) slotValues := by
  obtain ⟨k, hk, hlimit⟩ := h
  have hlow : -2 ^ 63 ≤ st.next + c.period := by omega
  have hfirst : st.next + c.period < 2 ^ 63 :=
    (le_add_of_nonneg_right (nsmul_nonneg hperiod.le k)).trans_lt hlimit
  exact ⟨int64_of_mem hlow hfirst, stops_of_reachable hperiod.le (adds_period hperiod hlow)
    (slots_le hperiod hlow) ⟨k, hk, hlimit⟩⟩

end Slots

section Runs

variable [CFloat F] (c : Ctx)

/-- The slots skipped since the start, and the cycles that skipped some. -/
def missed (c : Ctx) (r : ControlRun F) (inputs : List Input) : ℕ :=
  (controlThread c).total (fun r inp => skipped c inp r.st) r inputs
def lateCycles (c : Ctx) (r : ControlRun F) (inputs : List Input) : ℕ :=
  (controlThread c).total (fun r inp => if 0 < skipped c inp r.st then 1 else 0) r inputs

theorem late_cycles_le_missed (r : ControlRun F) (inputs : List Input) :
    lateCycles c r inputs ≤ missed c r inputs := by
  apply total_le_total
  intro r inp
  split_ifs with h
  · exact h
  · exact Nat.zero_le _

/-- The counters hold the cycles, the slots skipped and the late cycles. -/
structure Counted (cycles missed late : ℕ) (st : Control F) : Prop where
  cycle : st.s.cycle = cycles
  missed_slots : st.s.missedSlots = BitVec.ofNat 32 missed
  overruns : st.s.overruns = BitVec.ofNat 32 late
  next_ge : -2 ^ 63 ≤ st.next

theorem counted_next {c : Ctx} {cycles missed late : ℕ} {st : Control F}
    (h : Counted cycles missed late st) (inp : Input) :
    Counted (cycles + 1) (missed + skipped c inp st)
      (late + if 0 < skipped c inp st then 1 else 0) (controlCycle c inp st).1 := by
  have htiming := cycle_timing c inp st
  simp only [timing, Timing.mk.injEq] at htiming
  obtain ⟨hnext, hcycle, _, _, _, _, hoverruns, hmissed⟩ := htiming
  constructor
  · rw [hcycle, h.cycle]
  · rw [hmissed, h.missed_slots, BitVec.ofNat_add]
  · rw [hoverruns, h.overruns, BitVec.ofNat_add]
    by_cases hlate : 0 < skipped c inp st <;> simp [hlate]
  · rw [hnext]
    exact (slot_after_mem c inp st).1

variable (now : ℤ) (sentFollower sentLeader : Bool)

theorem run_counted (inputs : List Input) :
    Counted inputs.length
      (missed c (startUp c now sentFollower sentLeader : ControlRun F) inputs)
      (lateCycles c (startUp c now sentFollower sentLeader : ControlRun F) inputs)
      (runFrom c now sentFollower sentLeader inputs : ControlRun F).st := by
  induction inputs using List.reverseRecOn with
  | nil => exact ⟨rfl, rfl, rfl, (int64_mem _).1⟩
  | append_singleton inputs inp ih =>
    rw [run_from_snoc, missed, lateCycles, total_snoc, total_snoc, List.length_append]
    exact counted_next ih inp

theorem next_snoc (inputs : List Input) (inp : Input) :
    (runFrom c now sentFollower sentLeader (inputs ++ [inp]) : ControlRun F).st.next =
      slotAfter c inp (runFrom c now sentFollower sentLeader inputs : ControlRun F).st := by
  rw [run_from_snoc]
  exact congrArg Timing.next (cycle_timing c inp _)

structure Accounting (c : Ctx) (start : ControlRun F) (inputs : List Input) (inp : Input) :
    Prop where
  grid : ((controlThread c).run start (inputs ++ [inp])).st.next = start.st.next + c.period *
    (((controlThread c).run start (inputs ++ [inp])).st.s.cycle + missed c start (inputs ++ [inp]))
  missed_slots : ((controlThread c).run start (inputs ++ [inp])).st.s.missedSlots =
    BitVec.ofNat 32 (missed c start (inputs ++ [inp]))
  reached : inp.now ≤ ((controlThread c).run start (inputs ++ [inp])).st.next
  grew : missed c start inputs < missed c start (inputs ++ [inp]) ↔
    ((controlThread c).run start inputs).st.next + c.period < inp.now
  least : IsLeast
    {k : ℕ | inp.now ≤ ((controlThread c).run start inputs).st.next + c.period + c.period * k}
    (missed c start (inputs ++ [inp]) - missed c start inputs)
  overruns : ((controlThread c).run start (inputs ++ [inp])).st.s.overruns =
    BitVec.ofNat 32 (lateCycles c start (inputs ++ [inp]))
  overruns_le : lateCycles c start (inputs ++ [inp]) ≤ missed c start (inputs ++ [inp]) ∧
    ((controlThread c).run start (inputs ++ [inp])).st.s.overruns.toNat ≤
      missed c start (inputs ++ [inp])

def OnGrid (c : Ctx) (start : ControlRun F) (inputs : List Input) : Prop :=
  ((controlThread c).run start inputs).st.next = start.st.next + c.period *
    (((controlThread c).run start inputs).st.s.cycle + missed c start inputs)

variable {c now sentFollower sentLeader}

theorem on_grid_start : OnGrid c (startUp c now sentFollower sentLeader : ControlRun F) [] := by
  change _ = _ + c.period * ((0 : ℕ) + (0 : ℕ))
  simp

theorem next_slot_fits (hperiod : 0 < c.period) {inputs : List Input} {inp : Input}
    (hfits : SlotFits c (runFrom c now sentFollower sentLeader inputs : ControlRun F).st inp) :
    let st := (runFrom c now sentFollower sentLeader inputs : ControlRun F).st
    (runFrom c now sentFollower sentLeader (inputs ++ [inp]) : ControlRun F).st.next =
        st.next + c.period + c.period * skipped c inp st ∧
      addPeriod c.period st.next = st.next + c.period ∧
      IsLeast {k : ℕ | inp.now ≤ st.next + c.period + c.period * k} (skipped c inp st) := by
  intro st
  have hcounted := run_counted (F := F) c now sentFollower sentLeader inputs
  obtain ⟨hfirst, hstops⟩ := skipped_stops hperiod hcounted.next_ge hfits
  have hskipped : skipped c inp st =
      rounds (addPeriod c.period) inp.now slotValues (st.next + c.period) := by
    rw [skipped, hfirst]
  have hslot := hstops.slot
  have hleast := hstops.least
  rw [← hskipped] at hslot hleast
  simp only [nsmul_eq_mul, mul_comm _ c.period] at hslot hleast
  refine ⟨?_, hfirst, hleast⟩
  rw [next_snoc, slotAfter, hfirst]
  exact hslot

/-- A cycle with a slot for the clock, from a slot on the grid, leaves the account right. -/
theorem accounting_next (hperiod : 0 < c.period) {inputs : List Input} {inp : Input}
    (hgrid : OnGrid c (startUp c now sentFollower sentLeader : ControlRun F) inputs)
    (hfits : SlotFits c (runFrom c now sentFollower sentLeader inputs : ControlRun F).st inp) :
    Accounting c (startUp c now sentFollower sentLeader : ControlRun F) inputs inp := by
  obtain ⟨hnext, hfirst, hleast⟩ := next_slot_fits hperiod hfits
  have hcounted := run_counted (F := F) c now sentFollower sentLeader inputs
  have hcounted' := run_counted (F := F) c now sentFollower sentLeader (inputs ++ [inp])
  have hlate := late_cycles_le_missed c
    (startUp c now sentFollower sentLeader : ControlRun F) (inputs ++ [inp])
  have hafter : missed c (startUp c now sentFollower sentLeader : ControlRun F)
      (inputs ++ [inp]) = missed c (startUp c now sentFollower sentLeader : ControlRun F) inputs +
        skipped c inp (runFrom c now sentFollower sentLeader inputs : ControlRun F).st :=
    total_snoc _ _ _
  constructor
  · change (runFrom c now sentFollower sentLeader (inputs ++ [inp]) : ControlRun F).st.next =
      _ + c.period * ((runFrom c now sentFollower sentLeader (inputs ++ [inp]) :
        ControlRun F).st.s.cycle + _)
    change (runFrom c now sentFollower sentLeader inputs : ControlRun F).st.next =
      _ + c.period * ((runFrom c now sentFollower sentLeader inputs :
        ControlRun F).st.s.cycle + _) at hgrid
    rw [hnext, hgrid, hafter, hcounted.cycle, hcounted'.cycle, List.length_append,
      List.length_singleton]
    push_cast
    ring
  · exact hcounted'.missed_slots
  · exact hleast.1.trans hnext.ge
  · rw [hafter, Nat.lt_add_right_iff_pos, skipped_pos_iff, hfirst]
    rfl
  · rw [hafter, Nat.add_sub_cancel_left]
    exact hleast
  · exact hcounted'.overruns
  · refine ⟨hlate, ?_⟩
    change (runFrom c now sentFollower sentLeader (inputs ++ [inp]) :
      ControlRun F).st.s.overruns.toNat ≤ _
    rw [hcounted'.overruns, BitVec.toNat_ofNat]
    exact (Nat.mod_le _ _).trans hlate

theorem slot_fits_of_accounting {inputs : List Input} {inp : Input}
    (hgrid : OnGrid c (startUp c now sentFollower sentLeader : ControlRun F) inputs)
    (h : Accounting c (startUp c now sentFollower sentLeader : ControlRun F) inputs inp) :
    SlotFits c (runFrom c now sentFollower sentLeader inputs : ControlRun F).st inp := by
  have hcounted := run_counted (F := F) c now sentFollower sentLeader inputs
  have hcounted' := run_counted (F := F) c now sentFollower sentLeader (inputs ++ [inp])
  have hlimit := (slot_after_mem c inp
    (runFrom c now sentFollower sentLeader inputs : ControlRun F).st).2
  rw [← next_snoc] at hlimit
  have hafter : missed c (startUp c now sentFollower sentLeader : ControlRun F)
      (inputs ++ [inp]) = missed c (startUp c now sentFollower sentLeader : ControlRun F) inputs +
        skipped c inp (runFrom c now sentFollower sentLeader inputs : ControlRun F).st :=
    total_snoc _ _ _
  have hgrid' := h.grid
  change (runFrom c now sentFollower sentLeader (inputs ++ [inp]) : ControlRun F).st.next =
    _ + c.period * ((runFrom c now sentFollower sentLeader (inputs ++ [inp]) :
      ControlRun F).st.s.cycle + _) at hgrid'
  change (runFrom c now sentFollower sentLeader inputs : ControlRun F).st.next =
    _ + c.period * ((runFrom c now sentFollower sentLeader inputs :
      ControlRun F).st.s.cycle + _) at hgrid
  have hnext : (runFrom c now sentFollower sentLeader (inputs ++ [inp]) : ControlRun F).st.next =
      (runFrom c now sentFollower sentLeader inputs : ControlRun F).st.next + c.period +
        skipped c inp (runFrom c now sentFollower sentLeader inputs : ControlRun F).st •
          c.period := by
    rw [hgrid', hgrid, hafter, hcounted.cycle, hcounted'.cycle, List.length_append,
      List.length_singleton, nsmul_eq_mul]
    push_cast
    ring
  refine ⟨_, h.reached.trans hnext.le, ?_⟩
  rw [← hnext]
  exact hlimit

end Runs

section Grid

variable [CFloat F]

/-- The account of the slots is right after every cycle, exactly in the runs in which every
cycle has a slot for its last reading. -/
theorem fixed_grid (c : Ctx) (hperiod : 0 < c.period) (now : ℤ) (sentFollower sentLeader : Bool)
    (inputs : List Input) :
    let start : ControlRun F := startUp c now sentFollower sentLeader
    (∀ pre inp, pre ++ [inp] <+: inputs → Accounting c start pre inp) ↔
      (controlThread c).Along (fun r inp => SlotFits c r.st inp) start inputs := by
  intro start
  constructor
  · intro h
    apply along_iff_prefix.mpr
    intro pre inp hpre
    have hgrid : OnGrid c start pre := by
      cases pre using List.reverseRecOn with
      | nil => exact on_grid_start
      | append_singleton pre before =>
        exact (h pre before ((List.prefix_append _ [inp]).trans hpre)).grid
    exact slot_fits_of_accounting hgrid (h pre inp hpre)
  · intro h
    have hfits := along_iff_prefix.mp h
    -- each cycle leaves a slot on the grid to the next
    have hgrid : ∀ pre, pre <+: inputs → OnGrid c start pre := by
      intro pre
      induction pre using List.reverseRecOn with
      | nil => exact fun _ => on_grid_start
      | append_singleton pre inp ih =>
        intro hpre
        have hbefore := ih ((List.prefix_append pre [inp]).trans hpre)
        exact (accounting_next hperiod hbefore (hfits pre inp hpre)).grid
    intro pre inp hpre
    have hbefore := hgrid pre ((List.prefix_append pre [inp]).trans hpre)
    exact accounting_next hperiod hbefore (hfits pre inp hpre)

def shifted (t : ℤ) (inp : Input) : Input :=
  { inp with
    wake := inp.wake + t
    t0 := inp.t0 + t
    t1 := inp.t1 + t
    t2 := inp.t2 + t
    execEnd := inp.execEnd + t
    now := inp.now + t }

/-- A cycle on time, and one that wakes 22 ms after its slot. -/
theorem fixed_grid_stalled :
    let c := Ctx.default Calibration.fullRange Calibration.fullRange
    let start : ControlRun ℚ := startUp c 0 true true
    Accounting c start [shifted 10000000 quietInput] (shifted 42000000 quietInput) := by
  intro c start
  apply (fixed_grid (F := ℚ) c (by decide) 0 true true
    [shifted 10000000 quietInput, shifted 42000000 quietInput]).mpr _ _ _ (List.prefix_refl _)
  refine ⟨⟨0, by decide, by decide⟩, ⟨3, by decide, by decide⟩, trivial⟩

/-- The longest period that fits, which `control_thread` computes of the slowest rates. -/
def longestPeriod : ℤ := 2 ^ 63 - 1024

/-- With that period no slot after the first cycle is a later time that 64 bits can hold. -/
theorem fixed_grid_overflows :
    let c := { Ctx.default Calibration.fullRange Calibration.fullRange with
      period := longestPeriod }
    let start : ControlRun ℚ := startUp c 1000000000 true true
    let inp := shifted 1000001000 quietInput
    0 < c.period ∧
      [1000000000, inp.wake, inp.t0, inp.t1, inp.t2, inp.execEnd, inp.now].Pairwise (· ≤ ·) ∧
      ¬ Accounting c start [] inp := by
  intro c start inp
  refine ⟨by decide, by decide, fun hacc => ?_⟩
  obtain ⟨k, hreach, hlimit⟩ := slot_fits_of_accounting on_grid_start hacc
  rw [nsmul_eq_mul] at hreach hlimit
  have hnext : (runFrom c 1000000000 true true [] : ControlRun ℚ).st.next =
      1000000000 + longestPeriod - 2 ^ 64 := by decide
  have hperiod : c.period = 2 ^ 63 - 1024 := rfl
  have hnow : (shifted 1000001000 quietInput).now = 1003001000 := rfl
  rw [hnext, hperiod, longestPeriod] at hreach hlimit
  rw [hnow] at hreach
  rcases Nat.eq_zero_or_pos k with rfl | hk
  · omega
  · have hone : (1 : ℤ) ≤ k := by exact_mod_cast hk
    omega

end Grid

end FixedGrid
