import Mathlib.Order.Bounds.Basic
import So101.FixedGrid

/-!
# The published timing results

Latency and execution time are differences of 64-bit readings that are narrowed to
`int32_t`, and the maxima are taken of what is left. They are right in exactly the runs in
which no cycle is off its slot, and no cycle lasts, beyond what 32 bits can say.
-/
namespace TimingMaxima

open GuardedMachine ServoBus ControlThread ControlCycle ReopenSchedule FixedGrid
open Calibration (CFloat)
open SharedMemory (Sample Ctx int32 int32_eq_iff)

def readings (inp : Input) : List ℤ :=
  [inp.wake, inp.t0, inp.t1, inp.t2, inp.execEnd, inp.now]

/-- The clock never goes back, from the reading before the first cycle on. -/
def ClockRuns (start : ℤ) (inputs : List Input) : Prop :=
  (start :: inputs.flatMap readings).Pairwise (· ≤ ·)

instance (start : ℤ) (inputs : List Input) : Decidable (ClockRuns start inputs) :=
  inferInstanceAs (Decidable (List.Pairwise _ _))

def execTime (inp : Input) : ℤ := inp.execEnd - inp.wake

theorem exec_time_nonneg {start : ℤ} {inputs : List Input} (h : ClockRuns start inputs)
    {inp : Input} (hmem : inp ∈ inputs) : 0 ≤ execTime inp := by
  have hcycle : (readings inp).Pairwise (· ≤ ·) := by
    apply List.Pairwise.sublist _ (List.pairwise_cons.mp h).2
    rw [List.flatMap_def]
    exact List.sublist_flatten_of_mem (List.mem_map_of_mem hmem)
  have hend : inp.wake ≤ inp.execEnd := List.rel_of_pairwise_cons hcycle (by simp)
  exact sub_nonneg.mpr hend

variable {F : Type*} [CFloat F]

def latency (r : ControlRun F) (inp : Input) : ℤ := inp.wake - r.st.next

def latencies (c : Ctx) (r : ControlRun F) (inputs : List Input) : List ℤ :=
  (controlThread c).outputs latency r inputs

structure TrueTiming (c : Ctx) (start : ControlRun F) (inputs : List Input) (inp : Input) :
    Prop where
  wake_lat : ((controlThread c).run start (inputs ++ [inp])).st.s.wakeLatNs =
    inp.wake - ((controlThread c).run start inputs).st.next
  exec : ((controlThread c).run start (inputs ++ [inp])).st.s.execNs = inp.execEnd - inp.wake
  max_wake_lat : IsGreatest (insert 0 {x | x ∈ latencies c start (inputs ++ [inp])})
    ((controlThread c).run start (inputs ++ [inp])).st.s.maxWakeLatNs
  max_exec : IsGreatest {x | x ∈ (inputs ++ [inp]).map execTime}
    ((controlThread c).run start (inputs ++ [inp])).st.s.maxExecNs

/-- The cycle begins within 2^31 ns of its slot and lasts less than 2^31 ns. -/
def Fits (r : ControlRun F) (inp : Input) : Prop :=
  -2 ^ 31 ≤ latency r inp ∧ latency r inp < 2 ^ 31 ∧ execTime inp < 2 ^ 31

instance (r : ControlRun F) (inp : Input) : Decidable (Fits r inp) :=
  inferInstanceAs (Decidable (_ ∧ _ ∧ _))

variable {c : Ctx} {start : ControlRun F} {inputs : List Input} {inp : Input}

theorem run_snoc_st : ((controlThread c).run start (inputs ++ [inp])).st =
    (controlCycle c inp ((controlThread c).run start inputs).st).1 := by
  rw [run_append, run_cons, run_nil]
  rfl

theorem latencies_snoc : latencies c start (inputs ++ [inp]) =
    latencies c start inputs ++ [latency ((controlThread c).run start inputs) inp] :=
  outputs_snoc _ _ _ _

/-- The maxima of the times as they are, with 0 before the first cycle. -/
structure TrueMaxima (c : Ctx) (start : ControlRun F) (inputs : List Input) : Prop where
  wake_lat : IsGreatest (insert 0 {x | x ∈ latencies c start inputs})
    ((controlThread c).run start inputs).st.s.maxWakeLatNs
  exec : IsGreatest (insert 0 {x | x ∈ inputs.map execTime})
    ((controlThread c).run start inputs).st.s.maxExecNs

theorem greatest_snoc {l : List ℤ} {m x : ℤ} (h : IsGreatest (insert 0 {y | y ∈ l}) m) :
    IsGreatest (insert 0 {y | y ∈ l ++ [x]}) (max m x) := by
  have hset : insert 0 {y | y ∈ l ++ [x]} = insert x (insert 0 {y | y ∈ l}) := by
    ext y
    simp
    tauto
  rw [hset, max_comm]
  exact h.insert x

omit [CFloat F] in
theorem fits_eq {r : ControlRun F} (h : Fits r inp) (hexec : 0 ≤ execTime inp) :
    int32 (inp.wake - r.st.next) = latency r inp ∧
      int32 (inp.execEnd - inp.wake) = execTime inp := by
  obtain ⟨hlo, hhi, hlast⟩ := h
  have hmin : -2 ^ 31 ≤ execTime inp := le_trans (by decide) hexec
  exact ⟨int32_eq_iff.mpr ⟨hlo, hhi⟩, int32_eq_iff.mpr ⟨hmin, hlast⟩⟩

theorem run_timing (c : Ctx) (start : ControlRun F) (inputs : List Input) (inp : Input) :
    let r := (controlThread c).run start inputs
    let s := ((controlThread c).run start (inputs ++ [inp])).st.s
    s.wakeLatNs = int32 (inp.wake - r.st.next) ∧
      s.execNs = int32 (inp.execEnd - inp.wake) ∧
      s.maxWakeLatNs = max r.st.s.maxWakeLatNs (int32 (inp.wake - r.st.next)) ∧
      s.maxExecNs = max r.st.s.maxExecNs (int32 (inp.execEnd - inp.wake)) := by
  intro r s
  have htiming := cycle_timing c inp r.st
  rw [← run_snoc_st] at htiming
  exact ⟨congrArg Timing.wakeLatNs htiming, congrArg Timing.execNs htiming,
    congrArg Timing.maxWakeLatNs htiming, congrArg Timing.maxExecNs htiming⟩

theorem true_maxima_next (h : TrueMaxima c start inputs)
    (hfits : Fits ((controlThread c).run start inputs) inp) (hexec : 0 ≤ execTime inp) :
    TrueMaxima c start (inputs ++ [inp]) := by
  obtain ⟨_, _, hmaxWake, hmaxExec⟩ := run_timing c start inputs inp
  obtain ⟨hlat, htime⟩ := fits_eq hfits hexec
  constructor
  · rw [hmaxWake, hlat, latencies_snoc]
    exact greatest_snoc h.wake_lat
  · rw [hmaxExec, htime, List.map_append]
    exact greatest_snoc h.exec

theorem true_maxima_run (hstart : TrueMaxima c start [])
    (hexec : ∀ inp ∈ inputs, 0 ≤ execTime inp)
    (hfits : (controlThread c).Along Fits start inputs) : TrueMaxima c start inputs := by
  induction inputs using List.reverseRecOn with
  | nil => exact hstart
  | append_singleton inputs inp ih =>
    obtain ⟨hbefore, hlast, _⟩ := along_append.mp hfits
    have hpast : ∀ i ∈ inputs, 0 ≤ execTime i :=
      fun i hi => hexec i (List.mem_append_left [inp] hi)
    exact true_maxima_next (ih hpast hbefore) hlast (hexec inp (by simp))

theorem greatest_of_insert_zero {l : List ℤ} {m : ℤ} (h : IsGreatest (insert 0 {y | y ∈ l}) m)
    (hne : l ≠ []) (hnonneg : ∀ y ∈ l, 0 ≤ y) : IsGreatest {y | y ∈ l} m := by
  obtain ⟨hmem, hupper⟩ := h
  have hbound : m ∈ upperBounds {y | y ∈ l} := fun y hy => hupper (Set.mem_insert_of_mem 0 hy)
  refine ⟨?_, hbound⟩
  rcases hmem with rfl | hmem
  · obtain ⟨y, hy⟩ := List.exists_mem_of_ne_nil l hne
    have hzero : y = 0 := le_antisymm (hbound hy) (hnonneg y hy)
    exact hzero ▸ hy
  · exact hmem

theorem true_timing_iff (hstart : TrueMaxima c start [])
    (hexec : ∀ inp ∈ inputs, 0 ≤ execTime inp) :
    (∀ pre inp, pre ++ [inp] <+: inputs → TrueTiming c start pre inp) ↔
      (controlThread c).Along Fits start inputs := by
  constructor
  · intro h
    apply along_iff_prefix.mpr
    intro pre inp hpre
    obtain ⟨hwake, hexecNs, _, _⟩ := run_timing c start pre inp
    have htrue := h pre inp hpre
    obtain ⟨hlo, hhi⟩ := int32_eq_iff.mp (hwake.symm.trans htrue.wake_lat)
    obtain ⟨_, hlast⟩ := int32_eq_iff.mp (hexecNs.symm.trans htrue.exec)
    exact ⟨hlo, hhi, hlast⟩
  · rintro h pre inp ⟨post, rfl⟩
    obtain ⟨hpre, -⟩ := along_append.mp h
    have hexec' : ∀ i ∈ pre ++ [inp], 0 ≤ execTime i :=
      fun i hi => hexec i (List.mem_append_left post hi)
    have hmaxima := true_maxima_run hstart hexec' hpre
    obtain ⟨hwake, hexecNs, _, _⟩ := run_timing c start pre inp
    obtain ⟨hlat, htime⟩ := fits_eq (along_append.mp hpre).2.1 (hexec' inp (by simp))
    have hnonneg : ∀ y ∈ (pre ++ [inp]).map execTime, 0 ≤ y := by
      intro y hy
      obtain ⟨i, hi, rfl⟩ := List.mem_map.mp hy
      exact hexec' i hi
    exact ⟨hwake.trans hlat, hexecNs.trans htime, hmaxima.wake_lat,
      greatest_of_insert_zero hmaxima.exec (by simp) hnonneg⟩

/-- The snapshots tell the true times in exactly the runs in which every cycle fits. -/
theorem timing_true_iff (c : Ctx) (now : ℤ) (sentFollower sentLeader : Bool)
    (inputs : List Input) (hclock : ClockRuns now inputs) :
    let start : ControlRun F := startUp c now sentFollower sentLeader
    (∀ pre inp, pre ++ [inp] <+: inputs → TrueTiming c start pre inp) ↔
      (controlThread c).Along Fits start inputs := by
  intro start
  have hzero : IsGreatest (insert 0 {y : ℤ | y ∈ ([] : List ℤ)}) 0 := by simp
  have hstart : TrueMaxima c start [] := ⟨hzero, hzero⟩
  exact true_timing_iff hstart (fun inp hmem => exec_time_nonneg hclock hmem)

/-- A cycle on time, and one that wakes 22 ms after its slot. -/
theorem timing_true_delayed :
    let c := Ctx.default Calibration.fullRange Calibration.fullRange
    let start : ControlRun ℚ := startUp c 0 true true
    TrueTiming c start [shifted 10000000 quietInput] (shifted 42000000 quietInput) := by
  intro c start
  have htrue := (timing_true_iff (F := ℚ) c 0 true true
    [shifted 10000000 quietInput, shifted 42000000 quietInput] (by decide)).mpr (by decide)
  exact htrue _ _ (List.prefix_refl _)

/-- A cycle that wakes three seconds after its slot is published as early. -/
theorem timing_false_stalled :
    let c := Ctx.default Calibration.fullRange Calibration.fullRange
    let start : ControlRun ℚ := startUp c 0 true true
    ClockRuns 0 [shifted 3010000000 quietInput] ∧
      latency start (shifted 3010000000 quietInput) = 3000000000 ∧
      ((controlThread c).run start [shifted 3010000000 quietInput]).st.s.maxWakeLatNs = 0 ∧
      ¬ TrueTiming c start [] (shifted 3010000000 quietInput) := by
  intro c start
  obtain ⟨hwake, _, hmax, _⟩ := run_timing c start [] (shifted 3010000000 quietInput)
  have hearly : int32 ((shifted 3010000000 quietInput).wake - start.st.next) ≤ 0 := by decide
  rw [List.nil_append] at hmax
  refine ⟨by decide, by decide, ?_, fun htrue => ?_⟩
  · rw [hmax]
    exact max_eq_left hearly
  · have hnarrow := hwake.symm.trans htrue.wake_lat
    exact absurd hnarrow (by decide)

end TimingMaxima
