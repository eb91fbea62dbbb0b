import Mathlib.Data.List.Chain
import So101.Seqlock

/-!
# The systemd watchdog

The loop of `main` beside the two threads: each check reads a snapshot and the heartbeat
and pings only if both have moved since the last check. Who writes the shared memory and
who else reads it is the seqlock model. The list of checks with the counts of publishes
and beats is history.
-/
namespace Watchdog

open GuardedMachine
open Seqlock (latest ShortAttempt)

abbrev U64 := BitVec 64

def mainTries : ℤ := 100

/-- Where `main` is: in `sigtimedwait`, in `so101_shm_read`, with its snapshot, or out of
the loop. -/
inductive Main (ω W : Type*) where
  | waiting
  | reading
  | loaded (s : ω → W) (version : ℕ)
  | stopped

/-- What goes to systemd, and the two lines in the log. `control` says which of the two
threads the line about a stuck one names. -/
inductive Note (ω W : Type*) where
  | ping (s : ω → W)
  | aliveAgain
  | stuck (control : Bool)

structure Check where
  cycle : U64
  beat : U64
  alive : Bool
  version : ℕ
  beats : ℕ

structure State (ρ ω W : Type*) where
  mem : Seqlock.State ρ ω W
  supBeat : U64
  main : Main ω W
  lastCycle : U64
  lastBeat : U64
  healthy : Bool
  notes : List (Note ω W)
  beats : ℕ
  checks : List Check

inductive Event (ρ ω W : Type*) where
  | memory (e : Seqlock.Event ρ ω W)
  | addBeat
  | timeout (dst : ω → W)
  | check
  | signal

section Machine

variable {ρ ω W : Type*} [DecidableEq ρ] [DecidableEq ω] [Fintype ω]

/-- `me` is `main` among the readers, and `cycleOf` is where a sample has its cycle. -/
structure Setup (ρ ω W : Type*) where
  me : ρ
  cycleOf : (ω → W) → U64

variable (c : Setup ρ ω W)

def Enabled (s : State ρ ω W) : Event ρ ω W → Prop
  | .memory e => Seqlock.Enabled s.mem e ∧ ∀ n dst, e ≠ .call c.me n dst
  | .addBeat => True
  | .timeout _ => s.main = .waiting ∧ s.mem.reader c.me = .idle
  | .check => ∃ x v, s.main = .loaded x v
  | .signal => s.main = .waiting

/-- `main` goes on when its own read returns or gives up. -/
def goOn (s : State ρ ω W) : Seqlock.Event ρ ω W → Main ω W
  | .return r =>
    match s.mem.reader r with
    | .done l v => if r = c.me then .loaded l.dst v else s.main
    | _ => s.main
  | .fail r => if r = c.me then .waiting else s.main
  | _ => s.main

def checkNotes (healthy ctlOk alive : Bool) (x : ω → W) : List (Note ω W) :=
  if alive then .ping x :: if healthy then [] else [.aliveAgain]
  else if healthy then [.stuck (!ctlOk)]
  else []

def check (s : State ρ ω W) (x : ω → W) (version : ℕ) : State ρ ω W :=
  let ctlOk := decide (c.cycleOf x ≠ s.lastCycle)
  let supOk := decide (s.supBeat ≠ s.lastBeat)
  let alive := ctlOk && supOk
  { s with
    main := .waiting
    lastCycle := c.cycleOf x
    lastBeat := s.supBeat
    healthy := alive
    notes := s.notes ++ checkNotes s.healthy ctlOk alive x
    checks := s.checks ++ [⟨c.cycleOf x, s.supBeat, alive, version, s.beats⟩] }

def next (s : State ρ ω W) : Event ρ ω W → State ρ ω W
  | .memory e => { s with mem := Seqlock.next s.mem e, main := goOn c s e }
  | .addBeat => { s with supBeat := s.supBeat + 1, beats := s.beats + 1 }
  | .timeout dst =>
    { s with mem := Seqlock.next s.mem (.call c.me mainTries dst), main := .reading }
  | .check =>
    match s.main with
    | .loaded x v => check c s x v
    | _ => s
  | .signal => { s with main := .stopped }

def machine : Machine (State ρ ω W) (Event ρ ω W) := ⟨Enabled c, next c⟩

def initial (ρ ω W : Type*) [Zero W] : State ρ ω W where
  mem := Seqlock.initial ρ ω W
  supBeat := 0
  main := .waiting
  lastCycle := 0
  lastBeat := 0
  healthy := true
  notes := []
  beats := 0
  checks := []

def memoryEvent : Event ρ ω W → Option (Seqlock.Event ρ ω W)
  | .memory e => some e
  | .timeout dst => some (.call c.me mainTries dst)
  | _ => none

variable {c} {s : State ρ ω W} {e : Event ρ ω W}

theorem memory_next {d : Seqlock.Event ρ ω W} (hd : memoryEvent c e = some d) :
    (next c s e).mem = Seqlock.next s.mem d := by
  cases e with
  | memory e =>
    obtain rfl := Option.some.inj hd
    rfl
  | timeout dst =>
    obtain rfl := Option.some.inj hd
    rfl
  | _ => cases hd

theorem memory_still (hd : memoryEvent c e = none) : (next c s e).mem = s.mem := by
  cases e with
  | memory e => cases hd
  | timeout dst => cases hd
  | check =>
    simp only [next]
    split <;> rfl
  | _ => rfl

omit [DecidableEq ρ] [DecidableEq ω] [Fintype ω] in
theorem memory_enabled {d : Seqlock.Event ρ ω W} (he : Enabled c s e)
    (hd : memoryEvent c e = some d) : Seqlock.Enabled s.mem d := by
  cases e with
  | memory e =>
    obtain rfl := Option.some.inj hd
    exact he.1
  | timeout dst =>
    obtain rfl := Option.some.inj hd
    exact he.2
  | _ => cases hd

/-- Fewer than 2^31 publishes complete between the two loads of an attempt. -/
def Short (c : Setup ρ ω W) (s : State ρ ω W) (e : Event ρ ω W) : Prop :=
  ∀ d, memoryEvent c e = some d → ShortAttempt s.mem d

omit [DecidableEq ρ] [DecidableEq ω] [Fintype ω] in
theorem short_of_few (hfew : s.mem.published.length < 2 ^ 31) : Short c s e := by
  intro d _
  cases d with
  | loadSecond r =>
    intro l q1 a todo _
    omega
  | _ => trivial

variable (c) in
def memory : Simulation ((machine c).restrict (Short c))
    ((Seqlock.machine ρ ω W).restrict ShortAttempt) (fun _ => True) where
  abs := State.mem
  label _ e := memoryEvent c e
  step _ _ d _ he hd := ⟨⟨memory_enabled he.1 hd, he.2 d hd⟩, memory_next hd⟩
  stutter _ _ _ _ hd := memory_still hd

def ownReads (c : Setup ρ ω W) (mem : Seqlock.State ρ ω W) : List (U64 × ℕ) :=
  (mem.reads.filter (fun d => d.reader = c.me)).map (fun d => (c.cycleOf d.value, d.version))

def Main.pending (c : Setup ρ ω W) : Main ω W → List (U64 × ℕ)
  | .loaded x v => [(c.cycleOf x, v)]
  | _ => []

def Main.isReading : Main ω W → Prop
  | .reading => True
  | _ => False

/-- Each read of `main` that returned is the snapshot of one check, in order. -/
structure Follows (c : Setup ρ ω W) (s : State ρ ω W) : Prop where
  idle : ¬ s.main.isReading → s.mem.reader c.me = .idle
  reads : ownReads c s.mem = s.checks.map (fun k => (k.cycle, k.version)) ++ s.main.pending c

omit [DecidableEq ρ] [DecidableEq ω] [Fintype ω] in
theorem pending_reading (h : s.main.isReading) : s.main.pending c = [] := by
  cases hm : s.main with
  | reading => rfl
  | _ =>
    rw [hm] at h
    exact h.elim

theorem follows_memory {e : Seqlock.Event ρ ω W} (h : Follows c s)
    (he : Enabled c s (.memory e)) : Follows c (next c s (.memory e)) := by
  obtain ⟨hen, hcall⟩ := he
  have hstep := Seqlock.step_of_enabled hen
  have hmain : ∀ r b, s.mem.reader r = b → b ≠ .idle → r = c.me → s.main.isReading := by
    rintro r b hb hne rfl
    by_contra hnot
    exact hne (hb ▸ h.idle hnot)
  have hidle : ¬ s.main.isReading → (Seqlock.next s.mem e).reader c.me = .idle :=
    fun hnot => Seqlock.idle_step hstep hcall (h.idle hnot)
  change Follows c { s with mem := Seqlock.next s.mem e, main := goOn c s e }
  generalize Seqlock.next s.mem e = m at hstep hidle ⊢
  cases hstep with
  | load src hw => exact ⟨h.idle, h.reads⟩
  | storeOdd q src hw => exact ⟨h.idle, h.reads⟩
  | copyIn w q src todo hw => exact ⟨h.idle, h.reads⟩
  | storeEven q src hw => exact ⟨h.idle, h.reads⟩
  | call r n dst hr => exact ⟨hidle, h.reads⟩
  | loadOdd r l hr => exact ⟨hidle, h.reads⟩
  | loadFirst r l hr heven => exact ⟨hidle, h.reads⟩
  | copyOut r w l q1 a todo hr => exact ⟨hidle, h.reads⟩
  | accept r l a hr => exact ⟨hidle, h.reads⟩
  | retry r l q1 a hr hne => exact ⟨hidle, h.reads⟩
  | «return» r l v hr =>
    have hgo : goOn c s (.return r) = if r = c.me then .loaded l.dst v else s.main := by
      simp only [goOn, hr]
    by_cases hme : r = c.me
    · have hreading := hmain r _ hr (by simp) hme
      rw [hgo, if_pos hme]
      refine ⟨fun _ => ?_, ?_⟩
      · simp [Seqlock.State.setReader, hme]
      · have hreads := h.reads
        rw [pending_reading hreading, List.append_nil] at hreads
        simp only [ownReads, List.filter_append, List.map_append]
        rw [← hreads]
        simp [ownReads, hme, Main.pending]
    · rw [hgo, if_neg hme]
      refine ⟨hidle, ?_⟩
      rw [← h.reads]
      simp [ownReads, hme]
  | fail r l hr =>
    have hreads := h.reads
    by_cases hme : r = c.me
    · have hreading := hmain r _ hr (by simp) hme
      rw [pending_reading hreading] at hreads
      simp only [goOn, if_pos hme]
      refine ⟨fun _ => by simp [Seqlock.State.setReader, hme], hreads⟩
    · simp only [goOn, if_neg hme]
      exact ⟨hidle, hreads⟩

theorem follows_next (h : Follows c s) (he : Enabled c s e) : Follows c (next c s e) := by
  cases e with
  | memory e => exact follows_memory h he
  | addBeat => exact ⟨h.idle, h.reads⟩
  | timeout dst =>
    have hreads := h.reads
    rw [he.1] at hreads
    exact ⟨fun hnot => absurd trivial hnot, hreads⟩
  | check =>
    obtain ⟨x, v, hx⟩ := he
    have hreads := h.reads
    rw [hx] at hreads
    simp only [next, hx]
    refine ⟨fun _ => h.idle (by rw [hx]; exact id), ?_⟩
    simp only [check, hreads, Main.pending, List.map_append, List.append_nil]
    rfl
  | signal =>
    have hreads := h.reads
    have hwaiting : s.main = .waiting := he
    rw [hwaiting] at hreads
    exact ⟨fun _ => h.idle (by rw [hwaiting]; exact id), hreads⟩

theorem alternate_append {l : List Bool} {a : Bool} (hchain : l.IsChain (· ≠ ·))
    (hlast : l.getLast? = some (!a)) (b : Bool) :
    (l ++ if a = b then [] else [!b]).IsChain (· ≠ ·) ∧
      (l ++ if a = b then [] else [!b]).getLast? = some (!b) := by
  by_cases hab : a = b
  · subst hab
    simpa using And.intro hchain hlast
  · rw [if_neg hab]
    refine ⟨List.isChain_append.mpr ⟨hchain, List.isChain_singleton _, ?_⟩, List.getLast?_concat⟩
    intro x hx y hy
    rw [hlast] at hx
    obtain rfl := Option.some.inj hx
    obtain rfl := Option.some.inj hy
    simpa using hab

/-- What `main` starts from, as if it were a check. -/
def boot : Check := ⟨0, 0, true, 0, 0⟩

def Moved (d e : Check) : Prop := e.alive = true ↔ e.cycle ≠ d.cycle ∧ e.beat ≠ d.beat

def Note.isPing : Note ω W → Bool
  | .ping _ => true
  | _ => false

/-- The lines of the log: true for a stuck thread, false for threads alive again. -/
def Note.report? : Note ω W → Option Bool
  | .ping _ => none
  | .aliveAgain => some false
  | .stuck _ => some true

structure Recorded (s : State ρ ω W) : Prop where
  last : ∃ k, (boot :: s.checks).getLast? = some k ∧ k.cycle = s.lastCycle ∧
    k.beat = s.lastBeat ∧ k.alive = s.healthy
  chain : (boot :: s.checks).IsChain Moved
  beat : s.supBeat = BitVec.ofNat 64 s.beats
  counted : ∀ k ∈ s.checks, k.beat = BitVec.ofNat 64 k.beats ∧ k.beats ≤ s.beats
  ordered : (boot :: s.checks).Pairwise (fun d e => d.beats ≤ e.beats)
  pings : s.notes.countP Note.isPing = s.checks.countP Check.alive
  reports : (false :: s.notes.filterMap Note.report?).IsChain (· ≠ ·) ∧
    (false :: s.notes.filterMap Note.report?).getLast? = some (!s.healthy)

omit [DecidableEq ρ] [DecidableEq ω] [Fintype ω] in
theorem recorded_initial [Zero W] : Recorded (initial ρ ω W) where
  last := ⟨boot, rfl, rfl, rfl, rfl⟩
  chain := by simp [initial]
  beat := rfl
  counted k hk := nomatch hk
  ordered := by simp [initial]
  pings := rfl
  reports := ⟨by simp [initial], rfl⟩

omit [DecidableEq ω] [Fintype ω] in
theorem check_notes_pings (healthy ctlOk alive : Bool) (x : ω → W) :
    (checkNotes healthy ctlOk alive x).countP Note.isPing = if alive then 1 else 0 := by
  cases healthy <;> cases alive <;> rfl

omit [DecidableEq ω] [Fintype ω] in
theorem check_notes_reports (healthy ctlOk alive : Bool) (x : ω → W) :
    (checkNotes healthy ctlOk alive x).filterMap Note.report? =
      if healthy = alive then [] else [!alive] := by
  cases healthy <;> cases alive <;> rfl

omit [DecidableEq ρ] [DecidableEq ω] [Fintype ω] in
theorem recorded_check {x : ω → W} {v : ℕ} (h : Recorded s) : Recorded (check c s x v) := by
  obtain ⟨k, hk, hcycle, hbeat, halive⟩ := h.last
  have hbefore : ∀ d ∈ boot :: s.checks, d.beats ≤ s.beats := by
    intro d hd
    rcases List.mem_cons.mp hd with rfl | hd
    · exact Nat.zero_le _
    · exact (h.counted d hd).2
  constructor
  · simp only [check, ← List.cons_append]
    exact ⟨_, List.getLast?_concat, rfl, rfl, rfl⟩
  · simp only [check, ← List.cons_append]
    refine List.isChain_append.mpr ⟨h.chain, List.isChain_singleton _, ?_⟩
    intro d hd e he
    obtain rfl : d = k := by
      rw [hk] at hd
      exact (Option.some.inj hd).symm
    obtain rfl := Option.some.inj he
    simp [Moved, hcycle, hbeat]
  · exact h.beat
  · intro d hd
    rcases List.mem_append.mp hd with hold | hnew
    · exact h.counted d hold
    · obtain rfl := List.mem_singleton.mp hnew
      exact ⟨h.beat, Nat.le_refl _⟩
  · simp only [check, ← List.cons_append]
    refine List.pairwise_append.mpr ⟨h.ordered, List.pairwise_singleton _ _, ?_⟩
    intro d hd e he
    obtain rfl := List.mem_singleton.mp he
    exact hbefore d hd
  · simp only [check, List.countP_append, check_notes_pings, h.pings]
    simp
  · obtain ⟨hchain, hlast⟩ := h.reports
    simp only [check, List.filterMap_append, check_notes_reports, ← List.cons_append]
    exact alternate_append hchain hlast _

theorem recorded_next (h : Recorded s) : Recorded (next c s e) := by
  cases e with
  | memory e => exact ⟨h.last, h.chain, h.beat, h.counted, h.ordered, h.pings, h.reports⟩
  | timeout dst => exact ⟨h.last, h.chain, h.beat, h.counted, h.ordered, h.pings, h.reports⟩
  | signal => exact ⟨h.last, h.chain, h.beat, h.counted, h.ordered, h.pings, h.reports⟩
  | addBeat =>
    refine ⟨h.last, h.chain, ?_, ?_, h.ordered, h.pings, h.reports⟩
    · simp only [next, h.beat]
      exact (BitVec.ofNat_add s.beats 1).symm
    · intro k hk
      obtain ⟨hbeat, hle⟩ := h.counted k hk
      exact ⟨hbeat, Nat.le_succ_of_le hle⟩
  | check =>
    cases hm : s.main with
    | loaded x v =>
      simp only [next, hm]
      exact recorded_check h
    | _ => simpa only [next, hm] using h

/-- The n-th sample that is published is that of cycle n. -/
def Numbered [Zero W] (c : Setup ρ ω W) (published : List (ω → W)) : Prop :=
  ∀ n x, (0 :: published)[n]? = some x → c.cycleOf x = BitVec.ofNat 64 n

theorem neighbours {α : Type*} {R : α → α → Prop} {l l₁ l₂ : List α} {a b : α}
    (h : l.Pairwise R) (hl : l = l₁ ++ a :: b :: l₂) : R a b := by
  subst hl
  have hright := (List.pairwise_append.mp h).2.1
  exact (List.pairwise_cons.mp hright).1 b (by simp)

theorem ofNat_ne_iff {m n : ℕ} (hle : m ≤ n) (hlt : n < 2 ^ 64) :
    BitVec.ofNat 64 n ≠ BitVec.ofNat 64 m ↔ m < n := by
  constructor
  · intro hne
    rcases Nat.lt_or_eq_of_le hle with hlt | rfl
    · exact hlt
    · exact absurd rfl hne
  · intro hmn heq
    have hnat := congrArg BitVec.toNat heq
    simp only [BitVec.toNat_ofNat] at hnat
    omega

/-- The memory of every run of the loop is that of a run of the atomic register. -/
theorem memory_atomic [Zero W] {es : List (Event ρ ω W)}
    (hv : (machine c).Valid (initial ρ ω W) es)
    (hshort : (machine c).Along (Short c) (initial ρ ω W) es) :
    ∃ ds, (AtomicRegister.machine ρ (0 : ω → W)).Valid (AtomicRegister.initial ρ (ω → W)) ds ∧
      Seqlock.toRegister ((machine c).run (initial ρ ω W) es).mem =
        (AtomicRegister.machine ρ 0).run (AtomicRegister.initial ρ (ω → W)) ds := by
  obtain ⟨hmem, hrun⟩ := (memory c).refines (fun _ _ _ _ => trivial) trivial
    (restrict_valid hv hshort)
  obtain ⟨hreg, hregister⟩ := (Seqlock.register ρ ω W).refines
    (fun _ _ h he => Seqlock.inv_step h (Seqlock.step_of_enabled he.1)) Seqlock.inv_initial hmem
  refine ⟨_, hreg, ?_⟩
  rw [restrict_run] at hrun
  exact (congrArg Seqlock.toRegister hrun).trans hregister

/-- The snapshots of the checks are versions of the sample, none older than the one before. -/
theorem checks_atomic [Zero W] {es : List (Event ρ ω W)}
    (hv : (machine c).Valid (initial ρ ω W) es)
    (hshort : (machine c).Along (Short c) (initial ρ ω W) es)
    (hs : (machine c).run (initial ρ ω W) es = s) :
    (∀ k ∈ s.checks, ∃ x, (0 :: s.mem.published)[k.version]? = some x ∧ k.cycle = c.cycleOf x) ∧
      (boot :: s.checks).Pairwise (fun d e => d.version ≤ e.version) := by
  have hfirst : Follows c (initial ρ ω W) := ⟨fun _ => rfl, rfl⟩
  have hfollows := invariant (I := Follows c) (fun _ _ h he => follows_next h he) hfirst hv
  obtain ⟨ds, hvalid, hrun⟩ := memory_atomic hv hshort
  obtain ⟨hwithin, hordered⟩ := AtomicRegister.reads_atomic (0 : ω → W) hvalid
  rw [hs] at hfollows hrun
  rw [← hrun] at hwithin hordered
  have hreads := hfollows.reads
  constructor
  · intro k hk
    have hmem : (k.cycle, k.version) ∈ ownReads c s.mem := by
      rw [hreads]
      exact List.mem_append_left _ (List.mem_map_of_mem hk)
    obtain ⟨d, hd, heq⟩ := List.mem_map.mp hmem
    obtain ⟨hcycle, hversion⟩ := Prod.mk.inj heq
    have hin := hwithin d.toRead (List.mem_map_of_mem (List.mem_filter.mp hd).1)
    exact ⟨d.value, hversion ▸ hin.is_version, hcycle.symm⟩
  · refine List.pairwise_cons.mpr ⟨fun _ _ => Nat.zero_le _, ?_⟩
    have hown : (ownReads c s.mem).Pairwise (fun a b => a.2 ≤ b.2) := by
      refine List.pairwise_map.mpr ?_
      refine ((List.pairwise_map.mp hordered).filter _).imp_of_mem ?_
      intro d e hd he hle
      have hd' := of_decide_eq_true (List.mem_filter.mp hd).2
      have he' := of_decide_eq_true (List.mem_filter.mp he).2
      exact hle (hd'.trans he'.symm)
    rw [hreads] at hown
    exact (List.pairwise_map (f := fun k : Check => (k.cycle, k.version))
      (R := fun a b => a.2 ≤ b.2)).mp (List.pairwise_append.mp hown).1

/-- The watchdog is pinged for exactly those checks since whose predecessor both threads
have moved: the control thread has completed a publish between the two snapshots, and the
supervisor a round between the two loads of its beat. -/
theorem ping_iff_moved [Zero W] (c : Setup ρ ω W) {es : List (Event ρ ω W)} {s : State ρ ω W}
    (hv : (machine c).Valid (initial ρ ω W) es)
    (hshort : (machine c).Along (Short c) (initial ρ ω W) es)
    (hs : (machine c).run (initial ρ ω W) es = s) (hcycles : Numbered c s.mem.published)
    (hfew : s.mem.published.length < 2 ^ 64) (hbeats : s.beats < 2 ^ 64) :
    (boot :: s.checks).IsChain (fun d e =>
      e.alive = true ↔ d.version < e.version ∧ d.beats < e.beats) ∧
      s.notes.countP Note.isPing = s.checks.countP Check.alive := by
  obtain ⟨hversions, hordered⟩ := checks_atomic hv hshort hs
  have hrecorded := invariant (I := Recorded) (fun _ _ h _ => recorded_next h) recorded_initial hv
  rw [hs] at hrecorded
  have hcycle : ∀ k ∈ boot :: s.checks,
      k.cycle = BitVec.ofNat 64 k.version ∧ k.version < 2 ^ 64 := by
    intro k hk
    rcases List.mem_cons.mp hk with rfl | hk
    · exact ⟨rfl, by decide⟩
    · obtain ⟨x, hx, hcycle⟩ := hversions k hk
      have hlt := (List.getElem?_eq_some_iff.mp hx).1
      simp only [List.length_cons] at hlt
      exact ⟨hcycle.trans (hcycles _ x hx), by omega⟩
  have hbeat : ∀ k ∈ boot :: s.checks, k.beat = BitVec.ofNat 64 k.beats ∧ k.beats < 2 ^ 64 := by
    intro k hk
    rcases List.mem_cons.mp hk with rfl | hk
    · exact ⟨rfl, by decide⟩
    · obtain ⟨hk, hle⟩ := hrecorded.counted k hk
      exact ⟨hk, by omega⟩
  refine ⟨List.isChain_iff_forall_rel_of_append_cons_cons.mpr ?_, hrecorded.pings⟩
  intro d e l₁ l₂ hl
  have hmoved := List.isChain_iff_forall_rel_of_append_cons_cons.mp hrecorded.chain hl
  obtain ⟨hdc, -⟩ := hcycle d (by simp [hl])
  obtain ⟨hec, hev⟩ := hcycle e (by simp [hl])
  obtain ⟨hdb, -⟩ := hbeat d (by simp [hl])
  obtain ⟨heb, hen⟩ := hbeat e (by simp [hl])
  have hversion := neighbours (R := fun d e => d.version ≤ e.version) hordered hl
  have hbeats := neighbours (R := fun d e => d.beats ≤ e.beats) hrecorded.ordered hl
  rw [Moved, hdc, hec, hdb, heb, ofNat_ne_iff hversion hev, ofNat_ne_iff hbeats hen] at hmoved
  exact hmoved

def pings (s : State ρ ω W) : ℕ := s.notes.countP Note.isPing

omit [DecidableEq ω] [Fintype ω] in
theorem go_on_loaded {t : State ρ ω W} {d : Seqlock.Event ρ ω W} {x : ω → W} {v : ℕ}
    (h : goOn c t d = .loaded x v) :
    (∃ l, x = l.dst ∧ t.mem.reader c.me = .done l v) ∨ t.main = .loaded x v := by
  cases d with
  | «return» r =>
    simp only [goOn] at h
    split at h
    · next l v' hr =>
      split_ifs at h with hme
      · cases h
        exact Or.inl ⟨l, rfl, hme ▸ hr⟩
      · exact Or.inr h
    · exact Or.inr h
  | fail r =>
    simp only [goOn] at h
    split_ifs at h
    exact Or.inr h
  | _ => exact Or.inr h

theorem inv_next [Zero W] (h : Seqlock.Inv s.mem) (he : Enabled c s e) :
    Seqlock.Inv (next c s e).mem := by
  cases hd : memoryEvent c e with
  | none =>
    rw [memory_still hd]
    exact h
  | some d =>
    rw [memory_next hd]
    exact Seqlock.inv_step h (Seqlock.step_of_enabled (memory_enabled he hd))

def reports (s : State ρ ω W) : List Bool := s.notes.filterMap Note.report?

def OfWriter : Seqlock.Event ρ ω W → Prop
  | .load _ | .storeOdd | .copyIn _ | .storeEven => True
  | _ => False

def Outside : Seqlock.Reader ω W → Prop
  | .idle | .trying _ => True
  | _ => False

structure Torn (c : Setup ρ ω W) (s t : State ρ ω W) : Prop where
  odd : t.mem.seq &&& 1 ≠ 0
  outside : Outside (t.mem.reader c.me)
  main : ∀ x v, t.main ≠ .loaded x v
  checks : t.checks = s.checks
  notes : t.notes = s.notes

theorem torn_step {m m' : Seqlock.State ρ ω W} {d : Seqlock.Event ρ ω W} {r : ρ}
    (hstep : Seqlock.Step m d m') (hd : ¬ OfWriter d) (hodd : m.seq &&& 1 ≠ 0)
    (h : Outside (m.reader r)) : m'.seq &&& 1 ≠ 0 ∧ Outside (m'.reader r) := by
  have hset : ∀ r' b, (r' = r → Outside b) → Outside ((m.setReader r' b).reader r) := by
    intro r' b hb
    by_cases hr : r = r'
    · subst hr
      simpa only [Seqlock.State.setReader, Function.update_self] using hb rfl
    · simpa only [Seqlock.State.setReader, Function.update_of_ne hr] using h
  have hnot : ∀ {r' b}, m.reader r' = b → ¬ Outside b → r' ≠ r := by
    rintro r' b hb hout rfl
    exact hout (hb ▸ h)
  cases hstep with
  | load | storeOdd | copyIn | storeEven => exact absurd trivial hd
  | call r' n dst hr => exact ⟨hodd, hset r' _ fun _ => trivial⟩
  | loadOdd r' l hr => exact ⟨hodd, hset r' _ fun _ => trivial⟩
  | loadFirst r' l hr heven => exact absurd heven hodd
  | retry r' l q1 a hr hq => exact ⟨hodd, hset r' _ fun _ => trivial⟩
  | fail r' l hr => exact ⟨hodd, hset r' _ fun _ => trivial⟩
  | «return» r' l v hr => exact ⟨hodd, hset r' _ fun _ => trivial⟩
  | copyOut r' w l q1 a todo hr => exact ⟨hodd, hset r' _ fun heq => absurd heq (hnot hr id)⟩
  | accept r' l a hr => exact ⟨hodd, hset r' _ fun heq => absurd heq (hnot hr id)⟩

theorem torn_next {t : State ρ ω W} (h : Torn c s t) (he : Enabled c t e)
    (hne : ∀ d, e = .memory d → ¬ OfWriter d) : Torn c s (next c t e) := by
  cases e with
  | memory d =>
    obtain ⟨hodd, hout⟩ := torn_step (Seqlock.step_of_enabled he.1) (hne d rfl) h.odd h.outside
    refine ⟨hodd, hout, fun x v hx => ?_, h.checks, h.notes⟩
    rcases go_on_loaded hx with ⟨l, -, hl⟩ | hold
    · have houtside := h.outside
      rw [hl] at houtside
      exact houtside
    · exact h.main x v hold
  | addBeat => exact ⟨h.odd, h.outside, h.main, h.checks, h.notes⟩
  | timeout dst =>
    have hstep := Seqlock.step_of_enabled (e := .call c.me mainTries dst) he.2
    obtain ⟨hodd, hout⟩ := torn_step hstep id h.odd h.outside
    exact ⟨hodd, hout, (fun x v hx => nomatch hx), h.checks, h.notes⟩
  | signal => exact ⟨h.odd, h.outside, (fun x v hx => nomatch hx), h.checks, h.notes⟩
  | check =>
    obtain ⟨x, v, hx⟩ := he
    exact absurd hx (h.main x v)

/-- When the control loop dies in the middle of a publish, no check gets a snapshot any
more: nothing is pinged, and nothing is said about a thread that is stuck. -/
theorem torn_publish_mutes [Zero W] (c : Setup ρ ω W) {pre es : List (Event ρ ω W)}
    {s t : State ρ ω W} (hv : (machine c).Valid (initial ρ ω W) (pre ++ es))
    (hs : (machine c).run (initial ρ ω W) pre = s) (hwaiting : s.main = .waiting)
    {q : SharedMemory.U32} {src : ω → W} {todo : Finset ω}
    (hwriter : s.mem.writer = .copying q src todo)
    (hdead : ∀ e ∈ es, ∀ d, e = .memory d → ¬ OfWriter d)
    (ht : (machine c).run s es = t) : t.checks = s.checks ∧ t.notes = s.notes := by
  obtain ⟨hpre, hes⟩ := along_append.mp hv
  have hfirst : Follows c (initial ρ ω W) := ⟨fun _ => rfl, rfl⟩
  have hfollows := invariant (I := Follows c) (fun _ _ h he => follows_next h he) hfirst hpre
  have hinv := invariant (I := fun s => Seqlock.Inv s.mem) (fun _ _ h he => inv_next h he)
    Seqlock.inv_initial hpre
  rw [hs] at hes hfollows hinv
  have hodd : s.mem.seq &&& 1 ≠ 0 := by
    have hw := hinv.writer
    rw [hwriter] at hw
    obtain ⟨hseq, hq, -⟩ := hw
    rw [hseq, hq]
    exact Seqlock.counter_odd _
  have hbegin : Torn c s s := by
    refine ⟨hodd, ?_, fun x v hx => ?_, rfl, rfl⟩
    · rw [hfollows.idle (by rw [hwaiting]; exact id)]
      trivial
    · rw [hwaiting] at hx
      cases hx
  have hend := invariant_along (I := Torn c s)
    (C := fun _ e => ∀ d, e = .memory d → ¬ OfWriter d) (fun _ _ h he hc => torn_next h he hc)
    hbegin hes (along_of_forall fun e he _ => hdead e he)
  rw [ht] at hend
  exact ⟨hend.checks, hend.notes⟩

end Machine

def oneWord : Setup Unit Unit ℕ := ⟨(), fun x => BitVec.ofNat 64 (x ())⟩

def oneCheck : List (Event Unit Unit ℕ) :=
  [.timeout 0, .memory (.loadFirst ()), .memory (.copyOut () ()), .memory (.loadSecond ()),
    .memory (.return ()), .check]

def healthyOnce : List (Event Unit Unit ℕ) :=
  [.memory (.load fun _ => 1), .memory .storeOdd, .memory (.copyIn ()), .memory .storeEven,
    .addBeat] ++ oneCheck

def thenHangs : List (Event Unit Unit ℕ) := oneCheck ++ .addBeat :: oneCheck

theorem hangs_valid : (machine oneWord).Valid (initial Unit Unit ℕ) (healthyOnce ++ thenHangs) :=
  ⟨⟨rfl, fun _ _ h => nomatch h⟩, ⟨⟨_, _, rfl⟩, fun _ _ h => nomatch h⟩,
    ⟨⟨_, _, _, rfl, by decide⟩, fun _ _ h => nomatch h⟩, ⟨⟨_, _, rfl⟩, fun _ _ h => nomatch h⟩,
    trivial,
    ⟨rfl, rfl⟩, ⟨⟨_, rfl, by decide⟩, fun _ _ h => nomatch h⟩,
    ⟨⟨_, _, _, _, rfl, by decide⟩, fun _ _ h => nomatch h⟩,
    ⟨⟨_, _, _, rfl⟩, fun _ _ h => nomatch h⟩, ⟨⟨_, _, rfl⟩, fun _ _ h => nomatch h⟩, ⟨_, _, rfl⟩,
    ⟨rfl, rfl⟩, ⟨⟨_, rfl, by decide⟩, fun _ _ h => nomatch h⟩,
    ⟨⟨_, _, _, _, rfl, by decide⟩, fun _ _ h => nomatch h⟩,
    ⟨⟨_, _, _, rfl⟩, fun _ _ h => nomatch h⟩, ⟨⟨_, _, rfl⟩, fun _ _ h => nomatch h⟩, ⟨_, _, rfl⟩,
    trivial,
    ⟨rfl, rfl⟩, ⟨⟨_, rfl, by decide⟩, fun _ _ h => nomatch h⟩,
    ⟨⟨_, _, _, _, rfl, by decide⟩, fun _ _ h => nomatch h⟩,
    ⟨⟨_, _, _, rfl⟩, fun _ _ h => nomatch h⟩, ⟨⟨_, _, rfl⟩, fun _ _ h => nomatch h⟩, ⟨_, _, rfl⟩,
    trivial⟩

theorem hangs_short :
    (machine oneWord).Along (Short oneWord) (initial Unit Unit ℕ) (healthyOnce ++ thenHangs) :=
  ⟨short_of_few (by decide), short_of_few (by decide), short_of_few (by decide),
    short_of_few (by decide), short_of_few (by decide), short_of_few (by decide),
    short_of_few (by decide), short_of_few (by decide), short_of_few (by decide),
    short_of_few (by decide), short_of_few (by decide), short_of_few (by decide),
    short_of_few (by decide), short_of_few (by decide), short_of_few (by decide),
    short_of_few (by decide), short_of_few (by decide), short_of_few (by decide),
    short_of_few (by decide), short_of_few (by decide), short_of_few (by decide),
    short_of_few (by decide), short_of_few (by decide), short_of_few (by decide), trivial⟩

theorem ping_iff_moved_once :
    let s := (machine oneWord).run (initial Unit Unit ℕ) (healthyOnce ++ thenHangs)
    (boot :: s.checks).IsChain (fun d e =>
      e.alive = true ↔ d.version < e.version ∧ d.beats < e.beats) ∧
      s.checks.map Check.alive = [true, false, false] := by
  intro s
  have hnumbered : Numbered oneWord s.mem.published := by
    intro n x hx
    match n with
    | 0 =>
      obtain rfl := Option.some.inj hx
      rfl
    | 1 =>
      obtain rfl := Option.some.inj hx
      rfl
    | n + 2 => cases hx
  exact ⟨(ping_iff_moved oneWord hangs_valid hangs_short rfl hnumbered (by decide)
    (by decide)).1, rfl⟩

def diesPublishing : List (Event Unit Unit ℕ) :=
  [.timeout 0, .memory (.loadFirst ()), .addBeat, .memory (.loadFirst ())]

theorem torn_publish_mutes_once :
    ((machine oneWord).run (initial Unit Unit ℕ)
      ((healthyOnce ++ [.memory (.load fun _ => 2), .memory .storeOdd]) ++
        diesPublishing)).checks.length = 1 := by
  have hstarted : (machine oneWord).Valid (initial Unit Unit ℕ)
      ((healthyOnce ++ [.memory (.load fun _ => 2), .memory .storeOdd]) ++ diesPublishing) :=
    ⟨⟨rfl, fun _ _ h => nomatch h⟩, ⟨⟨_, _, rfl⟩, fun _ _ h => nomatch h⟩,
      ⟨⟨_, _, _, rfl, by decide⟩, fun _ _ h => nomatch h⟩, ⟨⟨_, _, rfl⟩, fun _ _ h => nomatch h⟩,
      trivial,
      ⟨rfl, rfl⟩, ⟨⟨_, rfl, by decide⟩, fun _ _ h => nomatch h⟩,
      ⟨⟨_, _, _, _, rfl, by decide⟩, fun _ _ h => nomatch h⟩,
      ⟨⟨_, _, _, rfl⟩, fun _ _ h => nomatch h⟩, ⟨⟨_, _, rfl⟩, fun _ _ h => nomatch h⟩,
      ⟨_, _, rfl⟩,
      ⟨rfl, fun _ _ h => nomatch h⟩, ⟨⟨_, _, rfl⟩, fun _ _ h => nomatch h⟩,
      ⟨rfl, rfl⟩, ⟨⟨_, rfl, by decide⟩, fun _ _ h => nomatch h⟩, trivial,
      ⟨⟨_, rfl, by decide⟩, fun _ _ h => nomatch h⟩, trivial⟩
  obtain ⟨hchecks, -⟩ := torn_publish_mutes oneWord hstarted rfl rfl rfl
    (by
      rintro e he d rfl
      simp only [diesPublishing, List.mem_cons, List.not_mem_nil, or_false] at he
      rcases he with he | he | he | he <;> cases he <;> exact id) rfl
  rw [run_append, hchecks]
  rfl

end Watchdog
