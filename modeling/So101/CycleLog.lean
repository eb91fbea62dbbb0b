import So101.ControlThread
import So101.Lib.DoubleFormat
import So101.Lib.GapCount
import So101.Lib.Machine

/-!
# The cycle log

`so101_log` polls the snapshot and writes a row for every new cycle. Zero stands for "no row
yet" in `first` and `last`; it is also the cycle of the snapshot before the first publish,
which is not written.
-/
namespace CycleLog

open DoubleFormat GapCount GuardedMachine
open SharedMemory (Sample U32)

def word64 (x : ℤ) : ℤ := x % 2 ^ 64
def long (x : ℤ) : ℤ := x.bmod (2 ^ 64)

def shmMagic : U32 := 0x31303153

/-- What one pass of the loop meets: `g_stop`, the magic word, and what `so101_shm_read`
copies unless it gives up. -/
structure Turn (F : Type*) where
  stop : Bool
  magic : U32
  read : Option (Sample F)

structure Row (F : Type*) where
  s : Sample F
  t : Double

structure Logger (F : Type*) where
  last : ℕ
  first : ℕ
  t0 : ℤ
  rows : ℤ
  missed : ℤ
  file : List (Row F)
  running : Bool

variable {F : Type*}

def start (F : Type*) : Logger F where
  last := 0
  first := 0
  t0 := 0
  rows := 0
  missed := 0
  file := []
  running := true

/-- `first` and `t0` from the first row, `missed` from the others. -/
def Logger.account (log : Logger F) (s : Sample F) : Logger F :=
  if log.first = 0 then { log with first := s.cycle, t0 := s.tMonoNs }
  else if (s.cycle : ℤ) > word64 (log.last + 1) then
    { log with missed := long (log.missed + long (word64 (s.cycle - log.last - 1))) }
  else log

def Logger.write (dur : Double) (log : Logger F) (s : Sample F) : Logger F :=
  let log := log.account s
  let t := (ofRat (s.tMonoNs - log.t0 : ℤ)).div (ofRat 1000000000)
  { log with
    last := s.cycle
    file := log.file ++ [⟨s, t⟩]
    rows := long (log.rows + 1)
    running := !((ofRat 0).lt dur && dur.le t) }

/-- One pass of the loop; a logger that has stopped stays as it is. -/
def Logger.pass (dur : Double) (log : Logger F) (turn : Turn F) : Logger F :=
  if !log.running || turn.stop || turn.magic ≠ shmMagic then { log with running := false }
  else
    match turn.read with
    | none => log
    | some s => if s.cycle ≠ log.last then log.write dur s else log

/-- The poll loop of `main`. -/
def pollLoop (dur : Double) : Machine (Logger F) (Turn F) := .free (Logger.pass dur)

/-- The cycle that a pass polls, if it comes to polling and the read does not fail. -/
def polledAt (log : Logger F) (turn : Turn F) : Option ℕ :=
  if !log.running || turn.stop || turn.magic ≠ shmMagic then none
  else turn.read.map (·.cycle)

def polled (dur : Double) (log : Logger F) (turns : List (Turn F)) : List ℕ :=
  ((pollLoop dur).outputs polledAt log turns).reduceOption

/-- The `cycle` column of the file. -/
def Logger.column (log : Logger F) : List ℕ := log.file.map (·.s.cycle)

/-- A pass polls nothing new and changes no account, or it polls another cycle than the last
and writes it. -/
theorem pass_cases (dur : Double) (log : Logger F) (turn : Turn F) :
    (∃ running, log.pass dur turn = { log with running := running } ∧
      ∀ c ∈ polledAt log turn, c = log.last) ∨
    ∃ s, log.pass dur turn = log.write dur s ∧ polledAt log turn = some s.cycle ∧
      s.cycle ≠ log.last := by
  by_cases hend : (!log.running || turn.stop || turn.magic ≠ shmMagic) = true
  · left
    refine ⟨false, ?_, ?_⟩
    · rw [Logger.pass, if_pos hend]
    · rw [polledAt, if_pos hend]
      intro c hc
      cases hc
  · rcases hread : turn.read with _ | s
    · left
      refine ⟨log.running, ?_, ?_⟩
      · rw [Logger.pass, if_neg hend, hread]
      · rw [polledAt, if_neg hend, hread]
        intro c hc
        cases hc
    · have hpolled : polledAt log turn = some s.cycle := by
        rw [polledAt, if_neg hend, hread]
        rfl
      by_cases hnew : s.cycle = log.last
      · left
        refine ⟨log.running, ?_, ?_⟩
        · rw [Logger.pass, if_neg hend, hread]
          simp only [hnew, ne_eq, not_true_eq_false, if_false]
        · rw [hpolled]
          rintro c hc
          cases hc
          exact hnew
      · right
        refine ⟨s, ?_, hpolled, hnew⟩
        rw [Logger.pass, if_neg hend, hread]
        simp only [ne_eq, hnew, not_false_eq_true, if_true]

theorem account_file (log : Logger F) (s : Sample F) : (log.account s).file = log.file := by
  unfold Logger.account
  split
  · rfl
  · split <;> rfl

theorem account_rows (log : Logger F) (s : Sample F) : (log.account s).rows = log.rows := by
  unfold Logger.account
  split
  · rfl
  · split <;> rfl

@[simp] theorem write_last (dur : Double) (log : Logger F) (s : Sample F) :
    (log.write dur s).last = s.cycle := rfl

@[simp] theorem write_column (dur : Double) (log : Logger F) (s : Sample F) :
    (log.write dur s).column = log.column ++ [s.cycle] := by
  simp only [Logger.column, Logger.write, account_file, List.map_append, List.map_cons,
    List.map_nil]

@[simp] theorem polled_nil (dur : Double) (log : Logger F) : polled dur log [] = [] := rfl

theorem polled_cons (dur : Double) (log : Logger F) (turn : Turn F) (turns : List (Turn F)) :
    polled dur log (turn :: turns) =
      (polledAt log turn).toList ++ polled dur (log.pass dur turn) turns := by
  unfold polled
  rw [Machine.outputs]
  cases polledAt log turn with
  | none => rfl
  | some c => rfl

/-- The column is the record of the polled cycles, for polls of any kind. -/
theorem column_run (dur : Double) (log : Logger F) (turns : List (Turn F)) :
    ((pollLoop dur).run log turns).column =
      log.column ++ record log.last (polled dur log turns) := by
  induction turns generalizing log with
  | nil => exact (List.append_nil _).symm
  | cons turn turns ih =>
    have hrun := ih (log.pass dur turn)
    change ((pollLoop dur).run (log.pass dur turn) turns).column = _
    rw [hrun, polled_cons]
    rcases pass_cases dur log turn with ⟨running, hpass, hsame⟩ | ⟨s, hpass, hpoll, hnew⟩
    · rw [hpass]
      cases hpoll : polledAt log turn with
      | none => rfl
      | some c =>
        have hc : c = log.last := hsame c hpoll
        subst hc
        rw [Option.toList_some, List.singleton_append, record_cons_self]
        rfl
    · rw [hpass, hpoll, Option.toList_some, List.singleton_append, record_cons_of_ne hnew,
        write_column, write_last, List.append_assoc, List.singleton_append]

/-- The locals tell of the column: its ends, its length and the cycles it lacks. -/
structure Accounts (log : Logger F) : Prop where
  first : log.first = log.column.headD 0
  last : log.last = log.column.getLastD 0
  increasing : log.column.Pairwise (· < ·)
  positive : ∀ c ∈ log.column, 0 < c
  rows : log.rows = long log.column.length
  missed : log.missed = long (absent log.column).card

theorem accounts_start : Accounts (start F) where
  first := rfl
  last := rfl
  increasing := .nil
  positive := by simp [Logger.column, start]
  rows := by simp [Logger.column, start, long]
  missed := by simp [Logger.column, start, long]

theorem long_add_long (x y : ℤ) : long (long x + long y) = long (x + y) := by
  rw [long, long, long, long, Int.bmod_add_bmod, Int.add_bmod_bmod]

theorem word64_of_mem {x : ℤ} (hlo : 0 ≤ x) (hhi : x < 2 ^ 64) : word64 x = x :=
  Int.emod_eq_of_lt hlo hhi

theorem first_ne_zero {log : Logger F} (h : Accounts log) (hne : log.column ≠ []) :
    log.first ≠ 0 := by
  rw [h.first]
  obtain ⟨c, column, hcolumn⟩ := List.exists_cons_of_ne_nil hne
  have hpos := h.positive c (by simp [hcolumn])
  rw [hcolumn, List.headD_cons]
  exact hpos.ne'

theorem account_missed_gap {log : Logger F} (h : Accounts log) (hne : log.column ≠ [])
    {s : Sample F} (hlater : log.last < s.cycle) (hword : s.cycle < 2 ^ 64) :
    (log.account s).missed =
      long ((absent log.column).card + (s.cycle - log.last - 1)) := by
  have hnext : word64 (log.last + 1) = log.last + 1 := word64_of_mem (by omega) (by omega)
  have hgap : word64 (s.cycle - log.last - 1) = s.cycle - log.last - 1 :=
    word64_of_mem (by omega) (by omega)
  rw [Logger.account, if_neg (first_ne_zero h hne), hnext]
  by_cases hjump : (s.cycle : ℤ) > log.last + 1
  · rw [if_pos hjump]
    change long (log.missed + long (word64 (s.cycle - log.last - 1))) = _
    rw [hgap, h.missed, long_add_long]
  · have hzero : (s.cycle : ℤ) - log.last - 1 = 0 := by omega
    rw [if_neg hjump, h.missed, hzero, add_zero]

theorem account_empty {log : Logger F} (h : Accounts log) (hempty : log.column = [])
    (s : Sample F) : log.account s = { log with first := s.cycle, t0 := s.tMonoNs } := by
  have hfirst : log.first = 0 := by
    rw [h.first, hempty]
    rfl
  rw [Logger.account, if_pos hfirst]

theorem account_missed {log : Logger F} (h : Accounts log) {s : Sample F}
    (hlater : log.last < s.cycle) (hword : s.cycle < 2 ^ 64)
    (hincreasing : (log.column ++ [s.cycle]).Pairwise (· < ·)) :
    (log.account s).missed = long (absent (log.column ++ [s.cycle])).card := by
  by_cases hempty : log.column = []
  · rw [account_empty h hempty, h.missed, hempty, List.nil_append, absent_singleton, absent_nil]
  · rw [account_missed_gap h hempty hlater hword, card_absent_snoc hempty hincreasing, h.last]

theorem account_first {log : Logger F} (h : Accounts log) (s : Sample F) :
    (log.account s).first = (log.column ++ [s.cycle]).headD 0 := by
  by_cases hempty : log.column = []
  · rw [account_empty h hempty, hempty]
    rfl
  · have hhead : (log.column ++ [s.cycle]).headD 0 = log.first := by
      rw [h.first]
      obtain ⟨c, column, hcolumn⟩ := List.exists_cons_of_ne_nil hempty
      rw [hcolumn]
      rfl
    rw [Logger.account, if_neg (first_ne_zero h hempty), hhead]
    split <;> rfl

theorem accounts_write (dur : Double) {log : Logger F} (h : Accounts log) {s : Sample F}
    (hlater : log.last < s.cycle) (hword : s.cycle < 2 ^ 64) : Accounts (log.write dur s) := by
  have hincreasing : (log.column ++ [s.cycle]).Pairwise (· < ·) := by
    apply pairwise_snoc h.increasing
    rwa [← h.last]
  constructor
  · rw [write_column]
    exact account_first h s
  · rw [write_column, List.getLastD_concat]
    rfl
  · rw [write_column]
    exact hincreasing
  · rw [write_column]
    intro c hc
    rcases List.mem_append.mp hc with hc | hc
    · exact h.positive c hc
    · rw [List.mem_singleton.mp hc]
      exact Nat.zero_lt_of_lt hlater
  · rw [write_column]
    change long ((log.account s).rows + 1) = _
    have hone : long (long log.column.length + 1) = long (log.column.length + 1) :=
      Int.bmod_add_bmod
    rw [account_rows, h.rows, hone, List.length_append, List.length_singleton]
    push_cast
    rfl
  · rw [write_column]
    exact account_missed h hlater hword hincreasing

structure Later (last : ℕ) (cycles : List ℕ) : Prop where
  ordered : (last :: cycles).Pairwise (· ≤ ·)
  words : ∀ c ∈ cycles, c < 2 ^ 64

theorem Later.tail {last c : ℕ} {cycles : List ℕ} (h : Later last (c :: cycles)) :
    Later c cycles where
  ordered := (List.pairwise_cons.mp h.ordered).2
  words c' hc' := h.words c' (List.mem_cons_of_mem c hc')

theorem accounts_run (dur : Double) {log : Logger F} (h : Accounts log) {turns : List (Turn F)}
    (hlater : Later log.last (polled dur log turns)) :
    Accounts ((pollLoop dur).run log turns) := by
  induction turns generalizing log with
  | nil => exact h
  | cons turn turns ih =>
    change Accounts ((pollLoop dur).run (log.pass dur turn) turns)
    rw [polled_cons] at hlater
    rcases pass_cases dur log turn with ⟨running, hpass, hsame⟩ | ⟨s, hpass, hpoll, hnew⟩
    · have haccounts : Accounts (log.pass dur turn) := by
        rw [hpass]
        exact ⟨h.first, h.last, h.increasing, h.positive, h.rows, h.missed⟩
      have hlast : (log.pass dur turn).last = log.last := by rw [hpass]
      apply ih haccounts
      rw [hlast]
      cases hpoll : polledAt log turn with
      | none =>
        rw [hpoll] at hlater
        exact hlater
      | some c =>
        rw [hpoll, hsame c hpoll] at hlater
        exact hlater.tail
    · rw [hpoll, Option.toList_some, List.singleton_append] at hlater
      have hle : log.last ≤ s.cycle := List.rel_of_pairwise_cons hlater.ordered (by simp)
      have haccounts : Accounts (log.pass dur turn) := by
        rw [hpass]
        exact accounts_write dur h (lt_of_le_of_ne hle hnew.symm) (hlater.words _ (by simp))
      have hlast : (log.pass dur turn).last = s.cycle := by
        rw [hpass]
        rfl
      apply ih haccounts
      rw [hlast]
      exact hlater.tail

/-- The file and the counters against the polled cycles. The counters are 64-bit words; where
the range of cycles fits a `long` they are the numbers themselves. -/
structure Accounted (cycles : List ℕ) (log : Logger F) : Prop where
  increasing : log.column.Pairwise (· < ·)
  once : ∀ c ∈ cycles, c ≠ 0 → log.column.count c = 1
  only : ∀ c ∈ log.column, c ∈ cycles ∧ c ≠ 0
  ends : log.first = log.column.headD 0 ∧ log.last = log.column.getLastD 0
  counts : log.rows = long log.column.length ∧ log.missed = long (absent log.column).card
  words : log.column ≠ [] → long (log.rows + log.missed) = long (log.last - log.first + 1)
  numbers : log.column ≠ [] → (log.last - log.first + 1 : ℤ) < 2 ^ 63 →
    log.rows = log.column.length ∧ log.missed = (absent log.column).card ∧
      log.rows + log.missed = log.last - log.first + 1

theorem long_of_mem {x : ℤ} (hlo : 0 ≤ x) (hhi : x < 2 ^ 63) : long x = x := by
  unfold long
  rw [Int.bmod_eq_of_le] <;> omega

/-- Every polled cycle but 0 is written once, in order, and the rows and the missed cycles
fill the range from the first to the last. -/
theorem log_accounting (dur : Double) (turns : List (Turn F))
    (hordered : (polled dur (start F) turns).Pairwise (· ≤ ·))
    (hwords : ∀ c ∈ polled dur (start F) turns, c < 2 ^ 64) :
    Accounted (polled dur (start F) turns) ((pollLoop dur).run (start F) turns) := by
  have hzero : (0 :: polled dur (start F) turns).Pairwise (· ≤ ·) :=
    List.pairwise_cons.mpr ⟨fun c _ => Nat.zero_le c, hordered⟩
  have hlater : Later (start F).last (polled dur (start F) turns) := ⟨hzero, hwords⟩
  have haccounts := accounts_run dur accounts_start hlater
  have hcolumn : ((pollLoop dur).run (start F) turns).column =
      record 0 (polled dur (start F) turns) := column_run dur (start F) turns
  generalize (pollLoop dur).run (start F) turns = log at haccounts hcolumn ⊢
  have hfill : log.column ≠ [] →
      (log.column.length + (absent log.column).card : ℤ) = log.last - log.first + 1 := by
    intro hne
    rw [length_add_absent hne haccounts.increasing, haccounts.first, haccounts.last]
  refine ⟨haccounts.increasing, ?_, ?_, ⟨haccounts.first, haccounts.last⟩,
    ⟨haccounts.rows, haccounts.missed⟩, ?_, ?_⟩
  · intro c hc hne
    have hmem : c ∈ log.column := by
      rw [hcolumn]
      exact (mem_record hzero).mpr ⟨hc, hne⟩
    have hnodup : log.column.Nodup := haccounts.increasing.imp fun h => h.ne
    exact List.count_eq_one_of_mem hnodup hmem
  · intro c hc
    rw [hcolumn] at hc
    exact (mem_record hzero).mp hc
  · intro hne
    rw [haccounts.rows, haccounts.missed, long_add_long, hfill hne]
  · intro hne hfits
    have hrange := hfill hne
    have hrows : log.rows = log.column.length := by
      rw [haccounts.rows]
      exact long_of_mem (by omega) (by omega)
    have hmissed : log.missed = (absent log.column).card := by
      rw [haccounts.missed]
      exact long_of_mem (by omega) (by omega)
    exact ⟨hrows, hmissed, by rw [hrows, hmissed, hrange]⟩

def reads (cycle : ℕ) : Turn ℚ :=
  ⟨false, shmMagic, some { (ControlThread.zeroSample : Sample ℚ) with cycle := cycle }⟩

/-- A log without a time limit that sees cycles 5 and 8 after an unpublished snapshot. -/
theorem log_accounting_gap :
    let turns := [reads 0, ⟨false, shmMagic, none⟩, reads 5, reads 5, reads 8]
    Accounted [0, 5, 5, 8] ((pollLoop (ofRat 0)).run (start ℚ) turns) := by
  intro turns
  have hpolled : polled (ofRat 0) (start ℚ) turns = [0, 5, 5, 8] := by
    have hendless : (ofRat 0).lt (ofRat 0) = false := by
      cases ofRat 0 <;> simp [Double.lt]
    simp [turns, polled_cons, polledAt, reads, start, Logger.pass, Logger.write, hendless]
  have hordered : (polled (ofRat 0) (start ℚ) turns).Pairwise (· ≤ ·) := by
    rw [hpolled]
    decide
  have hwords : ∀ c ∈ polled (ofRat 0) (start ℚ) turns, c < 2 ^ 64 := by
    rw [hpolled]
    decide
  have haccounted := log_accounting (ofRat 0) turns hordered hwords
  rwa [hpolled] at haccounted

end CycleLog
