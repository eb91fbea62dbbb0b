import Mathlib.Data.Fintype.Basic
import So101.Lib.AtomicRegister
import So101.SharedMemory

/-!
# The seqlock

`so101_shm_publish` and `so101_shm_read`, one access at a time: one writer and any number
of readers, with the words of the sample copied in any order. The counts of completed
publishes that readers carry are history and decide nothing.
-/
namespace Seqlock

open GuardedMachine SharedMemory

variable {ρ ω W : Type*}

/-- The writer in `so101_shm_publish`: the value of seq it loaded, its sample, and the words
that are still to be copied. -/
inductive Writer (ω W : Type*) where
  | idle
  | loaded (q : U32) (src : ω → W)
  | copying (q : U32) (src : ω → W) (todo : Finset ω)

structure Locals (ω W : Type*) where
  maxTries : ℤ
  k : ℕ
  dst : ω → W
  calledAt : ℕ

inductive Reader (ω W : Type*) where
  | idle
  | trying (l : Locals ω W)
  | copying (l : Locals ω W) (q1 : U32) (firstAt : ℕ) (todo : Finset ω)
  | done (l : Locals ω W) (version : ℕ)

structure Returned (ρ ω W : Type*) extends AtomicRegister.Read ρ (ω → W) where
  k : ℕ

structure State (ρ ω W : Type*) where
  seq : U32
  sample : ω → W
  writer : Writer ω W
  reader : ρ → Reader ω W
  published : List (ω → W)
  reads : List (Returned ρ ω W)

inductive Event (ρ ω W : Type*) where
  | load (src : ω → W)
  | storeOdd
  | copyIn (w : ω)
  | storeEven
  | call (r : ρ) (maxTries : ℤ) (dst : ω → W)
  | loadFirst (r : ρ)
  | copyOut (r : ρ) (w : ω)
  | loadSecond (r : ρ)
  | return (r : ρ)
  | fail (r : ρ)

def Enabled (s : State ρ ω W) : Event ρ ω W → Prop
  | .load _ => s.writer = .idle
  | .storeOdd => ∃ q src, s.writer = .loaded q src
  | .copyIn w => ∃ q src todo, s.writer = .copying q src todo ∧ w ∈ todo
  | .storeEven => ∃ q src, s.writer = .copying q src ∅
  | .call r _ _ => s.reader r = .idle
  | .loadFirst r => ∃ l, s.reader r = .trying l ∧ (l.k : ℤ) < l.maxTries
  | .copyOut r w => ∃ l q1 a todo, s.reader r = .copying l q1 a todo ∧ w ∈ todo
  | .loadSecond r => ∃ l q1 a, s.reader r = .copying l q1 a ∅
  | .return r => ∃ l v, s.reader r = .done l v
  | .fail r => ∃ l, s.reader r = .trying l ∧ ¬ (l.k : ℤ) < l.maxTries

def State.setReader [DecidableEq ρ] (s : State ρ ω W) (r : ρ) (c : Reader ω W) : State ρ ω W :=
  { s with reader := Function.update s.reader r c }

section Machine

variable [DecidableEq ρ] [DecidableEq ω] [Fintype ω]

def Locals.retry (l : Locals ω W) : Locals ω W := { l with k := l.k + 1 }

def next (s : State ρ ω W) : Event ρ ω W → State ρ ω W
  | .load src => { s with writer := .loaded s.seq src }
  | .storeOdd =>
    match s.writer with
    | .loaded q src => { s with seq := q + 1, writer := .copying q src Finset.univ }
    | _ => s
  | .copyIn w =>
    match s.writer with
    | .copying q src todo =>
      { s with
        sample := Function.update s.sample w (src w)
        writer := .copying q src (todo.erase w) }
    | _ => s
  | .storeEven =>
    match s.writer with
    | .copying q src _ =>
      { s with seq := q + 2, writer := .idle, published := s.published ++ [src] }
    | _ => s
  | .call r maxTries dst => s.setReader r (.trying ⟨maxTries, 0, dst, s.published.length⟩)
  | .loadFirst r =>
    match s.reader r with
    | .trying l =>
      if s.seq &&& 1 ≠ 0 then s.setReader r (.trying l.retry)
      else s.setReader r (.copying l s.seq s.published.length Finset.univ)
    | _ => s
  | .copyOut r w =>
    match s.reader r with
    | .copying l q1 a todo =>
      s.setReader r (.copying { l with dst := Function.update l.dst w (s.sample w) } q1 a
        (todo.erase w))
    | _ => s
  | .loadSecond r =>
    match s.reader r with
    | .copying l q1 _ _ =>
      if q1 = s.seq then s.setReader r (.done l s.published.length)
      else s.setReader r (.trying l.retry)
    | _ => s
  | .return r =>
    match s.reader r with
    | .done l v =>
      { s.setReader r .idle with
        reads := s.reads ++ [⟨⟨r, l.calledAt, v, s.published.length, l.dst⟩, l.k⟩] }
    | _ => s
  | .fail r => s.setReader r .idle

variable (ρ ω W) in
def machine : Machine (State ρ ω W) (Event ρ ω W) := ⟨Enabled, next⟩

def initial (ρ ω W : Type*) [Zero W] : State ρ ω W where
  seq := 0
  sample := 0
  writer := .idle
  reader _ := .idle
  published := []
  reads := []

inductive Step (s : State ρ ω W) : Event ρ ω W → State ρ ω W → Prop where
  | load (src : ω → W) (hw : s.writer = .idle) :
      Step s (.load src) { s with writer := .loaded s.seq src }
  | storeOdd (q : U32) (src : ω → W) (hw : s.writer = .loaded q src) :
      Step s .storeOdd { s with seq := q + 1, writer := .copying q src Finset.univ }
  | copyIn (w : ω) (q : U32) (src : ω → W) (todo : Finset ω)
      (hw : s.writer = .copying q src todo) :
      Step s (.copyIn w)
        { s with
          sample := Function.update s.sample w (src w)
          writer := .copying q src (todo.erase w) }
  | storeEven (q : U32) (src : ω → W) (hw : s.writer = .copying q src ∅) :
      Step s .storeEven
        { s with seq := q + 2, writer := .idle, published := s.published ++ [src] }
  | call (r : ρ) (maxTries : ℤ) (dst : ω → W) (hr : s.reader r = .idle) :
      Step s (.call r maxTries dst)
        (s.setReader r (.trying ⟨maxTries, 0, dst, s.published.length⟩))
  | loadOdd (r : ρ) (l : Locals ω W) (hr : s.reader r = .trying l) :
      Step s (.loadFirst r) (s.setReader r (.trying l.retry))
  | loadFirst (r : ρ) (l : Locals ω W) (hr : s.reader r = .trying l) (heven : s.seq &&& 1 = 0) :
      Step s (.loadFirst r)
        (s.setReader r (.copying l s.seq s.published.length Finset.univ))
  | copyOut (r : ρ) (w : ω) (l : Locals ω W) (q1 : U32) (a : ℕ) (todo : Finset ω)
      (hr : s.reader r = .copying l q1 a todo) :
      Step s (.copyOut r w)
        (s.setReader r (.copying { l with dst := Function.update l.dst w (s.sample w) } q1 a
          (todo.erase w)))
  | accept (r : ρ) (l : Locals ω W) (a : ℕ) (hr : s.reader r = .copying l s.seq a ∅) :
      Step s (.loadSecond r) (s.setReader r (.done l s.published.length))
  | retry (r : ρ) (l : Locals ω W) (q1 : U32) (a : ℕ) (hr : s.reader r = .copying l q1 a ∅)
      (hne : q1 ≠ s.seq) : Step s (.loadSecond r) (s.setReader r (.trying l.retry))
  | return (r : ρ) (l : Locals ω W) (v : ℕ) (hr : s.reader r = .done l v) :
      Step s (.return r)
        { s.setReader r .idle with
          reads := s.reads ++ [⟨⟨r, l.calledAt, v, s.published.length, l.dst⟩, l.k⟩] }
  | fail (r : ρ) (l : Locals ω W) (hr : s.reader r = .trying l) :
      Step s (.fail r) (s.setReader r .idle)

theorem step_of_enabled {s : State ρ ω W} {e : Event ρ ω W} (h : Enabled s e) :
    Step s e (next s e) := by
  cases e with
  | load src => exact .load src h
  | storeOdd =>
    obtain ⟨q, src, hw⟩ := h
    simpa only [next, hw] using Step.storeOdd q src hw
  | copyIn w =>
    obtain ⟨q, src, todo, hw, -⟩ := h
    simpa only [next, hw] using Step.copyIn w q src todo hw
  | storeEven =>
    obtain ⟨q, src, hw⟩ := h
    simpa only [next, hw] using Step.storeEven q src hw
  | call r maxTries dst => exact .call r maxTries dst h
  | loadFirst r =>
    obtain ⟨l, hr, -⟩ := h
    simp only [next, hr]
    split_ifs with hodd
    · exact .loadOdd r l hr
    · exact .loadFirst r l hr (not_not.mp hodd)
  | copyOut r w =>
    obtain ⟨l, q1, a, todo, hr, -⟩ := h
    simpa only [next, hr] using Step.copyOut r w l q1 a todo hr
  | loadSecond r =>
    obtain ⟨l, q1, a, hr⟩ := h
    simp only [next, hr]
    split_ifs with heq
    · subst heq
      exact .accept r l a hr
    · exact .retry r l q1 a hr heq
  | «return» r =>
    obtain ⟨l, v, hr⟩ := h
    simpa only [next, hr] using Step.return r l v hr
  | fail r =>
    obtain ⟨l, hr, -⟩ := h
    exact .fail r l hr

end Machine

theorem idle_step [DecidableEq ρ] [DecidableEq ω] [Fintype ω] {m m' : State ρ ω W}
    {d : Event ρ ω W} {r : ρ}
    (hstep : Step m d m') (hcall : ∀ n dst, d ≠ .call r n dst)
    (h : m.reader r = .idle) : m'.reader r = .idle := by
  have hset : ∀ {r' b b'}, m.reader r' = b → b ≠ .idle → (m.setReader r' b').reader r = .idle := by
    rintro r' b b' hb hne
    have hr : r ≠ r' := by
      rintro rfl
      exact hne (hb.symm.trans h)
    simp only [State.setReader, Function.update_of_ne hr]
    exact h
  cases hstep with
  | load | storeOdd | copyIn | storeEven => exact h
  | call r' n dst hr =>
    have hne : r ≠ r' := by
      rintro rfl
      exact hcall n dst rfl
    simp only [State.setReader, Function.update_of_ne hne]
    exact h
  | loadOdd r' l hr => exact hset hr (by simp)
  | loadFirst r' l hr heven => exact hset hr (by simp)
  | copyOut r' w l q1 a todo hr => exact hset hr (by simp)
  | accept r' l a hr => exact hset hr (by simp)
  | retry r' l q1 a hr hne => exact hset hr (by simp)
  | «return» r' l v hr => exact hset hr (by simp)
  | fail r' l hr => exact hset hr (by simp)

/-- The value of seq after `c` completed publishes. -/
def counter (c : ℕ) : U32 := BitVec.ofNat 32 (2 * c)

theorem counter_succ (c : ℕ) : counter c + 2 = counter (c + 1) := by
  apply BitVec.eq_of_toNat_eq
  simp [counter]
  omega

theorem and_one_eq_zero_iff (q : U32) : q &&& 1 = 0 ↔ q.toNat % 2 = 0 := by
  constructor
  · intro h
    have hnat := congrArg BitVec.toNat h
    simpa [Nat.and_one_is_mod] using hnat
  · intro h
    apply BitVec.eq_of_toNat_eq
    simpa [Nat.and_one_is_mod] using h

theorem counter_even (c : ℕ) : counter c &&& 1 = 0 := by
  rw [and_one_eq_zero_iff, counter, BitVec.toNat_ofNat]
  omega

theorem counter_odd (c : ℕ) : (counter c + 1) &&& 1 ≠ 0 := by
  rw [ne_eq, and_one_eq_zero_iff]
  simp [counter]

/-- The counter comes back to a value after 2^31 publishes. -/
theorem counter_injective {a c : ℕ} (hle : a ≤ c) (hlt : c < a + 2 ^ 31)
    (h : counter a = counter c) : a = c := by
  have hnat := congrArg BitVec.toNat h
  simp only [counter, BitVec.toNat_ofNat] at hnat
  omega

def latest [Zero W] (published : List (ω → W)) : ω → W := published.getLastD 0

/-- Between publishes the memory holds the latest sample; while it is copied seq is odd
and the words that have been copied are those of the next. -/
def WriterOk [Zero W] (seq : U32) (sample : ω → W) (published : List (ω → W)) :
    Writer ω W → Prop
  | .idle => seq = counter published.length ∧ sample = latest published
  | .loaded q _ => q = seq ∧ seq = counter published.length ∧ sample = latest published
  | .copying q src todo => seq = q + 1 ∧ q = counter published.length ∧ ∀ w ∉ todo, sample w = src w

def Writer.quiet : Writer ω W → Prop
  | .copying _ _ _ => False
  | _ => True

/-- As long as no publish has started since its first load, a reader has copied words of
the latest sample. -/
def ReaderOk [Zero W] (published : List (ω → W)) (quiet : Prop) : Reader ω W → Prop
  | .copying l q1 a todo =>
    q1 = counter a ∧ a ≤ published.length ∧
      (a = published.length → quiet → ∀ w ∉ todo, l.dst w = latest published w)
  | _ => True

structure Inv [Zero W] (s : State ρ ω W) : Prop where
  writer : WriterOk s.seq s.sample s.published s.writer
  readers : ∀ r, ReaderOk s.published s.writer.quiet (s.reader r)

theorem copied_erase [DecidableEq ω] {f g : ω → W} {todo : Finset ω} {w : ω} {x : W}
    (h : ∀ v ∉ todo, f v = g v) (hx : x = g w) (v : ω) (hv : v ∉ todo.erase w) :
    Function.update f w x v = g v := by
  by_cases hvw : v = w
  · subst hvw
    rw [Function.update_self, hx]
  · rw [Function.update_of_ne hvw]
    exact h v (fun hmem => hv (Finset.mem_erase.mpr ⟨hvw, hmem⟩))

section Invariant

variable [Zero W] {published : List (ω → W)}

theorem latest_append (src : ω → W) : latest (published ++ [src]) = src := by
  simp [latest]

theorem WriterOk.of_quiet {seq : U32} {sample : ω → W} {w : Writer ω W}
    (h : WriterOk seq sample published w) (hq : w.quiet) :
    seq = counter published.length ∧ sample = latest published := by
  cases w with
  | idle => exact h
  | loaded q src => exact h.2
  | copying q src todo => exact hq.elim

theorem WriterOk.quiet_of_even {seq : U32} {sample : ω → W} {w : Writer ω W}
    (h : WriterOk seq sample published w) (heven : seq &&& 1 = 0) : w.quiet := by
  cases w with
  | copying q src todo =>
    obtain ⟨rfl, rfl, -⟩ := h
    exact absurd heven (counter_odd published.length)
  | _ => trivial

theorem ReaderOk.quieter {p p' : Prop} {r : Reader ω W} (h : ReaderOk published p r)
    (hp : p' → p) : ReaderOk published p' r := by
  cases r with
  | copying l q1 a todo => exact ⟨h.1, h.2.1, fun ha hq => h.2.2 ha (hp hq)⟩
  | _ => trivial

theorem ReaderOk.publish {p p' : Prop} {r : Reader ω W} (h : ReaderOk published p r)
    (src : ω → W) : ReaderOk (published ++ [src]) p' r := by
  cases r with
  | copying l q1 a todo =>
    have hle := h.2.1
    have hlen : (published ++ [src]).length = published.length + 1 := by simp
    refine ⟨h.1, by omega, fun ha => ?_⟩
    omega
  | _ => trivial

theorem Inv.setReader [DecidableEq ρ] {s : State ρ ω W} {r : ρ} {c : Reader ω W} (h : Inv s)
    (hc : ReaderOk s.published s.writer.quiet c) : Inv (s.setReader r c) :=
  ⟨h.writer, (Function.forall_update_iff s.reader
    (fun _ c => ReaderOk s.published s.writer.quiet c)).mpr ⟨hc, fun q _ => h.readers q⟩⟩

theorem inv_initial : Inv (initial ρ ω W) := ⟨⟨rfl, rfl⟩, fun _ => trivial⟩

theorem inv_step [DecidableEq ρ] [DecidableEq ω] [Fintype ω] {s s' : State ρ ω W}
    {e : Event ρ ω W} (h : Inv s) (hstep : Step s e s') : Inv s' := by
  have hwriter := h.writer
  have hreaders := h.readers
  cases hstep with
  | load src hw =>
    rw [hw] at hwriter hreaders
    exact ⟨⟨rfl, hwriter⟩, hreaders⟩
  | storeOdd q src hw =>
    rw [hw] at hwriter hreaders
    obtain ⟨rfl, hq, -⟩ := hwriter
    exact ⟨⟨rfl, hq, fun w hmem => absurd (Finset.mem_univ w) hmem⟩,
      fun r => (hreaders r).quieter False.elim⟩
  | copyIn w q src todo hw =>
    rw [hw] at hwriter hreaders
    obtain ⟨hseq, hq, hcopied⟩ := hwriter
    exact ⟨⟨hseq, hq, copied_erase hcopied rfl⟩, hreaders⟩
  | storeEven q src hw =>
    rw [hw] at hwriter hreaders
    obtain ⟨-, rfl, hcopied⟩ := hwriter
    refine ⟨⟨?_, ?_⟩, fun r => (hreaders r).publish src⟩
    · rw [List.length_append]
      exact counter_succ s.published.length
    · rw [latest_append]
      funext w
      exact hcopied w (Finset.notMem_empty w)
  | call r maxTries dst hr => exact h.setReader trivial
  | loadOdd r l hr => exact h.setReader trivial
  | loadFirst r l hr heven =>
    obtain ⟨hseq, -⟩ := hwriter.of_quiet (hwriter.quiet_of_even heven)
    exact h.setReader ⟨hseq, Nat.le_refl _, fun _ _ w hmem => absurd (Finset.mem_univ w) hmem⟩
  | copyOut r w l q1 a todo hr =>
    have hreader := hreaders r
    rw [hr] at hreader
    obtain ⟨hq1, hle, hcopied⟩ := hreader
    refine h.setReader ⟨hq1, hle, fun ha hquiet => copied_erase (hcopied ha hquiet) ?_⟩
    rw [(hwriter.of_quiet hquiet).2]
  | accept r l a hr => exact h.setReader trivial
  | retry r l q1 a hr hne => exact h.setReader trivial
  | «return» r l v hr =>
    have hidle : Inv (s.setReader r .idle) := h.setReader trivial
    exact ⟨hidle.writer, hidle.readers⟩
  | fail r l hr => exact h.setReader trivial

def ShortAttempt (s : State ρ ω W) : Event ρ ω W → Prop
  | .loadSecond r => ∀ l q1 a todo, s.reader r = .copying l q1 a todo →
      s.published.length < a + 2 ^ 31
  | _ => True

/-- Two equal loads: no publish has started between them, and every word is the latest. -/
theorem accepted_latest {s : State ρ ω W} (h : Inv s) {r : ρ} {l : Locals ω W} {a : ℕ}
    (hr : s.reader r = .copying l s.seq a ∅) (hshort : s.published.length < a + 2 ^ 31) :
    l.dst = latest s.published := by
  have hreader := h.readers r
  rw [hr] at hreader
  obtain ⟨hseq, hle, hcopied⟩ := hreader
  have hquiet : s.writer.quiet := h.writer.quiet_of_even (by rw [hseq]; exact counter_even a)
  have hnow := (h.writer.of_quiet hquiet).1
  have ha : a = s.published.length := counter_injective hle hshort (hseq.symm.trans hnow)
  funext w
  exact hcopied ha hquiet w (Finset.notMem_empty w)

end Invariant

def absReader : Reader ω W → AtomicRegister.Reader (ω → W)
  | .idle => .idle
  | .trying l | .copying l _ _ _ => .pending l.calledAt
  | .done l v => .took l.calledAt v l.dst

def toRegister (s : State ρ ω W) : AtomicRegister.State ρ (ω → W) where
  written := s.published
  reader r := absReader (s.reader r)
  reads := s.reads.map Returned.toRead

/-- The store that completes a publish is the write; a second load that equals the first
takes the value. -/
def registerEvent (s : State ρ ω W) : Event ρ ω W → Option (AtomicRegister.Event ρ (ω → W))
  | .storeEven =>
    match s.writer with
    | .copying _ src _ => some (.write src)
    | _ => none
  | .call r _ _ => some (.call r)
  | .loadSecond r =>
    match s.reader r with
    | .copying _ q1 _ _ => if q1 = s.seq then some (.take r) else none
    | _ => none
  | .return r => some (.return r)
  | .fail r => some (.giveUp r)
  | _ => none

theorem to_register_set [DecidableEq ρ] (s : State ρ ω W) (r : ρ) (c : Reader ω W) :
    toRegister (s.setReader r c) = (toRegister s).setReader r (absReader c) := by
  have hreader : (fun q => absReader (Function.update s.reader r c q)) =
      Function.update (fun q => absReader (s.reader q)) r (absReader c) :=
    Function.comp_update absReader s.reader r c
  simp only [toRegister, State.setReader, AtomicRegister.State.setReader, hreader]

section Simulation

variable [DecidableEq ρ] [DecidableEq ω] [Fintype ω] {s : State ρ ω W} {e : Event ρ ω W}

theorem register_stutter (he : Enabled s e) (hl : registerEvent s e = none) :
    toRegister (next s e) = toRegister s := by
  have hsame : ∀ (r : ρ) (c : Reader ω W), absReader c = absReader (s.reader r) →
      toRegister (s.setReader r c) = toRegister s := by
    intro r c hc
    rw [to_register_set, hc]
    simp only [AtomicRegister.State.setReader, toRegister]
    rw [Function.update_eq_self r]
  have hstep := step_of_enabled he
  generalize next s e = s' at hstep ⊢
  cases hstep with
  | storeEven q src hw =>
    simp only [registerEvent, hw] at hl
    cases hl
  | call r maxTries dst hr => cases hl
  | loadOdd r l hr => exact hsame r _ (by rw [hr]; rfl)
  | loadFirst r l hr _ => exact hsame r _ (by rw [hr]; rfl)
  | copyOut r w l q1 a todo hr => exact hsame r _ (by rw [hr]; rfl)
  | accept r l a hr =>
    simp only [registerEvent, hr, if_true] at hl
    cases hl
  | retry r l q1 a hr hne => exact hsame r _ (by rw [hr]; rfl)
  | «return» r l v hr => cases hl
  | fail r l hr => cases hl
  | _ => rfl

variable [Zero W]

theorem register_step {d : AtomicRegister.Event ρ (ω → W)} (h : Inv s) (he : Enabled s e)
    (hshort : ShortAttempt s e) (hl : registerEvent s e = some d) :
    (AtomicRegister.machine ρ (0 : ω → W)).enabled (toRegister s) d ∧
      toRegister (next s e) = (AtomicRegister.machine ρ 0).next (toRegister s) d := by
  have hstep := step_of_enabled he
  generalize next s e = s' at hstep ⊢
  cases hstep with
  | storeEven q src hw =>
    simp only [registerEvent, hw] at hl
    cases hl
    exact ⟨trivial, rfl⟩
  | call r maxTries dst hr =>
    cases hl
    refine ⟨?_, ?_⟩
    · simp only [AtomicRegister.machine, toRegister, hr, absReader]
    · rw [to_register_set]
      rfl
  | accept r l a hr =>
    simp only [registerEvent, hr] at hl
    cases hl
    have hreader : (toRegister s).reader r = .pending l.calledAt := by
      simp only [toRegister, hr, absReader]
    have hdst := accepted_latest h hr (hshort l s.seq a ∅ hr)
    refine ⟨⟨l.calledAt, hreader⟩, ?_⟩
    rw [to_register_set]
    simp only [AtomicRegister.machine, hreader, absReader, hdst]
    rfl
  | retry r l q1 a hr hne =>
    simp only [registerEvent, hr, if_neg hne] at hl
    cases hl
  | «return» r l v hr =>
    cases hl
    have hreader : (toRegister s).reader r = .took l.calledAt v l.dst := by
      simp only [toRegister, hr, absReader]
    refine ⟨⟨l.calledAt, v, l.dst, hreader⟩, ?_⟩
    have hset := to_register_set s r .idle
    simp only [AtomicRegister.machine, hreader]
    rw [← show absReader (.idle : Reader ω W) = .idle from rfl, ← hset]
    simp only [toRegister, List.map_append]
    rfl
  | fail r l hr =>
    cases hl
    refine ⟨⟨l.calledAt, ?_⟩, to_register_set s r .idle⟩
    simp only [toRegister, hr, absReader]
  | _ => cases hl

variable (ρ ω W) in
/-- Where attempts are short, the seqlock runs the atomic register. -/
def register : Simulation ((machine ρ ω W).restrict ShortAttempt)
    (AtomicRegister.machine ρ (0 : ω → W)) Inv where
  abs := toRegister
  label := registerEvent
  step _ _ _ h he hl := register_step h he.1 he.2 hl
  stutter _ _ _ he hl := register_stutter he.1 hl

/-- No snapshot is torn: what `so101_shm_read` returned is in all its words one sample, the
last that was completed at some instant between call and return, and no reader goes back. -/
theorem snapshot_never_torn {es : List (Event ρ ω W)}
    (hv : (machine ρ ω W).Valid (initial ρ ω W) es)
    (hshort : (machine ρ ω W).Along ShortAttempt (initial ρ ω W) es) :
    (∀ d ∈ ((machine ρ ω W).run (initial ρ ω W) es).reads,
      d.calledAt ≤ d.version ∧ d.version ≤ d.returnedAt ∧
        (0 :: ((machine ρ ω W).run (initial ρ ω W) es).published)[d.version]? = some d.value) ∧
      ((machine ρ ω W).run (initial ρ ω W) es).reads.Pairwise
        (fun d e => d.reader = e.reader → d.version ≤ e.version) := by
  obtain ⟨hvalid, hrun⟩ := (register ρ ω W).refines
    (fun s e h he => inv_step h (step_of_enabled he.1)) inv_initial (restrict_valid hv hshort)
  have hboot : (register ρ ω W).abs (initial ρ ω W) = AtomicRegister.initial ρ (ω → W) := rfl
  rw [hboot] at hvalid hrun
  rw [restrict_run] at hrun
  obtain ⟨hwithin, hordered⟩ := AtomicRegister.reads_atomic (0 : ω → W) hvalid
  rw [← hrun] at hwithin hordered
  refine ⟨fun d hd => ?_, List.pairwise_map.mp hordered⟩
  obtain ⟨hcalled, hreturned, hversion⟩ := hwithin d.toRead (List.mem_map_of_mem hd)
  exact ⟨hcalled, hreturned, hversion⟩

end Simulation

/-- A sample of two words is published while it is copied: the first copy is torn and
refused, the second is returned. -/
def readAcrossPublish : List (Event Unit Bool ℕ) :=
  [.call () 100 (fun _ => 9), .loadFirst (), .copyOut () true, .load (fun _ => 7), .storeOdd,
    .copyIn false, .copyOut () false, .copyIn true, .loadSecond (), .storeEven, .loadFirst (),
    .copyOut () false, .copyOut () true, .loadSecond (), .return ()]

theorem snapshot_never_torn_across :
    ((machine Unit Bool ℕ).run (initial Unit Bool ℕ) readAcrossPublish).reads.map Returned.k = [1] ∧
      ∀ d ∈ ((machine Unit Bool ℕ).run (initial Unit Bool ℕ) readAcrossPublish).reads,
        d.calledAt ≤ d.version ∧ d.version ≤ d.returnedAt ∧
          (0 :: ((machine Unit Bool ℕ).run (initial Unit Bool ℕ) readAcrossPublish).published)[
            d.version]? = some d.value := by
  have hv : (machine Unit Bool ℕ).Valid (initial Unit Bool ℕ) readAcrossPublish :=
    ⟨rfl, ⟨_, rfl, by decide⟩, ⟨_, _, _, _, rfl, by decide⟩, rfl, ⟨_, _, rfl⟩,
      ⟨_, _, _, rfl, by decide⟩, ⟨_, _, _, _, rfl, by decide⟩, ⟨_, _, _, rfl, by decide⟩,
      ⟨_, _, _, rfl⟩, ⟨_, _, rfl⟩, ⟨_, rfl, by decide⟩, ⟨_, _, _, _, rfl, by decide⟩,
      ⟨_, _, _, _, rfl, by decide⟩, ⟨_, _, _, rfl⟩, ⟨_, _, rfl⟩, trivial⟩
  have hfew : ∀ a n, n ≤ 1 → n < a + 2 ^ 31 := by
    intro a n hn
    omega
  have hshort : (machine Unit Bool ℕ).Along ShortAttempt (initial Unit Bool ℕ) readAcrossPublish :=
    ⟨trivial, trivial, trivial, trivial, trivial, trivial, trivial, trivial,
      fun _ _ a _ _ => hfew a 0 (by decide), trivial, trivial, trivial, trivial,
      fun _ _ a _ _ => hfew a 1 (by decide), trivial, trivial⟩
  exact ⟨rfl, (snapshot_never_torn hv hshort).1⟩

end Seqlock
