import So101.Seqlock

/-!
# The live view of the Python client

`wait_new` looks at the low half of the cycle in the shared memory without the seqlock and
takes a snapshot when it has changed; the loop of the script goes on from the cycle of that
snapshot. Writer and other readers are the seqlock model.
-/
namespace LiveView

open GuardedMachine SharedMemory
open Seqlock (latest ShortAttempt)

def readTries : ℤ := 1000

/-- Where the client is in a sample of words: `me` among the readers, the low word of the
cycle and the cycle itself. -/
structure Layout (ρ ω W : Type*) [Zero W] where
  me : ρ
  low : ω
  lowOf : W → U32
  cycleOf : (ω → W) → ℕ
  lowOf_low : ∀ x, lowOf (x low) = BitVec.ofNat 32 (cycleOf x)
  cycleOf_zero : cycleOf 0 = 0

/-- In the loop of `wait_new`, in `read`, or stopped by its TimeoutError. -/
inductive Phase where
  | polling
  | reading
  | raised
  deriving DecidableEq

/-- `seen` are the cycles that `wait_new` has returned. -/
structure State (ρ ω W : Type*) where
  mem : Seqlock.State ρ ω W
  phase : Phase
  last : ℕ
  seen : List ℕ

inductive Event (ρ ω W : Type*) where
  | memory (e : Seqlock.Event ρ ω W)
  | poll (dst : ω → W)
  | expire

variable {ρ ω W : Type*} [DecidableEq ρ] [DecidableEq ω] [Fintype ω] [Zero W]

variable (c : Layout ρ ω W)

def Enabled (s : State ρ ω W) : Event ρ ω W → Prop
  | .memory e => Seqlock.Enabled s.mem e ∧ ∀ n dst, e ≠ .call c.me n dst
  | .poll _ => s.phase = .polling ∧ s.mem.reader c.me = .idle
  | .expire => s.phase = .polling

def afterRead (s : State ρ ω W) : Seqlock.Event ρ ω W → State ρ ω W
  | .return r =>
    match s.mem.reader r with
    | .done l _ =>
      if r = c.me then
        { s with
          phase := .polling
          last := c.cycleOf l.dst
          seen := s.seen ++ [c.cycleOf l.dst] }
      else s
    | _ => s
  | .fail r => if r = c.me then { s with phase := .raised } else s
  | _ => s

/-- `U32.unpack_from(mm, OFF_SAMPLE)[0] != (last_cycle & 0xFFFFFFFF)`. -/
def changed (s : State ρ ω W) : Prop := c.lowOf (s.mem.sample c.low) ≠ BitVec.ofNat 32 s.last

instance (s : State ρ ω W) : Decidable (changed c s) := inferInstanceAs (Decidable (_ ≠ _))

def next (s : State ρ ω W) : Event ρ ω W → State ρ ω W
  | .memory e => { afterRead c s e with mem := Seqlock.next s.mem e }
  | .poll dst =>
    if changed c s then
      { s with mem := Seqlock.next s.mem (.call c.me readTries dst), phase := .reading }
    else s
  | .expire => s

def machine : Machine (State ρ ω W) (Event ρ ω W) := ⟨Enabled c, next c⟩

def initial (ρ ω W : Type*) [Zero W] : State ρ ω W := ⟨Seqlock.initial ρ ω W, .polling, 0, []⟩

def Regular (s : State ρ ω W) : Event ρ ω W → Prop
  | .memory (.load src) => c.cycleOf src = s.mem.published.length + 1
  | .memory e => ShortAttempt s.mem e
  | _ => True

section Numbering

/-- Each sample, published or on its way, has the number of its cycle. -/
structure Numbered (m : Seqlock.State ρ ω W) : Prop where
  published : ∀ n x, (0 :: m.published)[n]? = some x → c.cycleOf x = n
  loaded : ∀ q src, m.writer = .loaded q src → c.cycleOf src = m.published.length + 1
  copying : ∀ q src todo, m.writer = .copying q src todo →
    c.cycleOf src = m.published.length + 1

variable {c} {m m' : Seqlock.State ρ ω W} {d : Seqlock.Event ρ ω W}

omit [DecidableEq ρ] [DecidableEq ω] [Fintype ω] in
theorem numbered_initial : Numbered c (Seqlock.initial ρ ω W) where
  published n x hx := by
    cases n with
    | zero =>
      obtain rfl := Option.some.inj hx
      exact c.cycleOf_zero
    | succ n => cases hx
  loaded q src hw := nomatch hw
  copying q src todo hw := nomatch hw

omit [DecidableEq ρ] [DecidableEq ω] [Fintype ω] in
theorem Numbered.latest (h : Numbered c m) : c.cycleOf (latest m.published) = m.published.length :=
  h.published _ _ (AtomicRegister.is_version_latest 0 m.published)

theorem numbered_step (h : Numbered c m) (hstep : Seqlock.Step m d m')
    (hload : ∀ src, d = .load src → c.cycleOf src = m.published.length + 1) : Numbered c m' := by
  cases hstep with
  | load src hw =>
    refine ⟨h.published, ?_, (fun q src todo hw => nomatch hw)⟩
    intro q src' heq
    cases heq
    exact hload src rfl
  | storeOdd q src hw =>
    refine ⟨h.published, (fun q src hw => nomatch hw), ?_⟩
    intro q' src' todo heq
    cases heq
    exact h.loaded q src hw
  | copyIn w q src todo hw =>
    refine ⟨h.published, (fun q src hw => nomatch hw), ?_⟩
    intro q' src' todo' heq
    cases heq
    exact h.copying q src todo hw
  | storeEven q src hw =>
    refine ⟨?_, (fun q src hw => nomatch hw), (fun q src todo hw => nomatch hw)⟩
    intro n x hx
    have hlen := (List.getElem?_eq_some_iff.mp hx).1
    simp only [List.length_cons, List.length_append, List.length_nil] at hlen
    rcases Nat.lt_or_ge n (m.published.length + 1) with hlt | hge
    · refine h.published n x ?_
      rw [← List.cons_append, List.getElem?_append_left (by simpa using hlt)] at hx
      exact hx
    · obtain rfl : n = m.published.length + 1 := by omega
      have hlast : some src = some x := by simpa using hx
      obtain rfl := Option.some.inj hlast
      exact h.copying q src ∅ hw
  | _ => exact ⟨h.published, h.loaded, h.copying⟩

end Numbering

def Newer (c : Layout ρ ω W) (m : Seqlock.State ρ ω W) (last : ℕ) : Seqlock.Reader ω W → Prop
  | .idle => True
  | .trying _ => last < m.published.length ∨ ¬ m.writer.quiet
  | .copying _ _ a _ => last < a
  | .done l _ => last < c.cycleOf l.dst ∧ c.cycleOf l.dst ≤ m.published.length

structure Live (c : Layout ρ ω W) (s : State ρ ω W) : Prop where
  inv : Seqlock.Inv s.mem
  numbered : Numbered c s.mem
  idle : s.phase ≠ .reading → s.mem.reader c.me = .idle
  newer : Newer c s.mem s.last (s.mem.reader c.me)
  last_le : s.last ≤ s.mem.published.length
  ordered : (0 :: s.seen).Pairwise (· < ·)
  below : ∀ n ∈ 0 :: s.seen, n ≤ s.last

variable {c : Layout ρ ω W}

omit [DecidableEq ρ] [DecidableEq ω] [Fintype ω] in
theorem live_initial : Live c (initial ρ ω W) where
  inv := Seqlock.inv_initial
  numbered := numbered_initial
  idle _ := rfl
  newer := trivial
  last_le := Nat.le_refl 0
  ordered := by simp [initial]
  below := by simp [initial]

omit [DecidableEq ρ] [DecidableEq ω] [Fintype ω] in
theorem Newer.mono {m m' : Seqlock.State ρ ω W} {last : ℕ} {r : Seqlock.Reader ω W}
    (h : Newer c m last r) (hlen : m.published.length ≤ m'.published.length)
    (htry : last < m.published.length ∨ ¬ m.writer.quiet →
      last < m'.published.length ∨ ¬ m'.writer.quiet) : Newer c m' last r := by
  cases r with
  | idle => trivial
  | trying l => exact htry h
  | copying l q1 a todo => exact h
  | done l v => exact ⟨h.1, h.2.trans hlen⟩

theorem newer_step {m m' : Seqlock.State ρ ω W} {d : Seqlock.Event ρ ω W} {last : ℕ}
    (hinv : Seqlock.Inv m) (hnum : Numbered c m) (hstep : Seqlock.Step m d m')
    (hshort : ShortAttempt m d) (hcall : ∀ n dst, d ≠ .call c.me n dst)
    (hle : last ≤ m.published.length) (h : Newer c m last (m.reader c.me)) :
    Newer c m' last (m'.reader c.me) := by
  have hset : ∀ r b, (r = c.me → Newer c m last b) →
      Newer c m last ((m.setReader r b).reader c.me) := by
    intro r b hb
    by_cases hr : c.me = r
    · subst hr
      simpa only [Seqlock.State.setReader, Function.update_self] using hb rfl
    · simpa only [Seqlock.State.setReader, Function.update_of_ne hr] using h
  have hown : ∀ {r b}, m.reader r = b → r = c.me → Newer c m last b := by
    rintro r b rfl rfl
    exact h
  have hpast : m.writer.quiet → ∀ {l}, Newer c m last (.trying l) → last < m.published.length :=
    fun hquiet l ht => ht.resolve_right (not_not.mpr hquiet)
  cases hstep with
  | load src hw =>
    refine h.mono (Nat.le_refl _) (fun ht => ht.imp_right (fun hnot => ?_))
    rw [hw] at hnot
    exact absurd trivial hnot
  | storeOdd q src hw => exact h.mono (Nat.le_refl _) (fun _ => Or.inr id)
  | copyIn w q src todo hw => exact h.mono (Nat.le_refl _) (fun _ => Or.inr id)
  | storeEven q src hw =>
    have hlen : (m.published ++ [src]).length = m.published.length + 1 := by simp
    exact h.mono (by simp) (fun _ => Or.inl (by simp only [hlen]; omega))
  | call r n dst hr => exact hset r _ (fun hme => absurd (hme ▸ rfl) (hcall n dst))
  | loadOdd r l hr =>
    refine hset r _ (fun hme => ?_)
    have ht : Newer c m last (.trying l) := hown hr hme
    exact ht
  | loadFirst r l hr heven =>
    exact hset r _ (fun hme => hpast (hinv.writer.quiet_of_even heven) (hown hr hme))
  | copyOut r w l q1 a todo hr =>
    refine hset r _ (fun hme => ?_)
    have hlt : last < a := hown hr hme
    exact hlt
  | accept r l a hr =>
    refine hset r _ (fun hme => ?_)
    have hdst := Seqlock.accepted_latest hinv hr (hshort l m.seq a ∅ hr)
    have hcycle : c.cycleOf l.dst = m.published.length := by rw [hdst, hnum.latest]
    have hreader := hinv.readers r
    rw [hr] at hreader
    have hlt : last < a := hown hr hme
    exact ⟨by rw [hcycle]; exact Nat.lt_of_lt_of_le hlt hreader.2.1, hcycle.le⟩
  | retry r l q1 a hr hne =>
    refine hset r _ (fun hme => Or.inl ?_)
    have hreader := hinv.readers r
    rw [hr] at hreader
    have hlt : last < a := hown hr hme
    exact Nat.lt_of_lt_of_le hlt hreader.2.1
  | «return» r l v hr => exact hset r _ (fun _ => trivial)
  | fail r l hr => exact hset r _ (fun _ => trivial)

omit [DecidableEq ω] [Fintype ω] in
theorem after_read_done {s : State ρ ω W} {d : Seqlock.Event ρ ω W} :
    (∃ l v, s.mem.reader c.me = .done l v ∧ d = .return c.me ∧ afterRead c s d =
      { s with
        phase := .polling
        last := c.cycleOf l.dst
        seen := s.seen ++ [c.cycleOf l.dst] }) ∨
    (d = .fail c.me ∧ afterRead c s d = { s with phase := .raised }) ∨
    (afterRead c s d = s ∧ d ≠ .fail c.me ∧ ∀ l v, s.mem.reader c.me = .done l v →
      d ≠ .return c.me) := by
  cases d with
  | «return» r =>
    by_cases hme : r = c.me
    · subst hme
      cases hr : s.mem.reader c.me with
      | done l v => exact Or.inl ⟨l, v, rfl, rfl, by simp only [afterRead, hr, if_true]⟩
      | _ =>
        refine Or.inr (Or.inr ⟨by simp only [afterRead, hr], by simp, fun l v heq => ?_⟩)
        cases heq
    · refine Or.inr (Or.inr ⟨?_, by simp, fun l v _ heq => hme (by cases heq; rfl)⟩)
      simp only [afterRead, if_neg hme]
      split <;> rfl
  | fail r =>
    by_cases hme : r = c.me
    · subst hme
      exact Or.inr (Or.inl ⟨rfl, by simp only [afterRead, if_true]⟩)
    · refine Or.inr (Or.inr ⟨by simp only [afterRead, if_neg hme], ?_, by simp⟩)
      intro heq
      cases heq
      exact hme rfl
  | _ => exact Or.inr (Or.inr ⟨rfl, by simp, by simp⟩)

omit [Zero W] in
theorem published_le {m m' : Seqlock.State ρ ω W} {d : Seqlock.Event ρ ω W}
    (hstep : Seqlock.Step m d m') : m.published.length ≤ m'.published.length := by
  cases hstep with
  | storeEven q src hw => simp
  | _ => exact Nat.le_refl _

theorem live_memory {s : State ρ ω W} {d : Seqlock.Event ρ ω W} (h : Live c s)
    (he : Enabled c s (.memory d)) (hregular : Regular c s (.memory d)) :
    Live c (next c s (.memory d)) := by
  obtain ⟨hen, hcall⟩ := he
  have hstep := Seqlock.step_of_enabled hen
  have hshort : ShortAttempt s.mem d := by
    cases d with
    | loadSecond r => exact hregular
    | _ => trivial
  have hload : ∀ src, d = .load src → c.cycleOf src = s.mem.published.length + 1 := by
    rintro src rfl
    exact hregular
  have hinv := Seqlock.inv_step h.inv hstep
  have hnum := numbered_step h.numbered hstep hload
  have hnewer := newer_step h.inv h.numbered hstep hshort hcall h.last_le h.newer
  have hlen := published_le hstep
  change Live c { afterRead c s d with mem := Seqlock.next s.mem d }
  rcases after_read_done (c := c) (s := s) (d := d) with
    ⟨l, v, hr, rfl, hafter⟩ | ⟨rfl, hafter⟩ | ⟨hafter, -, -⟩
  · rw [hafter]
    have hdone := h.newer
    rw [hr] at hdone
    have hidle : (Seqlock.next s.mem (.return c.me)).reader c.me = .idle := by
      simp [Seqlock.next, hr, Seqlock.State.setReader]
    refine ⟨hinv, hnum, fun _ => hidle, by rw [hidle]; trivial, hdone.2.trans hlen, ?_, ?_⟩
    · simp only [← List.cons_append]
      refine List.pairwise_append.mpr ⟨h.ordered, List.pairwise_singleton _ _, ?_⟩
      intro a ha b hb
      obtain rfl := List.mem_singleton.mp hb
      exact Nat.lt_of_le_of_lt (h.below a ha) hdone.1
    · intro n hn
      rcases List.mem_append.mp (List.cons_append ▸ hn) with hold | hnew
      · exact (h.below n hold).trans hdone.1.le
      · obtain rfl := List.mem_singleton.mp hnew
        exact Nat.le_refl _
  · rw [hafter]
    have hidle : (Seqlock.next s.mem (.fail c.me)).reader c.me = .idle := by
      simp [Seqlock.next, Seqlock.State.setReader]
    exact ⟨hinv, hnum, fun _ => hidle, hnewer, h.last_le.trans hlen, h.ordered, h.below⟩
  · rw [hafter]
    exact ⟨hinv, hnum, fun hnot => Seqlock.idle_step hstep hcall (h.idle hnot), hnewer,
      h.last_le.trans hlen, h.ordered, h.below⟩

omit [DecidableEq ρ] [DecidableEq ω] [Fintype ω] in
/-- The poll has seen a word of a newer sample, complete or on its way. -/
theorem changed_newer {s : State ρ ω W} (h : Live c s) (hchanged : changed c s) :
    s.last < s.mem.published.length ∨ ¬ s.mem.writer.quiet := by
  by_cases hquiet : s.mem.writer.quiet
  · left
    rcases Nat.lt_or_eq_of_le h.last_le with hlt | heq
    · exact hlt
    · refine absurd ?_ hchanged
      rw [(h.inv.writer.of_quiet hquiet).2, c.lowOf_low, h.numbered.latest, heq]
  · exact Or.inr hquiet

theorem live_next {s : State ρ ω W} {e : Event ρ ω W} (h : Live c s) (he : Enabled c s e)
    (hregular : Regular c s e) : Live c (next c s e) := by
  cases e with
  | memory d => exact live_memory h he hregular
  | expire => exact h
  | poll dst =>
    by_cases hchanged : changed c s
    · have hstep := Seqlock.step_of_enabled (e := .call c.me readTries dst) he.2
      have hinv := Seqlock.inv_step h.inv hstep
      have hnum := numbered_step h.numbered hstep (fun src heq => nomatch heq)
      simp only [next, if_pos hchanged]
      refine ⟨hinv, hnum, fun hnot => absurd rfl hnot, ?_, h.last_le, h.ordered, h.below⟩
      simp only [Seqlock.next, Seqlock.State.setReader, Function.update_self]
      exact changed_newer h hchanged
    · simpa only [next, if_neg hchanged] using h

/-- The script shows every cycle at most once and in order, each that of a sample the
daemon has completed, however its looks at the bare word fall between the writer's stores.
A look that finds nothing new while no publish is under way has missed nothing, except a
whole multiple of 2^32 cycles. -/
theorem live_view_increasing (c : Layout ρ ω W) {es : List (Event ρ ω W)} {s : State ρ ω W}
    (hv : (machine c).Valid (initial ρ ω W) es)
    (hregular : (machine c).Along (Regular c) (initial ρ ω W) es)
    (hs : (machine c).run (initial ρ ω W) es = s) :
    s.seen.Pairwise (· < ·) ∧ (∀ n ∈ s.seen, 0 < n ∧ n ≤ s.mem.published.length) ∧
      (s.mem.writer.quiet → ¬ changed c s →
        2 ^ 32 ∣ s.mem.published.length - s.last) := by
  have h := invariant_along (I := Live c) (fun _ _ h he hr => live_next h he hr)
    live_initial hv hregular
  rw [hs] at h
  obtain ⟨hpos, hordered⟩ := List.pairwise_cons.mp h.ordered
  refine ⟨hordered, fun n hn => ⟨hpos n hn, ?_⟩, fun hquiet hsame => ?_⟩
  · exact (h.below n (List.mem_cons_of_mem 0 hn)).trans h.last_le
  · rw [changed, not_not, (h.inv.writer.of_quiet hquiet).2, c.lowOf_low, h.numbered.latest] at hsame
    have hnat := congrArg BitVec.toNat hsame
    simp only [BitVec.toNat_ofNat] at hnat
    have hle := h.last_le
    omega

def oneWord : Layout Unit Unit ℕ where
  me := ()
  low := ()
  lowOf n := BitVec.ofNat 32 n
  cycleOf x := x ()
  lowOf_low _ := rfl
  cycleOf_zero := rfl

def looksTwice : List (Event Unit Unit ℕ) :=
  [.memory (.load fun _ => 1), .memory .storeOdd, .memory (.copyIn ()), .poll 0,
    .memory (.loadFirst ()), .memory .storeEven, .memory (.loadFirst ()), .memory (.copyOut () ()),
    .memory (.loadSecond ()), .memory (.return ()), .poll 0, .expire, .memory (.load fun _ => 2),
    .memory .storeOdd, .memory (.copyIn ()), .memory .storeEven, .poll 0, .memory (.loadFirst ()),
    .memory (.copyOut () ()), .memory (.loadSecond ()), .memory (.return ())]

theorem live_view_increasing_twice :
    let s := (machine oneWord).run (initial Unit Unit ℕ) looksTwice
    s.seen = [1, 2] ∧ s.seen.Pairwise (· < ·) := by
  intro s
  have hv : (machine oneWord).Valid (initial Unit Unit ℕ) looksTwice :=
    ⟨⟨rfl, fun _ _ h => nomatch h⟩, ⟨⟨_, _, rfl⟩, fun _ _ h => nomatch h⟩,
      ⟨⟨_, _, _, rfl, by decide⟩, fun _ _ h => nomatch h⟩, ⟨rfl, rfl⟩,
      ⟨⟨_, rfl, by decide⟩, fun _ _ h => nomatch h⟩, ⟨⟨_, _, rfl⟩, fun _ _ h => nomatch h⟩,
      ⟨⟨_, rfl, by decide⟩, fun _ _ h => nomatch h⟩,
      ⟨⟨_, _, _, _, rfl, by decide⟩, fun _ _ h => nomatch h⟩,
      ⟨⟨_, _, _, rfl⟩, fun _ _ h => nomatch h⟩, ⟨⟨_, _, rfl⟩, fun _ _ h => nomatch h⟩,
      ⟨rfl, rfl⟩, rfl, ⟨rfl, fun _ _ h => nomatch h⟩, ⟨⟨_, _, rfl⟩, fun _ _ h => nomatch h⟩,
      ⟨⟨_, _, _, rfl, by decide⟩, fun _ _ h => nomatch h⟩, ⟨⟨_, _, rfl⟩, fun _ _ h => nomatch h⟩,
      ⟨rfl, rfl⟩, ⟨⟨_, rfl, by decide⟩, fun _ _ h => nomatch h⟩,
      ⟨⟨_, _, _, _, rfl, by decide⟩, fun _ _ h => nomatch h⟩,
      ⟨⟨_, _, _, rfl⟩, fun _ _ h => nomatch h⟩, ⟨⟨_, _, rfl⟩, fun _ _ h => nomatch h⟩, trivial⟩
  have hfew : ∀ a n, n ≤ 2 → n < a + 2 ^ 31 := by
    intro a n hn
    omega
  have hregular : (machine oneWord).Along (Regular oneWord) (initial Unit Unit ℕ) looksTwice :=
    ⟨rfl, trivial, trivial, trivial, trivial, trivial, trivial, trivial,
      fun _ _ a _ _ => hfew a 1 (by decide), trivial, trivial, trivial, rfl, trivial, trivial,
      trivial, trivial, trivial, trivial, fun _ _ a _ _ => hfew a 2 (by decide), trivial, trivial⟩
  exact ⟨rfl, (live_view_increasing oneWord hv hregular rfl).1⟩

end LiveView
