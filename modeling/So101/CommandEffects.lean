import So101.CommandPath

/-!
# What an acknowledged ESTOP means

From the client's return of an OK to the mode word: the ESTOP has been stored, no TELEOP
or HOLD is stored after it before a RESET is, and until then every control cycle that
loads the mode is quiet.
-/
namespace CommandEffects

open GuardedMachine AtomicProgram SharedMemory SupervisorThread
open SupervisorFaults TorqueLockout CommandRounds CommandPath
open Calibration (CFloat)

def ResetStore (x : Site × Mode) : Prop := ∃ cmd, x.1 = .command cmd ∧ cmd.cmd = cmdReset

def Grant (x : Site × Mode) : Prop :=
  ∃ cmd, x.1 = .command cmd ∧ cmd.cmd = cmdSetMode ∧ (x.2 = .teleop ∨ x.2 = .hold)

def Ordered (log : Stores) : Prop :=
  ∀ pre site m mid x post, log = pre ++ (site, m) :: (mid ++ x :: post) → Forced site → Grant x →
    ∃ y ∈ mid, ResetStore y

section Effects

variable {c : Ctx} {F : Type} [CFloat F] {ι : Type}

/-- From a forced store to the next RESET the mode is low and locked. -/
def Standing (log : Stores) (s : Watched c F) : Prop :=
  ∀ pre site m post, log = pre ++ (site, m) :: post → Forced site →
    (∀ y ∈ post, ¬ ResetStore y) → LockedIn s ∧ LowIn s

theorem append_cases {α : Type*} {xs : List α} {a x : α} {pre post : List α}
    (h : xs ++ [a] = pre ++ x :: post) :
    (a = x ∧ xs = pre ∧ post = []) ∨ ∃ rest, post = rest ++ [a] ∧ xs = pre ++ x :: rest := by
  rcases List.eq_nil_or_concat post with rfl | ⟨rest, b, rfl⟩
  · obtain ⟨rfl, hax⟩ := List.append_inj' h rfl
    exact Or.inl ⟨by simpa using hax, rfl, rfl⟩
  · right
    have hsplit : xs ++ [a] = (pre ++ x :: rest) ++ [b] := by simpa using h
    obtain ⟨rfl, hab⟩ := List.append_inj' hsplit rfl
    obtain rfl : a = b := by simpa using hab
    exact ⟨rest, by simp, rfl⟩

variable {log : Stores} {s : Watched c F}

theorem standing_quiet {e : AtomicProgram.Event (lockDaemon c F)} (h : Standing log s)
    (hs : Steady s) (he : (lockDaemon c F).machine.enabled s.1 e)
    (hno : ∀ site m, e ≠ modeStore c F site m) : Standing log ((watch c F).next s e) := by
  intro pre site m post hlog hforced hpost
  obtain ⟨hlocked, hlow⟩ := h pre site m post hlog hforced hpost
  refine ⟨locked_next hs he ?_ hlocked, low_next hs he ?_ hlow⟩
  · rintro ⟨cmd, m', rfl, _⟩
    exact hno _ _ rfl
  · rintro ⟨cmd, m', rfl, _⟩
    exact hno _ _ rfl

theorem standing_store {site : Site} {m : Mode} (h : Standing log s) (hs : Steady s)
    (he : (lockDaemon c F).machine.enabled s.1 (modeStore c F site m)) :
    Standing (log ++ [(site, m)]) ((watch c F).next s (modeStore c F site m)) := by
  intro pre site' m' post hlog hforced hpost
  rcases append_cases hlog with ⟨heq, -, -⟩ | ⟨rest, rfl, hrest⟩
  · cases heq
    exact forced_locks hs hforced he
  · obtain ⟨hlocked, hlow⟩ := h pre site' m' rest hrest hforced
      (fun y hy => hpost y (List.mem_append_left _ hy))
    refine ⟨locked_next hs he ?_ hlocked, low_next hs he (locked_refuses hs hlocked he) hlow⟩
    rintro ⟨cmd, m'', heq, hcmd⟩
    cases heq
    exact hpost (.command cmd, m) (by simp) ⟨cmd, rfl, hcmd⟩

theorem ordered_store {site : Site} {m : Mode} (ho : Ordered log) (h : Standing log s)
    (hs : Steady s) (he : (lockDaemon c F).machine.enabled s.1 (modeStore c F site m)) :
    Ordered (log ++ [(site, m)]) := by
  intro pre site' m' mid x post hlog hforced hgrant
  have hlog' : log ++ [(site, m)] = (pre ++ (site', m') :: mid) ++ x :: post := by
    simpa using hlog
  rcases append_cases hlog' with ⟨rfl, hpre, -⟩ | ⟨rest, rfl, hrest⟩
  · by_contra hno
    obtain ⟨hlocked, -⟩ := h pre site' m' mid hpre hforced (fun y hy hr => hno ⟨y, hy, hr⟩)
    obtain ⟨cmd, hsite, hcmd, hm⟩ := hgrant
    obtain rfl : site = .command cmd := hsite
    exact locked_refuses hs hlocked he ⟨cmd, m, rfl, hcmd, hm⟩
  · exact ho pre site' m' mid x rest (by simpa using hrest) hforced hgrant

def logged : AtomicProgram.Event (lockDaemon c F) → Stores
  | .access .supervisor o => storesOf o
  | _ => []

theorem logged_cases (e : AtomicProgram.Event (lockDaemon c F)) :
    (∃ site m, e = modeStore c F site m ∧ logged e = [(site, m)]) ∨
      (logged e = [] ∧ ∀ site m, e ≠ modeStore c F site m) := by
  cases e with
  | start i inp =>
    refine Or.inr ⟨rfl, ?_⟩
    rintro site m heq
    cases heq
  | access i o =>
    cases i with
    | control =>
      refine Or.inr ⟨rfl, ?_⟩
      rintro site m heq
      cases heq
    | supervisor =>
      cases o with
      | storeMode site m => exact Or.inl ⟨site, m, rfl, rfl⟩
      | _ =>
        refine Or.inr ⟨rfl, ?_⟩
        rintro site m heq
        cases heq

theorem standing_next {e : AtomicProgram.Event (lockDaemon c F)} (ho : Ordered log)
    (h : Standing log s) (hs : Steady s) (he : (lockDaemon c F).machine.enabled s.1 e) :
    Standing (log ++ logged e) ((watch c F).next s e) ∧ Ordered (log ++ logged e) := by
  rcases logged_cases e with ⟨site, m, rfl, hlog⟩ | ⟨hlog, hno⟩
  · rw [hlog]
    exact ⟨standing_store h hs he, ordered_store ho h hs he⟩
  · rw [hlog, List.append_nil]
    exact ⟨standing_quiet h hs he hno, ho⟩

/-- Some history of the supervisor explains the words and what has been stored. -/
def Explained (s : State c F ι) : Prop :=
  ∃ g, Steady (s.daemon, g) ∧ Standing s.stored (s.daemon, g) ∧ Ordered s.stored

variable [DecidableEq ι]

theorem next_threads {s : State c F ι} {e : CommandPath.Event F ι}
    {d : AtomicProgram.Event (lockDaemon c F)} (hd : s.threads e = some d) :
    (next s e).daemon = (lockDaemon c F).machine.next s.daemon d ∧
      (next s e).stored = s.stored ++ logged d := by
  refine ⟨by simp only [next, hd], ?_⟩
  cases e with
  | client e => cases hd
  | semaphore e => cases hd
  | finish => cases hd
  | start now snapshot =>
    obtain rfl := Option.some.inj hd
    simp only [next, State.book, logged, List.append_nil]
    split <;> rfl
  | cycle inp =>
    obtain rfl := Option.some.inj hd
    exact (List.append_nil _).symm
  | access i o =>
    obtain rfl := Option.some.inj hd
    cases i with
    | control => exact (List.append_nil _).symm
    | supervisor => rfl

theorem next_still {s : State c F ι} {e : CommandPath.Event F ι} (hd : s.threads e = none) :
    (next s e).daemon = s.daemon ∧ (next s e).stored = s.stored := by
  refine ⟨by simp only [next, hd], ?_⟩
  cases e with
  | client e => rfl
  | semaphore e => rfl
  | finish => rfl
  | _ => cases hd

theorem explained_next {s : State c F ι} {e : CommandPath.Event F ι} (h : Explained s)
    (he : CommandPath.Enabled s e) : Explained (next s e) := by
  obtain ⟨g, hs, hstanding, hordered⟩ := h
  cases hd : s.threads e with
  | none =>
    obtain ⟨hdaemon, hstored⟩ := next_still hd
    refine ⟨g, ?_⟩
    rw [hdaemon, hstored]
    exact ⟨hs, hstanding, hordered⟩
  | some d =>
    obtain ⟨hdaemon, hstored⟩ := next_threads hd
    have hen := he.1 d hd
    have hsteady := steady_next hs hen
    obtain ⟨hstanding', hordered'⟩ := standing_next hordered hstanding hs hen
    have hwatch : (watch c F).next (s.daemon, g) d =
        ((next s e).daemon, (lockDiscipline c F).track g d) := by
      rw [hdaemon]
      rfl
    rw [hwatch] at hsteady hstanding'
    rw [← hstored] at hstanding' hordered'
    exact ⟨_, hsteady, hstanding', hordered'⟩

omit [DecidableEq ι] in
theorem explained_initial (l : Locals) (now : ℤ) {m : Mode} (hm : m ≠ .estop) :
    Explained (initial c F ι l now m) := by
  refine ⟨_, steady_boot (w := ⟨m, 0, 0, ⟨0, 0⟩⟩) l now rfl hm, ?_, ?_⟩
  · intro pre site m' post hlog
    simp [initial] at hlog
  · intro pre site m' mid x post hlog
    simp [initial] at hlog

/-- A client has been told that its ESTOP is served. Its store is there; no TELEOP or HOLD
has been stored since without a RESET in between; and with no RESET since, the mode asks
for no torque and a control cycle that loads it ends without any. -/
theorem estop_holds (c : Ctx) (F : Type) [CFloat F] (ι : Type) [DecidableEq ι] (l : Locals)
    (now : ℤ) {m : Mode} (hm : m ≠ .estop) {es : List (CommandPath.Event F ι)}
    (hv : (machine c F ι).Valid (initial c F ι l now m) es)
    (hforce : ∀ e ∈ es, e ≠ .semaphore .forcePost) {i : ι} {q : Cmd} (hq : q.cmd = cmdEstop)
    {s : State c F ι} (hs : (machine c F ι).run (initial c F ι l now m) es = s)
    (hret : (i, q, resOk) ∈ s.returned) :
    ∃ pre post, s.stored = pre ++ (.command q, .estop) :: post ∧
      (∀ mid x rest, post = mid ++ x :: rest → Grant x → ∃ y ∈ mid, ResetStore y) ∧
      ((∀ y ∈ post, ¬ ResetStore y) → Low s.daemon.words ∧
        ∀ k, s.daemon.prog .control = .access .loadMode k →
          (k s.daemon.words.modeReq).Ensures Quiet) := by
  subst hs
  obtain ⟨-, hdone⟩ := answered_done c F ι l now m hv hforce i q resOk hret
  obtain ⟨g, hsteady, hstanding, hordered⟩ := invariant (I := Explained)
    (fun _ _ h he => explained_next h he) (explained_initial l now hm) hv
  obtain ⟨pre, post, hsplit⟩ := List.append_of_mem (hdone.estop rfl hq)
  refine ⟨pre, post, hsplit, ?_, ?_⟩
  · rintro mid x rest rfl hgrant
    exact hordered pre _ _ mid x rest hsplit hq hgrant
  · intro hno
    obtain ⟨-, hlow⟩ := hstanding pre _ _ post hsplit hq hno
    refine ⟨hlow, fun k hk => ?_⟩
    have hphase := hsteady.phase
    simp only [hk] at hphase
    exact hphase.load hlow

theorem estop_holds_stopped :
    let s := (machine stopCtx ℚ Unit).run stopStart stopped
    Low s.daemon.words ∧ ∀ k, s.daemon.prog .control = .access .loadMode k →
      (k s.daemon.words.modeReq).Ensures Quiet := by
  have hforce : ∀ e ∈ stopped, e ≠ .semaphore .forcePost := by simp [stopped]
  obtain ⟨pre, post, hsplit, -, hrest⟩ := estop_holds stopCtx ℚ Unit _ 0 (by decide) stopped_valid
    hforce (q := stopCall) rfl rfl (List.mem_singleton_self ((), stopCall, resOk))
  have hone : [] ++ [(Site.command stopCall, Mode.estop)] =
      pre ++ (.command stopCall, .estop) :: post := hsplit
  rcases append_cases hone with ⟨-, -, rfl⟩ | ⟨rest, -, hnil⟩
  · exact hrest (fun y hy => absurd hy List.not_mem_nil)
  · simp at hnil

end Effects

end CommandEffects
