import So101.Lib.LockFile

/-!
# Daemons that come and go

Any number of daemons that start, stop, fail or are killed, and clients that attach to the
shared segment and look up the semaphores. Each system call that another process can notice
is a step of its own, in the order of `main`, `shm_create` and `sems_create`.
-/
namespace Lifecycle

open GuardedMachine LockFile

/-- How far a daemon has come in `main`. A `clean` end is one by a signal; the other is that
of a `pthread_create` that failed, and of a `sems_create` that did, which unlinks nothing. -/
inductive Stage where
  | start
  | opened
  | locked
  | cleared
  | published
  | lockUnlinked
  | namesFree
  | lockMade (l : Option ℕ)
  | running (l r : ℕ)
  | destroying (clean : Bool)
  | destroyedLock (clean : Bool)
  | destroyed (clean : Bool)
  | silenced
  | unlinked
  | over
  deriving DecidableEq, Repr

/-- The steps of a daemon; `takePost` is a wait of the supervisor that succeeds, and `leave`
the end of the process, at its return or by a signal that it does not handle. -/
inductive Step where
  | shmOpen
  | flock
  | memset
  | setMagic
  | unlinkLock (ok : Bool)
  | unlinkReady (ok : Bool)
  | openLock (ok : Bool)
  | openReady (ok : Bool)
  | takePost
  | threadFails
  | stop
  | clearMagic
  | shmUnlink
  | leave
  deriving DecidableEq, Repr

def semsOpened : Option ℕ → Option ℕ → Stage
  | some l, some r => .running l r
  | _, _ => .destroyed false

/-- The order of the steps; `fresh` is the semaphore that an `O_EXCL` creates. -/
def Stage.next (fresh : ℕ) : Stage → Step → Option Stage
  | .start, .shmOpen => some .opened
  | .opened, .flock => some .locked
  | .locked, .memset => some .cleared
  | .cleared, .setMagic => some .published
  | .published, .unlinkLock _ => some .lockUnlinked
  | .lockUnlinked, .unlinkReady _ => some .namesFree
  | .namesFree, .openLock ok => some (.lockMade (if ok then some fresh else none))
  | .lockMade l, .openReady ok => some (semsOpened l (if ok then some fresh else none))
  | .running l r, .takePost => some (.running l r)
  | .running _ _, .threadFails => some (.destroying false)
  | .running _ _, .stop => some (.destroying true)
  | .destroying clean, .unlinkLock _ => some (.destroyedLock clean)
  | .destroyedLock clean, .unlinkReady _ => some (.destroyed clean)
  | .destroyed true, .clearMagic => some .silenced
  | .destroyed false, .shmUnlink => some .unlinked
  | .silenced, .shmUnlink => some .unlinked
  | _, .leave => some .over
  | _, _ => none

def Step.action {D : Type*} (d : D) : Step → Option (Action D)
  | .shmOpen => some (.openFile d)
  | .flock => some (.lock d)
  | .shmUnlink => some (.unlink d)
  | .leave => some (.leave d)
  | _ => none

inductive Sems where
  | none
  | half (l : ℕ)
  | both (l r : ℕ)
  deriving DecidableEq, Repr

inductive Client where
  | detached
  | mapped (i : ℕ)
  | attached (i : ℕ) (lost : Bool) (sems : Sems)
  deriving DecidableEq, Repr

inductive Call where
  | map
  | check
  | alive
  | fail
  | openLock
  | openReady
  | openFails
  | post
  | quit
  deriving DecidableEq, Repr

/-- The segments, the two names of the semaphores, and who has posted a ready semaphore
that nobody has waited for since. -/
structure State (D C : Type*) where
  file : LockFile.State D
  magic : ℕ → Bool
  stage : D → Stage
  lockName : Option ℕ
  readyName : Option ℕ
  fresh : ℕ
  posts : ℕ → List C
  client : C → Client

inductive Event (D C : Type*) where
  | daemon (d : D) (x : Step)
  | client (c : C) (x : Call)
  deriving DecidableEq

section System

variable {D C : Type*}

def initial (D C : Type*) : State D C where
  file := LockFile.initial D
  magic _ := false
  stage _ := .start
  lockName := none
  readyName := none
  fresh := 0
  posts _ := []
  client _ := .detached

def State.Allows (s : State D C) (d : D) : Step → Prop
  | .openLock ok => ok = true → s.lockName = none
  | .openReady ok => ok = true → s.readyName = none
  | .takePost => ∃ l r, s.stage d = .running l r ∧ s.posts r ≠ []
  | _ => True

def State.Answers (s : State D C) (c : C) : Call → Prop
  | .map => (s.client c = .detached ∨ ∃ i sems, s.client c = .attached i true sems) ∧
      s.file.name ≠ none
  | .check => ∃ i, s.client c = .mapped i
  | .alive => ∃ i lost sems, s.client c = .attached i lost sems
  | .fail => ∀ i sems, s.client c ≠ .attached i false sems
  | .openLock => (∃ i lost, s.client c = .attached i lost .none) ∧ s.lockName ≠ none
  | .openReady => (∃ i lost l, s.client c = .attached i lost (.half l)) ∧ s.readyName ≠ none
  | .openFails => ∃ i lost l, s.client c = .attached i lost (.half l)
  | .post => ∃ i lost l r, s.client c = .attached i lost (.both l r)
  | .quit => True

def State.lockAfter (s : State D C) : Step → Option ℕ
  | .unlinkLock true => none
  | .openLock true => some s.fresh
  | _ => s.lockName

def State.readyAfter (s : State D C) : Step → Option ℕ
  | .unlinkReady true => none
  | .openReady true => some s.fresh
  | _ => s.readyName

def State.freshAfter (s : State D C) : Step → ℕ
  | .openLock true | .openReady true => s.fresh + 1
  | _ => s.fresh

def Enabled [DecidableEq D] (s : State D C) : Event D C → Prop
  | .daemon d x => (Stage.next s.fresh (s.stage d) x).isSome ∧
      (x.action d).elim True ((LockFile.machine D).enabled s.file) ∧ s.Allows d x
  | .client c x => s.Answers c x

def State.setMagic (s : State D C) (d : D) (b : Bool) : ℕ → Bool :=
  match s.file.place d with
  | .holding i => Function.update s.magic i b
  | _ => s.magic

def State.magicAfter (s : State D C) (d : D) : Step → ℕ → Bool
  | .memset | .clearMagic => s.setMagic d false
  | .setMagic => s.setMagic d true
  | _ => s.magic

def State.postsAfter (s : State D C) (d : D) : Step → ℕ → List C
  | .takePost =>
    match s.stage d with
    | .running _ r => Function.update s.posts r (s.posts r).tail
    | _ => s.posts
  | .openReady true => Function.update s.posts s.fresh []
  | _ => s.posts

def daemonNext [DecidableEq D] (s : State D C) (d : D) (x : Step) : State D C where
  file := (x.action d).elim s.file ((LockFile.machine D).next s.file)
  magic := s.magicAfter d x
  stage := Function.update s.stage d ((Stage.next s.fresh (s.stage d) x).getD (s.stage d))
  lockName := s.lockAfter x
  readyName := s.readyAfter x
  fresh := s.freshAfter x
  posts := s.postsAfter d x
  client := s.client

def State.called (s : State D C) (c : C) (x : Call) : Client :=
  match x, s.client c with
  | .map, y => (s.file.name.map Client.mapped).getD y
  | .check, .mapped i => if s.magic i then .attached i false .none else .detached
  | .alive, .attached i _ sems => .attached i (!s.magic i) sems
  | .fail, _ => .detached
  | .openLock, .attached i lost .none =>
    .attached i lost ((s.lockName.map Sems.half).getD .none)
  | .openReady, .attached i lost (.half l) =>
    .attached i lost ((s.readyName.map (Sems.both l)).getD (.half l))
  | .openFails, .attached i lost (.half _) => .attached i lost .none
  | .quit, _ => .detached
  | _, y => y

def State.posted (s : State D C) (c : C) : Call → ℕ → List C
  | .post =>
    match s.client c with
    | .attached _ _ (.both _ r) => Function.update s.posts r (s.posts r ++ [c])
    | _ => s.posts
  | _ => s.posts

def clientNext [DecidableEq C] (s : State D C) (c : C) (x : Call) : State D C :=
  { s with
    client := Function.update s.client c (s.called c x)
    posts := s.posted c x }

def machine (D C : Type*) [DecidableEq D] [DecidableEq C] :
    Machine (State D C) (Event D C) where
  enabled := Enabled
  next s
    | .daemon d x => daemonNext s d x
    | .client c x => clientNext s c x

/-- The unlink of a daemon on its way out comes between the `shm_open` and the `flock` of
another. -/
def Overtaken (s : State D C) : Event D C → Prop
  | .daemon d .shmUnlink => LockFile.Overtakes s.file (.unlink d)
  | _ => False

def Stage.Fits : Stage → Place → Prop
  | .start, p | .over, p => p = .away
  | .opened, p => ∃ i, p = .opened i
  | .unlinked, p => ∃ i, p = .unlinked i
  | _, p => ∃ i, p = .holding i

def Stage.Owns : Stage → Prop
  | .start | .opened | .unlinked | .over => False
  | _ => True

def Stage.shows : Stage → Option Bool
  | .start | .opened | .locked | .unlinked | .over => none
  | .cleared | .silenced => some false
  | _ => some true

theorem Stage.Owns.fits {st : Stage} {p : Place} (h : st.Owns) (hf : st.Fits p) :
    ∃ i, p = .holding i := by
  cases st <;> first | exact hf | exact h.elim

def Step.Quiet : Step → Prop
  | .unlinkLock _ | .unlinkReady _ | .openLock _ | .openReady _ => True
  | .takePost | .threadFails | .stop => True
  | _ => False

inductive Moves : Stage → Step → Stage → Prop where
  | shmOpen : Moves .start .shmOpen .opened
  | flock : Moves .opened .flock .locked
  | memset : Moves .locked .memset .cleared
  | setMagic : Moves .cleared .setMagic .published
  | clearMagic : Moves (.destroyed true) .clearMagic .silenced
  | fails : Moves (.destroyed false) .shmUnlink .unlinked
  | ends : Moves .silenced .shmUnlink .unlinked
  | leave (st : Stage) : Moves st .leave .over
  | quiet {st st' : Stage} {x : Step} (hx : x.Quiet) (hst : st.shows = some true)
      (hst' : st'.shows = some true) : Moves st x st'

theorem moves_of_next {fresh : ℕ} {st st' : Stage} {x : Step} (h : st.next fresh x = some st') :
    Moves st x st' := by
  have hsems : ∀ l r, (semsOpened l r).shows = some true := by
    intro l r
    cases l <;> cases r <;> rfl
  unfold Stage.next at h
  split at h
  all_goals cases h
  all_goals first
    | constructor; done
    | exact .quiet trivial rfl rfl
    | exact .quiet trivial rfl (hsems _ _)

theorem holding_of_shows {st : Stage} {b : Bool} (h : st.shows = some b) {p : Place}
    (hf : st.Fits p) : ∃ i, p = .holding i := by
  cases st <;> first | exact hf | cases h

theorem fits_of_holding {st : Stage} (h : st.shows = some true) (i : ℕ) :
    st.Fits (.holding i) := by
  cases st <;> first | exact ⟨i, rfl⟩ | cases h

structure Steady (s : State D C) : Prop where
  orderly : Orderly s.file
  fits : ∀ d, (s.stage d).Fits (s.file.place d)
  shows : ∀ d i b, s.file.place d = .holding i → (s.stage d).shows = some b → s.magic i = b

theorem steady_initial : Steady (initial D C) where
  orderly := orderly_initial
  fits _ := rfl
  shows _ _ _ h := nomatch h

section DaemonSteps

variable {s : State D C} {d : D} {x : Step}

theorem quiet_action (hx : x.Quiet) : x.action d = none := by
  cases x <;> first | rfl | exact hx.elim

theorem quiet_magic (hx : x.Quiet) : s.magicAfter d x = s.magic := by
  cases x <;> first | rfl | exact hx.elim

theorem action_actor {a : Action D} (h : x.action d = some a) : a.actor = d := by
  cases x <;> cases h <;> rfl

theorem set_magic_holding {i : ℕ} (h : s.file.place d = .holding i) (b : Bool) :
    s.setMagic d b = Function.update s.magic i b := by
  simp only [State.setMagic, h]

theorem magic_other (h : Orderly s.file) {e : D} {i : ℕ} (he : s.file.place e = .holding i)
    (hne : e ≠ d) : s.magicAfter d x = s.magic := by
  have hset : ∀ b, s.setMagic d b = s.magic := by
    intro b
    cases hd : s.file.place d with
    | holding j => exact absurd (h.one_holder he hd) hne
    | _ => simp only [State.setMagic, hd]
  cases x with
  | memset | clearMagic | setMagic => exact hset _
  | _ => rfl

variable [DecidableEq D]

theorem place_other {e : D} (hne : e ≠ d) :
    (daemonNext s d x).file.place e = s.file.place e := by
  change ((x.action d).elim s.file _).place e = _
  cases ha : x.action d with
  | none => rfl
  | some a =>
    rw [← action_actor ha] at hne
    exact LockFile.place_of_ne s.file hne

theorem steady_daemon (h : Steady s) (he : Enabled s (.daemon d x))
    (hno : ¬ Overtaken s (.daemon d x)) : Steady (daemonNext s d x) := by
  obtain ⟨hstage, hfile, _⟩ := he
  have hact : ∀ a, x.action d = some a → (LockFile.machine D).enabled s.file a := by
    intro a ha
    rw [ha] at hfile
    exact hfile
  obtain ⟨st', hst'⟩ := Option.isSome_iff_exists.mp hstage
  have hmove := moves_of_next hst'
  have hself : (daemonNext s d x).stage d = st' := by simp [daemonNext, hst']
  have hother : ∀ e, e ≠ d → (daemonNext s d x).stage e = s.stage e :=
    fun e hne => by simp [daemonNext, hne]
  have hfit := h.fits d
  have hshow := h.shows d
  generalize s.stage d = st at hmove hfit hshow
  refine ⟨?_, fun e => ?_, fun e i b hp hb => ?_⟩
  · change Orderly ((x.action d).elim s.file _)
    cases ha : x.action d with
    | none => exact h.orderly
    | some a =>
      refine orderly_next h.orderly (hact a ha) ?_
      cases x <;> cases ha <;> exact hno
  · by_cases hed : e = d
    · subst hed
      rw [hself]
      cases hmove with
      | shmOpen => exact ⟨_, Function.update_self _ _ _⟩
      | flock =>
        obtain ⟨i, hp, _⟩ := hact _ rfl
        exact ⟨i, by simp [daemonNext, Step.action, LockFile.machine, hp, Place.lock]⟩
      | memset | setMagic | clearMagic => exact hfit
      | fails | ends =>
        obtain ⟨i, hp⟩ := hact _ rfl
        exact ⟨i, by simp [daemonNext, Step.action, LockFile.machine, hp, Place.unlink]⟩
      | leave => exact Function.update_self _ _ _
      | quiet hx hst hshows =>
        obtain ⟨i, hp⟩ := holding_of_shows hst hfit
        simp only [daemonNext, quiet_action hx, Option.elim_none, hp]
        exact fits_of_holding hshows i
    · rw [hother e hed, place_other hed]
      exact h.fits e
  · by_cases hed : e = d
    · subst hed
      rw [hself] at hb
      cases hmove with
      | shmOpen | flock | fails | ends | leave => cases hb
      | memset | setMagic | clearMagic =>
        cases hb
        change s.file.place e = .holding i at hp
        simp only [daemonNext, State.magicAfter, set_magic_holding hp, Function.update_self]
      | quiet hx hst hshows =>
        simp only [daemonNext, quiet_action hx, Option.elim_none] at hp
        obtain rfl : true = b := Option.some.inj (hshows.symm.trans hb)
        simp only [daemonNext, quiet_magic hx]
        exact hshow i true hp hst
    · rw [place_other hed] at hp
      rw [hother e hed] at hb
      change s.magicAfter d x i = b
      rw [magic_other h.orderly hp hed]
      exact h.shows e i b hp hb

end DaemonSteps

theorem steady_next [DecidableEq D] [DecidableEq C] {s : State D C} (h : Steady s) {e : Event D C}
    (he : (machine D C).enabled s e) (hno : ¬ Overtaken s e) :
    Steady ((machine D C).next s e) := by
  cases e with
  | daemon d x => exact steady_daemon h he hno
  | client c x => exact ⟨h.orderly, h.fits, h.shows⟩

section Runs

variable [DecidableEq D] [DecidableEq C] {s : State D C} {es : List (Event D C)}

/-- No `shm_unlink` of the run has overtaken a daemon that starts. -/
def Unhurried (s : State D C) (es : List (Event D C)) : Prop :=
  (machine D C).Along (fun s e => ¬ Overtaken s e) s es

theorem steady_run (h : Steady s) (hv : (machine D C).Valid s es) (hu : Unhurried s es) :
    Steady ((machine D C).run s es) :=
  invariant_along (I := Steady) (C := fun s e => ¬ Overtaken s e)
    (fun _ _ h he hno => steady_next h he hno) h hv hu

/-- Of two daemons that both have passed the `flock` and not yet unlinked their segment, one
has opened it in the way of an unlink. -/
theorem one_daemon {D C : Type*} [DecidableEq D] [DecidableEq C] {es : List (Event D C)}
    (hv : (machine D C).Valid (initial D C) es) {d e : D} (hne : d ≠ e)
    (hd : (((machine D C).run (initial D C) es).stage d).Owns)
    (he : (((machine D C).run (initial D C) es).stage e).Owns) :
    ¬ Unhurried (initial D C) es := by
  intro hu
  have h := steady_run steady_initial hv hu
  obtain ⟨i, hi⟩ := hd.fits (h.fits d)
  obtain ⟨j, hj⟩ := he.fits (h.fits e)
  exact hne (h.orderly.one_holder hi hj)

def startup (d : D) : List (Event D C) :=
  [.daemon d .shmOpen, .daemon d .flock, .daemon d .memset, .daemon d .setMagic,
    .daemon d (.unlinkLock true), .daemon d (.unlinkReady true), .daemon d (.openLock true),
    .daemon d (.openReady true)]

def shutdown (d : D) : List (Event D C) :=
  [.daemon d .stop, .daemon d (.unlinkLock true), .daemon d (.unlinkReady true),
    .daemon d .clearMagic, .daemon d .shmUnlink, .daemon d .leave]

/-- The second daemon opens the segment of the first, which is on its way out, and the third
one creates another. -/
def race : List (Event (Fin 3) (Fin 1)) :=
  startup 0 ++ .daemon 1 .shmOpen :: shutdown 0 ++
    [.daemon 1 .flock, .daemon 2 .shmOpen, .daemon 2 .flock]

theorem one_daemon_race : ¬ Unhurried (initial (Fin 3) (Fin 1)) race := by
  have hv : (machine (Fin 3) (Fin 1)).Valid (initial _ _) race :=
    ⟨⟨rfl, rfl, trivial⟩, ⟨rfl, ⟨0, rfl, by decide⟩, trivial⟩, ⟨rfl, trivial, trivial⟩,
      ⟨rfl, trivial, trivial⟩, ⟨rfl, trivial, trivial⟩, ⟨rfl, trivial, trivial⟩,
      ⟨rfl, trivial, fun _ => rfl⟩, ⟨rfl, trivial, fun _ => rfl⟩, ⟨rfl, rfl, trivial⟩,
      ⟨rfl, trivial, trivial⟩, ⟨rfl, trivial, trivial⟩, ⟨rfl, trivial, trivial⟩,
      ⟨rfl, trivial, trivial⟩, ⟨rfl, ⟨0, rfl⟩, trivial⟩, ⟨rfl, trivial, trivial⟩,
      ⟨rfl, ⟨0, rfl, by decide⟩, trivial⟩, ⟨rfl, rfl, trivial⟩,
      ⟨rfl, ⟨1, rfl, by decide⟩, trivial⟩, trivial⟩
  have hne : (1 : Fin 3) ≠ 2 := by decide
  exact one_daemon hv hne trivial trivial

end Runs

/-- A start that has failed unlinks a segment whose magic it has set. -/
def FailsLate (s : State D C) : Event D C → Prop
  | .daemon d .shmUnlink => s.stage d = .destroyed false
  | _ => False

def MagicNamed (s : State D C) : Prop := ∀ i, s.magic i = true → s.file.name = some i

theorem set_magic_false {s : State D C} {d : D} {i : ℕ} (h : s.setMagic d false i = true) :
    s.magic i = true := by
  cases hp : s.file.place d with
  | holding j =>
    rw [set_magic_holding hp] at h
    by_cases hij : i = j
    · simp [hij] at h
    · simpa [hij] using h
  | _ => simpa only [State.setMagic, hp] using h

section Magic

variable [DecidableEq D] [DecidableEq C] {s : State D C}

omit [DecidableEq C] in
theorem magic_named_daemon (h : Steady s) (hn : MagicNamed s) {d : D} {x : Step}
    (he : Enabled s (.daemon d x)) (hfail : ¬ FailsLate s (.daemon d x)) :
    MagicNamed (daemonNext s d x) := by
  obtain ⟨hstage, hfile, _⟩ := he
  obtain ⟨st', hst'⟩ := Option.isSome_iff_exists.mp hstage
  have hmove := moves_of_next hst'
  have hshow := h.shows d
  intro i hi
  change s.magicAfter d x i = true at hi
  generalize hst : s.stage d = st at hmove hshow
  cases hmove with
  | shmOpen =>
    have hname := hn i hi
    simp [daemonNext, Step.action, LockFile.machine, hname]
  | flock | leave => exact hn i hi
  | memset | clearMagic => exact hn i (set_magic_false hi)
  | setMagic =>
    have hfit := h.fits d
    rw [hst] at hfit
    obtain ⟨j, hj⟩ := hfit
    simp only [State.magicAfter, set_magic_holding hj] at hi
    by_cases hij : i = j
    · exact hij ▸ h.orderly.holding d j hj
    · exact hn i (by simpa [hij] using hi)
  | fails => exact absurd hst hfail
  | ends =>
    obtain ⟨j, hj⟩ := hfile
    have hname := hn i hi
    obtain rfl : j = i := Option.some.inj ((h.orderly.holding d j hj).symm.trans hname)
    have hsilent := hshow j false hj rfl
    exact absurd (hi.symm.trans hsilent) (by decide)
  | quiet hx =>
    simp only [quiet_magic hx] at hi
    simp only [daemonNext, quiet_action hx, Option.elim_none]
    exact hn i hi

/-- Neither does an unlink overtake a start, nor has a start failed that late. -/
def Graceful (s : State D C) (es : List (Event D C)) : Prop :=
  (machine D C).Along (fun s e => ¬ Overtaken s e ∧ ¬ FailsLate s e) s es

theorem magic_named_run {es : List (Event D C)} (hs : Steady s) (hn : MagicNamed s)
    (hv : (machine D C).Valid s es) (hg : Graceful s es) :
    Steady ((machine D C).run s es) ∧ MagicNamed ((machine D C).run s es) := by
  refine invariant_along (I := fun s => Steady s ∧ MagicNamed s) ?_ ⟨hs, hn⟩ hv hg
  intro s e h he hgood
  refine ⟨steady_next h.1 he hgood.1, ?_⟩
  cases e with
  | daemon d x => exact magic_named_daemon h.1 h.2 he hgood.2
  | client c x => exact h.2

omit [DecidableEq C] [DecidableEq D] in
theorem called_alive {c : C} {i : ℕ} {lost : Bool} {sems : Sems}
    (h : s.called c .alive = .attached i lost sems) : lost = !s.magic i := by
  cases hc : s.client c with
  | attached j was held =>
    simp only [State.called, hc, Client.attached.injEq] at h
    obtain ⟨rfl, rfl, _⟩ := h
    rfl
  | _ => simp [State.called, hc] at h

/-- A client whose `alive()` says yes has the segment that the name leads to, and so has the
daemon that owns one, whoever has been killed and started since the client attached. -/
theorem alive_attached {D C : Type*} [DecidableEq D] [DecidableEq C] {es : List (Event D C)}
    (hv : (machine D C).Valid (initial D C) es) (hg : Graceful (initial D C) es) {c : C} {i : ℕ}
    {sems : Sems}
    (hlook : ((machine D C).run (initial D C) es).called c .alive = .attached i false sems) :
    ((machine D C).run (initial D C) es).file.name = some i ∧
      ∀ d, (((machine D C).run (initial D C) es).stage d).Owns →
        ((machine D C).run (initial D C) es).file.place d = .holding i := by
  have hnone : MagicNamed (initial D C) := fun i h => nomatch h
  obtain ⟨hs, hn⟩ := magic_named_run steady_initial hnone hv hg
  have hname := hn i (by simpa using (called_alive hlook).symm)
  refine ⟨hname, fun d hd => ?_⟩
  obtain ⟨j, hj⟩ := hd.fits (hs.fits d)
  obtain rfl : i = j := Option.some.inj (hname.symm.trans (hs.orderly.holding d j hj))
  exact hj

/-- A daemon is killed, and the next one takes over its segment with the client still on it. -/
def takeover : List (Event Bool (Fin 1)) :=
  startup false ++ [.client 0 .map, .client 0 .check, .daemon false .leave] ++ startup true

theorem alive_attached_takeover :
    ((machine Bool (Fin 1)).run (initial _ _) takeover).file.place true = .holding 0 := by
  have hv : (machine Bool (Fin 1)).Valid (initial _ _) takeover :=
    ⟨⟨rfl, rfl, trivial⟩, ⟨rfl, ⟨0, rfl, by decide⟩, trivial⟩, ⟨rfl, trivial, trivial⟩,
      ⟨rfl, trivial, trivial⟩, ⟨rfl, trivial, trivial⟩, ⟨rfl, trivial, trivial⟩,
      ⟨rfl, trivial, fun _ => rfl⟩, ⟨rfl, trivial, fun _ => rfl⟩,
      ⟨Or.inl rfl, by decide⟩, ⟨0, rfl⟩, ⟨rfl, trivial, trivial⟩, ⟨rfl, rfl, trivial⟩,
      ⟨rfl, ⟨0, rfl, by decide⟩, trivial⟩, ⟨rfl, trivial, trivial⟩, ⟨rfl, trivial, trivial⟩,
      ⟨rfl, trivial, trivial⟩, ⟨rfl, trivial, trivial⟩, ⟨rfl, trivial, fun _ => rfl⟩,
      ⟨rfl, trivial, fun _ => rfl⟩, trivial⟩
  have hg : Graceful (initial Bool (Fin 1)) takeover := by
    refine along_of_forall fun e he _ => ?_
    simp only [takeover, startup, List.mem_append, List.mem_cons, List.not_mem_nil, or_false] at he
    rcases he with (he | he) | he <;> rcases he with rfl | rfl | rfl | rfl | rfl | rfl | rfl | rfl
      <;> exact ⟨id, id⟩
  have hlook : ((machine Bool (Fin 1)).run (initial _ _) takeover).called 0 .alive =
      .attached 0 false .none := by decide
  exact (alive_attached hv hg hlook).2 true trivial

/-- Out of reach, with this magic. -/
def Frozen (i : ℕ) (b : Bool) (s : State D C) : Prop := Gone i s.file ∧ s.magic i = b

theorem frozen_next {i : ℕ} {b : Bool} (h : Frozen i b s) {e : Event D C}
    (he : (machine D C).enabled s e) : Frozen i b ((machine D C).next s e) := by
  obtain ⟨hgone, hmagic⟩ := h
  cases e with
  | client c x => exact ⟨hgone, hmagic⟩
  | daemon d x =>
    obtain ⟨_, hfile, _⟩ := he
    constructor
    · change Gone i ((x.action d).elim s.file _)
      cases ha : x.action d with
      | none => exact hgone
      | some a =>
        rw [ha] at hfile
        exact gone_next hgone hfile
    · have hset : ∀ b', s.setMagic d b' i = s.magic i := by
        intro b'
        cases hp : s.file.place d with
        | holding j =>
          have hij : i ≠ j := by
            rintro rfl
            exact (hgone.2.2 d).2 hp
          rw [set_magic_holding hp, Function.update_of_ne hij]
        | _ => simp only [State.setMagic, hp]
      change s.magicAfter d x i = b
      cases x with
      | memset | setMagic | clearMagic => exact (hset _).trans hmagic
      | _ => exact hmagic

/-- After its unlink the magic of a segment is as it is for good, and no daemon ever owns the
segment again. The clients on it know that after a clean end; after a start that failed
late they take the daemon for alive, whatever happens. -/
theorem unlinked_frozen {D C : Type*} [DecidableEq D] [DecidableEq C] {pre post : List (Event D C)}
    {d : D} (hv : (machine D C).Valid (initial D C) (pre ++ .daemon d .shmUnlink :: post))
    (hu : Unhurried (initial D C) (pre ++ [.daemon d .shmUnlink])) {i : ℕ}
    (hplace : ((machine D C).run (initial D C) pre).file.place d = .holding i) :
    let failed := decide (((machine D C).run (initial D C) pre).stage d = .destroyed false)
    let s := (machine D C).run (initial D C) (pre ++ .daemon d .shmUnlink :: post)
    (∀ e, s.file.place e ≠ .holding i) ∧
      ∀ c lost sems, s.client c = .attached i lost sems →
        s.called c .alive = .attached i (!failed) sems := by
  intro failed s
  obtain ⟨hpre, hunlink, hpost⟩ := along_append.mp hv
  obtain ⟨hupre, hno, _⟩ := along_append.mp hu
  have hs := steady_run steady_initial hpre hupre
  have hgone := unlink_gone hs.orderly hplace hno
  obtain ⟨st', hst'⟩ := Option.isSome_iff_exists.mp hunlink.1
  have hmove := moves_of_next hst'
  have hshow := hs.shows d i
  have hfailed : failed = decide (((machine D C).run (initial D C) pre).stage d =
    .destroyed false) := rfl
  have hmagic : ((machine D C).run (initial D C) pre).magic i = failed := by
    rw [hfailed]
    generalize ((machine D C).run (initial D C) pre).stage d = st at hmove hshow
    cases hmove with
    | fails => exact hshow true hplace rfl
    | ends => exact hshow false hplace rfl
    | quiet hx => exact hx.elim
  have hfrozen : Frozen i failed s := by
    change Frozen i failed ((machine D C).run (initial D C) _)
    rw [run_append, run_cons]
    exact invariant (I := Frozen i failed) (fun _ _ h he => frozen_next h he) ⟨hgone, hmagic⟩
      hpost
  refine ⟨fun e => (hfrozen.1.2.2 e).2, fun c lost sems hc => ?_⟩
  simp only [State.called, hc, hfrozen.2]

/-- A client attaches in a start that then cannot create its second semaphore. -/
def failedStart : List (Event Bool (Fin 1)) :=
  [.daemon false .shmOpen, .daemon false .flock, .daemon false .memset, .daemon false .setMagic,
    .client 0 .map, .client 0 .check, .daemon false (.unlinkLock true),
    .daemon false (.unlinkReady false), .daemon false (.openLock true),
    .daemon false (.openReady false)]

theorem unlinked_frozen_failed :
    ((machine Bool (Fin 1)).run (initial _ _) (failedStart ++ .daemon false .shmUnlink ::
      .daemon false .leave :: startup true)).called 0 .alive = .attached 0 false .none := by
  have hv : (machine Bool (Fin 1)).Valid (initial _ _) (failedStart ++
      .daemon false .shmUnlink :: .daemon false .leave :: startup true) :=
    ⟨⟨rfl, rfl, trivial⟩, ⟨rfl, ⟨0, rfl, by decide⟩, trivial⟩, ⟨rfl, trivial, trivial⟩,
      ⟨rfl, trivial, trivial⟩, ⟨Or.inl rfl, by decide⟩, ⟨0, rfl⟩, ⟨rfl, trivial, trivial⟩,
      ⟨rfl, trivial, trivial⟩, ⟨rfl, trivial, fun _ => rfl⟩, ⟨rfl, trivial, fun h => nomatch h⟩,
      ⟨rfl, ⟨0, rfl⟩, trivial⟩, ⟨rfl, trivial, trivial⟩, ⟨rfl, rfl, trivial⟩,
      ⟨rfl, ⟨1, rfl, by decide⟩, trivial⟩, ⟨rfl, trivial, trivial⟩, ⟨rfl, trivial, trivial⟩,
      ⟨rfl, trivial, trivial⟩, ⟨rfl, trivial, trivial⟩, ⟨rfl, trivial, fun _ => rfl⟩,
      ⟨rfl, trivial, fun _ => rfl⟩, trivial⟩
  have hu : Unhurried (initial Bool (Fin 1)) (failedStart ++ [.daemon false .shmUnlink]) := by
    refine ⟨id, id, id, id, id, id, id, id, id, id, ?_, trivial⟩
    rintro ⟨q, i, hq⟩
    revert hq
    revert q
    simp [machine, daemonNext, clientNext, Step.action, LockFile.machine, initial,
      LockFile.initial, Bool.forall_bool, Place.lock]
  exact (unlinked_frozen hv hu rfl).2 0 false .none (by decide)

end Magic

section Semaphores

variable [DecidableEq D] [DecidableEq C] {s : State D C} {d : D} {x : Step}

end Semaphores

end System

end Lifecycle
