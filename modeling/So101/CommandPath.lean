import So101.Lib.ForwardSimulation
import So101.CommandRounds

/-!
# The command path

Clients, supervisor and control thread over one mailbox and one set of words, one access
at a time. Every run is a run of the mailbox in which each command is served at one moment.
-/
namespace CommandPath

open GuardedMachine ForwardSimulation AtomicProgram SharedMemory SupervisorThread
open SupervisorInterlock SupervisorFaults ControlThread TorqueLockout CommandRounds
open Mailbox (Client Supervisor Execution)
open MailboxAnswers (LeavesAck AnsweredIn Answers answers_initial answers_step)
open Calibration (CFloat)

/-- Where `supervisor_thread` is in its loop: at the semaphores, past a wait that timed
out, in `serve_command` with the words it started from once it has loaded the faults,
between result and id, or in the checks. -/
inductive Round where
  | outside
  | due
  | serving (before : Option Words)
  | answered
  | rest

/-- The mailbox and its semaphores beside the words and the two threads. The lists and
what `round` says of the words are history. -/
structure State (c : Ctx) (F : Type) [CFloat F] (ι : Type) where
  lock : ℕ
  ready : ℕ
  box : Cmd
  client : ι → Client
  sup : Supervisor
  lockZeroSince : ℤ
  called : List Cmd
  written : List Cmd
  executed : List (Execution ι)
  returned : List (ι × Cmd × ℤ)
  round : Round
  daemon : AtomicProgram.State (lockDaemon c F)
  stored : Stores

inductive Event (F : Type) (ι : Type) where
  | client (e : Mailbox.Event ι)
  | semaphore (e : Mailbox.Event ι)
  | start (now : ℤ) (snapshot : Option (Sample F))
  | finish
  | cycle (inp : Input)
  | access (i : Thread) (o : Access)

section System

variable {c : Ctx} {F : Type} [CFloat F] {ι : Type}

def view (w : Words) : Words := { w with supBeat := 0 }

def State.mailbox (s : State c F ι) : Mailbox.State ι where
  lock := s.lock
  ready := s.ready
  box := s.box
  words := view s.daemon.words
  client := s.client
  sup := s.sup
  lockZeroSince := s.lockZeroSince
  called := s.called
  written := s.written
  executed := s.executed
  returned := s.returned

def State.put (s : State c F ι) (m : Mailbox.State ι) : State c F ι :=
  { s with
    lock := m.lock
    ready := m.ready
    box := m.box
    client := m.client
    sup := m.sup
    lockZeroSince := m.lockZeroSince
    called := m.called
    written := m.written
    executed := m.executed
    returned := m.returned }

def OfClient : Mailbox.Event ι → Prop
  | .call _ _ | .busy _ | .lock _ | .write _ | .postReady _ | .poll _ | .giveUp _
  | .readResult _ | .release _ | .die _ => True
  | _ => False

def AtSemaphores : Mailbox.Event ι → Prop
  | .wake | .copy | .expire _ | .getValue | .forcePost => True
  | _ => False

def State.got (s : State c F ι) : Option Cmd :=
  match s.sup with
  | .copied q => some q
  | _ => none

def State.threads (s : State c F ι) : Event F ι → Option (AtomicProgram.Event (lockDaemon c F))
  | .start now snapshot => some (.start .supervisor ⟨s.got, now, snapshot⟩)
  | .cycle inp => some (.start .control inp)
  | .access i o => some (.access i o)
  | _ => none

def Enabled (s : State c F ι) (e : Event F ι) : Prop :=
  (∀ d, s.threads e = some d → (lockDaemon c F).machine.enabled s.daemon d) ∧
    match e with
    | .client e => OfClient e ∧ Mailbox.Enabled s.mailbox e ∧ Mailbox.FreshId s.mailbox e
    | .semaphore e => AtSemaphores e ∧ s.round = .outside ∧ Mailbox.Enabled s.mailbox e
    | .start _ _ => s.round = .due ∨ s.round = .outside ∧ ∃ q, s.sup = .copied q
    | .finish => s.round = .rest ∧ (s.daemon.prog .supervisor).op? = none
    | .cycle _ | .access _ _ => True

variable [DecidableEq ι]

def State.note (s : State c F ι) (o : Access) : State c F ι :=
  match s.round, s.sup, o with
  | .serving none, _, _ => { s with round := .serving (some (view s.daemon.words)) }
  | .serving (some w), .copied q, .ackResult r =>
    { s with
      sup := .acking q r
      round := .answered
      executed := s.executed ++ [⟨q, w, fun i => (s.client i).holding?⟩] }
  | .answered, _, _ => { s with sup := .waiting, lockZeroSince := -1, round := .rest }
  | _, _, _ => s

def State.book (s : State c F ι) : Event F ι → State c F ι
  | .client e => s.put (Mailbox.next s.mailbox e)
  | .semaphore e =>
    let m := Mailbox.next s.mailbox e
    { s.put m with round := if m.sup = .waiting then .due else .outside }
  | .start _ _ =>
    match s.got with
    | some _ => { s with round := .serving none }
    | none => { s with round := .rest }
  | .finish => { s with round := .outside }
  | .cycle _ => s
  | .access .supervisor o => { s.note o with stored := s.stored ++ storesOf o }
  | .access .control _ => s

def next (s : State c F ι) (e : Event F ι) : State c F ι :=
  { s.book e with
    daemon :=
      match s.threads e with
      | some d => (lockDaemon c F).machine.next s.daemon d
      | none => s.daemon }

def machine (c : Ctx) (F : Type) [CFloat F] (ι : Type) [DecidableEq ι] :
    Machine (State c F ι) (Event F ι) := ⟨Enabled, next⟩

def initial (c : Ctx) (F : Type) [CFloat F] (ι : Type) (l : Locals) (now : ℤ) (m : Mode) :
    State c F ι where
  lock := 1
  ready := 0
  box := ⟨0, 0, 0, 0⟩
  client _ := .idle
  sup := .waiting
  lockZeroSince := -1
  called := []
  written := []
  executed := []
  returned := []
  round := .outside
  daemon := boot c F (controlRound c) l (startControl c now, []) ⟨m, 0, 0, ⟨0, 0⟩⟩
  stored := []

theorem ack_update {o : Access} (ho : LeavesAck o) (w : Words) :
    (wordMemory.update w o).ack = w.ack := by
  cases o with
  | ackResult r => cases ho
  | ackId id => cases ho
  | _ => rfl

theorem leaves_ack_of_refused {o : Access} (ho : RefusedOnly o) : LeavesAck o := by
  cases o with
  | ackResult r => cases ho
  | ackId id => cases ho
  | _ => trivial

theorem others_mailbox {s t : State c F ι} (hput : t.mailbox = { s.mailbox with
      words := view t.daemon.words })
    (hack : t.daemon.words.ack = s.daemon.words.ack) :
    t.mailbox = Mailbox.next s.mailbox
      (.others t.daemon.words.modeReq t.daemon.words.faults) := by
  rw [hput]
  simp only [Mailbox.next, State.mailbox, view, hack]

/-- Where the round is, what the mailbox knows of it and what is left to run. -/
inductive Works : Round → Supervisor → Code Locals → Words → Stores → Prop
  | outside {sup l w log} : Works .outside sup (.ret l) w log
  | due {l w log} : Works .due .waiting (.ret l) w log
  | entered {q k w log}
      (h : ∀ w, Serving q ((serveCommand q).eval wordMemory w).1 log (k w.faults) w) :
      Works (.serving none) (.copied q) (.access .loadFaults k) w log
  | serving {q v p w log} (hack : v.ack = w.ack) (hbeat : v.supBeat = 0)
      (h : Serving q ((serveCommand q).eval wordMemory v).1 log p w) :
      Works (.serving (some v)) (.copied q) p w log
  | answered {q r k w log} (h : ∀ u, (k u).Only LeavesAck) :
      Works .answered (.acking q r) (.access (.ackId q.id) k) w log
  | rest {p w log} (h : p.Only LeavesAck) : Works .rest .waiting p w log

theorem Works.undisturbed {round : Round} {sup : Supervisor} {p : Code Locals} {w w' : Words}
    {log : Stores} (h : Works round sup p w log) (hr : Undisturbed w w') (hack : w'.ack = w.ack) :
    Works round sup p w' log := by
  cases h with
  | outside => exact .outside
  | due => exact .due
  | entered h => exact .entered h
  | serving hv hbeat h => exact .serving (hv.trans hack.symm) hbeat (h.undisturbed hr)
  | answered h => exact .answered h
  | rest h => exact .rest h

structure Sound (s : State c F ι) : Prop where
  works : Works s.round s.sup (s.daemon.prog .supervisor) s.daemon.words s.stored
  control : (s.daemon.prog .control).Only RefusedOnly
  done : ∀ e ∈ s.executed, Done e.cmd e.result s.stored

def Follows (s : State c F ι) (m : Mailbox.State ι) : Prop := m = s.mailbox ∧ Sound s

/-- The lock is only ever forced by the supervisor itself. -/
def Forces (_ : State c F ι) (e : Event F ι) (d : Mailbox.Event ι) : Prop :=
  d = .forcePost → e = .semaphore .forcePost

omit [DecidableEq ι] in
theorem put_mailbox (s : State c F ι) {m : Mailbox.State ι} (hw : m.words = s.mailbox.words) :
    (s.put m).mailbox = m := by
  cases m
  cases hw
  rfl

theorem client_step {s : State c F ι} {e : Mailbox.Event ι} (hc : OfClient e)
    (he : Mailbox.Enabled s.mailbox e) :
    (Mailbox.next s.mailbox e).words = s.mailbox.words ∧
      (Mailbox.next s.mailbox e).sup = s.sup ∧
      (Mailbox.next s.mailbox e).executed = s.executed := by
  have hstep := Mailbox.step_of_enabled he
  generalize Mailbox.next s.mailbox e = m at hstep ⊢
  cases hstep with
  | wake | copy | serve | ackResult | ackId | expire | getValue | forcePost | others =>
    cases hc
  | _ => exact ⟨rfl, rfl, rfl⟩

theorem semaphore_step {s : State c F ι} {e : Mailbox.Event ι} (hs : AtSemaphores e)
    (he : Mailbox.Enabled s.mailbox e) :
    (Mailbox.next s.mailbox e).words = s.mailbox.words ∧
      (Mailbox.next s.mailbox e).executed = s.executed := by
  have hstep := Mailbox.step_of_enabled he
  generalize Mailbox.next s.mailbox e = m at hstep ⊢
  cases hstep with
  | wake | copy | expire | getValue | forcePost => exact ⟨rfl, rfl⟩
  | _ => cases hs

def freshMailbox (ι : Type) [DecidableEq ι] : Machine (Mailbox.State ι) (Mailbox.Event ι) :=
  (Mailbox.machine ι).restrict Mailbox.FreshId

def Matched (s : State c F ι) (e : Event F ι) : Prop :=
  ∃ ds, (freshMailbox ι).Valid s.mailbox ds ∧ (∀ d ∈ ds, Forces s e d) ∧
    (next s e).mailbox = (freshMailbox ι).run s.mailbox ds ∧ Sound (next s e)

theorem Matched.one {s : State c F ι} {e : Event F ι} {d : Mailbox.Event ι}
    (hd : Mailbox.Enabled s.mailbox d) (hid : Mailbox.FreshId s.mailbox d)
    (hforces : Forces s e d) (hnext : (next s e).mailbox = Mailbox.next s.mailbox d)
    (hsound : Sound (next s e)) : Matched s e :=
  ⟨[d], ⟨⟨hd, hid⟩, trivial⟩, by simpa using hforces, hnext, hsound⟩

theorem Matched.none {s : State c F ι} {e : Event F ι}
    (hnext : (next s e).mailbox = s.mailbox) (hsound : Sound (next s e)) : Matched s e :=
  ⟨[], trivial, by simp, hnext, hsound⟩

theorem client_matched {s : State c F ι} {e : Mailbox.Event ι} (h : Sound s) (hc : OfClient e)
    (he : Mailbox.Enabled s.mailbox e) (hid : Mailbox.FreshId s.mailbox e) :
    Matched s (.client e) := by
  obtain ⟨hwords, hsup, hexec⟩ := client_step hc he
  refine .one he hid (fun hd => ?_) (put_mailbox s hwords) ⟨?_, h.control, ?_⟩
  · subst hd
    cases hc
  · change Works s.round (Mailbox.next s.mailbox e).sup _ _ _
    rw [hsup]
    exact h.works
  · change ∀ d ∈ (Mailbox.next s.mailbox e).executed, Done d.cmd d.result s.stored
    rw [hexec]
    exact h.done

theorem semaphore_matched {s : State c F ι} {e : Mailbox.Event ι} (h : Sound s)
    (hs : AtSemaphores e) (hround : s.round = .outside) (he : Mailbox.Enabled s.mailbox e) :
    Matched s (.semaphore e) := by
  obtain ⟨hwords, hexec⟩ := semaphore_step hs he
  have hid : Mailbox.FreshId s.mailbox e := by
    cases e with
    | call i q => cases hs
    | _ => trivial
  refine .one he hid (fun hd => by rw [hd]) (put_mailbox s hwords) ⟨?_, h.control, ?_⟩
  · have hworks := h.works
    rw [hround] at hworks
    change Works (if (Mailbox.next s.mailbox e).sup = .waiting then .due else .outside)
      (Mailbox.next s.mailbox e).sup (s.daemon.prog .supervisor) _ _
    generalize s.daemon.prog .supervisor = p at hworks ⊢
    cases hworks
    split_ifs with hsup
    · rw [hsup]
      exact .due
    · exact .outside
  · change ∀ d ∈ (Mailbox.next s.mailbox e).executed, Done d.cmd d.result s.stored
    rw [hexec]
    exact h.done

theorem finish_matched {s : State c F ι} (h : Sound s)
    (hp : (s.daemon.prog .supervisor).op? = none) : Matched s .finish := by
  refine .none rfl ⟨?_, h.control, h.done⟩
  change Works .outside s.sup (s.daemon.prog .supervisor) _ _
  cases hprog : s.daemon.prog .supervisor with
  | ret l => exact .outside
  | access o k =>
    rw [hprog] at hp
    cases hp

theorem start_works {s : State c F ι} {l : Locals} (now : ℤ) (snapshot : Option (Sample F))
    (hround : s.round = .due ∨ s.round = .outside ∧ ∃ q, s.sup = .copied q)
    (h : Works s.round s.sup (.ret l) s.daemon.words s.stored) :
    Works (s.book (.start now snapshot)).round (s.book (.start now snapshot)).sup
      (supervisorThread c l ⟨s.got, now, snapshot⟩) s.daemon.words s.stored := by
  rcases hround with hdue | ⟨_, q, hq⟩
  · have hsup : s.sup = .waiting := by
      rw [hdue] at h
      cases hw : s.sup with
      | waiting => rfl
      | _ =>
        rw [hw] at h
        cases h
    have hgot : s.got = none := by simp only [State.got, hsup]
    simp only [State.book, hgot, hsup]
    exact .rest (round_leaves_ack c l now snapshot)
  · have hgot : s.got = some q := by simp only [State.got, hq]
    obtain ⟨k, hk, hserving⟩ := round_serving c l q now snapshot s.stored
    simp only [State.book, hgot, hq, hk]
    exact .entered hserving

theorem started (d : AtomicProgram.State (lockDaemon c F)) (i : Thread)
    (inp : (lockDaemon c F).Input i) {a : (lockDaemon c F).Local i} (ha : d.prog i = .ret a) :
    ∃ d', (lockDaemon c F).machine.next d (.start i inp) = d' ∧ d'.words = d.words ∧
      d'.prog i = (lockDaemon c F).body i a inp ∧ ∀ j, j ≠ i → d'.prog j = d.prog j := by
  refine ⟨_, rfl, words_start d i inp, prog_start_self ha, fun j hj => ?_⟩
  rw [next_start ha]
  exact Function.update_of_ne hj _ _

theorem accessed {d : AtomicProgram.State (lockDaemon c F)} {i : Thread} {o : Access}
    {k : o.Res → Code ((lockDaemon c F).Local i)} (hk : d.prog i = .access o k) :
    ∃ d', (lockDaemon c F).machine.next d (.access i o) = d' ∧
      d'.words = wordMemory.update d.words o ∧ d'.prog i = k (wordMemory.value d.words o) ∧
      ∀ j, j ≠ i → d'.prog j = d.prog j := by
  refine ⟨_, rfl, ?_, prog_next_self hk, fun j hj => ?_⟩
  · rw [next_access hk]
    rfl
  · rw [next_access hk]
    exact Function.update_of_ne hj _ _

theorem start_matched {s : State c F ι} {now : ℤ} {snapshot : Option (Sample F)} (h : Sound s)
    (hround : s.round = .due ∨ s.round = .outside ∧ ∃ q, s.sup = .copied q)
    (he : (lockDaemon c F).machine.enabled s.daemon (.start .supervisor ⟨s.got, now, snapshot⟩)) :
    Matched s (.start now snapshot) := by
  obtain ⟨l, hl⟩ := start_enabled he
  have hworks := h.works
  rw [hl] at hworks
  have hstart := start_works now snapshot hround hworks
  obtain ⟨round, hbook⟩ : ∃ round, s.book (.start now snapshot) = { s with round := round } := by
    simp only [State.book]
    split
    · exact ⟨_, rfl⟩
    · exact ⟨_, rfl⟩
  obtain ⟨d, hd, hwords, hprog, hother⟩ := started s.daemon .supervisor
    ⟨s.got, now, snapshot⟩ hl
  have hnext : next s (.start now snapshot) = { s with round := round, daemon := d } := by
    rw [next, hbook, ← hd]
    rfl
  rw [hbook] at hstart
  refine .none ?_ ?_
  · rw [hnext]
    simp only [State.mailbox, hwords]
  · rw [hnext]
    refine ⟨?_, ?_, h.done⟩
    · rw [hwords, hprog]
      exact hstart
    · rw [hother .control (by decide)]
      exact h.control

theorem cycle_matched {s : State c F ι} {inp : Input} (h : Sound s)
    (he : (lockDaemon c F).machine.enabled s.daemon (.start .control inp)) :
    Matched s (.cycle inp) := by
  obtain ⟨a, ha⟩ := start_enabled he
  obtain ⟨d, hd, hwords, hprog, hother⟩ := started s.daemon .control inp ha
  have hnext : next s (.cycle inp) = { s with daemon := d } := by
    rw [← hd]
    rfl
  refine .none ?_ ?_
  · rw [hnext]
    simp only [State.mailbox, hwords]
  · rw [hnext]
    refine ⟨?_, ?_, h.done⟩
    · rw [hwords, hother .supervisor (by decide)]
      exact h.works
    · rw [hprog]
      exact control_round_only c a inp

theorem control_matched {s : State c F ι} {o : Access} (h : Sound s)
    (he : (lockDaemon c F).machine.enabled s.daemon (.access .control o)) :
    Matched s (.access .control o) := by
  obtain ⟨k, hk⟩ := access_enabled he
  have hcontrol := h.control
  rw [hk] at hcontrol
  obtain ⟨ho, hrest⟩ := hcontrol
  have hack := ack_update (leaves_ack_of_refused ho) s.daemon.words
  obtain ⟨d, hd, hwords, hprog, hother⟩ := accessed hk
  have hnext : next s (.access .control o) = { s with daemon := d } := by
    rw [← hd]
    rfl
  refine .one (d := .others d.words.modeReq d.words.faults) trivial trivial
    (fun hf => by cases hf) ?_ ?_
  · rw [hnext]
    exact others_mailbox (t := { s with daemon := d }) rfl (by rw [hwords]; exact hack)
  · rw [hnext]
    refine ⟨?_, ?_, h.done⟩
    · rw [hwords, hother .supervisor (by decide)]
      exact h.works.undisturbed (refused_undisturbed ho s.daemon.words) hack
    · rw [hprog]
      exact hrest _

theorem next_supervisor {s : State c F ι} {o : Access} {d : AtomicProgram.State (lockDaemon c F)}
    (hd : (lockDaemon c F).machine.next s.daemon (.access .supervisor o) = d) :
    next s (.access .supervisor o) =
      { s.note o with stored := s.stored ++ storesOf o, daemon := d } := by
  rw [← hd]
  rfl

omit [DecidableEq ι] in
theorem note_idle {s : State c F ι} {o : Access} (ho : LeavesAck o)
    (hround : s.round = .rest ∨ ∃ v, s.round = .serving (some v)) : s.note o = s := by
  rcases hround with hrest | ⟨v, hserving⟩
  · simp only [State.note, hrest]
  · simp only [State.note, hserving]
    split
    · next h => cases h
    · cases ho
    · next h => cases h
    · rfl

theorem note_matched {s : State c F ι} {o : Access} {d : AtomicProgram.State (lockDaemon c F)}
    (h : Sound s) (hnext : next s (.access .supervisor o) =
      { s with stored := s.stored ++ storesOf o, daemon := d })
    (hack : d.words.ack = s.daemon.words.ack)
    (hworks : Works s.round s.sup (d.prog .supervisor) d.words (s.stored ++ storesOf o))
    (hcontrol : d.prog .control = s.daemon.prog .control) :
    Matched s (.access .supervisor o) := by
  refine .one (d := .others d.words.modeReq d.words.faults) trivial trivial
    (fun hf => by cases hf) ?_ ?_
  · rw [hnext]
    exact others_mailbox (t := { s with stored := s.stored ++ storesOf o, daemon := d }) rfl hack
  · rw [hnext]
    refine ⟨hworks, ?_, fun e he => (h.done e he).append _⟩
    rw [hcontrol]
    exact h.control

theorem load_matched {s : State c F ι} {q : Cmd} {k : U32 → Code Locals} (h : Sound s)
    (hround : s.round = .serving none) (hsup : s.sup = .copied q)
    (hk : s.daemon.prog .supervisor = .access .loadFaults k)
    (hserving : ∀ w, Serving q ((serveCommand q).eval wordMemory w).1 s.stored (k w.faults) w) :
    Matched s (.access .supervisor .loadFaults) := by
  obtain ⟨d, hd, hwords, hprog, hother⟩ := accessed hk
  have hsame : d.words = s.daemon.words := hwords
  have hnext := next_supervisor hd
  simp only [State.note, hround, storesOf, List.append_nil] at hnext
  refine .none ?_ ?_
  · rw [hnext]
    simp only [State.mailbox, hsame]
  · rw [hnext]
    refine ⟨?_, ?_, h.done⟩
    · rw [hsup, hprog, hsame]
      refine .serving rfl rfl ?_
      exact (hserving (view s.daemon.words)).undisturbed ⟨rfl, rfl⟩
    · rw [hother .control (by decide)]
      exact h.control

theorem serve_command_beat (q : Cmd) (w : Words) :
    ((serveCommand q).eval wordMemory w).2.supBeat = w.supBeat := by
  have honly : (serveCommand q).Only (· ≠ .addBeat) :=
    serve_command_only (by simp) (by simp) (by simp) (by simp) (by simp)
  refine honly.eval_frame (f := Words.supBeat) (fun m o ho => ?_) w
  cases o with
  | addBeat => exact absurd rfl ho
  | _ => rfl

/-- The result is stored: the mailbox serves the command from the words it was loaded
from, and goes on with those there are now. -/
theorem result_matched {s : State c F ι} {q : Cmd} {v : Words} {k : Unit → Code Locals}
    {k' : Unit → Code Locals} (h : Sound s)
    (hround : s.round = .serving (some v)) (hsup : s.sup = .copied q)
    (hk : s.daemon.prog .supervisor =
      .access (.ackResult ((serveCommand q).eval wordMemory v).1) k)
    (hack : v.ack = s.daemon.words.ack) (hbeat : v.supBeat = 0)
    (hdone : Done q ((serveCommand q).eval wordMemory v).1 s.stored)
    (hid : k () = .access (.ackId q.id) k') (hrest : ∀ u, (k' u).Only LeavesAck) :
    Matched s (.access .supervisor (.ackResult ((serveCommand q).eval wordMemory v).1)) := by
  obtain ⟨d, hd, hwords, hprog, hother⟩ := accessed hk
  have hnext := next_supervisor hd
  simp only [State.note, hround, hsup, storesOf, List.append_nil] at hnext
  have hserved := MailboxAnswers.serve_command_ack q v
  have hserved' := serve_command_beat q v
  have hv : { view s.daemon.words with modeReq := v.modeReq, faults := v.faults } = v := by
    cases v
    cases hack
    cases hbeat
    rfl
  refine ⟨[.others v.modeReq v.faults, .serve,
    .others s.daemon.words.modeReq s.daemon.words.faults, .ackResult], ?_, ?_, ?_, ?_⟩
  · refine ⟨⟨trivial, trivial⟩, ⟨⟨q, hsup⟩, trivial⟩, ⟨trivial, trivial⟩,
      ⟨⟨q, ((serveCommand q).eval wordMemory v).1, ?_⟩, trivial⟩, trivial⟩
    simp only [freshMailbox, Machine.restrict, Mailbox.machine, Mailbox.next, State.mailbox, hsup,
      hv]
  · intro e he hforce
    subst hforce
    simp at he
  · rw [hnext]
    simp only [freshMailbox, Machine.restrict, Machine.run, Mailbox.machine, Mailbox.next,
      State.mailbox, hsup, hv]
    simp only [hwords, view, hserved, hserved', hack, hbeat]
    rfl
  · rw [hnext]
    refine ⟨?_, ?_, ?_⟩
    · rw [hprog]
      exact hid ▸ .answered hrest
    · rw [hother .control (by decide)]
      exact h.control
    · intro e he
      rcases List.mem_append.mp he with hold | hnew
      · exact h.done e hold
      · obtain rfl := List.mem_singleton.mp hnew
        exact hdone

theorem id_matched {s : State c F ι} {q : Cmd} {r : ℤ} {k : Unit → Code Locals} (h : Sound s)
    (hround : s.round = .answered) (hsup : s.sup = .acking q r)
    (hk : s.daemon.prog .supervisor = .access (.ackId q.id) k)
    (hrest : ∀ u, (k u).Only LeavesAck) :
    Matched s (.access .supervisor (.ackId q.id)) := by
  obtain ⟨d, hd, hwords, hprog, hother⟩ := accessed hk
  have hnext := next_supervisor hd
  simp only [State.note, hround, storesOf, List.append_nil] at hnext
  refine .one (d := .ackId) ⟨q, r, hsup⟩ trivial (fun hf => by cases hf) ?_ ?_
  · rw [hnext]
    simp only [Mailbox.next, State.mailbox, hsup, hwords]
    rfl
  · rw [hnext]
    refine ⟨?_, ?_, h.done⟩
    · rw [hprog]
      exact .rest (hrest _)
    · rw [hother .control (by decide)]
      exact h.control

theorem supervisor_matched {s : State c F ι} {o : Access} (h : Sound s)
    (he : (lockDaemon c F).machine.enabled s.daemon (.access .supervisor o)) :
    Matched s (.access .supervisor o) := by
  obtain ⟨k, hk⟩ := access_enabled he
  have hworks := h.works
  rw [hk] at hworks
  generalize hround : s.round = round at hworks
  generalize hsup : s.sup = sup at hworks
  cases hworks with
  | entered hserving => exact load_matched h hround hsup hk hserving
  | answered hrest => exact id_matched h hround hsup hk hrest
  | @serving q v _ _ _ hack hbeat hserving =>
    cases hserving with
    | result hdone hid hrest =>
      exact result_matched h hround hsup hk hack hbeat hdone hid hrest
    | step ho hstep =>
      obtain ⟨d, hd, hwords, hprog, hother⟩ := accessed hk
      have hnext := next_supervisor hd
      rw [note_idle ho (.inr ⟨v, hround⟩)] at hnext
      have hkept : d.words.ack = s.daemon.words.ack := by rw [hwords, ack_update ho]
      refine note_matched h hnext hkept ?_ (hother .control (by decide))
      rw [hround, hsup, hprog]
      refine .serving (hack.trans hkept.symm) hbeat ?_
      rw [hwords]
      exact hstep _ (undisturbed_refl _)
  | rest honly =>
    obtain ⟨d, hd, hwords, hprog, hother⟩ := accessed hk
    have hnext := next_supervisor hd
    rw [note_idle honly.1 (.inl hround)] at hnext
    have hkept : d.words.ack = s.daemon.words.ack := by rw [hwords, ack_update honly.1]
    refine note_matched h hnext hkept ?_ (hother .control (by decide))
    rw [hround, hsup, hprog]
    exact .rest (honly.2 _)

theorem step_matched {s : State c F ι} {e : Event F ι} (h : Sound s) (he : Enabled s e) :
    Matched s e := by
  cases e with
  | client e => exact client_matched h he.2.1 he.2.2.1 he.2.2.2
  | semaphore e => exact semaphore_matched h he.2.1 he.2.2.1 he.2.2.2
  | start now snapshot => exact start_matched h he.2 (he.1 _ rfl)
  | finish => exact finish_matched h he.2.2
  | cycle inp => exact cycle_matched h (he.1 _ rfl)
  | access i o =>
    cases i with
    | supervisor => exact supervisor_matched h (he.1 _ rfl)
    | control => exact control_matched h (he.1 _ rfl)

theorem mailbox_forward (c : Ctx) (F : Type) [CFloat F] (ι : Type) [DecidableEq ι] :
    Forward (machine c F ι) (freshMailbox ι) Follows Forces where
  step s m e h he := by
    obtain ⟨rfl, hsound⟩ := h
    obtain ⟨ds, hv, hforces, hnext, hsound'⟩ := step_matched hsound he
    exact ⟨ds, hv, hforces, hnext.symm, hsound'⟩

omit [DecidableEq ι] in
theorem sound_initial (l : Locals) (now : ℤ) (m : Mode) : Sound (initial c F ι l now m) :=
  ⟨.outside, trivial, fun e he => by cases he⟩

/-- What every run comes to, as long as the lock is not forced. -/
theorem answered_done (c : Ctx) (F : Type) [CFloat F] (ι : Type) [DecidableEq ι] (l : Locals)
    (now : ℤ) (m : Mode) {es : List (Event F ι)}
    (hv : (machine c F ι).Valid (initial c F ι l now m) es)
    (hforce : ∀ e ∈ es, e ≠ .semaphore .forcePost) (i : ι) (q : Cmd) (r : ℤ)
    (hret : (i, q, r) ∈ ((machine c F ι).run (initial c F ι l now m) es).returned) :
    AnsweredIn ((machine c F ι).run (initial c F ι l now m) es).executed i q r ∧
      Done q r ((machine c F ι).run (initial c F ι l now m) es).stored := by
  have hquiet : (machine c F ι).Along (fun _ e => e ≠ .semaphore .forcePost)
      (initial c F ι l now m) es := along_of_forall (fun e he _ => hforce e he)
  obtain ⟨ds, hds, hno, hend, hsound⟩ := (mailbox_forward c F ι).run
    (D := fun d => d ≠ .forcePost) (fun _ _ _ hne hf heq => hne (hf heq))
    (t := Mailbox.initial ι m) ⟨rfl, sound_initial l now m⟩ hv hquiet
  have hanswers := invariant_along (M := freshMailbox ι) (I := Answers)
    (fun _ _ h he hc => answers_step h he.1 hc he.2) (answers_initial m) hds
    (along_of_forall (fun d hd _ => hno d hd))
  rw [hend] at hanswers
  have hanswered := hanswers.returned i q r hret
  refine ⟨hanswered, ?_⟩
  obtain ⟨e, he, rfl, _, rfl⟩ := hanswered
  exact hsound.done e he

/-- Whatever the three do, access by access: an answer that a client returns is that of
`serve_command` run on its own record while it held CMD_LOCK, and an OK comes after the
store of the mode. -/
theorem answers_hold (c : Ctx) (F : Type) [CFloat F] (ι : Type) [DecidableEq ι] (l : Locals)
    (now : ℤ) (m : Mode) {es : List (Event F ι)}
    (hv : (machine c F ι).Valid (initial c F ι l now m) es)
    (hforce : ∀ e ∈ es, e ≠ .semaphore .forcePost) {s : State c F ι}
    (hs : (machine c F ι).run (initial c F ι l now m) es = s) (i : ι) (q : Cmd) (r : ℤ)
    (hret : (i, q, r) ∈ s.returned) :
    (∃ e ∈ s.executed, e.cmd = q ∧ e.held i = some q ∧ e.result = r) ∧
      (r = resOk → q.cmd = cmdSetMode →
        ∃ m : Mode, q.arg = m.word ∧ (.command q, m) ∈ s.stored) ∧
      (r = resOk → q.cmd = cmdEstop → (.command q, .estop) ∈ s.stored) ∧
      (r = resOk → q.cmd = cmdReset → (.command q, .idle) ∈ s.stored) := by
  subst hs
  obtain ⟨hanswered, hdone⟩ := answered_done c F ι l now m hv hforce i q r hret
  exact ⟨hanswered, hdone.setMode, hdone.estop, hdone.reset⟩

omit [DecidableEq ι] in
theorem client_enabled {s : State c F ι} {e : Mailbox.Event ι} (hc : OfClient e)
    (he : Mailbox.Enabled s.mailbox e) (hid : Mailbox.FreshId s.mailbox e) :
    Enabled s (.client e) :=
  ⟨(fun _ hd => nomatch hd), hc, he, hid⟩

omit [DecidableEq ι] in
theorem semaphore_enabled {s : State c F ι} {e : Mailbox.Event ι} (ha : AtSemaphores e)
    (hround : s.round = .outside) (he : Mailbox.Enabled s.mailbox e) : Enabled s (.semaphore e) :=
  ⟨(fun _ hd => nomatch hd), ha, hround, he⟩

omit [DecidableEq ι] in
theorem access_enabled_of {s : State c F ι} {i : Thread} {o : Access}
    (h : (s.daemon.prog i).op? = some o) : Enabled s (.access i o) :=
  ⟨fun _ hd => Option.some.inj hd ▸ h, trivial⟩

end System

def stopCall : Cmd := ⟨7, cmdEstop, 0, 100⟩

/-- One client stops the arm while the control thread is about to load the mode. -/
def stopped : List (Event ℚ Unit) :=
  [.client (.call () stopCall), .client (.lock ()), .client (.write ()), .client (.write ()),
    .client (.write ()), .client (.write ()), .client (.postReady ()), .semaphore .wake,
    .semaphore .copy, .start 20 none, .access .supervisor .loadFaults,
    .access .supervisor (.orFaults .estop), .cycle quietInput,
    .access .supervisor (.storeMode (.command stopCall) .estop),
    .access .supervisor (.ackResult resOk), .access .supervisor (.ackId 7), .finish,
    .client (.poll ()), .client (.readResult ()), .client (.release ())]

def stopCtx : Ctx := .default Calibration.fullRange Calibration.fullRange

def stopStart : State stopCtx ℚ Unit := initial stopCtx ℚ Unit ⟨0, 0, 0, 0, 0, 0⟩ 0 .idle

theorem stopped_valid : (machine stopCtx ℚ Unit).Valid stopStart stopped := by
  refine ⟨client_enabled trivial rfl ⟨by decide, by simp [stopStart, initial, State.mailbox]⟩,
    client_enabled trivial ⟨⟨_, rfl⟩, by decide⟩ trivial,
    client_enabled trivial ⟨_, _, rfl⟩ trivial,
    client_enabled trivial ⟨_, _, rfl⟩ trivial, client_enabled trivial ⟨_, _, rfl⟩ trivial,
    client_enabled trivial ⟨_, _, rfl⟩ trivial, client_enabled trivial ⟨_, rfl⟩ trivial,
    semaphore_enabled trivial rfl ⟨rfl, by decide⟩, semaphore_enabled trivial rfl rfl,
    ⟨fun _ hd => Option.some.inj hd ▸ rfl, Or.inr ⟨rfl, _, rfl⟩⟩,
    access_enabled_of rfl, access_enabled_of rfl, ⟨fun _ hd => Option.some.inj hd ▸ rfl, trivial⟩,
    access_enabled_of rfl, access_enabled_of rfl, access_enabled_of rfl,
    ⟨(fun _ hd => nomatch hd), rfl, rfl⟩, client_enabled trivial ⟨_, rfl, rfl⟩ trivial,
    client_enabled trivial ⟨_, rfl⟩ trivial,
    client_enabled trivial (Or.inl ⟨_, _, rfl⟩) trivial, trivial⟩

theorem answers_hold_stopped :
    (.command stopCall, .estop) ∈ ((machine stopCtx ℚ Unit).run stopStart stopped).stored := by
  have hforce : ∀ e ∈ stopped, e ≠ .semaphore .forcePost := by simp [stopped]
  exact (answers_hold stopCtx ℚ Unit _ 0 .idle stopped_valid hforce rfl () stopCall resOk
    (List.mem_singleton_self _)).2.2.1 rfl rfl

end CommandPath
