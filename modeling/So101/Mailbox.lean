import So101.Lib.BinarySemaphore
import So101.SupervisorThread

/-!
# The command mailbox

Clients that run `send_cmd`, and the part of `supervisor_thread` that answers them or
recovers a stuck lock, one access at a time. A client may stop waiting, pause or die
anywhere. The record of calls, of the pairs of cmd and arg that were written, of executions
and of answers is history and decides nothing.
-/
namespace Mailbox

open GuardedMachine SharedMemory SupervisorThread

def lockStuckMs : ℤ := 2000

/-- The fields of the mailbox in the order in which they are written. -/
inductive Field where
  | cmd | arg | pid | id
  deriving DecidableEq, Repr

def Field.write (q : Cmd) (box : Cmd) : Field → Cmd
  | .cmd => { box with cmd := q.cmd }
  | .arg => { box with arg := q.arg }
  | .pid => { box with clientPid := q.clientPid }
  | .id => { box with id := q.id }

def Field.next? : Field → Option Field
  | .cmd => some .arg
  | .arg => some .pid
  | .pid => some .id
  | .id => none

inductive Client where
  | idle
  | waiting (q : Cmd)
  | writing (q : Cmd) (f : Field)
  | written (q : Cmd)
  | polling (q : Cmd)
  | matched (q : Cmd)
  | answered (q : Cmd) (r : ℤ)
  | gaveUp (q : Cmd)
  | dead
  deriving DecidableEq, Repr

def Client.call? : Client → Option Cmd
  | .waiting q | .writing q _ | .written q | .polling q | .matched q | .answered q _
  | .gaveUp q => some q
  | .idle | .dead => none

/-- The call for which a client is between its wait on CMD_LOCK and its own release. -/
def Client.holding? : Client → Option Cmd
  | .writing q _ | .written q | .polling q | .matched q | .answered q _ | .gaveUp q => some q
  | .idle | .waiting _ | .dead => none

/-- Where the supervisor is; a `sem_timedwait` that fails leads to the test of the lock. -/
inductive Supervisor where
  | waiting
  | woken
  | copied (q : Cmd)
  | served (q : Cmd) (r : ℤ)
  | acking (q : Cmd) (r : ℤ)
  | expired (now : ℤ)
  | stuck
  deriving DecidableEq, Repr

/-- One run of `serve_command`: the record it was given, the words before it, and the
calls for which clients held the lock. -/
structure Execution (ι : Type*) where
  cmd : Cmd
  before : Words
  held : ι → Option Cmd

def Execution.result {ι : Type*} (e : Execution ι) : ℤ :=
  ((serveCommand e.cmd).eval wordMemory e.before).1

structure State (ι : Type*) where
  lock : ℕ
  ready : ℕ
  box : Cmd
  words : Words
  client : ι → Client
  sup : Supervisor
  lockZeroSince : ℤ
  called : List Cmd
  written : List Cmd
  executed : List (Execution ι)
  returned : List (ι × Cmd × ℤ)

inductive Event (ι : Type*) where
  | call (i : ι) (q : Cmd)
  | busy (i : ι)
  | lock (i : ι)
  | write (i : ι)
  | postReady (i : ι)
  | poll (i : ι)
  | giveUp (i : ι)
  | readResult (i : ι)
  | release (i : ι)
  | die (i : ι)
  | wake
  | copy
  | serve
  | ackResult
  | ackId
  | expire (now : ℤ)
  | getValue
  | forcePost
  | others (m : Mode) (faults : U32)
  deriving DecidableEq

variable {ι : Type*}

def Enabled (s : State ι) : Event ι → Prop
  | .call i _ => s.client i = .idle
  | .busy i => ∃ q, s.client i = .waiting q
  | .lock i => (∃ q, s.client i = .waiting q) ∧ 0 < s.lock
  | .write i => ∃ q f, s.client i = .writing q f
  | .postReady i => ∃ q, s.client i = .written q
  | .poll i => ∃ q, s.client i = .polling q ∧ s.words.ack.id = q.id
  | .giveUp i => ∃ q, s.client i = .polling q
  | .readResult i => ∃ q, s.client i = .matched q
  | .release i => (∃ q r, s.client i = .answered q r) ∨ ∃ q, s.client i = .gaveUp q
  | .die i => s.client i ≠ .dead
  | .wake => s.sup = .waiting ∧ 0 < s.ready
  | .copy => s.sup = .woken
  | .serve => ∃ q, s.sup = .copied q
  | .ackResult => ∃ q r, s.sup = .served q r
  | .ackId => ∃ q r, s.sup = .acking q r
  | .expire _ => s.sup = .waiting
  | .getValue => ∃ now, s.sup = .expired now
  | .forcePost => s.sup = .stuck
  | .others _ _ => True

/-- The ids of calls are distinct and not 0. -/
def FreshId (s : State ι) : Event ι → Prop
  | .call _ q => q.id ≠ 0 ∧ ∀ p ∈ s.called, p.id ≠ q.id
  | _ => True

instance (s : State ι) (e : Event ι) : Decidable (FreshId s e) := by
  cases e with
  | call i q => exact instDecidableAnd
  | _ => exact isTrue trivial

variable [DecidableEq ι]

def State.setClient (s : State ι) (i : ι) (c : Client) : State ι :=
  { s with client := Function.update s.client i c }

def Client.wrote (q : Cmd) (f : Field) : Client :=
  match f.next? with
  | some g => .writing q g
  | none => .written q

def next (s : State ι) : Event ι → State ι
  | .call i q => { s.setClient i (.waiting q) with called := s.called ++ [q] }
  | .busy i => s.setClient i .idle
  | .lock i =>
    match s.client i with
    | .waiting q => { s.setClient i (.writing q .cmd) with lock := s.lock - 1 }
    | _ => s
  | .write i =>
    match s.client i with
    | .writing q f =>
      { s.setClient i (.wrote q f) with
        box := f.write q s.box
        written := if f = .arg then s.written ++ [q] else s.written }
    | _ => s
  | .postReady i =>
    match s.client i with
    | .written q => { s.setClient i (.polling q) with ready := s.ready + 1 }
    | _ => s
  | .poll i =>
    match s.client i with
    | .polling q => s.setClient i (.matched q)
    | _ => s
  | .giveUp i =>
    match s.client i with
    | .polling q => s.setClient i (.gaveUp q)
    | _ => s
  | .readResult i =>
    match s.client i with
    | .matched q => s.setClient i (.answered q s.words.ack.result)
    | _ => s
  | .release i =>
    match s.client i with
    | .answered q r =>
      { s.setClient i .idle with lock := s.lock + 1, returned := s.returned ++ [(i, q, r)] }
    | _ => { s.setClient i .idle with lock := s.lock + 1 }
  | .die i => s.setClient i .dead
  | .wake => { s with sup := .woken, ready := s.ready - 1 }
  | .copy => { s with sup := .copied s.box }
  | .serve =>
    match s.sup with
    | .copied q =>
      { s with
        sup := .served q ((serveCommand q).eval wordMemory s.words).1
        words := ((serveCommand q).eval wordMemory s.words).2
        executed := s.executed ++ [⟨q, s.words, fun i => (s.client i).holding?⟩] }
    | _ => s
  | .ackResult =>
    match s.sup with
    | .served q r => { s with sup := .acking q r, words.ack.result := r }
    | _ => s
  | .ackId =>
    match s.sup with
    | .acking q _ => { s with sup := .waiting, words.ack.id := q.id, lockZeroSince := -1 }
    | _ => s
  | .expire now => { s with sup := .expired now }
  | .getValue =>
    match s.sup with
    | .expired now =>
      if s.lock > 0 then { s with sup := .waiting, lockZeroSince := -1 }
      else if s.lockZeroSince < 0 then { s with sup := .waiting, lockZeroSince := now }
      else if now - s.lockZeroSince > lockStuckMs then { s with sup := .stuck }
      else { s with sup := .waiting }
    | _ => s
  | .forcePost => { s with sup := .waiting, lock := s.lock + 1, lockZeroSince := -1 }
  | .others m faults => { s with words.modeReq := m, words.faults := faults }

def machine (ι : Type*) [DecidableEq ι] : Machine (State ι) (Event ι) := ⟨Enabled, next⟩

def initial (ι : Type*) (m : Mode) : State ι where
  lock := 1
  ready := 0
  box := ⟨0, 0, 0, 0⟩
  words := ⟨m, 0, 0, ⟨0, 0⟩⟩
  client _ := .idle
  sup := .waiting
  lockZeroSince := -1
  called := []
  written := []
  executed := []
  returned := []

inductive Step (s : State ι) : Event ι → State ι → Prop where
  | call (i : ι) (q : Cmd) (hc : s.client i = .idle) :
      Step s (.call i q) { s.setClient i (.waiting q) with called := s.called ++ [q] }
  | busy (i : ι) (q : Cmd) (hc : s.client i = .waiting q) : Step s (.busy i) (s.setClient i .idle)
  | lock (i : ι) (q : Cmd) (hc : s.client i = .waiting q) (hlock : 0 < s.lock) :
      Step s (.lock i) { s.setClient i (.writing q .cmd) with lock := s.lock - 1 }
  | write (i : ι) (q : Cmd) (f : Field) (hc : s.client i = .writing q f) :
      Step s (.write i)
        { s.setClient i (.wrote q f) with
          box := f.write q s.box
          written := if f = .arg then s.written ++ [q] else s.written }
  | postReady (i : ι) (q : Cmd) (hc : s.client i = .written q) :
      Step s (.postReady i) { s.setClient i (.polling q) with ready := s.ready + 1 }
  | poll (i : ι) (q : Cmd) (hc : s.client i = .polling q) (hack : s.words.ack.id = q.id) :
      Step s (.poll i) (s.setClient i (.matched q))
  | giveUp (i : ι) (q : Cmd) (hc : s.client i = .polling q) :
      Step s (.giveUp i) (s.setClient i (.gaveUp q))
  | readResult (i : ι) (q : Cmd) (hc : s.client i = .matched q) :
      Step s (.readResult i) (s.setClient i (.answered q s.words.ack.result))
  | return (i : ι) (q : Cmd) (r : ℤ) (hc : s.client i = .answered q r) :
      Step s (.release i)
        { s.setClient i .idle with lock := s.lock + 1, returned := s.returned ++ [(i, q, r)] }
  | fail (i : ι) (q : Cmd) (hc : s.client i = .gaveUp q) :
      Step s (.release i) { s.setClient i .idle with lock := s.lock + 1 }
  | die (i : ι) (hc : s.client i ≠ .dead) : Step s (.die i) (s.setClient i .dead)
  | wake (hs : s.sup = .waiting) (hready : 0 < s.ready) :
      Step s .wake { s with sup := .woken, ready := s.ready - 1 }
  | copy (hs : s.sup = .woken) : Step s .copy { s with sup := .copied s.box }
  | serve (q : Cmd) (hs : s.sup = .copied q) :
      Step s .serve
        { s with
          sup := .served q ((serveCommand q).eval wordMemory s.words).1
          words := ((serveCommand q).eval wordMemory s.words).2
          executed := s.executed ++ [⟨q, s.words, fun i => (s.client i).holding?⟩] }
  | ackResult (q : Cmd) (r : ℤ) (hs : s.sup = .served q r) :
      Step s .ackResult { s with sup := .acking q r, words.ack.result := r }
  | ackId (q : Cmd) (r : ℤ) (hs : s.sup = .acking q r) :
      Step s .ackId { s with sup := .waiting, words.ack.id := q.id, lockZeroSince := -1 }
  | expire (now : ℤ) (hs : s.sup = .waiting) : Step s (.expire now) { s with sup := .expired now }
  | getValue (now : ℤ) (since : ℤ) (sup : Supervisor) (hs : s.sup = .expired now)
      (hsup : sup = .waiting ∨ sup = .stuck) :
      Step s .getValue { s with sup := sup, lockZeroSince := since }
  | forcePost (hs : s.sup = .stuck) :
      Step s .forcePost { s with sup := .waiting, lock := s.lock + 1, lockZeroSince := -1 }
  | others (m : Mode) (faults : U32) :
      Step s (.others m faults) { s with words.modeReq := m, words.faults := faults }

theorem step_of_enabled {s : State ι} {e : Event ι} (h : Enabled s e) : Step s e (next s e) := by
  cases e with
  | call i q => exact .call i q h
  | busy i =>
    obtain ⟨q, hc⟩ := h
    exact .busy i q hc
  | lock i =>
    obtain ⟨⟨q, hc⟩, hlock⟩ := h
    simpa only [next, hc] using Step.lock i q hc hlock
  | write i =>
    obtain ⟨q, f, hc⟩ := h
    simpa only [next, hc] using Step.write i q f hc
  | postReady i =>
    obtain ⟨q, hc⟩ := h
    simpa only [next, hc] using Step.postReady i q hc
  | poll i =>
    obtain ⟨q, hc, hack⟩ := h
    simpa only [next, hc] using Step.poll i q hc hack
  | giveUp i =>
    obtain ⟨q, hc⟩ := h
    simpa only [next, hc] using Step.giveUp i q hc
  | readResult i =>
    obtain ⟨q, hc⟩ := h
    simpa only [next, hc] using Step.readResult i q hc
  | release i =>
    rcases h with ⟨q, r, hc⟩ | ⟨q, hc⟩
    · simpa only [next, hc] using Step.return i q r hc
    · simpa only [next, hc] using Step.fail i q hc
  | die i => exact .die i h
  | wake => exact .wake h.1 h.2
  | copy => exact .copy h
  | serve =>
    obtain ⟨q, hs⟩ := h
    simpa only [next, hs] using Step.serve q hs
  | ackResult =>
    obtain ⟨q, r, hs⟩ := h
    simpa only [next, hs] using Step.ackResult q r hs
  | ackId =>
    obtain ⟨q, r, hs⟩ := h
    simpa only [next, hs] using Step.ackId q r hs
  | expire now => exact .expire now h
  | getValue =>
    obtain ⟨now, hs⟩ := h
    simp only [next, hs]
    split_ifs
    · exact .getValue now _ _ hs (Or.inl rfl)
    · exact .getValue now _ _ hs (Or.inl rfl)
    · exact .getValue now _ _ hs (Or.inr rfl)
    · exact .getValue now _ _ hs (Or.inl rfl)
  | forcePost => exact .forcePost h
  | others m faults => exact .others m faults

def holders (client : ι → Client) : Set ι := { i | (client i).holding?.isSome }

def toSemaphore (s : State ι) : BinarySemaphore.State ι := ⟨s.lock, holders s.client⟩

def semaphoreAction (s : State ι) : Event ι → Option (BinarySemaphore.Action ι)
  | .lock i => some (.acquire i)
  | .release i => some (.release i)
  | .die i => if (s.client i).holding?.isSome then some (.abandon i) else none
  | .forcePost => some .restore
  | _ => none

section Holders

variable {client : ι → Client} {i : ι} {c : Client}

theorem holders_take (hc : c.holding?.isSome) :
    holders (Function.update client i c) = insert i (holders client) := by
  ext j
  by_cases hj : j = i
  · subst hj
    simpa [holders] using hc
  · simp [holders, hj]

theorem holders_drop (hc : c.holding? = none) :
    holders (Function.update client i c) = holders client \ {i} := by
  ext j
  by_cases hj : j = i
  · subst hj
    simp [holders, hc]
  · simp [holders, hj]

theorem holders_move {b : Client} (hb : client i = b)
    (hc : c.holding?.isSome = b.holding?.isSome) :
    holders (Function.update client i c) = holders client := by
  ext j
  by_cases hj : j = i
  · subst hj
    simp [holders, hb, hc]
  · simp [holders, hj]

end Holders

theorem wrote_holding (q : Cmd) (f : Field) : (Client.wrote q f).holding? = some q := by
  cases f <;> rfl

omit [DecidableEq ι] in
theorem mem_holders {client : ι → Client} {i : ι} {q : Cmd} (h : (client i).holding? = some q) :
    i ∈ holders client := by simp [holders, h]

theorem semaphore_step {s : State ι} {e : Event ι} {a : BinarySemaphore.Action ι}
    (he : Enabled s e) (hl : semaphoreAction s e = some a) :
    (BinarySemaphore.machine ι).enabled (toSemaphore s) a ∧
      toSemaphore (next s e) = (BinarySemaphore.machine ι).next (toSemaphore s) a := by
  have hstep := step_of_enabled he
  generalize next s e = s' at hstep ⊢
  cases hstep with
  | lock i q hc hlock =>
    obtain rfl := Option.some.inj hl
    have hfree : i ∉ holders s.client := by simp [holders, hc, Client.holding?]
    refine ⟨⟨hlock, hfree⟩, ?_⟩
    simp only [toSemaphore, State.setClient, BinarySemaphore.machine,
      holders_take (c := .writing q .cmd) rfl]
  | «return» i q r hc =>
    obtain rfl := Option.some.inj hl
    refine ⟨mem_holders (q := q) (by rw [hc]; rfl), ?_⟩
    simp only [toSemaphore, State.setClient, BinarySemaphore.machine,
      holders_drop (c := .idle) rfl]
  | fail i q hc =>
    obtain rfl := Option.some.inj hl
    refine ⟨mem_holders (q := q) (by rw [hc]; rfl), ?_⟩
    simp only [toSemaphore, State.setClient, BinarySemaphore.machine,
      holders_drop (c := .idle) rfl]
  | die i hc =>
    simp only [semaphoreAction] at hl
    split at hl
    · next hheld =>
      obtain rfl := Option.some.inj hl
      refine ⟨hheld, ?_⟩
      simp only [toSemaphore, State.setClient, BinarySemaphore.machine,
        holders_drop (c := .dead) rfl]
    · cases hl
  | forcePost hs =>
    obtain rfl := Option.some.inj hl
    exact ⟨trivial, rfl⟩
  | _ => cases hl

theorem semaphore_stutter {s : State ι} {e : Event ι} (he : Enabled s e)
    (hl : semaphoreAction s e = none) : toSemaphore (next s e) = toSemaphore s := by
  have hstep := step_of_enabled he
  generalize next s e = s' at hstep ⊢
  cases hstep with
  | call i q hc =>
    simp only [toSemaphore, State.setClient, holders_move hc (c := .waiting q) rfl]
  | busy i q hc => simp only [toSemaphore, State.setClient, holders_move hc (c := .idle) rfl]
  | write i q f hc =>
    have hkeep : (Client.wrote q f).holding?.isSome = (Client.writing q f).holding?.isSome := by
      rw [wrote_holding]
      rfl
    simp only [toSemaphore, State.setClient, holders_move hc hkeep]
  | postReady i q hc =>
    simp only [toSemaphore, State.setClient, holders_move hc (c := .polling q) rfl]
  | poll i q hc _ =>
    simp only [toSemaphore, State.setClient, holders_move hc (c := .matched q) rfl]
  | giveUp i q hc => simp only [toSemaphore, State.setClient, holders_move hc (c := .gaveUp q) rfl]
  | readResult i q hc =>
    simp only [toSemaphore, State.setClient,
      holders_move hc (c := .answered q s.words.ack.result) rfl]
  | die i hc =>
    simp only [semaphoreAction] at hl
    split at hl
    · cases hl
    · next hfree =>
      have hnone : Client.dead.holding?.isSome = (s.client i).holding?.isSome := by
        simpa [Client.holding?] using hfree
      simp only [toSemaphore, State.setClient, holders_move rfl hnone]
  | lock i q hc _ => cases hl
  | «return» i q r hc => cases hl
  | fail i q hc => cases hl
  | forcePost hs => cases hl
  | _ => rfl

def semaphore (ι : Type*) [DecidableEq ι] :
    Simulation (machine ι) (BinarySemaphore.machine ι) (fun _ => True) where
  abs := toSemaphore
  label := semaphoreAction
  step _ _ _ _ he hl := semaphore_step he hl
  stutter _ _ _ he hl := semaphore_stutter he hl

def Exclusive (s : State ι) : Prop := BinarySemaphore.Exclusive (toSemaphore s)

omit [DecidableEq ι] in
theorem exclusive_initial (m : Mode) : Exclusive (initial ι m) := by
  refine ⟨le_rfl, fun i hi => ?_, fun i hi => ?_⟩ <;>
    simp [toSemaphore, initial, holders, Client.holding?] at hi

def HolderIsGone (s : State ι) : Event ι → Prop
  | .forcePost => s.lock = 0 ∧ ∀ i, (s.client i).holding? = none
  | _ => True

theorem exclusive_step {s : State ι} {e : Event ι} (h : Exclusive s) (he : Enabled s e)
    (hgone : HolderIsGone s e) : Exclusive (next s e) := by
  refine (semaphore ι).keeps (D := BinarySemaphore.Sound)
    (fun _ _ ht ha hd => BinarySemaphore.exclusive_next ht ha hd) trivial he ?_ h
  intro d hl
  cases d with
  | restore =>
    cases e with
    | forcePost =>
      refine ⟨hgone.1, Set.eq_empty_of_forall_notMem (fun i hi => ?_)⟩
      simp [semaphore, toSemaphore, holders, hgone.2 i] at hi
    | die i =>
      simp only [semaphore, semaphoreAction] at hl
      split at hl <;> cases hl
    | _ => cases hl
  | _ => trivial

structure MutualExclusion (s : State ι) : Prop where
  lock_le : s.lock ≤ 1
  one_holder : ∀ i j, (s.client i).holding?.isSome → (s.client j).holding?.isSome → i = j

/-- Whatever clients and supervisor do, CMD_LOCK stays a lock in every run whose forced
releases find the holder gone. -/
theorem mutual_exclusion (m : Mode) {es : List (Event ι)}
    (hv : (machine ι).Valid (initial ι m) es)
    (hgone : (machine ι).Along HolderIsGone (initial ι m) es) :
    MutualExclusion ((machine ι).run (initial ι m) es) := by
  have hstep : ∀ s e, Exclusive s → (machine ι).enabled s e → HolderIsGone s e →
      Exclusive ((machine ι).next s e) := fun _ _ h he hg => exclusive_step h he hg
  have hexcl := invariant_along (I := Exclusive) hstep (exclusive_initial m) hv hgone
  exact ⟨hexcl.count_le, fun i j hi hj => hexcl.unique hi hj⟩

def holdCall : Cmd := ⟨17, cmdSetMode, Mode.hold.word, 100⟩
def estopCall : Cmd := ⟨23, cmdEstop, 0, 200⟩

def stuckLock : List (Event Bool) :=
  [.call true holdCall, .lock true, .expire 20, .getValue, .expire 2100, .getValue]

/-- The holder has died: the lock is released once and taken by the next client. -/
theorem mutual_exclusion_died :
    MutualExclusion ((machine Bool).run (initial Bool .idle)
      (.call true holdCall :: .lock true :: .die true :: .expire 20 :: .getValue ::
        .expire 2100 :: .getValue :: .forcePost :: .call false estopCall :: [.lock false])) := by
  refine mutual_exclusion .idle ?_ ?_
  · refine ⟨rfl, ⟨⟨_, rfl⟩, by decide⟩, ?_, rfl, ⟨_, rfl⟩, rfl, ⟨_, rfl⟩, rfl, rfl,
      ⟨⟨_, rfl⟩, by decide⟩, trivial⟩
    intro h
    cases h
  · exact ⟨trivial, trivial, trivial, trivial, trivial, trivial, trivial, ⟨rfl, by decide⟩, trivial,
      trivial, trivial⟩

/-- The holder was only slow: the released lock has two live holders. -/
theorem mutual_exclusion_slow :
    ¬ ∀ es : List (Event Bool), (machine Bool).Valid (initial Bool .idle) es →
      MutualExclusion ((machine Bool).run (initial Bool .idle) es) := by
  intro hall
  have hv : (machine Bool).Valid (initial Bool .idle)
      (stuckLock ++ [.forcePost, .call false estopCall, .lock false]) :=
    ⟨rfl, ⟨⟨_, rfl⟩, by decide⟩, rfl, ⟨_, rfl⟩, rfl, ⟨_, rfl⟩, rfl, rfl, ⟨⟨_, rfl⟩, by decide⟩,
      trivial⟩
  exact absurd ((hall _ hv).one_holder true false rfl rfl) (by decide)

end Mailbox
