import Mathlib.Logic.Function.Basic
import So101.Mailbox

/-!
# Whose answer a client returns

Without a forced release the lock keeps the mailbox the holder's from the moment its id
is in it, and before that moment its id is nowhere. So whatever carries that id was
copied from the whole record, and its result comes from an execution under the lock.
-/
namespace MailboxAnswers

open GuardedMachine AtomicProgram SharedMemory SupervisorThread Mailbox

variable {ι : Type*}

def Before : Client → Cmd → Prop
  | .waiting q, p | .writing q _, p => q = p
  | _, _ => False

def Placed : Client → Cmd → Prop
  | .written q, p | .polling q, p | .matched q, p | .answered q _, p | .gaveUp q, p => q = p
  | _, _ => False

def Wrote (box : Cmd) : Client → Prop
  | .writing q .arg => box.cmd = q.cmd
  | .writing q .pid => box.cmd = q.cmd ∧ box.arg = q.arg
  | .writing q .id => box.cmd = q.cmd ∧ box.arg = q.arg ∧ box.clientPid = q.clientPid
  | _ => True

/-- The record the supervisor works on, and the result once there is one. -/
def record? : Supervisor → Option Cmd
  | .copied q | .served q _ | .acking q _ => some q
  | _ => none

def answer? : Supervisor → Option (Cmd × ℤ)
  | .served q r | .acking q r => some (q, r)
  | _ => none

/-- `r` is the result of running the call of client `i` while it held the lock for it. -/
def AnsweredIn (log : List (Execution ι)) (i : ι) (q : Cmd) (r : ℤ) : Prop :=
  ∃ e ∈ log, e.cmd = q ∧ e.held i = some q ∧ e.result = r

theorem AnsweredIn.append {log : List (Execution ι)} {i : ι} {q : Cmd} {r : ℤ}
    (h : AnsweredIn log i q r) (e : Execution ι) : AnsweredIn (log ++ [e]) i q r := by
  obtain ⟨d, hd, hcmd, hheld, hres⟩ := h
  exact ⟨d, List.mem_append_left [e] hd, hcmd, hheld, hres⟩

theorem record_of_answer {sup : Supervisor} {q : Cmd} {r : ℤ} (h : answer? sup = some (q, r)) :
    record? sup = some q := by
  cases sup with
  | served p r' =>
    cases h
    rfl
  | acking p r' =>
    cases h
    rfl
  | _ => cases h

theorem no_record {sup : Supervisor} (h : record? sup = none) {P : Cmd → Prop} (q : Cmd)
    (hq : record? sup = some q) : P q := by
  rw [h] at hq
  cases hq

theorem call_of_holding {c : Client} {q : Cmd} (h : c.holding? = some q) : c.call? = some q := by
  cases c with
  | idle | waiting p | dead => cases h
  | _ => exact h

theorem holding_of_placed {c : Client} {q : Cmd} (h : Placed c q) : c.holding? = some q := by
  cases c with
  | idle | waiting p | writing p f | dead => cases h
  | _ =>
    cases h
    rfl

theorem call_of_before {c : Client} {q : Cmd} (h : Before c q) : c.call? = some q := by
  cases c with
  | waiting p =>
    cases h
    rfl
  | writing p f =>
    cases h
    rfl
  | _ => cases h

theorem not_before_of_placed {c : Client} {q p : Cmd} (h : Placed c q) : ¬ Before c p := by
  cases c with
  | waiting r => exact absurd h id
  | writing r f => exact absurd h id
  | _ => exact id

theorem wrote_of_placed {c : Client} {q : Cmd} (h : Placed c q) (box : Cmd) : Wrote box c := by
  cases c with
  | writing r f => exact h.elim
  | _ => trivial

theorem wrote_of_free {c : Client} (h : c.holding? = none) (box : Cmd) : Wrote box c := by
  cases c with
  | writing q f => cases h
  | _ => trivial

theorem write_id (f : Field) (q box : Cmd) :
    (f.write q box).id = box.id ∨ (f.write q box).id = q.id := by
  cases f with
  | id => exact Or.inr rfl
  | _ => exact Or.inl rfl

def Known (called : List Cmd) (id : U32) : Prop := id = 0 ∨ ∃ p ∈ called, p.id = id

theorem Known.append {called : List Cmd} {id : U32} (h : Known called id) (q : Cmd) :
    Known (called ++ [q]) id := by
  rcases h with rfl | ⟨p, hp, rfl⟩
  · exact Or.inl rfl
  · exact Or.inr ⟨p, List.mem_append_left [q] hp, rfl⟩

theorem Known.ne {called : List Cmd} {id : U32} (h : Known called id) {q : Cmd} (hid : q.id ≠ 0)
    (hfresh : ∀ p ∈ called, p.id ≠ q.id) : id ≠ q.id := by
  rcases h with rfl | ⟨p, hp, rfl⟩
  · exact hid.symm
  · exact hfresh p hp

structure Calls (client : ι → Client) (called : List Cmd) : Prop where
  recorded : ∀ i q, (client i).call? = some q → q ∈ called
  distinct : ∀ i j p q, (client i).call? = some p → (client j).call? = some q → p.id = q.id → i = j

section Calls

variable [DecidableEq ι] {client : ι → Client} {called : List Cmd} {i : ι} {c : Client}

theorem call_of_update {j : ι} {q : Cmd} (hc : c.call? = (client i).call? ∨ c.call? = none)
    (hj : (Function.update client i c j).call? = some q) : (client j).call? = some q := by
  by_cases hij : j = i
  · subst hij
    rw [Function.update_self] at hj
    rcases hc with hsame | hnone
    · rwa [← hsame]
    · rw [hnone] at hj
      cases hj
  · rwa [Function.update_of_ne hij] at hj

theorem Calls.update (h : Calls client called)
    (hc : c.call? = (client i).call? ∨ c.call? = none) :
    Calls (Function.update client i c) called where
  recorded j q hj := h.recorded j q (call_of_update hc hj)
  distinct j k p q hj hk := h.distinct j k p q (call_of_update hc hj) (call_of_update hc hk)

theorem Calls.call {q : Cmd} (h : Calls client called) (hfresh : ∀ p ∈ called, p.id ≠ q.id) :
    Calls (Function.update client i (.waiting q)) (called ++ [q]) := by
  have hold : ∀ j p, (Function.update client i (.waiting q) j).call? = some p →
      (j = i ∧ p = q) ∨ (client j).call? = some p := by
    intro j p hj
    by_cases hij : j = i
    · subst hij
      rw [Function.update_self] at hj
      cases hj
      exact Or.inl ⟨rfl, rfl⟩
    · rw [Function.update_of_ne hij] at hj
      exact Or.inr hj
  constructor
  · intro j p hj
    rcases hold j p hj with ⟨-, rfl⟩ | hp
    · simp
    · exact List.mem_append_left [q] (h.recorded j p hp)
  · intro j k p p' hj hk hid
    rcases hold j p hj with ⟨rfl, rfl⟩ | hp <;> rcases hold k p' hk with ⟨rfl, rfl⟩ | hp'
    · rfl
    · exact absurd hid.symm (hfresh p' (h.recorded k p' hp'))
    · exact absurd hid (hfresh p (h.recorded j p hp))
    · exact h.distinct j k p p' hp hp' hid

end Calls

structure Ids (s : State ι) : Prop where
  calls : Calls s.client s.called
  box : Known s.called s.box.id
  ack : Known s.called s.words.ack.id
  record : ∀ q, record? s.sup = some q → Known s.called q.id

def LeavesAck : Access → Prop
  | .ackResult _ | .ackId _ => False
  | _ => True

theorem serve_command_leaves_ack (q : Cmd) : (serveCommand q).Only LeavesAck :=
  serve_command_only trivial trivial (fun _ => trivial) trivial trivial

theorem serve_command_ack (q : Cmd) (w : Words) :
    ((serveCommand q).eval wordMemory w).2.ack = w.ack := by
  refine (serve_command_leaves_ack q).eval_frame (f := Words.ack) (fun m o ho => ?_) w
  cases o with
  | ackResult r => cases ho
  | ackId id => cases ho
  | _ => rfl

theorem ids_step [DecidableEq ι] {s s' : State ι} {e : Event ι} (h : Ids s) (hstep : Step s e s')
    (hfresh : FreshId s e) : Ids s' := by
  cases hstep with
  | call i q hc =>
    exact ⟨h.calls.call hfresh.2, h.box.append q, h.ack.append q,
      fun p hp => (h.record p hp).append q⟩
  | busy i q hc => exact { h with calls := h.calls.update (Or.inr rfl) }
  | lock i q hc _ => exact { h with calls := h.calls.update (Or.inl (by rw [hc]; rfl)) }
  | write i q f hc =>
    have hcall : (s.client i).call? = some q := by rw [hc]; rfl
    refine { h with calls := h.calls.update (Or.inl ?_), box := ?_ }
    · rw [hcall, call_of_holding (wrote_holding q f)]
    · rcases write_id f q s.box with hbox | hbox
      · exact hbox.symm ▸ h.box
      · exact Or.inr ⟨q, h.calls.recorded i q hcall, hbox.symm⟩
  | postReady i q hc => exact { h with calls := h.calls.update (Or.inl (by rw [hc]; rfl)) }
  | poll i q hc _ => exact { h with calls := h.calls.update (Or.inl (by rw [hc]; rfl)) }
  | giveUp i q hc => exact { h with calls := h.calls.update (Or.inl (by rw [hc]; rfl)) }
  | readResult i q hc => exact { h with calls := h.calls.update (Or.inl (by rw [hc]; rfl)) }
  | «return» i q r hc => exact { h with calls := h.calls.update (Or.inr rfl) }
  | fail i q hc => exact { h with calls := h.calls.update (Or.inr rfl) }
  | die i hc => exact { h with calls := h.calls.update (Or.inr rfl) }
  | wake hs _ => exact { h with record := no_record rfl }
  | copy hs =>
    refine { h with record := ?_ }
    intro q heq
    cases heq
    exact h.box
  | serve q hs =>
    refine ⟨h.calls, h.box, ?_, ?_⟩
    · rw [serve_command_ack]
      exact h.ack
    · intro p heq
      cases heq
      exact h.record q (by rw [hs]; rfl)
  | ackResult q r hs =>
    refine ⟨h.calls, h.box, h.ack, ?_⟩
    intro p heq
    cases heq
    exact h.record q (by rw [hs]; rfl)
  | ackId q r hs => exact ⟨h.calls, h.box, h.record q (by rw [hs]; rfl), no_record rfl⟩
  | expire now hs => exact { h with record := no_record rfl }
  | getValue now since sup hs hsup =>
    rcases hsup with rfl | rfl <;> exact { h with record := no_record rfl }
  | forcePost hs => exact { h with record := no_record rfl }
  | others m faults => exact ⟨h.calls, h.box, h.ack, h.record⟩

structure ClientOk (box : Cmd) (ack : Ack) (sup : Supervisor) (log : List (Execution ι)) (i : ι)
    (c : Client) : Prop where
  fresh : ∀ q, Before c q → box.id ≠ q.id ∧ ack.id ≠ q.id ∧ ∀ p, record? sup = some p → p.id ≠ q.id
  wrote : Wrote box c
  placed : ∀ q, Placed c q → box = q ∧ ∀ p, record? sup = some p → p.id = q.id → p = q
  acked : ∀ q, Placed c q → ack.id = q.id →
    (∀ p, record? sup = some p → p = q) ∧ AnsweredIn log i q ack.result
  served : ∀ q r, Placed c q → answer? sup = some (q, r) → AnsweredIn log i q r
  matched : ∀ q, c = .matched q → ack.id = q.id
  answered : ∀ q r, c = .answered q r → AnsweredIn log i q r

section ClientOk

variable {box : Cmd} {ack : Ack} {sup : Supervisor} {log : List (Execution ι)} {i : ι} {c : Client}

theorem ClientOk.of_free (hfree : c.holding? = none)
    (hfresh : ∀ q, Before c q →
      box.id ≠ q.id ∧ ack.id ≠ q.id ∧ ∀ p, record? sup = some p → p.id ≠ q.id) :
    ClientOk box ack sup log i c := by
  have hplaced : ∀ q, ¬ Placed c q := by
    intro q hq
    have := holding_of_placed hq
    rw [hfree] at this
    cases this
  refine ⟨hfresh, wrote_of_free hfree box, fun q hq => absurd hq (hplaced q),
    fun q hq => absurd hq (hplaced q), fun q r hq => absurd hq (hplaced q), ?_, ?_⟩
  · rintro q rfl
    cases hfree
  · rintro q r rfl
    cases hfree

theorem ClientOk.of_out (hout : c.call? = none) : ClientOk box ack sup log i c := by
  have hfree : c.holding? = none := by
    cases hc : c.holding? with
    | none => rfl
    | some q =>
      rw [call_of_holding hc] at hout
      cases hout
  refine ClientOk.of_free hfree (fun q hq => ?_)
  rw [call_of_before hq] at hout
  cases hout

theorem ClientOk.of_writing {q : Cmd} {f : Field}
    (hfresh : box.id ≠ q.id ∧ ack.id ≠ q.id ∧ ∀ p, record? sup = some p → p.id ≠ q.id)
    (hwrote : Wrote box (.writing q f)) : ClientOk box ack sup log i (.writing q f) := by
  refine ⟨?_, hwrote, ?_, ?_, ?_, ?_, ?_⟩
  · rintro _ rfl
    exact hfresh
  · intro p heq
    cases heq
  · intro p heq
    cases heq
  · intro p r heq
    cases heq
  · intro p heq
    cases heq
  · intro p r heq
    cases heq

theorem ClientOk.move {c' : Client} {q : Cmd} (h : ClientOk box ack sup log i c) (hc : Placed c q)
    (hc' : Placed c' q) (hmatched : ∀ p, c' = .matched p → ack.id = p.id)
    (hanswered : ∀ p r, c' = .answered p r → AnsweredIn log i p r) :
    ClientOk box ack sup log i c' := by
  have hsame : ∀ p, Placed c' p → Placed c p := by
    intro p hp
    obtain rfl := Option.some.inj ((holding_of_placed hp).symm.trans (holding_of_placed hc'))
    exact hc
  exact ⟨fun p hp => absurd hp (not_before_of_placed hc'), wrote_of_placed hc' box,
    fun p hp => h.placed p (hsame p hp), fun p hp => h.acked p (hsame p hp),
    fun p r hp => h.served p r (hsame p hp), hmatched, hanswered⟩

theorem ClientOk.moveOn {c' : Client} {q : Cmd} (h : ClientOk box ack sup log i c)
    (hc : Placed c q) (hc' : c' = .polling q ∨ c' = .gaveUp q) :
    ClientOk box ack sup log i c' := by
  rcases hc' with rfl | rfl
  · refine h.move hc rfl ?_ ?_
    · intro p heq
      cases heq
    · intro p r heq
      cases heq
  · refine h.move hc rfl ?_ ?_
    · intro p heq
      cases heq
    · intro p r heq
      cases heq

theorem ClientOk.same_work {sup' : Supervisor} (h : ClientOk box ack sup log i c)
    (hrecord : record? sup' = record? sup) (hanswer : answer? sup' = answer? sup) :
    ClientOk box ack sup' log i c := by
  refine ⟨?_, h.wrote, ?_, ?_, ?_, h.matched, h.answered⟩
  · rw [hrecord]
    exact h.fresh
  · rw [hrecord]
    exact h.placed
  · rw [hrecord]
    exact h.acked
  · rw [hanswer]
    exact h.served

theorem ClientOk.others_write {f : Field} {p : Cmd} (h : ClientOk box ack sup log i c)
    (hfree : c.holding? = none) (hne : ∀ q, Before c q → p.id ≠ q.id) :
    ClientOk (f.write p box) ack sup log i c := by
  refine ClientOk.of_free hfree (fun q hq => ⟨?_, (h.fresh q hq).2⟩)
  rcases write_id f p box with hid | hid
  · rw [hid]
    exact (h.fresh q hq).1
  · rw [hid]
    exact hne q hq

/-- The client writes a field itself. With the id the record is complete, and nothing
can carry that id yet. -/
theorem ClientOk.write {q : Cmd} {f : Field} (h : ClientOk box ack sup log i (.writing q f)) :
    ClientOk (f.write q box) ack sup log i (.wrote q f) := by
  have hfresh := h.fresh q rfl
  have hwrote := h.wrote
  cases f with
  | cmd => exact .of_writing hfresh rfl
  | arg => exact .of_writing hfresh ⟨hwrote, rfl⟩
  | pid => exact .of_writing hfresh ⟨hwrote.1, hwrote.2, rfl⟩
  | id =>
    obtain ⟨hcmd, harg, hpid⟩ := hwrote
    have hbox : Field.id.write q box = q := by simp only [Field.write, hcmd, harg, hpid]
    obtain ⟨-, hack, hrecord⟩ := hfresh
    refine ⟨?_, trivial, ?_, ?_, ?_, ?_, ?_⟩
    · intro p heq
      cases heq
    · rintro _ rfl
      exact ⟨hbox, fun p hp hid => absurd hid (hrecord p hp)⟩
    · rintro _ rfl hid
      exact absurd hid hack
    · rintro _ r rfl hr
      exact absurd rfl (hrecord q (record_of_answer hr))
    · intro p heq
      cases heq
    · intro p r heq
      cases heq

theorem ClientOk.copy (h : ClientOk box ack sup log i c) :
    ClientOk box ack (.copied box) log i c := by
  refine ⟨?_, h.wrote, ?_, ?_, ?_, h.matched, h.answered⟩
  · intro q hq
    obtain ⟨hbox, hack, -⟩ := h.fresh q hq
    refine ⟨hbox, hack, ?_⟩
    intro p heq
    cases heq
    exact hbox
  · intro q hq
    have hbox := (h.placed q hq).1
    refine ⟨hbox, ?_⟩
    intro p heq _
    cases heq
    exact hbox
  · intro q hq hack
    refine ⟨?_, (h.acked q hq hack).2⟩
    intro p heq
    cases heq
    exact (h.placed q hq).1
  · intro q r hq heq
    cases heq

theorem ClientOk.serve {p : Cmd} {r : ℤ} {e : Execution ι}
    (h : ClientOk box ack (.copied p) log i c) (hcmd : e.cmd = p) (hres : e.result = r)
    (hheld : e.held i = c.holding?) : ClientOk box ack (.served p r) (log ++ [e]) i c := by
  refine ⟨h.fresh, h.wrote, h.placed, ?_, ?_, h.matched, ?_⟩
  · intro q hq hack
    obtain ⟨hrecord, hans⟩ := h.acked q hq hack
    exact ⟨hrecord, hans.append e⟩
  · intro q r' hq heq
    cases heq
    refine ⟨e, by simp, hcmd, ?_, hres⟩
    rw [hheld]
    exact holding_of_placed hq
  · intro q r' hc
    exact (h.answered q r' hc).append e

/-- A new result is in the mailbox beside the old id. -/
theorem ClientOk.ackResult {p : Cmd} {r : ℤ} (h : ClientOk box ack (.served p r) log i c) :
    ClientOk box { ack with result := r } (.acking p r) log i c := by
  refine ⟨h.fresh, h.wrote, h.placed, ?_, h.served, h.matched, h.answered⟩
  intro q hq hack
  have hrecord := (h.acked q hq hack).1
  obtain rfl := hrecord p rfl
  exact ⟨hrecord, h.served p r hq rfl⟩

theorem ClientOk.ackId {p : Cmd} {r : ℤ} (h : ClientOk box ack (.acking p r) log i c)
    (hres : ack.result = r) : ClientOk box { ack with id := p.id } .waiting log i c := by
  refine ⟨?_, h.wrote, ?_, ?_, ?_, ?_, h.answered⟩
  · intro q hq
    obtain ⟨hbox, -, hrecord⟩ := h.fresh q hq
    exact ⟨hbox, hrecord p rfl, no_record rfl⟩
  · intro q hq
    exact ⟨(h.placed q hq).1, no_record rfl⟩
  · intro q hq hid
    obtain rfl := (h.placed q hq).2 p rfl hid
    refine ⟨no_record rfl, ?_⟩
    rw [hres]
    exact h.served p r hq rfl
  · intro q r' hq heq
    cases heq
  · rintro q rfl
    have hold := (h.acked q rfl (h.matched q rfl)).1
    rw [hold p rfl]

end ClientOk

def ClientsOk (s : State ι) : Prop :=
  ∀ i, ClientOk s.box s.words.ack s.sup s.executed i (s.client i)

/-- The result stands in the mailbox before its id does. -/
def ResultFirst (s : State ι) : Prop := ∀ q r, s.sup = .acking q r → s.words.ack.result = r

section Steps

variable [DecidableEq ι] {s s' : State ι} {e : Event ι}

omit [DecidableEq ι] in
theorem ClientsOk.of_client {i : ι} {c : Client} (h : ClientsOk s) (hc : s.client i = c) :
    ClientOk s.box s.words.ack s.sup s.executed i c := hc ▸ h i

theorem ClientsOk.update {i : ι} {c : Client} (h : ClientsOk s)
    (hi : ClientOk s.box s.words.ack s.sup s.executed i c) (j : ι) :
    ClientOk s.box s.words.ack s.sup s.executed j (Function.update s.client i c j) :=
  (Function.forall_update_iff s.client
    (fun j c => ClientOk s.box s.words.ack s.sup s.executed j c)).mpr ⟨hi, fun j _ => h j⟩ j

theorem ClientsOk.write {i : ι} {q : Cmd} {f : Field} (h : ClientsOk s) (hexcl : Exclusive s)
    (hids : Ids s) (hc : s.client i = .writing q f) (j : ι) :
    ClientOk (f.write q s.box) s.words.ack s.sup s.executed j
      (Function.update s.client i (.wrote q f) j) := by
  by_cases hj : j = i
  · subst hj
    rw [Function.update_self]
    exact (h.of_client hc).write
  · have hcall : (s.client i).call? = some q := by rw [hc]; rfl
    have hfree : (s.client j).holding? = none := by
      by_contra hheld
      have hheld' := Option.isSome_iff_ne_none.mpr hheld
      exact hj (hexcl.unique hheld' (mem_holders (q := q) (by rw [hc]; rfl)))
    rw [Function.update_of_ne hj]
    refine (h j).others_write hfree (fun p hp hid => hj ?_)
    exact (hids.calls.distinct i j q p hcall (call_of_before hp) hid).symm

theorem clients_step (h : ClientsOk s) (hexcl : Exclusive s) (hids : Ids s) (hfirst : ResultFirst s)
    (hstep : Step s e s') (hforce : e ≠ .forcePost) (hfresh : FreshId s e) : ClientsOk s' := by
  cases hstep with
  | call i q hc =>
    obtain ⟨hid, hnew⟩ := hfresh
    refine h.update (ClientOk.of_free rfl ?_)
    rintro _ rfl
    exact ⟨hids.box.ne hid hnew, hids.ack.ne hid hnew,
      fun p hp => (hids.record p hp).ne hid hnew⟩
  | busy i q hc => exact h.update (ClientOk.of_out rfl)
  | lock i q hc _ =>
    have hi := h.of_client hc
    exact h.update (ClientOk.of_writing (hi.fresh q rfl) trivial)
  | write i q f hc => exact h.write hexcl hids hc
  | postReady i q hc => exact h.update ((h.of_client hc).moveOn rfl (.inl rfl))
  | poll i q hc hack =>
    have hi := h.of_client hc
    refine h.update (hi.move (q := q) rfl rfl ?_ ?_)
    · intro p heq
      cases heq
      exact hack
    · intro p r heq
      cases heq
  | giveUp i q hc => exact h.update ((h.of_client hc).moveOn rfl (.inr rfl))
  | readResult i q hc =>
    have hi := h.of_client hc
    refine h.update (hi.move (q := q) rfl rfl ?_ ?_)
    · intro p heq
      cases heq
    · intro p r heq
      cases heq
      exact (hi.acked q rfl (hi.matched q rfl)).2
  | «return» i q r hc => exact h.update (ClientOk.of_out rfl)
  | fail i q hc => exact h.update (ClientOk.of_out rfl)
  | die i hc => exact h.update (ClientOk.of_out rfl)
  | wake hs _ => exact fun i => (h i).same_work (by rw [hs]; rfl) (by rw [hs]; rfl)
  | copy hs => exact fun i => (h i).copy
  | serve q hs =>
    intro i
    have hi := h i
    rw [hs] at hi
    simp only [serve_command_ack]
    exact hi.serve rfl rfl rfl
  | ackResult q r hs =>
    intro i
    have hi := h i
    rw [hs] at hi
    exact hi.ackResult
  | ackId q r hs =>
    intro i
    have hi := h i
    rw [hs] at hi
    exact hi.ackId (hfirst q r hs)
  | expire now hs => exact fun i => (h i).same_work (by rw [hs]; rfl) (by rw [hs]; rfl)
  | getValue now since sup hs hsup =>
    have hrecord : record? sup = none ∧ answer? sup = none := by
      rcases hsup with rfl | rfl <;> exact ⟨rfl, rfl⟩
    exact fun i => (h i).same_work (by rw [hs, hrecord.1]; rfl) (by rw [hs, hrecord.2]; rfl)
  | forcePost hs => exact absurd rfl hforce
  | others m faults => exact h

theorem result_first_step (h : ResultFirst s) (hstep : Step s e s') : ResultFirst s' := by
  cases hstep with
  | wake | copy | serve | ackId | expire | forcePost =>
    intro p r' heq
    cases heq
  | ackResult q r hs =>
    intro _ _ heq
    cases heq
    rfl
  | getValue now since sup hs hsup =>
    rcases hsup with rfl | rfl
    · intro p r' heq
      cases heq
    · intro p r' heq
      cases heq
  | _ => exact h

end Steps

structure Answers (s : State ι) : Prop where
  exclusive : Exclusive s
  ids : Ids s
  clients : ClientsOk s
  resultFirst : ResultFirst s
  returned : ∀ i q r, (i, q, r) ∈ s.returned → AnsweredIn s.executed i q r

theorem ids_initial (m : Mode) : Ids (initial ι m) := by
  refine ⟨⟨?_, ?_⟩, Or.inl rfl, Or.inl rfl, no_record rfl⟩
  · intro i q heq
    cases heq
  · intro i j p q heq
    cases heq

theorem answers_initial (m : Mode) : Answers (initial ι m) := by
  refine ⟨exclusive_initial m, ids_initial m, fun i => ClientOk.of_out rfl, ?_, ?_⟩
  · intro q r heq
    cases heq
  · intro i q r hret
    cases hret

variable [DecidableEq ι]

theorem returned_step {s s' : State ι} {e : Event ι} (h : Answers s) (hstep : Step s e s') :
    ∀ i q r, (i, q, r) ∈ s'.returned → AnsweredIn s'.executed i q r := by
  cases hstep with
  | «return» i q r hc =>
    intro j p r' hmem
    rcases List.mem_append.mp hmem with hold | hnew
    · exact h.returned j p r' hold
    · obtain ⟨rfl, rfl, rfl⟩ : j = i ∧ p = q ∧ r' = r := by simpa using hnew
      exact (h.clients j).answered p r' hc
  | serve q hs => exact fun j p r hmem => (h.returned j p r hmem).append _
  | _ => exact h.returned

theorem answers_step {s : State ι} {e : Event ι} (h : Answers s) (he : Enabled s e)
    (hforce : e ≠ .forcePost) (hfresh : FreshId s e) : Answers (next s e) := by
  have hstep := step_of_enabled he
  have hgone : HolderIsGone s e := by
    cases e with
    | forcePost => exact absurd rfl hforce
    | _ => trivial
  exact ⟨exclusive_step h.exclusive he hgone, ids_step h.ids hstep hfresh,
    clients_step h.clients h.exclusive h.ids h.resultFirst hstep hforce hfresh,
    result_first_step h.resultFirst hstep, returned_step h hstep⟩

/-- Whoever returns a result was answered: the supervisor ran `serve_command` on that
client's own record, while the client held CMD_LOCK for it, and this is its result. -/
theorem answer_agreement (m : Mode) {es : List (Event ι)}
    (hv : (machine ι).Valid (initial ι m) es) (hforce : Event.forcePost ∉ es)
    (hids : (machine ι).Along FreshId (initial ι m) es) (i : ι) (q : Cmd) (r : ℤ)
    (hret : (i, q, r) ∈ ((machine ι).run (initial ι m) es).returned) :
    ∃ e ∈ ((machine ι).run (initial ι m) es).executed,
      e.cmd = q ∧ e.held i = some q ∧ e.result = r := by
  have hquiet : (machine ι).Along (fun _ e => e ≠ .forcePost) (initial ι m) es :=
    along_of_forall (fun e he _ heq => hforce (heq ▸ he))
  have hkept := invariant_along (I := Answers)
    (fun _ _ h he hc => answers_step h he hc.1 hc.2) (answers_initial m) hv (hquiet.and hids)
  exact hkept.returned i q r hret

/-- One client gives up and leaves its READY token to the next, which is answered. -/
def answeredLate : List (Event Bool) :=
  [.call true holdCall, .lock true, .write true, .write true, .write true, .write true,
    .postReady true, .giveUp true, .release true, .call false estopCall, .lock false,
    .write false, .write false, .write false, .write false, .wake, .copy, .serve,
    .postReady false, .ackResult, .ackId, .poll false, .readResult false, .release false]

theorem answer_agreement_late :
    ∃ e ∈ ((machine Bool).run (initial Bool .idle) answeredLate).executed,
      e.cmd = estopCall ∧ e.held false = some estopCall ∧ e.result = resOk := by
  refine answer_agreement .idle ?_ (by decide) (by decide) false estopCall resOk ?_
  · exact ⟨rfl, ⟨⟨_, rfl⟩, by decide⟩, ⟨_, _, rfl⟩, ⟨_, _, rfl⟩,
      ⟨_, _, rfl⟩, ⟨_, _, rfl⟩, ⟨_, rfl⟩, ⟨_, rfl⟩, Or.inr ⟨_, rfl⟩, rfl,
      ⟨⟨_, rfl⟩, by decide⟩, ⟨_, _, rfl⟩, ⟨_, _, rfl⟩, ⟨_, _, rfl⟩, ⟨_, _, rfl⟩, ⟨rfl, by decide⟩,
      rfl, ⟨_, rfl⟩, ⟨_, rfl⟩, ⟨_, _, rfl⟩, ⟨_, _, rfl⟩, ⟨_, rfl, rfl⟩, ⟨_, rfl⟩,
      Or.inl ⟨_, _, rfl⟩, trivial⟩
  · exact List.mem_singleton_self _

end MailboxAnswers
