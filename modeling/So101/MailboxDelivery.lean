import So101.MailboxAnswers

/-!
# What the supervisor executes

The mailbox has one slot and CMD_READY counts. As long as nobody starts to write while a
token is on its way, each token stands for the one record in the mailbox, and that record
has not been executed.
-/
namespace MailboxDelivery

open GuardedMachine SharedMemory SupervisorThread Mailbox MailboxAnswers

variable {ι : Type*}

/-- The tokens posted on CMD_READY for which the supervisor has not copied the mailbox. -/
def pending (s : State ι) : ℕ :=
  match s.sup with
  | .woken => s.ready + 1
  | _ => s.ready

def served (s : State ι) : List Cmd := s.executed.map Execution.cmd

def copied? : Supervisor → Option Cmd
  | .copied q => some q
  | _ => none

def Unposted : Client → Cmd → Prop
  | .waiting q, p | .writing q _, p | .written q, p => q = p
  | _, _ => False

def Begun : Client → Prop
  | .writing _ .cmd => False
  | .writing _ _ | .written _ => True
  | _ => False

def Paired : Client → Cmd → Prop
  | .writing q .pid, p | .writing q .id, p | .written q, p => q = p
  | _, _ => False

theorem before_or_written {c : Client} {q : Cmd} (h : Unposted c q) :
    Before c q ∨ c = .written q := by
  cases c with
  | waiting p => exact Or.inl h
  | writing p f => exact Or.inl h
  | written p => exact Or.inr (congrArg Client.written h)
  | _ => cases h

theorem record_of_copied {sup : Supervisor} {q : Cmd} (h : copied? sup = some q) :
    record? sup = some q := by
  cases sup with
  | copied p => exact h
  | _ => cases h

theorem unposted_of_begun {c : Client} (h : Begun c) : ∃ q, Unposted c q := by
  cases c with
  | writing q f => exact ⟨q, rfl⟩
  | written q => exact ⟨q, rfl⟩
  | _ => cases h

theorem unposted_of_paired {c : Client} {q : Cmd} (h : Paired c q) : Unposted c q := by
  cases c with
  | writing p f =>
    cases f with
    | cmd | arg => cases h
    | _ => exact h
  | written p => exact h
  | _ => cases h

theorem holding_of_begun {c : Client} (h : Begun c) : c.holding?.isSome := by
  cases c with
  | writing q f => rfl
  | written q => rfl
  | _ => cases h

/-- The slot: what has been executed, what is being executed and what a token stands for
are written calls, and no two of them are the same. -/
structure SlotOk (n : ℕ) (sup : Supervisor) (box : Cmd) (served written : List Cmd) : Prop where
  nodup : served.Nodup
  served_written : ∀ q ∈ served, q ∈ written
  copied : ∀ q, copied? sup = some q → q ∈ written ∧ q ∉ served
  pending_le : n ≤ 1
  box : 0 < n → box ∈ written ∧ box ∉ served ∧ copied? sup ≠ some box

/-- A client that has not posted has not been served, and writes with no token about. -/
structure SenderOk (n : ℕ) (sup : Supervisor) (served written : List Cmd) (c : Client) : Prop where
  quiet : Begun c → n = 0
  unserved : ∀ q, Unposted c q → q ∉ served ∧ copied? sup ≠ some q
  paired : ∀ q, Paired c q → q ∈ written

structure Delivery (s : State ι) : Prop where
  slot : SlotOk (pending s) s.sup s.box (served s) s.written
  called : ∀ q ∈ s.written, q ∈ s.called
  senders : ∀ i, SenderOk (pending s) s.sup (served s) s.written (s.client i)

section Parts

variable {n : ℕ} {sup : Supervisor} {box : Cmd} {served written : List Cmd} {c : Client}

theorem SenderOk.of_posted (hposted : ∀ q, ¬ Unposted c q) : SenderOk n sup served written c := by
  refine ⟨fun hb => ?_, fun q hq => absurd hq (hposted q),
    fun q hq => absurd (unposted_of_paired hq) (hposted q)⟩
  obtain ⟨q, hq⟩ := unposted_of_begun hb
  exact absurd hq (hposted q)

theorem SenderOk.of_unbegun (hbegun : ¬ Begun c) (hpaired : ∀ q, ¬ Paired c q)
    (h : ∀ q, Unposted c q → q ∉ served ∧ copied? sup ≠ some q) :
    SenderOk n sup served written c :=
  ⟨fun hb => absurd hb hbegun, h, fun q hq => absurd hq (hpaired q)⟩

theorem SenderOk.turn {n' : ℕ} {sup' : Supervisor} (h : SenderOk n sup served written c)
    (hn : n' ≤ n) (hsup : copied? sup' = none) : SenderOk n' sup' served written c := by
  refine ⟨fun hb => ?_, fun q hq => ⟨(h.unserved q hq).1, ?_⟩, h.paired⟩
  · have := h.quiet hb
    omega
  · rw [hsup]
    exact (Option.some_ne_none q).symm

theorem SlotOk.turn {n' : ℕ} {sup' : Supervisor} (h : SlotOk n sup box served written)
    (hn : n' ≤ n) (hsup : copied? sup' = none) : SlotOk n' sup' box served written := by
  refine ⟨h.nodup, h.served_written, fun q hq => ?_, hn.trans h.pending_le, fun hpos => ?_⟩
  · rw [hsup] at hq
    cases hq
  · obtain ⟨hw, hs, -⟩ := h.box (by omega)
    refine ⟨hw, hs, ?_⟩
    rw [hsup]
    exact (Option.some_ne_none box).symm

theorem SlotOk.write {box' : Cmd} {written' : List Cmd} (h : SlotOk n sup box served written)
    (hn : n = 0) (hw : ∀ q ∈ written, q ∈ written') : SlotOk n sup box' served written' := by
  refine ⟨h.nodup, fun q hq => hw q (h.served_written q hq), ?_, h.pending_le, ?_⟩
  · intro q hq
    obtain ⟨hwritten, hserved⟩ := h.copied q hq
    exact ⟨hw q hwritten, hserved⟩
  · intro hpos
    omega

theorem SlotOk.post (h : SlotOk n sup box served written) (hn : n = 0)
    (hbox : box ∈ written ∧ box ∉ served ∧ copied? sup ≠ some box) :
    SlotOk (n + 1) sup box served written :=
  ⟨h.nodup, h.served_written, h.copied, by omega, fun _ => hbox⟩

theorem SlotOk.copy (h : SlotOk n sup box served written) (hn : 0 < n) :
    SlotOk (n - 1) (.copied box) box served written := by
  have hle := h.pending_le
  obtain ⟨hw, hs, -⟩ := h.box hn
  refine ⟨h.nodup, h.served_written, ?_, by omega, fun hpos => by omega⟩
  intro q heq
  cases heq
  exact ⟨hw, hs⟩

theorem SlotOk.serve {q : Cmd} {r : ℤ} (h : SlotOk n (.copied q) box served written) :
    SlotOk n (.served q r) box (served ++ [q]) written := by
  obtain ⟨hw, hs⟩ := h.copied q rfl
  refine ⟨?_, ?_, ?_, h.pending_le, ?_⟩
  · refine List.nodup_append.mpr ⟨h.nodup, List.nodup_singleton q, ?_⟩
    rintro p hp p' hp' rfl
    exact hs (List.mem_singleton.mp hp' ▸ hp)
  · intro p hp
    rcases List.mem_append.mp hp with hold | hnew
    · exact h.served_written p hold
    · rwa [List.mem_singleton.mp hnew]
  · intro p heq
    cases heq
  · intro hpos
    obtain ⟨hbw, hbs, hbox⟩ := h.box hpos
    refine ⟨hbw, fun hmem => ?_, (Option.some_ne_none box).symm⟩
    rcases List.mem_append.mp hmem with hold | hnew
    · exact hbs hold
    · exact hbox (congrArg some (List.mem_singleton.mp hnew).symm)

theorem SenderOk.serve {q : Cmd} {r : ℤ} (h : SenderOk n (.copied q) served written c) :
    SenderOk n (.served q r) (served ++ [q]) written c := by
  refine ⟨h.quiet, fun p hp => ⟨fun hmem => ?_, (Option.some_ne_none p).symm⟩, h.paired⟩
  obtain ⟨hs, hcopy⟩ := h.unserved p hp
  rcases List.mem_append.mp hmem with hold | hnew
  · exact hs hold
  · exact hcopy (congrArg some (List.mem_singleton.mp hnew).symm)

theorem SenderOk.mono {written' : List Cmd} (h : SenderOk n sup served written c)
    (hw : ∀ q ∈ written, q ∈ written') : SenderOk n sup served written' c :=
  ⟨h.quiet, h.unserved, fun q hq => hw q (h.paired q hq)⟩

end Parts

/-- Nobody starts to write while a token is about. -/
def NothingPending (s : State ι) : Event ι → Prop
  | .write i => (∃ q, s.client i = .writing q .cmd) → pending s = 0
  | _ => True

section Steps

variable {s s' : State ι} {e : Event ι}

theorem Delivery.of_client {i : ι} {c : Client} (h : Delivery s) (hc : s.client i = c) :
    SenderOk (pending s) s.sup (served s) s.written c := hc ▸ h.senders i

theorem Delivery.update [DecidableEq ι] {i : ι} {c : Client} (h : Delivery s)
    (hi : SenderOk (pending s) s.sup (served s) s.written c) (j : ι) :
    SenderOk (pending s) s.sup (served s) s.written (Function.update s.client i c j) :=
  (Function.forall_update_iff s.client
    (fun _ c => SenderOk (pending s) s.sup (served s) s.written c)).mpr
      ⟨hi, fun j _ => h.senders j⟩ j

theorem Delivery.move [DecidableEq ι] {i : ι} {c : Client} (h : Delivery s)
    (hposted : ∀ q, ¬ Unposted c q) (j : ι) :
    SenderOk (pending s) s.sup (served s) s.written (Function.update s.client i c j) :=
  h.update (SenderOk.of_posted hposted) j

/-- A write happens with no token about: the first by the condition, the others because
no token has come since. -/
theorem quiet_write (h : Delivery s) {i : ι} {q : Cmd} {f : Field}
    (hc : s.client i = .writing q f) (hquiet : NothingPending s (.write i)) : pending s = 0 := by
  by_cases hf : f = .cmd
  · subst hf
    exact hquiet ⟨q, hc⟩
  · apply (h.of_client hc).quiet
    cases f with
    | cmd => exact absurd rfl hf
    | _ => trivial

theorem sender_write (h : Delivery s) {i : ι} {q : Cmd} {f : Field}
    (hc : s.client i = .writing q f) (hn : pending s = 0) :
    SenderOk (pending s) s.sup (served s) (if f = .arg then s.written ++ [q] else s.written)
      (.wrote q f) := by
  have hi := h.of_client hc
  obtain ⟨hs, hcopy⟩ := hi.unserved q rfl
  refine ⟨fun _ => hn, ?_, ?_⟩
  · intro p hp
    obtain rfl : q = p := by
      cases f with
      | _ => exact hp
    exact ⟨hs, hcopy⟩
  · intro p hp
    cases f with
    | cmd => cases hp
    | arg =>
      cases hp
      exact List.mem_append_right s.written (List.mem_singleton_self q)
    | pid =>
      cases hp
      exact hi.paired q rfl
    | id =>
      cases hp
      exact hi.paired q rfl

theorem delivery_write [DecidableEq ι] (h : Delivery s) (ha : Answers s) {i : ι} {q : Cmd}
    {f : Field} (hc : s.client i = .writing q f) (hn : pending s = 0) :
    Delivery { s.setClient i (.wrote q f) with
      box := f.write q s.box
      written := if f = .arg then s.written ++ [q] else s.written } := by
  have hw : ∀ p ∈ s.written, p ∈ if f = .arg then s.written ++ [q] else s.written := by
    intro p hp
    split_ifs
    · exact List.mem_append_left [q] hp
    · exact hp
  refine ⟨h.slot.write hn hw, ?_, ?_⟩
  · intro p hp
    by_cases hf : f = .arg
    · subst hf
      rcases List.mem_append.mp hp with hold | hnew
      · exact h.called p hold
      · rw [List.mem_singleton.mp hnew]
        exact ha.ids.calls.recorded i q (by rw [hc]; rfl)
    · simp only [hf, if_false] at hp
      exact h.called p hp
  · intro j
    by_cases hj : j = i
    · subst hj
      simp only [State.setClient, Function.update_self]
      exact sender_write h hc hn
    · simp only [State.setClient, Function.update_of_ne hj]
      exact (h.senders j).mono hw

theorem delivery_post [DecidableEq ι] (h : Delivery s) (ha : Answers s) {i : ι} {q : Cmd}
    (hc : s.client i = .written q) :
    Delivery { s.setClient i (.polling q) with ready := s.ready + 1 } := by
  have hi := h.of_client hc
  have hplaced := (ha.clients.of_client hc).placed q rfl
  have hn := hi.quiet trivial
  have hpending : pending { s.setClient i (.polling q) with ready := s.ready + 1 } =
      pending s + 1 := by
    simp only [pending, State.setClient]
    split <;> rfl
  refine ⟨?_, h.called, ?_⟩
  · rw [hpending]
    refine h.slot.post hn ?_
    simp only [hplaced.1]
    exact ⟨hi.paired q rfl, hi.unserved q rfl⟩
  · intro j
    by_cases hj : j = i
    · subst hj
      simp only [State.setClient, Function.update_self]
      exact SenderOk.of_posted (fun p hp => by cases hp)
    · have hbegun : ¬ Begun (s.client j) := fun hb =>
        hj (ha.exclusive.unique (holding_of_begun hb) (mem_holders (q := q) (by rw [hc]; rfl)))
      simp only [State.setClient, Function.update_of_ne hj]
      exact ⟨fun hb => absurd hb hbegun, (h.senders j).unserved, (h.senders j).paired⟩

/-- With a token taken nobody has begun, and the mailbox is not the record of a client
that has yet to begin. -/
theorem delivery_copy (h : Delivery s) (ha : Answers s) (hs : s.sup = .woken) :
    Delivery { s with sup := .copied s.box } := by
  have hpos : 0 < pending s := by
    simp only [pending, hs]
    omega
  have hpending : pending { s with sup := .copied s.box } = pending s - 1 := by
    simp only [pending, hs]
    omega
  refine ⟨?_, h.called, ?_⟩
  · rw [hpending]
    exact h.slot.copy hpos
  · intro i
    have hi := h.senders i
    have hbegun : ¬ Begun (s.client i) := by
      intro hb
      have := hi.quiet hb
      omega
    refine ⟨fun hb => absurd hb hbegun, fun q hq => ⟨(hi.unserved q hq).1, ?_⟩, hi.paired⟩
    intro hbox
    rcases before_or_written hq with hbefore | hwritten
    · have hid := ((ha.clients i).fresh q hbefore).1
      cases hbox
      exact hid rfl
    · rw [hwritten] at hbegun
      exact hbegun trivial

theorem delivery_serve (h : Delivery s) {q : Cmd} (hs : s.sup = .copied q) (r : ℤ) (w : Words)
    (held : ι → Option Cmd) :
    Delivery { s with
      sup := .served q r, words := w, executed := s.executed ++ [⟨q, s.words, held⟩] } := by
  have hpending : pending s = s.ready := by simp only [pending, hs]
  have hserved : List.map Execution.cmd (s.executed ++ [⟨q, s.words, held⟩]) = served s ++ [q] := by
    simp [served]
  have hslot := h.slot
  have hsend := h.senders
  rw [hs, hpending] at hslot hsend
  refine ⟨?_, h.called, fun i => ?_⟩
  · rw [served, hserved]
    exact hslot.serve
  · rw [served, hserved]
    exact (hsend i).serve

theorem delivery_turn (h : Delivery s) (hbox : s'.box = s.box) (hclient : s'.client = s.client)
    (hcalled : s'.called = s.called) (hwritten : s'.written = s.written)
    (hexecuted : s'.executed = s.executed) (hn : pending s' ≤ pending s)
    (hsup : copied? s'.sup = none) : Delivery s' := by
  refine ⟨?_, ?_, fun i => ?_⟩
  · rw [hbox, hwritten, served, hexecuted]
    exact h.slot.turn hn hsup
  · rw [hwritten, hcalled]
    exact h.called
  · rw [hclient, hwritten, served, hexecuted]
    exact (h.senders i).turn hn hsup

theorem delivery_step [DecidableEq ι] (h : Delivery s) (ha : Answers s) (hstep : Step s e s')
    (hquiet : NothingPending s e) (hids : FreshId s e) : Delivery s' := by
  cases hstep with
  | call i q hc =>
    obtain ⟨hid, hfresh⟩ := hids
    refine ⟨h.slot, fun p hp => List.mem_append_left [q] (h.called p hp),
      h.update (SenderOk.of_unbegun id (fun p hp => by cases hp) ?_)⟩
    rintro _ rfl
    refine ⟨fun hmem => hfresh q (h.called q (h.slot.served_written q hmem)) rfl, fun hs => ?_⟩
    exact (ha.ids.record q (record_of_copied hs)).ne hid hfresh rfl
  | busy | poll | giveUp | readResult | «return» | fail | die =>
    exact ⟨h.slot, h.called, h.move (fun p hp => by cases hp)⟩
  | lock i q hc _ =>
    have hi := h.of_client hc
    exact ⟨h.slot, h.called,
      h.update (SenderOk.of_unbegun id (fun p hp => by cases hp) hi.unserved)⟩
  | write i q f hc => exact delivery_write h ha hc (quiet_write h hc hquiet)
  | postReady i q hc => exact delivery_post h ha hc
  | wake hs hready =>
    refine delivery_turn h rfl rfl rfl rfl rfl ?_ rfl
    simp only [pending, hs]
    omega
  | copy hs => exact delivery_copy h ha hs
  | serve q hs => exact delivery_serve h hs _ _ _
  | ackResult q r hs | ackId q r hs =>
    exact delivery_turn h rfl rfl rfl rfl rfl (by simp only [pending, hs, le_rfl]) rfl
  | expire now hs =>
    exact delivery_turn h rfl rfl rfl rfl rfl (by simp only [pending, hs, le_rfl]) rfl
  | getValue now since sup hs hsup =>
    rcases hsup with rfl | rfl <;>
      exact delivery_turn h rfl rfl rfl rfl rfl (by simp only [pending, hs, le_rfl]) rfl
  | forcePost hs =>
    exact delivery_turn h rfl rfl rfl rfl rfl (by simp only [pending, hs, le_rfl]) rfl
  | others m faults => exact ⟨h.slot, h.called, h.senders⟩

end Steps

theorem delivery_initial (m : Mode) : Delivery (initial ι m) := by
  refine ⟨⟨List.nodup_nil, ?_, ?_, Nat.zero_le 1, ?_⟩, ?_, fun i => ?_⟩
  · intro q hq
    cases hq
  · intro q heq
    cases heq
  · intro hpos
    cases hpos
  · intro q hq
    cases hq
  · exact SenderOk.of_posted (fun q hq => by cases hq)

/-- What the supervisor executed are the records of calls, each with the pair that its
client wrote, and no record was executed twice. -/
structure AtMostOnce (s : State ι) : Prop where
  whole : ∀ e ∈ s.executed, e.cmd ∈ s.written
  once : (s.executed.map Execution.cmd).Nodup

variable [DecidableEq ι]

/-- As long as no client starts to write while a token of CMD_READY is about, every pair
the supervisor executes is that of one call, and no call is executed twice. -/
theorem executed_at_most_once (m : Mode) {es : List (Event ι)}
    (hv : (machine ι).Valid (initial ι m) es) (hforce : Event.forcePost ∉ es)
    (hids : (machine ι).Along FreshId (initial ι m) es)
    (hquiet : (machine ι).Along NothingPending (initial ι m) es) :
    AtMostOnce ((machine ι).run (initial ι m) es) := by
  have hunforced : (machine ι).Along (fun _ e => e ≠ .forcePost) (initial ι m) es :=
    along_of_forall (fun e he _ heq => hforce (heq ▸ he))
  have hkept := invariant_along (I := fun s => Answers s ∧ Delivery s)
    (C := fun s e => e ≠ .forcePost ∧ FreshId s e ∧ NothingPending s e)
    (fun s e h he hc => ⟨answers_step h.1 he hc.1 hc.2.1,
      delivery_step h.2 h.1 (step_of_enabled he) hc.2.2 hc.2.1⟩)
    ⟨answers_initial m, delivery_initial m⟩ hv (hunforced.and (hids.and hquiet))
  obtain ⟨-, hdel⟩ := hkept
  exact ⟨fun e he => hdel.slot.served_written _ (List.mem_map_of_mem he), hdel.slot.nodup⟩

/-- The next client's call takes the token of one that gave up, and ends as it should. -/
theorem executed_at_most_once_late :
    AtMostOnce ((machine Bool).run (initial Bool .idle)
      [.call true holdCall, .lock true, .write true, .write true, .write true, .write true,
        .postReady true, .giveUp true, .release true, .wake, .copy, .call false estopCall,
        .lock false, .write false, .serve]) := by
  refine executed_at_most_once .idle ?_ (by decide) (by decide) ?_
  · exact ⟨rfl, ⟨⟨_, rfl⟩, by decide⟩, ⟨_, _, rfl⟩, ⟨_, _, rfl⟩,
      ⟨_, _, rfl⟩, ⟨_, _, rfl⟩, ⟨_, rfl⟩, ⟨_, rfl⟩, Or.inr ⟨_, rfl⟩, ⟨rfl, by decide⟩, rfl,
      rfl, ⟨⟨_, rfl⟩, by decide⟩, ⟨_, _, rfl⟩, ⟨_, rfl⟩, trivial⟩
  · exact ⟨trivial, trivial, fun _ => rfl, fun _ => rfl, fun _ => rfl, fun _ => rfl, trivial,
      trivial, trivial, trivial, trivial, trivial, trivial, fun _ => rfl, trivial, trivial⟩

/-- A client gives up on its ESTOP and leaves its token; the supervisor takes the mailbox
when the next client, which asks for HOLD, has written one field of four. -/
def halfWritten : List (Event Bool) :=
  [.call true estopCall, .lock true, .write true, .write true, .write true, .write true,
    .postReady true, .giveUp true, .release true, .call false holdCall, .lock false,
    .write false, .wake, .copy, .serve]

/-- The supervisor executes SET_MODE with the argument of the ESTOP: nobody asked for IDLE. -/
theorem executed_half_written :
    ¬ ∀ es : List (Event Bool), (machine Bool).Valid (initial Bool .idle) es →
      Event.forcePost ∉ es → (machine Bool).Along FreshId (initial Bool .idle) es →
      ∀ e ∈ ((machine Bool).run (initial Bool .idle) es).executed,
        ∃ q ∈ ((machine Bool).run (initial Bool .idle) es).written,
          (e.cmd.cmd, e.cmd.arg) = (q.cmd, q.arg) := by
  intro hall
  have hv : (machine Bool).Valid (initial Bool .idle) halfWritten :=
    ⟨rfl, ⟨⟨_, rfl⟩, by decide⟩, ⟨_, _, rfl⟩, ⟨_, _, rfl⟩, ⟨_, _, rfl⟩, ⟨_, _, rfl⟩, ⟨_, rfl⟩,
      ⟨_, rfl⟩, Or.inr ⟨_, rfl⟩, rfl, ⟨⟨_, rfl⟩, by decide⟩, ⟨_, _, rfl⟩, ⟨rfl, by decide⟩, rfl,
      ⟨_, rfl⟩, trivial⟩
  obtain ⟨q, hq, hpair⟩ := hall halfWritten hv (by decide) (by decide) _
    (List.mem_singleton_self _)
  obtain rfl : q = estopCall := List.mem_singleton.mp hq
  exact absurd hpair (by decide)

end MailboxDelivery
