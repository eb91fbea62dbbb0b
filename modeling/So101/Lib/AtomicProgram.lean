import Mathlib.Logic.Function.Basic
import So101.Lib.Machine

/-!
# Programs over atomic accesses, and their interleavings

A program is a tree of atomic accesses to a shared memory; between two accesses of
one thread every other thread may run. Proofs are rely-guarantee: a thread states
what it may see others do, what it does itself at each access, and an invariant
that its own accesses keep. A thread may carry a monitor, a history variable that
follows its own accesses.
-/
namespace AtomicProgram

open GuardedMachine

universe u v w

variable {Op : Type u} {Res : Op → Type v} {α β : Type w}

/-- `access o k` performs `o` and goes on with what `o` returned. -/
inductive Prog {Op : Type u} (Res : Op → Type v) (α : Type w) where
  | ret (a : α)
  | access (o : Op) (k : Res o → Prog Res α)

def Prog.bind : Prog Res α → (α → Prog Res β) → Prog Res β
  | .ret a, f => f a
  | .access o k, f => .access o (fun r => (k r).bind f)

instance : Monad (Prog Res) where
  pure := .ret
  bind := Prog.bind

@[simp] theorem ret_bind (a : α) (f : α → Prog Res β) : (Prog.ret a).bind f = f a := rfl

def Prog.op? : Prog Res α → Option Op
  | .ret _ => none
  | .access o _ => some o

/-- `P` holds of whatever the program returns, in whatever memory it runs. -/
def Prog.Ensures (P : α → Prop) : Prog Res α → Prop
  | .ret a => P a
  | .access _ k => ∀ r, (k r).Ensures P

/-- Every access of the program, on every path, satisfies `P`. -/
def Prog.Only (P : Op → Prop) : Prog Res α → Prop
  | .ret _ => True
  | .access o k => P o ∧ ∀ r, (k r).Only P

theorem Prog.ensures_of_forall {P : α → Prop} (h : ∀ a, P a) (p : Prog Res α) : p.Ensures P := by
  induction p with
  | ret a => exact h a
  | access o k ih => exact ih

theorem Prog.Ensures.bind {P : α → Prop} {Q : β → Prop} {p : Prog Res α} {f : α → Prog Res β}
    (h : p.Ensures P) (hf : ∀ a, P a → (f a).Ensures Q) : (p.bind f).Ensures Q := by
  induction p with
  | ret a => exact hf a h
  | access o k ih => exact fun r => ih r (h r)

theorem Prog.ensures_bind {Q : β → Prop} {p : Prog Res α} {f : α → Prog Res β}
    (h : ∀ a, (f a).Ensures Q) : (p.bind f).Ensures Q :=
  (Prog.ensures_of_forall (fun _ => trivial) p).bind (P := fun _ => True) fun a _ => h a

theorem Prog.Ensures.ite {P : α → Prop} {p q : Prog Res α} {b : Prop} [Decidable b]
    (hp : b → p.Ensures P) (hq : ¬ b → q.Ensures P) : (if b then p else q).Ensures P := by
  split_ifs with h
  · exact hp h
  · exact hq h

theorem Prog.Only.bind {P : Op → Prop} {p : Prog Res α} {f : α → Prog Res β}
    (h : p.Only P) (hf : ∀ a, (f a).Only P) : (p.bind f).Only P := by
  induction p with
  | ret a => exact hf a
  | access o k ih => exact ⟨h.1, fun r => ih r (h.2 r)⟩

theorem Prog.Only.imp {P Q : Op → Prop} {p : Prog Res α} (h : p.Only P) (hpq : ∀ o, P o → Q o) :
    p.Only Q := by
  induction p with
  | ret a => trivial
  | access o k ih => exact ⟨hpq o h.1, fun r => ih r (h.2 r)⟩

theorem Prog.Only.bind_of_ensures {P : Op → Prop} {R : α → Prop} {p : Prog Res α}
    {f : α → Prog Res β} (h : p.Only P) (hp : p.Ensures R) (hf : ∀ a, R a → (f a).Only P) :
    (p.bind f).Only P := by
  induction p with
  | ret a => exact hf a hp
  | access o k ih => exact ⟨h.1, fun r => ih r (h.2 r) (hp r)⟩

theorem Prog.Only.ite {P : Op → Prop} {p q : Prog Res α} {b : Prop} [Decidable b]
    (hp : b → p.Only P) (hq : ¬ b → q.Only P) : (if b then p else q).Only P := by
  split_ifs with h
  · exact hp h
  · exact hq h

structure Memory (σ : Type*) {Op : Type u} (Res : Op → Type v) where
  value : σ → (o : Op) → Res o
  update : σ → Op → σ

variable {σ : Type*}

def Prog.eval (W : Memory σ Res) : Prog Res α → σ → α × σ
  | .ret a, m => (a, m)
  | .access o k, m => (k (W.value m o)).eval W (W.update m o)

theorem Prog.eval_bind (W : Memory σ Res) (p : Prog Res α) (f : α → Prog Res β) (m : σ) :
    (p.bind f).eval W m = (f (p.eval W m).1).eval W (p.eval W m).2 := by
  induction p generalizing m with
  | ret a => rfl
  | access o k ih => exact ih (W.value m o) (W.update m o)

theorem Prog.Ensures.eval {P : α → Prop} {p : Prog Res α} (h : p.Ensures P)
    (W : Memory σ Res) (m : σ) : P (p.eval W m).1 := by
  induction p generalizing m with
  | ret a => exact h
  | access o k ih => exact ih (W.value m o) (h _) (W.update m o)

theorem Prog.Only.eval_frame {τ : Type*} {W : Memory σ Res} {f : σ → τ} {P : Op → Prop}
    {p : Prog Res α} (h : p.Only P) (hP : ∀ m o, P o → f (W.update m o) = f m) (m : σ) :
    f (p.eval W m).2 = f m := by
  induction p generalizing m with
  | ret a => rfl
  | access o k ih => exact (ih _ (h.2 _) _).trans (hP m o h.1)

/-- What a thread relies on and what it promises. `mon` is its history variable. -/
structure Contract (γ σ : Type*) (Op : Type u) where
  rely : σ → σ → Prop
  mon : γ → Op → γ
  inv : γ → σ → Prop
  guar : γ → σ → Op → Prop
  refl : ∀ m, rely m m
  trans : ∀ {a b c}, rely a b → rely b c → rely a c
  stable : ∀ {g a b}, rely a b → inv g a → inv g b

variable {γ : Type*} {W : Memory σ Res} {C : Contract γ σ Op}

/-- Run from `m` with interference within `rely`, the program keeps its contract at
every access and `Q` holds when it returns. -/
def Safe (W : Memory σ Res) (C : Contract γ σ Op) (Q : γ → α → σ → Prop) :
    γ → Prog Res α → σ → Prop
  | g, .ret a, m => ∀ m', C.rely m m' → C.inv g m' → Q g a m'
  | g, .access o k, m => ∀ m', C.rely m m' → C.inv g m' →
      C.guar g m' o ∧ C.inv (C.mon g o) (W.update m' o) ∧
        Safe W C Q (C.mon g o) (k (W.value m' o)) (W.update m' o)

variable {Q : γ → α → σ → Prop} {g : γ} {m : σ}

theorem Safe.interfere {p : Prog Res α} (h : Safe W C Q g p m) {m' : σ}
    (hr : C.rely m m') : Safe W C Q g p m' := by
  cases p with
  | ret a => exact fun m'' hr' => h m'' (C.trans hr hr')
  | access o k => exact fun m'' hr' => h m'' (C.trans hr hr')

/-- The rule of sequence. -/
theorem Safe.bind {p : Prog Res α} {f : α → Prog Res β} {R : γ → β → σ → Prop}
    (h : Safe W C Q g p m) (hf : ∀ g a m, Q g a m → Safe W C R g (f a) m) :
    Safe W C R g (p.bind f) m := by
  induction p generalizing g m with
  | ret a =>
    have hnow : ∀ m', C.rely m m' → C.inv g m' → Safe W C R g (f a) m' :=
      fun m' hr hi => hf g a m' (h m' hr hi)
    rw [ret_bind]
    cases hp : f a with
    | ret b =>
      intro m' hr hi
      have hb := hnow m' hr hi
      rw [hp] at hb
      exact hb m' (C.refl m') hi
    | access o k =>
      intro m' hr hi
      have hk := hnow m' hr hi
      rw [hp] at hk
      exact hk m' (C.refl m') hi
  | access o k ih =>
    intro m' hr hi
    obtain ⟨hg, hi', hk⟩ := h m' hr hi
    exact ⟨hg, hi', ih _ hk⟩

theorem Safe.imp {R : γ → α → σ → Prop} {p : Prog Res α} (h : Safe W C Q g p m)
    (hR : ∀ g a m, Q g a m → R g a m) : Safe W C R g p m := by
  induction p generalizing g m with
  | ret a => exact fun m' hr hi => hR g a m' (h m' hr hi)
  | access o k ih =>
    intro m' hr hi
    obtain ⟨hguar, hi', hk⟩ := h m' hr hi
    exact ⟨hguar, hi', ih _ hk⟩

theorem Safe.frame {J : γ → Prop} {P : Op → Prop} (hJ : ∀ g o, P o → J g → J (C.mon g o))
    {p : Prog Res α} (h : Safe W C Q g p m) (hp : p.Only P) (hg : J g) :
    Safe W C (fun g a m => Q g a m ∧ J g) g p m := by
  induction p generalizing g m with
  | ret a => exact fun m' hr hi => ⟨h m' hr hi, hg⟩
  | access o k ih =>
    intro m' hr hi
    obtain ⟨hguar, hi', hk⟩ := h m' hr hi
    exact ⟨hguar, hi', ih _ hk (hp.2 _) (hJ g o hp.1 hg)⟩

theorem Safe.ensures {P : α → Prop} {p : Prog Res α} (h : Safe W C Q g p m) (hp : p.Ensures P) :
    Safe W C (fun g a m => Q g a m ∧ P a) g p m := by
  induction p generalizing g m with
  | ret a => exact fun m' hr hi => ⟨h m' hr hi, hp⟩
  | access o k ih =>
    intro m' hr hi
    obtain ⟨hguar, hi', hk⟩ := h m' hr hi
    exact ⟨hguar, hi', ih _ hk (hp _)⟩

/-- The contract of a thread that relies on nothing and only makes accesses in `P`. -/
def Contract.only (σ : Type*) (P : Op → Prop) : Contract Unit σ Op where
  rely _ _ := True
  mon g _ := g
  inv _ _ := True
  guar _ _ o := P o
  refl _ := trivial
  trans _ _ := trivial
  stable _ _ := trivial

theorem Prog.Only.safe {P : Op → Prop} {p : Prog Res α} (h : p.Only P) (m : σ) :
    Safe W (Contract.only σ P) (fun _ _ _ => True) () p m := by
  induction p generalizing m with
  | ret a => exact fun _ _ _ => trivial
  | access o k ih => exact fun m' _ _ => ⟨h.1, trivial, ih _ (h.2 _) _⟩

/-- Each thread runs `body` again and again, from what the last round returned and an
input of its own. -/
structure System (ι σ : Type*) {Op : Type u} (Res : Op → Type v) where
  mem : Memory σ Res
  Local : ι → Type w
  Input : ι → Type w
  body : (i : ι) → Local i → Input i → Prog Res (Local i)

variable {ι : Type*} {S : System.{u, v, w} ι σ Res}

structure State (S : System.{u, v, w} ι σ Res) where
  words : σ
  prog : (i : ι) → Prog Res (S.Local i)

inductive Event (S : System.{u, v, w} ι σ Res) where
  | start (i : ι) (inp : S.Input i)
  | access (i : ι) (o : Op)

variable [DecidableEq ι]

def System.machine (S : System.{u, v, w} ι σ Res) : Machine (State S) (Event S) where
  enabled s
    | .start i _ => (s.prog i).op? = none
    | .access i o => (s.prog i).op? = some o
  next s
    | .start i inp =>
      match s.prog i with
      | .ret a => { s with prog := Function.update s.prog i (S.body i a inp) }
      | .access _ _ => s
    | .access i _ =>
      match s.prog i with
      | .ret _ => s
      | .access o k =>
        { words := S.mem.update s.words o
          prog := Function.update s.prog i (k (S.mem.value s.words o)) }

theorem next_start {s : State S} {i : ι} {inp : S.Input i} {a : S.Local i}
    (h : s.prog i = .ret a) : S.machine.next s (.start i inp) =
      { s with prog := Function.update s.prog i (S.body i a inp) } := by
  simp [System.machine, h]

theorem next_access {s : State S} {i : ι} {o : Op} {k : Res o → Prog Res (S.Local i)}
    (h : s.prog i = .access o k) : S.machine.next s (.access i o) =
      { words := S.mem.update s.words o
        prog := Function.update s.prog i (k (S.mem.value s.words o)) } := by
  simp [System.machine, h]

theorem start_enabled {s : State S} {i : ι} {inp : S.Input i}
    (h : S.machine.enabled s (.start i inp)) : ∃ a, s.prog i = .ret a := by
  cases hp : s.prog i with
  | ret a => exact ⟨a, rfl⟩
  | access o k => simp [System.machine, hp, Prog.op?] at h

theorem access_enabled {s : State S} {i : ι} {o : Op}
    (h : S.machine.enabled s (.access i o)) : ∃ k, s.prog i = .access o k := by
  cases hp : s.prog i with
  | ret a => simp [System.machine, hp, Prog.op?] at h
  | access o' k =>
    simp only [System.machine, hp, Prog.op?, Option.some.injEq] at h
    subst h
    exact ⟨k, rfl⟩

theorem words_start (s : State S) (i : ι) (inp : S.Input i) :
    (S.machine.next s (.start i inp)).words = s.words := by
  cases h : s.prog i <;> simp [System.machine, h]

theorem words_access {s : State S} {i : ι} {o : Op}
    (h : S.machine.enabled s (.access i o)) :
    (S.machine.next s (.access i o)).words = S.mem.update s.words o := by
  obtain ⟨k, hk⟩ := access_enabled h
  rw [next_access hk]

theorem prog_next_self {s : State S} {i : ι} {o : Op} {k : Res o → Prog Res (S.Local i)}
    (h : s.prog i = .access o k) :
    (S.machine.next s (.access i o)).prog i = k (S.mem.value s.words o) := by
  rw [next_access h]
  exact Function.update_self ..

theorem prog_start_self {s : State S} {i : ι} {inp : S.Input i} {a : S.Local i}
    (h : s.prog i = .ret a) : (S.machine.next s (.start i inp)).prog i = S.body i a inp := by
  rw [next_start h]
  exact Function.update_self ..

theorem prog_next_other {s : State S} {e : Event S} (he : S.machine.enabled s e) {i : ι}
    (hstart : ∀ inp, e ≠ .start i inp) (haccess : ∀ o, e ≠ .access i o) :
    (S.machine.next s e).prog i = s.prog i := by
  cases e with
  | start j inp =>
    obtain ⟨a, ha⟩ := start_enabled he
    have hj : i ≠ j := by
      rintro rfl
      exact hstart inp rfl
    rw [next_start ha]
    exact Function.update_of_ne hj _ _
  | access j o =>
    obtain ⟨k, hk⟩ := access_enabled he
    have hj : i ≠ j := by
      rintro rfl
      exact haccess o rfl
    rw [next_access hk]
    exact Function.update_of_ne hj _ _

theorem ensures_next {s : State S} {e : Event S} (he : S.machine.enabled s e) {i : ι}
    (hstart : ∀ inp, e ≠ .start i inp) {P : S.Local i → Prop} (h : (s.prog i).Ensures P) :
    ((S.machine.next s e).prog i).Ensures P := by
  by_cases haccess : ∃ o, e = .access i o
  · obtain ⟨o, rfl⟩ := haccess
    obtain ⟨k, hk⟩ := access_enabled he
    rw [hk] at h
    rw [prog_next_self hk]
    exact h _
  · rwa [prog_next_other he hstart (fun o ho => haccess ⟨o, ho⟩)]

theorem only_next {s : State S} {e : Event S} (he : S.machine.enabled s e) {i : ι}
    (hstart : ∀ inp, e ≠ .start i inp) {P : Op → Prop} (h : (s.prog i).Only P) :
    ((S.machine.next s e).prog i).Only P := by
  by_cases haccess : ∃ o, e = .access i o
  · obtain ⟨o, rfl⟩ := haccess
    obtain ⟨k, hk⟩ := access_enabled he
    rw [hk] at h
    rw [prog_next_self hk]
    exact h.2 _
  · rwa [prog_next_other he hstart (fun o ho => haccess ⟨o, ho⟩)]

theorem run_alone {s : State S} {i : ι} {p : Prog Res (S.Local i)} (h : s.prog i = p) :
    ∃ es : List (Event S), (∀ e ∈ es, ∃ o, e = .access i o) ∧ S.machine.Valid s es ∧
      (S.machine.run s es).prog i = .ret (p.eval S.mem s.words).1 ∧
      (S.machine.run s es).words = (p.eval S.mem s.words).2 := by
  induction p generalizing s with
  | ret a => exact ⟨[], by simp, trivial, h, rfl⟩
  | access o k ih =>
    have he : S.machine.enabled s (.access i o) := by simp [System.machine, h, Prog.op?]
    obtain ⟨es, honly, hv, hprog, hwords⟩ := ih _ (prog_next_self h)
    rw [words_access he] at hprog hwords
    refine ⟨.access i o :: es, ?_, ⟨he, hv⟩, hprog, hwords⟩
    rintro e (_ | ⟨_, hmem⟩)
    · exact ⟨o, rfl⟩
    · exact honly e hmem

/-- A round of a thread that nobody disturbs. -/
theorem round_alone {s : State S} {i : ι} {a : S.Local i} (h : s.prog i = .ret a)
    (inp : S.Input i) : ∃ es : List (Event S), (∀ e ∈ es, ∃ o, e = .access i o) ∧
      S.machine.Valid s (.start i inp :: es) ∧
      (S.machine.run s (.start i inp :: es)).prog i =
        .ret ((S.body i a inp).eval S.mem s.words).1 ∧
      (S.machine.run s (.start i inp :: es)).words =
        ((S.body i a inp).eval S.mem s.words).2 := by
  have he : S.machine.enabled s (.start i inp) := by simp [System.machine, h, Prog.op?]
  have hbody : (S.machine.next s (.start i inp)).prog i = S.body i a inp := prog_start_self h
  obtain ⟨es, honly, hv, hprog, hwords⟩ := run_alone hbody
  rw [words_start] at hprog hwords
  exact ⟨es, honly, ⟨he, hv⟩, hprog, hwords⟩

/-- One contract a thread, such that each thread's promises are within what every other
thread relies on. -/
structure Discipline (S : System.{u, v, w} ι σ Res) (γ : ι → Type*) where
  contract : (i : ι) → Contract (γ i) σ Op
  post : (i : ι) → γ i → S.Local i → σ → Prop
  body_safe : ∀ i g a m inp, (contract i).inv g m → post i g a m →
    Safe S.mem (contract i) (post i) g (S.body i a inp) m
  compat : ∀ i j, i ≠ j → ∀ g m o, (contract i).guar g m o →
    (contract j).rely m (S.mem.update m o)

variable {γ : ι → Type*} (D : Discipline S γ)

def Discipline.track (g : (i : ι) → γ i) : Event S → (i : ι) → γ i
  | .start _ _ => g
  | .access i o => Function.update g i ((D.contract i).mon (g i) o)

def Discipline.Kept (s : State S × ((i : ι) → γ i)) : Prop :=
  ∀ i, (D.contract i).inv (s.2 i) s.1.words ∧
    Safe S.mem (D.contract i) (D.post i) (s.2 i) (s.1.prog i) s.1.words

variable {D}

theorem Discipline.Kept.guarantee {s : State S × ((i : ι) → γ i)} (h : D.Kept s) {i : ι}
    {o : Op} (he : S.machine.enabled s.1 (.access i o)) :
    (D.contract i).guar (s.2 i) s.1.words o := by
  obtain ⟨k, hk⟩ := access_enabled he
  obtain ⟨hi, hs⟩ := h i
  rw [hk] at hs
  exact (hs s.1.words ((D.contract i).refl _) hi).1

omit [DecidableEq ι] in
theorem Discipline.Kept.post {s : State S × ((i : ι) → γ i)} (h : D.Kept s) {i : ι}
    {a : S.Local i} (hr : s.1.prog i = .ret a) : D.post i (s.2 i) a s.1.words := by
  obtain ⟨hi, hs⟩ := h i
  rw [hr] at hs
  exact hs s.1.words ((D.contract i).refl _) hi

/-- The parallel rule: a step of any thread keeps every thread's contract. -/
theorem Discipline.Kept.next {s : State S × ((i : ι) → γ i)} (h : D.Kept s) {e : Event S}
    (he : S.machine.enabled s.1 e) :
    D.Kept (((S.machine).observe D.track).next s e) := by
  obtain ⟨s, g⟩ := s
  intro j
  cases e with
  | start i inp =>
    obtain ⟨a, ha⟩ := start_enabled he
    simp only [Machine.observe, Discipline.track, next_start ha]
    refine ⟨(h j).1, ?_⟩
    by_cases hj : j = i
    · subst j
      rw [Function.update_self]
      exact D.body_safe i (g i) a s.words inp (h i).1 (h.post ha)
    · rw [Function.update_of_ne hj]
      exact (h j).2
  | access i o =>
    obtain ⟨k, hk⟩ := access_enabled he
    have hg := h.guarantee he
    obtain ⟨hi, hs⟩ := h i
    rw [hk] at hs
    obtain ⟨_, hi', hs'⟩ := hs s.words ((D.contract i).refl _) hi
    simp only [Machine.observe, Discipline.track, next_access hk]
    by_cases hj : j = i
    · subst j
      rw [Function.update_self, Function.update_self]
      exact ⟨hi', hs'⟩
    · rw [Function.update_of_ne hj, Function.update_of_ne hj]
      have hr := D.compat i j (Ne.symm hj) (g i) s.words o hg
      exact ⟨(D.contract j).stable hr (h j).1, (h j).2.interfere hr⟩

theorem Discipline.Kept.safe_next {s : State S × ((i : ι) → γ i)} (h : D.Kept s) {e : Event S}
    (he : S.machine.enabled s.1 e) {i : ι} (hstart : ∀ inp, e ≠ .start i inp)
    {Q : γ i → S.Local i → σ → Prop}
    (hs : Safe S.mem (D.contract i) Q (s.2 i) (s.1.prog i) s.1.words) :
    Safe S.mem (D.contract i) Q (D.track s.2 e i) ((S.machine.next s.1 e).prog i)
      (S.machine.next s.1 e).words := by
  cases e with
  | start j inp =>
    have haccess : ∀ o, (.start j inp : Event S) ≠ .access i o := fun o ho => by cases ho
    rw [words_start, prog_next_other he hstart haccess]
    exact hs
  | access j o =>
    obtain ⟨k, hk⟩ := access_enabled he
    by_cases hj : i = j
    · subst hj
      rw [hk] at hs
      obtain ⟨_, _, hs'⟩ := hs s.1.words ((D.contract i).refl _) (h i).1
      simp only [Discipline.track, next_access hk, Function.update_self]
      exact hs'
    · have hr := D.compat j i (Ne.symm hj) (s.2 j) s.1.words o (h.guarantee he)
      simp only [Discipline.track, next_access hk, Function.update_of_ne hj]
      exact hs.interfere hr

theorem Discipline.kept_run {s : State S} {g : (i : ι) → γ i} {es : List (Event S)}
    (h : D.Kept (s, g)) (hv : S.machine.Valid s es) :
    D.Kept (S.machine.run s es, es.foldl D.track g) := by
  rw [← observe_run]
  exact invariant (fun _ _ hk he => hk.next he) h (observe_valid hv)

/-- A round that is safe with a postcondition of its own ends in it, whatever the other
threads do meanwhile. -/
theorem Discipline.round_post {s : State S} {g : (i : ι) → γ i} (h : D.Kept (s, g)) {i : ι}
    {a b : S.Local i} {inp : S.Input i} {Q : γ i → S.Local i → σ → Prop} {es : List (Event S)}
    (ha : s.prog i = .ret a)
    (hbody : Safe S.mem (D.contract i) Q (g i) (S.body i a inp) s.words)
    (hv : S.machine.Valid s (.start i inp :: es)) (hstart : ∀ inp', .start i inp' ∉ es)
    (hdone : (S.machine.run s (.start i inp :: es)).prog i = .ret b) :
    ∃ g', (D.contract i).inv g' (S.machine.run s (.start i inp :: es)).words ∧
      Q g' b (S.machine.run s (.start i inp :: es)).words := by
  let J : State S × ((i : ι) → γ i) → Prop := fun x =>
    D.Kept x ∧ Safe S.mem (D.contract i) Q (x.2 i) (x.1.prog i) x.1.words
  have hfirst : J (S.machine.next s (.start i inp), g) := by
    refine ⟨h.next hv.1, ?_⟩
    simp only [next_start ha, Function.update_self]
    exact hbody
  have hstep : ∀ x e, J x → (S.machine.observe D.track).enabled x e →
      (∀ inp', e ≠ .start i inp') → J ((S.machine.observe D.track).next x e) :=
    fun x e hx he hne => ⟨hx.1.next he, hx.1.safe_next he hne hx.2⟩
  obtain ⟨hkept, hsafe⟩ := invariant_along hstep hfirst (observe_valid hv.2)
    (along_of_forall fun e he _ inp' heq => hstart inp' (heq ▸ he))
  rw [observe_run] at hkept hsafe
  have hinv := (hkept i).1
  simp only [show (S.machine.run (S.machine.next s (.start i inp)) es).prog i = .ret b from hdone]
    at hsafe
  exact ⟨_, hinv, hsafe _ ((D.contract i).refl _) hinv⟩

/-- What follows of a step that all threads keep their contracts at, follows of every
step of a run. -/
theorem Discipline.kept_along {s : State S} {g : (i : ι) → γ i} {es : List (Event S)}
    {Q : State S → Event S → Prop} (h : D.Kept (s, g)) (hv : S.machine.Valid s es)
    (hq : ∀ s e, D.Kept s → S.machine.enabled s.1 e → Q s.1 e) : S.machine.Along Q s es := by
  have hkept : ∀ s e, D.Kept s → (S.machine.observe D.track).enabled s e → True →
      D.Kept ((S.machine.observe D.track).next s e) := fun _ _ hk he _ => hk.next he
  have hsteps := along_of_invariant (C := fun _ _ => True) hkept h (observe_valid hv)
    (along_of_forall (fun _ _ _ => trivial))
  exact observe_along (fun s e hs => hq s e hs.1 hs.2.1) hsteps

end AtomicProgram
