import So101.Lib.Batch
import So101.TickConversion

/-!
# Live tuning of the bridge

`on_params` checks and assigns the parameters of one call in a single pass, so a parameter
that is rejected does not undo the ones before it.
-/
namespace BridgeParameters
open TickConversion (TickToRad)

variable {V : Type*}

/-- The two converters of `So101Bridge`. -/
structure So101Bridge (V : Type*) where
  fConv : TickToRad V
  lConv : TickToRad V

inductive Side | f | l
  deriving DecidableEq

inductive Attr | signs | offsets | gripperRad
  deriving DecidableEq

abbrev Target := Side × Attr

/-- `value` is the list that `list(prm.value)` gives; some values are not iterable. -/
structure Parameter (V : Type*) where
  name : String
  value : Option (List V)

structure SetParametersResult where
  successful : Bool
  reason : String
  deriving DecidableEq

def targets : List (String × Target) :=
  [("follower_signs", .f, .signs), ("follower_offsets", .f, .offsets),
    ("follower_gripper_rad", .f, .gripperRad), ("leader_signs", .l, .signs),
    ("leader_offsets", .l, .offsets), ("leader_gripper_rad", .l, .gripperRad)]

def Attr.width : Attr → ℕ
  | .gripperRad => 2
  | _ => 6

def tuple : List V → Option (V × V)
  | [closed, opened] => some (closed, opened)
  | _ => none

def setConv (conv : TickToRad V) (attr : Attr) (v : List V) : TickToRad V :=
  match attr with
  | .signs => { conv with signs := v }
  | .offsets => { conv with offsets := v }
  | .gripperRad => { conv with gripperRad := tuple v }

def So101Bridge.setattr (b : So101Bridge V) (t : Target) (v : List V) : So101Bridge V :=
  match t.1 with
  | .f => { b with fConv := setConv b.fConv t.2 v }
  | .l => { b with lConv := setConv b.lConv t.2 v }

/-- `on_params`: the bridge afterwards, and the result or the exception. -/
def onParams (b : So101Bridge V) :
    List (Parameter V) → So101Bridge V × Except String SetParametersResult
  | [] => (b, .ok ⟨true, ""⟩)
  | prm :: params =>
    match targets.lookup prm.name with
    | none => onParams b params
    | some t =>
      match prm.value with
      | none => (b, .error "TypeError")
      | some v =>
        if v.length ≠ t.2.width then (b, .ok ⟨false, "wrong length"⟩)
        else onParams (b.setattr t v) params

def getConv (conv : TickToRad V) : Attr → List V
  | .signs => conv.signs
  | .offsets => conv.offsets
  | .gripperRad => conv.gripperRad.elim [] fun g => [g.1, g.2]

def So101Bridge.conv (b : So101Bridge V) : Side → TickToRad V
  | .f => b.fConv
  | .l => b.lConv

def So101Bridge.attr (b : So101Bridge V) (t : Target) : List V := getConv (b.conv t.1) t.2

theorem get_set_conv (conv : TickToRad V) (attr a : Attr) {v : List V}
    (hv : v.length = attr.width) :
    getConv (setConv conv attr v) a = if attr = a then v else getConv conv a := by
  cases attr with
  | signs => cases a <;> rfl
  | offsets => cases a <;> rfl
  | gripperRad =>
    obtain ⟨closed, opened, rfl⟩ := List.length_eq_two.mp hv
    cases a <;> rfl

theorem attr_setattr (b : So101Bridge V) (t t' : Target) {v : List V}
    (hv : v.length = t.2.width) :
    (b.setattr t v).attr t' = if t = t' then v else b.attr t' := by
  obtain ⟨side, attr⟩ := t
  obtain ⟨side', attr'⟩ := t'
  have hget := fun conv : TickToRad V => get_set_conv conv attr attr' hv
  cases side <;> cases side' <;>
    simp [So101Bridge.attr, So101Bridge.setattr, So101Bridge.conv, hget]

theorem ranges_setattr (b : So101Bridge V) (t : Target) (v : List V) (side : Side) :
    ((b.setattr t v).conv side).ranges = (b.conv side).ranges := by
  obtain ⟨side', attr⟩ := t
  cases side <;> cases side' <;> cases attr <;> rfl

theorem conv_ext {conv conv' : TickToRad V} (hranges : conv.ranges = conv'.ranges)
    (hget : ∀ a, getConv conv a = getConv conv' a) : conv = conv' := by
  obtain ⟨ranges, signs, offsets, gripperRad⟩ := conv
  obtain ⟨ranges', signs', offsets', gripperRad'⟩ := conv'
  have hsigns : signs = signs' := hget .signs
  have hoffsets : offsets = offsets' := hget .offsets
  have hgripper : gripperRad = gripperRad' := by
    have h := hget .gripperRad
    cases gripperRad <;> cases gripperRad' <;> simp_all [getConv, Prod.ext_iff]
  cases hranges
  rw [hsigns, hoffsets, hgripper]

theorem bridge_ext {b b' : So101Bridge V}
    (hranges : ∀ side, (b.conv side).ranges = (b'.conv side).ranges)
    (hattr : ∀ t, b.attr t = b'.attr t) : b = b' := by
  obtain ⟨fConv, lConv⟩ := b
  obtain ⟨fConv', lConv'⟩ := b'
  have hf : fConv = fConv' := conv_ext (hranges .f) fun a => hattr (.f, a)
  have hl : lConv = lConv' := conv_ext (hranges .l) fun a => hattr (.l, a)
  rw [hf, hl]

def Parameter.refusal (prm : Parameter V) : Option (Except String SetParametersResult) :=
  match targets.lookup prm.name with
  | none => none
  | some t =>
    match prm.value with
    | none => some (.error "TypeError")
    | some v => if v.length ≠ t.2.width then some (.ok ⟨false, "wrong length"⟩) else none

def Parameter.given (prm : Parameter V) (t : Target) : Option (List V) :=
  if targets.lookup prm.name = some t then prm.value else none

def assign (b : So101Bridge V) (prm : Parameter V) : So101Bridge V :=
  match targets.lookup prm.name, prm.value with
  | some t, some v => b.setattr t v
  | _, _ => b

/-- `on_params` is a batch of assignments. -/
theorem on_params_eq_run (b : So101Bridge V) (params : List (Parameter V)) :
    onParams b params = ((Batch.run Parameter.refusal assign b params).1,
      (Batch.run Parameter.refusal assign b params).2.getD (.ok ⟨true, ""⟩)) := by
  induction params generalizing b with
  | nil => rfl
  | cons prm params ih =>
    rcases hname : targets.lookup prm.name with _ | t
    · simp [onParams, Batch.run, Parameter.refusal, assign, hname, ih]
    · rcases hvalue : prm.value with _ | v
      · simp [onParams, Batch.run, Parameter.refusal, hname, hvalue]
      · by_cases hv : v.length = t.2.width
        · simp [onParams, Batch.run, Parameter.refusal, assign, hname, hvalue, hv, ih]
        · simp [onParams, Batch.run, Parameter.refusal, hname, hvalue, hv]

theorem attr_assign {prm : Parameter V} (hprm : prm.refusal = none) (b : So101Bridge V)
    (t : Target) : (assign b prm).attr t = (prm.given t).getD (b.attr t) := by
  simp only [Parameter.refusal] at hprm
  rcases hname : targets.lookup prm.name with _ | t'
  · simp [assign, Parameter.given, hname]
  · rcases hvalue : prm.value with _ | v
    · simp [hname, hvalue] at hprm
    · have hv : v.length = t'.2.width := by simpa [hname, hvalue] using hprm
      simp only [assign, Parameter.given, hname, hvalue, attr_setattr b t' t hv,
        Option.some.injEq]
      split <;> rfl

theorem ranges_assign (b : So101Bridge V) (prm : Parameter V) (side : Side) :
    ((assign b prm).conv side).ranges = (b.conv side).ranges := by
  rcases hname : targets.lookup prm.name with _ | t
  · simp [assign, hname]
  · rcases hvalue : prm.value with _ | v
    · simp [assign, hname, hvalue]
    · simp [assign, hname, hvalue, ranges_setattr]

theorem ranges_foldl (params : List (Parameter V)) (b : So101Bridge V) (side : Side) :
    ((params.foldl assign b).conv side).ranges = (b.conv side).ranges := by
  induction params generalizing b with
  | nil => rfl
  | cons prm params ih => rw [List.foldl_cons, ih, ranges_assign]

def lastValue (t : Target) (params : List (Parameter V)) : Option (List V) :=
  Batch.lastWrite Parameter.given t params

theorem attr_foldl {params : List (Parameter V)}
    (hparams : Batch.Accepted Parameter.refusal params) (b : So101Bridge V) (t : Target) :
    (params.foldl assign b).attr t = (lastValue t params).getD (b.attr t) :=
  Batch.read_foldl (fun prm hprm b t => attr_assign (hparams prm hprm) b t) b t

/-- Accepted parameters change nothing exactly if they give what was there. -/
theorem foldl_eq_iff {params : List (Parameter V)}
    (hparams : Batch.Accepted Parameter.refusal params) (b : So101Bridge V) :
    params.foldl assign b = b ↔ ∀ t, ∀ v ∈ lastValue t params, v = b.attr t := by
  have hread : ∀ t, (params.foldl assign b).attr t = b.attr t ↔
      ∀ v ∈ lastValue t params, v = b.attr t := fun t =>
    Batch.read_foldl_eq_iff (fun prm hprm b t => attr_assign (hparams prm hprm) b t) b t
  constructor
  · intro heq t
    exact (hread t).mp (congrArg (·.attr t) heq)
  · intro hgiven
    exact bridge_ext (ranges_foldl params b) fun t => (hread t).mpr (hgiven t)

/-- A rejected call leaves the bridge alone; a successful one gives every target the last
value meant for it and changes nothing else. -/
def Atomic (b : So101Bridge V) (params : List (Parameter V)) : Prop :=
  ∀ result, (onParams b params).2 = .ok result →
    (result.successful = false → (onParams b params).1 = b) ∧
    (result.successful = true →
      (∀ t, (onParams b params).1.attr t = (lastValue t params).getD (b.attr t)) ∧
      ∀ side, ((onParams b params).1.conv side).ranges = (b.conv side).ranges)

def NothingToUndo (b : So101Bridge V) (params : List (Parameter V)) : Prop :=
  ∀ pre prm post, params = pre ++ prm :: post → Batch.Accepted Parameter.refusal pre →
    prm.refusal = some (.ok ⟨false, "wrong length"⟩) →
    ∀ t, ∀ v ∈ lastValue t pre, v = b.attr t

theorem on_params_accepted {params : List (Parameter V)}
    (hparams : Batch.Accepted Parameter.refusal params) (b : So101Bridge V) :
    onParams b params = (params.foldl assign b, .ok ⟨true, ""⟩) := by
  rw [on_params_eq_run, Batch.run_accepted hparams]
  rfl

theorem on_params_refused {pre : List (Parameter V)} {prm : Parameter V}
    {r : Except String SetParametersResult} (hpre : Batch.Accepted Parameter.refusal pre)
    (hprm : prm.refusal = some r) (b : So101Bridge V) (post : List (Parameter V)) :
    onParams b (pre ++ prm :: post) = (pre.foldl assign b, r) := by
  rw [on_params_eq_run, Batch.run_refused hpre hprm]
  rfl

theorem refusal_cases {prm : Parameter V} {r : Except String SetParametersResult}
    (hprm : prm.refusal = some r) : r = .error "TypeError" ∨ r = .ok ⟨false, "wrong length"⟩ := by
  simp only [Parameter.refusal] at hprm
  rcases hname : targets.lookup prm.name with _ | t
  · simp [hname] at hprm
  · rcases hvalue : prm.value with _ | v
    · exact .inl (by simpa [hname, hvalue] using hprm.symm)
    · right
      simp only [hname, hvalue] at hprm
      split at hprm
      · exact (Option.some.inj hprm).symm
      · cases hprm

/-- Updates are atomic exactly if there is nothing to undo. -/
theorem atomic_update_iff (b : So101Bridge V) (params : List (Parameter V)) :
    Atomic b params ↔ NothingToUndo b params := by
  constructor
  · rintro hatomic pre prm post rfl hpre hprm
    have hrun := on_params_refused hpre hprm b post
    have hkept := (hatomic ⟨false, "wrong length"⟩ (by rw [hrun])).1 rfl
    rw [hrun] at hkept
    exact (foldl_eq_iff hpre b).mp hkept
  · intro hundo result hresult
    rcases Batch.accepted_or_refused Parameter.refusal params with
      hall | ⟨pre, prm, post, r, rfl, hpre, hr⟩
    · rw [on_params_accepted hall] at hresult ⊢
      cases hresult
      exact ⟨fun h => absurd h (by decide),
        fun _ => ⟨attr_foldl hall b, ranges_foldl params b⟩⟩
    · rw [on_params_refused hpre hr] at hresult ⊢
      rcases refusal_cases hr with rfl | rfl
      · cases hresult
      · cases hresult
        have hkept := (foldl_eq_iff hpre b).mpr (hundo pre prm post rfl hpre hr)
        exact ⟨fun _ => hkept, fun h => absurd h (by decide)⟩

/-- The signs are turned although the call is rejected for the offsets. -/
theorem rejected_update_kept :
    let conv : TickToRad ℤ :=
      ⟨List.replicate 6 (0, 4095), List.replicate 6 1, List.replicate 6 0, some (0, 1)⟩
    let params : List (Parameter ℤ) :=
      [⟨"follower_signs", some (List.replicate 6 (-1))⟩, ⟨"follower_offsets", some [0]⟩]
    (onParams ⟨conv, conv⟩ params).2 = .ok ⟨false, "wrong length"⟩ ∧
      (onParams ⟨conv, conv⟩ params).1.fConv.signs = List.replicate 6 (-1) ∧
      ¬ Atomic ⟨conv, conv⟩ params := by
  intro conv params
  have hresult : (onParams ⟨conv, conv⟩ params).2 = .ok ⟨false, "wrong length"⟩ := rfl
  have hsigns : (onParams ⟨conv, conv⟩ params).1.fConv.signs = List.replicate 6 (-1) := rfl
  refine ⟨hresult, hsigns, fun hatomic => ?_⟩
  have hkept := (hatomic _ hresult).1 rfl
  rw [hkept] at hsigns
  cases hsigns

end BridgeParameters
