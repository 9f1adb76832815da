import Whitespace.Proofs.Frame

/-!
Limits only cut runs short. Under wider limits the machine takes the same steps until the narrower
ones stop it, and being stopped touches no data. So a run that no limit stops is the same under all
wider limits, and one that is stopped has written the beginning of what it would have written. A
limit on the steps ends every run.
-/
namespace Whitespace

/-- Whether a limit raises the fault. -/
def Fault.isLimit : Fault → Bool
  | .stepLimit _ | .stackLimit _ | .callDepthExceeded _ => true
  | _ => false

/-- Every limit of `b` is at least that of `a`. No limit on the steps is more than any. -/
structure Limits.Within (a b : Limits) : Prop where
  maxSteps : ∀ k, b.maxSteps = some k → ∃ j, a.maxSteps = some j ∧ j ≤ k
  maxCallDepth : a.maxCallDepth ≤ b.maxCallDepth
  maxStackSize : a.maxStackSize ≤ b.maxStackSize

def Data.written (d : Data) : List UInt8 := d.output.written.toList

def DataStep.written : DataStep → List UInt8
  | .done d | .fault _ d => d.written

namespace Progress

def written (p : Progress) : List UInt8 := p.machine.data.written

/-- Whether a limit has stopped the run. -/
def isLimited : Progress → Bool
  | .faulted f _ => f.isLimit
  | _ => false

end Progress

/-- What is written stays written. -/
theorem Data.Outcome.prefix_written {effect : Effect} {reads : Bool} {d : Data} {s : DataStep}
    (h : Outcome effect reads d s) : d.written <+: s.written := by
  cases h with
  | done | stored | failed => exact List.prefix_refl d.written
  | wrote | overfull => simp [DataStep.written, Data.written, Output.write]

namespace Machine

variable {a b limits : Limits} {ops : Array Op} {m m' : Machine}

/-- The run from `m` ends, and this is where it stands. -/
def Finishes (limits : Limits) (ops : Array Op) (m : Machine) (p : Progress) : Prop :=
  ∃ n, m.runFor limits ops n = p ∧ p.ending?.isSome = true

/-- Whether the next step executes an op: there is one, and no limit stops it. -/
def executes (limits : Limits) (ops : Array Op) (m : Machine) : Bool :=
  ops[m.address]?.isSome && ({ m with steps := m.steps + 1 }.exceeded? limits).isNone

/-- How many ops are executed in at most `n` steps. -/
def executed (limits : Limits) (ops : Array Op) : Nat → Machine → Nat
  | 0, _ => 0
  | n + 1, m =>
    (if m.executes limits ops then 1 else 0) +
      match m.step limits ops with
      | .running m => executed limits ops n m
      | _ => 0

theorem isLimit_of_exceeded? {f : Fault} (h : m.exceeded? limits = some f) : f.isLimit = true := by
  rw [exceeded?] at h
  split at h
  · split at h
    · cases h; rfl
    · split at h
      · cases h; rfl
      · cases h
  · split at h
    · cases h; rfl
    · cases h

theorem exceeded?_eq_none_iff :
    m.exceeded? limits = none ↔
      (∀ k, limits.maxSteps = some k → m.steps ≤ k) ∧ m.data.stack.depth ≤ limits.maxStackSize := by
  rw [exceeded?]
  cases limits.maxSteps with
  | none => simp
  | some k =>
    by_cases hsteps : k < m.steps
    · simp [hsteps, Nat.not_le.mpr hsteps]
    · simp [hsteps, Nat.le_of_not_lt hsteps]

theorem step_eq_exec {op : Op} (hop : ops[m.address]? = some op)
    (hlimits : { m with steps := m.steps + 1 }.exceeded? limits = none) :
    m.step limits ops = { m with steps := m.steps + 1 }.exec limits ops.size op := by
  rw [step, hop]
  dsimp only
  rw [hlimits]

theorem exceeded?_of_within (h : a.Within b) (hnone : m.exceeded? a = none) :
    m.exceeded? b = none := by
  obtain ⟨hsteps, hstack⟩ := exceeded?_eq_none_iff.mp hnone
  refine exceeded?_eq_none_iff.mpr ⟨fun k hk => ?_, Nat.le_trans hstack h.maxStackSize⟩
  obtain ⟨j, hj, hjk⟩ := h.maxSteps k hk
  exact Nat.le_trans (hsteps j hj) hjk

/-- Only a call looks at a limit while it is executed. -/
theorem exec_of_within (h : a.Within b) (size : Nat) (m : Machine) (op : Op) :
    m.exec a size op = m.exec b size op ∨
      ∃ f, f.isLimit = true ∧ m.exec a size op = .faulted f m := by
  cases op with
  | pushReturn site =>
    change m.pushReturn a site = m.pushReturn b site ∨ ∃ f, _ ∧ m.pushReturn a site = _
    rw [pushReturn, pushReturn]
    by_cases hfull : a.maxCallDepth ≤ m.returns.depth
    · exact .inr ⟨_, rfl, if_pos hfull⟩
    · have hroom : ¬ b.maxCallDepth ≤ m.returns.depth :=
        fun hb => hfull (Nat.le_trans h.maxCallDepth hb)
      rw [if_neg hfull, if_neg hroom]
      exact .inl rfl
  | _ => exact .inl rfl

/-- Under the narrower limits a step is the same, or it stops the run and touches no data. -/
theorem step_of_within (h : a.Within b) (ops : Array Op) (m : Machine) :
    m.step a ops = m.step b ops ∨
      ∃ f m', f.isLimit = true ∧ m.step a ops = .faulted f m' ∧ m'.data = m.data := by
  rw [step, step]
  cases ops[m.address]? with
  | none => exact .inl rfl
  | some op =>
    dsimp only
    cases ha : { m with steps := m.steps + 1 }.exceeded? a with
    | some f => exact .inr ⟨f, _, isLimit_of_exceeded? ha, rfl, rfl⟩
    | none =>
      rw [exceeded?_of_within h ha]
      rcases exec_of_within h ops.size { m with steps := m.steps + 1 } op with
        hsame | ⟨f, hf, hexec⟩
      · exact .inl hsame
      · exact .inr ⟨f, _, hf, hexec, rfl⟩

/-- Under the narrower limits a run is the same, or it was stopped with the data of a machine that
the run under the wider ones passes through. -/
theorem runFor_of_within (h : a.Within b) (ops : Array Op) (n : Nat) (m : Machine) :
    m.runFor a ops n = m.runFor b ops n ∨
      ∃ f m' k passed, f.isLimit = true ∧ m.runFor a ops n = .faulted f m' ∧
        m.runFor b ops k = .running passed ∧ m'.data = passed.data := by
  induction n generalizing m with
  | zero => exact .inl rfl
  | succ n ih =>
    rcases step_of_within h ops m with hsame | ⟨f, m', hf, hstep, hdata⟩
    · rcases running_or_ended (m.step a ops) with ⟨m₁, ha⟩ | ⟨e, ha⟩
      · have hb : m.step b ops = .running m₁ := hsame ▸ ha
        rw [runFor_succ_of_running ha, runFor_succ_of_running hb]
        rcases ih m₁ with hrun | ⟨f, m', k, passed, hf, hrun, hpassed, hdata⟩
        · exact .inl hrun
        · exact .inr ⟨f, m', k + 1, passed, hf, hrun,
            (runFor_succ_of_running hb k).trans hpassed, hdata⟩
      · have hb : (m.step b ops).ending? = some e := hsame ▸ ha
        rw [runFor_succ_of_ended ha, runFor_succ_of_ended hb]
        exact .inl hsame
    · refine .inr ⟨f, m', 0, m, hf, ?_, rfl, hdata⟩
      rw [runFor_succ_of_ended (e := ⟨some f, m'.data, m'.returns.depth⟩) (by rw [hstep]; rfl),
        hstep]

theorem prefix_perform {op : Op} (h : op.family ≠ .flow) (m : Machine) :
    m.data.written <+: (m.perform op).written := by
  have happly := (m.data.outcome_apply h).prefix_written
  rw [perform]
  split
  · next hstep => rw [hstep] at happly; exact happly
  · next hstep => rw [hstep] at happly; exact happly

theorem Framed.written {op : Op} (h : m.Framed op m') (hflow : op.family = .flow) :
    m'.data.written = m.data.written := by
  obtain ⟨stack, hdata⟩ := h.data hflow
  rw [hdata]
  rfl

theorem prefix_exec (limits : Limits) (size : Nat) (m : Machine) (op : Op) :
    m.data.written <+: (m.exec limits size op).written := by
  by_cases hflow : op.family = .flow
  · have hmoves := moves_exec limits size m op
    generalize m.exec limits size op = p at hmoves
    cases p with
    | running m' => exact (hmoves.written hflow).symm ▸ List.prefix_refl _
    | halted m' => exact hmoves.1 ▸ List.prefix_refl _
    | faulted f m' => exact (hmoves.1.written hflow).symm ▸ List.prefix_refl _
  · rw [exec_of_data hflow]
    exact prefix_perform hflow m

theorem prefix_step (limits : Limits) (ops : Array Op) (m : Machine) :
    m.data.written <+: (m.step limits ops).written := by
  rw [step]
  split
  · exact List.prefix_refl _
  · dsimp only
    split
    · exact List.prefix_refl _
    · exact prefix_exec limits ops.size { m with steps := m.steps + 1 } _

theorem prefix_runFor (limits : Limits) (ops : Array Op) (n : Nat) (m : Machine) :
    m.data.written <+: (m.runFor limits ops n).written := by
  induction n generalizing m with
  | zero => exact List.prefix_refl _
  | succ n ih =>
    have hstep := prefix_step limits ops m
    rw [runFor]
    split
    · next m' hrunning =>
      rw [hrunning] at hstep
      exact hstep.trans (ih m')
    · exact hstep

/-- A step that goes on has executed an op, and counted it. -/
theorem executes_of_running (h : m.step limits ops = .running m') :
    m.executes limits ops = true ∧ m'.steps = m.steps + 1 := by
  rw [step] at h
  split at h
  · cases h
  · next op hop =>
    dsimp only at h
    split at h
    · cases h
    · next hnone =>
      have hmoves := moves_exec limits ops.size { m with steps := m.steps + 1 } op
      rw [h] at hmoves
      exact ⟨by simp [executes, hop, hnone], hmoves.steps⟩

theorem steps_lt_of_executes {k : Nat} (hk : limits.maxSteps = some k)
    (h : m.executes limits ops = true) : m.steps < k := by
  simp only [executes, Bool.and_eq_true, Option.isNone_iff_eq_none] at h
  exact (exceeded?_eq_none_iff.mp h.2).1 k hk

theorem executed_succ_of_running (h : m.step limits ops = .running m') (n : Nat) :
    m.executed limits ops (n + 1) =
      (if m.executes limits ops then 1 else 0) + m'.executed limits ops n := by
  rw [executed, h]

theorem executed_succ_of_ended {e : Ending} (h : (m.step limits ops).ending? = some e) (n : Nat) :
    m.executed limits ops (n + 1) = if m.executes limits ops then 1 else 0 := by
  rw [executed]
  cases hstep : m.step limits ops with
  | running m' => rw [hstep] at h; cases h
  | halted m' => rfl
  | faulted f m' => rfl

theorem executed_le {k : Nat} (hk : limits.maxSteps = some k) (ops : Array Op) (n : Nat)
    (hm : m.steps ≤ k) : m.executed limits ops n + m.steps ≤ k := by
  induction n generalizing m with
  | zero => simpa [executed] using hm
  | succ n ih =>
    rcases running_or_ended (m.step limits ops) with ⟨m', hstep⟩ | ⟨e, hstep⟩
    · obtain ⟨hexecutes, hsteps⟩ := executes_of_running hstep
      have hlt := steps_lt_of_executes hk hexecutes
      have hrest := ih (m := m') (by omega)
      rw [executed_succ_of_running hstep, if_pos hexecutes]
      omega
    · rw [executed_succ_of_ended hstep]
      split
      · next hexecutes =>
        have hlt := steps_lt_of_executes hk hexecutes
        omega
      · omega

theorem ended_of_maxSteps {k : Nat} (hk : limits.maxSteps = some k) (ops : Array Op) {n : Nat}
    (hm : m.steps ≤ k) (hn : k < m.steps + n) :
    ∃ e, (m.runFor limits ops n).ending? = some e := by
  induction n generalizing m with
  | zero => omega
  | succ n ih =>
    rcases running_or_ended (m.step limits ops) with ⟨m', hstep⟩ | ⟨e, hstep⟩
    · obtain ⟨hexecutes, hsteps⟩ := executes_of_running hstep
      have hlt := steps_lt_of_executes hk hexecutes
      rw [runFor_succ_of_running hstep]
      exact ih (by omega) (by omega)
    · exact ⟨e, by rw [runFor_succ_of_ended hstep, hstep]⟩

theorem Finishes.unique {p q : Progress} (hp : Finishes limits ops m p)
    (hq : Finishes limits ops m q) : p = q := by
  obtain ⟨n, rfl, hpended⟩ := hp
  obtain ⟨k, rfl, hqended⟩ := hq
  obtain ⟨e, he⟩ := Option.isSome_iff_exists.mp hpended
  obtain ⟨e', he'⟩ := Option.isSome_iff_exists.mp hqended
  rw [← runFor_add_of_ended he k, Nat.add_comm, runFor_add_of_ended he']

theorem Finishes.of_within {p : Progress} (h : a.Within b) (hp : Finishes a ops m p)
    (hfree : p.isLimited = false) : Finishes b ops m p := by
  obtain ⟨n, rfl, hended⟩ := hp
  rcases runFor_of_within h ops n m with hsame | ⟨f, m', _, _, hf, hrun, _⟩
  · exact ⟨n, hsame.symm, hended⟩
  · rw [hrun, Progress.isLimited, hf] at hfree
    cases hfree

/-- Once it has ended, a run has written all that any machine on its way has written. -/
theorem Finishes.prefix_of_running {p : Progress} {k : Nat} (hp : Finishes limits ops m p)
    (hk : m.runFor limits ops k = .running m') : m'.data.written <+: p.written := by
  obtain ⟨n, rfl, hended⟩ := hp
  obtain ⟨e, he⟩ := Option.isSome_iff_exists.mp hended
  rw [← runFor_add_of_ended he k, Nat.add_comm, runFor_add_of_running hk]
  exact prefix_runFor limits ops n m'

theorem Finishes.prefix_of_within {p q : Progress} (h : a.Within b) (hp : Finishes a ops m p)
    (hq : Finishes b ops m q) : p.written <+: q.written := by
  obtain ⟨n, rfl, hended⟩ := hp
  rcases runFor_of_within h ops n m with hsame | ⟨f, m', k, passed, _, hrun, hpassed, hdata⟩
  · have heq := Finishes.unique ⟨n, hsame.symm, hended⟩ hq
    exact heq ▸ List.prefix_refl _
  · rw [hrun, Progress.written, Progress.machine, hdata]
    exact hq.prefix_of_running hpassed

/-- Of two limits the wider one changes nothing in a run that the narrower one lets end, and a run
that the narrower one stops has written the beginning of what the wider one lets it write. A run of
at most `k` steps ends and executes at most `k` ops. -/
theorem limits_only_cut_short (h : a.Within b) (ops : Array Op) (input : List UInt8)
    (output : Output) :
    (∀ p, Finishes a ops (fresh input output) p → p.isLimited = false →
      Finishes b ops (fresh input output) p) ∧
    (∀ p q, Finishes a ops (fresh input output) p → p.isLimited = true →
      Finishes b ops (fresh input output) q → p.written <+: q.written) ∧
    ∀ k, a.maxSteps = some k →
      (∃ p, Finishes a ops (fresh input output) p) ∧
        ∀ n, (fresh input output).executed a ops n ≤ k := by
  refine ⟨fun p hp hfree => hp.of_within h hfree, fun p q hp _ hq => hp.prefix_of_within h hq, ?_⟩
  intro k hk
  have hstart : (fresh input output).steps ≤ k := Nat.zero_le k
  obtain ⟨e, he⟩ := ended_of_maxSteps hk ops hstart (n := k + 1) (by change k < 0 + _; omega)
  refine ⟨⟨_, k + 1, rfl, by rw [he]; rfl⟩, fun n => ?_⟩
  exact executed_le hk ops n hstart

/-- Writes 1 and then 2. -/
def twoNumbers : Array Op := #[.push 1, .writeNumber, .push 2, .writeNumber, .halt]

theorem twoNumbers_cut_short :
    Limits.Within ⟨some 3, 0, 1⟩ .standard ∧
      ∃ p q, Finishes ⟨some 3, 0, 1⟩ twoNumbers (fresh [] .unlimited) p ∧ p.isLimited = true ∧
        p.written = [49] ∧ Finishes .standard twoNumbers (fresh [] .unlimited) q ∧
        q.isLimited = false ∧ q.written = [49, 50] ∧ p.written <+: q.written ∧
        Finishes ⟨none, 10000, 2000000⟩ twoNumbers (fresh [] .unlimited) q ∧
        ∀ n, (fresh [] .unlimited).executed ⟨some 3, 0, 1⟩ twoNumbers n ≤ 3 := by
  have hnarrow : Limits.Within ⟨some 3, 0, 1⟩ .standard := ⟨nofun, by decide, by decide⟩
  have hwide : Limits.Within .standard ⟨none, 10000, 2000000⟩ := ⟨nofun, by decide, by decide⟩
  have hp : Finishes ⟨some 3, 0, 1⟩ twoNumbers (fresh [] .unlimited)
      ((fresh [] .unlimited).runFor ⟨some 3, 0, 1⟩ twoNumbers 4) := ⟨4, rfl, by decide +kernel⟩
  have hq : Finishes .standard twoNumbers (fresh [] .unlimited)
      ((fresh [] .unlimited).runFor .standard twoNumbers 5) := ⟨5, rfl, by decide +kernel⟩
  have hcut := limits_only_cut_short hnarrow twoNumbers [] .unlimited
  refine ⟨hnarrow, _, _, hp, by decide +kernel, by decide +kernel, hq, by decide +kernel,
    by decide +kernel, hcut.2.1 _ _ hp (by decide +kernel) hq, ?_, (hcut.2.2 3 rfl).2⟩
  exact (limits_only_cut_short hwide twoNumbers [] .unlimited).1 _ hq (by decide +kernel)

end Machine

end Whitespace
