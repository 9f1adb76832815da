import Whitespace.Build
import Whitespace.Proofs.Effect

/-!
The stack check is sound. When the search has passed, the heights it ends with are closed: every op
with a height takes no more values than that, and the addresses it leads to have at most the height
it leaves. A run of the machine then always has at least the height of its address on the stack.
-/
namespace Whitespace

namespace Height

variable {ops : Array Op} {heights heights' : Heights} {work work' : List Nat}
  {address height : Nat}

/-- The address has a height, and it is at most `height`. -/
def AtMost (heights : Heights) (address height : Nat) : Prop :=
  ∃ least, heights[address]? = some (some least) ∧ least ≤ height

theorem improves_iff :
    improves heights height address = true ↔
      address < heights.size ∧ ¬ AtMost heights address height := by
  unfold improves AtMost
  split
  · next h => simp [Array.getElem?_eq_none_iff.mp h]
  · next h =>
    obtain ⟨hlt, hnone⟩ := Array.getElem?_eq_some_iff.mp h
    simp [hlt, hnone]
  · next least h =>
    obtain ⟨hlt, hsome⟩ := Array.getElem?_eq_some_iff.mp h
    simp [hlt, hsome]

theorem atMost_set_self (h : address < heights.size) (height : Nat) :
    AtMost (heights.setIfInBounds address (some height)) address height :=
  ⟨height, by simp [h], Nat.le_refl _⟩

/-- A height that is news only lowers what is there. -/
theorem AtMost.set {a k : Nat} (h : AtMost heights a k)
    (hnews : improves heights height address = true) :
    AtMost (heights.setIfInBounds address (some height)) a k := by
  obtain ⟨hlt, hnot⟩ := improves_iff.mp hnews
  obtain ⟨least, hleast, hle⟩ := h
  by_cases ha : address = a
  · subst ha
    have hlow : height ≤ least :=
      Nat.le_of_not_lt fun hgt => hnot ⟨least, hleast, Nat.le_of_lt hgt⟩
    exact ⟨height, by simp [hlt], Nat.le_trans hlow hle⟩
  · exact ⟨least, by rw [Array.getElem?_setIfInBounds_ne ha, hleast], hle⟩

/-- What it means to note one height at all targets: all of them have at most that height, no
height rises, and whatever is not left on the worklist is as it was. -/
structure Relaxed (height : Nat) (targets : List Int) (heights : Heights) (work : List Nat)
    (heights' : Heights) (work' : List Nat) : Prop where
  size : heights'.size = heights.size
  lower : ∀ {a k}, AtMost heights a k → AtMost heights' a k
  reached : ∀ t ∈ targets, 0 ≤ t → t.toNat < heights.size → AtMost heights' t.toNat height
  kept : ∀ a ∉ work', heights'[a]? = heights[a]? ∧ a ∉ work

theorem relaxed_relax (height : Nat) (targets : List Int) (heights : Heights) (work : List Nat) :
    Relaxed height targets heights work (relax height targets heights work).1
      (relax height targets heights work).2 := by
  induction targets generalizing heights work with
  | nil => exact ⟨rfl, id, nofun, fun a ha => ⟨rfl, ha⟩⟩
  | cons t targets ih =>
    rw [relax]
    split
    · next h =>
      have hset := ih (heights.setIfInBounds t.toNat (some height)) (t.toNat :: work)
      refine ⟨?_, fun ha => hset.lower (ha.set h.2), ?_, ?_⟩
      · rw [hset.size, Array.size_setIfInBounds]
      · intro u hu hu0 hlt
        rcases List.mem_cons.mp hu with rfl | hu
        · exact hset.lower (atMost_set_self hlt height)
        · exact hset.reached u hu hu0 (by rw [Array.size_setIfInBounds]; exact hlt)
      · intro a ha
        obtain ⟨hsame, hwork⟩ := hset.kept a ha
        have hne : a ≠ t.toNat := List.ne_of_not_mem_cons hwork
        rw [hsame, Array.getElem?_setIfInBounds_ne hne.symm]
        exact ⟨rfl, List.not_mem_of_not_mem_cons hwork⟩
    · next h =>
      have hrest := ih heights work
      refine ⟨hrest.size, hrest.lower, ?_, hrest.kept⟩
      intro u hu hu0 hlt
      rcases List.mem_cons.mp hu with rfl | hu
      · refine hrest.lower (Classical.byContradiction fun hnot => ?_)
        exact h ⟨hu0, improves_iff.mpr ⟨hlt, hnot⟩⟩
      · exact hrest.reached u hu hu0 hlt

/-- If `address` has a height, its op takes no more than that, and where the op leads has at most
the height it leaves. -/
def Closed (ops : Array Op) (heights : Heights) (address : Nat) : Prop :=
  ∀ height op, heights[address]? = some (some height) → ops[address]? = some op →
    op.effect.pops ≤ height ∧
      ∀ t ∈ op.successors address, 0 ≤ t → t.toNat < heights.size →
        AtMost heights t.toNat (height - op.effect.pops + op.effect.pushes)

theorem Closed.mono (h : Closed ops heights address) (hsize : heights'.size = heights.size)
    (hlower : ∀ {a k}, AtMost heights a k → AtMost heights' a k)
    (hsame : heights'[address]? = heights[address]?) : Closed ops heights' address := by
  intro height op hheight hop
  rw [hsame] at hheight
  obtain ⟨hpops, hsuccessors⟩ := h height op hheight hop
  refine ⟨hpops, fun t ht ht0 hlt => ?_⟩
  rw [hsize] at hlt
  exact hlower (hsuccessors t ht ht0 hlt)

/-- Only addresses on the worklist need not be closed. -/
def Settled (ops : Array Op) (heights : Heights) (work : List Nat) : Prop :=
  ∀ address ∉ work, Closed ops heights address

theorem Settled.relax {op : Op} (h : Settled ops heights (address :: work))
    (hheight : heights[address]? = some (some height)) (hop : ops[address]? = some op)
    (hpops : op.effect.pops ≤ height)
    (hrelaxed : Relaxed (height - op.effect.pops + op.effect.pushes) (op.successors address)
      heights work heights' work') : Settled ops heights' work' := by
  intro a ha
  obtain ⟨hsame, hwork⟩ := hrelaxed.kept a ha
  by_cases haddress : a = address
  · subst haddress
    intro height' op' hheight' hop'
    rw [hsame, hheight] at hheight'
    rw [hop] at hop'
    cases hheight'
    cases hop'
    refine ⟨hpops, fun t ht ht0 hlt => ?_⟩
    rw [hrelaxed.size] at hlt
    exact hrelaxed.reached t ht ht0 hlt
  · have hclosed := h a (List.not_mem_cons_of_ne_of_not_mem haddress hwork)
    exact hclosed.mono hrelaxed.size hrelaxed.lower hsame

/-- A search that may look at any address of its worklist next, and what it finds. -/
inductive Search (ops : Array Op) : Heights → List Nat → Except Underflow Unit → Prop where
  | done (heights : Heights) : Search ops heights [] (.ok ())
  | skip {heights : Heights} {work rest : List Nat} {address : Nat} {result : Except Underflow Unit}
      (hpick : work.Perm (address :: rest))
      (hnone : ∀ height op, heights[address]? = some (some height) → ops[address]? ≠ some op)
      (h : Search ops heights rest result) : Search ops heights work result
  | report {heights : Heights} {work rest : List Nat} {address height : Nat} {op : Op}
      (hpick : work.Perm (address :: rest)) (hheight : heights[address]? = some (some height))
      (hop : ops[address]? = some op) (hlow : height < op.effect.pops) :
      Search ops heights work (.error ⟨address, op, op.effect.pops, height⟩)
  | visit {heights : Heights} {work rest : List Nat} {address height : Nat} {op : Op}
      {result : Except Underflow Unit}
      (hpick : work.Perm (address :: rest)) (hheight : heights[address]? = some (some height))
      (hop : ops[address]? = some op) (hpops : op.effect.pops ≤ height)
      (h : Search ops
        (relax (height - op.effect.pops + op.effect.pushes) (op.successors address) heights rest).1
        (relax (height - op.effect.pops + op.effect.pushes) (op.successors address) heights rest).2
        result) :
      Search ops heights work result

/-- Looking at the address noted last is one way to search. -/
theorem Search.of_search (ops : Array Op) (heights : Heights) (work : List Nat) :
    Search ops heights work (search ops heights work) := by
  fun_induction Height.search ops heights work with
  | case1 heights => exact .done heights
  | case2 heights address work height op hop hheight hlow =>
    exact .report (.refl _) (Option.join_eq_some_iff.mp hheight) hop hlow
  | case3 heights address work height op hop hheight hpops out next ih =>
    exact .visit (.refl _) (Option.join_eq_some_iff.mp hheight) hop (Nat.le_of_not_lt hpops) ih
  | case4 heights address work hnone ih =>
    refine .skip (.refl _) (fun height op hheight hop => ?_) ih
    exact hnone height op (Option.join_eq_some_iff.mpr hheight) hop

theorem Settled.perm (h : Settled ops heights work) (hperm : work.Perm work') :
    Settled ops heights work' :=
  fun address haddress => h address fun hmem => haddress (hperm.mem_iff.mp hmem)

/-- A search that passes ends with heights that are closed everywhere. -/
theorem Search.exists_closed {result : Except Underflow Unit}
    (hsearch : Search ops heights work result) (hpass : result = .ok ())
    (h : Settled ops heights work) :
    ∃ heights' : Heights, heights'.size = heights.size ∧
      (∀ {a k}, AtMost heights a k → AtMost heights' a k) ∧
      ∀ a, Closed ops heights' a := by
  induction hsearch with
  | done heights => exact ⟨heights, rfl, id, fun a => h a nofun⟩
  | @skip heights work rest address result hpick hnone _ ih =>
    refine ih hpass fun a ha => ?_
    by_cases haddress : a = address
    · subst haddress
      intro height op hheight hop
      exact absurd hop (hnone height op hheight)
    · exact h.perm hpick a (List.not_mem_cons_of_ne_of_not_mem haddress ha)
  | report => cases hpass
  | @visit heights work rest address height op result hpick hheight hop hpops _ ih =>
    have hrelaxed := relaxed_relax (height - op.effect.pops + op.effect.pushes)
      (op.successors address) heights rest
    obtain ⟨final, hsize, hlower, hclosed⟩ :=
      ih hpass ((h.perm hpick).relax hheight hop hpops hrelaxed)
    exact ⟨final, hsize.trans hrelaxed.size, fun ha => hlower (hrelaxed.lower ha), hclosed⟩

/-- Heights that bear out a check: closed, and at the start of the code none. -/
structure Certifies (ops : Array Op) (heights : Heights) : Prop where
  size : heights.size = ops.size
  start : 0 < ops.size → AtMost heights 0 0
  closed : ∀ address, Closed ops heights address

/-- The heights with which a search starts: only the first address has one. -/
def start (ops : Array Op) : Heights := (Array.replicate ops.size none).setIfInBounds 0 (some 0)

theorem size_start (ops : Array Op) : (start ops).size = ops.size := by
  simp [start]

theorem eq_zero_of_start {least : Nat} (h : (start ops)[address]? = some (some least)) :
    address = 0 ∧ least = 0 := by
  by_cases haddress : 0 = address
  · subst haddress
    simp only [start, Array.getElem?_setIfInBounds_self, Array.size_replicate] at h
    split at h
    · cases h; exact ⟨rfl, rfl⟩
    · cases h
  · rw [start, Array.getElem?_setIfInBounds_ne haddress, Array.getElem?_replicate] at h
    split at h <;> cases h

/-- The check is a search from the start. -/
theorem Search.of_check (ops : Array Op) : Search ops (start ops) [0] (check ops) := by
  rw [Height.check]
  split
  · next hempty =>
    have hops : ops = #[] := Array.isEmpty_iff.mp hempty
    subst hops
    refine .skip (.refl _) (fun height op _ hop => ?_) (.done _)
    cases hop
  · exact .of_search ops _ _

theorem Search.exists_certifies (h : Search ops (start ops) [0] (.ok ())) :
    ∃ heights, Certifies ops heights := by
  have hstart : Settled ops (start ops) [0] := by
    intro address haddress height op hheight
    exact absurd (List.mem_singleton.mpr (eq_zero_of_start hheight).1) haddress
  obtain ⟨heights, hsize, hlower, hclosed⟩ := h.exists_closed rfl hstart
  refine ⟨heights, hsize.trans (size_start ops), fun hpos => ?_, hclosed⟩
  exact hlower (atMost_set_self (by simpa using hpos) 0)

theorem exists_certifies_of_check (h : check ops = .ok ()) : ∃ heights, Certifies ops heights := by
  have hsearch := Search.of_check ops
  rw [h] at hsearch
  exact hsearch.exists_certifies

end Height

open Whitespace.Height

namespace Machine

variable {limits : Limits} {ops : Array Op} {heights : Heights} {m : Machine}

theorem exceeded?_ne_underflow {f : Fault} (h : m.exceeded? limits = some f) :
    f ≠ .stackUnderflow := by
  rw [exceeded?] at h
  rintro rfl
  repeat' split at h
  all_goals cases h

/-- Within the code, the stack has the height of the machine's address. -/
def Covered (heights : Heights) (m : Machine) : Prop :=
  m.address < heights.size → AtMost heights m.address m.data.stack.depth

end Machine

/-- The machine is still covered if it goes on, and has not underflowed the stack. -/
def Progress.Safe (heights : Heights) : Progress → Prop
  | .running m => m.Covered heights
  | .halted _ => True
  | .faulted f _ => f ≠ .stackUnderflow

namespace Machine

variable {limits : Limits} {ops : Array Op} {heights : Heights} {m : Machine}

theorem safe_exec {op : Op} (hcert : Certifies ops heights) (hop : ops[m.address]? = some op)
    (h : m.Covered heights) : (m.exec limits ops.size op).Safe heights := by
  have hlt : m.address < ops.size := (Array.getElem?_eq_some_iff.mp hop).1
  rw [← hcert.size] at hlt
  obtain ⟨least, hleast, hle⟩ := h hlt
  rw [m.data.stack.depth_eq] at hle
  obtain ⟨hpops, hsuccessors⟩ := hcert.closed m.address least op hleast hop
  have hobeys := obeys_exec limits ops.size m op
  cases hexec : m.exec limits ops.size op with
  | running m' =>
    rw [hexec] at hobeys
    obtain ⟨hstack, hmem⟩ := hobeys
    intro hlt'
    obtain ⟨least', hleast', hle'⟩ := hsuccessors _ hmem (Int.natCast_nonneg _) hlt'
    refine ⟨least', hleast', ?_⟩
    rw [m'.data.stack.depth_eq, hstack.length]
    omega
  | halted m' => trivial
  | faulted f m' =>
    rw [hexec] at hobeys
    exact fun hf => Nat.not_lt.mpr (Nat.le_trans hpops hle) (hobeys.underflow.mp hf)

theorem safe_step (hcert : Certifies ops heights) (h : m.Covered heights) :
    (m.step limits ops).Safe heights := by
  rw [step]
  split
  · trivial
  · next op hop =>
    dsimp only
    split
    · next f hf => exact exceeded?_ne_underflow hf
    · exact safe_exec hcert hop h

theorem safe_runFor (hcert : Certifies ops heights) (h : m.Covered heights) (n : Nat) :
    (m.runFor limits ops n).Safe heights := by
  induction n generalizing m with
  | zero => exact h
  | succ n ih =>
    have hstep : (m.step limits ops).Safe heights := safe_step hcert h
    rw [runFor]
    split
    · next m' hrunning =>
      rw [hrunning] at hstep
      exact ih hstep
    · exact hstep

theorem covered_fresh (hcert : Certifies ops heights) (input : List UInt8) (output : Output) :
    (fresh input output).Covered heights := by
  intro hlt
  rw [hcert.size] at hlt
  exact hcert.start hlt

end Machine

theorem fault_ne_underflow_of_check {ops : Array Op} (h : check ops = .ok ()) {limits : Limits}
    {input : List UInt8} {output : Output} {e : Ending}
    (hends : Machine.Ends limits ops (.fresh input output) e) :
    e.fault ≠ some .stackUnderflow := by
  obtain ⟨heights, hcert⟩ := exists_certifies_of_check h
  obtain ⟨n, hn⟩ := hends
  have hsafe : ((Machine.fresh input output).runFor limits ops n).Safe heights :=
    Machine.safe_runFor hcert (Machine.covered_fresh hcert input output) n
  cases hrun : (Machine.fresh input output).runFor limits ops n with
  | running m => rw [hrun] at hn; cases hn
  | halted m => rw [hrun] at hn; cases hn; exact nofun
  | faulted f m =>
    rw [hrun] at hn hsafe
    cases hn
    exact fun hf => hsafe (Option.some.inj hf)

theorem check_of_build {source : List UInt8} {code : Code}
    (h : (build source true).value = .ok code) : check code.ops = .ok () := by
  rw [build] at h
  split at h
  · cases h
  · next p _ =>
    rw [Program.build] at h
    split at h
    · cases h
    · next code' _ =>
      split at h
      · next hcheck =>
        cases h
        exact hcheck
      · cases h

/-- No run of checked code underflows the stack, and strictly built code is checked. -/
theorem checked_code_never_underflows (limits : Limits) (input : List UInt8) (output : Output)
    (e : Ending) :
    (∀ ops, check ops = .ok () → Machine.Ends limits ops (.fresh input output) e →
      e.fault ≠ some .stackUnderflow) ∧
    ∀ source code, (build source true).value = .ok code →
      Machine.Ends limits code.ops (.fresh input output) e → e.fault ≠ some .stackUnderflow :=
  ⟨fun _ hcheck hends => fault_ne_underflow_of_check hcheck hends,
    fun _ _ hbuild hends => fault_ne_underflow_of_check (check_of_build hbuild) hends⟩

/-- Calls a subroutine that pushes 1, drops the 1 and halts. -/
def dropResult : List UInt8 :=
  [10, 32, 9, 10] ++ [32, 10, 10] ++ [10, 10, 10] ++ [10, 32, 32, 10] ++ [32, 32, 32, 9, 10] ++
    [10, 9, 10]

def dropResultCode : Code where
  ops := #[.pushReturn 0, .jump 3, .drop, .halt, .push 1, .jump 2, .halt, .dispatch #[-5]]
  returnSites := 1
  dispatcher := some 7
  sourceInstructions := 6

theorem dropResult_never_underflows :
    check dropResultCode.ops = .ok () ∧ (build dropResult true).value = .ok dropResultCode ∧
      ∃ e : Ending, Machine.Ends .standard dropResultCode.ops (.fresh [] .unlimited) e ∧
        e.fault ≠ some .stackUnderflow := by
  have hcheck : check dropResultCode.ops = .ok () := by cbv
  have hbuild : (build dropResult true).value = .ok dropResultCode := by cbv
  have hended : ((Machine.fresh [] .unlimited).runFor .standard dropResultCode.ops 7).ending?.isSome
      = true := by
    decide +kernel
  obtain ⟨e, he⟩ := Option.isSome_iff_exists.mp hended
  have hends : Machine.Ends .standard dropResultCode.ops (.fresh [] .unlimited) e := ⟨7, he⟩
  have hsafe := checked_code_never_underflows .standard [] .unlimited e
  exact ⟨hcheck, hbuild, e, hends, hsafe.2 dropResult dropResultCode hbuild hends⟩

end Whitespace
