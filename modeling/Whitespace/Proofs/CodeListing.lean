import Whitespace.Code.Printer
import Whitespace.Proofs.Landings
import Whitespace.Proofs.Lines

/-!
The listing of code line by line. Each op has a line with its name, its operand and the places it
leads to, and what stands above and before it says exactly how control can arrive there. So every
jump of the machine that stays in the code ends at a marked op, and compiled code shows each of its
return sites once.
-/
namespace Whitespace

open Text (OneLine)

namespace Landing

variable {l : Landing}

theorem marker_eq_branch : l.marker = "►" ↔ l.branch = true := by
  rw [marker]
  split
  · simp_all
  · split <;> simp_all

theorem marker_eq_entry : l.marker = "↩" ↔ ¬ l.branch = true ∧ l.site.isSome = true := by
  rw [marker]
  split
  · simp_all
  · split <;> simp_all

theorem marker_eq_blank : l.marker = " " ↔ ¬ l.isLanding = true := by
  rw [marker, isLanding]
  split
  · simp_all
  · split <;> simp_all

theorem oneLine_describe (l : Landing) : OneLine l.describe := by
  obtain ⟨branch, _ | site⟩ := l
  · cases branch <;> exact (by decide : OneLine "branch target")
  · cases branch <;> exact .append (by decide) (Text.oneLine_toString site)

theorem oneLine_marker (l : Landing) : OneLine l.marker := by
  rw [marker]
  split
  · decide
  · split <;> decide

end Landing

namespace Text

/-- A number in decimal, with zeros before it up to four digits. -/
def fourDigits (n : Nat) : String :=
  String.ofList (List.replicate (4 - (toString n).length) '0') ++ toString n

theorem address_eq_fourDigits (n : Nat) : Column.address n = fourDigits n := by
  rw [Column.address, fourDigits, List.leftpad, String.ofList_append, String.ofList_toList,
    String.length_toList]

theorem oneLine_fourDigits (n : Nat) : OneLine (fourDigits n) :=
  address_eq_fourDigits n ▸ oneLine_address n

theorem ofList_ofInt (i : Int) : String.ofList (Decimal.ofInt i) = toString i := by
  cases i with
  | ofNat n =>
    have hnonneg : ¬ Int.ofNat n < 0 := Int.not_lt.mpr (Int.natCast_nonneg n)
    rw [Decimal.ofInt, if_neg hnonneg]
    rfl
  | negSucc n =>
    rw [Decimal.ofInt, if_pos (Int.negSucc_lt_zero n), String.ofList_cons]
    rfl

theorem oneLine_toString_int (i : Int) : OneLine (toString i) := ofList_ofInt i ▸ oneLine_ofInt i

end Text

namespace Op

open Text (fourDigits)

/-- How a listing gives the place that an offset leads to from `address`. A place before the code is
given modulo 2^64. -/
def TargetShown (address : Nat) (offset : Int32) (text : String) : Prop :=
  ∃ place : Nat, place < 2 ^ 64 ∧ (place : Int) ≡ address + offset.toInt [ZMOD 2 ^ 64] ∧
    text = fourDigits place

/-- The line of a branch: after the name how far it leads, down or up the listing, and where to. -/
inductive BranchShown (name : String) (address : Nat) (offset : Int32) : String → Prop where
  | down {target : String} (h : 0 ≤ offset.toInt) (htarget : TargetShown address offset target) :
      BranchShown name address offset
        (name ++ "+" ++ toString offset.toInt ++ " ↓ (→ " ++ target ++ ")")
  | up {target : String} (h : offset.toInt < 0) (htarget : TargetShown address offset target) :
      BranchShown name address offset
        (name ++ toString offset.toInt ++ " ↑ (→ " ++ target ++ ")")

/-- What a listing says of the op at `address`: the name, and behind it the operand, the places to
which control may go or what the op does with the stack. -/
inductive Shown (address : Nat) : Op → String → Prop where
  | push (value : Word) : Shown address (.push value) ("PUSH        " ++ toString value.toInt)
  | dup : Shown address .dup "DUP"
  | swap : Shown address .swap "SWAP"
  | drop : Shown address .drop "DROP"
  | add : Shown address .add "ADD"
  | sub : Shown address .sub "SUB"
  | mul : Shown address .mul "MUL"
  | div : Shown address .div "DIV"
  | mod : Shown address .mod "MOD"
  | store : Shown address .store "STORE       ; ( addr value -- )"
  | load : Shown address .load "LOAD        ; ( addr -- value )"
  | jump {offset : Int32} {text : String} (h : BranchShown "JUMP        " address offset text) :
      Shown address (.jump offset) text
  | jumpIfZero {offset : Int32} {text : String}
      (h : BranchShown "JUMP_ZERO   " address offset text) : Shown address (.jumpIfZero offset) text
  | jumpIfNegative {offset : Int32} {text : String}
      (h : BranchShown "JUMP_NEG    " address offset text) :
      Shown address (.jumpIfNegative offset) text
  | pushReturn (site : UInt32) :
      Shown address (.pushReturn site) ("PUSH_RET    " ++ toString site.toNat)
  | dispatch {table : Array Int32} {targets : List String}
      (h : List.Forall₂ (TargetShown address) table.toList targets) :
      Shown address (.dispatch table)
        ("DISPATCH    ; return sites [" ++ " ".intercalate targets ++ "]")
  | writeChar : Shown address .writeChar "WRITE_CHAR"
  | writeNumber : Shown address .writeNumber "WRITE_NUM"
  | readChar : Shown address .readChar "READ_CHAR   ; ( addr -- )"
  | readNumber : Shown address .readNumber "READ_NUM    ; ( addr -- )"
  | halt : Shown address .halt "HALT"

theorem targetShown_targetText (address : Nat) (offset : Int32) :
    TargetShown address offset (targetText address offset) := by
  have hmodulus : (18446744073709551616 : Int) = 2 ^ 64 := by norm_num
  have hnonneg : 0 ≤ target address offset % 2 ^ 64 := Int.emod_nonneg _ (by norm_num)
  have hlt : target address offset % 2 ^ 64 < 2 ^ 64 := Int.emod_lt_of_pos _ (by norm_num)
  rw [targetText, hmodulus, Text.address_eq_fourDigits]
  refine ⟨_, by omega, ?_, rfl⟩
  rw [Int.toNat_of_nonneg hnonneg]
  exact Int.mod_modEq _ _

theorem branchShown_branchText (op : Op) {name : String}
    (hname : Column.left 11 op.name ++ " " = name) (address : Nat) (offset : Int32) :
    BranchShown name address offset (op.branchText address offset) := by
  have htarget := targetShown_targetText address offset
  rw [branchText, offsetText, Text.ofList_ofInt, hname]
  split
  · next hneg =>
    have hup : BranchShown name address offset _ := .up hneg htarget
    simpa [String.append_assoc] using hup
  · next hpos =>
    have hdown : BranchShown name address offset _ := .down (Int.not_lt.mp hpos) htarget
    simpa [String.append_assoc] using hdown

theorem shown_text (op : Op) (address : Nat) : op.Shown address (op.text address) := by
  cases op with
  | push value =>
    have hname : Column.left 11 "PUSH" ++ " " = "PUSH        " := by decide
    change Shown address _ (Column.left 11 "PUSH" ++ " " ++ String.ofList (Decimal.ofInt _))
    rw [hname, Text.ofList_ofInt]
    exact .push value
  | jump offset =>
    have hname : Column.left 11 "JUMP" ++ " " = "JUMP        " := by decide
    exact .jump (branchShown_branchText (.jump offset) hname address offset)
  | jumpIfZero offset =>
    have hname : Column.left 11 "JUMP_ZERO" ++ " " = "JUMP_ZERO   " := by decide
    exact .jumpIfZero (branchShown_branchText (.jumpIfZero offset) hname address offset)
  | jumpIfNegative offset =>
    have hname : Column.left 11 "JUMP_NEG" ++ " " = "JUMP_NEG    " := by decide
    exact .jumpIfNegative (branchShown_branchText (.jumpIfNegative offset) hname address offset)
  | pushReturn site =>
    have hname : Column.left 11 "PUSH_RET" ++ " " = "PUSH_RET    " := by decide
    change Shown address _ (Column.left 11 "PUSH_RET" ++ (" " ++ toString site.toNat))
    rw [← String.append_assoc, hname]
    exact .pushReturn site
  | dispatch table =>
    have hname : Column.left 11 "DISPATCH" ++ " ; return sites [" =
        "DISPATCH    ; return sites [" := by decide
    have htargets : List.Forall₂ (TargetShown address) table.toList
        (table.toList.map (targetText address)) :=
      List.forall₂_map_right_iff.mpr
        (List.forall₂_same.mpr fun offset _ => targetShown_targetText address offset)
    change Shown address _ (Column.left 11 "DISPATCH" ++ " ; return sites [" ++ _ ++ "]")
    rw [hname]
    exact .dispatch htargets
  | store => exact .store
  | load => exact .load
  | readChar => exact .readChar
  | readNumber => exact .readNumber
  | dup => exact .dup
  | swap => exact .swap
  | drop => exact .drop
  | add => exact .add
  | sub => exact .sub
  | mul => exact .mul
  | div => exact .div
  | mod => exact .mod
  | writeChar => exact .writeChar
  | writeNumber => exact .writeNumber
  | halt => exact .halt

/-- A branch from address 1 to the place before the code. -/
example : (jump (-2)).text 1 = "JUMP        -2 ↑ (→ 18446744073709551615)" := by decide +kernel

theorem TargetShown.oneLine {address : Nat} {offset : Int32} {text : String}
    (h : TargetShown address offset text) : OneLine text := by
  obtain ⟨place, -, -, rfl⟩ := h
  exact Text.oneLine_fourDigits place

theorem BranchShown.oneLine {name text : String} {address : Nat} {offset : Int32}
    (hname : OneLine name) (h : BranchShown name address offset text) : OneLine text := by
  have hoffset := Text.oneLine_toString_int offset.toInt
  cases h with
  | down _ htarget =>
    exact ((((hname.append (by decide)).append hoffset).append (by decide)).append
      htarget.oneLine).append (by decide)
  | up _ htarget =>
    exact (((hname.append hoffset).append (by decide)).append htarget.oneLine).append (by decide)

theorem oneLine_of_forall₂ {address : Nat} {offsets : List Int32} {targets : List String}
    (h : List.Forall₂ (TargetShown address) offsets targets) : ∀ text ∈ targets, OneLine text := by
  induction h with
  | nil => exact nofun
  | cons hfirst _ ih => exact List.forall_mem_cons.mpr ⟨hfirst.oneLine, ih⟩

theorem Shown.oneLine {op : Op} {address : Nat} {text : String} (h : op.Shown address text) :
    OneLine text := by
  cases h with
  | push value => exact .append (by decide) (Text.oneLine_toString_int _)
  | jump h | jumpIfZero h | jumpIfNegative h => exact h.oneLine (by decide)
  | pushReturn site => exact .append (by decide) (Text.oneLine_toString _)
  | dispatch h =>
    have htargets := Text.OneLine.intercalate (by decide : OneLine " ") (oneLine_of_forall₂ h)
    exact (Text.OneLine.append (by decide) htargets).append (by decide)
  | _ => decide

end Op

/-- What stands around an op in a listing: a rule above it, and a marker before it. -/
structure Margin where
  rule : Option String
  marker : String

namespace Margin

open Landing (Branched Entered Landed LastEntry)

/-- The lines of the op at `address` that has this text. -/
def lines (margin : Margin) (address : Nat) (text : String) : List String :=
  (margin.rule.map ("      ┌─ " ++ ·)).toList ++
    [Text.fourDigits address ++ " " ++ margin.marker ++ " " ++ text]

/-- The rule gives `k` as the return site. -/
def ShowsSite (margin : Margin) (k : Nat) : Prop :=
  margin.rule = some ("return site " ++ toString k) ∨
    margin.rule = some ("branch target, return site " ++ toString k)

/-- The margin says how control arrives at `address`. -/
structure Shows (margin : Margin) (ops : List Op) (address : Nat) : Prop where
  rule : margin.rule.isSome = true ↔ Landed ops address
  blank : margin.marker = " " ↔ ¬ Landed ops address
  branch : margin.marker = "►" ↔ Branched ops address
  entry : margin.marker = "↩" ↔
    ¬ Branched ops address ∧ ∃ source k, Entered ops address source k
  target : margin.rule = some "branch target" ↔
    Branched ops address ∧ ¬ ∃ source k, Entered ops address source k
  site : ∀ k, margin.ShowsSite k ↔ LastEntry ops address k

theorem Shows.marked {margin : Margin} {ops : List Op} {address : Nat}
    (h : margin.Shows ops address) (hlanded : Landed ops address) :
    margin.marker = "►" ∨ margin.marker = "↩" := by
  by_cases hbranched : Branched ops address
  · exact .inl (h.branch.mpr hbranched)
  · exact .inr (h.entry.mpr ⟨hbranched, hlanded.resolve_left hbranched⟩)

def ofLanding (l : Landing) : Margin :=
  ⟨if l.isLanding then some l.describe else none, l.marker⟩

theorem render_eq (l : Landing) (op : Op) (address : Nat) :
    op.render l address = Text.ofLines ((ofLanding l).lines address (op.text address)) := by
  rw [Op.render, ofLanding, lines, Text.ofLines, Text.address_eq_fourDigits]
  split
  · simp [String.append_assoc]
  · simp [String.append_assoc]

theorem oneLine_lines (l : Landing) (address : Nat) {text : String} (htext : OneLine text) :
    ∀ line ∈ (ofLanding l).lines address text, OneLine line := by
  have hop : OneLine (Text.fourDigits address ++ " " ++ l.marker ++ " " ++ text) :=
    ((((Text.oneLine_fourDigits address).append (by decide)).append l.oneLine_marker).append
      (by decide)).append htext
  have hrule : OneLine ("      ┌─ " ++ l.describe) := .append (by decide) l.oneLine_describe
  rw [lines, ofLanding]
  split
  · exact List.forall_mem_cons.mpr ⟨hrule, List.forall_mem_singleton.mpr hop⟩
  · exact List.forall_mem_singleton.mpr hop

theorem target_ne_site (k : Nat) : "branch target" ≠ "return site " ++ toString k :=
  fun h => by simpa using congrArg String.toList h

theorem target_ne_both (k : Nat) :
    "branch target" ≠ "branch target, return site " ++ toString k :=
  fun h => by simpa using congrArg String.toList h

theorem site_ne_both (j k : Nat) :
    "return site " ++ toString j ≠ "branch target, return site " ++ toString k :=
  fun h => by simpa using congrArg String.toList h

theorem rule_ofLanding (l : Landing) :
    (ofLanding l).rule =
      match l.branch, l.site with
      | false, none => none
      | true, none => some "branch target"
      | false, some k => some ("return site " ++ toString k)
      | true, some k => some ("branch target, return site " ++ toString k) := by
  obtain ⟨branch, site⟩ := l
  cases branch <;> cases site <;> rfl

theorem target_ofLanding (l : Landing) :
    (ofLanding l).rule = some "branch target" ↔ l.branch = true ∧ ¬ l.site.isSome = true := by
  rw [rule_ofLanding]
  split
  · simp [*]
  · simp [*]
  · simp only [*, Option.some.injEq, (target_ne_site _).symm, Bool.false_eq_true, false_and]
  · simp only [*, Option.some.injEq, (target_ne_both _).symm, Option.isSome_some, not_true,
      and_false]

theorem showsSite_ofLanding (l : Landing) (k : Nat) :
    (ofLanding l).ShowsSite k ↔ l.site = some k := by
  have hsame : ∀ {j : Nat}, toString j = toString k ↔ j = k := Nat.repr_inj
  rw [ShowsSite, rule_ofLanding]
  split
  · simp [*]
  · simp only [*, Option.some.injEq, target_ne_site, target_ne_both, or_self, reduceCtorEq]
  · simp only [*, Option.some.injEq, String.append_right_inj, site_ne_both, or_false]
  · simp only [*, Option.some.injEq, String.append_right_inj, (site_ne_both _ _).symm, false_or]

theorem shows_ofLanding {ops : List Op} {address : Nat} {l : Landing}
    (h : l.Describes ops address) : (ofLanding l).Shows ops address := by
  have hlanding : l.isLanding = true ↔ Landed ops address := by
    rw [Landing.isLanding, Bool.or_eq_true, h.branch, h.isSome_site, Landed]
  refine ⟨?_, ?_, ?_, ?_, ?_, fun k => ?_⟩
  · rw [← hlanding, ofLanding]
    cases l.isLanding <;> simp
  · rw [← hlanding]
    exact Landing.marker_eq_blank
  · exact Landing.marker_eq_branch.trans h.branch
  · rw [← h.branch, ← h.isSome_site]
    exact Landing.marker_eq_entry
  · rw [← h.branch, ← h.isSome_site]
    exact target_ofLanding l
  · exact (showsSite_ofLanding l k).trans (h.site k)

/-- The listing puts the ops one after the other, each with its margin. -/
theorem lines_renderAll (ops : Array Op) (margin : Nat → Margin)
    (hmargin : ∀ address, margin address = ofLanding ((Landing.all ops)[address]?.getD .none)) :
    Text.lines (Op.renderAll ops).toList =
      (ops.toList.mapIdx fun address op =>
        (margin address).lines address (op.text address)).flatten.map String.toList ++ [[]] := by
  have hrender : Op.renderAll ops = Text.ofLines
      (ops.toList.mapIdx fun address op =>
        (margin address).lines address (op.text address)).flatten := by
    rw [Text.ofLines_flatten, List.mapIdx_eq_zipIdx_map, List.map_map, Op.renderAll]
    simp only [hmargin, render_eq, Function.comp_def]
  rw [hrender, Text.lines_ofLines]
  intro line hline
  obtain ⟨block, hblock, hline⟩ := List.mem_flatten.mp hline
  obtain ⟨address, h, rfl⟩ := List.mem_mapIdx.mp hblock
  rw [hmargin] at hline
  exact oneLine_lines _ _ (Op.shown_text _ _).oneLine line hline

end Margin

/-- The listing shows every op once, in order, with its name, its operand and the places it leads
to. A rule stands above an op exactly if a branch or an entry of a dispatcher leads there; the marker
tells branches from entries alone, and the return site is the last entry. So the machine jumps to
marked ops only, and each return site of compiled code is shown at one op. -/
theorem listing_marks_exactly_landings (ops : Array Op) :
    ∃ (margin : Nat → Margin) (text : Nat → Op → String),
      Text.lines (Op.renderAll ops).toList =
        (ops.toList.mapIdx fun address op =>
          (margin address).lines address (text address op)).flatten.map String.toList ++ [[]] ∧
      (∀ (address : Nat) (op : Op), op.Shown address (text address op)) ∧
      (∀ address < ops.size, (margin address).Shows ops.toList address) ∧
      (∀ {limits : Limits} {m m' : Machine} {op : Op}, ops[m.address]? = some op →
        m.Transfers op → m.step limits ops = .running m' → m'.address < ops.size →
        (margin m'.address).rule.isSome = true ∧
          ((margin m'.address).marker = "►" ∨ (margin m'.address).marker = "↩")) ∧
      ∀ {p : Program} {code : Code}, p.compile = .ok code → code.ops = ops → ops.size < 2 ^ 31 →
        ∀ k < code.returnSites.toNat,
          ∃! address, address < ops.size ∧ (margin address).ShowsSite k := by
  have hshows : ∀ address < ops.size,
      (Margin.ofLanding ((Landing.all ops)[address]?.getD .none)).Shows ops.toList address := by
    intro address h
    obtain ⟨l, hl, hdescribes⟩ := Landing.exists_describes ops h
    rw [hl]
    exact Margin.shows_ofLanding hdescribes
  refine ⟨_, fun address op => op.text address, Margin.lines_renderAll ops _ fun _ => rfl,
    fun address op => Op.shown_text op address, hshows, ?_, ?_⟩
  · intro limits m m' op hop htransfers hstep hlt
    have hlanded := Machine.landed_of_step hop htransfers hstep
    exact ⟨(hshows _ hlt).rule.mpr hlanded, (hshows _ hlt).marked hlanded⟩
  · rintro p code hcompile rfl hsize k hk
    have hc := compiled_of_compile hcompile
    rw [(hc.laidOut hsize (singleMarks_of_compile hcompile)).returnSites] at hk
    obtain ⟨address, ⟨hlt, hlast⟩, honly⟩ := hc.existsUnique_lastEntry hsize hk
    refine ⟨address, ⟨hlt, ((hshows _ hlt).site k).mpr hlast⟩, ?_⟩
    rintro b ⟨hb, hsite⟩
    exact honly b ⟨hb, ((hshows b hb).site k).mp hsite⟩

/-- Before its first call jumps. -/
def callingMachine : Machine := { Machine.fresh [] .unlimited with address := 1 }

def twoCallsListing : List String :=
  ["      ┌─ branch target",
    "0000 ► PUSH_RET    0",
    "0001   JUMP        +4 ↓ (→ 0005)",
    "      ┌─ return site 0",
    "0002 ↩ PUSH_RET    1",
    "0003   JUMP        +2 ↓ (→ 0005)",
    "      ┌─ return site 1",
    "0004 ↩ JUMP_ZERO   -4 ↑ (→ 0000)",
    "      ┌─ branch target",
    "0005 ► JUMP        +2 ↓ (→ 0007)",
    "0006   HALT",
    "      ┌─ branch target",
    "0007 ► DISPATCH    ; return sites [0002 0004]"]

theorem twoCalls_landings :
    twoCalls.compile = .ok twoCallsCode ∧
      twoCallsCode.ops[callingMachine.address]? = some (.jump 4) ∧
      Op.renderAll twoCallsCode.ops = Text.ofLines twoCallsListing ∧
      ∃ (margin : Nat → Margin) (text : Nat → Op → String),
        (twoCallsCode.ops.toList.mapIdx fun address op =>
          (margin address).lines address (text address op)).flatten = twoCallsListing ∧
        (Op.jump 4).Shown 1 (text 1 (.jump 4)) ∧
        (margin 5).Shows twoCallsCode.ops.toList 5 ∧
        ((margin 5).marker = "►" ∨ (margin 5).marker = "↩") ∧
        ∃! address, address < twoCallsCode.ops.size ∧ (margin address).ShowsSite 1 := by
  have hcompile : twoCalls.compile = .ok twoCallsCode := by cbv
  have hop : twoCallsCode.ops[callingMachine.address]? = some (.jump 4) := by decide
  have hlisting : Op.renderAll twoCallsCode.ops = Text.ofLines twoCallsListing := by decide +kernel
  obtain ⟨m', hstep, haddress⟩ : ∃ m',
      callingMachine.step .standard twoCallsCode.ops = .running m' ∧ m'.address = 5 := ⟨_, rfl, rfl⟩
  obtain ⟨margin, text, hlines, hshown, hshows, hlands, hsites⟩ :=
    listing_marks_exactly_landings twoCallsCode.ops
  have hmarked := (hlands hop trivial hstep (haddress ▸ by decide)).2
  rw [haddress] at hmarked
  rw [hlisting, Text.lines_ofLines (by decide +kernel)] at hlines
  have hsame := List.map_injective_iff.mpr (fun _ _ => String.toList_injective)
    (List.append_cancel_right hlines)
  exact ⟨hcompile, hop, hlisting, margin, text, hsame.symm, hshown 1 _, hshows 5 (by decide),
    hmarked, hsites hcompile rfl (by decide) 1 (by decide)⟩

end Whitespace
