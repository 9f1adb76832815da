import Whitespace.CommandLine
import Whitespace.Proofs.Artifact
import Whitespace.Proofs.Confinement
import Whitespace.Proofs.Files
import Whitespace.Proofs.Grammar

/-!
A program may be delivered as an artifact. No instruction is lowered to more than half as many ops
as it has bytes, so all code that can be built from a file has an artifact, and from where that was
put it is read back. To build and then run is therefore to execute.
-/
namespace Whitespace

open Layout

theorem Instruction.two_mul_width_le (i : Instruction) : 2 * i.opcode.width ≤ i.encode.length := by
  rw [encode]
  cases i.opcode <;> simp [Opcode.width, Opcode.paramKind, Opcode.encoding]

theorem Layout.two_mul_address_le (is : List Instruction) :
    2 * address is is.length ≤ (Instruction.encodeAll is).length := by
  induction is with
  | nil => exact Nat.le_refl 0
  | cons i is ih =>
    have hi := i.two_mul_width_le
    simp only [address, List.take_length, List.map_cons, List.sum_cons, Instruction.encodeAll,
      List.flatMap_cons, List.length_append] at ih ⊢
    omega

/-- The table has no more entries than there are ops. -/
theorem Compiled.representable {is : List Instruction} {code : Code} (hc : Compiled is code)
    (h : code.ops.size < 2 ^ 64) : code.Representable := by
  refine ⟨h, fun op hop => ?_⟩
  cases op with
  | dispatch t =>
    obtain ⟨a, ha⟩ := Array.mem_iff_getElem?.mp hop
    obtain ⟨-, rfl⟩ := table_of_fetched (hc.fetched ha)
    have hcalls := calls_le_address is
    have hsize := hc.address_lt_size (Nat.le_refl is.length)
    simp only [Op.Representable, table, List.size_toArray, List.length_map, length_returnIndices]
    omega
  | _ => trivial

theorem compile_of_build {source : List UInt8} {strict : Bool} {code : Code}
    (h : (build source strict).value = .ok code) :
    ∃ p, Program.parse source = .ok p ∧ p.compile = .ok code := by
  rw [build] at h
  split at h
  · cases h
  · next p hparse =>
    rw [Program.build] at h
    split at h
    · cases h
    · next code' hcompile =>
      -- Whatever the check says, there is no other code to come out.
      obtain rfl : code' = code := by
        repeat' split at h
        all_goals cases h
        all_goals rfl
      exact ⟨p, hparse, hcompile⟩

theorem representable_of_build {source : List UInt8} {strict : Bool} {code : Code}
    (hlength : source.length < 2 ^ 64) (h : (build source strict).value = .ok code) :
    code.Representable := by
  obtain ⟨p, hparse, hcompile⟩ := compile_of_build h
  have hc := compiled_of_compile hcompile
  have haddress := two_mul_address_le p.instructions.toList
  have hencode : (Instruction.encodeAll p.instructions.toList).length ≤ source.length := by
    rw [← Program.encode, ← Program.encode_of_parse hparse]
    exact List.length_filter_le _ _
  refine hc.representable ?_
  rw [hc.size_ops, dispatcherAddress]
  split
  · omega
  · omega

namespace CommandLine

/-- What becomes of a job, given all that standard input holds: the files, and the outcome. A run
whose code never halts comes to no end. -/
inductive Job.Ends (files : FileTree) (stdin : List UInt8) : Job → FileTree → Outcome → Prop
  | done (after : FileTree) (outcome : Outcome) :
      Ends files stdin (.done after outcome) after outcome
  | run {events : List Event} {code : Code} {limits : Limits} {p : Progress}
      (h : Machine.Finishes limits code.ops (.fresh stdin .unlimited) p) :
      Ends files stdin (.run events code limits) files ((Outcome.ofRun code p).after events)

/-- In these files and with this standard input, the command ends after it has printed this, with
this failure or with none. -/
def Command.Yields (command : Command) (files : FileTree) (stdin stdout : List UInt8)
    (failure : Option String) : Prop :=
  ∃ after outcome, (command.start files).Ends files stdin after outcome ∧
    outcome.stdout = stdout ∧ outcome.failure = failure

variable {files after : FileTree} {source : String} {output : Option String}
  {content : List UInt8} {strict : Bool} {limits : Limits} {code : Code}

/-- The events do not matter for what a run prints and how it fails. -/
theorem yields_iff_of_run {command : Command} {events : List Event}
    (h : command.start files = .run events code limits) {stdin stdout : List UInt8}
    {failure : Option String} :
    command.Yields files stdin stdout failure ↔
      ∃ p, Machine.Finishes limits code.ops (.fresh stdin .unlimited) p ∧
        (Outcome.ofRun code p).stdout = stdout ∧ (Outcome.ofRun code p).failure = failure := by
  rw [Command.Yields, h]
  constructor
  · rintro ⟨_, _, hends, hstdout, hfailure⟩
    cases hends with
    | run hp => exact ⟨_, hp, hstdout, hfailure⟩
  · rintro ⟨p, hp, hstdout, hfailure⟩
    exact ⟨files, _, .run hp, hstdout, hfailure⟩

/-- Where `build` puts the artifact. -/
def artifactPath (source : String) (output : Option String) : String :=
  output.getD (withExtension source "wsbc")

section Commands

variable (hread : files.read source = .ok content)
include hread

/-- Where no code can be built, nothing is left to do, whatever the code was for. -/
theorem start_of_build_error {command : Command} {k : Code → Action} {e : BuildError}
    (hinput : command.input = source)
    (haction : command.action content = building source content strict k)
    (hbuild : (build content strict).value = .error e) :
    command.start files = .done files ((Outcome.failed e.message).after
      (.compiling source content.length :: (build content strict).events)) := by
  simp [Command.start, Command.plan, hinput, hread, haction, building, hbuild]

theorem start_build_of_ok (hbuild : (build content strict).value = .ok code)
    (hreplace : files.replace (artifactPath source output) code.toBytes = .ok after) :
    ∃ built, (Command.build source output strict).start files = .done after built ∧
      built.failure = none := by
  rw [artifactPath] at hreplace
  simp [Command.start, Command.plan, Command.input, hread, Command.action, building, hbuild,
    hreplace, Outcome.saved, Outcome.after]

theorem start_exec_of_ok (hbuild : (build content strict).value = .ok code) (limits : Limits) :
    ∃ events, (Command.exec source strict limits).start files = .run events code limits := by
  simp [Command.start, Command.plan, Command.input, hread, Command.action, building, hbuild]

theorem start_run_of_ok (hcode : Code.ofBytes content = .ok code) (limits : Limits) :
    (Command.run source limits).start files = .run [] code limits := by
  simp [Command.start, Command.plan, Command.input, hread, Command.action, hcode]

end Commands

/-- To build an artifact and then run it is the same as to execute the source. The source is a file,
so its length is a number of 64 bits. If code can be built from it and the artifact is put in its
place, `run` has the very code to run that `exec` has, so both print the same and fail alike. If no
code can be built, `build` and `exec` end alike: they fail with the same text, print nothing and
leave the files as they are. -/
theorem build_then_run_is_exec (hread : files.read source = .ok content)
    (hlength : content.length < 2 ^ 64) (output : Option String) (strict : Bool)
    (limits : Limits) :
    (∀ code after, (build content strict).value = .ok code →
      files.replace (artifactPath source output) code.toBytes = .ok after →
      (∃ built, (Command.build source output strict).start files = .done after built ∧
        built.failure = none) ∧
      (∃ events, (Command.exec source strict limits).start files = .run events code limits) ∧
      (Command.run (artifactPath source output) limits).start after = .run [] code limits ∧
      ∀ stdin stdout failure,
        (Command.exec source strict limits).Yields files stdin stdout failure ↔
          (Command.run (artifactPath source output) limits).Yields after stdin stdout failure) ∧
    ∀ e, (build content strict).value = .error e →
      ∃ outcome, (Command.build source output strict).start files = .done files outcome ∧
        (Command.exec source strict limits).start files = .done files outcome ∧
        outcome.failure = some e.message ∧ outcome.stdout = [] := by
  constructor
  · intro code after hbuild hreplace
    have hcode : Code.ofBytes code.toBytes = .ok code := by
      simpa using Code.ofBytes_toBytes_append (representable_of_build hlength hbuild) []
    obtain ⟨events, hexec⟩ := start_exec_of_ok hread hbuild limits
    have hrun := start_run_of_ok (FileTree.read_replace hreplace) hcode limits
    refine ⟨start_build_of_ok hread hbuild hreplace, ⟨events, hexec⟩, hrun, ?_⟩
    intro stdin stdout failure
    rw [yields_iff_of_run hexec, yields_iff_of_run hrun]
  · intro e hbuild
    exact ⟨_, start_of_build_error hread rfl rfl hbuild, start_of_build_error hread rfl rfl hbuild,
      rfl, rfl⟩

/-- Prints one letter, and then drops a value that is not there. -/
def careless : List UInt8 :=
  [32, 32, 32, 9, 32, 32, 32, 32, 32, 9, 10] ++ [9, 10, 32, 32] ++ [32, 10, 10]

def carelessCode : Code where
  ops := #[.push 65, .writeChar, .drop, .halt]
  returnSites := 0
  dispatcher := none
  sourceInstructions := 3

def carelessFiles : FileTree := .ofFiles ["home"] [(["careless.ws"], careless)]

/-- It fails alike both ways, and unless that is allowed there is nothing to run. -/
theorem careless_delivered :
    carelessFiles.read "careless.ws" = .ok careless ∧ careless.length < 2 ^ 64 ∧
      (build careless false).value = .ok carelessCode ∧
      (∃ after, carelessFiles.replace "careless.wsbc" carelessCode.toBytes = .ok after ∧
        (Command.exec "careless.ws" false .standard).Yields carelessFiles [] [65]
          (some "runtime error at 0002: stack underflow") ∧
        (Command.run "careless.wsbc" .standard).Yields after [] [65]
          (some "runtime error at 0002: stack underflow")) ∧
      ∃ outcome, (Command.build "careless.ws" none true).start carelessFiles =
          .done carelessFiles outcome ∧
        (Command.exec "careless.ws" true .standard).start carelessFiles =
          .done carelessFiles outcome ∧
        outcome.failure =
          some "stack-check error: DROP at 0002 needs 1 values, only 0 guaranteed" := by
  have hread : carelessFiles.read "careless.ws" = .ok careless := by decide +kernel
  have hlength : careless.length < 2 ^ 64 := by decide
  have hbuild : (build careless false).value = .ok carelessCode := by cbv
  have hstrict : (build careless true).value = .error (.stackCheck ⟨2, .drop, 1, 0⟩) := by cbv
  have hpath : artifactPath "careless.ws" none = "careless.wsbc" := by decide +kernel
  have hreplace : carelessFiles.replace "careless.wsbc" carelessCode.toBytes =
      .ok (carelessFiles.set ["home", "careless.wsbc"] carelessCode.toBytes) := by
    decide +kernel
  have hplaced := build_then_run_is_exec hread hlength none false .standard
  have hrefused := build_then_run_is_exec hread hlength none true .standard
  rw [hpath] at hplaced
  obtain ⟨-, ⟨events, hexec⟩, -, hsame⟩ := hplaced.1 _ _ hbuild hreplace
  have hyields : (Command.exec "careless.ws" false .standard).Yields carelessFiles [] [65]
      (some "runtime error at 0002: stack underflow") := by
    refine (yields_iff_of_run hexec).mpr ⟨_, ⟨3, rfl, ?_⟩, ?_, ?_⟩
    · decide +kernel
    · decide +kernel
    · decide +kernel
  obtain ⟨outcome, hfirst, hsecond, hfailure, -⟩ := hrefused.2 _ hstrict
  refine ⟨hread, hlength, hbuild, ⟨_, hreplace, hyields, (hsame _ _ _).mp hyields⟩, outcome, hfirst,
    hsecond, ?_⟩
  rw [hfailure]
  decide +kernel

end CommandLine

end Whitespace
