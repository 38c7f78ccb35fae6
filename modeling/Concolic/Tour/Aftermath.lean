import Concolic.Tour.Notice
import Concolic.Tour.Report

/-!
# What a command leaves behind

The tour as a function: the exit code, the printed lines and the files that are
there after a command was carried out in an empty directory of a host.  The report is
printed before the drawing is written, so it is complete even if the drawing
cannot be written.  If it can, a notice says so, and its bare lines follow.
-/

namespace Concolic

namespace Tour

/-- How a command ends. -/
inductive Ending where
  | success
  /-- The drawing could not be written. -/
  | notWritten
  /-- The words of the command made no sense. -/
  | misuse
  /-- The atlas refused a run. -/
  | fault
  deriving DecidableEq

/-- The exit code of the program. -/
def Ending.code : Ending → Nat
  | .success => 0
  | .notWritten => 1
  | .misuse => 2
  | .fault => 101

/-- What a command leaves behind. -/
structure Aftermath where
  ending : Ending
  lines : List String
  /-- Names and texts of new files in the working directory. -/
  files : List (String × String)
  deriving DecidableEq

/-- What the tour leaves behind. -/
def Report.aftermath (report : Report) (host : Host) : Aftermath :=
  match report.drawing with
  | none => ⟨.success, report.lines, []⟩
  | some (path, text) =>
      let bare := bareLines (drawingNotice path)
      match host.destination path with
      | .here name => ⟨.success, report.lines ++ bare, [(name, text)]⟩
      | .output => ⟨.success, report.lines ++ Text.lines text ++ bare, []⟩
      | .elsewhere => ⟨.success, report.lines ++ bare, []⟩
      | .refused => ⟨.notWritten, report.lines, []⟩

/-- What a command leaves behind. -/
def Command.aftermath (command : Command) (host : Host) : Aftermath :=
  match command with
  | .help => ⟨.success, [usage], []⟩
  | .version => ⟨.success, [release], []⟩
  | .tour options =>
      match report options host with
      | .ok report => report.aftermath host
      | .error _ => ⟨.fault, [], []⟩

/-- What a command, given by its words, leaves behind. -/
def aftermath (words : List String) (host : Host := {}) : Aftermath :=
  match Command.ofWords words with
  | .ok command => command.aftermath host
  | .error _ => ⟨.misuse, [], []⟩

end Tour

end Concolic
