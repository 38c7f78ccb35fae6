import Concolic.Tour.Aftermath

/-!
# The tour as a program

Prints the report and writes the drawing.  A command with a misuse prints
nothing but the cause.  The program has no clock, so of the notice about the
drawing it shows only the bare lines.
-/

namespace Concolic

namespace Tour

/-- The exit code of the process. -/
def exit (ending : Ending) : IO UInt32 :=
  return ending.code.toUInt32

/-- Print the report and write the drawing. -/
def present (report : Report) : IO UInt32 := do
  report.lines.forM IO.println
  match report.drawing with
  | none => exit .success
  | some (path, text) =>
      try
        (← IO.getStdout).flush
        IO.FS.writeFile path text
        (bareLines (drawingNotice path)).forM IO.println
        exit .success
      catch problem =>
        IO.eprintln problem.toString
        exit .notWritten

/-- Carry out a command, and return the exit code. -/
def run : Command → IO UInt32
  | .help => do
      IO.println usage
      exit .success
  | .version => do
      IO.println release
      exit .success
  | .tour options =>
      match report options with
      | .ok report => present report
      | .error fault => do
          IO.eprintln fault.message
          exit .fault

end Tour

end Concolic

def main (args : List String) : IO UInt32 :=
  match Concolic.Tour.Command.ofWords args with
  | .ok command => Concolic.Tour.run command
  | .error misuse => do
      IO.eprintln misuse.message
      IO.eprintln Concolic.Tour.usage
      Concolic.Tour.exit .misuse
