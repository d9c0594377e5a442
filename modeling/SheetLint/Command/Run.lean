import SheetLint.Command.Check
import SheetLint.Command.Words

/-
  Running commands on a disk.
-/

namespace SheetLint.Command

/-- Starts a configuration file. One that is there is written over only by force. -/
def runInit (o : InitOptions) (d : Disk) : Completion :=
  if (d.look? o.output).isSome && !o.force then .failed d [.config (.alreadyExists o.output)]
  else
    match d.write? o.output Config.template.toList with
    | some disk =>
      { disk, out := "Created configuration file: ".toList ++ o.output ++ ['\n'] }
    | none => .failed d [.fileWrite o.output]

/-- The name and the version of the program. -/
def versionLine : String := "semi-guard 0.1.0\n"

/-- Runs a command. -/
def run (c : Command) (d : Disk) : Completion :=
  match c with
  | check g o => Check.run g o d
  | init o => runInit o d
  | version => { disk := d, out := versionLine.toList }

end SheetLint.Command
