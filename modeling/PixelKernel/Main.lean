import PixelKernel.Command.Run

/-! # The program

Connects the command line to the disk and the standard streams.
-/

namespace PixelKernel

open Command (Disk PathFault)

/-- The reason of a failure, as reports give it. -/
def reason : IO.Error → String
  | .noFileOrDirectory .. => PathFault.missing.text
  | .alreadyExists .. => PathFault.occupied.text
  | .inappropriateType _ code _ =>
    (if code = 20 then PathFault.notDirectory else PathFault.isDirectory).text
  | .invalidArgument _ 36 _ => PathFault.tooLong.text
  | .permissionDenied .. => "Permission denied (os error 13)"
  | e => toString e

def attempt {α : Type} (act : IO α) : IO (Except String α) := do
  match ← act.toBaseIO with
  | .ok a => return .ok a
  | .error e => return .error (reason e)

def files : Disk IO where
  read path := attempt (IO.FS.readBinFile path)
  makeDirectory path := attempt (if path.isEmpty then pure () else IO.FS.createDirAll path)
  write path bytes := attempt (IO.FS.writeBinFile path bytes)

end PixelKernel

def main (args : List String) : IO UInt32 := do
  let setting ← IO.getEnv "FIRTREE_INSTRUCTION_BUDGET"
  let outcome ← PixelKernel.Command.run PixelKernel.files (.ofSetting setting) args
  IO.print outcome.output
  IO.eprint outcome.errors
  return UInt32.ofNat outcome.code
