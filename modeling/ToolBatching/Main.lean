import ToolBatching.CommandLine.Basic

namespace ToolBatching

def removeLeftover (file : String) : IO Unit := do
  try IO.FS.removeFile file catch _ => pure ⟨⟩

/-- Real files. A text is written beside its file first and then moved in place. -/
def realDisk : Disk IO where
  read file := do
    try some <$> IO.FS.readFile file catch _ => pure none
  write file text := do
    let part := file ++ ".part"
    try
      IO.FS.writeFile part text
      IO.FS.rename part file
      pure true
    catch _ =>
      removeLeftover part
      pure false

def usage : List String :=
  ["Usage: layerbatch [-v | -q] batch INPUT OUTPUT [SETTINGS] [--json]",
    "       layerbatch [-v | -q] inspect INPUT [--json]",
    "       layerbatch [-v | -q] sample OUTPUT [--layers COUNT]"]

def Outcome.errorLines : Outcome → List String
  | done printout => printout.warnings
  | failed failure =>
      ("Error: " ++ failure.message)
        :: (failure.cause?.toList.flatMap fun cause => ["", "Caused by:", "    " ++ cause])
  | misused => usage

def Outcome.output : Outcome → String
  | done printout => printout.text
  | _ => ""

end ToolBatching

def main (arguments : List String) : IO UInt32 := do
  let outcome ← ToolBatching.runArguments ToolBatching.realDisk arguments
  for line in outcome.errorLines do
    IO.eprintln line
  IO.print outcome.output
  pure outcome.code.toUInt32
