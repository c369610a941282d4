import ObjectFlow.CommandLine.Run

/-! # The program -/

namespace ObjectFlow.CommandLine

/-- Reads a file, or a directory with everything below it, as far as it can be read. -/
partial def readEntry (path : String) : IO (Option Entry) := do
  try
    let place ← IO.FS.realPath path
    if ← place.isDir then
      let mut entries := []
      for e in ← place.readDir do
        if let some entry ← readEntry e.path.toString then
          entries := entries ++ [(e.fileName, entry)]
      return some (.directory entries)
    else
      return some (.file (← IO.FS.readFile path))
  catch _ => return none

/-- The files that a command line asks for, and the variables of the environment. -/
def readSurroundings (args : List String) : IO Surroundings := do
  let notePath ← IO.getEnv "TRACEGRAPH_ANNOTATIONS"
  let ontology ← IO.getEnv "TRACEGRAPH_ONTOLOGY"
  let here ← IO.currentDir
  let bare : Surroundings := ⟨⟨.directory [], Path.names here.toString⟩, notePath, ontology⟩
  let mut files := bare.files
  for path in pathsOf bare args do
    if let some entry ← readEntry path then
      files := files.mount path entry
  return { bare with files := files }

/-- Identities that no other run hands out. -/
def freshSupply : IO Supply := do
  let octets ← IO.getRandomBytes 12
  return ⟨octets.toList.foldl (fun n b => 256 * n + b.toNat) 0 * 4294967296⟩

end ObjectFlow.CommandLine

def main (args : List String) : IO UInt32 := do
  let surroundings ← ObjectFlow.CommandLine.readSurroundings args
  let supply ← ObjectFlow.CommandLine.freshSupply
  let report := ObjectFlow.CommandLine.run surroundings supply args
  IO.print report.output
  report.errors.forM IO.eprintln
  return report.code.toUInt32
