import StoryFlow.Command.Run
import StoryFlow.Files.Disk

/-! The program run on a model of a disk, so that a run is a function from what is there to what it
leaves behind. -/

namespace StoryFlow.Command

open Files

structure Transcript where
  disk : Disk
  output : String := ""
  log : List String := []

namespace Transcript

def onDisk {α : Type} (action : ExceptT FileError (StateM Disk) α) :
    ExceptT FileError (StateM Transcript) α :=
  ExceptT.mk fun t =>
    let (result, disk) := action.run t.disk
    (result, { t with disk })

def fileSystem : FileSystem (StateM Transcript) where
  read name := onDisk (Disk.fileSystem.read name)
  list name := onDisk (Disk.fileSystem.list name)
  makeDirs name := onDisk (Disk.fileSystem.makeDirs name)
  write name data := onDisk (Disk.fileSystem.write name data)

end Transcript

/-- Runs the program on a disk. A run that is cancelled notices after the story is loaded. -/
def runOn (disk : Disk) (environment : Option String) (cancelled : Bool)
    (identity : Option Identity) (args : List String) : Except CommandError Unit × Transcript :=
  let host : Host (StateM Transcript) := {
    files := Transcript.fileSystem
    print := fun text => modify fun t => { t with output := t.output ++ text }
    log := fun line => modify fun t => { t with log := t.log ++ [line] }
    workingDir := Path.ofParts true disk.workingDir
    environment, cancelled }
  (run host identity args).run { disk }

end StoryFlow.Command
