/-! What a stage of the analysis has to be given before it can run. -/

namespace StoryFlow

inductive Part where
  | story
  | symbols
  | graphs
  | graph
  | identities
  | log
  | fileSystem
  deriving DecidableEq, Repr

namespace Part

def missingText : Part → String
  | .story => "the Story is missing"
  | .symbols => "the Symbols table is missing"
  | .graphs => "the Graphs are missing"
  | .graph => "the Graph is missing"
  | .identities => "the Alloc is missing"
  | .log => "the Logf function is missing"
  | .fileSystem => "the Fs is missing"

def firstMissing (needs absent : List Part) : Option Part := needs.find? absent.contains

def ofScenes : List Part := [.symbols, .identities, .log]

def ofProgram : List Part := [.story, .graphs, .identities, .log]

def ofAssignment : List Part := [.graph, .symbols, .log]

def ofAnalysis : List Part := [.story, .symbols, .log]

def ofLoading : List Part := [.fileSystem, .log]

end Part

end StoryFlow
