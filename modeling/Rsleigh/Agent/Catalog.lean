import Rsleigh.Agent.Contracts

namespace Rsleigh.Agent

-- The other operations of agent/contracts.rs.
inductive Target where
  | binary
  | none
  | optionalBinary
  deriving DecidableEq

def handoffFlag : Flag := (switch "--handoff").withRole .output
def shellFlag : Flag := (value "--shell" .text).withRole .output
def requireFlag : Flag := repeated "--require" .text

def xrefsOperation : Operation where
  id := "xrefs"
  mode := value "--xrefs" .function
  schema := "rsleigh.xrefs/v1"
  positional := none
  flags := [jsonFlag]

def searchOperation : Operation where
  id := "search"
  mode := switch "--search"
  schema := "rsleigh.search/v1"
  positional := some "QUERY"
  flags := [switch "--api",switch "--const",switch "--tag",switch "--decompile",jsonFlag]

def indexOperation : Operation where
  id := "index"
  mode := value "--index" .path
  schema := "rsleigh.index/v2"
  positional := none
  flags := [value "--limit" .count,jsonFlag]

def verifyIndexOperation : Operation where
  id := "verify-index"
  mode := value "--verify-index" .path
  schema := "rsleigh.index-verification/v1"
  positional := none
  flags := [jsonFlag]

def exportBundleOperation : Operation where
  id := "export-bundle"
  mode := value "--export-bundle" .path
  schema := "rsleigh.evidence-bundle/v1"
  positional := none
  flags := [value "--evidence-store" .path,repeated "--record" .text,value "--investigation" .path,jsonFlag]

def verifyBundleOperation : Operation where
  id := "verify-bundle"
  mode := value "--verify-bundle" .path
  schema := "rsleigh.bundle-verification/v1"
  positional := none
  flags := [jsonFlag]

def importBundleOperation : Operation where
  id := "import-bundle"
  mode := value "--import-bundle" .path
  schema := "rsleigh.bundle-import/v1"
  positional := none
  flags := [value "--evidence-store" .path,value "--investigation" .path,jsonFlag]

def investigateOperation : Operation where
  id := "investigate"
  mode := value "--investigate" .path
  schema := "rsleigh.investigation-view/v1"
  positional := none
  flags := [value "--question" .text,requireFlag,handoffFlag,shellFlag,jsonFlag]

def investigationOperation : Operation where
  id := "investigation"
  mode := value "--investigation" .path
  schema := "rsleigh.investigation-view/v1"
  positional := none
  flags := [
    handoffFlag,
    shellFlag,
    value "--expect-revision" .count,
    value "--add-question" .text,
    requireFlag,
    value "--add-unknowns" .text,
    repeated "--node" .count,
    value "--observe" .text,
    value "--infer" .text,
    value "--support" .text,
    value "--contradict" .text,
    value "--resolve" .text,
    value "--disposition" .text,
    value "--note" .text,
    repeated "--cite" .text,
    jsonFlag
  ]

def operations : List Operation := [
  agentBriefOperation,
  cardOperation,
  xrefsOperation,
  searchOperation,
  indexOperation,
  verifyIndexOperation,
  sliceOperation,
  compareOperation,
  exportBundleOperation,
  verifyBundleOperation,
  importBundleOperation,
  investigateOperation,
  investigationOperation
]

-- The `target` of an operation.
def Operation.target (op : Operation) : Target :=
  if op.id ∈ ["verify-bundle","import-bundle","investigation"] then .optionalBinary else .binary

end Rsleigh.Agent
