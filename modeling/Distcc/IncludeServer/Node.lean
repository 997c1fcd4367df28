import Distcc.Base.Explore
import Distcc.Base.Prog
import Distcc.IncludeServer.Caches
import Distcc.IncludeServer.Support

/-!
# The graph of includes

The include server looks for all files that a translation unit may include. It keeps a
graph whose nodes stand for files (`Node`), and a node that was made
once is found again under the request that led to it, and under the real paths of the file
and of its directory (`Key`). A node is put in the cache before its
children are known, so that cycles come to an end. This is
`findNode`; `runAlgorithm` then collects the
files below the node of the translation unit.

A function of Python works on objects. Nodes and support records are numbered in the order
in which they are made, and a reference to one is its number. The parser of files and the
evaluation of computed includes are given by what they return
(`Sources`).
-/

namespace Distcc.IncludeServer

open CString

/-! ### What is given -/

/-- What a macro stands for. -/
structure MacroDef where
  /-- The parameters of a function-like macro. -/
  params : Option (List CString)
  /-- The right-hand side. -/
  rhs : Option CString
deriving DecidableEq

/-- The includes of a file, in order. -/
structure Includes where
  /-- `#include "…"` -/
  quote : List CString
  /-- `#include <…>` -/
  angle : List CString
  /-- `#include` with an expression. -/
  expr : List CString
  /-- `#include_next` -/
  next : List CString
deriving DecidableEq

/-- What `ParseFile.Parse` does with a file. -/
structure FileParse where
  /-- The macros that it defines. -/
  defines : List (CString × MacroDef)
  /-- What it returns, or raises after that. -/
  result : Except PyExc Includes

/-- The symbol table: the definitions of each symbol. -/
abbrev SymbolTable := CString → List MacroDef

/-- What the include server finds: the file system, the directories of the compiler, the
parser and the evaluation of expressions. -/
structure Sources where
  /-- The file system. -/
  fs : FileSystem
  /-- The system directories. -/
  systemdirs : List CString
  /-- The parse of the file with a real path. -/
  parse : CString → FileParse
  /-- The symbol that a definition is for, and what it stands for. -/
  macroDef : CString → CString → Except PyExc (CString × MacroDef)
  /-- `ResolveExpr`: the files an expression may mean, and the symbols it depends on. -/
  resolveExpr : SymbolTable → CString → Directory → Directory → List Directory →
    List Directory → Except PyExc (List (Option (Pair × CString)) × Finset CString)

/-- An include configuration. -/
structure Config where
  /-- The current directory. -/
  currdir : Directory
  /-- Where quoted includes are looked for. -/
  quoteDirs : List Directory
  /-- Where the others are looked for. -/
  angleDirs : List Directory
deriving DecidableEq

/-! ### The state -/

/-- What a node is asked for, with the resolution mode. The directory of the file that
has the include matters for quoted ones. -/
inductive Request where
  | resolved (pair : Pair)
  | quote (fp : CString) (fileDir : Directory)
  | angle (fp : CString)
  | next (fp : CString)
deriving DecidableEq

/-- The key of a node in the cache. -/
inductive Key where
  | request (request : Request)
  | real (real dirReal : CString)
deriving DecidableEq

/-- A node. The name of the file and its real path are there both or not at all. -/
structure Node where
  /-- The resolved pair and the real path. -/
  file : Option (Pair × CString)
  /-- The nodes of the files that are included. -/
  children : List ℕ
  /-- The support record. -/
  record : ℕ
deriving DecidableEq

/-- The node cache and the nodes. -/
structure Graph where
  /-- The numbers of nodes by configuration and key. -/
  masterCache : Config × Key → Option ℕ := fun _ => none
  /-- The nodes by number. -/
  nodes : List Node := []

namespace Graph

/-- `nodes_for_incl_config[key] = node`. -/
def set (g : Graph) (cfg : Config) (key : Key) (n : ℕ) : Graph :=
  { g with masterCache := Function.update g.masterCache (cfg, key) (some n) }

/-- One more node. -/
def add (g : Graph) (node : Node) : Graph := { g with nodes := g.nodes ++ [node] }

/-- `children.append(node_)`. -/
def addChild (g : Graph) (n child : ℕ) : Graph :=
  { g with nodes := g.nodes.modify n fun node =>
      { node with children := node.children ++ [child] } }

/-- The children of a node. -/
def children (g : Graph) (n : ℕ) : List ℕ := (g.nodes[n]?.map Node.children).getD []

end Graph

/-- The state of the analyzer. -/
structure Analyzer where
  /-- What is known of files. -/
  buildStatCache : BuildStatCache := .empty
  /-- What is known of directories. -/
  dirnameCache : DirnameCache := .empty
  /-- The includes of the files that were parsed, by real path. -/
  fileCache : CString → Option Includes := fun _ => none
  /-- The macros that were defined. -/
  symbolTable : SymbolTable := fun _ => []
  /-- The support records. -/
  supportMaster : SupportMaster := {}
  /-- The graph of includes. -/
  graph : Graph := {}
  /-- The names that were mirrored under the client root. -/
  mirrored : List (Pair × Directory) := []

/-- A computation of the analyzer. -/
abbrev Run := Prog Analyzer PyExc

/-! ### Steps -/

/-- `resolve`. -/
def resolve (env : Sources) (cfg : Config) (fp : CString) (searchdir : Option Directory)
    (searchlist : List Directory) : Run (Option (Pair × CString)) := do
  let st ← Prog.get
  let (file, cache) :=
    st.buildStatCache.resolve env.fs fp cfg.currdir searchdir searchlist
  Prog.modify fun st => { st with buildStatCache := cache }
  pure file

/-- The directory of a name, and its real path. -/
def lookupDirname (env : Sources) (cfg : Config) (pair : Pair) : Run (Directory × CString) := do
  let st ← Prog.get
  let (dir, cache) := st.dirnameCache.lookup env.fs cfg.currdir pair
  Prog.modify fun st => { st with dirnameCache := cache }
  match dir with
  | .ok dir => pure dir
  | .error e => Prog.fail e

/-- `InsertMacroDefInTable`, once the definition is taken apart. -/
def insertMacroDef (symbol : CString) (df : MacroDef) : Run Unit :=
  Prog.modify fun st =>
    { st with
      symbolTable := Function.update st.symbolTable symbol (st.symbolTable symbol ++ [df])
      supportMaster := st.supportMaster.invalidateRecords symbol }

/-- The includes of a file, from the cache or from the parser. -/
def includesOf (env : Sources) (real : CString) : Run Includes := do
  let st ← Prog.get
  match st.fileCache real with
  | some includes => pure includes
  | none => do
    Prog.forEach (fun df => insertMacroDef df.1 df.2) (env.parse real).defines
    match (env.parse real).result with
    | .error e => Prog.fail e
    | .ok includes => do
      Prog.modify fun st =>
        { st with fileCache := Function.update st.fileCache real (some includes) }
      pure includes

/-- A name is mirrored once for each current directory. -/
def mirror (cfg : Config) : Option (Pair × CString) → Run Unit
  | none => pure ()
  | some (pair, _) => Prog.modify fun st =>
    if (pair, cfg.currdir) ∈ st.mirrored then st
    else { st with mirrored := st.mirrored ++ [(pair, cfg.currdir)] }

/-- A new support record. -/
def newRecord : Run ℕ := do
  let st ← Prog.get
  Prog.modify fun st => { st with supportMaster := st.supportMaster.addRecord }
  pure st.supportMaster.records.length

/-- `nodes_for_incl_config[key] = node`. -/
def setNode (cfg : Config) (key : Key) (n : ℕ) : Run Unit :=
  Prog.modify fun st => { st with graph := st.graph.set cfg key n }

/-- A new node without children. -/
def newNode (file : Option (Pair × CString)) (record : ℕ) : Run ℕ := do
  let st ← Prog.get
  Prog.modify fun st => { st with graph := st.graph.add ⟨file, [], record⟩ }
  pure st.graph.nodes.length

/-- `children.append(node_)`. -/
def addChild (n child : ℕ) : Run Unit :=
  Prog.modify fun st => { st with graph := st.graph.addChild n child }

/-- `support_record.Update`. -/
def updateSupport (record : ℕ) (symbols : Finset CString) : Run Unit :=
  Prog.modify fun st => { st with supportMaster := st.supportMaster.update record symbols }

/-- `support_record.valid = True`. -/
def setValid (record : ℕ) : Run Unit :=
  Prog.modify fun st => { st with supportMaster := st.supportMaster.setValid record }

/-! ### `FindNode`

The function calls itself for the files that are included. Here it is cut in pieces, and
`find` stands for the calls of the function itself: its arguments are a request and, for
one that is resolved, the real path. -/

section FindNode

variable (env : Sources) (cfg : Config) (find : Request → Option CString → Run ℕ)

/-- The file of a request. -/
def resolveRequest : Request → Option CString → Run (Option (Pair × CString))
  | .quote fp fileDir, _ => resolve env cfg fp (some fileDir) cfg.quoteDirs
  | .angle fp, _ => resolve env cfg fp none cfg.angleDirs
  | .next _, _ => pure none
  | .resolved pair, some real => pure (some (pair, real))
  | .resolved _, none => Prog.fail .assertionError

/-- A child of a node for an include, with what it depends on. -/
def includeChild (n record : ℕ) (request : Request) (real : Option CString) : Run Unit := do
  let child ← find request real
  addChild n child
  let st ← Prog.get
  match st.graph.nodes[child]? with
  | none => pure ()
  | some node => updateSupport record (st.supportMaster.supportOf node.record)

/-- The children of a node for a computed include. -/
def exprChildren (n record : ℕ) (dir : Directory) (expr : CString) : Run Unit := do
  let st ← Prog.get
  match env.resolveExpr st.symbolTable expr cfg.currdir dir cfg.quoteDirs cfg.angleDirs with
  | .error e => Prog.fail e
  | .ok (files, symbols) => do
    Prog.forEach (fun file =>
      match file with
      | none => pure ()
      | some (pair, real) => includeChild find n record (.resolved pair) (some real)) files
    updateSupport record symbols

/-- The child of a dummy node for one of the directories. -/
def nextChild (n : ℕ) (fp : CString) (d : Directory) : Run Unit := do
  match ← resolve env cfg fp none [d] with
  | none => pure ()
  | some (pair, real) => do
    let child ← find (.resolved pair) (some real)
    addChild n child

/-- Is there a node for the real path of the file and that of its directory? If so, the
request gets it. If not, the new node is remembered for them. -/
def realNode (request : Request) (real dirReal : CString) (record n : ℕ) : Run (Option ℕ) :=
  match request with
  | .resolved _ => pure none
  | _ => do
    let st ← Prog.get
    match st.graph.masterCache (cfg, .real real dirReal), st.supportMaster.isValid record with
    | some n', true => do
      setNode cfg (.request request) n'
      pure (some n')
    | _, _ => do
      setNode cfg (.real real dirReal) n
      pure none

/-- The children of the node of a file. -/
def fileChildren (n record : ℕ) (real : CString) (dir : Directory) : Run Unit := do
  setValid record
  let includes ← includesOf env real
  Prog.forEach (fun fp => includeChild find n record (.quote fp dir) none) includes.quote
  Prog.forEach (fun fp => includeChild find n record (.angle fp) none) includes.angle
  Prog.forEach (exprChildren env cfg find n record dir) includes.expr
  Prog.forEach (fun fp => includeChild find n record (.next fp) none) includes.next

/-- What is done about a new node once it is in the cache. -/
def fillNode (request : Request) (file : Option (Pair × CString)) (record n : ℕ) : Run ℕ :=
  match file, request with
  | none, .next fp => do
    Prog.forEach (nextChild env cfg find n fp) cfg.quoteDirs
    pure n
  | none, _ => pure n
  | some (pair, real), _ => do
    let (dir, dirReal) ← lookupDirname env cfg pair
    match ← realNode cfg request real dirReal record n with
    | some n' => pure n'
    | none => do
      fileChildren env cfg find n record real dir
      pure n

/-- A new node for a request whose file is known. -/
def buildNode (request : Request) (file : Option (Pair × CString)) (record : ℕ) : Run ℕ := do
  mirror cfg file
  let n ← newNode file record
  setNode cfg (.request request) n
  fillNode env cfg find request file record n

/-- The body of `FindNode`. -/
def findNodeBody (request : Request) (real : Option CString) : Run ℕ := do
  let st ← Prog.get
  match (st.graph.masterCache (cfg, .request request)).bind fun n =>
      st.graph.nodes[n]?.map fun node => (n, node) with
  | some (n, node) =>
    if st.supportMaster.isValid node.record then pure n
    else buildNode env cfg find request node.file node.record
  | none => do
    let record ← newRecord
    let file ← resolveRequest env cfg request real
    buildNode env cfg find request file record

end FindNode

/-- `FindNode`, with calls no deeper than that. -/
def findNode (env : Sources) (cfg : Config) : ℕ → Request → Option CString → Run ℕ
  | 0 => fun _ _ => Prog.never
  | depth + 1 => findNodeBody env cfg (findNode env cfg depth)

/-! ### The closure -/

/-- An include closure: the names of each real path. -/
abbrev Closure := List (CString × List Pair)

/-- Is the real path below one of the system directories? -/
def startsWithSystemdir (env : Sources) (real : CString) : Bool :=
  env.systemdirs.any fun dir => startsWith dir real

/-- What a node adds to the closure. -/
def addToClosure (env : Sources) (closure : Closure) (node : Node) : Closure :=
  match node.file with
  | none => closure
  | some (pair, real) =>
    if startsWithSystemdir env real then closure
    else
      let closure := if real ∈ closure.map Prod.fst then closure else closure ++ [(real, [])]
      if pair.1.string.head? = some 47 then
        closure.map fun entry =>
          if entry.1 = real then (entry.1, entry.2 ++ [pair]) else entry
      else closure

/-- `_CalculateIncludeClosureExceptSystem`, in so many turns. -/
def calculateIncludeClosureExceptSystem (env : Sources) (turns n : ℕ) : Run Closure := do
  let st ← Prog.get
  match explore st.graph.children
      (fun closure n => (st.graph.nodes[n]?.map (addToClosure env closure)).getD closure)
      turns [n] [] [] with
  | none => Prog.never
  | some closure => pure closure

/-- What `RunAlgorithm` is called for: a file in a configuration, with the options `-D`,
each split at its `=`. -/
structure Call (fs : FileSystem) where
  /-- The configuration. -/
  config : Config
  /-- The translation unit. -/
  pair : Pair
  /-- It is there. -/
  found : Found fs config.currdir pair
  /-- The options. -/
  dOpts : List (List CString)

/-- A definition on the command line. One without a value is not entered. -/
def processDOpt (env : Sources) : List CString → Run Unit
  | [lhs, rhs] =>
    match env.macroDef lhs rhs with
    | .error e => Prog.fail e
    | .ok (symbol, df) => insertMacroDef symbol df
  | _ => pure ()

/-- `RunAlgorithm`, with calls of `FindNode` no deeper, and no more turns of the last loop,
than that. -/
def runAlgorithm (env : Sources) (fuel : ℕ) (call : Call env.fs) : Run Closure := do
  Prog.forEach (processDOpt env) call.dOpts
  let n ← findNode env call.config fuel (.resolved call.pair)
    (some (realOf env.fs call.config.currdir call.pair))
  calculateIncludeClosureExceptSystem env fuel n

end Distcc.IncludeServer
