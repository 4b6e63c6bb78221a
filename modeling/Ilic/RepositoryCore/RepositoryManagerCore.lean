import Ilic.Foundation.DepthFirst
import Ilic.RepositoryCore.ResourceCoordinator

/-! # The manager of the JavaScript package

`RepositoryManagerCore.resolveWorkspace` walks depth-first along the declared
dependencies and loads the file of every model behind the files of its dependencies.
The first failure is thrown.  One call looks a model up once and loads a file once, so
what it meets are functions of the model and of the file.
-/

namespace Ilic.RepositoryCore
open Foundation Foundation.DepthFirst Ilic.Text

/-- What the manager reads of the metadata of a model. -/
structure IndexEntry where
  name : Text
  file : Text
  repository : Text
  md5 : Text := []
  dependencies : List Text := []
  deriving DecidableEq, Repr

/-- What `RepositoryGraphWalker.findModel` gives: a model, none, or an exception. -/
structure Lookup where
  outcome : Except Text (Option IndexEntry)
  diagnostics : List RepositoryDiagnostic := []

/-- What one call meets: the answers of the repository graph, the ports of the loads, the
readings of the cancel signal, and the functions of the package. -/
structure Surroundings where
  findModel : Text → Lookup
  ports : Text → Ports
  aborted : ℕ → Bool := fun _ => false
  decode : Bytes → Except Text Text
  md5 : Bytes → Text
  toLowerCase : Text → Text

structure RepositoryManagerCore where
  policy : RepositoryPolicy := defaultRepositoryPolicy
  surroundings : Surroundings

def builtinModel : Text := "INTERLIS".toList

/-! ## Errors -/

/-- Why a model is not resolved. -/
inductive Fault where
  | cancelled
  | dependencyDepth
  | cycle (path : List Text)
  | notFound (name : Text)
  | modelLimit
  | unsafePath (file reason : Text)
  | checksum (uri expected actual : Text)
  | notLoaded (uri : Text) (error : Option Text)
  | invalidText (uri reason : Text)
  deriving DecidableEq, Repr

def Fault.message : Fault → Text
  | .cancelled => "repository request was cancelled".toList
  | .dependencyDepth => "dependency depth limit exceeded".toList
  | .cycle path => "dependency cycle: ".toList ++ " -> ".toList.intercalate path
  | .notFound name => "model ".toList ++ name ++ " not found in configured repositories".toList
  | .modelLimit => "resolved model limit exceeded".toList
  | .unsafePath file reason =>
    "unsafe repository path ".toList ++ file ++ ": ".toList ++ reason
  | .checksum uri expected actual => mismatchMessage uri expected actual
  | .notLoaded uri error => error.getD ("unable to fetch ".toList ++ uri)
  | .invalidText _ reason => "model source is not valid UTF-8: ".toList ++ reason

/-- The code of the diagnostic that the error adds; a load has reported its failure itself. -/
def Fault.code : Fault → Option String
  | .cancelled => some "ILIC-REPO-CANCELLED"
  | .dependencyDepth => some "ILIC-REPO-LIMIT"
  | .cycle _ => some "ILIC-REPO-CYCLE"
  | .notFound _ => some "ILIC-REPO-NOT-FOUND"
  | .modelLimit => some "ILIC-REPO-LIMIT"
  | .unsafePath _ _ => some "ILIC-REPO-PATH"
  | .checksum _ _ _ => some "ILIC-REPO-CHECKSUM"
  | .notLoaded _ _ => none
  | .invalidText _ _ => some "ILIC-REPO-XML"

/-- What a call throws: a `RepositoryError` with the diagnostics so far that it repeats, or an
exception of a function it calls. -/
inductive Thrown where
  | repositoryError (fault : Fault) (diagnostics : List RepositoryDiagnostic)
  | exception (message : Text)

/-! ## The state of a call -/

structure ResolvedModel where
  metadata : IndexEntry
  uri : Text
  source : Text
  fromCache : Bool
  stale : Bool
  deriving DecidableEq, Repr

structure Resolution where
  resolvedModels : List Text := []
  /-- The checksums of the files. -/
  files : List (Text × Text) := []
  output : List ResolvedModel := []
  diagnostics : List RepositoryDiagnostic := []
  /-- How often the cancel signal has been read. -/
  readings : ℕ := 0

def Resolution.report (state : Resolution) (diagnostics : List RepositoryDiagnostic) :
    Resolution :=
  { state with diagnostics := state.diagnostics ++ diagnostics }

/-- A loop over the names of models; the first failure ends it. -/
def resolveEach (one : Text → Resolution → Except Thrown Resolution) :
    List Text → Resolution → Except Thrown Resolution
  | [], state => .ok state
  | name :: rest, state =>
    match one name state with
    | .error thrown => .error thrown
    | .ok state => resolveEach one rest state

namespace RepositoryManagerCore
variable (manager : RepositoryManagerCore)

/-! ## One model -/

def loadRequest (entry : IndexEntry) (uri : Text) : LoadRequest where
  uri
  kind := .model
  ttl := some manager.policy.modelTtlMs
  expectedMd5 := entry.md5

/-- The file of a model is loaded. -/
def loadFile (entry : IndexEntry) (uri : Text) : LoadResult :=
  ((load (manager.surroundings.ports uri) manager.policy (manager.loadRequest entry uri)).run
    {}).1

/-- The checksum of a file that is there agrees with that of the model. -/
def checksumAgrees (entry : IndexEntry) (checksum : Text) : Bool :=
  !manager.policy.validateChecksums || entry.md5 = [] ||
    manager.surroundings.toLowerCase checksum = manager.surroundings.toLowerCase entry.md5

/-- A file that is not there yet is loaded and put into the output. -/
def emitNew (entry : IndexEntry) (uri : Text) (state : Resolution) : Except Thrown Resolution :=
  let resource := manager.loadFile entry uri
  let state := state.report resource.diagnostics
  if resource.success = false then
    .error (.repositoryError (.notLoaded uri resource.error) state.diagnostics)
  else
    let content := resource.content.getD []
    match manager.surroundings.decode content with
    | .error reason => .error (.repositoryError (.invalidText uri reason) state.diagnostics)
    | .ok source =>
      .ok { state with
        files := state.files ++ [(uri, manager.surroundings.md5 content)]
        output := state.output ++
          [{ metadata := entry, uri, source, fromCache := resource.fromCache
             stale := resource.stale }] }

def emitFile (entry : IndexEntry) (uri : Text) (state : Resolution) : Except Thrown Resolution :=
  match state.files.find? (·.1 = uri) with
  | some (_, checksum) =>
    if manager.checksumAgrees entry checksum then .ok state
    else .error (.repositoryError (.checksum uri entry.md5 checksum) [])
  | none => manager.emitNew entry uri state

/-- The file of a model whose dependencies are there. -/
def emitModel (entry : IndexEntry) (state : Resolution) : Except Thrown Resolution :=
  if manager.policy.maxModelsResolved ≤ state.output.length then
    .error (.repositoryError .modelLimit [])
  else
    match validateRepositoryRelativePath entry.file with
    | .error reason =>
      .error (.repositoryError (.unsafePath entry.file reason) state.diagnostics)
    | .ok path =>
      match resolveRepositoryUri entry.repository path with
      | .error message => .error (.exception message)
      | .ok uri => manager.emitFile entry uri state

/-! ## The walk -/

/-- `#resolveOne`: `room` is what is left of the depth limit with this stack. -/
def resolveOne (room : ℕ) (stack : List Text) (name : Text) (state : Resolution) :
    Except Thrown Resolution :=
  if name = builtinModel ∨ name ∈ state.resolvedModels then .ok state
  else if manager.surroundings.aborted state.readings then
    .error (.repositoryError .cancelled [])
  else
    match room with
    | 0 => .error (.repositoryError .dependencyDepth [])
    | room + 1 =>
      if name ∈ stack then
        .error (.repositoryError (.cycle (stack.drop (stack.idxOf name) ++ [name])) [])
      else
        let lookup := manager.surroundings.findModel name
        match lookup.outcome with
        | .error message => .error (.exception message)
        | .ok found =>
          let state := { state.report lookup.diagnostics with readings := state.readings + 1 }
          match found with
          | none => .error (.repositoryError (.notFound name) state.diagnostics)
          | some entry =>
            match resolveEach (resolveOne room (stack ++ [name])) entry.dependencies state with
            | .error thrown => .error thrown
            | .ok state =>
              match manager.emitModel entry state with
              | .error thrown => .error thrown
              | .ok state =>
                .ok { state with resolvedModels := state.resolvedModels ++ [name] }

/-- The depth limit is positive, and the stack of a call is empty. -/
def resolveWorkspace (models : List Text) : Except Thrown (List ResolvedModel) :=
  match resolveEach (manager.resolveOne manager.policy.maxDependencyDepth.toNat []) models {} with
  | .error thrown => .error thrown
  | .ok state => .ok state.output

end RepositoryManagerCore
end Ilic.RepositoryCore
