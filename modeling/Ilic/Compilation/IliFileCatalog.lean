import Ilic.Foundation.Segments
import Ilic.Session.ModelIndex

/-! # The catalog of INTERLIS files

The `IliFileCatalog` of a compilation loads sources on demand, by their path or by a
model that they declare, and selects those that are to be compiled.  Its sources are
those of the session and those that the compilation has read from the file system.
-/

namespace Ilic.Compilation
open Ilic.Text Foundation
open Session (SourceBuffer SourceManager ParsedSourceHeader)

/-- `compare_case_insensitive`. -/
def sameIgnoringCase (s1 s2 : Text) : Bool := lower s1 = lower s2

def interlis : Text := "INTERLIS".toList

/-! ## Sources -/

structure CompilationSourceStore where
  sessionSources : SourceManager
  ownedSources : TextMap SourceBuffer := ∅

namespace CompilationSourceStore

def get (store : CompilationSourceStore) (uri : Text) : Option SourceBuffer :=
  match store.sessionSources.sources[uri]? with
  | some session => some session
  | none => store.ownedSources[uri]?

def uris (store : CompilationSourceStore) : List Text :=
  store.sessionSources.uris ++
    store.ownedSources.keys.filter fun uri => store.sessionSources.sources[uri]?.isNone

/-- A known source is kept.  The exception for other content under a known URI does not occur,
since the catalog remembers no source twice. -/
def remember (store : CompilationSourceStore) (uri utf8 : Text) : CompilationSourceStore :=
  match store.get uri with
  | some _ => store
  | none => { store with ownedSources := store.ownedSources.insert uri ⟨uri, utf8, 0⟩ }

end CompilationSourceStore

/-! ## Files -/

structure IliFile where
  filepath : Text
  iliVersion : Text := "2.3".toList
  models : List Text := []
  imports : List Text := []
  requiredModels : List Text := []
  deriving DecidableEq, Repr

def IliFile.setParsedHeader (file : IliFile) (header : ParsedSourceHeader) : IliFile :=
  { file with
    iliVersion := if header.iliVersion = [] then "2.3".toList else header.iliVersion
    models := header.models
    imports := header.imports
    requiredModels := header.requiredModels }

/-- What a compilation finds outside of the session: the files on the disk, the parser of
their headers, and its options. -/
structure CompilerSetting where
  fileSystem : TextMap Text
  header : SourceBuffer → ParsedSourceHeader
  builtinModel : Text
  modelDirectories : List Text
  autoSearch : Bool

structure IliFileCatalog where
  sources : CompilationSourceStore
  ownedFiles : List IliFile := []
  files : List IliFile := []
  models : TextMap IliFile := ∅

namespace IliFileCatalog

def findByUri (catalog : IliFileCatalog) (uri : Text) : Option IliFile :=
  catalog.ownedFiles.find? fun file => sameIgnoringCase file.filepath uri

def findByModel (catalog : IliFileCatalog) (name version : Text) : Option IliFile :=
  match catalog.models[name]? with
  | none => none
  | some file => if file.iliVersion ≠ version then none else some file

/-- A new file is registered with the models that it declares. -/
def own (catalog : IliFileCatalog) (file : IliFile) : IliFileCatalog :=
  { catalog with
    ownedFiles := catalog.ownedFiles ++ [file]
    models := file.models.foldl (fun models model => models.insert model file) catalog.models }

/-- Without a result the file is neither registered nor on the disk. -/
def load (setting : CompilerSetting) (catalog : IliFileCatalog) (filepath : Text) :
    Option IliFile × IliFileCatalog :=
  match catalog.findByUri filepath with
  | some known => (some known, catalog)
  | none =>
    match catalog.sources.get filepath with
    | some registered =>
      let file := IliFile.setParsedHeader { filepath } (setting.header registered)
      (some file, catalog.own file)
    | none =>
      match setting.fileSystem[filepath]? with
      | none => (none, catalog)
      | some source =>
        let file := IliFile.setParsedHeader { filepath } (setting.header ⟨filepath, source, 0⟩)
        (some file, { catalog with sources := catalog.sources.remember filepath source }.own file)

def add (catalog : IliFileCatalog) (file : IliFile) : IliFileCatalog :=
  if catalog.files.any fun existing => sameIgnoringCase existing.filepath file.filepath then catalog
  else { catalog with files := catalog.files ++ [file] }

def loadByFile (setting : CompilerSetting) (catalog : IliFileCatalog) (filepath : Text) :
    Option IliFile × IliFileCatalog :=
  match load setting catalog filepath with
  | (none, catalog) => (none, catalog)
  | (some file, catalog) => (some file, catalog.add file)

section LoadByModel
variable (setting : CompilerSetting) (modelname iliVersion : Text)

/-- The loop over the registered sources. -/
def searchSources (catalog : IliFileCatalog) : List Text → Option IliFile × IliFileCatalog
  | [] => (none, catalog)
  | uri :: rest =>
    match load setting catalog uri with
    | (none, catalog) => searchSources catalog rest
    | (some file, catalog) =>
      if file.iliVersion ≠ iliVersion then searchSources catalog rest
      else if modelname ∈ file.models then (some file, catalog.add file)
      else searchSources catalog rest

/-- The loop over the model directories: a file is found by its name alone. -/
def searchDirectories (catalog : IliFileCatalog) : List Text → Option IliFile × IliFileCatalog
  | [] => (none, catalog)
  | directory :: rest =>
    let filepath := PosixPath.append directory (modelname ++ ".ili".toList)
    if setting.fileSystem[filepath]?.isNone then searchDirectories catalog rest
    else
      match load setting catalog filepath with
      | (none, catalog) => searchDirectories catalog rest
      | (some file, catalog) =>
        if file.iliVersion = iliVersion then (some file, catalog.add file)
        else searchDirectories catalog rest

def autoSearch (catalog : IliFileCatalog) : Option IliFile × IliFileCatalog :=
  if setting.autoSearch then
    searchDirectories setting modelname iliVersion catalog setting.modelDirectories
  else (none, catalog)

/-- The model `INTERLIS` is built in. -/
def loadInterlis (catalog : IliFileCatalog) : IliFile × IliFileCatalog :=
  match catalog.findByUri interlis with
  | some known => (known, catalog.add known)
  | none =>
    let file : IliFile := { filepath := interlis }
    (file, { catalog with
      sources := catalog.sources.remember interlis setting.builtinModel
      ownedFiles := catalog.ownedFiles ++ [file]
      files := file :: catalog.files })

def loadByModel (catalog : IliFileCatalog) : Option IliFile × IliFileCatalog :=
  match catalog.findByModel modelname iliVersion with
  | some known => (some known, catalog.add known)
  | none =>
    if modelname = interlis then
      let (file, catalog) := loadInterlis setting catalog
      (some file, catalog)
    else
      match searchSources setting modelname iliVersion catalog catalog.sources.uris with
      | (some file, catalog) => (some file, catalog)
      | (none, catalog) => autoSearch setting modelname iliVersion catalog

end LoadByModel
end IliFileCatalog
end Ilic.Compilation
