import PhpWeave.Load.Cache
import PhpWeave.Token.Stream
import PhpWeave.Weave.Weaver

/-!
The loader: classes are found, woven by a chain and cached. The key of an entry names the chain, so
an entry of another chain is not served. A class that is turned away is loaded as it is. Settings say
where the cache lies, which classes are woven and which files are watched.
-/

namespace PhpWeave

/-- The settings of a loader. -/
structure LoaderSettings where
  cacheDirectory : Path
  /-- When there are any, only classes that begin with one of these are woven. -/
  included : List Text := []
  /-- Classes that begin with one of these are never woven. -/
  excluded : List Text := []
  watched : List Path := []
  deriving DecidableEq, Repr

namespace LoaderSettings

def cacheName : Text := "jit-cache"

/-- The settings for a directory of temporary files and for the value of the environment variable
that names another cache directory. An empty value counts as none. -/
def ofEnvironment (temporary : Path) (value : Option Path) : LoaderSettings :=
  match value with
  | none | some [] => { cacheDirectory := Path.push temporary cacheName }
  | some directory => { cacheDirectory := directory }

def admits (settings : LoaderSettings) (className : Text) : Bool :=
  let name := Text.dropLeadingSeparators className
  let begins (start : Text) : Bool := (Text.dropLeadingSeparators start).isPrefixOf name
  !settings.excluded.any begins &&
    (settings.included.isEmpty || settings.included.any begins)

end LoaderSettings

/-- Why a class could not be loaded. -/
inductive LoadError where
  | store (error : StoreError)
  | unwoven (path : Path) (fault : BracketFault)
  deriving DecidableEq, Repr

def LoadError.message : LoadError → Text
  | .store error => error.message
  | .unwoven path fault => "cannot patch ".toList ++ path ++ ": ".toList ++ fault.message

/-- Settings and a chain. -/
structure Loader (ω : Type) where
  settings : LoaderSettings
  chain : Chain ω

namespace Loader

def release : Text := "0.1.0-alpha.1"

variable {ω : Type}

def cache (loader : Loader ω) : Cache :=
  ⟨loader.settings.cacheDirectory, loader.settings.watched⟩

def cacheKey (loader : Loader ω) : Text :=
  release ++ ':' :: Text.joinWith [','] loader.chain.names

variable [Weaver ω]

def allows (loader : Loader ω) (className : Text) : Bool :=
  loader.settings.admits className && loader.chain.accepts className

def locate (loader : Loader ω) (className : Text) (found : Path) : Path :=
  loader.chain.locate className found

def weaveSource (loader : Loader ω) (source : Text) (file : Option Path) :
    Except LoadError Text × Loader ω :=
  match loader.chain.weave source file with
  | (.error fault, chain) => (.error (.unwoven (file.getD []) fault), { loader with chain := chain })
  | (.ok text, chain) => (.ok text, { loader with chain := chain })

variable {σ : Type} [Volume σ]

def readSource (volume : σ) (path : Path) : Except LoadError Text :=
  match Volume.readText volume path with
  | .error failure => .error (.store (.unreadable path failure))
  | .ok text => .ok text

def weaveFile [MetadataFormat] (loader : Loader ω) (volume : σ) (path : Path) :
    Except LoadError Text × Loader ω × σ :=
  match readSource volume path with
  | .error error => (.error error, loader, volume)
  | .ok source =>
    match loader.weaveSource source (some path) with
    | (.error error, loader) => (.error error, loader, volume)
    | (.ok text, woven) =>
      match loader.cache.put volume path loader.cacheKey text with
      | (.error error, volume) => (.error (.store error), woven, volume)
      | (.ok _, volume) => (.ok text, woven, volume)

/-- The woven text of a file, from the cache while it is fresh. -/
def loadFile [MetadataFormat] (loader : Loader ω) (volume : σ) (path : Path) :
    Except LoadError Text × Loader ω × σ :=
  match loader.cache.get? volume path loader.cacheKey with
  | some text => (.ok text, loader, volume)
  | none => loader.weaveFile volume path

def loadClass [MetadataFormat] (loader : Loader ω) (volume : σ) (className : Text)
    (found : Path) : Except LoadError Text × Loader ω × σ :=
  let path := loader.locate className found
  if loader.allows className then loader.loadFile volume path
  else (readSource volume path, loader, volume)

end Loader
end PhpWeave
