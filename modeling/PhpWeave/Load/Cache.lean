import PhpWeave.Load.Volume

/-!
The cache of woven files. Under its directory each file lies at the path of its source, with two
dots spelled as a name of their own so that nothing leads out of the directory. Metadata lies
beside it. An entry counts while neither its source nor a watched file has changed since it was
written, and for the key it was written under.

The metadata beside a file is the key it was woven under and the path of its source. How it is written
as bytes is up to a format. In the format of this library each of the two is its length in eight bytes,
the lowest first, and its bytes. Bytes after the two are let pass when reading; a text that is cut
short or malformed makes the metadata unreadable.

Paths are those of Unix, in UTF-8. So no part of a source is a drive or another prefix that would need
a spelling of its own, and since the source in it is always a text, metadata never fails to be encoded:
there is no error for that.
-/

namespace PhpWeave

/-! ### Metadata -/

/-- What is known of a cached file. -/
structure Metadata where
  key : Text
  source : Path
  deriving DecidableEq, Repr

namespace Metadata

def numberBytes : Nat → Nat → Bytes
  | 0, _ => []
  | count + 1, n => UInt8.ofNat (n % 256) :: numberBytes count (n / 256)

def numberOf : Bytes → Nat
  | [] => 0
  | byte :: rest => byte.toNat + 256 * numberOf rest

def lengthWidth : Nat := 8

def encodeText (text : Text) : Bytes :=
  let bytes := Utf8.encode text
  numberBytes lengthWidth bytes.length ++ bytes

def encode (metadata : Metadata) : Bytes := encodeText metadata.key ++ encodeText metadata.source

def decodeText? (bytes : Bytes) : Option (Text × Bytes) :=
  if bytes.length < lengthWidth then none
  else
    let length := numberOf (bytes.take lengthWidth)
    let rest := bytes.drop lengthWidth
    if rest.length < length then none
    else (Utf8.decode (rest.take length)).map fun text => (text, rest.drop length)

def decode? (bytes : Bytes) : Option Metadata :=
  (decodeText? bytes).bind fun key =>
    (decodeText? key.2).map fun source => ⟨key.1, source.1⟩

end Metadata

/-- A format of metadata. Writing never fails, as keys and paths are texts; what is read from bytes
that were not written so is up to the format. -/
class MetadataFormat where
  encode : Metadata → Bytes
  decode? : Bytes → Option Metadata

instance : MetadataFormat := ⟨Metadata.encode, Metadata.decode?⟩

/-- Whether metadata is read as it was written. -/
def Metadata.RoundTrips [MetadataFormat] (metadata : Metadata) : Prop :=
  MetadataFormat.decode? (MetadataFormat.encode metadata) = some metadata

/-! ### The cache -/

/-- Why a file could not be loaded or cached. -/
inductive StoreError where
  | unreadable (path : Path) (failure : FileError)
  | unwritable (path : Path) (failure : FileError)
  deriving DecidableEq, Repr

def StoreError.message : StoreError → Text
  | .unreadable path failure =>
    "cannot read ".toList ++ path ++ ": ".toList ++ failure.message
  | .unwritable path failure =>
    "cannot write cache entry ".toList ++ path ++ ": ".toList ++ failure.message

/-- A cache: its directory and the files whose change makes every entry stale. -/
structure Cache where
  directory : Path
  watched : List Path := []
  deriving DecidableEq, Repr

namespace Cache

def pushPart (path : Path) : Path.Part → Path
  | .name text => Path.push path text
  | .up => Path.push path ['_', '_']
  | .root | .here => path

def pathOf (cache : Cache) (source : Path) : Path :=
  (Path.parts source).foldl pushPart cache.directory

def metadataPath (woven : Path) : Path := woven ++ ".meta".toList

variable {σ : Type} [Volume σ]

def changedAfter (volume : σ) (moment : Nat) (path : Path) : Bool :=
  ((Volume.changed? volume path).map fun changed => decide (moment < changed)).getD false

def metadata? [MetadataFormat] (volume : σ) (woven : Path) : Option Metadata :=
  match Volume.read volume (metadataPath woven) with
  | .error _ => none
  | .ok bytes => MetadataFormat.decode? bytes

/-- The woven text of a source, when it is fresh and was put under the key. -/
def get? [MetadataFormat] (cache : Cache) (volume : σ) (source : Path) (key : Text) :
    Option Text :=
  let woven := cache.pathOf source
  match Volume.changed? volume woven with
  | none => none
  | some moment =>
    if (source :: cache.watched).any (changedAfter volume moment) then none
    else if (metadata? volume woven).map Metadata.key = some key then
      (Volume.readText volume woven).toOption
    else none

def makeRoom (volume : σ) (woven : Path) : Except StoreError Unit × σ :=
  match Path.parent? woven with
  | none => (.ok (), volume)
  | some parent =>
    match Volume.makeDirectories volume parent with
    | (.error failure, volume) => (.error (.unwritable parent failure), volume)
    | (.ok (), volume) => (.ok (), volume)

def writeFile (volume : σ) (path : Path) (bytes : Bytes) : Except StoreError Unit × σ :=
  match Volume.write volume path bytes with
  | (.error failure, volume) => (.error (.unwritable path failure), volume)
  | (.ok (), volume) => (.ok (), volume)

/-- Puts the woven text of a source under a key: the metadata first, then the text. -/
def put [MetadataFormat] (cache : Cache) (volume : σ) (source : Path) (key text : Text) :
    Except StoreError Path × σ :=
  let woven := cache.pathOf source
  match makeRoom volume woven with
  | (.error failure, volume) => (.error failure, volume)
  | (.ok (), volume) =>
    match writeFile volume (metadataPath woven) (MetadataFormat.encode ⟨key, source⟩) with
    | (.error failure, volume) => (.error failure, volume)
    | (.ok (), volume) =>
      match writeFile volume woven (Utf8.encode text) with
      | (.error failure, volume) => (.error failure, volume)
      | (.ok (), volume) => (.ok woven, volume)

def clear (cache : Cache) (volume : σ) : Except StoreError Unit × σ :=
  if Volume.has volume cache.directory then
    match Volume.removeTree volume cache.directory with
    | (.error failure, volume) => (.error (.unreadable cache.directory failure), volume)
    | (.ok (), volume) => (.ok (), volume)
  else (.ok (), volume)

end Cache
end PhpWeave
