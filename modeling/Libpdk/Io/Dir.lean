import Libpdk.Codecs.Utf16
import Libpdk.Io.FileSystemEntry
import Libpdk.Io.Resource

/-!
# Directories

How `Dir` cleans a path, makes it absolute, and leads from a directory to a file, where paths begin
with a slash. The cleaner reads the path from its end on and writes the new one from the end of a
buffer on, which is as long as the path. `none` is a unit that would be written in front of it.
-/
namespace Libpdk.Io

namespace Dir

/-! ## Cleaning

What is left of the path is a list in the order in which it is read: `p[i]`, `p[i - 1]`, and so on.
What was written is a list too: `out[used]`, `out[used + 1]`, and so on. -/

/-- `out[--used] = c` -/
def put (len : Nat) (out : Str) (c : UInt16) : Option Str :=
  if out.length < len then some (c :: out) else none

/-- The units of a text in front of `out`. -/
def putAll (len : Nat) (out : Str) : Str → Option Str
  | [] => some out
  | c :: s => (putAll len out s).bind (put len · c)

/-- A slash in front of `out`, unless it is empty or begins with one. -/
def putSlash (len : Nat) (out : Str) : Option Str :=
  if out ≠ [] ∧ out.head? ≠ some separator then put len out separator else some out

/-- mirrors io/fs/Dir.cpp:90-110 -/
def rootLength (name : Str) (allowUncPaths : Bool) : Nat :=
  if allowUncPaths ∧ [separator, separator].isPrefixOf name then
    if separator ∈ name.drop 2 then (name.drop 2).idxOf separator + 3 else name.length
  else if name.head? = some separator then 1
  else 0

/-- Whether the place behind what is left is where a segment begins. -/
def segmentStart (p : Str) : Bool := p = [] ∨ p.head? = some separator

/-- A segment is copied, or skipped if `up` is not 0.
mirrors io/fs/Dir.cpp:639-651 -/
def copySegment (len up : Nat) : Str → Str → Option (Str × Str)
  | [], out => some ([], out)
  | c :: p, out =>
    if c = separator then some (p, out)
    else if up = 0 then (put len out c).bind (copySegment len up p)
    else copySegment len up p out

/-- mirrors io/fs/Dir.cpp:612-656 -/
def scanLoop (len : Nat) : Nat → Str → Nat → Str → Option (Nat × Str)
  | _, [], up, out => some (up, out)
  | 0, _ :: _, _, _ => none
  | rounds + 1, c :: p, up, out =>
    if c = separator then scanLoop len rounds p up out
    else if c = dot ∧ segmentStart p then scanLoop len rounds p up out
    else if c = dot ∧ p.head? = some dot ∧ segmentStart p.tail then
      scanLoop len rounds p.tail (up + 1) out
    else do
      let out ← if up = 0 then putSlash len out else some out
      let (p, out) ← copySegment len up (c :: p) out
      scanLoop len rounds p (up - 1) out

/-- mirrors io/fs/Dir.cpp:664-673 -/
def addUps (len : Nat) : Nat → Str → Option Str
  | 0, out => some out
  | up + 1, out => do
    let out ← putSlash len out
    let out ← putAll len out [dot, dot]
    addUps len up out

/-- The slash at the end is written again.
mirrors io/fs/Dir.cpp:606-610 -/
def trailingSlash (len : Nat) (p : Str) : Option (Str × Str) :=
  if 1 < p.length ∧ p.head? = some separator then (put len [] separator).map (p.tail, ·)
  else some (p, [])

/-- mirrors io/fs/Dir.cpp:675-698 -/
def putRoot (len : Nat) (root out : Str) : Option Str :=
  if root ≠ [] then putAll len (if out.head? = some separator then out.tail else out) root
  else if out = [] ∨ out.head? = some separator then put len out dot
  else some out

/-- What is in the buffer in the end, and `ok`.
mirrors io/fs/Dir.cpp:594-698 -/
def normalizeBuffer (name : Str) (allowUncPaths : Bool) : Option (Str × Bool) := do
  let prefixLength := rootLength name allowUncPaths
  let (p, out) ← trailingSlash name.length (name.drop prefixLength).reverse
  let (up, out) ← scanLoop name.length p.length p 0 out
  let ok := prefixLength = 0 ∨ up = 0
  let out ← addUps name.length up out
  let out ← putRoot name.length (name.take prefixLength) out
  some (out, ok)

section

variable [Host]

/-- mirrors lang/String.cpp:2445-2457 -/
def fromUtf16 (s : Str) : Str :=
  (Codecs.Utf16.convertToUnicode (s.flatMap (Codecs.Utf16.put Codecs.hostEndianness)) none
    .detectEndianness).1

/-- A path that was not modified is returned as it is.
mirrors io/fs/Dir.cpp:584-706 -/
def normalizePathSegments (name : Str) (allowUncPaths : Bool) : Option (Str × Bool) :=
  if name = [] then some (name, false)
  else do
    let (out, ok) ← normalizeBuffer name allowUncPaths
    some (if out.length = name.length then name else fromUtf16 out, ok)

/-- `ok` is what it was where the path is empty.
mirrors io/fs/Dir.cpp:711-732 -/
def cleanPathOk (path : Str) (ok : Bool) : Option (Str × Bool) :=
  if path = [] then some (path, ok)
  else do
    let (ret, ok) ← normalizePathSegments path false
    some (if ret.length > 1 ∧ ret.getLast? = some separator then ret.dropLast else ret, ok)

/-- mirrors io/fs/Dir.cpp:1274-1277 -/
def cleanPath (path : Str) : Option Str := (cleanPathOk path false).map Prod.fst

end

/-! ## Absolute paths -/

/-- The names of files as the system has them, and where the process is. -/
structure FileSystem where
  encodeName : Str → Bytes
  decodeName : Bytes → Str
  currentPath : Bytes

/-- `getFilePath` of an entry made from a native path. -/
def FileSystem.filePath (fs : FileSystem) (native : Bytes) : Str :=
  if native = [] then [] else fs.decodeName native

section

variable [Host] (fs : FileSystem)

/-- The path of the entry, behind the current one if it is relative.
mirrors io/fs/_platform/FileSystemEngineUnix.cpp:823-834 -/
def nativeAbsolute (entry : FileSystemEntry) : Bytes :=
  let orig := fs.encodeName entry.filePath
  let result := if orig = [] ∨ orig.head? ≠ some (byte '/') then fs.currentPath else []
  if orig ≠ [] ∧ orig ≠ [byte '.'] then
    (if result ≠ [] ∧ result.getLast? ≠ some (byte '/') then result ++ [byte '/'] else result) ++ orig
  else result

/-- mirrors io/fs/_platform/FileSystemEngineUnix.cpp:815-850 -/
def getAbsoluteName (entry : FileSystemEntry) : Option FileSystemEntry :=
  if entry.filePath = [] then some entry
  else if entry.isAbsolute ∧ entry.isClean then some entry
  else
    let result := nativeAbsolute fs entry
    if result = [byte '/'] then some (.ofPath (fs.filePath result))
    else do
      let isDir := result.getLast? = some (byte '/')
      let stringVersion ← cleanPath (fs.filePath result)
      some (.ofPath (if isDir then stringVersion ++ [separator] else stringVersion))

/-- Through the absolute name and the cleaner. -/
def resolveSlowly (dirEntry : FileSystemEntry) : Option FileSystemEntry := do
  let entry ← getAbsoluteName fs dirEntry
  let path ← cleanPath entry.filePath
  some (.ofPath path)

/-- `m_absoluteDirEntry`; `fileEngine` is the absolute name that an engine gives.
mirrors io/fs/Dir.cpp:219-235 -/
def resolveAbsoluteEntry (fileEngine : Option Str) (absoluteDirEntry dirEntry : FileSystemEntry) :
    Option FileSystemEntry :=
  if absoluteDirEntry.filePath ≠ [] ∨ dirEntry.filePath = [] then some absoluteDirEntry
  else
    match fileEngine with
    | none =>
      if !dirEntry.isRelative ∧ dirEntry.isClean then some dirEntry
      else resolveSlowly fs dirEntry
    | some absoluteName => (cleanPath absoluteName).map .ofPath

end

/-! ## Relative paths -/

/-- What is known of paths beside the file system: `isRelativePath` of the engine that a registered
handler makes for a path, and whether the search paths of a prefix lead to a relative path. -/
structure FileEngines where
  handler : Str → Option Bool
  searched : Str → Bool

/-- What is in front of the first slash.
mirrors io/fs/FileSystemEngine.cpp:71-75 -/
def firstSegment (path : Str) : Str := path.takeWhile (· ≠ separator)

/-- mirrors io/fs/Dir.cpp:1279-1282, io/fs/FileInfo.cpp:355-365 and
io/fs/FileSystemEngine.cpp:63-105 -/
def isRelativePath (engines : FileEngines) (path : Str) : Bool :=
  if path = [] then true
  else
    match engines.handler path with
    | some relative => relative
    | none =>
      if unit ':' ∈ firstSegment path then
        if (firstSegment path).idxOf (unit ':') = 0 then false
        else if (firstSegment path).idxOf (unit ':') = 1 then (FileSystemEntry.ofPath path).isRelative
        else engines.searched path
      else (FileSystemEntry.ofPath path).isRelative

/-- How many segments are the same.
mirrors io/fs/Dir.cpp:522-529 -/
def commonSegments : List Str → List Str → Nat
  | d :: dirElts, f :: fileElts => if d = f then commonSegments dirElts fileElts + 1 else 0
  | _, _ => 0

/-- mirrors io/fs/Dir.cpp:531-543 -/
def relativeElts (dirElts fileElts : List Str) : Str :=
  let i := commonSegments dirElts fileElts
  let result := (List.replicate (dirElts.length - i) [dot, dot, separator]).flatten ++
    [separator].intercalate (fileElts.drop i)
  if result = [] then [dot] else result

/-- For a directory whose `getAbsolutePath` is `absolutePath`.
mirrors io/fs/Dir.cpp:486-544 -/
def getRelativeFilePath [Host] (engines : FileEngines) (absolutePath fileName : Str) :
    Option Str := do
  let dir ← cleanPath absolutePath
  let file ← cleanPath fileName
  if isRelativePath engines file || isRelativePath engines dir then some file
  else some (relativeElts (segments dir) (segments file))

end Dir

end Libpdk.Io
