/-
# Static files

`src/static/ioh_static.c`: a request's path below a directory, the conditional
and the range headers of the request, and the response with the file or a
part of it. The file system and the calendar functions of the C library are
parameters. Allocation succeeds, and `fseek` on a file that could be opened.
-/
import Iohttp.Http.Cookie

namespace Iohttp

/-- `struct stat`, as far as it is read. -/
structure FileStat where
  directory : Bool
  size : ℕ
  mtime : ℤ
  deriving DecidableEq, Repr

/-- What the calls for files and dates give: `realpath`, `stat`, the bytes behind
`fopen`, `strptime` with `timegm`, and `gmtime_r` with `strftime`. -/
structure Files where
  realpath : Bytes → Option Bytes
  stat : Bytes → Option FileStat
  content : Bytes → Option Bytes
  parseDate : Bytes → Option ℤ
  formatDate : ℤ → Option Bytes

/-- `ioh_static_config_t`, as far as it is read. -/
structure StaticConfig where
  rootDir : Option Bytes
  etag : Bool
  maxAgeDefault : ℕ
  deriving DecidableEq, Repr

/-- `ioh_static_config_init`. -/
def staticConfigInit : StaticConfig := ⟨none, true, 3600⟩

/-- `mime_table`. -/
def mimeTable : List (Bytes × Bytes) :=
  [(bytes ".html", bytes "text/html"), (bytes ".htm", bytes "text/html"),
    (bytes ".css", bytes "text/css"),
    (bytes ".js", bytes "text/javascript"), (bytes ".json", bytes "application/json"),
    (bytes ".xml", bytes "application/xml"), (bytes ".png", bytes "image/png"),
    (bytes ".jpg", bytes "image/jpeg"),
    (bytes ".jpeg", bytes "image/jpeg"), (bytes ".gif", bytes "image/gif"),
    (bytes ".svg", bytes "image/svg+xml"),
    (bytes ".ico", bytes "image/x-icon"), (bytes ".webp", bytes "image/webp"),
    (bytes ".avif", bytes "image/avif"),
    (bytes ".woff", bytes "font/woff"), (bytes ".woff2", bytes "font/woff2"),
    (bytes ".ttf", bytes "font/ttf"),
    (bytes ".otf", bytes "font/otf"), (bytes ".pdf", bytes "application/pdf"),
    (bytes ".zip", bytes "application/zip"),
    (bytes ".gz", bytes "application/gzip"), (bytes ".br", bytes "application/x-brotli"),
    (bytes ".wasm", bytes "application/wasm"), (bytes ".txt", bytes "text/plain"),
    (bytes ".csv", bytes "text/csv"),
    (bytes ".mp4", bytes "video/mp4"), (bytes ".webm", bytes "video/webm"),
    (bytes ".mp3", bytes "audio/mpeg"),
    (bytes ".ogg", bytes "audio/ogg"), (bytes ".map", bytes "application/json")]

/-- `ioh_mime_type`: what is behind the last dot of the last part of the path. -/
def mimeType (path : Bytes) : Bytes :=
  let ext := path.rtakeWhile fun c => c ≠ 46 ∧ c ≠ slash
  let known :=
    if (path.take (path.length - ext.length)).getLast? = some 46 then
      mimeTable.find? fun e => eqIgnoreCase (46 :: ext) e.1
    else none
  match known with
  | some e => e.2
  | none => bytes "application/octet-stream"

/-- `%lx`. -/
def hexOf (n : ℕ) : Bytes := (Nat.toDigits 16 n).map fun c => c.toNat.toUInt8

/-- `ioh_etag_generate` in a buffer of `size` bytes. -/
def etagGenerate (mtime fileSize size : ℕ) : Option Bytes :=
  let etag := bytes "\"" ++ hexOf mtime ++ bytes "-" ++ hexOf fileSize ++ bytes "\""
  if size < 32 ∨ size ≤ etag.length then none else some etag

/-- The loop of `path_is_safe`: `..` between slashes or ends of the path. -/
def hasDotDot : Bool → Bytes → Bool
  | start, 46 :: 46 :: rest =>
    (start && (rest = [] || rest.head? = some slash)) || hasDotDot false (46 :: rest)
  | _, c :: rest => hasDotDot (c = slash) rest
  | _, [] => false

/-- `path_is_safe`. -/
def pathIsSafe (path : Bytes) : Bool := !path.contains 0 && !hasDotDot true path

/-- `strtoul` in base 10, if there is a number: the value, and what is behind it. -/
def strtoul (p : Bytes) : Option (ℕ × Bytes) :=
  let p := p.dropWhile fun c => c = 32 ∨ (9 ≤ c ∧ c ≤ 13)
  let negative := p.head? = some 45
  let p := if negative ∨ p.head? = some 43 then p.tail else p
  let digits := p.takeWhile fun c => 48 ≤ c ∧ c ≤ 57
  if digits = [] then none
  else
    let n : ℕ := digits.foldl (fun n c => 10 * n + (c.toNat - 48)) 0
    let value : ℕ := if 2 ^ 64 ≤ n then 2 ^ 64 - 1 else if negative then (2 ^ 64 - n) % 2 ^ 64 else n
    some (value, p.drop digits.length)

/-- `parse_range`, for a file that is not empty: the first and the last byte. -/
def parseRange (range : Bytes) (fileSize : ℕ) : Option (ℕ × ℕ) :=
  if (bytes "bytes=").isPrefixOf range then
    match range.drop 6 with
    | 45 :: p =>
      match strtoul p with
      | some (suffix, _) =>
        if suffix = 0 ∨ fileSize < suffix then none else some (fileSize - suffix, fileSize - 1)
      | none => none
    | p =>
      match strtoul p with
      | some (first, 45 :: p) =>
        let last :=
          match p.head?.getD 0 with
          | 0 | 44 | 32 => some (fileSize - 1)
          | _ => (strtoul p).map Prod.fst
        last.bind fun last => if last < first ∨ fileSize ≤ last then none else some (first, last)
      | _ => none
  else none

/-- The file of a path: its resolved name and what `stat` says. -/
def staticFile (files : Files) (cfg : StaticConfig) (path : Bytes) : Except ℤ (Bytes × FileStat) :=
  match cfg.rootDir with
  | none => .error (-EINVAL)
  | some root =>
    if path = [] then .error (-EINVAL)
    else if !pathIsSafe path then .error (-EACCES)
    else if 4096 ≤ (root ++ path).length then .error (-ENAMETOOLONG)
    else
      match files.realpath (root ++ path), files.realpath root with
      | some resolved, some resolvedRoot =>
        if !resolvedRoot.isPrefixOf resolved then .error (-EACCES)
        else if (resolved.drop resolvedRoot.length).head?.any (· ≠ slash) then .error (-EACCES)
        else
          match files.stat resolved with
          | some st => if st.directory then .error (-ENOENT) else .ok (resolved, st)
          | none => .error (-ENOENT)
      | _, _ => .error (-ENOENT)

/-- `ioh_response_set_header` for each of the headers. -/
def setHeaders (resp : Response) (headers : List (Bytes × Bytes)) : Response :=
  headers.foldl (fun resp h => responseSetHeader resp h.1 h.2) resp

/-- `st_mtime` as an unsigned number. -/
def FileStat.mtimeUnsigned (st : FileStat) : ℕ := (st.mtime % 2 ^ 64).toNat

/-- `If-None-Match` names the version of the file. -/
def noneMatch (mem : Bytes) (req : Request) (etag : Option Bytes) : Bool :=
  etag.any fun etag => (requestHeader mem req (bytes "If-None-Match")).any fun p =>
  strn maxHeaderSize p = etag

/-- `If-Modified-Since` gives a date that is not before that of the file. -/
def notModifiedSince (files : Files) (mem : Bytes) (req : Request) (st : FileStat) : Bool :=
  (requestHeader mem req (bytes "If-Modified-Since")).any fun p =>
    (files.parseDate (stringAt p)).any fun t => 0 ≤ t ∧ st.mtimeUnsigned ≤ t.toNat

def requestRange (mem : Bytes) (req : Request) (fileSize : ℕ) : Option (ℕ × ℕ) :=
  if 0 < fileSize then (requestHeader mem req (bytes "Range")).bind fun p =>
  parseRange p fileSize else none

/-- The header that says which part of the file it is. -/
def contentRange (fileSize : ℕ) : Option (ℕ × ℕ) → List (Bytes × Bytes)
  | some (first, last) => [(bytes "Content-Range",
      bytes "bytes " ++ dec first ++ bytes "-" ++ dec last ++ bytes "/" ++ dec fileSize)]
  | none => []

def staticHeaders (files : Files) (cfg : StaticConfig) (path : Bytes) (st : FileStat)
    (etag : Option Bytes)
    (range : Option (ℕ × ℕ)) (length : ℕ) : List (Bytes × Bytes) :=
  contentRange st.size range ++
  [(bytes "Content-Type", mimeType path), (bytes "Content-Length", dec length),
    (bytes "Accept-Ranges", bytes "bytes")] ++
  (etag.map fun etag => (bytes "ETag", etag)).toList ++
  ((files.formatDate st.mtime).map fun date => (bytes "Last-Modified", date)).toList ++
  [(bytes "Cache-Control", bytes "public, max-age=" ++ dec cfg.maxAgeDefault)]

/-- `ioh_static_serve` from where it reads the file. -/
def serveContent (files : Files) (cfg : StaticConfig) (path resolved : Bytes) (st : FileStat)
    (etag : Option Bytes)
    (range : Option (ℕ × ℕ)) (resp : Response) : Response × ℤ :=
  match files.content resolved with
  | none => (resp, -ENOENT)
  | some content =>
    let start := (range.map Prod.fst).getD 0
    let readLen := (range.map fun r => r.2 - r.1 + 1).getD st.size
    let body := (content.drop start).take readLen
    if body.length ≠ readLen then (resp, - EIO)
    else
      let resp := { resp with status := if range.isSome then 206 else 200 }
      let resp := setHeaders resp (staticHeaders files cfg path st etag range body.length)
      (responseSetBody resp body, 0)

/-- `ioh_static_serve`. -/
def staticServe (files : Files) (cfg : StaticConfig) (mem : Bytes) (req : Request) (resp : Response) :
    Response × ℤ :=
  match staticFile files cfg req.path.bytes with
  | .error e => (resp, e)
  | .ok (resolved, st) =>
    let etag := if cfg.etag then etagGenerate st.mtimeUnsigned st.size 64 else none
    if noneMatch mem req etag ∨ notModifiedSince files mem req st then
      (setHeaders { resp with status := 304 } (etag.map fun etag => (bytes "ETag", etag)).toList, 0)
    else serveContent files cfg req.path.bytes resolved st etag (requestRange mem req st.size) resp

theorem staticFile_error {files : Files} {cfg : StaticConfig} {path : Bytes} {e : ℤ}
    (h : staticFile files cfg path = .error e) : e ≠ 0 := by
  unfold staticFile at h
  split at h
  · cases h
    decide
  · split_ifs at h
    · cases h
      decide
    · cases h
      decide
    · cases h
      decide
    · split at h
      · split_ifs at h
        · cases h
          decide
        · cases h
          decide
        · split at h
          · split_ifs at h
            cases h
            decide
          · cases h
            decide
      · cases h
        decide

end Iohttp
