import Mathlib.Algebra.Group.Nat.Defs
import QDNix.Dev.Device
import QDNix.Lib.CString

/-!
# The gemini request handler

`sbin/geminid/gemini.c`. A TLS connection is the list of pieces that successive `SSL_read` calls return: any
non-empty pieces of the stream, of at most the length asked for. The handler's uninitialised stack array is
its argument `stack`, and the static `path` is passed along from request to request.

A run shows the index of each access the two functions make to an array, what they print, and what they pass
to `SSL_write`. `size_t` has 64 bits, and an access outside its array is undefined, after its event.
-/

namespace QDNix.Geminid

open CString Traced

variable {n : Nat}

def MAX_BUFFER : Nat := 1024

def MAX_PATH : Nat := 1024

inductive Event
  | storeBuffer (idx : Nat)
  | readReq (idx : Nat)
  | storePath (idx : Nat)
  | printf (text : List Byte)
  | sslWrite (bytes : List Byte)
deriving DecidableEq, Repr

abbrev Path := Vector Byte MAX_PATH

/-! ### Texts -/

def scheme : List Byte := ['g', 'e', 'm', 'i', 'n', 'i', ':', '/', '/'].map ch

def indexGmi : List Byte := ['/', 'i', 'n', 'd', 'e', 'x', '.', 'g', 'm', 'i'].map ch

/-- `59 Invalid URI` and CR LF. -/
def invalidUri : List Byte :=
  ['5', '9', ' ', 'I', 'n', 'v', 'a', 'l', 'i', 'd', ' ', 'U', 'R', 'I', '\r', '\n'].map ch

/-! ### `gemini_get_path` -/

/-- `len - k` in `size_t`. -/
def sizeSub (len k : Nat) : Nat := (BitVec.ofNat 64 len - BitVec.ofNat 64 k).toNat

/-- `req[idx]` -/
def readReq (req : Vector Byte n) (idx : Nat) : Traced Event Byte := do
  emit (.readReq idx)
  load req idx

/-- `path[idx] = c` -/
def storePath (path : Path) (idx : Nat) (c : Byte) : Traced Event Path := do
  emit (.storePath idx)
  store path idx c

/-- `req[len - 2] != '\r' || req[len - 1] != '\n'`, the second only if the first fails. -/
def lacksCrLf (req : Vector Byte n) (len : Nat) : Traced Event Bool := do
  let c ← readReq req (sizeSub len 2)
  if c ≠ ch '\r' then pure true
  else do
    let c ← readReq req (sizeSub len 1)
    pure (decide (c ≠ ch '\n'))

/-- The copying loop with `rounds = len - i` still to go; it returns the path and `j`. -/
def copyLoop (req : Vector Byte n) : (rounds i j : Nat) → (hasPassHostname : Bool) → Path →
    Traced Event (Path × Nat)
  | 0, _, j, _, path => pure (path, j)
  | rounds + 1, i, j, hasPassHostname, path =>
    if j < MAX_BUFFER then do
      let c ← readReq req i
      if c = ch '\r' ∨ c = ch '\n' then pure (path, j)
      else if hasPassHostname = false ∧ c ≠ ch '/' then copyLoop req rounds (i + 1) j false path
      else do
        let path ← storePath path j c
        copyLoop req rounds (i + 1) (j + 1) true path
    else pure (path, j)

/-- `none` is `NULL`. -/
def geminiGetPath (path : Path) (req : Vector Byte n) : Traced Event (Option Path) := do
  let len ← strlen req
  let lacks ← lacksCrLf req len
  if lacks then pure none
  else if strncmp scheme req.toList 9 ≠ 0 then pure none
  else do
    let (path, j) ← copyLoop req (len - 9) 9 0 false path
    let path ← storePath path j 0
    if strcmp [ch '/'] path.toList = 0 then do
      let path ← strcpy path indexGmi
      pure (some path)
    else pure (some path)

/-! ### `gemini_protocol_handler` -/

/-- What one `SSL_read` for `size` bytes returns, and what is still to come. -/
def sslRead (client : List (List Byte)) (size : Nat) : List Byte × List (List Byte) :=
  match client with
  | [] => ([], [])
  | piece :: rest => (piece.take size, if piece.length ≤ size then rest else piece.drop size :: rest)

/-- The end of the handler, given the result of `gemini_get_path`. It returns the static `path` and what has
not been read. The format of the `sprintf` has no conversions. -/
def answer (buffer : Vector Byte MAX_BUFFER) (path : Path) (client : List (List Byte)) :
    Option Path → Traced Event (Path × List (List Byte))
  | none => do
    let buffer ← strcpy buffer invalidUri
    emit (.sslWrite (buffer.toList.take MAX_BUFFER))
    pure (path, client)
  | some path => do
    let text ← readStr path
    emit (.printf (text ++ [ch '\n']))
    pure (path, client)

def geminiProtocolHandler (stack : Vector Byte MAX_BUFFER) (path : Path) (client : List (List Byte)) :
    Traced Event (Path × List (List Byte)) := do
  let (received, client) := sslRead client MAX_BUFFER
  if 0 < received.length then do
    let buffer := overwrite stack received
    emit (.storeBuffer received.length)
    let buffer ← store buffer received.length 0
    let text ← readStr buffer
    emit (.printf text)
    let result ← geminiGetPath path buffer
    answer buffer path client result
  else pure (path, client)

end QDNix.Geminid
