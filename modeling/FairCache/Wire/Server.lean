import FairCache.Lib.Dict
import FairCache.Wire.Protocol

/-!
# The cache server

* `LMSLocalBackend` : the in-memory store of the server and its lock;
* `LMCacheServer.serve` : what the server does with one command; `handleClient` : the loop that reads commands;
* `Command` : a command as the client sends it; `Command.ofMessage` : the one with a given message.
-/

namespace FairCache

open Lib

/-- What leaves the loop, besides the end of the stream. -/
inductive ServerError
  | wire (e : WireError)
  /-- `get_size` met something that is no `bytearray`. -/
  | unknownDataType
  /-- `sendall` met something that is no bytes. -/
  | typeError
  /-- Nothing is raised: the thread waits for a lock that nobody releases. -/
  | blocked
  deriving DecidableEq

/-- `LMSLocalBackend`. -/
structure LMSLocalBackend where
  dict : Dict String Bytes
  updateLockHeld : Bool

namespace LMSLocalBackend

/-- An empty store. -/
def new : LMSLocalBackend := { dict := ∅, updateLockHeld := false }

/-- `put`, and what it raises. The evictor is a dummy, which refuses and evicts nothing. -/
def put (b : LMSLocalBackend) (key : String) (kvChunkBytes : Option Bytes) : LMSLocalBackend × Option ServerError :=
  if b.updateLockHeld then (b, some .blocked)
  else
    match kvChunkBytes with
    -- `get_size` raises, and the lock is not released
    | none => ({ b with updateLockHeld := true }, some .unknownDataType)
    | some data => ({ b with dict := b.dict.set key data }, none)

/-- `get`. -/
def get (b : LMSLocalBackend) (key : String) : Except ServerError (Option Bytes) :=
  if b.updateLockHeld then .error .blocked else .ok (b.dict.lookup key)

/-- `list_keys`. -/
def listKeys (b : LMSLocalBackend) : List String := b.dict.keys

end LMSLocalBackend

/-- The server, and what it sent to the client. -/
structure LMCacheServer where
  dataStore : LMSLocalBackend
  sent : Bytes

namespace LMCacheServer

/-- A fresh server. -/
def new : LMCacheServer := { dataStore := .new, sent := [] }

/-- `sendall` of the header and the data after it. -/
def answer (s : LMCacheServer) (code : ℤ) (data : Bytes) : Except (LMCacheServer × ServerError) LMCacheServer :=
  match ServerMetaMessage.serialize { code := code, length := data.length } with
  | .error e => .error (s, .wire e)
  | .ok header => .ok { s with sent := s.sent ++ header ++ data }

/-- The data of a `CLIENT_LIST` response. -/
def listing (s : LMCacheServer) : Bytes := Bytes.encode ("\n".intercalate s.dataStore.listKeys).toList

/-- The code of a `CLIENT_EXIST` response. -/
def existCode (s : LMCacheServer) (key : String) : ℤ :=
  if key ∈ s.dataStore.listKeys then Constants.serverSuccess else Constants.serverFail

/-- The arms of `match meta.command`; `data` is what a `CLIENT_PUT` received after its header. -/
def serve (s : LMCacheServer) (m : ClientMetaMessage) (data : Option Bytes) :
    Except (LMCacheServer × ServerError) LMCacheServer :=
  if m.command = Constants.clientPut then
    match s.dataStore.put m.key data with
    | (b, some e) => .error ({ s with dataStore := b }, e)
    | (b, none) => .ok { s with dataStore := b }
  else if m.command = Constants.clientGet then
    match s.dataStore.get m.key with
    | .error e => .error (s, e)
    | .ok (some dataString) => s.answer Constants.serverSuccess dataString
    | .ok none => s.answer Constants.serverFail []
  else if m.command = Constants.clientExist then s.answer (s.existCode m.key) []
  else if m.command = Constants.clientList then s.answer Constants.serverSuccess s.listing
  else .ok s

/-- How many bytes follow a header. -/
def bodyLength (m : ClientMetaMessage) : ℕ := if m.command = Constants.clientPut then m.length.toNat else 0

/-- The format of the client's stream. -/
def format : Format ClientMetaMessage WireError where
  headerLength := ClientMetaMessage.packlength
  headerLength_pos := by decide
  deserialize := ClientMetaMessage.deserialize
  bodyLength := bodyLength

/-- `handle_client` : how it leaves the server, and the exception that ended it, if one did. -/
def handleClient (s : LMCacheServer) (clientSocket : Socket) : Option (LMCacheServer × Option ServerError) :=
  format.handle .wire serve s clientSocket

/-- A command of the client. -/
abbrev Command := Frame format

/-- The command with the message, if the message fits. -/
def Command.ofMessage (m : ClientMetaMessage) (h : m.Fits) (body : Bytes) (hbody : body.length = bodyLength m) : Command where
  header := m.packed
  msg := m
  body := body
  length_header := m.length_packed
  deserialize_header := ClientMetaMessage.deserialize_packed h
  length_body := hbody

end LMCacheServer

end FairCache
