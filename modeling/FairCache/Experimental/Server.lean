import FairCache.Experimental.Protocol
import FairCache.Lib.Dict
import FairCache.Wire.Server

/-!
# The experimental cache server

* `LMSMemoryObj`, `LMSLocalBackend` : the in-memory store of the server;
* `LMCacheServer.serve` : what the server does with one command; `handleClient` : the loop that reads commands;
* `Command` : a command as the client sends it.
-/

namespace FairCache.Experimental

open Lib

/-- `LMSMemoryObj` ; `data` is `None` where `receive_all` was. -/
structure LMSMemoryObj where
  data : Option Bytes
  obj : ObjMeta
  deriving DecidableEq

/-- `LMSLocalBackend`. Its lock is held in `with` blocks only, which release it on every way out. -/
structure LMSLocalBackend where
  dict : Dict CacheEngineKey LMSMemoryObj
  lockHeld : Bool

namespace LMSLocalBackend

/-- An empty store. -/
def new : LMSLocalBackend := { dict := ∅, lockHeld := false }

/-- `put`. -/
def put (b : LMSLocalBackend) (clientMeta : ClientMetaMessage) (kvChunkBytes : Option Bytes) :
    Except ServerError LMSLocalBackend :=
  if b.lockHeld then .error .blocked
  else .ok { b with dict := b.dict.set clientMeta.key { data := kvChunkBytes, obj := clientMeta.obj } }

/-- `get`. -/
def get (b : LMSLocalBackend) (key : CacheEngineKey) : Except ServerError (Option LMSMemoryObj) :=
  if b.lockHeld then .error .blocked else .ok (b.dict.lookup key)

/-- `list_keys`. -/
def listKeys (b : LMSLocalBackend) : Except ServerError (List CacheEngineKey) :=
  if b.lockHeld then .error .blocked else .ok b.dict.keys

end LMSLocalBackend

/-- The server, and what it sent to the client. -/
structure LMCacheServer where
  dataStore : LMSLocalBackend
  sent : Bytes

namespace LMCacheServer

/-- A fresh server. -/
def new : LMCacheServer := { dataStore := .new, sent := [] }

/-- `ServerMetaMessage(code, 0, MemoryFormat(1), torch.float16, torch.Size((0, 0, 0, 0)))` without its code. -/
def noObj : ObjMeta := { length := 0, fmt := .kvBlob, dtype := some .float16, shape := [0, 0, 0, 0] }

/-- `sendall` of the header. -/
def answer (s : LMCacheServer) (code : ℤ) (obj : ObjMeta) : Except (LMCacheServer × ServerError) LMCacheServer :=
  match ServerMetaMessage.serialize { code := code, obj := obj } with
  | .error e => .error (s, .wire e)
  | .ok header => .ok { s with sent := s.sent ++ header }

/-- `sendall` of the data. -/
def answerData (s : LMCacheServer) : Option Bytes → Except (LMCacheServer × ServerError) LMCacheServer
  | none => .error (s, .typeError)
  | some data => .ok { s with sent := s.sent ++ data }

/-- The code of a `CLIENT_EXIST` response. -/
def existCode (keys : List CacheEngineKey) (key : CacheEngineKey) : ℤ :=
  if key ∈ keys then Constants.serverSuccess else Constants.serverFail

/-- The arms of `match meta.command`; `data` is what a `CLIENT_PUT` received after its header. -/
def serve (s : LMCacheServer) (m : ClientMetaMessage) (data : Option Bytes) :
    Except (LMCacheServer × ServerError) LMCacheServer :=
  if m.command = Constants.clientPut then
    match s.dataStore.put m data with
    | .error e => .error (s, e)
    | .ok b => .ok { s with dataStore := b }
  else if m.command = Constants.clientGet then
    match s.dataStore.get m.key with
    | .error e => .error (s, e)
    | .ok (some o) => (s.answer Constants.serverSuccess o.obj).bind fun s => s.answerData o.data
    | .ok none => s.answer Constants.serverFail noObj
  else if m.command = Constants.clientExist then
    match s.dataStore.listKeys with
    | .error e => .error (s, e)
    | .ok keys => s.answer (existCode keys m.key) noObj
  else .ok s

/-- How many bytes follow a header. -/
def bodyLength (m : ClientMetaMessage) : ℕ := if m.command = Constants.clientPut then m.obj.length.toNat else 0

/-- The format of the client's stream. -/
def format : Format ClientMetaMessage WireError where
  headerLength := ClientMetaMessage.packlength
  headerLength_pos := by decide
  deserialize := ClientMetaMessage.deserialize
  bodyLength := bodyLength

/-- `handle_client` : how it leaves the server, and the exception that ended it, if one did. -/
def handleClient (s : LMCacheServer) (clientSocket : Socket) : Option (LMCacheServer × Option ServerError) :=
  format.handle .wire serve s clientSocket

/-- A command of the client. -/
abbrev Command := Frame format

end LMCacheServer

end FairCache.Experimental
