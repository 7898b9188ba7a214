import FairCache.Wire.Server

/-!
# The connector to the cache server

The put worker calls `set`, the main thread `get`, `exists` and `list`, all on one socket.

* `Request` : what the main thread asks;
* `Connection` : both threads, both directions of the socket and the server at the other end, with the history of what was
  issued, executed, sent back and received;
* `Step`, `step` : one `send_all`, one turn of the server or one receive.
-/

namespace FairCache

open Lib

/-- A call of the main thread. -/
inductive Request
  | get (key : String)
  | contains (key : String)
  | list
  deriving DecidableEq

namespace Request

/-- The message that it sends. -/
def msg : Request → ClientMetaMessage
  | .get key => { command := Constants.clientGet, key := key, length := 0 }
  | .contains key => { command := Constants.clientExist, key := key, length := 0 }
  | .list => { command := Constants.clientList, key := "", length := 0 }

/-- Does it receive data after a header with `SERVER_SUCCESS`? -/
def wantsData : Request → Bool
  | .get _ => true
  | .contains _ => false
  | .list => true

end Request

/-- Where a call waits: for the header of its response, or for the data that the header announced. -/
inductive Waiting
  | header (r : Request)
  | data (r : Request) (length : ℤ) (received : Bytes)
  deriving DecidableEq

/-- A message with the bytes that belong to it. -/
abbrev Record := ClientMetaMessage × Bytes

/-- The connection. -/
structure Connection where
  server : LMCacheServer
  /-- The exception that ended `handle_client`. -/
  ended : Option ServerError
  toServer : Bytes
  toClient : Bytes
  /-- The put worker sent a header, and this object is to follow. -/
  worker : Option Bytes
  /-- What the main thread waits for. -/
  main : Option Waiting
  /-- The commands with their objects, in the order in which their headers were sent. -/
  issued : List Record
  /-- The commands with their bodies, as the server executed them. -/
  executed : List Record
  /-- What the server sent for each command other than a put. -/
  responses : List Record
  /-- What each call that returned had received. -/
  consumed : List Record

namespace Connection

/-- A fresh connection to the server. -/
def new (server : LMCacheServer) : Connection :=
  { server := server, ended := none, toServer := [], toClient := [], worker := none, main := none
    issued := [], executed := [], responses := [], consumed := [] }

/-- What a thread or the server does at once. -/
inductive Step
  | setHeader (key : String) (obj : Bytes)
  | setBody
  | request (r : Request)
  | server
  | receive

/-- The call returns after it received these bytes. -/
def returns (s : Connection) (r : Request) (received : Bytes) : Connection :=
  { s with main := none, consumed := s.consumed ++ [(r.msg, received)] }

/-- One turn of the server, when all the bytes of a command are there. -/
def serverTurn (s : Connection) : Except Unit Connection :=
  if s.ended.isSome then .error ()
  else
    match LMCacheServer.format.read s.toServer with
    | none => .error ()
    | some (.error e) => .ok { s with ended := some (.wire e) }
    | some (.ok (m, body, rest)) =>
      match s.server.serve m (some body) with
      | .error (server, e) => .ok { s with server := server, ended := some e, toServer := rest }
      | .ok server =>
        let response := server.sent.drop s.server.sent.length
        .ok
          { s with
            server := server
            toServer := rest
            toClient := s.toClient ++ response
            executed := s.executed ++ [(m, body)]
            responses := if m.command = Constants.clientPut then s.responses else s.responses ++ [(m, response)] }

/-- The next receive of the main thread, when the bytes are there. -/
def receive (s : Connection) : Except Unit Connection :=
  match s.main with
  | none => .error ()
  | some (.header r) =>
    if s.toClient.length < ServerMetaMessage.packlength then .error ()
    else
      let data := s.toClient.take ServerMetaMessage.packlength
      let s := { s with toClient := s.toClient.drop ServerMetaMessage.packlength }
      match ServerMetaMessage.deserialize data with
      | .error _ => .error ()
      | .ok m =>
        if r.wantsData && m.code == Constants.serverSuccess then .ok { s with main := some (.data r m.length data) }
        else .ok (s.returns r data)
  | some (.data r length received) =>
    if s.toClient.length < length.toNat then .error ()
    else
      let data := s.toClient.take length.toNat
      .ok ({ s with toClient := s.toClient.drop length.toNat }.returns r (received ++ data))

/-- One step, if its thread is there. A message that cannot be packed raises, and nothing is sent. -/
def step (s : Connection) : Step → Except Unit Connection
  | .setHeader key obj =>
    if s.worker.isSome then .error ()
    else
      let m : ClientMetaMessage := { command := Constants.clientPut, key := key, length := obj.length }
      let s := { s with issued := s.issued ++ [(m, obj)] }
      match m.serialize with
      | .error _ => .ok s
      | .ok header => .ok { s with toServer := s.toServer ++ header, worker := some obj }
  | .setBody =>
    match s.worker with
    | none => .error ()
    | some obj => .ok { s with toServer := s.toServer ++ obj, worker := none }
  | .request r =>
    if s.main.isSome then .error ()
    else
      let s := { s with issued := s.issued ++ [(r.msg, [])] }
      match r.msg.serialize with
      | .error _ => .ok s
      | .ok header => .ok { s with toServer := s.toServer ++ header, main := some (.header r) }
  | .server => s.serverTurn
  | .receive => s.receive

end Connection

end FairCache
