import FairCache.Experimental.Server

/-!
# The connector of the experimental cache server

Coroutines call `exists`, `put` and `get` on one socket. They take `async_socket_lock` in turns and are suspended only
where they wait for it and where `put` sends.

* `Request`, `Segment` : what asks for a response, and what a coroutine does once it has the lock;
* `Connection` : the lock with its waiters, both directions of the socket and the server at the other end, with the
  history of what was issued, executed, answered and returned;
* `Step`, `step` : a coroutine that starts or goes on, one receive, or one turn of the server.
-/

namespace FairCache.Experimental

open Lib

/-- A call that asks for a response. -/
inductive Request
  | exist (key : CacheEngineKey)
  | get (key : CacheEngineKey)
  deriving DecidableEq

namespace Request

/-- The message that it sends. -/
def msg : Request → ClientMetaMessage
  | .exist key => { command := Constants.clientExist, key := key, obj := LMCacheServer.noObj }
  | .get key => { command := Constants.clientGet, key := key, obj := LMCacheServer.noObj }

end Request

/-- The message of a `put` of the bytes of a memory object. -/
def putMsg (key : CacheEngineKey) (obj : ObjMeta) (kvBytes : Bytes) : ClientMetaMessage :=
  { command := Constants.clientPut, key := key, obj := { obj with length := kvBytes.length } }

/-- A `get` that has the header of its response; it was the `id`-th request. -/
structure Pending where
  id : ℕ
  request : Request
  header : Bytes
  info : ServerMetaMessage
  deriving DecidableEq

/-- What a coroutine does with the lock. -/
inductive Segment
  | ask (r : Request)
  | put (key : CacheEngineKey) (obj : ObjMeta) (kvBytes : Bytes)
  /-- `receive_all`. -/
  | payload (p : Pending)
  deriving DecidableEq

/-- Does it send a request? -/
def Segment.asks : Segment → Bool
  | .ask _ => true
  | .put _ _ _ => false
  | .payload _ => false

/-- What blocks the event loop, with the lock held. -/
inductive Blocked
  | header (id : ℕ) (r : Request)
  | allocating (p : Pending)
  | data (p : Pending)
  deriving DecidableEq

/-- What a call returns. -/
inductive Outcome
  /-- `exists` -/
  | present (b : Bool)
  /-- `get` : a memory object with these bytes. -/
  | value (obj : ObjMeta) (data : Bytes)
  /-- `get` : `None`. -/
  | absent
  | raised
  deriving DecidableEq

/-- A message with the bytes that belong to it. -/
abbrev Record := ClientMetaMessage × Bytes

/-- What the server sent for a request, and the store that it found. -/
structure Answer where
  msg : ClientMetaMessage
  response : Bytes
  store : Dict CacheEngineKey LMSMemoryObj

/-- A call that is over: what it received, and what it returned. -/
structure Done where
  id : ℕ
  msg : ClientMetaMessage
  received : Bytes
  outcome : Outcome
  deriving DecidableEq

/-- The connection. -/
structure Connection where
  server : LMCacheServer
  /-- The exception that ended `handle_client`. -/
  ended : Option ServerError
  toServer : Bytes
  toClient : Bytes
  /-- What the `put` that holds the lock has still to send. -/
  sending : Option Bytes
  blocked : Option Blocked
  /-- The coroutines that wait for the lock, in their order. Whoever releases it wakes the first one. -/
  waiters : List Segment
  /-- How many requests were sent. -/
  asked : ℕ
  /-- The commands with their objects, in the order in which they took the lock. -/
  issued : List Record
  /-- The commands with their bodies, as the server executed them. -/
  executed : List Record
  answers : List Answer
  finished : List Done

namespace Connection

/-- A fresh connection to the server. -/
def new (server : LMCacheServer) : Connection :=
  { server := server, ended := none, toServer := [], toClient := [], sending := none, blocked := none, waiters := []
    asked := 0, issued := [], executed := [], answers := [], finished := [] }

/-- What the event loop or the server does at once. -/
inductive Step
  /-- `exists` or `get` is called. -/
  | ask (r : Request)
  /-- `put` is called. -/
  | put (key : CacheEngineKey) (obj : ObjMeta) (kvBytes : Bytes)
  /-- The first waiter goes on. -/
  | resume
  /-- `sock_sendall` sends some bytes. -/
  | send (n : ℕ)
  /-- `put` leaves the `async with`. -/
  | release
  /-- `receive_all` allocates a buffer of that many bytes. -/
  | allocate (size : Option ℕ)
  | receive
  | server

/-- The call returns; the loop is free. -/
def finish (s : Connection) (id : ℕ) (r : Request) (received : Bytes) (outcome : Outcome) : Connection :=
  { s with blocked := none, finished := s.finished ++ [{ id := id, msg := r.msg, received := received, outcome := outcome }] }

/-- A coroutine goes on with the lock. A message that cannot be packed raises, and the lock is released. -/
def run (s : Connection) : Segment → Connection
  | .ask r =>
    let s := { s with issued := s.issued ++ [(r.msg, [])] }
    match r.msg.serialize with
    | .error _ => s
    | .ok header =>
      { s with toServer := s.toServer ++ header, asked := s.asked + 1, blocked := some (.header s.asked r) }
  | .put key obj kvBytes =>
    let s := { s with issued := s.issued ++ [(putMsg key obj kvBytes, kvBytes)] }
    match (putMsg key obj kvBytes).serialize with
    | .error _ => s
    | .ok header => { s with sending := some (header ++ kvBytes) }
  | .payload p => { s with blocked := some (.allocating p) }

/-- `async with self.async_socket_lock` : at once, if the lock is free and nobody waits. -/
def acquire (s : Connection) (seg : Segment) : Connection :=
  if s.sending = none ∧ s.waiters = [] then s.run seg else { s with waiters := s.waiters ++ [seg] }

/-- One turn of the server, when all the bytes of a command are there. -/
def serverTurn (s : Connection) : Except Unit Connection :=
  if s.ended.isSome then .error ()
  else
    match LMCacheServer.format.read s.toServer with
    | none => .error ()
    | some (.error e) => .ok { s with ended := some (.wire e) }
    | some (.ok (m, body, rest)) =>
      match s.server.serve m (some body) with
      | .error (server, e) => .ok { s with server := server, ended := some e, toServer := rest }
      | .ok server =>
        let response := server.sent.drop s.server.sent.length
        .ok
          { s with
            server := server
            toServer := rest
            toClient := s.toClient ++ response
            executed := s.executed ++ [(m, body)]
            answers :=
              if m.command = Constants.clientPut then s.answers
              else s.answers ++ [{ msg := m, response := response, store := s.server.dataStore.dict }] }

/-- `recv` of the header: the lock is released, and a `get` that is to receive data asks for it again. -/
def receiveHeader (s : Connection) (id : ℕ) (r : Request) : Except Unit Connection :=
  if s.toClient.length < ServerMetaMessage.packlength then .error ()
  else
    let data := s.toClient.take ServerMetaMessage.packlength
    let s := { s with toClient := s.toClient.drop ServerMetaMessage.packlength, blocked := none }
    match ServerMetaMessage.deserialize data with
    | .error _ => .ok (s.finish id r data .raised)
    | .ok m =>
      match r with
      | .exist _ => .ok (s.finish id r data (.present (m.code == Constants.serverSuccess)))
      | .get _ =>
        if m.code = Constants.serverSuccess then
          .ok (s.acquire (.payload { id := id, request := r, header := data, info := m }))
        else .ok (s.finish id r data .absent)

/-- `receive_all` gets its buffer. A buffer that is too small raises in `recv_into`. -/
def allocate (s : Connection) (size : Option ℕ) : Except Unit Connection :=
  match s.blocked with
  | some (.allocating p) =>
    match size with
    | none => .ok (s.finish p.id p.request p.header .absent)
    | some n =>
      if p.info.obj.length ≤ n then .ok { s with blocked := some (.data p) }
      else .ok (s.finish p.id p.request p.header .raised)
  | _ => .error ()

/-- `recv_into` until the data is there. -/
def receiveData (s : Connection) (p : Pending) : Except Unit Connection :=
  let length := p.info.obj.length.toNat
  if s.toClient.length < length then .error ()
  else
    let data := s.toClient.take length
    .ok ({ s with toClient := s.toClient.drop length }.finish p.id p.request (p.header ++ data) (.value p.info.obj data))

/-- One step, if it can be taken. -/
def step (s : Connection) : Step → Except Unit Connection
  | .ask r => if s.blocked.isSome then .error () else .ok (s.acquire (.ask r))
  | .put key obj kvBytes => if s.blocked.isSome then .error () else .ok (s.acquire (.put key obj kvBytes))
  | .resume =>
    match s.blocked, s.sending, s.waiters with
    | none, none, seg :: waiters => .ok ({ s with waiters := waiters }.run seg)
    | _, _, _ => .error ()
  | .send n =>
    match s.blocked, s.sending with
    | none, some bytes =>
      if 0 < n ∧ n ≤ bytes.length then
        .ok { s with toServer := s.toServer ++ bytes.take n, sending := some (bytes.drop n) }
      else .error ()
    | _, _ => .error ()
  | .release =>
    match s.blocked, s.sending with
    | none, some [] => .ok { s with sending := none }
    | _, _ => .error ()
  | .allocate size => s.allocate size
  | .receive =>
    match s.blocked with
    | some (.header id r) => s.receiveHeader id r
    | some (.data p) => s.receiveData p
    | _ => .error ()
  | .server => s.serverTurn

end Connection

end FairCache.Experimental
